/-
# Opening a namespace directory

`openNamespace` lists the data files in id order, loads each lower one from its
footer or record by record, and treats the highest as active: sealed if it ends
in a footer, replayed and truncated otherwise. Reads meet no I/O fault here, so
the `read_at` error arms of the two scan loops do not occur.

The two scan loops of the source have one body, `scanRecord`. The section on
scanning proves where a scan over written records stops: at the first byte that
is not a whole, verified record (`scanLoop_recs_then`, `scanLoop_of_stops`).
-/
import BeyondKv.Disk

namespace BeyondKv

/-- One turn of the scan loops: the record at `offset`, or `none` where they break. -/
def scanRecord (P : Prims) (file : Bytes) (offset : Nat) : Option (RecordHeader × Bytes) :=
  let headerBuf := Bytes.slice file offset headerLen
  if headerBuf.length < headerLen then none
  else
    match parseHeader headerBuf offset with
    | .error _ => none
    | .ok hdr =>
      let body := Bytes.slice file (offset + headerLen) hdr.bodyLen
      if body.length < hdr.bodyLen then none
      else
        match verifyCrc P hdr headerBuf body offset with
        | .error _ => none
        | .ok _ => some (hdr, body)

/-- The expiry a header carries. -/
def RecordHeader.expiry (hdr : RecordHeader) : Option UInt64 :=
  if hasFlag hdr.flags flagNoExpiry then none else some hdr.expiresAtMs

def applyRecord (index : NsIndex) (fileId offset : Nat) (hdr : RecordHeader)
    (body : Bytes) : NsIndex :=
  if body.length < hdr.keySize then index
  else
    let key := body.take hdr.keySize
    if hasFlag hdr.flags flagTombstone then (index.remove key).2
    else if hasFlag hdr.flags flagTtlUpdate then
      -- an update of a key that is not in the index is an orphan and ignored
      if (index.get key).isSome then index.setTtl key hdr.expiry else index
    else if hdr.recordLen > u32Max then index
    else
      let index := index.insert key
        (IndexEntry.new fileId offset hdr.recordLen hdr.tstampMs) hdr.expiry
      if hasFlag hdr.flags flagValueSep ∧ hdr.valSize = 16
          ∧ hdr.keySize + hdr.valSize ≤ body.length then
        match FooterEntry.hashOfBytes (Bytes.slice body hdr.keySize 16) with
        | some h => index.setValsep key (some h)
        | none => index
      else index

/-- The scan from `offset`: the index after it and the end of the last good record.
Each turn moves at least a header's length, so the file's length bounds the turns. -/
def scanLoop (P : Prims) (file : Bytes) (fileId : Nat) :
    Nat → Nat → NsIndex → NsIndex × Nat
  | 0, offset, index => (index, offset)
  | fuel + 1, offset, index =>
    if offset < file.length then
      match scanRecord P file offset with
      | none => (index, offset)
      | some (hdr, body) =>
        scanLoop P file fileId fuel (offset + hdr.recordLen)
          (applyRecord index fileId offset hdr body)
    else (index, offset)

def rebuildFromRecords (P : Prims) (file : Bytes) (fileId : Nat) (index : NsIndex) : NsIndex :=
  (scanLoop P file fileId (file.length + 1) 0 index).1

/-- The replayed index, and the offset the file is truncated to. -/
def replayActive (P : Prims) (file : Bytes) (fileId : Nat) (index : NsIndex) :
    NsIndex × Nat :=
  scanLoop P file fileId (file.length + 1) 0 index

def applyFooterEntry (fileId : Nat) (index : NsIndex) (e : FooterEntry) : NsIndex :=
  (index.insert e.key (IndexEntry.new fileId e.recordOffset e.recordSize e.tstampMs)
    e.expiresAtMs).setValsep e.key e.valueHash

def applyFooterEntries (index : NsIndex) (fileId : Nat) (entries : List FooterEntry) : NsIndex :=
  entries.foldl (applyFooterEntry fileId) index

/-- One lower file: its footer if it has one, its records otherwise. -/
def loadSealed (P : Prims) (index : NsIndex) (fileId : Nat) (file : Bytes) :
    Except EngineError NsIndex := do
  match ← readFooter P file with
  | some entries => return applyFooterEntries index fileId entries
  | none => return rebuildFromRecords P file fileId index

/-- The loop over the lower files. -/
def loadAllSealed (P : Prims) (d : Disk) : List (Nat × Nat) → NsIndex →
    Except EngineError NsIndex
  | [], index => .ok index
  | (fileId, ino) :: rest, index => do
    let index ← loadSealed P index fileId (d.inodes ino)
    loadAllSealed P d rest index

structure OpenedFiles where
  sealed : List LogFile
  active : LogFile
  index : NsIndex

def openNamespace (P : Prims) (d : Disk) : Except EngineError (OpenedFiles × Disk) :=
  match d.listDataFiles.getLast? with
  | none =>
    let (ino, d) := d.openCreateData 0
    .ok ({ sealed := [], active := ⟨0, ino⟩, index := .empty }, d)
  | some (activeId, activeIno) => do
    let lower := d.listDataFiles.dropLast
    let index ← loadAllSealed P d lower .empty
    let sealed := lower.map fun (id, ino) => LogFile.mk id ino
    match ← readFooter P (d.inodes activeIno) with
    | some entries =>
      let index := applyFooterEntries index activeId entries
      if activeId + 1 > u32Max then
        .error (.badRecord 0 "file_id overflow on clean-shutdown recovery")
      else
        let (ino, d) := d.openCreateData (activeId + 1)
        return ({ sealed := sealed ++ [⟨activeId, activeIno⟩]
                  active := ⟨activeId + 1, ino⟩
                  index }, d)
    | none =>
      let file := d.inodes activeIno
      let (index, lastGood) := replayActive P file activeId index
      let d := if lastGood < file.length then d.setLen activeIno lastGood else d
      return ({ sealed, active := ⟨activeId, activeIno⟩, index }, d)

/-! ## What every recovery keeps -/

section closed
variable {P : Prims} {I : NsIndex → Prop} {idx : NsIndex}

theorem NsIndex.Closed.applyRecord (hI : NsIndex.Closed I) (h : I idx) (fileId offset : Nat)
    (hdr : RecordHeader)
    (body : Bytes) : I (applyRecord idx fileId offset hdr body) := by
  unfold BeyondKv.applyRecord
  dsimp only
  split_ifs with _ _ _ hkey
  · exact h
  · exact hI.remove _ h
  · exact hI.setTtl _ _ h fun _ => hkey
  · exact h
  · exact h
  · split
    · exact hI.put _ _ _ _ h
    · exact hI.insert _ _ _ h
  · exact hI.insert _ _ _ h

theorem NsIndex.Closed.scanLoop (hI : NsIndex.Closed I) (h : I idx) (file : Bytes)
    (fileId fuel offset : Nat) :
    I (scanLoop P file fileId fuel offset idx).1 := by
  induction fuel generalizing offset idx with
  | zero => exact h
  | succ fuel ih =>
    unfold BeyondKv.scanLoop
    split
    · split
      · exact h
      · exact ih (hI.applyRecord h _ _ _ _) _
    · exact h

theorem NsIndex.Closed.footer (hI : NsIndex.Closed I) (h : I idx) (fileId : Nat)
    (entries : List FooterEntry) :
    I (applyFooterEntries idx fileId entries) := by
  unfold applyFooterEntries
  induction entries generalizing idx with
  | nil => exact h
  | cons e entries ih => exact ih (hI.put _ _ _ _ h)

theorem NsIndex.Closed.loadAllSealed {d : Disk} {files : List (Nat × Nat)} {idx' : NsIndex}
    (hI : NsIndex.Closed I)
    (h : I idx) (hload : loadAllSealed P d files idx = .ok idx') : I idx' := by
  induction files generalizing idx with
  | nil => cases hload; exact h
  | cons f files ih =>
    simp only [BeyondKv.loadAllSealed, loadSealed, bind, Except.bind] at hload
    cases hf : readFooter P (d.inodes f.2) with
    | error e => rw [hf] at hload; cases hload
    | ok footer =>
      rw [hf] at hload
      cases footer with
      | some entries => exact ih (hI.footer h _ _) hload
      | none => exact ih (hI.scanLoop h _ _ _ _) hload

theorem NsIndex.Closed.openNamespace {d d' : Disk} {o : OpenedFiles} (hI : NsIndex.Closed I)
    (h : openNamespace P d = .ok (o, d')) : I o.index := by
  unfold BeyondKv.openNamespace at h
  split at h
  · cases h
    exact hI.empty
  · simp only [bind, Except.bind] at h
    split at h
    · cases h
    · rename_i index hload
      have hindex := hI.loadAllSealed hI.empty hload
      split at h
      · cases h
      · split at h
        · split at h
          · cases h
          · cases h
            exact hI.footer hindex _ _
        · cases h
          exact hI.scanLoop hindex _ _ _ _

end closed

/-! ## Scanning written records -/

/-- Records laid end to end, as appends lay them. -/
def recsBytes (P : Prims) (rs : List Rec) : Bytes := rs.flatMap (Rec.bytes P)

/-- Apply records in order, the first at `offset`. -/
def applyRecs (P : Prims) (fileId : Nat) : Nat → List Rec → NsIndex → NsIndex
  | _, [], index => index
  | offset, r :: rs, index =>
    applyRecs P fileId (offset + (r.bytes P).length) rs
      (applyRecord index fileId offset (r.header P) r.body)

/-- The scan loops stop at `offset`: the file ends there, or what is there is not a
whole, verified record. -/
def ScanStops (P : Prims) (file : Bytes) (offset : Nat) : Prop :=
  file.length ≤ offset ∨ scanRecord P file offset = none

section scanning
variable (P : Prims)

@[simp] theorem recsBytes_nil : recsBytes P [] = [] := rfl

@[simp] theorem recsBytes_cons (r : Rec) (rs : List Rec) :
    recsBytes P (r :: rs) = r.bytes P ++ recsBytes P rs := rfl

theorem recsBytes_append (rs rs' : List Rec) :
    recsBytes P (rs ++ rs') = recsBytes P rs ++ recsBytes P rs' := by
  simp [recsBytes]

theorem length_le_recsBytes (rs : List Rec) : rs.length ≤ (recsBytes P rs).length := by
  induction rs with
  | nil => simp
  | cons r rs ih =>
    have hr := r.length_bytes_pos P
    rw [recsBytes_cons, List.length_append, List.length_cons]
    omega

theorem applyRecs_append (fileId offset : Nat) (rs rs' : List Rec) (index : NsIndex) :
    applyRecs P fileId offset (rs ++ rs') index
      = applyRecs P fileId (offset + (recsBytes P rs).length) rs'
          (applyRecs P fileId offset rs index) := by
  induction rs generalizing offset index with
  | nil => rfl
  | cons r rs ih =>
    rw [List.cons_append, applyRecs, ih, applyRecs, recsBytes_cons, List.length_append,
      Nat.add_assoc]

/-- The header of a written record is where it was written. -/
theorem slice_headerBytes (pre rest : Bytes) (r : Rec) :
    Bytes.slice (pre ++ r.bytes P ++ rest) pre.length headerLen = r.headerBytes P := by
  rw [r.bytes_eq, List.append_assoc, List.append_assoc, Bytes.slice_append_right
    (Nat.le_refl _), Nat.sub_self,
    Bytes.slice_append_left (by simp), Bytes.slice_of_length (r.length_headerBytes P)]

/-- Its body follows. -/
theorem slice_body (pre rest : Bytes) (r : Rec) :
    Bytes.slice (pre ++ r.bytes P ++ rest) (pre.length + headerLen) r.body.length = r.body := by
  have hm := Bytes.slice_mid (pre ++ r.headerBytes P) r.body rest
  rw [List.length_append, r.length_headerBytes] at hm
  rw [r.bytes_eq, ← List.append_assoc]
  exact hm

/-- A written record is found where it was written. -/
theorem scanRecord_bytes (pre rest : Bytes) (r : Rec) :
    scanRecord P (pre ++ r.bytes P ++ rest) pre.length = some (r.header P, r.body) := by
  have hlen : ¬ (r.headerBytes P).length < headerLen := by simp
  simp only [scanRecord, slice_headerBytes, r.parseHeader_headerBytes, r.bodyLen_header, slice_body,
    r.verifyCrc_headerBytes, lt_irrefl, if_false, hlen]

/-- What `encode_into` appends to a file is read back. -/
theorem record_round_trip (pre rest : Bytes) (r : Rec) : ∃ file,
    encodeInto P pre r.tstampMs r.flags r.expiresAtMs r.key r.value r.metadata = .ok file
      ∧ scanRecord P (file ++ rest) pre.length = some (r.header P, r.body) :=
  ⟨_, r.encodeInto_rec P pre, scanRecord_bytes P pre rest r⟩

/-- A scan over written records applies them all and goes on behind them. -/
theorem scanLoop_recs_then (fileId : Nat) (tail : Bytes) (rs : List Rec) (pre : Bytes) (fuel : Nat)
    (index : NsIndex) :
    scanLoop P (pre ++ recsBytes P rs ++ tail) fileId (rs.length + fuel) pre.length index
      = scanLoop P (pre ++ recsBytes P rs ++ tail) fileId fuel
      (pre.length + (recsBytes P rs).length)
          (applyRecs P fileId pre.length rs index) := by
  induction rs generalizing pre index with
  | nil => simp [applyRecs]
  | cons r rs ih =>
    -- the file, cut after the first record
    have hfile : pre ++ recsBytes P (r :: rs) ++ tail
        = (pre ++ r.bytes P) ++ recsBytes P rs ++ tail := by simp
    have hoff : (pre ++ r.bytes P).length = pre.length + (r.bytes P).length := by simp
    have hscan := scanRecord_bytes P pre (recsBytes P rs ++ tail) r
    rw [← List.append_assoc] at hscan
    have hlt : pre.length < ((pre ++ r.bytes P) ++ recsBytes P rs ++ tail).length := by
      have := r.length_bytes_pos P
      simp only [List.length_append]
      omega
    have hlen : pre.length + (recsBytes P (r :: rs)).length
        = (pre ++ r.bytes P).length + (recsBytes P rs).length := by
      simp [Nat.add_assoc]
    have hrest := ih (pre ++ r.bytes P) (applyRecord index fileId pre.length (r.header P) r.body)
    rw [hfile, hlen, List.length_cons, Nat.succ_add, scanLoop, if_pos hlt, hscan]
    simp only [r.recordLen_header, applyRecs]
    rw [← hoff]
    exact hrest

/-- Where a scan stops it is done. -/
theorem scanLoop_of_stops {file : Bytes} {fileId fuel offset : Nat}
    (hstop : ScanStops P file offset) (index : NsIndex) :
    scanLoop P file fileId fuel offset index = (index, offset) := by
  cases fuel with
  | zero => rfl
  | succ fuel =>
    rw [scanLoop]
    rcases hstop with hend | hnone
    · rw [if_neg (Nat.not_lt.mpr hend)]
    · rw [hnone]
      simp

/-- Replaying records followed by bytes the scan rejects. -/
theorem replayActive_recs (fileId : Nat) (rs : List Rec) (tail : Bytes) (index : NsIndex)
    (hstop : ScanStops P (recsBytes P rs ++ tail) (recsBytes P rs).length) :
    replayActive P (recsBytes P rs ++ tail) fileId index
      = (applyRecs P fileId 0 rs index, (recsBytes P rs).length) := by
  obtain ⟨fuel, hfuel⟩ : ∃ fuel, (recsBytes P rs ++ tail).length + 1 = rs.length + fuel :=
    Nat.exists_eq_add_of_le (by
      have := length_le_recsBytes P rs
      rw [List.length_append]
      omega)
  have hall := scanLoop_recs_then P fileId tail rs [] fuel index
  simp only [List.nil_append, List.length_nil, Nat.zero_add] at hall
  rw [replayActive, hfuel, hall, scanLoop_of_stops P hstop]

theorem scanStops_end (file : Bytes) : ScanStops P file file.length := .inl (Nat.le_refl _)

/-- A record cut short is not taken for one: no property of the checksum is needed. -/
theorem scanRecord_torn (pre : Bytes) (r : Rec) {n : Nat} (hn : n < (r.bytes P).length) :
    scanRecord P (pre ++ (r.bytes P).take n) pre.length = none := by
  have hlen : (pre ++ (r.bytes P).take n).length = pre.length + n := by
    simp; omega
  by_cases hh : n < headerLen
  · -- the cut falls inside the header
    have hshort : (Bytes.slice (pre ++ (r.bytes P).take n) pre.length headerLen).length
        < headerLen := by
      rw [Bytes.length_slice, hlen]; omega
    simp only [scanRecord, hshort, if_true]
  · -- the cut falls inside the body: the header reads back, the body is short
    have hhdr : Bytes.slice (pre ++ (r.bytes P).take n) pre.length headerLen
        = r.headerBytes P := by
      rw [Bytes.slice_append_right (Nat.le_refl _), Nat.sub_self,
        Bytes.slice_take (by omega), r.bytes_eq, Bytes.slice_append_left (by simp),
        Bytes.slice_of_length (r.length_headerBytes P)]
    have hbody : (Bytes.slice (pre ++ (r.bytes P).take n) (pre.length + headerLen)
        r.body.length).length < r.body.length := by
      have := r.length_bytes P
      rw [Bytes.length_slice, hlen]; omega
    have hl : ¬ (r.headerBytes P).length < headerLen := by simp
    simp only [scanRecord, hhdr, hl, if_false, r.parseHeader_headerBytes, r.bodyLen_header,
      hbody, if_true]

end scanning

end BeyondKv
