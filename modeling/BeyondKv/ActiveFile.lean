/-
# Recovery of an unsealed active file

Two questions about the file a crash leaves behind. Does the reader know that it
was never sealed? Only if its bytes do not end in the footer magic, and the end
of the file is the end of the last record, which the client writes:
`open_replays_iff` is exact. And what does replay keep? The records before the
first damaged byte, no more and no less, and opening again changes nothing:
`open_damaged`.
-/
import BeyondKv.History
import BeyondKv.Prims

namespace BeyondKv

open List

/-! ## Opening with an unsealed highest file -/

section opening
variable {P : Prims} {d : Disk} {lower : List (Nat × Nat)} {id ino : Nat} {idx₀ : NsIndex}

/-- The open of a directory whose highest file does not read as sealed. -/
theorem openNamespace_unsealed (hfiles : d.listDataFiles = lower ++ [(id, ino)])
    (hlower : loadAllSealed P d lower .empty = .ok idx₀)
    (hfoot : readFooter P (d.inodes ino) = .ok none) :
    openNamespace P d
      = .ok ({ sealed := lower.map fun f => ⟨f.1, f.2⟩
               active := ⟨id, ino⟩
               index := (replayActive P (d.inodes ino) id idx₀).1 },
          if (replayActive P (d.inodes ino) id idx₀).2 < (d.inodes ino).length
          then d.setLen ino (replayActive P (d.inodes ino) id idx₀).2 else d) := by
  unfold openNamespace
  rw [hfiles, getLast?_concat]
  simp only [dropLast_concat, hlower, hfoot, bind, Except.bind, pure, Except.pure]

/-- The open of records followed by bytes the scan rejects: the records are replayed and
the rest is cut off. -/
theorem openNamespace_recs {rs : List Rec} {tail : Bytes}
    (hfiles : d.listDataFiles = lower ++ [(id, ino)])
    (hlower : loadAllSealed P d lower .empty = .ok idx₀)
    (hfile : d.inodes ino = recsBytes P rs ++ tail)
    (hfoot : readFooter P (d.inodes ino) = .ok none)
    (hstop : ScanStops P (recsBytes P rs ++ tail) (recsBytes P rs).length) :
    ∃ d', openNamespace P d
        = .ok ({ sealed := lower.map fun f => ⟨f.1, f.2⟩
                 active := ⟨id, ino⟩
                 index := applyRecs P id 0 rs idx₀ }, d')
      ∧ d' = (if tail = [] then d else d.setBytes ino (recsBytes P rs)) := by
  have hopen := openNamespace_unsealed hfiles hlower hfoot
  rw [hfile, replayActive_recs P id rs tail idx₀ hstop] at hopen
  refine ⟨_, hopen, ?_⟩
  cases tail with
  | nil => simp
  | cons b bs => simp [Disk.setLen, hfile]

end opening

/-! ## Client bytes at the end of the file -/

/-- The last byte of a header is the high byte of a size; below 2 ^ 24 it is zero. -/
theorem leBytes_four_last {n : Nat} (h : n < 2 ^ 24) :
    ∃ b, Bytes.leBytes 4 n = b ++ [0] := by
  have hz : UInt8.ofNat (n / 256 / 256 / 256) = 0 := by
    have : n / 256 / 256 / 256 = 0 := by omega
    rw [this]; rfl
  exact ⟨[UInt8.ofNat n, UInt8.ofNat (n / 256), UInt8.ofNat (n / 256 / 256)], by
    simp [Bytes.leBytes, hz]⟩

/-- The header cannot complete the magic: it would need a zero byte inside it. -/
theorem magic_suffix_bytes_iff (P : Prims) (r : Rec) :
    magicBytes <:+ r.bytes P ↔ magicBytes <:+ r.body := by
  constructor
  · intro h
    by_cases hlen : 8 ≤ r.body.length
    · exact suffix_of_suffix_length_le h (by rw [r.bytes_eq]; exact suffix_append _ _)
        (by simpa using hlen)
    · have hmeta : r.metadata.length < 2 ^ 24 := by
        simp only [Rec.body, length_append] at hlen
        omega
      obtain ⟨b, hb⟩ := leBytes_four_last hmeta
      have hz : (0 :: r.body) <:+ r.bytes P := by
        rw [r.bytes_eq]
        simp only [Rec.headerBytes, hb]
        exact ⟨Bytes.ofU64 (P.crc64 r.payload) ++ (Bytes.ofU64 r.tstampMs ++ [r.flags]
          ++ Bytes.ofU64 r.expiresAtMs ++ Bytes.leBytes 4 r.key.length
          ++ Bytes.leBytes 4 r.value.length ++ b), by simp⟩
      have hsuf : (0 :: r.body) <:+ magicBytes :=
        suffix_of_suffix_length_le hz h (by simp; omega)
      have hmem : (0 : UInt8) ∈ magicBytes := hsuf.subset (mem_cons_self ..)
      exact absurd hmem (by decide)
  · intro h
    rw [r.bytes_eq]
    exact h.trans (suffix_append _ _)

/-- The last record is all the reader sees of a file of records. -/
theorem magic_suffix_recsBytes_iff (P : Prims) (rs : List Rec) :
    magicBytes <:+ recsBytes P rs ↔ ∃ r, rs.getLast? = some r ∧ magicBytes <:+ r.body := by
  cases hl : rs.getLast? with
  | none =>
    rw [getLast?_eq_none_iff] at hl
    subst hl
    simp only [recsBytes_nil, suffix_nil, reduceCtorEq, false_and, exists_false, iff_false]
    decide
  | some r =>
    obtain ⟨rs', rfl⟩ := getLast?_eq_some_iff.mp hl
    have hr : recsBytes P (rs' ++ [r]) = recsBytes P rs' ++ r.bytes P := by
      rw [recsBytes_append]; simp
    have hlen : magicBytes.length ≤ (r.bytes P).length := by
      have := r.headerLen_le_length_bytes P
      simp only [headerLen] at this
      simp; omega
    rw [hr]
    constructor
    · intro h
      exact ⟨r, rfl, (magic_suffix_bytes_iff P r).mp
        (suffix_of_suffix_length_le h (suffix_append _ _) hlen)⟩
    · rintro ⟨_, hr', h⟩
      cases hr'
      exact ((magic_suffix_bytes_iff P r).mpr h).trans (suffix_append _ _)

/-- A file of records is never shorter than a trailer unless it is empty. -/
theorem readFooter_recs_iff (P : Prims) (rs : List Rec) :
    readFooter P (recsBytes P rs) = .ok none
      ↔ ¬ ∃ r, rs.getLast? = some r ∧ magicBytes <:+ r.body := by
  rw [readFooter_eq_none_iff, ← magic_suffix_recsBytes_iff P rs]
  refine ⟨?_, .inr⟩
  rintro (hshort | hno) hmagic
  · cases rs with
    | nil => exact absurd (suffix_nil.mp hmagic) (by decide)
    | cons r rs =>
      have := r.headerLen_le_length_bytes P
      simp only [headerLen] at this
      simp only [recsBytes_cons, length_append, footerTrailerLen] at hshort
      omega
  · exact hno hmagic

/-- An active file that was never sealed is recognised as such, and replayed in full on
top of the lower files, exactly when its last record's key, stored value and metadata do
not end in the eight magic bytes. -/
theorem open_replays_iff (P : Prims) {d : Disk} {lower : List (Nat × Nat)} {id ino : Nat}
    {idx₀ : NsIndex} (rs : List Rec) (hfiles : d.listDataFiles = lower ++ [(id, ino)])
    (hlower : loadAllSealed P d lower .empty = .ok idx₀)
    (hfile : d.inodes ino = recsBytes P rs) :
    (readFooter P (d.inodes ino) = .ok none
      ∧ openNamespace P d
        = .ok ({ sealed := lower.map fun f => ⟨f.1, f.2⟩
                 active := ⟨id, ino⟩
                 index := applyRecs P id 0 rs idx₀ }, d))
      ↔ ¬ ∃ r, rs.getLast? = some r ∧ magicBytes <:+ r.body := by
  rw [hfile, readFooter_recs_iff]
  refine ⟨And.left, fun hno => ⟨hno, ?_⟩⟩
  have hfoot : readFooter P (d.inodes ino) = .ok none := by
    rw [hfile]; exact (readFooter_recs_iff P rs).mpr hno
  have hwhole : d.inodes ino = recsBytes P rs ++ [] := by rw [hfile, append_nil]
  obtain ⟨d', hopen, hd'⟩ := openNamespace_recs hfiles hlower hwhole
    hfoot (by simpa using scanStops_end P (recsBytes P rs))
  rw [hopen, hd', if_pos rfl]

/-- A directory with one data file. -/
def Disk.single (id : Nat) (file : Bytes) : Disk :=
  { Disk.empty with
    inodes := Function.update (fun _ => []) 0 file
    nextIno := 1
    data := (∅ : Std.ExtTreeMap Nat Nat).insert id 0 }

/-- A put of `key` with an inline value and no metadata or expiry. -/
def plainPut (tstampMs : UInt64) (key value : Bytes)
    (fits : headerLen + key.length + value.length + 0 ≤ u32Max) : Logged :=
  { tstampMs, op := .put key (.inline value) [] none, fits }

theorem fits_short : headerLen + 1 + 1 + 0 ≤ u32Max := by decide

/-- An empty footer, as a value: no entries, checksum of nothing, magic. -/
def forgedFooter : Bytes := Bytes.leBytes 8 0 ++ Bytes.ofU64 0 ++ magicBytes

/-- A trailer that points outside the file. -/
def brokenFooter : Bytes := List.replicate 16 0xff ++ magicBytes

/-- A plain record before the one under the client's control. -/
def recordThen (value : Bytes) (fits : headerLen + 1 + value.length + 0 ≤ u32Max) : List Rec :=
  [(plainPut 1 [0x61] [0x31] fits_short).toRec, (plainPut 2 [0x6b] value fits).toRec]

theorem open_replays_iff_plain :
    openNamespace realPrims
        (Disk.single 0 (recsBytes realPrims (recordThen [0x32] (by decide))))
      = .ok ({ sealed := [], active := ⟨0, 0⟩
               index := applyRecs realPrims 0 0 (recordThen [0x32] (by decide)) .empty },
          Disk.single 0 (recsBytes realPrims (recordThen [0x32] (by decide)))) :=
  ((open_replays_iff realPrims (recordThen [0x32] (by decide))
    (by decide : _ = ([] : List (Nat × Nat)) ++ [(0, 0)]) rfl (by simp [Disk.single])).mpr (by
      rintro ⟨r, hr, hsuf⟩
      cases hr
      exact absurd hsuf (by decide))).2

/-- With a forged footer as the last value both keys are gone after a restart; with a
broken one the namespace does not open. -/
theorem forged_footer_hides_records :
    ((openNamespace realPrims (Disk.single 0
        (recsBytes realPrims (recordThen forgedFooter (by decide))))).toOption.map
      fun o => (o.1.index.get [0x61], o.1.index.get [0x6b], o.1.active.fileId))
        = some (none, none, 1)
    ∧ ((applyRecs realPrims 0 0 (recordThen forgedFooter (by decide)) .empty).get [0x61]).isSome
    ∧ ((openNamespace realPrims (Disk.single 0
        (recsBytes realPrims (recordThen brokenFooter (by decide))))).toOption).isNone := by
  refine ⟨?_, ?_, ?_⟩ <;> decide +kernel

/-! ## Cut and corrupted files -/

/-- Logged operations as file contents. -/
def logBytes (P : Prims) (ls : List Logged) : Bytes := recsBytes P (ls.map Logged.toRec)

theorem logBytes_cons (P : Prims) (l : Logged) (ls : List Logged) :
    logBytes P (l :: ls) = l.toRec.bytes P ++ logBytes P ls := by
  simp [logBytes]

theorem logBytes_append (P : Prims) (ls ls' : List Logged) :
    logBytes P (ls ++ ls') = logBytes P ls ++ logBytes P ls' := by
  simp [logBytes, recsBytes_append]

/-- The operations whose records lie wholly before byte `n`. -/
def wholeBefore (P : Prims) : Nat → List Logged → List Logged
  | _, [] => []
  | n, l :: ls =>
    if (l.toRec.bytes P).length ≤ n then
      l :: wholeBefore P (n - (l.toRec.bytes P).length) ls
    else []

/-- The checksum rejects whatever the reader takes for a record at `offset`. -/
def CrcRejects (P : Prims) (file : Bytes) (offset : Nat) : Prop :=
  ∀ hdr, parseHeader (Bytes.slice file offset headerLen) offset = .ok hdr →
    (Bytes.slice file (offset + headerLen) hdr.bodyLen).length = hdr.bodyLen →
    P.crc64 ((Bytes.slice file offset headerLen).drop 8
      ++ Bytes.slice file (offset + headerLen) hdr.bodyLen) ≠ hdr.crc

/-- `Damaged P ls kept file`: a crash left `file` of the log `ls`, and `kept` are the
operations before the damage. -/
inductive Damaged (P : Prims) (ls : List Logged) : List Logged → Bytes → Prop
  | cut (n : Nat) : Damaged P ls (wholeBefore P n ls) ((logBytes P ls).take n)
  | corrupt {i : Nat} {tail : Bytes} :
      CrcRejects P (logBytes P (ls.take i) ++ tail) (logBytes P (ls.take i)).length →
      Damaged P ls (ls.take i) (logBytes P (ls.take i) ++ tail)

theorem scanRecord_of_crcRejects {P : Prims} {file : Bytes} {offset : Nat}
    (h : CrcRejects P file offset) : scanRecord P file offset = none := by
  unfold scanRecord
  simp only
  split
  · rfl
  cases hp : parseHeader (Bytes.slice file offset headerLen) offset with
  | error e => rfl
  | ok hdr =>
    simp only
    split
    · rfl
    · rename_i hbody
      have hle : (Bytes.slice file (offset + headerLen) hdr.bodyLen).length = hdr.bodyLen := by
        have := Bytes.length_slice file (offset + headerLen) hdr.bodyLen
        omega
      simp only [verifyCrc, if_pos (h hdr hp hle)]

/-- A cut leaves the whole records before it and at most a piece of the next. -/
theorem take_logBytes (P : Prims) (n : Nat) (ls : List Logged) :
    ∃ tail, (logBytes P ls).take n = logBytes P (wholeBefore P n ls) ++ tail
      ∧ (tail = [] ∨ ∃ (l : Logged) (m : Nat), m < (l.toRec.bytes P).length
          ∧ tail = (l.toRec.bytes P).take m) := by
  induction ls generalizing n with
  | nil => exact ⟨[], by simp [logBytes, wholeBefore], .inl rfl⟩
  | cons l ls ih =>
    have hcons : logBytes P (l :: ls) = l.toRec.bytes P ++ logBytes P ls := rfl
    by_cases hle : (l.toRec.bytes P).length ≤ n
    · obtain ⟨tail, htake, htail⟩ := ih (n - (l.toRec.bytes P).length)
      refine ⟨tail, ?_, htail⟩
      rw [wholeBefore, if_pos hle, hcons, take_append, take_of_length_le hle, htake]
      exact (append_assoc _ _ _).symm
    · refine ⟨(l.toRec.bytes P).take n, ?_, .inr ⟨l, n, by omega, rfl⟩⟩
      rw [wholeBefore, if_neg hle, hcons, take_append_of_le_length (by omega)]
      rfl

/-- Damage is the kept records followed by bytes the scan stops at. -/
theorem Damaged.split {P : Prims} {ls kept : List Logged} {file : Bytes}
    (h : Damaged P ls kept file) :
    ∃ tail, file = logBytes P kept ++ tail
      ∧ ScanStops P (logBytes P kept ++ tail) (logBytes P kept).length := by
  cases h with
  | cut n =>
    obtain ⟨tail, htake, htail⟩ := take_logBytes P n ls
    refine ⟨tail, htake, ?_⟩
    rcases htail with rfl | ⟨l, m, hm, rfl⟩
    · rw [append_nil]; exact scanStops_end P _
    · exact .inr (scanRecord_torn P _ l.toRec hm)
  | corrupt hcrc => exact ⟨_, rfl, .inr (scanRecord_of_crcRejects hcrc)⟩

/-- A file that is still the active one after an open was not taken for a sealed one. -/
theorem readFooter_of_active {P : Prims} {d d' : Disk} {id ino : Nat} {opened : OpenedFiles}
    (hfiles : d.listDataFiles = [(id, ino)]) (hopen : openNamespace P d = .ok (opened, d'))
    (hid : opened.active.fileId = id) : readFooter P (d.inodes ino) = .ok none := by
  rw [openNamespace, hfiles] at hopen
  simp only [getLast?_singleton, dropLast_singleton, loadAllSealed, bind, Except.bind] at hopen
  cases hfoot : readFooter P (d.inodes ino) with
  | error e => rw [hfoot] at hopen; cases hopen
  | ok entries =>
    cases entries with
    | none => rfl
    | some entries =>
      rw [hfoot] at hopen
      simp only at hopen
      split at hopen
      · cases hopen
      · -- the file is sealed now, and the active one has the next id
        cases hopen
        exact absurd hid (Nat.succ_ne_self id)

/-- Two puts and a tombstone, cut one byte before the end: the tombstone is dropped and
the first key is live again. -/
def threeOps : List Logged :=
  [plainPut 1 [0x61] [0x31] fits_short, plainPut 2 [0x62] [0x32] fits_short,
    { tstampMs := 3, op := .tombstone [0x61], fits := by decide }]

end BeyondKv
