/-
# The replay scanner

A subscriber that comes back with the last revision it has seen is sent what it has missed:
`scan_since` reads every data file from its start to the end of its records and turns the
newer puts and tombstones into events.

Where the records end is guessed from the last bytes of the file (`dataEndOffset`), and the
loop takes an empty key for garbage. `scan_complete_iff` says exactly what is lost by that: the
events of all operations from the first one on that has an empty key or reaches past the guess.
Reads meet no I/O fault here.
-/
import BeyondKv.Reopen
import BeyondKv.Store

namespace BeyondKv

open List Option Async

inductive KeyFilter where
  | exact (key : Bytes)
  | startsWith (start : Bytes)

/-- `matches`. -/
def KeyFilter.accepts : KeyFilter → Bytes → Bool
  | exact k, key => k == key
  | startsWith start, key => start.isPrefixOf key

/-! ## The scanner -/

/-- `read_exact` on a file with these contents. -/
def readExact (file : Bytes) (offset size : Nat) : Option Bytes :=
  if offset + size ≤ file.length then some (Bytes.slice file offset size) else none

/-- `data_end_offset`. The last eight bytes decide whether there is a footer; the sum of its
two lengths is one of machine integers. -/
def dataEndOffset (file : Bytes) : Nat :=
  let total := file.length
  if total < footerTrailerLen then total
  else match readExact file (total - 8) 8 with
    | none => total
    | some magic =>
      if Bytes.toU64 magic ≠ footerMagic then total
      else match readExact file (total - footerTrailerLen) 8 with
        | none => total
        | some bodyLen => total - (footerTrailerLen + Bytes.leNat bodyLen) % 2 ^ 64

section scanner
variable {J : Serde} (P : Prims) (blob : ContentHash → Option Bytes)

/-- The value of a separated record; `none` where its event is skipped. -/
def derefField (field : Bytes) : Option Bytes := do
  let h ← FooterEntry.hashOfBytes field
  let b ← blob h
  if P.contentHash b = h then some b else none

/-- The event of a record. -/
def recordEvent (hdr : RecordHeader) (body : Bytes) : Option (WatchEvent J) :=
  let key := body.take hdr.keySize
  if hasFlag hdr.flags flagTombstone then some (.del key hdr.tstampMs)
  else
    let field := Bytes.slice body hdr.keySize hdr.valSize
    let metaBytes := Bytes.slice body (hdr.keySize + hdr.valSize) hdr.metaSize
    let value := if hasFlag hdr.flags flagValueSep then derefField P blob field else some field
    value.map fun v =>
      .set key v (if metaBytes.isEmpty then none else J.fromSlice metaBytes) hdr.expiry hdr.tstampMs

variable (filter : KeyFilter) (sinceRevision : UInt64)

/-- One turn of the loop: the length of the record and its event, or `none` where it breaks. -/
def scanTurn (file : Bytes) (endOffset offset : Nat) : Option (Nat × Option (WatchEvent J)) :=
  if offset + headerLen ≤ endOffset then do
    let hdrBytes ← readExact file offset headerLen
    let hdr ← (parseHeader hdrBytes offset).toOption
    if hdr.keySize = 0 then none
    else if endOffset < offset + hdr.recordLen then none
    else if sinceRevision < hdr.tstampMs ∧ ¬ hasFlag hdr.flags flagTtlUpdate then do
      let body ← readExact file (offset + headerLen) hdr.bodyLen
      let _ ← (verifyCrc P hdr hdrBytes body offset).toOption
      some (hdr.recordLen, if filter.accepts (body.take hdr.keySize)
        then recordEvent P blob hdr body else none)
    else some (hdr.recordLen, none)
  else none

/-- `scan_file_records` from `offset` on: the events it appends. Each turn moves at least a
header's length, so the file's length bounds the turns. -/
def scanFileRecords (file : Bytes) (endOffset : Nat) : Nat → Nat → List (WatchEvent J)
  | 0, _ => []
  | fuel + 1, offset =>
    match scanTurn P blob filter sinceRevision file endOffset offset with
    | none => []
    | some (recordLen, event) =>
      event.toList ++ scanFileRecords file endOffset fuel (offset + recordLen)

/-- What `scan_since` does with one file. -/
def scanFile (file : Bytes) : List (WatchEvent J) :=
  scanFileRecords P blob filter sinceRevision file (dataEndOffset file) (file.length + 1) 0

end scanner

/-! ## What a subscriber is owed -/

/-- The value a full record stands for. -/
def Stored.content (blob : ContentHash → Option Bytes) : Stored → Bytes
  | inline v => v
  | Stored.blob h => (blob h).getD []

/-- The event a subscriber that has seen `sinceRevision` is owed of an operation. -/
def Logged.event (J : Serde) (blob : ContentHash → Option Bytes) (filter : KeyFilter)
    (sinceRevision : UInt64)
    (l : Logged) : Option (WatchEvent J) :=
  if sinceRevision < l.tstampMs ∧ filter.accepts l.op.key then
    match l.op with
    | .put key v m x =>
      some (.set key (v.content blob) (if m.isEmpty then none else J.fromSlice m) x l.tstampMs)
    | .tombstone key => some (.del key l.tstampMs)
    | .ttlUpdate _ _ => none
  else none

/-- The blob a record points to is there. -/
def Logged.BlobPresent (P : Prims) (blob : ContentHash → Option Bytes) (l : Logged) : Prop :=
  ∀ key h m x, l.op = .put key (.blob h) m x → ∃ b, blob h = some b ∧ P.contentHash b = h

/-- The operations from the first one on that has an empty key or does not end within `n` bytes. -/
def missed (P : Prims) : Nat → List Logged → List Logged
  | _, [] => []
  | n, l :: ls =>
    if l.op.key = [] ∨ n < (l.toRec.bytes P).length then l :: ls
    else missed P (n - (l.toRec.bytes P).length) ls

section turns
variable {J : Serde} {P : Prims} {blob : ContentHash → Option Bytes}

/-- What the body of a logged record gives. -/
theorem recordEvent_logged {l : Logged} (hb : l.BlobPresent P blob) {filter : KeyFilter}
    {sinceRevision : UInt64}
    (hnew : sinceRevision < l.tstampMs) (hput : ∀ key x, l.op ≠ .ttlUpdate key x)
    (hacc : filter.accepts l.op.key) :
    recordEvent P blob (l.toRec.header P) l.toRec.body = l.event J blob filter sinceRevision := by
  have hkey := l.take_key_body P
  rw [Logged.event, if_pos ⟨hnew, hacc⟩]
  unfold recordEvent
  cases hop : l.op with
  | ttlUpdate key x => exact absurd hop (hput key x)
  | tombstone key =>
    have hflags : (l.toRec.header P).flags = flagTombstone :=
      by simp [Rec.header, Logged.toRec, hop, LogOp.flags]
    simp only [hflags, hasFlag_tombstone, if_true, hkey, hop]
    rfl
  | put key v m x =>
    have hflags : (l.toRec.header P).flags = expiryFlag x ||| v.flag := by
      simp [Rec.header, Logged.toRec, hop, LogOp.flags]
    obtain ⟨ht, -, -, hv⟩ := hasFlag_put v x
    have hexp := expiry_header_put P hop
    have hfield : Bytes.slice l.toRec.body (l.toRec.header P).keySize (l.toRec.header P).valSize
        = v.bytes := by
      have := Bytes.slice_mid key v.bytes m
      simpa [Rec.body, Rec.header, Logged.toRec, hop, LogOp.key, LogOp.value, LogOp.metadata]
        using this
    have hmeta : Bytes.slice l.toRec.body ((l.toRec.header P).keySize + (l.toRec.header P).valSize)
        (l.toRec.header P).metaSize = m := by
      have := Bytes.slice_mid (key ++ v.bytes) m []
      simpa [Rec.body, Rec.header, Logged.toRec, hop, LogOp.key, LogOp.value, LogOp.metadata]
        using this
    simp only [hflags, ht, Bool.false_eq_true, if_false, hkey, hop, LogOp.key, hfield,
      hmeta, hexp, hv]
    cases v with
    | inline w => rfl
    | blob h =>
      obtain ⟨b, hbl, hh⟩ := hb key h m x hop
      simp only [Stored.hash?, isSome_some, if_true, derefField, Stored.bytes,
        FooterEntry.hashOfBytes_toList, hbl, hh, bind_eq_bind, bind_some, map_some,
        Stored.content, getD_some]
      rfl

variable (filter : KeyFilter) (sinceRevision : UInt64)

/-- One turn over a written record. -/
theorem scanTurn_logged {l : Logged} (hb : l.BlobPresent P blob) (pre rest : Bytes)
    (endOffset : Nat) :
    scanTurn P blob filter sinceRevision (pre ++ l.toRec.bytes P ++ rest) endOffset pre.length
      = if l.op.key = [] ∨ endOffset < pre.length + (l.toRec.bytes P).length then none
        else some ((l.toRec.bytes P).length, l.event J blob filter sinceRevision) := by
  have hlen := l.toRec.length_bytes P
  have hfile : (pre ++ l.toRec.bytes P ++ rest).length = pre.length + (l.toRec.bytes P).length
      + rest.length := by
    rw [length_append, length_append]
  have hhdr : readExact (pre ++ l.toRec.bytes P ++ rest) pre.length headerLen
      = some (l.toRec.headerBytes P) := by
    rw [readExact, if_pos (by omega), slice_headerBytes]
  have hbody :
    readExact (pre ++ l.toRec.bytes P ++ rest) (pre.length + headerLen) (l.toRec.header P).bodyLen
      = some l.toRec.body := by
    rw [readExact, l.toRec.bodyLen_header, if_pos (by omega), slice_body]
  have hsize : (l.toRec.header P).keySize = l.op.key.length := rfl
  have hstamp : (l.toRec.header P).tstampMs = l.tstampMs := rfl
  unfold scanTurn
  by_cases hhead : pre.length + headerLen ≤ endOffset
  swap
  · rw [if_neg hhead, if_pos (.inr (by omega))]
  simp only [if_pos hhead, hhdr, l.toRec.parseHeader_headerBytes, Except.toOption, bind_eq_bind,
    bind_some, hsize, length_eq_zero_iff, l.toRec.recordLen_header, hstamp]
  by_cases hempty : l.op.key = []
  · rw [if_pos hempty, if_pos (.inl hempty)]
  by_cases hend : endOffset < pre.length + (l.toRec.bytes P).length
  · rw [if_neg hempty, if_pos hend, if_pos (.inr hend)]
  have hgo : ¬ (l.op.key = [] ∨ endOffset < pre.length + (l.toRec.bytes P).length) :=
    not_or.mpr ⟨hempty, hend⟩
  rw [if_neg hempty, if_neg hend, if_neg hgo]
  have hflags : (l.toRec.header P).flags = l.op.flags := rfl
  have hkey : l.toRec.body.take l.op.key.length = l.op.key := l.take_key_body P
  simp only [hbody, l.toRec.verifyCrc_headerBytes, bind_some, hkey, hflags]
  by_cases hnew : sinceRevision < l.tstampMs
  swap
  · rw [if_neg (fun h => hnew h.1), Logged.event, if_neg (fun h => hnew h.1)]
  have hread (hput : ∀ key x, l.op ≠ .ttlUpdate key x) :
      (if filter.accepts l.op.key then recordEvent P blob (l.toRec.header P) l.toRec.body else none)
        = l.event J blob filter sinceRevision := by
    by_cases hacc : filter.accepts l.op.key = true
    · rw [if_pos hacc, recordEvent_logged hb hnew hput hacc]
    · rw [if_neg hacc, Logged.event, if_neg (fun h => hacc h.2)]
  cases hop : l.op with
  | ttlUpdate key x =>
    obtain ⟨-, hu, -⟩ := hasFlag_ttlUpdate x
    simp only [LogOp.flags, hu, not_true, and_false, if_false, Logged.event, hop, ite_self]
  | put key v m x =>
    obtain ⟨-, hu, -⟩ := hasFlag_put v x
    rw [if_pos ⟨hnew, by simp [LogOp.flags, hu]⟩, ← hop, hread (by simp [hop])]
  | tombstone key =>
    have hu : hasFlag flagTombstone flagTtlUpdate = false := by decide
    rw [if_pos ⟨hnew, by simp [LogOp.flags, hu]⟩, ← hop, hread (by simp [hop])]

/-- A scan that does not look past the records emits the events of all operations but those it
misses. -/
theorem scanFileRecords_logged {ls : List Logged} (hb : ∀ l ∈ ls, l.BlobPresent P blob)
    (pre tail : Bytes)
    {fuel endOffset : Nat} (hfuel : ls.length < fuel)
    (hend : endOffset ≤ pre.length + (logBytes P ls).length) :
    scanFileRecords P blob filter sinceRevision (pre ++ logBytes P ls ++ tail) endOffset
      fuel pre.length
        ++ (missed P (endOffset - pre.length) ls).filterMap
        (Logged.event J blob filter sinceRevision)
      = ls.filterMap (Logged.event J blob filter sinceRevision) := by
  induction ls generalizing pre fuel with
  | nil =>
    obtain ⟨fuel, rfl⟩ : ∃ n, fuel = n + 1 := ⟨fuel - 1, by simp at hfuel; omega⟩
    have hstop : ¬ pre.length + headerLen ≤ endOffset := by
      simp only [logBytes, map_nil, recsBytes_nil, length_nil, headerLen] at hend ⊢
      omega
    simp only [scanFileRecords, scanTurn, if_neg hstop, missed, filterMap_nil, append_nil]
  | cons l ls ih =>
    obtain ⟨fuel, rfl⟩ : ∃ n, fuel = n + 1 := ⟨fuel - 1, by simp at hfuel; omega⟩
    -- the file, cut after the first record
    have hfile :
        pre ++ logBytes P (l :: ls) ++ tail = pre ++ l.toRec.bytes P
        ++ (logBytes P ls ++ tail) := by
      simp [logBytes_cons]
    have hturn := scanTurn_logged (J := J) filter sinceRevision (hb l (mem_cons_self ..)) pre
      (logBytes P ls ++ tail) endOffset
    rw [hfile, scanFileRecords, hturn]
    by_cases hstop : l.op.key = [] ∨ endOffset < pre.length + (l.toRec.bytes P).length
    · have hmissed : missed P (endOffset - pre.length) (l :: ls) = l :: ls := by
        rw [missed, if_pos (hstop.imp_right fun h => by
          have := l.toRec.length_bytes_pos P
          omega)]
      rw [if_pos hstop, hmissed]
      rfl
    · have hmissed : missed P (endOffset - pre.length) (l :: ls)
          = missed P (endOffset - (pre ++ l.toRec.bytes P).length) ls := by
        rw [missed, if_neg (fun h => hstop (h.imp_right fun h => by omega)),
          length_append, Nat.sub_sub]
      have hrest := ih (fun l hl => hb l (mem_cons_of_mem _ hl)) (pre ++ l.toRec.bytes P)
        (Nat.lt_of_succ_lt_succ hfuel) (by
          rw [logBytes_cons, length_append] at hend
          rw [length_append]
          omega)
      rw [append_assoc (pre ++ l.toRec.bytes P)] at hrest
      rw [if_neg hstop, hmissed, filterMap_cons, ← hrest, length_append]
      cases l.event J blob filter sinceRevision <;> rfl

end turns

/-! ## A whole file -/

/-- A data file: records, and a footer if it is sealed. Its size is a `u64`. -/
structure DataFile (P : Prims) where
  ops : List Logged
  footer : Option (List FooterEntry)
  size : (logBytes P ops).length + (footer.elim [] (footerBytes P)).length < 2 ^ 64

namespace DataFile
variable {P : Prims} (f : DataFile P)

def bytes : Bytes := logBytes P f.ops ++ f.footer.elim [] (footerBytes P)

/-- Where the scanner takes the records to end: in a file without a footer whose last record
ends in the magic, as far from the end as the eight bytes at the trailer's place say. -/
def recordsEnd : Nat :=
  let len := (logBytes P f.ops).length
  if f.footer = none ∧ ∃ r ∈ (f.ops.map Logged.toRec).getLast?, magicBytes <:+ r.body then
    len
      - (footerTrailerLen + Bytes.leNat (Bytes.slice (logBytes P f.ops) (len - footerTrailerLen) 8))
      % 2 ^ 64
  else len

theorem recordsEnd_le : f.recordsEnd ≤ (logBytes P f.ops).length := by
  unfold recordsEnd
  split
  · exact Nat.sub_le _ _
  · exact le_rfl

end DataFile

/-- The last eight bytes of a file that is no shorter than a trailer. -/
theorem readExact_magic_iff {file : Bytes} (hlen : footerTrailerLen ≤ file.length) :
    ∃ b, readExact file (file.length - 8) 8 = some b
        ∧ (Bytes.toU64 b = footerMagic ↔ magicBytes <:+ file) := by
  have h8 : file.length - 8 + 8 ≤ file.length := by
    unfold footerTrailerLen at hlen
    omega
  refine ⟨_, if_pos h8, ?_⟩
  rw [← slice_end_eq_iff length_magicBytes (by omega)]
  constructor
  · intro h
    rw [magicBytes, ← h, Bytes.ofU64_toU64 (Bytes.length_slice_of_le h8)]
  · intro h
    rw [h, magicBytes, Bytes.toU64_ofU64]

/-- With the magic in place the eight bytes at the trailer's start are believed. -/
theorem dataEndOffset_of_magic {file : Bytes} (hlen : footerTrailerLen ≤ file.length)
    (hmagic : magicBytes <:+ file) :
    dataEndOffset file = file.length
      - (footerTrailerLen + Bytes.leNat (Bytes.slice file (file.length - footerTrailerLen) 8))
          % 2 ^ 64 := by
  obtain ⟨b, hb, hiff⟩ := readExact_magic_iff hlen
  have h8 : file.length - footerTrailerLen + 8 ≤ file.length := by
    unfold footerTrailerLen at hlen ⊢
    omega
  have hblen : readExact file (file.length - footerTrailerLen) 8
      = some (Bytes.slice file (file.length - footerTrailerLen) 8) := if_pos h8
  simp only [dataEndOffset, if_neg (Nat.not_lt.mpr hlen), hb, hiff.mpr hmagic, ne_eq, not_true,
    if_false, hblen]

theorem dataEndOffset_of_not_magic {file : Bytes} (hno : ¬ magicBytes <:+ file) :
    dataEndOffset file = file.length := by
  by_cases hlen : file.length < footerTrailerLen
  · simp only [dataEndOffset, if_pos hlen]
  · obtain ⟨b, hb, hiff⟩ := readExact_magic_iff (Nat.le_of_not_lt hlen)
    simp only [dataEndOffset, if_neg hlen, hb, ne_eq, mt hiff.mp hno, not_false_iff, if_true]

/-- A file of records that ends in the magic has a last record, so it is no shorter than a
trailer. -/
theorem trailer_le_of_magic {P : Prims} {rs : List Rec} (h : magicBytes <:+ recsBytes P rs) :
    footerTrailerLen ≤ (recsBytes P rs).length := by
  by_contra hlt
  have hnone := (readFooter_eq_none_iff P (recsBytes P rs)).mpr (.inl (Nat.lt_of_not_le hlt))
  exact (readFooter_recs_iff P rs).mp hnone ((magic_suffix_recsBytes_iff P rs).mp h)

/-- Whatever stands in front of a footer, the guess is right. -/
theorem dataEndOffset_footer (P : Prims) (records : Bytes) {es : List FooterEntry}
    (hroom : (records ++ footerBytes P es).length < 2 ^ 64) :
    dataEndOffset (records ++ footerBytes P es) = records.length := by
  rw [footerBytes, ← append_assoc] at hroom ⊢
  set body := footerBody es
  have hlen : ((records ++ body) ++ footerTrailer P body).length
      = records.length + (body.length + footerTrailerLen) := by simp
  have hmagic : magicBytes <:+ (records ++ body) ++ footerTrailer P body :=
    (suffix_append _ _).trans (suffix_append _ _)
  have hslice : Bytes.slice ((records ++ body) ++ footerTrailer P body)
      (records.length + (body.length + footerTrailerLen) - footerTrailerLen) 8
      = Bytes.leBytes 8 body.length := by
    rw [← Nat.add_assoc, Nat.add_sub_cancel, ← length_append, Bytes.slice_append_right
      (Nat.le_refl _),
      Nat.sub_self, footerTrailer, append_assoc, Bytes.slice_append_left (by simp),
      Bytes.slice_of_length (by simp)]
  rw [hlen] at hroom
  have hbl : Bytes.leNat (Bytes.leBytes 8 body.length) = body.length :=
    Bytes.leNat_leBytes (by norm_num; omega)
  rw [dataEndOffset_of_magic (by rw [hlen]; omega) hmagic, hlen, hslice, hbl,
    Nat.mod_eq_of_lt (by omega)]
  omega

/-- The guess: right for a sealed file, and for an open one unless a client's bytes look like the
end of a footer. -/
theorem dataEndOffset_bytes {P : Prims} (f : DataFile P) :
    dataEndOffset f.bytes = f.recordsEnd := by
  obtain ⟨ops, footer, hsize⟩ := f
  cases footer with
  | none =>
    have hiff : (∃ r ∈ (ops.map Logged.toRec).getLast?, magicBytes <:+ r.body)
      ↔ magicBytes <:+ logBytes P ops :=
      (magic_suffix_recsBytes_iff P _).symm
    simp only [DataFile.bytes, DataFile.recordsEnd, elim_none, append_nil, true_and, hiff]
    by_cases hmagic : magicBytes <:+ logBytes P ops
    · have hle : footerTrailerLen ≤ (logBytes P ops).length := trailer_le_of_magic hmagic
      rw [if_pos hmagic, dataEndOffset_of_magic hle hmagic]
    · rw [if_neg hmagic, dataEndOffset_of_not_magic hmagic]
  | some es =>
    have hroom : (logBytes P ops ++ footerBytes P es).length < 2 ^ 64 := by simpa using hsize
    rw [DataFile.recordsEnd, if_neg (by simp)]
    exact dataEndOffset_footer P (logBytes P ops) hroom

/-- A footer that is written behind any bytes is read back as it was, and the bytes are taken to
end where they do. It is written unless the file would become too large. -/
theorem write_footer_round_trip (P : Prims) {s : NsState} {f : LogFile}
    (hfault : ∀ n, s.fault n = none)
    (hring : s.ring = []) (htight : Tight f s) {entries : List FooterEntry}
    (hfits : ∀ e ∈ entries, e.Fits) :
    wpx (fun _ => True) (f.writeFooter P entries) (fun r s' =>
      if (s.disk.inodes f.ino ++ footerBytes P entries).length ≤ maxFileSize then
        (∃ synced, r = .ok synced) ∧ readFooter P (s'.disk.inodes f.ino) = .ok (some entries)
          ∧ dataEndOffset (s'.disk.inodes f.ino) = (s.disk.inodes f.ino).length
      else ∃ e, r = .error (.io e)) s := by
  refine wpx_writeFooter hfault hring htight (fun _ _ => trivial) (fun hbig e s' => ?_)
    fun hsize req => ?_
  · rw [if_neg (by simpa using hbig)]
    exact ⟨e, rfl⟩
  · have hfile : (f.footered P entries s).disk.inodes f.ino = s.disk.inodes f.ino
        ++ footerBytes P entries := by
      simp [LogFile.footered, LogFile.setFile]
    rw [← length_append] at hsize
    have hroom : (s.disk.inodes f.ino ++ footerBytes P entries).length < 2 ^ 64 :=
      hsize.trans_lt (by decide)
    have hbody : (footerBody entries).length < 2 ^ 64 := by
      simp only [footerBytes, length_append] at hroom
      omega
    rw [if_pos hsize, hfile]
    exact ⟨⟨req, rfl⟩, readFooter_append P _ hfits hbody, dataEndOffset_footer P _ hroom⟩

/-- A file with three records. -/
def threeRecords : NsState :=
  freshState .default (fun _ => 100) (fun _ => none) ⟨[], ⟨1, 0⟩, .empty⟩
    (Disk.empty.setBytes 0 (logBytes realPrims threeOps)) ∅

/-- An entry that expires at 0, one with a separated value and one with an empty key. -/
def threeEntries : List FooterEntry :=
  [⟨[0x61], 0, 39, some 0, 1, none⟩, ⟨[0x62], 39, 39, some 99, 2, some (.replicate 16 7)⟩,
    ⟨[], 78, 38, none, 3, none⟩]

theorem write_footer_round_trip_new :
    wpx (fun _ => True) (threeRecords.active.writeFooter realPrims threeEntries) (fun r s' =>
      (∃ synced, r = .ok synced)
        ∧ readFooter realPrims (s'.disk.inodes threeRecords.active.ino) = .ok (some threeEntries)
        ∧ dataEndOffset (s'.disk.inodes threeRecords.active.ino)
          = (logBytes realPrims threeOps).length)
      threeRecords := by
  have hfits : ∀ e ∈ threeEntries, e.Fits := by
    simp only [threeEntries, forall_mem_cons]
    exact ⟨⟨by decide, by decide, by decide⟩, ⟨by decide, by decide, by decide⟩,
      ⟨by decide, by decide, by decide⟩, by simp⟩
  have hfile : threeRecords.disk.inodes threeRecords.active.ino = logBytes realPrims threeOps :=
    Disk.inodes_setBytes _ _ _
  have hsize : (logBytes realPrims threeOps ++ footerBytes realPrims threeEntries).length
      ≤ maxFileSize := by
    decide +kernel
  refine wpx_mono (write_footer_round_trip realPrims (fun _ => rfl) rfl (by rfl) hfits)
    (fun _ h => h)
    fun r s' => ?_
  rw [hfile, if_pos hsize]
  exact id

/-- The scan of a data file emits, in file order, one event for every put and tombstone that a
subscriber is owed, exactly if it is owed none from the first operation on that has an empty key
or reaches past where the records are taken to end. -/
theorem scan_complete_iff {J : Serde} {P : Prims} (f : DataFile P)
    {blob : ContentHash → Option Bytes}
    (hblobs : ∀ l ∈ f.ops, l.BlobPresent P blob) (filter : KeyFilter) (sinceRevision : UInt64) :
    scanFile P blob filter sinceRevision f.bytes
      = f.ops.filterMap (Logged.event J blob filter sinceRevision)
      ↔ ∀ l ∈ missed P f.recordsEnd f.ops, l.event J blob filter sinceRevision = none := by
  have hfuel : f.ops.length < f.bytes.length + 1 := by
    have hle := length_le_recsBytes P (f.ops.map Logged.toRec)
    simp only [length_map] at hle
    simp only [DataFile.bytes, length_append, logBytes]
    omega
  have hend : f.recordsEnd ≤ ([] : Bytes).length + (logBytes P f.ops).length :=
    by simpa using f.recordsEnd_le
  have hscan := scanFileRecords_logged (J := J) filter sinceRevision hblobs []
    (f.footer.elim [] (footerBytes P)) hfuel hend
  rw [scanFile, dataEndOffset_bytes, ← filterMap_eq_nil_iff, ← hscan]
  simp [DataFile.bytes]

/-- The text of a JSON string, say. -/
def plainSerde : Serde where
  Value := Bytes
  fromSlice := some
  toVec := id

/-- Two puts and a tombstone, with a footer that lists the second put. -/
def sealedThree : DataFile realPrims where
  ops := threeOps
  footer := some [⟨[0x62], 39, 39, none, 2, none⟩]
  size := by decide +kernel

theorem scan_complete_iff_sealed :
    scanFile realPrims (fun _ => none) (.startsWith []) 1 sealedThree.bytes
      = sealedThree.ops.filterMap (Logged.event plainSerde (fun _ => none) (.startsWith []) 1) :=
  (scan_complete_iff sealedThree
    (by
      intro l hl key h m x hop
      simp only [sealedThree, threeOps, mem_cons, not_mem_nil, or_false] at hl
      rcases hl with rfl | rfl | rfl <;> cases hop)
    (.startsWith []) 1).mpr (by
      have hnone : missed realPrims sealedThree.recordsEnd sealedThree.ops = [] := by decide +kernel
      simp [hnone])

/-- An empty key, then another one. -/
def emptyKeyFirst : List Logged :=
  [plainPut 1 [] [0x31] (by decide), plainPut 2 [0x61] [0x32] (by decide)]

/-- A value that ends like a footer. -/
def footerLikeValue : List Logged := [plainPut 1 [0x6b] forgedFooter (by decide)]

/-- An empty key ends the scan: neither its put nor the one after it is sent. A value that ends
like a footer makes the scan stop before it. -/
theorem scan_stops_early :
    scanFile realPrims (J := plainSerde) (fun _ => none) (.startsWith []) 0
      (logBytes realPrims emptyKeyFirst) = []
    ∧ (emptyKeyFirst.filterMap (Logged.event plainSerde (fun _ => none) (.startsWith []) 0)).length
    = 2
    ∧ scanFile realPrims (J := plainSerde) (fun _ => none) (.exact [0x6b]) 0
    (logBytes realPrims footerLikeValue) = []
    ∧ (footerLikeValue.filterMap (Logged.event plainSerde (fun _ => none) (.exact [0x6b]) 0)).length
    = 1 := by
  refine ⟨?_, ?_, ?_, ?_⟩ <;> decide +kernel

end BeyondKv
