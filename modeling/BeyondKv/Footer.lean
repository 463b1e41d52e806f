/-
# The footer of a sealed file

Sealing a data file appends one entry per live key of that file and a 24-byte
trailer: body length, body checksum, magic. `readFooter` looks only at the end
of a file: eight bytes that spell the magic make it a sealed file, whoever wrote
them. `readFooter_append` is the round trip; `readFooter_eq_none_iff` is the
whole of what "not sealed" means to the reader.
-/
import BeyondKv.Index

namespace BeyondKv

/-- `0x4259_4F4E_445F_4B58`, "BYOND_KX". -/
def footerMagic : UInt64 := 0x42594F4E445F4B58

/-- Body length, checksum and magic: eight bytes each. -/
def footerTrailerLen : Nat := 24

structure FooterEntry where
  key : Bytes
  recordOffset : Nat
  recordSize : Nat
  expiresAtMs : Option UInt64
  tstampMs : UInt64
  valueHash : Option ContentHash
  deriving DecidableEq, Repr

namespace FooterEntry

/-- The two bytes strings an optional hash is written as. -/
def encodeHash : Option ContentHash → Bytes
  | some h => 1 :: h.toList
  | none => [0]

def encode (e : FooterEntry) : Bytes :=
  Bytes.leBytes 4 e.key.length ++ Bytes.leBytes 8 e.recordOffset
    ++ Bytes.leBytes 4 e.recordSize ++ Bytes.ofU64 (e.expiresAtMs.getD 0)
    ++ [if e.expiresAtMs.isSome then 1 else 0] ++ Bytes.ofU64 e.tstampMs
    ++ encodeHash e.valueHash ++ e.key

/-- A 16-byte slice as a content hash. -/
def hashOfBytes (b : Bytes) : Option ContentHash :=
  if h : b.toArray.size = 16 then some ⟨b.toArray, h⟩ else none

/-- One entry from the front of `buf`, with the number of bytes it used. -/
def parse (buf : Bytes) : Option (FooterEntry × Nat) :=
  if buf.length < 34 then none
  else
    let keySize := Bytes.leNat (Bytes.slice buf 0 4)
    let recordOffset := Bytes.leNat (Bytes.slice buf 4 8)
    let recordSize := Bytes.leNat (Bytes.slice buf 12 4)
    let expiresMs := Bytes.toU64 (Bytes.slice buf 16 8)
    let hasExpiry := buf.getD 24 0
    let tstampMs := Bytes.toU64 (Bytes.slice buf 25 8)
    let hasValsep := buf.getD 33 0
    if hasValsep ≠ 0 ∧ buf.length < 34 + 16 then none
    else
      let valueHash := if hasValsep ≠ 0 then hashOfBytes (Bytes.slice buf 34 16) else none
      let cursor := if hasValsep ≠ 0 then 34 + 16 else 34
      let total := cursor + keySize
      if buf.length < total then none
      else
        some ({ key := Bytes.slice buf cursor keySize
                recordOffset, recordSize
                expiresAtMs := if hasExpiry ≠ 0 then some expiresMs else none
                tstampMs, valueHash }, total)

/-- The bounds the field widths impose: what the source's `u32` and `u64` hold. -/
structure Fits (e : FooterEntry) : Prop where
  key : e.key.length < 2 ^ 32
  recordOffset : e.recordOffset < 2 ^ 64
  recordSize : e.recordSize < 2 ^ 32

theorem hashOfBytes_toList (h : ContentHash) : hashOfBytes h.toList = some h := by
  have hs : h.toList.toArray.size = 16 := by simp
  unfold hashOfBytes
  rw [dif_pos hs]
  exact congrArg some (Vector.toArray_inj.mp (by simp [Vector.toList]))

theorem length_encode (e : FooterEntry) :
    e.encode.length = 33 + (encodeHash e.valueHash).length + e.key.length := by
  simp [encode]; omega

theorem encode_ne_nil (e : FooterEntry) : e.encode ≠ [] := by
  intro h
  have := length_encode e
  rw [h] at this
  simp at this
  omega

/-- An entry reads back from the front of whatever follows it. -/
theorem parse_encode_append {e : FooterEntry} (hf : e.Fits) (rest : Bytes) :
    parse (e.encode ++ rest) = some (e, e.encode.length) := by
  have hk := Bytes.leNat_leBytes (w := 4) (n := e.key.length) (by norm_num; exact hf.key)
  have ho := Bytes.leNat_leBytes (w := 8) (n := e.recordOffset)
    (by norm_num; exact hf.recordOffset)
  have hs := Bytes.leNat_leBytes (w := 4) (n := e.recordSize)
    (by norm_num; exact hf.recordSize)
  obtain ⟨key, off, size, exp, ts, hash⟩ := e
  simp only at hk ho hs
  cases hash with
  | none =>
    cases exp <;>
    simp [parse, encode, encodeHash, Bytes.slice_append_left, Bytes.slice_append_right,
      Bytes.slice_cons, Bytes.slice_of_length, List.getElem?_append_right, hk, ho, hs] <;>
    omega
  | some h =>
    cases exp <;>
    simp [parse, encode, encodeHash, Bytes.slice_append_left, Bytes.slice_append_right,
      Bytes.slice_cons, Bytes.slice_of_length, List.getElem?_append_right,
      hashOfBytes_toList, hk, ho, hs] <;>
    omega

end FooterEntry

/-! ## Writing and reading a whole footer -/

/-- The entries of a footer, one after another. -/
def footerBody (entries : List FooterEntry) : Bytes := entries.flatMap FooterEntry.encode

def footerTrailer (P : Prims) (body : Bytes) : Bytes :=
  Bytes.leBytes 8 body.length ++ Bytes.ofU64 (P.crc64 body) ++ Bytes.ofU64 footerMagic

/-- The parse loop of `read_footer`: `rest` is `&body[cursor..]`, `at_` its offset in
the file. Every entry uses at least 34 bytes, so the body's length bounds the turns. -/
def parseEntries : Nat → Bytes → Nat → Except EngineError (List FooterEntry)
  | _, [], _ => .ok []
  | 0, _ :: _, at_ => .error (.badRecord at_ "malformed footer entry")
  | fuel + 1, b :: rest, at_ =>
    match FooterEntry.parse (b :: rest) with
    | none => .error (.badRecord at_ "malformed footer entry")
    | some (entry, used) => do
      let entries ← parseEntries fuel ((b :: rest).drop used) (at_ + used)
      return entry :: entries

/-- `read_footer` on a file with these contents. -/
def readFooter (P : Prims) (file : Bytes) : Except EngineError (Option (List FooterEntry)) :=
  let totalSize := file.length
  if totalSize < footerTrailerLen then .ok none
  else
    let trailer := Bytes.slice file (totalSize - footerTrailerLen) footerTrailerLen
    let bodyLen := Bytes.leNat (Bytes.slice trailer 0 8)
    let storedCrc := Bytes.toU64 (Bytes.slice trailer 8 8)
    let magic := Bytes.toU64 (Bytes.slice trailer 16 8)
    if magic ≠ footerMagic then .ok none
    else if bodyLen > totalSize - footerTrailerLen then
      .error (.badRecord (totalSize - footerTrailerLen) "footer body length out of range")
    else
      let bodyOffset := totalSize - footerTrailerLen - bodyLen
      let body := Bytes.slice file bodyOffset bodyLen
      if P.crc64 body ≠ storedCrc then .error (.crcMismatch bodyOffset)
      else do
        let entries ← parseEntries body.length body bodyOffset
        return some entries

@[simp] theorem length_footerTrailer (P : Prims) (body : Bytes) :
    (footerTrailer P body).length = footerTrailerLen := by
  simp [footerTrailer, footerTrailerLen]

theorem length_le_footerBody (entries : List FooterEntry) :
    entries.length ≤ (footerBody entries).length := by
  induction entries with
  | nil => simp [footerBody]
  | cons e es ih =>
    have he := List.length_pos_iff.mpr e.encode_ne_nil
    simp only [footerBody, List.flatMap_cons, List.length_append, List.length_cons] at *
    omega

theorem parseEntries_footerBody {entries : List FooterEntry}
    (hf : ∀ e ∈ entries, e.Fits) {fuel : Nat} (hfuel : entries.length ≤ fuel) (at_ : Nat) :
    parseEntries fuel (footerBody entries) at_ = .ok entries := by
  induction entries generalizing fuel at_ with
  | nil => cases fuel <;> rfl
  | cons e es ih =>
    obtain ⟨fuel, rfl⟩ : ∃ n, fuel = n + 1 := ⟨fuel - 1, by simp at hfuel; omega⟩
    have hp := FooterEntry.parse_encode_append (hf e (by simp)) (footerBody es)
    have hes := ih (fun x hx => hf x (by simp [hx])) (by simpa using hfuel)
      (at_ + e.encode.length)
    have hcons : footerBody (e :: es) = e.encode ++ footerBody es := rfl
    rw [hcons]
    cases hb : e.encode ++ footerBody es with
    | nil => exact absurd (List.append_eq_nil_iff.mp hb).1 e.encode_ne_nil
    | cons b rest =>
      rw [hb] at hp
      simp only [parseEntries, hp]
      rw [← hb, List.drop_left, hes]
      rfl

/-- The trailer is the last 24 bytes. -/
theorem slice_trailer (file : Bytes) (P : Prims) (body : Bytes) :
    Bytes.slice (file ++ footerTrailer P body)
      ((file ++ footerTrailer P body).length - footerTrailerLen) footerTrailerLen
      = footerTrailer P body := by
  have hl : (file ++ footerTrailer P body).length - footerTrailerLen = file.length := by
    simp
  rw [hl, Bytes.slice_append_right (Nat.le_refl _), Nat.sub_self]
  exact Bytes.slice_of_length (length_footerTrailer P body)

/-- All bytes a footer adds to a file. -/
def footerBytes (P : Prims) (entries : List FooterEntry) : Bytes :=
  footerBody entries ++ footerTrailer P (footerBody entries)

/-- A footer written after any bytes reads back as its entries. -/
theorem readFooter_append (P : Prims) (records : Bytes) {entries : List FooterEntry}
    (hf : ∀ e ∈ entries, e.Fits) (hlen : (footerBody entries).length < 2 ^ 64) :
    readFooter P (records ++ footerBytes P entries) = .ok (some entries) := by
  rw [footerBytes, ← List.append_assoc]
  have htr := slice_trailer (records ++ footerBody entries) P (footerBody entries)
  have hbl : Bytes.leNat (Bytes.leBytes 8 (footerBody entries).length)
      = (footerBody entries).length := Bytes.leNat_leBytes (by norm_num; exact hlen)
  have hparse := parseEntries_footerBody hf (length_le_footerBody entries) records.length
  set body := footerBody entries with hbody
  have htotal : (records ++ body ++ footerTrailer P body).length
      = records.length + body.length + footerTrailerLen := by simp; omega
  simp only [readFooter]
  rw [htr]
  simp only [htotal]
  rw [if_neg (by omega)]
  simp [footerTrailer, Bytes.slice_append_left, Bytes.slice_append_right,
    Bytes.slice_of_length, hbl, hparse, bind, Except.bind, pure, Except.pure]

/-! ## What the reader takes for an unsealed file -/

/-- The last eight bytes of every sealed file: `58 4B 5F 44 4E 4F 59 42`. -/
def magicBytes : Bytes := Bytes.ofU64 footerMagic

@[simp] theorem length_magicBytes : magicBytes.length = 8 := Bytes.length_ofU64 _

theorem slice_end_eq_iff {file m : Bytes} {n : Nat} (hm : m.length = n) (hn : n ≤ file.length) :
    Bytes.slice file (file.length - n) n = m ↔ m <:+ file := by
  have hs : Bytes.slice file (file.length - n) n = file.drop (file.length - n) := by
    unfold Bytes.slice
    rw [List.take_of_length_le]
    simp; omega
  rw [hs, ← hm]
  exact ⟨fun h => h ▸ List.drop_suffix _ _, fun h => (List.suffix_iff_eq_drop.mp h).symm⟩

/-- Only the last eight bytes decide whether a file counts as sealed. -/
theorem readFooter_eq_none_iff (P : Prims) (file : Bytes) :
    readFooter P file = .ok none ↔ file.length < footerTrailerLen ∨ ¬ magicBytes <:+ file := by
  by_cases hlen : file.length < footerTrailerLen
  · simp [readFooter, hlen]
  have h24 : footerTrailerLen ≤ file.length := Nat.le_of_not_lt hlen
  have h24' : 24 ≤ file.length := h24
  have hslice : Bytes.slice (Bytes.slice file (file.length - footerTrailerLen) footerTrailerLen)
      16 8 = Bytes.slice file (file.length - 8) 8 := by
    rw [Bytes.slice_slice (by decide)]
    congr 1
    unfold footerTrailerLen
    omega
  have hmagic : Bytes.toU64 (Bytes.slice file (file.length - 8) 8) = footerMagic
      ↔ magicBytes <:+ file := by
    rw [← slice_end_eq_iff length_magicBytes (by omega)]
    constructor
    · intro h
      rw [magicBytes, ← h, Bytes.ofU64_toU64 (Bytes.length_slice_of_le (by omega))]
    · intro h
      rw [h, magicBytes, Bytes.toU64_ofU64]
  simp only [readFooter, hslice, hlen, if_false, false_or]
  by_cases hm : magicBytes <:+ file
  · -- with the magic in place every other outcome is a footer or an error
    rw [if_neg (by simpa using hmagic.mpr hm)]
    simp only [hm, not_true, iff_false]
    split
    · simp
    split
    · simp
    intro h
    cases hp : parseEntries _ _ _ with
    | error e => rw [hp] at h; cases h
    | ok es => rw [hp] at h; cases h
  · rw [if_pos (by simpa using mt hmagic.mp hm)]
    simp [hm]

end BeyondKv
