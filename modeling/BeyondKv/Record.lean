/-
# The record format

A data file is a run of records: a 37-byte little-endian header (checksum,
revision, flags, expiry, three sizes) followed by key, value and metadata.
`encodeInto` writes one, `parseHeader` and `verifyCrc` read one back.

The checksum, the content hash and the key hash are library code, so they are
parameters (`Prims`); no result assumes more about them than it names.
`Rec` is a record that fits the 4 GiB limit `encodeInto` checks, so every `Rec` has
an encoding (`encodeInto_rec`), and the `Rec.…_headerBytes` lemmas say that what
is written parses and verifies again.
-/
import BeyondKv.Lib.Bytes

namespace BeyondKv

/-- A BLAKE3-128 content hash. -/
abbrev ContentHash := Vector UInt8 16

instance : Std.TransOrd ContentHash := inferInstance

/-- The library functions the engine calls. -/
structure Prims where
  /-- `crc_fast::checksum(Crc64Nvme, _)`. -/
  crc64 : Bytes → UInt64
  /-- `value_store::content_hash`: the first 16 bytes of the BLAKE3 hash. -/
  contentHash : Bytes → ContentHash
  /-- `FxHasher` over a key. -/
  fxHash : Bytes → UInt64

inductive IoError where
  | notFound
  | unexpectedEof
  | other (msg : String)
  deriving DecidableEq, Repr

inductive EngineError where
  | io (source : IoError)
  | crcMismatch (offset : Nat)
  | badRecord (offset : Nat) (reason : String)
  | invalidNamespace (name : String)
  | metadataJson
  | reclamationBusy
  | capacityExceeded (reason : String)
  | invalidInput (reason : String)
  | conflict (reason : String)
  | frozen
  deriving DecidableEq, Repr

/-- `u32::MAX`. -/
def u32Max : Nat := 2 ^ 32 - 1

/-! ## Flags -/

def flagTombstone : UInt8 := 1
def flagNoExpiry : UInt8 := 2
def flagTtlUpdate : UInt8 := 4
def flagValueSep : UInt8 := 8

/-- `flags & bit != 0`. -/
def hasFlag (flags bit : UInt8) : Bool := flags &&& bit != 0

/-! ## The header -/

def headerLen : Nat := 37

structure RecordHeader where
  crc : UInt64
  tstampMs : UInt64
  flags : UInt8
  expiresAtMs : UInt64
  keySize : Nat
  valSize : Nat
  metaSize : Nat
  deriving DecidableEq, Repr

def RecordHeader.bodyLen (h : RecordHeader) : Nat := h.keySize + h.valSize + h.metaSize

def RecordHeader.recordLen (h : RecordHeader) : Nat := headerLen + h.bodyLen

def u64Le (buf : Bytes) (off at_ : Nat) : Except EngineError UInt64 :=
  if off + 8 ≤ buf.length then .ok (Bytes.toU64 (Bytes.slice buf off 8))
  else .error (.badRecord at_ "truncated u64 field")

def u32Le (buf : Bytes) (off at_ : Nat) : Except EngineError Nat :=
  if off + 4 ≤ buf.length then .ok (Bytes.leNat (Bytes.slice buf off 4))
  else .error (.badRecord at_ "truncated u32 field")

/-- Parse a header; the checksum is not verified here. -/
def parseHeader (buf : Bytes) (offset : Nat) : Except EngineError RecordHeader :=
  if buf.length < headerLen then .error (.badRecord offset "short header")
  else do
    let crc ← u64Le buf 0 offset
    let tstampMs ← u64Le buf 8 offset
    let flags := buf.getD 16 0
    let expiresAtMs ← u64Le buf 17 offset
    let keySize ← u32Le buf 25 offset
    let valSize ← u32Le buf 29 offset
    let metaSize ← u32Le buf 33 offset
    return { crc, tstampMs, flags, expiresAtMs, keySize, valSize, metaSize }

/-- A header does not depend on what follows it. -/
theorem parseHeader_append {a : Bytes} (ha : a.length = headerLen) (b : Bytes) (offset : Nat) :
    parseHeader (a ++ b) offset = parseHeader a offset := by
  have h64 : ∀ off, off + 8 ≤ headerLen → u64Le (a ++ b) off offset = u64Le a off offset := by
    intro off hoff
    have hle : off + 8 ≤ a.length := by omega
    unfold u64Le
    rw [if_pos hle, if_pos (by rw [List.length_append]; omega), Bytes.slice_append_left hle]
  have h32 : ∀ off, off + 4 ≤ headerLen → u32Le (a ++ b) off offset = u32Le a off offset := by
    intro off hoff
    have hle : off + 4 ≤ a.length := by omega
    unfold u32Le
    rw [if_pos hle, if_pos (by rw [List.length_append]; omega), Bytes.slice_append_left hle]
  have hget : (a ++ b).getD 16 0 = a.getD 16 0 := by
    have hlt : 16 < a.length := by rw [ha]; decide
    simp [List.getD_eq_getElem?_getD, List.getElem?_append_left hlt]
  unfold parseHeader
  rw [if_neg (by rw [List.length_append]; omega), if_neg (by omega), h64 0 (by decide),
    h64 8 (by decide), h64 17 (by decide), h32 25 (by decide), h32 29 (by decide),
    h32 33 (by decide), hget]

/-- The checksum covers everything after its own field. -/
def verifyCrc (P : Prims) (header : RecordHeader) (headerBytes body : Bytes)
    (offset : Nat) : Except EngineError Unit :=
  if P.crc64 (headerBytes.drop 8 ++ body) ≠ header.crc then .error (.crcMismatch offset)
  else .ok ()

/-! ## Encoding -/

/-- Everything the checksum covers, in file order. -/
def payload (tstampMs : UInt64) (flags : UInt8) (expiresAtMs : UInt64)
    (key value metadata : Bytes) : Bytes :=
  Bytes.ofU64 tstampMs ++ [flags] ++ Bytes.ofU64 expiresAtMs
    ++ Bytes.leBytes 4 key.length ++ Bytes.leBytes 4 value.length
    ++ Bytes.leBytes 4 metadata.length ++ key ++ value ++ metadata

def encodeInto (P : Prims) (buf : Bytes) (tstampMs : UInt64) (flags : UInt8)
    (expiresAtMs : UInt64) (key value metadata : Bytes) : Except EngineError Bytes :=
  if headerLen + key.length + value.length + metadata.length ≤ u32Max then
    let body := payload tstampMs flags expiresAtMs key value metadata
    .ok (buf ++ (Bytes.ofU64 (P.crc64 body) ++ body))
  else .error (.badRecord 0 "record exceeds 4 GiB limit")

/-! ## Records that fit -/

/-- The fields of a record within the size limit `encodeInto` enforces. -/
structure Rec where
  tstampMs : UInt64
  flags : UInt8
  expiresAtMs : UInt64
  key : Bytes
  value : Bytes
  metadata : Bytes
  fits : headerLen + key.length + value.length + metadata.length ≤ u32Max

namespace Rec

/-- The body follows the header on disk. -/
def body (r : Rec) : Bytes := r.key ++ r.value ++ r.metadata

def payload (r : Rec) : Bytes :=
  BeyondKv.payload r.tstampMs r.flags r.expiresAtMs r.key r.value r.metadata

def bytes (P : Prims) (r : Rec) : Bytes := Bytes.ofU64 (P.crc64 r.payload) ++ r.payload

def header (P : Prims) (r : Rec) : RecordHeader where
  crc := P.crc64 r.payload
  tstampMs := r.tstampMs
  flags := r.flags
  expiresAtMs := r.expiresAtMs
  keySize := r.key.length
  valSize := r.value.length
  metaSize := r.metadata.length

def headerBytes (P : Prims) (r : Rec) : Bytes :=
  Bytes.ofU64 (P.crc64 r.payload) ++ (Bytes.ofU64 r.tstampMs ++ [r.flags]
    ++ Bytes.ofU64 r.expiresAtMs ++ Bytes.leBytes 4 r.key.length
    ++ Bytes.leBytes 4 r.value.length ++ Bytes.leBytes 4 r.metadata.length)

variable (P : Prims) (r : Rec)

theorem bytes_eq : r.bytes P = r.headerBytes P ++ r.body := by
  simp [bytes, headerBytes, payload, body, BeyondKv.payload]

@[simp] theorem length_headerBytes : (r.headerBytes P).length = headerLen := by
  simp [headerBytes, headerLen]

@[simp] theorem bodyLen_header : (r.header P).bodyLen = r.body.length := by
  simp [header, RecordHeader.bodyLen, body]; omega

theorem length_bytes : (r.bytes P).length = headerLen + r.body.length := by
  rw [bytes_eq, List.length_append, length_headerBytes]

@[simp] theorem recordLen_header : (r.header P).recordLen = (r.bytes P).length := by
  rw [length_bytes, RecordHeader.recordLen, bodyLen_header]

theorem headerLen_le_length_bytes : headerLen ≤ (r.bytes P).length := by
  rw [length_bytes]; omega

theorem length_bytes_pos : 0 < (r.bytes P).length := by
  have := headerLen_le_length_bytes P r
  unfold headerLen at this
  omega

theorem length_bytes_le : (r.bytes P).length ≤ u32Max := by
  have := r.fits
  rw [length_bytes]
  simp only [body, List.length_append]
  omega

private theorem field_lt {n : Nat} (h : n ≤ u32Max) : n < 256 ^ 4 := by
  unfold u32Max at h; norm_num at *; omega

theorem parseHeader_headerBytes (offset : Nat) :
    parseHeader (r.headerBytes P) offset = .ok (r.header P) := by
  have hf := r.fits
  have hk := Bytes.leNat_leBytes (field_lt (n := r.key.length) (by omega))
  have hv := Bytes.leNat_leBytes (field_lt (n := r.value.length) (by omega))
  have hm := Bytes.leNat_leBytes (field_lt (n := r.metadata.length) (by omega))
  have hlen : ¬ (r.headerBytes P).length < headerLen := by simp
  unfold parseHeader
  rw [if_neg hlen]
  -- every field sits at its fixed offset, whatever the sizes of the body's parts
  simp [u64Le, u32Le, headerBytes, Bytes.slice_append_left, Bytes.slice_append_right,
    Bytes.slice_cons, Bytes.slice_of_length, hk, hv, hm, header, bind, Except.bind,
      pure, Except.pure]

theorem parseHeader_bytes (offset : Nat) : parseHeader (r.bytes P) offset = .ok (r.header P) := by
  rw [bytes_eq, parseHeader_append (r.length_headerBytes P), parseHeader_headerBytes]

theorem verifyCrc_headerBytes (offset : Nat) :
    verifyCrc P (r.header P) (r.headerBytes P) r.body offset = .ok () := by
  have hp : (r.headerBytes P).drop 8 ++ r.body = r.payload := by
    simp [headerBytes, payload, body, BeyondKv.payload]
  unfold verifyCrc
  rw [hp]
  simp [header]

/-- A record that fits is what `encodeInto` appends. -/
theorem encodeInto_rec (buf : Bytes) :
    encodeInto P buf r.tstampMs r.flags r.expiresAtMs r.key r.value r.metadata
      = .ok (buf ++ r.bytes P) := by
  unfold encodeInto
  rw [if_pos r.fits]
  rfl

end Rec

end BeyondKv
