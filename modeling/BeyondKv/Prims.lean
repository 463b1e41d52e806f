/-
# The library functions on concrete bytes

The development is generic in `Prims`. Where a result is shown at a concrete
input, the functions are the real ones there: CRC-64/NVME in full, the key hash
of `rustc-hash` 2 for keys of at most 16 bytes, and BLAKE3 as its published
digests of three short inputs.
-/
import BeyondKv.Record

namespace BeyondKv

/-- One bit of the reflected CRC-64/NVME shift register. -/
def crcBit (c : Nat) : Nat :=
  if c % 2 = 1 then (c >>> 1) ^^^ 0x9a6c9329ac4bc9b5 else c >>> 1

def crcByte (c : Nat) (b : UInt8) : Nat :=
  crcBit (crcBit (crcBit (crcBit (crcBit (crcBit (crcBit (crcBit (c ^^^ b.toNat))))))))

def crc64Nvme (b : Bytes) : UInt64 :=
  UInt64.ofNat (b.foldl crcByte 0xffffffffffffffff ^^^ 0xffffffffffffffff)

/-- The catalogued check value of CRC-64/NVME, over the ASCII digits 1 to 9. -/
example : crc64Nvme [0x31, 0x32, 0x33, 0x34, 0x35, 0x36, 0x37, 0x38, 0x39]
    = 0xae8b14860a799888 := by decide +kernel

/-- `multiply_mix`: the two halves of the 128-bit product. -/
def multiplyMix (x y : Nat) : Nat := (x * y) % 2 ^ 64 ^^^ (x * y) / 2 ^ 64

/-- `hash_bytes` of `rustc-hash` 2 on at most 16 bytes. -/
def fxHashBytes (b : Bytes) : Nat :=
  let s₀ := 0x243f6a8885a308d3
  let s₁ := 0x13198a2e03707344
  let n := b.length
  let mixed :=
    if 8 ≤ n then
      multiplyMix (s₀ ^^^ Bytes.leNat (Bytes.slice b 0 8))
        (s₁ ^^^ Bytes.leNat (Bytes.slice b (n - 8) 8))
    else if 4 ≤ n then
      multiplyMix (s₀ ^^^ Bytes.leNat (Bytes.slice b 0 4))
        (s₁ ^^^ Bytes.leNat (Bytes.slice b (n - 4) 4))
    else if 0 < n then
      multiplyMix (s₀ ^^^ (b.getD 0 0).toNat)
        (s₁ ^^^ ((b.getD (n - 1) 0).toNat <<< 8 ||| (b.getD (n / 2) 0).toNat))
    else multiplyMix s₀ s₁
  mixed ^^^ n

/-- `FxHasher` over a byte slice: its length, then its bytes. -/
def fxHash (b : Bytes) : UInt64 :=
  let k := 0xf1357aea2e62a9c5
  let h := ((b.length * k) % 2 ^ 64 + fxHashBytes b) * k % 2 ^ 64
  UInt64.ofNat ((h <<< 26) % 2 ^ 64 ||| h >>> 38)

/-- The first 16 bytes of the BLAKE3 digests of `[]`, `[0]` and `[0, 1]`; other inputs
do not occur at concrete points. -/
def blake3Known : Bytes → ContentHash
  | [] => #v[0xaf, 0x13, 0x49, 0xb9, 0xf5, 0xf9, 0xa1, 0xa6,
      0xa0, 0x40, 0x4d, 0xea, 0x36, 0xdc, 0xc9, 0x49]
  | [0] => #v[0x2d, 0x3a, 0xde, 0xdf, 0xf1, 0x1b, 0x61, 0xf1,
      0x4c, 0x88, 0x6e, 0x35, 0xaf, 0xa0, 0x36, 0x73]
  | [0, 1] => #v[0x7b, 0x70, 0x15, 0xbb, 0x92, 0xcf, 0x0b, 0x31,
      0x80, 0x37, 0x70, 0x2a, 0x6c, 0xdd, 0x81, 0xde]
  | _ => Vector.replicate 16 0

/-- The library functions at the concrete inputs of this development. -/
def realPrims : Prims where
  crc64 := crc64Nvme
  contentHash := blake3Known
  fxHash := fxHash

end BeyondKv
