/-
# Byte strings: slices, positioned writes and little-endian fields

What a file is to a program that reads and writes it by offset: a list of
bytes, `slice` for a positioned read (short at the end of the file, as the
system call is), `writeAt` for a positioned write (a hole before the offset
reads as zeros), and fixed-width little-endian integers with their round trip.
Nothing here knows what the bytes mean.
-/
import Mathlib

/-- A byte string, or the contents of a file. -/
abbrev Bytes := List UInt8

namespace Bytes

open List

/-! ## Slices -/

/-- The bytes a positioned read of `n` bytes at `off` returns. -/
def slice (b : Bytes) (off n : Nat) : Bytes := (b.drop off).take n

theorem length_slice (b : Bytes) (off n : Nat) :
    (slice b off n).length = min n (b.length - off) := by
  simp [slice]

variable {b : Bytes} {off n : Nat}

theorem length_slice_of_le (h : off + n ≤ b.length) : (slice b off n).length = n := by
  rw [length_slice]; omega

theorem slice_append_left {a b : Bytes} (h : off + n ≤ a.length) :
    slice (a ++ b) off n = slice a off n := by
  unfold slice
  rw [drop_append_of_le_length (by omega), take_append_of_le_length]
  rw [length_drop]; omega

theorem slice_append_right {a b : Bytes} (h : a.length ≤ off) :
    slice (a ++ b) off n = slice b (off - a.length) n := by
  unfold slice
  rw [drop_append, drop_eq_nil_of_le h, nil_append]

theorem slice_cons {x : UInt8} (h : 0 < off) : slice (x :: b) off n = slice b (off - 1) n := by
  obtain ⟨m, rfl⟩ : ∃ m, off = m + 1 := ⟨off - 1, by omega⟩
  rfl

@[simp] theorem slice_self (b : Bytes) : slice b 0 b.length = b := by
  simp [slice]

theorem slice_of_length (h : b.length = n) : slice b 0 n = b := by
  subst h; exact slice_self b

/-- Reading back exactly a piece of a concatenation. -/
theorem slice_mid (a b c : Bytes) : slice (a ++ b ++ c) a.length b.length = b := by
  rw [append_assoc, slice_append_right (Nat.le_refl _), Nat.sub_self,
    slice_append_left (by omega), slice_self]

theorem take_append_slice (b : Bytes) : b.take off ++ slice b off n = b.take (off + n) := by
  simp [slice, take_add]

theorem slice_take {off n m : Nat} (h : off + n ≤ m) : slice (b.take m) off n = slice b off n := by
  unfold slice
  rw [drop_take, take_take, Nat.min_eq_left (by omega)]

theorem slice_slice {o₁ n₁ o₂ n₂ : Nat} (h : o₂ + n₂ ≤ n₁) :
    slice (slice b o₁ n₁) o₂ n₂ = slice b (o₁ + o₂) n₂ := by
  unfold slice
  rw [drop_take, take_take, drop_drop, Nat.min_eq_left (by omega)]

/-! ## Positioned writes -/

/-- The file after `data` is written at `off`. -/
def writeAt (b : Bytes) (off : Nat) (data : Bytes) : Bytes :=
  b.take off ++ List.replicate (off - b.length) 0 ++ data ++ b.drop (off + data.length)

theorem writeAt_end (data : Bytes) (h : off = b.length) : writeAt b off data = b ++ data := by
  subst h
  simp [writeAt]

theorem slice_writeAt_self (b : Bytes) (off : Nat) (data : Bytes) :
    slice (writeAt b off data) off data.length = data := by
  have hl : (b.take off ++ List.replicate (off - b.length) 0).length = off := by
    simp; omega
  unfold writeAt
  have := slice_mid (b.take off ++ List.replicate (off - b.length) (0 : UInt8)) data
    (b.drop (off + data.length))
  rwa [hl] at this

theorem slice_writeAt_before {off o n : Nat} (data : Bytes) (h : o + n ≤ off)
    (hb : o + n ≤ b.length) :
    slice (writeAt b off data) o n = slice b o n := by
  have hl : o + n ≤ (b.take off).length := by simp; omega
  unfold writeAt
  rw [append_assoc, append_assoc, slice_append_left hl, slice_take (by omega)]

theorem slice_writeAt_after {off o n : Nat} (data : Bytes) (h : off + data.length ≤ o) :
    slice (writeAt b off data) o n = slice b o n := by
  have hl : (b.take off ++ List.replicate (off - b.length) 0 ++ data).length
      = off + data.length := by simp; omega
  unfold writeAt
  rw [slice_append_right (by omega), hl]
  unfold slice
  rw [drop_drop]
  congr 2; omega

/-! ## Little-endian fields -/

/-- The `w` low bytes of `n`, least significant first. -/
def leBytes : Nat → Nat → Bytes
  | 0, _ => []
  | w + 1, n => UInt8.ofNat n :: leBytes w (n / 256)

/-- The number a little-endian byte string denotes. -/
def leNat : Bytes → Nat
  | [] => 0
  | b :: bs => b.toNat + 256 * leNat bs

@[simp] theorem length_leBytes (w n : Nat) : (leBytes w n).length = w := by
  induction w generalizing n with
  | zero => rfl
  | succ w ih => simp [leBytes, ih]

theorem leNat_leBytes {w n : Nat} (h : n < 256 ^ w) : leNat (leBytes w n) = n := by
  induction w generalizing n with
  | zero => simp at h; simp [leBytes, leNat, h]
  | succ w ih =>
    have hdiv : n / 256 < 256 ^ w := by
      rw [Nat.div_lt_iff_lt_mul (by norm_num)]; rwa [pow_succ] at h
    simp only [leBytes, leNat, ih hdiv, UInt8.toNat_ofNat']
    omega

theorem leNat_lt (b : Bytes) : leNat b < 256 ^ b.length := by
  induction b with
  | nil => simp [leNat]
  | cons x b ih =>
    have hx := x.toNat_lt
    simp only [leNat, length_cons, pow_succ]
    omega

theorem leBytes_leNat (b : Bytes) : leBytes b.length (leNat b) = b := by
  induction b with
  | nil => rfl
  | cons x b ih =>
    have hx := x.toNat_lt
    have hdiv : (x.toNat + 256 * leNat b) / 256 = leNat b := by omega
    have hmod : UInt8.ofNat (x.toNat + 256 * leNat b) = x := by
      apply UInt8.toNat_inj.mp
      rw [UInt8.toNat_ofNat']
      omega
    simp only [length_cons, leBytes, leNat, hdiv, hmod, ih]

/-- A 64-bit word as eight bytes, and back. -/
def ofU64 (x : UInt64) : Bytes := leBytes 8 x.toNat

def toU64 (b : Bytes) : UInt64 := UInt64.ofNat (leNat b)

@[simp] theorem length_ofU64 (x : UInt64) : (ofU64 x).length = 8 := length_leBytes 8 _

@[simp] theorem toU64_ofU64 (x : UInt64) : toU64 (ofU64 x) = x := by
  have hx : x.toNat < 256 ^ 8 := by have := x.toNat_lt; norm_num; omega
  simp [toU64, ofU64, leNat_leBytes hx]

theorem ofU64_toU64 (h : b.length = 8) : ofU64 (toU64 b) = b := by
  have hlt : leNat b < 2 ^ 64 := by
    have := leNat_lt b
    rw [h] at this
    calc leNat b < 256 ^ 8 := this
      _ = 2 ^ 64 := by norm_num
  unfold ofU64 toU64
  rw [UInt64.toNat_ofNat_of_lt' hlt, ← h, leBytes_leNat]

end Bytes
