/-
# Base64 without padding

The URL-safe alphabet, three bytes in four symbols; one or two bytes at the end give two or
three symbols, whose spare bits are zero. The decoder refuses anything else. What was encoded
is decoded (`decode_encode`).
-/
import BeyondKv.Lib.Bytes

namespace Base64

/-- The symbol of a number below 64. -/
def symbol (n : Nat) : UInt8 :=
  if n < 26 then UInt8.ofNat (65 + n)
  else if n < 52 then UInt8.ofNat (71 + n)
  else if n < 62 then UInt8.ofNat (n - 4)
  else if n = 62 then 45 else 95

def value (b : UInt8) : Option Nat :=
  if 65 ≤ b && b ≤ 90 then some (b.toNat - 65)
  else if 97 ≤ b && b ≤ 122 then some (b.toNat - 71)
  else if 48 ≤ b && b ≤ 57 then some (b.toNat + 4)
  else if b == 45 then some 62
  else if b == 95 then some 63
  else none

/-- Six bits at a time. -/
def sextets : Bytes → List Nat
  | [] => []
  | [a] => [a.toNat / 4, a.toNat % 4 * 16]
  | [a, b] => [a.toNat / 4, a.toNat % 4 * 16 + b.toNat / 16, b.toNat % 16 * 4]
  | a :: b :: c :: rest =>
    a.toNat / 4 :: (a.toNat % 4 * 16 + b.toNat / 16) :: (b.toNat % 16 * 4 + c.toNat / 64)
      :: c.toNat % 64 :: sextets rest

def encode (bytes : Bytes) : Bytes := (sextets bytes).map symbol

/-- The first byte of two numbers, and the next ones. -/
def byte₁ (w x : Nat) : UInt8 := UInt8.ofNat (w * 4 + x / 16)
def byte₂ (x y : Nat) : UInt8 := UInt8.ofNat (x % 16 * 16 + y / 4)
def byte₃ (y z : Nat) : UInt8 := UInt8.ofNat (y % 4 * 64 + z)

def decode : Bytes → Option Bytes
  | [] => some []
  | [_] => none
  | [s, t] => do
    let w ← value s
    let x ← value t
    -- spare bits
    if x % 16 = 0 then some [byte₁ w x] else none
  | [s, t, u] => do
    let w ← value s
    let x ← value t
    let y ← value u
    if y % 4 = 0 then some [byte₁ w x, byte₂ x y] else none
  | s :: t :: u :: v :: rest => do
    let w ← value s
    let x ← value t
    let y ← value u
    let z ← value v
    let bytes ← decode rest
    some (byte₁ w x :: byte₂ x y :: byte₃ y z :: bytes)

theorem value_symbol {n : Nat} (h : n < 64) : value (symbol n) = some n := by
  have hall : ∀ n : Fin 64, value (symbol n) = some n.val := by decide +kernel
  exact hall ⟨n, h⟩

theorem byte_lt (a : UInt8) : a.toNat < 256 := a.toNat_lt

theorem byte₁_eq (a : UInt8) (n : Nat) (h : n < 16) :
    byte₁ (a.toNat / 4) (a.toNat % 4 * 16 + n) = a := by
  have heq : a.toNat / 4 * 4 + (a.toNat % 4 * 16 + n) / 16 = a.toNat := by omega
  rw [byte₁, heq, UInt8.ofNat_toNat]

theorem byte₂_eq (b : UInt8) (m n : Nat) (h : n < 4) :
    byte₂ (m * 16 + b.toNat / 16) (b.toNat % 16 * 4 + n) = b := by
  have hb := byte_lt b
  have heq : (m * 16 + b.toNat / 16) % 16 * 16 + (b.toNat % 16 * 4 + n) / 4 = b.toNat := by omega
  rw [byte₂, heq, UInt8.ofNat_toNat]

theorem byte₃_eq (c : UInt8) (m : Nat) : byte₃ (m * 4 + c.toNat / 64) (c.toNat % 64) = c := by
  have hc := byte_lt c
  have heq : (m * 4 + c.toNat / 64) % 4 * 64 + c.toNat % 64 = c.toNat := by omega
  rw [byte₃, heq, UInt8.ofNat_toNat]

theorem decode_encode (bytes : Bytes) : decode (encode bytes) = some bytes := by
  unfold encode
  fun_induction sextets bytes with
  | case1 => rfl
  | case2 a =>
    have ha := byte_lt a
    have hbyte := byte₁_eq a 0 (by omega)
    rw [Nat.add_zero] at hbyte
    simp [decode, value_symbol (show a.toNat / 4 < 64 by omega),
      value_symbol (show a.toNat % 4 * 16 < 64 by omega), hbyte]
  | case3 a b =>
    have ha := byte_lt a
    have hb := byte_lt b
    have hbyte := byte₂_eq b (a.toNat % 4) 0 (by omega)
    rw [Nat.add_zero] at hbyte
    simp [decode, value_symbol (show a.toNat / 4 < 64 by omega),
      value_symbol (show a.toNat % 4 * 16 + b.toNat / 16 < 64 by omega),
      value_symbol (show b.toNat % 16 * 4 < 64 by omega), byte₁_eq a (b.toNat / 16)
        (by omega), hbyte]
  | case4 a b c rest ih =>
    have ha := byte_lt a
    have hb := byte_lt b
    have hc := byte_lt c
    simp [decode, ih, value_symbol (show a.toNat / 4 < 64 by omega),
      value_symbol (show a.toNat % 4 * 16 + b.toNat / 16 < 64 by omega),
      value_symbol (show b.toNat % 16 * 4 + c.toNat / 64 < 64 by omega),
      value_symbol (show c.toNat % 64 < 64 by omega), byte₁_eq a (b.toNat / 16) (by omega),
      byte₂_eq b (a.toNat % 4) (c.toNat / 64) (by omega), byte₃_eq c (b.toNat % 16)]

/-- A single symbol encodes nothing. -/
theorem encode_ne_singleton (bytes : Bytes) (s : UInt8) : encode bytes ≠ [s] := by
  intro h
  have hdecode := decode_encode bytes
  rw [h] at hdecode
  cases hdecode

theorem symbol_le (n : Nat) : 45 ≤ symbol n := by
  have hall : ∀ n : Fin 62, 45 ≤ symbol n := by decide +kernel
  by_cases hn : n < 62
  · exact hall ⟨n, hn⟩
  · have h₁ : ¬ n < 26 := by omega
    have h₂ : ¬ n < 52 := by omega
    simp only [symbol, h₁, h₂, hn, if_false]
    split <;> decide

/-- Separators of a query do not occur. -/
theorem le_of_mem_encode {bytes : Bytes} {s : UInt8} (h : s ∈ encode bytes) : 45 ≤ s := by
  obtain ⟨n, -, rfl⟩ := List.mem_map.mp h
  exact symbol_le n

end Base64
