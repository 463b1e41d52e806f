/-
# Names and numbers in HTTP requests

The helpers of the HTTP side: query parameters, decimal numbers, percent coding, and the name
under which a key is shown. A key that is UTF-8 is shown as it is, any other one percent-coded;
both list responses and watch events do this (`keyName`).

A request names a key percent-coded. So a shown name leads back to its key exactly if the key is
not UTF-8 or has no `%` with two hex digits behind it (`keyName_identifies_iff`).
-/
import BeyondKv.Store

namespace BeyondKv.Server

open List

/-- The bytes of a text in ASCII. -/
def ascii (s : String) : Bytes := s.toList.map fun c => UInt8.ofNat c.toNat

/-! ## Parameters -/

abbrev ampersand : UInt8 := 38
abbrev equalsSign : UInt8 := 61

/-- `split_once`. -/
def splitOnce (sep : UInt8) (s : Bytes) : Option (Bytes × Bytes) :=
  match s.span (· != sep) with
  | (k, _ :: v) => some (k, v)
  | (_, []) => none

def queryParam (query name : Bytes) : Option Bytes :=
  (query.splitOn ampersand).findSome? fun pair =>
    match splitOnce equalsSign pair with
    | some (k, v) => if k = name then some v else none
    | none => none

section params
variable {k v : Bytes}

theorem span_part {sep : UInt8} {a : Bytes} (ha : sep ∉ a) (b : Bytes) :
    (a ++ sep :: b).span (· != sep) = (a, sep :: b) := by
  have hpass : ∀ x ∈ a, (x != sep) = true := by
    intro x hx
    rw [bne_iff_ne]
    rintro rfl
    exact ha hx
  rw [span_eq_takeWhile_dropWhile, takeWhile_append_of_pos hpass, dropWhile_append_of_pos hpass]
  simp

theorem splitOnce_pair (hk : equalsSign ∉ k) (v : Bytes) :
    splitOnce equalsSign (k ++ equalsSign :: v) = some (k, v) := by
  rw [splitOnce, span_part hk]

theorem beq_false_of_notMem {sep : UInt8} {s : Bytes} (h : sep ∉ s) :
    ∀ b ∈ s, (b == sep) = false := by
  intro b hb
  rw [beq_eq_false_iff_ne]
  rintro rfl
  exact h hb

theorem splitOn_part {sep : UInt8} {a : Bytes} (ha : sep ∉ a) (b : Bytes) :
    (a ++ sep :: b).splitOn sep = a :: b.splitOn sep :=
  splitOnP_append_cons_of_forall_mem (beq_false_of_notMem ha) sep (beq_self_eq_true _) b

/-- The first of several parameters. -/
theorem queryParam_cons (hk : equalsSign ∉ k) (hpair : ampersand ∉ k ++ equalsSign :: v)
    (rest name : Bytes) :
    queryParam (k ++ equalsSign :: v ++ ampersand :: rest) name = if k = name then some v
        else queryParam rest name := by
  rw [queryParam, splitOn_part hpair, findSome?_cons, splitOnce_pair hk]
  by_cases hname : k = name
  · simp only [if_pos hname]
  · simp only [if_neg hname]
    rfl

/-- The last parameter. -/
theorem queryParam_single (hk : equalsSign ∉ k) (hpair : ampersand ∉ k ++ equalsSign :: v)
    (name : Bytes) :
    queryParam (k ++ equalsSign :: v) name = if k = name then some v else none := by
  have hsplit : (k ++ equalsSign :: v).splitOn ampersand = [k ++ equalsSign :: v] :=
    splitOnP_eq_singleton (beq_false_of_notMem hpair)
  rw [queryParam, hsplit, findSome?_singleton, splitOnce_pair hk]

end params

/-- `str::parse::<u64>`. -/
def parseU64 (s : Bytes) : Option UInt64 := do
  let n ← match s with
    | 43 :: digits => ShardStore.parseDigits digits
    | digits => ShardStore.parseDigits digits
  if n < 2 ^ 64 then some (UInt64.ofNat n) else none

/-! ## Errors -/

/-- An error of the engine, and the text it prints. -/
structure Failure where
  error : EngineError
  text : String
  deriving DecidableEq

/-- The body of an error response. -/
structure HttpError where
  status : Nat
  code : String
  message : String
  hint : Option String
  deriving DecidableEq

def err (status : Nat) (code msg : String) : HttpError := ⟨status, code, msg, none⟩

def internalError (msg : String) : HttpError := err 500 "internal_error" msg

def engineErrorResponse (e : Failure) : HttpError :=
  match e.error with
  | .invalidNamespace _ => err 400 "invalid_namespace" e.text
  | .capacityExceeded _ => err 400 "capacity_exceeded" e.text
  | .invalidInput _ => err 400 "invalid_value" e.text
  | .conflict _ =>
    ⟨409, "conflict", e.text,
      some "read the current revision from the X-KV-Revision response header and retry"⟩
  | _ => internalError e.text

/-! ## Percent coding -/

abbrev percent : UInt8 := 37

def hexVal (b : UInt8) : Option UInt8 :=
  if 48 ≤ b && b ≤ 57 then some (b - 48)
  else if 97 ≤ b && b ≤ 102 then some (b - 97 + 10)
  else if 65 ≤ b && b ≤ 70 then some (b - 65 + 10)
  else none

def percentDecode : Bytes → Bytes
  | [] => []
  | b :: rest =>
    if b == percent then
      match rest with
      | h :: l :: rest' =>
        match hexVal h, hexVal l with
        | some h', some l' => (h' <<< 4 ||| l') :: percentDecode rest'
        | _, _ => b :: percentDecode (h :: l :: rest')
      | rest => b :: percentDecode rest
    else b :: percentDecode rest

/-- Bytes that stay as they are. -/
def isUnreserved (b : UInt8) : Bool :=
  (48 ≤ b && b ≤ 57) || (65 ≤ b && b ≤ 90) || (97 ≤ b && b ≤ 122) || b == 45 || b == 95 || b ==
    46 || b == 126

/-- `HEX[n]`. -/
def hexDigit (n : UInt8) : UInt8 := if n < 10 then 48 + n else 55 + n

def percentEncodeByte (b : UInt8) : Bytes :=
  if isUnreserved b then [b] else [percent, hexDigit (b >>> 4), hexDigit (b &&& 15)]

def percentEncodeBytes (bytes : Bytes) : Bytes := bytes.flatMap percentEncodeByte

/-- Two hex digits behind a percent sign, at the front. -/
def Escape (s : Bytes) (b : UInt8) (rest : Bytes) : Prop :=
  ∃ h l h' l', s = percent :: h :: l :: rest ∧ hexVal h = some h' ∧ hexVal l = some l'
    ∧ b = (h' <<< 4 ||| l')

theorem percentDecode_escape {s rest : Bytes} {b : UInt8} (h : Escape s b rest) :
    percentDecode s = b :: percentDecode rest := by
  obtain ⟨h, l, h', l', rfl, hh, hl, rfl⟩ := h
  simp [percentDecode, hh, hl]

theorem percentDecode_plain {b : UInt8} {rest : Bytes}
    (h : ∀ b' rest', ¬ Escape (b :: rest) b' rest') :
    percentDecode (b :: rest) = b :: percentDecode rest := by
  by_cases hb : b = percent
  · subst hb
    rcases rest with _ | ⟨x, _ | ⟨y, rest⟩⟩
    · rfl
    · rfl
    · cases hx : hexVal x with
      | none => simp only [percentDecode, beq_self_eq_true, if_true, hx]
      | some x' =>
        cases hy : hexVal y with
        | none => simp only [percentDecode, beq_self_eq_true, if_true, hx, hy]
        | some y' => exact absurd ⟨x, y, x', y', rfl, hx, hy, rfl⟩ (h _ _)
  · have hne : (b == percent) = false := beq_false_of_ne hb
    rw [percentDecode.eq_def]
    simp only [hne, Bool.false_eq_true, if_false]

/-- A string is empty, starts with an escape, or with a byte that stands for itself. -/
theorem escape_cases (s : Bytes) :
    s = [] ∨ (∃ b rest, Escape s b rest) ∨ ∃ b rest, s = b :: rest
        ∧ ∀ b' rest', ¬ Escape s b' rest' := by
  cases s with
  | nil => exact .inl rfl
  | cons b rest =>
    by_cases h : ∃ b' rest', Escape (b :: rest) b' rest'
    · exact .inr (.inl h)
    · exact .inr (.inr ⟨b, rest, rfl, fun b' rest' hesc => h ⟨b', rest', hesc⟩⟩)

theorem Escape.length {s rest : Bytes} {b : UInt8} (h : Escape s b rest) :
    s.length = rest.length + 3 := by
  obtain ⟨_, _, _, _, rfl, -⟩ := h
  rfl

theorem percentDecode_length (s : Bytes) : (percentDecode s).length ≤ s.length := by
  induction hn : s.length using Nat.strong_induction_on generalizing s with
  | _ n ih =>
    obtain rfl | ⟨b, rest, hesc⟩ | ⟨b, rest, rfl, hplain⟩ := escape_cases s
    · exact Nat.zero_le _
    · have hlen := hesc.length
      have hrest := ih rest.length (by omega) rest rfl
      rw [percentDecode_escape hesc, length_cons]
      omega
    · have hlen : (b :: rest).length = rest.length + 1 := rfl
      have hrest := ih rest.length (by omega) rest rfl
      rw [percentDecode_plain hplain, length_cons]
      omega

/-- No escape reaches over a byte that is no hex digit. -/
theorem percentDecode_part {c : UInt8} (hhex : hexVal c = none) (hc : c ≠ percent) (a s : Bytes) :
    percentDecode (a ++ c :: s) = percentDecode a ++ c :: percentDecode s := by
  have hplain : percentDecode (c :: s) = c :: percentDecode s := by
    refine percentDecode_plain ?_
    rintro b rest ⟨_, _, _, _, heq, -⟩
    exact hc (List.cons.inj heq).1
  induction hn : a.length using Nat.strong_induction_on generalizing a with
  | _ n ih =>
    obtain rfl | ⟨b, rest, hesc⟩ | ⟨b, rest, rfl, hno⟩ := escape_cases a
    · exact hplain
    · have hlen := hesc.length
      have hesc' : Escape (a ++ c :: s) b (rest ++ c :: s) := by
        obtain ⟨h, l, h', l', rfl, hh, hl, rfl⟩ := hesc
        exact ⟨h, l, h', l', rfl, hh, hl, rfl⟩
      rw [percentDecode_escape hesc, percentDecode_escape hesc', ih rest.length (by omega) rest rfl]
      rfl
    · have hlen : (b :: rest).length = rest.length + 1 := rfl
      have hno' : ∀ b' rest', ¬ Escape (b :: (rest ++ c :: s)) b' rest' := by
        rintro b' rest' ⟨h, l, h', l', hall, hh, hl, rfl⟩
        obtain ⟨rfl, hdigits⟩ := List.cons.inj hall
        -- both digits come before the byte
        rcases rest with _ | ⟨x, _ | ⟨y, rest⟩⟩
        · rw [(List.cons.inj hdigits).1, hh] at hhex
          cases hhex
        · rw [(List.cons.inj (List.cons.inj hdigits).2).1, hl] at hhex
          cases hhex
        · obtain ⟨hx, hlow⟩ := List.cons.inj hdigits
          obtain ⟨hy, -⟩ := List.cons.inj hlow
          exact hno _ _ ⟨x, y, h', l', rfl, hx ▸ hh, hy ▸ hl, rfl⟩
      rw [percentDecode_plain hno, cons_append, percentDecode_plain hno',
        ih rest.length (by omega) rest rfl]
      rfl

/-- No percent sign with two hex digits behind it. -/
def NoEscape (s : Bytes) : Prop := ∀ t, t <:+ s → ∀ b rest, ¬ Escape t b rest

theorem percentDecode_eq_self_iff (s : Bytes) : percentDecode s = s ↔ NoEscape s := by
  induction hn : s.length using Nat.strong_induction_on generalizing s with
  | _ n ih =>
    obtain rfl | ⟨b, rest, hesc⟩ | ⟨b, rest, rfl, hplain⟩ := escape_cases s
    · refine iff_of_true rfl ?_
      intro t ht b rest hesc
      rw [suffix_nil.mp ht] at hesc
      cases hesc.length
    · refine iff_of_false ?_ fun h => h s suffix_rfl b rest hesc
      intro heq
      have hlen := congrArg List.length heq
      have hrest := percentDecode_length rest
      rw [percentDecode_escape hesc, length_cons, hesc.length] at hlen
      omega
    · have hlen : (b :: rest).length = rest.length + 1 := rfl
      rw [percentDecode_plain hplain, List.cons.injEq, ih rest.length (by omega) rest rfl]
      constructor
      · rintro ⟨-, hrest⟩ t ht b' rest'
        obtain rfl | ht := suffix_cons_iff.mp ht
        · exact hplain b' rest'
        · exact hrest t ht b' rest'
      · intro h
        exact ⟨rfl, fun t ht => h t (ht.trans (suffix_cons b rest))⟩

/-! ### Encoding -/

theorem hexVal_hexDigit : ∀ n : UInt8, n < 16 → hexVal (hexDigit n) = some n := by decide +kernel

theorem unreserved_ne : ∀ b : UInt8, isUnreserved b = true → b ≠ percent := by decide +kernel

theorem nibbles : ∀ b : UInt8, b >>> 4 < 16 ∧ b &&& 15 < 16 ∧ (b >>> 4 <<< 4 ||| b &&& 15) = b :=
  by decide +kernel

theorem percentDecode_encodeByte (b : UInt8) (rest : Bytes) :
    percentDecode (percentEncodeByte b ++ rest) = b :: percentDecode rest := by
  unfold percentEncodeByte
  split
  · rename_i hb
    refine percentDecode_plain ?_
    rintro b' rest' ⟨_, _, _, _, heq, -⟩
    exact unreserved_ne b hb (List.cons.inj heq).1
  · obtain ⟨hhigh, hlow, hjoin⟩ := nibbles b
    exact percentDecode_escape
      ⟨_, _, _, _, rfl, hexVal_hexDigit _ hhigh, hexVal_hexDigit _ hlow, hjoin.symm⟩

theorem percentDecode_encode (s : Bytes) : percentDecode (percentEncodeBytes s) = s := by
  induction s with
  | nil => rfl
  | cons b s ih =>
    show percentDecode (percentEncodeByte b ++ percentEncodeBytes s) = _
    rw [percentDecode_encodeByte, ih]

/-! ## Names of keys -/

def continuation (b : UInt8) : Bool := 128 ≤ b && b ≤ 191

/-- `str::from_utf8`, which accepts the well-formed sequences of one to four bytes. -/
def validUtf8 : Bytes → Bool
  | [] => true
  | a :: rest =>
    if a < 128 then validUtf8 rest
    else if 194 ≤ a && a ≤ 223 then
      match rest with
      | b :: rest => continuation b && validUtf8 rest
      | [] => false
    else if 224 ≤ a && a ≤ 239 then
      match rest with
      | b :: c :: rest =>
        (if a == 224 then 160 ≤ b && b ≤ 191 else if a == 237 then 128 ≤ b && b ≤ 159
          else continuation b) &&
          continuation c && validUtf8 rest
      | _ => false
    else if 240 ≤ a && a ≤ 244 then
      match rest with
      | b :: c :: d :: rest =>
        (if a == 240 then 144 ≤ b && b ≤ 191 else if a == 244 then 128 ≤ b && b ≤ 143
          else continuation b) &&
          continuation c && continuation d && validUtf8 rest
      | _ => false
    else false

/-- `String::from_utf8(key)`, or the key percent-coded: the name in a list response and in a watch
event. -/
def keyName (key : Bytes) : Bytes := if validUtf8 key then key else percentEncodeBytes key

/-- The key of an event. -/
def eventKey {J : Serde} : WatchEvent J → Bytes
  | .set key .. => key
  | .del key _ => key

/-- The name under which `sse_event_json` shows it. -/
def sseEventName {J : Serde} : WatchEvent J → Bytes
  | .set key .. => keyName key
  | .del key _ => keyName key

/-- Nothing of the key reads as an escape, if it is shown as it is. -/
def Readable (key : Bytes) : Prop := validUtf8 key = true → NoEscape key

theorem percentDecode_keyName_iff (key : Bytes) : percentDecode (keyName key) = key
    ↔ Readable key := by
  unfold keyName Readable
  split
  · rename_i hvalid
    rw [percentDecode_eq_self_iff]
    exact ⟨fun h _ => h, fun h => h hvalid⟩
  · rename_i hvalid
    exact iff_of_true (percentDecode_encode key) fun h => absurd h hvalid

/-- A name leads back to its key exactly if the key is readable, in a list as in an event; readable
keys have different names. -/
theorem keyName_identifies_iff {J : Serde} (key : Bytes) :
    (percentDecode (keyName key) = key ↔ Readable key) ∧
      (∀ e : WatchEvent J, eventKey e = key → (percentDecode (sseEventName e) = key ↔ Readable key))
      ∧
      (Readable key → ∀ key', Readable key' → keyName key' = keyName key → key' = key) := by
  refine ⟨percentDecode_keyName_iff key, ?_, ?_⟩
  · intro e he
    cases e with
    | set k value metadata expiresAtMs revision =>
      obtain rfl : k = key := he
      exact percentDecode_keyName_iff k
    | del k revision =>
      obtain rfl : k = key := he
      exact percentDecode_keyName_iff k
  · intro hkey key' hkey' heq
    rw [← (percentDecode_keyName_iff key').mpr hkey', heq]
    exact (percentDecode_keyName_iff key).mpr hkey

/-- The key `%41` is shown as `%41`, which is a name of the key `A`; `%FF` is shown like the byte.
-/
theorem keyName_escapes : percentDecode (keyName (ascii "%41")) = ascii "A" ∧
    keyName (ascii "%FF") = keyName [255] := by decide +kernel

end BeyondKv.Server
