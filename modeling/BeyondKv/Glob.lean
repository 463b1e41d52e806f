/-
# Patterns of keys

`glob_match` decides whether a key matches the pattern of a KEYS, SCAN or list request. It goes
through pattern and key once, remembers the last `*`, and comes back to it on a mismatch; a
literal beginning of the pattern is compared first.

What a pattern means is a list of tokens (`tokens`), read off from the left: `*` any sequence,
`?` any byte, a closed bracket expression a byte of its class, every other byte itself. A key
that matches in the code matches (`globMatch_sound`). The converse fails: the loop compares
bytes before it looks for a `*`, so that a `*` of the pattern that meets a `*` of the key takes
just this byte and is not remembered. As long as that does not happen the matcher is right
(`globMatch_exact`).
-/
import BeyondKv.Lib.Bytes
import BeyondKv.Lib.Wildcard

namespace BeyondKv

open Wildcard
open List hiding beq_eq_decide

namespace Glob

/-! ## Bytes with a meaning -/

abbrev asterisk : UInt8 := 42
abbrev question : UInt8 := 63
abbrev bracketOpen : UInt8 := 91
abbrev bracketClose : UInt8 := 93
abbrev caret : UInt8 := 94
abbrev exclamation : UInt8 := 33
abbrev hyphen : UInt8 := 45

def isMeta (b : UInt8) : Bool := b == asterisk || b == question || b == bracketOpen

/-! ## The matcher -/

/-- The loop of `match_bracket` from byte `i` on; `first` says that it is the first of the class. -/
def bracketLoop (ch : UInt8) (negate : Bool) : Bool → Bool → Nat → Bytes → Bool × Nat
  -- no closing bracket: the opening one stands for itself
  | _, _, _, [] => (ch == bracketOpen, 1)
  | first, matched, i, c :: rest =>
    if c == bracketClose && !first then (if negate then !matched else matched, i + 1)
    else match rest with
      | d :: e :: rest' =>
        if d == hyphen && e != bracketClose then
          bracketLoop ch negate false (matched || (c ≤ ch && ch ≤ e)) (i + 3) rest'
        else bracketLoop ch negate false (matched || ch == c) (i + 1) (d :: e :: rest')
      | rest => bracketLoop ch negate false (matched || ch == c) (i + 1) rest

/-- One byte against the bracket expression at the start of the pattern: whether it matches, and
how much of the pattern the expression takes. -/
def matchBracket (bracket : Bytes) (ch : UInt8) : Bool × Nat :=
  match bracket.drop 1 with
  | c :: rest =>
    if c == caret || c == exclamation then bracketLoop ch true true false 2 rest
    else bracketLoop ch false true false 1 (c :: rest)
  | [] => bracketLoop ch false true false 1 []

/-- What is left of pattern and key, and both as they were after the last `*`. -/
abbrev State := Bytes × Bytes × Option (Bytes × Bytes)

/-- Back to the last `*`, which takes one byte more. -/
def goBack : Option (Bytes × Bytes) → Option State
  | some (pattern, s) => some (pattern, s.drop 1, some (pattern, s.drop 1))
  | none => none

/-- One turn of the loop of `glob_match`, if it goes on. -/
def turn : State → Option State
  | (_, [], _) => none
  | ([], _ :: _, star) => goBack star
  | (p :: rest, c :: s, star) =>
    if p == bracketOpen then
      if (matchBracket (p :: rest) c).1 then
        some ((p :: rest).drop (matchBracket (p :: rest) c).2, s, star)
      else goBack star
    -- before the test for a star
    else if p == question || p == c then some (rest, s, star)
    else if p == asterisk then some (rest, c :: s, some (rest, c :: s))
    else goBack star

/-- The loop. If it stops before the end of the key there is no match, and at the end of the key
only stars may be left of the pattern. -/
def globLoop : Nat → State → Bool
  | 0, _ => false
  | fuel + 1, st =>
    match turn st with
    | some next => globLoop fuel next
    | none => st.2.1.isEmpty && (st.1.dropWhile (· == asterisk)).isEmpty

/-- Enough turns: between two steps of a star the pattern is gone through once. -/
def turns (pattern s : Bytes) : Nat := (s.length + 2) * (pattern.length + 1)

/-- What is decided by the literal beginning of the pattern, or where the loop starts. -/
def globStart (pattern s : Bytes) : Except Bool State :=
  match pattern.findIdx? isMeta with
  | none => .error (pattern == s)
  | some 0 => .ok (pattern, s, none)
  | some n =>
    if s.length < n || s.take n != pattern.take n then .error false
    else if n + 1 == pattern.length && pattern[n]? == some asterisk then .error true
    else .ok (pattern.drop n, s.drop n, none)

end Glob

open Glob

def globMatch (pattern s : Bytes) : Bool :=
  match globStart pattern s with
  | .error decided => decided
  | .ok st => globLoop (turns pattern s) st

namespace Glob

/-! ## The meaning of a pattern -/

/-- A member of a class. -/
inductive Item where
  | byte (b : UInt8)
  | range (lo hi : UInt8)
  deriving DecidableEq

def Item.Contains : Item → UInt8 → Bool
  | .byte b, ch => ch == b
  | .range lo hi, ch => lo ≤ ch && ch ≤ hi

/-- The member that starts with a byte, and what follows: a range if a hyphen and an end come
next, the byte itself otherwise. -/
def member (c : UInt8) : Bytes → Item × Bytes
  | d :: e :: rest =>
    if d == hyphen && e != bracketClose then (.range c e, rest) else (.byte c, d :: e :: rest)
  | rest => (.byte c, rest)

theorem member_suffix (c : UInt8) (rest : Bytes) : (member c rest).2 <:+ rest := by
  unfold member
  split
  · rename_i d e rest'
    split
    · exact suffix_append [d, e] rest'
    · exact suffix_rfl
  · exact suffix_rfl

/-- The members of a class up to its closing bracket, and what follows; a closing bracket in
the first place is a member. -/
def classItems (first : Bool) : Bytes → Option (List Item × Bytes)
  | [] => none
  | c :: rest =>
    if c == bracketClose && !first then some ([], rest)
    else (classItems false (member c rest).2).map fun (items, after) =>
      ((member c rest).1 :: items, after)
termination_by body => body.length
decreasing_by exact Nat.lt_succ_of_le (member_suffix c rest).length_le

/-- The bytes of the class after an opening bracket, and what follows the closing one. -/
def bracketClass : Bytes → Option ((UInt8 → Bool) × Bytes)
  | c :: rest =>
    if c == caret || c == exclamation then
      (classItems true rest).map fun (items, after) =>
      ((fun ch => !items.any (·.Contains ch)), after)
    else (classItems true (c :: rest)).map fun (items, after) =>
      ((fun ch => items.any (·.Contains ch)), after)
  | [] => none

theorem classItems_suffix {first : Bool} {body after : Bytes} {items : List Item}
    (h : classItems first body = some (items, after)) : bracketClose :: after <:+ body := by
  fun_induction classItems first body generalizing items after with
  | case1 => cases h
  | case2 first c rest hclose =>
    cases h
    rw [Bool.and_eq_true, beq_iff_eq] at hclose
    rw [hclose.1]
  | case3 first c rest hopen ih =>
    obtain ⟨⟨items', after'⟩, hrest, heq⟩ := Option.map_eq_some_iff.mp h
    cases heq
    exact ((ih hrest).trans (member_suffix c rest)).trans (suffix_cons c rest)

theorem classItems_length {first : Bool} {body after : Bytes} {items : List Item}
    (h : classItems first body = some (items, after)) : after.length < body.length :=
  (classItems_suffix h).length_le

theorem bracketClass_suffix {body after : Bytes} {accepts : UInt8 → Bool}
    (h : bracketClass body = some (accepts, after)) : bracketClose :: after <:+ body := by
  cases body with
  | nil => cases h
  | cons c rest =>
    simp only [bracketClass] at h
    split at h
    · obtain ⟨⟨items, after'⟩, hitems, heq⟩ := Option.map_eq_some_iff.mp h
      cases heq
      exact (classItems_suffix hitems).trans (suffix_cons c rest)
    · obtain ⟨⟨items, after'⟩, hitems, heq⟩ := Option.map_eq_some_iff.mp h
      cases heq
      exact classItems_suffix hitems

/-- The token at the front of a pattern, and the rest. -/
def token (c : UInt8) (rest : Bytes) : Token UInt8 × Bytes :=
  if c == bracketOpen then
    match bracketClass rest with
    | some (accepts, after) => (.one accepts, after)
    | none => (.one (· == bracketOpen), rest)
  else if c == question then (.one fun _ => true, rest)
  else if c == asterisk then (.star, rest)
  else (.one (· == c), rest)

theorem token_length (c : UInt8) (rest : Bytes) : (token c rest).2.length ≤ rest.length := by
  unfold token
  split
  · split
    · rename_i accepts after hclass
      exact Nat.le_of_lt (bracketClass_suffix hclass).length_le
    · exact Nat.le_refl _
  · split
    · exact Nat.le_refl _
    · split <;> exact Nat.le_refl _

/-- What a pattern means. -/
def tokens : Bytes → List (Token UInt8)
  | [] => []
  | c :: rest => (token c rest).1 :: tokens (token c rest).2
termination_by pattern => pattern.length
decreasing_by exact Nat.lt_succ_of_le (token_length c rest)

@[simp] theorem tokens_nil : tokens [] = [] := by rw [tokens]

theorem tokens_cons (c : UInt8) (rest : Bytes) :
    tokens (c :: rest) = (token c rest).1 :: tokens (token c rest).2 := by rw [tokens]

/-! ## Brackets -/

theorem bracketLoop_cons (ch : UInt8) (negate first matched : Bool) (i : Nat) (c : UInt8)
    (rest : Bytes) :
    bracketLoop ch negate first matched i (c :: rest) =
      if c == bracketClose && !first then (matched ^^ negate, i + 1)
      else bracketLoop ch negate false (matched || (member c rest).1.Contains ch)
        (i + 1 + (rest.length - (member c rest).2.length)) (member c rest).2 := by
  have hneg : (if negate then !matched else matched) = (matched ^^ negate) :=
    by cases negate <;> simp
  rcases rest with _ | ⟨d, _ | ⟨e, rest⟩⟩
  · simp [bracketLoop, member, Item.Contains, hneg]
  · simp [bracketLoop, member, Item.Contains, hneg]
  · rw [bracketLoop, hneg]
    cases hrange : d == hyphen && e != bracketClose with
    | true =>
      have hmember : member c (d :: e :: rest) = (.range c e, rest) := if_pos hrange
      simp [hmember, Item.Contains, Nat.add_assoc]
    | false =>
      have hmember : member c (d :: e :: rest) = (.byte c, d :: e :: rest) :=
        if_neg (ne_true_of_eq_false hrange)
      simp [hmember, Item.Contains]

/-- The loop goes through the members of the class. -/
theorem bracketLoop_eq (ch : UInt8) (negate first matched : Bool) (i : Nat) (body : Bytes) :
    bracketLoop ch negate first matched i body =
      match classItems first body with
      | none => (ch == bracketOpen, 1)
      | some (items, after) =>
        ((matched || items.any (·.Contains ch)) ^^ negate, i + (body.length - after.length)) := by
  fun_induction classItems first body generalizing matched i with
  | case1 => rfl
  | case2 first c rest hclose =>
    rw [bracketLoop_cons, if_pos hclose]
    simp
  | case3 first c rest hopen ih =>
    rw [bracketLoop_cons, if_neg hopen, ih]
    cases hitems : classItems false (member c rest).2 with
    | none => rfl
    | some r =>
      have hafter := classItems_length hitems
      have hmember := (member_suffix c rest).length_le
      simp only [Option.map_some, any_cons, Bool.or_assoc, length_cons, Prod.mk.injEq, true_and]
      omega

/-- `match_bracket` tests for the class of the expression, or for the bracket itself. -/
theorem matchBracket_eq (rest : Bytes) : ∃ p, (token bracketOpen rest).1 = .one p ∧
    ∀ ch, (matchBracket (bracketOpen :: rest) ch).1 = p ch ∧
      (bracketOpen :: rest).drop (matchBracket (bracketOpen :: rest) ch).2
      = (token bracketOpen rest).2 := by
  have hdrop : ∀ {items : List Item} {body after : Bytes} {i : Nat}, classItems true body
    = some (items, after) →
      (bracketOpen :: rest).drop i = body →
      (bracketOpen :: rest).drop (i + (body.length - after.length)) = after := by
    intro items body after i hitems hi
    rw [← drop_drop, hi]
    exact (suffix_iff_eq_drop.mp ((suffix_cons _ after).trans (classItems_suffix hitems))).symm
  cases rest with
  | nil => exact ⟨_, rfl, fun ch => ⟨rfl, rfl⟩⟩
  | cons c rest =>
    simp only [token, matchBracket, bracketClass, drop_succ_cons, drop_zero,
      beq_self_eq_true, if_true]
    cases c == caret || c == exclamation with
    | true =>
      simp only [if_true, bracketLoop_eq]
      cases hitems : classItems true rest with
      | none => exact ⟨_, rfl, fun ch => ⟨rfl, rfl⟩⟩
      | some r => exact ⟨_, rfl, fun ch => ⟨by simp, hdrop hitems rfl⟩⟩
    | false =>
      simp only [Bool.false_eq_true, if_false, bracketLoop_eq]
      cases hitems : classItems true (c :: rest) with
      | none => exact ⟨_, rfl, fun ch => ⟨rfl, rfl⟩⟩
      | some r => exact ⟨_, rfl, fun ch => ⟨by simp, hdrop hitems rfl⟩⟩

/-! ## One turn of the loop -/

theorem tokens_star (rest : Bytes) : tokens (asterisk :: rest) = .star :: tokens rest :=
  tokens_cons ..

theorem token_of_ne {c : UInt8} (hc : c ≠ asterisk) (rest : Bytes) :
    ∃ p, (token c rest).1 = .one p := by
  unfold token
  split
  · split
    · exact ⟨_, rfl⟩
    · exact ⟨_, rfl⟩
  · split
    · exact ⟨_, rfl⟩
    · rw [if_neg (by simpa using hc)]
      exact ⟨_, rfl⟩

theorem turn_one {b : UInt8} {rest : Bytes} {p : UInt8 → Bool} (hp : (token b rest).1 = .one p)
    (c : UInt8) (s : Bytes) (star : Option (Bytes × Bytes)) :
    turn (b :: rest, c :: s, star) = if p c then some ((token b rest).2, s, star)
        else goBack star := by
  simp only [turn]
  by_cases hb : b = bracketOpen
  · subst hb
    obtain ⟨q, hq, hmatch⟩ := matchBracket_eq rest
    obtain rfl : q = p := by
      rw [hp] at hq
      cases hq
      rfl
    simp only [beq_self_eq_true, if_true, (hmatch c).1, (hmatch c).2]
  · have hne : (b == bracketOpen) = false := beq_false_of_ne hb
    simp only [token, hne, Bool.false_eq_true, if_false] at hp ⊢
    by_cases hq : b = question
    · subst hq
      cases hp
      simp
    · by_cases hs : b = asterisk
      · subst hs
        cases hp
      · simp only [beq_false_of_ne hq, beq_false_of_ne hs, Bool.false_eq_true, if_false,
          Bool.false_or] at hp ⊢
        cases hp
        rw [BEq.comm]

theorem turn_star (rest : Bytes) (c : UInt8) (s : Bytes) (star : Option (Bytes × Bytes)) :
    turn (asterisk :: rest, c :: s, star) =
      if c = asterisk then some (rest, s, star) else some (rest, c :: s, some (rest, c :: s)) := by
  by_cases hc : c = asterisk
  · subst hc
    rfl
  · have hne : (asterisk == c) = false := beq_false_of_ne (Ne.symm hc)
    have hopen : (asterisk == bracketOpen) = false := rfl
    have hany : (asterisk == question) = false := rfl
    rw [if_neg hc]
    simp only [turn, hne, hopen, hany, Bool.or_self, Bool.false_eq_true, if_false,
      beq_self_eq_true, if_true]

theorem globLoop_some {fuel : Nat} {st next : State} (h : turn st = some next) :
    globLoop (fuel + 1) st = globLoop fuel next := by
  rw [globLoop, h]

theorem dropWhile_star_isEmpty (pattern : Bytes) :
    (pattern.dropWhile (· == asterisk)).isEmpty = true ↔ Matches (tokens pattern) [] := by
  induction pattern with
  | nil => simp
  | cons c rest ih =>
    by_cases hc : c = asterisk
    · subst hc
      rw [tokens_star, matches_star, dropWhile_cons_of_pos rfl, ih]
      simp only [drop_nil, exists_const]
    · obtain ⟨p, hp⟩ := token_of_ne hc rest
      rw [tokens_cons, hp, dropWhile_cons_of_neg (by simpa using hc)]
      exact iff_of_false nofun matches_one_nil

/-- The meaning of what the loop remembers of the last star. -/
def marked (star : Option (Bytes × Bytes)) : Mark UInt8 :=
  star.map fun (pattern, s) => (tokens pattern, s)

/-! ## What the loop accepts matches -/

/-- What may still be found from a state of the loop. -/
def State.Open (st : State) : Prop := Wildcard.Open (tokens st.1) st.2.1 (marked st.2.2)

theorem open_of_goBack {ts : List (Token UInt8)} {w : Bytes} {star : Option (Bytes × Bytes)}
    {next : State}
    (hback : goBack star = some next) (h : next.Open) : Wildcard.Open ts w (marked star) := by
  cases star with
  | none => cases hback
  | some x =>
    cases hback
    exact Wildcard.Open.back h

/-- A turn finds nothing that was not there. -/
theorem open_of_turn {st next : State} (hturn : turn st = some next) (h : next.Open) : st.Open := by
  obtain ⟨pattern, s, star⟩ := st
  cases s with
  | nil => cases hturn
  | cons c s =>
    cases pattern with
    | nil => exact open_of_goBack hturn h
    | cons b rest =>
      by_cases hb : b = asterisk
      · subst hb
        show Wildcard.Open (tokens (asterisk :: rest)) (c :: s) (marked star)
        rw [turn_star] at hturn
        rw [tokens_star]
        split at hturn
        · cases hturn
          exact Wildcard.Open.star_one h
        · cases hturn
          exact .inl (open_self.mp h)
      · obtain ⟨p, hp⟩ := token_of_ne hb rest
        show Wildcard.Open (tokens (b :: rest)) (c :: s) (marked star)
        rw [turn_one hp] at hturn
        rw [tokens_cons, hp]
        split at hturn
        · rename_i hpc
          cases hturn
          exact (open_one hpc).mpr h
        · exact open_of_goBack hturn h

theorem globLoop_sound {fuel : Nat} {st : State} (h : globLoop fuel st = true) : st.Open := by
  induction fuel generalizing st with
  | zero => cases h
  | succ fuel ih =>
    cases hturn : turn st with
    | some next =>
      rw [globLoop_some hturn] at h
      exact open_of_turn hturn (ih h)
    | none =>
      rw [globLoop, hturn, Bool.and_eq_true] at h
      obtain ⟨pattern, s, star⟩ := st
      cases isEmpty_iff.mp h.1
      exact .inl ((dropWhile_star_isEmpty pattern).mp h.2)

/-! ## Turns -/

/-- A bound on the turns that are left. -/
def left (total : Nat) : State → Nat
  | (pattern, s, none) => (s.length + 1) * (total + 1) + pattern.length
  | (pattern, _, some (_, s')) => s'.length * (total + 1) + pattern.length

/-- The loop is behind the last star; no pattern is longer than the whole. -/
structure Bounded (total : Nat) (st : State) : Prop where
  pattern : st.1.length ≤ total
  past : ∀ pattern' s', st.2.2 = some (pattern', s') →
    st.2.1.length ≤ s'.length ∧ pattern'.length ≤ total

section turns
variable {total : Nat} {pattern rest s pattern' s' : Bytes} {b c : UInt8}
  {star : Option (Bytes × Bytes)}
  {next : State}

theorem bounded_back (h : Bounded total (pattern, c :: s, star)) (hback : goBack star = some next) :
    Bounded total next ∧ left total next < left total (pattern, c :: s, star) := by
  cases star with
  | none => cases hback
  | some x =>
    obtain ⟨pattern', s'⟩ := x
    cases hback
    obtain ⟨hpos, hlen⟩ := h.past pattern' s' rfl
    obtain ⟨n, hn⟩ : ∃ n, s'.length = n + 1 :=
      ⟨s'.length - 1, by simp only [length_cons] at hpos; omega⟩
    refine ⟨⟨hlen, ?_⟩, ?_⟩
    · rintro _ _ ⟨⟩
      exact ⟨Nat.le_refl _, hlen⟩
    · simp only [left, length_drop, hn, Nat.add_sub_cancel, Nat.succ_mul]
      omega

theorem bounded_one (h : Bounded total (b :: rest, c :: s, star)) :
    Bounded total ((token b rest).2, s, star)
      ∧ left total ((token b rest).2, s, star) < left total (b :: rest, c :: s, star) := by
  have hlen : rest.length + 1 ≤ total := h.pattern
  have htoken := token_length b rest
  refine ⟨⟨Nat.le_trans htoken (Nat.le_of_succ_le hlen), ?_⟩, ?_⟩
  · intro pattern' s' hstar
    obtain ⟨hs, hpattern⟩ := h.past pattern' s' hstar
    exact ⟨Nat.le_of_succ_le hs, hpattern⟩
  · cases star with
    | none =>
      simp only [left, length_cons, Nat.succ_mul]
      omega
    | some x =>
      simp only [left, length_cons]
      omega

theorem bounded_remember (h : Bounded total (b :: rest, s, star)) :
    Bounded total (rest, s, some (rest, s))
      ∧ left total (rest, s, some (rest, s)) < left total (b :: rest, s, star) := by
  have hlen : rest.length ≤ total := Nat.le_of_succ_le h.pattern
  refine ⟨⟨hlen, ?_⟩, ?_⟩
  · rintro _ _ ⟨⟩
    exact ⟨Nat.le_refl _, hlen⟩
  · cases star with
    | none =>
      simp only [left, length_cons, Nat.succ_mul]
      omega
    | some x =>
      have hlonger : s.length ≤ x.2.length := (h.past x.1 x.2 rfl).1
      have hbehind := Nat.mul_le_mul_right (total + 1) hlonger
      simp only [left, length_cons]
      omega

end turns

/-! ## Where no star meets a star -/

/-- In the turns that follow, a star of the pattern meets a star of the key. -/
def meetsStar : Nat → State → Bool
  | 0, _ => false
  | fuel + 1, st =>
    (st.1.head? == some asterisk && st.2.1.head? == some asterisk) || (turn st).any (meetsStar fuel)

/-- The loop, if `glob_match` comes to it, takes a star of the pattern for a star of the key. -/
def starMeetsStar (pattern s : Bytes) : Bool :=
  match globStart pattern s with
  | .error _ => false
  | .ok st => meetsStar (turns pattern s) st

/-- Since the last star of the pattern the loop went byte by byte. -/
def State.Since (st : State) : Prop := Wildcard.Since (tokens st.1) st.2.1 (marked st.2.2)

/-- If no star meets a star, a turn loses nothing, and the loop stops only where nothing is to be
found. -/
theorem open_turn {total : Nat} {pattern s : Bytes} {c : UInt8} {star : Option (Bytes × Bytes)}
    (hb : Bounded total (pattern, c :: s, star)) (hsince : State.Since (pattern, c :: s, star))
    (hmeet : ¬ (pattern.head? = some asterisk ∧ c = asterisk))
    (h : State.Open (pattern, c :: s, star)) :
    ∃ next, turn (pattern, c :: s, star) = some next ∧ next.Open ∧ next.Since ∧ Bounded total next
      ∧ left total next < left total (pattern, c :: s, star) := by
  have hback : ¬ Matches (tokens pattern) (c :: s) → ∃ next, goBack star = some next ∧ next.Open
      ∧ next.Since ∧ Bounded total next ∧ left total next < left total (pattern, c :: s, star) := by
    intro hno
    cases star with
    | none => exact absurd (open_none.mp h) hno
    | some x => exact ⟨_, rfl, (open_back hno).mp h, since_self _ _, bounded_back hb rfl⟩
  cases pattern with
  | nil => exact hback (by simp)
  | cons b rest =>
    by_cases hstar : b = asterisk
    · subst hstar
      have hc : c ≠ asterisk := fun heq => hmeet ⟨rfl, heq⟩
      rw [State.Open, tokens_star] at h
      rw [State.Since, tokens_star] at hsince
      rw [turn_star, if_neg hc]
      exact ⟨_, rfl, (open_star hsince).mp h, since_self _ _, bounded_remember hb⟩
    · obtain ⟨p, htoken⟩ := token_of_ne hstar rest
      rw [turn_one htoken]
      rw [State.Open, tokens_cons, htoken] at h
      rw [State.Since, tokens_cons, htoken] at hsince
      rw [tokens_cons, htoken] at hback
      split
      · rename_i hpc
        exact ⟨_, rfl, (open_one hpc).mp h, hsince.one, bounded_one hb⟩
      · rename_i hpc
        exact hback fun hm => hpc (matches_one_cons.mp hm).1

theorem globLoop_complete {total fuel : Nat} {st : State} (hb : Bounded total st)
    (hsince : st.Since)
    (hmeet : meetsStar fuel st = false) (hfuel : left total st < fuel) (h : st.Open) :
    globLoop fuel st = true := by
  induction fuel generalizing st with
  | zero => cases hfuel
  | succ fuel ih =>
    obtain ⟨pattern, s, star⟩ := st
    cases s with
    | nil => exact (dropWhile_star_isEmpty pattern).mpr ((open_end hsince).mp h)
    | cons c s =>
      rw [meetsStar, Bool.or_eq_false_iff] at hmeet
      obtain ⟨hhere, hlater⟩ := hmeet
      have hno : ¬ (pattern.head? = some asterisk ∧ c = asterisk) := by
        rintro ⟨hp, rfl⟩
        simp [hp] at hhere
      obtain ⟨next, hturn, hopen, hsince, hb, hless⟩ := open_turn hb hsince hno h
      rw [hturn] at hlater
      rw [globLoop_some hturn]
      exact ih hb hsince hlater (Nat.lt_of_lt_of_le hless (Nat.lt_succ_iff.mp hfuel)) hopen

/-! ## The literal beginning -/

/-- Bytes that stand for themselves. -/
def Literal (p : Bytes) : Prop := ∀ b ∈ p, isMeta b = false

theorem token_literal {c : UInt8} (hc : isMeta c = false) (rest : Bytes) :
    token c rest = (.one (· == c), rest) := by
  simp only [isMeta, Bool.or_eq_false_iff] at hc
  simp only [token, hc.1.1, hc.1.2, hc.2, Bool.false_eq_true, if_false]

theorem matches_literal {p : Bytes} (hp : Literal p) (q s : Bytes) :
    Matches (tokens (p ++ q)) s ↔ p <+: s ∧ Matches (tokens q) (s.drop p.length) := by
  induction p generalizing s with
  | nil => simp
  | cons c p ih =>
    have hc := token_literal (hp c mem_cons_self) (p ++ q)
    rw [cons_append, tokens_cons, hc]
    cases s with
    | nil => simp
    | cons a s =>
      simp only [matches_one_cons, ih (fun b hb => hp b (mem_cons_of_mem _ hb)), beq_iff_eq,
        List.cons_prefix_cons,
        length_cons, drop_succ_cons]
      rw [and_assoc, eq_comm]

/-- A pattern is literal, or literal up to its first byte with a meaning. -/
theorem literal_or (pattern : Bytes) :
    Literal pattern ∨ ∃ p c q, pattern = p ++ c :: q ∧ Literal p ∧ isMeta c = true := by
  induction pattern with
  | nil => exact .inl nofun
  | cons b pattern ih =>
    cases hb : isMeta b with
    | true => exact .inr ⟨[], b, pattern, rfl, nofun, hb⟩
    | false =>
      obtain hlit | ⟨p, c, q, rfl, hp, hc⟩ := ih
      · exact .inl (forall_mem_cons.mpr ⟨hb, hlit⟩)
      · exact .inr ⟨b :: p, c, q, rfl, forall_mem_cons.mpr ⟨hb, hp⟩, hc⟩

theorem findIdx?_literal {p : Bytes} (hp : Literal p) : p.findIdx? isMeta = none :=
  findIdx?_eq_none_iff.mpr hp

/-- The fast path and the loop start behind the literal beginning. -/
theorem globStart_meta {p q : Bytes} {c : UInt8} (hp : Literal p)
    (hc : isMeta c = true) (s : Bytes) :
    globStart (p ++ c :: q) s =
      if ¬ p <+: s then .error false
      else if p ≠ [] ∧ c :: q = [asterisk] then .error true
      else .ok (c :: q, s.drop p.length, none) := by
  have hfind : (p ++ c :: q).findIdx? isMeta = some p.length := by
    rw [findIdx?_append, findIdx?_literal hp]
    simp [findIdx?_cons, hc]
  rw [globStart, hfind]
  obtain rfl | hne := eq_or_ne p []
  · simp
  have htake : (p ++ c :: q).take p.length = p := take_left
  have hdrop : (p ++ c :: q).drop p.length = c :: q := drop_left
  have hnext : (p ++ c :: q)[p.length]? = some c := by simp
  have hfast : (p.length + 1 == (p ++ c :: q).length && (p ++ c :: q)[p.length]? == some asterisk) =
      decide (c :: q = [asterisk]) := by
    rw [hnext]
    cases q <;> simp [beq_eq_decide]
  obtain ⟨n, hn⟩ : ∃ n, p.length = n + 1 :=
    ⟨p.length - 1, by have := length_pos_iff.mpr hne; omega⟩
  simp only [hn] at htake hdrop hfast ⊢
  rw [htake, hdrop, hfast]
  by_cases hpre : p <+: s
  · have hs : s.take (n + 1) = p := hn ▸ (List.prefix_iff_eq_take.mp hpre).symm
    have hlen : ¬ s.length < n + 1 := Nat.not_lt.mpr (hn ▸ hpre.length_le)
    simp [hs, hlen, hpre, hne]
  · have hs : s.take (n + 1) ≠ p := fun h => hpre (h ▸ List.take_prefix _ _)
    simp [hs, hpre]

/-- The loop sees a part of the key and of the pattern. -/
theorem turns_enough (p q s : Bytes) : Bounded (p ++ q).length (q, s.drop p.length, none) ∧
    left (p ++ q).length (q, s.drop p.length, none) < turns (p ++ q) s := by
  have hpattern : q.length ≤ (p ++ q).length := by simp
  have hkey : ((s.drop p.length).length + 1) * ((p ++ q).length + 1)
      ≤ (s.length + 1) * ((p ++ q).length + 1) :=
    Nat.mul_le_mul_right _ (by rw [length_drop]; omega)
  refine ⟨⟨hpattern, nofun⟩, ?_⟩
  simp only [left, turns, Nat.succ_mul] at hkey ⊢
  omega

/-! ## The matcher -/

/-- What a pattern stands for. -/
def Language (pattern : Bytes) : Set Bytes := { s | Matches (tokens pattern) s }

/-- What is decided before the loop is right, and the loop has the rest to decide. -/
theorem globStart_spec (pattern s : Bytes) :
    match globStart pattern s with
    | .error decided => decided = true ↔ s ∈ Language pattern
    | .ok st => (s ∈ Language pattern ↔ st.Open) ∧ st.Since
      ∧ ∃ total, Bounded total st ∧ left total st < turns pattern s := by
  change match globStart pattern s with
    | .error decided => decided = true ↔ Matches (tokens pattern) s
    | .ok st => (Matches (tokens pattern) s ↔ st.Open) ∧ st.Since
      ∧ ∃ total, Bounded total st ∧ left total st < turns pattern s
  obtain hlit | ⟨p, c, q, rfl, hp, hc⟩ := literal_or pattern
  · have hmatch := matches_literal hlit [] s
    rw [append_nil, tokens_nil, matches_nil, drop_eq_nil_iff] at hmatch
    rw [globStart, findIdx?_literal hlit, hmatch]
    dsimp only
    rw [beq_iff_eq]
    exact ⟨fun h => h ▸ ⟨List.prefix_rfl, Nat.le_refl _⟩, fun h => h.1.eq_of_length_le h.2⟩
  · have hmatch := matches_literal hp (c :: q) s
    rw [globStart_meta hp hc s]
    by_cases hpre : p <+: s
    · rw [if_neg (not_not.mpr hpre)]
      by_cases hfast : p ≠ [] ∧ c :: q = [asterisk]
      · rw [if_pos hfast]
        refine ⟨fun _ => hmatch.mpr ⟨hpre, ?_⟩, fun _ => rfl⟩
        rw [hfast.2, tokens_star]
        exact matches_star.mpr ⟨_, by rw [drop_length, tokens_nil]; exact .nil⟩
      · rw [if_neg hfast]
        exact ⟨hmatch.trans ((and_iff_right hpre).trans open_none.symm), since_none _ _, _,
          turns_enough p (c :: q) s⟩
    · rw [if_pos hpre]
      exact ⟨nofun, fun h => absurd (hmatch.mp h).1 hpre⟩

theorem globMatch_sound {pattern s : Bytes} (h : globMatch pattern s = true) :
    s ∈ Language pattern := by
  have hspec := globStart_spec pattern s
  rw [globMatch] at h
  cases hstart : globStart pattern s with
  | error decided =>
    rw [hstart] at hspec h
    exact hspec.mp h
  | ok st =>
    rw [hstart] at hspec h
    exact hspec.1.mpr (globLoop_sound h)

/-- The matcher is right about every pattern and every key for which its loop takes no star of the
pattern for a star of the key. -/
theorem globMatch_exact {pattern s : Bytes} (hmeet : starMeetsStar pattern s = false) :
    globMatch pattern s = true ↔ s ∈ Language pattern := by
  refine ⟨globMatch_sound, fun hs => ?_⟩
  have hspec := globStart_spec pattern s
  rw [starMeetsStar] at hmeet
  rw [globMatch]
  cases hstart : globStart pattern s with
  | error decided =>
    rw [hstart] at hspec
    exact hspec.mpr hs
  | ok st =>
    rw [hstart] at hspec hmeet
    obtain ⟨hopen, hsince, total, hb, hfuel⟩ := hspec
    exact globLoop_complete hb hsince hmeet hfuel (hopen.mp hs)

/-- The pattern `*b?[a-c]*` and the key `a*bxbc*`: the stars of the key meet other tokens. -/
theorem globMatch_exact_starred :
    globMatch [42, 98, 63, 91, 97, 45, 99, 93, 42] [97, 42, 98, 120, 98, 99, 42] = true
      ↔ [97, 42, 98, 120, 98, 99, 42] ∈ Language [42, 98, 63, 91, 97, 45, 99, 93, 42] :=
  globMatch_exact (by decide)

/-- The pattern `*` and the key `*a`. -/
theorem globMatch_misses_star : globMatch [42] [42, 97] = false ∧ [42, 97] ∈ Language [42] := by
  refine ⟨by decide, ?_⟩
  show Matches (tokens [42]) _
  rw [tokens_star, tokens_nil]
  exact .star [42, 97] .nil

/-! ## A beginning and a star

A list request turns the beginning it is asked for into a pattern by putting a `*` behind it. -/

/-- When the pattern made of a beginning is right about a key: never for a key that goes on after a
star, if the beginning is empty; always, if it has bytes and none of them has a meaning; and
otherwise if the key has the beginning just where it matches. -/
def BeginsWell (p k : Bytes) : Prop :=
  (p = [] → ∀ s, k = asterisk :: s → s = [])
    ∧ (¬ Literal p → (globMatch (p ++ [asterisk]) k = true ↔ p <+: k))

/-- Behind the only star nothing is left to meet. -/
theorem meetsStar_behind (fuel : Nat) (s s' : Bytes) :
    meetsStar fuel ([], s, some ([], s')) = false := by
  induction fuel generalizing s s' with
  | zero => rfl
  | succ fuel ih =>
    cases s with
    | nil => rfl
    | cons c s => exact ih ..

theorem globMatch_star_iff (k : Bytes) :
    globMatch [asterisk] k = true ↔ ∀ s, k = asterisk :: s → s = [] := by
  cases k with
  | nil => exact iff_of_true rfl nofun
  | cons c s =>
    by_cases hc : c = asterisk
    · subst hc
      cases s with
      | nil => exact iff_of_true rfl fun s h => (List.cons.inj h).2.symm
      | cons d s => exact iff_of_false nofun fun h => absurd (h _ rfl) (cons_ne_nil d s)
    · refine iff_of_true ?_ fun s' h => absurd (List.cons.inj h).1 hc
      have hmeet : starMeetsStar [asterisk] (c :: s) = false := by
        have hturn : turn ([asterisk], c :: s, none) = some ([], c :: s, some ([], c :: s)) := by
          rw [turn_star, if_neg hc]
        show meetsStar (turns [asterisk] (c :: s)) ([asterisk], c :: s, none) = false
        rw [show turns [asterisk] (c :: s) = (2 * s.length + 5)
          + 1 by simp [turns]; omega, meetsStar, hturn]
        simp [hc, meetsStar_behind]
      refine (globMatch_exact hmeet).mpr ?_
      show Matches (tokens [asterisk]) _
      rw [tokens_star, tokens_nil]
      exact matches_star.mpr ⟨_, by rw [drop_length]; exact .nil⟩

theorem beginsWell_iff (p k : Bytes) :
    BeginsWell p k ↔ (globMatch (p ++ [asterisk]) k = true ↔ p <+: k) := by
  obtain rfl | hne := eq_or_ne p []
  · have hlit : Literal [] := nofun
    rw [nil_append, globMatch_star_iff, BeginsWell]
    simp [hlit]
  · by_cases hlit : Literal p
    · refine iff_of_true ⟨fun h => absurd h hne, fun h => absurd hlit h⟩ ?_
      rw [globMatch, globStart_meta hlit rfl]
      by_cases hpre : p <+: k
      · simp [hpre, hne]
      · simp [hpre]
    · exact ⟨fun h => h.2 hlit, fun h => ⟨fun hnil => absurd hnil hne, fun _ => h⟩⟩

end Glob

end BeyondKv
