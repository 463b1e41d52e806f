/-
# Patterns with wildcards

A pattern is a list of tokens: one symbol that a test accepts, or any sequence. The usual
matcher reads pattern and word from the left, remembers the last star it has passed, and on a
mismatch goes back to it and lets it take one symbol more.

`Open` says what such a matcher can still find: a match of the two rests, or one in which the
last star takes more. Each turn of the matcher keeps it. That an earlier star can be forgotten
for a later one is `Open.star`: what the earlier one could still give, the later one gives too,
since everything between them takes one symbol each (`Since`).
-/
import Mathlib

namespace Wildcard

open List

variable {α : Type*}

inductive Token (α : Type*) where
  /-- One symbol that the test accepts. -/
  | one (p : α → Bool)
  /-- Any sequence. -/
  | star

/-- The words of a pattern. -/
inductive Matches : List (Token α) → List α → Prop where
  | nil : Matches [] []
  | one {p : α → Bool} {a : α} {ts : List (Token α)} {w : List α} (ha : p a = true)
      (h : Matches ts w) :
      Matches (.one p :: ts) (a :: w)
  | star (u : List α) {ts : List (Token α)} {w : List α} (h : Matches ts w) :
      Matches (.star :: ts) (u ++ w)

section words
variable {p : α → Bool} {a : α} {ts : List (Token α)} {w : List α}

@[simp] theorem matches_nil : Matches ([] : List (Token α)) w ↔ w = [] := by
  constructor
  · rintro ⟨⟩
    rfl
  · rintro rfl
    exact .nil

@[simp] theorem matches_one_nil : ¬ Matches (.one p :: ts) [] := nofun

@[simp] theorem matches_one_cons : Matches (.one p :: ts) (a :: w) ↔ p a = true ∧ Matches ts w := by
  constructor
  · rintro (_ | ⟨ha, h⟩)
    exact ⟨ha, h⟩
  · rintro ⟨ha, h⟩
    exact .one ha h

theorem matches_star : Matches (.star :: ts) w ↔ ∃ k, Matches ts (w.drop k) := by
  constructor
  · rintro (_ | _ | @⟨u, _, w, h⟩)
    refine ⟨u.length, ?_⟩
    rwa [drop_left]
  · rintro ⟨k, h⟩
    rw [← take_append_drop k w]
    exact .star _ h

/-- What a star matches after some symbols, it matches from the start. -/
theorem Matches.of_drop {k : Nat} (h : Matches (.star :: ts) (w.drop k)) :
    Matches (.star :: ts) w := by
  obtain ⟨j, hj⟩ := matches_star.mp h
  rw [drop_drop] at hj
  exact matches_star.mpr ⟨_, hj⟩

end words

/-! ## Tokens that take one symbol each -/

/-- No stars. -/
def Ones (ts : List (Token α)) : Prop := ∀ t ∈ ts, t ≠ .star

theorem Ones.append_one {p : α → Bool} {ts : List (Token α)} (h : Ones ts) :
    Ones (ts ++ [.one p]) := by
  intro t ht
  obtain ht | ht := mem_append.mp ht
  · exact h t ht
  · rw [mem_singleton.mp ht]
    exact nofun

/-- They take as many symbols as they are. -/
theorem Matches.after_ones {seg ts : List (Token α)} {w : List α} (hseg : Ones seg)
    (h : Matches (seg ++ ts) w) :
    seg.length ≤ w.length ∧ Matches ts (w.drop seg.length) := by
  induction seg generalizing w with
  | nil => exact ⟨Nat.zero_le _, h⟩
  | cons t seg ih =>
    cases t with
    | star => exact absurd rfl (hseg .star mem_cons_self)
    | one p =>
      cases w with
      | nil => exact absurd h matches_one_nil
      | cons a w =>
        obtain ⟨hlen, hrest⟩ :=
          ih (fun t ht => hseg t (mem_cons_of_mem _ ht)) (matches_one_cons.mp h).2
        exact ⟨Nat.succ_le_succ hlen, hrest⟩

/-! ## What a matcher can still find -/

/-- The pattern and the word after the last star, as it stood when the star was tried last. -/
abbrev Mark (α : Type*) := Option (List (Token α) × List α)

def Open (ts : List (Token α)) (w : List α) (mark : Mark α) : Prop :=
  Matches ts w ∨ ∃ ts' w', mark = some (ts', w') ∧ ∃ k, 1 ≤ k ∧ Matches ts' (w'.drop k)

/-- Since the last star every token took one symbol. -/
def Since (ts : List (Token α)) (w : List α) (mark : Mark α) : Prop :=
  ∀ ts' w', mark = some (ts', w') → ∃ seg u, Ones seg ∧ ts' = seg ++ ts ∧ w' = u ++ w
    ∧ u.length = seg.length

theorem since_none (ts : List (Token α)) (w : List α) : Since ts w none := nofun

theorem since_self (ts : List (Token α)) (w : List α) : Since ts w (some (ts, w)) := by
  rintro ts' w' ⟨⟩
  exact ⟨[], [], (fun t ht => nomatch ht), rfl, rfl, rfl⟩

section turns
variable {p : α → Bool} {a : α} {ts ts' : List (Token α)} {w w' : List α} {mark : Mark α}

theorem Since.one (h : Since (.one p :: ts) (a :: w) mark) : Since ts w mark := by
  intro ts' w' hm
  obtain ⟨seg, u, hseg, hts, hw, hlen⟩ := h ts' w' hm
  refine ⟨seg ++ [.one p], u ++ [a], hseg.append_one, ?_, ?_, ?_⟩
  · rw [hts, append_assoc]
    rfl
  · rw [hw, append_assoc]
    rfl
  · rw [length_append, length_append, hlen]
    rfl

theorem open_one (ha : p a = true) : Open (.one p :: ts) (a :: w) mark ↔ Open ts w mark := by
  simp only [Open, matches_one_cons, ha, true_and]

/-- A star that takes one symbol and no more. -/
theorem Open.star_one (h : Open ts w mark) : Open (.star :: ts) (a :: w) mark :=
  h.imp_left fun hnow => matches_star.mpr ⟨1, hnow⟩

theorem open_self : Open ts w (some (ts, w)) ↔ Matches (.star :: ts) w := by
  rw [matches_star]
  constructor
  · rintro (h | ⟨_, _, ⟨⟩, k, -, hk⟩)
    · exact ⟨0, h⟩
    · exact ⟨k, hk⟩
  · rintro ⟨k, hk⟩
    obtain rfl | hpos := Nat.eq_zero_or_pos k
    · exact .inl hk
    · exact .inr ⟨ts, w, rfl, k, hpos, hk⟩

/-- A new star: what the old one could still give, it gives too. -/
theorem open_star (h : Since (.star :: ts) w mark) :
    Open (.star :: ts) w mark ↔ Open ts w (some (ts, w)) := by
  rw [open_self]
  constructor
  · rintro (hnow | ⟨ts', w', hm, k, -, hk⟩)
    · exact hnow
    · obtain ⟨seg, u, hseg, rfl, rfl, hlen⟩ := h ts' w' hm
      have hafter := (hk.after_ones hseg).2
      rw [drop_drop, Nat.add_comm, ← hlen, ← drop_drop, drop_left] at hafter
      exact hafter.of_drop
  · exact .inl

/-- The last star takes one symbol more. -/
theorem Open.back (h : Open ts' (w'.drop 1) (some (ts', w'.drop 1))) :
    Open ts w (some (ts', w')) := by
  obtain hnow | ⟨_, _, ⟨⟩, k, -, hk⟩ := h
  · exact .inr ⟨ts', w', rfl, 1, Nat.le_refl 1, hnow⟩
  · rw [drop_drop] at hk
    exact .inr ⟨ts', w', rfl, 1 + k, Nat.le_add_right 1 k, hk⟩

theorem open_back (h : ¬ Matches ts w) :
    Open ts w (some (ts', w')) ↔ Open ts' (w'.drop 1) (some (ts', w'.drop 1)) := by
  constructor
  · rintro (hnow | ⟨_, _, ⟨⟩, k, hpos, hk⟩)
    · exact absurd hnow h
    · obtain rfl | hk1 : k = 1 ∨ 2 ≤ k := by omega
      · exact .inl hk
      · refine .inr ⟨ts', w'.drop 1, rfl, k - 1, by omega, ?_⟩
        rwa [drop_drop, Nat.add_sub_cancel' hpos]
  · exact .back

theorem open_none : Open ts w none ↔ Matches ts w := by
  constructor
  · rintro (h | ⟨_, _, h, _⟩)
    · exact h
    · cases h
  · exact .inl

/-- At the end of the word nothing is left to give to a star. -/
theorem open_end (h : Since ts [] mark) : Open ts [] mark ↔ Matches ts [] := by
  constructor
  · rintro (hnow | ⟨ts', w', hm, k, hpos, hk⟩)
    · exact hnow
    · obtain ⟨seg, u, hseg, rfl, rfl, hlen⟩ := h ts' w' hm
      obtain ⟨hle, hafter⟩ := hk.after_ones hseg
      rw [append_nil] at hle hafter
      rw [length_drop, hlen] at hle
      have hseg0 : seg.length = 0 := by omega
      rw [drop_drop, drop_eq_nil_of_le (by omega)] at hafter
      exact hafter
  · exact .inl

end turns

end Wildcard
