/-
# What each task has done

A trace of numbered marks, newest first, seen task by task. A task that owns a token can say in
it which marks it has set (`Roll`), since nobody else sets marks of its number. Tasks that set a
certain mark at most once are ordered by it (`tasksWith`), and that order agrees with every other
order of events in the trace.
-/
import BeyondKv.Lib.Interleave

namespace Async

open Multiset

variable {L S : Type} {i j : ℕ} {l : L} {g : List (ℕ × L)}

/-- The marks of the task `i`. -/
def marksOf (i : ℕ) (g : List (ℕ × L)) : List L :=
  g.filterMap fun l => if l.1 = i then some l.2 else none

@[simp] theorem marksOf_nil : marksOf i ([] : List (ℕ × L)) = [] := rfl

@[simp] theorem marksOf_self : marksOf i ((i, l) :: g) = l :: marksOf i g := by simp [marksOf]

theorem marksOf_other (h : j ≠ i) : marksOf i ((j, l) :: g) = marksOf i g := by simp [marksOf, h]

theorem marksOf_append (g₁ g₂ : List (ℕ × L)) :
    marksOf i (g₁ ++ g₂) = marksOf i g₁ ++ marksOf i g₂ :=
  List.filterMap_append

theorem mem_marksOf : l ∈ marksOf i g ↔ (i, l) ∈ g := by
  simp [marksOf]

/-! ## Tokens -/

/-- Each token says which marks its task has set, and no task has two. -/
structure Roll (did : S → List L) (M : Multiset (ℕ × S)) (g : List (ℕ × L)) : Prop where
  nodup : (M.map Prod.fst).Nodup
  did : ∀ x ∈ M, marksOf x.1 g = did x.2

section roll
variable {did : S → List L} {a b : S} {f : Multiset (ℕ × S)}

theorem Roll.own (h : Roll did ({(i, a)} + f) g) : marksOf i g = did a :=
  h.did (i, a) (mem_add.mpr (.inl (mem_singleton_self _)))

theorem Roll.others (h : Roll did ({(i, a)} + f) g) : Roll did f g := by
  refine ⟨?_, fun x hx => h.did x (mem_add.mpr (.inr hx))⟩
  have hnodup := h.nodup
  rw [Multiset.map_add] at hnodup
  exact (nodup_add.mp hnodup).2.1

/-- Nobody else has a token of this task. -/
theorem Roll.ne (h : Roll did ({(i, a)} + f) g) {x : ℕ × S} (hx : x ∈ f) : x.1 ≠ i := by
  rintro rfl
  have hnodup := h.nodup
  rw [Multiset.map_add] at hnodup
  exact disjoint_left.mp (nodup_add.mp hnodup).2.2 (by simp) (mem_map_of_mem _ hx)

/-- The task has nothing more to say. -/
theorem Roll.keep (h : Roll did ({(i, a)} + f) g) (hb : did b = did a) :
    Roll did ({(i, b)} + f) g := by
  refine ⟨by simpa using h.nodup, fun x hx => ?_⟩
  rcases mem_add.mp hx with hx | hx
  · rw [mem_singleton.mp hx]
    exact h.own.trans hb.symm
  · exact h.others.did x hx

theorem Roll.mark (h : Roll did ({(i, a)} + f) g) (hb : did b = l :: did a) :
    Roll did ({(i, b)} + f) ((i, l) :: g) := by
  refine ⟨by simpa using h.nodup, fun x hx => ?_⟩
  rcases mem_add.mp hx with hx | hx
  · rw [mem_singleton.mp hx, marksOf_self, h.own]
    exact hb.symm
  · rw [marksOf_other (h.ne hx).symm]
    exact h.others.did x hx

theorem Roll.start {own : ℕ → S} (hown : ∀ i, did (own i) = []) (n : ℕ) :
    Roll did (((List.range n).map fun i => ({(i, own i)} : Multiset (ℕ × S))).sum) [] := by
  rw [sum_singletons]
  refine ⟨by simp [Function.comp_def, List.nodup_range], fun x hx => ?_⟩
  obtain ⟨i, -, rfl⟩ := List.mem_map.mp hx
  exact (hown i).symm

end roll

/-! ## Orders -/

section orders
variable {φ : L → Bool}

/-- The tasks that have set a mark of `φ`, newest first. -/
def tasksWith (φ : L → Bool) (g : List (ℕ × L)) : List ℕ :=
  g.filterMap fun l => if φ l.2 then some l.1 else none

theorem tasksWith_append (g₁ g₂ : List (ℕ × L)) :
    tasksWith φ (g₁ ++ g₂) = tasksWith φ g₁ ++ tasksWith φ g₂ :=
  List.filterMap_append

theorem mem_tasksWith : i ∈ tasksWith φ g ↔ ∃ l ∈ marksOf i g, φ l = true := by
  simp only [tasksWith, List.mem_filterMap, mem_marksOf]
  constructor
  · rintro ⟨⟨j, l⟩, hmem, h⟩
    by_cases hl : φ l = true
    · simp only [hl, if_true, Option.some.injEq] at h
      exact ⟨l, h ▸ hmem, hl⟩
    · simp [hl] at h
  · rintro ⟨l, hmem, hl⟩
    exact ⟨_, hmem, by simp [hl]⟩

theorem count_tasksWith : (tasksWith φ g).count i = (marksOf i g).countP φ := by
  induction g with
  | nil => rfl
  | cons x g ih =>
    obtain ⟨j, l⟩ := x
    by_cases hj : j = i
    · subst hj
      rw [marksOf_self, List.countP_cons, ← ih]
      by_cases hl : φ l = true <;> simp [tasksWith, hl]
    · rw [marksOf_other hj, ← ih]
      by_cases hl : φ l = true <;> simp [tasksWith, hl, hj]

/-- Each task that sets one does so once. -/
theorem nodup_tasksWith (h : ∀ i, (marksOf i g).countP φ ≤ 1) : (tasksWith φ g).Nodup :=
  List.nodup_iff_count_le_one.mpr fun i => count_tasksWith.trans_le (h i)

/-- Of two tasks one has set its mark before something, and the other after it. -/
theorem sublist_tasksWith {later earlier : List (ℕ × L)} (hj : j ∈ tasksWith φ later)
    (hi : i ∈ tasksWith φ earlier) :
    [j, i].Sublist (tasksWith φ (later ++ earlier)) := by
  rw [tasksWith_append]
  exact (List.singleton_sublist.mpr hj).append (List.singleton_sublist.mpr hi)

end orders

end Async
