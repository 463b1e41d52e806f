/-
# When calls take effect

Each write changes what the index says of its keys at one instant, marked `effect` and
followed by the change in the same turn. The trace of a run, newest mark first, so determines
what the index says (`knownAfter`): of each key its revision and its expiry.

A write holds the stripes of its keys from before it looks at them until after its effect.
What it has seen is still so at that instant, and the revision it has drawn meanwhile is
above every revision its keys have had. `Linear` is the invariant that says this; `Ok` is
what is asked of each effect.
-/
import BeyondKv.Lib.Interleave
import BeyondKv.Stamps

namespace BeyondKv

open Async Finset Function List

/-! ## What the index says -/

structure KeyState where
  rev : Option UInt64
  expiry : Option UInt64
  deriving DecidableEq

/-- Revision and expiry of every key. -/
abbrev Known := Bytes → KeyState

def NsIndex.known (idx : NsIndex) : Known :=
  fun k => ⟨(idx.get k).map IndexEntry.tstampMs, idx.ttl k⟩

/-- The revision of a key that is present and not expired. -/
def KeyState.live (a : KeyState) (now : UInt64) : Option UInt64 :=
  if a.expiry.any (fun ms => ms ≤ now) then none else a.rev

theorem liveRev_eq (idx : NsIndex) (k : Bytes) (now : UInt64) :
    liveRev idx k now = (idx.known k).live now := rfl

def Effect.apply (A : Known) : Effect → Known
  | .put k _ _ x rev => Function.update A k ⟨some rev, x⟩
  | .del k => Function.update A k ⟨none, none⟩
  | .ttl k x => Function.update A k ⟨(A k).rev, x⟩
  | .clear => fun _ => ⟨none, none⟩

def applyAll (A : Known) (es : List Effect) : Known := es.foldl Effect.apply A

/-- The effect is about the key. -/
def Effect.Touches : Effect → Bytes → Prop
  | .put k _ _ _ _, k' => k = k'
  | .del k, k' => k = k'
  | .ttl k _, k' => k = k'
  | .clear, _ => True

/-- The revision the effect gives to a key. -/
def Effect.revOf (k : Bytes) : Effect → Option UInt64
  | .put k' _ _ _ rev => if k' = k then some rev else none
  | _ => none

theorem Effect.apply_other {e : Effect} {k : Bytes} (A : Known) (h : ¬ e.Touches k) :
    e.apply A k = A k := by
  cases e with
  | clear => exact absurd trivial h
  | _ => exact update_of_ne (Ne.symm h) _ _

theorem Effect.revOf_other {e : Effect} {k : Bytes} (h : ¬ e.Touches k) : e.revOf k = none := by
  cases e with
  | put k' _ _ _ rev => exact if_neg h
  | _ => rfl

theorem applyAll_other {es : List Effect} {k : Bytes} (A : Known) (h : ∀ e ∈ es, ¬ e.Touches k) :
    applyAll A es k = A k := by
  induction es generalizing A with
  | nil => rfl
  | cons e es ih =>
    refine (ih (e.apply A) fun e' he => h e' (List.mem_cons_of_mem _ he)).trans ?_
    exact Effect.apply_other A (h e (List.mem_cons_self ..))

/-! ## Traces -/

section traces
variable {ι N : Type} [DecidableEq ι]

/-- The effect of a mark; a run may set other marks of its own. -/
def effectOf : Point ⊕ N → Option (List Effect)
  | .inl (.effect es) => some es
  | _ => none

/-- What the index says after a run that found it at `A₀`. -/
def knownAfter (A₀ : Known) : List (ι × (Point ⊕ N)) → Known
  | [] => A₀
  | e :: g => applyAll (knownAfter A₀ g) ((effectOf e.2).getD [])

/-- The revisions a key has had. -/
def revs (A₀ : Known) (k : Bytes) : List (ι × (Point ⊕ N)) → List UInt64
  | [] => (A₀ k).rev.toList
  | e :: g => ((effectOf e.2).getD []).filterMap (Effect.revOf k) ++ revs A₀ k g

/-- What a task does that others may care about: it takes effect, or sets a mark of its own. -/
abbrev Deed (N : Type) := List Effect ⊕ N

def deedOf : Point ⊕ N → Option (Deed N)
  | .inl (.effect es) => some (.inl es)
  | .inl _ => none
  | .inr n => some (.inr n)

/-- The deeds of the task `i`, newest first, each with what the index said before. -/
def did (A₀ : Known) (i : ι) : List (ι × (Point ⊕ N)) → List (Known × Deed N)
  | [] => []
  | e :: g =>
    match deedOf e.2 with
    | some d => if e.1 = i then (knownAfter A₀ g, d) :: did A₀ i g else did A₀ i g
    | none => did A₀ i g

/-- The revisions of an effect are above all that its keys have had. -/
def Newer (A₀ : Known) (g : List (ι × (Point ⊕ N))) (es : List Effect) : Prop :=
  ∀ e ∈ es, ∀ k rev, e.revOf k = some rev → ∀ r ∈ revs A₀ k g, r < rev

/-- At every deed of a task `R` held, of the trace before. -/
def Lawful (R : ι → List (ι × (Point ⊕ N)) → Deed N → Prop) : List (ι × (Point ⊕ N)) → Prop
  | [] => True
  | e :: g => (∀ d, deedOf e.2 = some d → R e.1 g d) ∧ Lawful R g

variable {A₀ : Known} {i j : ι} {g : List (ι × (Point ⊕ N))} {l : Point ⊕ N}

omit [DecidableEq ι] in
theorem knownAfter_quiet (h : effectOf l = none) :
    knownAfter A₀ ((i, l) :: g) = knownAfter A₀ g := by
  rw [knownAfter, h]
  rfl

omit [DecidableEq ι] in
theorem revs_quiet {k : Bytes} (h : effectOf l = none) : revs A₀ k ((i, l) :: g) = revs A₀ k g := by
  rw [revs, h]
  rfl

theorem effectOf_of_deedOf (h : deedOf l = none) : effectOf l = none := by
  cases l with
  | inl l => cases l <;> first | rfl | cases h
  | inr _ => rfl

theorem deedOf_eq_effect {es : List Effect} : deedOf l = some (.inl es) ↔ effectOf l = some es := by
  cases l with
  | inl l => cases l <;> simp [deedOf, effectOf]
  | inr n => simp [deedOf, effectOf]

theorem did_quiet (h : deedOf l = none) : did A₀ j ((i, l) :: g) = did A₀ j g := by
  rw [did, h]

theorem did_other (h : i ≠ j) : did A₀ j ((i, l) :: g) = did A₀ j g := by
  rw [did]
  cases deedOf l with
  | none => rfl
  | some d => exact if_neg h

theorem deedOf_inl {l : Point} (h : l.kind ≠ .effect) : deedOf (.inl l : Point ⊕ N) = none := by
  cases l <;> first | rfl | exact absurd rfl h

theorem rev_applyAll {es : List Effect} {A : Known} {k : Bytes} {r : UInt64}
    (h : (applyAll A es k).rev = some r) :
    (A k).rev = some r ∨ r ∈ es.filterMap (Effect.revOf k) := by
  induction es generalizing A with
  | nil => exact .inl h
  | cons e es ih =>
    rw [filterMap_cons]
    rcases ih h with h | h
    · by_cases hk : e.Touches k
      · cases e with
        | put k' _ _ _ rev =>
          cases hk
          rw [Effect.apply, update_self] at h
          cases h
          exact .inr (by simp [Effect.revOf])
        | del k' => cases hk; simp [Effect.apply] at h
        | ttl k' x =>
          cases hk
          rw [Effect.apply, update_self] at h
          exact .inl h
        | clear => cases h
      · rw [Effect.apply_other _ hk] at h
        exact .inl h
    · refine .inr ?_
      cases e.revOf k with
      | none => exact h
      | some _ => exact List.mem_cons_of_mem _ h

omit [DecidableEq ι] in
theorem mem_revs_of_known {k : Bytes} {r : UInt64} (h : (knownAfter A₀ g k).rev = some r) :
    r ∈ revs A₀ k g := by
  induction g with
  | nil => exact Option.mem_toList.mpr h
  | cons e g ih =>
    rw [revs, mem_append]
    exact (rev_applyAll h).elim (fun h => .inr (ih h)) .inl

/-! ### Earlier moments -/

section earlier
variable {g' : List (ι × (Point ⊕ N))} {k : Bytes} {r : UInt64}

omit [DecidableEq ι] in
theorem Lawful.suffix {R : ι → List (ι × (Point ⊕ N)) → Deed N → Prop} (h : Lawful R g)
    (hs : g' <:+ g) :
    Lawful R g' := by
  induction g with
  | nil => rwa [suffix_nil.mp hs]
  | cons e g ih =>
    rcases suffix_cons_iff.mp hs with rfl | hs
    · exact h
    · exact ih h.2 hs

omit [DecidableEq ι] in
theorem mem_revs_mono (h : g' <:+ g) (hr : r ∈ revs A₀ k g') : r ∈ revs A₀ k g := by
  induction g with
  | nil => rwa [suffix_nil.mp h] at hr
  | cons e g ih =>
    rcases suffix_cons_iff.mp h with rfl | h
    · exact hr
    · exact mem_append_right _ (ih h)

omit [DecidableEq ι] in
/-- A revision that a key has lost does not come back. -/
theorem not_again (hnew : Lawful (fun _ g d => ∀ es, d = .inl es → Newer A₀ g es) g) (h : g' <:+ g)
    (hr : r ∈ revs A₀ k g') (hlost : (knownAfter A₀ g' k).rev ≠ some r) :
    (knownAfter A₀ g k).rev ≠ some r := by
  induction g with
  | nil => rwa [suffix_nil.mp h] at hlost
  | cons e g ih =>
    rcases suffix_cons_iff.mp h with rfl | hsuf
    · exact hlost
    · intro hcon
      rcases rev_applyAll hcon with hcon | hcon
      · exact ih hnew.2 hsuf hcon
      · -- an effect that brought it back would have had to draw it again
        obtain ⟨i, l⟩ := e
        obtain ⟨ef, hef, hrev⟩ := List.mem_filterMap.mp hcon
        cases hl : effectOf l with
        | none => rw [hl] at hef; cases hef
        | some es =>
          rw [hl] at hef
          exact UInt64.lt_irrefl r
            (hnew.1 _ (deedOf_eq_effect.mpr hl) es rfl ef hef k r hrev r (mem_revs_mono hsuf hr))

/-- A deed in the record of a task is a moment of the run. -/
theorem exists_of_mem_did {A : Known} {d : Deed N} (h : (A, d) ∈ did A₀ i g) :
    ∃ l g', (i, l) :: g' <:+ g ∧ deedOf l = some d ∧ A = knownAfter A₀ g' := by
  induction g with
  | nil => cases h
  | cons e g ih =>
    obtain ⟨j, l⟩ := e
    have hlater : (A, d) ∈ did A₀ i g → ∃ l' g', (i, l') :: g' <:+ (j, l) :: g ∧ deedOf l' = some d
        ∧ A = knownAfter A₀ g' := fun h => by
      obtain ⟨l', g', hs, hd, hA⟩ := ih h
      exact ⟨l', g', hs.trans (suffix_cons _ _), hd, hA⟩
    cases hl : deedOf l with
    | none =>
      rw [did_quiet hl] at h
      exact hlater h
    | some d' =>
      by_cases hj : j = i
      · subst hj
        simp only [did, hl, if_true] at h
        rcases List.mem_cons.mp h with h | h
        · cases h
          exact ⟨l, g, suffix_refl _, hl, rfl⟩
        · exact hlater h
      · rw [did_other hj] at h
        exact hlater h

end earlier

end traces

/-! ## The invariant -/

/-- What a task has done and is about to do: its deeds so far, how many revisions it may
still draw, the stripes it holds, what the index said of their keys when it took the last of
them, and the revisions it has drawn since. -/
structure Standing (N : Type) where
  did : List (Known × Deed N)
  draws : Nat
  locks : Finset Nat
  view : Known
  drawn : List UInt64

/-- What a run starts from and what is asked of each deed: of the task, its deeds before, what
the index says, and the deed. Whether the revision counter has room for the run is part of the
rules, since only the revisions depend on it. -/
structure Rules (ι N : Type) where
  start : Known
  room : Prop
  ok : ι → List (Known × Deed N) → Known → Deed N → Prop

section invariant
variable (P : Prims) {ι N : Type} [DecidableEq ι] (R : Rules ι N)

/-- What the task has seen of the keys it has locked. -/
def Standing.Sees (a : Standing N) (A : Known) : Prop := ∀ k, stripeIdx P k ∈ a.locks →
    A k = a.view k

/-- What it has seen is still so. -/
theorem Standing.Sees.eq {P : Prims} {a : Standing N} {A B : Known} (h : a.Sees P A)
    (h' : a.Sees P B) {k : Bytes}
    (hk : stripeIdx P k ∈ a.locks) : A k = B k := (h k hk).trans (h' k hk).symm

def budget (M : Multiset (ι × Standing N)) : Nat := (M.map fun x => x.2.draws).sum

/-- The revisions of a run that leaves the counter room for its draws. -/
structure Stamped (M : Multiset (ι × Standing N)) (g : List (ι × (Point ⊕ N))) (s : NsState) :
    Prop where
  room : Headroom (budget M) s
  below : ∀ k, ∀ r ∈ revs R.start k g, r ≤ s.lastTstamp
  drawn : ∀ x ∈ M, ∀ t ∈ x.2.drawn, t ≤ s.lastTstamp
    ∧ ∀ k, stripeIdx P k ∈ x.2.locks → ∀ r ∈ revs R.start k g, r < t

structure Linear (M : Multiset (ι × Standing N)) (g : List (ι × (Point ⊕ N))) (s : NsState) :
    Prop where
  lawful : Lawful (fun i g d => R.ok i (did R.start i g) (knownAfter R.start g) d) g
  newer : R.room → Lawful (fun _ g d => ∀ es, d = .inl es → Newer R.start g es) g
  known : s.index.known = knownAfter R.start g
  ids : (M.map Prod.fst).Nodup
  mine : ∀ x ∈ M, did R.start x.1 g = x.2.did
  locked : ∀ x ∈ M, ∀ n ∈ x.2.locks, s.writeStripes n = true
  apart : ∀ x ∈ M, ∀ y ∈ M, x.1 ≠ y.1 → Disjoint x.2.locks y.2.locks
  views : ∀ x ∈ M, x.2.Sees P (knownAfter R.start g)
  stamped : R.room → Stamped P R M g s

variable {P R} {M f : Multiset (ι × Standing N)} {g : List (ι × (Point ⊕ N))}
  {s s' : NsState} {i : ι} {a b : Standing N} {x : ι × Standing N}

omit [DecidableEq ι] in
theorem mem_own (hx : x ∈ ({(i, a)} + f : Multiset _)) : x = (i, a) ∨ x ∈ f := by
  simpa using hx

omit [DecidableEq ι] in
theorem mem_others (hx : x ∈ f) : x ∈ ({(i, a)} + f : Multiset _) := Multiset.mem_add.mpr (.inr hx)

omit [DecidableEq ι] in
theorem budget_own : budget ({(i, a)} + f) = a.draws + budget f := by simp [budget]

theorem Effect.touches_of_revOf {e : Effect} {k : Bytes} {t : UInt64} (h : e.revOf k = some t) :
    e.Touches k := by
  by_contra hk
  rw [Effect.revOf_other hk] at h
  cases h

/-- The part of the state the invariant is about. -/
def linView (s : NsState) : NsIndex × UInt64 × (Nat → UInt64) × (Nat → Bool) :=
  (s.index, s.lastTstamp, s.clock, s.writeStripes)

theorem Linear.same (h : Linear P R M g s) (hs : Same linView s s') :
    Linear P R M g s' := by
  obtain ⟨hi, ht, hc, hw⟩ : s'.index = s.index ∧ s'.lastTstamp = s.lastTstamp ∧ s'.clock = s.clock
      ∧ s'.writeStripes = s.writeStripes := by simpa [Same, linView] using hs
  refine ⟨h.lawful, h.newer,
    by rw [hi]; exact h.known, h.ids, h.mine, by rw [hw]; exact h.locked, h.apart,
    h.views, fun hr => ?_⟩
  obtain ⟨hroom, hbelow, hdrawn⟩ := h.stamped hr
  exact ⟨by rw [Headroom, ht, hc]; exact hroom, by rw [ht]; exact hbelow, by rw [ht]; exact hdrawn⟩

omit [DecidableEq ι] in
theorem Lawful.quiet {R : ι → List (ι × (Point ⊕ N)) → Deed N → Prop} (h : Lawful R g)
    {l : Point ⊕ N} (hl : deedOf l = none) : Lawful R ((i, l) :: g) :=
  ⟨fun _ he => absurd (hl.symm.trans he) nofun, h⟩

omit [DecidableEq ι] in
theorem Stamped.quiet (h : Stamped P R M g s) {l : Point ⊕ N} (hl : effectOf l = none) :
    Stamped P R M ((i, l) :: g) s :=
  ⟨h.room, by simpa only [revs_quiet hl] using h.below, by simpa only [revs_quiet hl] using h.drawn⟩

theorem Linear.quiet (h : Linear P R M g s) (i : ι) {l : Point ⊕ N} (hl : deedOf l = none) :
    Linear P R M ((i, l) :: g) s where
  lawful := h.lawful.quiet hl
  newer hr := (h.newer hr).quiet hl
  known := by rw [knownAfter_quiet (effectOf_of_deedOf hl)]; exact h.known
  ids := h.ids
  mine x hx := by rw [did_quiet hl]; exact h.mine x hx
  locked := h.locked
  apart := h.apart
  views := by rw [knownAfter_quiet (effectOf_of_deedOf hl)]; exact h.views
  stamped hr := (h.stamped hr).quiet (effectOf_of_deedOf hl)

theorem Linear.other (h : Linear P R ({(i, a)} + f) g s) (hx : x ∈ f) : x.1 ≠ i := by
  have hn := h.ids
  rw [Multiset.map_add, Multiset.map_singleton, Multiset.singleton_add, Multiset.nodup_cons] at hn
  exact fun he => hn.1 (Multiset.mem_map.mpr ⟨x, hx, he⟩)

theorem Linear.self (h : Linear P R ({(i, a)} + f) g s) : did R.start i g = a.did :=
  h.mine (i, a) (by simp)

theorem Linear.sees (h : Linear P R ({(i, a)} + f) g s) : a.Sees P (knownAfter R.start g) :=
  h.views (i, a) (by simp)

theorem Linear.distinct (h : Linear P R ({(i, a)} + f) g s) (hx : x ∈ f) :
    Disjoint a.locks x.2.locks :=
  h.apart (i, a) (by simp) x (mem_others hx) (h.other hx).symm

/-- A task moves on: of the others only what they have locked matters. -/
theorem Linear.moves {g' : List (ι × (Point ⊕ N))} (h : Linear P R ({(i, a)} + f) g s)
    (hlawful : Lawful (fun i g d => R.ok i (did R.start i g) (knownAfter R.start g) d) g')
    (hnewer : R.room → Lawful (fun _ g d => ∀ es, d = .inl es → Newer R.start g es) g')
    (hknown : s'.index.known = knownAfter R.start g') (hdid : did R.start i g' = b.did)
    (hdids : ∀ j, i ≠ j → did R.start j g' = did R.start j g)
    (hmine : ∀ n ∈ b.locks, s'.writeStripes n = true)
    (htheirs : ∀ x ∈ f, ∀ n ∈ x.2.locks, s'.writeStripes n = true)
    (hapart : ∀ x ∈ f, Disjoint b.locks x.2.locks)
    (hsees : b.Sees P (knownAfter R.start g')) (hsee : ∀ x ∈ f, x.2.Sees P (knownAfter R.start g'))
    (hst : R.room → Stamped P R ({(i, b)} + f) g' s') : Linear P R ({(i, b)} + f) g' s' where
  lawful := hlawful
  newer := hnewer
  known := hknown
  ids := by simpa using h.ids
  mine x hx := by
    rcases mem_own hx with rfl | hx
    · exact hdid
    · exact (hdids x.1 (h.other hx).symm).trans (h.mine x (mem_others hx))
  locked x hx := by
    rcases mem_own hx with rfl | hx
    · exact hmine
    · exact htheirs x hx
  apart x hx y hy hne := by
    rcases mem_own hx with rfl | hx <;> rcases mem_own hy with rfl | hy
    · exact absurd rfl hne
    · exact hapart y hy
    · exact (hapart x hx).symm
    · exact h.apart x (mem_others hx) y (mem_others hy) hne
  views x hx := by
    rcases mem_own hx with rfl | hx
    · exact hsees
    · exact hsee x hx
  stamped := hst

/-- A task's own change: neither trace nor index changes. -/
theorem Linear.own (h : Linear P R ({(i, a)} + f) g s) (hindex : s'.index = s.index)
    (hdid : b.did = a.did) (hmine : ∀ n ∈ b.locks, s'.writeStripes n = true)
    (htheirs : ∀ x ∈ f, ∀ n ∈ x.2.locks, s'.writeStripes n = true)
    (hapart : ∀ x ∈ f, Disjoint b.locks x.2.locks) (hsees : b.Sees P (knownAfter R.start g))
    (hst : R.room → Stamped P R ({(i, b)} + f) g s') : Linear P R ({(i, b)} + f) g s' :=
  h.moves h.lawful h.newer (by rw [hindex]; exact h.known) (h.self.trans hdid.symm)
    (fun _ _ => rfl) hmine htheirs
    hapart hsees (fun x hx => h.views x (mem_others hx)) hst

omit [DecidableEq ι] in
/-- What a task has drawn it may forget. -/
theorem Stamped.own (h : Stamped P R ({(i, a)} + f) g s) (hlast : s'.lastTstamp = s.lastTstamp)
    (hclock : s'.clock = s.clock) (hdraws : b.draws = a.draws)
    (hdrawn : ∀ t ∈ b.drawn, t ∈ a.drawn ∧ b.locks ⊆ a.locks) :
    Stamped P R ({(i, b)} + f) g s' where
  room := by
    have hroom := h.room
    rw [budget_own] at hroom ⊢
    rw [Headroom, hlast, hclock, hdraws]
    exact hroom
  below := by
    rw [hlast]
    exact h.below
  drawn x hx t ht := by
    rw [hlast]
    rcases mem_own hx with rfl | hx
    · have hd := h.drawn (i, a) (by simp) t (hdrawn t ht).1
      exact ⟨hd.1, fun k hk => hd.2 k ((hdrawn t ht).2 hk)⟩
    · exact h.drawn x (mem_others hx) t ht

/-- A stripe that nobody held is taken; what the index says of the keys is looked up afresh. -/
theorem Linear.take {n : Nat} (h : Linear P R ({(i, a)} + f) g s) (hn : s.writeStripes n = false) :
    Linear P R
      ({(i, { a with locks := insert n a.locks, view := knownAfter R.start g, drawn := [] })} + f) g
      (setStripe n true s) := by
  have hfree : ∀ x ∈ f, n ∉ x.2.locks := by
    intro x hx hmem
    have := h.locked x (mem_others hx) n hmem
    rw [hn] at this
    cases this
  refine h.own rfl rfl ?_ ?_ ?_ (fun _ _ => rfl) fun hr => (h.stamped hr).own rfl rfl rfl (by simp)
  · intro m hm
    show Function.update s.writeStripes n true m = true
    rcases mem_insert.mp hm with rfl | hm
    · exact update_self ..
    · rw [update_apply, h.locked (i, a) (by simp) m hm, ite_self]
  · intro x hx m hm
    show Function.update s.writeStripes n true m = true
    rw [update_apply, h.locked x (mem_others hx) m hm, ite_self]
  · intro x hx
    exact disjoint_insert_left.mpr ⟨hfree x hx, h.distinct hx⟩

theorem Linear.release {L : Finset Nat} (h : Linear P R ({(i, a)} + f) g s) (hL : L ⊆ a.locks)
    (hs : Same (fun s => (s.index, s.lastTstamp, s.clock)) s s')
    (hw : ∀ n, n ∉ a.locks \ L → s'.writeStripes n = s.writeStripes n) :
    Linear P R ({(i, { a with locks := L })} + f) g s' := by
  obtain ⟨hi, ht, hc⟩ : s'.index = s.index ∧ s'.lastTstamp = s.lastTstamp ∧ s'.clock = s.clock := by
    simpa [Same] using hs
  refine h.own hi rfl ?_ ?_ (fun x hx => (h.distinct hx).mono_left hL)
    (fun k hk => h.sees k (hL hk))
    fun hr => (h.stamped hr).own ht hc rfl fun t htd => ⟨htd, hL⟩
  · intro n hn
    rw [hw n fun hd => (mem_sdiff.mp hd).2 hn]
    exact h.locked (i, a) (by simp) n (hL hn)
  · intro x hx n hn
    rw [hw n fun hd => Finset.disjoint_left.mp (h.distinct hx) (mem_sdiff.mp hd).1 hn]
    exact h.locked x (mem_others hx) n hn

/-- A revision is drawn. -/
theorem Linear.draw {d : Nat} (h : Linear P R ({(i, a)} + f) g s) (hd : a.draws = d + 1) :
    Linear P R ({(i, { a with draws := d, drawn := nextRevision s :: a.drawn })} + f) g
      { s with readings := s.readings + 1, lastTstamp := nextRevision s } := by
  refine h.own rfl rfl (h.locked (i, a) (by simp))
    (fun x hx => h.locked x (mem_others hx)) (fun x hx => h.distinct hx) h.sees fun hr => ?_
  obtain ⟨hroom, hbelow, hdrawn⟩ := h.stamped hr
  rw [budget_own, hd, Nat.add_right_comm] at hroom
  have hle : ∀ {t}, t ≤ s.lastTstamp → t ≤ nextRevision s := fun ht =>
    UInt64.le_of_lt (UInt64.lt_of_le_of_lt ht hroom.next.1)
  refine ⟨by rw [budget_own]; exact hroom.next.2.2,
    fun k r hk => hle (hbelow k r hk), fun x hx t ht => ?_⟩
  rcases mem_own hx with rfl | hx
  · rcases List.mem_cons.mp ht with rfl | ht
    · exact ⟨UInt64.le_refl _, fun k _ r hk => UInt64.lt_of_le_of_lt (hbelow k r hk) hroom.next.1⟩
    · have := hdrawn (i, a) (by simp) t ht
      exact ⟨hle this.1, this.2⟩
  · have := hdrawn x (mem_others hx) t ht
    exact ⟨hle this.1, this.2⟩

section effects
variable {es : List Effect}

omit [DecidableEq ι] in
theorem knownAfter_effect :
    knownAfter R.start ((i, .inl (.effect es)) :: g) = applyAll (knownAfter R.start g) es := rfl

omit [DecidableEq ι] in
theorem revs_effect {k : Bytes} : revs R.start k ((i, .inl (.effect es)) :: g)
    = es.filterMap (Effect.revOf k) ++ revs R.start k g := rfl

theorem did_effect : did R.start i ((i, .inl (.effect es)) :: g) = (knownAfter R.start g, .inl es)
    :: did R.start i g :=
  if_pos rfl

/-- The effect of a task happens under the locks of its keys, with revisions it has drawn. -/
structure Standing.May (P : Prims) (a : Standing N) (es : List Effect) : Prop where
  held : ∀ e ∈ es, ∀ k, e.Touches k → stripeIdx P k ∈ a.locks
  drawn : ∀ e ∈ es, ∀ k t, e.revOf k = some t → t ∈ a.drawn

/-- The keys others have locked are left alone. -/
theorem Linear.untouched (h : Linear P R ({(i, a)} + f) g s) (hes : a.May P es)
    {x : ι × Standing N} (hx : x ∈ f) {k : Bytes} (hk : stripeIdx P k ∈ x.2.locks) :
    ∀ e ∈ es, ¬ e.Touches k :=
  fun e he ht => Finset.disjoint_left.mp (h.distinct hx) (hes.held e he k ht) hk

omit [DecidableEq ι] in
theorem Stamped.effect (h : Stamped P R ({(i, a)} + f) g s) (hes : a.May P es)
    (hf : ∀ x ∈ f, ∀ k, stripeIdx P k ∈ x.2.locks → ∀ e ∈ es, ¬ e.Touches k)
    (hdraws : b.draws = a.draws) (hdrawn : b.drawn = [])
    (hs : Same (fun s => (s.lastTstamp, s.clock)) s s') :
    Stamped P R ({(i, b)} + f) ((i, .inl (.effect es)) :: g) s' := by
  obtain ⟨ht, hc⟩ : s'.lastTstamp = s.lastTstamp ∧ s'.clock = s.clock := by simpa [Same] using hs
  have hroom := h.room
  rw [budget_own] at hroom
  refine ⟨by rw [budget_own, hdraws, Headroom, ht, hc]; exact hroom,
    fun k r hr => ?_, fun x hx t htd => ?_⟩
  · rw [revs_effect, mem_append] at hr
    rw [ht]
    rcases hr with hr | hr
    · obtain ⟨e, he, hrev⟩ := List.mem_filterMap.mp hr
      exact (h.drawn (i, a) (by simp) r (hes.drawn e he k r hrev)).1
    · exact h.below k r hr
  · rcases mem_own hx with rfl | hx
    · rw [hdrawn] at htd
      cases htd
    · have hd := h.drawn x (mem_others hx) t htd
      refine ⟨by rw [ht]; exact hd.1, fun k hk r hr => hd.2 k hk r ?_⟩
      rwa [revs_effect, filterMap_eq_nil_iff.mpr fun e he => Effect.revOf_other (hf x hx k hk e he)]
        at hr

omit [DecidableEq ι] in
/-- The revisions of the effect are above all that its keys have had. -/
theorem Stamped.newer (h : Stamped P R ({(i, a)} + f) g s) (hes : a.May P es) :
    Newer R.start g es := by
  intro e he k t ht r hr
  exact (h.drawn (i, a) (by simp) t (hes.drawn e he k t ht)).2 k
    (hes.held e he k (Effect.touches_of_revOf ht)) r hr

/-- A task takes effect. -/
theorem Linear.effect (h : Linear P R ({(i, a)} + f) g s) (hes : a.May P es)
    (hok : R.ok i a.did (knownAfter R.start g) (.inl es))
    (hindex : s'.index.known = applyAll s.index.known es)
    (hs : Same (fun s => (s.lastTstamp, s.clock, s.writeStripes)) s s') :
    Linear P R
      ({(i, { a with
          did := (knownAfter R.start g, .inl es) :: a.did
          view := applyAll (knownAfter R.start g) es
          drawn := [] })} + f)
      ((i, .inl (.effect es)) :: g) s' := by
  obtain ⟨ht, hc, hw⟩ : s'.lastTstamp = s.lastTstamp ∧ s'.clock = s.clock
      ∧ s'.writeStripes = s.writeStripes := by
    simpa [Same] using hs
  have hf : ∀ x ∈ f, ∀ k, stripeIdx P k ∈ x.2.locks → ∀ e ∈ es, ¬ e.Touches k := fun x hx k hk =>
    h.untouched hes hx hk
  refine h.moves ⟨fun d hd => ?_, h.lawful⟩ (fun hr => ⟨fun d hd es' he => ?_, h.newer hr⟩) ?_ ?_
    (fun _ hj => did_other hj) ?_ ?_ (fun x hx => h.distinct hx) (fun _ _ => rfl)
    (fun x hx k hk => ?_)
    fun hr => (h.stamped hr).effect hes hf rfl rfl (by simp [Same, ht, hc])
  · cases hd
    rw [h.self]
    exact hok
  · cases hd
    cases he
    exact (h.stamped hr).newer hes
  · rw [hindex, h.known, knownAfter_effect]
  · rw [did_effect, h.self]
  · rw [hw]
    exact h.locked (i, a) (by simp)
  · rw [hw]
    exact fun x hx => h.locked x (mem_others hx)
  · rw [knownAfter_effect, applyAll_other _ (hf x hx k hk)]
    exact h.views x (mem_others hx) k hk

end effects

/-- A task sets a mark of its own. -/
theorem Linear.note {n : N} (h : Linear P R ({(i, a)} + f) g s)
    (hok : R.ok i a.did (knownAfter R.start g) (.inr n)) :
    Linear P R ({(i, { a with did := (knownAfter R.start g, .inr n) :: a.did })} + f)
        ((i, .inr n) :: g) s := by
  refine h.moves ⟨fun d hd => by cases hd; rw [h.self]; exact hok, h.lawful⟩
    (fun hr => ⟨fun d hd es he => absurd (hd.trans (congrArg some he)) nofun, h.newer hr⟩) h.known
    ((if_pos rfl).trans (by rw [h.self])) (fun _ hj => did_other hj) (h.locked (i, a) (by simp))
    (fun x hx => h.locked x (mem_others hx)) (fun x hx => h.distinct hx) h.sees
    (fun x hx => h.views x (mem_others hx)) fun hr => ?_
  have hst := (h.stamped hr).quiet (i := i) (l := .inr n) rfl
  exact hst.own rfl rfl rfl fun t ht => ⟨ht, subset_rfl⟩

/-- A task that has ended is forgotten. -/
theorem Linear.ended (h : Linear P R ({(i, a)} + f) g s) : Linear P R f g s where
  lawful := h.lawful
  newer := h.newer
  known := h.known
  ids := (Multiset.nodup_of_le (Multiset.map_le_map (Multiset.le_add_left _ _)) h.ids)
  mine x hx := h.mine x (mem_others hx)
  locked x hx := h.locked x (mem_others hx)
  apart x hx y hy := h.apart x (mem_others hx) y (mem_others hy)
  views x hx := h.views x (mem_others hx)
  stamped hr := by
    obtain ⟨hroom, hbelow, hdrawn⟩ := h.stamped hr
    rw [budget_own] at hroom
    exact ⟨hroom.mono (Nat.le_add_left _ _), hbelow,
      fun x hx => hdrawn x (mem_others hx)⟩

/-- Every revision of the index has been drawn from the counter. -/
def Dated (s : NsState) : Prop := ∀ k e, s.index.get k = some e → e.tstampMs ≤ s.lastTstamp

/-- Tasks that have not done anything. -/
theorem linear_start (hids : (M.map Prod.fst).Nodup)
    (hM : ∀ x ∈ M, x.2.did = [] ∧ x.2.locks = ∅ ∧ x.2.drawn = []) (hstart : R.start = s.index.known)
    (hroom : R.room → Headroom (budget M) s ∧ Dated s) : Linear P R M [] s := by
  refine ⟨trivial, fun _ => trivial, hstart.symm, hids, fun x hx => (hM x hx).1.symm,
    fun x hx n hn => ?_, fun x hx y _ _ => ?_, fun x hx k hk => ?_,
    fun hr => ⟨(hroom hr).1, fun k r hk => ?_, fun x hx t ht => ?_⟩⟩
  · rw [(hM x hx).2.1] at hn
    cases hn
  · rw [(hM x hx).2.1]
    exact disjoint_empty_left _
  · rw [(hM x hx).2.1] at hk
    cases hk
  · rw [revs, Option.mem_toList, hstart] at hk
    obtain ⟨e, he, rfl⟩ := Option.map_eq_some_iff.mp hk
    exact (hroom hr).2 k e he
  · rw [(hM x hx).2.2] at ht
    cases ht

end invariant

/-! ## Tasks -/

abbrev tracing (ι N : Type) : Discipline NsState (ι × (Point ⊕ N)) (List (ι × (Point ⊕ N))) :=
  .record fun l _ g => l :: g

abbrev linear (P : Prims) {ι N : Type} [DecidableEq ι] (R : Rules ι N) :
    Regime NsState (ι × (Point ⊕ N)) (List (ι × (Point ⊕ N))) (ι × Standing N) :=
  .plain (tracing ι N) (Linear P R)

/-- The regime as the code of the log sees it when the task `i` runs it. -/
abbrev linearBy (P : Prims) {ι N : Type} [DecidableEq ι] (R : Rules ι N) (i : ι) :
    Regime NsState Point (List (ι × (Point ⊕ N))) (ι × Standing N) :=
  (linear P R).via fun l => (i, .inl l)

instance : BlindSync linView where
  io _ _ _ _ _ := rfl
  refs _ _ _ := rfl
  files _ _ _ _ := rfl
  active _ _ _ := rfl

instance : BlindGate linView := ⟨fun _ _ _ => rfl⟩

instance : BlindBlobs linView := ⟨fun _ _ => rfl⟩

/-- The marks that are no effect. -/
def Ineffective (l : Point) : Prop := l.kind ≠ .effect

instance : Has .io Ineffective := ⟨fun _ hl h => by rw [hl] at h; cases h⟩
instance : Has .sync Ineffective := ⟨fun _ hl h => by rw [hl] at h; cases h⟩
instance : Has .lock Ineffective := ⟨fun _ hl h => by rw [hl] at h; cases h⟩

section rules
variable {P : Prims} {ι N : Type} [DecidableEq ι] {R : Rules ι N} {α β γ : Type} {i : ι}
  {a b : Standing N}
  {post : Except EngineError β → Multiset (ι × Standing N) → Prop}

abbrev Remains (P : Prims) {ι N : Type} [DecidableEq ι] (R : Rules ι N) (i : ι) (a : Standing N)
    (p : Task α) : Prop :=
  Triple (linearBy P R i) {(i, a)} p (Owning {(i, a)})

theorem Remains.calm {p : Task α} (hp : Calm Ineffective linView p) : Remains P R i a p :=
  Triple.within (fun _ hl _ _ _ h => h.quiet i (deedOf_inl hl)) (fun _ _ _ => trivial)
    (fun _ _ _ _ h hs => h.same hs) hp

theorem Remains.gets (e : NsState → α) : Remains P R i a (lift (Prog.gets e)).run :=
  .calm (calm_lift (calm_gets e))

theorem Remains.at {l : Point} (hl : Ineffective l) : Remains P R i a (lift (Prog.at_ l)).run :=
  .calm (calm_lift (Prog.within_at hl))

/-- A step that leaves the task where it is; if it fails, so does the call. -/
theorem Remains.then {p : Act α} {k : α → Act β}
    (hp : Remains P R i a p.run) (he : ∀ e, post (.error e) {(i, a)})
    (hk : ∀ x, Triple (linearBy P R i) {(i, a)} (k x).run post) :
    Triple (linearBy P R i) {(i, a)} (p >>= k).run post := Triple.run_after hp hk he

/-- What the index says of locked keys is what the task has seen. -/
theorem triple_look {F : Known → α} {e : NsState → α} (he : ∀ s, e s = F s.index.known)
    {k : α → Act β} (hk : ∀ A, a.Sees P A → Triple (linearBy P R i) {(i, a)} (k (F A)).run post) :
    Triple (linearBy P R i) {(i, a)} (lift (Prog.gets e) >>= k).run post := by
  intro f g s h
  rw [wpi_run]
  simp only [wpix_seq, lift, wpix_lift, wpi_gets, onOkI_ok, he, h.known]
  exact hk _ h.sees f g s h

theorem triple_nextTstamp {d : Nat} (hd : a.draws = d + 1) :
    Triple (linearBy P R i) {(i, a)} nextTstamp fun t own =>
      own = {(i, { a with draws := d, drawn := t :: a.drawn })} := by
  intro f g s h
  simp only [nextTstamp, nowMs, wpi_seq, wpi_step]
  exact ⟨_, h.draw hd, rfl⟩

theorem takes_lockStripe (n : Nat) :
    Triple (linearBy P R i) {(i, a)} (lockStripe n) fun _ own =>
      ∃ V, own = {(i, { a with locks := insert n a.locks, view := V, drawn := [] })} := by
  have htake : ∀ {f g s}, Linear P R ({(i, a)} + f) g s → s.writeStripes n = false →
      wpi (linearBy P R i)
        (Prog.modify (setStripe n true) >>= fun _ => Prog.at_ (.holds (.stripe n)))
        (Gives (linearBy P R i) fun _ own =>
          ∃ V, own = {(i, { a with locks := insert n a.locks, view := V, drawn := [] })}) f g
              s := by
    intro f g s h hn
    simp only [wpi_seq, wpi_modify, wpi_at]
    exact fun _ => ⟨_, (h.take hn).quiet i rfl, _, rfl⟩
  intro f g s h
  simp only [lockStripe, acquire, wpi_seq, wpi_gets] at htake ⊢
  cases hl : s.writeStripes n with
  | false => exact htake h hl
  | true =>
    rw [if_pos rfl]
    simp only [wpi_seq, wpi_at, wpi_wait]
    refine fun _ => ⟨_, h.quiet i rfl, trivial, fun f g s h hn => ?_⟩
    exact htake h (by simpa using hn)

theorem triple_dropAll (rs : List Resource) : Remains P R i a (dropAll rs) :=
  .calm (calm_dropAll fun _ _ => nofun)

/-- A guard: its body, then the release. -/
theorem triple_guard {rs : List Resource} {release : NsState → NsState} {body : Act α}
    {pre : Multiset (ι × Standing N)}
    (mid : Except EngineError α → Multiset (ι × Standing N) → Prop)
    {post : Except EngineError α → Multiset (ι × Standing N) → Prop}
    (hbody : Triple (linearBy P R i) pre body.run mid)
    (hrel : ∀ r own, mid r own → ∃ b c, own = {(i, b)} ∧ post r {(i, c)}
      ∧ ∀ f g s, Linear P R ({(i, b)} + f) g s → Linear P R ({(i, c)} + f) (N := N) g (release s)) :
    Triple (linearBy P R i) pre (guarded rs release body).run post := by
  refine Triple.seq hbody fun r own hr => ?_
  obtain ⟨b, c, rfl, hpost, hstep⟩ := hrel r own hr
  intro f g s h
  simp only [wpi_seq, wpi_modify]
  refine wpi_mono (triple_dropAll rs f g (release s) (hstep f g s h)) fun _ f g s h' => ?_
  obtain ⟨own, hinv, rfl⟩ := h'
  exact ⟨_, hinv, hpost⟩

/-- A task takes effect: the mark, and the change of the index in the same turn. -/
theorem triple_effect {es : List Effect} {e : NsState → γ × NsState} {k : γ → Act β}
    (hes : a.May P es) (hok : ∀ A, a.Sees P A → R.ok i a.did A (.inl es))
    (hindex : ∀ s, (e s).2.index.known = applyAll s.index.known es)
    (hs : ∀ s, Same (fun s => (s.lastTstamp, s.clock, s.writeStripes)) s (e s).2)
    (hk : ∀ A x, a.Sees P A → Triple (linearBy P R i)
      {(i, { a with did := (A, .inl es) :: a.did, view := applyAll A es, drawn := [] })}
        (k x).run post) :
    Triple (linearBy P R i) {(i, a)}
      (lift (Prog.at_ (.effect es)) >>= fun _ => lift (Prog.step e) >>= k).run post := by
  intro f g s h
  rw [wpi_run]
  simp only [wpix_seq, lift, wpix_lift, wpi_at, wpi_step, onOkI_ok]
  exact fun _ => hk _ _ h.sees f _ _ (h.effect hes (hok _ h.sees) (hindex s) (hs s))

/-- A task takes effect by changing nothing. -/
theorem triple_refuse {k : Unit → Act β} (hok : ∀ A, a.Sees P A → R.ok i a.did A (.inl []))
    (hk : ∀ A, a.Sees P A → Triple (linearBy P R i)
      {(i, { a with did := (A, .inl []) :: a.did, view := A, drawn := [] })} (k ()).run post) :
    Triple (linearBy P R i) {(i, a)} (lift (Prog.at_ (.effect [])) >>= k).run post := by
  intro f g s h
  rw [wpi_run]
  simp only [wpix_seq, lift, wpix_lift, wpi_at, onOkI_ok]
  exact fun _ => hk _ h.sees f _ _ (h.effect ⟨by simp, by simp⟩ (hok _ h.sees) rfl rfl)

/-! ## Calls -/

/-- What a call may do: where the index says this, it has this effect and this result. -/
abbrev Spec (α : Type) := Known → List Effect → α → Prop

variable {S : Spec α} {key : Bytes} {x : Option UInt64} {pairs : List (Bytes × Bytes)}

/-- A call has done what the specification says, once; a call that failed may have. -/
def Took (S : Spec α) (done : List (Known × Deed N)) :
    Except EngineError α → List (Known × Deed N) → Prop
  | .ok x, now => ∃ A es, S A es x ∧ now = (A, .inl es) :: done
  | .error _, now => now = done ∨ ∃ A es x, S A es x ∧ now = (A, .inl es) :: done

/-- Where a call is in the end that found `a` and drew at most `n` revisions. -/
def Ended (i : ι) (a : Standing N) (n : Nat) (S : Spec α) (r : Except EngineError α)
    (own : Multiset (ι × Standing N)) : Prop :=
  ∃ b, own = {(i, b)} ∧ b.locks = a.locks ∧ a.draws ≤ b.draws + n ∧ Took S a.did r b.did

/-- The call takes effect as specified. -/
def Acts (P : Prims) {ι N : Type} [DecidableEq ι] (R : Rules ι N) (i : ι) (a : Standing N) (n : Nat)
    (p : Act α) (S : Spec α) : Prop :=
  Triple (linearBy P R i) {(i, a)} p.run (Ended i a n S)

/-- The specification at the moment the task sees. -/
def Standing.At (P : Prims) (a : Standing N) (S : Spec α) : Spec α :=
  fun A es x => a.Sees P A ∧ S A es x

theorem Took.map {S' : Spec β} (c : α → β) (h : ∀ A es x, S A es x → S' A es (c x))
    {done now : List (Known × Deed N)} {r : Except EngineError α} (hr : Took S done r now) :
    Took S' done (r.map c) now := by
  cases r with
  | ok x =>
    obtain ⟨A, es, hS, hnow⟩ := hr
    exact ⟨A, es, h A es x hS, hnow⟩
  | error e => exact hr.imp_right fun ⟨A, es, x, hS, hnow⟩ => ⟨A, es, c x, h A es x hS, hnow⟩

/-- A call hands on the result of another. -/
theorem Acts.map {n : Nat} {p : Act α} {S' : Spec β} (c : α → β) (hp : Acts P R i a n p S)
    (h : ∀ A es x, S A es x → S' A es (c x)) : Acts P R i a n (do return c (← p)) S' := by
  refine Triple.run_seq hp (fun x own hx => ?_) fun e own hx => ?_ <;>
    obtain ⟨b, hown, hl, hd, ht⟩ := hx
  · exact Triple.ret ⟨b, hown, hl, hd, ht.map c h⟩
  · exact ⟨b, hown, hl, hd, ht.map c h⟩

/-- The revision of an unconditional put is the writer's choice. -/
def putSpec (key value metadata : Bytes) (x : Option UInt64) : Spec UInt64 := fun _ es t =>
  es = [.put key value metadata x t]

def putCondSpec (key value metadata : Bytes) (x : Option UInt64) (cond : WriteCondition)
    (now : UInt64) :
    Spec (Option UInt64) := fun A es r =>
  if cond.check ((A key).live now) then ∃ t, r = some t ∧ es = [.put key value metadata x t]
  else r = none ∧ es = []

def putManySpec (pairs : List (Bytes × Bytes)) : Spec (List UInt64) := fun _ es ts =>
  ts.length = pairs.length ∧ es = List.zipWith (fun (k, v) t => .put k v [] none t) pairs ts

def tombstoneSpec (key : Bytes) : Spec (Option UInt64) := fun A es r =>
  es = [.del key] ∧ (r.isSome ↔ (A key).rev.isSome)

def tombstoneCondSpec (key : Bytes) (expectedRev now : UInt64) :
    Spec (Option UInt64) := fun A es r =>
  if (A key).live now = some expectedRev then r.isSome ∧ es = [.del key] else r = none ∧ es = []

def ttlSpec (key : Bytes) (x : Option UInt64) : Spec UInt64 := fun _ es _ => es = [.ttl key x]

/-! ### What the changes of the index say -/

theorem known_put (idx : NsIndex) (key value metadata : Bytes) (x : Option UInt64)
    (fileId off size : Nat)
    (t : UInt64) (h : Option ContentHash) :
    ((idx.insert key (.new fileId off size t) x).setValsep key h).known
      = (Effect.put key value metadata x t).apply idx.known := by
  funext k
  by_cases hk : k = key
  · subst hk
    simp [NsIndex.known, Effect.apply, IndexEntry.new]
  · simp [NsIndex.known, Effect.apply, hk, Ne.symm hk]

theorem known_remove (idx : NsIndex) (key : Bytes) :
    (idx.remove key).2.known = (Effect.del key).apply idx.known := by
  funext k
  by_cases hk : k = key
  · subst hk
    simp [NsIndex.known, Effect.apply]
  · simp [NsIndex.known, Effect.apply, hk, Ne.symm hk]

theorem known_setTtl (idx : NsIndex) (key : Bytes) (x : Option UInt64) :
    (idx.setTtl key x).known = (Effect.ttl key x).apply idx.known := by
  funext k
  by_cases hk : k = key
  · subst hk
    simp [NsIndex.known, Effect.apply]
  · simp [NsIndex.known, Effect.apply, hk, Ne.symm hk]

/-- Giving references back is none of the index's business. -/
theorem index_unref? (h : Option ContentHash) (s : NsState) :
    (ValueStore.unref? h s).index = s.index :=
  congrArg Prod.fst (same_unref? (π := linView) h s)

theorem acts_commitPut {key value m : Bytes} {d : Nat} (hd : a.draws = d + 1)
    (hlock : stripeIdx P key ∈ a.locks)
    (hok : ∀ A t, a.Sees P A → R.ok i a.did A (.inl [.put key value m x t])) :
    Acts P R i a 1 (commitPut P key value m x) (a.At P (putSpec key value m x)) := by
  refine Triple.run_lift_seq (triple_nextTstamp hd) ?_
  rintro t _ rfl
  have hfail : ∀ e, Ended i a 1 (a.At P (putSpec key value m x)) (.error e)
      {(i, { a with draws := d, drawn := t :: a.drawn })} := fun e => ⟨_, rfl, rfl, hd.le, .inl rfl⟩
  refine Remains.then (.calm (calm_maybeSeparate P value)) hfail fun h => ?_
  refine Remains.then (.calm (calm_encodeOp P _ _ _)) hfail fun buf => ?_
  refine Remains.then (.at nofun) hfail fun _ => ?_
  refine Remains.then (.gets _) hfail fun f => ?_
  refine Remains.then (.calm (calm_appendOrUnref f buf _)) hfail fun off => ?_
  refine Remains.then (.calm (calm_lift (calm_countAppend f off _))) hfail fun _ => ?_
  refine triple_effect ⟨?_, ?_⟩ (fun A hA => hok A t hA) (fun s => ?_) (fun s => ?_)
    fun A _ hA => ?_
  · simp [Effect.Touches, hlock]
  · simp +contextual [Effect.revOf]
  · show (ValueStore.unref? _ _).index.known = _
    rw [index_unref?]
    exact known_put _ key value m ..
  · have := same_unref? (π := linView) (s.index.valsep key) (s.setIndex ((s.index.insert key
      (.new f.fileId off buf.length t) x).setValsep key h))
    simp only [Same, linView, Prod.mk.injEq] at this ⊢
    exact this.2
  · refine Remains.then (.calm (calm_rotateIfFull P f)) (fun e => ?_) fun _ => Triple.ret ?_
    · exact ⟨_, rfl, rfl, hd.le, .inr ⟨A, _, t, ⟨hA, rfl⟩, rfl⟩⟩
    · exact ⟨_, rfl, rfl, hd.le, A, _, ⟨hA, rfl⟩, rfl⟩

/-- Where a task stands that has just taken the stripes `L`. -/
def Standing.locked (a : Standing N) (L : Finset Nat) (V : Known) : Standing N :=
  { a with locks := L, view := V, drawn := [] }

/-- The stripe of a key. -/
abbrev Standing.on (P : Prims) (a : Standing N) (key : Bytes) (V : Known) : Standing N :=
  a.locked {stripeIdx P key} V

/-- The frame of a write: the stripes are held around the body. -/
theorem acts_guarded {n : Nat} {L : Finset Nat} {V : Known} {rs : List Resource}
    {release : NsState → NsState}
    {body : Act α} (ha : a.locks = ∅)
    (hbody : Acts P R i (a.locked L V) n body ((a.locked L V).At P S))
    (hs : ∀ s, Same (fun s => (s.index, s.lastTstamp, s.clock)) s (release s))
    (hw : ∀ s m, m ∉ L → (release s).writeStripes m = s.writeStripes m) :
    Triple (linearBy P R i) {(i, a.locked L V)} (guarded rs release body).run (Ended i a n S) := by
  refine triple_guard _ hbody ?_
  rintro r _ ⟨b, rfl, hl, hd, ht⟩
  refine ⟨b, { b with locks := ∅ }, rfl, ⟨_, rfl, ha.symm, hd, ?_⟩, fun f g s h => ?_⟩
  · have hS : Took S a.did (r.map id) b.did := ht.map id fun A es x hx => hx.2
    rwa [Except.map_id] at hS
  · refine h.release (empty_subset _) (hs s) fun m hm => hw s m fun hmem => hm ?_
    rw [sdiff_empty, hl]
    exact hmem

theorem acts_writing {n : Nat} {body : Act α} (ha : a.locks = ∅)
    (hbody : ∀ V, Acts P R i (a.on P key V) n body ((a.on P key V).At P S)) :
    Acts P R i a n (writing P key body) S := by
  have hfail : ∀ e, Ended i a n S (.error e) {(i, a)} :=
    fun e => ⟨a, rfl, rfl, Nat.le_add_right .., .inl rfl⟩
  refine Remains.then (.calm (calm_lift calm_awaitReclaim)) hfail fun _ => ?_
  refine Remains.then (.calm calm_beginWrite) hfail fun _ => ?_
  refine triple_guard (Ended i a n S) ?_ ?_
  · refine Triple.run_lift_seq (takes_lockStripe _) ?_
    rintro _ _ ⟨V, rfl⟩
    rw [ha, insert_empty_eq]
    refine acts_guarded ha (hbody V) (fun _ => rfl) fun s m hm => ?_
    exact update_of_ne (by simpa using hm) _ _
  · rintro r _ ⟨b, rfl, hb⟩
    exact ⟨b, b, rfl, ⟨b, rfl, hb⟩, fun f g s h => h.same (same_endWrite s)⟩

theorem acts_putFull {key value m : Bytes} (ha : a.locks = ∅) (hd : 1 ≤ a.draws)
    (hok : ∀ A es t, putSpec key value m x A es t → R.ok i a.did A (.inl es)) :
    Acts P R i a 1 (putFull P key value m x) (putSpec key value m x) := by
  obtain ⟨d, hd⟩ := Nat.exists_eq_add_of_le' hd
  exact acts_writing ha fun V => acts_commitPut hd (Finset.mem_singleton_self _)
    fun A t _ => hok A _ t rfl

theorem acts_putFullCond {key value m : Bytes} {cond : WriteCondition} {now : UInt64}
    (ha : a.locks = ∅) (hd : 1 ≤ a.draws)
    (hok : ∀ A es r, putCondSpec key value m x cond now A es r → R.ok i a.did A (.inl es)) :
    Acts P R i a 1 (putFullCond P key value m x cond now) (putCondSpec key value m x cond now) := by
  obtain ⟨d, hd⟩ := Nat.exists_eq_add_of_le' hd
  refine acts_writing ha fun V => ?_
  refine triple_look (F := fun A => (A key).live now) (fun s => liveRev_eq s.index key now)
    fun A₁ hA₁ => ?_
  -- what was seen is still so when the effect happens
  have hsame : ∀ A, (a.on P key V).Sees P A → A key = A₁ key := fun A hA =>
    hA.eq hA₁ (Finset.mem_singleton_self _)
  by_cases hc : cond.check ((A₁ key).live now) = true
  · simp only [hc, if_true]
    have hspec : ∀ A t, (a.on P key V).Sees P A →
        putCondSpec key value m x cond now A [.put key value m x t] (some t) := by
      intro A t hA
      rw [putCondSpec, hsame A hA, if_pos hc]
      exact ⟨t, rfl, rfl⟩
    refine (acts_commitPut (a := a.on P key V) hd (Finset.mem_singleton_self _)
      fun A t hA => hok A _ _ (hspec A t hA)).map some ?_
    rintro A _ t ⟨hA, rfl⟩
    exact ⟨hA, hspec A t hA⟩
  · simp only [hc]
    have hspec : ∀ A, (a.on P key V).Sees P A →
        putCondSpec key value m x cond now A [] none := by
      intro A hA
      rw [putCondSpec, hsame A hA, if_neg hc]
      exact ⟨rfl, rfl⟩
    refine triple_refuse (fun A hA => hok A _ _ (hspec A hA)) fun A hA => Triple.ret ?_
    exact ⟨_, rfl, rfl, Nat.le_add_right .., A, [], ⟨hA, hspec A hA⟩, rfl⟩

theorem acts_commitTombstone {d : Nat} (hd : a.draws = d + 1) (hlock : stripeIdx P key ∈ a.locks)
    (hok : ∀ A, a.Sees P A → R.ok i a.did A (.inl [.del key])) :
    Acts P R i a 1 (commitTombstone P key) (a.At P fun _ es _ => es = [.del key]) := by
  refine triple_effect ⟨?_, ?_⟩ hok (fun s => known_remove s.index key) (fun s => rfl)
    fun A old hA => ?_
  · simp [Effect.Touches, hlock]
  · simp [Effect.revOf]
  refine Triple.run_lift_seq (triple_nextTstamp hd) ?_
  rintro t _ rfl
  have hfail : ∀ e, Ended i a 1 (a.At P fun _ es _ => es = [.del key]) (.error e) {(i, { a with
      did := (A, .inl [.del key]) :: a.did
      draws := d
      view := applyAll A [.del key]
      drawn := [t] })} :=
    fun e => ⟨_, rfl, rfl, hd.le, .inr ⟨A, _, t, ⟨hA, rfl⟩, rfl⟩⟩
  refine Remains.then (.calm (calm_encodeOp P _ _ _)) hfail fun buf => ?_
  refine Remains.then (.at nofun) hfail fun _ => ?_
  refine Remains.then (.gets _) hfail fun f => ?_
  refine Remains.then (.calm (calm_append f buf)) hfail fun off => ?_
  refine Remains.then (.calm (calm_lift (calm_countAppend f off _))) hfail fun _ => ?_
  refine Remains.then (.calm (calm_lift (Prog.within_modify (same_unref? old)))) hfail
    fun _ => Triple.ret ?_
  exact ⟨_, rfl, rfl, hd.le, A, _, ⟨hA, rfl⟩, rfl⟩

theorem acts_tombstone (ha : a.locks = ∅) (hd : 1 ≤ a.draws)
    (hok : ∀ A es r, tombstoneSpec key A es r → R.ok i a.did A (.inl es)) :
    Acts P R i a 1 (tombstone P key) (tombstoneSpec key) := by
  obtain ⟨d, hd⟩ := Nat.exists_eq_add_of_le' hd
  refine acts_writing ha fun V => ?_
  refine triple_look (F := fun A => (A key).rev.isSome) (fun s => by simp [NsIndex.known])
    fun A₁ hA₁ => ?_
  have hsame : ∀ A, (a.on P key V).Sees P A → A key = A₁ key := fun A hA =>
    hA.eq hA₁ (Finset.mem_singleton_self _)
  have hspec : ∀ A r, (a.on P key V).Sees P A → (r.isSome ↔ (A₁ key).rev.isSome) →
      tombstoneSpec key A [.del key] r := by
    intro A r hA hr
    rw [tombstoneSpec, hsame A hA]
    exact ⟨rfl, hr⟩
  have hdel : ∀ A, (a.on P key V).Sees P A → R.ok i a.did A (.inl [.del key]) := fun A hA =>
    hok A _ (if (A₁ key).rev.isSome then some 0 else none) (hspec A _ hA (by split <;> simp_all))
  by_cases hp : (A₁ key).rev.isSome = true
  · simp only [hp, if_true]
    refine (acts_commitTombstone (a := a.on P key V) hd (Finset.mem_singleton_self _) hdel).map some
      ?_
    rintro A _ t ⟨hA, rfl⟩
    exact ⟨hA, hspec A _ hA (by simp [hp])⟩
  · simp only [hp]
    refine triple_effect ⟨?_, ?_⟩ hdel (fun s => known_remove s.index key) (fun s => rfl)
      fun A _ hA => Triple.ret ?_
    · simp [Effect.Touches, Standing.locked]
    · simp [Effect.revOf]
    · exact ⟨_, rfl, rfl, Nat.le_add_right .., A, _, ⟨hA, hspec A _ hA (by simp [hp])⟩, rfl⟩

theorem acts_tombstoneCond {rev now : UInt64} (ha : a.locks = ∅) (hd : 1 ≤ a.draws)
    (hok : ∀ A es r, tombstoneCondSpec key rev now A es r → R.ok i a.did A (.inl es)) :
    Acts P R i a 1 (tombstoneCond P key rev now) (tombstoneCondSpec key rev now) := by
  obtain ⟨d, hd⟩ := Nat.exists_eq_add_of_le' hd
  refine acts_writing ha fun V => ?_
  refine triple_look (F := fun A => decide ((A key).live now = some rev))
    (fun s => by rw [liveRev_eq])
    fun A₁ hA₁ => ?_
  have hsame : ∀ A, (a.on P key V).Sees P A → A key = A₁ key := fun A hA =>
    hA.eq hA₁ (Finset.mem_singleton_self _)
  by_cases hc : (A₁ key).live now = some rev
  · simp only [hc, decide_true, if_true]
    have hspec : ∀ A t, (a.on P key V).Sees P A →
        tombstoneCondSpec key rev now A [.del key] (some t) := by
      intro A t hA
      rw [tombstoneCondSpec, hsame A hA, if_pos hc]
      exact ⟨rfl, rfl⟩
    refine (acts_commitTombstone (a := a.on P key V) hd (Finset.mem_singleton_self _)
      fun A hA => hok A _ _ (hspec A 0 hA)).map some ?_
    rintro A _ t ⟨hA, rfl⟩
    exact ⟨hA, hspec A t hA⟩
  · simp only [hc, decide_false]
    have hspec : ∀ A, (a.on P key V).Sees P A →
        tombstoneCondSpec key rev now A [] none := by
      intro A hA
      rw [tombstoneCondSpec, hsame A hA, if_neg hc]
      exact ⟨rfl, rfl⟩
    refine triple_refuse (fun A hA => hok A _ _ (hspec A hA)) fun A hA => Triple.ret ?_
    exact ⟨_, rfl, rfl, Nat.le_add_right .., A, [], ⟨hA, hspec A hA⟩, rfl⟩

theorem acts_ttlUpdate (ha : a.locks = ∅) (hd : 1 ≤ a.draws)
    (hok : ∀ A es t, ttlSpec key x A es t → R.ok i a.did A (.inl es)) :
    Acts P R i a 1 (ttlUpdate P key x) (ttlSpec key x) := by
  obtain ⟨d, hd⟩ := Nat.exists_eq_add_of_le' hd
  refine acts_writing ha fun V => ?_
  refine Triple.run_lift_seq (triple_nextTstamp (a := a.on P key V) hd) ?_
  rintro t _ rfl
  have hfail : ∀ e, Ended i (a.on P key V) 1 ((a.on P key V).At P (ttlSpec key x))
      (.error e) {(i, { a.on P key V with draws := d, drawn := [t] })} :=
    fun e => ⟨_, rfl, rfl, hd.le, .inl rfl⟩
  refine Remains.then (.calm (calm_encodeOp P _ _ _)) hfail fun buf => ?_
  refine Remains.then (.at nofun) hfail fun _ => ?_
  refine Remains.then (.gets _) hfail fun f => ?_
  refine Remains.then (.calm (calm_append f buf)) hfail fun off => ?_
  refine Remains.then (.calm (calm_lift (calm_countAppend f off _))) hfail fun _ => ?_
  refine triple_effect ⟨?_, ?_⟩ (fun A _ => hok A _ t rfl)
    (fun s => known_setTtl s.index key x) (fun s => rfl) fun A _ hA => Triple.ret ?_
  · simp [Effect.Touches, Standing.locked]
  · simp [Effect.revOf]
  · exact ⟨_, rfl, rfl, hd.le, A, _, ⟨hA, rfl⟩, rfl⟩

/-! ### Batches -/

theorem Linear.forget {f : Multiset (ι × Standing N)} {g : List (ι × (Point ⊕ N))} {s : NsState}
    (h : Linear P R ({(i, a)} + f) g s) (V : Known) :
    Linear P R ({(i, a.locked ∅ V)} + f) g s :=
  h.own rfl rfl nofun (fun x hx => h.locked x (mem_others hx))
    (fun _ _ => disjoint_empty_left _) (fun _ hk => absurd hk (notMem_empty _))
    fun hr => (h.stamped hr).own rfl rfl rfl nofun

theorem takes_lockStripes (ns : List Nat) (L : Finset Nat) (V : Known) :
    Triple (linearBy P R i) {(i, a.locked L V)} (lockStripes ns) fun _ own =>
      ∃ V', own = {(i, a.locked (ns.toFinset ∪ L) V')} := by
  induction ns generalizing L V with
  | nil => exact Triple.ret ⟨V, by simp⟩
  | cons n ns ih =>
    refine Triple.seq (takes_lockStripe n) ?_
    rintro _ _ ⟨V', rfl⟩
    refine Triple.conseq (ih (insert n L) V') ?_
    rintro _ _ ⟨V'', rfl⟩
    exact ⟨V'', by simp⟩

theorem triple_encodeBatch (pairs : List (Bytes × Bytes)) (buf : Bytes)
    (hd : pairs.length ≤ a.draws) :
    Triple (linearBy P R i) {(i, a)} (encodeBatch P pairs buf).run fun r own =>
      ∃ d ts, own = {(i, { a with draws := d, drawn := ts })} ∧ a.draws ≤ d + pairs.length
        ∧ a.drawn ⊆ ts
        ∧ ∀ out items, r = .ok (out, items) →
          items.map BatchItem.key = pairs.map Prod.fst ∧ ∀ it ∈ items, it.tstamp ∈ ts := by
  induction pairs generalizing a buf with
  | nil =>
    refine Triple.ret ⟨a.draws, a.drawn, rfl, Nat.le_add_right .., List.Subset.refl _, ?_⟩
    rintro _ _ ⟨⟩
    exact ⟨rfl, nofun⟩
  | cons pair pairs ih =>
    obtain ⟨d, hd⟩ := Nat.exists_eq_add_of_le' hd
    refine Triple.run_lift_seq (triple_nextTstamp (d := d + pairs.length) (by rw [hd]; rfl)) ?_
    rintro t _ rfl
    have hfail : ∀ e :
      EngineError, ∃ d' ts, ({(i, { a with draws := d + pairs.length, drawn := t :: a.drawn })} :
        Multiset _) = {(i, { a with draws := d', drawn := ts })}
          ∧ a.draws ≤ d' + (pair :: pairs).length ∧ a.drawn ⊆ ts
        ∧ ∀ out items, (.error e : Except EngineError (Bytes × List BatchItem)) = .ok (out, items) →
          items.map BatchItem.key = (pair :: pairs).map Prod.fst ∧ ∀ it ∈ items, it.tstamp ∈ ts :=
      fun e => ⟨_, _, rfl, by simp only [length_cons] at hd ⊢; omega, subset_cons_self .., nofun⟩
    refine Remains.then (.calm (calm_maybeSeparate P pair.2)) hfail fun h => ?_
    refine Remains.then (.calm (calm_encodeOp P _ _ _)) hfail fun buf' => ?_
    refine Triple.run_seq (ih buf' (Nat.le_add_left ..)) ?_ ?_
    · rintro ⟨out, items⟩ _ ⟨d', ts, rfl, hd', hsub, hitems⟩
      refine Triple.ret ⟨d', ts, rfl, ?_, fun r hr => hsub (List.mem_cons_of_mem _ hr), ?_⟩
      · simp only [length_cons] at hd' hd ⊢
        omega
      · rintro _ _ ⟨⟩
        obtain ⟨hkeys, hts⟩ := hitems out items rfl
        refine ⟨by simp [hkeys], fun it hit => ?_⟩
        rcases List.mem_cons.mp hit with rfl | hit
        · exact hsub (List.mem_cons_self ..)
        · exact hts it hit
    · rintro e _ ⟨d', ts, rfl, hd', hsub, -⟩
      refine ⟨d', ts, rfl, ?_, fun r hr => hsub (List.mem_cons_of_mem _ hr), nofun⟩
      simp only [length_cons] at hd' hd ⊢
      omega

theorem known_insertItems {fileId base : Nat} {items : List BatchItem}
    (hkeys : items.map BatchItem.key = pairs.map Prod.fst) (idx : NsIndex)
    (old : List ContentHash) :
    (items.foldl (insertItem fileId base) (idx, old)).1.known
    = applyAll idx.known (batchEffects pairs items) := by
  induction items generalizing pairs idx old with
  | nil =>
    cases pairs with
    | nil => rfl
    | cons _ _ => cases hkeys
  | cons it items ih =>
    cases pairs with
    | nil => cases hkeys
    | cons pair pairs =>
      obtain ⟨hkey, hkeys⟩ := cons_eq_cons.mp hkeys
      refine (ih hkeys _ _).trans ?_
      show applyAll ((idx.insert it.key _ none).setValsep it.key it.sepHash).known _ = _
      rw [known_put _ it.key pair.2 [], hkey]
      rfl

theorem view_commitBatch (fileId base : Nat) (items : List BatchItem) (s : NsState) :
    linView (commitBatch fileId base items s)
      = linView (s.setIndex (items.foldl (insertItem fileId base) (s.index, [])).1) :=
  same_unrefs (π := linView) _ _

theorem mem_batchStripes {k : Bytes} (hk : k ∈ pairs.map Prod.fst) :
    stripeIdx P k ∈ (batchStripes P pairs).toFinset := by
  rw [batchStripes, mem_toFinset, mem_dedup, mem_insertionSort]
  obtain ⟨pair, hp, rfl⟩ := List.mem_map.mp hk
  exact List.mem_map_of_mem (f := fun pair : Bytes × Bytes => stripeIdx P pair.1) hp

theorem batchEffects_eq (pairs : List (Bytes × Bytes)) (items : List BatchItem) :
    batchEffects pairs items
      = List.zipWith (fun (k, v) t => .put k v [] none t) pairs (items.map BatchItem.tstamp) := by
  rw [zipWith_map_right]
  rfl

/-- A batch's effect is a put for each pair, with the revision of its item. -/
theorem mem_batchEffects {items : List BatchItem} {e : Effect}
    (he : e ∈ batchEffects pairs items) : ∃ k v it, (k, v) ∈ pairs ∧ it ∈ items
    ∧ e = .put k v [] none it.tstamp := by
  induction pairs generalizing items with
  | nil => cases he
  | cons pair pairs ih =>
    cases items with
    | nil => cases he
    | cons it items =>
      rcases List.mem_cons.mp he with rfl | he
      · exact ⟨pair.1, pair.2, it, List.mem_cons_self .., List.mem_cons_self .., rfl⟩
      · obtain ⟨k, v, it', hp, hit, rfl⟩ := ih he
        exact ⟨k, v, it', List.mem_cons_of_mem _ hp, List.mem_cons_of_mem _ hit, rfl⟩

theorem unlockStripes_other {ns : List Nat} {m : Nat} (hm : m ∉ ns) (s : NsState) :
    (unlockStripes ns s).writeStripes m = s.writeStripes m := by
  induction ns generalizing s with
  | nil => rfl
  | cons n ns ih =>
    rw [List.mem_cons, not_or] at hm
    exact (ih hm.2 _).trans (update_of_ne hm.1 _ _)

theorem same_unlockStripes_index (ns : List Nat) (s : NsState) :
    Same (fun s => (s.index, s.lastTstamp, s.clock)) s (unlockStripes ns s) := by
  induction ns generalizing s with
  | nil => rfl
  | cons n ns ih => exact (ih (unlockStripe n s)).trans rfl

/-- The body of `put_many`, under its stripes. -/
theorem acts_commitMany {V : Known} (hd : pairs.length ≤ a.draws)
    (hok : ∀ A es ts, putManySpec pairs A es ts → R.ok i a.did A (.inl es)) :
    Acts P R i (a.locked (batchStripes P pairs).toFinset V) pairs.length (do
      let (buf, items) ← encodeBatch P pairs []
      lift (Prog.at_ .reserve)
      let active ← lift (Prog.gets NsState.active)
      let base ← appendOrUnref active buf (items.filterMap BatchItem.sepHash)
      lift (countAppend active base buf.length)
      lift (Prog.at_ (.effect (batchEffects pairs items)))
      lift (Prog.modify (commitBatch active.fileId base items))
      rotateIfFull P active
      return items.map BatchItem.tstamp)
      ((a.locked (batchStripes P pairs).toFinset V).At P (putManySpec pairs)) := by
  refine Triple.run_seq
    (triple_encodeBatch (a := a.locked (batchStripes P pairs).toFinset V) pairs [] hd) ?_ ?_
  swap
  · rintro e _ ⟨d, ts, rfl, hleft, -, -⟩
    exact ⟨_, rfl, rfl, hleft, .inl rfl⟩
  rintro ⟨buf, items⟩ _ ⟨d, ts, rfl, hleft, -, hitems⟩
  obtain ⟨hkeys, hts⟩ := hitems buf items rfl
  have hspec : ∀ A, putManySpec pairs A (batchEffects pairs items) (items.map BatchItem.tstamp) :=
    fun A =>
    ⟨by simpa using congrArg List.length hkeys, batchEffects_eq pairs items⟩
  have hfail : ∀ e, Ended i (a.locked (batchStripes P pairs).toFinset V) pairs.length
      ((a.locked (batchStripes P pairs).toFinset V).At P (putManySpec pairs)) (.error e)
      {(i, { a.locked (batchStripes P pairs).toFinset V with draws := d, drawn := ts })} :=
    fun e => ⟨_, rfl, rfl, hleft, .inl rfl⟩
  refine Remains.then (.at nofun) hfail fun _ => ?_
  refine Remains.then (.gets _) hfail fun f => ?_
  refine Remains.then (.calm (calm_appendOrUnref f buf _)) hfail fun off => ?_
  refine Remains.then (.calm (calm_lift (calm_countAppend f off _))) hfail fun _ => ?_
  refine triple_effect ⟨fun e he k hk => ?_, fun e he k t ht => ?_⟩
    (fun A _ => hok A _ _ (hspec A)) (fun s => ?_) (fun s => ?_) fun A _ hA => ?_
  · obtain ⟨k', v, it, hp, -, rfl⟩ := mem_batchEffects he
    cases hk
    exact mem_batchStripes (List.mem_map_of_mem hp)
  · obtain ⟨k', v, it, -, hit, rfl⟩ := mem_batchEffects he
    rw [Effect.revOf, Option.ite_none_right_eq_some] at ht
    obtain ⟨-, ⟨⟩⟩ := ht
    exact hts it hit
  · have hv := congrArg Prod.fst (view_commitBatch f.fileId off items s)
    exact (congrArg NsIndex.known hv).trans (known_insertItems hkeys s.index [])
  · exact congrArg Prod.snd (view_commitBatch f.fileId off items s)
  · refine Remains.then (.calm (calm_rotateIfFull P f)) (fun e => ?_) fun _ => Triple.ret ?_
    · exact ⟨_, rfl, rfl, hleft, .inr ⟨A, _, _, ⟨hA, hspec A⟩, rfl⟩⟩
    · exact ⟨_, rfl, rfl, hleft, A, _, ⟨hA, hspec A⟩, rfl⟩

theorem acts_putMany (ha : a.locks = ∅) (hd : pairs.length ≤ a.draws)
    (hok : ∀ A es ts, putManySpec pairs A es ts → R.ok i a.did A (.inl es)) :
    Acts P R i a pairs.length (putMany P pairs) (putManySpec pairs) := by
  have hfail : ∀ e, Ended i a pairs.length (putManySpec pairs) (.error e) {(i, a)} := fun e =>
    ⟨a, rfl, rfl, Nat.le_add_right .., .inl rfl⟩
  refine Remains.then (.calm (calm_lift calm_awaitReclaim)) hfail fun _ => ?_
  refine Remains.then (.calm calm_beginWrite) hfail fun _ => ?_
  refine triple_guard (Ended i a pairs.length (putManySpec pairs)) ?_ ?_
  swap
  · rintro r _ ⟨b, rfl, hb⟩
    exact ⟨b, b, rfl, ⟨b, rfl, hb⟩, fun f g s h => h.same (same_endWrite s)⟩
  by_cases hempty : pairs.isEmpty = true
  · simp only [hempty, if_true]
    obtain rfl := List.isEmpty_iff.mp hempty
    refine triple_refuse (fun A _ => hok A [] [] ⟨rfl, rfl⟩) fun A hA => Triple.ret ?_
    exact ⟨_, rfl, rfl, le_rfl, A, [], ⟨rfl, rfl⟩, rfl⟩
  · simp only [hempty]
    suffices hlocked :
      Triple (linearBy P R i) {(i, a.locked ∅ a.view)} _
      (Ended i a pairs.length (putManySpec pairs))
      from fun f g s h => hlocked f g s (h.forget a.view)
    refine Triple.run_lift_seq (takes_lockStripes _ ∅ a.view) ?_
    rintro _ _ ⟨V, rfl⟩
    rw [union_empty]
    exact acts_guarded ha (acts_commitMany hd hok) (same_unlockStripes_index _)
      fun s m hm => unlockStripes_other (by simpa using hm) s

end rules

end BeyondKv
