/-
# Programs that decide

Some programs look first and act later: up to a decision they change nothing that counts,
then they go ahead or they give up. One that goes ahead sets only marks of `N` from then on;
one that gives up keeps `R` to its end. So if one turn of such a program broke `R`, it will
never set a mark outside `N` (`Runs.decided`).
-/
import BeyondKv.Lib.Interleave

namespace Async

section tentative
variable {σ L : Type} (N : L → Prop) (R : σ → σ → Prop)

/-- The program sets only marks of `N`. -/
abbrev Prog.Marks {α : Type} (p : Prog σ L α) : Prop := p.Within N (fun _ => True) fun _ _ => True

/-- Every step of the program keeps `R`. -/
abbrev Prog.Keeps {α : Type} (p : Prog σ L α) : Prop := p.Within (fun _ => True) (fun _ => True) R

def Prog.Tentative : {α : Type} → Prog σ L α → Prop
  | _, .ret _ => True
  | _, .eff e k => ∀ s, (R s (e s).2 ∧ (k (e s).1).Tentative) ∨ (k (e s).1).Marks N
  | _, .mark l k => (N l ∧ k.Tentative) ∨ k.Keeps R
  | _, .await _ k => k.Tentative
  | _, .join n ps k =>
    ((∀ i, (ps i).Marks N ∧ (ps i).Keeps R) ∧ ∀ bs, (k bs).Tentative)
      ∨ (Prog.join n ps k).Marks N ∨ (Prog.join n ps k).Keeps R

variable {N R} {α β : Type} {W : (σ → Bool) → Prop}

theorem Prog.Marks.tentative {p : Prog σ L α} (h : p.Marks N) : p.Tentative N R := by
  induction p with
  | ret a => trivial
  | eff e k ih => exact fun s => .inr (h s).2
  | mark l k ih => exact .inl ⟨h.1, ih h.2⟩
  | await r k ih => exact ih h.2
  | join n ps k ihp ihk => exact .inr (.inl h)

/-- Before the decision. -/
theorem Prog.Tentative.after {p : Prog σ L α} {f : α → Prog σ L β} (hm : p.Marks N) (hk : p.Keeps R)
    (hf : ∀ a, (f a).Tentative N R) : (p >>= f).Tentative N R := by
  change (p.bind f).Tentative N R
  induction p with
  | ret a => exact hf a
  | eff e k ih => exact fun s => .inl ⟨(hk s).1, ih _ (hm s).2 (hk s).2 hf⟩
  | mark l k ih => exact .inl ⟨hm.1, ih hm.2 hk.2 hf⟩
  | await r k ih => exact ih hm.2 hk.2 hf
  | join n ps k ihp ihk =>
    exact .inl ⟨fun i => ⟨hm.1 i, hk.1 i⟩, fun bs => ihk bs (hm.2 bs) (hk.2 bs) hf⟩

/-- After the decision. -/
theorem Prog.Tentative.seq {p : Prog σ L α} {f : α → Prog σ L β} (hp : p.Tentative N R)
    (hm : ∀ a, (f a).Marks N) (hk : ∀ a, (f a).Keeps R) : (p >>= f).Tentative N R := by
  change (p.bind f).Tentative N R
  induction p with
  | ret a => exact (hm a).tentative
  | eff e k ih =>
    intro s
    rcases hp s with ⟨hr, hp⟩ | hp
    · exact .inl ⟨hr, ih _ hp hm hk⟩
    · exact .inr (hp.bind hm)
  | mark l k ih =>
    rcases hp with ⟨hl, hp⟩ | hp
    · exact .inl ⟨hl, ih hp hm hk⟩
    · exact .inr (hp.bind hk)
  | await r k ih => exact ih hp hm hk
  | join n ps k ihp ihk =>
    rcases hp with ⟨hps, hp⟩ | hp | hp
    · exact .inl ⟨hps, fun bs => ihk bs (hp bs) hm hk⟩
    · exact .inr (.inl ⟨hp.1, fun bs => (hp.2 bs).bind hm⟩)
    · exact .inr (.inr ⟨hp.1, fun bs => (hp.2 bs).bind hk⟩)

theorem Prog.within_any (hN : ∀ l, N l) (hW : ∀ r, W r) (hR : ∀ s s', R s s')
    (p : Prog σ L α) : p.Within N W R := by
  induction p with
  | ret a => trivial
  | eff e k ih => exact fun s => ⟨hR _ _, ih _⟩
  | mark l k ih => exact ⟨hN l, ih⟩
  | await r k ih => exact ⟨hW r, ih⟩
  | join n ps k ihp ihk => exact ⟨ihp, ihk⟩

theorem Prog.Within.marks {p : Prog σ L α} (h : p.Within N W R) : p.Marks N :=
  h.mono (fun _ h => h) (fun _ _ => trivial) fun _ _ _ => trivial

theorem Prog.Within.keeps {p : Prog σ L α} (h : p.Within N W R) : p.Keeps R :=
  h.mono (fun _ _ => trivial) (fun _ _ => trivial) fun _ _ h => h

section results
variable {ε : Type} {p : ExceptT ε (Prog σ L) α} {f : α → ExceptT ε (Prog σ L) β}

theorem Prog.Tentative.run_after {W : (σ → Bool) → Prop} (hp : p.run.Within N W R)
    (hf : ∀ a, (f a).run.Tentative N R) : (p >>= f).run.Tentative N R :=
  Prog.Tentative.after hp.marks hp.keeps fun r => by
    cases r with
    | ok a => exact hf a
    | error e => trivial

theorem Prog.Tentative.run_seq {W : (σ → Bool) → Prop} (hp : p.run.Tentative N R)
    (hf : ∀ a, (f a).run.Within N W R) : (p >>= f).run.Tentative N R := by
  have hrest : ∀ r : Except ε α, (ExceptT.bindCont f r).Within N W R := by
    intro r
    cases r with
    | ok a => exact hf a
    | error e => trivial
  exact Prog.Tentative.seq hp (fun r => (hrest r).marks) fun r => (hrest r).keeps

end results

theorem Prog.within_relabel {M : Type} {n : L → M} {N : M → Prop} {p : Prog σ L α}
    (h : p.Within (fun l => N (n l)) W R) : (p.relabel n).Within N W R := by
  induction p with
  | ret a => trivial
  | eff e k ih => exact fun s => ⟨(h s).1, ih _ (h s).2⟩
  | mark l k ih => exact ⟨h.1, ih h.2⟩
  | await r k ih => exact ⟨h.1, ih h.2⟩
  | join m ps k ihp ihk => exact ⟨fun i => ihp i (h.1 i), fun bs => ihk bs (h.2 bs)⟩

theorem Prog.Tentative.relabel {M : Type} {n : L → M} {N : M → Prop} {p : Prog σ L α}
    (h : p.Tentative (fun l => N (n l)) R) : (p.relabel n).Tentative N R := by
  induction p with
  | ret a => trivial
  | eff e k ih => exact fun s => (h s).imp (fun h => ⟨h.1, ih _ h.2⟩) Prog.within_relabel
  | mark l k ih => exact h.imp (fun h => ⟨h.1, ih h.2⟩) Prog.within_relabel
  | await r k ih => exact ih h
  | join m ps k ihp ihk =>
    rcases h with ⟨hps, hk⟩ | h | h
    · exact .inl ⟨fun i => ⟨Prog.within_relabel (hps i).1, Prog.within_relabel (hps i).2⟩,
        fun bs => ihk bs (hk bs)⟩
    · exact .inr (.inl (Prog.within_relabel (p := .join m ps k) h))
    · exact .inr (.inr (Prog.within_relabel (p := .join m ps k) h))

end tentative

/-! ## Turns -/

section turns
variable {σ L G : Type} {D : Discipline σ L G} {N : L → Prop} {R : σ → σ → Prop} {α β : Type}
  {Φ : G → Prop} {W : (σ → Bool) → Prop}

/-- The marks of `N` keep `Φ`. -/
abbrev Minds (D : Discipline σ L G) (N : L → Prop) (Φ : G → Prop) : Prop :=
  ∀ l s g, N l → Φ g → Φ (D.note l s g)

theorem Prog.Within.advance_prog {p : Prog σ L α} (h : p.Within N W R)
    (hW : W fun _ => true) (g : G) (s : σ) : (advance D p g s).1.Within N W R := by
  induction p generalizing g s with
  | ret a => trivial
  | eff e k ih => exact ih _ (h s).2 g (e s).2
  | mark l k ih => exact ih h.2 _ s
  | await r k ih => exact h
  | join n ps k ihp ihk => exact ⟨fun i => ⟨hW, h.1 i⟩, h.2⟩

theorem Prog.Within.advance_ghost {p : Prog σ L α} (h : p.Within N W R) (hD : Minds D N Φ)
    (g : G) (s : σ)
    (hg : Φ g) : Φ (advance D p g s).2.1 := by
  induction p generalizing g s with
  | ret a => exact hg
  | eff e k ih => exact ih _ (h s).2 g (e s).2 hg
  | mark l k ih => exact ih h.2 _ s (hD l s g h.1 hg)
  | await r k ih => exact hg
  | join n ps k ihp ihk => exact hg

theorem Turn.within {p p' : Prog σ L α} {g g' : G} {s s' : σ}
    (h : Turn D p g s p' g' s') (hp : p.Within N W R) (hW : W fun _ => true) : p'.Within N W R := by
  induction h with
  | wake _ _ => exact hp.2.advance_prog hW _ _
  | @member α β n ps k g g' s s' i p _ ih =>
    refine ⟨fun j => ?_, hp.2⟩
    by_cases hj : j = i
    · subst hj
      rw [Function.update_self]
      exact ih (hp.1 j)
    · rw [Function.update_of_ne hj]
      exact hp.1 j
  | joined _ _ => exact (hp.2 _).advance_prog hW _ _

theorem Turn.minds {p p' : Prog σ L α} {g g' : G} {s s' : σ}
    (h : Turn D p g s p' g' s') (hp : p.Within N W R) (hD : Minds D N Φ) (hg : Φ g) : Φ g' := by
  induction h with
  | wake _ _ => exact hp.2.advance_ghost hD _ _ hg
  | member _ ih => exact ih (hp.1 _) hg
  | joined _ _ => exact (hp.2 _).advance_ghost hD _ _ hg

variable (hrefl : ∀ s, R s s) (htrans : ∀ {s s' s''}, R s s' → R s' s'' → R s s'')
include hrefl htrans

theorem Prog.Within.advance_state {p : Prog σ L α} (h : p.Within N W R) (g : G) (s : σ) :
    R s (advance D p g s).2.2 := by
  induction p generalizing g s with
  | ret a => exact hrefl s
  | eff e k ih => exact htrans (h s).1 (ih _ (h s).2 g (e s).2)
  | mark l k ih => exact ih h.2 _ s
  | await r k ih => exact hrefl s
  | join n ps k ihp ihk => exact hrefl s

theorem Turn.keeps {p p' : Prog σ L α} {g g' : G} {s s' : σ}
    (h : Turn D p g s p' g' s') (hp : p.Within N W R) : R s s' := by
  induction h with
  | wake _ _ => exact hp.2.advance_state hrefl htrans _ _
  | member _ ih => exact ih (hp.1 _)
  | joined _ _ => exact (hp.2 _).advance_state hrefl htrans _ _

/-- What a turn that started undecided comes to: it is undecided still, or it goes ahead, or it
has given up. -/
def Resolves (N : L → Prop) (R : σ → σ → Prop) (Φ : G → Prop) (g : G) (s : σ)
    (p' : Prog σ L α) (g' : G)
    (s' : σ) : Prop :=
  (R s s' ∧ p'.Tentative N R ∧ (Φ g → Φ g')) ∨ (p'.Marks N ∧ (Φ g → Φ g')) ∨ (R s s' ∧ p'.Keeps R)

theorem Prog.Tentative.advance_resolves {p : Prog σ L α} (h : p.Tentative N R) (hD : Minds D N Φ)
    (g : G) (s : σ) :
    Resolves N R Φ g s (advance D p g s).1 (advance D p g s).2.1 (advance D p g s).2.2 := by
  induction p generalizing g s with
  | ret a => exact .inl ⟨hrefl s, trivial, id⟩
  | eff e k ih =>
    rcases h s with ⟨hr, h⟩ | h
    · exact (ih _ h g (e s).2).imp (fun h => ⟨htrans hr h.1, h.2⟩)
        (Or.imp_right fun h => ⟨htrans hr h.1, h.2⟩)
    · exact .inr (.inl ⟨h.advance_prog trivial _ _, h.advance_ghost hD _ _⟩)
  | mark l k ih =>
    rcases h with ⟨hl, h⟩ | h
    · exact (ih h _ s).imp (fun h => ⟨h.1, h.2.1, fun hg => h.2.2 (hD l s g hl hg)⟩)
        (Or.imp_left fun h => ⟨h.1, fun hg => h.2 (hD l s g hl hg)⟩)
    · exact .inr (.inr ⟨h.advance_state hrefl htrans _ s, h.advance_prog trivial _ _⟩)
  | await r k ih => exact .inl ⟨hrefl s, h, id⟩
  | join n ps k ihp ihk =>
    rcases h with ⟨hps, hk⟩ | h | h
    · exact .inl ⟨hrefl s, .inl ⟨fun i => ⟨⟨trivial, (hps i).1⟩, trivial, (hps i).2⟩, hk⟩, id⟩
    · exact .inr (.inl ⟨⟨fun i => ⟨trivial, h.1 i⟩, h.2⟩, id⟩)
    · exact .inr (.inr ⟨hrefl s, ⟨fun i => ⟨trivial, h.1 i⟩, h.2⟩⟩)

theorem Turn.tentative {p p' : Prog σ L α} {g g' : G} {s s' : σ} (h : Turn D p g s p' g' s')
    (hp : p.Tentative N R) (hD : Minds D N Φ) : Resolves N R Φ g s p' g' s' := by
  cases h with
  | @wake _ r k _ _ _ _ => exact Prog.Tentative.advance_resolves (p := k) hrefl htrans hp hD _ _
  | @member α β n ps k g g' s s' i p ht =>
    rcases hp with ⟨hps, hk⟩ | hp | hp
    · -- the members have nothing to decide
      refine .inl ⟨ht.keeps hrefl htrans (hps i).2, .inl ⟨fun j => ?_, hk⟩, ht.minds (hps i).1 hD⟩
      by_cases hj : j = i
      · subst hj
        rw [Function.update_self]
        exact ⟨ht.within (hps j).1 trivial, ht.within (hps j).2 trivial⟩
      · rw [Function.update_of_ne hj]
        exact hps j
    · exact .inr (.inl ⟨Turn.within (.member ht) hp trivial, Turn.minds (.member ht) hp hD⟩)
    · exact .inr
        (.inr ⟨Turn.keeps hrefl htrans (.member ht) hp, Turn.within (.member ht) hp trivial⟩)
  | @joined α β n ps k g s bs hbs hm =>
    rcases hp with ⟨hps, hk⟩ | hp | hp
    · exact Prog.Tentative.advance_resolves hrefl htrans (hk _) hD _ _
    · exact .inr (.inl ⟨(hp.2 bs).advance_prog trivial _ _, (hp.2 bs).advance_ghost hD _ _⟩)
    · exact .inr
        (.inr ⟨(hp.2 bs).advance_state hrefl htrans _ _, (hp.2 bs).advance_prog trivial _ _⟩)

end turns

/-! ## Runs -/

section runs
variable {σ L G : Type} {D : Discipline σ L G} {w₀ w w₁ w₂ : Pool σ L G} {i : Nat}

/-- The task `i` takes a turn. -/
def Pool.Turns (D : Discipline σ L G) (i : Nat) (w w' : Pool σ L G) : Prop :=
  ∃ p p', w.tasks[i]? = some p ∧ w'.tasks = w.tasks.set i p'
    ∧ Turn D p w.ghost w.state p' w'.ghost w'.state

/-- A property that every turn keeps holds to the end of a run. -/
theorem Runs.keeps {Ψ : Pool σ L G → Prop} (h : Runs D w₀ w) (h₀ : Ψ w₀)
    (hturn : ∀ i w w', Ψ w → w.Turns D i w' → Ψ w') : Ψ w := by
  induction h with
  | start => exact h₀
  | @turn before after p p' g g' s s' _ ht ih =>
    refine hturn before.length _ _ ih ⟨p, p', ?_, ?_, ht⟩
    · simp
    · simp

variable {N K : L → Prop} {R : σ → σ → Prop} {Φ : G → Prop}

/-- A task that went ahead goes on, among others that do not disturb `Φ`. -/
def Pool.Ahead (N K : L → Prop) (Φ : G → Prop) (i : Nat) (w : Pool σ L G) : Prop :=
  (∀ j p, j ≠ i → w.tasks[j]? = some p → p.Marks K) ∧ Φ w.ghost
    ∧ ∃ p, w.tasks[i]? = some p ∧ p.Marks N

theorem others_turn {w' : Pool σ L G} {j : Nat} (ht : w.Turns D j w')
    (h : ∀ j p, j ≠ i → w.tasks[j]? = some p → p.Marks K) :
    ∀ j p, j ≠ i → w'.tasks[j]? = some p → p.Marks K := by
  obtain ⟨q, q', hq, hset, ht⟩ := ht
  intro m p hm hp
  rw [hset, List.getElem?_set] at hp
  split at hp
  · rename_i heq
    subst heq
    split at hp
    · cases hp
      exact ht.within (h _ _ hm hq) trivial
    · cases hp
  · exact h m p hm hp

theorem Pool.Ahead.turn {w' : Pool σ L G} {j : Nat} (hN : Minds D N Φ) (hK : Minds D K Φ)
    (h : w.Ahead N K Φ i) (ht : w.Turns D j w') : w'.Ahead N K Φ i := by
  obtain ⟨hothers, hΦ, p, hp, hm⟩ := h
  refine ⟨others_turn ht hothers, ?_⟩
  obtain ⟨q, q', hq, hset, ht⟩ := ht
  by_cases hj : j = i
  · subst hj
    cases hp.symm.trans hq
    refine ⟨ht.minds hm hN hΦ, q', ?_, ht.within hm trivial⟩
    rw [hset, List.getElem?_set_self (List.getElem?_eq_some_iff.mp hq).1]
  · refine ⟨ht.minds (hothers j q hj hq) hK hΦ, p, ?_, hm⟩
    rw [hset, List.getElem?_set_ne hj]
    exact hp

/-- Where an undecided task stands in the end, among others that do not disturb `Φ`. -/
def Pool.Pending (N K : L → Prop) (R : σ → σ → Prop) (Φ : G → Prop) (i : Nat) (w : Pool σ L G) :
    Prop :=
  (∀ j p, j ≠ i → w.tasks[j]? = some p → p.Marks K)
    ∧ ∃ p, w.tasks[i]? = some p
    ∧ ((Φ w.ghost ∧ p.Tentative N R) ∨ (Φ w.ghost ∧ p.Marks N) ∨ p.Keeps R)

variable (hrefl : ∀ s, R s s) (htrans : ∀ {s s' s''}, R s s' → R s' s'' → R s s'')
include hrefl htrans

theorem Pool.Pending.turn {w' : Pool σ L G} {j : Nat} (hN : Minds D N Φ) (hK : Minds D K Φ)
    (h : w.Pending N K R Φ i) (ht : w.Turns D j w') : w'.Pending N K R Φ i := by
  obtain ⟨hothers, p, hp, hst⟩ := h
  refine ⟨others_turn ht hothers, ?_⟩
  obtain ⟨q, q', hq, hset, ht⟩ := ht
  by_cases hj : j = i
  · subst hj
    cases hp.symm.trans hq
    refine ⟨q', by rw [hset, List.getElem?_set_self (List.getElem?_eq_some_iff.mp hq).1], ?_⟩
    rcases hst with ⟨hΦ, ht'⟩ | ⟨hΦ, hm⟩ | hk
    · exact (ht.tentative hrefl htrans ht' hN).imp (fun h => ⟨h.2.2 hΦ, h.2.1⟩)
        (Or.imp (fun h => ⟨h.2 hΦ, h.1⟩) fun h => h.2)
    · exact .inr (.inl ⟨ht.minds hm hN hΦ, ht.within hm trivial⟩)
    · exact .inr (.inr (ht.within hk trivial))
  · have hminds := ht.minds (hothers j q hj hq) hK
    refine ⟨p, by rw [hset, List.getElem?_set_ne hj]; exact hp, ?_⟩
    exact hst.imp (And.imp_left hminds) (Or.imp_left (And.imp_left hminds))

/-- A turn that broke `R` was one of a task that had gone ahead. -/
theorem Pool.Pending.ahead (hN : Minds D N Φ) (h : w.Pending N K R Φ i) (ht : w.Turns D i w₁)
    (hR : ¬ R w.state w₁.state) : w₁.Ahead N K Φ i := by
  obtain ⟨hothers, p, hp, hst⟩ := h
  have hothers' := others_turn ht hothers
  obtain ⟨q, q', hq, hset, ht⟩ := ht
  cases hp.symm.trans hq
  have hq' : w₁.tasks[i]? = some q' :=
    by rw [hset, List.getElem?_set_self (List.getElem?_eq_some_iff.mp hq).1]
  rcases hst with ⟨hΦ, ht'⟩ | ⟨hΦ, hm⟩ | hk
  · rcases ht.tentative hrefl htrans ht' hN with h | h | h
    · exact absurd h.1 hR
    · exact ⟨hothers', h.2 hΦ, q', hq', h.1⟩
    · exact absurd h.1 hR
  · exact ⟨hothers', ht.minds hm hN hΦ, q', hq', ht.within hm trivial⟩
  · exact absurd (ht.keeps hrefl htrans hk) hR

/-- If one turn of a task that decides broke `R`, it has gone ahead: `Φ` holds ever after. -/
theorem Runs.decided (hN : Minds D N Φ) (hK : Minds D K Φ) (h₀ : w₀.Pending N K R Φ i)
    (h : Runs D w₀ w) (ht : w.Turns D i w₁) (h' : Runs D w₁ w₂) (hR : ¬ R w.state w₁.state) :
    Φ w₂.ghost := by
  have hw : w.Pending N K R Φ i := h.keeps h₀ fun _ _ _ h ht => h.turn hrefl htrans hN hK ht
  have hw₂ : w₂.Ahead N K Φ i := h'.keeps (hw.ahead hrefl htrans hN ht hR) fun _ _ _ h ht =>
    h.turn hN hK ht
  exact hw₂.2.1

end runs

end Async
