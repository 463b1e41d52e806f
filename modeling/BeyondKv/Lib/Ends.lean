/-
# Runs left alone

A program left alone is a function: `ends` gives its result and its final state, if it ends. The
equations follow the constructors; a program on a part of the state, or with other marks, ends as
it does by itself (`ends_zoom`, `ends_relabel`).
-/
import BeyondKv.Lib.Zoom

namespace Async

open Option

section ends
variable {σ L α β : Type}

/-- Result and final state of a run alone. -/
def ends (p : Prog σ L α) (s : σ) : Option (α × σ) := (run p s).result

@[simp] theorem ends_ret (a : α) (s : σ) : ends (.ret a : Prog σ L α) s = some (a, s) := rfl

theorem ends_eff (e : σ → β × σ) (k : β → Prog σ L α) (s : σ) :
    ends (.eff e k) s = ends (k (e s).1) (e s).2 := rfl

theorem ends_await (r : σ → Bool) (k : Prog σ L α) (s : σ) :
    ends (.await r k) s = if r s then ends k s else none := by
  by_cases hr : r s = true <;> simp [ends, run, hr]

theorem ends_join (n : Nat) (ps : Fin n → Prog σ L β) (k : (Fin n → β) → Prog σ L α) (s : σ) :
    ends (.join n ps k) s = (runAll n (fun i => run (ps i)) s).result.bind fun x =>
        ends (k x.1) x.2 := by
  simp only [ends, run]
  cases runAll n (fun i => run (ps i)) s with
  | mk tr res => cases res <;> rfl

theorem ends_bind (p : Prog σ L α) (f : α → Prog σ L β) (s : σ) :
    ends (p.bind f) s = (ends p s).bind fun x => ends (f x.1) x.2 := by
  induction p generalizing s with
  | ret a => rfl
  | eff e k ih => exact ih _ f _
  | mark l k ih => exact ih f s
  | await r k ih =>
    simp only [Prog.bind, ends_await, ih]
    split <;> rfl
  | join n ps k _ ih => simp only [Prog.bind, ends_join, ih, bind_assoc]

@[simp] theorem ends_seq (p : Prog σ L α) (f : α → Prog σ L β) (s : σ) :
    ends (p >>= f) s = (ends p s).bind fun x => ends (f x.1) x.2 := ends_bind p f s

/-- A function that returns a `Result` goes on with the value, or returns the error. -/
theorem ends_run_seq {ε : Type} (p : ExceptT ε (Prog σ L) α)
    (f : α → ExceptT ε (Prog σ L) β) (s : σ) :
    ends (p >>= f).run s = (ends p.run s).bind fun x =>
      match x.1 with
      | .ok a => ends (f a).run x.2
      | .error e => some (.error e, x.2) := by
  rw [ExceptT.run_bind, ends_seq]
  refine congrArg (Option.bind _) (funext fun x => ?_)
  obtain ⟨r, s'⟩ := x
  cases r <;> rfl

theorem ends_run_ok {ε : Type} {p : ExceptT ε (Prog σ L) α} {f : α → ExceptT ε (Prog σ L) β}
    {s s' : σ} {a : α}
    (h : ends p.run s = some (.ok a, s')) : ends (p >>= f).run s = ends (f a).run s' := by
  rw [ends_run_seq, h]
  rfl

/-- If it has succeeded, so has the first part. -/
theorem of_ends_run_seq {ε : Type} {p : ExceptT ε (Prog σ L) α} {f : α → ExceptT ε (Prog σ L) β}
    {s s' : σ} {b : β} (h : ends (p >>= f).run s = some (.ok b, s')) :
    ∃ a s₁, ends p.run s = some (.ok a, s₁) ∧ ends (f a).run s₁ = some (.ok b, s') := by
  rw [ends_run_seq] at h
  obtain ⟨⟨r, s₁⟩, hp, hrest⟩ := bind_eq_some_iff.mp h
  cases r with
  | ok a => exact ⟨a, s₁, hp, hrest⟩
  | error e => cases hrest

theorem ends_run_lift {ε : Type} (p : Prog σ L α) (s : σ) :
    ends (ExceptT.lift p : ExceptT ε (Prog σ L) α).run s = (ends p s).map fun x =>
        (.ok x.1, x.2) := by
  rw [ExceptT.run_lift]
  exact (ends_bind p _ s).trans (map_eq_bind ..).symm

/-- The members of a `join_all` one after another. -/
def endsAll {ι : Type} (f : ι → Prog σ L β) : List ι → σ → Option (List β × σ)
  | [], s => some ([], s)
  | x :: xs, s => (ends (f x) s).bind fun y => (endsAll f xs y.2).map fun z => (y.1 :: z.1, z.2)

theorem ends_joinAll {ι : Type} (xs : List ι) (f : ι → Prog σ L β) (s : σ) :
    ends (Prog.joinAll xs f : Prog σ L (List β)) s = endsAll f xs s := by
  have hall : (runAll xs.length (fun i => run (f (xs.get i))) s).result.map
      (fun x => (List.ofFn x.1, x.2)) = endsAll f xs s := by
    induction xs generalizing s with
    | nil => simp [runAll, endsAll]
    | cons x xs ih =>
      have hrun : ends (f x) s = (run (f ((x :: xs).get 0)) s).result := rfl
      simp only [endsAll, hrun, List.length_cons, runAll]
      cases run (f ((x :: xs).get 0)) s with
      | mk tr res =>
        cases res with
        | none => rfl
        | some y =>
          rw [bind_some, ← ih y.2, map_map, map_map]
          refine congrFun (congrArg Option.map (funext fun z => ?_)) _
          simp [List.ofFn_succ]
  rw [Prog.joinAll, ends_join, ← hall]
  exact (map_eq_bind ..).symm

theorem runAll_ends {n : Nat} {w : Fin n → σ → Outcome σ β}
    (h : ∀ i s, ∃ b s', (w i s).result = some (b, s')) (s : σ) :
    ∃ bs s', (runAll n w s).result = some (bs, s') := by
  induction n generalizing s with
  | zero => exact ⟨Fin.elim0, s, rfl⟩
  | succ n ih =>
    obtain ⟨b, s₁, hb⟩ := h 0 s
    obtain ⟨bs, s', hbs⟩ := ih (fun i => h i.succ) s₁
    refine ⟨Fin.cons b bs, s', ?_⟩
    cases h0 : w 0 s with
    | mk tr res =>
      rw [h0] at hb
      cases hb
      simp only [runAll, h0, hbs, map_some]

/-- A program that never waits for others ends. -/
theorem Prog.Within.ends {N : L → Prop} {W : (σ → Bool) → Prop} {R : σ → σ → Prop} {p : Prog σ L α}
    (h : p.Within N W R)
    (hW : ∀ r, W r → ∀ s, r s = true) (s : σ) : ∃ a s', Async.ends p s = some (a, s') := by
  induction p generalizing s with
  | ret a => exact ⟨a, s, rfl⟩
  | eff g k ih => exact ih _ (h s).2 (g s).2
  | mark l k ih => exact ih h.2 s
  | await r k ih =>
    rw [ends_await, if_pos (hW r h.1 s)]
    exact ih h.2 s
  | join n ps k ihps ihk =>
    obtain ⟨bs, s₁, hbs⟩ := runAll_ends (fun i => ihps i (h.1 i)) s
    rw [ends_join, hbs]
    exact ihk bs (h.2 bs) s₁

theorem wlp_iff {p : Prog σ L α} {a : α} {Q : α → σ → Prop} {s s' : σ} (h : ends p s = some (a, s'))
    : wlp p Q s ↔ Q a s' := by
  constructor
  · exact fun hQ => hQ a s' h
  · intro hQ a₁ s₁ hend
    cases h.symm.trans hend
    exact hQ

end ends

/-! ## Success -/

section success
variable {σ L α β ε : Type} {p : ExceptT ε (Prog σ L) α} {f : α → ExceptT ε (Prog σ L) β} {s s' : σ}
  {Q : α → σ → Prop}

end success

/-! ## Programs of a part -/

section part
variable {τ σ L α β : Type}

/-- Setting a part is forgetful, and setting it to itself changes nothing. -/
structure Lens.Lawful (ℓ : Lens τ σ) : Prop where
  set_view : ∀ t, ℓ.set (ℓ.view t) t = t
  set_set : ∀ s s' t, ℓ.set s (ℓ.set s' t) = ℓ.set s t

variable {ℓ : Lens τ σ}

theorem runAll_zoom (hℓ : ℓ.Lawful) {n : Nat} {w : Fin n → τ → Outcome τ β}
    {w' : Fin n → σ → Outcome σ β}
    (h : ∀ i t, (w i t).result = (w' i (ℓ.view t)).result.map fun x => (x.1, ℓ.set x.2 t)) (t : τ) :
    (runAll n w t).result = (runAll n w' (ℓ.view t)).result.map fun x => (x.1, ℓ.set x.2 t) := by
  induction n generalizing t with
  | zero => simp [runAll, hℓ.set_view]
  | succ n ih =>
    have h0 := h 0 t
    simp only [runAll]
    cases hw : w 0 t with
    | mk tr res =>
      cases hw' : w' 0 (ℓ.view t) with
      | mk tr' res' =>
        rw [hw, hw'] at h0
        cases res' with
        | none =>
          cases h0
          rfl
        | some y =>
          cases h0
          have hrest := ih (fun i t => h i.succ t) (ℓ.set y.2 t)
          rw [ℓ.view_set] at hrest
          simp only [hrest, map_map, Function.comp_def, hℓ.set_set]

/-- On a part, a program does what it does alone. -/
theorem ends_zoom (hℓ : ℓ.Lawful) (p : Prog σ L α) (t : τ) :
    ends (p.zoom ℓ) t = (ends p (ℓ.view t)).map fun x => (x.1, ℓ.set x.2 t) := by
  induction p generalizing t with
  | ret a => simp [Prog.zoom, hℓ.set_view]
  | eff e k ih =>
    rw [Prog.zoom, ends_eff, ih, ℓ.view_set, ends_eff]
    simp only [hℓ.set_set]
  | mark l k ih => exact ih t
  | await r k ih =>
    simp only [Prog.zoom, ends_await, ih]
    split <;> rfl
  | join n ps k ihp ihk =>
    simp only [Prog.zoom, ends_join]
    rw [runAll_zoom hℓ fun i t => ihp i t, bind_map, Option.map_bind]
    refine congrArg (Option.bind _) (funext fun x => ?_)
    simp only [Function.comp_apply, ihk, ℓ.view_set, hℓ.set_set]

theorem ends_relabel {M : Type} (p : Prog σ L α) (φ : L → M) (s : σ) :
    ends (p.relabel φ) s = ends p s := by
  -- the whole as a part of itself
  let whole : Lens σ σ := ⟨id, fun s _ => s, fun _ _ => rfl⟩
  have hwhole : whole.Lawful := ⟨fun _ => rfl, fun _ _ _ => rfl⟩
  induction p generalizing s with
  | ret a => rfl
  | eff e k ih => exact ih _ _
  | mark l k ih => exact ih s
  | await r k ih => simp only [Prog.relabel, ends_await, ih]
  | join n ps k ihp ihk =>
    have hps :
      (runAll n (fun i => run ((ps i).relabel φ)) s).result
      = (runAll n (fun i => run (ps i)) s).result :=
      (runAll_zoom hwhole (fun i s => (ihp i s).trans (congrFun map_id _).symm) s).trans
        (congrFun map_id _)
    simp only [Prog.relabel, ends_join, hps, ihk]

end part

end Async
