/-
# Asynchronous programs on one thread

A program is a tree of synchronous effects with suspension points: `eff` runs at
once, `await` gives the thread away until a condition holds, `join` runs several
programs concurrently and continues with all their results, and `mark` names a
point of the code at which a result may ask something of the state.

Two readings. Alone (`wpc`): the program runs to its end without interference,
and every state in which it was suspended can be asked about, since that is
where a crash can strike. Interleaved with others: see `Interleave`.
-/
import Mathlib

namespace Async

/-- A program over states `σ` with code points `L`. -/
inductive Prog (σ L : Type) : Type → Type 1 where
  | ret {α : Type} (a : α) : Prog σ L α
  | eff {α β : Type} (g : σ → β × σ) (k : β → Prog σ L α) : Prog σ L α
  | mark {α : Type} (l : L) (k : Prog σ L α) : Prog σ L α
  | await {α : Type} (ready : σ → Bool) (k : Prog σ L α) : Prog σ L α
  | join {α β : Type} (n : Nat) (ps : Fin n → Prog σ L β) (k : (Fin n → β) → Prog σ L α) :
      Prog σ L α

namespace Prog
variable {σ L α β γ : Type}

def bind : Prog σ L α → (α → Prog σ L β) → Prog σ L β
  | .ret a, f => f a
  | .eff g k, f => .eff g fun b => (k b).bind f
  | .mark l k, f => .mark l (k.bind f)
  | .await r k, f => .await r (k.bind f)
  | .join n ps k, f => .join n ps fun bs => (k bs).bind f

instance : Monad (Prog σ L) where
  pure := .ret
  bind := .bind

theorem bind_ret (p : Prog σ L α) : p.bind .ret = p := by
  induction p with
  | ret a => rfl
  | eff g k ih => exact congrArg _ (funext ih)
  | mark l k ih => exact congrArg _ ih
  | await r k ih => exact congrArg _ ih
  | join n ps k _ ih => exact congrArg _ (funext ih)

theorem bind_bind (p : Prog σ L α) (f : α → Prog σ L β) (g : β → Prog σ L γ) :
    (p.bind f).bind g = p.bind fun a => (f a).bind g := by
  induction p with
  | ret a => rfl
  | eff _ k ih => exact congrArg _ (funext fun b => ih b f)
  | mark l k ih => exact congrArg _ (ih f)
  | await r k ih => exact congrArg _ (ih f)
  | join n ps k _ ih => exact congrArg _ (funext fun b => ih b f)

instance : LawfulMonad (Prog σ L) :=
  LawfulMonad.mk' _ (fun p => bind_ret p) (fun _ _ => rfl) (fun p f g => bind_bind p f g)

/-! ## Primitive programs -/

/-- A synchronous step. -/
def step (g : σ → α × σ) : Prog σ L α := .eff g .ret

/-- Read something off the state. -/
def gets (f : σ → α) : Prog σ L α := step fun s => (f s, s)

def modify (f : σ → σ) : Prog σ L Unit := step fun s => ((), f s)

def at_ (l : L) : Prog σ L Unit := .mark l (.ret ())

/-- Suspend until `ready` holds. -/
def wait (ready : σ → Bool) : Prog σ L Unit := .await ready (.ret ())

/-- Give the thread away once. -/
def yield : Prog σ L Unit := wait fun _ => true

/-- `join_all` over a list, results in list order. -/
def joinAll (xs : List α) (f : α → Prog σ L β) : Prog σ L (List β) :=
  .join xs.length (fun i => f (xs.get i)) fun bs => .ret (List.ofFn bs)

end Prog

/-! ## A program alone -/

section alone
variable {σ L : Type}

/-- The states a run was suspended in, and its result and final state if it ended. -/
structure Outcome (σ α : Type) where
  trail : List σ
  result : Option (α × σ)

/-- Children one after another, first to last. -/
def runAll {β : Type} : (n : Nat) → (Fin n → σ → Outcome σ β) → σ → Outcome σ (Fin n → β)
  | 0, _, s => ⟨[], some (Fin.elim0, s)⟩
  | n + 1, w, s =>
    match w 0 s with
    | ⟨tr, none⟩ => ⟨s :: tr, none⟩
    | ⟨tr, some (b, s₁)⟩ =>
      let o := runAll n (fun i => w i.succ) s₁
      ⟨s :: (tr ++ o.trail), o.result.map fun r => (Fin.cons b r.1, r.2)⟩

/-- Run `p` from `s` with nobody else on the thread; a wait that is not ready never ends. -/
def run : {α : Type} → Prog σ L α → σ → Outcome σ α
  | _, .ret a, s => ⟨[], some (a, s)⟩
  | _, .eff g k, s => run (k (g s).1) (g s).2
  | _, .mark _ k, s => run k s
  | _, .await r k, s =>
    if r s then let o := run k s; ⟨s :: o.trail, o.result⟩ else ⟨[s], none⟩
  | _, .join n ps k, s =>
    match runAll n (fun i => run (ps i)) s with
    | ⟨tr, none⟩ => ⟨tr, none⟩
    | ⟨tr, some (bs, s₁)⟩ =>
      let o := run (k bs) s₁
      ⟨tr ++ s₁ :: o.trail, o.result⟩

/-- `Q` of the outcome, `Cr` of every suspension. -/
def Outcome.Sat {α : Type} (o : Outcome σ α) (Cr : σ → Prop) (Q : α → σ → Prop) : Prop :=
  (∀ s ∈ o.trail, Cr s) ∧ ∃ a s, o.result = some (a, s) ∧ Q a s

/-- `p`, started in `s` and left alone, ends in a state and with a result that satisfy
`Q`, and every state in which it is suspended satisfies `Cr`. -/
def wpc (Cr : σ → Prop) {α : Type} (p : Prog σ L α) (Q : α → σ → Prop) (s : σ) : Prop :=
  (run p s).Sat Cr Q

variable {α β : Type} {Cr : σ → Prop}

theorem Outcome.Sat.mono {o : Outcome σ α} {Cr' : σ → Prop} {Q Q' : α → σ → Prop}
    (h : o.Sat Cr Q) (hc : ∀ s, Cr s → Cr' s) (hq : ∀ a s, Q a s → Q' a s) : o.Sat Cr' Q' := by
  obtain ⟨htr, a, s, hr, hQ⟩ := h
  exact ⟨fun s hs => hc s (htr s hs), a, s, hr, hq a s hQ⟩

theorem wpc_mono {p : Prog σ L α} {Cr' : σ → Prop} {Q Q' : α → σ → Prop} {s : σ}
    (h : wpc Cr p Q s) (hc : ∀ s, Cr s → Cr' s) (hq : ∀ a s, Q a s → Q' a s) :
    wpc Cr' p Q' s :=
  Outcome.Sat.mono h hc hq

theorem wpc_ret (a : α) (Q : α → σ → Prop) (s : σ) :
    wpc Cr (.ret a : Prog σ L α) Q s ↔ Q a s := by
  simp [wpc, run, Outcome.Sat]

theorem wpc_await (r : σ → Bool) (k : Prog σ L α) (Q : α → σ → Prop) (s : σ) :
    wpc Cr (.await r k) Q s ↔ Cr s ∧ r s = true ∧ wpc Cr k Q s := by
  by_cases hr : r s = true
  · simp [wpc, run, hr, Outcome.Sat, and_assoc]
  · simp [wpc, run, hr, Outcome.Sat]

theorem Outcome.sat_prepend {tr : List σ} {o : Outcome σ α} {Q : α → σ → Prop} :
    (Outcome.mk (tr ++ o.trail) o.result).Sat Cr Q ↔ (∀ s ∈ tr, Cr s) ∧ o.Sat Cr Q := by
  simp only [Outcome.Sat, List.mem_append, or_imp, forall_and, and_assoc]

/-- The rule for `join`: children first to last, then the continuation. -/
theorem wpc_join {n : Nat} {ps : Fin n → Prog σ L β} {k : (Fin n → β) → Prog σ L α}
    {Q : α → σ → Prop} {s : σ} :
    wpc Cr (.join n ps k) Q s
      ↔ (runAll n (fun i => run (ps i)) s).Sat Cr fun bs s => Cr s ∧ wpc Cr (k bs) Q s := by
  unfold wpc
  rw [run]
  cases runAll n (fun i => run (ps i)) s with
  | mk tr res =>
    cases res with
    | none => simp [Outcome.Sat]
    | some r =>
      have := @Outcome.sat_prepend σ α Cr (tr ++ [r.2]) (run (k r.1) r.2) Q
      rw [List.append_assoc, List.singleton_append] at this
      refine this.trans ?_
      obtain ⟨bs, s₁⟩ := r
      simp [Outcome.Sat, or_imp, forall_and, and_assoc]

theorem wpc_bind (p : Prog σ L α) (f : α → Prog σ L β) (Q : β → σ → Prop) (s : σ) :
    wpc Cr (p.bind f) Q s ↔ wpc Cr p (fun a s => wpc Cr (f a) Q s) s := by
  induction p generalizing s with
  | ret a => rw [wpc_ret]; rfl
  | eff g k ih => exact ih _ f _
  | mark l k ih => exact ih f s
  | await r k ih => simp only [Prog.bind, wpc_await, ih]
  | join n ps k _ ih => simp only [Prog.bind, wpc_join, ih]

/-- Programs over a list one after another, with all their results. -/
def seqList (Cr : σ → Prop) {ι : Type} (f : ι → Prog σ L β) :
    List ι → (List β → σ → Prop) → σ → Prop
  | [], R, s => R [] s
  | x :: xs, R, s =>
    Cr s ∧ wpc Cr (f x) (fun b s => seqList Cr f xs (fun bs s => R (b :: bs) s) s) s

/-- An invariant that follows the members of a `join_all` one by one. -/
theorem seqList_prefix {ι : Type} {f : ι → Prog σ L β} {xs : List ι} {R : List β → σ → Prop}
    (g : ι → β) (Inv : List ι → σ → Prop)
    (hstep : ∀ done x rest, xs = done ++ x :: rest → ∀ s, Inv done s →
      Cr s ∧ wpc Cr (f x) (fun b s' => b = g x ∧ Inv (done ++ [x]) s') s)
    {s : σ} (hs : Inv [] s) (hR : ∀ s', Inv xs s' → R (xs.map g) s') : seqList Cr f xs R s := by
  have hgen : ∀ (done rest : List ι) (R : List β → σ → Prop) (s : σ), xs = done ++ rest →
      Inv done s → (∀ s', Inv xs s' → R (rest.map g) s') → seqList Cr f rest R s := by
    intro done rest
    induction rest generalizing done with
    | nil =>
      intro R s heq hs hR
      rw [List.append_nil] at heq
      exact hR s (heq ▸ hs)
    | cons x rest ih =>
      intro R s heq hs hR
      obtain ⟨hcr, hx⟩ := hstep done x rest heq s hs
      refine ⟨hcr, wpc_mono hx (fun _ h => h) ?_⟩
      rintro b s' ⟨rfl, hs'⟩
      exact ih (done ++ [x]) _ s' (by rw [heq, List.append_assoc]; rfl) hs' hR
  exact hgen [] xs R s rfl hs hR

theorem sat_runAll {ι : Type} (f : ι → Prog σ L β) (xs : List ι) (R : List β → σ → Prop) (s : σ) :
    (runAll xs.length (fun i => run (f (xs.get i))) s).Sat Cr (fun bs s => R (List.ofFn bs) s)
      ↔ seqList Cr f xs R s := by
  induction xs generalizing R s with
  | nil => simp [runAll, seqList, Outcome.Sat]
  | cons x xs ih =>
    have hrun : run (f ((x :: xs).get 0)) s = run (f x) s := rfl
    simp only [seqList, wpc, List.length_cons, runAll, hrun]
    cases run (f x) s with
    | mk tr res =>
      cases res with
      | none => simp [Outcome.Sat]
      | some r =>
        obtain ⟨b, s₁⟩ := r
        have htail := ih (fun bs s => R (b :: bs) s) s₁
        simp only [Outcome.Sat, Option.some.injEq, Prod.mk.injEq] at htail ⊢
        constructor
        · rintro ⟨htr, bs, s₂, hres, hR⟩
          obtain ⟨r, hr, hr'⟩ := Option.map_eq_some_iff.mp hres
          cases hr'
          refine ⟨htr s (by simp), fun x hx => htr x (by simp [hx]), b, s₁, ⟨rfl, rfl⟩, ?_⟩
          refine htail.mp ⟨fun x hx => htr x ?_, r.1, r.2, hr, ?_⟩
          · simp only [List.mem_cons, List.mem_append]; exact .inr (.inr hx)
          · simpa [List.ofFn_succ] using hR
        · rintro ⟨hs, htr, _, _, ⟨rfl, rfl⟩, hseq⟩
          obtain ⟨htr', bs, s₂, hres, hR⟩ := htail.mpr hseq
          refine ⟨?_, Fin.cons b bs, s₂, Option.map_eq_some_iff.mpr ⟨_, hres, rfl⟩, ?_⟩
          · intro x hx
            simp only [List.mem_cons, List.mem_append] at hx
            rcases hx with rfl | hx | hx
            · exact hs
            · exact htr x hx
            · exact htr' x hx
          · simpa [List.ofFn_succ] using hR

/-- `join_all` alone: its members in order. -/
theorem wpc_joinAll {ι : Type} (xs : List ι) (f : ι → Prog σ L β) (Q : List β → σ → Prop) (s : σ) :
    wpc Cr (Prog.joinAll xs f : Prog σ L (List β)) Q s
      ↔ seqList Cr f xs (fun bs s => Cr s ∧ Q bs s) s := by
  rw [Prog.joinAll, wpc_join, ← sat_runAll]
  simp only [wpc_ret]

/-! ### Rules by shape of program -/

@[simp] theorem wpc_pure (a : α) (Q : α → σ → Prop) (s : σ) :
    wpc Cr (pure a : Prog σ L α) Q s ↔ Q a s := wpc_ret a Q s

@[simp] theorem wpc_seq (p : Prog σ L α) (f : α → Prog σ L β) (Q : β → σ → Prop) (s : σ) :
    wpc Cr (p >>= f) Q s ↔ wpc Cr p (fun a s => wpc Cr (f a) Q s) s := wpc_bind p f Q s

@[simp] theorem wpc_step (g : σ → α × σ) (Q : α → σ → Prop) (s : σ) :
    wpc Cr (Prog.step g : Prog σ L α) Q s ↔ Q (g s).1 (g s).2 := wpc_ret _ Q _

@[simp] theorem wpc_gets (f : σ → α) (Q : α → σ → Prop) (s : σ) :
    wpc Cr (Prog.gets f : Prog σ L α) Q s ↔ Q (f s) s := wpc_ret _ Q _

@[simp] theorem wpc_modify (f : σ → σ) (Q : Unit → σ → Prop) (s : σ) :
    wpc Cr (Prog.modify f : Prog σ L Unit) Q s ↔ Q () (f s) := wpc_ret _ Q _

@[simp] theorem wpc_at (l : L) (Q : Unit → σ → Prop) (s : σ) :
    wpc Cr (Prog.at_ l : Prog σ L Unit) Q s ↔ Q () s := wpc_ret _ Q _

@[simp] theorem wpc_wait (r : σ → Bool) (Q : Unit → σ → Prop) (s : σ) :
    wpc Cr (Prog.wait r : Prog σ L Unit) Q s ↔ Cr s ∧ r s = true ∧ Q () s := by
  rw [Prog.wait, wpc_await, wpc_ret]

@[simp] theorem wpc_yield (Q : Unit → σ → Prop) (s : σ) :
    wpc Cr (Prog.yield : Prog σ L Unit) Q s ↔ Cr s ∧ Q () s := by
  simp [Prog.yield]

/-- `wpc` for functions that return a `Result`. -/
def wpx {ε : Type} (Cr : σ → Prop) (p : ExceptT ε (Prog σ L) α) (Q : Except ε α → σ → Prop)
    (s : σ) : Prop := wpc Cr p.run Q s

section results
variable {ε : Type}

theorem wpx_mono {p : ExceptT ε (Prog σ L) α} {Cr' : σ → Prop} {Q Q' : Except ε α → σ → Prop}
    {s : σ} (h : wpx Cr p Q s) (hc : ∀ s, Cr s → Cr' s) (hq : ∀ r s, Q r s → Q' r s) :
    wpx Cr' p Q' s := wpc_mono h hc hq

@[simp] theorem wpx_mk (p : Prog σ L (Except ε α)) (Q : Except ε α → σ → Prop) (s : σ) :
    wpx Cr (ExceptT.mk p) Q s ↔ wpc Cr p Q s := Iff.rfl

theorem wpc_run (p : ExceptT ε (Prog σ L) α) (Q : Except ε α → σ → Prop) (s : σ) :
    wpc Cr p.run Q s ↔ wpx Cr p Q s := Iff.rfl

@[simp] theorem wpx_pure (a : α) (Q : Except ε α → σ → Prop) (s : σ) :
    wpx Cr (pure a : ExceptT ε (Prog σ L) α) Q s ↔ Q (.ok a) s := wpc_ret _ Q s

@[simp] theorem wpx_throw (e : ε) (Q : Except ε α → σ → Prop) (s : σ) :
    wpx Cr (throw e : ExceptT ε (Prog σ L) α) Q s ↔ Q (.error e) s := wpc_ret _ Q s

@[simp] theorem wpx_lift (p : Prog σ L α) (Q : Except ε α → σ → Prop) (s : σ) :
    wpx Cr (ExceptT.lift p : ExceptT ε (Prog σ L) α) Q s
      ↔ wpc Cr p (fun a s => Q (.ok a) s) s := by
  unfold wpx
  rw [ExceptT.run_lift]
  simp only [Functor.map, wpc_bind, Function.comp_apply, wpc_ret]

/-- Go on with the value, or return the error. -/
def onOk (k : α → σ → Prop) (Q : Except ε β → σ → Prop) : Except ε α → σ → Prop
  | .ok a, s => k a s
  | .error e, s => Q (.error e) s

@[simp] theorem onOk_ok (k : α → σ → Prop) (Q : Except ε β → σ → Prop) (a : α) (s : σ) :
    onOk k Q (.ok a) s = k a s := rfl

@[simp] theorem onOk_error (k : α → σ → Prop) (Q : Except ε β → σ → Prop) (e : ε) (s : σ) :
    onOk k Q (.error e : Except ε α) s = Q (.error e) s := rfl

@[simp] theorem wpx_seq (p : ExceptT ε (Prog σ L) α) (f : α → ExceptT ε (Prog σ L) β)
    (Q : Except ε β → σ → Prop) (s : σ) :
    wpx Cr (p >>= f) Q s ↔ wpx Cr p (onOk (fun a s => wpx Cr (f a) Q s) Q) s := by
  unfold wpx
  rw [ExceptT.run_bind, wpc_seq]
  refine iff_of_eq (congrArg (fun R => wpc Cr p.run R s) (funext fun r => funext fun s => ?_))
  cases r with
  | ok a => rfl
  | error e => exact propext (wpc_ret _ _ _)

end results

/-! ## Partial correctness -/

/-- If `p`, started in `s` and left alone, ends, then result and state satisfy `Q`. -/
def wlp (p : Prog σ L α) (Q : α → σ → Prop) (s : σ) : Prop :=
  ∀ a s', (run p s).result = some (a, s') → Q a s'

theorem wlp_mono {p : Prog σ L α} {Q Q' : α → σ → Prop} {s : σ} (h : wlp p Q s)
    (hq : ∀ a s, Q a s → Q' a s) : wlp p Q' s := fun a s' hr => hq a s' (h a s' hr)

theorem wlp_ret (a : α) (Q : α → σ → Prop) (s : σ) :
    wlp (.ret a : Prog σ L α) Q s ↔ Q a s := by
  simp [wlp, run]

/-- A run of `p` and then of `f` is a run of both. -/
theorem wlp_bind (p : Prog σ L α) (f : α → Prog σ L β) (Q : β → σ → Prop) (s : σ) :
    wlp (p.bind f) Q s ↔ wlp p (fun a s => wlp (f a) Q s) s := by
  induction p generalizing s with
  | ret a => rw [wlp_ret]; rfl
  | eff g k ih => exact ih _ f _
  | mark l k ih => exact ih f s
  | await r k ih =>
    by_cases hr : r s = true
    · simp only [Prog.bind, wlp, run, hr, if_true]
      exact ih f s
    · simp [Prog.bind, wlp, run, hr]
  | join n ps k _ ih =>
    simp only [Prog.bind, wlp, run]
    cases runAll n (fun i => run (ps i)) s with
    | mk tr res =>
      cases res with
      | none => simp
      | some r => exact ih r.1 f r.2

@[simp] theorem wlp_seq (p : Prog σ L α) (f : α → Prog σ L β) (Q : β → σ → Prop) (s : σ) :
    wlp (p >>= f) Q s ↔ wlp p (fun a s => wlp (f a) Q s) s := wlp_bind p f Q s

@[simp] theorem wlp_pure (a : α) (Q : α → σ → Prop) (s : σ) :
    wlp (pure a : Prog σ L α) Q s ↔ Q a s := wlp_ret a Q s

@[simp] theorem wlp_step (g : σ → α × σ) (Q : α → σ → Prop) (s : σ) :
    wlp (Prog.step g : Prog σ L α) Q s ↔ Q (g s).1 (g s).2 := wlp_ret _ Q _

@[simp] theorem wlp_at (l : L) (Q : Unit → σ → Prop) (s : σ) :
    wlp (Prog.at_ l : Prog σ L Unit) Q s ↔ Q () s := wlp_ret _ Q _

/-! ## Effects -/

/-- Every effect of the program is a step of `R`, every mark one of `N`, and what it waits for
is among `W`. -/
def Prog.Within (N : L → Prop) (W : (σ → Bool) → Prop) (R : σ → σ → Prop) :
    {α : Type} → Prog σ L α → Prop
  | _, .ret _ => True
  | _, .eff g k => ∀ s, R s (g s).2 ∧ (k (g s).1).Within N W R
  | _, .mark l k => N l ∧ k.Within N W R
  | _, .await r k => W r ∧ k.Within N W R
  | _, .join _ ps k => (∀ i, (ps i).Within N W R) ∧ ∀ bs, (k bs).Within N W R

section within
variable {N : L → Prop} {W : (σ → Bool) → Prop} {R : σ → σ → Prop}

theorem Prog.Within.bind {p : Prog σ L α} {f : α → Prog σ L β} (hp : p.Within N W R)
    (hf : ∀ a, (f a).Within N W R) : (p.bind f).Within N W R := by
  induction p with
  | ret a => exact hf a
  | eff g k ih => exact fun s => ⟨(hp s).1, ih _ (hp s).2 hf⟩
  | mark l k ih => exact ⟨hp.1, ih hp.2 hf⟩
  | await r k ih => exact ⟨hp.1, ih hp.2 hf⟩
  | join n ps k _ ih => exact ⟨hp.1, fun bs => ih bs (hp.2 bs) hf⟩

theorem Prog.Within.mono {N' : L → Prop} {W' : (σ → Bool) → Prop} {R' : σ → σ → Prop}
    {p : Prog σ L α}
    (h : p.Within N W R) (hN : ∀ l, N l → N' l) (hW : ∀ r, W r → W' r)
    (hR : ∀ s s', R s s' → R' s s') :
    p.Within N' W' R' := by
  induction p with
  | ret a => trivial
  | eff e k ih => exact fun s => ⟨hR _ _ (h s).1, ih _ (h s).2⟩
  | mark l k ih => exact ⟨hN l h.1, ih h.2⟩
  | await r k ih => exact ⟨hW r h.1, ih h.2⟩
  | join n ps k ihp ihk => exact ⟨fun i => ihp i (h.1 i), fun bs => ihk bs (h.2 bs)⟩

theorem Prog.Within.seq {p : Prog σ L α} {f : α → Prog σ L β} (hp : p.Within N W R)
    (hf : ∀ a, (f a).Within N W R) : (p >>= f).Within N W R := hp.bind hf

theorem Prog.within_step {g : σ → α × σ} (h : ∀ s, R s (g s).2) :
    (Prog.step g : Prog σ L α).Within N W R :=
  fun s => ⟨h s, trivial⟩

theorem Prog.within_modify {f : σ → σ} (h : ∀ s, R s (f s)) :
    (Prog.modify f : Prog σ L Unit).Within N W R :=
  Prog.within_step h

theorem Prog.within_at {l : L} (h : N l) : (Prog.at_ l : Prog σ L Unit).Within N W R := ⟨h, trivial⟩

theorem Prog.within_wait {r : σ → Bool} (h : W r) :
    (Prog.wait r : Prog σ L Unit).Within N W R := ⟨h, trivial⟩

theorem Prog.within_joinAll {ι : Type} {xs : List ι} {f : ι → Prog σ L β}
    (h : ∀ x ∈ xs, (f x).Within N W R) : (Prog.joinAll xs f : Prog σ L (List β)).Within N W R :=
  ⟨fun i => h _ (List.get_mem xs i), fun _ => trivial⟩

variable (hrefl : ∀ s, R s s) (htrans : ∀ {s s' s''}, R s s' → R s' s'' → R s s'')
include hrefl

theorem Prog.within_gets (f : σ → α) : (Prog.gets f : Prog σ L α).Within N W R :=
  Prog.within_step hrefl

include htrans

theorem runAll_steps {n : Nat} {w : Fin n → σ → Outcome σ β} {s s₁ : σ} {bs : Fin n → β}
    (hw : ∀ i s b s', (w i s).result = some (b, s') → R s s')
    (hr : (runAll n w s).result = some (bs, s₁)) : R s s₁ := by
  induction n generalizing s with
  | zero =>
    simp only [runAll, Option.some.injEq, Prod.mk.injEq] at hr
    exact hr.2 ▸ hrefl s
  | succ n ih =>
    cases h0 : w 0 s with
    | mk tr res =>
      cases res with
      | none => simp [runAll, h0] at hr
      | some r =>
        simp only [runAll, h0, Option.map_eq_some_iff] at hr
        obtain ⟨r', hr', heq⟩ := hr
        cases heq
        exact htrans (hw 0 s r.1 r.2 (by rw [h0])) (ih (fun i => hw i.succ) hr')

/-- A program within a preorder moves along it. -/
theorem Prog.Within.run {p : Prog σ L α} (h : p.Within N W R) (s : σ) :
    wlp p (fun _ s' => R s s') s := by
  induction p generalizing s with
  | ret a => exact (wlp_ret _ _ _).mpr (hrefl s)
  | eff g k ih =>
    obtain ⟨hg, hk⟩ := h s
    exact wlp_mono (ih _ hk (g s).2) fun _ _ hk => htrans hg hk
  | mark l k ih => exact ih h.2 s
  | await r k ih =>
    intro a s' hr
    by_cases hready : r s = true
    · simp only [Async.run, hready, if_true] at hr
      exact ih h.2 s a s' hr
    · simp [Async.run, hready] at hr
  | join n ps k ihps ihk =>
    intro a s' hr
    cases hjoin : runAll n (fun i => Async.run (ps i)) s with
    | mk tr res =>
      cases res with
      | none => simp [Async.run, hjoin] at hr
      | some r =>
        simp only [Async.run, hjoin] at hr
        have hstep := runAll_steps hrefl htrans (fun i s b s' => ihps i (h.1 i) s b s')
          (by rw [hjoin])
        exact htrans hstep (ihk r.1 (h.2 r.1) r.2 a s' hr)

end within

section results
variable {ε : Type} {N : L → Prop} {W : (σ → Bool) → Prop} {R : σ → σ → Prop}

/-- `wlp` for functions that return a `Result`. -/
@[simp] theorem wlp_run_seq (p : ExceptT ε (Prog σ L) α) (f : α → ExceptT ε (Prog σ L) β)
    (Q : Except ε β → σ → Prop) (s : σ) :
    wlp (p >>= f).run Q s ↔ wlp p.run (onOk (fun a s => wlp (f a).run Q s) Q) s := by
  rw [ExceptT.run_bind, wlp_seq]
  refine iff_of_eq (congrArg (fun R => wlp p.run R s) (funext fun r => funext fun s => ?_))
  cases r with
  | ok a => rfl
  | error e => exact propext (wlp_ret _ _ _)

@[simp] theorem wlp_run_lift (p : Prog σ L α) (Q : Except ε α → σ → Prop) (s : σ) :
    wlp (ExceptT.lift p : ExceptT ε (Prog σ L) α).run Q s ↔ wlp p (fun a s => Q (.ok a) s) s := by
  rw [ExceptT.run_lift]
  simp only [Functor.map, wlp_bind, Function.comp_apply, wlp_ret]

@[simp] theorem wlp_run_pure (a : α) (Q : Except ε α → σ → Prop) (s : σ) :
    wlp (pure a : ExceptT ε (Prog σ L) α).run Q s ↔ Q (.ok a) s := wlp_ret _ Q s

theorem Prog.Within.run_seq {p : ExceptT ε (Prog σ L) α} {f : α → ExceptT ε (Prog σ L) β}
    (hp : p.run.Within N W R) (hf : ∀ a, (f a).run.Within N W R) : (p >>= f).run.Within N W R := by
  rw [ExceptT.run_bind]
  refine hp.seq fun r => ?_
  cases r with
  | ok a => exact hf a
  | error e => exact trivial

theorem Prog.Within.run_lift {p : Prog σ L α} (hp : p.Within N W R) :
    (ExceptT.lift p : ExceptT ε (Prog σ L) α).run.Within N W R := hp.bind fun _ => trivial

end results

end alone
end Async
