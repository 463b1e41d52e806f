/-
# Programs that share a thread

Tasks on one thread take turns. In a turn one suspended task whose wait is over runs
until it suspends again; the marks it passes may be recorded in a history variable and
restrict the runs that are considered (`Discipline`). The members of a `join` are resumed
one at a time and in any order.

`wpi` is the logic: an invariant over the state, the history variable and the *tokens* of
all tasks. A task owns some tokens; between two suspensions it may change the state as it
likes, and at a suspension it must give the invariant back, for its own tokens and those
of everybody else, which it does not touch. `Runs.inv` is the soundness theorem: the
invariant holds in every configuration that tasks with a `wpi` reach, and a task that has
ended owns nothing. A task may wait for a condition that others have to bring about only if
its tokens give the reason (`Excuses`), so that a task that cannot take a turn has a reason
not to (`Holds.stalled`).
-/
import BeyondKv.Lib.Async

namespace Async

open Finset Function List

/-- What runs record at marks, and what they are asked there. -/
structure Discipline (σ L G : Type) where
  note : L → σ → G → G
  allows : L → G → σ → Prop

/-- Marks are recorded and nothing is asked. -/
def Discipline.record {σ L G : Type} (note : L → σ → G → G) : Discipline σ L G :=
  ⟨note, fun _ _ _ => True⟩

/-! ## Turns -/

section turns
variable {σ L G : Type} (D : Discipline σ L G)

/-- A program that has not been started. -/
def Prog.spawn {α : Type} (p : Prog σ L α) : Prog σ L α := .await (fun _ => true) p

/-- Run up to the next suspension. -/
def advance : {α : Type} → Prog σ L α → G → σ → Prog σ L α × G × σ
  | _, .ret a, g, s => (.ret a, g, s)
  | _, .eff e k, g, s => advance (k (e s).1) g (e s).2
  | _, .mark l k, g, s => advance k (D.note l s g) s
  | _, .await r k, g, s => (.await r k, g, s)
  | _, .join n ps k, g, s => (.join n (fun i => (ps i).spawn) k, g, s)

/-- The marks on the way to the next suspension allow it. -/
def Meets : {α : Type} → Prog σ L α → G → σ → Prop
  | _, .eff e k, g, s => Meets (k (e s).1) g (e s).2
  | _, .mark l k, g, s => D.allows l g s ∧ Meets k (D.note l s g) s
  | _, _, _, _ => True

/-- One turn of a task. -/
inductive Turn : {α : Type} → Prog σ L α → G → σ → Prog σ L α → G → σ → Prop
  | wake {α : Type} {r : σ → Bool} {k : Prog σ L α} {g : G} {s : σ} :
      r s = true → Meets D k g s →
      Turn (.await r k) g s (advance D k g s).1 (advance D k g s).2.1 (advance D k g s).2.2
  | member {α β : Type} {n : Nat} {ps : Fin n → Prog σ L β} {k : (Fin n → β) → Prog σ L α}
      {g g' : G} {s s' : σ} {i : Fin n} {p : Prog σ L β} :
      Turn (ps i) g s p g' s' → Turn (.join n ps k) g s (.join n (Function.update ps i p) k) g' s'
  | joined {α β : Type} {n : Nat} {ps : Fin n → Prog σ L β} {k : (Fin n → β) → Prog σ L α}
      {g : G} {s : σ} {bs : Fin n → β} :
      (∀ i, ps i = .ret (bs i)) → Meets D (k bs) g s →
      Turn (.join n ps k) g s (advance D (k bs) g s).1 (advance D (k bs) g s).2.1
        (advance D (k bs) g s).2.2

/-- Tasks on a thread. -/
structure Pool (σ L G : Type) where
  tasks : List (Prog σ L Unit)
  ghost : G
  state : σ

/-- The tasks `ps`, none of them started. -/
def Pool.of (ps : List (Prog σ L Unit)) (g : G) (s : σ) : Pool σ L G := ⟨ps.map Prog.spawn, g, s⟩

/-- Every task has ended. -/
def Pool.Ended (w : Pool σ L G) : Prop := ∀ p ∈ w.tasks, p = .ret ()

/-- The configurations that turns lead to. -/
inductive Runs (w₀ : Pool σ L G) : Pool σ L G → Prop
  | start : Runs w₀ w₀
  | turn {before after : List (Prog σ L Unit)} {p p' : Prog σ L Unit} {g g' : G} {s s' : σ} :
      Runs w₀ ⟨before ++ p :: after, g, s⟩ → Turn D p g s p' g' s' →
      Runs w₀ ⟨before ++ p' :: after, g', s'⟩

end turns

/-! ## The logic -/

/-- Which tokens are a reason to wait for a condition. -/
structure Excuse (σ T : Type) where
  For : Multiset T → (σ → Bool) → Prop
  ready : ∀ own r, (∀ s, r s = true) → For own r

/-- The terms on which a task shares the state with others. -/
structure Regime (σ L G T : Type) where
  runs : Discipline σ L G
  Inv : Multiset T → G → σ → Prop
  excuse : Excuse σ T

/-- A task may wait for anything. -/
abbrev Regime.plain {σ L G T : Type} (runs : Discipline σ L G) (Inv : Multiset T → G → σ → Prop) :
    Regime σ L G T := ⟨runs, Inv, fun _ _ => True, fun _ _ _ => trivial⟩

/-- The same terms, with other reasons to wait. -/
abbrev Regime.excusing {σ L G T : Type} (Γ : Regime σ L G T) (e : Excuse σ T) : Regime σ L G T :=
  { Γ with excuse := e }

section logic
variable {σ L G T : Type} (Γ : Regime σ L G T)

/-- `p`, run by a task among others who own `f`, keeps `Inv` at every suspension, and where it
ends `Q` holds of its result and what is there then. -/
def wpi : {α : Type} → Prog σ L α → (α → Multiset T → G → σ → Prop) → Multiset T → G → σ → Prop
  | _, .ret a, Q, f, g, s => Q a f g s
  | _, .eff e k, Q, f, g, s => wpi (k (e s).1) Q f g (e s).2
  | _, .mark l k, Q, f, g, s => Γ.runs.allows l g s → wpi k Q f (Γ.runs.note l s g) s
  | _, .await r k, Q, f, g, s =>
    ∃ own, Γ.Inv (own + f) g s ∧ Γ.excuse.For own r
      ∧ ∀ f g s, Γ.Inv (own + f) g s → r s = true → wpi k Q f g s
  | _, .join (β := β) n ps k, Q, f, g, s =>
    ∃ (own : Multiset T) (owns : Fin n → Multiset T) (post : Fin n → β → Multiset T → Prop),
      Γ.Inv (own + ∑ i, owns i + f) g s
      ∧ (∀ i f g s, Γ.Inv (owns i + f) g s →
        wpi (ps i) (fun b f g s => ∃ own, Γ.Inv (own + f) g s ∧ post i b own) f g s)
      ∧ ∀ (bs : Fin n → β) (owns : Fin n → Multiset T), (∀ i, post i (bs i) (owns i)) →
        ∀ f g s, Γ.Inv (own + ∑ i, owns i + f) g s → wpi (k bs) Q f g s

/-- The task gives back the invariant and keeps tokens with `post`. -/
def Gives {α : Type} (post : α → Multiset T → Prop) (a : α) (f : Multiset T) (g : G) (s : σ) :
    Prop :=
  ∃ own, Γ.Inv (own + f) g s ∧ post a own

/-- With the tokens `pre` in hand, `p` runs among others and ends with tokens of `post`. -/
def Triple {α : Type} (pre : Multiset T) (p : Prog σ L α) (post : α → Multiset T → Prop) : Prop :=
  ∀ f g s, Γ.Inv (pre + f) g s → wpi Γ p (Gives Γ post) f g s

/-- A suspended program that owns `own` can go on. -/
def Holds : {α : Type} → (α → Multiset T → Prop) → Prog σ L α → Multiset T → Prop
  | _, post, .ret a, own => post a own
  | _, _, .eff _ _, _ => False
  | _, _, .mark _ _, _ => False
  | _, post, .await r k, own =>
    Γ.excuse.For own r ∧ ∀ f g s, Γ.Inv (own + f) g s → r s = true → wpi Γ k (Gives Γ post) f g s
  | _, post, .join (β := β) n ps k, own =>
    ∃ (own₀ : Multiset T) (owns : Fin n → Multiset T) (posts : Fin n → β → Multiset T → Prop),
      own = own₀ + ∑ i, owns i
      ∧ (∀ i, Holds (posts i) (ps i) (owns i))
      ∧ ∀ (bs : Fin n → β) (owns : Fin n → Multiset T), (∀ i, posts i (bs i) (owns i)) →
        ∀ f g s, Γ.Inv (own₀ + ∑ i, owns i + f) g s → wpi Γ (k bs) (Gives Γ post) f g s

variable {Γ} {α β : Type}

theorem wpi_mono {p : Prog σ L α} {Q Q' : α → Multiset T → G → σ → Prop} {f : Multiset T} {g : G}
    {s : σ} (h : wpi Γ p Q f g s) (hq : ∀ a f g s, Q a f g s → Q' a f g s) :
    wpi Γ p Q' f g s := by
  induction p generalizing f g s with
  | ret a => exact hq a f g s h
  | eff e k ih => exact ih _ h hq
  | mark l k ih => exact fun hl => ih (h hl) hq
  | await r k ih =>
    obtain ⟨own, hinv, hex, hk⟩ := h
    exact ⟨own, hinv, hex, fun f g s hi hr => ih (hk f g s hi hr) hq⟩
  | join n ps k _ ih =>
    obtain ⟨own, owns, post, hinv, hps, hk⟩ := h
    exact ⟨own, owns, post, hinv, hps, fun bs owns hp f g s hi => ih bs (hk bs owns hp f g s hi) hq⟩

theorem wpi_bind (p : Prog σ L α) (c : α → Prog σ L β) (Q : β → Multiset T → G → σ → Prop)
    (f : Multiset T) (g : G) (s : σ) :
    wpi Γ (p.bind c) Q f g s ↔ wpi Γ p (fun a f g s => wpi Γ (c a) Q f g s) f g s := by
  induction p generalizing f g s with
  | ret a => rfl
  | eff e k ih => exact ih _ c f g _
  | mark l k ih => exact forall_congr' fun _ => ih c f _ s
  | await r k ih =>
    refine exists_congr fun own => and_congr_right fun _ => and_congr_right fun _ => ?_
    exact forall_congr' fun f => forall_congr' fun g => forall_congr' fun s =>
      forall_congr' fun _ => forall_congr' fun _ => ih c f g s
  | join n ps k _ ih =>
    refine exists_congr fun own => exists_congr fun owns => exists_congr fun post =>
      and_congr_right fun _ => and_congr_right fun _ => ?_
    exact forall_congr' fun bs => forall_congr' fun owns => forall_congr' fun _ =>
      forall_congr' fun f => forall_congr' fun g => forall_congr' fun s =>
        forall_congr' fun _ => ih bs c f g s

/-! ### Soundness -/

/-- At its next suspension a program has given the invariant back and can go on. -/
theorem advance_holds {p : Prog σ L α} {post : α → Multiset T → Prop} {f : Multiset T}
    {g : G} {s : σ}
    (h : wpi Γ p (Gives Γ post) f g s) (hm : Meets Γ.runs p g s) :
    ∃ own, Γ.Inv (own + f) (advance Γ.runs p g s).2.1 (advance Γ.runs p g s).2.2
      ∧ Holds Γ post (advance Γ.runs p g s).1 own := by
  induction p generalizing f g s with
  | ret a => exact h
  | eff e k ih => exact ih _ h hm
  | mark l k ih => exact ih (h hm.1) hm.2
  | await r k _ =>
    obtain ⟨own, hinv, hk⟩ := h
    exact ⟨own, hinv, hk⟩
  | join n ps k _ _ =>
    obtain ⟨own, owns, posts, hinv, hps, hk⟩ := h
    exact ⟨_, hinv, own, owns, posts, rfl,
      fun i => ⟨Γ.excuse.ready _ _ fun _ => rfl, fun f g s hi _ => hps i f g s hi⟩, hk⟩

theorem sum_update {n : Nat} (owns : Fin n → Multiset T) (i : Fin n) (own : Multiset T) :
    ∑ j, Function.update owns i own j = own + ∑ j ∈ Finset.univ.erase i, owns j := by
  rw [← add_sum_erase _ _ (mem_univ i), update_self]
  exact congrArg (own + ·) (sum_congr rfl fun j hj =>
    update_of_ne (ne_of_mem_erase hj) _ _)

/-- A turn keeps the invariant, and everybody else's tokens. -/
theorem Turn.holds {p p' : Prog σ L α} {g g' : G} {s s' : σ} (h : Turn Γ.runs p g s p' g' s')
    {post : α → Multiset T → Prop} {own f : Multiset T} (hp : Holds Γ post p own)
    (hinv : Γ.Inv (own + f) g s) : ∃ own', Γ.Inv (own' + f) g' s' ∧ Holds Γ post p' own' := by
  induction h generalizing own f with
  | wake hr hm => exact advance_holds (hp.2 _ _ _ hinv hr) hm
  | @member α β n ps k g g' s s' i p _ ih =>
    obtain ⟨own₀, owns, posts, rfl, hps, hk⟩ := hp
    have hsplit :
        own₀ + ∑ j, owns j + f = owns i + (own₀ + ∑ j ∈ Finset.univ.erase i, owns j + f) := by
      rw [← add_sum_erase _ _ (mem_univ i)]
      abel
    obtain ⟨own', hinv', hp'⟩ := ih (hps i) (hsplit ▸ hinv)
    refine ⟨own₀ + ∑ j, Function.update owns i own' j, ?_, own₀, _, posts, rfl, fun j => ?_, hk⟩
    · rw [sum_update]
      convert hinv' using 1
      abel
    · by_cases hj : j = i
      · subst hj
        rw [update_self, update_self]
        exact hp'
      · rw [update_of_ne hj, update_of_ne hj]
        exact hps j
  | joined hret hm =>
    obtain ⟨own₀, owns, posts, rfl, hps, hk⟩ := hp
    refine advance_holds (hk _ owns (fun i => ?_) _ _ _ hinv) hm
    have hi := hps i
    rw [hret i] at hi
    exact hi

/-- A task that ends with nothing in its hands. -/
def Clean (_ : Unit) (own : Multiset T) : Prop := own = 0

theorem forall₂_split {A B : Type*} {R : A → B → Prop} {l₁ l₂ : List A} {a : A} {o : List B}
    (h : List.Forall₂ R (l₁ ++ a :: l₂) o) :
    ∃ o₁ b o₂, o = o₁ ++ b :: o₂ ∧ List.Forall₂ R l₁ o₁ ∧ R a b ∧ List.Forall₂ R l₂ o₂ := by
  induction l₁ generalizing o with
  | nil =>
    obtain ⟨b, o₂, hab, h₂, rfl⟩ := forall₂_cons_left_iff.mp h
    exact ⟨[], b, o₂, rfl, .nil, hab, h₂⟩
  | cons x l₁ ih =>
    obtain ⟨y, o', hxy, hrest, rfl⟩ := forall₂_cons_left_iff.mp h
    obtain ⟨o₁, b, o₂, rfl, h₁, hab, h₂⟩ := ih hrest
    exact ⟨y :: o₁, b, o₂, rfl, .cons hxy h₁, hab, h₂⟩

/-- The tasks of a pool can go on, each on its own terms, and the invariant holds for all
their tokens. -/
def Pool.Ok {ι : Type} (Γ : Regime σ L G T) (es : ι → Excuse σ T) (ids : List ι) (w : Pool σ L G) :
    Prop :=
  ∃ owns : List (ι × Multiset T), owns.map Prod.fst = ids
    ∧ List.Forall₂ (fun p x => Holds (Γ.excusing (es x.1)) Clean p x.2) w.tasks owns
    ∧ Γ.Inv (owns.map Prod.snd).sum w.ghost w.state

section pools
variable {ι : Type} {es : ι → Excuse σ T} {ids : List ι}

theorem Turn.ok {before after : List (Prog σ L Unit)} {p p' : Prog σ L Unit} {g g' : G} {s s' : σ}
    (h : Turn Γ.runs p g s p' g' s') (hw : Pool.Ok Γ es ids ⟨before ++ p :: after, g, s⟩) :
    Pool.Ok Γ es ids ⟨before ++ p' :: after, g', s'⟩ := by
  obtain ⟨owns, hids, hall, hinv⟩ := hw
  obtain ⟨o₁, ⟨i, own⟩, o₃, rfl, h₁, hp, h₃⟩ := forall₂_split hall
  have hsplit : ∀ own : Multiset T, ((o₁ ++ (i, own) :: o₃).map Prod.snd).sum
      = own + ((o₁.map Prod.snd).sum + (o₃.map Prod.snd).sum) := by
    intro own
    simp only [map_append, List.map_cons, sum_append, List.sum_cons]
    abel
  obtain ⟨own', hinv', hp'⟩ := Turn.holds (Γ := Γ.excusing (es i)) h hp (hsplit own ▸ hinv)
  refine ⟨o₁ ++ (i, own') :: o₃, ?_, rel_append h₁ (.cons hp' h₃), hsplit own' ▸ hinv'⟩
  simpa using hids

/-- Every configuration that good tasks reach is in order. -/
theorem Runs.ok {w₀ w : Pool σ L G} (h : Runs Γ.runs w₀ w) (hw : w₀.Ok Γ es ids) :
    w.Ok Γ es ids := by
  induction h with
  | start => exact hw
  | turn _ ht ih => exact ht.ok ih

/-- When all tasks have ended nobody owns anything. -/
theorem owns_ended {w : Pool σ L G} {R : Prog σ L Unit → ι × Multiset T → Prop}
    {owns : List (ι × Multiset T)}
    (hall : List.Forall₂ R w.tasks owns) (hR : ∀ x, R (.ret ()) x → x.2 = 0) (hend : w.Ended) :
    (owns.map Prod.snd).sum = 0 := by
  refine List.sum_eq_zero fun own hown => ?_
  obtain ⟨x, hx, rfl⟩ := List.mem_map.mp hown
  obtain ⟨i, hi, rfl⟩ := mem_iff_getElem.mp hx
  have hp := forall₂_iff_get.mp hall |>.2 i (hall.length_eq ▸ hi) hi
  rw [hend _ (get_mem _ _)] at hp
  exact hR _ hp

theorem Pool.Ok.ended {w : Pool σ L G} (h : w.Ok Γ es ids) (hend : w.Ended) :
    Γ.Inv 0 w.ghost w.state := by
  obtain ⟨owns, -, hall, hinv⟩ := h
  rwa [owns_ended hall (fun _ hx => hx) hend] at hinv

/-- Tasks that set out with tokens of their own. -/
theorem Pool.ok_of {ps : List (Prog σ L Unit)} {g : G} {s : σ} (owns : List (ι × Multiset T))
    (hids : owns.map Prod.fst = ids) (hinv : Γ.Inv (owns.map Prod.snd).sum g s)
    (hps : List.Forall₂ (fun p x => Triple (Γ.excusing (es x.1)) x.2 p Clean) ps owns) :
    (Pool.of ps g s).Ok Γ es ids := by
  refine ⟨owns, hids, forall₂_map_left_iff.mpr (hps.imp fun p x hp => ?_), hinv⟩
  exact ⟨(es x.1).ready _ _ fun _ => rfl, fun f g s hi _ => hp f g s hi⟩

end pools

/-- The invariant holds in every configuration that good tasks reach, and for no tokens when
all have ended. -/
theorem Runs.inv_owning {ps : List (Prog σ L Unit)} {g : G} {s : σ} {w : Pool σ L G}
    (h : Runs Γ.runs (.of ps g s) w) (owns : List (Multiset T)) (hinv : Γ.Inv owns.sum g s)
    (hps : List.Forall₂ (fun p own => Triple Γ own p Clean) ps owns) :
    ∃ M, Γ.Inv M w.ghost w.state ∧ (w.Ended → M = 0) := by
  have hstart : (Pool.of ps g s).Ok Γ (fun _ : Unit => Γ.excuse) (owns.map fun _ => ()) := by
    refine Pool.ok_of (owns.map fun own => ((), own)) (by simp) ?_ (forall₂_map_right_iff.mpr hps)
    simpa [comp_def] using hinv
  obtain ⟨owns', -, hall, hinv'⟩ := h.ok hstart
  exact ⟨_, hinv', owns_ended hall fun _ hx => hx⟩

/-- Tasks that set out with nothing in their hands. -/
theorem Runs.inv {ps : List (Prog σ L Unit)} {g : G} {s : σ} {w : Pool σ L G}
    (h : Runs Γ.runs (.of ps g s) w) (hinv : Γ.Inv 0 g s)
    (hps : ∀ p ∈ ps, ∀ f g s, Γ.Inv f g s → wpi Γ p (Gives Γ Clean) f g s) :
    ∃ M, Γ.Inv M w.ghost w.state ∧ (w.Ended → M = 0) := by
  refine h.inv_owning (ps.map fun _ => 0) (by simpa using hinv) (forall₂_map_right_iff.mpr ?_)
  exact forall₂_same.mpr fun p hp f g s hi => hps p hp f g s (by rwa [zero_add] at hi)

theorem meets_of_allows (h : ∀ l g s, Γ.runs.allows l g s) (p : Prog σ L α) (g : G) (s : σ) :
    Meets Γ.runs p g s := by
  induction p generalizing g s with
  | eff e k ih => exact ih _ g _
  | mark l k ih => exact ⟨h l g s, ih _ s⟩
  | _ => trivial

/-- A suspended program has ended, or can take a turn, or has a reason not to. -/
theorem Holds.stalled (hD : ∀ l g s, Γ.runs.allows l g s) {p : Prog σ L α}
    {post : α → Multiset T → Prop}
    {own : Multiset T} (hp : Holds Γ post p own) (g : G) (s : σ) :
    (∃ a, p = .ret a) ∨ (∃ p' g' s', Turn Γ.runs p g s p' g' s')
      ∨ ∃ own' ≤ own, ∃ r, r s = false ∧ Γ.excuse.For own' r := by
  induction p generalizing own with
  | ret a => exact .inl ⟨a, rfl⟩
  | eff e k => exact hp.elim
  | mark l k => exact hp.elim
  | await r k _ =>
    cases hr : r s with
    | true => exact .inr (.inl ⟨_, _, _, .wake hr (meets_of_allows hD k g s)⟩)
    | false => exact .inr (.inr ⟨own, le_rfl, r, hr, hp.1⟩)
  | join n ps k ih _ =>
    obtain ⟨own₀, owns, posts, rfl, hps, -⟩ := hp
    by_cases hall : ∀ i, ∃ b, ps i = .ret b
    · choose bs hbs using hall
      exact .inr (.inl ⟨_, _, _, .joined hbs (meets_of_allows hD (k bs) g s)⟩)
    · push Not at hall
      obtain ⟨i, hi⟩ := hall
      rcases ih i (hps i) with ⟨b, hb⟩ | ⟨p', g', s', ht⟩ | ⟨own', hle, hstall⟩
      · exact absurd hb (hi b)
      · exact .inr (.inl ⟨_, _, _, .member ht⟩)
      · refine .inr (.inr ⟨own', hle.trans ?_, hstall⟩)
        exact (Finset.single_le_sum (fun _ _ => Multiset.zero_le _) (mem_univ i)).trans
          (Multiset.le_add_left ..)

/-! ### Rules by shape of program -/

section rules
variable {f : Multiset T} {g : G} {s : σ}

@[simp] theorem wpi_pure (a : α) (Q : α → Multiset T → G → σ → Prop) :
    wpi Γ (pure a : Prog σ L α) Q f g s ↔ Q a f g s := Iff.rfl

@[simp] theorem wpi_seq (p : Prog σ L α) (c : α → Prog σ L β) (Q : β → Multiset T → G → σ → Prop) :
    wpi Γ (p >>= c) Q f g s ↔ wpi Γ p (fun a f g s => wpi Γ (c a) Q f g s) f g s :=
  wpi_bind p c Q f g s

@[simp] theorem wpi_step (e : σ → α × σ) (Q : α → Multiset T → G → σ → Prop) :
    wpi Γ (Prog.step e : Prog σ L α) Q f g s ↔ Q (e s).1 f g (e s).2 := Iff.rfl

@[simp] theorem wpi_gets (e : σ → α) (Q : α → Multiset T → G → σ → Prop) :
    wpi Γ (Prog.gets e : Prog σ L α) Q f g s ↔ Q (e s) f g s := Iff.rfl

@[simp] theorem wpi_modify (e : σ → σ) (Q : Unit → Multiset T → G → σ → Prop) :
    wpi Γ (Prog.modify e : Prog σ L Unit) Q f g s ↔ Q () f g (e s) := Iff.rfl

@[simp] theorem wpi_at (l : L) (Q : Unit → Multiset T → G → σ → Prop) :
    wpi Γ (Prog.at_ l : Prog σ L Unit) Q f g s
      ↔ (Γ.runs.allows l g s → Q () f (Γ.runs.note l s g) s) :=
  Iff.rfl

theorem wpi_wait (r : σ → Bool) (Q : Unit → Multiset T → G → σ → Prop) :
    wpi Γ (Prog.wait r : Prog σ L Unit) Q f g s
      ↔ ∃ own, Γ.Inv (own + f) g s ∧ Γ.excuse.For own r
        ∧ ∀ f g s, Γ.Inv (own + f) g s → r s = true → Q () f g s := Iff.rfl

theorem wpi_yield (Q : Unit → Multiset T → G → σ → Prop) :
    wpi Γ (Prog.yield : Prog σ L Unit) Q f g s
      ↔ ∃ own, Γ.Inv (own + f) g s ∧ ∀ f g s, Γ.Inv (own + f) g s → Q () f g s := by
  simp [Prog.yield, wpi_wait, Γ.excuse.ready]

end rules

/-! ### Programs the invariant does not see -/

/-- A program whose effects and marks the invariant takes no notice of. -/
theorem wpi_within {N : L → Prop} {W : (σ → Bool) → Prop} {R : σ → σ → Prop} {p : Prog σ L α}
    (hp : p.Within N W R) (hN : ∀ l, N l → ∀ M g s, Γ.Inv M g s → Γ.Inv M (Γ.runs.note l s g) s)
    (hW : ∀ r, W r → ∀ own, Γ.excuse.For own r)
    (hR : ∀ M g s s', Γ.Inv M g s → R s s' → Γ.Inv M g s')
    {own f : Multiset T} {g : G} {s : σ} {Q : α → Multiset T → G → σ → Prop}
    (hs : Γ.Inv (own + f) g s) (hQ : ∀ a f g s, Γ.Inv (own + f) g s → Q a f g s) :
    wpi Γ p Q f g s := by
  induction p generalizing own f g s with
  | ret a => exact hQ a f g s hs
  | eff e k ih => exact ih _ (hp s).2 (hR _ _ _ _ hs (hp s).1) hQ
  | mark l k ih => exact fun _ => ih hp.2 (hN l hp.1 _ _ _ hs) hQ
  | await r k ih => exact ⟨own, hs, hW r hp.1 own, fun f g s hi _ => ih hp.2 hi hQ⟩
  | join n ps k ihps ihk =>
    refine ⟨own, fun _ => 0, fun _ _ own => own = 0, by simpa using hs, fun i f g s hi => ?_,
      fun bs owns hz f g s hi => ?_⟩
    · exact ihps i (hp.1 i) hi fun b f g s hi => ⟨0, hi, rfl⟩
    · have hzero : ∑ i, owns i = 0 := Finset.sum_eq_zero fun i _ => hz i
      rw [hzero, add_zero] at hi
      exact ihk bs (hp.2 bs) hi hQ

/-! ### Triples -/

/-- Exactly these tokens. -/
def Owning {α : Type} (own : Multiset T) (_ : α) (own' : Multiset T) : Prop := own' = own

section triples
variable {pre : Multiset T} {p : Prog σ L α} {post : α → Multiset T → Prop}

theorem Triple.ret {a : α} (h : post a pre) : Triple Γ pre (pure a) post :=
  fun _ _ _ hi => ⟨pre, hi, h⟩

theorem Triple.seq {mid : α → Multiset T → Prop} {k : α → Prog σ L β} {post : β → Multiset T → Prop}
    (hp : Triple Γ pre p mid) (hk : ∀ a own, mid a own → Triple Γ own (k a) post) :
    Triple Γ pre (p >>= k) post := by
  intro f g s hi
  rw [wpi_seq]
  refine wpi_mono (hp f g s hi) ?_
  rintro a f g s ⟨own, hi, hmid⟩
  exact hk a own hmid f g s hi

theorem Triple.conseq {post' : α → Multiset T → Prop} (hp : Triple Γ pre p post)
    (h : ∀ a own, post a own → post' a own) : Triple Γ pre p post' := by
  intro f g s hi
  refine wpi_mono (hp f g s hi) ?_
  rintro a f g s ⟨own, hi, hpost⟩
  exact ⟨own, hi, h a own hpost⟩

/-- Tokens may be forgotten where the invariant asks for less without them. -/
theorem Triple.drop {post' : α → Multiset T → Prop} (hp : Triple Γ pre p post)
    (h : ∀ a own, post a own → ∃ own', post' a own' ∧ ∀ f g s, Γ.Inv (own + f) g s →
      Γ.Inv (own' + f) g s) :
    Triple Γ pre p post' := by
  intro f g s hi
  refine wpi_mono (hp f g s hi) ?_
  rintro a f g s ⟨own, hi, hpost⟩
  obtain ⟨own', hpost', hless⟩ := h a own hpost
  exact ⟨own', hless f g s hi, hpost'⟩

theorem Triple.within {N : L → Prop} {W : (σ → Bool) → Prop} {R : σ → σ → Prop}
    (hN : ∀ l, N l → ∀ M g s, Γ.Inv M g s → Γ.Inv M (Γ.runs.note l s g) s)
    (hW : ∀ r, W r → ∀ own, Γ.excuse.For own r)
    (hR : ∀ M g s s', Γ.Inv M g s → R s s' → Γ.Inv M g s') (hp : p.Within N W R) :
    Triple Γ pre p (Owning pre) :=
  fun _ _ _ hi => wpi_within hp hN hW hR hi fun _ _ _ _ hi => ⟨pre, hi, rfl⟩

theorem wpi_frame (hex : ∀ own r F, Γ.excuse.For own r → Γ.excuse.For (own + F) r) {p : Prog σ L α}
    {Q : α → Multiset T → G → σ → Prop} {F f : Multiset T} {g : G} {s : σ}
    (h : wpi Γ p Q (F + f) g s) :
    wpi Γ p (fun a f g s => Q a (F + f) g s) f g s := by
  induction p generalizing f g s with
  | ret a => exact h
  | eff e k ih => exact ih _ h
  | mark l k ih => exact fun hl => ih (h hl)
  | await r k ih =>
    obtain ⟨own, hinv, hw, hk⟩ := h
    refine ⟨own + F,
      by rwa [add_assoc], hex own r F hw, fun f g s hi hr => ih (hk (F + f) g s ?_ hr)⟩
    rwa [← add_assoc]
  | join n ps k ihp ihk =>
    obtain ⟨own, owns, post, hinv, hps, hk⟩ := h
    have hsplit : ∀ (owns : Fin n → Multiset T) f, own + F + ∑ i, owns i + f = own + ∑ i,
        owns i + (F + f) := by
      intro owns f
      abel
    refine ⟨own + F, owns, post,
      by rwa [hsplit], hps, fun bs owns hp f g s hi => ihk bs (hk bs owns hp _ g s ?_)⟩
    rwa [← hsplit]

/-- Tokens that the program has no use for stay in hand. -/
theorem Triple.frame (hex : ∀ own r F, Γ.excuse.For own r → Γ.excuse.For (own + F) r)
    (F : Multiset T)
    (hp : Triple Γ pre p post) : Triple Γ (pre + F) p fun a own => ∃ own', own = own' + F
    ∧ post a own' := by
  intro f g s h
  rw [add_assoc] at h
  refine wpi_mono (wpi_frame hex (hp (F + f) g s h)) ?_
  rintro a f g s ⟨own, hinv, hpost⟩
  exact ⟨own + F, by rwa [add_assoc], own, rfl, hpost⟩

theorem Triple.gets (e : σ → α) : Triple Γ pre (Prog.gets e) (Owning pre) :=
  fun _ _ _ hi => ⟨pre, hi, rfl⟩

theorem Triple.yield : Triple Γ pre (Prog.yield : Prog σ L Unit) (Owning pre) :=
  fun _ _ _ hi => (wpi_yield _).mpr ⟨pre, hi, fun _ _ _ hi => ⟨pre, hi, rfl⟩⟩

/-- A step between two suspensions, which may set a mark. -/
def Prog.exchange (e : σ → α × σ) (mark : α → Option L) : Prog σ L α := do
  Prog.yield
  let a ← Prog.step e
  match mark a with
  | some l => Prog.at_ l
  | none => pure ()
  Prog.yield
  return a

theorem Triple.exchange {e : σ → α × σ} {mark : α → Option L} (h : ∀ f g s, Γ.Inv (pre + f) g s →
      (∀ l, mark (e s).1 = some l → Γ.runs.allows l g (e s).2) →
      ∃ own, Γ.Inv (own + f) ((mark (e s).1).elim g fun l => Γ.runs.note l (e s).2 g) (e s).2
        ∧ post (e s).1 own) :
    Triple Γ pre (Prog.exchange e mark) post := by
  intro f g s hi
  refine (wpi_seq _ _ _).mpr ((wpi_yield _).mpr ⟨pre, hi, fun f g s hi => ?_⟩)
  refine (wpi_seq _ _ _).mpr ?_
  rw [wpi_step]
  have hend : ∀ {own g'}, Γ.Inv (own + f) g' (e s).2 → post (e s).1 own →
      wpi Γ (do Prog.yield; return (e s).1) (Gives Γ post) f g' (e s).2 := fun {own} _ hinv hpost =>
    (wpi_seq _ _ _).mpr ((wpi_yield _).mpr ⟨own, hinv, fun f g s hi => ⟨own, hi, hpost⟩⟩)
  have hstep := h f g s hi
  cases hm : mark (e s).1 with
  | none =>
    rw [hm] at hstep
    obtain ⟨own, hinv, hpost⟩ := hstep nofun
    exact hend hinv hpost
  | some l =>
    rw [hm] at hstep
    intro hallow
    obtain ⟨own, hinv, hpost⟩ := hstep fun l' hl => Option.some.inj hl ▸ hallow
    exact hend hinv hpost

theorem Triple.run_seq {ε : Type} {p : ExceptT ε (Prog σ L) α} {k : α → ExceptT ε (Prog σ L) β}
    {mid : Except ε α → Multiset T → Prop} {post : Except ε β → Multiset T → Prop}
    (hp : Triple Γ pre p.run mid) (hk : ∀ a own, mid (.ok a) own → Triple Γ own (k a).run post)
    (he : ∀ e own, mid (.error e) own → post (.error e) own) : Triple Γ pre (p >>= k).run post := by
  rw [ExceptT.run_bind]
  refine hp.seq fun r own hmid => ?_
  cases r with
  | ok a => exact hk a own hmid
  | error e => exact .ret (he e own hmid)

/-- Code in front that leaves the tokens as they are. -/
theorem Triple.run_after {ε : Type} {p : ExceptT ε (Prog σ L) α} {k : α → ExceptT ε (Prog σ L) β}
    {post : Except ε β → Multiset T → Prop} (hp : Triple Γ pre p.run (Owning pre))
    (hk : ∀ a, Triple Γ pre (k a).run post) (he : ∀ e, post (.error e) pre) :
    Triple Γ pre (p >>= k).run post := by
  refine Triple.run_seq hp ?_ ?_
  · rintro a own rfl
    exact hk a
  · rintro e own rfl
    exact he e

theorem Triple.run_lift {ε : Type} {post : Except ε α → Multiset T → Prop}
    (hp : Triple Γ pre p fun a => post (.ok a)) :
    Triple Γ pre (ExceptT.lift p : ExceptT ε (Prog σ L) α).run post := by
  rw [ExceptT.run_lift]
  exact hp.seq fun a own h => .ret h

/-- Code in front that cannot fail. -/
theorem Triple.run_lift_seq {ε : Type} {mid : α → Multiset T → Prop}
    {k : α → ExceptT ε (Prog σ L) β}
    {post : Except ε β → Multiset T → Prop} (hp : Triple Γ pre p mid)
    (hk : ∀ a own, mid a own → Triple Γ own (k a).run post) :
    Triple Γ pre (ExceptT.lift p >>= k).run post := by
  have hlift : Triple Γ pre (ExceptT.lift p : ExceptT ε (Prog σ L) α).run
      fun r own => ∃ a, r = .ok a ∧ mid a own :=
    Triple.run_lift (hp.conseq fun a own h => ⟨a, rfl, h⟩)
  refine Triple.run_seq hlift ?_ ?_
  · rintro a own ⟨_, heq, h⟩
    cases heq
    exact hk a own h
  · rintro e own ⟨_, heq, -⟩
    cases heq

end triples

/-! ### What programs can return -/

/-- Whatever the program returns satisfies `φ`. -/
def Prog.Returns {σ L : Type} : {α : Type} → (α → Prop) → Prog σ L α → Prop
  | _, φ, .ret a => φ a
  | _, φ, .eff e k => ∀ s, (k (e s).1).Returns φ
  | _, φ, .mark _ k => k.Returns φ
  | _, φ, .await _ k => k.Returns φ
  | _, φ, .join _ _ k => ∀ bs, (k bs).Returns φ

theorem Prog.Returns.seq {φ : α → Prop} {ψ : β → Prop} {p : Prog σ L α} {k : α → Prog σ L β}
    (hp : p.Returns φ)
    (hk : ∀ a, φ a → (k a).Returns ψ) : (p >>= k).Returns ψ := by
  show (p.bind k).Returns ψ
  induction p with
  | ret a => exact hk a hp
  | eff e k' ih => exact fun s => ih _ (hp s) hk
  | mark l k' ih => exact ih hp hk
  | await r k' ih => exact ih hp hk
  | join n ps k' _ ih => exact fun bs => ih bs (hp bs) hk

theorem Prog.returns_any (p : Prog σ L α) : p.Returns fun _ => True := by
  induction p with
  | ret a => exact trivial
  | eff e k ih => exact fun s => ih _
  | mark l k ih => exact ih
  | await r k ih => exact ih
  | join n ps k _ ih => exact fun bs => ih bs

theorem wpi_returns {φ : α → Prop} {p : Prog σ L α} {Q : α → Multiset T → G → σ → Prop}
    {f : Multiset T} {g : G}
    {s : σ} (hp : p.Returns φ) (h : wpi Γ p Q f g s) :
    wpi Γ p (fun a f g s => Q a f g s ∧ φ a) f g s := by
  induction p generalizing f g s with
  | ret a => exact ⟨h, hp⟩
  | eff e k ih => exact ih _ (hp s) h
  | mark l k ih => exact fun hl => ih hp (h hl)
  | await r k ih =>
    obtain ⟨own, hinv, hex, hk⟩ := h
    exact ⟨own, hinv, hex, fun f g s hi hr => ih hp (hk f g s hi hr)⟩
  | join n ps k _ ih =>
    obtain ⟨own, owns, post, hinv, hps, hk⟩ := h
    exact ⟨own, owns, post, hinv, hps, fun bs owns hpost f g s hi =>
      ih bs (hp bs) (hk bs owns hpost f g s hi)⟩

theorem Triple.returns {φ : α → Prop} {pre : Multiset T} {p : Prog σ L α}
    {post : α → Multiset T → Prop}
    (hp : Triple Γ pre p post) (hφ : p.Returns φ) :
    Triple Γ pre p fun a own => post a own ∧ φ a := by
  intro f g s hi
  refine wpi_mono (wpi_returns hφ (hp f g s hi)) ?_
  rintro a f g s ⟨⟨own, hi, hpost⟩, ha⟩
  exact ⟨own, hi, hpost, ha⟩

/-- The errors of a function that returns a `Result` satisfy `φ`. -/
def Prog.Fails {ε : Type} (φ : ε → Prop) (p : ExceptT ε (Prog σ L) α) : Prop :=
  p.run.Returns fun r => ∀ e, r = .error e → φ e

theorem Prog.Fails.seq {ε : Type} {φ : ε → Prop} {p : ExceptT ε (Prog σ L) α}
    {k : α → ExceptT ε (Prog σ L) β}
    (hp : Prog.Fails φ p) (hk : ∀ a, Prog.Fails φ (k a)) : Prog.Fails φ (p >>= k) := by
  unfold Prog.Fails
  rw [ExceptT.run_bind]
  refine Prog.Returns.seq hp fun r hr => ?_
  cases r with
  | ok a => exact hk a
  | error e =>
    rintro _ ⟨rfl⟩
    exact hr e rfl

/-! ### Functions that return a `Result` -/

/-- `wpi` for functions that return a `Result`. -/
def wpix (Γ : Regime σ L G T) {ε : Type} (p : ExceptT ε (Prog σ L) α)
    (Q : Except ε α → Multiset T → G → σ → Prop) (f : Multiset T) (g : G) (s : σ) : Prop :=
  wpi Γ p.run Q f g s

section results
variable {ε : Type} {f : Multiset T} {g : G} {s : σ}

theorem wpi_run (p : ExceptT ε (Prog σ L) α) (Q : Except ε α → Multiset T → G → σ → Prop) :
    wpi Γ p.run Q f g s ↔ wpix Γ p Q f g s := Iff.rfl

@[simp] theorem wpix_lift (p : Prog σ L α) (Q : Except ε α → Multiset T → G → σ → Prop) :
    wpix Γ (ExceptT.lift p : ExceptT ε (Prog σ L) α) Q f g s
      ↔ wpi Γ p (fun a f g s => Q (.ok a) f g s) f g s := by
  unfold wpix
  rw [ExceptT.run_lift]
  simp only [Functor.map, wpi_bind, comp_apply]
  rfl

/-- Go on with the value, or return the error. -/
def onOkI (k : α → Multiset T → G → σ → Prop) (Q : Except ε β → Multiset T → G → σ → Prop) :
    Except ε α → Multiset T → G → σ → Prop
  | .ok a, f, g, s => k a f g s
  | .error e, f, g, s => Q (.error e) f g s

@[simp] theorem onOkI_ok (k : α → Multiset T → G → σ → Prop)
    (Q : Except ε β → Multiset T → G → σ → Prop) (a : α) :
    onOkI k Q (.ok a) f g s = k a f g s := rfl

@[simp] theorem wpix_seq (p : ExceptT ε (Prog σ L) α) (c : α → ExceptT ε (Prog σ L) β)
    (Q : Except ε β → Multiset T → G → σ → Prop) :
    wpix Γ (p >>= c) Q f g s
      ↔ wpix Γ p (onOkI (fun a f g s => wpix Γ (c a) Q f g s) Q) f g s := by
  unfold wpix
  rw [ExceptT.run_bind, wpi_seq]
  refine iff_of_eq (congrArg (fun R => wpi Γ p.run R f g s)
    (funext fun r => funext fun f => funext fun g => funext fun s => ?_))
  cases r with
  | ok a => rfl
  | error e => rfl

end results

end logic

/-! ## Numbered tasks -/

/-- The same program with other marks. -/
def Prog.relabel {σ L M : Type} (n : L → M) : {α : Type} → Prog σ L α → Prog σ M α
  | _, .ret a => .ret a
  | _, .eff e k => .eff e fun b => (k b).relabel n
  | _, .mark l k => .mark (n l) (k.relabel n)
  | _, .await r k => .await r (k.relabel n)
  | _, .join m ps k => .join m (fun i => (ps i).relabel n) fun bs => (k bs).relabel n

section numbered
variable {σ L M G T α : Type}

/-- The terms as a task sees them whose marks are known under other names. -/
abbrev Regime.via (Γ : Regime σ M G T) (n : L → M) : Regime σ L G T :=
  ⟨⟨fun l => Γ.runs.note (n l), fun l => Γ.runs.allows (n l)⟩, Γ.Inv, Γ.excuse⟩

theorem wpi_relabel {Γ : Regime σ M G T} {n : L → M} {p : Prog σ L α}
    {Q : α → Multiset T → G → σ → Prop}
    {f : Multiset T} {g : G} {s : σ} (h : wpi (Γ.via n) p Q f g s) :
    wpi Γ (p.relabel n) Q f g s := by
  induction p generalizing f g s with
  | ret a => exact h
  | eff e k ih => exact ih _ h
  | mark l k ih => exact fun hl => ih (h hl)
  | await r k ih =>
    obtain ⟨own, hinv, hex, hk⟩ := h
    exact ⟨own, hinv, hex, fun f g s hi hr => ih (hk f g s hi hr)⟩
  | join m ps k ihps ihk =>
    obtain ⟨own, owns, post, hinv, hps, hk⟩ := h
    exact ⟨own, owns, post, hinv, fun i f g s hi => ihps i (hps i f g s hi),
      fun bs owns hp f g s hi => ihk bs (hk bs owns hp f g s hi)⟩

/-- Programs whose marks carry the number of the task. -/
def numbered (ps : List (Prog σ L Unit)) : List (Prog σ (Nat × L) Unit) :=
  ps.mapIdx fun i p => p.relabel (Prod.mk i)

/-- Tasks whose marks are told apart by `n`. -/
def tagged (n : Nat → L → M) (ps : List (Prog σ L Unit)) : List (Prog σ M Unit) :=
  ps.mapIdx fun i p => p.relabel (n i)

theorem sum_singletons (ids : List Nat) (own : Nat → T) :
    (ids.map fun i => ({own i} : Multiset T)).sum = (ids.map own : List T) := by
  induction ids with
  | nil => rfl
  | cons i ids ih =>
    rw [List.map_cons, List.sum_cons, ih, List.map_cons, ← Multiset.cons_coe,
      Multiset.singleton_add]

/-- Tagged tasks, each with tokens of its own. -/
theorem Pool.ok_tagged {Γ : Regime σ M G T} {n : Nat → L → M} {es : Nat → Excuse σ T}
    {ps : List (Prog σ L Unit)} {g : G} {s : σ} (own : Nat → Multiset T)
    (hinv : Γ.Inv ((List.range ps.length).map own).sum g s)
    (hps : ∀ i p, ps[i]? = some p → Triple ((Γ.excusing (es i)).via (n i)) (own i) p Clean) :
    (Pool.of (tagged n ps) g s).Ok Γ es (List.range ps.length) := by
  refine Pool.ok_of ((List.range ps.length).map fun i => (i, own i)) (by simp [comp_def])
    (by simpa [comp_def] using hinv) (forall₂_iff_get.mpr ⟨by simp [tagged], ?_⟩)
  intro i h₁ h₂ f g s hi
  have hlt : i < ps.length := by simpa [tagged] using h₁
  simp only [tagged, get_eq_getElem, getElem_mapIdx, getElem_map, getElem_range] at hi ⊢
  exact wpi_relabel (hps i _ (getElem?_eq_getElem hlt) f g s hi)

/-- Numbered tasks, each with tokens of its own. -/
theorem Pool.ok_numbered {Γ : Regime σ (Nat × L) G T} {es : Nat → Excuse σ T}
    {ps : List (Prog σ L Unit)} {g : G} {s : σ} (own : Nat → Multiset T)
    (hinv : Γ.Inv ((List.range ps.length).map own).sum g s)
    (hps : ∀ i p, ps[i]? = some p → Triple ((Γ.excusing (es i)).via (Prod.mk i)) (own i) p Clean) :
    (Pool.of (numbered ps) g s).Ok Γ es (List.range ps.length) := Pool.ok_tagged own hinv hps

end numbered

/-! ## Schedules -/

section schedules
variable {σ L G : Type} (D : Discipline σ L G) [∀ l g s, Decidable (D.allows l g s)]

/-- The result of a program that has ended. -/
def Prog.returned {α : Type} : Prog σ L α → Option α
  | .ret a => some a
  | _ => none

/-- Whether the marks on the way to the next suspension allow it. -/
def meets : {α : Type} → Prog σ L α → G → σ → Bool
  | _, .eff e k, g, s => meets (k (e s).1) g (e s).2
  | _, .mark l k, g, s => decide (D.allows l g s) && meets k (D.note l s g) s
  | _, _, _, _ => true

/-- Resume the task at a path through joins. -/
def poll : {α : Type} → List Nat → Prog σ L α → G → σ → Option (Prog σ L α × G × σ)
  | _, [], .await r k, g, s => if r s ∧ meets D k g s then some (advance D k g s) else none
  | _, [], .join _ ps k, g, s =>
    if h : ∀ i, (ps i).returned.isSome then
      let next := k fun i => (ps i).returned.get (h i)
      if meets D next g s then some (advance D next g s) else none
    else none
  | _, i :: path, .join n ps k, g, s =>
    if h : i < n then
      (poll path (ps ⟨i, h⟩) g s).map fun (p, g, s) =>
      (.join n (Function.update ps ⟨i, h⟩ p) k, g, s)
    else none
  | _, _, _, _, _ => none

/-- Resume tasks one after another, each by its number and a path. -/
def schedule : List (Nat × List Nat) → Pool σ L G → Option (Pool σ L G)
  | [], w => some w
  | (i, path) :: rest, w => do
    let p ← w.tasks[i]?
    let (p, g, s) ← poll D path p w.ghost w.state
    schedule rest ⟨w.tasks.set i p, g, s⟩

variable {D}

theorem Prog.eq_ret_of_returned {α : Type} {p : Prog σ L α} {a : α} (h : p.returned = some a) :
    p = .ret a := by
  cases p with
  | ret b => exact congrArg _ (Option.some.inj h)
  | _ => cases h

/-- The tasks of a pool that have all returned. -/
theorem ended_of_returned {w : Pool σ L G} (h : w.tasks.all (fun p => p.returned.isSome) = true) :
    w.Ended := by
  intro p hp
  obtain ⟨_, hret⟩ := Option.isSome_iff_exists.mp (all_eq_true.mp h p hp)
  exact Prog.eq_ret_of_returned hret

theorem meets_sound {α : Type} {p : Prog σ L α} {g : G} {s : σ} (h : meets D p g s = true) :
    Meets D p g s := by
  induction p generalizing g s with
  | eff e k ih => exact ih _ h
  | mark l k ih =>
    simp only [meets, Bool.and_eq_true, decide_eq_true_eq] at h
    exact ⟨h.1, ih h.2⟩
  | _ => exact trivial

theorem poll_turn {α : Type} {path : List Nat} {p p' : Prog σ L α} {g g' : G} {s s' : σ}
    (h : poll D path p g s = some (p', g', s')) : Turn D p g s p' g' s' := by
  induction p generalizing path g' s' with
  | ret a => cases path <;> cases h
  | eff e k => cases path <;> cases h
  | mark l k => cases path <;> cases h
  | await r k =>
    cases path with
    | cons => cases h
    | nil =>
      simp only [poll] at h
      split at h
      · rename_i hr
        have hturn := Turn.wake (D := D) hr.1 (meets_sound hr.2)
        rwa [Option.some.inj h] at hturn
      · cases h
  | join n ps k ih =>
    cases path with
    | nil =>
      simp only [poll] at h
      split at h
      · rename_i hall
        split at h
        · rename_i hm
          have hturn := Turn.joined (D := D) (k := k) (g := g) (s := s)
            (fun i => Prog.eq_ret_of_returned (Option.some_get (hall i)).symm) (meets_sound hm)
          rwa [Option.some.inj h] at hturn
        · cases h
      · cases h
    | cons i path =>
      simp only [poll] at h
      split at h
      · obtain ⟨⟨q, g₁, s₁⟩, hq, heq⟩ := Option.map_eq_some_iff.mp h
        cases heq
        exact .member (ih _ hq)
      · cases h

/-- What a schedule leads to is reached. -/
theorem runs_of_schedule {turns : List (Nat × List Nat)} {w₀ w w' : Pool σ L G} (hw : Runs D w₀ w)
    (h : schedule D turns w = some w') : Runs D w₀ w' := by
  induction turns generalizing w with
  | nil => cases h; exact hw
  | cons t turns ih =>
    obtain ⟨i, path⟩ := t
    simp only [schedule, Option.bind_eq_bind, Option.bind_eq_some_iff] at h
    obtain ⟨p, hp, ⟨p', g', s'⟩, hpoll, hrest⟩ := h
    refine ih ?_ hrest
    obtain ⟨hi, rfl⟩ := List.getElem?_eq_some_iff.mp hp
    have hsplit : w.tasks = w.tasks.take i ++ w.tasks[i] :: w.tasks.drop (i + 1) := by
      rw [getElem_cons_drop, take_append_drop]
    rw [set_eq_take_append_cons_drop, if_pos hi]
    refine .turn ?_ (poll_turn hpoll)
    rw [← hsplit]
    exact hw

end schedules

instance {σ L G : Type} (note : L → σ → G → G) (l : L) (g : G) (s : σ) :
    Decidable ((Discipline.record note).allows l g s) := inferInstanceAs (Decidable True)

end Async
