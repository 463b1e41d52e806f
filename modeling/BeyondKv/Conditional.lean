/-
# Conditional writes

Any number of writes to a namespace log run on one thread, interleaved in any way, faults of
the disk included. Each takes effect at one instant between its start and its return, and
there it does what a store that served the calls one by one in that order would do
(`writes_linearizable`): a conditional write tests the revision that its key has at that
instant. A revision is superseded once, so two writes that expect the same one cannot both
succeed; a write whose condition fails changes nothing at all.
-/
import BeyondKv.Appends
import BeyondKv.Lib.Tentative
import BeyondKv.Linear

namespace BeyondKv

open Async List

/-! ## Calls as tasks -/

/-- The marks around a call. -/
inductive Stage where
  | started
  | finished (r : Except EngineError (List UInt64))
  deriving DecidableEq

/-- What a store that serves one call at a time does: its effect and the revisions it returns. -/
def Call.spec : Call → Spec (List UInt64)
  | .putFull k v m x => fun A es rs => ∃ t, rs = [t] ∧ putSpec k v m x A es t
  | .putFullCond k v m x cond now =>
    fun A es rs => ∃ r, rs = r.toList ∧ putCondSpec k v m x cond now A es r
  | .putMany pairs => putManySpec pairs
  | .tombstone k => fun A es rs => ∃ r, rs = r.toList ∧ tombstoneSpec k A es r
  | .tombstoneCond k rev now =>
    fun A es rs => ∃ r, rs = r.toList ∧ tombstoneCondSpec k rev now A es r
  | .ttlUpdate k x => fun A es rs => ∃ t, rs = [t] ∧ ttlSpec k x A es t
  | _ => fun _ _ _ => False

/-- The calls that write records of their own. -/
def Call.Writes : Call → Bool
  | .putFull .. | .putFullCond .. | .putMany _ | .tombstone _ | .tombstoneCond .. | .ttlUpdate .. =>
    true
  | _ => false

/-- The deeds of a call come in order: it starts, it takes effect as specified, it returns what
the specification says. A call that fails may have taken effect. -/
def Call.Next (c : Call) (done : List (Known × Deed Stage)) (A : Known) : Deed Stage → Prop
  | .inr .started => done = []
  | .inl es => (∃ A₁, done = [(A₁, .inr .started)]) ∧ ∃ rs, c.spec A es rs
  | .inr (.finished (.ok rs)) =>
    ∃ A₁ A₂ es, done = [(A₂, .inl es), (A₁, .inr .started)] ∧ c.spec A₂ es rs
  | .inr (.finished (.error _)) =>
    ∃ A₁, done = [(A₁, .inr .started)] ∨ ∃ A₂ es, done = [(A₂, .inl es), (A₁, .inr .started)]

def Call.task (P : Prims) (c : Call) : Prog NsState (Point ⊕ Stage) Unit := do
  Prog.at_ (.inr .started)
  let r ← (c.act P).run.relabel .inl
  Prog.at_ (.inr (.finished r))

def callTasks (P : Prims) (calls : List Call) : List (Prog NsState (Nat × (Point ⊕ Stage)) Unit) :=
  numbered (calls.map (Call.task P))

def callRules (calls : List Call) (s : NsState) : Rules Nat Stage where
  start := s.index.known
  room := Headroom (calls.map Call.draws).sum s ∧ Dated s
  ok i done A d := ∃ c, calls[i]? = some c ∧ c.Next done A d

/-- A call that has not started. -/
def Call.waits (c : Call) : Standing Stage := ⟨[], c.draws, ∅, fun _ => ⟨none, none⟩, []⟩

section calls
variable {P : Prims} {R : Rules Nat Stage} {i : Nat} {a : Standing Stage}

theorem Call.acts {c : Call} (hc : c.Writes = true) (ha : a.locks = ∅) (hd : c.draws ≤ a.draws)
    (hok : ∀ A es rs, c.spec A es rs → R.ok i a.did A (.inl es)) :
    Acts P R i a c.draws (c.act P) c.spec := by
  cases c with
  | putFull k v m x =>
    exact (acts_putFull ha hd fun A es t h => hok A es [t] ⟨t, rfl, h⟩).map (fun t => [t])
      fun A es t h => ⟨t, rfl, h⟩
  | putFullCond k v m x cond now =>
    exact (acts_putFullCond ha hd fun A es r h => hok A es r.toList ⟨r, rfl, h⟩).map Option.toList
      fun A es r h => ⟨r, rfl, h⟩
  | putMany pairs => exact acts_putMany ha hd hok
  | tombstone k =>
    exact (acts_tombstone ha hd fun A es r h => hok A es r.toList ⟨r, rfl, h⟩).map Option.toList
      fun A es r h => ⟨r, rfl, h⟩
  | tombstoneCond k rev now =>
    exact (acts_tombstoneCond ha hd fun A es r h => hok A es r.toList ⟨r, rfl, h⟩).map Option.toList
      fun A es r h => ⟨r, rfl, h⟩
  | ttlUpdate k x =>
    exact (acts_ttlUpdate ha hd fun A es t h => hok A es [t] ⟨t, rfl, h⟩).map (fun t => [t])
      fun A es t h => ⟨t, rfl, h⟩
  | _ => cases hc

/-- A mark of the task's own. -/
theorem triple_note {N : Type} {R : Rules Nat N} {a : Standing N} {n : N}
    (hok : ∀ A, R.ok i a.did A (.inr n)) :
    Triple ((linear P R).via (Prod.mk i)) {(i, a)} (Prog.at_ (.inr n)) fun _ own =>
      ∃ A, own = {(i, { a with did := (A, .inr n) :: a.did })} :=
  fun _ _ _ h _ => ⟨_, h.note (hok _), _, rfl⟩

theorem Call.runs {c : Call} {calls : List Call} {s : NsState} (hc : c.Writes = true)
    (hi : calls[i]? = some c) :
    Triple ((linear P (callRules calls s)).via (Prod.mk i)) {(i, c.waits)} (c.task P) Clean := by
  refine Triple.seq (triple_note fun A => ⟨c, hi, rfl⟩) ?_
  rintro _ _ ⟨A₁, rfl⟩
  have hacts : Acts P (callRules calls s) i { c.waits with did := [(A₁, .inr .started)] } c.draws
    (c.act P) c.spec :=
    Call.acts hc rfl le_rfl fun A es rs h => ⟨c, hi, ⟨A₁, rfl⟩, rs, h⟩
  refine Triple.seq (fun f g s h => wpi_relabel (hacts f g s h)) ?_
  rintro r _ ⟨b, rfl, -, -, ht⟩
  have hnext : ∀ A, c.Next b.did A (.inr (.finished r)) := by
    intro A
    cases r with
    | ok rs =>
      obtain ⟨A₂, es, hspec, hdid⟩ := ht
      exact ⟨A₁, A₂, es, hdid, hspec⟩
    | error e => exact ⟨A₁, ht.imp_right fun ⟨A₂, es, _, _, hdid⟩ => ⟨A₂, es, hdid⟩⟩
  refine Triple.drop (triple_note fun A => ⟨c, hi, hnext A⟩) ?_
  rintro _ _ ⟨A, rfl⟩
  exact ⟨0, rfl, fun f g s h => by rw [zero_add]; exact h.ended⟩

end calls

/-! ## Runs -/

section runs
variable {P : Prims} {calls : List Call} {s₀ : NsState}
  {w : Pool NsState (Nat × (Point ⊕ Stage)) (List (Nat × (Point ⊕ Stage)))}

/-- What every run of writes keeps. -/
theorem calls_linear (hcalls : ∀ c ∈ calls, c.Writes = true)
    (hrun : Runs (tracing Nat Stage) (.of (callTasks P calls) [] s₀) w) :
    ∃ M, Linear P (callRules calls s₀) M w.ghost w.state := by
  let own : Nat → Standing Stage := fun i => ((calls[i]?).getD .sync).waits
  have hstart : (Pool.of (callTasks P calls) [] s₀).Ok (linear P (callRules calls s₀))
      (fun _ => (linear P (callRules calls s₀)).excuse)
      (List.range (calls.map (Call.task P)).length) := by
    refine Pool.ok_numbered (fun i => {(i, own i)}) ?_ fun i p hp => ?_
    · rw [sum_singletons]
      refine linear_start (by simp [Function.comp_def, nodup_range]) (fun x hx => ?_) rfl
        fun hr => ⟨?_, hr.2⟩
      · obtain ⟨i, -, rfl⟩ := mem_map.mp hx
        exact ⟨rfl, rfl, rfl⟩
      have hsum :
          (List.range calls.length).map (fun i => (own i).draws) = calls.map Call.draws := by
        refine ext_getElem (by simp) fun j h₁ h₂ => ?_
        simp only [length_map, length_range] at h₁ h₂
        simp [own, Call.waits, h₂]
      simpa [budget, Function.comp_def, hsum] using hr.1
    · rw [getElem?_map, Option.map_eq_some_iff] at hp
      obtain ⟨c, hc, rfl⟩ := hp
      have hwaits : own i = c.waits := by simp [own, hc]
      rw [hwaits]
      exact Call.runs (hcalls c (mem_of_getElem? hc)) hc
  obtain ⟨owns, -, -, hinv⟩ := Runs.ok (Γ := linear P (callRules calls s₀)) hrun hstart
  exact ⟨_, hinv⟩

/-! ## Superseded revisions -/

/-- The revision a conditional write expects of a key. -/
def Call.expects : Call → Option (Bytes × UInt64)
  | .putFullCond k _ _ _ (.revision rev) _ => some (k, rev)
  | .tombstoneCond k rev _ => some (k, rev)
  | _ => none

/-- The call has taken effect on the key whose revision it expected. -/
def Supersedes (calls : List Call) (A₀ : Known) (g : List (Nat × (Point ⊕ Stage))) (k : Bytes)
    (rev : UInt64)
    (i : Nat) : Prop :=
  ∃ c A es, calls[i]? = some c ∧ c.expects = some (k, rev) ∧ (A, .inl es) ∈ did A₀ i g ∧ es ≠ []

theorem KeyState.rev_of_live {a : KeyState} {now rev : UInt64} (h : a.live now = some rev) :
    a.rev = some rev := by
  unfold KeyState.live at h
  split at h
  · cases h
  · exact h

/-- A write that expects a revision and has an effect finds it, and the key loses it. -/
theorem Call.spec_expects {c : Call} {k : Bytes} {rev : UInt64} {A : Known} {es : List Effect}
    {rs : List UInt64}
    (hc : c.expects = some (k, rev)) (hspec : c.spec A es rs) (hes : es ≠ []) :
    (A k).rev = some rev
      ∧ ((applyAll A es k).rev = none ∨ ∃ e ∈ es, ∃ t, e.revOf k = some t
        ∧ (applyAll A es k).rev = some t) := by
  cases c with
  | putFullCond k' v m x cond now =>
    cases cond with
    | revision rev' =>
      cases hc
      obtain ⟨r, -, hspec⟩ := hspec
      rw [putCondSpec] at hspec
      split at hspec
      · rename_i hlive
        obtain ⟨t, -, rfl⟩ := hspec
        refine ⟨KeyState.rev_of_live (of_decide_eq_true hlive),
          .inr ⟨_, mem_singleton_self _, t, ?_, ?_⟩⟩
        · simp [Effect.revOf]
        · simp [applyAll, Effect.apply]
      · exact absurd hspec.2 hes
    | _ => cases hc
  | tombstoneCond k' rev' now =>
    cases hc
    obtain ⟨r, -, hspec⟩ := hspec
    rw [tombstoneCondSpec] at hspec
    split at hspec
    · rename_i hlive
      obtain ⟨-, rfl⟩ := hspec
      exact ⟨KeyState.rev_of_live hlive, .inl (by simp [applyAll, Effect.apply])⟩
    · exact absurd hspec.2 hes
  | _ => cases hc

/-- The moment of a write that supersedes a revision: the key had it, and has it no more. -/
theorem Supersedes.moment {A₀ : Known} {g : List (Nat × (Point ⊕ Stage))} {k : Bytes}
    {rev : UInt64} {i : Nat}
    (h : Supersedes calls A₀ g k rev i)
    (hlaw : Lawful (fun i g d => ∃ c, calls[i]? = some c ∧ c.Next (did A₀ i g) (knownAfter A₀ g) d)
      g)
    (hnew : Lawful (fun _ g d => ∀ es, d = .inl es → Newer A₀ g es) g) :
    ∃ l g', (i, l) :: g' <:+ g ∧ (knownAfter A₀ g' k).rev = some rev
      ∧ (knownAfter A₀ ((i, l) :: g') k).rev ≠ some rev := by
  obtain ⟨c, A, es, hc, hexp, hmem, hes⟩ := h
  obtain ⟨l, g', hsuf, hdeed, rfl⟩ := exists_of_mem_did hmem
  obtain ⟨c', hc', -, rs, hspec⟩ := (hlaw.suffix hsuf).1 _ hdeed
  cases hc.symm.trans hc'
  obtain ⟨hrev, hafter⟩ := Call.spec_expects hexp hspec hes
  refine ⟨l, g', hsuf, hrev, fun hcon => ?_⟩
  rw [knownAfter, deedOf_eq_effect.mp hdeed, Option.getD_some] at hcon
  rcases hafter with hnone | ⟨e, he, t, ht, hsome⟩
  · rw [hnone] at hcon
    cases hcon
  · cases hsome.symm.trans hcon
    exact UInt64.lt_irrefl rev
      ((hnew.suffix hsuf).1 _ hdeed es rfl e he k rev ht rev (mem_revs_of_known hrev))

/-- No two writes supersede the same revision of a key. -/
theorem supersedes_once {A₀ : Known} {g : List (Nat × (Point ⊕ Stage))} {k : Bytes}
    {rev : UInt64} {i j : Nat}
    (hlaw : Lawful (fun i g d => ∃ c, calls[i]? = some c ∧ c.Next (did A₀ i g) (knownAfter A₀ g) d)
      g)
    (hnew : Lawful (fun _ g d => ∀ es, d = .inl es → Newer A₀ g es) g)
    (hi : Supersedes calls A₀ g k rev i) (hj : Supersedes calls A₀ g k rev j) : i = j := by
  obtain ⟨l, g₁, hsuf₁, hrev₁, hlost₁⟩ := hi.moment hlaw hnew
  obtain ⟨m, g₂, hsuf₂, hrev₂, hlost₂⟩ := hj.moment hlaw hnew
  -- the later of the two would find the revision gone
  have hlater : ∀ {i j l m g₁ g₂}, (i, l) :: g₁ <:+ (j, m) :: g₂ → (j, m) :: g₂ <:+ g →
      (knownAfter A₀ g₁ k).rev = some rev → (knownAfter A₀ ((i, l) :: g₁) k).rev ≠ some rev →
      (knownAfter A₀ g₂ k).rev = some rev → i = j := by
    intro i j l m g₁ g₂ h hsuf hrev₁ hlost hrev₂
    rcases suffix_cons_iff.mp h with h | h
    · cases h
      rfl
    · have hmem : rev ∈ revs A₀ k ((i, l) :: g₁) :=
        mem_revs_mono (suffix_cons _ _) (mem_revs_of_known hrev₁)
      exact absurd hrev₂ (not_again (hnew.suffix hsuf).2 h hmem hlost)
  rcases suffix_or_suffix_of_suffix hsuf₁ hsuf₂ with h | h
  · exact hlater h hsuf₂ hrev₁ hlost₁ hrev₂
  · exact (hlater h hsuf₁ hrev₂ hlost₂ hrev₁).symm

/-! ## Refusals -/

/-- What a write may change that a later call or a restart can see. -/
def contents (s : NsState) : Disk × NsIndex × Std.ExtTreeMap ContentHash Nat × List ContentHash :=
  (s.disk, s.index, s.refs, s.pendingDelete)

instance : BlindGate contents := ⟨fun _ _ _ => rfl⟩
instance : BlindStripes contents := ⟨fun _ _ => rfl⟩

/-- The marks that do not refuse a call. -/
def Unrefused (l : Point) : Prop := l ≠ .effect []

instance : Has .io Unrefused := ⟨fun _ hl h => by rw [h] at hl; cases hl⟩
instance : Has .sync Unrefused := ⟨fun _ hl h => by rw [h] at hl; cases hl⟩
instance : Has .lock Unrefused := ⟨fun _ hl h => by rw [h] at hl; cases hl⟩

/-- Nothing of the state. -/
def nowhere (_ : NsState) : Unit := ()

instance : BlindSync nowhere where
  io _ _ _ _ _ := rfl
  refs _ _ _ := rfl
  files _ _ _ _ := rfl
  active _ _ _ := rfl

instance : BlindBlobs nowhere := ⟨fun _ _ => rfl⟩
instance : BlindStamp nowhere := ⟨fun _ _ _ => rfl⟩

section tentative
variable (P : Prims) {α : Type}

abbrev Undecided {α : Type} (p : Task α) : Prop := p.Tentative Unrefused (Same contents)

theorem undecided_guarded {rs : List Resource} {release : NsState → NsState} {body : Act α}
    (h : ∀ s, Same contents s (release s)) (hb : Undecided body.run) :
    Undecided (guarded rs release body).run := by
  have hrest : ∀ r : Except EngineError α, Calm Unrefused contents
      (do Prog.modify release; dropAll rs; return r) := fun r =>
    .seq (Prog.within_modify h) fun _ => .seq (calm_dropAll fun _ _ => nofun) fun _ => trivial
  exact Prog.Tentative.seq hb (fun r => (hrest r).marks) fun r => (hrest r).keeps

theorem undecided_writing {key : Bytes} {body : Act α} (hb : Undecided body.run) :
    Undecided (writing P key body).run := by
  refine Prog.Tentative.run_after (calm_lift calm_awaitReclaim) fun _ => ?_
  refine Prog.Tentative.run_after calm_beginWrite fun _ => undecided_guarded same_endWrite ?_
  exact Prog.Tentative.run_after (calm_lift (calm_lockStripe _)) fun _ =>
    undecided_guarded (same_setStripe _ false) hb

theorem calm_at_ {N : Point → Prop} {V : Type} {π : NsState → V} {l : Point} (h : N l) :
    Calm N π (lift (Prog.at_ l)).run := calm_lift (Prog.within_at h)

theorem ahead_commitPut (key value m : Bytes) (x : Option UInt64) :
    Calm Unrefused nowhere (commitPut P key value m x).run :=
  .run_seq (calm_lift calm_nextTstamp) fun _ => .run_seq (calm_maybeSeparate P value) fun _ =>
    .run_seq (calm_encodeOp P _ _ _) fun buf => .run_seq (calm_at_ nofun) fun _ =>
      .run_seq (calm_lift (calm_gets _)) fun f => .run_seq (calm_appendOrUnref f buf _) fun off =>
        .run_seq (calm_lift (calm_countAppend f off _)) fun _ => .run_seq (calm_at_ nofun) fun _ =>
          .run_seq (calm_lift (Prog.within_modify fun _ => rfl)) fun _ =>
            .run_seq (calm_rotateIfFull P f) fun _ => trivial

theorem ahead_commitTombstone (key : Bytes) : Calm Unrefused nowhere (commitTombstone P key).run :=
  .run_seq (calm_at_ nofun) fun _ => .run_seq (calm_lift (Prog.within_step fun _ => rfl)) fun _ =>
    .run_seq (calm_lift calm_nextTstamp) fun _ => .run_seq (calm_encodeOp P _ _ _) fun buf =>
      .run_seq (calm_at_ nofun) fun _ => .run_seq (calm_lift (calm_gets _)) fun f =>
        .run_seq (calm_append f buf) fun off => .run_seq (calm_lift (calm_countAppend f off _))
          fun _ =>
          .run_seq (calm_lift (Prog.within_modify fun _ => rfl)) fun _ => trivial

/-- Giving up: the mark, and nothing more. -/
theorem undecided_refuse {a : α} :
    Undecided (do lift (Prog.at_ (.effect [])); return a : Act α).run :=
  .inr trivial

/-- The calls with a condition. -/
def Call.Conditional : Call → Bool
  | .putFullCond .. | .tombstoneCond .. => true
  | _ => false

theorem undecided_putFullCond (key value m : Bytes) (x : Option UInt64) (cond : WriteCondition)
    (now : UInt64) :
    Undecided (putFullCond P key value m x cond now).run := by
  refine undecided_writing P (Prog.Tentative.run_after (calm_lift (calm_gets _)) fun rev => ?_)
  by_cases hc : cond.check rev = true
  · simp only [hc, if_true]
    exact Prog.Marks.tentative (Prog.Within.marks
      (.run_seq (ahead_commitPut P key value m x) fun _ => trivial))
  · simp only [hc]
    exact undecided_refuse

theorem undecided_tombstoneCond (key : Bytes) (rev now : UInt64) :
    Undecided (tombstoneCond P key rev now).run := by
  refine undecided_writing P (Prog.Tentative.run_after (calm_lift (calm_gets _)) fun live => ?_)
  cases live with
  | true =>
    exact Prog.Marks.tentative (Prog.Within.marks
      (.run_seq (ahead_commitTombstone P key) fun _ => trivial))
  | false => exact undecided_refuse

theorem Call.undecided {c : Call} (hc : c.Conditional = true) : Undecided (c.act P).run := by
  cases c with
  | putFullCond k v m x cond now =>
    exact Prog.Tentative.run_seq (W := fun _ => True) (undecided_putFullCond P k v m x cond now)
      fun _ => trivial
  | tombstoneCond k rev now =>
    exact Prog.Tentative.run_seq (W := fun _ => True) (undecided_tombstoneCond P k rev now)
      fun _ => trivial
  | _ => cases hc

end tentative

/-- The call `i` is refused. -/
def refusal (i : Nat) : Nat × (Point ⊕ Stage) := (i, .inl (.effect []))

/-- The call `i` returns. -/
def returns (i : Nat) (r : Except EngineError (List UInt64)) : Nat × (Point ⊕ Stage) :=
  (i, .inr (.finished r))

/-- The mark of a task that refuses no call. -/
def Unrefusing : Nat × (Point ⊕ Stage) → Prop
  | (_, .inl l) => Unrefused l
  | (_, .inr _) => True

theorem Unrefusing.ne {l : Nat × (Point ⊕ Stage)} (h : Unrefusing l) (i : Nat) : refusal i ≠ l := by
  rintro rfl
  exact h rfl

/-- The task of a conditional call decides. -/
theorem Call.task_undecided {c : Call} (hc : c.Conditional = true) (i : Nat) :
    ((c.task P).relabel (Prod.mk i)).Tentative Unrefusing (Same contents) := by
  have hat : ∀ n : Stage, (Prog.at_ (.inr n) : Prog NsState (Point ⊕ Stage) Unit).Within
      (fun l => Unrefusing (i, l)) (fun _ => True) (Same contents) :=
      fun n => Prog.within_at trivial
  refine Prog.Tentative.relabel (Prog.Tentative.after (hat _).marks (hat _).keeps fun _ => ?_)
  exact Prog.Tentative.seq (Prog.Tentative.relabel (c.undecided P hc)) (fun r => (hat _).marks)
    fun r => (hat _).keeps

theorem pending_start {i : Nat} {c : Call} (hi : calls[i]? = some c) (hc : c.Conditional = true) :
    (Pool.of (callTasks P calls) [] s₀).Pending Unrefusing (fun l => l.1 ≠ i) (Same contents)
      (fun g => refusal i ∉ g) i := by
  have htask : ∀ j : Nat, ((callTasks P calls).map Prog.spawn)[j]?
      = (calls[j]?).map fun c : Call => ((c.task P).relabel (Prod.mk j)).spawn := by
    intro j
    simp [callTasks, numbered, Function.comp_def]
  refine ⟨fun j p hj hp => ?_, ((c.task P).relabel (Prod.mk i)).spawn,
    (htask i).trans (by rw [hi]; rfl),
    .inl ⟨not_mem_nil, c.task_undecided hc i⟩⟩
  obtain ⟨c', -, rfl⟩ := Option.map_eq_some_iff.mp ((htask j).symm.trans hp)
  exact ⟨trivial,
    Prog.within_relabel (Prog.within_any (fun _ => hj) (fun _ => trivial) (fun _ _ => trivial) _)⟩

/-- Writes in any interleaving: each deed of a call follows on those before it and, at its
effect, on what the index says at that moment; the index says what the effects have made of it;
a revision is superseded once; and none of the turns of a call that is refused, in the end,
changes the disk, the index or the references. -/
theorem writes_linearizable (hcalls : ∀ c ∈ calls, c.Writes = true)
    (hrun : Runs (tracing Nat Stage) (.of (callTasks P calls) [] s₀) w) :
    Lawful (fun i g d => ∃ c, calls[i]? = some c
        ∧ c.Next (did s₀.index.known i g) (knownAfter s₀.index.known g) d) w.ghost
      ∧ w.state.index.known = knownAfter s₀.index.known w.ghost
      ∧ (Headroom (calls.map Call.draws).sum s₀ → Dated s₀ → ∀ k rev i j,
          Supersedes calls s₀.index.known w.ghost k rev i →
            Supersedes calls s₀.index.known w.ghost k rev j → i = j)
      ∧ ∀ i c, calls[i]? = some c → c.Conditional = true →
      ∀ w₁ w₂, w.Turns (tracing Nat Stage) i w₁ →
          Runs (tracing Nat Stage) w₁ w₂ → refusal i ∈ w₂.ghost →
              contents w₁.state = contents w.state := by
  obtain ⟨M, hlin⟩ := calls_linear hcalls hrun
  refine ⟨hlin.lawful, hlin.known, fun hroom hdated k rev i j hi hj =>
    supersedes_once hlin.lawful (hlin.newer ⟨hroom, hdated⟩) hi hj,
      fun i c hi hc w₁ w₂ ht hrun₂ hmem => ?_⟩
  by_contra hchange
  refine Runs.decided (D := tracing Nat Stage) Same.refl Same.trans (fun l _ g hl hg => ?_)
    (fun l _ g hl hg => ?_)
    (pending_start hi hc) hrun ht hrun₂ hchange hmem
  · exact not_mem_cons_of_ne_of_not_mem (Unrefusing.ne hl i) hg
  · exact not_mem_cons_of_ne_of_not_mem (fun h => hl (h ▸ rfl)) hg

/-- Two writes that both want the key to be absent: the second waits for the first and is refused.
-/
theorem writes_linearizable_two :
    ∃ s w, freshLog (fun _ => none) = some s
      ∧
      (∀ c
      ∈ [Call.putFullCond [0x61] [0x31] [] none .keyAbsent 0, .putFullCond [0x61] [0x32]
      [] none .keyAbsent 0],
          c.Writes = true)
      ∧ Runs (tracing Nat Stage) (.of (callTasks realPrims
          [.putFullCond [0x61] [0x31] [] none .keyAbsent 0, .putFullCond [0x61] [0x32]
            [] none .keyAbsent 0]) [] s) w
      ∧ refusal 1 ∈ w.ghost ∧ returns 1 (.ok []) ∈ w.ghost
      ∧ w.state.index.known = knownAfter s.index.known w.ghost := by
  have hview : (runFresh (tracing Nat Stage) (fun _ => none) (fun _ => callTasks realPrims
      [.putFullCond [0x61] [0x31] [] none .keyAbsent 0, .putFullCond [0x61] [0x32]
        [] none .keyAbsent 0]) []
        [0, 1, 0, 0, 1]).map
        (fun x =>
          decide ((∃ l ∈ x.2.ghost, l = refusal 1) ∧ ∃ l ∈ x.2.ghost, l = returns 1 (.ok [])))
          = some true := by
    decide +kernel
  obtain ⟨⟨s, w⟩, hsome, heq⟩ := Option.map_eq_some_iff.mp hview
  obtain ⟨⟨_, hrefused, rfl⟩, _, hret, rfl⟩ := of_decide_eq_true heq
  obtain ⟨hfresh, hrun⟩ := runs_runFresh hsome
  have hwrites : ∀ c ∈ [Call.putFullCond [0x61] [0x31] [] none .keyAbsent 0,
      .putFullCond [0x61] [0x32] [] none .keyAbsent 0], c.Writes = true := by decide
  exact ⟨s, w, hfresh, hwrites, hrun, hrefused, hret, (writes_linearizable hwrites hrun).2.1⟩

end runs

end BeyondKv
