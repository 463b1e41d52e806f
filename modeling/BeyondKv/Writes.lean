/-
# Single writes

What a write does to the index if nothing else runs: a put inserts the key with the expiry it was
given, a conditional put or delete changes nothing unless its condition holds of the index it
found. `Yields` says this of code of the log; the calls of the store follow, with the clock
reading they start from.
-/
import BeyondKv.Store
import BeyondKv.Lib.Ends
import BeyondKv.Conditional

namespace BeyondKv

open Async Option

/-! ## The log -/

section yields
variable {α β γ : Type} {R : NsIndex → Except EngineError α → NsIndex → Prop}

/-- No step shows in the index. -/
abbrev Indexless (p : Task α) : Prop := Calm (fun _ => True) NsState.index p

theorem Indexless.index {p : Task α} (h : Indexless p) {s s' : NsState} {a : α}
    (hend : ends p s = some (a, s')) :
    s'.index = s.index :=
  Prog.Within.run (R := Same NsState.index) Same.refl Same.trans h s a s' hend

theorem ends_lift (p : Task α) (s : NsState) :
    ends (lift p).run s = (ends p s).map fun x => (.ok x.1, x.2) :=
  ends_run_lift p s

theorem ends_dropAll (rs : List Resource) (s : NsState) : ends (dropAll rs) s = some ((), s) := by
  induction rs with
  | nil => rfl
  | cons r rs ih => exact ih

theorem ends_guarded (rs : List Resource) (release : NsState → NsState) (p : Act α) (s : NsState) :
    ends (guarded rs release p).run s = (ends p.run s).map fun x => (x.1, release x.2) := by
  rw [Option.map_eq_bind]
  refine (ends_seq ..).trans (congrArg (Option.bind _) (funext fun x => ?_))
  have hdrop : ends (do dropAll rs; return x.1) (release x.2) = some (x.1, release x.2) := by
    rw [ends_seq, ends_dropAll]
    rfl
  exact hdrop

/-- The index before, the result and the index after a run alone. -/
def Yields (p : Act α) (R : NsIndex → Except EngineError α → NsIndex → Prop) : Prop :=
  ∀ s r s', ends p.run s = some (r, s') → R s.index r s'.index

/-- Code that does not touch the index comes first. -/
theorem Yields.after {c : Act γ} {f : γ → Act α} (hc : Indexless c.run)
    (herror : ∀ i e, R i (.error e) i)
    (h : ∀ x, Yields (f x) R) : Yields (c >>= f) R := by
  intro s r s' hend
  rw [ends_run_seq] at hend
  obtain ⟨⟨x, s₁⟩, hfirst, hrest⟩ := bind_eq_some_iff.mp hend
  rw [← hc.index hfirst]
  cases x with
  | ok x => exact h x s₁ r s' hrest
  | error e =>
    cases hrest
    exact herror _ e

/-- The index is looked at. -/
theorem Yields.looked {g : NsIndex → β} {f : β → Act α}
    (h : ∀ b, Yields (f b) fun i r j => b = g i → R i r j) :
    Yields (lift (Prog.gets fun s => g s.index) >>= f) R := fun s r s' hend => h _ s r s' hend rfl

theorem Yields.guarded {p : Act α} {rs : List Resource} {release : NsState → NsState}
    (hrelease : ∀ s, (release s).index = s.index) (h : Yields p R) :
    Yields (BeyondKv.guarded rs release p) R := by
  intro s r s' hend
  rw [ends_guarded] at hend
  obtain ⟨⟨x, s₁⟩, hp, hx⟩ := map_eq_some_iff.mp hend
  cases hx
  rw [hrelease]
  exact h s x s₁ hp

theorem Yields.writing {P : Prims} {key : Bytes} {body : Act α} (herror : ∀ i e, R i (.error e) i)
    (h : Yields body R) :
    Yields (BeyondKv.writing P key body) R :=
  .after (calm_lift calm_awaitReclaim) herror fun _ => .after calm_beginWrite herror fun _ =>
    .guarded (fun _ => rfl)
      (.after (calm_lift (calm_lockStripe _)) herror fun _ => .guarded (fun _ => rfl) h)

end yields

/-! ### Puts -/

/-- The key is there with this revision and expiry, and the other keys are as they were. -/
def Inserts (key : Bytes) (x : Option UInt64) (rev : UInt64) (i j : NsIndex) : Prop :=
  ∃ e sep, e.tstampMs = rev ∧ j = (i.insert key e x).setValsep key sep

/-- It is live unless the expiry is past. -/
theorem Inserts.shows {key : Bytes} {x : Option UInt64} {rev : UInt64} {i j : NsIndex}
    (h : Inserts key x rev i j)
    (now : UInt64) : j.ttl key = x ∧ liveRev j key now = if ShardStore.isPast x now then none
    else some rev := by
  obtain ⟨e, sep, rfl, rfl⟩ := h
  have httl : ((i.insert key e x).setValsep key sep).ttl key = x := by simp
  have hget : ((i.insert key e x).setValsep key sep).get key = some e := by simp
  refine ⟨httl, ?_⟩
  rw [liveRev, NsIndex.isExpired, httl, hget]
  rfl

/-- A put has inserted the key, unless it failed first. -/
def PutYields (key : Bytes) (x : Option UInt64) (i : NsIndex) :
    Except EngineError UInt64 → NsIndex → Prop
  | .ok rev, j => Inserts key x rev i j
  | .error _, j => j = i ∨ ∃ rev, Inserts key x rev i j

/-- A conditional put has, if the condition held. -/
def CondYields (key : Bytes) (x : Option UInt64) (cond : NsIndex → Prop) (i : NsIndex) :
    Except EngineError (Option UInt64) → NsIndex → Prop
  | .ok (some rev), j => cond i ∧ Inserts key x rev i j
  | .ok none, j => ¬ cond i ∧ j = i
  | .error _, j => j = i ∨ cond i ∧ ∃ rev, Inserts key x rev i j

section puts
variable (P : Prims)

theorem yields_commitPut (key value m : Bytes) (x : Option UInt64) :
    Yields (commitPut P key value m x) (PutYields key x) := by
  have herror : ∀ i e, PutYields key x i (.error e) i := fun _ _ => .inl rfl
  refine .after (calm_lift calm_nextTstamp) herror fun tstamp =>
    .after (calm_maybeSeparate P value) herror fun sepHash =>
    .after (calm_encodeOp P _ _ _) herror fun buf =>
      .after (calm_lift (calm_at .io rfl)) herror fun _ =>
      .after (calm_lift (calm_gets _)) herror fun active =>
        .after (calm_appendOrUnref active buf _) herror fun offset =>
        .after (calm_lift (calm_countAppend active offset _)) herror fun _ =>
          .after (calm_lift (calm_at .effect rfl)) herror fun _ => ?_
  intro s r s' hend
  -- the commit, and a rotation behind it
  let entry := IndexEntry.new active.fileId offset buf.length tstamp
  have hcommit :
    (commitEntry key entry x sepHash s).index
    = (s.index.insert key entry x).setValsep key sepHash :=
    same_unref? (π := NsState.index) _ _
  have hrest : ends (rotateIfFull P active >>= fun _ => pure tstamp : Act UInt64).run
    (commitEntry key entry x sepHash s) =
      some (r, s') := hend
  rw [ends_run_seq] at hrest
  obtain ⟨⟨rot, s₁⟩, hrot, hret⟩ := bind_eq_some_iff.mp hrest
  have hindex := Indexless.index (calm_rotateIfFull P active) hrot
  rw [hcommit] at hindex
  cases rot with
  | ok _ =>
    cases hret
    exact ⟨entry, sepHash, rfl, hindex⟩
  | error e =>
    cases hret
    exact .inr ⟨tstamp, entry, sepHash, rfl, hindex⟩

theorem yields_putFull (key value m : Bytes) (x : Option UInt64) :
    Yields (putFull P key value m x) (PutYields key x) :=
  .writing (fun _ _ => .inl rfl) (yields_commitPut P key value m x)

theorem yields_putFullCond (key value m : Bytes) (x : Option UInt64) (cond : WriteCondition)
    (now : UInt64) :
    Yields (putFullCond P key value m x cond now)
      (CondYields key x fun i => cond.check (liveRev i key now) = true) := by
  refine .writing (fun _ _ => .inl rfl)
    (Yields.looked (g := fun i => liveRev i key now) fun rev => ?_)
  intro s r s' hend hrev
  subst hrev
  by_cases hcond : cond.check (liveRev s.index key now) = true
  · rw [if_pos hcond, ends_run_seq] at hend
    obtain ⟨⟨x, s₁⟩, hput, hret⟩ := bind_eq_some_iff.mp hend
    have hyields := yields_commitPut P key value m _ s _ s₁ hput
    cases x with
    | ok t =>
      cases hret
      exact ⟨hcond, hyields⟩
    | error e =>
      cases hret
      exact hyields.imp id fun h => ⟨hcond, h⟩
  · rw [if_neg hcond] at hend
    cases hend
    exact ⟨hcond, rfl⟩

end puts

/-! ### Deletes -/

/-- A mark of code that takes no lock. -/
def Lockless (l : Point) : Prop := l.kind ≠ .lock

instance : Has .io Lockless := ⟨fun _ h hlock => nomatch h.symm.trans hlock⟩

instance : Has .sync Lockless := ⟨fun _ h hlock => nomatch h.symm.trans hlock⟩

/-- Code that takes no lock ends. -/
theorem ends_calm {α : Type} {p : Task α} (h : Calm Lockless NsState.index p) (s : NsState) :
    ∃ a s', ends p s = some (a, s') ∧ s'.index = s.index := by
  have hready : ∀ r, Awaits Lockless r → ∀ s, r s = true :=
    fun r hr => hr.resolve_right fun hwants => hwants .reclaim rfl
  obtain ⟨a, s', hend⟩ := Prog.Within.ends h hready s
  exact ⟨a, s', hend, Prog.Within.run (R := Same NsState.index) Same.refl Same.trans h s a s' hend⟩

/-- Nobody is in a write of the key, nor in a reclaim. -/
structure NsState.Idle (P : Prims) (key : Bytes) (s : NsState) : Prop where
  reclaim : s.reclaimInProgress = false
  frozen : s.frozen = false
  stripe : s.writeStripes (stripeIdx P key) = false

section deletes
variable {P : Prims} {key : Bytes} {s : NsState}

theorem NsState.Idle.writing {α : Type} (h : s.Idle P key) {body : Act α} {Q : NsIndex → Prop}
    (hbody : ∀ s₁, s₁.index = s.index → ∃ r s', ends body.run s₁ = some (r, s') ∧ Q s'.index) :
    ∃ r s', ends (BeyondKv.writing P key body).run s = some (r, s') ∧ Q s'.index := by
  obtain ⟨r, s', hend, hQ⟩ := hbody (setStripe (stripeIdx P key) true (countWrite s)) rfl
  refine ⟨r, endWrite (unlockStripe (stripeIdx P key) s'), ?_, hQ⟩
  have hawait : ends awaitReclaim s = some ((), s) := by
    rw [awaitReclaim, ends_seq]
    change ends (if s.reclaimInProgress = true then _ else _) s = _
    rw [h.reclaim]
    rfl
  have hbegin : ends beginWrite.run s = some (.ok (), countWrite s) := by
    rw [beginWrite, ends_run_seq]
    change ends (ExceptT.run (if s.frozen = true then _ else _)) s = _
    rw [h.frozen]
    rfl
  have hlock : ends (lockStripe (stripeIdx P key)) (countWrite s)
      = some ((), setStripe (stripeIdx P key) true (countWrite s)) := by
    rw [lockStripe, acquire, ends_seq]
    change ends (if s.writeStripes (stripeIdx P key) = true then _ else _) (countWrite s) = _
    rw [h.stripe]
    rfl
  simp only [BeyondKv.writing, ends_run_seq, ends_lift, hawait, hbegin, ends_guarded, hlock,
    hend, map_some,
    bind_some]

/-- The index forgets the key, whatever becomes of the record. -/
theorem ends_commitTombstone (P : Prims) (key : Bytes) (s : NsState) :
    ∃ r s', ends (commitTombstone P key).run s = some (r, s')
        ∧ s'.index = (s.index.remove key).2 := by
  refine ends_calm (?_ : Calm Lockless NsState.index _) (s.setIndex (s.index.remove key).2)
  exact .run_seq (calm_lift calm_nextTstamp) fun _ => .run_seq (calm_encodeOp P _ _ _) fun _ =>
    .run_seq (calm_lift (calm_at .io rfl)) fun _ => .run_seq (calm_lift (calm_gets _)) fun f =>
      .run_seq (calm_append f _) fun _ => .run_seq (calm_lift (calm_countAppend f _ _)) fun _ =>
        .run_seq (calm_lift (Prog.within_modify (same_unref? _))) fun _ => trivial

theorem NsState.Idle.tombstone (h : s.Idle P key) :
    ∃ r s', ends (BeyondKv.tombstone P key).run s = some (r, s')
        ∧ s'.index = (s.index.remove key).2 := by
  refine h.writing (Q := fun j => j = (s.index.remove key).2) fun s₁ hindex => ?_
  rw [ends_run_seq]
  change ∃ r s', ends (ExceptT.run (if (s₁.index.get key).isSome = true then _ else _)) s₁
    = some (r, s') ∧ _
  by_cases hkey : (s₁.index.get key).isSome = true
  · obtain ⟨r, s', hend, hremoved⟩ := ends_commitTombstone P key s₁
    rw [if_pos hkey, ends_run_seq, hend]
    rw [hindex] at hremoved
    cases r with
    | ok rev => exact ⟨_, s', rfl, hremoved⟩
    | error e => exact ⟨_, s', rfl, hremoved⟩
  · rw [if_neg hkey]
    exact ⟨_, _, rfl, by rw [← hindex]; rfl⟩

theorem NsState.Idle.tombstoneCond (h : s.Idle P key) {rev now : UInt64}
    (hrev : liveRev s.index key now = some rev) :
    ∃ r s', ends (BeyondKv.tombstoneCond P key rev now).run s = some (r, s')
        ∧ s'.index = (s.index.remove key).2 := by
  refine h.writing (Q := fun j => j = (s.index.remove key).2) fun s₁ hindex => ?_
  obtain ⟨r, s', hend, hremoved⟩ := ends_commitTombstone P key s₁
  rw [ends_run_seq]
  change ∃ r s',
    ends (ExceptT.run (if decide (liveRev s₁.index key now = some rev) = true then _ else _)) s₁
    = some (r, s') ∧ _
  rw [hindex, hrev, decide_eq_true rfl, if_pos rfl, ends_run_seq, hend]
  rw [hindex] at hremoved
  cases r with
  | ok rev => exact ⟨_, s', rfl, hremoved⟩
  | error e => exact ⟨_, s', rfl, hremoved⟩

/-- A delete that succeeds says whether it found the key. -/
theorem yields_tombstone (P : Prims) (key : Bytes) :
    Yields (BeyondKv.tombstone P key) fun i r j => ∀ x, r = .ok x →
      x.isSome = (i.get key).isSome ∧ j = (i.remove key).2 := by
  refine .writing (fun _ _ _ hx => by cases hx)
    (Yields.looked (g := fun i => (i.get key).isSome) fun found => ?_)
  intro s r s' hend hfound x hx
  cases found with
  | true =>
    obtain ⟨r', s₁, hcommit, hindex⟩ := ends_commitTombstone P key s
    rw [if_pos rfl, ends_run_seq, hcommit] at hend
    cases r' with
    | ok rev =>
      cases hend
      cases hx
      exact ⟨hfound, hindex⟩
    | error e =>
      cases hend
      cases hx
  | false =>
    cases hend
    cases hx
    exact ⟨hfound, rfl⟩

/-- A conditional delete changes nothing unless the revision is the expected one. -/
theorem yields_tombstoneCond (P : Prims) (key : Bytes) (rev now : UInt64) :
    Yields (BeyondKv.tombstoneCond P key rev now) fun i _ j => j = i
        ∨ liveRev i key now = some rev := by
  refine .writing (fun _ _ => .inl rfl)
    (Yields.looked (g := fun i => decide (liveRev i key now = some rev)) fun found => ?_)
  intro s r s' hend hfound
  cases found with
  | true => exact .inr (of_decide_eq_true hfound.symm)
  | false =>
    cases hend
    exact .inl rfl

end deletes

/-! ## The store -/

namespace ShardStore
variable {J : Serde} {α β : Type}

theorem ends_onLogAs (k : Nat) (p : Act α) (t : ShardStore J) :
    ends (onLogAs k p).run t = (ends p.run t.log).map fun x => (x.1, { t with log := x.2 }) := by
  have hlens : (logLens : Lens (ShardStore J) NsState).Lawful := ⟨fun _ => rfl, fun _ _ _ => rfl⟩
  refine (ends_zoom hlens _ t).trans ?_
  rw [ends_relabel]
  rfl

theorem ends_onLog (p : Act α) (t : ShardStore J) :
    ends (onLog p).run t = (ends p.run t.log).map fun x => (x.1, { t with log := x.2 }) :=
      ends_onLogAs 0 p t

/-- The log by itself. -/
theorem wlp_onLog {p : Act α} {Q : Except EngineError α → ShardStore J → Prop} {t : ShardStore J} :
    wlp (onLog p).run Q t ↔ wlp p.run (fun r s => Q r { t with log := s }) t.log := by
  constructor
  · intro h r s hend
    exact h r _ ((ends_onLog p t).trans (congrArg (Option.map _) hend))
  · intro h r t' hend
    obtain ⟨⟨r', s⟩, hrun, heq⟩ := map_eq_some_iff.mp ((ends_onLog p t).symm.trans hend)
    cases heq
    exact h _ s hrun

/-- The next reading of the clock. -/
def reading (t : ShardStore J) : UInt64 := t.log.clock t.log.readings

def ticked (t : ShardStore J) : ShardStore J :=
  { t with log := { t.log with readings := t.log.readings + 1 } }

theorem ends_nowMs (t : ShardStore J) : ends nowMs.run t = some (.ok t.reading, t.ticked) := rfl

section rules
variable {t : ShardStore J} {Q : Except EngineError α → ShardStore J → Prop}

theorem wlp_nowMs {Q : Except EngineError UInt64 → ShardStore J → Prop} :
    wlp nowMs.run Q t ↔ Q (.ok t.reading) t.ticked := wlp_ret ..

theorem wlp_ofExcept {r : Except EngineError α} : wlp (ofExcept r).run Q t ↔ Q r t := wlp_ret ..

theorem wlp_look {f : ShardStore J → α} : wlp (look f).run Q t ↔ Q (.ok (f t)) t := wlp_ret ..

theorem wlp_change {f : ShardStore J → ShardStore J}
    {Q : Except EngineError Unit → ShardStore J → Prop} :
    wlp (change f).run Q t ↔ Q (.ok ()) (f t) := wlp_ret ..

theorem wlp_note {m : Mark J} {Q : Except EngineError Unit → ShardStore J → Prop} :
    wlp (note m).run Q t ↔ Q (.ok ()) t := wlp_ret ..

variable {R : α → ShardStore J → Prop}

end rules

/-- The expiry a write with these options is given. -/
def expiry (i : NsIndex) (key : Bytes) (opts : SetOptions J) (now : UInt64) :
    Except EngineError (Option UInt64) :=
  if opts.keepTtl then .ok (i.ttl key)
  else match opts.ttl with
    | none => .ok none
    | some d => (validateTtl d now).map some

theorem ends_expiryOf (key : Bytes) (opts : SetOptions J) (now : UInt64) (t : ShardStore J) :
    ends (expiryOf key opts now).run t = some (expiry t.log.index key opts now, t) := by
  rw [expiryOf, expiry]
  by_cases hkeep : opts.keepTtl = true
  · rw [if_pos hkeep, if_pos hkeep]
    rfl
  · rw [if_neg hkeep, if_neg hkeep]
    cases opts.ttl with
    | none => rfl
    | some d =>
      refine (ends_run_seq (ofExcept (validateTtl d now)) _ t).trans ?_
      dsimp only
      cases validateTtl d now <;> rfl

/-- What the clock and the expiry of a write come to. -/
theorem ends_opened {key : Bytes} {opts : SetOptions J} {f : UInt64 → Option UInt64 → StoreAct J α}
    {t t' : ShardStore J}
    {r : Except EngineError α} (h : ends (do
      let now ← nowMs
      let x ← expiryOf key opts now
      f now x).run t = some (r, t')) :
    (∃ e, r = .error e ∧ t'.log.index = t.log.index)
      ∨ ∃ x, expiry t.log.index key opts t.reading = .ok x ∧ ends (f t.reading x).run t.ticked
      = some (r, t') := by
  rw [ends_run_seq, ends_nowMs, bind_some] at h
  simp only [ends_run_seq, ends_expiryOf, bind_some] at h
  have hindex : t.ticked.log.index = t.log.index := rfl
  rw [hindex] at h
  cases hx : expiry t.log.index key opts t.reading with
  | error e =>
    rw [hx] at h
    cases h
    exact .inl ⟨e, rfl, rfl⟩
  | ok x =>
    rw [hx] at h
    exact .inr ⟨x, rfl, h⟩

section writes
variable {P : Prims} {key value : Bytes} {opts : SetOptions J} {t t' : ShardStore J}

theorem set_ok (h : ends (set P key value opts).run t = some (.ok (), t')) :
    ∃ x rev, expiry t.log.index key opts t.reading = .ok x
        ∧ Inserts key x rev t.log.index t'.log.index := by
  obtain ⟨e, he, -⟩ | ⟨x, hx, h⟩ := ends_opened h
  · cases he
  rw [ends_run_seq, ends_onLog] at h
  obtain ⟨⟨r, t₁⟩, hput, hrest⟩ := bind_eq_some_iff.mp h
  obtain ⟨⟨r', s'⟩, hrun, heq⟩ := map_eq_some_iff.mp hput
  cases heq
  have hyields := yields_putFull P key value _ x _ _ _ hrun
  cases r' with
  | error e => cases hrest
  | ok rev =>
    cases hrest
    exact ⟨x, rev, hx, hyields⟩

/-- What a conditional write comes to: `no` if it is refused, `yes` of the revision if it is made.
-/
inductive CondWritten (key : Bytes) (opts : SetOptions J) (cond : WriteCondition) (no : α)
    (yes : UInt64 → α)
    (t t' : ShardStore J) : Except EngineError α → Prop
  | refused (h : t'.log.index = t.log.index) : CondWritten key opts cond no yes t t' (.ok no)
  | made {x : Option UInt64} {rev : UInt64}
      (hcond : cond.check (liveRev t.log.index key t.reading) = true)
      (hx : expiry t.log.index key opts t.reading = .ok x)
      (h : Inserts key x rev t.log.index t'.log.index) :
      CondWritten key opts cond no yes t t' (.ok (yes rev))
  | failed (e : EngineError)
      (h : t'.log.index = t.log.index ∨ cond.check (liveRev t.log.index key t.reading) = true) :
      CondWritten key opts cond no yes t t' (.error e)

theorem condWritten {cond : WriteCondition} {no : α} {yes : UInt64 → α}
    {r : Except EngineError α} (h : ends (do
      let now ← nowMs
      let x ← expiryOf key opts now
      match ← onLog (putFullCond P key value (metadataBytes opts.metadata) x cond now) with
      | none => return no
      | some rev =>
        published key value x opts.metadata (metadataBytes opts.metadata).length rev
        return yes rev).run t = some (r, t')) : CondWritten key opts cond no yes t t' r := by
  obtain ⟨e, rfl, hindex⟩ | ⟨x, hx, h⟩ := ends_opened h
  · exact .failed e (.inl hindex)
  rw [ends_run_seq, ends_onLog] at h
  obtain ⟨⟨r₁, t₁⟩, hput, hrest⟩ := bind_eq_some_iff.mp h
  obtain ⟨⟨r', s'⟩, hrun, heq⟩ := map_eq_some_iff.mp hput
  cases heq
  have hyields := yields_putFullCond P key value _ x cond t.reading _ _ _ hrun
  cases r' with
  | error e =>
    cases hrest
    exact .failed e (hyields.imp id And.left)
  | ok rev =>
    cases rev with
    | none =>
      cases hrest
      exact .refused hyields.2
    | some rev =>
      cases hrest
      exact .made hyields.1 hx hyields.2

theorem setConditional_written {requireLive : Bool} {r : Except EngineError Bool}
    (h : ends (setConditional P key value opts requireLive).run t = some (r, t')) :
    CondWritten key opts (if requireLive then .keyPresent else .keyAbsent) false
      (fun _ => true) t t' r := condWritten h

theorem setrev_written {expectedRev : UInt64} {r : Except EngineError (Option UInt64)}
    (h : ends (setrev P key value opts expectedRev).run t = some (r, t')) :
    CondWritten key { opts with keepTtl := false } (.revision expectedRev) none some t t' r :=
      condWritten h

theorem getset_ok {old : Option (Entry J)}
    (h : ends (getset P key value).run t = some (.ok old, t')) :
    ∃ i rev, Inserts key none rev i t'.log.index := by
  rw [getset, ends_run_seq, ends_nowMs, bind_some] at h
  simp only [ends_run_seq (getInline P key t.reading)] at h
  obtain ⟨⟨r, t₁⟩, -, h⟩ := bind_eq_some_iff.mp h
  cases r with
  | error e => cases h
  | ok old' =>
    simp only [ends_run_seq, ends_onLog] at h
    obtain ⟨⟨r, t₂⟩, hput, hrest⟩ := bind_eq_some_iff.mp h
    obtain ⟨⟨r', s'⟩, hrun, heq⟩ := map_eq_some_iff.mp hput
    cases heq
    have hyields := yields_putFull P key value _ none _ _ _ hrun
    cases r' with
    | error e => cases hrest
    | ok rev =>
      cases hrest
      exact ⟨t₁.log.index, rev, hyields⟩

end writes

/-! ### Deletes -/

section deletes
variable {P : Prims} {key : Bytes} {t t' : ShardStore J}

/-- A conditional delete changes nothing unless the revision is the expected one. -/
theorem delrev_index {rev : UInt64} {r : Except EngineError (Option Unit)}
    (h : ends (delrev P key rev).run t = some (r, t')) :
    t'.log.index = t.log.index ∨ liveRev t.log.index key t.reading = some rev := by
  rw [delrev, ends_run_seq, ends_nowMs, bind_some] at h
  simp only [ends_run_seq, ends_onLog] at h
  obtain ⟨⟨r₁, t₁⟩, htomb, hrest⟩ := bind_eq_some_iff.mp h
  obtain ⟨⟨r', s'⟩, hrun, heq⟩ := map_eq_some_iff.mp htomb
  cases heq
  have hyields := yields_tombstoneCond P key rev t.reading _ _ _ hrun
  cases r' with
  | error e =>
    cases hrest
    exact hyields
  | ok rev =>
    cases rev <;> cases hrest <;> exact hyields

/-- It deletes a key with that revision. -/
theorem delrev_ends (hidle : t.log.Idle P key) {rev : UInt64}
    (hrev : liveRev t.log.index key t.reading = some rev) :
    ∃ r t', ends (delrev P key rev).run t = some (r, t')
        ∧ t'.log.index = (t.log.index.remove key).2 := by
  have hidle' : t.ticked.log.Idle P key := ⟨hidle.reclaim, hidle.frozen, hidle.stripe⟩
  obtain ⟨r, s', hend, hindex⟩ := hidle'.tombstoneCond (s := t.ticked.log) hrev
  rw [delrev, ends_run_seq, ends_nowMs, bind_some]
  simp only [ends_run_seq, ends_onLog, hend, map_some, bind_some]
  cases r with
  | error e => exact ⟨_, _, rfl, hindex⟩
  | ok rev => cases rev <;> exact ⟨_, _, rfl, hindex⟩

theorem ends_removeAll (keys : List Bytes) (t : ShardStore J) :
    ∃ t', ends (removeAll keys).run t = some (.ok (), t') ∧ t'.log = t.log := by
  induction keys generalizing t with
  | nil => exact ⟨t, rfl, rfl⟩
  | cons key keys ih => exact ih { t with cache := t.cache.remove (cacheKey t.ns key) }

theorem ends_countDeleted (xs : List ((Bytes × Except EngineError (Option UInt64)) × Bool))
    (count : Nat)
    (t : ShardStore J) : ∃ r, ends (countDeleted xs count).run t = some (r, t) := by
  induction xs generalizing count with
  | nil => exact ⟨.ok count, rfl⟩
  | cons x xs ih =>
    obtain ⟨⟨key, tomb⟩, expired⟩ := x
    rw [countDeleted, ends_run_seq]
    cases tomb with
    | error e => exact ⟨.error e, rfl⟩
    | ok rev =>
      cases rev with
      | none => exact ih count
      | some rev =>
        cases expired with
        | true => exact ih count
        | false => exact ih (count + 1)

/-- A plain delete deletes the key. -/
theorem del_ends (hidle : t.log.Idle P key) :
    ∃ r t', ends (del P [key]).run t = some (r, t')
        ∧ t'.log.index = (t.log.index.remove key).2 := by
  have hidle' : t.ticked.log.Idle P key := ⟨hidle.reclaim, hidle.frozen, hidle.stripe⟩
  obtain ⟨r, s', hend, hindex⟩ := hidle'.tombstone (s := t.ticked.log)
  have hjoin :
    ends (Prog.joinAll [key].zipIdx fun x => (onLogAs (x.2 + 1) (tombstone P x.1)).run) t.ticked =
      some ([r], { t with log := s' }) := by
    rw [ends_joinAll]
    simp only [List.zipIdx, endsAll, ends_onLogAs, hend, map_some, bind_some]
    rfl
  have hlook (f : ShardStore J → List Bool) :
    ends (look f).run t.ticked = some (.ok (f t.ticked), t.ticked) := rfl
  obtain ⟨t₁, hremove, hlog⟩ := ends_removeAll [key] { t with log := s' }
  obtain ⟨count, hcount⟩ := ends_countDeleted
    (([key].zip [r]).zip ([key].map fun key => t.ticked.log.index.isExpired key t.reading)) 0 t₁
  refine ⟨count, t₁, ?_, (congrArg NsState.index hlog).trans hindex⟩
  rw [del, ends_run_seq, ends_nowMs, bind_some]
  simp only [ends_run_seq, hlook, bind_some, ends_run_lift, hjoin, map_some, hremove, hcount]

end deletes

end ShardStore

end BeyondKv
