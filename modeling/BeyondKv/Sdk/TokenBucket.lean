/-
# The token bucket

`limitTokenBucket` reads the state of the bucket, refills it for the time that has passed by
its own clock, takes one token and writes the state back with a compare-and-swap, over and
over until the write succeeds. The clocks of the clients need not agree, and need not advance.

The states that were committed are a chain: each was computed from the one before it. The
tokens of a state so account for the time and the commits since any earlier one, and there is
never less than nothing left (`Chained.spent`).
-/
import BeyondKv.Sdk.Kv

namespace BeyondKv.Sdk

open Async

structure BucketState where
  tokens : ℚ
  lastRefill : ℚ
  deriving DecidableEq

structure TokenBucketParams where
  capacity : ℚ
  refillRate : ℚ
  keyPrefix : String

inductive LimitError where
  | kv (e : KvError)
  /-- `token bucket CAS failed`. -/
  | contention (key : String)
  deriving DecidableEq

inductive TokenMark where
  /-- The store has taken the state. -/
  | committed (st : BucketState)
  | returned (r : Except LimitError RateLimitInfo)
  deriving DecidableEq

/-! ## The call -/

def maxCasRetries : ℕ := 10

/-- A request whose error the caller looks at. -/
def ask {V L β : Type} (p : ExceptT KvError (Prog (Kv V) L) β) :
    ExceptT LimitError (Prog (Kv V) L) (Except KvError β) :=
  ExceptT.lift p.run

/-- A request whose error is thrown. -/
def orThrow {V L β : Type} (p : ExceptT KvError (Prog (Kv V) L) β) :
    ExceptT LimitError (Prog (Kv V) L) β := do
  match ← ask p with
  | .ok b => return b
  | .error e => throw (.kv e)

/-- Write a state; a conflict is a reason to try again. -/
def commitState {β : Type} (op : Op BucketState β) (st : BucketState) (info : RateLimitInfo)
    (again : ExceptT LimitError (Prog (Kv BucketState) TokenMark) RateLimitInfo) :
    ExceptT LimitError (Prog (Kv BucketState) TokenMark) RateLimitInfo := do
  match ← ask (request op fun _ => some (.committed st)) with
  | .ok _ => return info
  | .error e => if e.status = 409 then again else throw (.kv e)

namespace TokenBucketParams

def bucketKey (p : TokenBucketParams) (key : String) : String := p.keyPrefix ++ ":tb:" ++ key

/-- The tokens there are at `now`. -/
def refill (p : TokenBucketParams) (raw : BucketState) (now : ℚ) : ℚ :=
  min p.capacity (raw.tokens + (now - raw.lastRefill) / 1000 * p.refillRate)

def grant (p : TokenBucketParams) (remaining now : ℚ) : RateLimitInfo :=
  { allowed := true, remaining, limit := p.capacity, reset := now + ⌈1000 / p.refillRate⌉,
    retryAfter := none }

def refuse (p : TokenBucketParams) (tokens now : ℚ) : RateLimitInfo :=
  let retryAfter : ℤ := ⌈(1 - tokens) / p.refillRate * 1000⌉
  { allowed := false, remaining := 0, limit := p.capacity, reset := now + retryAfter,
    retryAfter := some retryAfter }

/-- The attempts that are left; `now` is the clock, by attempt. -/
def attempts (p : TokenBucketParams) (key : String) (now : ℕ → ℚ) :
    ℕ → ExceptT LimitError (Prog (Kv BucketState) TokenMark) RateLimitInfo
  | 0 => throw (.contention key)
  | left + 1 => do
    let now' := now (maxCasRetries - left)
    match ← orThrow (send (Kv.get (p.bucketKey key))) with
    | none =>
      let st : BucketState := ⟨p.capacity - 1, now'⟩
      commitState (Kv.setIfAbsent (p.bucketKey key) st) st (p.grant (p.capacity - 1) now')
        (attempts p key now left)
    | some r =>
      let tokens := p.refill r.value now'
      if tokens < 1 then return p.refuse tokens now'
      else
        let st : BucketState := ⟨tokens - 1, now'⟩
        commitState (Kv.cas (p.bucketKey key) st r.revision) st (p.grant ⌊tokens - 1⌋ now')
          (attempts p key now left)

end TokenBucketParams

def limitTokenBucket (key : String) (p : TokenBucketParams) (now : ℕ → ℚ) :
    ExceptT LimitError (Prog (Kv BucketState) TokenMark) RateLimitInfo :=
      p.attempts key now (maxCasRetries + 1)

def tokenTask (key : String) (p : TokenBucketParams) (now : ℕ → ℚ) :
    Prog (Kv BucketState) TokenMark Unit := do
  let r ← (limitTokenBucket key p now).run
  Prog.at_ (.returned r)

def tokenTasks (key : String) (p : TokenBucketParams) (clocks : List (ℕ → ℚ)) :
    List (Prog (Kv BucketState) (ℕ × TokenMark) Unit) := numbered (clocks.map (tokenTask key p))

abbrev TokenTrace := List (ℕ × TokenMark)

/-- What has happened, newest first. -/
abbrev tokenTrace : Discipline (Kv BucketState) (ℕ × TokenMark) TokenTrace :=
  .record fun l _ g => l :: g

/-! ## Commits -/

def TokenMark.commit? : TokenMark → Option BucketState
  | .committed st => some st
  | .returned _ => none

/-- The states committed, newest first. -/
def commits (g : TokenTrace) : List BucketState := g.filterMap fun l => l.2.commit?

/-- Each state follows on the one before it. -/
def Follows (p : TokenBucketParams) (st prev : BucketState) : Prop :=
  0 ≤ st.tokens
    ∧ st.tokens ≤ prev.tokens + (st.lastRefill - prev.lastRefill) / 1000 * p.refillRate - 1

/-- A chain of commits, newest first; every bucket has lost a token. -/
def Chained (p : TokenBucketParams) : List BucketState → Prop
  | [] => True
  | st :: sts =>
    st.tokens ≤ p.capacity - 1 ∧ (∀ prev ∈ sts.head?, Follows p st prev) ∧ Chained p sts

section chain
variable {p : TokenBucketParams} {st first : BucketState} {sts between : List BucketState}

theorem Chained.suffix (h : Chained p sts) {l : List BucketState} (hs : l <:+ sts) :
    Chained p l := by
  induction sts with
  | nil => rwa [List.suffix_nil.mp hs]
  | cons st sts ih =>
    rcases List.suffix_cons_iff.mp hs with rfl | hs
    · exact h
    · exact ih h.2.2 hs

/-- From one commit to a later one: the tokens left, and one spent by every commit after the
first. -/
theorem Chained.spent (h : Chained p (st :: between ++ first :: sts)) :
    0 ≤ st.tokens ∧ st.tokens + (between.length + 1) ≤ first.tokens
        + (st.lastRefill - first.lastRefill) / 1000 * p.refillRate := by
  induction between generalizing st with
  | nil =>
    obtain ⟨hpos, hle⟩ := h.2.1 first rfl
    exact ⟨hpos, by simpa using by linarith⟩
  | cons mid between ih =>
    obtain ⟨hpos, hle⟩ := h.2.1 mid rfl
    obtain ⟨-, hmid⟩ := ih h.2.2
    refine ⟨hpos, ?_⟩
    push_cast [List.length_cons]
    linarith

/-- Between two commits no more than the bucket and its refill can be spent. -/
theorem Chained.rate (h : Chained p (st :: between ++ first :: sts)) :
    ((between.length + 1 : ℕ) : ℚ) ≤ p.capacity
    + p.refillRate * (st.lastRefill - first.lastRefill) / 1000 := by
  obtain ⟨hpos, hspent⟩ := h.spent
  have hfirst : first.tokens ≤ p.capacity - 1 := (h.suffix (List.suffix_append _ _)).1
  push_cast
  linarith

end chain

/-! ## The invariant -/

/-- What a call keeps: the record it has read, and that it has committed. -/
inductive Holding where
  | read (r : Stored BucketState)
  | paid (i : ℕ)

def TokenMark.admits : TokenMark → Prop
  | .returned (.ok info) => info.allowed = true
  | _ => False

/-- The call has committed. -/
def Paid (g : TokenTrace) (i : ℕ) : Prop := ∃ st, (i, .committed st) ∈ g

section invariant
variable (p : TokenBucketParams) (key : String)

/-- What a token says. A record that is read stays as it is as long as its revision is the current
one. -/
def Holding.Tells (g : TokenTrace) (s : Kv BucketState) : Holding → Prop
  | .read r =>
    r.revision ≤ s.revision ∧ ∀ r', s.records key = some r' → r'.revision = r.revision →
      r'.value = r.value
  | .paid i => Paid g i

structure Metered (M : Multiset Holding) (g : TokenTrace) (s : Kv BucketState) : Prop where
  dated : ∀ r, s.records key = some r → r.revision ≤ s.revision
  tells : ∀ x ∈ M, x.Tells key g s
  current : ∀ st ∈ (commits g).head?, ∃ r, s.records key = some r ∧ r.value = st
  chained : Chained p (commits g)
  admitted : ∀ l ∈ g, l.2.admits → Paid g l.1

variable {p key} {M : Multiset Holding} {g : TokenTrace} {s : Kv BucketState} {i : ℕ}
  {st : BucketState}

theorem Paid.cons {l : ℕ × TokenMark} (h : Paid g i) : Paid (l :: g) i :=
  h.imp fun _ hmem => List.mem_cons_of_mem _ hmem

/-- The number of requests does not matter. -/
theorem Metered.counted (h : Metered p key M g s) (n : ℕ) :
    Metered p key M g { s with requests := n } := by
  obtain ⟨hdated, htells, hcurrent, hchained, hadmitted⟩ := h
  refine ⟨hdated, fun x hx => ?_, hcurrent, hchained, hadmitted⟩
  cases x with
  | read r => exact htells _ hx
  | paid i => exact htells _ hx

/-- A commit that follows on the state there is. -/
theorem Metered.commit (h : Metered p key M g s) (hcap : st.tokens ≤ p.capacity - 1)
    (hfollows : ∀ r, s.records key = some r → Follows p st r.value) :
    Metered p key M ((i, .committed st) :: g) (s.put key st none) := by
  have hrec : (s.put key st none).records key = some ⟨st, s.revision + 1, none⟩ :=
    Function.update_self ..
  refine ⟨fun r hr => ?_, fun x hx => ?_, fun st' hst => ⟨_, hrec, Option.some.inj hst⟩,
    ⟨hcap, fun prev hprev => ?_, h.chained⟩,
    fun l hl hadm => ?_⟩
  · cases hrec.symm.trans hr
    exact le_rfl
  · cases x with
    | read r =>
      obtain ⟨hle, -⟩ := h.tells _ hx
      refine ⟨hle.trans (Nat.le_succ _), fun r' hr' heq => ?_⟩
      cases hrec.symm.trans hr'
      exact absurd heq (Nat.ne_of_gt (Nat.lt_succ_of_le hle))
    | paid j => exact (h.tells _ hx).cons
  · obtain ⟨r, hr, rfl⟩ := h.current prev hprev
    exact hfollows r hr
  · rcases List.mem_cons.mp hl with rfl | hl
    · exact hadm.elim
    · exact (h.admitted l hl hadm).cons

/-- The call returns. -/
theorem Metered.return {r : Except LimitError RateLimitInfo} (h : Metered p key M g s)
    (hr : (TokenMark.returned r).admits → Paid g i) :
    Metered p key M ((i, .returned r) :: g) s := by
  refine ⟨h.dated, fun x hx => ?_, h.current, h.chained, fun l hl hadm => ?_⟩
  · cases x with
    | read r => exact h.tells _ hx
    | paid j => exact (h.tells _ hx).cons
  · rcases List.mem_cons.mp hl with rfl | hl
    · exact (hr hadm).cons
    · exact (h.admitted l hl hadm).cons

theorem Metered.add {x : Holding} (h : Metered p key M g s) (hx : x.Tells key g s) :
    Metered p key ({x} + M) g s := by
  refine ⟨h.dated, fun y hy => ?_, h.current, h.chained, h.admitted⟩
  rcases Multiset.mem_add.mp hy with hy | hy
  · rw [Multiset.mem_singleton.mp hy]
    exact hx
  · exact h.tells y hy

theorem Metered.drop {x : Holding} (h : Metered p key ({x} + M) g s) : Metered p key M g s :=
  ⟨h.dated, fun y hy => h.tells y (Multiset.mem_add.mpr (.inr hy)), h.current,
    h.chained, h.admitted⟩

/-! ## Calls -/

/-- The store writes the state, which follows on the one there, or does nothing. -/
def Commits (p : TokenBucketParams) (key : String) (st : BucketState) {β : Type}
    (op : Op BucketState β)
    (s : Kv BucketState) : Prop :=
  (∃ b, op s = (.ok b, s.put key st none) ∧ st.tokens ≤ p.capacity - 1
    ∧ ∀ r, s.records key = some r → Follows p st r.value) ∨ ∃ e, op s = (.error e, s)

abbrev metering (p : TokenBucketParams) (key : String) :
    Regime (Kv BucketState) (ℕ × TokenMark) TokenTrace Holding :=
  .plain tokenTrace (Metered p key)

/-- The terms as the call `i` sees them. -/
abbrev meteringBy (p : TokenBucketParams) (key : String) (i : ℕ) :
    Regime (Kv BucketState) TokenMark TokenTrace Holding :=
  (metering p key).via (Prod.mk i)

/-- Whatever becomes of the request, its commit is marked. -/
theorem Metered.serve {β : Type} {op : Op BucketState β} (h : Metered p key M g s)
    (hop : Commits p key st op s) :
    let a := Sdk.serve op s
    let g' := noted (meteringBy p key i).runs (fun _ => some (.committed st)) a.1 a.2 g
    Metered p key M g' a.2 ∧ ∀ b, a.1.reply = .ok b → Paid g' i := by
  unfold Sdk.serve
  rcases hop with ⟨b, hop, hcap, hfollows⟩ | ⟨e, hop⟩
  · have hcommit := (h.commit (i := i) hcap hfollows).counted (s.requests + 1)
    rw [hop]
    cases s.fate s.requests with
    | served => exact ⟨hcommit, fun _ _ => ⟨st, List.mem_cons_self ..⟩⟩
    | refused e => exact ⟨h.counted _, nofun⟩
    | lost e => exact ⟨hcommit, nofun⟩
  · rw [hop]
    cases s.fate s.requests with
    | served => exact ⟨h.counted _, nofun⟩
    | refused e => exact ⟨h.counted _, nofun⟩
    | lost e => exact ⟨h.counted _, nofun⟩

/-- Where a call is in the end: if it is allowed, it has committed. -/
def Settled (i : ℕ) (r : Except LimitError RateLimitInfo) (own : Multiset Holding) : Prop :=
  own = {.paid i} ∨ own = 0 ∧ ¬ (TokenMark.returned r).admits

theorem triple_commitState {β : Type} {op : Op BucketState β} {info : RateLimitInfo}
    {own : Multiset Holding}
    {again : ExceptT LimitError (Prog (Kv BucketState) TokenMark) RateLimitInfo}
    (hdrop : ∀ f g s, Metered p key (own + f) g s → Metered p key f g s ∧ Commits p key st op s)
    (hagain : Triple (meteringBy p key i) 0 again.run (Settled i)) :
    Triple (meteringBy p key i) own (commitState op st info again).run (Settled i) := by
  have hreq :
    Triple (meteringBy p key i) own (request op fun _ => some (.committed st)).run fun r own =>
      (∃ b, r = .ok b ∧ own = {.paid i}) ∨ ∃ e, r = .error e ∧ own = 0 := by
    refine triple_request fun f g s hi => ?_
    obtain ⟨hf, hop⟩ := hdrop f g s hi
    obtain ⟨hinv, hpaid⟩ := hf.serve (i := i) hop
    cases hr : (serve op s).1.reply with
    | ok b => exact ⟨{.paid i}, hinv.add (x := .paid i) (hpaid b hr), .inl ⟨b, rfl, rfl⟩⟩
    | error e => exact ⟨0, by rw [zero_add]; exact hinv, .inr ⟨e, rfl, rfl⟩⟩
  refine Triple.run_lift_seq hreq ?_
  rintro r _ (⟨b, rfl, rfl⟩ | ⟨e, rfl, rfl⟩)
  · exact Triple.ret (.inl rfl)
  · by_cases he : e.status = 409
    · simp only [he, if_true]
      exact hagain
    · simp only [he, if_false]
      exact Triple.ret (Γ := meteringBy p key i) (.inr ⟨rfl, id⟩)

theorem triple_read : Triple (meteringBy p key i) 0
    (orThrow (send (Kv.get key)) : ExceptT LimitError (Prog (Kv BucketState) TokenMark) _).run
    fun r own =>
      (∃ e, r = .error e ∧ own = 0) ∨ (r = .ok none ∧ own = 0) ∨ ∃ x, r = .ok (some x)
      ∧ own = {.read x} := by
  have hreq : Triple (meteringBy p key i) 0 (send (Kv.get key)).run fun r own =>
      (∃ e, r = .error e ∧ own = 0) ∨ (r = .ok none ∧ own = 0) ∨ ∃ x, r = .ok (some x)
      ∧ own = {.read x} := by
    refine triple_unmarked fun f g s hi => ?_
    have hserve : (serve (Kv.get key) s).2 = { s with requests := s.requests + 1 } := by
      unfold serve
      cases s.fate s.requests <;> rfl
    have hnext : Metered p key f g (serve (Kv.get key) s).2 := by
      rw [hserve]
      rw [zero_add] at hi
      exact hi.counted _
    have hreply : (∃ e, (serve (Kv.get key) s).1.reply = .error e) ∨ (serve (Kv.get key) s).1.reply
        = .ok (s.records key) := by
      unfold serve
      cases s.fate s.requests with
      | served => exact .inr rfl
      | refused e => exact .inl ⟨e, rfl⟩
      | lost e => exact .inl ⟨e, rfl⟩
    rcases hreply with ⟨e, hreply⟩ | hreply
    · exact ⟨0, by rw [zero_add]; exact hnext, .inl ⟨e, hreply, rfl⟩⟩
    · cases hrec : s.records key with
      | none =>
        exact ⟨0, by rw [zero_add]; exact hnext, .inr (.inl ⟨hreply.trans (by rw [hrec]), rfl⟩)⟩
      | some x =>
        refine ⟨{.read x}, hnext.add ?_, .inr (.inr ⟨x, hreply.trans (by rw [hrec]), rfl⟩)⟩
        rw [hserve]
        refine ⟨hi.dated x hrec, fun r' hr' _ => ?_⟩
        cases hrec.symm.trans hr'
        rfl
  refine Triple.run_lift_seq hreq ?_
  rintro r _ (⟨e, rfl, rfl⟩ | ⟨rfl, rfl⟩ | ⟨x, rfl, rfl⟩)
  · exact Triple.ret (Γ := meteringBy p key i) (.inl ⟨.kv e, rfl, rfl⟩)
  · exact Triple.ret (.inr (.inl ⟨rfl, rfl⟩))
  · exact Triple.ret (.inr (.inr ⟨x, rfl, rfl⟩))

/-- An empty bucket is started full. -/
theorem commits_absent {now : ℚ} :
    Commits p key ⟨p.capacity - 1, now⟩ (Kv.setIfAbsent key ⟨p.capacity - 1, now⟩) s := by
  unfold Commits Kv.setIfAbsent
  cases hrec : s.records key with
  | none => exact .inl ⟨(), rfl, le_rfl, nofun⟩
  | some r => exact .inr ⟨_, rfl⟩

/-- A swap succeeds only on the record that was read. -/
theorem commits_swap {x : Stored BucketState} {now : ℚ} (h : Metered p key ({.read x} + M) g s)
    (htokens : 1 ≤ p.refill x.value now) :
    Commits p key ⟨p.refill x.value now - 1, now⟩
        (Kv.cas key ⟨p.refill x.value now - 1, now⟩ x.revision) s := by
  unfold Commits Kv.cas
  cases hrec : s.records key with
  | none => exact .inr ⟨_, rfl⟩
  | some r =>
    by_cases hrev : r.revision = x.revision
    · obtain ⟨-, hsame⟩ :=
        h.tells (.read x) (Multiset.mem_add.mpr (.inl (Multiset.mem_singleton_self _)))
      refine .inl ⟨s.revision + 1, by simp [hrev], sub_le_sub_right (min_le_left _ _) 1, ?_⟩
      rintro _ ⟨⟩
      rw [hsame r hrec hrev]
      exact ⟨sub_nonneg.mpr htokens, sub_le_sub_right (min_le_right _ _) 1⟩
    · exact .inr ⟨⟨409⟩, by simp [hrev]⟩

theorem attempts_settle (i : ℕ) (name : String) (now : ℕ → ℚ) (left : ℕ) :
    Triple (meteringBy p (p.bucketKey name) i) 0 (p.attempts name now left).run (Settled i) := by
  induction left with
  | zero => exact Triple.ret (Γ := meteringBy p (p.bucketKey name) i) (.inr ⟨rfl, id⟩)
  | succ left ih =>
    refine Triple.run_seq triple_read ?_ ?_
    · rintro x _ (⟨e, h, -⟩ | ⟨⟨⟩, rfl⟩ | ⟨x, ⟨⟩, rfl⟩)
      · cases h
      · refine triple_commitState (fun f g s hi => ?_) ih
        rw [zero_add] at hi
        exact ⟨hi, commits_absent⟩
      · by_cases htokens : p.refill x.value (now (maxCasRetries - left)) < 1
        · simp only [htokens, if_true]
          exact fun f g s hi => ⟨0, by rw [zero_add]; exact hi.drop, .inr ⟨rfl, nofun⟩⟩
        · simp only [htokens, if_false]
          exact triple_commitState
            (fun f g s hi => ⟨hi.drop, commits_swap hi (not_lt.mp htokens)⟩) ih
    · rintro e _ (⟨e', h, rfl⟩ | ⟨h, -⟩ | ⟨_, h, -⟩)
      · exact .inr ⟨rfl, id⟩
      · cases h
      · cases h

theorem tokenTask_clean (i : ℕ) (name : String) (now : ℕ → ℚ) :
    Triple (meteringBy p (p.bucketKey name) i) 0 (tokenTask name p now) Clean := by
  refine Triple.seq (attempts_settle i name now _) ?_
  rintro r _ (rfl | ⟨rfl, hr⟩)
  · intro f g s hi _
    have hpaid : Paid g i :=
      hi.tells (.paid i) (Multiset.mem_add.mpr (.inl (Multiset.mem_singleton_self _)))
    exact ⟨0, by rw [zero_add]; exact hi.drop.return fun _ => hpaid, rfl⟩
  · exact fun f g s hi _ => ⟨0, hi.return fun hadm => absurd hadm hr, rfl⟩

end invariant

/-! ## Runs -/

/-- The calls that commit in a part of the trace are no more than the commits there. -/
theorem card_le_commits {g : TokenTrace} {is : Finset ℕ} (h : ∀ i ∈ is, Paid g i) :
    is.card ≤ (commits g).length := by
  have hsub : is ⊆ (g.filterMap fun l => l.2.commit?.map fun _ => l.1).toFinset := by
    intro i hi
    obtain ⟨st, hmem⟩ := h i hi
    exact List.mem_toFinset.mpr (List.mem_filterMap.mpr ⟨_, hmem, rfl⟩)
  calc is.card ≤ (g.filterMap fun l => l.2.commit?.map fun _ => l.1).toFinset.card :=
        Finset.card_le_card hsub
    _ ≤ (g.filterMap fun l => l.2.commit?.map fun _ => l.1).length := List.toFinset_card_le _
    _ = (commits g).length := by
        rw [commits, List.length_filterMap_eq_countP, List.length_filterMap_eq_countP]
        exact List.countP_congr fun l _ => by simp

/-- Any number of calls, with any clocks and whatever becomes of their requests: between two
commits no more calls commit than the capacity and the refill allow for the time between
the two, by the clocks that stored it; and every call that is allowed has committed. -/
theorem token_bucket_enforces_rate {name : String} {p : TokenBucketParams} {clocks : List (ℕ → ℚ)}
    {s₀ : Kv BucketState}
    {w : Pool (Kv BucketState) (ℕ × TokenMark) TokenTrace}
    (hdated : ∀ r, s₀.records (p.bucketKey name) = some r → r.revision ≤ s₀.revision)
    (hrun : Runs tokenTrace (.of (tokenTasks name p clocks) [] s₀) w) :
    (∀ later i j st₁ st₂ between before,
      w.ghost = later ++ (j, .committed st₂) :: between ++ (i, .committed st₁) :: before →
      ∀ is : Finset ℕ, (∀ k ∈ is, Paid ((j, .committed st₂) :: between) k) →
        (is.card : ℚ) ≤ p.capacity + p.refillRate * (st₂.lastRefill - st₁.lastRefill) / 1000)
      ∧ ∀ i info, (i, .returned (.ok info)) ∈ w.ghost → info.allowed = true → Paid w.ghost i := by
  have hstart : Metered p (p.bucketKey name) 0 [] s₀ := ⟨hdated, nofun, nofun, trivial, nofun⟩
  obtain ⟨M, hinv, -⟩ := Runs.inv (Γ := metering p (p.bucketKey name)) hrun hstart
      fun q hq f g s hi => by
    obtain ⟨i, hlt, rfl⟩ := List.mem_mapIdx.mp hq
    rw [List.getElem_map]
    exact wpi_relabel (tokenTask_clean i name _ f g s (by rwa [zero_add]))
  refine ⟨fun later i j st₁ st₂ between before hg is his => ?_, fun i info hmem hall =>
    hinv.admitted _ hmem hall⟩
  have hchain : Chained p (st₂ :: commits between ++ st₁ :: commits before) := by
    refine hinv.chained.suffix ⟨commits later, ?_⟩
    rw [hg]
    simp [commits, TokenMark.commit?]
  refine le_trans ?_ hchain.rate
  have hcard := card_le_commits his
  exact_mod_cast hcard

/-- Two calls one after the other, a second apart by their clocks. -/
theorem token_bucket_two :
    ∃ w,
      Runs tokenTrace (.of (tokenTasks "u" ⟨2, 1, "rl"⟩ [fun _ => 1000, fun _ => 2000]) [] Kv.empty)
      w
      ∧ (∃ later between before,
        w.ghost = later ++ (1, .committed ⟨1, 2000⟩) :: between
          ++ (0, .committed ⟨1, 1000⟩) :: before)
      ∧ (({1} : Finset ℕ).card : ℚ) ≤ 2 + 1 * (2000 - 1000) / 1000 := by
  have hview : (schedule tokenTrace ([0, 0, 0, 0, 0, 1, 1, 1, 1, 1].map (·, []))
      (.of (tokenTasks "u" ⟨2, 1, "rl"⟩ [fun _ => 1000, fun _ => 2000]) [] Kv.empty)).map
        (fun w =>
          decide
          (w.ghost = [(1, .returned (.ok ⟨true, 1, 2, 3000, none⟩)), (1, .committed ⟨1, 2000⟩),
          (0, .returned (.ok ⟨true, 1, 2, 2000, none⟩)), (0, .committed ⟨1, 1000⟩)]))
          = some true := by
    decide +kernel
  obtain ⟨w, hsome, heq⟩ := Option.map_eq_some_iff.mp hview
  have hghost := of_decide_eq_true heq
  have hrun := runs_of_schedule .start hsome
  refine ⟨w, hrun, ⟨[_], [_], [], hghost⟩, ?_⟩
  refine (token_bucket_enforces_rate (fun r h => absurd h (Option.some_ne_none r).symm) hrun).1
    [_] 0 1 ⟨1, 1000⟩ ⟨1, 2000⟩
    [_] [] hghost {1} fun k hk => ?_
  rw [Finset.mem_singleton.mp hk]
  exact ⟨_, List.mem_cons_self ..⟩

end BeyondKv.Sdk
