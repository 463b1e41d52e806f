/-
# The sliding window

`limitSlidingWindow` counts first and decides afterwards: it increments the counter of the
current bucket, weighs the count it got with that of the bucket before, and takes its
increment back if the estimate is over the limit. Requests that are about to be denied are so
counted for a while, and may deny others; none is let in that should not be.

A call that has its count and has not returned holds a token, the count. The counter is the
number of tokens and of calls that were allowed. The counts within the limit, and the calls
allowed, are together within the limit: a count within the limit was the whole counter when
it was handed out.
-/
import BeyondKv.Sdk.Kv

namespace BeyondKv.Sdk

open Async Multiset

structure SlidingWindowParams where
  limit : ℚ
  window : ℚ
  keyPrefix : String

/-- The mark of a call is what it returns. -/
abbrev Verdict := Except KvError RateLimitInfo

/-! ## The call -/

/-- `%` on numbers: the quotient is rounded towards zero. -/
def jsMod (a b : ℚ) : ℚ := a - b * (if 0 ≤ a / b then ⌊a / b⌋ else ⌈a / b⌉)

namespace SlidingWindowParams

def bucket (p : SlidingWindowParams) (now : ℕ) : ℤ := ⌊(now : ℚ) / p.window⌋

/-- How much of the bucket has passed. -/
def elapsed (p : SlidingWindowParams) (now : ℕ) : ℚ := jsMod now p.window / p.window

def bucketKey (p : SlidingWindowParams) (key : String) (bucket : ℤ) : String :=
  p.keyPrefix ++ ":sw:" ++ key ++ ":" ++ toString bucket

end SlidingWindowParams

/-- The rest of the call, with the count that it got. -/
def weigh (key : String) (p : SlidingWindowParams) (now : ℕ) (newCurrentCount : ℤ) :
    ExceptT KvError (Prog (Kv ℤ) Verdict) RateLimitInfo := do
  let reset := (p.bucket now + 1) * p.window
  let prev ← send (Kv.get (p.bucketKey key (p.bucket now - 1)))
  let prevCount := (prev.map Stored.value).getD 0
  let estimated : ℚ := prevCount * (1 - p.elapsed now) + newCurrentCount
  if p.limit < estimated then do
    let _ ← send (Kv.incrBy (p.bucketKey key (p.bucket now)) (-1))
    let retryAfter : ℤ :=
      if 0 < prevCount then ⌈(estimated - p.limit) / prevCount * p.window⌉
      else ⌈reset - now + p.window⌉
    return {
      allowed := false, remaining := 0, limit := p.limit, reset, retryAfter := some retryAfter }
  else
    return {
      allowed := true, remaining := max 0 (p.limit - ⌊estimated⌋), limit := p.limit, reset,
      retryAfter := none }

/-- One reading of the clock, `now`, serves the whole call. -/
def limitSlidingWindow (key : String) (p : SlidingWindowParams) (now : ℕ) :
    ExceptT KvError (Prog (Kv ℤ) Verdict) RateLimitInfo := do
  let currentKey := p.bucketKey key (p.bucket now)
  let newCurrentCount ← send (Kv.incrBy currentKey 1)
  if newCurrentCount = 1 then do
    let _ ← send (Kv.expire currentKey (p.window * 2))
    weigh key p now newCurrentCount
  else weigh key p now newCurrentCount

def slidingTask (key : String) (p : SlidingWindowParams) (now : ℕ) : Prog (Kv ℤ) Verdict Unit := do
  let r ← (limitSlidingWindow key p now).run
  Prog.at_ r

def slidingTasks (key : String) (p : SlidingWindowParams) (nows : List ℕ) :
    List (Prog (Kv ℤ) (ℕ × Verdict) Unit) := numbered (nows.map (slidingTask key p))

/-- What the calls that have returned were told, newest first. -/
abbrev verdicts : Discipline (Kv ℤ) (ℕ × Verdict) (List (ℕ × Verdict)) :=
  .record fun l _ g => l :: g

def Verdict.allows (r : Verdict) : Bool := r.toOption.any RateLimitInfo.allowed

def allowed (g : List (ℕ × Verdict)) : ℕ := g.countP fun l => l.2.allows

/-! ## The estimate -/

/-- A bucket never weighs less than nothing. -/
theorem elapsed_le_one {p : SlidingWindowParams} (hw : p.window ≠ 0) (now : ℕ) :
    p.elapsed now ≤ 1 := by
  have hsplit : p.elapsed now = now / p.window
      - (if 0 ≤ (now : ℚ) / p.window then (⌊(now : ℚ) / p.window⌋ : ℚ)
          else ⌈(now : ℚ) / p.window⌉) := by
    unfold SlidingWindowParams.elapsed jsMod
    field_simp
    split <;> simp
  rw [hsplit]
  split
  · linarith [Int.lt_floor_add_one ((now : ℚ) / p.window)]
  · linarith [Int.le_ceil ((now : ℚ) / p.window)]

theorem count_le_estimate {prev n : ℤ} {e : ℚ} (hprev : 0 ≤ prev) (he : e ≤ 1) :
    (n : ℚ) ≤ prev * (1 - e) + n := by
  have hweight : (0 : ℚ) ≤ prev * (1 - e) := mul_nonneg (by exact_mod_cast hprev) (by linarith)
  linarith

/-! ## The invariant -/

/-- The count is within the limit. -/
abbrev Fits (limit : ℚ) (n : ℤ) : Prop := (n : ℚ) ≤ limit

section invariant
variable (limit : ℚ) (cur prev : String)

structure Counted (M : Multiset ℤ) (g : List (ℕ × Verdict)) (s : Kv ℤ) : Prop where
  served : ∀ n, s.fate n = .served
  count : s.count cur = M.card + allowed g
  within : ((allowed g + M.countP (Fits limit) : ℕ) : ℚ) ≤ max limit 0
  before : 0 ≤ s.count prev

variable {limit cur prev} {M : Multiset ℤ} {g : List (ℕ × Verdict)} {s s' : Kv ℤ} {n : ℤ}

theorem Kv.count_put (s : Kv ℤ) (key k : String) (v : ℤ) (ttl : Option ℚ) :
    (s.put key v ttl).count k = if k = key then v else s.count k := by
  unfold Kv.count Kv.put
  by_cases hk : k = key
  · simp [hk]
  · simp [hk]

theorem serve_served {V β : Type} {op : Op V β} {s : Kv V} (h : ∀ n, s.fate n = .served) :
    serve op s = (⟨(op s).1, (op s).1⟩, { (op s).2 with requests := s.requests + 1 }) := by
  unfold serve
  rw [h]

/-- The store counts one more. -/
theorem Counted.incr (h : Counted limit cur prev M g s) :
    Counted limit cur prev ({s.count cur + 1} + M) g (serve (Kv.incrBy cur 1) s).2 := by
  rw [serve_served h.served]
  have hcount : ∀ k, (s.put cur (s.count cur + 1) ((s.records cur).bind Stored.ttlMs)).count k
      = if k = cur then s.count cur + 1 else s.count k := fun k => Kv.count_put s cur k _ _
  refine ⟨h.served, ?_, ?_, ?_⟩
  · refine (hcount cur).trans ?_
    rw [if_pos rfl, h.count]
    push_cast [card_add, card_singleton]
    ring
  · rw [countP_add]
    by_cases hn : Fits limit (s.count cur + 1)
    · -- the count was the whole counter, so there is room for all that the counter counts
      have hone : Multiset.countP (Fits limit) {s.count cur + 1} = 1 := by
        rw [← cons_zero, countP_cons_of_pos _ hn, countP_zero]
      have hall : M.countP (Fits limit) ≤ M.card := countP_le_card _ _
      have htotal : ((allowed g + (1 + M.countP (Fits limit)) : ℕ) : ℤ) ≤ s.count cur + 1 := by
        rw [h.count]
        push_cast
        omega
      rw [hone]
      refine le_trans ?_ (hn.trans (le_max_left _ _))
      exact_mod_cast htotal
    · have hnone : Multiset.countP (Fits limit) {s.count cur + 1} = 0 := by
        rw [← cons_zero, countP_cons_of_neg _ hn, countP_zero]
      rw [hnone, zero_add]
      exact h.within
  · refine le_of_le_of_eq ?_ (hcount prev).symm
    split
    · have := h.count
      omega
    · exact h.before

/-- A call takes its count back. -/
theorem Counted.decr (h : Counted limit cur prev ({n} + M) g s) :
    Counted limit cur prev M g (serve (Kv.incrBy cur (-1)) s).2 := by
  rw [serve_served h.served]
  have hcount : ∀ k, (s.put cur (s.count cur + -1) ((s.records cur).bind Stored.ttlMs)).count k
      = if k = cur then s.count cur + -1 else s.count k := fun k => Kv.count_put s cur k _ _
  have hfull := h.count
  rw [card_add, card_singleton] at hfull
  push_cast at hfull
  refine ⟨h.served, ?_, ?_, ?_⟩
  · refine (hcount cur).trans ?_
    rw [if_pos rfl]
    omega
  · refine le_trans ?_ h.within
    exact_mod_cast Nat.add_le_add_left (countP_le_of_le _ (Multiset.le_add_left M {n})) _
  · refine le_of_le_of_eq ?_ (hcount prev).symm
    split
    · omega
    · exact h.before

/-- Nothing is counted. -/
theorem Counted.same (h : Counted limit cur prev M g s) (hfate : s'.fate = s.fate)
    (hcount : ∀ k, s'.count k = s.count k) : Counted limit cur prev M g s' :=
  ⟨fun n => hfate ▸ h.served n, (hcount cur).trans h.count, h.within, (hcount prev).symm ▸ h.before⟩

theorem Counted.expire (h : Counted limit cur prev M g s) (ttl : ℚ) :
    Counted limit cur prev M g (serve (Kv.expire cur ttl) s).2 := by
  rw [serve_served h.served]
  unfold Kv.expire
  cases hr : s.records cur with
  | none => exact h.same rfl fun _ => rfl
  | some r =>
    refine h.same rfl fun k => ?_
    unfold Kv.count
    by_cases hk : k = cur
    · simp [hk, hr]
    · simp [hk]

theorem Counted.deny (h : Counted limit cur prev M g s) {i : ℕ} {r : Verdict}
    (hr : r.allows = false) :
    Counted limit cur prev M ((i, r) :: g) s := by
  have hg : allowed ((i, r) :: g) = allowed g := List.countP_cons_of_neg (by simp [hr])
  exact ⟨h.served, by rw [hg]; exact h.count, by rw [hg]; exact h.within, h.before⟩

theorem Counted.allow (h : Counted limit cur prev ({n} + M) g s) (hn : Fits limit n)
    {i : ℕ} {r : Verdict}
    (hr : r.allows = true) : Counted limit cur prev M ((i, r) :: g) s := by
  have hg : allowed ((i, r) :: g) = allowed g + 1 := List.countP_cons_of_pos (by simp [hr])
  have hone : ({n} + M).countP (Fits limit) = M.countP (Fits limit) + 1 := by
    rw [singleton_add, countP_cons_of_pos _ hn]
  refine ⟨h.served, ?_, ?_, h.before⟩
  · rw [hg, h.count, card_add, card_singleton]
    push_cast
    ring
  · have hwithin := h.within
    rw [hone] at hwithin
    rw [hg]
    convert hwithin using 2
    omega

end invariant

/-! ## Calls -/

section calls
variable {key : String} {p : SlidingWindowParams} {cur prev : String}

abbrev counting (limit : ℚ) (cur prev : String) :
    Regime (Kv ℤ) (ℕ × Verdict) (List (ℕ × Verdict)) ℤ :=
  .plain verdicts (Counted limit cur prev)

/-- A request that takes the tokens from `own` to `own'`. -/
theorem triple_send {limit : ℚ} {i : ℕ} {β : Type} {op : Op ℤ β} {own : Multiset ℤ}
    {post : Except KvError β → Multiset ℤ → Prop}
    (h : ∀ f g s, Counted limit cur prev (own + f) g s → ∃ own',
      Counted limit cur prev (own' + f) g (serve op s).2 ∧ post (op s).1 own') :
    Triple ((counting limit cur prev).via (Prod.mk i)) own (send op).run post := by
  refine triple_unmarked fun f g s hi => ?_
  obtain ⟨own', hinv, hpost⟩ := h f g s hi
  refine ⟨own', hinv, ?_⟩
  rw [serve_served hi.served]
  exact hpost

/-- Where a call is when it has its verdict: it has its count still if it is allowed. -/
def Judged (limit : ℚ) (r : Verdict) (own : Multiset ℤ) : Prop :=
  (r.allows = false ∧ own = 0) ∨ (r.allows = true ∧ ∃ n, Fits limit n ∧ own = {n})

/-- The terms as the call `i` sees them, at its time. -/
abbrev countingBy (key : String) (p : SlidingWindowParams) (now i : ℕ) :
    Regime (Kv ℤ) Verdict (List (ℕ × Verdict)) ℤ :=
  (counting p.limit (p.bucketKey key (p.bucket now)) (p.bucketKey key (p.bucket now - 1))).via
    (Prod.mk i)

section steps
variable {i now : ℕ} {n : ℤ}

theorem triple_incr :
    Triple (countingBy key p now i) 0 (send (Kv.incrBy (p.bucketKey key (p.bucket now)) 1)).run
    fun r own => ∃ n, r = .ok n ∧ own = {n} := by
  refine triple_send fun f g s hi => ?_
  rw [zero_add] at hi
  exact ⟨{s.count _ + 1}, hi.incr, _, rfl, rfl⟩

theorem triple_expire (ttl : ℚ) :
    Triple (countingBy key p now i) {n} (send (Kv.expire (p.bucketKey key (p.bucket now)) ttl)).run
      fun r own => own = {n} ∧ ∃ b, r = .ok b := by
  refine triple_send fun f g s hi => ⟨{n}, hi.expire ttl, rfl, ?_⟩
  unfold Kv.expire
  split <;> exact ⟨_, rfl⟩

theorem triple_get :
    Triple (countingBy key p now i) {n} (send (Kv.get (p.bucketKey key (p.bucket now - 1)))).run
    fun r own => own = {n} ∧ ∃ x :
        Option (Stored ℤ), r = .ok x ∧ 0 ≤ (x.map Stored.value).getD 0 := by
  refine triple_send fun f g s hi => ⟨{n}, ?_, rfl, _, rfl, hi.before⟩
  rw [serve_served hi.served]
  exact hi.same rfl fun _ => rfl

theorem triple_decr :
    Triple (countingBy key p now i) {n} (send (Kv.incrBy (p.bucketKey key (p.bucket now)) (-1))).run
    fun r own => own = 0 ∧ ∃ m, r = .ok m :=
  triple_send fun f g s hi => ⟨0, by rw [zero_add]; exact hi.decr, rfl, _, rfl⟩

end steps

theorem weigh_judges (i now : ℕ) (n : ℤ) (hw : p.window ≠ 0) :
    Triple (countingBy key p now i) {n} (weigh key p now n).run (Judged p.limit) := by
  refine Triple.run_seq triple_get ?_ (by rintro e _ ⟨-, _, h, -⟩; cases h)
  rintro x _ ⟨rfl, _, ⟨⟩, hprev⟩
  have hest := count_le_estimate (n := n) hprev (elapsed_le_one hw now)
  by_cases hover : p.limit < (x.map Stored.value).getD 0 * (1 - p.elapsed now) + n
  · simp only [hover, if_true]
    refine Triple.run_seq triple_decr ?_ (by rintro e _ ⟨-, _, h⟩; cases h)
    rintro _ _ ⟨rfl, -⟩
    exact Triple.ret (.inl ⟨rfl, rfl⟩)
  · simp only [hover, if_false]
    exact Triple.ret (.inr ⟨rfl, n, hest.trans (not_lt.mp hover), rfl⟩)

theorem slidingWindow_judges (i now : ℕ) (hw : p.window ≠ 0) :
    Triple (countingBy key p now i) 0 (limitSlidingWindow key p now).run (Judged p.limit) := by
  refine Triple.run_seq triple_incr ?_ (by rintro e _ ⟨_, h, -⟩; cases h)
  rintro n _ ⟨_, ⟨⟩, rfl⟩
  by_cases hn : n = 1
  · simp only [hn, if_true]
    refine Triple.run_seq (triple_expire _) ?_ (by rintro e _ ⟨-, _, h⟩; cases h)
    rintro _ _ ⟨rfl, -⟩
    exact weigh_judges i now 1 hw
  · simp only [hn, if_false]
    exact weigh_judges i now n hw

theorem slidingTask_clean (i now : ℕ) (hw : p.window ≠ 0) :
    Triple (countingBy key p now i) 0 (slidingTask key p now) Clean := by
  refine Triple.seq (slidingWindow_judges i now hw) ?_
  rintro r _ (⟨hr, rfl⟩ | ⟨hr, n, hn, rfl⟩)
  · exact fun f g s hi _ => ⟨0, hi.deny hr, rfl⟩
  · exact fun f g s hi _ => ⟨0, by rw [zero_add]; exact hi.allow hn hr, rfl⟩

theorem slidingTasks_clean {nows : List ℕ} {bucket : ℤ} (hw : p.window ≠ 0)
    (hnows : ∀ now ∈ nows, p.bucket now = bucket)
    {q : Prog (Kv ℤ) (ℕ × Verdict) Unit} (hq : q ∈ slidingTasks key p nows) {f : Multiset ℤ}
    {g : List (ℕ × Verdict)}
    {s : Kv ℤ} (hi : Counted p.limit (p.bucketKey key bucket) (p.bucketKey key (bucket - 1)) f g s)
    :
    wpi (counting p.limit (p.bucketKey key bucket) (p.bucketKey key (bucket - 1))) q
      (Gives (counting p.limit (p.bucketKey key bucket) (p.bucketKey key (bucket - 1))) Clean) f g
      s := by
  obtain ⟨i, hlt, rfl⟩ := List.mem_mapIdx.mp hq
  rw [List.length_map] at hlt
  have hclean : Triple (countingBy key p nows[i] i) 0 (slidingTask key p nows[i]) Clean :=
    slidingTask_clean i _ hw
  rw [countingBy, hnows _ (List.getElem_mem hlt)] at hclean
  rw [List.getElem_map]
  exact wpi_relabel (hclean f g s (by rwa [zero_add]))

end calls

/-! ## Runs -/

/-- Any number of calls in one bucket, interleaved in any way: at most `limit` of them are
allowed, and when all have returned the counter of the bucket is the number of those. -/
theorem sliding_window_never_over_admits {key : String} {p : SlidingWindowParams}
    {nows : List ℕ} {bucket : ℤ}
    {s₀ : Kv ℤ} {w : Pool (Kv ℤ) (ℕ × Verdict) (List (ℕ × Verdict))}
    (hwindow : p.window ≠ 0) (hnows : ∀ now ∈ nows, p.bucket now = bucket)
    (habsent : s₀.records (p.bucketKey key bucket) = none)
    (hprev : ∀ r, s₀.records (p.bucketKey key (bucket - 1)) = some r → 0 ≤ r.value)
    (hserved : ∀ n, s₀.fate n = .served)
    (hrun : Runs verdicts (.of (slidingTasks key p nows) [] s₀) w) :
    (allowed w.ghost : ℚ) ≤ max p.limit 0
      ∧ (w.Ended → w.state.count (p.bucketKey key bucket) = allowed w.ghost) := by
  have hstart :
      Counted p.limit (p.bucketKey key bucket) (p.bucketKey key (bucket - 1)) 0 [] s₀ := by
    refine ⟨hserved, ?_, ?_, ?_⟩
    · simp [Kv.count, habsent, allowed]
    · simp [allowed]
    · unfold Kv.count
      cases hr : s₀.records (p.bucketKey key (bucket - 1)) with
      | none => exact le_rfl
      | some r => exact hprev r hr
  obtain ⟨M, hinv, hend⟩ :=
    Runs.inv (Γ := counting p.limit (p.bucketKey key bucket) (p.bucketKey key (bucket - 1)))
    hrun hstart fun q hq f g s hi => slidingTasks_clean hwindow hnows hq hi
  refine ⟨le_trans ?_ hinv.within, fun hw => ?_⟩
  · exact_mod_cast Nat.le_add_right _ _
  · rw [hinv.count, hend hw]
    simp

/-- Two calls, both counted before either has decided: the second one takes its count back. -/
theorem sliding_window_two :
    ∃ w, Runs verdicts (.of (slidingTasks "u" ⟨1, 1000, "rl"⟩ [5, 6]) [] Kv.empty) w
      ∧ w.Ended ∧ w.ghost.map Prod.fst = [1, 0] ∧ (allowed w.ghost : ℚ) ≤ max 1 0
      ∧ w.state.count (SlidingWindowParams.bucketKey ⟨1, 1000, "rl"⟩ "u" 0) = allowed w.ghost := by
  have hview : (schedule verdicts ([0, 1, 0, 1, 0, 0, 0, 0, 0, 1, 1, 1, 1, 1].map (·, []))
      (.of (slidingTasks "u" ⟨1, 1000, "rl"⟩ [5, 6]) [] Kv.empty)).map
        (fun w => (w.tasks.all fun p => p.returned.isSome, w.ghost.map Prod.fst))
        = some (true, [1, 0]) := by
    decide +kernel
  obtain ⟨w, hsome, heq⟩ := Option.map_eq_some_iff.mp hview
  rw [Prod.mk.injEq] at heq
  have hrun := runs_of_schedule .start hsome
  have hended := ended_of_returned heq.1
  have hbucket : ∀ now ∈ [5, 6], SlidingWindowParams.bucket ⟨1, 1000, "rl"⟩ now = 0 :=
    by decide +kernel
  obtain ⟨hallowed, hcount⟩ := sliding_window_never_over_admits (by decide +kernel) hbucket rfl
    (fun r h => absurd h (Option.some_ne_none r).symm) (fun _ => rfl) hrun
  exact ⟨w, hrun, hended, heq.2, hallowed, hcount hended⟩

end BeyondKv.Sdk
