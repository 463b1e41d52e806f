/-
# Waiting for the sliding window

A call that is denied is told how long to wait. With a whole limit and a whole window, and as long
as nobody else calls, the wait is long enough: the call after it is allowed
(`retry_after_sufficient`).

No counter ever shows more than the limit, since a call that would make it do so is denied and
takes its increment back, and no bucket of a later time has been counted in. So the estimate after
the wait is bounded by what the denied call has seen, wherever the wait ends: in the same bucket,
in the next one, or beyond it. What expires meanwhile only lowers the estimate.
-/
import BeyondKv.Lib.Ends
import BeyondKv.Sdk.SlidingWindow

namespace BeyondKv.Sdk

open Async

/-! ## Time -/

/-- The store `ms` milliseconds later: what has run out is gone. -/
def Kv.elapse {V : Type} (ms : ℕ) (s : Kv V) : Kv V :=
  { s with records := fun k => (s.records k).bind fun r =>
      match r.ttlMs with
      | none => some r
      | some ttl => if ttl ≤ ms then none else some { r with ttlMs := some (ttl - ms) } }

theorem Kv.count_elapse (ms : ℕ) (s : Kv ℤ) (k : String) :
    (s.elapse ms).count k = s.count k ∨ (s.elapse ms).count k = 0 := by
  unfold Kv.count Kv.elapse
  dsimp only
  rcases s.records k with _ | ⟨v, rev, _ | ttl⟩
  · exact .inl rfl
  · exact .inl rfl
  · dsimp only [Option.bind_some]
    split
    · exact .inr rfl
    · exact .inl rfl

/-- The store after some calls for one key, one after another, and the time it is then. -/
inductive History (key : String) (p : SlidingWindowParams) : ℕ → Kv ℤ → Prop
  | start (now : ℕ) : History key p now Kv.empty
  | wait {now : ℕ} {s : Kv ℤ} (ms : ℕ) :
      History key p now s → History key p (now + ms) (s.elapse ms)
  | call {now : ℕ} {s s' : Kv ℤ} {r : Verdict} : History key p now s →
      ends (limitSlidingWindow key p now).run s = some (r, s') → History key p now s'

/-! ## One call -/

section call
variable {key : String} {p : SlidingWindowParams} {now : ℕ} {s : Kv ℤ}

theorem bucketKey_inj {b b' : ℤ} : p.bucketKey key b = p.bucketKey key b' ↔ b = b' := by
  refine ⟨fun h => ?_, fun h => congrArg _ h⟩
  have htext : Int.repr b = Int.repr b' := by
    simpa [SlidingWindowParams.bucketKey, String.ext_iff] using h
  exact Int.repr_injective htext

theorem ends_send {V L β : Type} (op : Op V β) (s : Kv V) :
    ends (send op : ExceptT KvError (Prog (Kv V) L) β).run s
        = some ((serve op s).1.reply, (serve op s).2) := by
  have hyield (s : Kv V) : ends (Prog.yield : Prog (Kv V) L Unit) s = some ((), s) := rfl
  have hstep : ends (Prog.step (serve op) : Prog (Kv V) L (Answer β)) s = some (serve op s) := rfl
  have hnone : (serve op s).1.done.toOption.bind (fun _ => (none : Option L)) = none := by
    cases (serve op s).1.done.toOption <;> rfl
  rw [send, request_run, Prog.exchange]
  simp only [ends_seq, hyield, hstep, Option.bind_some, hnone]
  rfl

/-- What the call weighs. -/
def SlidingWindowParams.estimate (p : SlidingWindowParams) (now : ℕ) (prev cur : ℤ) : ℚ :=
  prev * (1 - p.elapsed now) + (cur + 1 : ℤ)

/-- How long a denied call is to wait. -/
def SlidingWindowParams.retryAfter (p : SlidingWindowParams) (now : ℕ) (prev cur : ℤ) : ℤ :=
  if 0 < prev then ⌈(p.estimate now prev cur - p.limit) / prev * p.window⌉
  else ⌈(p.bucket now + 1) * p.window - now + p.window⌉

/-- A new expiry changes no count. -/
theorem ends_expire (hserved : ∀ n, s.fate n = .served) (k₀ : String) (ttl : ℚ) :
    ∃ b s', ends (send (Kv.expire k₀ ttl) : ExceptT KvError (Prog (Kv ℤ) Verdict) Bool).run s
      = some (.ok b, s')
      ∧ (∀ n, s'.fate n = .served) ∧ ∀ k, s'.count k = s.count k := by
  rw [ends_send, serve_served hserved]
  unfold Kv.expire
  cases hr : s.records k₀ with
  | none => exact ⟨_, _, rfl, hserved, fun _ => rfl⟩
  | some r =>
    refine ⟨_, _, rfl, hserved, fun k => ?_⟩
    unfold Kv.count
    by_cases hk : k = k₀
    · simp [hk, hr]
    · simp [hk]

/-- The rest of the call, with the count `n`. -/
theorem ends_weigh (key : String) (p : SlidingWindowParams) (now : ℕ) (n : ℤ)
    (hserved : ∀ n, s.fate n = .served) :
    let prev := s.count (p.bucketKey key (p.bucket now - 1))
    ∃ info s', ends (weigh key p now n).run s = some (.ok info, s') ∧ (∀ n, s'.fate n = .served)
      ∧ if p.limit < p.estimate now prev (n - 1)
        then info.allowed = false ∧ info.retryAfter = some (p.retryAfter now prev (n - 1) : ℚ)
          ∧ ∀ k, s'.count k = if k = p.bucketKey key (p.bucket now) then s.count k - 1
          else s.count k
        else info.allowed = true ∧ ∀ k, s'.count k = s.count k := by
  intro prev
  have hn : (n - 1 + 1 : ℤ) = n := Int.sub_add_cancel n 1
  simp only [weigh, ends_run_seq, ends_send, serve_served hserved, Kv.get, Option.bind_some]
  unfold SlidingWindowParams.retryAfter SlidingWindowParams.estimate
  rw [hn]
  have hprev : ((s.records (p.bucketKey key (p.bucket now - 1))).map Stored.value).getD 0 = prev :=
    rfl
  rw [hprev]
  by_cases hover : p.limit < prev * (1 - p.elapsed now) + n
  · simp only [hover, if_true, ends_run_seq, ends_send]
    rw [serve_served (s := { s with requests := s.requests + 1 }) hserved]
    refine ⟨_, _, rfl, hserved, rfl, rfl, fun k => ?_⟩
    refine (Kv.count_put { s with requests := s.requests + 1 } _ k _ _).trans ?_
    by_cases hk : k = p.bucketKey key (p.bucket now)
    · rw [if_pos hk, if_pos hk, hk]
      rfl
    · rw [if_neg hk, if_neg hk]
      rfl
  · simp only [hover, if_false]
    exact ⟨_, _, rfl, hserved, rfl, fun k => rfl⟩

/-- A call alone returns; if it is denied the counters are as they were. -/
theorem ends_slidingWindow (key : String) (p : SlidingWindowParams) (now : ℕ)
    (hserved : ∀ n, s.fate n = .served) :
    let prev := s.count (p.bucketKey key (p.bucket now - 1))
    let cur := s.count (p.bucketKey key (p.bucket now))
    ∃ info s', ends (limitSlidingWindow key p now).run s = some (.ok info, s')
      ∧ (∀ n, s'.fate n = .served)
      ∧ if p.limit < p.estimate now prev cur
        then info.allowed = false ∧ info.retryAfter = some (p.retryAfter now prev cur : ℚ)
          ∧ ∀ k, s'.count k = s.count k
        else info.allowed = true
          ∧ ∀ k, s'.count k = if k = p.bucketKey key (p.bucket now) then s.count k + 1
          else s.count k := by
  intro prev cur
  -- the state once the call is counted, with or without a new expiry
  have hcounted :
    ∃ s₁, ends (limitSlidingWindow key p now).run s = ends (weigh key p now (cur + 1)).run s₁
      ∧ (∀ n, s₁.fate n = .served)
      ∧ ∀ k, s₁.count k = if k = p.bucketKey key (p.bucket now) then s.count k + 1
      else s.count k := by
    have hput (k : String) := Kv.count_put s (p.bucketKey key (p.bucket now)) k (cur + 1)
      ((s.records (p.bucketKey key (p.bucket now))).bind Stored.ttlMs)
    have hcount : ∀ k, (if k = p.bucketKey key (p.bucket now) then cur + 1 else s.count k)
        = if k = p.bucketKey key (p.bucket now) then s.count k + 1 else s.count k := by
      intro k
      by_cases hk : k = p.bucketKey key (p.bucket now)
      · rw [if_pos hk, if_pos hk, hk]
      · rw [if_neg hk, if_neg hk]
    simp only [limitSlidingWindow, ends_run_seq, ends_send, serve_served hserved, Kv.incrBy,
      Option.bind_some]
    by_cases hone : cur + 1 = 1
    · let bucket := p.bucketKey key (p.bucket now)
      obtain ⟨b, s₁, hend, hserved₁, hsame⟩ := ends_expire
        (s := { s.put bucket (cur + 1) ((s.records bucket).bind Stored.ttlMs) with
          requests := s.requests + 1 }) hserved bucket (p.window * 2)
      rw [if_pos hone, ends_run_seq, hend]
      exact ⟨s₁, rfl, hserved₁, fun k => (hsame k).trans ((hput k).trans (hcount k))⟩
    · rw [if_neg hone]
      exact ⟨_, rfl, hserved, fun k => (hput k).trans (hcount k)⟩
  obtain ⟨s₁, hend, hserved₁, hcount⟩ := hcounted
  have hprev : s₁.count (p.bucketKey key (p.bucket now - 1)) = prev := by
    rw [hcount, if_neg fun h => ?_]
    have := bucketKey_inj.mp h
    omega
  obtain ⟨info, s', hweigh, hserved', hinfo⟩ := ends_weigh key p now (cur + 1) hserved₁
  refine ⟨info, s', hend.trans hweigh, hserved', ?_⟩
  rw [hprev, Int.add_sub_cancel] at hinfo
  split at hinfo
  · rename_i hover
    obtain ⟨hallowed, hretry, hback⟩ := hinfo
    rw [if_pos hover]
    refine ⟨hallowed, hretry, fun k => ?_⟩
    rw [hback, hcount]
    split
    · exact Int.add_sub_cancel _ _
    · rfl
  · rename_i hunder
    rw [if_neg hunder]
    exact ⟨hinfo.1, fun k => (hinfo.2 k).trans (hcount k)⟩

end call

/-! ## Whole limits and windows -/

section whole

/-- The limit and the window are whole numbers, from one on. -/
structure SlidingWindowParams.Whole (p : SlidingWindowParams) (limit window : ℕ) : Prop where
  limit_eq : p.limit = limit
  window_eq : p.window = window
  limit_pos : 1 ≤ limit
  window_pos : 1 ≤ window

variable {p : SlidingWindowParams} {limit window : ℕ} (hp : p.Whole limit window)
include hp

theorem SlidingWindowParams.Whole.window_cast_pos : (0 : ℚ) < window :=
  by exact_mod_cast hp.window_pos

theorem bucket_whole (now : ℕ) : p.bucket now = (now / window : ℕ) := by
  rw [SlidingWindowParams.bucket, hp.window_eq]
  exact Rat.floor_natCast_div_natCast now window

theorem elapsed_whole (now : ℕ) : p.elapsed now = (now % window : ℕ) / window := by
  have hfloor : ⌊(now : ℚ) / window⌋ = (now / window : ℕ) :=
    Rat.floor_natCast_div_natCast now window
  have hsplit : (window : ℚ) * (now / window : ℕ) + (now % window : ℕ) = now :=
    by exact_mod_cast Nat.div_add_mod now window
  unfold SlidingWindowParams.elapsed jsMod
  rw [hp.window_eq, if_pos (by positivity), hfloor, Int.cast_natCast]
  congr 1
  linarith

theorem estimate_whole (now : ℕ) (prev cur : ℤ) :
    p.estimate now prev cur = prev * (1 - (now % window : ℕ) / window) + (cur + 1) := by
  unfold SlidingWindowParams.estimate
  rw [elapsed_whole hp]
  push_cast
  ring

/-! ### The wait -/

section wait
variable {now n : ℕ} {prev cur : ℤ}

/-- Without a bucket before, the wait ends with the next bucket. -/
theorem retryAfter_zero (hn : (n : ℤ) = p.retryAfter now 0 cur) :
    n + now % window = 2 * window := by
  have hsplit : (window : ℚ) * (now / window : ℕ) + (now % window : ℕ) = now :=
    by exact_mod_cast Nat.div_add_mod now window
  unfold SlidingWindowParams.retryAfter at hn
  rw [if_neg (lt_irrefl 0), bucket_whole hp, hp.window_eq] at hn
  generalize now / window = q at hsplit hn
  generalize now % window = m at hsplit ⊢
  have hwait : ((q : ℤ) + 1 : ℚ) * window - now + window = ((2 * window - m : ℤ) : ℚ) := by
    push_cast
    linarith
  rw [hwait, Int.ceil_intCast] at hn
  omega

/-- With one, it lasts until the estimate of the call would have sunk to the limit. -/
theorem retryAfter_pos (hprev : 0 < prev) (hn : (n : ℤ) = p.retryAfter now prev cur) :
    prev * (window - (now % window : ℕ) - n : ℚ) ≤ (limit - cur - 1) * window := by
  have hW := hp.window_cast_pos
  have hP : (0 : ℚ) < prev := by exact_mod_cast hprev
  have hwait := Int.le_ceil ((p.estimate now prev cur - p.limit) / prev * p.window)
  unfold SlidingWindowParams.retryAfter at hn
  rw [if_pos hprev] at hn
  rw [← hn, estimate_whole hp, hp.limit_eq, hp.window_eq, Int.cast_natCast, div_mul_eq_mul_div,
    div_le_iff₀ hP] at hwait
  have hsplit : (prev * (1 - (now % window : ℕ) / window) + (cur + 1) - limit) * (window : ℚ)
      = prev * (window - (now % window : ℕ)) + (cur + 1 - limit) * window := by
    field_simp
    ring
  linarith

theorem retryAfter_nonneg (hover : p.limit < p.estimate now prev cur) :
    0 ≤ p.retryAfter now prev cur := by
  have hW := hp.window_cast_pos
  unfold SlidingWindowParams.retryAfter
  rw [hp.window_eq]
  split
  · rename_i hprev
    have hP : (0 : ℚ) < prev := by exact_mod_cast hprev
    exact Int.ceil_nonneg (mul_nonneg (div_nonneg (sub_nonneg.mpr hover.le) hP.le) hW.le)
  · have hnow : (now : ℚ) ≤ ((now / window : ℕ) + 1) * window := by
      exact_mod_cast (Nat.lt_div_mul_add hp.window_pos).le.trans_eq (Nat.succ_mul _ _).symm
    rw [bucket_whole hp, Int.cast_natCast]
    exact Int.ceil_nonneg (by linarith)

/-- What a call may weigh after the wait `n`, by where the wait ends. -/
theorem estimate_after {prev' cur' : ℤ} (hprev : 0 ≤ prev ∧ prev ≤ limit)
    (hcur : 0 ≤ cur ∧ cur ≤ limit)
    (hn : (n : ℤ) = p.retryAfter now prev cur)
    (hsame : (now + n) / window = now / window → prev' ≤ prev ∧ cur' ≤ cur)
    (hnext : (now + n) / window = now / window + 1 → prev' ≤ cur ∧ cur' = 0)
    (hlate : now / window + 2 ≤ (now + n) / window → prev' = 0 ∧ cur' = 0) :
    p.estimate (now + n) prev' cur' ≤ limit := by
  have hW := hp.window_cast_pos
  have hm := Nat.mod_lt (now + n) hp.window_pos
  have hsplit := Nat.div_add_mod now window
  have hsplit' := Nat.div_add_mod (now + n) window
  have hmono : now / window ≤ (now + n) / window := Nat.div_le_div_right (Nat.le_add_right now n)
  have hweight : (0 : ℚ) ≤ 1 - ((now + n) % window : ℕ) / window := by
    rw [sub_nonneg, div_le_one hW]
    exact_mod_cast hm.le
  have hzero : prev = 0 → now / window + 2 ≤ (now + n) / window := by
    rintro rfl
    have hend := retryAfter_zero hp hn
    have hnow : now + n = window * (now / window + 2) := by
      rw [Nat.mul_add]
      omega
    rw [hnow, Nat.mul_div_cancel_left _ hp.window_pos]
  rw [estimate_whole hp]
  rcases Nat.lt_or_ge ((now + n) / window) (now / window + 2) with hbefore | hafter
  · have hpos : 0 < prev := by
      rcases hprev.1.lt_or_eq with h | h
      · exact h
      · exact absurd (hzero h.symm) (Nat.not_le.mpr hbefore)
    have hwait := retryAfter_pos hp hpos hn
    rcases Nat.lt_or_ge ((now + n) / window) (now / window + 1) with hhere | hthere
    · -- in the same bucket, the estimate has sunk to the limit
      have hhere : (now + n) / window = now / window := by omega
      obtain ⟨hless, hc⟩ := hsame hhere
      have hm' : (now + n) % window = now % window + n := by
        rw [hhere] at hsplit'
        omega
      have hless : (prev' : ℚ) ≤ prev := by exact_mod_cast hless
      have hc : (cur' : ℚ) ≤ cur := by exact_mod_cast hc
      have hsunk : (prev : ℚ) * (1 - ((now + n) % window : ℕ) / window) ≤ limit - cur - 1 := by
        rw [hm', Nat.cast_add, one_sub_div hW.ne', mul_div_assoc', div_le_iff₀ hW]
        linarith
      linarith [mul_le_mul_of_nonneg_right hless hweight]
    · -- in the next bucket, what was counted in this one weighs less than the limit by one
      have hthere : (now + n) / window = now / window + 1 := by omega
      obtain ⟨hless, rfl⟩ := hnext hthere
      have hm' : (now + n) % window + window = now % window + n := by
        rw [hthere, Nat.mul_succ] at hsplit'
        omega
      have hm' : (((now + n) % window : ℕ) : ℚ) + window = (now % window : ℕ) + n :=
        by exact_mod_cast hm'
      have hless : (prev' : ℚ) ≤ cur := by exact_mod_cast hless
      have hrest : (cur : ℚ) * (1 - ((now + n) % window : ℕ) / window) ≤ limit - 1 := by
        rw [one_sub_div hW.ne', mul_div_assoc', div_le_iff₀ hW]
        have hm₀ : (0 : ℚ) ≤ ((now + n) % window : ℕ) := Nat.cast_nonneg _
        have hC : (0 : ℚ) ≤ cur := by exact_mod_cast hcur.1
        rcases Int.lt_or_le cur limit with hroom | hfull
        · have hroom : (cur : ℚ) + 1 ≤ limit := by exact_mod_cast hroom
          linarith [mul_nonneg hC hm₀, mul_le_mul_of_nonneg_right hroom hW.le]
        · have hfull : (cur : ℚ) = limit := by exact_mod_cast le_antisymm hcur.2 hfull
          have hP : (prev : ℚ) ≤ limit := by exact_mod_cast hprev.2
          have hwindow : (window : ℚ) - (now % window : ℕ) - n = -((now + n) % window : ℕ) :=
            by linarith
          rw [hwindow, hfull] at hwait
          rw [hfull]
          linarith [mul_le_mul_of_nonneg_right hP hm₀]
      push_cast
      linarith [mul_le_mul_of_nonneg_right hless hweight]
  · obtain ⟨rfl, rfl⟩ := hlate hafter
    have hone : (1 : ℚ) ≤ limit := by exact_mod_cast hp.limit_pos
    simpa using hone

end wait

/-! ### The counters -/

/-- The counters show no more than the limit, and nothing in a later bucket. -/
structure Booked (p : SlidingWindowParams) (limit window : ℕ) (key : String) (now : ℕ) (s : Kv ℤ) :
    Prop where
  served : ∀ n, s.fate n = .served
  bound : ∀ b, 0 ≤ s.count (p.bucketKey key b) ∧ s.count (p.bucketKey key b) ≤ limit
  later : ∀ b : ℤ, (now / window : ℕ) < b → s.count (p.bucketKey key b) = 0

section counters
variable {key : String} {now : ℕ} {s s' : Kv ℤ}

omit hp in
theorem Booked.elapse (h : Booked p limit window key now s) (ms : ℕ) :
    Booked p limit window key (now + ms) (s.elapse ms) := by
  refine ⟨h.served, fun b => ?_, fun b hb => ?_⟩
  · obtain hc | hc := Kv.count_elapse ms s (p.bucketKey key b)
    · rw [hc]
      exact h.bound b
    · rw [hc]
      exact ⟨le_rfl, Int.natCast_nonneg limit⟩
  · have hlater :=
      h.later b
        (lt_of_le_of_lt (by exact_mod_cast Nat.div_le_div_right (Nat.le_add_right now ms)) hb)
    obtain hc | hc := Kv.count_elapse ms s (p.bucketKey key b)
    · rw [hc, hlater]
    · exact hc

theorem Booked.call {r : Verdict} (h : Booked p limit window key now s)
    (hend : ends (limitSlidingWindow key p now).run s = some (r, s')) :
    Booked p limit window key now s' := by
  obtain ⟨info, s₁, hend₁, hserved, hinfo⟩ := ends_slidingWindow key p now h.served
  cases hend₁.symm.trans hend
  split at hinfo
  · obtain ⟨-, -, hsame⟩ := hinfo
    exact ⟨hserved,
      fun b => by rw [hsame]; exact h.bound b, fun b hb => by rw [hsame]; exact h.later b hb⟩
  · rename_i hunder
    obtain ⟨-, hcount⟩ := hinfo
    have hwindow : p.window ≠ 0 := hp.window_eq ▸ hp.window_cast_pos.ne'
    have hroom := (count_le_estimate (h.bound _).1 (elapsed_le_one hwindow now)).trans
      (not_lt.mp hunder)
    have hroom : s.count (p.bucketKey key (p.bucket now)) + 1 ≤ limit := by
      rw [hp.limit_eq] at hroom
      exact_mod_cast hroom
    refine ⟨hserved, fun b => ?_, fun b hb => ?_⟩
    · rw [hcount]
      split
      · rename_i hb
        rw [hb]
        exact ⟨by linarith [(h.bound (p.bucket now)).1], hroom⟩
      · exact h.bound b
    · rw [hcount, if_neg fun heq => ?_]
      · exact h.later b hb
      · rw [bucketKey_inj, bucket_whole hp] at heq
        omega

theorem History.booked (h : History key p now s) : Booked p limit window key now s := by
  induction h with
  | start now => exact ⟨fun _ => rfl, fun b => ⟨le_rfl, Int.natCast_nonneg limit⟩, fun b _ => rfl⟩
  | wait ms _ ih => exact ih.elapse ms
  | call _ hend ih => exact ih.call hp hend

/-- A denied call is told a time to wait; the next call, that much later, is allowed. -/
theorem retry_after_sufficient {info : RateLimitInfo} (h : History key p now s)
    (hcall : ends (limitSlidingWindow key p now).run s = some (.ok info, s'))
    (hdenied : info.allowed = false) :
    ∃ r : ℕ, info.retryAfter = some (r : ℚ) ∧ ∃ info' s'',
      ends (limitSlidingWindow key p (now + r)).run (s'.elapse r) = some (.ok info', s'')
          ∧ info'.allowed = true := by
  have hbooked := h.booked hp
  obtain ⟨info₁, s₁, hend₁, -, hinfo⟩ := ends_slidingWindow key p now hbooked.served
  cases hend₁.symm.trans hcall
  split at hinfo
  · rename_i hover
    obtain ⟨-, hretry, hsame⟩ := hinfo
    obtain ⟨r, hr⟩ := Int.eq_ofNat_of_zero_le (retryAfter_nonneg hp hover)
    refine ⟨r, by rw [hretry, hr]; rfl, ?_⟩
    have hfewer (b : ℤ) :
        (s'.elapse r).count (p.bucketKey key b) ≤ s.count (p.bucketKey key b) := by
      obtain hc | hc := Kv.count_elapse r s' (p.bucketKey key b)
      · rw [hc, hsame]
      · rw [hc]
        exact (hbooked.bound b).1
    have hnone (b : ℤ) (hb : (now / window : ℕ) < b) :
        (s'.elapse r).count (p.bucketKey key b) = 0 := by
      obtain hc | hc := Kv.count_elapse r s' (p.bucketKey key b)
      · rw [hc, hsame, hbooked.later b hb]
      · exact hc
    obtain ⟨info', s'', hend', -, hinfo'⟩ :=
      ends_slidingWindow key p (now + r) ((hbooked.call hp hcall).elapse r).served
    rw [bucket_whole hp] at hr hinfo'
    have hafter :
      p.estimate (now + r) ((s'.elapse r).count (p.bucketKey key (((now + r) / window : ℕ) - 1)))
        ((s'.elapse r).count (p.bucketKey key ((now + r) / window : ℕ))) ≤ limit := by
      refine estimate_after hp (hbooked.bound _) (hbooked.bound _) hr.symm (fun hB => ?_)
        (fun hB => ?_) fun hB => ?_
      · rw [hB]
        exact ⟨hfewer _, hfewer _⟩
      · rw [hB]
        refine ⟨?_, hnone _ (by push_cast; omega)⟩
        have hfewer := hfewer (now / window : ℕ)
        rwa [Nat.cast_succ, Int.add_sub_cancel]
      · exact ⟨hnone _ (by omega), hnone _ (by omega)⟩
    rw [hp.limit_eq, if_neg (not_lt.mpr hafter)] at hinfo'
    exact ⟨info', s'', hend', hinfo'.1⟩
  · cases hinfo.1.symm.trans hdenied

end counters

end whole

/-- The second call within a window of one. -/
theorem retry_after_sufficient_second : ∃ s s' info, History "u" ⟨1, 1000, "rl"⟩ 6 s
    ∧ ends (limitSlidingWindow "u" ⟨1, 1000, "rl"⟩ 6).run s = some (.ok info, s')
    ∧ info.allowed = false
    ∧ ∃ r : ℕ, info.retryAfter = some (r : ℚ) ∧ ∃ info' s'',
      ends (limitSlidingWindow "u" ⟨1, 1000, "rl"⟩ (6 + r)).run (s'.elapse r)
        = some (.ok info', s'')
        ∧ info'.allowed = true := by
  have hview : (ends (limitSlidingWindow "u" ⟨1, 1000, "rl"⟩ 5).run Kv.empty).bind (fun x =>
      (ends (limitSlidingWindow "u" ⟨1, 1000, "rl"⟩ 6).run (x.2.elapse 1)).map fun y =>
        y.1.toOption.map RateLimitInfo.allowed) = some (some false) := by
    decide +kernel
  obtain ⟨⟨r₁, s₁⟩, hfirst, hrest⟩ := Option.bind_eq_some_iff.mp hview
  obtain ⟨⟨r₂, s₂⟩, hsecond, hdenied⟩ := Option.map_eq_some_iff.mp hrest
  have hhistory : History "u" ⟨1, 1000, "rl"⟩ (5 + 1) (s₁.elapse 1) :=
    ((History.start 5).call hfirst).wait 1
  have hwhole : SlidingWindowParams.Whole ⟨1, 1000, "rl"⟩ 1 1000 :=
    ⟨by norm_num, by norm_num, le_rfl, by decide⟩
  cases r₂ with
  | error e => cases hdenied
  | ok info =>
    have hdenied : info.allowed = false := Option.some.inj hdenied
    exact ⟨s₁.elapse 1, s₂, info, hhistory, hsecond, hdenied,
      retry_after_sufficient hwhole hhistory hsecond hdenied⟩

end BeyondKv.Sdk
