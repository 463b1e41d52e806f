/-
# Requests that are sent again

`request` of the HTTP client sends a request up to `retries + 1` times: again whenever `fetch`
throws and whenever the answer is a 5xx. It cannot know whether the server has carried out a
request it got no answer to, nor whether the server is yet to carry it out, and the requests of
`incr`, `decr` and `cas` say nothing that would let the server tell a second attempt from a
second call. `exactly_once_iff` counts: a call that succeeds has been carried out once for its
answer, and once more for each attempt that was given up on and carried out all the same.
-/
import BeyondKv.Sdk.Kv
import BeyondKv.Store

namespace BeyondKv.Sdk.Http

open ShardStore List

/-! ## The server -/

/-- A status, and what the body or a header of a success says. -/
structure Response (β : Type) where
  status : Nat
  data : Option β
  deriving DecidableEq

/-- `res.ok`. -/
def Response.ok {β : Type} (r : Response β) : Bool := 200 ≤ r.status && r.status < 300

/-- What the server makes of a request, at a time. -/
abbrev Handler (β : Type) := UInt64 → Kv Bytes → Response β × Kv Bytes

/-- The status of `engine_error_response`. -/
def engineErrorResponse : EngineError → Nat
  | .invalidNamespace _ | .capacityExceeded _ | .invalidInput _ => 400
  | .conflict _ => 409
  | _ => 500

/-- `handle_incr`. The record keeps its expiry. -/
def handleIncr (key : String) (delta : Int) : Handler Int := fun _ s =>
  match addTo ((s.records key).map Stored.value) delta with
  | .ok n => (⟨200, some n⟩, s.put key (intBytes n) ((s.records key).bind Stored.ttlMs))
  | .error e => (⟨engineErrorResponse e, none⟩, s)

/-- `str::parse::<u64>`. -/
def parseU64 (bs : Bytes) : Option Nat := do
  let n ← match bs with
    | 43 :: digits => parseDigits digits
    | digits => parseDigits digits
  if n < 2 ^ 64 then some n else none

/-- `handle_put`, with the headers that `cas` may send: `if-match` and `x-kv-ttl`. A header that
is not a number is as good as none. -/
def handlePut (key : String) (value : Bytes) (ifMatch ttl : Option Bytes) :
    Handler Nat := fun now s =>
  let ttlMs := (ttl.bind parseU64).map (· * 1000)
  match ttlMs.map (validateTtl · now) with
  | some (.error e) => (⟨engineErrorResponse e, none⟩, s)
  | _ =>
    let stored := s.put key value (ttlMs.map fun (ms : Nat) => (ms : ℚ))
    match ifMatch.bind parseU64 with
    | none => (⟨204, none⟩, stored)
    | some rev =>
      if (s.records key).map Stored.revision = some rev then (⟨204, some stored.revision⟩, stored)
      else (⟨409, none⟩, s)

/-! ## The client -/

/-- The requests of a client whose numbers are written as `text` writes them. -/
structure Client where
  retries : Nat
  text : ℚ → Bytes

namespace Client

/-- The increment that the server takes from the query of `_incr`: a 1 is not sent, and what does
not parse counts as 1. -/
def deltaRead (C : Client) (delta : ℚ) : Int :=
  if delta = 1 then 1 else (parseI64 (C.text delta)).getD 1

def incr (C : Client) (key : String) (delta : ℚ) : Handler Int := handleIncr key (C.deltaRead delta)

def decr (C : Client) (key : String) (delta : ℚ) : Handler Int := C.incr key (-delta)

def cas (C : Client) (key : String) (value : Bytes) (revision : ℚ) (ttl : Option ℚ) : Handler Nat :=
  handlePut key value (some (C.text revision)) (ttl.map C.text)

end Client

inductive Fetched (β : Type) where
  | thrown
  | response (res : Response β)

/-- What the loop of `request` makes of one `fetch`: nothing if it goes on. -/
def request {β : Type} (retries attempt : Nat) : Fetched β → Option (Except Unit (Response β))
  | .thrown => if retries ≤ attempt then some (.error ()) else none
  | .response res => if 500 ≤ res.status ∧ attempt < retries then none else some (.ok res)

/-- The promise of `incr` and of `decr`. -/
def incrResult : Except Unit (Response Int) → Except KvError Int
  | .error _ => .error ⟨500⟩
  | .ok res =>
    if res.ok then
      match res.data with
      | some n => .ok n
      | none => .error ⟨500⟩
    else .error ⟨res.status⟩

/-- The promise of `cas`. -/
def casResult : Except Unit (Response Nat) → Except KvError Nat
  | .error _ => .error ⟨500⟩
  | .ok res => if res.ok then .ok (res.data.getD 0) else .error ⟨res.status⟩

/-! ## A call, and what may happen to it -/

/-- When the server carries out a request: the time and the store it finds. -/
structure Moment where
  now : UInt64
  store : Kv Bytes

/-- A call in progress. Of each attempt it is known when it was carried out, if it was. -/
structure Call (β : Type) where
  store : Kv Bytes
  /-- The attempts that the client has given up on. -/
  past : List (Option Moment)
  current : Option Moment
  result : Option (Except Unit (Response β))

inductive Event where
  /-- Whatever else happens to the store: other clients, or time. -/
  | others (s : Kv Bytes)
  | serve (now : UInt64)
  /-- The server carries out a request that the client no longer waits for. -/
  | serveLate (i : Nat) (now : UInt64)
  /-- `fetch` throws, on a transport error or a timeout. -/
  | thrown
  /-- A 5xx comes back, whether or not the request has been carried out. -/
  | failed (status : Nat)
  | answered

namespace Call
variable {β : Type}

def start (s : Kv Bytes) : Call β := ⟨s, [], none, none⟩

/-- The client goes on with what `fetch` has come to. -/
def fetched (retries : Nat) (f : Fetched β) (c : Call β) : Option (Call β) :=
  if c.result.isSome then none
  else
    match request retries c.past.length f with
    | none => some { c with past := c.past ++ [c.current], current := none }
    | some r => some { c with result := some r }

def step (h : Handler β) (retries : Nat) (c : Call β) : Event → Option (Call β)
  | .others s => some { c with store := s }
  | .serve now =>
    match c.current with
    | none => some { c with store := (h now c.store).2, current := some ⟨now, c.store⟩ }
    | some _ => none
  | .serveLate i now =>
    match c.past[i]? with
    | some none =>
      some { c with store := (h now c.store).2, past := c.past.set i (some ⟨now, c.store⟩) }
    | _ => none
  | .thrown => c.fetched retries .thrown
  | .failed status => if 500 ≤ status then c.fetched retries (.response ⟨status, none⟩) else none
  | .answered =>
    match c.current with
    | some m => c.fetched retries (.response (h m.now m.store).1)
    | none => none

def run (h : Handler β) (retries : Nat) : List Event → Call β → Option (Call β)
  | [], c => some c
  | e :: es, c => (c.step h retries e).bind (run h retries es)

/-- The moment at which an event has the server carry out one of the requests. -/
def own (c : Call β) : Event → List Moment
  | .serve now | .serveLate _ now => [⟨now, c.store⟩]
  | _ => []

/-- The moments of a run. -/
def ownMoments (h : Handler β) (retries : Nat) : List Event → Call β → List Moment
  | [], _ => []
  | e :: es, c => c.own e ++ ((c.step h retries e).map (ownMoments h retries es)).getD []

/-- The moments of the attempts so far. -/
def moments (c : Call β) : List Moment := (c.past ++ [c.current]).filterMap id

end Call

/-- The value of a counter that may be absent. -/
def counter (s : Kv Bytes) (key : String) : Int :=
  match s.records key with
  | none => 0
  | some r => (parseI64 r.value).getD 0

/-- By how much the requests of a call have changed the counter. -/
def changed {β : Type} (h : Handler β) (key : String) (ms : List Moment) : Int :=
  (ms.map fun m => counter (h m.now m.store).2 key - counter m.store key).sum

/-- One of the requests has written the value, as a new record. -/
def Wrote {β : Type} (h : Handler β) (key : String) (value : Bytes) (ms : List Moment) : Prop :=
  ∃ m ∈ ms, (h m.now m.store).2.revision = m.store.revision + 1
    ∧ ((h m.now m.store).2.records key).map Stored.value = some value

/-- The request was carried out, with success. -/
def Moment.applied {β : Type} (h : Handler β) (m : Moment) : Bool := (h m.now m.store).1.ok

/-- How many of the attempts that were given up on the server has carried out. -/
def Call.lost {β : Type} (h : Handler β) (c : Call β) :
    Nat := (c.past.filterMap id).countP (Moment.applied h)

/-! ## The handlers -/

theorem addTo_eq_ok {current : Option Bytes} {delta n : Int} (h : addTo current delta = .ok n) :
    inI64 n = true ∧ n = (current.map fun v => (parseI64 v).getD 0).getD 0 + delta := by
  unfold addTo at h
  simp only at h
  split at h
  · cases h
  · rename_i m hm
    split at h
    · rename_i hin
      cases h
      refine ⟨hin, ?_⟩
      cases current with
      | none => cases hm; rfl
      | some v => simp [show parseI64 v = some m from hm]
    · cases h

/-- An increment that succeeds adds its number to the counter; one that fails does nothing. -/
theorem counter_handleIncr (key : String) (delta : Int) (m : Moment) :
    counter (handleIncr key delta m.now m.store).2 key - counter m.store key
      = if m.applied (handleIncr key delta) then delta else 0 := by
  have hcount : counter m.store key
      = (((m.store.records key).map Stored.value).map fun v => (parseI64 v).getD 0).getD 0 := by
    unfold counter
    cases m.store.records key <;> rfl
  unfold Moment.applied handleIncr
  cases hadd : addTo ((m.store.records key).map Stored.value) delta with
  | error e => cases e <;> simp [engineErrorResponse, Response.ok]
  | ok n =>
    obtain ⟨hin, hn⟩ := addTo_eq_ok hadd
    have hnew :
        counter (m.store.put key (intBytes n) ((m.store.records key).bind Stored.ttlMs)) key
        = n := by
      simp [counter, Kv.put, parseI64_intBytes hin]
    simp only [hnew, hcount, Response.ok]
    rw [hn]
    simp

/-- A conditional write that succeeds has written the value; one that fails has written nothing. -/
theorem wrote_handlePut (key : String) (value : Bytes) (ifMatch ttl : Option Bytes) (m : Moment) :
    ((handlePut key value ifMatch ttl m.now m.store).2.revision = m.store.revision + 1
        ∧ ((handlePut key value ifMatch ttl m.now m.store).2.records key).map Stored.value
          = some value)
      ↔ m.applied (handlePut key value ifMatch ttl) = true := by
  unfold Moment.applied handlePut
  simp only
  split
  · rename_i e _
    cases e <;> simp [engineErrorResponse, Response.ok]
  · split
    · simp [Kv.put, Response.ok]
    · split <;> simp [Kv.put, Response.ok]

/-! ## Runs -/

section runs
variable {β : Type} {h : Handler β} {retries : Nat} {c c' : Call β} {e : Event} {es : List Event}

/-- After a `fetch` the client has given up on the attempt, or it is done. -/
theorem Call.fetched_cases {f : Fetched β} (hf : c.fetched retries f = some c') :
    c.result = none
      ∧ ((c' = { c with past := c.past ++ [c.current], current := none })
        ∨ ∃ r, request retries c.past.length f = some r ∧ c' = { c with result := some r }) := by
  unfold Call.fetched at hf
  split at hf
  · cases hf
  · rename_i hres
    refine ⟨by simpa using hres, ?_⟩
    split at hf
    · exact .inl (Option.some.inj hf).symm
    · rename_i r hr
      exact .inr ⟨r, hr, (Option.some.inj hf).symm⟩

theorem Call.moments_fetched {f : Fetched β} (hf : c.fetched retries f = some c') :
    c'.moments = c.moments := by
  obtain ⟨-, rfl | ⟨r, -, rfl⟩⟩ := Call.fetched_cases hf
  · simp [Call.moments]
  · rfl

/-- The moments a call knows of are those at which its requests have been carried out. -/
theorem Call.moments_step (hs : c.step h retries e = some c') :
    c'.moments.Perm (c.own e ++ c.moments) := by
  cases e with
  | others s => cases hs; rfl
  | serve now =>
    simp only [Call.step] at hs
    split at hs
    · rename_i hcur
      cases hs
      simp [Call.moments, Call.own, hcur]
    · cases hs
  | serveLate i now =>
    simp only [Call.step] at hs
    split at hs
    · rename_i hpast
      cases hs
      obtain ⟨hi, hnone⟩ := List.getElem?_eq_some_iff.mp hpast
      have hsplit : c.past = c.past.take i ++ none :: c.past.drop (i + 1) := by
        rw [← hnone, getElem_cons_drop, take_append_drop]
      simp only [Call.moments, Call.own]
      rw [set_eq_take_append_cons_drop, if_pos hi]
      conv_rhs => rw [hsplit]
      simp only [append_assoc, cons_append, filterMap_append, filterMap_cons, id_eq]
      exact perm_middle
    · cases hs
  | thrown => exact (Call.moments_fetched hs) ▸ .refl _
  | failed status =>
    simp only [Call.step] at hs
    split at hs
    · exact (Call.moments_fetched hs) ▸ .refl _
    · cases hs
  | answered =>
    simp only [Call.step] at hs
    split at hs
    · exact (Call.moments_fetched hs) ▸ .refl _
    · cases hs

theorem Call.moments_run (hr : Call.run h retries es c = some c') :
    c'.moments.Perm (Call.ownMoments h retries es c ++ c.moments) := by
  induction es generalizing c with
  | nil => cases hr; rfl
  | cons e es ih =>
    obtain ⟨c₁, hstep, hrest⟩ := Option.bind_eq_some_iff.mp hr
    rw [Call.ownMoments, hstep]
    refine (ih hrest).trans ?_
    refine ((Call.moments_step hstep).append_left _).trans ?_
    simpa [append_assoc] using (perm_append_comm_assoc _ _ _)

/-- An answer below 500 is the server's answer to the attempt that the client waits for. -/
def Call.Answered (h : Handler β) (c : Call β) : Prop :=
  ∀ res, c.result = some (.ok res) → res.status < 500 → ∃ m, c.current = some m
    ∧ (h m.now m.store).1 = res

theorem Call.answered_fetched {f : Fetched β} (hf : c.fetched retries f = some c')
    (hres : ∀ res, f = .response res → res.status < 500 → ∃ m, c.current = some m
      ∧ (h m.now m.store).1 = res) :
    c'.Answered h := by
  obtain ⟨hnone, rfl | ⟨r, hr, rfl⟩⟩ := Call.fetched_cases hf
  · intro res hresult
    rw [show c.result = some (.ok res) from hresult] at hnone
    cases hnone
  · intro res hresult hlt
    cases hresult
    cases f with
    | thrown =>
      simp only [request] at hr
      split at hr <;> cases hr
    | response res' =>
      simp only [request] at hr
      split at hr
      · cases hr
      · cases hr
        exact hres _ rfl hlt

theorem Call.answered_step (hs : c.step h retries e = some c') (hc : c.Answered h) :
    c'.Answered h := by
  cases e with
  | others s => cases hs; exact hc
  | serve now =>
    simp only [Call.step] at hs
    split at hs
    · rename_i hcur
      cases hs
      intro res hresult hlt
      obtain ⟨m, hm, -⟩ := hc res hresult hlt
      rw [hcur] at hm
      cases hm
    · cases hs
  | serveLate i now =>
    simp only [Call.step] at hs
    split at hs
    · cases hs; exact hc
    · cases hs
  | thrown => exact Call.answered_fetched hs fun res hres => by cases hres
  | failed status =>
    simp only [Call.step] at hs
    split at hs
    · rename_i hge
      refine Call.answered_fetched hs fun res hres hlt => ?_
      cases hres
      exact absurd hge (Nat.not_le.mpr hlt)
    · cases hs
  | answered =>
    simp only [Call.step] at hs
    split at hs
    · rename_i m hm
      refine Call.answered_fetched hs fun res hres _ => ?_
      cases hres
      exact ⟨m, hm, rfl⟩
    · cases hs

theorem Call.answered_run (hr : Call.run h retries es c = some c') (hc : c.Answered h) :
    c'.Answered h := by
  induction es generalizing c with
  | nil => cases hr; exact hc
  | cons e es ih =>
    obtain ⟨c₁, hstep, hrest⟩ := Option.bind_eq_some_iff.mp hr
    exact ih hrest (Call.answered_step hstep hc)

/-- What a run from the start has carried out, once the client has its answer. -/
theorem Call.answered_start {s : Kv Bytes} {res : Response β}
    (hr : Call.run h retries es (.start s) = some c)
    (hres : c.result = some (.ok res)) (hlt : res.status < 500) :
    ∃ m, (h m.now m.store).1 = res
      ∧ (Call.ownMoments h retries es (.start s)).Perm (m :: c.past.filterMap id) := by
  obtain ⟨m, hm, hm'⟩ := Call.answered_run hr (by intro res hres; cases hres) res hres hlt
  refine ⟨m, hm', ?_⟩
  have hperm := Call.moments_run hr
  have hstart : (Call.start s : Call β).moments = [] := rfl
  rw [hstart, append_nil] at hperm
  refine hperm.symm.trans ?_
  simp [Call.moments, hm]

end runs

theorem changed_incr {key : String} {delta : Int} (ms : List Moment) :
    changed (handleIncr key delta) key ms
        = delta * ms.countP (Moment.applied (handleIncr key delta)) := by
  unfold changed
  induction ms with
  | nil => simp
  | cons m ms ih =>
    rw [map_cons, sum_cons, counter_handleIncr, ih, countP_cons]
    split
    · rw [Nat.cast_add, Nat.cast_one]
      ring
    · rw [Nat.add_zero, zero_add]

theorem wrote_put_iff {key : String} {value : Bytes} {ifMatch ttl : Option Bytes}
    (ms : List Moment) :
    Wrote (handlePut key value ifMatch ttl) key value ms
      ↔ 0 < ms.countP (Moment.applied (handlePut key value ifMatch ttl)) := by
  rw [countP_pos_iff]
  simp only [Wrote, wrote_handlePut]

theorem ok_of_incrResult {r : Option (Except Unit (Response Int))} {n : Int}
    (h : r.map incrResult = some (.ok n)) : ∃ res, r = some (.ok res) ∧ res.ok = true := by
  obtain ⟨x, rfl, hx⟩ := Option.map_eq_some_iff.mp h
  cases x with
  | error u => cases hx
  | ok res =>
    simp only [incrResult] at hx
    split at hx
    · rename_i hok
      exact ⟨res, rfl, hok⟩
    · cases hx

theorem conflict_of_casResult {r : Option (Except Unit (Response Nat))}
    (h : r.map casResult = some (.error ⟨409⟩)) : ∃ res, r = some (.ok res) ∧ res.status = 409 := by
  obtain ⟨x, rfl, hx⟩ := Option.map_eq_some_iff.mp h
  cases x with
  | error u => cases hx
  | ok res =>
    simp only [casResult] at hx
    split at hx
    · cases hx
    · injection hx with hstatus
      exact ⟨res, rfl, congrArg KvError.status hstatus⟩

/-- A successful increment has been applied once for its answer and once for each lost attempt. -/
theorem changed_run {C : Client} {key : String} {delta : ℚ} {s : Kv Bytes} {es : List Event}
    {c : Call Int}
    (hr : Call.run (C.incr key delta) C.retries es (.start s) = some c) {n : Int}
    (hn : c.result.map incrResult = some (.ok n)) :
    changed (C.incr key delta) key (Call.ownMoments (C.incr key delta) C.retries es (.start s))
      = C.deltaRead delta * (c.lost (C.incr key delta) + 1) := by
  obtain ⟨res, hres, hok⟩ := ok_of_incrResult hn
  have hlt : res.status < 500 := by
    simp only [Response.ok, Bool.and_eq_true, decide_eq_true_eq] at hok
    omega
  obtain ⟨m, hm, hperm⟩ := Call.answered_start hr hres hlt
  have happlied : m.applied (C.incr key delta) = true := by
    rw [Moment.applied, hm]
    exact hok
  have hsum : ∀ ms, changed (C.incr key delta) key ms
      = C.deltaRead delta * ms.countP (Moment.applied (C.incr key delta)) := changed_incr
  rw [hsum, hperm.countP_eq, countP_cons_of_pos happlied]
  rfl

theorem wrote_run_iff {C : Client} {key : String} {value : Bytes} {revision : ℚ} {ttl : Option ℚ}
    {s : Kv Bytes}
    {es : List Event} {c : Call Nat}
    (hr : Call.run (C.cas key value revision ttl) C.retries es (.start s) = some c)
    (hconflict : c.result.map casResult = some (.error ⟨409⟩)) :
    Wrote (C.cas key value revision ttl) key value
        (Call.ownMoments (C.cas key value revision ttl) C.retries es (.start s))
      ↔ 0 < c.lost (C.cas key value revision ttl) := by
  obtain ⟨res, hres, hstatus⟩ := conflict_of_casResult hconflict
  obtain ⟨m, hm, hperm⟩ := Call.answered_start hr hres (by omega)
  have happlied : ¬ m.applied (C.cas key value revision ttl) = true := by
    rw [Moment.applied, hm, Response.ok, hstatus]
    decide
  have hcount : ∀ ms, Wrote (C.cas key value revision ttl) key value ms
      ↔ 0 < ms.countP (Moment.applied (C.cas key value revision ttl)) := wrote_put_iff
  rw [hcount, hperm.countP_eq, countP_cons_of_neg happlied]
  rfl

/-- Whatever happens to the attempts and to the store meanwhile. An `incr` or a `decr` that
resolves has changed the counter by its delta if and only if that is what the server has read,
once for the answer and once for each attempt that was given up on and yet carried out. A `cas`
that resolves with a conflict has not written its value if and only if no such attempt has. -/
theorem exactly_once_iff (C : Client) (key : String) (s : Kv Bytes) :
    (∀ delta es c n, Call.run (C.incr key delta) C.retries es (.start s) = some c →
      c.result.map incrResult = some (.ok n) →
      ((changed (C.incr key delta) key
        (Call.ownMoments (C.incr key delta) C.retries es (.start s)) : ℚ) = delta
        ↔ (C.deltaRead delta : ℚ) * (c.lost (C.incr key delta) + 1) = delta))
    ∧ (∀ delta es c n, Call.run (C.decr key delta) C.retries es (.start s) = some c →
      c.result.map incrResult = some (.ok n) →
      ((changed (C.decr key delta) key
        (Call.ownMoments (C.decr key delta) C.retries es (.start s)) : ℚ) = -delta
        ↔ (C.deltaRead (-delta) : ℚ) * (c.lost (C.decr key delta) + 1) = -delta))
    ∧ ∀ value revision ttl es c,
    Call.run (C.cas key value revision ttl) C.retries es (.start s) = some c →
      c.result.map casResult = some (.error ⟨409⟩) →
      (¬ Wrote (C.cas key value revision ttl) key value
          (Call.ownMoments (C.cas key value revision ttl) C.retries es (.start s))
        ↔ c.lost (C.cas key value revision ttl) = 0) := by
  have hincr : ∀ delta es c n, Call.run (C.incr key delta) C.retries es (.start s) = some c →
      c.result.map incrResult = some (.ok n) →
      ((changed (C.incr key delta) key
        (Call.ownMoments (C.incr key delta) C.retries es (.start s)) : ℚ) = delta
        ↔ (C.deltaRead delta : ℚ) * (c.lost (C.incr key delta) + 1) = delta) := by
    intro delta es c n hr hn
    rw [changed_run hr hn]
    push_cast
    rfl
  refine ⟨hincr, fun delta => hincr (-delta), fun value revision ttl es c hr hc => ?_⟩
  rw [wrote_run_iff hr hc]
  omega

/-- The client with its default number of retries, and how it writes whole numbers and one half. -/
def smallClient : Client :=
  { retries := 2, text := fun q => if q.den = 1 then intBytes q.num else [0x30, 0x2e, 0x35] }

def Event.first : List Event := [.serve 0, .answered]

theorem exactly_once_iff_first :
    ∃ c n, Call.run (smallClient.incr "k" 3) smallClient.retries Event.first
      (.start .empty) = some c
      ∧ c.result.map incrResult = some (.ok n)
      ∧ (changed (smallClient.incr "k" 3) "k"
        (Call.ownMoments (smallClient.incr "k" 3) smallClient.retries Event.first (.start .empty))
          : ℚ) = 3 := by
  refine ⟨_, 3, rfl, by decide +kernel, ?_⟩
  exact ((exactly_once_iff smallClient "k" .empty).1 3 Event.first _ 3 rfl (by decide +kernel)).mpr
    (by decide +kernel)

/-- An attempt is carried out and its answer lost, and the next one is answered. -/
def Event.again : List Event := [.serve 0, .thrown, .serve 0, .answered]

/-- The increment by one has been applied twice; the conditional write has been made and reports a
conflict; and half a step is a whole one, even if nothing goes wrong. -/
theorem carried_out_twice :
    (∃ c, Call.run (smallClient.incr "k" 1) smallClient.retries Event.again (.start .empty) = some c
      ∧ c.result.map incrResult = some (.ok 2)
      ∧ changed (smallClient.incr "k" 1) "k"
        (Call.ownMoments (smallClient.incr "k" 1) smallClient.retries Event.again (.start .empty))
          = 2)
    ∧ (∃ c, Call.run (smallClient.cas "k" [0x62] 1 none) smallClient.retries Event.again
          (.start (Kv.empty.put "k" [0x61] none)) = some c
      ∧ c.result.map casResult = some (.error ⟨409⟩)
      ∧ (c.store.records "k").map Stored.value = some [0x62])
    ∧
    ((Call.run (smallClient.incr "k" (1 / 2)) smallClient.retries Event.first (.start .empty)).bind
      Call.result).map incrResult = some (.ok 1) := by
  refine ⟨⟨_, rfl, ?_, ?_⟩, ⟨_, rfl, ?_, ?_⟩, ?_⟩ <;> decide +kernel

end BeyondKv.Sdk.Http
