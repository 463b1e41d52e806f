/-
# The store as its clients see it

A client of the SDK sends a request and waits for the answer. The store serves a request at
one instant in between (`request`), and may fail: before it has done anything, or after, so
that the answer is lost. A record has a revision, which no other record ever has; a
compare-and-swap names the revision it has read.
-/
import BeyondKv.Lib.Interleave

namespace BeyondKv.Sdk

open Async

/-- The status is that of HTTP; 409 is a conflict. -/
structure KvError where
  status : Nat
  deriving DecidableEq

structure Stored (V : Type) where
  value : V
  revision : Nat
  ttlMs : Option ℚ

inductive Fate where
  | served
  /-- The request fails before it is served. -/
  | refused (e : KvError)
  /-- It is served, and the answer is lost. -/
  | lost (e : KvError)

structure Kv (V : Type) where
  records : String → Option (Stored V)
  /-- All revisions so far are at most this one. -/
  revision : Nat
  requests : Nat
  /-- What becomes of the `n`th request. -/
  fate : Nat → Fate

/-- What the store does, as long as it serves the request. -/
abbrev Op (V β : Type) := Kv V → Except KvError β × Kv V

namespace Kv
variable {V : Type}

/-- A store that has no records and serves every request. -/
def empty : Kv V := ⟨fun _ => none, 0, 0, fun _ => .served⟩

def put (s : Kv V) (key : String) (value : V) (ttlMs : Option ℚ) : Kv V :=
  { s with
    records := Function.update s.records key (some ⟨value, s.revision + 1, ttlMs⟩)
    revision := s.revision + 1 }

def get (key : String) : Op V (Option (Stored V)) := fun s => (.ok (s.records key), s)

/-- `set` with `ifAbsent`. -/
def setIfAbsent (key : String) (value : V) : Op V Unit := fun s =>
  match s.records key with
  | none => (.ok (), s.put key value none)
  | some _ => (.error ⟨409⟩, s)

/-- The new revision. -/
def cas (key : String) (value : V) (revision : Nat) : Op V Nat := fun s =>
  match s.records key with
  | none => (.error ⟨409⟩, s)
  | some r =>
    if r.revision = revision then (.ok (s.revision + 1), s.put key value none)
    else (.error ⟨409⟩, s)

/-- What has been deleted. -/
def delete (key : String) : Op V (Option (Stored V)) := fun s =>
  (.ok (s.records key), { s with records := Function.update s.records key none })

/-- A delete that names a revision. -/
def delrev (key : String) (revision : Nat) : Op V (Option (Stored V)) := fun s =>
  match s.records key with
  | none => (.error ⟨409⟩, s)
  | some r => if r.revision = revision then delete key s else (.error ⟨409⟩, s)

/-- The value of a counter that may be absent. -/
def count (s : Kv ℤ) (key : String) : ℤ := ((s.records key).map Stored.value).getD 0

/-- `incr` and `decr`. -/
def incrBy (key : String) (delta : ℤ) : Op ℤ ℤ := fun s =>
  (.ok (s.count key + delta), s.put key (s.count key + delta) ((s.records key).bind Stored.ttlMs))

/-- Whether there was a record. -/
def expire (key : String) (ttlMs : ℚ) : Op V Bool := fun s =>
  match s.records key with
  | none => (.ok false, s)
  | some r =>
    (.ok true,
      { s with records := Function.update s.records key (some { r with ttlMs := some ttlMs }) })

/-! ### What has been read -/

/-- No record is newer than the store. -/
def Dated (key : String) (s : Kv V) : Prop := ∀ r, s.records key = some r → r.revision ≤ s.revision

/-- A record that was read is what it was, as long as its revision is the current one. -/
def Read (key : String) (s : Kv V) (r : Stored V) : Prop :=
  r.revision ≤ s.revision ∧ ∀ r', s.records key = some r' → r'.revision = r.revision →
    r'.value = r.value

section read
variable {key : String} {s : Kv V} {r : Stored V} {value : V} {ttlMs : Option ℚ}

theorem Dated.read (h : Dated key s) (hr : s.records key = some r) : Read key s r := by
  refine ⟨h r hr, fun r' hr' _ => ?_⟩
  rw [Option.some.inj (hr'.symm.trans hr)]

theorem records_put : (s.put key value ttlMs).records key = some ⟨value, s.revision + 1, ttlMs⟩ :=
  Function.update_self ..

theorem Dated.put : Dated key (s.put key value ttlMs) := by
  intro r hr
  rw [Option.some.inj (hr.symm.trans records_put)]
  exact le_rfl

theorem Read.put (h : Read key s r) : Read key (s.put key value ttlMs) r := by
  refine ⟨h.1.trans (Nat.le_succ _), fun r' hr' hrev => ?_⟩
  rw [Option.some.inj (hr'.symm.trans records_put)] at hrev
  exact absurd hrev (Nat.ne_of_gt (Nat.lt_succ_of_le h.1))

theorem records_delete : (delete key s).2.records key = none := Function.update_self ..

theorem Dated.delete : Dated key (Kv.delete key s).2 := by
  intro r hr
  rw [records_delete] at hr
  cases hr

theorem Read.delete (h : Read key s r) : Read key (Kv.delete key s).2 r := by
  refine ⟨h.1, fun r' hr' => ?_⟩
  rw [records_delete] at hr'
  cases hr'

end read

/-- No answer is lost. -/
def Answers (s : Kv V) : Prop := ∀ n e, s.fate n ≠ .lost e

end Kv

section requests
variable {V L β : Type}

/-- The answer, and what the store has done. -/
structure Answer (β : Type) where
  reply : Except KvError β
  done : Except KvError β

def serve (op : Op V β) (s : Kv V) : Answer β × Kv V :=
  match s.fate s.requests with
  | .served => (⟨(op s).1, (op s).1⟩, { (op s).2 with requests := s.requests + 1 })
  | .refused e => (⟨.error e, .error e⟩, { s with requests := s.requests + 1 })
  | .lost e => (⟨.error e, (op s).1⟩, { (op s).2 with requests := s.requests + 1 })

/-- A request is carried out and answered, if the answer is not lost; or nothing happens. -/
theorem serve_cases (op : Op V β) (s : Kv V) :
    (∃ reply, serve op s = (⟨reply, (op s).1⟩, { (op s).2 with requests := s.requests + 1 })
      ∧ (reply = (op s).1 ∨ ∃ e, reply = .error e))
      ∨ ∃ e, serve op s = (⟨.error e, .error e⟩, { s with requests := s.requests + 1 }) := by
  unfold serve
  cases s.fate s.requests with
  | served => exact .inl ⟨_, rfl, .inl rfl⟩
  | refused e => exact .inr ⟨e, rfl⟩
  | lost e => exact .inl ⟨_, rfl, .inr ⟨e, rfl⟩⟩

/-- A request of a client. What the store has done may be marked, at the moment it is done. -/
def request (op : Op V β) (mark : β → Option L) : ExceptT KvError (Prog (Kv V) L) β := ExceptT.mk do
  Prog.yield
  let a ← Prog.step (serve op)
  match a.done.toOption.bind mark with
  | some l => Prog.at_ l
  | none => pure ()
  Prog.yield
  return a.reply

/-- A request whose moment nobody asks for. -/
def send (op : Op V β) : ExceptT KvError (Prog (Kv V) L) β := request op fun _ => none

/-- The trace with the mark of a request. -/
def noted {G : Type} (D : Discipline (Kv V) L G) (mark : β → Option L) (a : Answer β) (s : Kv V)
    (g : G) : G :=
  match a.done.toOption.bind mark with
  | some l => D.note l s g
  | none => g

variable {G T : Type} {Γ : Regime (Kv V) L G T} {pre : Multiset T} {op : Op V β}
  {mark : β → Option L}
  {post : Except KvError β → Multiset T → Prop}

theorem request_run (op : Op V β) (mark : β → Option L) : (request op mark).run
    = (Prog.exchange (serve op) fun a => a.done.toOption.bind mark) >>= fun a => pure a.reply := by
  refine congrArg (Prog.await _) (congrArg (Prog.eff _) (funext fun a => ?_))
  simp only [Prog.bind]
  cases a.done.toOption.bind mark <;> rfl

/-- What the mark of a request asks for is there. -/
theorem triple_request_allowed (h : ∀ f g s, Γ.Inv (pre + f) g s →
      (∀ l, (serve op s).1.done.toOption.bind mark = some l → Γ.runs.allows l g (serve op s).2) →
      ∃ own,
      Γ.Inv (own + f) (noted Γ.runs mark (serve op s).1 (serve op s).2 g) (serve op s).2
        ∧ post (serve op s).1.reply own) :
    Triple Γ pre (request op mark).run post := by
  suffices hstep : Triple Γ pre (Prog.exchange (serve op) fun a => a.done.toOption.bind mark)
      (fun a own => post a.reply own) by
    rw [request_run]
    exact hstep.seq fun a own hpost => .ret hpost
  refine Triple.exchange fun f g s hi hallow => ?_
  obtain ⟨own, hinv, hpost⟩ := h f g s hi hallow
  refine ⟨own, ?_, hpost⟩
  unfold noted at hinv
  cases hm : (serve op s).1.done.toOption.bind mark with
  | none =>
    rw [hm] at hinv
    exact hinv
  | some l =>
    rw [hm] at hinv
    exact hinv

theorem triple_request (h : ∀ f g s, Γ.Inv (pre + f) g s → ∃ own,
      Γ.Inv (own + f) (noted Γ.runs mark (serve op s).1 (serve op s).2 g) (serve op s).2
        ∧ post (serve op s).1.reply own) :
    Triple Γ pre (request op mark).run post :=
  triple_request_allowed fun f g s hi _ => h f g s hi

/-- A request that is not marked. -/
theorem triple_unmarked (h : ∀ f g s, Γ.Inv (pre + f) g s → ∃ own,
      Γ.Inv (own + f) g (serve op s).2 ∧ post (serve op s).1.reply own) :
    Triple Γ pre (send op).run post := by
  have hnone : ∀ (a : Answer β) s g, noted Γ.runs (fun _ => none) a s g = g := by
    intro a s g
    unfold noted
    cases a.done.toOption <;> rfl
  refine triple_request fun f g s hi => ?_
  rw [hnone]
  exact h f g s hi

/-- A request to a store that answers: it is refused, or it is served and answered. -/
theorem triple_answered (hfate : ∀ f g s, Γ.Inv (pre + f) g s → s.Answers)
    (hrefused : ∀ f g s e, Γ.Inv (pre + f) g s →
      ∃ own, Γ.Inv (own + f) g { s with requests := s.requests + 1 } ∧ post (.error e) own)
    (hserved : ∀ f g s, Γ.Inv (pre + f) g s →
      let s' := { (op s).2 with requests := s.requests + 1 }
      (∀ l, (op s).1.toOption.bind mark = some l → Γ.runs.allows l g s') →
      ∃ own, Γ.Inv (own + f) (((op s).1.toOption.bind mark).elim g fun l => Γ.runs.note l s' g) s'
        ∧ post (op s).1 own) :
    Triple Γ pre (request op mark).run post := by
  refine triple_request_allowed fun f g s hi hallow => ?_
  unfold noted
  unfold serve at hallow ⊢
  cases hf : s.fate s.requests with
  | served =>
    rw [hf] at hallow
    obtain ⟨own, hinv, hpost⟩ := hserved f g s hi hallow
    refine ⟨own, ?_, hpost⟩
    cases hm : (op s).1.toOption.bind mark with
    | none =>
      rw [hm] at hinv
      exact hinv
    | some l =>
      rw [hm] at hinv
      exact hinv
  | refused e => exact hrefused f g s e hi
  | lost e => exact absurd hf (hfate f g s hi _ e)

end requests

/-! ## Rate limits -/

/-- What a rate limiter tells its caller. -/
structure RateLimitInfo where
  allowed : Bool
  remaining : ℚ
  limit : ℚ
  reset : ℚ
  retryAfter : Option ℚ
  deriving DecidableEq

end BeyondKv.Sdk
