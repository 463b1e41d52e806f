/-
# The inbox of a shard

A shard is asked by others through a queue of requests and a pipe: the sender puts its
request in the queue and then tries to write one byte to the pipe, since only the pipe wakes
the thread of the shard up. A full pipe is left as it is. The shard sleeps in a read of the
pipe, which takes up to 64 bytes at once, and then takes requests until it finds none.

Bytes and requests are not paired: one byte may stand for many requests and many bytes for
one. What holds is that a shard asleep at an empty pipe has been poked for nothing that is
still in its queue (`inbox_loses_no_wakeup`).
-/
import Mathlib.Logic.Relation
import Mathlib.Logic.Function.Basic
import Mathlib.Data.List.Basic

namespace BeyondKv.Server

/-! ## Senders and the serve loop -/

/-- Where `serve` is: in `wakeup.read`, at the poll of the queue, or past its loop. -/
inductive Serve
  | reading
  | draining
  | stopped
deriving DecidableEq, Repr

/-- The wakeup pipe holds some bytes at most, and at least one. -/
structure Pipe where
  capacity : Nat
  room : 0 < capacity

/-- The non-blocking write of one byte; `WouldBlock` is ignored. -/
def Pipe.pokeWakeup (p : Pipe) (bytes : Nat) :
    Nat := if bytes < p.capacity then bytes + 1 else bytes

theorem Pipe.pokeWakeup_pos (p : Pipe) (bytes : Nat) : 0 < p.pokeWakeup bytes := by
  have hroom := p.room
  unfold Pipe.pokeWakeup
  split <;> omega

/-- The bytes one read takes. -/
def bufLen : Nat := 64

/-- The inbox of a shard and who is at it. Requests are numbered as they are sent. -/
structure Inbox (ι R : Type) where
  queue : List (Nat × R)
  bytes : Nat
  serve : Serve
  /-- The request a sender has put in the queue and not poked for yet. -/
  poking : ι → Option Nat
  sent : Nat
  /-- What `serve` has spawned handlers for, oldest first. -/
  spawned : List (Nat × R)

def Inbox.start {ι R : Type} : Inbox ι R := ⟨[], 0, .reading, fun _ => none, 0, []⟩

section steps
variable {ι R : Type} [DecidableEq ι] (p : Pipe)

/-- One step of a sender or of the serve loop. -/
inductive Step (s : Inbox ι R) : Inbox ι R → Prop
  | send (i : ι) (r : R) : s.poking i = none →
      Step s { s with
        queue := s.queue ++ [(s.sent, r)]
        sent := s.sent + 1
        poking := Function.update s.poking i (some s.sent) }
  | poke (i : ι) (n : Nat) : s.poking i = some n →
      Step s { s with
        bytes := p.pokeWakeup s.bytes
        poking := Function.update s.poking i none }
  | read (n : Nat) : s.serve = .reading → 0 < n → n ≤ bufLen → n ≤ s.bytes →
      Step s { s with bytes := s.bytes - n, serve := .draining }
  | ready (x : Nat × R) (rest : List (Nat × R)) : s.serve = .draining → s.queue = x :: rest →
      Step s { s with queue := rest, spawned := s.spawned ++ [x] }
  | pending : s.serve = .draining → s.queue = [] → Step s { s with serve := .reading }
  -- the pipe is closed or broken, or all senders are gone
  | stop : Step s { s with serve := .stopped }

/-- What any interleaving of the senders and the serve loop leads to. -/
def Reachable (s : Inbox ι R) : Prop := Relation.ReflTransGen (Step p) .start s

variable {p}

/-- What holds at the start and is kept by every step holds in every reachable state. -/
theorem Reachable.inv {I : Inbox ι R → Prop} (hstart : I .start)
    (hstep : ∀ s s', I s → Step p s s' → I s') {s : Inbox ι R} (hs : Reachable p s) : I s := by
  induction hs with
  | refl => exact hstart
  | tail _ hlast ih => exact hstep _ _ ih hlast

/-! ## The queue -/

/-- Every request sent so far was spawned or waits, once and in the order of sending. -/
def Inbox.InOrder (s : Inbox ι R) : Prop :=
  (s.spawned ++ s.queue).map Prod.fst = List.range s.sent

theorem Step.inOrder {s s' : Inbox ι R} (hs : s.InOrder) (h : Step p s s') : s'.InOrder := by
  unfold Inbox.InOrder at hs ⊢
  cases h with
  | send i r =>
    show (s.spawned ++ (s.queue ++ [(s.sent, r)])).map Prod.fst = List.range (s.sent + 1)
    rw [← List.append_assoc, List.map_append, hs, List.range_succ]
    rfl
  | ready x rest _ hq =>
    show (s.spawned ++ [x] ++ rest).map Prod.fst = List.range s.sent
    rw [List.append_assoc, List.singleton_append, ← hq]
    exact hs
  | poke | read | pending | stop => exact hs

/-! ## Wakeups -/

/-- The serve loop waits for a byte and there is none. -/
def Inbox.Asleep (s : Inbox ι R) : Prop := s.serve = .reading ∧ s.bytes = 0

/-- The sender of the request has done its poke. -/
def Inbox.Poked (s : Inbox ι R) (n : Nat) : Prop := ∀ i, s.poking i ≠ some n

/-- A loop that is asleep has only requests in its queue whose senders are still to poke. -/
def Inbox.Awaited (s : Inbox ι R) : Prop :=
  s.Asleep → ∀ x ∈ s.queue, ∃ i, s.poking i = some x.1

theorem Step.awaited {s s' : Inbox ι R} (hs : s.Awaited) (h : Step p s s') : s'.Awaited := by
  intro hasleep x hx
  cases h with
  | send i r hi =>
    obtain hold | hnew := List.mem_append.mp hx
    · -- its sender is another one, for this one had nothing to poke for
      obtain ⟨j, hj⟩ := hs hasleep x hold
      have hji : j ≠ i := by
        intro hji
        rw [hji, hi] at hj
        cases hj
      exact ⟨j, (Function.update_of_ne hji ..).trans hj⟩
    · rw [List.mem_singleton.mp hnew]
      exact ⟨i, Function.update_self ..⟩
  | poke => exact absurd hasleep.2 (Nat.ne_of_gt (p.pokeWakeup_pos s.bytes))
  | read | stop => cases hasleep.1
  | ready _ _ hserve => cases hserve.symm.trans hasleep.1
  | pending _ hq =>
    rw [show s.queue = [] from hq] at hx
    cases hx

/-- The serve loop is never asleep at an empty pipe while a request waits that its sender
has poked for. -/
theorem inbox_loses_no_wakeup {s : Inbox ι R} (hs : Reachable p s) :
    ¬ (s.serve = .reading ∧ s.bytes = 0 ∧ ∃ x ∈ s.queue, s.Poked x.1) := by
  rintro ⟨hreading, hempty, x, hx, hpoked⟩
  have hawaited : s.Awaited := Reachable.inv (fun _ _ hx => nomatch hx) (fun _ _ => Step.awaited) hs
  obtain ⟨i, hi⟩ := hawaited ⟨hreading, hempty⟩ x hx
  exact hpoked i hi

/-- No request is lost, doubled or overtaken, and a loop asleep with no poke due has spawned all. -/
theorem inbox_delivers {s : Inbox ι R} (hs : Reachable p s) :
    s.InOrder ∧ (s.Asleep → (∀ i, s.poking i = none) →
      s.spawned.map Prod.fst = List.range s.sent) := by
  have horder : s.InOrder := Reachable.inv (I := Inbox.InOrder) rfl (fun _ _ => Step.inOrder) hs
  have hawaited : s.Awaited :=
    Reachable.inv (fun _ _ hx => absurd hx List.not_mem_nil) (fun _ _ => Step.awaited) hs
  refine ⟨horder, fun hasleep hpoked => ?_⟩
  have hnone : s.queue = [] := by
    refine List.eq_nil_iff_forall_not_mem.mpr fun x hx => ?_
    obtain ⟨i, hi⟩ := hawaited hasleep x hx
    cases (hpoked i).symm.trans hi
  rwa [Inbox.InOrder, hnone, List.append_nil] at horder

end steps

theorem inbox_delivers_one : ∃ s : Inbox Unit String,
    s.sent = 1 ∧ s.Asleep ∧ s.spawned.map Prod.fst = List.range s.sent := by
  have hsent : Reachable ⟨1, Nat.one_pos⟩ _ := .tail .refl (.send () "a" rfl)
  have hpoked := hsent.tail (.poke () 0 rfl)
  have hread := hpoked.tail (.read 1 rfl (by decide) (by decide) (by decide))
  have hready := hread.tail (.ready (0, "a") [] rfl rfl)
  have hslept := hready.tail (.pending rfl rfl)
  exact ⟨_, rfl, ⟨rfl, rfl⟩, (inbox_delivers hslept).2 ⟨rfl, rfl⟩ fun _ => rfl⟩

/-- A pipe of one byte: the loop serves a request, and a second one comes in as it sleeps. -/
theorem inbox_loses_no_wakeup_second : ∃ s : Inbox Unit String,
    s.queue = [(1, "second")] ∧ s.spawned = [(0, "first")] ∧ s.Asleep ∧
      ¬ (s.serve = .reading ∧ s.bytes = 0 ∧ ∃ x ∈ s.queue, s.Poked x.1) := by
  have hstart : Relation.ReflTransGen (Step ⟨1, Nat.one_pos⟩) (.start : Inbox Unit String) .start :=
    .refl
  have hsent := hstart.tail (.send () "first" rfl)
  have hpoked := hsent.tail (.poke () 0 rfl)
  have hread := hpoked.tail (.read 1 rfl (by decide) (by decide) (by decide))
  have hready := hread.tail (.ready (0, "first") [] rfl rfl)
  have hpending := hready.tail (.pending rfl rfl)
  have hsecond := hpending.tail (.send () "second" rfl)
  exact ⟨_, rfl, rfl, ⟨rfl, rfl⟩, inbox_loses_no_wakeup hsecond⟩

end BeyondKv.Server
