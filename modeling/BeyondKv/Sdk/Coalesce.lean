/-
# Coalescing

`withCoalescing` collects the `get` and `set` calls of one tick and sends them as one batch,
the gets first. Gets of one key share their answer, and an error of the batch is everybody's.

Nobody can tell from calls one by one (`coalescing_invisible_iff`) in exactly two cases: no
call is rejected and no key is read after it was written, or every call is rejected with the
same error.
-/
import BeyondKv.Sdk.Kv

namespace BeyondKv.Sdk

open List

/-! ## The backend -/

structure SetOptions where
  ttlMs : Option Nat
  keepTtl : Bool
  metadata : Option String
  ifAbsent : Bool
  ifPresent : Bool
  ifMatch : Option Nat

/-- The write depends on what is there. -/
def SetOptions.conditional (o : SetOptions) : Bool := o.ifAbsent || o.ifPresent || o.ifMatch.isSome

structure Write (V : Type) where
  key : String
  value : V
  opts : SetOptions

inductive BatchOp (V : Type) where
  | get (key : String)
  | set (w : Write V)

structure Entry (V : Type) where
  value : V
  ttlMs : Option Nat
  metadata : Option String
  revision : Nat

/-- Records with their revisions, none of which is above the last one given. -/
structure Store (V : Type) where
  records : String → Option (Entry V)
  revision : Nat
  dated : ∀ key e, records key = some e → e.revision ≤ revision

inductive Result (V : Type) where
  | entry (r : Except KvError (Option (Entry V)))
  | done (r : Except KvError Unit)

section backend
variable {V : Type}

def Result.error? : Result V → Option KvError
  | .entry (.error e) | .done (.error e) => some e
  | _ => none

/-- What the batch says of an operation that succeeds. -/
def Result.data : Result V → Option (Entry V)
  | .entry (.ok e) => e
  | _ => none

/-- The answer to a call that fails. -/
def BatchOp.failed (e : KvError) : BatchOp V → Result V
  | .get _ => .entry (.error e)
  | .set _ => .done (.error e)

def Store.put (s : Store V) (w : Write V) : Store V where
  records := Function.update s.records w.key (some {
    value := w.value
    ttlMs := if w.opts.keepTtl then (s.records w.key).bind Entry.ttlMs else w.opts.ttlMs
    metadata := w.opts.metadata
    revision := s.revision + 1 })
  revision := s.revision + 1
  dated key e he := by
    by_cases hk : key = w.key
    · rw [hk, Function.update_self] at he
      cases he
      exact le_rfl
    · rw [Function.update_of_ne hk] at he
      exact (s.dated key e he).trans (Nat.le_succ _)

/-- Whether the write may be made. -/
def Store.meets (s : Store V) (w : Write V) : Bool :=
  !(w.opts.ifAbsent && (s.records w.key).isSome) && !(w.opts.ifPresent && (s.records w.key).isNone)
    && w.opts.ifMatch.all fun r => (s.records w.key).map Entry.revision == some r

/-- A backend: the operations it rejects, and whether a batch ends at the first of them. -/
structure Backend (V : Type) where
  rejects : BatchOp V → Option KvError
  stops : Bool

namespace Backend
variable (B : Backend V)

def exec (op : BatchOp V) (s : Store V) : Result V × Store V :=
  match B.rejects op with
  | some e => (op.failed e, s)
  | none =>
    match op with
    | .get key => (.entry (.ok (s.records key)), s)
    | .set w => if s.meets w then (.done (.ok ()), s.put w) else (.done (.error ⟨409⟩), s)

/-- The operations in order, one by one. -/
def each : List (BatchOp V) → Store V → List (Result V) × Store V
  | [], s => ([], s)
  | op :: ops, s => ((B.exec op s).1 :: (each ops (B.exec op s).2).1, (each ops (B.exec op s).2).2)

/-- A batch: the data of every operation, or the first error. -/
def batch : List (BatchOp V) → Store V → Except KvError (List (Option (Entry V))) × Store V
  | [], s => (.ok [], s)
  | op :: ops, s =>
    match (B.exec op s).1.error? with
    | some e => (.error e, if B.stops then (B.exec op s).2 else (batch ops (B.exec op s).2).2)
    | none =>
      ((batch ops (B.exec op s).2).1.map ((B.exec op s).1.data :: ·), (batch ops (B.exec op s).2).2)

end Backend

/-! ## The client -/

structure PendingGet where
  key : String
  waiters : List Nat

/-- The calls of this tick; a call is known by its number. -/
structure CoalesceState (V : Type) where
  /-- A `Map`, in the order of insertion. -/
  gets : List PendingGet
  sets : List (Nat × Write V)

structure Client (V : Type) where
  state : CoalesceState V
  store : Store V
  resolved : List (Nat × Result V)

/-- Wait for a key that others may be waiting for. -/
def addWaiter (gets : List PendingGet) (key : String) (n : Nat) : List PendingGet :=
  if gets.any fun g => g.key == key then
    gets.map fun g => if g.key = key then { g with waiters := g.waiters ++ [n] } else g
  else gets ++ [⟨key, [n]⟩]

namespace Client
variable (B : Backend V)

/-- The call `n`. A conditional write goes out at once. -/
def issue (c : Client V) (n : Nat) : BatchOp V → Client V
  | .get key => { c with state := { c.state with gets := addWaiter c.state.gets key n } }
  | .set w =>
    if w.opts.conditional then
      { c with store := (B.exec (.set w) c.store).2, resolved := c.resolved
        ++ [(n, (B.exec (.set w) c.store).1)] }
    else { c with state := { c.state with sets := c.state.sets ++ [(n, w)] } }

def resolveGets (gets : List PendingGet) (r : Nat → Result V) : List (Nat × Result V) :=
  gets.zipIdx.flatMap fun (g, i) => g.waiters.map fun n => (n, r i)

/-- All that is pending, in one batch. -/
def sendBatch (c : Client V) : Client V :=
  let result :=
    B.batch (c.state.gets.map (fun g => .get g.key) ++ c.state.sets.map fun s => .set s.2) c.store
  { state := ⟨[], []⟩
    store := result.2
    resolved := c.resolved ++ match result.1 with
      | .error e =>
        resolveGets c.state.gets (fun _ => .entry (.error e)) ++ c.state.sets.map fun s =>
          (s.1, .done (.error e))
      | .ok data =>
        resolveGets c.state.gets (fun i => .entry (.ok ((data[i]?).getD none)))
          ++ c.state.sets.map fun s => (s.1, .done (.ok ())) }

def flush (c : Client V) : Client V :=
  match c.state.gets, c.state.sets with
  | [], [] => c
  | [g], [] =>
    { state := ⟨[], []⟩
      store := (B.exec (.get g.key) c.store).2
      resolved := c.resolved ++ resolveGets [g] fun _ => (B.exec (.get g.key) c.store).1 }
  | [], [(n, w)] =>
    { state := ⟨[], []⟩
      store := (B.exec (.set w) c.store).2
      resolved := c.resolved ++ [(n, (B.exec (.set w) c.store).1)] }
  | _, _ => c.sendBatch B

def issueAll (c : Client V) : Nat → List (BatchOp V) → Client V
  | _, [] => c
  | n, op :: ops => issueAll (c.issue B n op) (n + 1) ops

end Client

/-- The calls of one tick, and the flush at its end. -/
def tick (B : Backend V) (calls : List (BatchOp V)) (s : Store V) : Client V :=
  (Client.issueAll B ⟨⟨[], []⟩, s, []⟩ 0 calls).flush B

/-- Each call gets the answer it would get alone, in its turn, and the store ends the same. -/
def Invisible (B : Backend V) (calls : List (BatchOp V)) (s : Store V) : Prop :=
  (∀ n r, (n, r) ∈ (tick B calls s).resolved ↔ (B.each calls s).1[n]? = some r)
    ∧ (tick B calls s).store = (B.each calls s).2

end backend

/-! ## What is pending -/

section pending
variable {V : Type} {B : Backend V} {calls : List (BatchOp V)} {s : Store V}

def BatchOp.write? : BatchOp V → Option (Write V)
  | .get _ => none
  | .set w => some w

def Unconditional (calls : List (BatchOp V)) : Prop :=
  ∀ w, .set w ∈ calls → w.opts.conditional = false

/-- The calls so far are pending, each under its number. -/
structure Holds (st : CoalesceState V) (calls : List (BatchOp V)) : Prop where
  gets : ∀ n key, (∃ g ∈ st.gets, g.key = key ∧ n ∈ g.waiters) ↔ calls[n]? = some (.get key)
  waited : ∀ g ∈ st.gets, g.waiters ≠ []
  sets : ∀ n w, (n, w) ∈ st.sets ↔ calls[n]? = some (.set w)
  order : st.sets.map Prod.snd = calls.filterMap BatchOp.write?

theorem mem_addWaiter {gets : List PendingGet} {key k : String} {n m : Nat} :
    (∃ g ∈ addWaiter gets key n, g.key = k ∧ m ∈ g.waiters)
      ↔ (∃ g ∈ gets, g.key = k ∧ m ∈ g.waiters) ∨ (k = key ∧ m = n) := by
  unfold addWaiter
  by_cases hany : gets.any (fun g => g.key == key) = true
  · rw [if_pos hany]
    obtain ⟨g₀, hg₀, hkey⟩ := any_eq_true.mp hany
    have hkey : g₀.key = key := by simpa using hkey
    constructor
    · rintro ⟨g, hg, rfl, hm⟩
      obtain ⟨g', hg', rfl⟩ := mem_map.mp hg
      by_cases hk : g'.key = key
      · rw [if_pos hk] at hm ⊢
        rcases mem_append.mp hm with hm | hm
        · exact .inl ⟨g', hg', rfl, hm⟩
        · exact .inr ⟨hk, mem_singleton.mp hm⟩
      · rw [if_neg hk] at hm ⊢
        exact .inl ⟨g', hg', rfl, hm⟩
    · rintro (⟨g, hg, rfl, hm⟩ | ⟨rfl, rfl⟩)
      · refine ⟨_, mem_map.mpr ⟨g, hg, rfl⟩, ?_⟩
        split
        · exact ⟨rfl, mem_append_left _ hm⟩
        · exact ⟨rfl, hm⟩
      · refine ⟨_, mem_map.mpr ⟨g₀, hg₀, rfl⟩, ?_⟩
        rw [if_pos hkey]
        exact ⟨hkey, mem_append_right _ (mem_singleton_self _)⟩
  · rw [if_neg hany]
    constructor
    · rintro ⟨g, hg, rfl, hm⟩
      rcases mem_append.mp hg with hg | hg
      · exact .inl ⟨g, hg, rfl, hm⟩
      · rw [mem_singleton.mp hg] at hm ⊢
        exact .inr ⟨rfl, mem_singleton.mp hm⟩
    · rintro (⟨g, hg, rfl, hm⟩ | ⟨rfl, rfl⟩)
      · exact ⟨g, mem_append_left _ hg, rfl, hm⟩
      · exact ⟨⟨k, [m]⟩, mem_append_right _ (mem_singleton_self _), rfl, mem_singleton_self _⟩

theorem waited_addWaiter {gets : List PendingGet} (h : ∀ g ∈ gets, g.waiters ≠ [])
    (key : String) (n : Nat) :
    ∀ g ∈ addWaiter gets key n, g.waiters ≠ [] := by
  intro g hg
  unfold addWaiter at hg
  split at hg
  · obtain ⟨g', hg', rfl⟩ := mem_map.mp hg
    split
    · simp
    · exact h g' hg'
  · rcases mem_append.mp hg with hg | hg
    · exact h g hg
    · rw [mem_singleton.mp hg]
      simp

theorem getElem?_snoc {α : Type} {l : List α} {a b : α} {n : Nat} :
    (l ++ [a])[n]? = some b ↔ l[n]? = some b ∨ (b = a ∧ n = l.length) := by
  rcases lt_trichotomy n l.length with h | h | h
  · rw [getElem?_append_left h]
    exact ⟨.inl, fun h' => h'.resolve_right fun h' => absurd h'.2 h.ne⟩
  · subst h
    rw [getElem?_concat_length, getElem?_eq_none le_rfl]
    simp [eq_comm]
  · rw [getElem?_eq_none (by simpa using h), getElem?_eq_none h.le]
    simp
    omega

/-- One more call. -/
theorem Holds.issue {c : Client V} {op : BatchOp V} (h : Holds c.state calls)
    (hop : ∀ w, op = .set w → w.opts.conditional = false) :
    Holds (c.issue B calls.length op).state (calls ++ [op])
      ∧ (c.issue B calls.length op).store = c.store
      ∧ (c.issue B calls.length op).resolved = c.resolved := by
  cases op with
  | get key =>
    refine ⟨⟨fun n k => ?_, waited_addWaiter h.waited key _, fun n w => ?_, ?_⟩, rfl, rfl⟩
    · rw [getElem?_snoc, ← h.gets]
      refine mem_addWaiter.trans (or_congr Iff.rfl ?_)
      simp
    · rw [getElem?_snoc, ← h.sets]
      simp [Client.issue]
    · rw [filterMap_append]
      exact h.order.trans (append_nil _).symm
  | set w =>
    have hset : c.issue B calls.length (.set w)
        = { c with state := { c.state with sets := c.state.sets ++ [(calls.length, w)] } } := by
      simp [Client.issue, hop w rfl]
    rw [hset]
    refine ⟨⟨fun n k => ?_, h.waited, fun n w' => ?_, ?_⟩, rfl, rfl⟩
    · rw [getElem?_snoc, ← h.gets]
      simp
    · rw [getElem?_snoc, ← h.sets]
      simp [and_comm]
    · simp [BatchOp.write?, h.order]

theorem Holds.issueAll {c : Client V} {done : List (BatchOp V)} (h : Holds c.state done)
    (hplain : Unconditional calls) :
    Holds (Client.issueAll B c done.length calls).state (done ++ calls)
      ∧ (Client.issueAll B c done.length calls).store = c.store
      ∧ (Client.issueAll B c done.length calls).resolved = c.resolved := by
  induction calls generalizing c done with
  | nil => exact ⟨by simpa [Client.issueAll] using h, rfl, rfl⟩
  | cons op ops ih =>
    obtain ⟨hnext, hstore, hres⟩ := h.issue (B := B) fun w hw => hplain w (hw ▸ mem_cons_self ..)
    obtain ⟨hend, hstore', hres'⟩ := ih hnext fun w hw => hplain w (mem_cons_of_mem _ hw)
    rw [length_append, length_singleton] at hend hstore' hres'
    rw [append_assoc] at hend
    exact ⟨hend, hstore'.trans hstore, hres'.trans hres⟩

end pending

/-! ## One operation, and many -/

section ops
variable {V : Type} {B : Backend V} {calls ops : List (BatchOp V)} {s : Store V} {op : BatchOp V}

/-- The answer to an operation that is not rejected. -/
def answer (s : Store V) : BatchOp V → Result V
  | .get key => .entry (.ok (s.records key))
  | .set _ => .done (.ok ())

/-- The writes among the calls. -/
def writes (calls : List (BatchOp V)) : List (Write V) := calls.filterMap BatchOp.write?

def putAll (s : Store V) (ws : List (Write V)) : Store V := ws.foldl Store.put s

theorem meets_unconditional {w : Write V} (h : w.opts.conditional = false) (s : Store V) :
    s.meets w = true := by
  unfold SetOptions.conditional at h
  simp only [Bool.or_eq_false_iff, Option.isSome_eq_false_iff, Option.isNone_iff_eq_none] at h
  simp [Store.meets, h.1.1, h.1.2, h.2]

theorem exec_rejected {e : KvError} (h : B.rejects op = some e) :
    B.exec op s = (op.failed e, s) := by
  unfold Backend.exec
  rw [h]

theorem exec_accepted (h : B.rejects op = none)
    (hop : ∀ w, op = .set w → w.opts.conditional = false) :
    B.exec op s = (answer s op, putAll s (writes [op])) := by
  unfold Backend.exec
  rw [h]
  cases op with
  | get key => rfl
  | set w =>
    simp only [meets_unconditional (hop w rfl) s, if_true]
    rfl

theorem error?_failed (op : BatchOp V) (e : KvError) : (op.failed e).error? = some e :=
  by cases op <;> rfl

theorem error?_answer (op : BatchOp V) : (answer s op).error? = none := by cases op <;> rfl

theorem Unconditional.head (h : Unconditional (op :: ops)) :
    ∀ w, op = .set w → w.opts.conditional = false := fun w hw => h w (hw ▸ mem_cons_self ..)

theorem Unconditional.tail (h : Unconditional (op :: ops)) : Unconditional ops :=
  fun w hw => h w (mem_cons_of_mem _ hw)

theorem putAll_cons (s : Store V) (op : BatchOp V) (ops : List (BatchOp V)) :
    putAll s (writes (op :: ops)) = putAll (putAll s (writes [op])) (writes ops) := by
  cases op <;> rfl

/-- One by one: each operation meets what those before it have left. -/
theorem each_getElem? {n : Nat} {r : Result V} :
    (B.each calls s).1[n]? = some r
      ↔ ∃ op, calls[n]? = some op ∧ r = (B.exec op (B.each (calls.take n) s).2).1 := by
  induction calls generalizing n s with
  | nil => simp [Backend.each]
  | cons op ops ih =>
    cases n with
    | zero => simp [Backend.each, eq_comm]
    | succ n => simpa [Backend.each] using ih

theorem each_accepted (hok : ∀ op ∈ calls, B.rejects op = none) (hplain : Unconditional calls) :
    (B.each calls s).2 = putAll s (writes calls) := by
  induction calls generalizing s with
  | nil => rfl
  | cons op ops ih =>
    rw [Backend.each, exec_accepted (hok op (mem_cons_self ..)) hplain.head, putAll_cons s op ops]
    exact ih (fun op hop => hok op (mem_cons_of_mem _ hop)) hplain.tail

theorem each_rejected (hall : ∀ op ∈ calls, (B.rejects op).isSome) : (B.each calls s).2 = s := by
  induction calls with
  | nil => rfl
  | cons op ops ih =>
    obtain ⟨e, he⟩ := Option.isSome_iff_exists.mp (hall op (mem_cons_self ..))
    rw [Backend.each, exec_rejected he]
    exact ih fun op hop => hall op (mem_cons_of_mem _ hop)

theorem batch_accepted (hok : ∀ op ∈ ops, B.rejects op = none) (hplain : Unconditional ops) :
    B.batch ops s = (.ok ((B.each ops s).1.map Result.data), putAll s (writes ops)) := by
  induction ops generalizing s with
  | nil => rfl
  | cons op ops ih =>
    rw [Backend.batch, exec_accepted (hok op (mem_cons_self ..)) hplain.head, error?_answer,
      ih (fun op hop => hok op (mem_cons_of_mem _ hop)) hplain.tail,
        putAll_cons s op ops, Backend.each,
      exec_accepted (hok op (mem_cons_self ..)) hplain.head]
    rfl

/-- A batch with an operation that is rejected fails. -/
theorem batch_rejected (hbad : ∃ op ∈ ops, (B.rejects op).isSome) (hplain : Unconditional ops) :
    (∃ e, (B.batch ops s).1 = .error e ∧ ∃ op ∈ ops, B.rejects op = some e)
      ∧ ((∀ op ∈ ops, (B.rejects op).isSome) → (B.batch ops s).2 = s) := by
  induction ops generalizing s with
  | nil => simp at hbad
  | cons op ops ih =>
    cases hop : B.rejects op with
    | some e =>
      rw [Backend.batch, exec_rejected hop, error?_failed]
      refine ⟨⟨e, rfl, op, mem_cons_self .., hop⟩, fun hall => ?_⟩
      -- what is left of the batch changes nothing, whether it runs or not
      cases ops with
      | nil => simp [Backend.batch]
      | cons op' ops =>
        have hmem : ∃ a ∈ op' :: ops, (B.rejects a).isSome := ⟨op', by simp, hall op' (by simp)⟩
        have hrest := (ih (s := s) hmem hplain.tail).2 fun op hop => hall op (mem_cons_of_mem _ hop)
        simp [hrest]
    | none =>
      have hmem : ∃ op ∈ ops, (B.rejects op).isSome := by
        obtain ⟨op', hmem, hsome⟩ := hbad
        rcases mem_cons.mp hmem with rfl | hmem
        · rw [hop] at hsome
          cases hsome
        · exact ⟨op', hmem, hsome⟩
      rw [Backend.batch, exec_accepted hop hplain.head, error?_answer]
      obtain ⟨⟨e, he, op', hmem', hop'⟩, -⟩ := ih (s := putAll s (writes [op])) hmem hplain.tail
      refine ⟨⟨e, by simp only [he]; rfl, op', mem_cons_of_mem _ hmem', hop'⟩, fun hall => ?_⟩
      have := hall op (mem_cons_self ..)
      rw [hop] at this
      cases this

end ops

/-! ## A tick -/

section ticks
variable {V : Type} {B : Backend V} {calls : List (BatchOp V)} {s : Store V}

theorem mem_resolveGets {gets : List PendingGet} {f : Nat → Result V} {n : Nat} {r : Result V} :
    (n, r) ∈ Client.resolveGets gets f ↔ ∃ i g, gets[i]? = some g ∧ n ∈ g.waiters ∧ r = f i := by
  unfold Client.resolveGets
  constructor
  · intro h
    obtain ⟨⟨g, i⟩, hg, hmem⟩ := mem_flatMap.mp h
    obtain ⟨m, hm, heq⟩ := mem_map.mp hmem
    cases heq
    exact ⟨i, g, mem_zipIdx_iff_getElem?.mp hg, hm, rfl⟩
  · rintro ⟨i, g, hg, hn, rfl⟩
    exact mem_flatMap.mpr ⟨(g, i), mem_zipIdx_iff_getElem?.mpr hg, mem_map.mpr ⟨n, hn, rfl⟩⟩

/-- What is sent when a flush has something to send: the batch, or its only operation. -/
theorem flush_cases (c : Client V) :
    (c.state.gets = [] ∧ c.state.sets = [] ∧ c.flush B = c)
      ∨ (∃ g, c.state.gets = [g] ∧ c.state.sets = []
        ∧ (c.flush B).store = (B.exec (.get g.key) c.store).2
        ∧ (c.flush B).resolved = c.resolved ++ Client.resolveGets c.state.gets fun _ =>
          (B.exec (.get g.key) c.store).1)
      ∨ (∃ n w, c.state.gets = [] ∧ c.state.sets = [(n, w)]
        ∧ (c.flush B).store = (B.exec (.set w) c.store).2
        ∧ (c.flush B).resolved = c.resolved ++ [(n, (B.exec (.set w) c.store).1)])
      ∨ c.flush B = c.sendBatch B := by
  unfold Client.flush
  split
  · rename_i hg hs
    exact .inl ⟨hg, hs, rfl⟩
  · rename_i g hg hs
    exact .inr (.inl ⟨g, hg, hs, rfl, by rw [hg]⟩)
  · rename_i n w hg hs
    exact .inr (.inr (.inl ⟨n, w, hg, hs, rfl, rfl⟩))
  · exact .inr (.inr (.inr rfl))

section holding
variable {c : Client V} (h : Holds c.state calls)
include h

/-- The operations that are sent are calls. -/
theorem Holds.mem_calls {op : BatchOp V}
    (hop : op ∈ c.state.gets.map (fun g => .get g.key) ++ c.state.sets.map fun s => .set s.2) :
    op ∈ calls := by
  rcases mem_append.mp hop with hop | hop
  · obtain ⟨g, hg, rfl⟩ := mem_map.mp hop
    obtain ⟨n, hn⟩ := exists_mem_of_ne_nil _ (h.waited g hg)
    exact mem_of_getElem? ((h.gets n g.key).mp ⟨g, hg, rfl, hn⟩)
  · obtain ⟨⟨n, w⟩, hs, rfl⟩ := mem_map.mp hop
    exact mem_of_getElem? ((h.sets n w).mp hs)

theorem Holds.calls_mem {op : BatchOp V} (hop : op ∈ calls) :
    op ∈ c.state.gets.map (fun g => .get g.key) ++ c.state.sets.map fun s => .set s.2 := by
  obtain ⟨n, hn⟩ := mem_iff_getElem?.mp hop
  cases op with
  | get key =>
    obtain ⟨g, hg, rfl, -⟩ := (h.gets n key).mpr hn
    exact mem_append_left _ (mem_map.mpr ⟨g, hg, rfl⟩)
  | set w => exact mem_append_right _ (mem_map.mpr ⟨(n, w), (h.sets n w).mpr hn, rfl⟩)

/-- Everybody is told what `f` says of the operation. -/
theorem Holds.resolves (get : Nat → Result V) (f : BatchOp V → Result V)
    (hget : ∀ i g, c.state.gets[i]? = some g → get i = f (.get g.key)) {n : Nat} {r : Result V} :
    (n, r) ∈ Client.resolveGets c.state.gets get ++ c.state.sets.map (fun s => (s.1, f (.set s.2)))
      ↔ ∃ op, calls[n]? = some op ∧ r = f op := by
  rw [mem_append, mem_resolveGets]
  constructor
  · rintro (⟨i, g, hg, hn, rfl⟩ | hs)
    · exact ⟨.get g.key, (h.gets n g.key).mp ⟨g, mem_of_getElem? hg, rfl, hn⟩, hget i g hg⟩
    · obtain ⟨⟨m, w⟩, hmem, heq⟩ := mem_map.mp hs
      cases heq
      exact ⟨.set w, (h.sets _ w).mp hmem, rfl⟩
  · rintro ⟨op, hop, rfl⟩
    cases op with
    | get key =>
      obtain ⟨g, hg, rfl, hn⟩ := (h.gets n key).mpr hop
      obtain ⟨i, hi⟩ := mem_iff_getElem?.mp hg
      exact .inl ⟨i, g, hi, hn, (hget i g hi).symm⟩
    | set w => exact .inr (mem_map.mpr ⟨(n, w), (h.sets n w).mpr hop, rfl⟩)

end holding

theorem holds_start : Holds (⟨[], []⟩ : CoalesceState V) [] := ⟨by simp, by simp, by simp, rfl⟩

/-- The client at the end of a tick, before the flush. -/
theorem tick_pending (B : Backend V) (hplain : Unconditional calls) (s : Store V) :
    ∃ c : Client V, Holds c.state calls ∧ c.store = s ∧ c.resolved = []
        ∧ tick B calls s = c.flush B := by
  have hend := Holds.issueAll (B := B) (c := ⟨⟨[], []⟩, s, []⟩) holds_start hplain
  exact ⟨_, hend.1, hend.2.1, hend.2.2, rfl⟩

theorem writes_gets (gets : List PendingGet) :
    writes (gets.map fun g => (.get g.key : BatchOp V)) = [] := by
  induction gets with
  | nil => rfl
  | cons g gets ih => exact ih

theorem writes_sent (gets : List PendingGet) (sets : List (Nat × Write V)) :
    writes (gets.map (fun g => .get g.key) ++ sets.map fun s => .set s.2) = sets.map Prod.snd := by
  have hsets : writes (sets.map fun s => (.set s.2 : BatchOp V)) = sets.map Prod.snd := by
    induction sets with
    | nil => rfl
    | cons x sets ih => exact congrArg (x.2 :: ·) ih
  have hgets := writes_gets (V := V) gets
  unfold writes at hgets hsets ⊢
  rw [filterMap_append, hgets, hsets, nil_append]

/-- The gets of a batch come first: they read what was there before it. -/
theorem batch_data {gets : List PendingGet} {ops : List (BatchOp V)} {i : Nat} {g : PendingGet}
    (hok : ∀ op ∈ gets.map (fun g => .get g.key) ++ ops, B.rejects op = none)
    (hi : gets[i]? = some g) :
    ((B.each (gets.map (fun g => .get g.key) ++ ops) s).1.map Result.data)[i]?
    = some (s.records g.key) := by
  have hlt : i < gets.length := (List.getElem?_eq_some_iff.mp hi).1
  have hop : (gets.map (fun g => (.get g.key : BatchOp V)) ++ ops)[i]? = some (.get g.key) := by
    rw [getElem?_append_left (by simpa using hlt), getElem?_map, hi]
    rfl
  have htake : (gets.map (fun g => (.get g.key : BatchOp V)) ++ ops).take i = (gets.take i).map
      fun g => .get g.key := by
    rw [take_append_of_le_length (by simpa using hlt.le), map_take]
  have hbefore :
      (B.each ((gets.map (fun g => (.get g.key : BatchOp V)) ++ ops).take i) s).2 = s := by
    rw [each_accepted (fun op hop => hok op (mem_of_mem_take hop)), htake, writes_gets]
    · rfl
    · rw [htake]
      intro w hw
      obtain ⟨_, -, heq⟩ := mem_map.mp hw
      cases heq
  have hexec : B.exec (.get g.key) s = (answer s (.get g.key), s) :=
    exec_accepted (hok _ (mem_of_getElem? hop)) fun w hw => by cases hw
  rw [getElem?_map, each_getElem?.mpr ⟨_, hop, rfl⟩, hbefore, hexec]
  rfl

theorem tick_accepted (hplain : Unconditional calls) (hok : ∀ op ∈ calls, B.rejects op = none) :
    (∀ n r, (n, r) ∈ (tick B calls s).resolved ↔ ∃ op, calls[n]? = some op ∧ r = answer s op)
      ∧ (tick B calls s).store = putAll s (writes calls) := by
  obtain ⟨c, hc, rfl, hres, htick⟩ := tick_pending B hplain s
  rw [htick]
  have hacc : ∀ op ∈ calls, B.exec op c.store = (answer c.store op, putAll c.store (writes [op])) :=
    fun op hop =>
    exec_accepted (hok op hop) fun w hw => hplain w (hw ▸ hop)
  have hwrites : putAll c.store (c.state.sets.map Prod.snd) = putAll c.store (writes calls) :=
    by rw [hc.order]; rfl
  rcases flush_cases (B := B) c with ⟨hg, hs, hflush⟩ | ⟨g, hg, hs, hstore, hresolved⟩
    | ⟨n, w, hg, hs, hstore, hresolved⟩ | hflush
  · rw [hflush]
    rw [hs] at hwrites
    refine ⟨fun n r => ?_, hwrites⟩
    rw [hres, ← hc.resolves (fun _ => .done (.ok ())) (answer c.store) (by simp [hg]), hg, hs]
    rfl
  · have hop : (.get g.key : BatchOp V) ∈ calls := hc.mem_calls (by simp [hg])
    rw [hs] at hwrites
    rw [hstore, hresolved, hacc _ hop, hres]
    refine ⟨fun n r => ?_, hwrites⟩
    rw [← hc.resolves (fun _ => answer c.store (.get g.key)) (answer c.store), hs,
      map_nil, append_nil,
      nil_append]
    intro i g' hg'
    rw [hg] at hg'
    rw [mem_singleton.mp (mem_of_getElem? hg')]
  · have hop : (.set w : BatchOp V) ∈ calls := hc.mem_calls (by simp [hs])
    rw [hs] at hwrites
    rw [hstore, hresolved, hacc _ hop, hres]
    refine ⟨fun m r => ?_, hwrites⟩
    rw [← hc.resolves (fun _ => .done (.ok ())) (answer c.store) (by simp [hg]), hg, hs]
    rfl
  · rw [hflush]
    have hsent :
      ∀ op ∈ c.state.gets.map (fun g => .get g.key) ++ c.state.sets.map (fun s => .set s.2),
        B.rejects op = none := fun op hop => hok op (hc.mem_calls hop)
    have hbatch := batch_accepted (s := c.store) hsent fun w hw => hplain w (hc.mem_calls hw)
    unfold Client.sendBatch
    rw [hbatch, hres]
    refine ⟨fun n r => ?_, by rw [writes_sent]; exact hwrites⟩
    refine hc.resolves _ (answer c.store) fun i g hg => ?_
    rw [batch_data hsent hg]
    rfl

theorem tick_rejected (hplain : Unconditional calls) (hbad : ∃ op ∈ calls, (B.rejects op).isSome) :
    ∃ e, (∃ op ∈ calls, B.rejects op = some e)
      ∧ (∀ n r, (n, r) ∈ (tick B calls s).resolved ↔ ∃ op, calls[n]? = some op ∧ r = op.failed e)
      ∧ ((∀ op ∈ calls, (B.rejects op).isSome) → (tick B calls s).store = s) := by
  obtain ⟨c, hc, rfl, hres, htick⟩ := tick_pending B hplain s
  rw [htick]
  obtain ⟨op, hmem, hop⟩ := hbad
  have hsent := hc.calls_mem hmem
  rcases flush_cases (B := B) c with ⟨hg, hs, -⟩ | ⟨g, hg, hs, hstore, hresolved⟩
    | ⟨n, w, hg, hs, hstore, hresolved⟩ | hflush
  · simp [hg, hs] at hsent
  · have heq : op = .get g.key := by simpa [hg, hs] using hsent
    obtain ⟨e, he⟩ := Option.isSome_iff_exists.mp hop
    rw [heq] at he hmem
    rw [hstore, hresolved, exec_rejected he, hres]
    refine ⟨e, ⟨_, hmem, he⟩, fun n r => ?_, fun _ => rfl⟩
    rw [← hc.resolves (fun _ => .entry (.error e)) (BatchOp.failed e) fun _ _ _ => rfl, hs,
      map_nil, append_nil]
    rfl
  · have heq : op = .set w := by simpa [hg, hs] using hsent
    obtain ⟨e, he⟩ := Option.isSome_iff_exists.mp hop
    rw [heq] at he hmem
    rw [hstore, hresolved, exec_rejected he, hres]
    refine ⟨e, ⟨_, hmem, he⟩, fun m r => ?_, fun _ => rfl⟩
    rw [← hc.resolves (fun _ => .entry (.error e)) (BatchOp.failed e) fun _ _ _ => rfl, hg, hs]
    rfl
  · rw [hflush]
    obtain ⟨⟨e, he, op', hmem', hop'⟩, hsame⟩ :=
      batch_rejected (B := B) (s := c.store) ⟨op, hsent, hop⟩
      fun w hw => hplain w (hc.mem_calls hw)
    unfold Client.sendBatch
    refine ⟨e, ⟨op', hc.mem_calls hmem', hop'⟩, fun n r => ?_, fun hall => hsame fun op hop =>
      hall op (hc.mem_calls hop)⟩
    simp only [he, hres, nil_append]
    exact hc.resolves _ (BatchOp.failed e) fun _ _ _ => rfl

end ticks

/-! ## When it cannot be seen -/

section visible
variable {V : Type} {B : Backend V} {calls : List (BatchOp V)} {s : Store V} {key : String}
  {ws : List (Write V)}

/-- No call is rejected, and no key is read after it was written. -/
def Harmless (B : Backend V) (calls : List (BatchOp V)) : Prop :=
  (∀ op ∈ calls, B.rejects op = none)
    ∧ calls.Pairwise fun a b => ∀ w key, a = .set w → b = .get key → w.key ≠ key

/-- Every call is rejected, with one error. -/
def AllRejected (B : Backend V) (calls : List (BatchOp V)) : Prop :=
  ∃ e, ∀ op ∈ calls, B.rejects op = some e

theorem records_putAll_other (h : ∀ w ∈ ws, w.key ≠ key) :
    (putAll s ws).records key = s.records key := by
  induction ws generalizing s with
  | nil => rfl
  | cons w ws ih =>
    refine (ih fun w' hw => h w' (mem_cons_of_mem _ hw)).trans ?_
    exact Function.update_of_ne (h w (mem_cons_self ..)).symm _ _

theorem records_putAll_written (h : ∃ w ∈ ws, w.key = key) :
    ∃ e, (putAll s ws).records key = some e ∧ s.revision < e.revision := by
  induction ws generalizing s with
  | nil => simp at h
  | cons w ws ih =>
    by_cases hlater : ∃ w' ∈ ws, w'.key = key
    · obtain ⟨e, he, hlt⟩ := ih (s := s.put w) hlater
      exact ⟨e, he, (Nat.lt_succ_self _).trans hlt⟩
    · -- this is the last write of the key
      obtain ⟨w', hmem, hk⟩ := h
      rcases mem_cons.mp hmem with rfl | hmem
      · have hothers : ∀ w ∈ ws, w.key ≠ w'.key := fun w hw hk' => hlater ⟨w, hw, hk'.trans hk⟩
        rw [← hk]
        refine ⟨_, (records_putAll_other hothers).trans (Function.update_self ..), ?_⟩
        exact Nat.lt_succ_self s.revision
      · exact absurd ⟨w', hmem, hk⟩ hlater

/-- A key that was written is not what it was: it has a new revision. -/
theorem records_putAll_ne (h : ∃ w ∈ ws, w.key = key) :
    (putAll s ws).records key ≠ s.records key := by
  obtain ⟨e, he, hlt⟩ := records_putAll_written (s := s) h
  rw [he]
  intro heq
  exact absurd (s.dated _ e heq.symm) (not_le.mpr hlt)

theorem mem_writes_take {w : Write V} {n : Nat} :
    w ∈ writes (calls.take n) ↔ ∃ m < n, calls[m]? = some (.set w) := by
  have hset : ∀ op : BatchOp V, op.write? = some w ↔ op = .set w := by
    intro op
    cases op with
    | get _ => simp [BatchOp.write?]
    | set w' => simp [BatchOp.write?]
  rw [writes, mem_filterMap]
  constructor
  · rintro ⟨op, hop, hw⟩
    rw [hset] at hw
    obtain ⟨m, hm⟩ := mem_iff_getElem?.mp hop
    rw [getElem?_take, hw] at hm
    split at hm
    · exact ⟨m, by assumption, hm⟩
    · cases hm
  · rintro ⟨m, hlt, hm⟩
    refine ⟨.set w, mem_of_getElem? (i := m) ?_, rfl⟩
    rwa [getElem?_take, if_pos hlt]

/-- What an accepted call is told alone, in its turn. -/
theorem each_answer (hplain : Unconditional calls) (hok : ∀ op ∈ calls, B.rejects op = none)
    {n : Nat} {op : BatchOp V}
    (hop : calls[n]? = some op) :
    (B.each calls s).1[n]? = some (answer (putAll s (writes (calls.take n))) op) := by
  have hmem := mem_of_getElem? hop
  rw [each_getElem?]
  refine ⟨op, hop, ?_⟩
  rw [each_accepted (fun op hop => hok op (mem_of_mem_take hop)) fun w hw =>
    hplain w (mem_of_mem_take hw),
    exec_accepted (hok op hmem) fun w hw => hplain w (hw ▸ hmem)]

theorem Harmless.invisible (hplain : Unconditional calls) (h : Harmless B calls) :
    Invisible B calls s := by
  obtain ⟨hok, hapart⟩ := h
  obtain ⟨hres, hstore⟩ := tick_accepted (s := s) hplain hok
  -- no earlier write is of the key that a call reads
  have hsame : ∀ n op, calls[n]? = some op → answer (putAll s (writes (calls.take n))) op
      = answer s op := by
    intro n op hop
    cases op with
    | set w => rfl
    | get key =>
      have hother : (putAll s (writes (calls.take n))).records key = s.records key := by
        refine records_putAll_other fun w hw => ?_
        obtain ⟨m, hlt, hm⟩ := mem_writes_take.mp hw
        obtain ⟨hmlt, hm⟩ := List.getElem?_eq_some_iff.mp hm
        obtain ⟨hnlt, hn⟩ := List.getElem?_eq_some_iff.mp hop
        exact pairwise_iff_getElem.mp hapart m n hmlt hnlt hlt w key hm hn
      simp only [answer, hother]
  refine ⟨fun n r => (hres n r).trans ⟨?_, fun hr => ?_⟩,
    hstore.trans (each_accepted hok hplain).symm⟩
  · rintro ⟨op, hop, rfl⟩
    rw [each_answer hplain hok hop, hsame n op hop]
  · obtain ⟨op, hop, -⟩ := each_getElem?.mp hr
    rw [each_answer hplain hok hop, hsame n op hop] at hr
    exact ⟨op, hop, (Option.some.inj hr).symm⟩

theorem AllRejected.invisible (hplain : Unconditional calls) (h : AllRejected B calls) :
    Invisible B calls s := by
  obtain ⟨e, hall⟩ := h
  cases calls with
  | nil => exact Harmless.invisible hplain ⟨nofun, List.Pairwise.nil⟩
  | cons op ops =>
    have hsome : ∀ op' ∈ op :: ops, (B.rejects op').isSome :=
      fun op' hop => by rw [hall op' hop]; rfl
    have hhead := mem_cons_self (a := op) (l := ops)
    obtain ⟨e', ⟨op', hmem, hop'⟩, hres, hstore⟩ :=
      tick_rejected (s := s) hplain ⟨op, hhead, hsome op hhead⟩
    cases (hall op' hmem).symm.trans hop'
    refine ⟨fun n r => (hres n r).trans ?_, (hstore hsome).trans (each_rejected hsome).symm⟩
    rw [each_getElem?]
    refine exists_congr fun op => and_congr_right fun hop => ?_
    rw [exec_rejected (hall op (mem_of_getElem? hop))]

/-- Coalescing is invisible exactly if no call is rejected and no key is read after it was
written, or if all calls are rejected with one error. -/
theorem coalescing_invisible_iff (hplain : Unconditional calls) :
    Invisible B calls s ↔ Harmless B calls ∨ AllRejected B calls := by
  refine ⟨fun hinv => ?_,
    fun h => h.elim (Harmless.invisible hplain) (AllRejected.invisible hplain)⟩
  by_cases hbad : ∃ op ∈ calls, (B.rejects op).isSome
  · -- the error of the batch is everybody's, so it has to be everybody's own
    obtain ⟨e, -, hres, -⟩ := tick_rejected (s := s) hplain hbad
    refine .inr ⟨e, fun op hmem => ?_⟩
    obtain ⟨n, hn⟩ := mem_iff_getElem?.mp hmem
    obtain ⟨op', hop', heq⟩ := each_getElem?.mp ((hinv.1 n _).mp ((hres n _).mpr ⟨op, hn, rfl⟩))
    cases hn.symm.trans hop'
    cases hrej : B.rejects op with
    | none =>
      rw [exec_accepted hrej fun w hw => hplain w (hw ▸ hmem)] at heq
      have herr := congrArg Result.error? heq
      rw [error?_failed, error?_answer] at herr
      cases herr
    | some e' =>
      rw [exec_rejected hrej] at heq
      have herr := congrArg Result.error? heq
      rw [error?_failed, error?_failed] at herr
      exact herr.symm
  · have hok : ∀ op ∈ calls, B.rejects op = none := fun op hop =>
      Option.not_isSome_iff_eq_none.mp fun h => hbad ⟨op, hop, h⟩
    refine .inl ⟨hok, pairwise_iff_getElem.mpr fun m n hm hn hlt w key hw hk hkey => ?_⟩
    have hop : calls[n]? = some (.get key) := List.getElem?_eq_some_iff.mpr ⟨hn, hk⟩
    obtain ⟨hres, -⟩ := tick_accepted (s := s) hplain hok
    have hold := (hinv.1 n _).mp ((hres n _).mpr ⟨_, hop, rfl⟩)
    rw [each_answer hplain hok hop] at hold
    refine records_putAll_ne ?_ (Except.ok.inj (Result.entry.inj (Option.some.inj hold)))
    exact ⟨w, mem_writes_take.mpr ⟨m, hlt, List.getElem?_eq_some_iff.mpr ⟨hm, hw⟩⟩, hkey⟩

/-- A write of a number, with no options. -/
def plainWrite (key : String) (n : Nat) : Write Nat :=
  ⟨key, n, ⟨none, false, none, false, false, none⟩⟩

/-- A backend that rejects nothing. -/
def acceptAll : Backend Nat := ⟨fun _ => none, true⟩

def emptyStore : Store Nat := ⟨fun _ => none, 0, nofun⟩

/-- A key that is read and then written, in one tick. -/
theorem coalescing_invisible_iff_read_first :
    Unconditional [.get "a", .set (plainWrite "a" 1)]
      ∧ Invisible acceptAll [.get "a", .set (plainWrite "a" 1)] emptyStore := by
  have hplain : Unconditional [.get "a", .set (plainWrite "a" 1)] := by
    intro w hw
    have hw : w = plainWrite "a" 1 := by simpa using hw
    rw [hw]
    rfl
  refine ⟨hplain, (coalescing_invisible_iff hplain).mpr (.inl ⟨fun _ _ => rfl, ?_⟩)⟩
  simp

/-- The other way round, the read does not see the write: alone it would. -/
theorem read_misses_own_write :
    (tick acceptAll [.set (plainWrite "a" 1), .get "a"] emptyStore).resolved
        = [(1, .entry (.ok none)), (0, .done (.ok ()))]
      ∧ (acceptAll.each [.set (plainWrite "a" 1), .get "a"] emptyStore).1
        = [.done (.ok ()), .entry (.ok (some ⟨1, none, none, 1⟩))]
      ∧ ¬ Invisible acceptAll [.set (plainWrite "a" 1), .get "a"] emptyStore := by
  refine ⟨rfl, rfl, fun h => ?_⟩
  have hread := (h.1 1 (.entry (.ok none))).mp (mem_cons_self ..)
  cases Except.ok.inj (Result.entry.inj (Option.some.inj hread))

end visible

end BeyondKv.Sdk
