/-
# The snapshot of the flags

A `Snapshot` has the definitions of all flags in memory. It loads them page by page, and then keeps
up with the store by a watch, which it resumes from the highest revision it has seen anywhere. While
the watch is down it loads everything again from time to time.

The tasks are those of the source: the initial load and the watch that follows it
(`runInitialLoad`), and one load for each time the timer fires. They run among others that write
and delete flags, break the stream and close the snapshot (`Outside`). A loop has fuel; a task
that has used it up hangs.
-/
import BeyondKv.Lib.Bytes
import BeyondKv.Sdk.Lock

namespace BeyondKv.Sdk.Snapshots

open Async Function List Option
open Std (ExtTreeMap)

/-! ## The store -/

/-- A flag is written, or deleted. -/
structure Mutation where
  name : String
  value : Option Bytes
  revision : ℕ
  deriving DecidableEq

structure Entry where
  value : Bytes
  revision : ℕ
  deriving DecidableEq

def Mutation.record (records : ExtTreeMap String Entry) (m : Mutation) : ExtTreeMap String Entry :=
  match m.value with
  | some value => records.insert m.name ⟨value, m.revision⟩
  | none => records.erase m.name

/-- What is stored under `flags:def:`. A key goes by what follows this prefix; a write to any other
key only takes up a revision. -/
structure FlagStore where
  /-- What has happened, oldest first. -/
  log : List Mutation
  /-- All revisions so far are at most this one. -/
  revision : ℕ
  requests : ℕ
  /-- Which requests fail. -/
  fails : ℕ → Option KvError
  pageSize : ℕ
  sorted : log.Pairwise fun m m' => m.revision < m'.revision
  dated : ∀ m ∈ log, 0 < m.revision ∧ m.revision ≤ revision

namespace FlagStore

def records (s : FlagStore) : ExtTreeMap String Entry := s.log.foldl Mutation.record ∅

/-- A mutation, after `skip` others that are of no concern here. -/
def mutation (s : FlagStore) (name : String) (value : Option Bytes) (skip : ℕ) : Mutation :=
  ⟨name, value, s.revision + skip + 1⟩

def mutate (s : FlagStore) (name : String) (value : Option Bytes) (skip : ℕ) : FlagStore :=
  { s with
    log := s.log ++ [s.mutation name value skip]
    revision := s.revision + skip + 1
    sorted := by
      refine pairwise_append.mpr ⟨s.sorted, pairwise_singleton _ _, fun m hm m' hm' => ?_⟩
      rw [mem_singleton.mp hm']
      exact Nat.lt_of_le_of_lt (s.dated m hm).2 (by simp only [mutation]; omega)
    dated := by
      intro m hm
      rcases mem_append.mp hm with hm | hm
      · have hold := s.dated m hm
        omega
      · rw [mem_singleton.mp hm]
        simp only [mutation]
        omega }

/-- Whether the next request fails. -/
def attempt (s : FlagStore) : Option KvError × FlagStore :=
  (s.fails s.requests, { s with requests := s.requests + 1 })

/-- A page of names after the cursor, and the next cursor if the page is full. -/
def list (s : FlagStore) (cursor : Option String) : List String × Option String :=
  let page := (s.records.keys.filter fun name => cursor.all fun c => compare c name = .lt).take
    (max s.pageSize 1)
  (page, if page.length < max s.pageSize 1 then none else page.getLast?)

end FlagStore

/-! ## Definitions of flags -/

inductive Json where
  | null
  | bool (b : Bool)
  | num (x : ℚ)
  | str (s : String)
  | arr (xs : List Json)
  | obj (fields : List (String × Json))

/-- `TextDecoder`, `JSON.parse` and `JSON.stringify`. -/
structure JsonText where
  decode : Bytes → String
  parse : String → Except String Json
  stringify : Option Json → String

inductive FlagError where
  | parse (message : String)
  | invalidState (message : String)
  deriving DecidableEq

def decodeFlagDef (J : JsonText) (value : Bytes) : Except FlagError (Option Json) :=
  let text := J.decode value
  if text.length = 0 then .ok none
  else
    match J.parse text with
    | .error message => .error (.parse message)
    | .ok (.obj fields) =>
      match fields.lookup "on" with
      | some (.bool _) => .ok (some (.obj fields))
      | got =>
        .error (.invalidState ("FlagDef.on must be a boolean (got: " ++ J.stringify got ++ ")"))
    | .ok _ => .error (.invalidState "Flag def must be a JSON object")

/-! ## The snapshot -/

/-- A definition and the bytes it was decoded from. -/
structure Slot where
  flagDef : Json
  raw : Bytes

inductive Source where
  | snapshot
  | watch
  deriving DecidableEq

inductive Failure where
  | kv (e : KvError)
  | flag (e : FlagError)
  /-- The stream of a watch. -/
  | stream
  deriving DecidableEq

structure FlagsErrorEvent where
  source : Source
  error : Failure
  name : Option String
  deriving DecidableEq

structure Snapshot where
  state : ExtTreeMap String Slot
  isReady : Bool
  lastRevision : ℕ
  pollTimer : Bool
  closed : Bool
  /-- What `onError` has been called with. -/
  errors : List FlagsErrorEvent
  /-- What `onChange` has been called with. -/
  changes : List (List String)

namespace Snapshot

def new : Snapshot := ⟨∅, false, 0, false, false, [], []⟩

def get (s : Snapshot) (name : String) : Option Json := s.state[name]?.map Slot.flagDef

def reportError (s : Snapshot) (source : Source) (error : Failure) (name : Option String) :
    Snapshot :=
  { s with errors := s.errors ++ [⟨source, error, name⟩] }

def notifyChange (s : Snapshot) (names : List String) : Snapshot :=
  if !s.isReady || names.isEmpty then s else { s with changes := s.changes ++ [names] }

/-- The highest revision that has been seen. -/
def observe (s : Snapshot) (revision : ℕ) : Snapshot :=
  if s.lastRevision < revision then { s with lastRevision := revision } else s

/-- The answer is whether anything has changed. -/
def applyValue (J : JsonText) (s : Snapshot) (flagName : String) (raw : Bytes) : Bool × Snapshot :=
  match decodeFlagDef J raw with
  | .error e => (false, s.reportError .snapshot (.flag e) (some flagName))
  | .ok none => (false, s)
  | .ok (some parsed) =>
    if s.state[flagName]?.any fun prev => prev.raw = raw then (false, s)
    else (true, { s with state := s.state.insert flagName ⟨parsed, raw⟩ })

def startPolling (s : Snapshot) : Snapshot :=
  if s.closed || s.pollTimer then s else { s with pollTimer := true }

def stopPolling (s : Snapshot) : Snapshot := { s with pollTimer := false }

end Snapshot

/-- The flags a load has seen, and those it has changed. -/
structure Tally where
  seen : List String
  changed : List String

/-- What a load makes of an entry. -/
def applyEntry (J : JsonText) (name : String) : Option Entry → Tally × Snapshot → Tally × Snapshot
  | none, x => x
  | some entry, (t, s) =>
    let r := (s.observe entry.revision).applyValue J name entry.value
    (⟨name :: t.seen, if r.1 then t.changed ++ [name] else t.changed⟩, r.2)

def applyPage (J : JsonText) (entries : List (String × Option Entry)) (x : Tally × Snapshot) :
    Tally × Snapshot :=
  entries.foldl (fun x (name, entry) => applyEntry J name entry x) x

/-- Drop what the load has not seen. -/
def Snapshot.sweep (s : Snapshot) (t : Tally) : Snapshot :=
  { s with state := s.state.filter fun name _ => t.seen.contains name }.notifyChange
    (t.changed ++ s.state.keys.filter fun name => !t.seen.contains name)

inductive WatchEvent where
  | ready
  /-- `set` or `del`. -/
  | changed (m : Mutation)
  deriving DecidableEq

def Snapshot.receive (J : JsonText) (s : Snapshot) : WatchEvent → Snapshot
  | .ready => s
  | .changed ⟨name, some value, revision⟩ =>
    let r := (s.observe revision).applyValue J name value
    if r.1 then r.2.notifyChange [name] else r.2
  | .changed ⟨name, none, revision⟩ =>
    let s' := s.observe revision
    if s'.state.contains name then { s' with state := s'.state.erase name }.notifyChange
      [name] else s'

/-! ## The watch -/

/-- What a watch begins with: without a revision what there is, else what has happened since. -/
def FlagStore.initial (s : FlagStore) (since : ℕ) : List WatchEvent :=
  let events :=
    if since = 0 then s.records.toList.map fun (name, entry) =>
      ⟨name, some entry.value, entry.revision⟩
    else s.log.filter fun m => since < m.revision
  events.map .changed ++ [.ready]

inductive Stream where
  | closed (error : Bool)
  /-- The request is on its way. -/
  | opening (since : ℕ)
  | live (pending : List WatchEvent)
  deriving DecidableEq

def Stream.isClosed : Stream → Bool
  | .closed _ => true
  | .opening _ | .live _ => false

def Stream.isLive : Stream → Bool
  | .live _ => true
  | .closed _ | .opening _ => false

def Stream.push (m : Mutation) : Stream → Stream
  | .live pending => .live (pending ++ [.changed m])
  | .closed error => .closed error
  | .opening since => .opening since

structure World where
  store : FlagStore
  snap : Snapshot
  stream : Stream

namespace World

def start (store : FlagStore) : World := ⟨store, .new, .closed false⟩

/-- A flag is written or deleted, and the stream is told. -/
def mutate (w : World) (name : String) (value : Option Bytes) (skip : ℕ) : World :=
  if value = none ∧ w.store.records[name]? = none then w
  else
    { w with
      store := w.store.mutate name value skip
      stream := w.stream.push (w.store.mutation name value skip) }

/-- A request that reads, at the moment it is served. -/
def serve {β : Type} (read : FlagStore → β) (w : World) : Except KvError β × World :=
  match w.store.attempt with
  | (none, store) => (.ok (read w.store), { w with store })
  | (some e, store) => (.error e, { w with store })

def subscribe (w : World) : World :=
  match w.stream, w.store.attempt with
  | .opening since, (none, store) => { w with store, stream := .live (w.store.initial since) }
  | .opening _, (some _, store) => { w with store, stream := .closed true }
  | _, _ => w

/-- The next event of the stream, if it is not over. -/
def next (w : World) : Option WatchEvent × World :=
  match w.stream with
  | .live (event :: pending) => (some event, { w with stream := .live pending })
  | _ => (none, w)

/-- The stream has something to tell, or is over. -/
def tells (w : World) : Bool :=
  match w.stream with
  | .live pending => !pending.isEmpty
  | .closed _ => true
  | .opening _ => false

def onSnap (f : Snapshot → Snapshot) (w : World) : World := { w with snap := f w.snap }

def close (w : World) : World :=
  if w.snap.closed then w
  else ⟨w.store, { w.snap with closed := true, pollTimer := false }, .closed false⟩

end World

/-! ## The tasks -/

inductive Mark where
  /-- A load begins, or ends. -/
  | begins
  | ends
  /-- A load fails, after it has seen these flags. -/
  | fails (seen : List String)
  /-- A load reads a definition of this revision. -/
  | reads (revision : ℕ)
  /-- The watch is opened. -/
  | opens
  /-- The stream breaks off. -/
  | breaks

abbrev Task := Prog World Mark

/-- There is no more fuel. -/
def hang {α : Type} (a : α) : Task α := do
  Prog.wait fun _ => false
  return a

def request {β : Type} (read : FlagStore → β) : Task (Except KvError β) :=
  Prog.exchange (World.serve read) fun _ => none

/-- HTTP reads a value along with its revision, RESP first the one and then the other. -/
def readEntry (name : String) : Locks.Backend → Task (Option Entry)
  | .http => do
    match ← Prog.gets fun w => w.store.records[name]? with
    | none => return none
    | some entry =>
      Prog.at_ (.reads entry.revision)
      return some entry
  | .resp => do
    let value ← Prog.gets fun w => w.store.records[name]?.map Entry.value
    Prog.yield
    match value with
    | none => return none
    | some value =>
      let revision ← Prog.gets fun w => (w.store.records[name]?.map Entry.revision).getD 0
      Prog.at_ (.reads revision)
      return some ⟨value, revision⟩

def readEntries (B : Locks.Backend) : List String → Task (List (String × Option Entry))
  | [] => return []
  | name :: names => do
    let entry ← readEntry name B
    Prog.yield
    let rest ← readEntries B names
    return (name, entry) :: rest

def batchGet (B : Locks.Backend) (names : List String) :
    Task (Except KvError (List (String × Option Entry))) := do
  match ← request fun _ => () with
  | .error e => return .error e
  | .ok () =>
    let entries ← readEntries B names
    return .ok entries

/-- Only a page with names on it is read. -/
def readPage (B : Locks.Backend) (names : List String) :
    Task (Except KvError (List (String × Option Entry))) :=
  if names.isEmpty then return .ok [] else batchGet B names

/-- The pages of a load, at most `n` of them. -/
def loadPages (J : JsonText) (B : Locks.Backend) :
    ℕ → Option String → Tally → Task (Except KvError Tally)
  | 0, _, t => hang (.ok t)
  | n + 1, cursor, t => do
    match ← request fun s => s.list cursor with
    | .error e =>
      Prog.at_ (.fails t.seen)
      return .error e
    | .ok (names, nextCursor) =>
      match ← readPage B names with
      | .error e =>
        Prog.at_ (.fails t.seen)
        return .error e
      | .ok entries =>
        let t' ← Prog.step fun w =>
          let r := applyPage J entries (t, w.snap)
          (r.1, { w with snap := r.2 })
        match nextCursor with
        | some cursor => loadPages J B n (some cursor) t'
        | none => return .ok t'

/-- A load that has begun. -/
def loadRest (J : JsonText) (B : Locks.Backend) (n : ℕ) : Task (Except KvError Unit) := do
  match ← loadPages J B n none ⟨[], []⟩ with
  | .error e => return .error e
  | .ok t =>
    Prog.modify (World.onSnap fun s => s.sweep t)
    Prog.at_ .ends
    return .ok ()

def loadAll (J : JsonText) (B : Locks.Backend) (n : ℕ) : Task (Except KvError Unit) := do
  Prog.at_ .begins
  loadRest J B n

/-- `loadAll`, with its error caught. -/
def loadReported (J : JsonText) (B : Locks.Backend) (n : ℕ) : Task Unit := do
  match ← loadAll J B n with
  | .error e => Prog.modify (World.onSnap fun s => s.reportError .snapshot (.kv e) none)
  | .ok () => pure ()

/-- The events of a stream, at most `n` of them, until it is over or the snapshot is closed. -/
def events (J : JsonText) : ℕ → Task Unit
  | 0 => hang ()
  | n + 1 => do
    Prog.wait World.tells
    match ← Prog.step World.next with
    | none => return ()
    | some event =>
      if ← Prog.gets (·.snap.closed) then return ()
      else
        Prog.modify (World.onSnap fun s => s.receive J event)
        events J n

/-- At most `n` streams, one after the other. -/
def runWatch (J : JsonText) : ℕ → Task Unit
  | 0 => hang ()
  | n + 1 => do
    if ← Prog.gets (·.snap.closed) then return ()
    else
      Prog.at_ .opens
      Prog.modify fun w => { w with stream := .opening w.snap.lastRevision }
      Prog.yield
      Prog.modify World.subscribe
      events J n
      if ← Prog.gets (·.snap.closed) then return ()
      else
        Prog.modify fun w =>
          if w.stream = .closed true then w.onSnap fun s => s.reportError .watch .stream none else w
        Prog.modify (World.onSnap Snapshot.startPolling)
        Prog.yield
        if ← Prog.gets (·.snap.closed) then return ()
        else
          Prog.modify (World.onSnap Snapshot.stopPolling)
          runWatch J n

structure Options where
  backend : Locks.Backend
  watch : Bool

def runInitialLoad (J : JsonText) (C : Options) (n : ℕ) : Task Unit := do
  loadReported J C.backend n
  Prog.modify (World.onSnap fun s => { s with isReady := true })
  if ← Prog.gets (·.snap.closed) then return ()
  else if C.watch then runWatch J n
  else Prog.modify (World.onSnap Snapshot.startPolling)

/-- What else happens. -/
inductive Outside where
  | set (name : String) (value : Bytes) (skip : ℕ)
  | delete (name : String) (skip : ℕ)
  /-- The stream breaks off, with or without an error. -/
  | disconnect (error : Bool)
  /-- The timer fires. -/
  | tick
  | close

def Outside.task (J : JsonText) (B : Locks.Backend) (n : ℕ) : Outside → Task Unit
  | .set name value skip => Prog.modify fun w => w.mutate name (some value) skip
  | .delete name skip => Prog.modify fun w => w.mutate name none skip
  | .disconnect error => do
    Prog.wait fun w => w.stream.isLive
    Prog.at_ .breaks
    Prog.modify fun w => { w with stream := .closed error }
  | .tick => do
    Prog.wait fun w => w.snap.pollTimer
    loadReported J B n
  | .close => Prog.modify World.close

def tasks (J : JsonText) (C : Options) (n : ℕ) (env : List Outside) : List (Task Unit) :=
  runInitialLoad J C n :: env.map (Outside.task J C.backend n)

/-! ## What is asked of the steps -/

/-- The loads under way. -/
structure Flight where
  loads : ℕ
  /-- The revision of the store when the first of them began. -/
  horizon : ℕ
  deriving DecidableEq

def Flight.note : Mark → World → Flight → Flight
  | .begins, w, g => ⟨g.loads + 1, if g.loads = 0 then w.store.revision else g.horizon⟩
  | .ends, _, g | .fails _, _, g => { g with loads := g.loads - 1 }
  | .reads _, _, g | .opens, _, g | .breaks, _, g => g

def WatchEvent.After (revision : ℕ) : WatchEvent → Prop
  | .ready => True
  | .changed m => revision < m.revision

/-- The stream has nothing left that would not be told again from this revision on. -/
def Stream.Tellable (revision : ℕ) : Stream → Prop
  | .live pending => ∀ e ∈ pending, e.After revision
  | .closed _ | .opening _ => True

def Mark.Careful (g : Flight) (w : World) : Mark → Prop
  | .reads revision => 0 < revision ∧ revision ≤ g.horizon
  | .fails seen => seen = []
  | .opens => g.loads = 0
  | .breaks => w.stream.Tellable w.snap.lastRevision
  | .begins | .ends => True

/-- The runs whose steps are all careful. -/
def careful : Discipline World Mark Flight := ⟨Flight.note, fun l g w => l.Careful g w⟩

/-! ## What has been told -/

/-- The bytes of each flag. -/
def FlagStore.raws (s : FlagStore) (name : String) : Option Bytes :=
  s.records[name]?.map Entry.value

def Snapshot.raws (s : Snapshot) (name : String) : Option Bytes := s.state[name]?.map Slot.raw

def tell (told : String → Option Bytes) : WatchEvent → String → Option Bytes
  | .ready => told
  | .changed m => Function.update told m.name m.value

/-- What one knows after these events. -/
def replay (told : String → Option Bytes) (events : List WatchEvent) : String → Option Bytes :=
  events.foldl tell told

/-- A flag has not changed since the revision `r`. -/
def FlagStore.Settled (s : FlagStore) (r : ℕ) (name : String) : Prop := ∀ m ∈ s.log, m.name = name →
    m.revision ≤ r

section replay
variable {told : String → Option Bytes} {events : List WatchEvent} {name : String}

theorem replay_concat (e : WatchEvent) :
    replay told (events ++ [e]) = tell (replay told events) e := by
  simp [replay, foldl_append]

theorem replay_untold (h : ∀ m, .changed m ∈ events → m.name ≠ name) :
    replay told events name = told name := by
  induction events generalizing told with
  | nil => rfl
  | cons e events ih =>
    refine (ih fun m hm => h m (mem_cons_of_mem _ hm)).trans ?_
    cases e with
    | ready => rfl
    | changed m => exact update_of_ne (h m mem_cons_self).symm _ _

/-- All events agree on a flag. -/
theorem replay_agreed {value : Option Bytes}
    (hall : ∀ m, .changed m ∈ events → m.name = name → m.value = value)
    (h : told name = value ∨ ∃ m, .changed m ∈ events ∧ m.name = name) :
    replay told events name = value := by
  induction events generalizing told with
  | nil =>
    rcases h with h | ⟨m, hm, -⟩
    · exact h
    · cases hm
  | cons e events ih =>
    refine ih (fun m hm => hall m (mem_cons_of_mem _ hm)) ?_
    cases e with
    | ready =>
      refine h.imp_right fun ⟨m, hm, hname⟩ => ⟨m, ?_, hname⟩
      exact (mem_cons.mp hm).resolve_left nofun
    | changed m =>
      by_cases hname : m.name = name
      · left
        rw [tell, hname, update_self]
        exact hall m mem_cons_self hname
      · refine h.imp (fun h => ?_) fun ⟨m', hm', hname'⟩ => ⟨m', ?_, hname'⟩
        · rw [tell, update_of_ne (Ne.symm hname)]
          exact h
        · refine (mem_cons.mp hm').resolve_left fun heq => hname ?_
          rw [← WatchEvent.changed.inj heq]
          exact hname'

/-- Whoever knows what has not changed since a revision, and is told all that has, knows
everything. -/
theorem replay_since {log : List Mutation}
    (hsorted : log.Pairwise fun m m' => m.revision < m'.revision) (r : ℕ)
    (h : (∀ m ∈ log, m.name = name → m.revision ≤ r) →
      told name = replay (fun _ => none) (log.map .changed) name) :
    replay told ((log.filter fun m => r < m.revision).map .changed) name
      = replay (fun _ => none) (log.map .changed) name := by
  -- From the end of the log: the last mutation of the flag decides, if it is told.
  induction log using List.reverseRecOn with
  | nil => exact h nofun
  | append_singleton log m ih =>
    obtain ⟨hlog, -, hlast⟩ := pairwise_append.mp hsorted
    rw [map_append] at h ⊢
    simp only [map_singleton, replay_concat, tell] at h ⊢
    by_cases hnew : r < m.revision
    · rw [filter_append, filter_cons_of_pos (by simpa using hnew), filter_nil, map_append,
        map_singleton, replay_concat, tell]
      by_cases hname : m.name = name
      · rw [hname, update_self, update_self]
      · rw [update_of_ne (Ne.symm hname), update_of_ne (Ne.symm hname)]
        refine ih hlog fun hsettled => ?_
        rw [update_of_ne (Ne.symm hname)] at h
        refine h fun m' hm' hname' => ?_
        rcases mem_append.mp hm' with hm' | hm'
        · exact hsettled m' hm' hname'
        · exact absurd (mem_singleton.mp hm' ▸ hname') hname
    · have hold : ∀ m' ∈ log ++ [m], m'.revision ≤ r := by
        intro m' hm'
        rcases mem_append.mp hm' with hm' | hm'
        · exact (hlast m' hm' m (mem_singleton_self m)).le.trans (Nat.not_lt.mp hnew)
        · exact mem_singleton.mp hm' ▸ Nat.not_lt.mp hnew
      have hnone : (log ++ [m]).filter (fun m => r < m.revision) = [] :=
        filter_eq_nil_iff.mpr fun m' hm' => by simpa using hold m' hm'
      rw [hnone]
      exact h fun m' hm' _ => hold m' hm'

end replay

namespace FlagStore
variable {s : FlagStore} {name : String}

theorem records_concat (log : List Mutation) (m : Mutation) :
    (log ++ [m]).foldl Mutation.record ∅ = m.record (log.foldl Mutation.record ∅) := by
  rw [foldl_append, foldl_cons, foldl_nil]

theorem record_raws (records : ExtTreeMap String Entry) (m : Mutation) :
    (fun name => (m.record records)[name]?.map Entry.value)
      = Function.update (fun name => records[name]?.map Entry.value) m.name m.value := by
  funext name
  obtain ⟨name', value, revision⟩ := m
  by_cases hname : name' = name
  · subst hname
    cases value <;> simp [Mutation.record]
  · rw [update_of_ne (Ne.symm hname)]
    cases value <;> simp [Mutation.record, ExtTreeMap.getElem?_insert,
      ExtTreeMap.getElem?_erase, hname]

theorem raws_eq_replay (s : FlagStore) : s.raws = replay (fun _ => none) (s.log.map .changed) := by
  unfold raws records
  induction s.log using List.reverseRecOn with
  | nil =>
    funext name
    simp [replay]
  | append_singleton log m ih =>
    rw [records_concat, record_raws, ih, map_append, map_singleton, replay_concat, tell]

theorem raws_mutate (s : FlagStore) (name : String) (value : Option Bytes) (skip : ℕ) :
    (s.mutate name value skip).raws = Function.update s.raws name value := by
  rw [raws_eq_replay, raws_eq_replay, mutate, map_append, map_singleton, replay_concat]
  rfl

theorem mem_log_of_records {entry : Entry} (h : s.records[name]? = some entry) :
    ⟨name, some entry.value, entry.revision⟩ ∈ s.log := by
  unfold records at h
  generalize s.log = log at h
  induction log using List.reverseRecOn with
  | nil => simp at h
  | append_singleton log m ih =>
    rw [records_concat] at h
    by_cases hname : m.name = name
    · obtain ⟨name', value, revision⟩ := m
      subst hname
      refine mem_append_right _ (mem_singleton.mpr ?_)
      cases value with
      | none => simp [Mutation.record] at h
      | some value =>
        simp only [Mutation.record, ExtTreeMap.getElem?_insert_self, Option.some.injEq] at h
        rw [← h]
    · refine mem_append_left _ (ih ?_)
      rw [← h, Mutation.record]
      cases m.value <;> simp [ExtTreeMap.getElem?_insert, ExtTreeMap.getElem?_erase, hname]

theorem raws_eq_none (h : s.Settled 0 name) : s.raws name = none := by
  cases hentry : s.records[name]? with
  | none => rw [raws, hentry, map_none]
  | some entry =>
    have hmem := mem_log_of_records hentry
    exact absurd (h _ hmem rfl) (Nat.not_le.mpr (s.dated _ hmem).1)

theorem Settled.of_mutate {r : ℕ} {name' : String} {value : Option Bytes} {skip : ℕ}
    (hr : r ≤ s.revision)
    (h : (s.mutate name' value skip).Settled r name) : name ≠ name' ∧ s.Settled r name := by
  refine ⟨fun hname => ?_, fun m hm => h m (mem_append_left _ hm)⟩
  have hnew :=
    h (s.mutation name' value skip) (mem_append_right _ (mem_singleton_self _)) hname.symm
  simp only [mutation] at hnew
  omega

/-- What a watch begins with makes up for what has changed since. -/
theorem replay_initial {told : String → Option Bytes} {since : ℕ}
    (hfresh : since = 0 → ∀ name, told name = none)
    (h : ∀ name, s.Settled since name → told name = s.raws name) :
    replay told (s.initial since) = s.raws := by
  funext name
  rw [initial, replay_concat, tell]
  by_cases hsince : since = 0
  · rw [if_pos hsince]
    refine replay_agreed (fun m hm hname => ?_) ?_
    · obtain ⟨m', hm', heq⟩ := List.mem_map.mp hm
      obtain ⟨⟨name', entry⟩, hentry, rfl⟩ := List.mem_map.mp hm'
      cases heq
      change name' = name at hname
      rw [raws, ← hname, ExtTreeMap.mem_toList_iff_getElem?_eq_some.mp hentry]
      rfl
    · cases hentry : s.records[name]? with
      | none =>
        left
        rw [hfresh hsince name, raws, hentry, map_none]
      | some entry =>
        refine .inr
          ⟨⟨name, some entry.value, entry.revision⟩, List.mem_map_of_mem (List.mem_map.mpr ?_), rfl⟩
        exact ⟨(name, entry), ExtTreeMap.mem_toList_iff_getElem?_eq_some.mpr hentry, rfl⟩
  · rw [if_neg hsince, raws_eq_replay]
    refine replay_since s.sorted since fun hsettled => ?_
    rw [← raws_eq_replay]
    exact h name hsettled

theorem mem_log_of_initial {since : ℕ} {m : Mutation} (h : .changed m ∈ s.initial since) :
    m ∈ s.log := by
  rcases mem_append.mp h with h | h
  · obtain ⟨m', hm', heq⟩ := List.mem_map.mp h
    cases heq
    by_cases hsince : since = 0
    · rw [if_pos hsince] at hm'
      obtain ⟨⟨name, entry⟩, hentry, rfl⟩ := List.mem_map.mp hm'
      exact mem_log_of_records (ExtTreeMap.mem_toList_iff_getElem?_eq_some.mp hentry)
    · rw [if_neg hsince] at hm'
      exact mem_of_mem_filter hm'
  · cases mem_singleton.mp h

/-- The flags up to a cursor. -/
def reached (cursor : Option String) : Set String := { name | ∃ c ∈ cursor, compare c name ≠ .lt }

/-- The flags that a page takes a load past. -/
def passing : Option String → Set String
  | none => Set.univ
  | some c => reached (some c)

/-- A page leaves no flag out. -/
theorem mem_list {cursor : Option String} (hname : s.raws name ≠ none)
    (hpassed : name ∈ passing (s.list cursor).2) :
    name ∈ reached cursor ∨ name ∈ (s.list cursor).1 := by
  unfold list at hpassed ⊢
  generalize hrest : (s.records.keys.filter fun name => cursor.all fun c => compare c name = .lt)
    = rest at hpassed ⊢
  by_cases hreached : name ∈ reached cursor
  · exact .inl hreached
  have hmem : name ∈ rest := by
    rw [← hrest, mem_filter, ExtTreeMap.mem_keys, ExtTreeMap.mem_iff_isSome_getElem?]
    refine ⟨?_, ?_⟩
    · unfold raws at hname
      rw [isSome_iff_ne_none]
      exact fun hnone => hname (by rw [hnone, map_none])
    · cases cursor with
      | none => rfl
      | some c =>
        have hc : compare c name = .lt := by
          by_contra hge
          exact hreached ⟨c, rfl, hge⟩
        simpa using hc
  refine .inr ?_
  rw [← take_append_drop (max s.pageSize 1) rest] at hmem
  refine (mem_append.mp hmem).resolve_right fun hdrop => ?_
  -- What is not on the page comes after its last name.
  have hsorted : rest.Pairwise fun a b => compare a b = .lt :=
    hrest ▸ ExtTreeMap.ordered_keys.filter _
  rw [← take_append_drop (max s.pageSize 1) rest] at hsorted
  have hafter := (pairwise_append.mp hsorted).2.2
  have hlen : max s.pageSize 1 < rest.length := by
    by_contra hle
    rw [drop_eq_nil_of_le (Nat.not_lt.mp hle)] at hdrop
    cases hdrop
  have hfull : ¬ (rest.take (max s.pageSize 1)).length < max s.pageSize 1 := by
    rw [length_take]
    omega
  simp only [if_neg hfull] at hpassed
  cases hlast : (rest.take (max s.pageSize 1)).getLast? with
  | none =>
    rw [getLast?_eq_none_iff] at hlast
    rw [hlast] at hfull
    simp at hfull
  | some c =>
    rw [hlast] at hpassed
    obtain ⟨c', hc', hge⟩ := hpassed
    cases hc'
    exact hge (hafter c (mem_of_getLast? hlast) name hdrop)

end FlagStore

/-! ## What becomes of a snapshot -/

def Valid (J : JsonText) (raw : Bytes) : Prop := ∃ flagDef, decodeFlagDef J raw = .ok (some flagDef)

def Mutation.Valid (J : JsonText) (m : Mutation) : Prop := ∀ raw, m.value = some raw →
    Snapshots.Valid J raw

def WatchEvent.revision : WatchEvent → ℕ
  | .ready => 0
  | .changed m => m.revision

namespace Snapshot
variable {J : JsonText} {s s' : Snapshot} {raws : String → Option Bytes} {revision : ℕ}
  {name : String}

/-- Every definition is what its bytes say. -/
def Sound (J : JsonText) (s : Snapshot) : Prop :=
  ∀ (name : String) (slot : Slot), s.state[name]? = some slot →
    decodeFlagDef J slot.raw = .ok (some slot.flagDef)

theorem Sound.get (h : s.Sound J) (name : String) :
    s.get name = (s.raws name).bind fun raw => (decodeFlagDef J raw).toOption.join := by
  rw [Snapshot.get, Snapshot.raws]
  cases hslot : s.state[name]? with
  | none => rfl
  | some slot =>
    simp only [map_some, bind_some, h name slot hslot]
    rfl

/-- The flags of `s'` are these, its revision is this one, and all else that matters is as in `s`.
-/
structure Becomes (J : JsonText) (s s' : Snapshot) (raws : String → Option Bytes) (revision : ℕ) :
    Prop where
  raws : s'.raws = raws
  revision : s'.lastRevision = revision
  pollTimer : s'.pollTimer = s.pollTimer
  closed : s'.closed = s.closed
  sound : s.Sound J → s'.Sound J

theorem Becomes.notifyChange (h : Becomes J s s' raws revision) (names : List String) :
    Becomes J s (s'.notifyChange names) raws revision := by
  unfold Snapshot.notifyChange
  split
  · exact h
  · exact ⟨h.raws, h.revision, h.pollTimer, h.closed, h.sound⟩

theorem closed_applyValue (s : Snapshot) (name : String) (raw : Bytes) :
    (s.applyValue J name raw).2.closed = s.closed := by
  unfold applyValue
  split
  · rfl
  · rfl
  · split <;> rfl

theorem Becomes.trans {s'' : Snapshot} {raws' : String → Option Bytes} {revision' : ℕ}
    (h : Becomes J s s' raws revision) (h' : Becomes J s' s'' raws' revision') :
    Becomes J s s'' raws' revision' :=
  ⟨h'.raws, h'.revision, h'.pollTimer.trans h.pollTimer, h'.closed.trans h.closed,
    fun hs => h'.sound (h.sound hs)⟩

theorem Becomes.congr {raws' : String → Option Bytes} {revision' : ℕ}
    (h : Becomes J s s' raws revision)
    (hraws : raws = raws') (hrevision : revision = revision') : Becomes J s s' raws' revision' :=
    hraws ▸ hrevision ▸ h

theorem becomes_observe (s : Snapshot) (r : ℕ) :
    Becomes J s (s.observe r) s.raws (max s.lastRevision r) := by
  unfold observe
  split
  case isTrue h => exact ⟨rfl, (max_eq_right h.le).symm, rfl, rfl, id⟩
  case isFalse h => exact ⟨rfl, (max_eq_left (Nat.not_lt.mp h)).symm, rfl, rfl, id⟩

theorem becomes_insert {slot : Slot} (hslot : decodeFlagDef J slot.raw = .ok (some slot.flagDef)) :
    Becomes J s { s with state := s.state.insert name slot }
      (Function.update s.raws name (some slot.raw))
      s.lastRevision := by
  refine ⟨?_, rfl, rfl, rfl, fun hs name' slot' h => ?_⟩
  · funext name'
    by_cases hname : name = name'
    · subst hname
      simp [Snapshot.raws]
    · simp [Snapshot.raws, ExtTreeMap.getElem?_insert, hname, update_of_ne (Ne.symm hname)]
  · by_cases hname : name = name'
    · subst hname
      rw [ExtTreeMap.getElem?_insert_self] at h
      exact Option.some.inj h ▸ hslot
    · rw [ExtTreeMap.getElem?_insert, if_neg (by simpa using hname)] at h
      exact hs name' slot' h

theorem becomes_erase (s : Snapshot) (name : String) :
    Becomes J s { s with state := s.state.erase name } (Function.update s.raws name none)
        s.lastRevision := by
  refine ⟨?_, rfl, rfl, rfl, fun hs name' slot' h => ?_⟩
  · funext name'
    by_cases hname : name = name'
    · subst hname
      simp [Snapshot.raws]
    · simp [Snapshot.raws, ExtTreeMap.getElem?_erase, hname, update_of_ne (Ne.symm hname)]
  · by_cases hname : name = name'
    · subst hname
      simp at h
    · rw [ExtTreeMap.getElem?_erase, if_neg (by simpa using hname)] at h
      exact hs name' slot' h

theorem becomes_applyValue (name : String) {raw : Bytes} (hvalid : Valid J raw) :
    Becomes J s (s.applyValue J name raw).2 (Function.update s.raws name (some raw))
        s.lastRevision := by
  obtain ⟨flagDef, hdef⟩ := hvalid
  unfold applyValue
  rw [hdef]
  dsimp only
  split
  case isTrue h =>
    -- The same bytes are there already.
    have hsame : s.raws name = some raw := by
      cases hslot : s.state[name]? with
      | none => simp [hslot] at h
      | some slot =>
        rw [hslot] at h
        rw [Snapshot.raws, hslot, map_some, of_decide_eq_true h]
    exact ⟨by rw [← hsame, update_eq_self], rfl, rfl, rfl, id⟩
  case isFalse h => exact becomes_insert hdef

theorem becomes_observed (name : String) {raw : Bytes} (hvalid : Valid J raw) (r : ℕ) :
    Becomes J s ((s.observe r).applyValue J name raw).2 (Function.update s.raws name (some raw))
        (max s.lastRevision r) := by
  have hseen := becomes_observe (J := J) s r
  exact (hseen.trans (becomes_applyValue name hvalid)).congr (by rw [hseen.raws]) hseen.revision

theorem becomes_receive {e : WatchEvent} (hvalid : ∀ m, e = .changed m → m.Valid J) :
    Becomes J s (s.receive J e) (tell s.raws e) (max s.lastRevision e.revision) := by
  match e with
  | .ready => exact ⟨rfl, (max_eq_left (Nat.zero_le _)).symm, rfl, rfl, id⟩
  | .changed ⟨name, some raw, r⟩ =>
    have happly := becomes_observed (s := s) name (hvalid _ rfl raw rfl) r
    unfold receive
    dsimp only
    split
    · exact happly.notifyChange _
    · exact happly
  | .changed ⟨name, none, r⟩ =>
    have hseen := becomes_observe (J := J) s r
    unfold receive
    dsimp only
    split
    · have herase := (hseen.trans (becomes_erase _ name)).congr (by rw [hseen.raws]) hseen.revision
      exact herase.notifyChange _
    case isFalse h =>
      have hnone : s.raws name = none := by
        rw [← hseen.raws, Snapshot.raws, ExtTreeMap.getElem?_eq_none (by simpa using h), map_none]
      refine ⟨?_, hseen.revision, hseen.pollTimer, hseen.closed, hseen.sound⟩
      rw [hseen.raws, tell, ← hnone, update_eq_self]

theorem becomes_sweep (s : Snapshot) (t : Tally) :
    Becomes J s (s.sweep t) (fun name => if name ∈ t.seen then s.raws name else none)
        s.lastRevision := by
  have hfilter : Becomes J s { s with state := s.state.filter fun name _ => t.seen.contains name }
      (fun name => if name ∈ t.seen then s.raws name else none) s.lastRevision := by
    refine ⟨funext fun name => ?_, rfl, rfl, rfl, fun hs name slot h => ?_⟩
    · by_cases hseen : name ∈ t.seen
      · cases hslot : s.state[name]? <;> simp [Snapshot.raws, hseen, hslot]
      · simp [Snapshot.raws, hseen]
    · rw [ExtTreeMap.getElem?_filter'] at h
      exact hs name slot (filter_eq_some_iff.mp h).1
  exact hfilter.notifyChange _

end Snapshot

end BeyondKv.Sdk.Snapshots
