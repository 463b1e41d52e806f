/-
# The state of an open namespace and its I/O

`NsState` is a `NamespaceLog` together with what it runs on: the directory, the
clock, and the fate of I/O requests. Code is an `Async.Prog` over it.

An I/O request passes through the ring twice: it waits to be taken by the kernel,
and its completion waits to be reaped. Both are suspension points, so other tasks
may run before and after the effect; nothing orders two requests in the ring.
A request may fail for reasons outside the program (`fault`), and a write past
the largest file size fails too.
-/
import BeyondKv.ActiveFile
import BeyondKv.Lib.Async

namespace BeyondKv

open Std (ExtTreeMap)
open Async (Prog)

/-- Tunables of a namespace. -/
structure LogConfig where
  rotateThreshold : Nat
  fanout : Nat
  valueSepThreshold : Nat

/-- `LogConfig::default`. -/
def LogConfig.default : LogConfig :=
  { rotateThreshold := 2 ^ 30, fanout := 8, valueSepThreshold := 128 * 1024 }

/-- The mutable cells of a `LogFile`. -/
structure FileCell where
  writeOffset : Nat
  poisoned : Bool

/-- A write that has been submitted and not yet reaped. -/
structure PendingWrite where
  req : Nat
  ino : Nat
  offset : Nat
  data : Bytes
  /-- The kernel has performed it. -/
  taken : Bool

structure NsState where
  -- the environment
  /-- The wall clock at its `n`th reading. -/
  clock : Nat → UInt64
  /-- How often it has been read. -/
  readings : Nat
  /-- The fate of the `n`th request: on `some m` it fails, a write after `m` bytes. -/
  fault : Nat → Option Nat
  tick : Nat
  disk : Disk
  ring : List PendingWrite
  -- the log
  config : LogConfig
  index : NsIndex
  sealed : ExtTreeMap Nat LogFile
  level : ExtTreeMap Nat Nat
  active : LogFile
  /-- The cells of the open files, by inode. -/
  cells : Nat → FileCell
  unsyncedBytes : Nat
  lastTstamp : UInt64
  reclaimInProgress : Bool
  rotateInProgress : Bool
  frozen : Bool
  inFlightWrites : Nat
  /-- Which of the 64 write stripes are locked. -/
  writeStripes : Nat → Bool
  -- the blob store
  refs : ExtTreeMap ContentHash Nat
  pendingDelete : List ContentHash
  /-- Which of the 16 blob stripes are locked. -/
  fileLocks : Nat → Bool

/-- What a task may hold or wait for. -/
inductive Resource where
  /-- The flag that a reclaim or a flush has set. -/
  | reclaim
  /-- A place among the writes in flight. -/
  | inFlight
  | stripe (i : Nat)
  | blob (i : Nat)
  /-- The run of `reclaim_inner` or `flush_inner`; nobody waits for it. -/
  | inner
  deriving DecidableEq

/-- A change of the index that others can see. -/
inductive Effect where
  | put (key value metadata : Bytes) (expiresAtMs : Option UInt64) (rev : UInt64)
  | del (key : Bytes)
  | ttl (key : Bytes) (expiresAtMs : Option UInt64)
  | clear
  deriving DecidableEq

/-- Points of the code that results talk about. -/
inductive Point where
  /-- A write is about to reserve its record's place in the active file. -/
  | reserve
  /-- A rotation is about to take the index snapshot for its footer. -/
  | snapshot
  /-- The kernel takes a write of `len` bytes at `offset`. -/
  | write (offset len : Nat)
  /-- A reader is about to open the blob with this hash. -/
  | readBlob (h : ContentHash)
  /-- An append of these bytes at `offset` has returned. -/
  | acked (offset : Nat) (data : Bytes)
  /-- The kernel takes an fsync of an inode; the number tells requests apart. -/
  | fsync (req ino : Nat)
  /-- The fsync `req` has completed. -/
  | fsynced (req : Nat)
  /-- An append has been added to `unsynced_bytes`. -/
  | counted (ino offset len : Nat)
  /-- `unsynced_bytes` is about to be set to zero, on the strength of an fsync if any. -/
  | reset (req : Option Nat)
  /-- The task starts to wait for a resource. -/
  | wants (r : Resource)
  /-- The wait is over, and the task does not hold the resource. -/
  | passes (r : Resource)
  | holds (r : Resource)
  | drops (r : Resource)
  /-- The call takes effect. -/
  | effect (es : List Effect)
  deriving DecidableEq

/-- A synchronous or asynchronous function that cannot fail. -/
abbrev Task := Prog NsState Point

/-- A function that returns a `Result`. -/
abbrev Act := ExceptT EngineError Task

/-! ## The clock -/

/-- `now_ms()`. -/
def nowMs : Task UInt64 :=
  Prog.step fun s => (s.clock s.readings, { s with readings := s.readings + 1 })

/-! ## I/O requests -/

/-- The largest offset a file can be written to. -/
def maxFileSize : Nat := 2 ^ 63 - 1

/-- The kernel performs a request, or the request fails. -/
def perform {α : Type} (op : Disk → Except IoError α × Disk) (s : NsState) :
    Except IoError α × NsState :=
  let s₁ := { s with tick := s.tick + 1 }
  match s.fault s.tick with
  | some _ => (.error (.other "fault"), s₁)
  | none =>
    let (r, d) := op s.disk
    (r, { s₁ with disk := d })

/-- Submit a request and wait for its completion. -/
def io {α : Type} (op : Disk → Except IoError α × Disk) : Task (Except IoError α) := do
  Prog.yield
  let r ← Prog.step (perform op)
  Prog.yield
  return r

/-- Mark a pending write as performed. -/
def takePending (req : Nat) (ring : List PendingWrite) : List PendingWrite :=
  ring.map fun w => if w.req = req then { w with taken := true } else w

/-- Drop a pending write. -/
def reapPending (req : Nat) (ring : List PendingWrite) : List PendingWrite :=
  ring.filter fun w => w.req ≠ req

/-- The kernel performs the write `req`. -/
def performWrite (req ino offset : Nat) (data : Bytes) (s : NsState) :
    Except IoError Unit × NsState :=
  let s₁ := { s with tick := s.tick + 1, ring := takePending req s.ring }
  match s.fault s.tick with
  | some n =>
    (.error (.other "fault"), { s₁ with disk := s.disk.writeAt ino offset (data.take n) })
  | none =>
    if offset + data.length > maxFileSize then
      (.error (.other "file too large"), s₁)
    else (.ok (), { s₁ with disk := s.disk.writeAt ino offset data })

/-- Put a write into the ring. -/
def submitWrite (ino offset : Nat) (data : Bytes) (s : NsState) : Nat × NsState :=
  (s.tick, { s with tick := s.tick + 1, ring := ⟨s.tick, ino, offset, data, false⟩ :: s.ring })

/-- The completion of the write `req` has been seen. -/
def reapWrite (req : Nat) (s : NsState) : NsState := { s with ring := reapPending req s.ring }

/-- `write_all_at` on an open file. -/
def writeAllAt (ino offset : Nat) (data : Bytes) : Task (Except IoError Unit) := do
  let req ← Prog.step (submitWrite ino offset data)
  Prog.yield
  Prog.at_ (.write offset data.length)
  let r ← Prog.step (performWrite req ino offset data)
  Prog.yield
  Prog.modify (reapWrite req)
  return r

/-- The result of an I/O request as the engine's `Result`. -/
def ioAct {α : Type} (p : Task (Except IoError α)) : Act α := ExceptT.mk do
  match ← p with
  | .ok a => return .ok a
  | .error e => return .error (.io e)

/-- Run something that cannot fail inside a `Result` function. -/
def lift {α : Type} (p : Task α) : Act α := ExceptT.lift p

/-- `sync_dir`: errors are ignored. -/
def syncDir : Task Unit := do
  let _ ← io fun d => (Except.ok (), d)
  return ()

/-! ## Log files -/

namespace LogFile

/-- Fresh cells for a file just opened. -/
def setCell (ino : Nat) (c : FileCell) (s : NsState) : NsState :=
  { s with cells := Function.update s.cells ino c }

/-- `metadata().len()` of an open file. -/
def size (ino : Nat) : Act Nat := ioAct (io fun d => (.ok (d.inodes ino).length, d))

/-- The `LogFile` around a freshly opened inode. -/
def wrap (fileId ino : Nat) : Act LogFile := do
  let len ← size ino
  lift (Prog.modify (setCell ino ⟨len, false⟩))
  return ⟨fileId, ino⟩

/-- `open_rw` on `data-<id>.log`. -/
def openRw (fileId : Nat) : Act LogFile := do
  let ino ← ioAct (io fun d => let (ino, d) := d.openCreateData fileId; (.ok ino, d))
  wrap fileId ino

/-- `open_rw` on `data-<id>.log.tmp`. -/
def openRwTmp (fileId : Nat) : Act LogFile := do
  let ino ← ioAct (io fun d => let (ino, d) := d.openCreateTmp fileId; (.ok ino, d))
  wrap fileId ino

/-- `open_ro` on `data-<id>.log`. -/
def openRo (fileId : Nat) : Act LogFile := do
  let ino ← ioAct (io fun d =>
    match d.data[fileId]? with
    | some ino => (.ok ino, d)
    | none => (.error .notFound, d))
  wrap fileId ino

def writeOffset (f : LogFile) (s : NsState) : Nat := (s.cells f.ino).writeOffset

/-- Reserve `len` bytes at the end of the file. -/
def reserve (f : LogFile) (len : Nat) (s : NsState) : Nat × NsState :=
  let c := s.cells f.ino
  (c.writeOffset, setCell f.ino { c with writeOffset := c.writeOffset + len } s)

def poison (f : LogFile) (s : NsState) : NsState :=
  setCell f.ino { s.cells f.ino with poisoned := true } s

/-- `append`: the offset is reserved before the write is awaited. -/
def append (f : LogFile) (buf : Bytes) : Act Nat := do
  if ← lift (Prog.gets fun s => (s.cells f.ino).poisoned) then
    throw (.io (.other "log file poisoned after prior write error"))
  let offset ← lift (Prog.step (reserve f buf.length))
  match ← lift (writeAllAt f.ino offset buf) with
  | .error e =>
    lift (Prog.modify (poison f))
    throw (.io e)
  | .ok _ => return offset

/-- `sync`; the number of the request is returned for the marks. -/
def sync (f : LogFile) : Act Nat := ioAct do
  Prog.yield
  let req ← Prog.gets NsState.tick
  Prog.at_ (.fsync req f.ino)
  match ← Prog.step (perform fun d => (.ok req, d)) with
  | .ok req => do
    Prog.yield
    Prog.at_ (.fsynced req)
    return .ok req
  | .error e => do
    Prog.yield
    return .error e

/-- `read_exact`: all of it or `UnexpectedEof`. -/
def readExact (f : LogFile) (offset size : Nat) : Act Bytes :=
  ioAct (io fun d =>
    let b := Bytes.slice (d.inodes f.ino) offset size
    if b.length < size then (.error .unexpectedEof, d) else (.ok b, d))

/-- `truncate_to`: synchronous. -/
def truncateTo (f : LogFile) (size : Nat) : Task Unit :=
  Prog.modify fun s =>
    setCell f.ino { s.cells f.ino with writeOffset := size }
      { s with disk := s.disk.setLen f.ino size }

/-- `write_footer`: body, trailer, fsync. -/
def writeFooter (P : Prims) (f : LogFile) (entries : List FooterEntry) : Act Nat := do
  let body := footerBody entries
  let trailer := footerTrailer P body
  let _ ← f.append body
  let _ ← f.append trailer
  f.sync

end LogFile

/-! ## Locks and guards -/

/-- Acquire the lock selected by `locked`: at once if it is free, else when it becomes so. -/
def acquire (r : Resource) (locked : NsState → Bool) (lock : NsState → NsState) : Task Unit := do
  if ← Prog.gets locked then
    Prog.at_ (.wants r)
    Prog.wait fun s => !locked s
  Prog.modify lock
  Prog.at_ (.holds r)

/-- Mark the resources as dropped. -/
def dropAll : List Resource → Task Unit
  | [] => return ()
  | r :: rs => do Prog.at_ (.drops r); dropAll rs

/-- A guard of `rs` held across `body` and dropped on every exit. -/
def guarded {α : Type} (rs : List Resource) (release : NsState → NsState) (body : Act α) : Act α :=
  ExceptT.mk do
    let r ← body.run
    Prog.modify release
    dropAll rs
    return r

end BeyondKv
