/-
# The blob store of a namespace

Large values live in `values/`, one file per content hash, reference-counted in
memory. A blob whose last reference goes is queued and unlinked by
`collectGarbage`, which runs after an fsync. Writes and unlinks of one blob
exclude each other through a striped lock; readers take no lock and find the
blob by name.
-/
import BeyondKv.Runtime

namespace BeyondKv

open Async (Prog)

namespace ValueStore

/-- The file-op stripe of a content hash. -/
def flockIdx (h : ContentHash) : Nat := (h.get 0).toNat % 16

def setFileLock (h : ContentHash) (locked : Bool) (s : NsState) : NsState :=
  { s with fileLocks := Function.update s.fileLocks (flockIdx h) locked }

def lockFile (h : ContentHash) : Task Unit :=
  acquire (.blob (flockIdx h)) (fun s => s.fileLocks (flockIdx h)) (setFileLock h true)

def unlockFile (h : ContentHash) : NsState → NsState := setFileLock h false

def refcount (s : NsState) (h : ContentHash) : Nat := s.refs.getD h 0

/-- Take a reference; true if it is the first. -/
def takeRef (h : ContentHash) (s : NsState) : Bool × NsState :=
  let c := refcount s h + 1
  (c = 1, { s with refs := s.refs.insert h c })

def incrRef (h : ContentHash) (s : NsState) : NsState := (takeRef h s).2

/-- `dec`: drop a reference; true if it was the last. -/
def dec (h : ContentHash) (s : NsState) : Bool × NsState :=
  match s.refs[h]? with
  | some c =>
    let c := c - 1
    if c = 0 then (true, { s with refs := s.refs.erase h })
    else (false, { s with refs := s.refs.insert h c })
  | none => (false, s)

/-- `unref`: a blob that lost its last reference waits for the collector. -/
def unref (h : ContentHash) (s : NsState) : NsState :=
  let (dead, s) := dec h s
  if dead then { s with pendingDelete := s.pendingDelete ++ [h] } else s

/-- Drop a reference if there is one to drop. -/
def unref? (h : Option ContentHash) (s : NsState) : NsState :=
  match h with
  | some h => unref h s
  | none => s

/-- `open` with `create` and `truncate` on the blob's path. -/
def openBlob (h : ContentHash) (d : Disk) : Except IoError Nat × Disk :=
  if d.valuesDir then
    match d.blobs[h]? with
    | some ino => (.ok ino, d.setBytes ino [])
    | none =>
      (.ok d.nextIno,
        { d with
          inodes := Function.update d.inodes d.nextIno []
          nextIno := d.nextIno + 1
          blobs := d.blobs.insert h d.nextIno })
  else (.error .notFound, d)

def writeBlobDurable (h : ContentHash) (value : Bytes) : Act Unit := do
  ioAct (io fun d => (.ok (), { d with valuesDir := true }))
  let ino ← ioAct (io (openBlob h))
  ioAct (writeAllAt ino 0 value)
  ioAct (io fun d => (.ok (), d))
  let _ ← lift (io fun d => (Except.ok (), d))
  ioAct (io fun d => if d.valuesDir then (.ok (), d) else (.error .notFound, d))
  ioAct (io fun d => (.ok (), d))

/-- `put`: store a value once per content and count the reference. -/
def put (P : Prims) (value : Bytes) : Act ContentHash := do
  let h := P.contentHash value
  lift (lockFile h)
  guarded [.blob (flockIdx h)] (unlockFile h) do
    let first ← lift (Prog.step (takeRef h))
    if first then
      ExceptT.mk do
        match ← (writeBlobDurable h value).run with
        | .ok _ => return .ok ()
        | .error e =>
          Prog.modify fun s => (dec h s).2
          return .error e
    return h

/-- `get`: the blob is opened by name, then read through the handle. -/
def get (h : ContentHash) : Act Bytes := do
  lift (Prog.at_ (.readBlob h))
  let ino ← ioAct (io fun d =>
    match d.blobs[h]? with
    | some ino => (.ok ino, d)
    | none => (.error .notFound, d))
  ioAct (io fun d => (.ok (d.inodes ino), d))

/-- One turn of the collector's loop. -/
def collect (h : ContentHash) : Task Unit := do
  lockFile h
  if (← Prog.gets fun s => refcount s h) = 0 then
    let _ ← io fun d => (Except.ok (), { d with blobs := d.blobs.erase h })
  Prog.modify (unlockFile h)
  Prog.at_ (.drops (.blob (flockIdx h)))

def collectAll : List ContentHash → Task Unit
  | [] => return ()
  | h :: hs => do collect h; collectAll hs

def collectGarbage : Task Unit := do
  let pending ← Prog.step fun s => (s.pendingDelete, { s with pendingDelete := [] })
  collectAll pending

/-- `sweep_orphans` when the namespace opens: unreferenced blobs go. -/
def sweepOrphans (s : NsState) : NsState :=
  { s with disk := { s.disk with blobs := s.disk.blobs.filter fun h _ => s.refs.contains h } }

end ValueStore

end BeyondKv
