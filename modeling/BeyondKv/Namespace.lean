/-
# The operations of a namespace log

The write paths, the readers, rotation and sealing, line by line. Every write
waits out a reclaim, counts itself in, and holds the stripe of its key from the
check to the commit; `commitPut` is the part `put_full` and `put_full_cond` share.
-/
import BeyondKv.ValueStore

namespace BeyondKv

open Async (Prog)
open ValueStore (unref?)

/-! ## Waiting and counting -/

/-- `await_reclaim`: writes stall while a reclaim or flush runs. -/
def awaitReclaim : Task Unit := do
  if ← Prog.gets NsState.reclaimInProgress then
    Prog.at_ (.wants .reclaim)
    Prog.wait fun s => !s.reclaimInProgress
    Prog.at_ (.passes .reclaim)

def countWrite (s : NsState) : NsState := { s with inFlightWrites := s.inFlightWrites + 1 }

/-- `begin_write`: check the freeze flag and count the write in, in one step. -/
def beginWrite : Act Unit := do
  if ← lift (Prog.gets NsState.frozen) then throw .frozen
  lift (Prog.modify countWrite)
  lift (Prog.at_ (.holds .inFlight))

def endWrite (s : NsState) : NsState := { s with inFlightWrites := s.inFlightWrites - 1 }

/-- The wait of `reclaim`, `flush` and `freeze_and_drain` for the writes in flight. -/
def drainWrites : Task Unit := do
  if (← Prog.gets NsState.inFlightWrites) > 0 then
    Prog.at_ (.wants .inFlight)
    Prog.wait fun s => s.inFlightWrites = 0
    Prog.at_ (.passes .inFlight)

def setFrozen (b : Bool) (s : NsState) : NsState := { s with frozen := b }

def freezeAndDrain : Task Unit := do
  Prog.modify (setFrozen true)
  drainWrites

/-- `stripe_idx`. -/
def stripeIdx (P : Prims) (key : Bytes) : Nat := (P.fxHash key).toNat % 64

def setStripe (i : Nat) (locked : Bool) (s : NsState) : NsState :=
  { s with writeStripes := Function.update s.writeStripes i locked }

def lockStripe (i : Nat) : Task Unit :=
  acquire (.stripe i) (fun s => s.writeStripes i) (setStripe i true)

def unlockStripe (i : Nat) : NsState → NsState := setStripe i false

/-- The frame of every single-key write. -/
def writing {α : Type} (P : Prims) (key : Bytes) (body : Act α) : Act α := do
  lift awaitReclaim
  beginWrite
  guarded [.inFlight] endWrite do
    lift (lockStripe (stripeIdx P key))
    guarded [.stripe (stripeIdx P key)] (unlockStripe (stripeIdx P key)) body

/-- `next_tstamp`: the clock, nudged past the last revision. -/
def nextTstamp : Task UInt64 := do
  let now ← nowMs
  Prog.step fun s =>
    let next := if now > s.lastTstamp then now else s.lastTstamp + 1
    (next, { s with lastTstamp := next })

/-! ## Rotation -/

/-- The footer entries of a file: the index's keys whose record is in it. -/
def footerOf (index : NsIndex) (fileId : Nat) : List FooterEntry :=
  (index.entries.filter fun (_, e) => e.fileId = fileId).map fun (k, e) =>
    { key := k
      recordOffset := e.recordOffset
      recordSize := e.recordSize
      expiresAtMs := index.ttl k
      tstampMs := e.tstampMs
      valueHash := index.valsep k }

/-- The highest id in use. -/
def maxFileId (s : NsState) : Nat := max (s.sealed.keys.foldr max 0) s.active.fileId

/-- The id after it, unless the ids run out. -/
def nextFileId : Act Nat := do
  let id ← lift (Prog.gets maxFileId)
  if id + 1 > u32Max then
    throw (.capacityExceeded "file_id overflow: namespace has too many log files")
  return id + 1

def setRotating (b : Bool) (s : NsState) : NsState := { s with rotateInProgress := b }

/-- Add a file to the sealed map. -/
def sealFile (f : LogFile) (s : NsState) : NsState :=
  { s with sealed := s.sealed.insert f.fileId f }

/-- Make a freshly opened file the active one. -/
def activate (f : LogFile) (s : NsState) : NsState :=
  { s with active := f, unsyncedBytes := 0 }

def rotateActiveInner (P : Prims) : Act Unit := do
  lift (Prog.at_ .snapshot)
  let oldActive ← lift (Prog.gets NsState.active)
  let footer ← lift (Prog.gets fun s => footerOf s.index oldActive.fileId)
  let req ← oldActive.writeFooter P footer
  let nextId ← nextFileId
  lift (Prog.modify (sealFile oldActive))
  let newActive ← LogFile.openRw nextId
  lift syncDir
  lift (Prog.at_ (.reset (some req)))
  lift (Prog.modify (activate newActive))

def rotateActive (P : Prims) : Act Unit := do
  if ← lift (Prog.gets NsState.rotateInProgress) then return ()
  lift (Prog.modify (setRotating true))
  guarded [] (setRotating false) (rotateActiveInner P)

/-! ## Puts -/

/-- `maybe_separate`: a value at or above the threshold becomes a blob. -/
def maybeSeparate (P : Prims) (value : Bytes) : Act (Option ContentHash) := do
  if (← lift (Prog.gets fun s => s.config.valueSepThreshold)) ≤ value.length then
    return some (← ValueStore.put P value)
  else return none

/-- The value field: the value, or its hash. -/
def storedOf (value : Bytes) (sepHash : Option ContentHash) : Stored :=
  match sepHash with
  | some h => .blob h
  | none => .inline value

/-- Encode a record after the bytes of `buf`. -/
def encodeOp (P : Prims) (buf : Bytes) (tstamp : UInt64) (op : LogOp) : Act Bytes :=
  ExceptT.mk (pure (encodeInto P buf tstamp op.flags op.expires op.key op.value op.metadata))

/-- Append to the active file; a failure gives the blob references back. -/
def appendOrUnref (active : LogFile) (buf : Bytes) (hashes : List ContentHash) : Act Nat :=
  ExceptT.mk do
    match ← (active.append buf).run with
    | .ok offset => return .ok offset
    | .error e =>
      Prog.modify fun s => hashes.foldl (fun s h => ValueStore.unref h s) s
      return .error e

def addUnsynced (n : Nat) (s : NsState) : NsState := { s with unsyncedBytes := s.unsyncedBytes + n }

/-- Count an append of `n` bytes. -/
def countAppend (f : LogFile) (offset n : Nat) : Task Unit := do
  Prog.modify (addUnsynced n)
  Prog.at_ (.counted f.ino offset n)

def clearUnsynced (s : NsState) : NsState := { s with unsyncedBytes := 0 }

def NsState.setIndex (s : NsState) (index : NsIndex) : NsState := { s with index }

/-- `apply_valsep_insert`, with the unref of the blob it replaced. -/
def commitEntry (key : Bytes) (entry : IndexEntry) (expiresAtMs : Option UInt64)
    (sepHash : Option ContentHash) (s : NsState) : NsState :=
  let old := s.index.valsep key
  unref? old (s.setIndex ((s.index.insert key entry expiresAtMs).setValsep key sepHash))

/-- Rotate once the active file the record went to has reached the threshold. -/
def rotateIfFull (P : Prims) (active : LogFile) : Act Unit := do
  if ← lift (Prog.gets fun s => decide (s.config.rotateThreshold ≤ active.writeOffset s)) then
    rotateActive P

/-- From the revision on, `put_full` and `put_full_cond` are the same. -/
def commitPut (P : Prims) (key value metadata : Bytes) (expiresAtMs : Option UInt64) :
    Act UInt64 := do
  let tstamp ← lift nextTstamp
  let sepHash ← maybeSeparate P value
  let buf ← encodeOp P [] tstamp (.put key (storedOf value sepHash) metadata expiresAtMs)
  lift (Prog.at_ .reserve)
  let active ← lift (Prog.gets NsState.active)
  let offset ← appendOrUnref active buf sepHash.toList
  lift (countAppend active offset buf.length)
  let entry := IndexEntry.new active.fileId offset buf.length tstamp
  lift (Prog.at_ (.effect [.put key value metadata expiresAtMs tstamp]))
  lift (Prog.modify (commitEntry key entry expiresAtMs sepHash))
  rotateIfFull P active
  return tstamp

def putFull (P : Prims) (key value metadata : Bytes) (expiresAtMs : Option UInt64) :
    Act UInt64 :=
  writing P key (commitPut P key value metadata expiresAtMs)

inductive WriteCondition where
  | keyAbsent
  | keyPresent
  | revision (rev : UInt64)
  deriving DecidableEq

def WriteCondition.check : WriteCondition → Option UInt64 → Bool
  | keyAbsent, cur => cur.isNone
  | keyPresent, cur => cur.isSome
  | revision rev, cur => cur = some rev

/-- `live_rev`: the revision of a key that is present and not expired. -/
def liveRev (idx : NsIndex) (key : Bytes) (now : UInt64) : Option UInt64 :=
  if idx.isExpired key now then none else (idx.get key).map IndexEntry.tstampMs

def putFullCond (P : Prims) (key value metadata : Bytes) (expiresAtMs : Option UInt64)
    (cond : WriteCondition) (now : UInt64) : Act (Option UInt64) :=
  writing P key do
    if cond.check (← lift (Prog.gets fun s => liveRev s.index key now)) then
      return some (← commitPut P key value metadata expiresAtMs)
    else
      lift (Prog.at_ (.effect []))
      return none

/-- What `put_many` remembers of a pair while it builds the buffer. -/
structure BatchItem where
  key : Bytes
  start : Nat
  size : Nat
  tstamp : UInt64
  sepHash : Option ContentHash

/-- The encoding loop of `put_many`: the buffer and the layout of the pairs in it. -/
def encodeBatch (P : Prims) : List (Bytes × Bytes) → Bytes → Act (Bytes × List BatchItem)
  | [], buf => return (buf, [])
  | (k, v) :: pairs, buf => do
    let tstamp ← lift nextTstamp
    let sepHash ← maybeSeparate P v
    let buf' ← encodeOp P buf tstamp (.put k (storedOf v sepHash) [] none)
    let (out, items) ← encodeBatch P pairs buf'
    return (out, ⟨k, buf.length, buf'.length - buf.length, tstamp, sepHash⟩ :: items)

/-- Insert one pair of a committed batch; the hash it replaced is returned. -/
def insertItem (fileId base : Nat) (acc : NsIndex × List ContentHash) (it : BatchItem) :
    NsIndex × List ContentHash :=
  let (index, old) := acc
  let entry := IndexEntry.new fileId (base + it.start) it.size it.tstamp
  ((index.insert it.key entry none).setValsep it.key it.sepHash,
    old ++ (index.valsep it.key).toList)

/-- The index updates of a batch, then the unrefs. -/
def commitBatch (fileId base : Nat) (items : List BatchItem) (s : NsState) : NsState :=
  let (index, old) := items.foldl (insertItem fileId base) (s.index, [])
  old.foldl (fun s h => ValueStore.unref h s) (s.setIndex index)

/-- The sorted, distinct stripes of a batch. -/
def batchStripes (P : Prims) (pairs : List (Bytes × Bytes)) : List Nat :=
  ((pairs.map fun (k, _) => stripeIdx P k).insertionSort (· ≤ ·)).dedup

/-- Lock the stripes in order. -/
def lockStripes : List Nat → Task Unit
  | [] => return ()
  | i :: is => do lockStripe i; lockStripes is

def unlockStripes (is : List Nat) (s : NsState) : NsState :=
  is.foldl (fun s i => unlockStripe i s) s

/-- The puts of a committed batch. -/
def batchEffects (pairs : List (Bytes × Bytes)) (items : List BatchItem) : List Effect :=
  List.zipWith (fun (k, v) it => .put k v [] none it.tstamp) pairs items

def putMany (P : Prims) (pairs : List (Bytes × Bytes)) : Act (List UInt64) := do
  lift awaitReclaim
  beginWrite
  guarded [.inFlight] endWrite do
    if pairs.isEmpty then
      lift (Prog.at_ (.effect []))
      return []
    lift (lockStripes (batchStripes P pairs))
    guarded ((batchStripes P pairs).map .stripe) (unlockStripes (batchStripes P pairs)) do
      let (buf, items) ← encodeBatch P pairs []
      lift (Prog.at_ .reserve)
      let active ← lift (Prog.gets NsState.active)
      let base ← appendOrUnref active buf (items.filterMap BatchItem.sepHash)
      lift (countAppend active base buf.length)
      lift (Prog.at_ (.effect (batchEffects pairs items)))
      lift (Prog.modify (commitBatch active.fileId base items))
      rotateIfFull P active
      return items.map BatchItem.tstamp

/-! ## Deletes and expiry updates -/

/-- From the removal on, `tombstone` and `tombstone_cond` are the same: the index forgets
the key first, then the record is appended. -/
def commitTombstone (P : Prims) (key : Bytes) : Act UInt64 := do
  lift (Prog.at_ (.effect [.del key]))
  let oldHash ← lift (Prog.step fun s =>
    (s.index.valsep key, s.setIndex (s.index.remove key).2))
  let tstamp ← lift nextTstamp
  let buf ← encodeOp P [] tstamp (.tombstone key)
  lift (Prog.at_ .reserve)
  let active ← lift (Prog.gets NsState.active)
  let offset ← active.append buf
  lift (countAppend active offset buf.length)
  lift (Prog.modify (unref? oldHash))
  return tstamp

def tombstone (P : Prims) (key : Bytes) : Act (Option UInt64) :=
  writing P key do
    if ← lift (Prog.gets fun s => (s.index.get key).isSome) then
      return some (← commitTombstone P key)
    else
      -- `index.remove` has run: it drops a sidecar entry of an absent key
      lift (Prog.at_ (.effect [.del key]))
      lift (Prog.modify fun s => s.setIndex (s.index.remove key).2)
      return none

def tombstoneCond (P : Prims) (key : Bytes) (expectedRev now : UInt64) : Act (Option UInt64) :=
  writing P key do
    if ← lift (Prog.gets fun s => decide (liveRev s.index key now = some expectedRev)) then
      return some (← commitTombstone P key)
    else
      lift (Prog.at_ (.effect []))
      return none

def ttlUpdate (P : Prims) (key : Bytes) (expiresAtMs : Option UInt64) : Act UInt64 :=
  writing P key do
    let tstamp ← lift nextTstamp
    let buf ← encodeOp P [] tstamp (.ttlUpdate key expiresAtMs)
    lift (Prog.at_ .reserve)
    let active ← lift (Prog.gets NsState.active)
    let offset ← active.append buf
    lift (countAppend active offset buf.length)
    lift (Prog.at_ (.effect [.ttl key expiresAtMs]))
    lift (Prog.modify fun s => s.setIndex (s.index.setTtl key expiresAtMs))
    return tstamp

/-! ## Reads -/

/-- `locate_file`: the active file if the id is its own, else a sealed one. -/
def locateFile (s : NsState) (fileId : Nat) : Option LogFile :=
  if s.active.fileId = fileId then some s.active else s.sealed[fileId]?

def readRecord (entry : IndexEntry) : Act Bytes := do
  match ← lift (Prog.gets fun s => locateFile s entry.fileId) with
  | none => throw (.badRecord entry.recordOffset "file_id not found")
  | some file => file.readExact entry.recordOffset entry.recordSize

/-- `extract_value_meta`: value field, metadata and flags of a record. -/
def extractValueMeta (P : Prims) (bytes : Bytes) : Except EngineError (Bytes × Bytes × UInt8) := do
  let hdr ← parseHeader (bytes.take headerLen) 0
  let keyEnd := headerLen + hdr.keySize
  let valEnd := keyEnd + hdr.valSize
  let metaEnd := valEnd + hdr.metaSize
  if bytes.length < metaEnd then
    throw (.badRecord 0 "record bytes shorter than declared sizes")
  verifyCrc P hdr (bytes.take headerLen) (Bytes.slice bytes headerLen (metaEnd - headerLen)) 0
  return (Bytes.slice bytes keyEnd hdr.valSize, Bytes.slice bytes valEnd hdr.metaSize, hdr.flags)

/-- `deref`: the value itself, or the blob behind its hash, re-hashed. -/
def deref (P : Prims) (value : Bytes) (flags : UInt8) : Act Bytes := do
  if ¬ hasFlag flags flagValueSep then return value
  match FooterEntry.hashOfBytes value with
  | none => throw (.badRecord 0 "value-separated record's value field is not a 16-byte hash")
  | some h =>
    let bytes ← ValueStore.get h
    if P.contentHash bytes ≠ h then
      throw (.badRecord 0 "value-separated blob content hash mismatch (corruption)")
    return bytes

def readValue (P : Prims) (entry : IndexEntry) : Act (Bytes × Bytes) := do
  let bytes ← readRecord entry
  let (value, metadata, flags) ← ExceptT.mk (pure (extractValueMeta P bytes))
  return (← deref P value flags, metadata)

/-! ## Sync, shutdown and recovery -/

def sync : Act Unit := do
  if (← lift (Prog.gets NsState.unsyncedBytes)) > 0 then
    let active ← lift (Prog.gets NsState.active)
    let req ← active.sync
    lift (Prog.at_ (.reset (some req)))
    lift (Prog.modify clearUnsynced)
  lift ValueStore.collectGarbage

def sealActiveForShutdown (P : Prims) : Act Unit := do
  let active ← lift (Prog.gets NsState.active)
  if (← lift (Prog.gets NsState.unsyncedBytes)) ≠ 0 then
    let req ← active.sync
    lift (Prog.at_ (.reset (some req)))
    lift (Prog.modify clearUnsynced)
  let footer ← lift (Prog.gets fun s => footerOf s.index active.fileId)
  let _ ← active.writeFooter P footer
  return ()

/-- `reopen_active_after_seal`: a sealed active file makes way for a new one. -/
def reopenActiveAfterSeal : Act Unit := do
  let oldActive ← lift (Prog.gets NsState.active)
  let nextId ← nextFileId
  lift (Prog.modify (sealFile oldActive))
  let newActive ← LogFile.openRw nextId
  lift syncDir
  lift (Prog.at_ (.reset none))
  lift (Prog.modify (activate newActive))

/-- `NamespaceLog::open` on a directory, with the clock and faults of the new process. -/
def openLog (P : Prims) (config : LogConfig) (clock : Nat → UInt64) (fault : Nat → Option Nat)
    (d : Disk) : Except EngineError NsState := do
  let (opened, d) ← openNamespace P d
  let s : NsState :=
    { clock, readings := 0, fault, tick := 0, disk := d, ring := []
      config
      index := opened.index
      sealed := opened.sealed.foldl (fun m f => m.insert f.fileId f) ∅
      level := opened.sealed.foldl (fun m f => m.insert f.fileId 0) ∅
      active := opened.active
      cells := fun ino => ⟨(d.inodes ino).length, false⟩
      unsyncedBytes := 0
      lastTstamp := (opened.index.entries.map fun (_, e) => e.tstampMs).foldl max 0
      reclaimInProgress := false
      rotateInProgress := false
      frozen := false
      inFlightWrites := 0
      writeStripes := fun _ => false
      refs := ∅
      pendingDelete := []
      fileLocks := fun _ => false }
  let s := opened.index.valsepMap.foldl (fun s _ h => ValueStore.incrRef h s) s
  return ValueStore.sweepOrphans s

end BeyondKv
