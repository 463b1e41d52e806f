/-
# Reclaim: size-tiered merging

`reclaimInner` seals the active file and merges the lowest level that holds
`fanout` files into one file of the next level, until no level does; then it
opens a fresh active file. `reclaimNamespace` writes one merged file: under a
temporary name, with a footer, renamed before its inputs are unlinked.
-/
import BeyondKv.Namespace

namespace BeyondKv

open Async (Prog)

/-- `value_hash_of`: the blob hash a record carries. -/
def valueHashOf (bytes : Bytes) : Option ContentHash :=
  match parseHeader bytes 0 with
  | .error _ => none
  | .ok hdr =>
    if ¬ hasFlag hdr.flags flagValueSep ∨ hdr.valSize ≠ 16 then none
    else FooterEntry.hashOfBytes (Bytes.slice bytes (headerLen + hdr.keySize) 16)

structure ReclaimReport where
  liveKeys : Nat
  liveBytes : Nat
  deadFilesDropped : Nat
  deadFilesLeaked : Nat
  newFileId : Nat
  deriving DecidableEq, Repr

/-- A live key handed to a merge: key, entry, expiry. -/
abbrev LiveKey := Bytes × IndexEntry × Option UInt64

def footerEntryFromIndex (key : Bytes) (entry : IndexEntry) (expiresAtMs : Option UInt64)
    (valueHash : Option ContentHash) : FooterEntry :=
  { key, recordOffset := entry.recordOffset, recordSize := entry.recordSize, expiresAtMs,
    tstampMs := entry.tstampMs, valueHash }

/-- The copy loop: append each record read to the new file, in order. -/
def copyRecords (newFile : LogFile) (nextFileId : Nat) :
    List (LiveKey × Except EngineError Bytes) → Act (List (LiveKey × FooterEntry))
  | [] => return []
  | ((key, old, ttl), bytesRes) :: rest => do
    let bytes ← ExceptT.mk (pure bytesRes)
    let newOffset ← newFile.append bytes
    let new := IndexEntry.new nextFileId newOffset old.recordSize old.tstampMs
    let out ← copyRecords newFile nextFileId rest
    return ((key, new, ttl), footerEntryFromIndex key new ttl (valueHashOf bytes)) :: out

/-- `remove_file` on `data-<id>.log`. -/
def unlinkData (id : Nat) : Task (Except IoError Unit) :=
  io fun d =>
    match d.data[id]? with
    | some ino => (.ok (), d.unlinkData id ino)
    | none => (.error .notFound, d)

/-- `remove_file` on `data-<id>.log.tmp`; every outcome is tolerated. -/
def unlinkTmp (id : Nat) : Task Unit := do
  let _ ← io fun d => (Except.ok (), { d with tmp := d.tmp.erase id })
  return ()

/-- `rename` of the temporary file onto the data file. -/
def renameTmp (id : Nat) : Act Unit :=
  ioAct (io fun d =>
    match d.tmp[id]? with
    | some ino => (.ok (), { d with tmp := d.tmp.erase id, data := d.data.insert id ino })
    | none => (.error .notFound, d))

/-- Read one live record through the input handles. -/
def readLive (files : List LogFile) (old : IndexEntry) : Act Bytes :=
  match files.find? (fun f => f.fileId = old.fileId) with
  | none => throw (.badRecord old.recordOffset "reclaim: file_id not in sealed snapshot")
  | some f => f.readExact old.recordOffset old.recordSize

def reclaimNamespace (P : Prims) (files : List LogFile) (nextFileId : Nat)
    (live : List LiveKey) : Act (ReclaimReport × List LiveKey) := do
  lift (unlinkTmp nextFileId)
  let newFile ← LogFile.openRwTmp nextFileId
  lift (newFile.truncateTo 0)
  let reads ← lift (Prog.joinAll live fun (_, old, _) => (readLive files old).run)
  let copied ← copyRecords newFile nextFileId (live.zip reads)
  let _ ← newFile.writeFooter P (copied.map Prod.snd)
  renameTmp nextFileId
  lift syncDir
  let unlinks ← lift (Prog.joinAll files fun f => unlinkData f.fileId)
  let dropped := (unlinks.filter fun r => r.toOption.isSome).length
  return ({ liveKeys := copied.length
            liveBytes := (live.map fun (_, old, _) => old.recordSize).sum
            deadFilesDropped := dropped
            deadFilesLeaked := unlinks.length - dropped
            newFileId := nextFileId }, copied.map Prod.fst)

/-- The level of a sealed file; absent from the map is level 0. -/
def levelOf (s : NsState) (id : Nat) : Nat := s.level.getD id 0

/-- The ids of a level, ascending. -/
def levelIds (s : NsState) (lvl : Nat) : List Nat :=
  s.sealed.keys.filter fun id => levelOf s id = lvl

/-- The lowest level with at least `fanout` files, and its files. -/
def fullLevel (s : NsState) : Option (Nat × List Nat) :=
  (((s.sealed.keys.map (levelOf s)).filter fun l =>
    s.config.fanout ≤ (levelIds s l).length).min?).map fun l => (l, levelIds s l)

/-- The keys whose record is in one of these files. -/
def liveIn (index : NsIndex) (ids : List Nat) : List LiveKey :=
  (index.entries.filter fun (_, e) => e.fileId ∈ ids).map fun (k, e) => (k, e, index.ttl k)

/-- Swap the inputs of a merge for its output, in memory. -/
def commitMerge (lvl : Nat) (ids : List Nat) (newFile : LogFile) (entries : List LiveKey)
    (s : NsState) : NsState :=
  { s with
    index := entries.foldl (fun idx (k, e, ttl) => idx.insert k e ttl) s.index
    sealed := (ids.foldl (fun m id => m.erase id) s.sealed).insert newFile.fileId newFile
    level := (ids.foldl (fun m id => m.erase id) s.level).insert newFile.fileId
      (min (lvl + 1) 255) }

/-- One turn of the cascade on the level found full. -/
def mergeLevel (P : Prims) (lvl : Nat) (ids : List Nat) : Act ReclaimReport := do
  let files ← lift (Prog.gets fun s => ids.filterMap fun id => s.sealed[id]?)
  let live ← lift (Prog.gets fun s => liveIn s.index ids)
  let nextId ← nextFileId
  let (report, entries) ← reclaimNamespace P files nextId live
  let newFile ← LogFile.openRo nextId
  lift (Prog.modify (commitMerge lvl ids newFile entries))
  return report

/-- Fold a merge's report into the total. -/
def ReclaimReport.add (total report : ReclaimReport) : ReclaimReport :=
  { total with
    liveKeys := report.liveKeys
    liveBytes := report.liveBytes
    deadFilesDropped := total.deadFilesDropped + report.deadFilesDropped
    deadFilesLeaked := total.deadFilesLeaked + report.deadFilesLeaked }

/-- The cascade: merge while some level is full. `none` is a cascade cut off by `fuel`. -/
def cascade (P : Prims) : Nat → ReclaimReport → Act (Option ReclaimReport)
  | 0, _ => return none
  | fuel + 1, total => do
    match ← lift (Prog.gets fullLevel) with
    | none => return some total
    | some (lvl, ids) =>
      let report ← mergeLevel P lvl ids
      cascade P fuel (total.add report)

/-- `reclaim_inner`. The loop of the source has no bound; a merge of at least two files
leaves fewer sealed files, so their number bounds its turns. -/
def reclaimInner (P : Prims) : Act (Option ReclaimReport) := do
  let oldActive ← lift (Prog.gets NsState.active)
  let footer ← lift (Prog.gets fun s => footerOf s.index oldActive.fileId)
  let req ← oldActive.writeFooter P footer
  lift (Prog.modify (sealFile oldActive))
  let fuel ← lift (Prog.gets fun s => s.sealed.size + 1)
  match ← cascade P fuel ⟨0, 0, 0, 0, 0⟩ with
  | none => return none
  | some total =>
    let newId ← nextFileId
    let newActive ← LogFile.openRw newId
    lift syncDir
    lift (Prog.at_ (.reset (some req)))
    lift (Prog.modify (activate newActive))
    return some { total with newFileId := newId }

def setReclaiming (b : Bool) (s : NsState) : NsState := { s with reclaimInProgress := b }

/-- `reclaim`: one at a time, after the writes in flight have drained. -/
def reclaim (P : Prims) : Act (Option ReclaimReport) := do
  if ← lift (Prog.step fun s => (s.reclaimInProgress, setReclaiming true s)) then
    throw .reclamationBusy
  lift (Prog.at_ (.holds .reclaim))
  lift drainWrites
  lift (Prog.at_ (.holds .inner))
  guarded [.inner, .reclaim] (setReclaiming false) (reclaimInner P)

/-- `flush_inner`: forget everything, unlink every `data-*` name, start over at id 0. The
level map is not cleared. -/
def flushInner : Act Unit := do
  lift (Prog.at_ (.effect [.clear]))
  lift (Prog.modify fun s => { s with sealed := ∅, index := s.index.clear })
  let ids ← lift (Prog.gets fun s => s.disk.data.keys)
  let tmps ← lift (Prog.gets fun s => s.disk.tmp.keys)
  let _ ← lift (Prog.joinAll (ids.map Sum.inl ++ tmps.map Sum.inr) fun f =>
    match f with
    | .inl id => do let _ ← unlinkData id; return ()
    | .inr id => unlinkTmp id)
  let newActive ← LogFile.openRw 0
  lift syncDir
  lift (Prog.at_ (.reset none))
  lift (Prog.modify (activate newActive))

/-- `flush`: waits out a reclaim, drains the writes, burns a revision. -/
def flush : Act UInt64 := do
  lift awaitReclaim
  if ← lift (Prog.step fun s => (s.reclaimInProgress, setReclaiming true s)) then
    throw .reclamationBusy
  lift (Prog.at_ (.holds .reclaim))
  lift drainWrites
  let revision ← lift nextTstamp
  lift (Prog.at_ (.holds .inner))
  guarded [.inner, .reclaim] (setReclaiming false) do
    flushInner
    return revision

end BeyondKv
