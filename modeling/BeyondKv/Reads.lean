/-
# Reading a key

What a reader of a live key gets: the bytes of its record decide, with the blob
behind a separated value. So two states in which a key has the same record, the
same sidecar entries and the same blob answer alike (`keyState_congr`).
-/
import BeyondKv.Calls

namespace BeyondKv

open Std (ExtTreeMap)
open Async

/-- `deref` on known blobs. -/
def derefOn (P : Prims) (blob : ContentHash → Option Bytes) (value : Bytes) (flags : UInt8) :
    Except EngineError Bytes :=
  if ¬ hasFlag flags flagValueSep then .ok value
  else
    match FooterEntry.hashOfBytes value with
    | none => .error (.badRecord 0 "value-separated record's value field is not a 16-byte hash")
    | some h =>
      match blob h with
      | none => .error (.io .notFound)
      | some b =>
        if P.contentHash b ≠ h then
          .error (.badRecord 0 "value-separated blob content hash mismatch (corruption)")
        else .ok b

/-- Value and metadata of a record, given the blobs. -/
def readBytes (P : Prims) (blob : ContentHash → Option Bytes) (bytes : Bytes) :
    Except EngineError (Bytes × Bytes) := do
  let (value, metadata, flags) ← extractValueMeta P bytes
  return (← derefOn P blob value flags, metadata)

/-- What the log answers about a key: the read of its value and metadata, its revision and
its expiry. -/
def keyState (P : Prims) (s : NsState) (k : Bytes) :
    Option (Option (Except EngineError (Bytes × Bytes)) × UInt64 × Option UInt64) :=
  (s.index.get k).map fun e =>
    ((run (readValue P e).run s).result.map Prod.fst, e.tstampMs, s.index.ttl k)

section reading
variable {P : Prims} {s s' : NsState}

theorem locateFile_eq (s : NsState) (id : Nat) : locateFile s id = s.core.handles[id]? := by
  simp only [locateFile, Core.handles, ExtTreeMap.getElem?_insert, Std.compare_eq_iff_eq]
  rfl

theorem wpx_deref {Q : Except EngineError Bytes → NsState → Prop} {value : Bytes} {flags : UInt8}
    (hf : ∀ n, s.fault n = none)
    (hok : ∀ tick, Q (derefOn P s.disk.blob value flags) (s.moved tick s.disk)) :
    wpx Anywhere (deref P value flags) Q s := by
  unfold deref
  by_cases hsep : hasFlag flags flagValueSep = true
  · simp only [hsep, not_true, if_false]
    cases hhash : FooterEntry.hashOfBytes value with
    | none =>
      have hr : derefOn P s.disk.blob value flags
          = .error (.badRecord 0 "value-separated record's value field is not a 16-byte hash") := by
        simp [derefOn, hsep, hhash]
      simp only [wpx_throw, ← hr]
      exact hok s.tick
    | some h =>
      simp only [wpx_seq, ValueStore.get, wpx_liftTask, wpc_at, onOk_ok]
      rw [wpx_ioAct, wpc_io hf]
      refine ⟨trivial, trivial, ?_⟩
      cases hb : s.disk.blobs[h]? with
      | none =>
        have hr : derefOn P s.disk.blob value flags = .error (.io .notFound) := by
          simp [derefOn, hsep, hhash, Disk.blob, hb]
        rw [hr] at hok
        exact hok (s.tick + 1)
      | some ino =>
        simp only [ofIo_ok, onOk_ok]
        rw [wpx_ioAct, wpc_io (by exact hf)]
        refine ⟨trivial, trivial, ?_⟩
        simp only [ofIo_ok, onOk_ok, NsState.disk_after]
        by_cases hh : P.contentHash (s.disk.inodes ino) ≠ h
        · have hr : derefOn P s.disk.blob value flags
              = .error
              (.badRecord 0 "value-separated blob content hash mismatch (corruption)") := by
            simp [derefOn, hsep, hhash, Disk.blob, hb, hh]
          simp only [if_pos hh, wpx_seq, wpx_throw, onOk_error, ← hr]
          exact hok (s.tick + 2)
        · have hr : derefOn P s.disk.blob value flags = .ok (s.disk.inodes ino) := by
            simp [derefOn, hsep, hhash, Disk.blob, hb, hh]
          simp only [if_neg hh, wpx_pure, ← hr]
          exact hok (s.tick + 2)
  · have hr : derefOn P s.disk.blob value flags = .ok value := by simp [derefOn, hsep]
    simp only [hsep, Bool.false_eq_true, not_false_eq_true, if_true, wpx_pure, ← hr]
    exact hok s.tick

/-- A read of the record of a live key. -/
theorem wpx_readValue {e : IndexEntry} {f : LogFile}
    {Q : Except EngineError (Bytes × Bytes) → NsState → Prop}
    (hf : ∀ n, s.fault n = none) (hfile : s.core.handles[e.fileId]? = some f)
    (hlen : (Bytes.slice (s.disk.inodes f.ino) e.recordOffset e.recordSize).length = e.recordSize)
    (hok : ∀ tick,
      Q (readBytes P s.disk.blob (Bytes.slice (s.disk.inodes f.ino) e.recordOffset e.recordSize))
      (s.moved tick s.disk)) : wpx Anywhere (readValue P e) Q s := by
  simp only [readValue, wpx_seq, readRecord, wpx_liftTask, wpc_gets, onOk_ok, locateFile_eq, hfile,
    LogFile.readExact]
  refine wpx_request hf (a := Bytes.slice (s.disk.inodes f.ino) e.recordOffset e.recordSize)
    (d := s.disk) ?_ ?_
  · simp [hlen]
  simp only [onOk_ok, wpx_mk, wpc_pure]
  unfold readBytes at hok
  cases hx : extractValueMeta P (Bytes.slice (s.disk.inodes f.ino) e.recordOffset e.recordSize) with
  | error err =>
    rw [hx] at hok
    exact hok _
  | ok t =>
    rw [hx] at hok
    simp only [onOk_ok]
    refine wpx_deref hf fun tick => ?_
    change onOk _ _ (derefOn P s.disk.blob t.1 t.2.2) _
    simp only [bind, Except.bind] at hok
    cases hd : derefOn P s.disk.blob t.1 t.2.2 with
    | error err =>
      rw [hd] at hok
      exact hok tick
    | ok b =>
      rw [hd] at hok
      simp only [onOk_ok, wpx_pure]
      exact hok tick

theorem run_readValue {e : IndexEntry} {f : LogFile} (hf : ∀ n, s.fault n = none)
    (hfile : s.core.handles[e.fileId]? = some f)
    (hlen : (Bytes.slice (s.disk.inodes f.ino) e.recordOffset e.recordSize).length = e.recordSize) :
    (run (readValue P e).run s).result.map Prod.fst
      = some
      (readBytes P s.disk.blob
      (Bytes.slice (s.disk.inodes f.ino) e.recordOffset e.recordSize)) := by
  have hread : wpx Anywhere (readValue P e) (fun r _ => r = readBytes P s.disk.blob
      (Bytes.slice (s.disk.inodes f.ino) e.recordOffset e.recordSize)) s :=
      wpx_readValue hf hfile hlen fun _ => rfl
  obtain ⟨-, r, s', hr, rfl⟩ := hread
  simp [hr]

/-- In a log that is in order, a key's record and sidecar entries are its state. -/
theorem keyState_eq (h : LogOk P s.core) (k : Bytes) :
    keyState P s k = (viewAt s.core.handles s.disk s.index k).map fun v =>
      (v.record.map (readBytes P s.disk.blob), v.tstampMs, v.expiresAtMs) := by
  unfold keyState viewAt
  cases hk : s.index.get k with
  | none => rfl
  | some e =>
    obtain ⟨f, hf, l, v, m, x, -, -, -, hsize, hslice⟩ := h.files.resolves hk
    have hlen : (Bytes.slice (s.disk.inodes f.ino) e.recordOffset e.recordSize).length
        = e.recordSize := (congrArg List.length hslice).trans hsize.symm
    simp only [Option.map_some, hf, run_readValue h.fault hf hlen]

theorem extractValueMeta_put {l : Logged} {key m : Bytes} {v : Stored} {x : Option UInt64}
    (hop : l.op = .put key v m x) :
    extractValueMeta P (l.toRec.bytes P) = .ok (v.bytes, m, expiryFlag x ||| v.flag) := by
  have hhead : (l.toRec.bytes P).take headerLen = l.toRec.headerBytes P := by
    rw [l.toRec.bytes_eq, List.take_left' (l.toRec.length_headerBytes P)]
  have hkey : (l.toRec.header P).keySize = key.length := by
    simp [Rec.header, Logged.toRec, hop, LogOp.key]
  have hval : (l.toRec.header P).valSize = v.bytes.length := by
    simp [Rec.header, Logged.toRec, hop, LogOp.value]
  have hmeta : (l.toRec.header P).metaSize = m.length := by
    simp [Rec.header, Logged.toRec, hop, LogOp.metadata]
  have hflags : (l.toRec.header P).flags = expiryFlag x ||| v.flag := by
    simp [Rec.header, Logged.toRec, hop, LogOp.flags]
  have hbody : l.toRec.body = key ++ v.bytes ++ m := by
    simp [Rec.body, Logged.toRec, hop, LogOp.key, LogOp.value, LogOp.metadata]
  have hbytes : l.toRec.bytes P = l.toRec.headerBytes P ++ (key ++ v.bytes ++ m) := by
    rw [l.toRec.bytes_eq, hbody]
  have hlen : (l.toRec.bytes P).length = headerLen + key.length + v.bytes.length + m.length := by
    rw [hbytes]; simp; omega
  have hslice : Bytes.slice (l.toRec.bytes P) headerLen
      (headerLen + key.length + v.bytes.length + m.length - headerLen) = l.toRec.body := by
    rw [hbytes, Bytes.slice_append_right (by simp), Rec.length_headerBytes, Nat.sub_self, hbody]
    exact Bytes.slice_of_length (by simp; omega)
  have hv : Bytes.slice (l.toRec.bytes P) (headerLen + key.length) v.bytes.length = v.bytes := by
    have := Bytes.slice_mid (l.toRec.headerBytes P ++ key) v.bytes m
    rw [List.length_append, Rec.length_headerBytes] at this
    rw [hbytes]
    simpa using this
  have hm :
      Bytes.slice (l.toRec.bytes P) (headerLen + key.length + v.bytes.length) m.length = m := by
    have := Bytes.slice_mid (l.toRec.headerBytes P ++ key ++ v.bytes) m []
    rw [List.length_append, List.length_append, Rec.length_headerBytes] at this
    rw [hbytes]
    simpa using this
  unfold extractValueMeta
  rw [hhead, l.toRec.parseHeader_headerBytes]
  simp only [bind, Except.bind, hkey, hval, hmeta, hlen, lt_irrefl, if_false, hslice,
    l.toRec.verifyCrc_headerBytes, hv, hm, hflags, pure, Except.pure]

/-- Only the blob a record points at matters for reading it. -/
theorem readBytes_put_congr {l : Logged} {key m : Bytes} {v : Stored} {x : Option UInt64}
    (hop : l.op = .put key v m x) {blob blob' : ContentHash → Option Bytes}
    (hblob : ∀ h, v.hash? = some h → blob' h = blob h) :
    readBytes P blob' (l.toRec.bytes P) = readBytes P blob (l.toRec.bytes P) := by
  have hderef : derefOn P blob' v.bytes (expiryFlag x ||| v.flag)
      = derefOn P blob v.bytes (expiryFlag x ||| v.flag) := by
    unfold derefOn
    rw [(hasFlag_put v x).2.2.2]
    cases v with
    | inline b => simp [Stored.hash?]
    | blob h => simp [Stored.hash?, Stored.bytes, FooterEntry.hashOfBytes_toList, hblob h rfl]
  simp only [readBytes, extractValueMeta_put hop, bind, Except.bind, hderef]

/-- The same record, sidecar entries and blob: the same answer. -/
theorem keyState_congr (h : LogOk P s.core) (h' : LogOk P s'.core) {k : Bytes}
    (hview : viewAt s'.core.handles s'.disk s'.index k = viewAt s.core.handles s.disk s.index k)
    (hblob : ∀ hash, s.index.valsep k = some hash → s'.disk.blob hash = s.disk.blob hash) :
    keyState P s' k = keyState P s k := by
  rw [keyState_eq h, keyState_eq h', hview]
  cases hk : s.index.get k with
  | none => simp [viewAt, hk]
  | some e =>
    obtain ⟨f, hf, l, v, m, x, hop, -, hhash, hsize, hslice⟩ := h.files.resolves hk
    have hread : readBytes P s'.disk.blob (l.toRec.bytes P)
        = readBytes P s.disk.blob (l.toRec.bytes P) :=
      readBytes_put_congr hop fun hash hv => hblob hash (hhash ▸ hv)
    have hslice' : Bytes.slice (s.disk.inodes f.ino) e.recordOffset e.recordSize
        = l.toRec.bytes P := hslice
    simp only [viewAt, hk, Option.map_some, hf, hslice', hread]

theorem SameBlobs.blob {d d' : Disk} (h : SameBlobs d d') (hash : ContentHash) :
    d'.blob hash = d.blob hash := by
  unfold Disk.blob
  rw [h.blobs]
  cases hb : d.blobs[hash]? with
  | none => rfl
  | some ino => exact congrArg some (h.bytes hb)

end reading

end BeyondKv
