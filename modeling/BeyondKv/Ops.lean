/-
# Operations as changes of the log

What each operation of a namespace does when nobody else runs and no request
faults: it ends, the locks it took are free again, and the core has moved by
`Change`s. A specification asks nothing of a run that ends in an I/O error, so
the largest file size never has to be reasoned about.

Specifications are rules: they take what must hold of the result in each case
and return the weakest-precondition judgement of the operation.
-/
import BeyondKv.LogOk

namespace BeyondKv

open Std (ExtTreeMap)
open Async Function List

/-- Nothing is asked of the states in which a task is suspended. -/
abbrev Anywhere : NsState → Prop := fun _ => True

/-- The core is `c` and every lock and setting is as in `s`. -/
structure Leaves (s : NsState) (c : Core) (s' : NsState) : Prop where
  core : s'.core = c
  locks : s'.locks = s.locks

theorem Leaves.trans {s s' s'' : NsState} {c c' : Core} (h : Leaves s c s')
    (h' : Leaves s' c' s'') :
    Leaves s c' s'' := ⟨h'.core, h'.locks.trans h.locks⟩

section leaves
variable {s s' : NsState} {c : Core}

theorem Leaves.rotateInProgress (h : Leaves s c s') : s'.rotateInProgress = s.rotateInProgress :=
  congrArg Locks.rotateInProgress h.locks

theorem Leaves.fileLocks (h : Leaves s c s') : s'.fileLocks = s.fileLocks :=
  congrArg Locks.fileLocks h.locks

theorem Leaves.config (h : Leaves s c s') : s'.config = s.config := congrArg Locks.config h.locks

end leaves

section requests
variable {s : NsState}

@[simp] theorem NsState.disk_after (s : NsState) (d : Disk) : (s.after d).disk = d := rfl

/-- The state at another time with another directory. -/
def NsState.moved (s : NsState) (tick : Nat) (d : Disk) : NsState := { s with tick, disk := d }

/-- A write to an open file nobody else writes. -/
theorem wpc_writeAllAt {ino off : Nat} {data : Bytes} {Q : Except IoError Unit → NsState → Prop}
    (hf : ∀ n, s.fault n = none) (hring : s.ring = []) (hio : ∀ e s, Q (.error e) s)
    (hok : Q (.ok ()) (s.moved (s.tick + 2) (s.disk.writeAt ino off data))) :
    wpc Anywhere (writeAllAt ino off data) Q s := by
  simp only [writeAllAt, wpc_seq, wpc_step, wpc_yield, wpc_at, wpc_modify, wpc_pure, true_and]
  simp only [submitWrite, hring]
  by_cases hsize : off + data.length > maxFileSize
  · simp only [performWrite, hf, if_pos hsize]
    exact hio _ _
  · simp only [performWrite, hf, if_neg hsize]
    simpa [reapWrite, reapPending, takePending, hring, NsState.moved] using hok

theorem wpc_request {α : Type} {op : Disk → Except IoError α × Disk}
    {Q : Except IoError α → NsState → Prop} (hf : ∀ n, s.fault n = none)
    (hok : Q (op s.disk).1 (s.after (op s.disk).2)) : wpc Anywhere (io op) Q s :=
  (wpc_io hf).mpr ⟨trivial, trivial, hok⟩

theorem wpc_syncDir_calm {Q : Unit → NsState → Prop} (hf : ∀ n, s.fault n = none)
    (hok : Q () (s.after s.disk)) : wpc Anywhere syncDir Q s :=
  (wpc_syncDir hf).mpr ⟨trivial, trivial, hok⟩

/-- A request as a `Result`. -/
theorem wpx_request {α : Type} {op : Disk → Except IoError α × Disk} {a : α} {d : Disk}
    {Q : Except EngineError α → NsState → Prop} (hf : ∀ n, s.fault n = none)
    (hop : op s.disk = (.ok a, d)) (hok : Q (.ok a) (s.after d)) :
    wpx Anywhere (ioAct (io op)) Q s := by
  rw [wpx_ioAct, wpc_io hf, hop]
  exact ⟨trivial, trivial, hok⟩

end requests

/-! ## Blobs -/

section blobs
variable {s : NsState} {H : ExtTreeMap Nat LogFile} {hash : ContentHash}

theorem DirOk.sideStep_blobBytes {d : Disk} (h : DirOk H d) {ino : Nat}
    (hb : d.blobs[hash]? = some ino) (b : Bytes) : SideStep d (d.setBytes ino b) where
  data := rfl
  unlinked := rfl
  nextIno := Nat.le_refl _
  inodes := fun hl => d.inodes_setBytes_of_ne b fun heq => h.blobApart hb (heq ▸ hl)
  blobs := .inl
  blobInj := fun h => h

/-- Only the blob in the inode has new bytes. -/
theorem DirOk.blob_setBytes {d : Disk} (h : DirOk H d) {ino : Nat}
    (hb : d.blobs[hash]? = some ino) (b : Bytes) (hash' : ContentHash) :
    (d.setBytes ino b).blob hash' = if hash' = hash then some b else d.blob hash' := by
  by_cases heq : hash' = hash
  · have hb' : (d.setBytes ino b).blobs[hash]? = some ino := hb
    rw [if_pos heq, heq, Disk.blob, hb', Option.map_some, Disk.inodes_setBytes]
  · rw [if_neg heq]
    refine Option.map_congr fun ino' hb' => d.inodes_setBytes_of_ne b fun hino => heq ?_
    exact h.blobInj hb' (hino ▸ hb)

theorem SideStep.valuesDir (d : Disk) (b : Bool) : SideStep d { d with valuesDir := b } :=
  { SideStep.refl d with }

/-- Opening a blob creates or empties it. -/
theorem openBlob_spec {d : Disk} (h : DirOk H d) (hash : ContentHash) (hv : d.valuesDir = true) :
    ∃ ino d', ValueStore.openBlob hash d = (.ok ino, d') ∧ SideStep d d'
      ∧ d'.blobs[hash]? = some ino ∧ d'.inodes ino = [] ∧ d'.valuesDir = true
      ∧ ∀ hash', d'.blob hash' = if hash' = hash then some [] else d.blob hash' := by
  cases hb : d.blobs[hash]? with
  | some ino =>
    refine ⟨ino, d.setBytes ino [], ?_, h.sideStep_blobBytes hb [], hb, ?_, hv,
      h.blob_setBytes hb []⟩
    · simp [ValueStore.openBlob, hv, hb]
    · simp
  | none =>
    refine ⟨d.nextIno, { d.alloc with blobs := d.blobs.insert hash d.nextIno }, ?_, ?_,
      ?_, ?_, hv, ?_⟩
    · simp [ValueStore.openBlob, hv, hb, Disk.alloc]
    · refine ⟨rfl, rfl, Nat.le_succ _, ?_, ?_, ?_⟩
      · exact fun hl => update_of_ne (Nat.ne_of_lt (h.lt hl)) _ _
      · intro hash' ino hb'
        by_cases heq : hash = hash'
        · simp [heq] at hb'; exact .inr ⟨hb'.le, hb' ▸ Nat.lt_succ_self _⟩
        · simp [ExtTreeMap.getElem?_insert, heq] at hb'; exact .inl hb'
      · intro hinj h₁ h₂ ino hb₁ hb₂
        by_cases heq₁ : hash = h₁ <;> by_cases heq₂ : hash = h₂
        · exact heq₁ ▸ heq₂
        · simp [heq₁] at hb₁
          simp [ExtTreeMap.getElem?_insert, heq₂] at hb₂
          exact absurd (h.blobLt hb₂) (by omega)
        · simp [ExtTreeMap.getElem?_insert, heq₁] at hb₁
          simp [heq₂] at hb₂
          exact absurd (h.blobLt hb₁) (by omega)
        · simp [ExtTreeMap.getElem?_insert, heq₁] at hb₁
          simp [ExtTreeMap.getElem?_insert, heq₂] at hb₂
          exact hinj hb₁ hb₂
    · simp
    · simp [Disk.alloc]
    · intro hash'
      by_cases heq : hash' = hash
      · simp [Disk.blob, Disk.alloc, heq]
      · have hne : hash ≠ hash' := Ne.symm heq
        simp only [Disk.blob, Disk.alloc, ExtTreeMap.getElem?_insert, Std.compare_eq_iff_eq,
          hne, if_false,
          if_neg heq]
        exact Option.map_congr fun ino hb' => update_of_ne (Nat.ne_of_lt (h.blobLt hb')) _ _

theorem wpx_writeBlobDurable {value : Bytes}
    {Q : Except EngineError Unit → NsState → Prop} (hf : ∀ n, s.fault n = none)
    (hring : s.ring = []) (hdir : DirOk H s.disk) (hio : ∀ e s, Q (.error (.io e)) s)
    (hok : ∀ n d, SideStep s.disk d →
      (∀ h, d.blob h = if h = hash then some value else s.disk.blob h) →
      Q (.ok ()) (s.moved n d)) :
    wpx Anywhere (ValueStore.writeBlobDurable hash value) Q s := by
  have hside₁ : SideStep s.disk { s.disk with valuesDir := true } := .valuesDir _ _
  have hdir₁ := hdir.sideStep hside₁
  obtain ⟨ino, d₂, hopen, hside₂, hblob, hempty, hv, hblobs⟩ := openBlob_spec hdir₁ hash rfl
  have hdir₂ := hdir₁.sideStep hside₂
  have hside₃ : SideStep d₂ (d₂.writeAt ino 0 value) := hdir₂.sideStep_blobBytes hblob _
  simp only [ValueStore.writeBlobDurable, wpx_seq]
  refine wpx_request hf rfl ?_
  simp only [onOk_ok]
  refine wpx_request hf hopen ?_
  simp only [onOk_ok]
  refine wpx_ioAct.mpr (wpc_writeAllAt hf hring (fun e s => hio e s) ?_)
  simp only [ofIo_ok, onOk_ok]
  -- the fsyncs change nothing
  refine wpx_request hf rfl ?_
  simp only [onOk_ok, wpx_liftTask]
  refine wpc_request hf ?_
  have hv' : (d₂.writeAt ino 0 value).valuesDir = true := hv
  refine wpx_request hf (if_pos hv') ?_
  simp only [onOk_ok]
  refine wpx_request hf rfl ?_
  refine hok _ _ ((hside₁.trans hside₂).trans hside₃) fun h => ?_
  have hbytes : Bytes.writeAt (d₂.inodes ino) 0 value = value := by
    rw [hempty]; exact Bytes.writeAt_end value rfl
  change (d₂.setBytes ino (Bytes.writeAt (d₂.inodes ino) 0 value)).blob h = _
  rw [hdir₂.blob_setBytes hblob, hblobs, hbytes]
  split <;> rfl

/-- One more reference to the value, and its blob written if it is the first. -/
structure Banked (P : Prims) (value : Bytes) (s s' : NsState) : Prop where
  refs : ∀ h, ValueStore.refcount s' h
    = ValueStore.refcount s h + if h = P.contentHash value then 1 else 0
  blob : ∀ h, s'.disk.blob h
    = if h = P.contentHash value ∧ ValueStore.refcount s h = 0 then some value else s.disk.blob h

theorem refcount_setRef (s : NsState) (h h' : ContentHash) (n : Nat) :
    ValueStore.refcount { s with refs := s.refs.insert h n } h'
      = if h' = h then n else ValueStore.refcount s h' := by
  simp only [ValueStore.refcount, ExtTreeMap.getD_insert, Std.compare_eq_iff_eq, eq_comm (a := h)]

/-- Storing a value touches no data file and gives the blob's lock back. -/
theorem wpx_valuePut {P : Prims} {value : Bytes}
    {Q : Except EngineError ContentHash → NsState → Prop}
    (hf : ∀ n, s.fault n = none) (hring : s.ring = []) (hlock : ∀ i, s.fileLocks i = false)
    (hdir : DirOk H s.disk) (hio : ∀ e s, Q (.error (.io e)) s)
    (hok : ∀ d s', SideStep s.disk d → Banked P value s s' → Leaves s (s.core.setDisk d) s' →
      Q (.ok (P.contentHash value)) s') :
    wpx Anywhere (ValueStore.put P value) Q s := by
  have hback : Function.update (Function.update s.fileLocks
      (ValueStore.flockIdx (P.contentHash value)) true)
      (ValueStore.flockIdx (P.contentHash value)) false = s.fileLocks := by
    rw [update_idem, update_eq_self_iff, hlock]
  have hfirst : (ValueStore.takeRef (P.contentHash value)
      (ValueStore.setFileLock (P.contentHash value) true s)).1
      = decide (ValueStore.refcount s (P.contentHash value) = 0) :=
    decide_eq_decide.mpr (Nat.add_eq_right (b := 1))
  have hrefs : ∀ h, ValueStore.refcount (ValueStore.takeRef (P.contentHash value) s).2 h
      = ValueStore.refcount s h + if h = P.contentHash value then 1 else 0 := by
    intro h
    simp only [ValueStore.takeRef, refcount_setRef]
    by_cases hh : h = P.contentHash value
    · rw [if_pos hh, if_pos hh, hh]
    · rw [if_neg hh, if_neg hh, Nat.add_zero]
  simp only [ValueStore.put, wpx_seq, wpx_liftTask, ValueStore.lockFile]
  rw [wpc_acquire_free (hlock _)]
  simp only [onOk_ok, wpx_guarded, wpx_seq, wpx_liftTask, wpc_step, hfirst]
  by_cases hzero : ValueStore.refcount s (P.contentHash value) = 0
  · simp only [hzero, decide_true, if_true, wpx_seq, wpx_mk, wpc_seq, wpc_run]
    refine wpx_writeBlobDurable hf hring hdir (fun e s => ?_) (fun n d hside hblob => ?_)
    · simp only [wpc_seq, wpc_modify, wpc_pure, onOk_error]
      exact hio _ _
    · simp only [wpc_pure, onOk_ok, wpx_pure]
      refine hok d _ hside ⟨hrefs, fun h => (hblob h).trans ?_⟩ ⟨rfl, by simp only [NsState.locks,
        ValueStore.unlockFile, ValueStore.setFileLock, NsState.moved, ValueStore.takeRef, hback]⟩
      by_cases hh : h = P.contentHash value
      · rw [if_pos hh, if_pos ⟨hh, hh ▸ hzero⟩]
      · rw [if_neg hh, if_neg fun hand => hh hand.1]
        rfl
  · simp only [hzero, decide_false, if_false, Bool.false_eq_true, wpx_pure]
    refine hok s.disk _ (SideStep.refl _) ⟨hrefs, fun h => ?_⟩ ⟨rfl, by simp only [NsState.locks,
      ValueStore.unlockFile, ValueStore.setFileLock, ValueStore.takeRef, hback]⟩
    have hkept : ¬ (h = P.contentHash value ∧ ValueStore.refcount s h = 0) :=
      fun hand => hzero (hand.1 ▸ hand.2)
    rw [if_neg hkept]
    rfl

end blobs

/-! ## Rotation -/

section rotation
variable {P : Prims} {s : NsState}

theorem foldr_max_le {l : List Nat} {b : Nat} (h : ∀ x ∈ l, x ≤ b) : l.foldr max 0 ≤ b := by
  induction l with
  | nil => exact Nat.zero_le _
  | cons x xs ih =>
    exact Nat.max_le.mpr ⟨h x (mem_cons_self ..), ih fun y hy => h y (mem_cons_of_mem _ hy)⟩

theorem maxFileId_eq (h : ∀ {id : Nat} {f : LogFile}, s.sealed[id]? = some f → id ≤ s.active.fileId)
    :
    maxFileId s = s.active.fileId := by
  have hle : s.sealed.keys.foldr max 0 ≤ s.active.fileId := by
    refine foldr_max_le fun id hid => ?_
    obtain ⟨f, hf⟩ := Option.isSome_iff_exists.mp
      (ExtTreeMap.isSome_getElem?_iff_mem.mpr (ExtTreeMap.mem_keys.mp hid))
    exact h hf
  exact Nat.max_eq_right hle

/-- What `nextFileId` says when the ids run out. -/
def idOverflow : EngineError :=
  .capacityExceeded "file_id overflow: namespace has too many log files"

theorem wpx_nextFileId {Cr : NsState → Prop} {Q : Except EngineError Nat → NsState → Prop}
    (hover : u32Max < maxFileId s + 1 → Q (.error idOverflow) s)
    (hok : maxFileId s + 1 ≤ u32Max → Q (.ok (maxFileId s + 1)) s) :
    wpx Cr nextFileId Q s := by
  simp only [nextFileId, wpx_seq, wpx_liftTask, wpc_gets, onOk_ok]
  by_cases hid : maxFileId s + 1 > u32Max
  · simp only [if_pos hid, wpx_seq, wpx_throw, onOk_error]
    exact hover hid
  · simp only [if_neg hid, wpx_pure]
    exact hok (Nat.le_of_not_lt hid)

theorem wpx_rotateActiveInner {Q : Except EngineError Unit → NsState → Prop}
    (h : LogOk P s.core)
    (hio : maxFileSize < (s.core.footered P).activeBytes.length → ∀ e s, Q (.error (.io e)) s)
    (hlast : ∀ s', Change P s.core .footer (s.core.footered P) →
      Leaves s (s.core.footered P) s' → Q (.error idOverflow) s')
    (hok : ∀ c' s', Change P s.core .rotate c' → Leaves s c' s' → Q (.ok ()) s') :
    wpx Anywhere (rotateActiveInner P) Q s := by
  simp only [rotateActiveInner, wpx_seq, wpx_liftTask, wpc_at, wpc_gets, onOk_ok]
  refine wpx_writeFooter h.fault h.ring h.tight (fun _ _ => trivial) (fun hbig e s => hio ?_ e s) ?_
  · simpa [Core.footered, Core.appendActive, Core.activeBytes, NsState.core] using hbig
  intro hsize req
  have hsize' : (s.core.footered P).activeBytes.length ≤ maxFileSize := by
    simpa [Core.footered, Core.appendActive, Core.activeBytes, NsState.core] using hsize
  have hmax : maxFileId (s.active.footered P (footerOf s.index s.active.fileId) s)
      = s.active.fileId := maxFileId_eq fun hs => Nat.le_of_lt (h.below hs)
  simp only [onOk_ok]
  refine wpx_nextFileId ?_ ?_
  · rw [hmax]
    exact fun hid => hlast _ (.footer hsize' hid) ⟨rfl, rfl⟩
  · rw [hmax]
    intro hid
    simp only [onOk_ok, wpc_modify]
    have hnew : s.disk.data[s.active.fileId + 1]? = none := by
      have hunused := h.unused_above (Nat.lt_succ_self s.active.fileId)
      have hmap := h.files.dir.map (s.active.fileId + 1)
      rw [hunused] at hmap
      exact hmap
    refine wpx_openRw_new h.fault hnew (fun _ _ _ => trivial) ?_
    simp only [onOk_ok]
    refine wpc_syncDir_calm h.fault ?_
    exact hok _ _ (.rotate hsize' hid) ⟨rfl, rfl⟩

theorem wpx_rotateActive {Q : Except EngineError Unit → NsState → Prop}
    (h : LogOk P s.core) (hfree : s.rotateInProgress = false)
    (hio : maxFileSize < (s.core.footered P).activeBytes.length → ∀ e s, Q (.error (.io e)) s)
    (hlast : ∀ s', Change P s.core .footer (s.core.footered P) →
      Leaves s (s.core.footered P) s' → Q (.error idOverflow) s')
    (hok : ∀ c' s', Change P s.core .rotate c' → Leaves s c' s' → Q (.ok ()) s') :
    wpx Anywhere (rotateActive P) Q s := by
  have hback : ∀ {c : Core} {s' : NsState}, Leaves (setRotating true s) c s' →
      Leaves s c (setRotating false s') := fun hl => ⟨hl.core, by
    have := congrArg (fun l : Locks => { l with rotateInProgress := false }) hl.locks
    simp only [NsState.locks, setRotating, hfree] at this ⊢
    exact this⟩
  simp only [rotateActive, wpx_seq, wpx_liftTask, wpc_gets, hfree, onOk_ok, Bool.false_eq_true,
    if_false, wpc_modify, wpx_guarded]
  refine wpx_rotateActiveInner h (fun hbig e s => hio hbig e _) (fun s' hc hl => ?_)
    fun c' s' hc hl => ?_
  · exact hlast _ hc (hback hl)
  · exact hok c' _ hc (hback hl)

end rotation

/-! ## Puts -/

section puts
variable {P : Prims} {s : NsState} {Cr : NsState → Prop}

/-- What `encodeInto` answers to a record beyond the limit. -/
def recordTooLarge : EngineError := .badRecord 0 "record exceeds 4 GiB limit"

theorem wpx_encodeOp {buf : Bytes} {tstamp : UInt64} {op : LogOp}
    {Q : Except EngineError Bytes → NsState → Prop}
    (hbig : u32Max < headerLen + op.key.length + op.value.length + op.metadata.length →
      Q (.error recordTooLarge) s)
    (hok : ∀ l : Logged, l.tstampMs = tstamp → l.op = op → Q (.ok (buf ++ l.toRec.bytes P)) s) :
    wpx Cr (encodeOp P buf tstamp op) Q s := by
  unfold encodeOp
  rw [wpx_mk, wpc_pure]
  by_cases hfits : headerLen + op.key.length + op.value.length + op.metadata.length ≤ u32Max
  · have henc := (Logged.toRec ⟨tstamp, op, hfits⟩).encodeInto_rec P buf
    exact henc ▸ hok ⟨tstamp, op, hfits⟩ rfl rfl
  · unfold encodeInto
    rw [if_neg hfits]
    exact hbig (Nat.lt_of_not_le hfits)

/-- The revision `next_tstamp` returns next. -/
def nextRevision (s : NsState) : UInt64 :=
  if s.clock s.readings > s.lastTstamp then s.clock s.readings else s.lastTstamp + 1

theorem wpc_nextTstamp {Q : UInt64 → NsState → Prop}
    (hok : ∀ t s', t = nextRevision s → Leaves s s.core s' → Q t s') : wpc Cr nextTstamp Q s := by
  simp only [nextTstamp, nowMs, wpc_seq, wpc_step]
  exact hok _ _ rfl ⟨rfl, rfl⟩

/-- The value field a put writes under `config`. -/
def storedAs (P : Prims) (config : LogConfig) (value : Bytes) : Stored :=
  storedOf value
    (if config.valueSepThreshold ≤ value.length then some (P.contentHash value) else none)

theorem wpx_maybeSeparate {value : Bytes}
    {Q : Except EngineError (Option ContentHash) → NsState → Prop}
    (h : LogOk P s.core) (hlock : ∀ i, s.fileLocks i = false) (hio : ∀ e s, Q (.error (.io e)) s)
    (hok : ∀ sep d s', storedOf value sep = storedAs P s.config value → SideStep s.disk d →
      (if s.config.valueSepThreshold ≤ value.length then Banked P value s s' else s' = s) →
      Leaves s (s.core.setDisk d) s' → Q (.ok sep) s') :
    wpx Anywhere (maybeSeparate P value) Q s := by
  simp only [maybeSeparate, wpx_seq, wpx_liftTask, wpc_gets, onOk_ok]
  by_cases hbig : s.config.valueSepThreshold ≤ value.length
  · simp only [if_pos hbig, wpx_seq]
    refine wpx_valuePut h.fault h.ring hlock h.files.dir (fun e s => hio e s) ?_
    intro d s' hs hbank hl
    simp only [onOk_ok, wpx_pure]
    exact hok _ d s' (by rw [storedAs, if_pos hbig]) hs (by rw [if_pos hbig]; exact hbank) hl
  · simp only [if_neg hbig, wpx_pure]
    exact hok _ s.disk s (by rw [storedAs, if_neg hbig]) (SideStep.refl _)
      (by rw [if_neg hbig]) ⟨rfl, rfl⟩

/-- A dropped reference changes only the counts and the queue of the collector. -/
theorem unref_eq (h : ContentHash) (s : NsState) :
    ∃ refs pendingDelete, ValueStore.unref h s = { s with refs, pendingDelete } := by
  have hdec : ∃ refs, (ValueStore.dec h s).2 = { s with refs } := by
    unfold ValueStore.dec
    cases s.refs[h]? with
    | none => exact ⟨s.refs, rfl⟩
    | some c =>
      by_cases hc : c - 1 = 0
      · exact ⟨s.refs.erase h, by simp [hc]⟩
      · exact ⟨s.refs.insert h (c - 1), by simp [hc]⟩
  obtain ⟨refs, hrefs⟩ := hdec
  unfold ValueStore.unref
  by_cases hdead : (ValueStore.dec h s).1 = true
  · exact ⟨refs, s.pendingDelete ++ [h], by simp [hdead, hrefs]⟩
  · exact ⟨refs, s.pendingDelete, by simp [hdead, hrefs]⟩

theorem unref_leaves (h : ContentHash) (s : NsState) : Leaves s s.core (ValueStore.unref h s) := by
  obtain ⟨refs, pendingDelete, heq⟩ := unref_eq h s
  rw [heq]
  exact ⟨rfl, rfl⟩

theorem unrefs_leaves (hs : List ContentHash) (s : NsState) :
    Leaves s s.core (hs.foldl (fun s h => ValueStore.unref h s) s) := by
  induction hs generalizing s with
  | nil => exact ⟨rfl, rfl⟩
  | cons h hs ih =>
    have hone := unref_leaves h s
    have hrest := ih (ValueStore.unref h s)
    exact ⟨hrest.core.trans hone.core, hrest.locks.trans hone.locks⟩

theorem unref?_leaves (h : Option ContentHash) (s : NsState) :
    Leaves s s.core (ValueStore.unref? h s) := by
  cases h with
  | none => exact ⟨rfl, rfl⟩
  | some h => exact unref_leaves h s

theorem wpx_appendOrUnref {buf : Bytes} {hs : List ContentHash}
    {Q : Except EngineError Nat → NsState → Prop} (h : LogOk P s.core)
    (hio : ∀ e s, Q (.error (.io e)) s)
    (hok : ∀ s', (s.core.activeBytes ++ buf).length ≤ maxFileSize →
      Leaves s (s.core.appendActive buf) s' → Q (.ok s.core.activeBytes.length) s') :
    wpx Anywhere (appendOrUnref s.active buf hs) Q s := by
  simp only [appendOrUnref, wpx_mk, wpc_seq, wpc_run]
  refine wpx_append h.fault h.ring h.tight trivial trivial trivial (fun _ e s => ?_)
    (fun hsize => ?_)
  · simp only [wpc_seq, wpc_modify, wpc_pure]
    exact hio _ _
  · simp only [wpc_pure]
    exact hok _ (by rw [length_append]; exact hsize) ⟨rfl, rfl⟩

/-- The core after the records and the index entries of some puts. -/
structure PutDone (P : Prims) (c : Core) (ops : List LogOp) (ls : List Logged) (c' : Core) :
    Prop where
  ops : ls.map Logged.op = ops
  step : ∃ d, SideStep c.disk d ∧ ((c.setDisk d).activeBytes ++ logBytes P ls).length ≤ maxFileSize
    ∧ c' = (c.setDisk d).putAll P ls

/-- How the puts `ops` can end: what was logged or the error, and the core they leave. -/
inductive PutEnds (P : Prims) (threshold : Nat) (c : Core) (ops : List LogOp) :
    Except EngineError (List Logged) → Core → Prop
  | tooLarge {d : Disk} (hs : SideStep c.disk d) :
      PutEnds P threshold c ops (.error recordTooLarge) (c.setDisk d)
  | stored {ls : List Logged} {c₁ : Core} (hd : PutDone P c ops ls c₁)
      (hfew : c₁.activeBytes.length < threshold) : PutEnds P threshold c ops (.ok ls) c₁
  | rotated {ls : List Logged} {c₁ c₂ : Core} (hd : PutDone P c ops ls c₁)
      (hfull : threshold ≤ c₁.activeBytes.length) (hr : Change P c₁ .rotate c₂) :
      PutEnds P threshold c ops (.ok ls) c₂
  | idsOut {ls : List Logged} {c₁ : Core} (hd : PutDone P c ops ls c₁)
      (hfull : threshold ≤ c₁.activeBytes.length) (hr : Change P c₁ .footer (c₁.footered P)) :
      PutEnds P threshold c ops (.error idOverflow) (c₁.footered P)

/-- Whatever the puts `ops` come to, it is as `Q` says; `f` are the records of a result. -/
def Puts {α : Type} (P : Prims) (s : NsState) (ops : List LogOp) (f : α → List Logged)
    (Q : Except EngineError α → NsState → Prop) : Prop :=
  ∀ r c' s', PutEnds P s.config.rotateThreshold s.core ops (r.map f) c' → Leaves s c' s' → Q r s'

theorem wpx_rotateIfFull {Q : Except EngineError Unit → NsState → Prop}
    (h : LogOk P s.core) (hfree : s.rotateInProgress = false) (hio : ∀ e s, Q (.error (.io e)) s)
    (hfew : s.core.activeBytes.length < s.config.rotateThreshold → Q (.ok ()) s)
    (hlast : ∀ s', s.config.rotateThreshold ≤ s.core.activeBytes.length →
      Change P s.core .footer (s.core.footered P) → Leaves s (s.core.footered P) s' →
      Q (.error idOverflow) s')
    (hok : ∀ c' s', s.config.rotateThreshold ≤ s.core.activeBytes.length →
      Change P s.core .rotate c' → Leaves s c' s' → Q (.ok ()) s') :
    wpx Anywhere (rotateIfFull P s.active) Q s := by
  have hoff : s.active.writeOffset s = s.core.activeBytes.length :=
    congrArg FileCell.writeOffset h.tight
  simp only [rotateIfFull, wpx_seq, wpx_liftTask, wpc_gets, onOk_ok, hoff]
  by_cases hfull : s.config.rotateThreshold ≤ s.core.activeBytes.length
  · simp only [hfull, decide_true, if_true]
    exact wpx_rotateActive h hfree (fun _ => hio) (fun s' => hlast s' hfull) fun c' s' =>
      hok c' s' hfull
  · simp only [hfull, decide_false, Bool.false_eq_true, if_false, wpx_pure]
    exact hfew (Nat.lt_of_not_le hfull)

theorem commitEntry_leaves (key : Bytes) (e : IndexEntry) (x : Option UInt64)
    (sep : Option ContentHash) (s : NsState) :
    Leaves s (s.core.setIndex ((s.index.insert key e x).setValsep key sep))
      (commitEntry key e x sep s) := by
  have h := unref?_leaves (s.index.valsep key)
    (s.setIndex ((s.index.insert key e x).setValsep key sep))
  exact ⟨h.core, h.locks⟩

theorem wpc_countAppend {f : LogFile} {offset n : Nat} {Q : Unit → NsState → Prop} :
    wpc Cr (countAppend f offset n) Q s ↔ Q () (addUnsynced n s) := by
  simp only [countAppend, wpc_seq, wpc_modify, wpc_at]

theorem hash_storedOf (value : Bytes) (sep : Option ContentHash) :
    (storedOf value sep).hash? = sep := by
  cases sep <;> rfl

/-- How a put ends from the append of its record on, and the core it leaves. -/
inductive Committed (P : Prims) (threshold : Nat) (c : Core) (l : Logged) :
    Except EngineError Unit → Core → Prop
  | stored (hfew : (c.putLogged P l).activeBytes.length < threshold) :
      Committed P threshold c l (.ok ()) (c.putLogged P l)
  | rotated {c₂ : Core} (hfull : threshold ≤ (c.putLogged P l).activeBytes.length)
      (hr : Change P (c.putLogged P l) .rotate c₂) : Committed P threshold c l (.ok ()) c₂
  | idsOut (hfull : threshold ≤ (c.putLogged P l).activeBytes.length)
      (hr : Change P (c.putLogged P l) .footer ((c.putLogged P l).footered P)) :
      Committed P threshold c l (.error idOverflow) ((c.putLogged P l).footered P)

theorem Committed.putEnds {threshold : Nat} {c c' : Core} {d : Disk} {l : Logged}
    {r : Except EngineError Unit}
    (h : Committed P threshold (c.setDisk d) l r c') (hside : SideStep c.disk d)
    (hsize : ((c.setDisk d).activeBytes ++ l.toRec.bytes P).length ≤ maxFileSize) :
    PutEnds P threshold c [l.op] (r.map fun _ => [l]) c' := by
  have hdone : PutDone P c [l.op] [l] ((c.setDisk d).putLogged P l) :=
    ⟨rfl, d, hside, by simpa [logBytes] using hsize, rfl⟩
  cases h with
  | stored hfew => exact .stored hdone hfew
  | rotated hfull hr => exact .rotated hdone hfull hr
  | idsOut hfull hr => exact .idsOut hdone hfull hr

/-- A put, once its value is where it belongs. -/
def commitStored (P : Prims) (key value metadata : Bytes) (expiresAtMs : Option UInt64)
    (tstamp : UInt64)
    (sepHash : Option ContentHash) : Act UInt64 := do
  let buf ← encodeOp P [] tstamp (.put key (storedOf value sepHash) metadata expiresAtMs)
  lift (Prog.at_ .reserve)
  let active ← lift (Prog.gets NsState.active)
  let offset ← appendOrUnref active buf sepHash.toList
  lift (countAppend active offset buf.length)
  let entry := IndexEntry.new active.fileId offset buf.length tstamp
  lift (Prog.at_ (.effect [.put key value metadata expiresAtMs tstamp]))
  lift (Prog.modify (commitEntry key entry expiresAtMs sepHash))
  rotateIfFull P active
  return tstamp

theorem commitPut_eq (P : Prims) (key value m : Bytes) (x : Option UInt64) :
    commitPut P key value m x = (do
    let tstamp ← lift nextTstamp
    let sepHash ← maybeSeparate P value
    commitStored P key value m x tstamp sepHash) := rfl

theorem wpx_commitStored {key value m : Bytes} {x : Option UInt64} {tstamp : UInt64}
    {sep : Option ContentHash}
    {Q : Except EngineError UInt64 → NsState → Prop} (h : LogOk P s.core)
    (hfree : s.rotateInProgress = false)
    (hio : ∀ e s, Q (.error (.io e)) s)
    (hbig : u32Max < headerLen + key.length + (storedOf value sep).bytes.length + m.length →
      Q (.error recordTooLarge) s)
    (hok : ∀ l r c' s', l.tstampMs = tstamp → l.op = .put key (storedOf value sep) m x →
      (s.core.activeBytes ++ l.toRec.bytes P).length ≤ maxFileSize →
      Committed P s.config.rotateThreshold s.core l r c' → Leaves s c' s' →
        Q (r.map fun _ => tstamp) s') :
    wpx Anywhere (commitStored P key value m x tstamp sep) Q s := by
  simp only [commitStored, wpx_seq, wpx_liftTask]
  refine wpx_encodeOp hbig fun l hts hop => ?_
  simp only [onOk_ok, wpc_at, wpc_gets, nil_append]
  refine wpx_appendOrUnref h (fun e s => hio e s) fun s₁ hsize hl₁ => ?_
  simp only [onOk_ok, wpc_countAppend, wpc_modify]
  -- the entry that is committed is the one of the record just appended
  have hcommit := commitEntry_leaves key
    (IndexEntry.new s.active.fileId s.core.activeBytes.length (l.toRec.bytes P).length tstamp) x sep
    (addUnsynced (l.toRec.bytes P).length s₁)
  generalize commitEntry key _ x sep (addUnsynced (l.toRec.bytes P).length s₁) = s₂ at hcommit ⊢
  have hput : s₂.core = s.core.putLogged P l := by
    have hindex : s₁.index = s.core.index := congrArg Core.index hl₁.core
    have hcore₁ :
      (addUnsynced (l.toRec.bytes P).length s₁).core = s.core.appendActive (l.toRec.bytes P) :=
      hl₁.core
    simp only [Core.putLogged, hop]
    rw [hcommit.core, hcore₁, Core.put, hash_storedOf, hts, ← hindex]
    rfl
  have hok₂ : LogOk P s₂.core := by
    rw [hput]
    exact h.putLogged hsize
  have hl₂ : Leaves s s₂.core s₂ := ⟨rfl, hcommit.locks.trans hl₁.locks⟩
  have hactive : s.active = s₂.active := by
    have h₂ : s₂.core.active = s.core.active := by rw [hput, putLogged_active]
    exact h₂.symm
  rw [hactive]
  refine wpx_rotateIfFull hok₂ (hl₂.rotateInProgress.trans hfree) (fun e s => hio e s) ?_ ?_ ?_
  · intro hfew
    simp only [onOk_ok, wpx_pure]
    rw [hput, hl₂.config] at hfew
    exact hok l (.ok ()) _ _ hts hop hsize (.stored hfew) (hput ▸ hl₂)
  · intro s' hfull hc hl
    rw [hput] at hfull hc hl hl₂
    rw [hl₂.config] at hfull
    exact hok l (.error idOverflow) _ _ hts hop hsize (.idsOut hfull hc) (hl₂.trans hl)
  · intro c' s' hfull hc hl
    simp only [onOk_ok, wpx_pure]
    rw [hput] at hfull hc hl₂
    rw [hl₂.config] at hfull
    exact hok l (.ok ()) _ _ hts hop hsize (.rotated hfull hc) (hl₂.trans hl)

theorem wpx_commitPut {key value m : Bytes} {x : Option UInt64}
    {Q : Except EngineError UInt64 → NsState → Prop} (h : LogOk P s.core)
    (hfree : s.rotateInProgress = false) (hlock : ∀ i, s.fileLocks i = false)
    (hio : ∀ e s, Q (.error (.io e)) s)
    (hend : Puts P s [.put key (storedAs P s.config value) m x] ([·]) fun r =>
      Q (r.map Logged.tstampMs)) :
    wpx Anywhere (commitPut P key value m x) Q s := by
  simp only [commitPut_eq, wpx_seq, wpx_liftTask]
  refine wpc_nextTstamp fun tstamp s₁ _ hl₁ => ?_
  have hok₁ : LogOk P s₁.core := hl₁.core ▸ h
  refine wpx_maybeSeparate hok₁ (hl₁.fileLocks ▸ hlock) (fun e s => hio e s) ?_
  intro sep d s₂ hsep hside _ hl₂
  rw [hl₁.config] at hsep
  rw [hl₁.core] at hl₂
  have hside : SideStep s.core.disk d := by rw [← hl₁.core]; exact hside
  have hok₂ : LogOk P s₂.core := hl₂.core ▸ h.blobs hside
  have hl₂ : Leaves s (s.core.setDisk d) s₂ := hl₁.trans hl₂
  simp only [onOk_ok]
  refine wpx_commitStored hok₂ (hl₂.rotateInProgress.trans hfree) (fun e s => hio e s)
    (fun _ => hend (.error _) _ _ (.tooLarge hside) hl₂) ?_
  intro l r c' s' hts hop hsize hcommitted hl
  rw [hl₂.core, hl₂.config] at hcommitted
  rw [hl₂.core] at hsize
  have hends := hcommitted.putEnds hside hsize
  rw [hop, hsep] at hends
  cases r with
  | ok _ => exact hts ▸ hend (.ok l) c' s' hends (hl₂.trans hl)
  | error e => exact hend (.error e) c' s' hends (hl₂.trans hl)

end puts

/-! ## The frame of a write -/

section writing
variable {P : Prims} {s : NsState} {Cr : NsState → Prop}

/-- The state a single-key write works in. -/
def writingState (P : Prims) (key : Bytes) (s : NsState) : NsState :=
  setStripe (stripeIdx P key) true (countWrite s)

/-- The end of a single-key write. -/
def writeOver (P : Prims) (key : Bytes) (s : NsState) : NsState :=
  endWrite (unlockStripe (stripeIdx P key) s)

theorem Leaves.writeOver {key : Bytes} (hq : s.locks.Free) {c : Core} {s' : NsState}
    (hl : Leaves (writingState P key s) c s') : Leaves s c (writeOver P key s') := by
  refine ⟨hl.core, ?_⟩
  have hstripes : Function.update (Function.update s.writeStripes (stripeIdx P key) true)
      (stripeIdx P key) false = s.writeStripes := by
    rw [update_idem, update_eq_self_iff]
    exact (hq.stripes _).symm
  have hl' := congrArg (fun l : Locks => { l with
    inFlightWrites := l.inFlightWrites - 1
    writeStripes := Function.update l.writeStripes (stripeIdx P key) false }) hl.locks
  simp only [NsState.locks, writingState, setStripe, countWrite, Nat.add_sub_cancel, hstripes]
    at hl'
  simp only [NsState.locks, BeyondKv.writeOver, endWrite, unlockStripe, setStripe]
  exact hl'

theorem wpc_awaitReclaim {Q : Unit → NsState → Prop} (hq : s.locks.Free)
    (hok : Q () s) : wpc Cr awaitReclaim Q s := by
  have hr : s.reclaimInProgress = false := hq.reclaim
  simp only [awaitReclaim, wpc_seq, wpc_gets, hr, Bool.false_eq_true, if_false, wpc_pure]
  exact hok

theorem wpc_drainWrites {Q : Unit → NsState → Prop} (h : s.inFlightWrites = 0) :
    wpc Cr drainWrites Q s ↔ Q () s := by
  simp only [drainWrites, wpc_seq, wpc_gets, h, gt_iff_lt, Nat.lt_irrefl, if_false, wpc_pure]

theorem wpx_beginWrite {Q : Except EngineError Unit → NsState → Prop}
    (hq : s.locks.Free) (hok : Q (.ok ()) (countWrite s)) : wpx Cr beginWrite Q s := by
  have hr : s.frozen = false := hq.frozen
  simp only [beginWrite, wpx_seq, wpx_liftTask, wpc_gets, hr, onOk_ok, Bool.false_eq_true, if_false,
    wpc_modify, wpc_at]
  exact hok

theorem wpx_writing {α : Type} {key : Bytes} {body : Act α}
    {Q : Except EngineError α → NsState → Prop} (hq : s.locks.Free)
    (hbody : wpx Cr body (fun r s' => Q r (writeOver P key s')) (writingState P key s)) :
    wpx Cr (writing P key body) Q s := by
  simp only [writing, wpx_seq, wpx_liftTask]
  refine wpc_awaitReclaim hq ?_
  simp only [onOk_ok]
  refine wpx_beginWrite hq ?_
  simp only [onOk_ok, wpx_guarded, wpx_seq, wpx_liftTask, lockStripe]
  rw [wpc_acquire_free (hq.stripes _)]
  exact hbody

theorem wpx_putFull {key value m : Bytes} {x : Option UInt64}
    {Q : Except EngineError UInt64 → NsState → Prop} (h : LogOk P s.core) (hq : s.locks.Free)
    (hio : ∀ e s, Q (.error (.io e)) s)
    (hend : Puts P s [.put key (storedAs P s.config value) m x] ([·]) fun r =>
      Q (r.map Logged.tstampMs)) :
    wpx Anywhere (putFull P key value m x) Q s := by
  refine wpx_writing hq ?_
  exact wpx_commitPut h hq.rotate hq.fileLocks (fun e s => hio e _) fun r c' s' hp hl =>
    hend r c' _ hp (hl.writeOver hq)

theorem wpx_putFullCond {key value m : Bytes} {x : Option UInt64} {cond : WriteCondition}
    {now : UInt64} {Q : Except EngineError (Option UInt64) → NsState → Prop}
    (h : LogOk P s.core) (hq : s.locks.Free) (hio : ∀ e s, Q (.error (.io e)) s)
    (hno : ∀ s', Leaves s s.core s' → Q (.ok none) s')
    (hend : Puts P s [.put key (storedAs P s.config value) m x] ([·]) fun r =>
      Q (r.map fun l => some l.tstampMs)) :
    wpx Anywhere (putFullCond P key value m x cond now) Q s := by
  refine wpx_writing hq ?_
  simp only [wpx_seq, wpx_liftTask, wpc_gets, onOk_ok]
  by_cases hc : cond.check (liveRev (writingState P key s).index key now) = true
  · simp only [hc, if_true, wpx_seq]
    refine wpx_commitPut h hq.rotate hq.fileLocks (fun e s => hio e _) fun r c' s' hp hl => ?_
    have hQ := hend r c' _ hp (hl.writeOver hq)
    cases r with
    | error e => exact hQ
    | ok l =>
      simp only [Except.map, onOk_ok, wpx_pure]
      exact hQ
  · simp only [hc, if_false, Bool.false_eq_true, wpx_seq, wpx_liftTask, wpc_at, onOk_ok, wpx_pure]
    exact hno _ (Leaves.writeOver hq ⟨rfl, rfl⟩)

end writing

/-! ## Batches -/

section batches
variable {P : Prims} {s : NsState}

/-- The blob hash of a logged put. -/
def LogOp.hash? : LogOp → Option ContentHash
  | .put _ v _ _ => v.hash?
  | _ => none

/-- Where the records of a batch lie in its buffer, from `off` on. -/
def layout (P : Prims) : Nat → List Logged → List BatchItem
  | _, [] => []
  | off, l :: ls =>
    ⟨l.op.key, off, (l.toRec.bytes P).length, l.tstampMs, l.op.hash?⟩
      :: layout P (off + (l.toRec.bytes P).length) ls

/-- The operation a pair of a batch is logged as. -/
def batchOp (P : Prims) (config : LogConfig) (pair : Bytes × Bytes) : LogOp :=
  .put pair.1 (storedAs P config pair.2) [] none

theorem layout_tstamp (off : Nat) (ls : List Logged) :
    (layout P off ls).map BatchItem.tstamp = ls.map Logged.tstampMs := by
  induction ls generalizing off with
  | nil => rfl
  | cons l ls ih => rw [layout, map_cons, map_cons, ih]

/-- The encoding loop: one record per pair, end to end. -/
theorem wpx_encodeBatch {pairs : List (Bytes × Bytes)} {buf : Bytes}
    {Q : Except EngineError (Bytes × List BatchItem) → NsState → Prop}
    (h : LogOk P s.core) (hlock : ∀ i, s.fileLocks i = false) (hio : ∀ e s, Q (.error (.io e)) s)
    (hbig : ∀ d s', SideStep s.disk d → Leaves s (s.core.setDisk d) s' →
      Q (.error recordTooLarge) s')
    (hok : ∀ ls d s', ls.map Logged.op = pairs.map (batchOp P s.config) → SideStep s.disk d →
      Leaves s (s.core.setDisk d) s' →
      Q (.ok (buf ++ logBytes P ls, layout P buf.length ls)) s') :
    wpx Anywhere (encodeBatch P pairs buf) Q s := by
  induction pairs generalizing buf s Q with
  | nil =>
    simp only [encodeBatch, wpx_pure]
    have := hok [] s.disk s rfl (SideStep.refl _) ⟨rfl, rfl⟩
    simpa [logBytes, layout] using this
  | cons pair pairs ih =>
    obtain ⟨k, v⟩ := pair
    simp only [encodeBatch, wpx_seq, wpx_liftTask]
    refine wpc_nextTstamp fun tstamp s₁ _ hl₁ => ?_
    simp only [onOk_ok]
    have hok₁ : LogOk P s₁.core := hl₁.core ▸ h
    refine wpx_maybeSeparate hok₁ (hl₁.fileLocks ▸ hlock) (fun e s => hio e s) ?_
    intro sep d s₂ hsep hside _ hl₂
    rw [hl₁.config] at hsep
    rw [hl₁.core] at hl₂
    have hside : SideStep s.core.disk d := by rw [← hl₁.core]; exact hside
    have hok₂ : LogOk P s₂.core := hl₂.core ▸ h.blobs hside
    have hl₂ : Leaves s (s.core.setDisk d) s₂ := hl₁.trans hl₂
    have hdisk₂ : s₂.disk = d := congrArg Core.disk hl₂.core
    simp only [onOk_ok]
    refine wpx_encodeOp (fun _ => hbig d s₂ hside hl₂) fun l hts hop => ?_
    simp only [onOk_ok]
    refine ih hok₂ (hl₂.fileLocks ▸ hlock) (fun e s => hio e s) ?_ ?_
    · intro d' s' hside' hl'
      rw [hl₂.core] at hl'
      exact hbig d' s' (hside.trans (hdisk₂ ▸ hside')) (hl₂.trans hl')
    · intro ls d' s' hops hside' hl'
      rw [hl₂.core] at hl'
      simp only [onOk_ok, wpx_pure]
      have hops' : (l :: ls).map Logged.op = ((k, v) :: pairs).map (batchOp P s.config) := by
        rw [map_cons, map_cons, hops, hl₂.config, hop, hsep]; rfl
      have hfin := hok (l :: ls) d' s' hops' (hside.trans (hdisk₂ ▸ hside')) (hl₂.trans hl')
      have hhash : l.op.hash? = sep := by rw [hop]; exact hash_storedOf v sep
      have hkey : l.op.key = k := by rw [hop]; rfl
      simpa [logBytes_cons, layout, hts, hhash, hkey] using hfin

theorem appendActive_append (c : Core) (a b : Bytes) :
    (c.appendActive a).appendActive b = c.appendActive (a ++ b) := by
  simp [Core.appendActive, Core.activeBytes]

theorem appendActive_nil {c : Core} (h : LogOk P c) : c.appendActive [] = c := by
  have hcell : Function.update c.cells c.active.ino ⟨c.activeBytes.length, false⟩ = c.cells := by
    rw [← h.tight, update_eq_self]
  simp only [Core.appendActive, append_nil, hcell]
  rw [Core.activeBytes, Disk.setBytes_self]

/-- The index updates of a batch after its append are those of its puts one by one. -/
theorem putAll_eq {ls : List Logged} {c : Core} {off base : Nat} {old : List ContentHash}
    (h : LogOk P c) (hbase : base + off = c.activeBytes.length)
    (hsize : (c.activeBytes ++ logBytes P ls).length ≤ maxFileSize)
    (hops : ∀ l ∈ ls, ∃ k v, l.op = .put k v [] none) :
    (c.appendActive (logBytes P ls)).setIndex
        ((layout P off ls).foldl (insertItem c.active.fileId base) (c.index, old)).1
      = c.putAll P ls := by
  induction ls generalizing c off old with
  | nil =>
    have : c.appendActive (logBytes P []) = c := appendActive_nil h
    rw [this]; rfl
  | cons l ls ih =>
    obtain ⟨k, v, hop⟩ := hops l (mem_cons_self ..)
    rw [logBytes_cons] at hsize
    have hsize₁ : (c.activeBytes ++ l.toRec.bytes P).length ≤ maxFileSize := by
      simp only [length_append] at hsize ⊢; omega
    have hput : c.putLogged P l = c.put P l k v none := by simp only [Core.putLogged, hop]
    have hactive : (c.put P l k v none).activeBytes = c.activeBytes ++ l.toRec.bytes P := by
      simp [Core.put, Core.setIndex, Core.appendActive, Core.activeBytes]
    have hrest := @ih (c.put P l k v none) (off + (l.toRec.bytes P).length)
      (old ++ (c.index.valsep k).toList) (h.put hop hsize₁)
      (by rw [hactive, length_append]; omega)
      (by rw [hactive, append_assoc]; exact hsize)
      fun x hx => hops x (mem_cons_of_mem _ hx)
    have hstep : c.putAll P (l :: ls) = (c.put P l k v none).putAll P ls := by
      rw [Core.putAll, foldl_cons, hput]; rfl
    rw [hstep, ← hrest, logBytes_cons, ← appendActive_append]
    -- the first item of the layout is the entry of this record
    have hitem : insertItem c.active.fileId base (c.index, old)
          ⟨l.op.key, off, (l.toRec.bytes P).length, l.tstampMs, l.op.hash?⟩
        = ((c.put P l k v none).index, old ++ (c.index.valsep k).toList) := by
      simp only [insertItem, hop, LogOp.key, LogOp.hash?, hbase]; rfl
    rw [layout, foldl_cons, hitem]
    rfl

theorem commitBatch_leaves (fileId base : Nat) (items : List BatchItem) (s : NsState) :
    Leaves s (s.core.setIndex (items.foldl (insertItem fileId base) (s.index, [])).1)
      (commitBatch fileId base items s) := by
  have h := unrefs_leaves (items.foldl (insertItem fileId base) (s.index, [])).2
    (s.setIndex (items.foldl (insertItem fileId base) (s.index, [])).1)
  exact ⟨h.core, h.locks⟩

/-! ### The stripes of a batch -/

theorem foldl_setStripe (is : List Nat) (b : Bool) (s : NsState) :
    is.foldl (fun s i => setStripe i b s) s
      = { s with writeStripes := fun i => if i ∈ is then b else s.writeStripes i } := by
  induction is generalizing s with
  | nil => simp
  | cons i is ih =>
    rw [foldl_cons, ih]
    simp only [setStripe, mem_cons, NsState.mk.injEq, and_true, true_and]
    funext j
    by_cases hj : j ∈ is
    · simp [hj]
    · by_cases hi : j = i <;> simp [hj, hi]

theorem wpc_lockStripes {Cr : NsState → Prop} {is : List Nat} {Q : Unit → NsState → Prop}
    (hnodup : is.Nodup) (hfree : ∀ i ∈ is, s.writeStripes i = false)
    (hok : Q () (is.foldl (fun s i => setStripe i true s) s)) : wpc Cr (lockStripes is) Q s := by
  induction is generalizing s with
  | nil => simpa [lockStripes] using hok
  | cons i is ih =>
    rw [nodup_cons] at hnodup
    simp only [lockStripes, wpc_seq, lockStripe]
    rw [wpc_acquire_free (hfree i (mem_cons_self ..))]
    refine ih hnodup.2 (fun j hj => ?_) hok
    have hne : j ≠ i := fun heq => hnodup.1 (heq ▸ hj)
    simp only [setStripe, update_of_ne hne]
    exact hfree j (mem_cons_of_mem _ hj)

theorem batchStripes_nodup (P : Prims) (pairs : List (Bytes × Bytes)) :
    (batchStripes P pairs).Nodup := nodup_dedup _

/-- The state a batch works in. -/
def batchState (is : List Nat) (s : NsState) : NsState :=
  is.foldl (fun s i => setStripe i true s) (countWrite s)

theorem Leaves.batchOver {is : List Nat} (hq : s.locks.Free) {c : Core} {s' : NsState}
    (hl : Leaves (batchState is s) c s') : Leaves s c (endWrite (unlockStripes is s')) := by
  have hun : unlockStripes is s'
      = { s' with writeStripes := fun i => if i ∈ is then false else s'.writeStripes i } :=
    foldl_setStripe is false s'
  rw [hun]
  refine ⟨hl.core, ?_⟩
  have hl' := congrArg (fun l : Locks => { l with
    inFlightWrites := l.inFlightWrites - 1
    writeStripes := fun i => if i ∈ is then false else l.writeStripes i }) hl.locks
  have hstripes : (fun i => if i ∈ is then false else if i ∈ is then true else s.writeStripes i)
      = s.writeStripes := by
    funext i
    have := hq.stripes i
    by_cases hi : i ∈ is
    · simp only [hi, if_true]; exact this.symm
    · simp only [hi, if_false]
  rw [batchState, foldl_setStripe] at hl'
  simp only [NsState.locks, countWrite, Nat.add_sub_cancel, hstripes] at hl'
  simp only [NsState.locks, endWrite]
  exact hl'

theorem wpx_putMany {pairs : List (Bytes × Bytes)}
    {Q : Except EngineError (List UInt64) → NsState → Prop} (h : LogOk P s.core)
    (hq : s.locks.Free) (hio : ∀ e s, Q (.error (.io e)) s)
    (hnil : pairs = [] → ∀ s', Leaves s s.core s' → Q (.ok []) s')
    (hend : Puts P s (pairs.map (batchOp P s.config)) id fun r => Q (r.map (map Logged.tstampMs))) :
    wpx Anywhere (putMany P pairs) Q s := by
  simp only [putMany, wpx_seq, wpx_liftTask]
  refine wpc_awaitReclaim hq ?_
  simp only [onOk_ok]
  refine wpx_beginWrite hq ?_
  simp only [onOk_ok, wpx_guarded]
  by_cases hempty : pairs.isEmpty = true
  · simp only [hempty, if_true, wpx_seq, wpx_liftTask, wpc_at, onOk_ok, wpx_pure]
    exact hnil (List.isEmpty_iff.mp hempty) _ ⟨rfl, rfl⟩
  simp only [hempty, if_false, Bool.false_eq_true, wpx_seq, wpx_liftTask]
  refine wpc_lockStripes (batchStripes_nodup P pairs) (fun i _ => hq.stripes i) ?_
  simp only [onOk_ok, wpx_guarded, wpx_seq]
  have hcore : (batchState (batchStripes P pairs) s).core = s.core := by
    rw [batchState, foldl_setStripe]; rfl
  have hlocks : (batchState (batchStripes P pairs) s).rotateInProgress = false
      ∧ (∀ i, (batchState (batchStripes P pairs) s).fileLocks i = false)
      ∧ (batchState (batchStripes P pairs) s).config = s.config := by
    rw [batchState, foldl_setStripe]; exact ⟨hq.rotate, hq.fileLocks, rfl⟩
  have hover : ∀ {c : Core} {s' : NsState}, Leaves (batchState (batchStripes P pairs) s) c s' →
      Leaves s c (endWrite (unlockStripes (batchStripes P pairs) s')) := fun hl => hl.batchOver hq
  change wpx Anywhere _ _ (batchState (batchStripes P pairs) s)
  generalize batchState (batchStripes P pairs) s = s₀ at hcore hlocks hover ⊢
  obtain ⟨hrot, hfl, hconf⟩ := hlocks
  rw [Puts, ← hcore, ← hconf] at hend
  rw [← hcore] at h
  refine wpx_encodeBatch h hfl (fun e s => hio e _) ?_ ?_
  · exact fun d s' hside hl => hend (.error _) _ _ (.tooLarge hside) (hover hl)
  intro ls d s₂ hops hside hl₂
  have hok₂ : LogOk P s₂.core := hl₂.core ▸ h.blobs hside
  simp only [onOk_ok, wpx_liftTask, wpc_at, wpc_gets, nil_append, length_nil]
  refine wpx_appendOrUnref hok₂ (fun e s => hio e _) fun s₃ hsize hl₃ => ?_
  simp only [onOk_ok, wpc_countAppend, wpc_modify]
  have hcommit := commitBatch_leaves s₂.active.fileId s₂.core.activeBytes.length (layout P 0 ls)
    (addUnsynced (logBytes P ls).length s₃)
  generalize commitBatch s₂.active.fileId s₂.core.activeBytes.length (layout P 0 ls)
    (addUnsynced (logBytes P ls).length s₃) = s₄ at hcommit ⊢
  have hputs : ∀ l ∈ ls, ∃ k v, l.op = .put k v [] none := by
    intro l hl
    have hmem : l.op ∈ pairs.map (batchOp P s₀.config) := hops ▸ mem_map_of_mem hl
    obtain ⟨pair, -, hpair⟩ := mem_map.mp hmem
    exact ⟨pair.1, _, hpair.symm⟩
  have hput : s₄.core = (s₀.core.setDisk d).putAll P ls := by
    have hindex : s₃.index = s₂.core.index := congrArg Core.index hl₃.core
    have hcore₃ : (addUnsynced (logBytes P ls).length s₃).core
        = s₂.core.appendActive (logBytes P ls) := hl₃.core
    have hall := @putAll_eq P ls s₂.core 0 s₂.core.activeBytes.length [] hok₂ rfl hsize hputs
    rw [← hl₂.core, ← hall, hcommit.core, hcore₃, ← hindex]
    rfl
  have hsize' : ((s₀.core.setDisk d).activeBytes ++ logBytes P ls).length ≤ maxFileSize := by
    rw [← hl₂.core]; exact hsize
  have hdone : PutDone P s₀.core (pairs.map (batchOp P s₀.config)) ls s₄.core :=
    ⟨hops, d, hside, hsize', hput⟩
  have hok₄ : LogOk P s₄.core := by rw [hput]; exact (h.blobs hside).putAll hsize'
  have hl₄ : Leaves s₀ s₄.core s₄ := ⟨rfl, hcommit.locks.trans (hl₃.locks.trans hl₂.locks)⟩
  have hactive : s₂.active = s₄.active := by
    have h₂ : s₂.core.active = s₀.core.active := by rw [hl₂.core]; rfl
    have h₄ : s₄.core.active = s₀.core.active := by rw [hput, putAll_active]; rfl
    exact h₂.trans h₄.symm
  have htimes : (layout P 0 ls).map BatchItem.tstamp = ls.map Logged.tstampMs := layout_tstamp 0 ls
  rw [hactive, htimes]
  refine wpx_rotateIfFull hok₄ (hl₄.rotateInProgress.trans hrot) (fun e s => hio e _) ?_ ?_ ?_
  · intro hfew
    simp only [onOk_ok, wpx_pure]
    exact hend (.ok ls) _ _ (.stored hdone (hl₄.config ▸ hfew)) (hover hl₄)
  · intro s' hfull hc hl
    exact hend (.error _) _ _ (.idsOut hdone (hl₄.config ▸ hfull) hc) (hover (hl₄.trans hl))
  · intro c' s' hfull hc hl
    simp only [onOk_ok, wpx_pure]
    exact hend (.ok ls) _ _ (.rotated hdone (hl₄.config ▸ hfull) hc) (hover (hl₄.trans hl))

end batches

end BeyondKv
