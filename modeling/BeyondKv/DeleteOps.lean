/-
# Deletes, expiry updates, syncs

The operations that write no put: a delete forgets the key before it logs the
tombstone, an expiry update logs before it touches the index, a sync changes
nothing but blobs, and the footer of a shutdown is the one a rotation would
write.
-/
import BeyondKv.Ops

namespace BeyondKv

open Std (ExtTreeMap)
open Async

section deletes
variable {P : Prims} {s : NsState} {key : Bytes}

/-- A tombstone is never larger than the record it deletes. -/
theorem LogOk.tombstone_fits {c : Core} (h : LogOk P c) (hlive : (c.index.get key).isSome) :
    headerLen + key.length + ([] : Bytes).length + ([] : Bytes).length ≤ u32Max := by
  obtain ⟨e, he⟩ := Option.isSome_iff_exists.mp hlive
  obtain ⟨f, -, l, v, m, x, hop, -⟩ := h.files.resolves he
  have hfits := l.fits
  rw [hop] at hfits
  simp only [LogOp.key, List.length_nil] at hfits ⊢
  omega

/-- An append to the active file that is not followed by an `unref`. -/
theorem wpx_appendActive {buf : Bytes} {Q : Except EngineError Nat → NsState → Prop}
    (h : LogOk P s.core) (hio : ∀ e s, Q (.error (.io e)) s)
    (hok : ∀ s', (s.core.activeBytes ++ buf).length ≤ maxFileSize →
      Leaves s (s.core.appendActive buf) s' → Q (.ok s.core.activeBytes.length) s') :
    wpx Anywhere (s.active.append buf) Q s :=
  wpx_append h.fault h.ring h.tight trivial trivial trivial (fun _ => hio) fun hsize =>
    hok _ (by rw [List.length_append]; exact hsize) ⟨rfl, rfl⟩

theorem wpx_commitTombstone {Q : Except EngineError UInt64 → NsState → Prop}
    (h : LogOk P s.core) (hlive : (s.index.get key).isSome) (hio : ∀ e s, Q (.error (.io e)) s)
    (hok : ∀ l c' s', l.tstampMs = nextRevision s → l.op = .tombstone key →
      Change P s.core (.tombstone l) c' →
      Leaves s c' s' → Q (.ok l.tstampMs) s') :
    wpx Anywhere (commitTombstone P key) Q s := by
  simp only [commitTombstone, wpx_seq, wpx_liftTask, wpc_at, wpc_step, onOk_ok]
  refine wpc_nextTstamp fun tstamp s₁ hnext hl₁ => ?_
  have hcore₁ : s₁.core = s.core.setIndex (s.index.remove key).2 := hl₁.core
  have hlocks₁ : s₁.locks = s.locks := hl₁.locks
  have hok₁ : LogOk P s₁.core := hcore₁ ▸ h.remove key
  refine wpx_encodeOp (fun hbig => absurd (h.tombstone_fits hlive) (Nat.not_le.mpr hbig))
    fun l hts hop => ?_
  simp only [onOk_ok, wpc_gets, List.nil_append]
  refine wpx_appendActive hok₁ (fun e s => hio e s) fun s₂ hsize hl₂ => ?_
  simp only [onOk_ok, wpc_countAppend, wpc_modify, wpx_pure]
  rw [hcore₁] at hsize hl₂
  have hun := unref?_leaves (s.index.valsep key) (addUnsynced (l.toRec.bytes P).length s₂)
  rw [← hts]
  refine hok l _ _ (hts.trans hnext) hop (.tombstone hop hsize)
    ⟨?_, hun.locks.trans (hl₂.locks.trans hlocks₁)⟩
  exact hun.core.trans hl₂.core

theorem wpx_tombstone {Q : Except EngineError (Option UInt64) → NsState → Prop}
    (h : LogOk P s.core) (hq : s.locks.Free) (hio : ∀ e s, Q (.error (.io e)) s)
    (hnone : ∀ c' s', s.index.get key = none → Change P s.core .forget c' → Leaves s c' s' →
      Q (.ok none) s')
    (hok : ∀ l c' s', (s.index.get key).isSome → l.op = .tombstone key →
      Change P s.core (.tombstone l) c' → Leaves s c' s' → Q (.ok (some l.tstampMs)) s') :
    wpx Anywhere (tombstone P key) Q s := by
  refine wpx_writing hq ?_
  simp only [wpx_seq, wpx_liftTask, wpc_gets, onOk_ok]
  by_cases hlive : (s.index.get key).isSome = true
  · have hlive' : ((writingState P key s).index.get key).isSome = true := hlive
    simp only [hlive', if_true, wpx_seq]
    refine wpx_commitTombstone h hlive' (fun e s => hio e _) fun l c' s' _ hop hc hl => ?_
    simp only [onOk_ok, wpx_pure]
    exact hok l c' _ hlive hop hc (hl.writeOver hq)
  · have hnil : s.index.get key = none := by simpa using hlive
    have hlive' : ((writingState P key s).index.get key).isSome = false := by
      change (s.index.get key).isSome = false
      rw [hnil]; rfl
    simp only [hlive', Bool.false_eq_true, if_false, wpx_seq, wpx_liftTask, wpc_at,
      wpc_modify, onOk_ok,
      wpx_pure]
    exact hnone _ _ hnil (.forget hnil) (Leaves.writeOver hq ⟨rfl, rfl⟩)

theorem liveRev_isSome {idx : NsIndex} {now rev : UInt64}
    (h : liveRev idx key now = some rev) : (idx.get key).isSome := by
  unfold liveRev at h
  split at h
  · cases h
  · obtain ⟨e, he, -⟩ := Option.map_eq_some_iff.mp h
    simp [he]

theorem wpx_tombstoneCond {rev now : UInt64}
    {Q : Except EngineError (Option UInt64) → NsState → Prop}
    (h : LogOk P s.core) (hq : s.locks.Free) (hio : ∀ e s, Q (.error (.io e)) s)
    (hno : ∀ s', Leaves s s.core s' → Q (.ok none) s')
    (hok : ∀ l c' s', liveRev s.index key now = some rev → l.op = .tombstone key →
      Change P s.core (.tombstone l) c' → Leaves s c' s' → Q (.ok (some l.tstampMs)) s') :
    wpx Anywhere (tombstoneCond P key rev now) Q s := by
  refine wpx_writing hq ?_
  simp only [wpx_seq, wpx_liftTask, wpc_gets, onOk_ok]
  by_cases hrev : liveRev s.index key now = some rev
  · have hrev' : liveRev (writingState P key s).index key now = some rev := hrev
    simp only [hrev', decide_true, if_true, wpx_seq]
    refine wpx_commitTombstone h (liveRev_isSome hrev') (fun e s => hio e _)
      fun l c' s' _ hop hc hl => ?_
    simp only [onOk_ok, wpx_pure]
    exact hok l c' _ hrev hop hc (hl.writeOver hq)
  · have hrev' : ¬ liveRev (writingState P key s).index key now = some rev := hrev
    simp only [hrev', decide_false, Bool.false_eq_true, if_false, wpx_seq, wpx_liftTask,
      wpc_at, onOk_ok,
      wpx_pure]
    exact hno _ (Leaves.writeOver hq ⟨rfl, rfl⟩)

theorem wpx_ttlUpdate {x : Option UInt64} {Q : Except EngineError UInt64 → NsState → Prop}
    (h : LogOk P s.core) (hq : s.locks.Free) (hio : ∀ e s, Q (.error (.io e)) s)
    (hbig : ∀ s', Leaves s s.core s' → Q (.error recordTooLarge) s')
    (hok : ∀ l c' s', l.tstampMs = nextRevision s → l.op = .ttlUpdate key x →
      Change P s.core (.ttl l) c' →
      Leaves s c' s' → Q (.ok l.tstampMs) s') :
    wpx Anywhere (ttlUpdate P key x) Q s := by
  refine wpx_writing hq ?_
  simp only [wpx_seq, wpx_liftTask]
  refine wpc_nextTstamp fun tstamp s₁ hnext hl₁ => ?_
  have hcore₁ : s₁.core = s.core := hl₁.core
  have hok₁ : LogOk P s₁.core := hcore₁ ▸ h
  simp only [onOk_ok]
  refine wpx_encodeOp (fun _ => hbig _ (Leaves.writeOver hq hl₁)) fun l hts hop => ?_
  simp only [onOk_ok, wpc_at, wpc_gets, List.nil_append]
  refine wpx_appendActive hok₁ (fun e s => hio e _) fun s₂ hsize hl₂ => ?_
  simp only [onOk_ok, wpc_countAppend, wpc_modify, wpx_pure]
  rw [hcore₁] at hsize hl₂
  rw [← hts]
  refine hok l _ _ (hts.trans hnext) hop (.ttl hop hsize)
    (Leaves.writeOver hq ⟨?_, hl₂.locks.trans hl₁.locks⟩)
  have hindex : s₂.index = s.core.index := congrArg Core.index hl₂.core
  rw [← hl₂.core, ← hindex]
  rfl

end deletes

/-! ## Syncs -/

section syncs
variable {P : Prims} {s : NsState}

/-- Unlinking a blob is a side step. -/
theorem SideStep.eraseBlob (d : Disk) (h : ContentHash) :
    SideStep d { d with blobs := d.blobs.erase h } where
  data := rfl
  unlinked := rfl
  nextIno := Nat.le_refl _
  inodes := fun _ => rfl
  blobs := fun hb => by
    rw [ExtTreeMap.getElem?_erase] at hb
    split at hb
    · cases hb
    · exact .inl hb
  blobInj := fun hinj h₁ h₂ ino hb₁ hb₂ => by
    rw [ExtTreeMap.getElem?_erase] at hb₁ hb₂
    split at hb₁
    · cases hb₁
    · split at hb₂
      · cases hb₂
      · exact hinj hb₁ hb₂

theorem wpc_collect {h : ContentHash} {Q : Unit → NsState → Prop} (hf : ∀ n, s.fault n = none)
    (hlock : ∀ i, s.fileLocks i = false)
    (hok : ∀ d s', SideStep s.disk d → Leaves s (s.core.setDisk d) s' → Q () s') :
    wpc Anywhere (ValueStore.collect h) Q s := by
  have hback : Function.update (Function.update s.fileLocks (ValueStore.flockIdx h) true)
      (ValueStore.flockIdx h) false = s.fileLocks := by
    rw [Function.update_idem, Function.update_eq_self_iff, hlock]
  simp only [ValueStore.collect, wpc_seq, ValueStore.lockFile]
  rw [wpc_acquire_free (hlock _)]
  simp only [wpc_gets]
  by_cases hzero : ValueStore.refcount (ValueStore.setFileLock h true s) h = 0
  · simp only [hzero, if_true, wpc_seq]
    refine wpc_request hf ?_
    simp only [wpc_modify, wpc_at]
    exact hok _ _ (SideStep.eraseBlob s.disk h) ⟨rfl, by
      simp only [NsState.locks, ValueStore.unlockFile, ValueStore.setFileLock,
        NsState.after, hback]⟩
  · simp only [hzero, if_false, wpc_seq, wpc_modify, wpc_at]
    exact hok s.disk _ (SideStep.refl _) ⟨rfl, by
      simp only [NsState.locks, ValueStore.unlockFile, ValueStore.setFileLock, hback]⟩

theorem wpc_collectAll {hs : List ContentHash} {Q : Unit → NsState → Prop}
    (hf : ∀ n, s.fault n = none) (hlock : ∀ i, s.fileLocks i = false)
    (hok : ∀ d s', SideStep s.disk d → Leaves s (s.core.setDisk d) s' → Q () s') :
    wpc Anywhere (ValueStore.collectAll hs) Q s := by
  induction hs generalizing s with
  | nil =>
    simp only [ValueStore.collectAll, wpc_pure]
    exact hok s.disk s (SideStep.refl _) ⟨rfl, rfl⟩
  | cons h hs ih =>
    simp only [ValueStore.collectAll, wpc_seq]
    refine wpc_collect hf hlock fun d s₁ hside hl => ?_
    have hdisk : s₁.disk = d := congrArg Core.disk hl.core
    have hf₁ : ∀ n, s₁.fault n = none := by
      have : s₁.fault = s.fault := congrArg Core.fault hl.core
      rw [this]; exact hf
    refine ih hf₁ (hl.fileLocks ▸ hlock) fun d' s' hside' hl' => ?_
    rw [hl.core] at hl'
    exact hok d' s' (hside.trans (hdisk ▸ hside')) (hl.trans hl')

theorem wpx_syncLog {Q : Except EngineError Unit → NsState → Prop} (h : LogOk P s.core)
    (hq : s.locks.Free)
    (hok : ∀ c' s', Change P s.core .blobs c' → Leaves s c' s' → Q (.ok ()) s') :
    wpx Anywhere sync Q s := by
  have hgc : ∀ s₁ : NsState, Leaves s s.core s₁ →
      wpc Anywhere ValueStore.collectGarbage (fun a s => Q (.ok a) s) s₁ := by
    intro s₁ hl₁
    have hf₁ : s₁.fault = s.fault := congrArg Core.fault hl₁.core
    have hd₁ : s₁.disk = s.core.disk := congrArg Core.disk hl₁.core
    simp only [ValueStore.collectGarbage, wpc_seq, wpc_step]
    refine wpc_collectAll (hf₁ ▸ h.fault) (hl₁.fileLocks ▸ hq.fileLocks) fun d s' hside hl => ?_
    have hcore : s'.core = s.core.setDisk d := by rw [← hl₁.core]; exact hl.core
    exact hok _ s' (.blobs (hd₁ ▸ hside)) ⟨hcore, hl.locks.trans hl₁.locks⟩
  simp only [sync, wpx_seq, wpx_liftTask, wpc_gets, onOk_ok]
  by_cases hbytes : s.unsyncedBytes > 0
  · simp only [hbytes, if_true, wpx_seq, wpx_liftTask, wpc_gets, onOk_ok]
    rw [wpx_sync h.fault]
    simp only [onOk_ok, wpc_at, wpc_modify]
    exact ⟨trivial, trivial, hgc _ ⟨rfl, rfl⟩⟩
  · simp only [hbytes, if_false, wpx_liftTask]
    exact hgc _ ⟨rfl, rfl⟩

theorem wpx_sealActiveForShutdown {Q : Except EngineError Unit → NsState → Prop}
    (h : LogOk P s.core) (hio : ∀ e s, Q (.error (.io e)) s)
    (hok : ∀ s', (s.core.footered P).activeBytes.length ≤ maxFileSize →
      Leaves s (s.core.footered P) s' → Q (.ok ()) s') :
    wpx Anywhere (sealActiveForShutdown P) Q s := by
  have hseal : ∀ s₁ : NsState, Leaves s s.core s₁ →
      wpx Anywhere (s.active.writeFooter P (footerOf s₁.index s.active.fileId))
        (onOk (fun _ s => Q (.ok ()) s) Q) s₁ := by
    intro s₁ hl₁
    have hactive : s.active = s₁.active := (congrArg Core.active hl₁.core).symm
    have hok₁ : LogOk P s₁.core := hl₁.core ▸ h
    rw [hactive]
    refine wpx_writeFooter hok₁.fault hok₁.ring hok₁.tight (fun _ _ => trivial) (fun _ => hio)
      fun hsize _ => ?_
    refine hok _ ?_ ⟨?_, hl₁.locks⟩
    · rw [← hl₁.core]
      simpa [Core.footered, Core.appendActive, Core.activeBytes, NsState.core] using hsize
    · rw [← hl₁.core]; rfl
  simp only [sealActiveForShutdown, wpx_seq, wpx_liftTask, wpc_gets, onOk_ok]
  by_cases hbytes : s.unsyncedBytes ≠ 0
  · simp only [hbytes, if_true, ne_eq, not_false_eq_true, wpx_seq, wpx_liftTask]
    rw [wpx_sync h.fault]
    simp only [onOk_ok, wpc_at, wpc_modify, wpc_gets, wpx_pure]
    exact ⟨trivial, trivial, hseal _ ⟨rfl, rfl⟩⟩
  · simp only [hbytes, if_false, wpx_seq, wpx_liftTask, wpc_gets, onOk_ok, wpx_pure]
    exact hseal _ ⟨rfl, rfl⟩

end syncs

end BeyondKv
