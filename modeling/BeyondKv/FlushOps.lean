/-
# Flush, run alone

`flush` forgets the index, unlinks every data file and starts over with an empty
file 0. While the unlinks run, the directory holds some of the old files and
nothing else has changed (`Gone`); after them it holds none, and the log that
starts over is in order (`Flushed`).
-/
import BeyondKv.ReclaimOps

namespace BeyondKv

open Std (ExtTreeMap)
open Async

/-- The names `ids` are gone from the directory; contents and blobs are as before. -/
structure Gone (ids : List Nat) (d d' : Disk) : Prop where
  inodes : d'.inodes = d.inodes
  nextIno : d'.nextIno = d.nextIno
  blobs : d'.blobs = d.blobs
  data : ∀ id : Nat, d'.data[id]? = if id ∈ ids then none else d.data[id]?
  logs : ∀ {id ino : Nat}, d'.Logs id ino → d.Logs id ino

theorem Gone.refl (d : Disk) : Gone [] d d :=
  ⟨rfl, rfl, rfl, fun _ => by simp, fun h => h⟩

/-- One more name goes. -/
theorem Gone.unlink {ids : List Nat} {d d' : Disk} (h : Gone ids d d') {id ino : Nat}
    (hd : d'.data[id]? = some ino) : Gone (ids ++ [id]) d (d'.unlinkData id ino) where
  inodes := h.inodes
  nextIno := h.nextIno
  blobs := h.blobs
  data := fun id' => by
    simp only [Disk.unlinkData, ExtTreeMap.getElem?_erase, h.data, List.mem_append,
      List.mem_singleton]
    by_cases hid : id = id'
    · simp [hid]
    · simp [hid, Ne.symm hid]
  logs := by
    rintro id' ino' (hf | hf)
    · simp only [Disk.unlinkData, ExtTreeMap.getElem?_erase] at hf
      split at hf
      · cases hf
      · exact h.logs (.inl hf)
    · rcases List.mem_cons.mp hf with heq | hf
      · cases heq; exact h.logs (.inl hd)
      · exact h.logs (.inr hf)

/-- A name that is not there stays away. -/
theorem Gone.missing {ids : List Nat} {d d' : Disk} (h : Gone ids d d') {id : Nat}
    (hd : d'.data[id]? = none) : Gone (ids ++ [id]) d d' where
  inodes := h.inodes
  nextIno := h.nextIno
  blobs := h.blobs
  data := fun id' => by
    rw [h.data]
    by_cases hid : id' = id
    · subst hid
      rw [h.data] at hd
      simp [hd]
    · simp [hid]
  logs := h.logs

theorem Gone.setTmp {ids : List Nat} {d d' : Disk} (h : Gone ids d d') (tmp : ExtTreeMap Nat Nat) :
    Gone ids d { d' with tmp } := ⟨h.inodes, h.nextIno, h.blobs, h.data, h.logs⟩

theorem Gone.none {d d' : Disk} (h : Gone d.data.keys d d') (id : Nat) :
    d'.data[id]? = Option.none := by
  rw [h.data]
  cases hd : d.data[id]? with
  | none => simp
  | some ino =>
    have hmem : id ∈ d.data.keys :=
      ExtTreeMap.mem_keys.mpr (ExtTreeMap.isSome_getElem?_iff_mem.mp (by rw [hd]; rfl))
    simp [hmem]

/-- With all names gone, no handle is left and the directory is in order. -/
theorem Gone.filesOk {P : Prims} {H S : ExtTreeMap Nat LogFile} {d d' : Disk} {idx : NsIndex}
    (h : Gone d.data.keys d d') (hok : FilesOk P H S d idx) : FilesOk P ∅ ∅ d' .empty := by
  have hnone := h.none
  constructor
  · constructor
    · intro id; rw [hnone]; simp
    · intro id f hf; simp at hf
    · exact fun h₁ h₂ => hok.dir.inj (h.logs h₁) (h.logs h₂)
    · intro id ino hd; rw [hnone] at hd; cases hd
    · intro id ino hl; rw [h.nextIno]; exact hok.dir.lt (h.logs hl)
    · intro id ino hd; rw [hnone] at hd; cases hd
    · intro hash ino hb; rw [h.nextIno]; rw [h.blobs] at hb; exact hok.dir.blobLt hb
    · intro h₁ h₂ ino hb₁ hb₂; rw [h.blobs] at hb₁ hb₂; exact hok.dir.blobInj hb₁ hb₂
    · intro hash id ino hb hl; rw [h.blobs] at hb; exact hok.dir.blobApart hb (h.logs hl)
  · intro k e hk; rw [NsIndex.get_empty] at hk; cases hk
  · intro id f hf; simp at hf
  · intro id f hf; simp at hf

/-! ## The run -/

/-- The log after a flush. -/
structure Flushed (P : Prims) (s s' : NsState) : Prop where
  ok : LogOk P s'.core
  locks : s'.locks = s.locks
  index : s'.index = .empty
  sealed : s'.sealed = ∅
  active : s'.active.fileId = 0
  bytes : s'.core.activeBytes = []

/-- What one member of the unlinking does. -/
def unlinkName : Nat ⊕ Nat → Task Unit
  | .inl id => do let _ ← unlinkData id; return ()
  | .inr id => unlinkTmp id

/-- The data files among some names. -/
def dataNames (fs : List (Nat ⊕ Nat)) : List Nat := fs.filterMap Sum.getLeft?

/-- Since `s` only names have been removed. -/
def Unlinking (s : NsState) (fs : List (Nat ⊕ Nat)) (s' : NsState) : Prop :=
  ∃ tick d, s' = s.moved tick d ∧ Gone (dataNames fs) s.disk d

section flush
variable {P : Prims} {Cr : NsState → Prop} {s : NsState}

theorem wpc_unlinkName (hf : ∀ n, s.fault n = none)
    (hcr : ∀ ids s', Gone ids s.disk s'.disk → s'.ring = s.ring → Cr s') {fs : List (Nat ⊕ Nat)}
    {f : Nat ⊕ Nat} {s₁ : NsState} (h : Unlinking s fs s₁) :
    wpc Cr (unlinkName f) (fun _ s' => Unlinking s (fs ++ [f]) s') s₁ := by
  have hstate : ∀ {fs s'}, Unlinking s fs s' → Cr s' := by
    rintro fs s' ⟨tick, d, rfl, hd⟩
    exact hcr _ _ hd rfl
  have hbefore : Cr s₁ := hstate h
  obtain ⟨tick, d, rfl, hd⟩ := h
  have hf₁ : ∀ n, (s.moved tick d).fault n = none := hf
  cases f with
  | inl id =>
    have hnames : dataNames (fs ++ [.inl id]) = dataNames fs ++ [id] := by simp [dataNames]
    simp only [unlinkName, unlinkData, wpc_seq, wpc_pure]
    suffices hgone : Unlinking s (fs ++ [.inl id]) _ from wpc_io_of hf₁ hbefore (hstate hgone) hgone
    refine ⟨tick + 1, _, rfl, ?_⟩
    have hdisk : (s.moved tick d).disk = d := rfl
    rw [hnames, hdisk]
    cases hid : d.data[id]? with
    | some ino => exact hd.unlink hid
    | none => exact hd.missing hid
  | inr id =>
    have hnames : dataNames (fs ++ [.inr id]) = dataNames fs := by simp [dataNames]
    have hgone :
      Unlinking s (fs ++ [.inr id]) ((s.moved tick d).after { d with tmp := d.tmp.erase id }) :=
      ⟨tick + 1, _, rfl, by rw [hnames]; exact hd.setTmp _⟩
    simp only [unlinkName, unlinkTmp, wpc_seq, wpc_pure]
    exact wpc_io_of hf₁ hbefore (hstate hgone) hgone

/-- The log has forgotten its keys and files; the directory is untouched. -/
def cleared (s : NsState) : NsState := { s with sealed := ∅, index := s.index.clear }

/-- The names a flush unlinks. -/
def flushNames (d : Disk) : List (Nat ⊕ Nat) := d.data.keys.map .inl ++ d.tmp.keys.map .inr

theorem dataNames_flushNames (d : Disk) : dataNames (flushNames d) = d.data.keys := by
  simp [dataNames, flushNames, List.filterMap_append, List.filterMap_map, Function.comp_def]

/-- The directory with an empty file 0 and no other data file. -/
theorem Gone.restarted {d d' : Disk} {idx : NsIndex} {H S : ExtTreeMap Nat LogFile}
    (h : Gone d.data.keys d d') (hok : FilesOk P H S d idx) :
    FilesOk P ((∅ : ExtTreeMap Nat LogFile).insert 0 ⟨0, d'.nextIno⟩) ∅
      (d'.openCreateData 0).2 .empty := by
  have hfiles := h.filesOk hok
  rw [openCreateData_new (h.none 0)]
  exact (hfiles.sideStep hfiles.dir.tmpStep_alloc.toSideStep).link hfiles.dir.unused_alloc
    (by simp [Disk.alloc]) (by simp)

/-- An empty log on the directory `d`. -/
def Core.startOver (c : Core) (d : Disk) : Core :=
  { c with
    disk := (d.openCreateData 0).2
    index := c.index.clear
    sealed := ∅
    active := ⟨0, d.nextIno⟩
    cells := Function.update c.cells d.nextIno ⟨0, false⟩ }

theorem wpx_flushInner {Q : Except EngineError Unit → NsState → Prop} (hf : ∀ n, s.fault n = none)
    (hcr : ∀ ids s', Gone ids s.disk s'.disk → s'.ring = s.ring → Cr s')
    (hnew : ∀ d s', Gone s.disk.data.keys s.disk d → s'.disk = (d.openCreateData 0).2 →
      s'.ring = s.ring → Cr s')
    (hok : ∀ d s', Gone s.disk.data.keys s.disk d → Leaves s (s.core.startOver d) s' →
      Q (.ok ()) s') : wpx Cr flushInner Q s := by
  simp only [flushInner, wpx_seq, wpx_liftTask, wpc_at, wpc_modify, wpc_gets, onOk_ok, wpc_joinAll]
  have hstart : Unlinking (cleared s) [] (cleared s) := ⟨s.tick, s.disk, rfl, Gone.refl _⟩
  refine seqList_prefix (fun _ => ()) (Unlinking (cleared s)) ?_ hstart ?_
  · intro done f rest _ s₁ hs₁
    have hstep := wpc_unlinkName (f := f) (s := cleared s) hf hcr hs₁
    refine ⟨?_, ?_⟩
    · obtain ⟨tick, d, rfl, hd⟩ := hs₁
      exact hcr _ _ hd rfl
    · cases f with
      | inl id => exact wpc_mono hstep (fun _ h => h) fun _ _ h => ⟨rfl, h⟩
      | inr id => exact wpc_mono hstep (fun _ h => h) fun _ _ h => ⟨rfl, h⟩
  intro s₁ hs₁
  change Unlinking (cleared s) (flushNames s.disk) s₁ at hs₁
  obtain ⟨tick, d, rfl, hd⟩ := hs₁
  rw [dataNames_flushNames] at hd
  refine ⟨hcr _ _ hd rfl, ?_⟩
  refine wpx_openRw_new hf (hd.none 0) ?_ ?_
  · rintro s' hr (hd' | hd')
    · exact hcr s.disk.data.keys s' (hd' ▸ hd) hr
    · exact hnew d s' hd hd' hr
  simp only [onOk_ok, syncDir, wpc_seq, wpc_pure]
  exact wpc_io_of hf (hnew d _ hd rfl rfl) (hnew d _ hd rfl rfl) (hok d _ hd ⟨rfl, rfl⟩)

theorem wpx_flush {Q : Except EngineError UInt64 → NsState → Prop} (hf : ∀ n, s.fault n = none)
    (hq : s.locks.Free) (hcr : ∀ ids s', Gone ids s.disk s'.disk → s'.ring = s.ring → Cr s')
    (hnew : ∀ d s', Gone s.disk.data.keys s.disk d → s'.disk = (d.openCreateData 0).2 →
      s'.ring = s.ring → Cr s')
    (hok : ∀ d s', Gone s.disk.data.keys s.disk d → Leaves s (s.core.startOver d) s' →
      Q (.ok (nextRevision s)) s') : wpx Cr flush Q s := by
  have hr : s.reclaimInProgress = false := hq.reclaim
  have hw : (setReclaiming true s).inFlightWrites = 0 := hq.inFlight
  simp only [flush, wpx_seq, wpx_liftTask]
  refine wpc_awaitReclaim hq ?_
  simp only [onOk_ok, wpc_step, hr, Bool.false_eq_true, if_false, wpx_seq, wpx_liftTask, wpc_at,
    wpc_drainWrites hw]
  refine wpc_nextTstamp fun rev s₁ hrev hl => ?_
  have hcore : s₁.core = s.core := hl.core
  have hdisk : s₁.disk = s.disk := congrArg Core.disk hcore
  have hring : s₁.ring = s.ring := congrArg Core.ring hcore
  have hfault : s₁.fault = s.fault := congrArg Core.fault hcore
  have hf₁ : ∀ n, s₁.fault n = none := fun n => hfault ▸ hf n
  simp only [wpx_guarded, wpx_seq]
  refine wpx_flushInner hf₁ (fun ids s' hg hr => hcr ids s' (hdisk ▸ hg) (hr.trans hring))
    (fun d s' hg hd hr => hnew d s' (hdisk ▸ hg) hd (hr.trans hring)) fun d s' hg hl' => ?_
  simp only [onOk_ok, wpx_pure, hrev]
  refine hok d _ (hdisk ▸ hg) ⟨hl'.core.trans (hcore ▸ rfl), ?_⟩
  have hlocks := congrArg (fun l : Locks => { l with reclaimInProgress := false })
    (hl'.locks.trans hl.locks)
  simp only [NsState.locks, setReclaiming] at hlocks ⊢
  rw [hlocks, hr]

/-- A flush leaves a log in order. -/
theorem Gone.flushed {d : Disk} {s' : NsState} (h : LogOk P s.core)
    (hd : Gone s.disk.data.keys s.disk d)
    (hl : Leaves s (s.core.startOver d) s') : Flushed P s s' := by
  have hcore := hl.core
  have hbytes : (d.openCreateData 0).2.inodes d.nextIno = [] := by
    rw [openCreateData_new (hd.none 0)]; simp [Disk.link, Disk.alloc]
  have hok : LogOk P (s.core.startOver d) := by
    refine ⟨h.fault, h.ring, hd.restarted h.files, ?_, Nat.zero_le _, ?_⟩
    · intro id f hf
      change (∅ : ExtTreeMap Nat LogFile)[id]? = some f at hf
      simp at hf
    · change Function.update s.cells d.nextIno ⟨0, false⟩ d.nextIno
        = ⟨((d.openCreateData 0).2.inodes d.nextIno).length, false⟩
      rw [hbytes]
      simp
  exact ⟨hcore ▸ hok, hl.locks, congrArg Core.index hcore, congrArg Core.sealed hcore,
    congrArg (fun c => c.active.fileId) hcore, by rw [hcore]; exact hbytes⟩

end flush

end BeyondKv
