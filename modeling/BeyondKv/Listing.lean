/-
# What the footers say along a history

In every state of a history the sealed files list the live keys (`Core.Listed`),
whatever the calls. They may tell more than that (`Core.Tells`): a delete of a key that
some sealed file lists, or a new expiry for a key whose record is sealed, is only in a
later file's records, and no footer mentions it.
-/
import BeyondKv.Calls

namespace BeyondKv

open Std (ExtTreeMap)
open Async

/-- The files of a map, by id and inode. -/
def filesOf (S : ExtTreeMap Nat LogFile) (id ino : Nat) : Prop := S[id]? = some ⟨id, ino⟩

/-- The sealed files list the live keys. -/
def Core.Listed (P : Prims) (c : Core) : Prop :=
  Lists P c.disk (filesOf c.sealed) (some c.active.fileId) c.index

/-- The sealed files tell nothing else. -/
def Core.Tells (P : Prims) (c : Core) : Prop := Told P c.disk (filesOf c.sealed) c.index

/-! ## Steps -/

section steps
variable {P : Prims} {d d' : Disk} {F : Nat → Nat → Prop} {a : Option Nat} {idx idx' : NsIndex}

theorem Lists.disk (h : Lists P d F a idx)
    (hd : ∀ {id ino : Nat}, F id ino → d'.inodes ino = d.inodes ino) : Lists P d' F a idx := by
  constructor
  · intro id ino hF fe hfe
    rw [hd hF] at hfe
    exact h.below hF fe hfe
  · intro k e hk ha
    obtain ⟨ino, hF, hlist⟩ := h.lists hk ha
    exact ⟨ino, hF, by rw [hd hF]; exact hlist⟩

/-- A key of the new index is an old one, or it is above every listing. -/
theorem Lists.setIndex (h : Lists P d F a idx)
    (hidx : ∀ {k : Bytes} {e : IndexEntry}, idx'.get k = some e →
      (idx.get k = some e ∧ idx'.valsep k = idx.valsep k)
        ∨ (some e.fileId = a ∧ ∀ {id ino : Nat}, F id ino → id < e.fileId)) :
    Lists P d F a idx' := by
  constructor
  · intro id ino hF fe hfe e hk
    rcases hidx hk with ⟨hold, hv⟩ | ⟨-, habove⟩
    · refine (h.below hF fe hfe hold).imp_right fun heq => ⟨heq.1, ?_⟩
      rw [footerEntryOf, hv]
      exact heq.2
    · exact .inl (habove hF)
  · intro k e hk ha
    rcases hidx hk with ⟨hold, -⟩ | ⟨heq, -⟩
    · exact h.lists hold ha
    · exact absurd heq ha

end steps

section changes
variable {P : Prims} {c c' : Core}

theorem LogOk.filesOf_below (h : LogOk P c) {id ino : Nat} (hF : filesOf c.sealed id ino) :
    id < c.active.fileId := h.below hF

theorem LogOk.logs_of_filesOf (h : LogOk P c) {id ino : Nat} (hF : filesOf c.sealed id ino) :
    c.disk.Logs id ino := h.files.dir.logs_of_handle (h.files.isHandle hF)

/-- An append leaves the sealed files alone. -/
theorem LogOk.inodes_appendActive (h : LogOk P c) (buf : Bytes) {id ino : Nat}
    (hF : filesOf c.sealed id ino) : (c.appendActive buf).disk.inodes ino = c.disk.inodes ino :=
  Disk.inodes_setBytes_of_ne _ _ (h.files.dir.ino_ne (h.files.isHandle hF) (handles_active c)
    (Nat.ne_of_lt (h.filesOf_below hF)))

/-- The footer of the active file reads back. -/
theorem LogOk.footerOn_footered (h : LogOk P c)
    (hsize : (c.footered P).activeBytes.length ≤ maxFileSize) :
    footerOn P ((c.footered P).disk.inodes c.active.ino) = footerOf c.index c.active.fileId := by
  have hbytes : (c.footered P).disk.inodes c.active.ino
      = c.activeBytes ++ footerBytes P (footerOf c.index c.active.fileId) :=
    Disk.inodes_setBytes _ _ _
  have hsize' : (c.activeBytes ++ footerBytes P (footerOf c.index c.active.fileId)).length
      ≤ maxFileSize := hbytes ▸ hsize
  rw [hbytes]
  exact footerOn_of_read (readFooter_footerBytes hsize'
    fun fe hfe => h.files.recAt_of_footerOf (handles_active c) hfe)

theorem filesOf_handles {id ino : Nat} (hF : filesOf c.handles id ino) :
    (id = c.active.fileId ∧ ino = c.active.ino)
    ∨ (id ≠ c.active.fileId ∧ filesOf c.sealed id ino) := by
  refine (handles_cases c hF).imp_left fun h => ⟨h.1, ?_⟩
  exact congrArg LogFile.ino h.2

/-- With its footer, the active file is listed like the others. -/
theorem LogOk.lists_footered (h : LogOk P c) (hl : c.Listed P)
    (hsize : (c.footered P).activeBytes.length ≤ maxFileSize) :
    Lists P (c.footered P).disk (filesOf c.handles) none c.index := by
  have hon := h.footerOn_footered hsize
  constructor
  · intro id ino hF fe hfe e hk
    rcases filesOf_handles hF with ⟨rfl, rfl⟩ | ⟨-, hF⟩
    · rw [hon] at hfe
      obtain ⟨e', hk', hid, hfe'⟩ := mem_footerOf.mp hfe
      have heq : some e' = some e := hk'.symm.trans hk
      cases heq
      refine .inr ⟨hid.symm, hfe'.trans ?_⟩
      rw [footerEntryOf, congrArg FooterEntry.expiresAtMs hfe', footerEntryOf]
    · rw [Core.footered, h.inodes_appendActive _ hF] at hfe
      exact hl.below hF fe hfe hk
  · intro k e hk _
    by_cases ha : e.fileId = c.active.fileId
    · have hown : c.handles[c.active.fileId]? = some ⟨c.active.fileId, c.active.ino⟩ :=
        handles_active c
      refine ⟨c.active.ino, ha ▸ hown, footerEntryOf c.index k e, ?_, rfl⟩
      rw [hon]
      exact mem_footerOf.mpr ⟨e, hk, ha, rfl⟩
    · obtain ⟨ino, hF, fe, hfe, hkey⟩ := hl.lists hk (by simpa using ha)
      refine ⟨ino, h.files.isHandle hF, fe, ?_, hkey⟩
      rw [Core.footered, h.inodes_appendActive _ hF]
      exact hfe

theorem LogOk.told_footered (h : LogOk P c)
    (hsize : (c.footered P).activeBytes.length ≤ maxFileSize) :
    Told P (c.footered P).disk (filesOf c.handles) c.index ↔ c.Tells P := by
  constructor
  · refine fun htold => ⟨fun {id ino} hF fe hfe => ?_⟩
    refine htold.live (h.files.isHandle hF) fe ?_
    rw [Core.footered, h.inodes_appendActive _ hF]
    exact hfe
  · refine fun htold => ⟨fun {id ino} hF fe hfe => ?_⟩
    rcases filesOf_handles hF with ⟨rfl, rfl⟩ | ⟨-, hF⟩
    · rw [h.footerOn_footered hsize] at hfe
      obtain ⟨e, hk, -, hfe'⟩ := mem_footerOf.mp hfe
      exact ⟨e, hk, fun _ => congrArg FooterEntry.expiresAtMs hfe'⟩
    · rw [Core.footered, h.inodes_appendActive _ hF] at hfe
      exact htold.live hF fe hfe

theorem Lists.setActive {d : Disk} {F : Nat → Nat → Prop} {idx : NsIndex} (h : Lists P d F none idx)
    (a : Option Nat) : Lists P d F a idx :=
  ⟨h.below, fun hk _ => h.lists hk (by simp)⟩

/-- A new file changes nothing in the others. -/
theorem inodes_activated {H : ExtTreeMap Nat LogFile} (hdir : DirOk H c.disk) {id : Nat}
    (hnew : c.disk.data[id]? = none) {id' ino : Nat} (hl : c.disk.Logs id' ino) :
    (c.activated id).disk.inodes ino = c.disk.inodes ino := by
  have hd : (c.activated id).disk = c.disk.alloc.link id c.disk.nextIno := openCreateData_new hnew
  rw [hd]
  exact hdir.tmpStep_alloc.inodes hl

/-- A rotation adds a footer to the active file and nothing to the others. -/
theorem LogOk.inodes_rotated (h : LogOk P c)
    (hsize : (c.footered P).activeBytes.length ≤ maxFileSize)
    {id ino : Nat} (hF : filesOf c.handles id ino) :
    ((c.footered P).sealActive.activated (c.active.fileId + 1)).disk.inodes ino
      = (c.footered P).disk.inodes ino := by
  have hrot := h.files.seal (handles_active c) h.active_open (by
    simpa [Core.footered, Core.appendActive, Core.activeBytes] using hsize)
  have hnone : (c.footered P).sealActive.disk.data[c.active.fileId + 1]? = none := by
    have := hrot.dir.map (c.active.fileId + 1)
    rw [h.unused_above (Nat.lt_succ_self _)] at this
    exact this
  exact inodes_activated (c := (c.footered P).sealActive) hrot.dir hnone
    (hrot.dir.logs_of_handle hF)

theorem Core.Listed.setIndex (hl : c.Listed P) {index : NsIndex}
    (hidx : ∀ {k : Bytes} {e : IndexEntry}, index.get k = some e →
      (c.index.get k = some e ∧ index.valsep k = c.index.valsep k)
        ∨ (e.fileId = c.active.fileId ∧ ∀ {id ino : Nat}, filesOf c.sealed id ino → id < e.fileId))
        :
    (c.setIndex index).Listed P :=
  Lists.setIndex hl fun hk => (hidx hk).imp_right fun h => ⟨congrArg some h.1, h.2⟩

theorem Core.Listed.remove (hl : c.Listed P) (key : Bytes) :
    (c.setIndex (c.index.remove key).2).Listed P := by
  refine hl.setIndex fun {k e} hk => .inl ?_
  by_cases hkey : key = k
  · simp [hkey] at hk
  · simp only [NsIndex.get_remove, if_neg hkey] at hk
    exact ⟨hk, by simp [hkey]⟩

theorem Change.listed {l : Label} (hc : Change P c l c') (h : LogOk P c) (hl : c.Listed P) :
    c'.Listed P := by
  have happ : ∀ buf, (c.appendActive buf).Listed P := fun buf => hl.disk (h.inodes_appendActive buf)
  cases hc with
  | @put l key m v x hop hsize =>
    refine (happ _).setIndex fun {k e} hk => ?_
    by_cases hkey : key = k
    · simp only [NsIndex.get_setValsep, NsIndex.get_insert, if_pos hkey, Option.some.injEq] at hk
      subst hk
      exact .inr ⟨rfl, fun hF => h.filesOf_below hF⟩
    · simp only [NsIndex.get_setValsep, NsIndex.get_insert, if_neg hkey] at hk
      exact .inl ⟨hk, by rw [NsIndex.valsep_setValsep, if_neg hkey, NsIndex.valsep_insert]; rfl⟩
  | forget hnone => exact hl.remove _
  | tombstone _ hsize => exact (happ _).remove _
  | ttl _ hsize =>
    refine (happ _).setIndex fun {k e} hk => .inl ?_
    rw [NsIndex.get_setTtl] at hk
    exact ⟨hk, NsIndex.valsep_setTtl ..⟩
  | blobs hs => exact hl.disk fun hF => hs.inodes (h.logs_of_filesOf hF)
  | footer hsize hlast => exact happ _
  | rotate hsize hid =>
    exact ((h.lists_footered hl hsize).setActive _).disk fun hF => h.inodes_rotated hsize hF

end changes

/-! ## Calls -/

section calls
variable {P : Prims} {c c' : Core} {s₀ s s₁ s' : NsState}

theorem Changes.listed {ls : List Label} (hc : Changes P c ls c') (h : LogOk P c)
    (hl : c.Listed P) :
    c'.Listed P := by
  induction hc with
  | nil => exact hl
  | cons hstep _ ih => exact ih (hstep.logOk h) (hstep.listed h hl)

/-! ## Merges -/

theorem Reclaiming.size_footered (h : Reclaiming P s (sealedState P s)) :
    (s.core.footered P).activeBytes.length ≤ maxFileSize :=
  h.merging.files.dir.small (h.merging.files.dir.data_of_handle (handles_active s.core))

/-- The files after a merge are those before it, without the inputs, and the merged one. -/
theorem filesOf_merged {ids : List Nat} {lvl tick ino : Nat} {d : Disk}
    {cells : Nat → FileCell} {id ino' : Nat}
    (hF : filesOf (mergedState lvl ids tick d ino cells s).sealed id ino') :
    (filesOf s.sealed id ino' ∧ id ∉ ids) ∨ (id = maxFileId s + 1 ∧ ino' = ino) := by
  unfold filesOf at hF
  simp only [mergedState, commitMerge, NsState.worked, ExtTreeMap.getElem?_insert,
    getElem?_foldl_erase] at hF
  by_cases hnew : maxFileId s + 1 = id
  · simp [mergeJob, hnew] at hF
    exact .inr ⟨hnew.symm, hF.symm⟩
  · simp [mergeJob, hnew] at hF
    exact .inl ⟨hF.2, hF.1⟩

theorem filesOf_merged_new {ids : List Nat} {lvl tick ino : Nat} {d : Disk}
    {cells : Nat → FileCell} :
    filesOf (mergedState lvl ids tick d ino cells s).sealed (maxFileId s + 1) ino := by
  simp [filesOf, mergedState, commitMerge, NsState.worked, mergeJob]

theorem filesOf_merged_kept {ids : List Nat} {lvl tick ino : Nat} {d : Disk}
    {cells : Nat → FileCell} {id ino' : Nat} (hF : filesOf s.sealed id ino') (hid : id ∉ ids) :
    filesOf (mergedState lvl ids tick d ino cells s).sealed id ino' := by
  have hne : maxFileId s + 1 ≠ id := by
    have := sealed_le_maxFileId hF
    omega
  unfold filesOf at hF ⊢
  simp [mergedState, commitMerge, NsState.worked, mergeJob, ExtTreeMap.getElem?_insert,
    getElem?_foldl_erase, hne, hid, hF]

theorem Merging.logs_of_filesOf (h : Merging P s) {id ino : Nat} (hF : filesOf s.sealed id ino) :
    s.disk.Logs id ino := h.files.dir.logs_of_handle hF

theorem Merges.lists (hm : Merges P s₀ s) (h : LogOk P s₀.core) (hl : s₀.core.Listed P) :
    Lists P s.disk (filesOf s.sealed) none s.index := by
  induction hm with
  | start hr => exact h.lists_footered hl hr.size_footered
  | @merge s₁ ids lvl tick ino d cells _ hr hnodup hb ih =>
    exact MergeJob.Ok.lists hb hr.merging.logs_of_filesOf
      (fun hF => (filesOf_merged hF).imp_left And.left) (hr.merging.ok ids) ih filesOf_merged_new
      (fun hF hid => filesOf_merged_kept hF hid)

/-! ## Histories -/

/-- The new active file of a reclaim changes nothing in the sealed ones. -/
theorem Reclaimed.inodes (hr : Reclaimed P s s₁ s') {id ino : Nat} (hF : filesOf s₁.sealed id ino) :
    (s₁.core.activated (maxFileId s₁ + 1)).disk.inodes ino = s₁.disk.inodes ino :=
  inodes_activated (c := s₁.core) hr.reclaiming.merging.files.dir hr.reclaiming.newId_free
    (hr.reclaiming.merging.logs_of_filesOf hF)

theorem Restarted.inodes_filesOf {H : ExtTreeMap Nat LogFile} {d : Disk} {top : Nat}
    (hr : Restarted P H d top s') {id ino : Nat} (hF : (id, ino) ∈ d.listDataFiles) :
    s'.disk.inodes ino = d.inodes ino := hr.inodes (.inl (mem_listDataFiles.mp hF))

theorem FilesOk.sealed_of_mem {H : ExtTreeMap Nat LogFile} {d : Disk} {idx : NsIndex}
    (h : FilesOk P H H d idx) {f : Nat × Nat} (hf : f ∈ d.listDataFiles) :
    Sealed P (d.inodes f.2) := by
  have hdata : d.data[f.1]? = some f.2 := mem_listDataFiles.mp hf
  rw [h.dir.map, Option.map_eq_some_iff] at hdata
  obtain ⟨g, hg, hino⟩ := hdata
  exact hino ▸ (h.footed hg).sealed

section restarted
variable {H : ExtTreeMap Nat LogFile} {d : Disk} {top : Nat} {idx : NsIndex}
  (hr : Restarted P H d top s') (h : FilesOk P H H d idx)
include hr h

theorem Restarted.filesOf_eq : filesOf s'.sealed = fun id ino => (id, ino) ∈ d.listDataFiles := by
  funext id ino
  unfold filesOf
  rw [mem_listDataFiles, hr.sealed, h.dir.map, Option.map_eq_some_iff]
  refine propext ⟨fun hf => ⟨_, hf, rfl⟩, ?_⟩
  rintro ⟨f, hf, rfl⟩
  rw [hf, ← h.dir.own hf]

/-- After a restart the index is what the footers tell. -/
theorem Restarted.listed : s'.core.Listed P := by
  have hlists := foldFooters_lists (listDataFiles_sorted d) fun f hf => (h.sealed_of_mem hf).nodup
  have hsame : Lists P s'.disk (filesOf s'.sealed) none s'.index := by
    rw [hr.filesOf_eq h, hr.index]
    exact hlists.disk fun hF => hr.inodes_filesOf hF
  exact hsame.setActive _

end restarted

theorem Flushed.filesOf_false (hf : Flushed P s s') {id ino : Nat} :
    ¬ filesOf s'.sealed id ino := by
  simp [filesOf, hf.sealed]

theorem Outcome.listed {call : Call} {r : Except EngineError (List UInt64)}
    (ho : Outcome P s call r s') (h : Ready P s)
    (hl : s.core.Listed P) : s'.core.Listed P := by
  cases ho with
  | changes _ _ _ hc hs => exact hs.core ▸ hc.listed h.ok hl
  | reclaimed hr =>
    have hlists := hr.merges.lists h.ok hl
    rw [hr.core]
    exact (hlists.setActive _).disk fun hF => hr.inodes hF
  | flushed hf =>
    refine ⟨fun hF => absurd hF hf.filesOf_false, fun {k e} hk => ?_⟩
    have hidx : s'.core.index = .empty := hf.index
    rw [hidx, NsIndex.get_empty] at hk
    cases hk
  | restarted hseal hsize hr => exact hr.listed (hseal.core ▸ h.ok.sealed_files hsize)

end calls

section histories
variable {P : Prims} {config : LogConfig} {clock : Nat → UInt64} {s₀ s : NsState}
  (hopen : openLog P config clock (fun _ => none) Disk.empty = .ok s₀)
include hopen

/-- In every state of a history the log is in order and the footers list its keys. -/
theorem Reaches.listed {Allowed : NsState → Call → Prop}
    (hA : ∀ s call, Allowed s call → Sound s call)
    (hreach : Reaches P Allowed s₀ s) : Ready P s ∧ s.core.Listed P := by
  obtain ⟨s₀', hopen', hready, -, hidx, hsealed, -⟩ := openLog_empty P config clock
  rw [hopen] at hopen'
  cases hopen'
  refine Reaches.invariant (I := fun s => s.core.Listed P) hA hready ?_ ?_ hreach
  · refine ⟨fun {id ino} hF => ?_, fun {k e} hk => ?_⟩
    · have hS : s₀.core.sealed = ∅ := hsealed
      simp [filesOf, hS] at hF
    · have hI : s₀.core.index = .empty := hidx
      rw [hI, NsIndex.get_empty] at hk
      cases hk
  · exact fun s call r s' hr hl _ _ ho => ho.listed hr hl

end histories

end BeyondKv
