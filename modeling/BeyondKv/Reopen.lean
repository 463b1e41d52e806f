/-
# Opening a directory the log has written

`openLog` on a directory whose every file is sealed: the index is the fold of the
footers, every entry resolves, and a fresh active file is above all others
(`openLog_sealed`).
-/
import BeyondKv.ReclaimOps

namespace BeyondKv

open List

open Std (ExtTreeMap)

/-! ## Names in order -/

theorem mem_listDataFiles {d : Disk} {id ino : Nat} :
    (id, ino) ∈ d.listDataFiles ↔ d.data[id]? = some ino := by
  simp [Disk.listDataFiles, ExtTreeMap.mem_toList_iff_getElem?_eq_some]

theorem listDataFiles_sorted (d : Disk) : d.listDataFiles.Pairwise fun f g => f.1 < g.1 := by
  have hord := ExtTreeMap.ordered_keys_toList (t := d.data)
  exact hord.imp fun h => by simpa [Nat.compare_eq_lt] using h

/-- The highest name comes last. -/
theorem listDataFiles_eq_concat {d : Disk} {id ino : Nat} (h : d.data[id]? = some ino)
    (hmax : ∀ {id' ino' : Nat}, d.data[id']? = some ino' → id' ≤ id) :
    ∃ lower, d.listDataFiles = lower ++ [(id, ino)] := by
  have hmem := mem_listDataFiles.mpr h
  obtain ⟨lower, last, hlist⟩ : ∃ lower last, d.listDataFiles = lower ++ [last] :=
    ⟨_, _, (dropLast_append_getLast (ne_nil_of_mem hmem)).symm⟩
  have hsorted := listDataFiles_sorted d
  rw [hlist] at hmem hsorted
  rcases mem_append.mp hmem with hlow | hlast
  · -- a lower name would be below the last one, which is at most `id`
    have hlt := (pairwise_append.mp hsorted).2.2 _ hlow last (mem_singleton_self _)
    have hdata : d.data[last.1]? = some last.2 := mem_listDataFiles.mp (by rw [hlist]; simp)
    have hle : last.1 ≤ id := hmax hdata
    exact absurd hlt (Nat.not_lt.mpr hle)
  · exact ⟨lower, by rw [hlist, mem_singleton.mp hlast]⟩

/-! ## A directory of sealed files -/

/-- The highest file ends in a footer, and so does every other that is not empty: the files
are loaded in id order and a new file is active. -/
theorem openNamespace_sealed {P : Prims} {d : Disk} {lower : List (Nat × Nat)} {id ino : Nat}
    (hfiles : d.listDataFiles = lower ++ [(id, ino)])
    (hsealed : ∀ f ∈ lower, Sealed P (d.inodes f.2) ∨ d.inodes f.2 = [])
    (htop : Sealed P (d.inodes ino)) (hid : id + 1 ≤ u32Max) :
    openNamespace P d
      = .ok ({ sealed := d.listDataFiles.map fun f => ⟨f.1, f.2⟩
               active := ⟨id + 1, (d.openCreateData (id + 1)).1⟩
               index := foldFooters P d d.listDataFiles .empty },
                   (d.openCreateData (id + 1)).2) := by
  have hlower : loadAllSealed P d lower .empty = .ok (foldFooters P d lower .empty) :=
    loadAllSealed_eq_foldFooters hsealed .empty
  have hover : ¬ id + 1 > u32Max := Nat.not_lt.mpr hid
  unfold openNamespace
  rw [hfiles, getLast?_concat]
  simp only [dropLast_concat, hlower, htop.read, bind, Except.bind, pure, Except.pure, hover,
    if_false]
  simp [foldFooters, foldl_append]

/-! ## The state after an open -/

section fresh
variable (config : LogConfig) (clock : Nat → UInt64) (fault : Nat → Option Nat)

/-- The state `openLog` builds around the opened files: no call has run yet. -/
def freshState (o : OpenedFiles) (d : Disk) (refs : ExtTreeMap ContentHash Nat) : NsState :=
  { clock, readings := 0, fault, tick := 0
    disk := { d with blobs := d.blobs.filter fun h _ => refs.contains h }
    ring := []
    config
    index := o.index
    sealed := o.sealed.foldl (fun m f => m.insert f.fileId f) ∅
    level := o.sealed.foldl (fun m f => m.insert f.fileId 0) ∅
    active := o.active
    cells := fun ino => ⟨(d.inodes ino).length, false⟩
    unsyncedBytes := 0
    lastTstamp := (o.index.entries.map fun (_, e) => e.tstampMs).foldl max 0
    reclaimInProgress := false
    rotateInProgress := false
    frozen := false
    inFlightWrites := 0
    writeStripes := fun _ => false
    refs
    pendingDelete := []
    fileLocks := fun _ => false }

theorem foldl_max_le {ts : List UInt64} {lo t : UInt64} :
    ts.foldl max lo ≤ t ↔ lo ≤ t ∧ ∀ u ∈ ts, u ≤ t := by
  induction ts generalizing lo with
  | nil => simp
  | cons u ts ih =>
    have hmax : max lo u ≤ t ↔ lo ≤ t ∧ u ≤ t := by
      change (if lo ≤ u then u else lo) ≤ t ↔ _
      split
      · rename_i h
        exact ⟨fun hu => ⟨UInt64.le_trans h hu, hu⟩, And.right⟩
      · rename_i h
        have hle := UInt64.le_of_lt (UInt64.not_le.mp h)
        exact ⟨fun hlo => ⟨hlo, UInt64.le_trans hle hlo⟩, And.left⟩
    rw [foldl_cons, ih, hmax, forall_mem_cons, and_assoc]

/-- The revision counter starts at the newest revision of the index. -/
theorem lastTstamp_freshState {o : OpenedFiles} {d : Disk} {refs : ExtTreeMap ContentHash Nat}
    {t : UInt64} :
    (freshState config clock fault o d refs).lastTstamp ≤ t
      ↔ ∀ k e, o.index.get k = some e → e.tstampMs ≤ t := by
  change (o.index.entries.map fun (_, e) => e.tstampMs).foldl max 0 ≤ t ↔ _
  rw [foldl_max_le]
  constructor
  · rintro ⟨-, h⟩ k e hk
    exact h _ (mem_map.mpr ⟨(k, e), NsIndex.mem_entries.mpr hk, rfl⟩)
  · intro h
    refine ⟨UInt64.zero_le, fun u hu => ?_⟩
    obtain ⟨⟨k, e⟩, hmem, rfl⟩ := mem_map.mp hu
    exact h k e (NsIndex.mem_entries.mp hmem)

/-- Counting references one by one. -/
theorem foldl_incrRef (hs : List ContentHash) (s : NsState) :
    ∃ refs : ExtTreeMap ContentHash Nat,
      hs.foldl (fun s h => ValueStore.incrRef h s) s = { s with refs }
        ∧ ∀ h, refs.contains h = true ↔ s.refs.contains h = true ∨ h ∈ hs := by
  induction hs generalizing s with
  | nil => exact ⟨s.refs, rfl, fun h => by simp⟩
  | cons x hs ih =>
    obtain ⟨refs, heq, hmem⟩ := ih (ValueStore.incrRef x s)
    refine ⟨refs, by rw [foldl_cons, heq]; rfl, fun h => ?_⟩
    rw [hmem]
    simp only [ValueStore.incrRef, ValueStore.takeRef, ExtTreeMap.contains_insert,
      mem_cons, Bool.or_eq_true, beq_iff_eq, Std.compare_eq_iff_eq]
    constructor
    · rintro ((rfl | h₁) | h₁)
      · exact .inr (.inl rfl)
      · exact .inl h₁
      · exact .inr (.inr h₁)
    · rintro (h₁ | rfl | h₁)
      · exact .inl (.inr h₁)
      · exact .inl (.inl rfl)
      · exact .inr h₁

/-- An open ends in a fresh state; the blobs it keeps are those some key points at. -/
theorem openLog_eq {P : Prims} {d d' : Disk} {o : OpenedFiles}
    (h : openNamespace P d = .ok (o, d')) :
    ∃ refs, openLog P config clock fault d = .ok (freshState config clock fault o d' refs)
      ∧ ∀ hash, refs.contains hash = true ↔ ∃ k, o.index.valsep k = some hash := by
  obtain ⟨refs, heq, hmem⟩ := foldl_incrRef (o.index.valsepMap.toList.map Prod.snd)
    { freshState config clock fault o d' ∅ with disk := d' }
  refine ⟨refs, ?_, fun hash => ?_⟩
  · have hfold : o.index.valsepMap.foldl (fun s _ h => ValueStore.incrRef h s)
        { freshState config clock fault o d' ∅ with disk := d' }
        = { freshState config clock fault o d' ∅ with disk := d', refs } := by
      rw [ExtTreeMap.foldl_eq_foldl_toList, ← heq, foldl_map]
    simp only [openLog, h, bind, Except.bind, pure, Except.pure]
    exact congrArg (fun s => Except.ok (ValueStore.sweepOrphans s)) hfold
  · rw [hmem]
    simp only [freshState, ExtTreeMap.contains_empty, Bool.false_eq_true, false_or, mem_map]
    constructor
    · rintro ⟨⟨k, h⟩, hp, rfl⟩
      exact ⟨k, ExtTreeMap.mem_toList_iff_getElem?_eq_some.mp hp⟩
    · rintro ⟨k, hk⟩
      exact ⟨(k, hash), ExtTreeMap.mem_toList_iff_getElem?_eq_some.mpr hk, rfl⟩

/-- Of the blobs it found, an open keeps those the sidecar names. -/
theorem blobs_freshState {o : OpenedFiles} {d : Disk} {refs : ExtTreeMap ContentHash Nat}
    (hrefs : ∀ hash, refs.contains hash = true ↔ ∃ k, o.index.valsep k = some hash)
    {hash : ContentHash} {ino : Nat} :
    (freshState config clock fault o d refs).disk.blobs[hash]? = some ino
      ↔ d.blobs[hash]? = some ino
        ∧ ∃ k, (freshState config clock fault o d refs).index.valsep k = some hash := by
  change (d.blobs.filter fun h _ => refs.contains h)[hash]? = some ino ↔ _
  rw [ExtTreeMap.getElem?_filter', Option.filter_eq_some_iff, hrefs]
  rfl

end fresh

/-- The map of the files in a list. -/
def fileMap (fs : List LogFile) : ExtTreeMap Nat LogFile :=
  fs.foldl (fun m f => m.insert f.fileId f) ∅

theorem getElem?_fileMap (d : Disk) (id : Nat) :
    (fileMap (d.listDataFiles.map fun f => ⟨f.1, f.2⟩))[id]?
      = d.data[id]?.map fun ino => ⟨id, ino⟩ := by
  have hout : ∀ (fs : List (Nat × Nat)) (m : ExtTreeMap Nat LogFile), (∀ f ∈ fs, f.1 ≠ id) →
      ((fs.map fun f => LogFile.mk f.1 f.2).foldl (fun m f => m.insert f.fileId f) m)[id]?
        = m[id]? := by
    intro fs
    induction fs with
    | nil => intro m _; rfl
    | cons f fs ih =>
      intro m hne
      rw [map_cons, foldl_cons, ih _ fun g hg => hne g (mem_cons_of_mem _ hg)]
      simp [ExtTreeMap.getElem?_insert, hne f (mem_cons_self ..)]
  cases hd : d.data[id]? with
  | none =>
    refine (hout d.listDataFiles ∅ ?_).trans (by simp)
    rintro ⟨id', ino⟩ hf rfl
    rw [mem_listDataFiles, hd] at hf
    cases hf
  | some ino =>
    -- the file is somewhere in the list, and nothing after it has its id
    obtain ⟨before, after, hlist⟩ := append_of_mem (mem_listDataFiles.mpr hd)
    have hsorted := listDataFiles_sorted d
    rw [hlist, pairwise_append] at hsorted
    have hafter : ∀ f ∈ after, f.1 ≠ id := fun f hf =>
      (Nat.ne_of_lt ((pairwise_cons.mp hsorted.2.1).1 f hf)).symm
    rw [fileMap, hlist, map_append, foldl_append, map_cons, foldl_cons,
      hout after _ hafter]
    simp

/-- Dropping blobs is a side step. -/
theorem SideStep.filterBlobs (d : Disk) (keep : ContentHash → Bool) :
    SideStep d { d with blobs := d.blobs.filter fun h _ => keep h } where
  data := rfl
  unlinked := rfl
  nextIno := Nat.le_refl _
  inodes := fun _ => rfl
  blobs := fun hb => by
    rw [ExtTreeMap.getElem?_filter'] at hb
    exact .inl (Option.eq_some_of_filter_eq_some hb)
  blobInj := fun hinj h₁ h₂ ino hb₁ hb₂ => by
    rw [ExtTreeMap.getElem?_filter'] at hb₁ hb₂
    exact hinj (Option.eq_some_of_filter_eq_some hb₁) (Option.eq_some_of_filter_eq_some hb₂)

/-- `s` is the log that a restart makes of the directory `d` whose files are `H`, all sealed. -/
structure Restarted (P : Prims) (H : ExtTreeMap Nat LogFile) (d : Disk) (top : Nat) (s : NsState) :
    Prop where
  ok : LogOk P s.core
  free : s.locks.Free
  index : s.index = foldFooters P d d.listDataFiles .empty
  sealed : s.sealed = H
  active : s.active.fileId = top + 1
  newest : ∀ {k : Bytes} {e : IndexEntry}, s.index.get k = some e → e.tstampMs ≤ s.lastTstamp
  bytes : s.core.activeBytes = []
  inodes : ∀ {id ino : Nat}, d.Logs id ino → s.disk.inodes ino = d.inodes ino
  /-- Only blobs of live keys are left. -/
  blobs : ∀ {hash : ContentHash} {ino : Nat}, s.disk.blobs[hash]? = some ino
    ↔ d.blobs[hash]? = some ino ∧ ∃ k, s.index.valsep k = some hash
  blobBytes : ∀ {hash : ContentHash} {ino : Nat}, d.blobs[hash]? = some ino →
    s.disk.inodes ino = d.inodes ino

theorem openLog_sealed {P : Prims} {H : ExtTreeMap Nat LogFile} {d : Disk} {idx : NsIndex}
    (h : FilesOk P H H d idx) {top : Nat} {f : LogFile} (htop : H[top]? = some f)
    (hmax : ∀ {id : Nat} {g : LogFile}, H[id]? = some g → id ≤ top) (hid : top + 1 ≤ u32Max)
    (config : LogConfig) (clock : Nat → UInt64) :
    ∃ s, openLog P config clock (fun _ => none) d = .ok s ∧ s.config = config ∧ s.clock = clock
      ∧ Restarted P H d top s := by
  have hdata : ∀ {id ino : Nat}, d.data[id]? = some ino → H[id]? = some ⟨id, ino⟩ := by
    intro id ino hd
    rw [h.dir.map] at hd
    obtain ⟨g, hg, hino⟩ := Option.map_eq_some_iff.mp hd
    rw [hg, ← hino, ← h.dir.own hg]
  obtain ⟨lower, hfiles⟩ := listDataFiles_eq_concat (h.dir.data_of_handle htop) fun hd =>
    hmax (hdata hd)
  have hfooted : ∀ {id ino : Nat}, (id, ino) ∈ d.listDataFiles → Footed P id (d.inodes ino) :=
    fun hf => h.footed (hdata (mem_listDataFiles.mp hf))
  have hlast : (top, f.ino) ∈ d.listDataFiles := by rw [hfiles]; simp
  have hlower : ∀ g ∈ lower, g ∈ d.listDataFiles := fun g hg => by rw [hfiles]; simp [hg]
  have hopen := openNamespace_sealed hfiles (fun g hg => .inl (hfooted (hlower g hg)).sealed)
    (hfooted hlast).sealed hid
  obtain ⟨refs, hlog, hrefs⟩ := openLog_eq config clock (fun _ => none) hopen
  have hnone : H[top + 1]? = none := by
    cases hH : H[top + 1]? with
    | none => rfl
    | some g => exact absurd (hmax hH) (Nat.not_succ_le_self top)
  have hnew : d.data[top + 1]? = none := by rw [h.dir.map, hnone]; rfl
  have hcreate : d.openCreateData (top + 1) = (d.nextIno, d.alloc.link (top + 1) d.nextIno) :=
    Prod.ext (by simp [Disk.openCreateData, hnew]) (openCreateData_new hnew)
  rw [hcreate] at hlog
  -- the folded index resolves: a footer points at records of its own file
  have hindexed : FilesOk P H H d (foldFooters P d d.listDataFiles .empty) := by
    refine h.setIndex fun {k e} hk => ?_
    obtain ⟨ino, hf, hfe⟩ :=
      foldFooters_get (listDataFiles_sorted d) (fun g hg => (hfooted hg).sealed.nodup) hk
    exact ⟨_, hdata (mem_listDataFiles.mp hf), (hfooted hf).points _ hfe⟩
  have hlinked := (hindexed.sideStep hindexed.dir.tmpStep_alloc.toSideStep).link
    hindexed.dir.unused_alloc (by simp [Disk.alloc]) hnone
  have hswept := hlinked.sideStep (SideStep.filterBlobs _ refs.contains)
  have hsealed : fileMap (d.listDataFiles.map fun f => ⟨f.1, f.2⟩) = H := by
    refine ExtTreeMap.ext_getElem? fun {id} => ?_
    rw [getElem?_fileMap, h.dir.map, Option.map_map]
    cases hH : H[id]? with
    | none => rfl
    | some g => exact congrArg some (by rw [← h.dir.own hH]; rfl)
  have hbytes : (d.alloc.link (top + 1) d.nextIno).inodes d.nextIno = [] := by
    simp [Disk.alloc, Disk.link]
  refine ⟨_, hlog, rfl, rfl, ?_⟩
  constructor
  · refine ⟨fun _ => rfl, rfl, ?_, ?_, hid, ?_⟩
    · change FilesOk P ((fileMap (d.listDataFiles.map fun f => ⟨f.1, f.2⟩)).insert (top + 1)
        ⟨top + 1, d.nextIno⟩) (fileMap (d.listDataFiles.map fun f => ⟨f.1, f.2⟩)) _ _
      rw [hsealed]
      exact hswept
    · intro id g hg
      have hg' : H[id]? = some g := hsealed ▸ hg
      exact Nat.lt_succ_of_le (hmax hg')
    · simp only [Core.activeBytes, NsState.core, freshState]
  · exact ⟨rfl, rfl, rfl, rfl, fun _ => rfl, fun _ => rfl⟩
  · rfl
  · exact hsealed
  · rfl
  · exact fun {k e} hk => (lastTstamp_freshState config clock fun _ => none).mp
      (UInt64.le_refl _) k e hk
  · exact hbytes
  · exact fun hl => h.dir.tmpStep_alloc.inodes hl
  · exact blobs_freshState config clock (fun _ => none) hrefs
  · exact fun hb => h.dir.tmpStep_alloc.blobBytes hb

end BeyondKv
