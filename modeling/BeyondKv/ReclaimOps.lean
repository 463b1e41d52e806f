/-
# Reclaim, run alone

The code of a merge does what `Merge` describes: it builds the merged file under
a temporary name, renames it, unlinks the inputs, and swaps the entries in
memory. Every state in which a merge is suspended is either one where the data
files are untouched and no pending write goes to one of them (`Idle`), or one
after the rename with some of the inputs gone.

The cascade merges at least two files a turn, so it ends, and it ends with no
full level.
-/
import BeyondKv.Merge

namespace BeyondKv

open Std (ExtTreeMap)
open Async List

/-- No write that is still to be performed goes to a data file or a blob. -/
def Idle (s : NsState) : Prop :=
  ∀ w ∈ s.ring, w.taken = false →
    (∀ id, ¬ s.disk.Logs id w.ino) ∧ ∀ h : ContentHash, s.disk.blobs[h]? ≠ some w.ino

theorem idle_of_ring {s : NsState} (h : s.ring = []) : Idle s := by
  intro w hw
  rw [h] at hw
  cases hw

/-- The state with other times, contents and cells. -/
def NsState.worked (s : NsState) (tick : Nat) (d : Disk) (cells : Nat → FileCell) : NsState :=
  { s with tick, disk := d, cells }

/-! ## Building the merged file -/

section building
variable {P : Prims} {Cr : NsState → Prop} {s₀ s : NsState} {n ino : Nat} {b : Bytes}

/-- Since `s₀` only the temporary file `n` has been worked on; it holds `b`. -/
structure Building (s₀ : NsState) (n ino : Nat) (b : Bytes) (s : NsState) : Prop where
  state : ∃ tick cells, s = s₀.worked tick s.disk cells
  side : TmpStep s₀.disk s.disk
  unused : s.disk.Unused ino
  bytes : s.disk.inodes ino = b
  tmp : s.disk.tmp[n]? = some ino
  tight : s.cells ino = ⟨b.length, false⟩

theorem Building.fault (h : Building s₀ n ino b s) : s.fault = s₀.fault := by
  obtain ⟨_, _, heq⟩ := h.state
  rw [heq]; rfl

theorem Building.ring (h : Building s₀ n ino b s) : s.ring = s₀.ring := by
  obtain ⟨_, _, heq⟩ := h.state
  rw [heq]; rfl

/-- A request that changes nothing. -/
theorem Building.after (h : Building s₀ n ino b s) : Building s₀ n ino b (s.after s.disk) where
  state := by
    obtain ⟨tick, cells, heq⟩ := h.state
    exact ⟨s.tick + 1, cells, by rw [heq]; rfl⟩
  side := h.side
  unused := h.unused
  bytes := h.bytes
  tmp := h.tmp
  tight := h.tight

theorem wpx_append_building {buf : Bytes} {Q : Except EngineError Nat → NsState → Prop}
    (hf : ∀ n, s₀.fault n = none) (hring : s₀.ring = []) (h : Building s₀ n ino b s)
    (hcr : ∀ s', TmpStep s₀.disk s'.disk → Idle s' → Cr s') (hio : ∀ e s, Q (.error (.io e)) s)
    (hok : ∀ s', Building s₀ n ino (b ++ buf) s' → Q (.ok b.length) s') :
    wpx Cr ((⟨n, ino⟩ : LogFile).append buf) Q s := by
  have htight : Tight ⟨n, ino⟩ s := by
    simp only [Tight, h.bytes]
    exact h.tight
  have hside : TmpStep s₀.disk (s.disk.setBytes ino (s.disk.inodes ino ++ buf)) :=
    h.side.trans (TmpStep.setBytes h.unused _)
  refine wpx_append (by rw [h.fault]; exact hf) (by rw [h.ring]; exact hring) htight ?_ ?_ ?_
    (fun _ => hio) ?_
  · refine hcr _ h.side ?_
    intro w hw
    simp only [LogFile.submitted, mem_singleton] at hw
    subst hw
    exact fun _ => ⟨h.unused.logs, h.unused.blobs⟩
  · refine hcr _ hside ?_
    intro w hw
    simp only [LogFile.written, mem_singleton] at hw
    subst hw
    exact fun _ => ⟨h.unused.logs, h.unused.blobs⟩
  · refine hcr _ h.side ?_
    intro w hw
    simp only [LogFile.refused, mem_singleton] at hw
    subst hw
    exact fun _ => ⟨h.unused.logs, h.unused.blobs⟩
  · intro _
    rw [show (s.disk.inodes (⟨n, ino⟩ : LogFile).ino).length = b.length from by rw [h.bytes]]
    refine hok _ ⟨?_, hside, h.unused.setBytes _, ?_, h.tmp, ?_⟩
    · obtain ⟨tick, cells, heq⟩ := h.state
      refine ⟨s.tick + 2, Function.update s.cells ino
        ⟨(s.disk.inodes ino ++ buf).length, false⟩, ?_⟩
      rw [heq]; rfl
    · simp [LogFile.appended, LogFile.setFile, h.bytes]
    · simp [LogFile.appended, LogFile.setFile, h.bytes]

/-- The copy loop. -/
theorem wpx_copyRecords {lst : List (LiveKey × Bytes)}
    {Q : Except EngineError (List (LiveKey × FooterEntry)) → NsState → Prop}
    (hf : ∀ n, s₀.fault n = none) (hring : s₀.ring = []) (h : Building s₀ n ino b s)
    (hcr : ∀ s', TmpStep s₀.disk s'.disk → Idle s' → Cr s') (hio : ∀ e s, Q (.error (.io e)) s)
    (hok : ∀ s', Building s₀ n ino (b ++ copiedBytes lst) s' → Q (.ok (placed n b.length lst)) s') :
    wpx Cr (copyRecords ⟨n, ino⟩ n (lst.map fun x => (x.1, .ok x.2))) Q s := by
  induction lst generalizing b s Q with
  | nil =>
    simp only [map_nil, copyRecords, wpx_pure]
    exact hok s (by simpa [copiedBytes] using h)
  | cons x lst ih =>
    obtain ⟨⟨key, old, ttl⟩, bytes⟩ := x
    simp only [map_cons, copyRecords, wpx_seq, wpx_mk, wpc_pure, onOk_ok]
    refine wpx_append_building hf hring h hcr (fun e s => hio e s) fun s₁ h₁ => ?_
    simp only [onOk_ok]
    refine ih h₁ (fun e s => hio e s) fun s₂ h₂ => ?_
    simp only [onOk_ok, wpx_pure]
    have := hok s₂ (by rw [copiedBytes_cons, ← append_assoc]; exact h₂)
    rw [placed] at this
    rw [length_append]
    exact this

theorem openCreateTmp_new {d : Disk} (hnew : d.tmp[n]? = none) :
    d.openCreateTmp n = (d.nextIno, { d.alloc with tmp := d.tmp.insert n d.nextIno }) := by
  simp [Disk.openCreateTmp, hnew, Disk.alloc]

/-- The temporary file is created anew; `truncate_to(0)` finds it empty. -/
theorem wpx_startBuilding {H : ExtTreeMap Nat LogFile} {α : Type} {k : LogFile → Act α}
    {Q : Except EngineError α → NsState → Prop} (hf : ∀ n, s₀.fault n = none)
    (hring : s₀.ring = []) (hdir : DirOk H s₀.disk)
    (hcr : ∀ s', TmpStep s₀.disk s'.disk → Idle s' → Cr s')
    (hok : ∀ ino s', Building s₀ n ino [] s' → wpx Cr (k ⟨n, ino⟩) Q s') :
    wpx Cr (do
      lift (unlinkTmp n)
      let newFile ← LogFile.openRwTmp n
      lift (newFile.truncateTo 0)
      k newFile) Q s₀ := by
  have hside₁ := TmpStep.setTmp s₀.disk (s₀.disk.tmp.erase n)
  have hdir₁ := hdir.sideStep hside₁.toSideStep
  have hcreate := @openCreateTmp_new n { s₀.disk with tmp := s₀.disk.tmp.erase n } (by simp)
  have hside₂ : TmpStep s₀.disk
      { s₀.disk.alloc with tmp := (s₀.disk.tmp.erase n).insert n s₀.disk.nextIno } :=
    (hside₁.trans hdir₁.tmpStep_alloc).trans (TmpStep.setTmp _ _)
  have hunused : Disk.Unused
      { s₀.disk.alloc with tmp := (s₀.disk.tmp.erase n).insert n s₀.disk.nextIno }
      s₀.disk.nextIno :=
    ⟨Nat.lt_succ_self _, hdir.unused_alloc.logs, hdir.unused_alloc.blobs⟩
  simp only [wpx_seq, wpx_liftTask, unlinkTmp, wpc_seq, wpc_pure]
  refine wpc_io_of hf (hcr _ (TmpStep.refl _) (idle_of_ring hring))
    (hcr _ hside₁ (idle_of_ring hring)) ?_
  simp only [onOk_ok, LogFile.openRwTmp, wpx_seq, LogFile.wrap, LogFile.size, wpx_ioAct,
    wpx_liftTask, wpc_modify, wpx_pure]
  refine wpc_io_of hf (hcr _ hside₁ (idle_of_ring hring)) ?_ ?_
  · simp only [NsState.disk_after, hcreate]
    exact hcr _ hside₂ (idle_of_ring hring)
  simp only [NsState.disk_after, hcreate, ofIo_ok, onOk_ok]
  refine wpc_io_of hf (hcr _ hside₂ (idle_of_ring hring)) (hcr _ hside₂ (idle_of_ring hring)) ?_
  simp only [ofIo_ok, onOk_ok, LogFile.truncateTo, wpc_modify]
  refine hok _ _ ⟨⟨s₀.tick + 3, _, rfl⟩, ?_, ?_, ?_, ?_, ?_⟩
  · exact hside₂.trans (TmpStep.setBytes hunused _)
  · exact hunused.setBytes _
  · simp [LogFile.setCell, Disk.setLen, NsState.after, Disk.alloc]
  · simp [LogFile.setCell, Disk.setLen, NsState.after, Disk.setBytes]
  · simp [LogFile.setCell, NsState.after, Disk.alloc]

end building

/-! ## One merge -/

namespace MergeJob
variable {P : Prims} {Cr : NsState → Prop} {J : MergeJob} {s : NsState} {ino : Nat}

/-- The handles of the inputs. -/
def inputs (J : MergeJob) : List LogFile := J.ids.filterMap fun id => J.sealed[id]?

theorem Ok.mem_inputs (h : J.Ok P) {f : LogFile} :
    f ∈ J.inputs ↔ f.fileId ∈ J.ids ∧ J.sealed[f.fileId]? = some f := by
  simp only [inputs, mem_filterMap]
  constructor
  · rintro ⟨id, hid, hf⟩
    have hown := h.files.dir.own hf
    rw [hown]
    exact ⟨hid, hf⟩
  · rintro ⟨hid, hf⟩
    exact ⟨f.fileId, hid, hf⟩

theorem Ok.inputs_of_prefix (h : J.Ok P) (hnodup : J.ids.Nodup) {us rest : List LogFile}
    (heq : J.inputs = us ++ rest) : J.Inputs us where
  isSealed := fun f hf => (h.mem_inputs.mp (heq ▸ mem_append_left _ hf)).2
  isInput := fun f hf => (h.mem_inputs.mp (heq ▸ mem_append_left _ hf)).1
  nodup := by
    have hall : (J.inputs.map LogFile.fileId).Nodup := by
      rw [inputs, map_filterMap]
      refine hnodup.filterMap ?_
      intro id id' b hb hb'
      simp only [Option.mem_def, Option.map_eq_some_iff] at hb hb'
      obtain ⟨f, hf, rfl⟩ := hb
      obtain ⟨g, hg, hgid⟩ := hb'
      rw [h.files.dir.own hf, h.files.dir.own hg] at hgid
      exact hgid.symm
    rw [heq, map_append] at hall
    exact hall.of_append_left

theorem Ok.find_input (h : J.Ok P) {e : IndexEntry} {f : LogFile} (hid : e.fileId ∈ J.ids)
    (hf : J.sealed[e.fileId]? = some f) :
    J.inputs.find? (fun g => g.fileId = e.fileId) = some f := by
  have hown := h.files.dir.own hf
  have hmem : f ∈ J.inputs := h.mem_inputs.mpr ⟨hown ▸ hid, hown ▸ hf⟩
  obtain ⟨g, hg⟩ := Option.isSome_iff_exists.mp
    (find?_isSome (p := fun g : LogFile => decide (g.fileId = e.fileId)).mpr
      ⟨f, hmem, by simpa using hown⟩)
  have hgid : g.fileId = e.fileId := by simpa using find?_some hg
  have hgs := (h.mem_inputs.mp (mem_of_find?_eq_some hg)).2
  rw [hgid, hf] at hgs
  rw [hg, hgs]

/-- Reading a live record through the input handles. -/
theorem Ok.wpc_readLive (h : J.Ok P) (hf : ∀ n, s.fault n = none) {k : Bytes} {e : IndexEntry}
    {Q : Except EngineError Bytes → NsState → Prop} (hk : J.index.get k = some e)
    (hid : e.fileId ∈ J.ids) (hside : TmpStep J.disk s.disk) (hcr : Cr s)
    (hcr' : Cr (s.after s.disk)) (hok : Q (.ok (J.recordAt e)) (s.after s.disk)) :
    wpc Cr (readLive J.inputs e).run Q s := by
  obtain ⟨f, hfile, hrec⟩ := h.files.resolves hk
  have hbytes : s.disk.inodes f.ino = J.disk.inodes f.ino :=
    hside.inodes (h.files.dir.logs_of_handle hfile)
  have hlen : ¬ (Bytes.slice (J.disk.inodes f.ino) e.recordOffset e.recordSize).length
      < e.recordSize := by
    rw [Bytes.length_slice_of_le hrec.bound]
    exact Nat.lt_irrefl _
  have hrecord : J.recordAt e = Bytes.slice (J.disk.inodes f.ino) e.recordOffset e.recordSize := by
    simp only [recordAt, hfile]
  rw [wpc_run]
  simp only [readLive, h.find_input hid hfile, LogFile.readExact, wpx_ioAct]
  refine wpc_io_of hf hcr ?_ ?_
  · simp only [hbytes, if_neg hlen]
    exact hcr'
  · simp only [hbytes, if_neg hlen]
    rw [← hrecord]
    exact hok

/-- All records of the merge, read one after another. -/
theorem Ok.seqList_reads (h : J.Ok P) {s₀ : NsState} {b : Bytes} (hdisk : s₀.disk = J.disk)
    (hf : ∀ n, s₀.fault n = none) (hring : s₀.ring = [])
    (hcr : ∀ s', TmpStep s₀.disk s'.disk → Idle s' → Cr s')
    {R : List (Except EngineError Bytes) → NsState → Prop} (hb : Building s₀ J.newId ino b s)
    (hR : ∀ s', Building s₀ J.newId ino b s' →
      R ((liveIn J.index J.ids).map fun x => .ok (J.recordAt x.2.1)) s') :
    seqList Cr (fun x : LiveKey => (readLive J.inputs x.2.1).run) (liveIn J.index J.ids) R s := by
  have hidle : ∀ s', Building s₀ J.newId ino b s' → Cr s' := fun s' hb' =>
    hcr s' hb'.side (idle_of_ring (hb'.ring.trans hring))
  refine seqList_prefix (fun x => .ok (J.recordAt x.2.1))
    (fun _ s' => Building s₀ J.newId ino b s') ?_ hb hR
  intro done x rest heq s' hb'
  obtain ⟨k, e, ttl⟩ := x
  have hx : (k, e, ttl) ∈ liveIn J.index J.ids := heq ▸ by simp
  obtain ⟨hget, hid, -⟩ := mem_liveIn.mp hx
  refine ⟨hidle s' hb', ?_⟩
  exact h.wpc_readLive (hb'.fault ▸ hf) hget hid (hdisk ▸ hb'.side) (hidle s' hb')
    (hidle _ hb'.after) ⟨rfl, hb'.after⟩

/-- Unlinking the inputs, one after another. -/
theorem Ok.seqList_unlinks (h : J.Ok P) (hnodup : J.ids.Nodup) {s₀ : NsState} {d : Disk}
    (hf : ∀ n, s₀.fault n = none) (hring : s₀.ring = []) (hb : J.Built P d ino)
    (hcr : ∀ s' us, J.Inputs us → s'.disk = J.replaced d ino us → s'.ring = [] → Cr s')
    {R : List (Except IoError Unit) → NsState → Prop} {cells : Nat → FileCell} {tick : Nat}
    (hR : ∀ tick, R (J.inputs.map fun _ => .ok ())
      (s₀.worked tick (J.replaced d ino J.inputs) cells)) :
    seqList Cr (fun f : LogFile => unlinkData f.fileId) J.inputs R
      (s₀.worked tick (J.replaced d ino []) cells) := by
  refine seqList_prefix (fun _ => .ok ())
    (fun us s' => ∃ tick, s' = s₀.worked tick (J.replaced d ino us) cells) ?_ ⟨tick, rfl⟩ ?_
  · rintro us f rest heq s' ⟨t, rfl⟩
    have hus := h.inputs_of_prefix hnodup heq
    have hus' : J.Inputs (us ++ [f]) :=
      h.inputs_of_prefix hnodup (heq.trans (append_cons us f rest))
    have hfs := hus'.isSealed f (by simp)
    have hout : f.fileId ∉ us.map LogFile.fileId := by
      intro hmem
      have hn := hus'.nodup
      rw [map_append, nodup_append] at hn
      exact hn.2.2 _ hmem _ (by simp) rfl
    have hdata : (J.replaced d ino us).data[f.fileId]? = some f.ino := by
      rw [data_replaced, if_neg hout, if_neg (Nat.ne_of_lt (h.fresh hfs)), hb.side.data,
        h.files.dir.data_of_handle hfs]
    have hnext :
        (J.replaced d ino us).unlinkData f.fileId f.ino = J.replaced d ino (us ++ [f]) := by
      simp [replaced, unlinkAll]
    refine ⟨hcr _ us hus rfl hring, ?_⟩
    simp only [unlinkData]
    refine wpc_io_of hf (hcr _ us hus rfl hring) ?_ ?_
    · simp only [NsState.worked, hdata]
      exact hcr _ _ hus' hnext hring
    · simp only [NsState.worked, hdata]
      exact ⟨trivial, t + 1, by rw [hnext]; rfl⟩
  · rintro s' ⟨t, rfl⟩
    exact hR t

/-- The footer of the merged file. -/
theorem Ok.wpx_writeFooter (hf : ∀ n, s.fault n = none) (hring : s.ring = []) {s₀ : NsState}
    (hdisk : s₀.disk = J.disk) (hb : Building s₀ J.newId ino (copiedBytes J.list) s)
    (hcr : ∀ s', TmpStep s₀.disk s'.disk → Idle s' → Cr s')
    {Q : Except EngineError Nat → NsState → Prop} (hio : ∀ e s, Q (.error (.io e)) s)
    (hok : ∀ req s', Building s₀ J.newId ino (J.file P) s' → J.Built P s'.disk ino →
      Q (.ok req) s') :
    wpx Cr ((⟨J.newId, ino⟩ : LogFile).writeFooter P J.footer) Q s := by
  have htight : Tight ⟨J.newId, ino⟩ s := by
    simp only [Tight, hb.bytes]
    exact hb.tight
  refine BeyondKv.wpx_writeFooter hf hring htight ?_ (fun _ => hio) ?_
  · rintro s' ⟨done, rest, -, hd, hr⟩
    have hs' : TmpStep s.disk s'.disk := hd ▸ TmpStep.setBytes hb.unused _
    refine hcr s' (hb.side.trans hs') ?_
    have hout : (∀ id, ¬ s'.disk.Logs id ino) ∧ ∀ h :
        ContentHash, s'.disk.blobs[h]? ≠ some ino := by
      rw [hd]
      exact ⟨hb.unused.logs, hb.unused.blobs⟩
    intro w hw hun
    rcases hr with hr | ⟨req, data, -, hr⟩
    · rw [hr w hw] at hun; cases hun
    · rw [hr, mem_singleton] at hw
      subst hw
      exact hout
  · intro hsize req
    have hbytes : (s.disk.inodes ino ++ footerBytes P J.footer) = J.file P := by
      rw [hb.bytes]; rfl
    have hside : TmpStep s₀.disk (s.disk.setBytes ino (J.file P)) :=
      hb.side.trans (TmpStep.setBytes hb.unused _)
    have hbuilt : J.Built P (s.disk.setBytes ino (J.file P)) ino :=
      ⟨hdisk ▸ hside, hb.unused.setBytes _, by simp, by
        rw [← hbytes, length_append]; exact hsize⟩
    have hstate : Building s₀ J.newId ino (J.file P)
        (LogFile.footered P ⟨J.newId, ino⟩ J.footer s) := by
      refine ⟨?_, ?_, ?_, ?_, hb.tmp, ?_⟩
      · obtain ⟨tick, cells, heq⟩ := hb.state
        refine ⟨s.tick + 5, Function.update s.cells ino
          ⟨(s.disk.inodes ino ++ footerBytes P J.footer).length, false⟩, ?_⟩
        rw [heq]; rfl
      · simp only [LogFile.footered, LogFile.setFile, hbytes]; exact hside
      · simp only [LogFile.footered, LogFile.setFile, hbytes]; exact hb.unused.setBytes _
      · simp [LogFile.footered, LogFile.setFile, hbytes]
      · simp [LogFile.footered, LogFile.setFile, hbytes]
    refine hok req _ hstate ?_
    simp only [LogFile.footered, LogFile.setFile, hbytes]
    exact hbuilt

theorem Built.setTmp {d : Disk} (hb : J.Built P d ino) (tmp : ExtTreeMap Nat Nat) :
    J.Built P { d with tmp } ino :=
  ⟨hb.side.trans (TmpStep.setTmp _ _), ⟨hb.unused.lt, hb.unused.logs, hb.unused.blobs⟩,
    hb.bytes, hb.small⟩

theorem zip_reads : (liveIn J.index J.ids).zip
      ((liveIn J.index J.ids).map fun x => (.ok (J.recordAt x.2.1) : Except EngineError Bytes))
    = J.list.map fun x => (x.1, .ok x.2) := by
  rw [list, map_map]
  induction liveIn J.index J.ids with
  | nil => rfl
  | cons x xs ih => rw [map_cons, zip_cons_cons, map_cons, ih]; rfl

/-- `reclaim_namespace` writes the merged file, names it and unlinks the inputs. -/
theorem Ok.wpx_reclaimNamespace (h : J.Ok P) (hnodup : J.ids.Nodup) (hf : ∀ n, s.fault n = none)
    (hring : s.ring = []) (hdisk : s.disk = J.disk)
    (hcr : ∀ s', TmpStep s.disk s'.disk → Idle s' → Cr s')
    (hcr' : ∀ s' d ino us, J.Built P d ino → J.Inputs us → s'.disk = J.replaced d ino us →
      s'.ring = [] → Cr s')
    {Q : Except EngineError (ReclaimReport × List LiveKey) → NsState → Prop}
    (hio : ∀ e s, Q (.error (.io e)) s)
    (hok : ∀ report tick d ino cells, J.Built P d ino →
      Q (.ok (report, J.entries)) (s.worked tick (J.replaced d ino J.inputs) cells)) :
    wpx Cr (reclaimNamespace P J.inputs J.newId (liveIn J.index J.ids)) Q s := by
  unfold reclaimNamespace
  refine wpx_startBuilding hf hring (hdisk ▸ h.files.dir) hcr fun ino s₁ hb₁ => ?_
  simp only [wpx_seq, wpx_liftTask, wpc_joinAll]
  refine h.seqList_reads hdisk hf hring hcr hb₁ fun s₂ hb₂ => ?_
  refine ⟨hcr _ hb₂.side (idle_of_ring (hb₂.ring.trans hring)), ?_⟩
  simp only [onOk_ok]
  rw [zip_reads]
  refine wpx_copyRecords hf hring hb₂ hcr (fun e s => hio e s) fun s₃ hb₃ => ?_
  simp only [onOk_ok]
  rw [nil_append] at hb₃
  refine Ok.wpx_writeFooter (hb₃.fault ▸ hf) (hb₃.ring.trans hring) hdisk hb₃ hcr
    (fun e s => hio e s) fun _ s₄ hb₄ hbuilt => ?_
  simp only [onOk_ok, renameTmp, wpx_ioAct]
  have hbuilt' := hbuilt.setTmp (s₄.disk.tmp.erase J.newId)
  have hnil : J.Inputs [] := ⟨by simp, by simp, by simp⟩
  have hring₄ : s₄.ring = [] := hb₄.ring.trans hring
  have hf₄ : ∀ n, s₄.fault n = none := hb₄.fault ▸ hf
  refine wpc_io_of hf₄ (hcr _ hb₄.side (idle_of_ring hring₄)) ?_ ?_
  · simp only [hb₄.tmp]
    exact hcr' _ _ _ _ hbuilt' hnil rfl hring₄
  simp only [hb₄.tmp, ofIo_ok, onOk_ok, syncDir, wpc_seq, wpc_pure]
  refine wpc_io_of hf₄ (hcr' _ _ _ _ hbuilt' hnil rfl hring₄)
    (hcr' _ _ _ _ hbuilt' hnil rfl hring₄) ?_
  have hstart : ∃ tick cells, (s₄.after { s₄.disk with
        tmp := s₄.disk.tmp.erase J.newId, data := s₄.disk.data.insert J.newId ino }).after
        { s₄.disk with tmp := s₄.disk.tmp.erase J.newId, data := s₄.disk.data.insert J.newId ino }
      = s.worked tick (J.replaced { s₄.disk with tmp := s₄.disk.tmp.erase J.newId } ino
        []) cells := by
    obtain ⟨tick, cells, heq⟩ := hb₄.state
    exact ⟨s₄.tick + 2, cells, by rw [heq]; rfl⟩
  obtain ⟨tick, cells, hstart⟩ := hstart
  simp only [NsState.disk_after]
  rw [hstart]
  refine h.seqList_unlinks hnodup hf hring hbuilt'
    (fun s' us hus hd hr => hcr' s' _ _ us hbuilt' hus hd hr) fun tick => ?_
  refine ⟨hcr' _ _ _ _ hbuilt' (h.inputs_of_prefix hnodup (append_nil _).symm) rfl hring, ?_⟩
  simp only [wpx_pure]
  exact hok _ tick _ ino cells hbuilt'

end MergeJob

/-! ## A turn of the cascade -/

section turn
variable {P : Prims} {Cr : NsState → Prop} {s : NsState} {ids : List Nat}

/-- Every data file is sealed: the states between two merges. -/
structure Merging (P : Prims) (s : NsState) : Prop where
  fault : ∀ n, s.fault n = none
  ring : s.ring = []
  files : FilesOk P s.sealed s.sealed s.disk s.index

/-- The merge of the files `ids`. -/
def mergeJob (s : NsState) (ids : List Nat) : MergeJob :=
  { sealed := s.sealed, disk := s.disk, index := s.index, ids, newId := maxFileId s + 1 }

theorem le_foldr_max {l : List Nat} {x : Nat} (h : x ∈ l) : x ≤ l.foldr max 0 := by
  induction l with
  | nil => cases h
  | cons y ys ih =>
    rcases mem_cons.mp h with rfl | h
    · exact Nat.le_max_left _ _
    · exact (ih h).trans (Nat.le_max_right _ _)

theorem sealed_le_maxFileId {id : Nat} {f : LogFile} (hf : s.sealed[id]? = some f) :
    id ≤ maxFileId s := by
  have hmem : id ∈ s.sealed.keys :=
    ExtTreeMap.mem_keys.mpr (ExtTreeMap.isSome_getElem?_iff_mem.mp (by simp [hf]))
  exact (le_foldr_max hmem).trans (Nat.le_max_left _ _)

theorem Merging.ok (h : Merging P s) (ids : List Nat) : (mergeJob s ids).Ok P :=
  ⟨h.files, fun hf => Nat.lt_succ_of_le (sealed_le_maxFileId hf)⟩

/-- The state after a merge. -/
def mergedState (lvl : Nat) (ids : List Nat) (tick : Nat) (d : Disk) (ino : Nat)
    (cells : Nat → FileCell) (s : NsState) : NsState :=
  commitMerge lvl ids ⟨(mergeJob s ids).newId, ino⟩ (mergeJob s ids).entries
    (s.worked tick ((mergeJob s ids).replaced d ino (mergeJob s ids).inputs) cells)

theorem wpx_mergeLevel {lvl : Nat} {Q : Except EngineError ReclaimReport → NsState → Prop}
    (h : Merging P s) (hnodup : ids.Nodup)
    (hcr : ∀ s', TmpStep s.disk s'.disk → Idle s' → Cr s')
    (hcr' : ∀ s' d ino us, (mergeJob s ids).Built P d ino → (mergeJob s ids).Inputs us →
      s'.disk = (mergeJob s ids).replaced d ino us → s'.ring = [] → Cr s')
    (hio : ∀ e s, Q (.error (.io e)) s)
    (hover : u32Max < maxFileId s + 1 → Q (.error idOverflow) s)
    (hok : ∀ report tick d ino cells, (mergeJob s ids).Built P d ino → maxFileId s + 1 ≤ u32Max →
      Q (.ok report) (mergedState lvl ids tick d ino cells s)) :
    wpx Cr (mergeLevel P lvl ids) Q s := by
  have hJ := h.ok ids
  simp only [mergeLevel, wpx_seq, wpx_liftTask, wpc_gets, onOk_ok]
  refine wpx_nextFileId (fun hid => hover hid) fun hid => ?_
  simp only [onOk_ok]
  refine hJ.wpx_reclaimNamespace hnodup h.fault h.ring rfl hcr hcr' (fun e s => hio e s) ?_
  intro report tick d ino cells hb
  have hall : (mergeJob s ids).Inputs (mergeJob s ids).inputs :=
    hJ.inputs_of_prefix hnodup (append_nil _).symm
  have hdata : ((mergeJob s ids).replaced d ino (mergeJob s ids).inputs).data[maxFileId s + 1]?
      = some ino := by
    have hnew : maxFileId s + 1 = (mergeJob s ids).newId := rfl
    rw [MergeJob.data_replaced, if_neg, if_pos hnew]
    intro hmem
    obtain ⟨g, hg, hgid⟩ := mem_map.mp hmem
    exact Nat.lt_irrefl _ (hgid ▸ hJ.fresh (hall.isSealed g hg))
  have hcrash :
    ∀ t c, Cr (s.worked t ((mergeJob s ids).replaced d ino (mergeJob s ids).inputs) c) :=
    fun t c => hcr' _ d ino _ hb hall rfl h.ring
  simp only [onOk_ok, LogFile.openRo, wpx_seq, wpx_ioAct, LogFile.wrap, LogFile.size, wpx_liftTask,
    wpc_modify, wpx_pure]
  have hdisk : ∀ t c, (s.worked t ((mergeJob s ids).replaced d ino (mergeJob s ids).inputs) c).disk
      = (mergeJob s ids).replaced d ino (mergeJob s ids).inputs := fun _ _ => rfl
  refine wpc_io_of h.fault (hcrash _ _) ?_ ?_
  · simp only [hdisk, hdata]
    exact hcrash (tick + 1) cells
  simp only [hdisk, hdata, ofIo_ok, onOk_ok]
  refine wpc_io_of h.fault (hcrash (tick + 1) cells) (hcrash (tick + 2) cells) ?_
  simp only [ofIo_ok, onOk_ok]
  exact hok report (tick + 2) d ino _ hb hid

theorem getElem?_foldl_erase {α : Type} (ids : List Nat) (m : ExtTreeMap Nat α) (id : Nat) :
    (ids.foldl (fun m id => m.erase id) m)[id]? = if id ∈ ids then none else m[id]? := by
  induction ids generalizing m with
  | nil => simp
  | cons i ids ih =>
    rw [foldl_cons, ih]
    by_cases hmem : id ∈ ids
    · simp [hmem]
    · by_cases hid : id = i
      · simp [hid]
      · simp [hmem, hid, ExtTreeMap.getElem?_erase, Ne.symm hid]

/-- In memory the inputs are replaced just as they are on disk. -/
theorem Merging.sealed_merged (h : Merging P s) (lvl tick : Nat) (d : Disk) (ino : Nat)
    (cells : Nat → FileCell) :
    (mergedState lvl ids tick d ino cells s).sealed
      = (mergeJob s ids).replacedHandles ino (mergeJob s ids).inputs := by
  have hJ := h.ok ids
  refine ExtTreeMap.ext_getElem? fun id => ?_
  rw [MergeJob.replacedHandles, getElem?_eraseAll]
  simp only [mergedState, commitMerge, NsState.worked, ExtTreeMap.getElem?_insert,
    getElem?_foldl_erase]
  by_cases hnew : (mergeJob s ids).newId = id
  · have hout : id ∉ (mergeJob s ids).inputs.map LogFile.fileId := by
      intro hmem
      obtain ⟨g, hg, rfl⟩ := mem_map.mp hmem
      exact Nat.lt_irrefl _ (hnew ▸ hJ.fresh (hJ.mem_inputs.mp hg).2)
    simp [hnew, hout]
  · by_cases hid : id ∈ (mergeJob s ids).inputs.map LogFile.fileId
    · obtain ⟨g, hg, rfl⟩ := mem_map.mp hid
      have hin : g.fileId ∈ ids := (hJ.mem_inputs.mp hg).1
      simp [hnew, hid, hin]
    · by_cases hin : id ∈ ids
      · have hnone : s.sealed[id]? = none := by
          cases hs : s.sealed[id]? with
          | none => rfl
          | some g =>
            have hown := h.files.dir.own hs
            exact absurd (mem_map.mpr ⟨g, hJ.mem_inputs.mpr
              ⟨hown ▸ hin, hown ▸ hs⟩, hown⟩) hid
        have hnone' : (mergeJob s ids).sealed[id]? = none := hnone
        simp [hnew, hid, hin, hnone']
      · have hsame : (mergeJob s ids).sealed[id]? = s.sealed[id]? := rfl
        rw [if_neg hid, if_neg hin, hsame]

theorem Merging.merged (h : Merging P s) (hnodup : ids.Nodup) {lvl tick : Nat}
    {d : Disk} {ino : Nat}
    {cells : Nat → FileCell} (hb : (mergeJob s ids).Built P d ino) :
    Merging P (mergedState lvl ids tick d ino cells s) := by
  have hJ := h.ok ids
  refine ⟨h.fault, h.ring, ?_⟩
  rw [h.sealed_merged]
  exact hJ.filesOk hb (hJ.inputs_of_prefix hnodup (append_nil _).symm)

theorem Merging.view_merged (h : Merging P s) (hnodup : ids.Nodup) {lvl tick : Nat} {d : Disk}
    {ino : Nat} {cells : Nat → FileCell} (hb : (mergeJob s ids).Built P d ino) (k : Bytes) :
    viewAt (mergedState lvl ids tick d ino cells s).sealed
        (mergedState lvl ids tick d ino cells s).disk
        (mergedState lvl ids tick d ino cells s).index k
      = viewAt s.sealed s.disk s.index k := by
  have hJ := h.ok ids
  rw [h.sealed_merged]
  exact hJ.view hb (hJ.inputs_of_prefix hnodup (append_nil _).symm) k

theorem size_foldl_erase {α : Type} {ids : List Nat} {m : ExtTreeMap Nat α} (hnodup : ids.Nodup)
    (hmem : ∀ id ∈ ids, id ∈ m) :
    (ids.foldl (fun m id => m.erase id) m).size + ids.length = m.size := by
  induction ids generalizing m with
  | nil => simp
  | cons i ids ih =>
    rw [nodup_cons] at hnodup
    have hi : i ∈ m := hmem i (mem_cons_self ..)
    have hsize : (m.erase i).size + 1 = m.size := by
      have hpos : m.size ≠ 0 := fun h0 => by
        have hempty := ExtTreeMap.eq_empty_iff_size_eq_zero.mpr h0
        rw [hempty] at hi
        simp at hi
      rw [ExtTreeMap.size_erase, if_pos (ExtTreeMap.contains_iff_mem.mpr hi)]
      omega
    have := ih (m := m.erase i) hnodup.2 fun id hid => by
      have hne : i ≠ id := fun h => hnodup.1 (h ▸ hid)
      rw [ExtTreeMap.mem_erase]
      exact ⟨by simpa using hne, hmem id (mem_cons_of_mem _ hid)⟩
    rw [foldl_cons, length_cons]
    omega

/-- A merge of at least two files leaves fewer. -/
theorem size_merged {lvl tick : Nat} {d : Disk} {ino : Nat} {cells : Nat → FileCell}
    (hnodup : ids.Nodup) (hmem : ∀ id ∈ ids, id ∈ s.sealed) (htwo : 2 ≤ ids.length) :
    (mergedState lvl ids tick d ino cells s).sealed.size < s.sealed.size := by
  have hsize := size_foldl_erase hnodup hmem
  have hins : ((ids.foldl (fun m id => m.erase id) s.sealed).insert (mergeJob s ids).newId
      ⟨(mergeJob s ids).newId, ino⟩).size
      ≤ (ids.foldl (fun m id => m.erase id) s.sealed).size + 1 := ExtTreeMap.size_insert_le
  simp only [mergedState, commitMerge, NsState.worked]
  omega

end turn

/-! ## The cascade -/

section cascade
variable {P : Prims} {Cr : NsState → Prop} {s : NsState}

theorem levelIds_nodup (s : NsState) (lvl : Nat) : (levelIds s lvl).Nodup :=
  (ExtTreeMap.nodup_keys).filter _

theorem mem_levelIds {lvl id : Nat} : id ∈ levelIds s lvl ↔ id ∈ s.sealed ∧ levelOf s id = lvl := by
  simp [levelIds, ExtTreeMap.mem_keys]

theorem fullLevel_some {lvl : Nat} {ids : List Nat} (h : fullLevel s = some (lvl, ids)) :
    ids = levelIds s lvl ∧ s.config.fanout ≤ ids.length := by
  obtain ⟨l, hl, heq⟩ := Option.map_eq_some_iff.mp h
  cases heq
  have hmem := min?_mem hl
  exact ⟨rfl, by simpa using (mem_filter.mp hmem).2⟩

/-- No full level is found only if there is none. -/
theorem fullLevel_none (h : fullLevel s = none) (hpos : 0 < s.config.fanout) (lvl : Nat) :
    (levelIds s lvl).length < s.config.fanout := by
  by_contra hfull
  have hfull : s.config.fanout ≤ (levelIds s lvl).length := Nat.le_of_not_lt hfull
  obtain ⟨id, hid⟩ := exists_mem_of_length_pos (l := levelIds s lvl) (by omega)
  obtain ⟨hs, hlvl⟩ := mem_levelIds.mp hid
  have hmem : lvl ∈ (s.sealed.keys.map (levelOf s)).filter
      fun l => decide (s.config.fanout ≤ (levelIds s l).length) :=
    mem_filter.mpr ⟨mem_map.mpr ⟨id, ExtTreeMap.mem_keys.mpr hs, hlvl⟩, by simpa using hfull⟩
  have hnone := Option.map_eq_none_iff.mp h
  rw [min?_eq_none_iff] at hnone
  rw [hnone] at hmem
  cases hmem

/-- How a cascade may end: not cut off, and on success with no full level. -/
def CascadeEnds (K : NsState → Prop) (E : EngineError → NsState → Prop) :
    Except EngineError (Option ReclaimReport) → NsState → Prop
  | .ok (some _), s => K s ∧ fullLevel s = none
  | .ok none, _ => False
  | .error e, s => E e s

/-- How one turn of it may end. -/
def TurnEnds (K : NsState → Prop) (E : EngineError → NsState → Prop) (size : Nat) :
    Except EngineError ReclaimReport → NsState → Prop
  | .ok _, s => K s ∧ s.sealed.size < size
  | .error e, s => E e s

/-- The cascade ends: each turn leaves fewer files. -/
theorem wpx_cascade {K : NsState → Prop} {E : EngineError → NsState → Prop}
    (hturn : ∀ s lvl ids, K s → fullLevel s = some (lvl, ids) →
      wpx Cr (mergeLevel P lvl ids) (TurnEnds K E s.sealed.size) s)
    {fuel : Nat} (total : ReclaimReport) (hs : K s) (hfuel : s.sealed.size < fuel) :
    wpx Cr (cascade P fuel total) (CascadeEnds K E) s := by
  induction fuel generalizing s total with
  | zero => exact absurd hfuel (Nat.not_lt_zero _)
  | succ fuel ih =>
    simp only [cascade, wpx_seq, wpx_liftTask, wpc_gets, onOk_ok]
    cases hfull : fullLevel s with
    | none =>
      simp only [wpx_pure]
      exact ⟨hs, hfull⟩
    | some p =>
      obtain ⟨lvl, ids⟩ := p
      simp only [wpx_seq]
      refine wpx_mono (hturn s lvl ids hs hfull) (fun _ h => h) ?_
      intro r s' hr
      cases r with
      | ok report =>
        obtain ⟨hK, hlt⟩ := hr
        exact ih _ hK (by omega)
      | error e => exact hr

end cascade

/-! ## The whole reclaim -/

section reclaim
variable {P : Prims} {Cr : NsState → Prop} {s₀ s : NsState}

/-- The same blobs with the same contents. -/
structure SameBlobs (d d' : Disk) : Prop where
  blobs : d'.blobs = d.blobs
  bytes : ∀ {h : ContentHash} {ino : Nat}, d.blobs[h]? = some ino → d'.inodes ino = d.inodes ino

theorem SameBlobs.trans {d d' d'' : Disk} (h : SameBlobs d d') (h' : SameBlobs d' d'') :
    SameBlobs d d'' :=
  ⟨h'.blobs.trans h.blobs, fun hb => (h'.bytes (h.blobs ▸ hb)).trans (h.bytes hb)⟩

theorem TmpStep.toSameBlobs {d d' : Disk} (h : TmpStep d d') : SameBlobs d d' :=
  ⟨h.sameBlobs, h.blobBytes⟩

theorem MergeJob.Built.sameBlobs {J : MergeJob} {d : Disk} {ino : Nat} (hb : J.Built P d ino)
    (us : List LogFile) : SameBlobs J.disk (J.replaced d ino us) := by
  have hblobs : ∀ (us : List LogFile) (d : Disk), (unlinkAll us d).blobs = d.blobs := by
    intro us
    induction us with
    | nil => intro d; rfl
    | cons u us ih => intro d; exact ih _
  refine hb.side.toSameBlobs.trans ⟨hblobs us _, fun _ => ?_⟩
  rw [MergeJob.replaced, inodes_unlinkAll]
  rfl

/-- The states between two merges of a reclaim that began in `s₀`: readers see what they
saw then. -/
structure Reclaiming (P : Prims) (s₀ s : NsState) : Prop where
  merging : Merging P s
  view : ∀ k, viewAt s.sealed s.disk s.index k = viewAt s₀.core.handles s₀.disk s₀.index k
  blobs : SameBlobs s₀.disk s.disk
  refs : s.refs = s₀.refs
  locks : s.locks = s₀.locks
  active : s.active = s₀.active
  /-- A merge takes one id and gives back at least one. -/
  room : maxFileId s + s.sealed.size ≤ s₀.active.fileId + s₀.sealed.size + 1

/-- The old active file has its footer and is among the sealed ones. -/
def sealedState (P : Prims) (s : NsState) : NsState :=
  sealFile s.active (s.active.footered P (footerOf s.index s.active.fileId) s)

theorem LogOk.reclaiming (h : LogOk P s.core)
    (hsize : s.core.activeBytes.length + (footerBytes P (footerOf s.index s.active.fileId)).length
      ≤ maxFileSize) : Reclaiming P s (sealedState P s) := by
  have hsize' : (s.core.activeBytes ++ footerBytes P (footerOf s.index s.active.fileId)).length
      ≤ maxFileSize := by rw [length_append]; exact hsize
  have hseal := h.files.seal (handles_active s.core) h.active_open hsize'
  have hino : ∀ {hash : ContentHash} {ino : Nat}, s.disk.blobs[hash]? = some ino →
    ino ≠ s.active.ino :=
    fun hb heq => h.files.dir.blobApart hb
      (heq ▸ h.files.dir.logs_of_handle (handles_active s.core))
  refine ⟨⟨h.fault, h.ring, hseal⟩, ?_, ⟨rfl, fun hb => Disk.inodes_setBytes_of_ne _ _ (hino hb)⟩,
    rfl, rfl, rfl, ?_⟩
  · intro k
    have hidx : (sealedState P s).index = s.index := rfl
    simp only [viewAt, hidx]
    cases hk : s.index.get k with
    | none => rfl
    | some e =>
      obtain ⟨f, hf, hrec⟩ := h.files.resolves hk
      have hf' : (sealedState P s).sealed[e.fileId]? = some f := hf
      have hbytes : Bytes.slice ((sealedState P s).disk.inodes f.ino) e.recordOffset e.recordSize
          = Bytes.slice (s.disk.inodes f.ino) e.recordOffset e.recordSize := by
        change Bytes.slice ((s.disk.setBytes s.active.ino _).inodes f.ino) _ _ = _
        by_cases heq : f.ino = s.active.ino
        · rw [heq, Disk.inodes_setBytes, Bytes.slice_append_left]
          rw [← heq]; exact hrec.bound
        · rw [Disk.inodes_setBytes_of_ne _ _ heq]
      have hf₀ : s.core.handles[e.fileId]? = some f := hf
      simp only [Option.map_some, hf', hf₀, hbytes]
  · have hmax : maxFileId (sealedState P s) = s.active.fileId := by
      refine maxFileId_eq fun {id f} hf => ?_
      change (s.sealed.insert s.active.fileId s.active)[id]? = some f at hf
      change id ≤ s.active.fileId
      rcases handles_cases s.core hf with ⟨rfl, -⟩ | ⟨-, hs⟩
      · exact Nat.le_refl _
      · exact Nat.le_of_lt (h.below hs)
    have hins : (s.sealed.insert s.active.fileId s.active).size ≤ s.sealed.size + 1 :=
      ExtTreeMap.size_insert_le
    rw [hmax]
    change s.active.fileId + (s.sealed.insert s.active.fileId s.active).size ≤ _
    omega

theorem maxFileId_merged {lvl tick : Nat} {ids : List Nat} {d : Disk} {ino : Nat}
    {cells : Nat → FileCell} :
    maxFileId (mergedState lvl ids tick d ino cells s) ≤ maxFileId s + 1 := by
  refine Nat.max_le.mpr ⟨foldr_max_le fun id hid => ?_, ?_⟩
  · have hmem := ExtTreeMap.mem_keys.mp hid
    obtain ⟨f, hf⟩ := Option.isSome_iff_exists.mp (ExtTreeMap.isSome_getElem?_iff_mem.mpr hmem)
    simp only [mergedState, commitMerge, NsState.worked, ExtTreeMap.getElem?_insert,
      getElem?_foldl_erase] at hf
    by_cases hnew : (mergeJob s ids).newId = id
    · exact hnew ▸ Nat.le_refl _
    · simp only [hnew, Std.compare_eq_iff_eq, if_false] at hf
      split at hf
      · cases hf
      · exact (sealed_le_maxFileId hf).trans (Nat.le_succ _)
  · exact (Nat.le_max_right _ _).trans (Nat.le_succ _)

theorem Reclaiming.merged (h : Reclaiming P s₀ s) {ids : List Nat} (hnodup : ids.Nodup)
    (hmem : ∀ id ∈ ids, id ∈ s.sealed) (htwo : 2 ≤ ids.length) {lvl tick : Nat} {d : Disk}
    {ino : Nat} {cells : Nat → FileCell} (hb : (mergeJob s ids).Built P d ino) :
    Reclaiming P s₀ (mergedState lvl ids tick d ino cells s) where
  merging := h.merging.merged hnodup hb
  view := fun k => (h.merging.view_merged hnodup hb k).trans (h.view k)
  blobs := h.blobs.trans (hb.sameBlobs _)
  refs := h.refs
  locks := h.locks
  active := h.active
  room := by
    have hsize := @size_merged s ids lvl tick d ino cells hnodup hmem htwo
    have hmax := @maxFileId_merged s lvl tick ids d ino cells
    have := h.room
    omega

/-- How a merge or a cascade of a reclaim may fail. -/
def ReclaimFails (P : Prims) (s₀ : NsState) (e : EngineError) (s : NsState) : Prop :=
  (∃ io, e = .io io) ∨ (e = idOverflow ∧ Reclaiming P s₀ s ∧ u32Max < maxFileId s + 1)

/-- The fresh active file after the cascade. -/
structure Reopened (s s' : NsState) : Prop where
  core : s'.core = s.core.activated (maxFileId s + 1)
  locks : s'.locks = s.locks
  refs : s'.refs = s.refs
  level : s'.level = s.level

theorem Reclaiming.newId_free (h : Reclaiming P s₀ s) : s.disk.data[maxFileId s + 1]? = none := by
  rw [h.merging.files.dir.map]
  cases hs : s.sealed[maxFileId s + 1]? with
  | none => rfl
  | some f => exact absurd (sealed_le_maxFileId hs) (Nat.not_succ_le_self _)

/-- A reclaim, with an invariant `X` of the states between its merges. -/
theorem wpx_reclaimInner {X : NsState → Prop}
    {Q : Except EngineError (Option ReclaimReport) → NsState → Prop}
    (h : LogOk P s.core) (htwo : 2 ≤ s.config.fanout)
    (hX₀ : Reclaiming P s (sealedState P s) → X (sealedState P s))
    (hX : ∀ s₁ ids lvl tick d ino cells, Reclaiming P s s₁ → X s₁ → ids.Nodup →
      (mergeJob s₁ ids).Built P d ino → X (mergedState lvl ids tick d ino cells s₁))
    (hseal : ∀ s', Sealing P s.active (footerOf s.index s.active.fileId) s s' → Cr s')
    (hside : ∀ s₁ s', Reclaiming P s s₁ → X s₁ → TmpStep s₁.disk s'.disk → Idle s' → Cr s')
    (hrepl : ∀ s₁ ids s' d ino us, Reclaiming P s s₁ → X s₁ → (mergeJob s₁ ids).Built P d ino →
      (mergeJob s₁ ids).Inputs us → s'.disk = (mergeJob s₁ ids).replaced d ino us →
      s'.ring = [] → Cr s')
    (hnew : ∀ s₁ s', Reclaiming P s s₁ → X s₁ →
      s'.disk = (s₁.disk.openCreateData (maxFileId s₁ + 1)).2 → s'.ring = [] → Cr s')
    (hio : ∀ e s, Q (.error (.io e)) s)
    (hover : ∀ s₁, Reclaiming P s s₁ → u32Max < maxFileId s₁ + 1 → Q (.error idOverflow) s₁)
    (hok : ∀ report s₁ s', Reclaiming P s s₁ → X s₁ → fullLevel s₁ = none →
      maxFileId s₁ + 1 ≤ u32Max → Reopened s₁ s' → Q (.ok (some report)) s') :
    wpx Cr (reclaimInner P) Q s := by
  simp only [reclaimInner, wpx_seq, wpx_liftTask, wpc_gets, onOk_ok]
  refine wpx_writeFooter h.fault h.ring h.tight hseal (fun _ e s => hio e s) fun hsize req => ?_
  simp only [onOk_ok, wpc_modify]
  have hstart := h.reclaiming hsize
  have hcascade : wpx Cr (cascade P ((sealedState P s).sealed.size + 1) ⟨0, 0, 0, 0, 0⟩)
      (CascadeEnds (fun s₁ => Reclaiming P s s₁ ∧ X s₁) (ReclaimFails P s)) (sealedState P s) := by
    refine wpx_cascade ?_ _ ⟨hstart, hX₀ hstart⟩ (Nat.lt_succ_self _)
    rintro s₁ lvl ids ⟨hr, hx⟩ hfull
    obtain ⟨rfl, hlen⟩ := fullLevel_some hfull
    have hfan : s₁.config = s.config := congrArg Locks.config hr.locks
    rw [hfan] at hlen
    have hnodup := levelIds_nodup s₁ lvl
    have hmem : ∀ id ∈ levelIds s₁ lvl, id ∈ s₁.sealed := fun id hid => (mem_levelIds.mp hid).1
    refine wpx_mergeLevel hr.merging hnodup (fun s' => hside s₁ s' hr hx)
      (fun s' d ino us => hrepl s₁ _ s' d ino us hr hx) (fun e s => .inl ⟨e, rfl⟩)
      (fun hid => .inr ⟨rfl, hr, hid⟩) ?_
    intro report tick d ino cells hb _
    exact ⟨⟨hr.merged hnodup hmem (htwo.trans hlen) hb, hX s₁ _ _ _ _ _ _ hr hx hnodup hb⟩,
      size_merged hnodup hmem (htwo.trans hlen)⟩
  refine wpx_mono hcascade (fun _ h => h) ?_
  rintro (e | report) s₁ hend
  · rcases hend with ⟨io, rfl⟩ | ⟨rfl, hr, hid⟩
    · exact hio io s₁
    · exact hover s₁ hr hid
  cases report with
  | none => exact absurd hend id
  | some total =>
    obtain ⟨⟨hr, hx⟩, hfull⟩ := hend
    simp only [onOk_ok, wpx_seq]
    refine wpx_nextFileId (fun hid => hover s₁ hr hid) fun hid => ?_
    simp only [onOk_ok]
    have hring := hr.merging.ring
    refine wpx_openRw_new hr.merging.fault hr.newId_free ?_ ?_
    · rintro s' hr' (hd | hd)
      · exact hside s₁ s' hr hx (hd ▸ TmpStep.refl _) (idle_of_ring (hr'.trans hring))
      · exact hnew s₁ s' hr hx hd (hr'.trans hring)
    simp only [onOk_ok, wpx_liftTask, syncDir, wpc_seq, wpc_pure, wpc_at, wpc_modify, wpx_pure]
    refine wpc_io_of hr.merging.fault (hnew s₁ _ hr hx rfl hring) (hnew s₁ _ hr hx rfl hring) ?_
    exact hok _ s₁ _ hr hx hfull hid ⟨rfl, rfl, rfl, rfl⟩

/-- The log is in order again after a reclaim. -/
theorem Reclaiming.logOk (h : Reclaiming P s₀ s) (hid : maxFileId s + 1 ≤ u32Max) :
    LogOk P (s.core.activated (maxFileId s + 1)) := by
  have hdata := h.newId_free
  have hfree : s.sealed[maxFileId s + 1]? = none := by
    cases hs : s.sealed[maxFileId s + 1]? with
    | none => rfl
    | some f => exact absurd (sealed_le_maxFileId hs) (Nat.not_succ_le_self _)
  have hdir := h.merging.files.dir
  have hlink := (h.merging.files.sideStep hdir.tmpStep_alloc.toSideStep).link hdir.unused_alloc
    (by simp [Disk.alloc]) hfree
  have hcreate : (s.core.disk.openCreateData (maxFileId s + 1)).2
      = s.disk.alloc.link (maxFileId s + 1) s.disk.nextIno := openCreateData_new hdata
  refine ⟨h.merging.fault, h.merging.ring, ?_, ?_, hid, ?_⟩
  · simp only [Core.activated, hcreate]
    exact hlink
  · intro id f hs
    exact Nat.lt_succ_of_le (sealed_le_maxFileId hs)
  · simp only [Core.activated, Core.activeBytes, hcreate]
    simp [Disk.link, Disk.alloc, NsState.core]

/-- Readers do not notice the new active file. -/
theorem Reclaiming.view_activated (h : Reclaiming P s₀ s) (k : Bytes) :
    viewAt (s.core.activated (maxFileId s + 1)).handles (s.core.activated (maxFileId s + 1)).disk
        s.index k = viewAt s₀.core.handles s₀.disk s₀.index k := by
  rw [← h.view k]
  have hcreate : (s.core.disk.openCreateData (maxFileId s + 1)).2
      = s.disk.alloc.link (maxFileId s + 1) s.disk.nextIno := openCreateData_new h.newId_free
  cases hk : s.index.get k with
  | none => simp [viewAt, hk]
  | some e =>
    obtain ⟨f, hf, -⟩ := h.merging.files.resolves hk
    have hne : maxFileId s + 1 ≠ e.fileId := by
      have := sealed_le_maxFileId hf
      omega
    have hf' : (s.core.activated (maxFileId s + 1)).handles[e.fileId]? = some f := by
      simp only [Core.handles, Core.activated, ExtTreeMap.getElem?_insert, NsState.core]
      simp [hne, hf]
    have hbytes : (s.core.activated (maxFileId s + 1)).disk.inodes f.ino = s.disk.inodes f.ino := by
      simp only [Core.activated, hcreate]
      exact h.merging.files.dir.tmpStep_alloc.inodes (h.merging.files.dir.logs_of_handle hf)
    simp only [viewAt, hk, Option.map_some, hf, hf', hbytes]

end reclaim

end BeyondKv
