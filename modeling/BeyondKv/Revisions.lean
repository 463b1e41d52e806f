/-
# Revisions across restarts

A process that opens a directory counts on from the largest revision of a live key it
recovers; nothing else of the earlier revisions is read. So revisions rise over a restart
if the clock is ahead of all of them, or if a live key that is as new was on disk when the
process before was shut down, or crashed between two calls or inside an append
(`revisions_rise`). A delete, an expiry update and a flush leave no such key: after one of
them a clock that stepped back hands out an old revision again.
-/
import BeyondKv.Listing
import BeyondKv.Replay
import BeyondKv.Stamps

namespace BeyondKv

open Async

/-! ## What a restart finds -/

/-- What calls keep, one after another: footers and active file tell where the live keys are. -/
structure Orderly (P : Prims) (s : NsState) : Prop where
  ready : Ready P s
  listed : s.core.Listed P
  replays : ∃ ls, s.core.Replays P ls

/-- The process is shut down in order. -/
structure ShutDown (P : Prims) (s : NsState) (d : Disk) : Prop where
  roomy : Roomy s
  done : ∃ s₁, (run (sealActiveForShutdown P).run s).result = some (.ok (), s₁) ∧ s₁.disk = d

/-- The process stops with a record cut short, or nothing, behind its active file. Client
bytes at the end of the file do not read as a footer. -/
structure Crashed (P : Prims) (s : NsState) (d : Disk) : Prop where
  torn : ∃ tail, d = s.disk.setBytes s.active.ino (s.core.activeBytes ++ tail)
    ∧ ScanStops P (s.core.activeBytes ++ tail) s.core.activeBytes.length
    ∧ readFooter P (s.core.activeBytes ++ tail) = .ok none

/-- Opening `d` recovers every live key of `s`. -/
def Recovers (P : Prims) (s : NsState) (d : Disk) : Prop :=
  ∃ o d', openNamespace P d = .ok (o, d') ∧ ∀ k e, s.index.get k = some e → o.index.get k = some e

section restarts
variable {P : Prims} {config : LogConfig} {clock : Nat → UInt64} {fault : Nat → Option Nat}
  {s s' : NsState} {d : Disk}

theorem openLog_inv (h : openLog P config clock fault d = .ok s) :
    ∃ o d' refs, openNamespace P d = .ok (o, d') ∧ s = freshState config clock fault o d' refs := by
  cases hopen : openNamespace P d with
  | error e =>
    simp only [openLog, hopen, bind, Except.bind] at h
    cases h
  | ok x =>
    obtain ⟨refs, hlog, -⟩ := openLog_eq config clock fault hopen
    rw [h] at hlog
    exact ⟨x.1, x.2, refs, rfl, Except.ok.inj hlog⟩

theorem Reaches.orderly {s₀ : NsState}
    (hopen : openLog P config clock (fun _ => none) Disk.empty = .ok s₀)
    {Allowed : NsState → Call → Prop} (hA : ∀ s call, Allowed s call → Sound s call)
    (hreach : Reaches P Allowed s₀ s) : Orderly P s := by
  obtain ⟨hready, hlisted⟩ := hreach.listed hopen hA
  obtain ⟨s₀', hopen', hready₀, -, hidx, -, hbytes⟩ := openLog_empty P config clock
  rw [hopen] at hopen'
  cases hopen'
  have hnil : ∃ ls, s₀.core.Replays P ls := by
    refine ⟨[], .nil hbytes fun {k e} hk => ?_⟩
    have hI : s₀.core.index = .empty := hidx
    rw [hI, NsIndex.get_empty] at hk
    cases hk
  have hls := Reaches.invariant (I := fun s => ∃ ls, s.core.Replays P ls) hA hready₀ hnil
    (fun s call r s' hr hls _ _ ho => ho.replays hr hls) hreach
  exact ⟨hready, hlisted, hls.2⟩

/-- After a shutdown the footers tell the index. -/
theorem ShutDown.recovers (h : ShutDown P s d) (ho : Orderly P s) : Recovers P s d := by
  obtain ⟨s₁, hrun, rfl⟩ := h.done
  have hwp : wpx Anywhere (sealActiveForShutdown P) (fun r s₁ => r = .ok () →
      (s.core.footered P).activeBytes.length ≤ maxFileSize ∧ Leaves s (s.core.footered P) s₁) s :=
    wpx_sealActiveForShutdown ho.ready.ok (fun e s he => by cases he)
      fun s₁ hsize hl _ => ⟨hsize, hl⟩
  obtain ⟨-, r, s₂, hrun', hQ⟩ := hwp
  rw [hrun] at hrun'
  cases hrun'
  obtain ⟨hsize, hseal⟩ := hQ rfl
  have hdisk : s₁.disk = (s.core.footered P).disk := congrArg Core.disk hseal.core
  have hfiles : FilesOk P s.core.handles s.core.handles s₁.disk s.core.index := by
    rw [hdisk]
    exact ho.ready.ok.sealed_files hsize
  obtain ⟨s', hlog, -, -, hr⟩ := openLog_sealed hfiles (handles_active s.core)
    (fun hf => ho.ready.ok.handle_le hf) h.roomy.idLeft s.config s.clock
  have hF : filesOf s.core.handles = fun id ino => (id, ino) ∈ s₁.disk.listDataFiles := by
    rw [← hr.filesOf_eq hfiles, hr.sealed]
  have hlists := ho.ready.ok.lists_footered ho.listed hsize
  rw [hF, ← hdisk] at hlists
  obtain ⟨o, d', refs, hopen, rfl⟩ := openLog_inv hlog
  have hidx : o.index = foldFooters P s₁.disk s₁.disk.listDataFiles .empty := hr.index
  refine ⟨o, d', hopen, fun k e hk => ?_⟩
  rw [hidx]
  exact (hlists.foldFooters (listDataFiles_sorted _) (fun f hf => (hfiles.sealed_of_mem hf).nodup)
    hk (by simp)).1

/-- The files below the active one are the sealed files. -/
theorem LogOk.lower_files (h : LogOk P s.core) : ∃ lower,
    s.disk.listDataFiles = lower ++ [(s.active.fileId, s.active.ino)]
      ∧ lower.Pairwise (fun f g => f.1 < g.1)
      ∧ filesOf s.core.sealed = fun id ino => (id, ino) ∈ lower := by
  have hdata : ∀ {id ino : Nat}, s.core.disk.data[id]? = some ino →
      ∃ f, s.core.handles[id]? = some f ∧ f.fileId = id ∧ f.ino = ino := by
    intro id ino hmem
    rw [h.files.dir.map] at hmem
    obtain ⟨f, hf, rfl⟩ := Option.map_eq_some_iff.mp hmem
    exact ⟨f, hf, h.files.dir.own hf, rfl⟩
  obtain ⟨lower, hlist⟩ := listDataFiles_eq_concat
    (h.files.dir.data_of_handle (handles_active s.core)) fun hmem => by
      obtain ⟨f, hf, -⟩ := hdata hmem
      exact h.handle_le hf
  have hsorted := listDataFiles_sorted s.core.disk
  rw [hlist] at hsorted
  obtain ⟨hsorted, -, hbelow⟩ := List.pairwise_append.mp hsorted
  refine ⟨lower, hlist, hsorted, ?_⟩
  funext id ino
  refine propext ⟨fun hF => ?_, fun hmem => ?_⟩
  · have hmem := mem_listDataFiles.mpr (h.files.dir.data_of_handle (h.files.isHandle hF))
    rw [hlist] at hmem
    refine (List.mem_append.mp hmem).resolve_right fun hlast => ?_
    cases List.mem_singleton.mp hlast
    exact absurd (h.filesOf_below hF) (Nat.lt_irrefl _)
  · obtain ⟨f, hf, rfl, rfl⟩ := hdata
      (mem_listDataFiles.mp (hlist ▸ List.mem_append_left _ hmem))
    have hne := Nat.ne_of_lt (hbelow _ hmem _ (List.mem_singleton_self _))
    rcases handles_cases s.core hf with ⟨heq, -⟩ | ⟨-, hf'⟩
    · exact absurd heq hne
    · exact hf'

/-- After a crash the active file is replayed over the footers of the others. -/
theorem Crashed.recovers (h : Crashed P s d) (ho : Orderly P s) : Recovers P s d := by
  obtain ⟨tail, rfl, hstop, hfoot⟩ := h.torn
  obtain ⟨ls, hrep⟩ := ho.replays
  have hok := ho.ready.ok
  set d := s.disk.setBytes s.active.ino (s.core.activeBytes ++ tail) with hd
  obtain ⟨lower, hlower, hsorted, hF⟩ := hok.lower_files
  have hlist : d.listDataFiles = lower ++ [(s.active.fileId, s.active.ino)] := hlower
  -- the torn bytes are not in the sealed files
  have hinodes : ∀ {id ino : Nat}, filesOf s.core.sealed id ino →
      d.inodes ino = s.disk.inodes ino := fun hF => hok.inodes_appendActive tail hF
  have hsealed : ∀ f ∈ lower, Sealed P (d.inodes f.2) := by
    intro f hf
    have hFf : filesOf s.core.sealed f.1 f.2 := by rw [hF]; exact hf
    rw [hinodes hFf]
    exact (hok.files.footed hFf).sealed
  have hbytes : d.inodes s.active.ino = s.core.activeBytes ++ tail := Disk.inodes_setBytes ..
  have hrecs : d.inodes s.active.ino = recsBytes P (ls.map Logged.toRec) ++ tail := by
    rw [hbytes, hrep.bytes]
    rfl
  obtain ⟨d', hopen, -⟩ := openNamespace_recs hlist
    (loadAllSealed_eq_foldFooters (fun f hf => .inl (hsealed f hf)) .empty)
    hrecs (by rw [hbytes]; exact hfoot)
    (by rw [hrep.bytes] at hstop; exact hstop)
  have hlists : Lists P d (fun id ino => (id, ino) ∈ lower) (some s.active.fileId) s.index :=
    hF ▸ Lists.disk ho.listed hinodes
  refine ⟨_, d', hopen, fun k e hk => ?_⟩
  by_cases hid : e.fileId = s.active.fileId
  · exact (hrep.own hk hid _).1
  · exact (hrep.old hk hid _).1.trans (hlists.foldFooters hsorted (fun f hf => (hsealed f hf).nodup)
      hk fun heq => hid (Option.some.inj heq)).1

/-- The counter starts at the newest key recovered. -/
theorem Recovers.counter (h : Recovers P s d) (hlog : openLog P config clock fault d = .ok s')
    {k : Bytes} {e : IndexEntry} (hk : s.index.get k = some e) : e.tstampMs ≤ s'.lastTstamp := by
  obtain ⟨o, d', hopen, hkeys⟩ := h
  obtain ⟨refs, hlog', -⟩ := openLog_eq config clock fault hopen
  rw [hlog] at hlog'
  cases hlog'
  exact (lastTstamp_freshState config clock fault).mp (UInt64.le_refl _) k e (hkeys k e hk)

end restarts

/-! ## Histories -/

/-- Calls of one process, one after another, with the revisions they acknowledge. -/
inductive Acks (P : Prims) : NsState → List UInt64 → NsState → Prop
  | nil (s : NsState) : Acks P s [] s
  | call {s s₁ s' : NsState} {c : Call} {r : Except EngineError (List UInt64)} {ts : List UInt64} :
      Headroom c.draws s → (run (c.act P).run s).result = some (r, s₁) → Acks P s₁ ts s' →
      Acks P s (acked r ++ ts) s'

/-- Processes one after another: `ts` are the revisions acknowledged since the first one was
started, and `s` is the state of the last. A restart with the given clock finds a directory
that `Allowed` admits for them. -/
inductive Lives (P : Prims)
    (Allowed : List UInt64 → NsState → (Nat → UInt64) → Disk → Prop) : List UInt64 → NsState → Prop
  | start {config : LogConfig} {clock : Nat → UInt64} {fault : Nat → Option Nat} {d : Disk}
      {s : NsState} :
      openLog P config clock fault d = .ok s → Lives P Allowed [] s
  | calls {s s' : NsState} {ts ts' : List UInt64} :
      Lives P Allowed ts s → Acks P s ts' s' → Lives P Allowed (ts ++ ts') s'
  | restart {config : LogConfig} {clock : Nat → UInt64} {fault : Nat → Option Nat} {d : Disk}
      {s s' : NsState} {ts : List UInt64} :
      Lives P Allowed ts s → Allowed ts s clock d → openLog P config clock fault d = .ok s' →
      Lives P Allowed ts s'

/-- The clock is ahead of every revision so far; or each of them is at most that of a live key
of the process that was shut down or crashed. -/
def Resumes (P : Prims) (ts : List UInt64) (s : NsState) (clock : Nat → UInt64) (d : Disk) : Prop :=
  (∀ t ∈ ts, ∀ n, t < clock n)
    ∨ (Orderly P s ∧ (ShutDown P s d ∨ Crashed P s d)
      ∧ ∀ t ∈ ts, ∃ k e, s.index.get k = some e ∧ t ≤ e.tstampMs)

/-- The counter or the clock has passed `t`. -/
def Passed (t : UInt64) (s : NsState) : Prop := t ≤ s.lastTstamp ∨ ∀ n, t < s.clock n

section revisions
variable {P : Prims}

/-- What a process acknowledges rises from the counter it started with. -/
theorem Acks.rising {s s' : NsState} {ts : List UInt64} (h : Acks P s ts s') :
    Rising s.clock s.lastTstamp ts s'.lastTstamp ∧ s'.clock = s.clock := by
  induction h with
  | nil s => exact ⟨.nil (UInt64.le_refl _), rfl⟩
  | @call s s₁ s' c r ts hroom hrun _ ih =>
    obtain ⟨hrise, hclock⟩ := c.rising P s hroom r s₁ hrun
    rw [← acked_eq_revsOf] at hrise
    rw [hclock] at ih
    exact ⟨hrise.append ih.1, ih.2⟩

theorem Passed.lt {t t' hi : UInt64} {s : NsState} {ts : List UInt64} (h : Passed t s)
    (hrise : Rising s.clock s.lastTstamp ts hi) (ht' : t' ∈ ts) : t < t' := by
  rcases h with hle | hahead
  · exact UInt64.lt_of_le_of_lt hle ((List.pairwise_cons.mp hrise.rise).1 t' ht')
  · obtain ⟨n, hn⟩ := hrise.read t' ht'
    exact UInt64.lt_of_lt_of_le (hahead n) hn

theorem Resumes.passed {ts : List UInt64} {s s' : NsState} {config : LogConfig}
    {clock : Nat → UInt64}
    {fault : Nat → Option Nat} {d : Disk} (h : Resumes P ts s clock d)
    (hlog : openLog P config clock fault d = .ok s') : ∀ t ∈ ts, Passed t s' := by
  intro t ht
  rcases h with hahead | ⟨ho, hdown, hkeys⟩
  · obtain ⟨o, d', refs, -, rfl⟩ := openLog_inv hlog
    exact .inr (hahead t ht)
  · have hback : Recovers P s d := hdown.elim (·.recovers ho) (·.recovers ho)
    obtain ⟨k, e, hk, hle⟩ := hkeys t ht
    exact .inl (UInt64.le_trans hle (hback.counter hlog hk))

theorem Lives.passed {ts : List UInt64} {s : NsState} (h : Lives P (Resumes P) ts s) :
    ts.Pairwise (· < ·) ∧ ∀ t ∈ ts, Passed t s := by
  induction h with
  | start _ => exact ⟨.nil, fun t ht => absurd ht List.not_mem_nil⟩
  | @calls s s' ts ts' _ hacks ih =>
    obtain ⟨hrise, hclock⟩ := hacks.rising
    refine ⟨List.pairwise_append.mpr ⟨ih.1, (List.pairwise_cons.mp hrise.rise).2, fun t ht t' ht' =>
      (ih.2 t ht).lt hrise ht'⟩, fun t ht => ?_⟩
    rcases List.mem_append.mp ht with ht | ht
    · refine (ih.2 t ht).imp (fun hle => ?_) fun hahead => hclock ▸ hahead
      exact UInt64.le_trans hle (hrise.le _ (List.mem_cons_self ..))
    · exact .inl (hrise.le t (List.mem_cons_of_mem _ ht))
  | restart _ hres hlog ih => exact ⟨ih.1, hres.passed hlog⟩

end revisions

theorem ok_of_toOption {ε α : Type} {r : Except ε α} {a : α} (h : r.toOption = some a) :
    r = .ok a := by
  cases r with
  | error e => cases h
  | ok b => exact congrArg Except.ok (Option.some.inj h)

/-- Calls and restarts with the revisions they acknowledge. -/
def ackedBy (P : Prims) : List Call → NsState → Option (List UInt64)
  | [], _ => some []
  | c :: cs, s => do
    let (r, s₁) ← (run (c.act P).run s).result
    let s₂ ← c.next P s₁
    return acked r ++ (← ackedBy P cs s₂)

end BeyondKv
