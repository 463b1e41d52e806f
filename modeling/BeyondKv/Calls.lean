/-
# Calls on a namespace log, one after another

`Call` lists what a client of a namespace log can do, a clean restart included.
`Outcome` is the inversion of a call that met no I/O error: a sequence of
`Change`s, or a cascade of merges, or a flush, or a restart. `Reaches` are the
histories; every state of one is in order (`Reaches.ready`).
-/
import BeyondKv.FlushOps
import BeyondKv.Reopen

namespace BeyondKv

open Std (ExtTreeMap)
open Async List

inductive Call where
  | putFull (key value metadata : Bytes) (expiresAtMs : Option UInt64)
  | putFullCond (key value metadata : Bytes) (expiresAtMs : Option UInt64) (cond : WriteCondition)
      (now : UInt64)
  | putMany (pairs : List (Bytes × Bytes))
  | tombstone (key : Bytes)
  | tombstoneCond (key : Bytes) (expectedRev now : UInt64)
  | ttlUpdate (key : Bytes) (expiresAtMs : Option UInt64)
  | rotateActive
  | reclaim
  | sync
  | flush
  /-- `seal_active_for_shutdown`, then `open` on the same directory. -/
  | restart (config : LogConfig) (clock : Nat → UInt64)

/-- The code of a call, with the revisions it acknowledges. -/
def Call.act (P : Prims) : Call → Act (List UInt64)
  | .putFull k v m x => do return [← BeyondKv.putFull P k v m x]
  | .putFullCond k v m x cond now => do return (← BeyondKv.putFullCond P k v m x cond now).toList
  | .putMany pairs => BeyondKv.putMany P pairs
  | .tombstone k => do return (← BeyondKv.tombstone P k).toList
  | .tombstoneCond k rev now => do return (← BeyondKv.tombstoneCond P k rev now).toList
  | .ttlUpdate k x => do return [← BeyondKv.ttlUpdate P k x]
  | .rotateActive => do BeyondKv.rotateActive P; return []
  | .reclaim => do let _ ← BeyondKv.reclaim P; return []
  | .sync => do BeyondKv.sync; return []
  | .flush => do return [← BeyondKv.flush]
  | .restart _ _ => do sealActiveForShutdown P; return []

/-- The call was not cut short by an I/O error. -/
def NoIoError {α : Type} (r : Except EngineError α) : Prop := ∀ e, r ≠ .error (.io e)

/-- What is running after the code of a call: after a restart, a new process. -/
def Call.Leads (P : Prims) (s₁ s' : NsState) : Call → Prop
  | .restart config clock => openLog P config clock (fun _ => none) s₁.disk = .ok s'
  | _ => s' = s₁

/-- The call, made in `s` while nothing else runs, ends in `s'` with result `r`. -/
def Call.Ends (P : Prims) (call : Call) (s : NsState) (r : Except EngineError (List UInt64))
    (s' : NsState) : Prop :=
  ∃ s₁, (run (call.act P).run s).result = some (r, s₁) ∧ NoIoError r ∧ call.Leads P s₁ s'

/-- Histories from `s₀` in which every call was made in a state that allows it. -/
inductive Reaches (P : Prims) (Allowed : NsState → Call → Prop) (s₀ : NsState) : NsState → Prop
  | start : Reaches P Allowed s₀ s₀
  | call {s s' : NsState} {c : Call} {r : Except EngineError (List UInt64)} :
      Reaches P Allowed s₀ s → Allowed s c → c.Ends P s r s' → Reaches P Allowed s₀ s'

/-! ## Chains of changes -/

inductive Changes (P : Prims) : Core → List Label → Core → Prop
  | nil (c : Core) : Changes P c [] c
  | cons {c c₁ c' : Core} {l : Label} {ls : List Label} :
      Change P c l c₁ → Changes P c₁ ls c' → Changes P c (l :: ls) c'

theorem Changes.one {P : Prims} {c c' : Core} {l : Label} (h : Change P c l c') :
    Changes P c [l] c' := .cons h (.nil c')

theorem Changes.append {P : Prims} {c c₁ c' : Core} {ls ls' : List Label} (h : Changes P c ls c₁)
    (h' : Changes P c₁ ls' c') : Changes P c (ls ++ ls') c' := by
  induction h with
  | nil => exact h'
  | cons hc _ ih => exact .cons hc (ih h')

theorem Changes.logOk {P : Prims} {c c' : Core} {ls : List Label} (h : Changes P c ls c')
    (hc : LogOk P c) : LogOk P c' := by
  induction h with
  | nil => exact hc
  | cons hstep _ ih => exact ih (hstep.logOk hc)

/-- The labels a call can have. -/
def Call.May : Call → Label → Prop
  | .putFull .., l | .putFullCond .., l | .putMany _, l =>
    l = .blobs ∨ (∃ r, l = .put r) ∨ l = .rotate
  | .tombstone k, l | .tombstoneCond k _ _, l =>
    l = .forget ∨ ∃ r, l = .tombstone r ∧ r.op = .tombstone k
  | .ttlUpdate k x, l => ∃ r, l = .ttl r ∧ r.op = .ttlUpdate k x
  | .rotateActive, l => l = .rotate
  | .sync, l => l = .blobs
  | .reclaim, _ | .flush, _ | .restart .., _ => False

theorem putAll_changes {P : Prims} {ls : List Logged} {c : Core}
    (hputs : ∀ l ∈ ls, ∃ k v m x, l.op = .put k v m x)
    (hsize : (c.activeBytes ++ logBytes P ls).length ≤ maxFileSize) :
    Changes P c (ls.map .put) (c.putAll P ls) := by
  induction ls generalizing c with
  | nil => exact .nil c
  | cons l ls ih =>
    obtain ⟨k, v, m, x, hop⟩ := hputs l (mem_cons_self ..)
    rw [logBytes_cons] at hsize
    simp only [length_append] at hsize
    have hput : c.putLogged P l = c.put P l k v x := by simp only [Core.putLogged, hop]
    have hbytes : (c.put P l k v x).activeBytes = c.activeBytes ++ l.toRec.bytes P := by
      simp [Core.put, Core.setIndex, Core.appendActive, Core.activeBytes]
    have hrest := ih (c := c.put P l k v x) (fun y hy => hputs y (mem_cons_of_mem _ hy))
      (by rw [hbytes]; simp only [length_append]; omega)
    have hall : c.putAll P (l :: ls) = (c.put P l k v x).putAll P ls := by
      rw [Core.putAll, foldl_cons, hput]; rfl
    rw [hall]
    exact .cons (.put hop (by rw [length_append]; omega)) hrest

/-- The record a change appends. -/
def Label.record? : Label → Option Logged
  | .put l | .tombstone l | .ttl l => some l
  | _ => none

/-- The records some changes append. -/
def records (ls : List Label) : List Logged := ls.filterMap Label.record?

/-- The revisions a call acknowledges. -/
def acked (r : Except EngineError (List UInt64)) : List UInt64 := r.toOption.getD []

/-- Puts are blobs, records with their entries, and perhaps a rotation. -/
theorem PutEnds.changes {P : Prims} {t : Nat} {c c' : Core} {ops : List LogOp}
    {r : Except EngineError (List Logged)} (h : PutEnds P t c ops r c')
    (hops : ∀ op ∈ ops, ∃ k v m x, op = .put k v m x) (hroom : c.active.fileId + 1 ≤ u32Max) :
    ∃ ls, (∀ l ∈ ls, l = .blobs ∨ (∃ r, l = .put r) ∨ l = .rotate)
      ∧ records ls = r.toOption.getD [] ∧ Changes P c ls c' := by
  have hdone : ∀ {ls : List Logged} {c₁ : Core}, PutDone P c ops ls c₁ →
      Changes P c (.blobs :: ls.map .put) c₁ ∧ c₁.active = c.active := by
    rintro ls c₁ ⟨hls, d, hside, hsize, rfl⟩
    refine ⟨.cons (.blobs hside) (putAll_changes (fun l hl => ?_) hsize), putAll_active _ ls⟩
    exact hops l.op (hls ▸ mem_map_of_mem hl)
  have hlabels : ∀ (ls : List Logged) (l : Label), l ∈ Label.blobs :: ls.map .put →
      l = .blobs ∨ (∃ r, l = .put r) ∨ l = .rotate := by
    intro ls l hl
    rcases mem_cons.mp hl with rfl | hl
    · exact .inl rfl
    · obtain ⟨r, -, rfl⟩ := mem_map.mp hl
      exact .inr (.inl ⟨r, rfl⟩)
  have hrecs : ∀ ls : List Logged, records (Label.blobs :: ls.map .put) = ls := by
    intro ls
    simp only [records, filterMap_cons, Label.record?, filterMap_map]
    exact filterMap_some
  cases h with
  | tooLarge hs =>
    exact ⟨[.blobs], fun l hl => .inl (mem_singleton.mp hl), rfl, .one (.blobs hs)⟩
  | @stored ls c₁ hd _ => exact ⟨_, hlabels _, hrecs ls, (hdone hd).1⟩
  | @rotated ls c₁ c₂ hd _ hr =>
    refine ⟨_, fun l hl => ?_, ?_, (hdone hd).1.append (.one hr)⟩
    · rcases mem_append.mp hl with hl | hl
      · exact hlabels _ l hl
      · exact .inr (.inr (mem_singleton.mp hl))
    · rw [records, filterMap_append]
      exact (append_nil _).trans (hrecs ls)
  | idsOut hd _ hr =>
    -- an id is left, so the rotation does not stop after the footer
    cases hr with
    | footer _ hlast => rw [(hdone hd).2] at hlast; omega

/-! ## A reclaim -/

/-- The states between the merges of a reclaim that began in `s₀`. -/
inductive Merges (P : Prims) (s₀ : NsState) : NsState → Prop
  | start : Reclaiming P s₀ (sealedState P s₀) → Merges P s₀ (sealedState P s₀)
  | merge {s₁ : NsState} {ids : List Nat} {lvl tick ino : Nat} {d : Disk} {cells : Nat → FileCell} :
      Merges P s₀ s₁ → Reclaiming P s₀ s₁ → ids.Nodup → (mergeJob s₁ ids).Built P d ino →
      Merges P s₀ (mergedState lvl ids tick d ino cells s₁)

/-- `s'` is `s` after a reclaim whose last merge left `s₁`. -/
structure Reclaimed (P : Prims) (s s₁ s' : NsState) : Prop where
  reclaiming : Reclaiming P (setReclaiming true s) s₁
  merges : Merges P (setReclaiming true s) s₁
  level : fullLevel s₁ = none
  idLeft : maxFileId s₁ + 1 ≤ u32Max
  core : s'.core = s₁.core.activated (maxFileId s₁ + 1)
  locks : s'.locks = s.locks
  refs : s'.refs = s.refs
  levels : s'.level = s₁.level

theorem Reclaimed.logOk {P : Prims} {s s₁ s' : NsState} (h : Reclaimed P s s₁ s') :
    LogOk P s'.core :=
  h.core ▸ h.reclaiming.logOk h.idLeft

theorem wpx_reclaim {P : Prims} {s : NsState}
    {Q : Except EngineError (Option ReclaimReport) → NsState → Prop} (h : LogOk P s.core)
    (hq : s.locks.Free) (htwo : 2 ≤ s.config.fanout) (hio : ∀ e s, Q (.error (.io e)) s)
    (hover : ∀ s₁, Reclaiming P (setReclaiming true s) s₁ → u32Max < maxFileId s₁ + 1 →
      Q (.error idOverflow) (setReclaiming false s₁))
    (hok : ∀ report s₁ s', Reclaimed P s s₁ s' → Q (.ok (some report)) s') :
    wpx Anywhere (reclaim P) Q s := by
  have hidle : s.reclaimInProgress = false := hq.reclaim
  have hw : (setReclaiming true s).inFlightWrites = 0 := hq.inFlight
  simp only [reclaim, wpx_seq, wpx_liftTask, wpc_step, onOk_ok, hidle, Bool.false_eq_true, if_false,
    wpc_at, wpc_drainWrites hw, wpx_guarded]
  have h' : LogOk P (setReclaiming true s).core := h
  refine wpx_reclaimInner (X := Merges P (setReclaiming true s)) h' htwo .start
    (fun s₁ ids lvl tick d ino cells hr hm hnodup hb => .merge hm hr hnodup hb)
    (fun _ _ => trivial) (fun _ _ _ _ _ _ => trivial) (fun _ _ _ _ _ _ _ _ _ _ _ _ => trivial)
    (fun _ _ _ _ _ _ => trivial) (fun e s => hio e _) (fun s₁ hr hid => hover s₁ hr hid) ?_
  intro report s₁ s₂ hr hm hfull hid hre
  refine hok report s₁ _ ⟨hr, hm, hfull, hid, hre.core, ?_, hre.refs.trans hr.refs, hre.level⟩
  have hlocks := congrArg (fun l : Locks => { l with reclaimInProgress := false })
    (hre.locks.trans hr.locks)
  simp only [NsState.locks, setReclaiming] at hlocks ⊢
  rw [hlocks, hidle]

/-! ## What a call does -/

/-- Enough file ids are left for a reclaim, whatever it merges. -/
def Roomy (s : NsState) : Prop := s.active.fileId + s.sealed.size + 2 ≤ u32Max

instance (s : NsState) : Decidable (Roomy s) := inferInstanceAs (Decidable (_ ≤ _))

/-- What a call that met no I/O error has done: the records it appended are those whose
revisions it acknowledges. -/
inductive Outcome (P : Prims) (s : NsState) :
    Call → Except EngineError (List UInt64) → NsState → Prop
  | changes {call : Call} {r : Except EngineError (List UInt64)} {ls : List Label} {c' : Core}
      {s' : NsState} (hlead : ∀ s₁ s', call.Leads P s₁ s' → s' = s₁) (hls : ∀ l ∈ ls, call.May l)
      (hrecs : (records ls).map Logged.tstampMs = acked r) (hc : Changes P s.core ls c')
      (hs : Leaves s c' s') : Outcome P s call r s'
  | reclaimed {r : Except EngineError (List UInt64)} {s₁ s' : NsState} (h : Reclaimed P s s₁ s') :
      Outcome P s .reclaim r s'
  | flushed {r : Except EngineError (List UInt64)} {s' : NsState} (h : Flushed P s s') :
      Outcome P s .flush r s'
  | restarted {config : LogConfig} {clock : Nat → UInt64} {r : Except EngineError (List UInt64)}
      {s₁ s' : NsState}
      (hseal : Leaves s (s.core.footered P) s₁)
      (hsize : (s.core.footered P).activeBytes.length ≤ maxFileSize)
      (h : Restarted P s.core.handles s₁.disk s.active.fileId s') :
      Outcome P s (.restart config clock) r s'

theorem wpx_result {Cr : NsState → Prop} {α : Type} {p : Act α}
    {Q : Except EngineError α → NsState → Prop}
    {s s' : NsState} {r : Except EngineError α} (h : wpx Cr p Q s)
    (hr : (run p.run s).result = some (r, s')) : Q r s' := by
  obtain ⟨-, r', s'', hr', hQ⟩ := h
  rw [hr] at hr'
  cases hr'
  exact hQ

section outcomes
variable {P : Prims} {s : NsState}

/-- A result that is an I/O error asks for nothing. -/
theorem noIoError_io {α : Type} {e : IoError} {p : Prop}
    (h : NoIoError (.error (.io e) : Except EngineError α)) : p := absurd rfl (h e)

theorem Roomy.idLeft (h : Roomy s) : s.core.active.fileId + 1 ≤ u32Max := by
  have : s.core.active.fileId = s.active.fileId := rfl
  unfold Roomy at h
  omega

/-- A reclaim finds an id for every merge and for the new active file. -/
theorem Roomy.reclaim (h : Roomy s) {s₁ : NsState} (hr : Reclaiming P (setReclaiming true s) s₁) :
    maxFileId s₁ + 1 ≤ u32Max := by
  have hroom := hr.room
  have hid : (setReclaiming true s).active.fileId = s.active.fileId := rfl
  have hsize : (setReclaiming true s).sealed.size = s.sealed.size := rfl
  unfold Roomy at h
  omega

/-- The directory after a shutdown: every file is sealed. -/
theorem LogOk.sealed_files (h : LogOk P s.core)
    (hsize : (s.core.footered P).activeBytes.length ≤ maxFileSize) :
    FilesOk P s.core.handles s.core.handles (s.core.footered P).disk s.core.index := by
  have hsize' : (s.core.activeBytes
      ++ footerBytes P (footerOf s.core.index s.core.active.fileId)).length ≤ maxFileSize := by
    simpa [Core.footered, Core.appendActive, Core.activeBytes] using hsize
  exact h.files.seal (handles_active s.core) h.active_open hsize'

theorem LogOk.handle_le (h : LogOk P s.core) {id : Nat} {f : LogFile}
    (hf : s.core.handles[id]? = some f) : id ≤ s.core.active.fileId := by
  rcases handles_cases s.core hf with ⟨rfl, -⟩ | ⟨-, hs⟩
  · exact Nat.le_refl _
  · exact Nat.le_of_lt (h.below hs)

/-- The states a call may end in. -/
def Call.Post (P : Prims) (call : Call) (s : NsState) (r : Except EngineError (List UInt64))
    (s₁ : NsState) : Prop :=
  NoIoError r → ∀ s', call.Leads P s₁ s' → Outcome P s call r s'

theorem PutEnds.post (call : Call) {ops : List LogOp} {c' : Core} {s' : NsState}
    {r : Except EngineError (List Logged)} {r' : Except EngineError (List UInt64)}
    (hmay : ∀ l, (l = .blobs ∨ (∃ r, l = .put r) ∨ l = .rotate) → call.May l)
    (hlead : ∀ s₁ s', call.Leads P s₁ s' → s' = s₁) (hroom : Roomy s)
    (hops : ∀ op ∈ ops, ∃ k v m x, op = .put k v m x)
    (h : PutEnds P s.config.rotateThreshold s.core ops r c') (hl : Leaves s c' s')
    (hr : (r.toOption.getD []).map Logged.tstampMs = acked r') : call.Post P s r' s' := by
  intro _ s₂ hs₂
  obtain ⟨ls, hls, hrecs, hc⟩ := h.changes hops hroom.idLeft
  rw [hlead _ _ hs₂]
  exact .changes hlead (fun l hl => hmay l (hls l hl)) (hrecs ▸ hr) hc hl

theorem wpx_return {α β : Type} {Cr : NsState → Prop} {p : Act α} {f : α → β}
    {Q : Except EngineError β → NsState → Prop} :
    wpx Cr (do return f (← p)) Q s ↔ wpx Cr p (fun r => Q (r.map f)) s := by
  rw [wpx_seq]
  refine iff_of_eq (congrArg (wpx Cr p · s) (funext fun r => funext fun s => ?_))
  cases r with
  | ok a => exact propext (wpx_pure ..)
  | error e => rfl

theorem Call.wpx_act (call : Call) (h : LogOk P s.core) (hq : s.locks.Free) (hroom : Roomy s)
    (hfan : call = .reclaim → 2 ≤ s.config.fanout) :
    wpx Anywhere (call.act P) (call.Post P s) s := by
  have hput : ∀ {k v m x}, ∀ op ∈ [LogOp.put k v m x], ∃ k v m x, op = .put k v m x := by
    intro k v m x op hop
    exact ⟨k, v, m, x, mem_singleton.mp hop⟩
  have hsame : ∀ {call : Call} {s₁ : NsState} {r}, (∀ s₂ s', call.Leads P s₂ s' → s' = s₂) →
      acked r = [] → Leaves s s.core s₁ → call.Post P s r s₁ := by
    intro call s₁ r hlead hr hl _ s' hs'
    rw [hlead _ _ hs']
    have hnone : ∀ l ∈ ([] : List Label), call.May l := fun _ h => absurd h not_mem_nil
    exact .changes hlead hnone hr.symm (.nil _) hl
  have hone : ∀ {call : Call} {l : Label} {c' : Core} {s₁ : NsState} {r},
      (∀ s₂ s', call.Leads P s₂ s' → s' = s₂) → call.May l →
      (records [l]).map Logged.tstampMs = acked r → Change P s.core l c' → Leaves s c' s₁ →
      call.Post P s r s₁ := by
    intro call l c' s₁ r hlead hmay hr hc hl _ s' hs'
    rw [hlead _ _ hs']
    exact .changes hlead (fun x hx => mem_singleton.mp hx ▸ hmay) hr (.one hc) hl
  cases call with
  | putFull k v m x =>
    refine wpx_return.mpr (wpx_putFull h hq (fun e s => noIoError_io) fun r c' s' hp hl => ?_)
    cases r <;> exact PutEnds.post (.putFull k v m x) (fun _ h => h)
      (fun _ _ h => h) hroom hput hp hl rfl
  | putFullCond k v m x cond now =>
    refine wpx_return.mpr (wpx_putFullCond h hq (fun e s => noIoError_io) (fun s' hl => ?_)
      fun r c' s' hp hl => ?_)
    · exact hsame (fun _ _ h => h) rfl hl
    · cases r <;> exact PutEnds.post (.putFullCond k v m x cond now) (fun _ h => h)
        (fun _ _ h => h) hroom hput hp hl rfl
  | putMany pairs =>
    have hops : ∀ op ∈ pairs.map (batchOp P s.config), ∃ k v m x, op = .put k v m x := by
      intro op hop
      obtain ⟨pair, -, rfl⟩ := mem_map.mp hop
      exact ⟨_, _, _, _, rfl⟩
    refine wpx_putMany h hq (fun e s => noIoError_io) (fun _ s' hl => ?_) fun r c' s' hp hl => ?_
    · exact hsame (fun _ _ h => h) rfl hl
    · cases r <;> exact PutEnds.post (.putMany pairs) (fun _ h => h)
        (fun _ _ h => h) hroom hops hp hl rfl
  | tombstone k =>
    refine wpx_return.mpr (wpx_tombstone h hq (fun e s => noIoError_io) (fun c' s' _ hc hl => ?_)
      fun l c' s' _ hop hc hl => ?_)
    · exact hone (fun _ _ h => h) (.inl rfl) (by cases hc; rfl) hc hl
    · exact hone (fun _ _ h => h) (.inr ⟨l, rfl, hop⟩) rfl hc hl
  | tombstoneCond k rev now =>
    refine wpx_return.mpr (wpx_tombstoneCond h hq (fun e s => noIoError_io) (fun s' hl => ?_)
      fun l c' s' _ hop hc hl => ?_)
    · exact hsame (fun _ _ h => h) rfl hl
    · exact hone (fun _ _ h => h) (.inr ⟨l, rfl, hop⟩) rfl hc hl
  | ttlUpdate k x =>
    refine wpx_return.mpr (wpx_ttlUpdate h hq (fun e s => noIoError_io) (fun s' hl => ?_)
      fun l c' s' _ hop hc hl => ?_)
    · exact hsame (fun _ _ h => h) rfl hl
    · exact hone (fun _ _ h => h) ⟨l, rfl, hop⟩ rfl hc hl
  | rotateActive =>
    refine wpx_return.mpr
      (wpx_rotateActive h hq.rotate (fun _ e s => noIoError_io) (fun s' hc _ => ?_)
      fun c' s' hc hl => ?_)
    · cases hc with
      | footer _ hlast => exact absurd hroom.idLeft (Nat.not_le.mpr hlast)
    · exact hone (fun _ _ h => h) rfl rfl hc hl
  | reclaim =>
    refine wpx_return.mpr
      (wpx_reclaim h hq (hfan rfl) (fun e s => noIoError_io) (fun s₁ hr hid => ?_)
      fun report s₁ s' hr _ s₂ hs₂ => ?_)
    · exact absurd (hroom.reclaim hr) (Nat.not_le.mpr hid)
    · rw [show s₂ = s' from hs₂]
      exact .reclaimed hr
  | sync =>
    exact wpx_return.mpr (wpx_syncLog h hq fun c' s' hc hl => hone (fun _ _ h => h) rfl rfl hc hl)
  | flush =>
    refine wpx_return.mpr (wpx_flush h.fault hq (fun _ _ _ _ => trivial) (fun _ _ _ _ _ => trivial)
      fun d s' hd hl _ s₂ hs₂ => ?_)
    rw [show s₂ = s' from hs₂]
    exact .flushed (hd.flushed h hl)
  | restart config clock =>
    refine wpx_return.mpr
      (wpx_sealActiveForShutdown h (fun e s => noIoError_io) fun s₁ hsize hl _ s' hopen => ?_)
    have hfiles : FilesOk P s.core.handles s.core.handles s₁.disk s.core.index := by
      rw [show s₁.disk = (s.core.footered P).disk from congrArg Core.disk hl.core]
      exact h.sealed_files hsize
    obtain ⟨s₂, hopen₂, -, -, hr⟩ := openLog_sealed hfiles (handles_active s.core)
      (fun hf => h.handle_le hf) hroom.idLeft config clock
    have hopen' : openLog P config clock (fun _ => none) s₁.disk = .ok s' := hopen
    rw [hopen₂] at hopen'
    cases hopen'
    exact .restarted hl hsize hr

theorem Call.Ends.outcome {call : Call} {s' : NsState} {r : Except EngineError (List UInt64)}
    (he : call.Ends P s r s') (h : LogOk P s.core) (hq : s.locks.Free) (hroom : Roomy s)
    (hfan : call = .reclaim → 2 ≤ s.config.fanout) : Outcome P s call r s' := by
  obtain ⟨s₁, hr, hio, hl⟩ := he
  exact wpx_result (call.wpx_act h hq hroom hfan) hr hio s' hl

end outcomes

/-! ## Histories -/

/-- A log between two calls. -/
structure Ready (P : Prims) (s : NsState) : Prop where
  ok : LogOk P s.core
  free : s.locks.Free

/-- A call the log has file ids for; a reclaim with a fanout that lets it end. -/
structure Sound (s : NsState) (call : Call) : Prop where
  roomy : Roomy s
  fanout : call = .reclaim → 2 ≤ s.config.fanout

section histories
variable {P : Prims} {Allowed : NsState → Call → Prop} {s₀ s s' : NsState}

theorem Outcome.ready {call : Call} {r : Except EngineError (List UInt64)}
    (ho : Outcome P s call r s') (h : Ready P s) : Ready P s' := by
  cases ho with
  | changes _ _ _ hc hl => exact ⟨hl.core ▸ hc.logOk h.ok, hl.locks ▸ h.free⟩
  | reclaimed hr => exact ⟨hr.logOk, hr.locks ▸ h.free⟩
  | flushed hf => exact ⟨hf.ok, hf.locks ▸ h.free⟩
  | restarted _ _ hr => exact ⟨hr.ok, hr.free⟩

/-- What every outcome keeps holds along a history. -/
theorem Reaches.invariant {I : NsState → Prop} (hA : ∀ s call, Allowed s call → Sound s call)
    (h₀ : Ready P s₀) (hI : I s₀)
    (hstep : ∀ s call r s', Ready P s → I s → Allowed s call → call.Ends P s r s' →
      Outcome P s call r s' → I s')
    (h : Reaches P Allowed s₀ s) : Ready P s ∧ I s := by
  induction h with
  | start => exact ⟨h₀, hI⟩
  | call _ hallow he ih =>
    obtain ⟨hready, hinv⟩ := ih
    have hs := hA _ _ hallow
    have ho := he.outcome hready.ok hready.free hs.roomy hs.fanout
    exact ⟨ho.ready hready, hstep _ _ _ _ hready hinv hallow he ho⟩

end histories

/-! ## Histories that are run -/

/-- What is running after the code of a call, if anything. -/
def Call.next (P : Prims) (s₁ : NsState) : Call → Option NsState
  | .restart config clock => (openLog P config clock (fun _ => none) s₁.disk).toOption
  | _ => some s₁

/-- Run calls one after another. -/
def runCalls (P : Prims) (allowed : NsState → Call → Bool) : List Call → NsState → Option NsState
  | [], s => some s
  | c :: cs, s =>
    if allowed s c then
      match (run (c.act P).run s).result with
      | none | some (.error (.io _), _) => none
      | some (_, s₁) => (c.next P s₁).bind (runCalls P allowed cs)
    else none

theorem Call.leads_of_next {P : Prims} {c : Call} {s₁ s' : NsState} (h : c.next P s₁ = some s') :
    c.Leads P s₁ s' := by
  cases c with
  | restart config clock =>
    simp only [Call.next] at h
    cases hopen : openLog P config clock (fun _ => none) s₁.disk with
    | error e => rw [hopen] at h; cases h
    | ok s => rw [hopen] at h; cases h; exact hopen
  | _ => exact (Option.some.inj h).symm

/-- A run is a history. -/
theorem reaches_of_runCalls {P : Prims} {allowed : NsState → Call → Bool}
    {Allowed : NsState → Call → Prop} (hA : ∀ s c, allowed s c = true → Allowed s c) {s₀ : NsState}
    {cs : List Call} {s s' : NsState} (hs : Reaches P Allowed s₀ s)
    (h : runCalls P allowed cs s = some s') : Reaches P Allowed s₀ s' := by
  induction cs generalizing s with
  | nil => cases h; exact hs
  | cons c cs ih =>
    unfold runCalls at h
    split at h
    · rename_i hallow
      split at h
      · cases h
      · cases h
      · rename_i r s₁ hio hrun
        obtain ⟨s₂, hnext, hrest⟩ := Option.bind_eq_some_iff.mp h
        exact ih (.call hs (hA _ _ hallow) ⟨s₁, hrun, hio, c.leads_of_next hnext⟩) hrest
    · cases h

theorem openNamespace_empty (P : Prims) : openNamespace P Disk.empty
    = .ok ({ sealed := [], active := ⟨0, 0⟩, index := .empty }, Disk.empty.alloc.link 0 0) := by
  have hnone : Disk.empty.data[0]? = none := by simp [Disk.empty]
  have hlist : Disk.empty.listDataFiles = [] := by simp [Disk.listDataFiles, Disk.empty]
  have hcreate : Disk.empty.openCreateData 0 = (0, Disk.empty.alloc.link 0 0) :=
    Prod.ext (by simp [Disk.openCreateData, Disk.empty]) (openCreateData_new hnone)
  simp only [openNamespace, hlist, getLast?_nil, hcreate]

/-- The log on an empty directory. -/
theorem openLog_empty (P : Prims) (config : LogConfig) (clock : Nat → UInt64) :
    ∃ s, openLog P config clock (fun _ => none) Disk.empty = .ok s ∧ Ready P s
      ∧ s.config = config ∧ s.index = .empty ∧ s.sealed = ∅ ∧ s.core.activeBytes = [] := by
  obtain ⟨refs, hlog, -⟩ := openLog_eq config clock (fun _ => none) (openNamespace_empty P)
  have hempty : FilesOk P ∅ ∅ Disk.empty .empty := by
    constructor
    · constructor <;> intros <;> simp_all [Disk.empty, Disk.Logs]
    · intro k e hk; rw [NsIndex.get_empty] at hk; cases hk
    · intro id f hf; simp at hf
    · intro id f hf; simp at hf
  have hnew : (∅ : ExtTreeMap Nat LogFile)[0]? = none := by simp
  have hlinked := (hempty.sideStep hempty.dir.tmpStep_alloc.toSideStep).link hempty.dir.unused_alloc
    (by simp [Disk.alloc]) hnew
  have hswept := hlinked.sideStep (SideStep.filterBlobs _ refs.contains)
  have hbytes : (Disk.empty.alloc.link 0 0).inodes 0 = [] := by
    simp [Disk.link, Disk.alloc, Disk.empty]
  refine ⟨_, hlog, ⟨⟨fun _ => rfl, rfl, hswept, ?_, Nat.zero_le _, ?_⟩, ?_⟩, rfl, rfl, rfl, hbytes⟩
  · intro id f hf
    change (∅ : ExtTreeMap Nat LogFile)[id]? = some f at hf
    simp at hf
  · rfl
  · exact ⟨rfl, rfl, rfl, rfl, fun _ => rfl, fun _ => rfl⟩

/-- The defaults, with merges of two files. -/
def smallConfig : LogConfig := { LogConfig.default with fanout := 2 }

def countingClock (n : Nat) : UInt64 := UInt64.ofNat n

/-- The calls a small log is tried on. -/
def soundly (s : NsState) (_ : Call) : Bool := decide (Roomy s ∧ 2 ≤ s.config.fanout)

theorem sound_of_soundly (s : NsState) (call : Call) (h : soundly s call = true) :
    Sound s call := by
  obtain ⟨hroom, hfan⟩ := of_decide_eq_true h
  exact ⟨hroom, fun _ => hfan⟩

/-- A fresh log with `smallConfig`, after some calls. -/
def smallLog (allowed : NsState → Call → Bool) (calls : List Call) : Option NsState :=
  (openLog realPrims smallConfig countingClock (fun _ => none) Disk.empty).toOption.bind
    (runCalls realPrims allowed calls)

/-- What runs is a history from an empty directory. -/
theorem reaches_smallLog {allowed : NsState → Call → Bool} {Allowed : NsState → Call → Prop}
    (hA : ∀ s c, allowed s c = true → Allowed s c) {calls : List Call} {s : NsState}
    (h : smallLog allowed calls = some s) :
    ∃ s₀, openLog realPrims smallConfig countingClock (fun _ => none) Disk.empty = .ok s₀
      ∧ Reaches realPrims Allowed s₀ s := by
  obtain ⟨s₀, hopen, hrun⟩ := Option.bind_eq_some_iff.mp h
  cases hlog : openLog realPrims smallConfig countingClock (fun _ => none) Disk.empty with
  | error e => rw [hlog] at hopen; cases hopen
  | ok s₁ =>
    rw [hlog] at hopen
    cases hopen
    exact ⟨_, rfl, reaches_of_runCalls hA .start hrun⟩

end BeyondKv
