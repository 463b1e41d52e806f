/-
# The counter of unsynced bytes

`unsynced_bytes` grows with every append that has returned and is set to zero after an
fsync, a rotation, a reclaim or a reopen. The fsync is awaited, and appends go on
meanwhile, to this file and to others. So a zero is honest only where the code that sets
it has left nothing out: every append counted since the counter was last zero was counted
before the kernel took the fsync the zero rests on, and went to the file of that fsync.

A run is recorded as the list of its marks, newest first. What a task may rely on at a
reset are the fsyncs it has seen begin and end: those are its tokens.
-/
import BeyondKv.Calls
import BeyondKv.Calm
import BeyondKv.Appends

namespace BeyondKv

open Async

/-! ## Traces -/

/-- An append that has returned. -/
structure Append where
  ino : Nat
  offset : Nat
  len : Nat
  deriving DecidableEq

def Append.mark (a : Append) : Point := .counted a.ino a.offset a.len

/-- The appends counted since the counter was last set to zero. -/
def pending : List Point → List Append
  | [] => []
  | .counted ino offset len :: older => ⟨ino, offset, len⟩ :: pending older
  | .reset _ :: _ => []
  | _ :: older => pending older

/-- The kernel has taken the fsync `req`. -/
def begun (req : Nat) : List Point → Bool
  | [] => false
  | .fsync r _ :: older => r == req || begun req older
  | _ :: older => begun req older

/-- The fsync `req` has completed. -/
def done (req : Nat) : List Point → Bool
  | [] => false
  | .fsynced r :: older => (r == req && begun req older) || done req older
  | _ :: older => done req older

/-- The append was counted before an fsync `req` of its file was taken. -/
def flushed (req : Nat) (a : Append) : List Point → Bool
  | [] => false
  | .fsync r ino :: older =>
    (r == req && ino == a.ino && older.contains a.mark) || flushed req a older
  | _ :: older => flushed req a older

/-- The append lies before a completed fsync of its file. -/
def durable (a : Append) : List Point → Bool
  | [] => false
  | .fsynced req :: older => flushed req a older || durable a older
  | _ :: older => durable a older

/-- If the kernel has taken an fsync `req`, it was one of the append's file, and the append
had been counted by then. -/
def covers (req : Nat) (a : Append) : List Point → Bool
  | [] => true
  | .fsync r ino :: older =>
    (r != req || (ino == a.ino && older.contains a.mark)) && covers req a older
  | _ :: older => covers req a older

section traces
variable {req : Nat} {a : Append} {g : List Point}

theorem begun_cons (l : Point) (h : begun req g = true) : begun req (l :: g) = true := by
  cases l <;> simp [begun, h]

theorem done_cons (l : Point) (h : done req g = true) : done req (l :: g) = true := by
  cases l <;> simp [done, h]

theorem durable_cons (l : Point) (h : durable a g = true) : durable a (l :: g) = true := by
  cases l <;> simp [durable, h]

theorem flushed_of_begun (hb : begun req g = true) (hc : covers req a g = true) :
    flushed req a g = true := by
  induction g with
  | nil => cases hb
  | cons l g ih =>
    cases l with
    | fsync r ino =>
      simp only [covers, Bool.and_eq_true, Bool.or_eq_true, bne_iff_ne, ne_eq] at hc
      simp only [begun, Bool.or_eq_true, beq_iff_eq] at hb
      simp only [flushed, Bool.or_eq_true, Bool.and_eq_true, beq_iff_eq]
      by_cases hr : r = req
      · obtain ⟨hino, hmem⟩ := hc.1.resolve_left (fun hne => hne hr)
        exact .inl ⟨⟨hr, beq_iff_eq.mp hino⟩, hmem⟩
      · exact .inr (ih (hb.resolve_left hr) hc.2)
    | _ => exact ih hb hc

theorem covers_of_cons {l : Point} (h : covers req a (l :: g) = true) : covers req a g = true := by
  cases l with
  | fsync r ino => exact (Bool.and_eq_true _ _ ▸ h).2
  | _ => exact h

/-- An append that a completed fsync covers is durable. -/
theorem durable_of_done (hd : done req g = true) (hc : covers req a g = true) :
    durable a g = true := by
  induction g with
  | nil => cases hd
  | cons l g ih =>
    have hc' := covers_of_cons hc
    cases l with
    | fsynced r =>
      simp only [done, Bool.or_eq_true, Bool.and_eq_true, beq_iff_eq] at hd
      simp only [durable, Bool.or_eq_true]
      rcases hd with ⟨rfl, hb⟩ | hd
      · exact .inl (flushed_of_begun hb hc')
      · exact .inr (ih hd hc')
    | _ => exact durable_cons _ (ih hd hc')

end traces

/-! ## The invariant -/

/-- What is asked of a run where the counter is set to zero. -/
def honestResets : Discipline NsState Point (List Point) where
  note l _ g := l :: g
  allows
    | .reset (some req), g, _ => ∀ a ∈ pending g, covers req a g = true
    | .reset none, g, _ => ∀ a ∈ pending g, a.len = 0
    | _, _, _ => True

/-- An fsync a task has seen. -/
inductive Seen where
  | begun (req : Nat)
  | done (req : Nat)

def Seen.within (g : List Point) : Seen → Bool
  | .begun req => BeyondKv.begun req g
  | .done req => BeyondKv.done req g

structure Honest (M : Multiset Seen) (g : List Point) (s : NsState) : Prop where
  seen : ∀ t ∈ M, t.within g = true
  count : s.unsyncedBytes = ((pending g).map Append.len).sum
  durable : ∀ a : Append, 0 < a.len → a.mark ∈ g → a ∈ pending g ∨ durable a g = true

section honest
variable {M : Multiset Seen} {g : List Point} {s s' : NsState}

theorem Seen.within_cons {t : Seen} (l : Point) (h : t.within g = true) :
    t.within (l :: g) = true := by
  cases t with
  | begun req => exact begun_cons l h
  | done req => exact done_cons l h

/-- A mark that neither counts nor resets. -/
theorem Honest.mark (h : Honest M g s) {l : Point} (hp : pending (l :: g) = pending g)
    (hl : ∀ a : Append, a.mark ≠ l) : Honest M (l :: g) s := by
  refine ⟨fun t ht => Seen.within_cons l (h.seen t ht), hp.symm ▸ h.count, fun a hlen ha => ?_⟩
  rcases List.mem_cons.mp ha with heq | ha
  · exact absurd heq (hl a)
  · rw [hp]
    exact (h.durable a hlen ha).imp_right (durable_cons l)

theorem Honest.quiet {l : Point} (hl : l.kind ≠ .sync) (h : Honest M g s) :
    Honest M (l :: g) s := by
  cases l <;> first | exact h.mark rfl fun a ha => by cases ha | exact absurd rfl hl

theorem Honest.same (h : Honest M g s) (hs : Same NsState.unsyncedBytes s s') : Honest M g s' :=
  ⟨h.seen, Eq.trans hs h.count, h.durable⟩

theorem Honest.fewer {N : Multiset Seen} (h : Honest M g s) (hle : N ≤ M) : Honest N g s :=
  ⟨fun t ht => h.seen t (Multiset.mem_of_le hle ht), h.count, h.durable⟩

theorem Honest.learn {t : Seen} (h : Honest M g s) (ht : t.within g = true) :
    Honest ({t} + M) g s := by
  refine ⟨fun u hu => ?_, h.count, h.durable⟩
  rcases Multiset.mem_add.mp hu with hu | hu
  · exact Multiset.mem_singleton.mp hu ▸ ht
  · exact h.seen u hu

theorem Honest.counted (h : Honest M g s) (ino offset n : Nat) :
    Honest M (.counted ino offset n :: g) (addUnsynced n s) := by
  refine ⟨fun t ht => Seen.within_cons _ (h.seen t ht), ?_, fun a hlen ha => ?_⟩
  · rw [pending, List.map_cons, List.sum_cons, ← h.count]
    exact Nat.add_comm ..
  · rcases List.mem_cons.mp ha with heq | ha
    · cases heq
      exact .inl (List.mem_cons_self ..)
    · exact (h.durable a hlen ha).imp (List.mem_cons_of_mem _) (durable_cons _)

/-- The counter is set to zero: what was pending is durable or holds no record. -/
theorem Honest.reset (h : Honest M g s) {req : Option Nat} (hs : s'.unsyncedBytes = 0)
    (hp : ∀ a ∈ pending g, 0 < a.len → BeyondKv.durable a g = true) :
    Honest M (.reset req :: g) s' := by
  refine ⟨fun t ht => Seen.within_cons _ (h.seen t ht), hs, fun a hlen ha =>
    .inr (durable_cons _ ?_)⟩
  rcases List.mem_cons.mp ha with heq | ha
  · cases heq
  · exact (h.durable a hlen ha).elim (fun hpend => hp a hpend hlen) id

end honest

/-! ## What keeps it -/

instance : Blind NsState.unsyncedBytes where
  io _ _ _ _ _ := rfl
  refs _ _ _ := rfl
  files _ _ _ _ := rfl

instance : BlindStripes NsState.unsyncedBytes := ⟨fun _ _ => rfl⟩

instance : BlindBlobs NsState.unsyncedBytes := ⟨fun _ _ => rfl⟩

instance : BlindGate NsState.unsyncedBytes := ⟨fun _ _ _ => rfl⟩

instance : BlindStamp NsState.unsyncedBytes := ⟨fun _ _ _ => rfl⟩

/-- Marks the invariant takes no notice of. -/
def Unsynced (l : Point) : Prop := l.kind ≠ .sync

instance : Has .io Unsynced := ⟨fun _ hl h => by rw [hl] at h; cases h⟩

instance : Has .lock Unsynced := ⟨fun _ hl h => by rw [hl] at h; cases h⟩

abbrev honest : Regime NsState Point (List Point) Seen := .plain honestResets Honest

/-- The program keeps its tokens and the invariant. -/
abbrev Keeps {α : Type} (own : Multiset Seen) (p : Task α) : Prop :=
  Triple honest own p (Owning own)

section keeps
variable {α β : Type} {own : Multiset Seen} {p : Task α}

theorem Keeps.calm (hp : Calm Unsynced NsState.unsyncedBytes p) : Keeps own p :=
  Triple.within (fun _ hl _ _ _ h => h.quiet hl) (fun _ _ _ => trivial)
    (fun _ _ _ _ h hs => h.same hs) hp

theorem Keeps.run_seq {p : Act α} {k : α → Act β} (hp : Keeps own p.run)
    (hk : ∀ a, Keeps own (k a).run) : Keeps own (p >>= k).run :=
  Triple.run_after hp hk fun _ => rfl

/-- From more tokens than its own, the program keeps at least its own. -/
abbrev Rests (own pre : Multiset Seen) (p : Task α) : Prop :=
  Triple honest pre p fun _ own' => own ≤ own'

/-- Further tokens are forgotten. -/
theorem Rests.forget (hp : Rests own own p) : Keeps own p :=
  hp.drop fun _ _ hle => ⟨own, rfl, fun f _ _ h => h.fewer (add_le_add_left hle f)⟩

theorem Rests.after {pre : Multiset Seen} {p : Act α} {k : α → Act β} (hle : own ≤ pre)
    (hp : Keeps pre p.run) (hk : ∀ a, Rests own pre (k a).run) : Rests own pre (p >>= k).run :=
  Triple.run_after hp hk fun _ => hle

theorem Keeps.seq {k : α → Task β} (hp : Keeps own p) (hk : ∀ a, Keeps own (k a)) :
    Keeps own (p >>= k) :=
  Triple.seq hp fun a _ ho => ho ▸ hk a

theorem Keeps.lift (hp : Keeps own p) : Keeps own (lift p).run := Triple.run_lift hp

theorem Keeps.guarded {rs : List Resource} {release : NsState → NsState} {body : Act α}
    (hr : ∀ s, Same NsState.unsyncedBytes s (release s)) (hb : Keeps own body.run) :
    Keeps own (guarded rs release body).run :=
  Keeps.seq hb fun _ => .calm (.seq (Prog.within_modify hr) fun _ =>
    .seq (calm_dropAll fun _ _ => Has.mem (k := .lock) _ rfl) fun _ => trivial)

theorem keeps_countAppend (f : LogFile) (offset n : Nat) : Keeps own (countAppend f offset n) :=
  fun _ _ _ h _ => ⟨own, h.counted f.ino offset n, rfl⟩

/-- What a task knows after an fsync. -/
def gained : Except EngineError Nat → Multiset Seen
  | .ok req => {.done req}
  | .error _ => 0

theorem triple_sync (f : LogFile) :
    Triple honest own f.sync.run fun r own' => own' = gained r + own := by
  intro frame g s h
  simp only [LogFile.sync, ioAct, ExceptT.run_mk, wpi_seq, wpi_yield, wpi_gets, wpi_at, wpi_step]
  refine ⟨own, h, fun frame g s h _ => ?_⟩
  have htaken : Honest ({.begun s.tick} + own + frame) (.fsync s.tick f.ino :: g) s := by
    rw [add_assoc]
    exact (h.mark rfl fun a ha => by cases ha).learn (by simp [Seen.within, begun])
  unfold perform
  cases s.fault s.tick with
  | some n =>
    refine (wpi_seq _ _ _).mpr ((wpi_yield _).mpr ⟨own, ?_, fun frame g s h => ⟨own, h, ?_⟩⟩)
    · refine (htaken.same ?_).fewer (add_le_add_left (Multiset.le_add_left ..) _)
      rfl
    · simp [gained]
  | none =>
    refine (wpi_seq _ _ _).mpr ((wpi_yield _).mpr ⟨{.begun s.tick} + own, ?_, ?_⟩)
    · refine htaken.same ?_
      rfl
    intro frame g s' h
    rw [add_assoc] at h
    have hbegun : begun s.tick g = true := h.seen (.begun s.tick) (by simp)
    refine fun _ => ⟨{.done s.tick} + own, ?_, rfl⟩
    rw [add_assoc]
    refine Honest.learn ?_ (by simp [Seen.within, honestResets, done, hbegun])
    exact (h.fewer (Multiset.le_add_left ..)).mark rfl fun a ha => by cases ha

theorem triple_writeFooter (P : Prims) (f : LogFile) (entries : List FooterEntry) :
    Triple honest own (f.writeFooter P entries).run fun r own' => own' = gained r + own := by
  have hcalm : ∀ buf, Keeps own (f.append buf).run := fun buf => .calm (calm_append f buf)
  have herr : ∀ e, own = gained (.error e) + own := fun e => (zero_add own).symm
  exact .run_after (hcalm _) (fun _ => .run_after (hcalm _) (fun _ => triple_sync f) herr) herr

end keeps

section operations
variable (P : Prims) {own : Multiset Seen} {e : NsState → NsState}

theorem keeps_gets {α : Type} (e : NsState → α) : Keeps own (lift (Prog.gets e)).run :=
  .calm (calm_lift (calm_gets e))

theorem keeps_modify (he : ∀ s, Same NsState.unsyncedBytes s (e s)) :
    Keeps own (lift (Prog.modify e)).run := .calm (calm_lift (Prog.within_modify he))

theorem keeps_at {l : Point} (hl : Unsynced l) : Keeps own (lift (Prog.at_ l)).run :=
  .calm (calm_lift (Prog.within_at hl))

/-- An fsync is awaited, and the rest may rely on it. -/
theorem keeps_synced {p : Act Nat}
    (hp : Triple honest own p.run fun r own' => own' = gained r + own)
    {α : Type} {k : Nat → Act α} (hk : ∀ req, Rests own ({.done req} + own) (k req).run) :
    Keeps own (p >>= k).run := by
  refine Rests.forget (Triple.run_seq hp ?_ ?_)
  · rintro req _ rfl
    exact hk req
  · rintro e _ rfl
    exact Multiset.le_add_left ..

/-- A footer whose fsync nothing rests on. -/
theorem keeps_footer (f : LogFile) (entries : List FooterEntry) {α : Type} {k : Act α}
    (hk : ∀ own, Keeps own k.run) : Keeps own (f.writeFooter P entries >>= fun _ => k).run := by
  refine keeps_synced (triple_writeFooter P f entries) fun req => (hk _).conseq ?_
  rintro _ _ rfl
  exact Multiset.le_add_left ..

/-- The counter is set to zero on the strength of an fsync the task has seen complete. -/
theorem rests_reset {req : Nat} (he : ∀ s, (e s).unsyncedBytes = 0)
    {α : Type} {k : Unit → Act α} (hk : Keeps own (k ()).run) :
    Rests own ({.done req} + own)
      (lift (Prog.at_ (.reset (some req))) >>= fun _ => lift (Prog.modify e) >>= k).run := by
  intro frame g s hi
  rw [add_assoc] at hi
  have hdone : done req g = true := hi.seen (.done req) (by simp)
  rw [wpi_run]
  simp only [wpix_seq, lift, wpix_lift, wpi_at, onOkI_ok, wpi_modify]
  intro hcov
  have hi' : Honest (own + frame) (.reset (some req) :: g) (e s) :=
    (hi.fewer (Multiset.le_add_left ..)).reset (he s) fun a ha _ =>
      durable_of_done hdone (hcov a ha)
  refine wpi_mono (hk frame _ _ hi') ?_
  rintro r f g s ⟨_, h, rfl⟩
  exact ⟨_, h, le_rfl⟩

/-- The counter is set to zero when nothing is pending. -/
theorem keeps_reset_none (he : ∀ s, (e s).unsyncedBytes = 0) :
    Keeps own (lift (Prog.at_ (.reset none)) >>= fun _ => lift (Prog.modify e)).run := by
  intro frame g s hi
  rw [wpi_run]
  simp only [wpix_seq, lift, wpix_lift, wpi_at, onOkI_ok, wpi_modify]
  intro hnone
  refine ⟨own, hi.reset (he s) fun a ha hlen => ?_, rfl⟩
  exact absurd (hnone a ha) (Nat.ne_of_gt hlen)

/-- A new active file is opened, and the counter starts over. -/
theorem rests_activate {req : Nat} (id : Nat) {α : Type} {k : Unit → Act α}
    (hk : Keeps own (k ()).run) :
    Rests own ({.done req} + own) (LogFile.openRw id >>= fun new => lift syncDir >>= fun _ =>
      lift (Prog.at_ (.reset (some req))) >>= fun _ =>
          lift (Prog.modify (activate new)) >>= k).run := by
  have hle : own ≤ {.done req} + own := Multiset.le_add_left ..
  exact .after hle (.calm (calm_openRw id)) fun new =>
    .after hle (.calm (calm_lift calm_syncDir)) fun _ => rests_reset (fun _ => rfl) hk

/-! ### Rotation and sync -/

theorem keeps_rotateActive : Keeps own (rotateActive P).run := by
  refine .run_seq (keeps_gets _) fun b => ?_
  cases b with
  | true => exact .calm trivial
  | false =>
    refine .run_seq (keeps_modify (same_setRotating true)) fun _ =>
      .guarded (same_setRotating false) ?_
    refine .run_seq (keeps_at (nofun)) fun _ => .run_seq (keeps_gets _) fun f =>
      .run_seq (keeps_gets _) fun entries =>
        keeps_synced (triple_writeFooter P f entries) fun req => ?_
    have hle : own ≤ {.done req} + own := Multiset.le_add_left ..
    exact .after hle (.calm calm_nextFileId) fun id =>
      .after hle (keeps_modify fun s => same_files s _ s.level) fun _ =>
        rests_activate id (k := pure) (.calm trivial)

theorem keeps_rotateIfFull (f : LogFile) : Keeps own (rotateIfFull P f).run := by
  refine .run_seq (keeps_gets _) fun b => ?_
  cases b with
  | true => exact keeps_rotateActive P
  | false => exact .calm trivial

theorem keeps_syncLog : Keeps own sync.run := by
  have hgarbage : ∀ own, Keeps own (lift ValueStore.collectGarbage).run :=
    fun _ => .calm (calm_lift calm_collectGarbage)
  refine .run_seq (keeps_gets _) fun n => ?_
  by_cases hn : n > 0
  · simp only [hn, if_true]
    exact .run_seq (keeps_gets _) fun f => keeps_synced (triple_sync f) fun req =>
      rests_reset (fun _ => rfl) (hgarbage own)
  · simp only [hn, if_false]
    exact hgarbage own

theorem keeps_seal : Keeps own (sealActiveForShutdown P).run := by
  refine .run_seq (keeps_gets _) fun f => .run_seq (keeps_gets _) fun n => ?_
  have hfooter : Keeps own (do
      let footer ← lift (Prog.gets fun s => footerOf s.index f.fileId)
      let _ ← f.writeFooter P footer
      return () : Act Unit).run :=
    .run_seq (keeps_gets _) fun entries => keeps_footer P f entries fun _ => .calm trivial
  by_cases hn : n = 0
  · simp only [hn, ne_eq, not_true, if_false]
    exact hfooter
  · simp only [hn, ne_eq, not_false_eq_true, if_true]
    exact keeps_synced (triple_sync f) fun req => rests_reset (fun _ => rfl) hfooter

theorem keeps_reopen : Keeps own reopenActiveAfterSeal.run :=
  .run_seq (keeps_gets _) fun _ => .run_seq (.calm calm_nextFileId) fun id =>
    .run_seq (keeps_modify fun s => same_files s _ s.level) fun _ =>
      .run_seq (.calm (calm_openRw id)) fun _ => .run_seq (.calm (calm_lift calm_syncDir)) fun _ =>
        keeps_reset_none fun _ => rfl

/-! ### Reclaim and flush -/

theorem keeps_reclaimNamespace (files : List LogFile) (id : Nat) (live : List LiveKey) :
    Keeps own (reclaimNamespace P files id live).run :=
  .run_seq (.calm (calm_lift (calm_unlinkTmp id))) fun _ =>
    .run_seq (.calm (calm_openRwTmp id)) fun f =>
    .run_seq (keeps_modify fun s => same_io s s.tick _ s.ring _) fun _ =>
      .run_seq (.calm (calm_lift (Prog.within_joinAll fun x _ => calm_readLive files x.2.1)))
        fun _ =>
        .run_seq (.calm (calm_copyRecords f id _)) fun _ => keeps_footer P f _ fun _ =>
          .run_seq (.calm (calm_ioAct (calm_io _))) fun _ =>
            .run_seq (.calm (calm_lift calm_syncDir)) fun _ =>
            .run_seq (.calm (calm_lift (Prog.within_joinAll fun g _ => calm_unlinkData g.fileId)))
              fun _ =>
              .calm trivial

theorem keeps_mergeLevel (lvl : Nat) (ids : List Nat) : Keeps own (mergeLevel P lvl ids).run :=
  .run_seq (keeps_gets _) fun files => .run_seq (keeps_gets _) fun live =>
    .run_seq (.calm calm_nextFileId) fun id => .run_seq (keeps_reclaimNamespace P files id live)
      fun _ =>
      .run_seq (.calm (calm_openRo id)) fun _ =>
        .run_seq (keeps_modify fun _ => rfl) fun _ => .calm trivial

theorem keeps_cascade (fuel : Nat) (total : ReclaimReport) :
    Keeps own (cascade P fuel total).run := by
  induction fuel generalizing total with
  | zero => exact .calm trivial
  | succ fuel ih =>
    refine .run_seq (keeps_gets _) fun level => ?_
    cases level with
    | none => exact .calm trivial
    | some p => exact .run_seq (keeps_mergeLevel P p.1 p.2) fun _ => ih _

theorem keeps_reclaimInner : Keeps own (reclaimInner P).run := by
  refine .run_seq (keeps_gets _) fun f => .run_seq (keeps_gets _) fun entries =>
    keeps_synced (triple_writeFooter P f entries) fun req => ?_
  have hle : own ≤ {.done req} + own := Multiset.le_add_left ..
  refine .after hle (keeps_modify fun s => same_files s _ s.level) fun _ =>
    .after hle (keeps_gets _) fun fuel => .after hle (keeps_cascade P fuel _) fun r => ?_
  cases r with
  | none => exact .ret hle
  | some total =>
    exact .after hle (.calm calm_nextFileId) fun id => rests_activate id (.calm trivial)

theorem keeps_reclaim : Keeps own (reclaim P).run := by
  refine .run_seq (.calm (calm_lift (Prog.within_step fun s => same_setReclaiming true s)))
    fun busy => ?_
  refine act_unless (fun p => Keeps own p.run) ?_ fun h => .run_seq (.calm trivial) fun _ => h
  exact .run_seq (keeps_at (nofun)) fun _ => .run_seq (.calm (calm_lift calm_drainWrites)) fun _ =>
    .run_seq (keeps_at (nofun)) fun _ => .guarded (same_setReclaiming false) (keeps_reclaimInner P)

theorem keeps_flushInner : Keeps own flushInner.run := by
  refine .run_seq (keeps_at (nofun)) fun _ => .run_seq (keeps_modify fun _ => rfl) fun _ =>
    .run_seq (keeps_gets _) fun _ => .run_seq (keeps_gets _) fun _ =>
      .run_seq (.calm (calm_lift (Prog.within_joinAll fun f _ => ?_))) fun _ =>
        .run_seq (.calm (calm_openRw 0)) fun _ => .run_seq (.calm (calm_lift calm_syncDir)) fun _ =>
          keeps_reset_none fun _ => rfl
  cases f with
  | inl id => exact .seq (calm_unlinkData id) fun _ => trivial
  | inr id => exact calm_unlinkTmp id

theorem keeps_flush : Keeps own flush.run := by
  refine .run_seq (.calm (calm_lift calm_awaitReclaim)) fun _ =>
    .run_seq (.calm (calm_lift (Prog.within_step fun s => same_setReclaiming true s)))
      fun busy => ?_
  refine act_unless (fun p => Keeps own p.run) ?_ fun h => .run_seq (.calm trivial) fun _ => h
  exact .run_seq (keeps_at (nofun)) fun _ => .run_seq (.calm (calm_lift calm_drainWrites)) fun _ =>
    .run_seq (.calm (calm_lift calm_nextTstamp)) fun _ => .run_seq (keeps_at (nofun)) fun _ =>
      .guarded (same_setReclaiming false) (.run_seq keeps_flushInner fun _ => .calm trivial)

/-! ### Writes -/

theorem keeps_commitPut (key value m : Bytes) (x : Option UInt64) :
    Keeps own (commitPut P key value m x).run :=
  .run_seq (.calm (calm_lift calm_nextTstamp)) fun _ =>
    .run_seq (.calm (calm_maybeSeparate P value)) fun _ =>
    .run_seq (.calm (calm_encodeOp P _ _ _)) fun buf => .run_seq (keeps_at (nofun)) fun _ =>
      .run_seq (keeps_gets _) fun f => .run_seq (.calm (calm_appendOrUnref f buf _)) fun off =>
        .run_seq (.lift (keeps_countAppend f off _)) fun _ => .run_seq (keeps_at (nofun)) fun _ =>
          .run_seq (keeps_modify fun s => same_unref? _ (s.setIndex _)) fun _ =>
            .run_seq (keeps_rotateIfFull P f) fun _ => .calm trivial

theorem keeps_writing {α : Type} (key : Bytes) {body : Act α} (hb : Keeps own body.run) :
    Keeps own (writing P key body).run :=
  .run_seq (.calm (calm_lift calm_awaitReclaim)) fun _ => .run_seq (.calm calm_beginWrite) fun _ =>
    .guarded same_endWrite (.run_seq (.calm (calm_lift (calm_lockStripe _))) fun _ =>
      .guarded (same_setStripe _ false) hb)

theorem keeps_putFullCond (key value m : Bytes) (x : Option UInt64) (cond : WriteCondition)
    (now : UInt64) : Keeps own (putFullCond P key value m x cond now).run := by
  refine keeps_writing P key (.run_seq (keeps_gets _) fun rev => ?_)
  by_cases hc : cond.check rev = true
  · simp only [hc, if_true]
    exact .run_seq (keeps_commitPut P key value m x) fun _ => .calm trivial
  · simp only [hc, Bool.false_eq_true, if_false]
    exact .run_seq (keeps_at (nofun)) fun _ => .calm trivial

theorem keeps_putMany (pairs : List (Bytes × Bytes)) : Keeps own (putMany P pairs).run := by
  refine .run_seq (.calm (calm_lift calm_awaitReclaim)) fun _ =>
    .run_seq (.calm calm_beginWrite) fun _ =>
    .guarded same_endWrite ?_
  by_cases hempty : pairs.isEmpty = true
  · simp only [hempty, if_true]
    exact .run_seq (keeps_at (nofun)) fun _ => .calm trivial
  · simp only [hempty, Bool.false_eq_true, if_false]
    exact .run_seq (.calm (calm_lift (calm_lockStripes _))) fun _ => .guarded (same_unlockStripes _)
      (.run_seq (.calm (calm_encodeBatch P pairs [])) fun _ => .run_seq (keeps_at (nofun)) fun _ =>
        .run_seq (keeps_gets _) fun f => .run_seq (.calm (calm_appendOrUnref f _ _)) fun off =>
          .run_seq (.lift (keeps_countAppend f off _)) fun _ => .run_seq (keeps_at (nofun)) fun _ =>
            .run_seq (keeps_modify fun s => same_unrefs _ (s.setIndex _)) fun _ =>
              .run_seq (keeps_rotateIfFull P f) fun _ => .calm trivial)

theorem keeps_commitTombstone (key : Bytes) : Keeps own (commitTombstone P key).run :=
  .run_seq (keeps_at (nofun)) fun _ => .run_seq (.calm (calm_lift (Prog.within_step fun _ => rfl)))
    fun old =>
    .run_seq (.calm (calm_lift calm_nextTstamp)) fun _ =>
      .run_seq (.calm (calm_encodeOp P _ _ _)) fun buf =>
      .run_seq (keeps_at (nofun)) fun _ => .run_seq (keeps_gets _) fun f =>
        .run_seq (.calm (calm_append f buf)) fun off =>
          .run_seq (.lift (keeps_countAppend f off _)) fun _ =>
          .run_seq (keeps_modify (same_unref? old)) fun _ => .calm trivial

theorem keeps_tombstone (key : Bytes) : Keeps own (tombstone P key).run := by
  refine keeps_writing P key (.run_seq (keeps_gets _) fun live => ?_)
  cases live with
  | true => exact .run_seq (keeps_commitTombstone P key) fun _ => .calm trivial
  | false =>
    exact .run_seq (keeps_at (nofun)) fun _ => .run_seq (keeps_modify fun _ => rfl)
      fun _ => .calm trivial

theorem keeps_tombstoneCond (key : Bytes) (rev now : UInt64) :
    Keeps own (tombstoneCond P key rev now).run := by
  refine keeps_writing P key (.run_seq (keeps_gets _) fun live => ?_)
  cases live with
  | true => exact .run_seq (keeps_commitTombstone P key) fun _ => .calm trivial
  | false => exact .run_seq (keeps_at (nofun)) fun _ => .calm trivial

theorem keeps_ttlUpdate (key : Bytes) (x : Option UInt64) : Keeps own (ttlUpdate P key x).run :=
  keeps_writing P key (.run_seq (.calm (calm_lift calm_nextTstamp)) fun _ =>
    .run_seq (.calm (calm_encodeOp P _ _ _)) fun buf => .run_seq (keeps_at (nofun)) fun _ =>
      .run_seq (keeps_gets _) fun f => .run_seq (.calm (calm_append f buf)) fun off =>
        .run_seq (.lift (keeps_countAppend f off _)) fun _ => .run_seq (keeps_at (nofun)) fun _ =>
          .run_seq (keeps_modify fun _ => rfl) fun _ => .calm trivial)

theorem Call.keeps (call : Call) : Keeps own (call.act P).run := by
  cases call with
  | putFull k v m x =>
    exact .run_seq (keeps_writing P k (keeps_commitPut P k v m x)) fun _ => .calm trivial
  | putFullCond k v m x cond now =>
    exact .run_seq (keeps_putFullCond P k v m x cond now) fun _ => .calm trivial
  | putMany pairs => exact keeps_putMany P pairs
  | tombstone k => exact .run_seq (keeps_tombstone P k) fun _ => .calm trivial
  | tombstoneCond k rev now =>
    exact .run_seq (keeps_tombstoneCond P k rev now) fun _ => .calm trivial
  | ttlUpdate k x => exact .run_seq (keeps_ttlUpdate P k x) fun _ => .calm trivial
  | rotateActive => exact .run_seq (keeps_rotateActive P) fun _ => .calm trivial
  | reclaim => exact .run_seq (keeps_reclaim P) fun _ => .calm trivial
  | sync => exact .run_seq keeps_syncLog fun _ => .calm trivial
  | flush => exact .run_seq keeps_flush fun _ => .calm trivial
  | restart config clock => exact .run_seq (keeps_seal P) fun _ => .calm trivial

end operations

/-! ## Runs -/

/-- A client of the log; `restart` stands for its `seal_active_for_shutdown` alone. -/
inductive Client where
  | calls (call : Call)
  | reopens

def Client.task (P : Prims) : Client → Task Unit
  | .calls call => do let _ ← (call.act P).run; return ()
  | .reopens => do let _ ← reopenActiveAfterSeal.run; return ()

theorem Client.keeps (P : Prims) (c : Client) : Keeps 0 (c.task P) := by
  cases c with
  | calls call => exact .seq (call.keeps P) fun _ => .calm trivial
  | reopens => exact .seq keeps_reopen fun _ => .calm trivial

/-- In every run whose resets are honest, a zero counter means that every append counted so
far lies before a completed fsync of its file. -/
theorem unsynced_zero_durable (P : Prims) (clients : List Client) {s : NsState}
    (hzero : s.unsyncedBytes = 0) {w : Pool NsState Point (List Point)}
    (hrun : Runs honestResets (.of (clients.map (Client.task P)) [] s) w)
    (hw : w.state.unsyncedBytes = 0) :
    ∀ a : Append, 0 < a.len → a.mark ∈ w.ghost → durable a w.ghost = true := by
  have hstart : Honest 0 [] s := ⟨by simp, hzero, by simp⟩
  obtain ⟨M, hinv, -⟩ := Runs.inv (Γ := honest) hrun hstart fun p hp f g s h => by
    obtain ⟨c, -, rfl⟩ := List.mem_map.mp hp
    exact c.keeps P f g s (by rwa [zero_add])
  intro a hlen ha
  refine (hinv.durable a hlen ha).resolve_left fun hpend => ?_
  have hle : a.len ≤ ((pending w.ghost).map Append.len).sum :=
    List.le_sum_of_mem (List.mem_map_of_mem hpend)
  rw [← hinv.count, hw] at hle
  omega

instance (l : Point) (g : List Point) (s : NsState) : Decidable (honestResets.allows l g s) :=
  match l with
  | .reset (some req) => inferInstanceAs (Decidable (∀ a ∈ pending g, covers req a g = true))
  | .reset none => inferInstanceAs (Decidable (∀ a ∈ pending g, a.len = 0))
  | .reserve | .snapshot | .write .. | .readBlob _ | .acked .. | .fsync .. | .fsynced _
      | .counted .. | .wants _
  | .passes _ | .holds _ | .drops _ | .effect _ => inferInstanceAs (Decidable True)

/-- A put, a sync and another put. -/
def putSyncPut : List Client :=
  [.calls (.putFull [0x61] [0x31] [] none), .calls .sync, .calls (.putFull [0x62] [0x32] [] none)]

/-- Both puts have returned when the sync begins. -/
theorem unsynced_zero_durable_two :
    ∃ s w, freshLog (fun _ => none) = some s ∧ s.unsyncedBytes = 0
      ∧ Runs honestResets (.of (putSyncPut.map (Client.task realPrims)) [] s) w
      ∧ w.state.unsyncedBytes = 0 ∧ Append.mark ⟨0, 39, 39⟩ ∈ w.ghost
      ∧ ∀ a : Append, 0 < a.len → a.mark ∈ w.ghost → durable a w.ghost = true := by
  have hview :
    (runFresh honestResets (fun _ => none) (fun _ => putSyncPut.map (Client.task realPrims))
      [] [0, 0, 0, 2, 2, 2, 1, 1, 1]).map (fun x => (x.1.unsyncedBytes, x.2.state.unsyncedBytes,
        decide (Append.mark ⟨0, 39, 39⟩ ∈ x.2.ghost))) = some (0, 0, true) := by
    decide +kernel
  obtain ⟨⟨s, w⟩, hsome, heq⟩ := Option.map_eq_some_iff.mp hview
  simp only [Prod.mk.injEq, decide_eq_true_eq] at heq
  obtain ⟨hzero, hw, hmem⟩ := heq
  obtain ⟨hs, hrun⟩ := runs_runFresh hsome
  exact ⟨s, w, hs, hzero, hrun, hw, hmem, unsynced_zero_durable realPrims putSyncPut hzero hrun hw⟩

/-- The second put is written, counted and acknowledged while the sync awaits the fsync that
the kernel had taken before; then the sync sets the counter to zero. -/
theorem acked_put_not_durable :
    ∃ s w, freshLog (fun _ => none) = some s ∧ s.unsyncedBytes = 0
      ∧ Runs (.record fun l _ g => l :: g) (.of (putSyncPut.map (Client.task realPrims)) [] s) w
      ∧ w.state.unsyncedBytes = 0 ∧ w.Ended
      ∧ w.ghost.filter (fun l => l.kind = .io ∨ l.kind = .sync) = [.reset (some 2), .fsynced 2,
          .counted 0 39 39, .write 39 39, .reserve, .fsync 2 0, .counted 0 0 39,
            .write 0 39, .reserve]
      ∧ durable ⟨0, 39, 39⟩ w.ghost = false := by
  have hview : (runFresh (.record fun l _ g => l :: g) (fun _ => none)
      (fun _ => putSyncPut.map (Client.task realPrims)) [] [0, 0, 0, 1, 1, 2, 2, 2, 1]).map
        (fun x => decide (x.1.unsyncedBytes = 0 ∧ x.2.state.unsyncedBytes = 0
          ∧ x.2.tasks.map Prog.returned = [some (), some (), some ()]
          ∧ x.2.ghost.filter (fun l => l.kind = .io ∨ l.kind = .sync)
          = [.reset (some 2), .fsynced 2,
            .counted 0 39 39, .write 39 39, .reserve, .fsync 2 0, .counted 0 0 39,
              .write 0 39, .reserve]
          ∧ durable ⟨0, 39, 39⟩ x.2.ghost = false)) = some true := by
    decide +kernel
  obtain ⟨⟨s, w⟩, hsome, heq⟩ := Option.map_eq_some_iff.mp hview
  obtain ⟨hzero, hw, hret, hghost, hlost⟩ := of_decide_eq_true heq
  obtain ⟨hs, hrun⟩ := runs_runFresh hsome
  refine ⟨s, w, hs, hzero, hrun, hw, ?_, hghost, hlost⟩
  intro p hp
  have hmem : p.returned ∈ w.tasks.map Prog.returned := List.mem_map_of_mem hp
  rw [hret] at hmem
  exact Prog.eq_ret_of_returned (by simpa using hmem)

end BeyondKv
