/-
# What the functions leave alone

Most of the code has nothing to do with a given part of the state. `Calm N π p` says that
no effect of `p` changes what the view `π` shows and that its marks are among `N`. A view
that is blind to I/O makes every I/O function calm, one that is blind to the active file also
the sync and rotation code, one that is blind to blob counts also the code of the blob store.
-/
import BeyondKv.Reclaim

namespace BeyondKv

open Async

/-- What a mark is about. -/
inductive Kind where
  | io
  | sync
  | lock
  | effect
  deriving DecidableEq

def Point.kind : Point → Kind
  | .reserve | .snapshot | .write .. | .readBlob _ | .acked .. => .io
  | .fsync .. | .fsynced _ | .counted .. | .reset _ => .sync
  | .wants _ | .passes _ | .holds _ | .drops _ => .lock
  | .effect _ => .effect

/-- The view shows the same. -/
def Same {V : Type} (π : NsState → V) (s s' : NsState) : Prop := π s' = π s

section same
variable {V : Type} {π : NsState → V}

theorem Same.refl (s : NsState) : Same π s s := rfl

theorem Same.trans {s s' s'' : NsState} (h : Same π s s') (h' : Same π s' s'') : Same π s s'' :=
  Eq.trans h' h

end same

/-- I/O, rotations and the map of sealed files do not show in the view. -/
class BlindIo {V : Type} (π : NsState → V) : Prop where
  io : ∀ (s : NsState) tick disk ring cells, π { s with tick, disk, ring, cells } = π s
  files : ∀ (s : NsState) sealed level rotateInProgress,
    π { s with sealed, level, rotateInProgress } = π s

/-- The counts of the blob store do not show. -/
class BlindRefs {V : Type} (π : NsState → V) : Prop where
  refs : ∀ (s : NsState) refs pendingDelete, π { s with refs, pendingDelete } = π s

class Blind {V : Type} (π : NsState → V) : Prop extends BlindIo π, BlindRefs π

/-- The write stripes do not show. -/
class BlindStripes {V : Type} (π : NsState → V) : Prop where
  stripes : ∀ (s : NsState) writeStripes, π { s with writeStripes } = π s

/-- The locks of the blob store do not show. -/
class BlindBlobs {V : Type} (π : NsState → V) : Prop where
  blobs : ∀ (s : NsState) fileLocks, π { s with fileLocks } = π s

/-- The exclusion of writes and reclaims does not show. -/
class BlindGate {V : Type} (π : NsState → V) : Prop where
  gate : ∀ (s : NsState) reclaimInProgress inFlightWrites,
    π { s with reclaimInProgress, inFlightWrites } = π s

/-- The active file and its unsynced bytes do not show. -/
class BlindActive {V : Type} (π : NsState → V) : Prop where
  active : ∀ (s : NsState) active unsyncedBytes, π { s with active, unsyncedBytes } = π s

class BlindSync {V : Type} (π : NsState → V) : Prop extends Blind π, BlindActive π

/-- The index does not show. -/
class BlindIndex {V : Type} (π : NsState → V) : Prop where
  index : ∀ (s : NsState) index, π { s with index } = π s

/-- The revision counter does not show. -/
class BlindStamp {V : Type} (π : NsState → V) : Prop where
  stamp : ∀ (s : NsState) readings lastTstamp, π { s with readings, lastTstamp } = π s

/-- The marks of a kind are among `N`. -/
class Has (k : Kind) (N : Point → Prop) : Prop where
  mem : ∀ l : Point, l.kind = k → N l

/-- The marks of taking a lock are. -/
class HasAcquire (N : Point → Prop) : Prop where
  wants : ∀ r, N (.wants r)
  passes : ∀ r, N (.passes r)
  holds : ∀ r, N (.holds r)

/-- The marks of writing to a file are. -/
class HasWrite (N : Point → Prop) : Prop where
  write : ∀ offset len, N (.write offset len)
  snapshot : N .snapshot

instance {N : Point → Prop} [Has .lock N] : HasAcquire N where
  wants _ := Has.mem (k := .lock) _ rfl
  passes _ := Has.mem (k := .lock) _ rfl
  holds _ := Has.mem (k := .lock) _ rfl

instance {N : Point → Prop} [Has .io N] : HasWrite N where
  write _ _ := Has.mem (k := .io) _ rfl
  snapshot := Has.mem (k := .io) _ rfl

/-- Only code that sets lock marks waits for what others have to bring about. -/
def Awaits (N : Point → Prop) (r : NsState → Bool) : Prop :=
  (∀ s, r s = true) ∨ ∀ res, N (.wants res)

/-- No effect of the program shows in the view, and its marks are among `N`. -/
abbrev Calm (N : Point → Prop) {V : Type} (π : NsState → V) {α : Type} (p : Task α) : Prop :=
  p.Within N (Awaits N) (Same π)

section calm
variable {N : Point → Prop} {V : Type} {π : NsState → V} {α β : Type} {rs : List Resource}
  {release : NsState → NsState}

theorem calm_gets (f : NsState → α) : Calm N π (Prog.gets f : Task α) :=
  Prog.within_gets Same.refl f

theorem calm_lift {p : Task α} (h : Calm N π p) : Calm N π (lift p).run := h.run_lift

theorem calm_ioAct {p : Task (Except IoError α)} (h : Calm N π p) : Calm N π (ioAct p).run := by
  refine Prog.Within.seq h fun r => ?_
  cases r <;> exact trivial

theorem calm_at (k : Kind) [Has k N] {l : Point} (h : l.kind = k) : Calm N π (Prog.at_ l) :=
  Prog.within_at (Has.mem l h)

theorem calm_yield : Calm N π (Prog.yield : Task Unit) := Prog.within_wait (.inl fun _ => rfl)

theorem calm_wait [HasAcquire N] {r : NsState → Bool} : Calm N π (Prog.wait r : Task Unit) :=
  Prog.within_wait (.inr HasAcquire.wants)

theorem calm_wants [HasAcquire N] (r : Resource) : Calm N π (Prog.at_ (.wants r)) :=
  Prog.within_at (HasAcquire.wants r)

theorem calm_passes [HasAcquire N] (r : Resource) : Calm N π (Prog.at_ (.passes r)) :=
  Prog.within_at (HasAcquire.passes r)

theorem calm_holds [HasAcquire N] (r : Resource) : Calm N π (Prog.at_ (.holds r)) :=
  Prog.within_at (HasAcquire.holds r)

theorem calm_acquire [HasAcquire N] {r : Resource} {locked : NsState → Bool}
    {lock : NsState → NsState}
    (h : ∀ s, Same π s (lock s)) : Calm N π (acquire r locked lock) := by
  have htake : Calm N π (do Prog.modify lock; Prog.at_ (.holds r)) :=
    .seq (Prog.within_modify h) fun _ => calm_holds r
  refine .seq (calm_gets _) fun b => ?_
  cases b with
  | true => exact .seq (calm_wants r) fun _ => .seq calm_wait fun _ => htake
  | false => exact htake

theorem calm_dropAll (h : ∀ r ∈ rs, N (.drops r)) : Calm N π (dropAll rs) := by
  induction rs with
  | nil => exact trivial
  | cons r rs ih =>
    exact .seq (Prog.within_at (h r (List.mem_cons_self ..))) fun _ =>
      ih fun r hr => h r (List.mem_cons_of_mem _ hr)

theorem calm_guarding {body : Act α}
    (hrs : ∀ r ∈ rs, N (.drops r)) (h : ∀ s, Same π s (release s)) (hb : Calm N π body.run) :
    Calm N π (guarded rs release body).run :=
  .seq hb fun _ => .seq (Prog.within_modify h) fun _ => .seq (calm_dropAll hrs) fun _ => trivial

theorem calm_guarded [Has .lock N] {body : Act α}
    (h : ∀ s, Same π s (release s)) (hb : Calm N π body.run) :
    Calm N π (guarded rs release body).run :=
  calm_guarding (fun _ _ => Has.mem (k := .lock) _ rfl) h hb

/-- What the view does not show is nothing to a relation that looks at the view only. -/
theorem within_of_calm {R : NsState → NsState → Prop} (hR : ∀ s s', Same π s s' → R s s')
    {p : Task α} (h : Calm N π p) :
    p.Within N (Awaits N) R := Prog.Within.mono h (fun _ h => h) (fun _ h => h) hR

theorem within_guarded [Has .lock N] {R : NsState → NsState → Prop}
    (hR : ∀ s s', Same π s s' → R s s')
    {body : Act α} (h : ∀ s, Same π s (release s))
    (hb : body.run.Within N (Awaits N) R) : (guarded rs release body).run.Within N (Awaits N) R :=
  .seq hb fun _ => .seq (Prog.within_modify fun s => hR s _ (h s)) fun _ =>
    .seq (within_of_calm hR (calm_dropAll fun _ _ => Has.mem (k := .lock) _ rfl)) fun _ => trivial

theorem calm_encodeOp (P : Prims) (buf : Bytes) (tstamp : UInt64) (op : LogOp) :
    Calm N π (encodeOp P buf tstamp op).run := trivial

theorem calm_nextFileId : Calm N π nextFileId.run := by
  refine .run_seq (calm_lift (calm_gets _)) fun id => ?_
  by_cases hid : id + 1 > u32Max
  · simp only [hid, if_true]
    exact .run_seq trivial fun _ => trivial
  · simp only [hid, if_false]
    exact trivial

theorem calm_awaitReclaim [HasAcquire N] : Calm N π awaitReclaim := by
  refine .seq (calm_gets _) fun b => ?_
  cases b with
  | true => exact .seq (calm_wants _) fun _ => .seq calm_wait fun _ => calm_passes _
  | false => exact trivial

theorem calm_drainWrites [HasAcquire N] : Calm N π drainWrites := by
  refine .seq (calm_gets _) fun n => ?_
  by_cases hn : n > 0
  · simp only [hn, if_true]
    exact .seq (calm_wants _) fun _ => .seq calm_wait fun _ => calm_passes _
  · simp only [hn, if_false]
    exact trivial

/-! ## Views that are blind to I/O -/

section blind
variable [BlindIo π]

theorem same_io (s : NsState) (tick : Nat) (disk : Disk) (ring : List PendingWrite)
    (cells : Nat → FileCell) :
    Same π s { s with tick, disk, ring, cells } := BlindIo.io s tick disk ring cells

theorem same_files (s : NsState) (sealed : Std.ExtTreeMap Nat LogFile)
    (level : Std.ExtTreeMap Nat Nat) :
    Same π s { s with sealed, level } := BlindIo.files s sealed level s.rotateInProgress

theorem same_setRotating (b : Bool) (s : NsState) : Same π s (setRotating b s) :=
  BlindIo.files s s.sealed s.level b

theorem same_setCell (ino : Nat) (c : FileCell) (s : NsState) :
    Same π s (LogFile.setCell ino c s) :=
  same_io s s.tick s.disk s.ring _

theorem same_perform (op : Disk → Except IoError α × Disk) (s : NsState) :
    Same π s (perform op s).2 := by
  unfold perform
  split
  · exact same_io s _ s.disk s.ring s.cells
  · exact same_io s _ _ s.ring s.cells

theorem same_performWrite (req ino offset : Nat) (data : Bytes) (s : NsState) :
    Same π s (performWrite req ino offset data s).2 := by
  unfold performWrite
  split
  · exact same_io s _ _ _ s.cells
  · split <;> exact same_io s _ _ _ s.cells

theorem calm_io (op : Disk → Except IoError α × Disk) : Calm N π (io op) :=
  .seq calm_yield fun _ => .seq (Prog.within_step (same_perform op)) fun _ => .seq calm_yield
    fun _ => trivial

theorem calm_syncDir : Calm N π syncDir := .seq (calm_io _) fun _ => trivial

theorem calm_wrap (fileId ino : Nat) : Calm N π (LogFile.wrap fileId ino).run :=
  .run_seq (calm_ioAct (calm_io _)) fun _ =>
    .run_seq (calm_lift (Prog.within_modify (same_setCell _ _))) fun _ => trivial

theorem calm_openRw (fileId : Nat) : Calm N π (LogFile.openRw fileId).run :=
  .run_seq (calm_ioAct (calm_io _)) fun _ => calm_wrap _ _

theorem calm_openRwTmp (fileId : Nat) : Calm N π (LogFile.openRwTmp fileId).run :=
  .run_seq (calm_ioAct (calm_io _)) fun _ => calm_wrap _ _

theorem calm_openRo (fileId : Nat) : Calm N π (LogFile.openRo fileId).run :=
  .run_seq (calm_ioAct (calm_io _)) fun _ => calm_wrap _ _

theorem calm_readExact (f : LogFile) (offset size : Nat) : Calm N π (f.readExact offset size).run :=
  calm_ioAct (calm_io _)

theorem calm_unlinkData (id : Nat) : Calm N π (unlinkData id) := calm_io _

theorem calm_unlinkTmp (id : Nat) : Calm N π (unlinkTmp id) := .seq (calm_io _) fun _ => trivial

theorem calm_readLive (files : List LogFile) (old : IndexEntry) :
    Calm N π (readLive files old).run := by
  unfold readLive
  split
  · exact trivial
  · exact calm_readExact _ _ _

/-! ### Writes -/

section io
variable [HasWrite N]

theorem calm_writeAllAt (ino offset : Nat) (data : Bytes) : Calm N π (writeAllAt ino offset data) :=
  .seq (Prog.within_step fun s => same_io s _ s.disk _ s.cells) fun req => .seq calm_yield fun _ =>
    .seq (Prog.within_at (HasWrite.write _ _)) fun _ =>
      .seq (Prog.within_step (same_performWrite req ino offset data)) fun _ =>
        .seq calm_yield fun _ =>
        .seq (Prog.within_modify fun s => same_io s s.tick s.disk _ s.cells) fun _ => trivial

/-- A check that may end the call, and the rest. -/
theorem act_unless {α : Type} (Q : Act α → Prop) {b : Bool} {t : Act PUnit} {rest : PUnit → Act α}
    (h : Q (rest ⟨⟩)) (ht : Q (rest ⟨⟩) → Q (t >>= rest)) :
    Q (if b then t >>= rest else rest ⟨⟩) := by
  cases b with
  | true => exact ht h
  | false => exact h

theorem calm_append (f : LogFile) (buf : Bytes) : Calm N π (f.append buf).run := by
  refine .run_seq (calm_lift (calm_gets _)) fun b => ?_
  refine act_unless (fun p => Calm N π p.run) ?_ fun h => .run_seq trivial fun _ => h
  refine .run_seq (calm_lift (Prog.within_step fun s => same_setCell f.ino _ s)) fun offset => ?_
  refine .run_seq (calm_lift (calm_writeAllAt _ _ _)) fun r => ?_
  cases r with
  | error e =>
    exact .run_seq (calm_lift (Prog.within_modify fun s => same_setCell f.ino _ s)) fun _ => trivial
  | ok _ => exact trivial

theorem calm_writeBlobDurable (h : ContentHash) (value : Bytes) :
    Calm N π (ValueStore.writeBlobDurable h value).run :=
  .run_seq (calm_ioAct (calm_io _)) fun _ => .run_seq (calm_ioAct (calm_io _)) fun _ =>
    .run_seq (calm_ioAct (calm_writeAllAt _ _ _)) fun _ =>
      .run_seq (calm_ioAct (calm_io _)) fun _ =>
      .run_seq (calm_lift (calm_io _)) fun _ => .run_seq (calm_ioAct (calm_io _)) fun _ =>
        calm_ioAct (calm_io _)

theorem calm_copyRecords (f : LogFile) (id : Nat)
    (lst : List (LiveKey × Except EngineError Bytes)) :
    Calm N π (copyRecords f id lst).run := by
  induction lst with
  | nil => exact trivial
  | cons x lst ih =>
    obtain ⟨⟨key, old, ttl⟩, r⟩ := x
    refine .run_seq trivial fun bytes => .run_seq (calm_append f bytes) fun _ => ?_
    exact .run_seq ih fun _ => trivial

end io
end blind

/-! ## Views that are blind to the counts of the blob store -/

section refs
variable [BlindRefs π]

theorem same_refs (s : NsState) (refs : Std.ExtTreeMap ContentHash Nat)
    (pendingDelete : List ContentHash) :
    Same π s { s with refs, pendingDelete } := BlindRefs.refs s refs pendingDelete

theorem same_dec (h : ContentHash) (s : NsState) : Same π s (ValueStore.dec h s).2 := by
  unfold ValueStore.dec
  split
  · dsimp only
    split <;> exact same_refs s _ s.pendingDelete
  · exact Same.refl s

theorem same_unref (h : ContentHash) (s : NsState) : Same π s (ValueStore.unref h s) := by
  unfold ValueStore.unref
  have hdec : Same π s (ValueStore.dec h s).2 := same_dec h s
  cases hd : ValueStore.dec h s with
  | mk dead s₁ =>
    rw [hd] at hdec
    cases dead with
    | true => exact hdec.trans (same_refs s₁ s₁.refs _)
    | false => exact hdec

theorem same_unref? (h : Option ContentHash) (s : NsState) : Same π s (ValueStore.unref? h s) := by
  cases h with
  | none => exact Same.refl s
  | some h => exact same_unref h s

theorem same_unrefs (hs : List ContentHash) (s : NsState) :
    Same π s (hs.foldl (fun s h => ValueStore.unref h s) s) := by
  induction hs generalizing s with
  | nil => exact Same.refl s
  | cons h hs ih => exact (same_unref h s).trans (ih _)

variable [BlindIo π] [HasWrite N]

/-- `put` between its lock and its unlock. -/
theorem calm_valueBody (h : ContentHash) (value : Bytes) :
    Calm N π (do
      let first ← lift (Prog.step (ValueStore.takeRef h))
      if first then
        ExceptT.mk do
          match ← (ValueStore.writeBlobDurable h value).run with
          | .ok _ => return .ok ()
          | .error e =>
            Prog.modify fun s => (ValueStore.dec h s).2
            return .error e
      return h : Act ContentHash).run := by
  refine .run_seq (calm_lift (Prog.within_step fun s => same_refs s _ s.pendingDelete))
    fun first => ?_
  cases first with
  | false => exact trivial
  | true =>
    refine .run_seq (.seq (calm_writeBlobDurable _ value) fun r => ?_) fun _ => trivial
    cases r with
    | ok _ => exact trivial
    | error e => exact .seq (Prog.within_modify (same_dec _)) fun _ => trivial

theorem calm_appendOrUnref (f : LogFile) (buf : Bytes) (hs : List ContentHash) :
    Calm N π (appendOrUnref f buf hs).run := by
  refine .seq (calm_append f buf) fun r => ?_
  cases r with
  | ok _ => exact trivial
  | error e => exact .seq (Prog.within_modify (same_unrefs hs)) fun _ => trivial

end refs

/-! ## Views that are blind to locks -/

section gate
variable [BlindGate π]

theorem same_endWrite (s : NsState) : Same π s (endWrite s) :=
  BlindGate.gate s s.reclaimInProgress _

theorem same_setReclaiming (b : Bool) (s : NsState) : Same π s (setReclaiming b s) :=
  BlindGate.gate s b s.inFlightWrites

theorem calm_beginWrite [HasAcquire N] : Calm N π beginWrite.run := by
  have hcount :
    Calm N π
    (do lift (Prog.modify countWrite); lift (Prog.at_ (.holds .inFlight)) : Act Unit).run :=
    .run_seq (calm_lift (Prog.within_modify fun s => BlindGate.gate s s.reclaimInProgress _))
      fun _ =>
      calm_lift (calm_holds _)
  refine .run_seq (calm_lift (calm_gets _)) fun b => ?_
  cases b with
  | true => exact .run_seq trivial fun _ => hcount
  | false => exact hcount

end gate

section stripes
variable [BlindStripes π]

theorem same_setStripe (i : Nat) (b : Bool) (s : NsState) : Same π s (setStripe i b s) :=
  BlindStripes.stripes s _

theorem same_unlockStripes (is : List Nat) (s : NsState) : Same π s (unlockStripes is s) := by
  unfold unlockStripes
  induction is generalizing s with
  | nil => exact Same.refl s
  | cons i is ih => exact (same_setStripe i false s).trans (ih (unlockStripe i s))

variable [HasAcquire N]

theorem calm_lockStripe (i : Nat) : Calm N π (lockStripe i) := calm_acquire (same_setStripe i true)

theorem calm_lockStripes (is : List Nat) : Calm N π (lockStripes is) := by
  induction is with
  | nil => exact trivial
  | cons i is ih => exact .seq (calm_lockStripe i) fun _ => ih

end stripes

section blobs
variable [BlindBlobs π]

theorem same_setFileLock (h : ContentHash) (b : Bool) (s : NsState) :
    Same π s (ValueStore.setFileLock h b s) := BlindBlobs.blobs s _

theorem calm_lockFile [HasAcquire N] (h : ContentHash) : Calm N π (ValueStore.lockFile h) :=
  calm_acquire (same_setFileLock h true)

variable [BlindIo π] [BlindRefs π] [Has .lock N]

omit [BlindRefs π] in
theorem calm_collect (h : ContentHash) : Calm N π (ValueStore.collect h) := by
  have hunlock : Calm N π (do
      Prog.modify (ValueStore.unlockFile h)
      Prog.at_ (.drops (.blob (ValueStore.flockIdx h)))) :=
    .seq (Prog.within_modify (same_setFileLock h false)) fun _ => calm_at .lock rfl
  refine .seq (calm_lockFile h) fun _ => .seq (calm_gets _) fun n => ?_
  by_cases hn : n = 0
  · simp only [hn, if_true]
    exact .seq (calm_io _) fun _ => hunlock
  · simp only [hn, if_false]
    exact hunlock

theorem calm_collectGarbage : Calm N π ValueStore.collectGarbage := by
  refine .seq (Prog.within_step fun s => same_refs s s.refs _) fun hs => ?_
  induction hs with
  | nil => exact trivial
  | cons h hs ih => exact .seq (calm_collect h) fun _ => ih

variable [Has .io N]

theorem calm_valuePut (P : Prims) (value : Bytes) : Calm N π (ValueStore.put P value).run := by
  exact .run_seq (calm_lift (calm_lockFile _)) fun _ =>
    calm_guarded (same_setFileLock _ false) (calm_valueBody _ value)

theorem calm_maybeSeparate (P : Prims) (value : Bytes) : Calm N π (maybeSeparate P value).run := by
  refine .run_seq (calm_lift (calm_gets _)) fun n => ?_
  by_cases hn : n ≤ value.length
  · simp only [hn, if_true]
    exact .run_seq (calm_valuePut P value) fun _ => trivial
  · simp only [hn, if_false]
    exact trivial

end blobs

/-! ## Reads -/

section reads
variable [BlindIo π] [Has .io N]

end reads

/-! ## Views that are blind to revisions -/

section stamp
variable [BlindStamp π]

theorem calm_nextTstamp : Calm N π nextTstamp :=
  .seq (Prog.within_step fun s => BlindStamp.stamp s (s.readings + 1) s.lastTstamp) fun _ =>
    Prog.within_step fun s => BlindStamp.stamp s s.readings _

theorem calm_encodeBatch [BlindIo π] [BlindRefs π] [BlindBlobs π] [Has .io N]
    [Has .lock N] (P : Prims)
    (pairs : List (Bytes × Bytes)) (buf : Bytes) : Calm N π (encodeBatch P pairs buf).run := by
  induction pairs generalizing buf with
  | nil => exact trivial
  | cons pair pairs ih =>
    exact .run_seq (calm_lift calm_nextTstamp) fun _ =>
      .run_seq (calm_maybeSeparate P pair.2) fun _ =>
      .run_seq (calm_encodeOp P _ _ _) fun buf' => .run_seq (ih buf') fun _ => trivial

end stamp

/-! ## Views that are blind to syncs -/

section sync
variable [BlindActive π] [Has .sync N]

omit [Has .sync N] in
theorem same_active (s : NsState) (active : LogFile) (unsyncedBytes : Nat) :
    Same π s { s with active, unsyncedBytes } := BlindActive.active s active unsyncedBytes

theorem calm_countAppend (f : LogFile) (offset n : Nat) : Calm N π (countAppend f offset n) :=
  .seq (Prog.within_modify fun s => same_active s s.active _) fun _ => calm_at .sync rfl

variable [BlindIo π]

omit [BlindActive π] in
theorem calm_sync (f : LogFile) : Calm N π f.sync.run := by
  refine calm_ioAct
    (.seq calm_yield fun _ => .seq (calm_gets _) fun req => .seq (calm_at .sync rfl) fun _ =>
    .seq (Prog.within_step (same_perform _)) fun r => ?_)
  cases r with
  | ok req => exact .seq calm_yield fun _ => .seq (calm_at .sync rfl) fun _ => trivial
  | error e => exact .seq calm_yield fun _ => trivial

variable [HasWrite N]

omit [BlindActive π] in
theorem calm_writeFooter (f : LogFile) (P : Prims) (entries : List FooterEntry) :
    Calm N π (f.writeFooter P entries).run :=
  .run_seq (calm_append f _) fun _ => .run_seq (calm_append f _) fun _ => calm_sync f

theorem calm_rotateActive (P : Prims) : Calm N π (rotateActive P).run := by
  refine .run_seq (calm_lift (calm_gets _)) fun b => ?_
  cases b with
  | true => exact trivial
  | false =>
    refine .run_seq (calm_lift (Prog.within_modify (same_setRotating true))) fun _ =>
      calm_guarding (by simp) (same_setRotating false) ?_
    exact .run_seq (calm_lift (Prog.within_at HasWrite.snapshot)) fun _ =>
      .run_seq (calm_lift (calm_gets _)) fun f =>
      .run_seq (calm_lift (calm_gets _)) fun _ => .run_seq (calm_writeFooter f P _) fun _ =>
        .run_seq calm_nextFileId fun _ =>
          .run_seq (calm_lift (Prog.within_modify fun s => same_files s _ s.level)) fun _ =>
            .run_seq (calm_openRw _) fun _ => .run_seq (calm_lift calm_syncDir) fun _ =>
              .run_seq (calm_lift (calm_at .sync rfl)) fun _ =>
                calm_lift (Prog.within_modify fun s => same_active s _ _)

theorem calm_rotateIfFull (P : Prims) (f : LogFile) : Calm N π (rotateIfFull P f).run := by
  refine .run_seq (calm_lift (calm_gets _)) fun b => ?_
  cases b with
  | true => exact calm_rotateActive P
  | false => exact trivial

omit [HasWrite N] in
theorem calm_syncLog [BlindRefs π] [BlindBlobs π] [Has .lock N] : Calm N π sync.run := by
  refine .run_seq (calm_lift (calm_gets _)) fun n => ?_
  by_cases hn : n > 0
  · simp only [hn, if_true]
    exact .run_seq (calm_lift (calm_gets _)) fun f => .run_seq (calm_sync f) fun _ =>
      .run_seq (calm_lift (calm_at .sync rfl)) fun _ =>
        .run_seq (calm_lift (Prog.within_modify fun s => same_active s s.active _)) fun _ =>
          calm_lift calm_collectGarbage
  · simp only [hn, if_false]
    exact calm_lift calm_collectGarbage

theorem calm_seal (P : Prims) : Calm N π (sealActiveForShutdown P).run := by
  refine .run_seq (calm_lift (calm_gets _)) fun f => .run_seq (calm_lift (calm_gets _)) fun n => ?_
  have hfooter : ∀ entries, Calm N π (f.writeFooter P entries >>= fun _ => pure ()).run :=
    fun entries => .run_seq (calm_writeFooter f P entries) fun _ => trivial
  by_cases hn : n = 0
  · simp only [hn, ne_eq, not_true, if_false]
    exact .run_seq (calm_lift (calm_gets _)) fun _ => hfooter _
  · simp only [hn, ne_eq, not_false_eq_true, if_true]
    exact .run_seq (calm_sync f) fun _ => .run_seq (calm_lift (calm_at .sync rfl)) fun _ =>
      .run_seq (calm_lift (Prog.within_modify fun s => same_active s s.active _)) fun _ =>
        .run_seq (calm_lift (calm_gets _)) fun _ => hfooter _

omit [BlindActive π] in
theorem calm_reclaimNamespace (P : Prims) (files : List LogFile) (id : Nat) (live : List LiveKey) :
    Calm N π (reclaimNamespace P files id live).run :=
  .run_seq (calm_lift (calm_unlinkTmp id)) fun _ => .run_seq (calm_openRwTmp id) fun f =>
    .run_seq (calm_lift (Prog.within_modify fun s => same_io s s.tick _ s.ring _)) fun _ =>
      .run_seq (calm_lift (Prog.within_joinAll fun x _ => calm_readLive files x.2.1)) fun _ =>
        .run_seq (calm_copyRecords f id _) fun _ => .run_seq (calm_writeFooter f P _) fun _ =>
          .run_seq (calm_ioAct (calm_io _)) fun _ => .run_seq (calm_lift calm_syncDir) fun _ =>
            .run_seq (calm_lift (Prog.within_joinAll fun g _ => calm_unlinkData g.fileId)) fun _ =>
              trivial

/-! ### Code that changes the index

A relation between states that takes no notice of what the view does not show, and what the
index operations must be to it. -/

section reclaim
variable {R : NsState → NsState → Prop} (hR : ∀ s s', Same π s s' → R s s')
include hR

section merge
variable (hmerge : ∀ lvl ids f entries s, R s (commitMerge lvl ids f entries s))
include hmerge

omit [BlindActive π] in
theorem within_mergeLevel (P : Prims) (lvl : Nat) (ids : List Nat) :
    (mergeLevel P lvl ids).run.Within N (Awaits N) R :=
  .run_seq (within_of_calm hR (calm_lift (calm_gets _))) fun files =>
    .run_seq (within_of_calm hR (calm_lift (calm_gets _))) fun live =>
    .run_seq (within_of_calm hR calm_nextFileId) fun id =>
      .run_seq (within_of_calm hR (calm_reclaimNamespace P files id live)) fun _ =>
        .run_seq (within_of_calm hR (calm_openRo id)) fun _ =>
          .run_seq (Prog.Within.run_lift (Prog.within_modify (hmerge lvl ids _ _))) fun _ => trivial

omit [BlindActive π] in
theorem within_cascade (P : Prims) (fuel : Nat) (total : ReclaimReport) :
    (cascade P fuel total).run.Within N (Awaits N) R := by
  induction fuel generalizing total with
  | zero => exact trivial
  | succ fuel ih =>
    refine .run_seq (within_of_calm hR (calm_lift (calm_gets _))) fun level => ?_
    cases level with
    | none => exact trivial
    | some p => exact .run_seq (within_mergeLevel hR hmerge P p.1 p.2) fun _ => ih _

theorem within_reclaimInner (P : Prims) : (reclaimInner P).run.Within N (Awaits N) R := by
  refine .run_seq (within_of_calm hR (calm_lift (calm_gets _))) fun f =>
    .run_seq (within_of_calm hR (calm_lift (calm_gets _))) fun _ =>
    .run_seq (within_of_calm hR (calm_writeFooter f P _)) fun _ =>
      .run_seq (within_of_calm hR (calm_lift (Prog.within_modify fun s => same_files s _ s.level)))
        fun _ =>
        .run_seq (within_of_calm hR (calm_lift (calm_gets _))) fun fuel =>
          .run_seq (within_cascade hR hmerge P fuel _) fun r => ?_
  cases r with
  | none => exact trivial
  | some total =>
    refine within_of_calm hR ?_
    exact .run_seq calm_nextFileId fun id => .run_seq (calm_openRw id) fun _ =>
      .run_seq (calm_lift calm_syncDir) fun _ => .run_seq (calm_lift (calm_at .sync rfl)) fun _ =>
        .run_seq (calm_lift (Prog.within_modify fun s => same_active s _ _)) fun _ => trivial

theorem within_reclaim [BlindGate π] [Has .lock N] (P : Prims) :
    (reclaim P).run.Within N (Awaits N) R := by
  refine .run_seq
    (within_of_calm hR (calm_lift (Prog.within_step fun s => same_setReclaiming true s)))
    fun busy => ?_
  refine act_unless (fun p => p.run.Within N (Awaits N) R) ?_ fun h => .run_seq trivial fun _ => h
  exact .run_seq (within_of_calm hR (calm_lift (calm_at .lock rfl))) fun _ =>
    .run_seq (within_of_calm hR (calm_lift calm_drainWrites)) fun _ =>
      .run_seq (within_of_calm hR (calm_lift (calm_at .lock rfl))) fun _ =>
        within_guarded hR (same_setReclaiming false) (within_reclaimInner hR hmerge P)

end merge

omit [HasWrite N] in
theorem within_flushInner [Has .effect N]
    (hclear : ∀ s : NsState, R s { s with sealed := ∅, index := s.index.clear }) :
    flushInner.run.Within N (Awaits N) R := by
  refine .run_seq (within_of_calm hR (calm_lift (calm_at .effect rfl))) fun _ =>
    .run_seq (Prog.Within.run_lift (Prog.within_modify hclear)) fun _ => within_of_calm hR ?_
  refine .run_seq (calm_lift (calm_gets _)) fun _ => .run_seq (calm_lift (calm_gets _)) fun _ =>
    .run_seq (calm_lift (Prog.within_joinAll fun f _ => ?_)) fun _ =>
      .run_seq (calm_openRw 0) fun _ =>
      .run_seq (calm_lift calm_syncDir) fun _ => .run_seq (calm_lift (calm_at .sync rfl)) fun _ =>
        calm_lift (Prog.within_modify fun s => same_active s _ _)
  cases f with
  | inl id => exact .seq (calm_unlinkData id) fun _ => trivial
  | inr id => exact calm_unlinkTmp id

end reclaim

variable [BlindIndex π]

omit [BlindActive π] [Has .sync N] [HasWrite N] in
theorem same_merged (s : NsState) (index : NsIndex) (sealed : Std.ExtTreeMap Nat LogFile)
    (level : Std.ExtTreeMap Nat Nat) : Same π s { s with index, sealed, level } :=
  (same_files s sealed level).trans (BlindIndex.index { s with sealed, level } index)

theorem calm_reclaimInner (P : Prims) : Calm N π (reclaimInner P).run :=
  within_reclaimInner (π := π) (fun _ _ h => h) (fun _ _ _ _ s => same_merged s _ _ _) P

theorem calm_reclaim [BlindGate π] [Has .lock N] (P : Prims) : Calm N π (reclaim P).run :=
  within_reclaim (π := π) (fun _ _ h => h) (fun _ _ _ _ s => same_merged s _ _ _) P

omit [HasWrite N] in
theorem calm_flushInner [Has .effect N] : Calm N π flushInner.run :=
  within_flushInner (π := π) (fun _ _ h => h) fun s => same_merged s _ _ s.level

end sync
end calm

/-! ## The index alone -/

instance : BlindSync NsState.index where
  io _ _ _ _ _ := rfl
  refs _ _ _ := rfl
  files _ _ _ _ := rfl
  active _ _ _ := rfl

instance : BlindStripes NsState.index := ⟨fun _ _ => rfl⟩

instance : BlindBlobs NsState.index := ⟨fun _ _ => rfl⟩

instance : BlindGate NsState.index := ⟨fun _ _ _ => rfl⟩

instance : BlindStamp NsState.index := ⟨fun _ _ _ => rfl⟩

end BeyondKv
