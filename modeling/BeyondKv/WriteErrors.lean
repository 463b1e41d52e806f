/-
# Writes that fail

What a write that meets an I/O error leaves in the index.

A put commits to the index when its record has been appended, and then starts a rotation if the
file is full. So which of its requests fails decides (`Refused`): up to the append the index is
as it was, and if a request of the rotation fails the caller is told so and the key is in the
index. A delete takes the key out of the index before it appends its record, so when the append
fails the key is gone. An expiry update changes the index last (`write_error_atomic_iff`).
-/
import BeyondKv.Lib.Ends
import BeyondKv.Conditional
import BeyondKv.BlobCounts

namespace BeyondKv

open Async

/-- The same keys with the same records, expiries and hashes. -/
structure NsIndex.Agrees (i j : NsIndex) : Prop where
  get : ∀ k, i.get k = j.get k
  ttl : ∀ k, i.ttl k = j.ttl k
  valsep : ∀ k, i.valsep k = j.valsep k

theorem NsIndex.Agrees.refl (i : NsIndex) : i.Agrees i := ⟨fun _ => rfl, fun _ => rfl, fun _ => rfl⟩

/-! ## Which request fails -/

/-- Storing a blob, with its requests numbered from `t` on, fails. A write takes two numbers,
and the fifth request, an fsync of `values/`, may fail unnoticed. -/
def BlobFails (s : NsState) (t : Nat) (value : Bytes) : Prop :=
  (∃ i ∈ [0, 1, 3, 4, 6, 7], (s.fault (t + i)).isSome = true) ∨ maxFileSize < value.length

/-- An append of `len` bytes to the active file fails. -/
def AppendFails (s : NsState) (t len : Nat) : Prop :=
  (s.cells s.active.ino).poisoned = true ∨ (s.fault (t + 1)).isSome = true
    ∨ maxFileSize < s.active.writeOffset s + len

/-- The values that get a blob of their own: contents without a reference that none before has. -/
def newBlobs (P : Prims) (s : NsState) : List ContentHash → List Bytes → List Bytes
  | _, [] => []
  | seen, v :: vs =>
    if s.config.valueSepThreshold ≤ v.length
        ∧ ValueStore.refcount s (P.contentHash v) = 0 ∧ P.contentHash v ∉ seen then
      v :: newBlobs P s (P.contentHash v :: seen) vs
    else newBlobs P s seen vs

/-- One of the requests from number `t` on fails: eight for each blob, and two for an append of
`len` bytes. -/
def Refused (s : NsState) (len : Nat) : Nat → List Bytes → Prop
  | t, [] => AppendFails s t len
  | t, v :: vs => BlobFails s t v ∨ Refused s len (t + 8) vs

/-- The size of the record of a put. -/
def putLen (s : NsState) (key value metadata : Bytes) : Nat :=
  headerLen + key.length + (if s.config.valueSepThreshold ≤ value.length then 16 else value.length)
    + metadata.length

/-- A request fails that the call, made in `s`, makes before it changes the index. -/
def Call.Spares (P : Prims) (s : NsState) : Call → Prop
  | .putFull k v m _ | .putFullCond k v m .. =>
    Refused s (putLen s k v m) s.tick (newBlobs P s [] [v])
  | .putMany pairs =>
    Refused s ((pairs.map fun p => putLen s p.1 p.2 []).sum) s.tick
      (newBlobs P s [] (pairs.map Prod.snd))
  | .tombstone _ | .tombstoneCond .. => False
  | _ => True

/-! ## Requests -/

/-- `n` requests have been made, which no cell and no count of the blob store shows. -/
structure Asked (n : Nat) (s s' : NsState) : Prop where
  fault : s'.fault = s.fault
  tick : s'.tick = s.tick + n
  cells : s'.cells = s.cells
  refs : s'.refs = s.refs

section requests
variable {α : Type} {s s' s'' : NsState} {m n : Nat}

theorem Asked.trans (h : Asked m s s') (h' : Asked n s' s'') : Asked (m + n) s s'' :=
  ⟨h'.fault.trans h.fault, by rw [h'.tick, h.tick, Nat.add_assoc], h'.cells.trans h.cells,
    h'.refs.trans h.refs⟩

/-- The number that a request has in the state before. -/
theorem Asked.at (h : Asked m s s') (i : Nat) :
    s'.fault (s'.tick + i) = s.fault (s.tick + (m + i)) := by
  rw [h.fault, h.tick, Nat.add_assoc]

theorem wlp_gets {f : NsState → α} {Q : α → NsState → Prop} : wlp (Prog.gets f : Task α) Q s
    ↔ Q (f s) s :=
  wlp_ret ..

theorem wlp_ioAct {p : Task (Except IoError α)} {Q : Except EngineError α → NsState → Prop} :
    wlp (ioAct p).run Q s ↔ wlp p (fun r => Q (r.mapError .io)) s := by
  refine (wlp_seq ..).trans
    (iff_of_eq (congrArg (fun R => wlp p R s) (funext fun r => funext fun s' => ?_)))
  cases r <;> exact propext (wlp_ret ..)

/-- A request fails, or the kernel performs it. -/
theorem wlp_io {op : Disk → Except IoError α × Disk} {Q : Except IoError α → NsState → Prop}
    (hfail : (s.fault s.tick).isSome = true → ∀ e s', Asked 1 s s' → s'.disk = s.disk →
      Q (.error e) s')
    (hok : s.fault s.tick = none → ∀ s', Asked 1 s s' → s'.disk = (op s.disk).2 →
      Q (op s.disk).1 s') :
    wlp (io op) Q s := by
  refine (wlp_ret _ _ _).mpr ?_
  unfold perform
  cases hf : s.fault s.tick with
  | some n => exact hfail (by rw [hf]; rfl) _ _ ⟨rfl, rfl, rfl, rfl⟩ rfl
  | none => exact hok hf _ ⟨rfl, rfl, rfl, rfl⟩ rfl

theorem wlp_io_unnoticed {op : Disk → Except IoError α × Disk}
    {Q : Except IoError α → NsState → Prop}
    (hop : ∀ d, (op d).2 = d) (h : ∀ r s', Asked 1 s s' → s'.disk = s.disk → Q r s') :
    wlp (io op) Q s :=
  wlp_io (fun _ _ s' ha hd => h _ s' ha hd) fun _ s' ha hd => h _ s' ha (hd.trans (hop _))

/-- The first number is that of the submission, the second decides. -/
theorem wlp_writeAllAt {ino offset : Nat} {data : Bytes} {Q : Except IoError Unit → NsState → Prop}
    (hfail : (s.fault (s.tick + 1)).isSome = true ∨ maxFileSize < offset + data.length →
      ∀ e s', Q (.error e) s')
    (hok : s.fault (s.tick + 1) = none → offset + data.length ≤ maxFileSize → ∀ s', Asked 2 s s' →
      s'.disk = s.disk.writeAt ino offset data → Q (.ok ()) s') :
          wlp (writeAllAt ino offset data) Q s := by
  refine (wlp_ret _ _ _).mpr ?_
  dsimp only [submitWrite]
  unfold performWrite
  dsimp only
  cases hf : s.fault (s.tick + 1) with
  | some n => exact hfail (.inl (by rw [hf]; rfl)) _ _
  | none =>
    dsimp only
    by_cases hsize : offset + data.length > maxFileSize
    · rw [if_pos hsize]
      exact hfail (.inr hsize) _ _
    · rw [if_neg hsize]
      exact hok hf (Nat.not_lt.mp hsize) _ ⟨rfl, rfl, rfl, rfl⟩ rfl

theorem openBlob_ok (h : ContentHash) {d : Disk} (hdir : d.valuesDir = true) :
    ∃ ino, (ValueStore.openBlob h d).1 = .ok ino
        ∧ (ValueStore.openBlob h d).2.valuesDir = true := by
  unfold ValueStore.openBlob
  rw [if_pos hdir]
  split
  · exact ⟨_, rfl, hdir⟩
  · exact ⟨_, rfl, hdir⟩

theorem wlp_writeBlobDurable (h : ContentHash) (value : Bytes) :
    wlp (ValueStore.writeBlobDurable h value).run (fun r s' => match r with
      | .ok _ => ¬ BlobFails s s.tick value ∧ Asked 8 s s'
      | .error _ => BlobFails s s.tick value) s := by
  simp only [ValueStore.writeBlobDurable, wlp_run_seq, lift, wlp_run_lift, wlp_ioAct]
  have hfails : ∀ {i : Nat} {s' : NsState}, Asked i s s' → i ∈ [0, 1, 3, 4, 6, 7] →
      (s'.fault s'.tick).isSome = true → BlobFails s s.tick value := by
    intro i s' ha hi hf
    exact .inl ⟨i, hi, by rwa [← Nat.add_zero s'.tick, ha.at] at hf⟩
  have ha₀ : Asked 0 s s := ⟨rfl, rfl, rfl, rfl⟩
  refine wlp_io (fun hf _ _ _ _ => hfails ha₀ (by simp) hf) fun h₀ s₁ ha₁ hd₁ => ?_
  obtain ⟨ino, hino, hdir⟩ := openBlob_ok h (d := s₁.disk) (by rw [hd₁])
  simp only [Except.mapError, onOk_ok]
  refine wlp_io (fun hf _ _ _ _ => hfails ha₁ (by simp) hf) fun h₁ s₂ ha₂ hd₂ => ?_
  replace ha₂ := ha₁.trans ha₂
  rw [← hd₂] at hdir
  simp only [hino, onOk_ok]
  refine wlp_writeAllAt (fun hf _ _ => ?_) fun h₃ hsize s₃ ha₃ hd₃ => ?_
  · exact hf.imp (fun hf => ⟨3, by simp, by rwa [ha₂.at] at hf⟩) fun hsize => by
      rwa [Nat.zero_add] at hsize
  have h₃' := h₃
  rw [ha₂.at] at h₃'
  replace ha₃ := ha₂.trans ha₃
  replace hdir : s₃.disk.valuesDir = true := by rw [hd₃]; exact hdir
  simp only [onOk_ok]
  refine wlp_io (fun hf _ _ _ _ => hfails ha₃ (by simp) hf) fun h₄ s₄ ha₄ hd₄ => ?_
  replace ha₄ := ha₃.trans ha₄
  rw [← show s₄.disk = s₃.disk from hd₄] at hdir
  simp only [onOk_ok]
  refine wlp_io_unnoticed (fun _ => rfl) fun _ s₅ ha₅ hd₅ => ?_
  replace ha₅ := ha₄.trans ha₅
  rw [← hd₅] at hdir
  refine wlp_io (fun hf _ _ _ _ => hfails ha₅ (by simp) hf) fun h₆ s₆ ha₆ hd₆ => ?_
  replace ha₆ := ha₅.trans ha₆
  simp only [hdir, if_true, onOk_ok]
  refine wlp_io (fun hf _ _ _ _ => hfails ha₆ (by simp) hf) fun h₇ s₇ ha₇ _ => ⟨?_, ha₆.trans ha₇⟩
  rw [← Nat.add_zero s₁.tick, ha₁.at] at h₁
  rw [← Nat.add_zero s₃.tick, ha₃.at] at h₄
  rw [← Nat.add_zero s₅.tick, ha₅.at] at h₆
  rw [← Nat.add_zero s₆.tick, ha₆.at] at h₇
  rintro (⟨i, hi, hf⟩ | hbig)
  · simp only [List.mem_cons, List.not_mem_nil, or_false] at hi
    rcases hi with rfl | rfl | rfl | rfl | rfl | rfl <;> simp_all
  · rw [Nat.zero_add] at hsize
    exact Nat.not_lt.mpr hsize hbig

end requests

/-! ## What a put needs before its commit -/

/-- Faults to come, configuration, active file and index. -/
def settings (s : NsState) : (Nat → Option Nat) × LogConfig × LogFile × NsIndex :=
  (s.fault, s.config, s.active, s.index)

instance : Blind settings where
  io _ _ _ _ _ := rfl
  refs _ _ _ := rfl
  files _ _ _ _ := rfl

instance : BlindBlobs settings := ⟨fun _ _ => rfl⟩

instance : BlindStamp settings := ⟨fun _ _ _ => rfl⟩

/-- The same with what requests change. -/
def progress (s : NsState) :
    ((Nat → Option Nat) × LogConfig × LogFile × NsIndex)
      × Nat × (Nat → FileCell) × Std.ExtTreeMap ContentHash Nat :=
  (settings s, s.tick, s.cells, s.refs)

instance : BlindStripes progress := ⟨fun _ _ => rfl⟩

instance : BlindBlobs progress := ⟨fun _ _ => rfl⟩

instance : BlindStamp progress := ⟨fun _ _ _ => rfl⟩

/-- Between the start of a put in `s` and its append: `t` is the number of the next request, and
the contents `seen` have got blobs. -/
structure Preparing (s : NsState) (seen : List ContentHash) (t : Nat) (s₁ : NsState) : Prop where
  same : Same settings s s₁
  tick : s₁.tick = t
  cells : s₁.cells = s.cells
  refs : ∀ h, ValueStore.refcount s₁ h = 0 ↔ ValueStore.refcount s h = 0 ∧ h ∉ seen

section preparing
variable {α : Type} {s s₁ s₂ : NsState} {seen : List ContentHash} {t : Nat}

theorem wlp_calm {N : Point → Prop} {V : Type} {π : NsState → V} {p : Task α} (h : Calm N π p)
    {Q : α → NsState → Prop} (hp : ∀ r s', Same π s s' → Q r s') : wlp p Q s :=
  fun r s' hrun => hp r s' (Prog.Within.run Same.refl Same.trans h s r s' hrun)

theorem wlp_and {p : Task α} {Q Q' : α → NsState → Prop} (h : wlp p Q s) (h' : wlp p Q' s) :
    wlp p (fun r s' => Q r s' ∧ Q' r s') s := fun r s' hrun => ⟨h r s' hrun, h' r s' hrun⟩

theorem Preparing.refl (s : NsState) : Preparing s [] s.tick s := ⟨rfl, rfl, rfl, by simp⟩

theorem Preparing.calm (h : Preparing s seen t s₁) (hp : Same progress s₁ s₂) :
    Preparing s seen t s₂ := by
  have hsame : Same settings s₁ s₂ := congrArg Prod.fst hp
  have htick : s₂.tick = s₁.tick := congrArg (fun v => v.2.1) hp
  have hcells : s₂.cells = s₁.cells := congrArg (fun v => v.2.2.1) hp
  have hrefs : s₂.refs = s₁.refs := congrArg (fun v => v.2.2.2) hp
  refine ⟨h.same.trans hsame, htick.trans h.tick, hcells.trans h.cells, fun c => ?_⟩
  rw [ValueStore.refcount, hrefs]
  exact h.refs c

theorem Preparing.fault (h : Preparing s seen t s₁) : s₁.fault = s.fault := congrArg Prod.fst h.same

theorem Preparing.config (h : Preparing s seen t s₁) : s₁.config = s.config :=
  congrArg (fun v => v.2.1) h.same

theorem Preparing.active (h : Preparing s seen t s₁) : s₁.active = s.active :=
  congrArg (fun v => v.2.2.1) h.same

theorem Preparing.index (h : Preparing s seen t s₁) : s₁.index = s.index :=
  congrArg (fun v => v.2.2.2) h.same

theorem Preparing.blobFails (h : Preparing s seen t s₁) (v : Bytes) :
    BlobFails s₁ s₁.tick v ↔ BlobFails s t v := by
  simp only [BlobFails, h.fault, h.tick]

/-- A reference to a content has been taken. -/
theorem Preparing.takeRef (hp : Preparing s seen t s₁) (h : ContentHash) {seen' : List ContentHash}
    (hseen : ∀ c, ValueStore.refcount s c = 0 ∧ c ∉ seen'
      ↔ c ≠ h ∧ ValueStore.refcount s c = 0 ∧ c ∉ seen) :
    Preparing s seen' t (ValueStore.takeRef h s₁).2 := by
  refine ⟨hp.same, hp.tick, hp.cells, fun c => ?_⟩
  rw [refcount_takeRef, hseen c]
  by_cases hc : c = h
  · simp [hc]
  · rw [List.count_eq_zero_of_not_mem (by simpa using hc), Nat.add_zero, hp.refs c]
    simp [hc]

theorem Preparing.valuePut (P : Prims) (v : Bytes) (hp : Preparing s seen t s₁) :
    wlp (ValueStore.put P v).run (fun r s₂ => match r with
      | .ok h => h = P.contentHash v ∧ if ValueStore.refcount s h = 0 ∧ h ∉ seen
          then ¬ BlobFails s t v ∧ Preparing s (h :: seen) (t + 8) s₂ else Preparing s seen t s₂
      | .error _ => ValueStore.refcount s (P.contentHash v) = 0 ∧ P.contentHash v ∉ seen
          ∧ BlobFails s t v) s₁ := by
  simp only [ValueStore.put, wlp_run_seq, lift, wlp_run_lift]
  refine wlp_calm (N := fun _ => True) (π := progress) (calm_lockFile _) fun _ s₂ hs =>
    wlp_guarded.mpr ?_
  replace hp := hp.calm hs
  simp only [wlp_run_seq, wlp_run_lift, wlp_step]
  set h := P.contentHash v with hh
  by_cases hfirst : ValueStore.refcount s₂ h = 0
  · have hnew := (hp.refs h).mp hfirst
    have htrue : (ValueStore.takeRef h s₂).1 = true := by simp [ValueStore.takeRef, hfirst]
    have htaken : Preparing s (h :: seen) t (ValueStore.takeRef h s₂).2 :=
      hp.takeRef h fun c => by rw [List.mem_cons, not_or, and_left_comm]
    rw [htrue, onOk_ok, if_pos rfl]
    refine (wlp_run_seq ..).mpr ?_
    have hwrite := wlp_and (wlp_writeBlobDurable h v) (wlp_calm (N := fun _ => True) (π := settings)
      (calm_writeBlobDurable h v) (s := (ValueStore.takeRef h s₂).2) (Q := fun _ => Same settings _)
      fun _ _ h => h)
    refine (wlp_seq ..).mpr (wlp_mono hwrite fun r s₃ hr => ?_)
    obtain ⟨hr, hs₃⟩ := hr
    cases r with
    | ok _ =>
      obtain ⟨hok, ha⟩ := hr
      rw [htaken.blobFails] at hok
      refine (wlp_ret ..).mpr ((wlp_run_pure ..).mpr ⟨rfl, ?_⟩)
      rw [if_pos hnew]
      have hstored : Preparing s (h :: seen) (t + 8) s₃ := by
        refine ⟨htaken.same.trans hs₃,
          by rw [ha.tick, htaken.tick], ha.cells.trans htaken.cells, fun c => ?_⟩
        rw [ValueStore.refcount, ha.refs]
        exact htaken.refs c
      exact ⟨hok, hstored.calm rfl⟩
    | error e =>
      rw [htaken.blobFails] at hr
      exact (wlp_ret _ _ _).mpr ⟨hnew.1, hnew.2, hr⟩
  · have hfalse : (ValueStore.takeRef h s₂).1 = false := by simp [ValueStore.takeRef, hfirst]
    have hold : ¬ (ValueStore.refcount s h = 0 ∧ h ∉ seen) := fun hn => hfirst ((hp.refs h).mpr hn)
    rw [hfalse, onOk_ok, if_neg Bool.false_ne_true]
    refine (wlp_run_pure ..).mpr ⟨rfl, ?_⟩
    rw [if_neg hold]
    have htaken : Preparing s seen t (ValueStore.takeRef h s₂).2 :=
      hp.takeRef h fun _ => ⟨fun hc => ⟨fun heq => hold (heq ▸ hc), hc⟩, And.right⟩
    exact htaken.calm rfl

/-- The hash under which a value is stored. -/
def sepHashOf (P : Prims) (s : NsState) (v : Bytes) : Option ContentHash :=
  if s.config.valueSepThreshold ≤ v.length then some (P.contentHash v) else none

theorem Preparing.maybeSeparate (P : Prims) (v : Bytes) (vs : List Bytes)
    (hp : Preparing s seen t s₁) :
    wlp (maybeSeparate P v).run (fun r s₂ => match r with
      | .ok sep => sep = sepHashOf P s v ∧ ∃ seen' t', Preparing s seen' t' s₂
          ∧ ∀ len, Refused s len t (newBlobs P s seen (v :: vs))
          ↔ Refused s len t' (newBlobs P s seen' vs)
      | .error _ => ∀ len, Refused s len t (newBlobs P s seen (v :: vs))) s₁ := by
  simp only [BeyondKv.maybeSeparate, wlp_run_seq, lift, wlp_run_lift, wlp_gets]
  rw [onOk_ok, hp.config]
  by_cases hsep : s.config.valueSepThreshold ≤ v.length
  · rw [if_pos hsep]
    refine (wlp_run_seq ..).mpr (wlp_mono (hp.valuePut P v) fun r s₂ hr => ?_)
    cases r with
    | ok h =>
      obtain ⟨rfl, hr⟩ := hr
      refine (wlp_run_pure ..).mpr ⟨by rw [sepHashOf, if_pos hsep], ?_⟩
      by_cases hnew : ValueStore.refcount s (P.contentHash v) = 0 ∧ P.contentHash v ∉ seen
      · rw [if_pos hnew] at hr
        refine ⟨_, _, hr.2, fun len => ?_⟩
        rw [newBlobs, if_pos ⟨hsep, hnew⟩, Refused]
        exact or_iff_right hr.1
      · rw [if_neg hnew] at hr
        refine ⟨_, _, hr, fun len => ?_⟩
        rw [newBlobs, if_neg fun h => hnew h.2]
    | error e =>
      intro len
      rw [newBlobs, if_pos ⟨hsep, hr.1, hr.2.1⟩]
      exact .inl hr.2.2
  · rw [if_neg hsep]
    refine (wlp_run_pure ..).mpr ⟨by rw [sepHashOf, if_neg hsep], _, _, hp, fun len => ?_⟩
    rw [newBlobs, if_neg fun h => hsep h.1]

theorem wlp_encodeOp (P : Prims) (buf : Bytes) (tstamp : UInt64) (key value m : Bytes)
    (x : Option UInt64) :
    wlp (encodeOp P buf tstamp (.put key (storedOf value (sepHashOf P s value)) m x)).run
      (fun r s' => s' = s₁ ∧ match r with
        | .ok out => out.length = buf.length + putLen s key value m
        | .error e => ∀ io, e ≠ .io io) s₁ := by
  refine (wlp_ret _ _ _).mpr ⟨rfl, ?_⟩
  unfold encodeInto
  split_ifs
  · simp only [List.length_append, putLen, sepHashOf, LogOp.key, LogOp.value,
      LogOp.metadata, payload]
    split
    · simp only [storedOf, Stored.bytes, Vector.length_toList, Bytes.length_ofU64,
        Bytes.length_leBytes, headerLen,
        List.length_singleton]
      omega
    · simp only [storedOf, Stored.bytes, Bytes.length_ofU64, Bytes.length_leBytes, headerLen,
        List.length_singleton]
      omega
  · exact fun io h => by cases h

theorem Preparing.append {buf : Bytes} (hp : Preparing s seen t s₁) :
    wlp (s₁.active.append buf).run (fun r _ => match r with
      | .ok _ => ¬ AppendFails s t buf.length
      | .error _ => AppendFails s t buf.length) s₁ := by
  simp only [LogFile.append, wlp_run_seq, lift, wlp_run_lift, wlp_gets, onOk_ok]
  have hcell : s₁.cells s₁.active.ino = s.cells s.active.ino := by rw [hp.cells, hp.active]
  by_cases hpoison : (s₁.cells s₁.active.ino).poisoned = true
  · rw [if_pos hpoison]
    refine (wlp_run_seq ..).mpr ((wlp_ret _ _ _).mpr ?_)
    exact .inl (hcell ▸ hpoison)
  · rw [if_neg hpoison]
    simp only [wlp_run_seq, wlp_run_lift, wlp_step, onOk_ok]
    have hres : (LogFile.reserve s₁.active buf.length s₁).1 = s.active.writeOffset s := by
      rw [LogFile.writeOffset, ← hcell]
      rfl
    have hfault : (LogFile.reserve s₁.active buf.length s₁).2.fault
        ((LogFile.reserve s₁.active buf.length s₁).2.tick + 1) = s.fault (t + 1) := by
      rw [← hp.fault, ← hp.tick]
      rfl
    rw [hres]
    refine wlp_writeAllAt (fun hf e s₂ => ?_) fun hf hsize s₂ _ _ => ?_
    · rw [hfault] at hf
      exact (wlp_ret _ _ _).mpr (.inr hf)
    · rw [hfault] at hf
      refine (wlp_ret _ _ _).mpr ?_
      rintro (hp' | hf' | hbig)
      · exact hpoison (hcell ▸ hp')
      · rw [hf] at hf'
        cases hf'
      · exact Nat.not_lt.mpr hsize hbig

theorem Preparing.appendOrUnref {buf : Bytes} {hs : List ContentHash} (hp : Preparing s seen t s₁) :
    wlp (appendOrUnref s₁.active buf hs).run (fun r _ => match r with
      | .ok _ => ¬ AppendFails s t buf.length
      | .error _ => AppendFails s t buf.length) s₁ := by
  refine (wlp_seq ..).mpr (wlp_mono hp.append fun r s₂ hr => ?_)
  cases r <;> exact (wlp_ret _ _ _).mpr hr

end preparing

/-! ## Puts -/

section puts
variable {α β : Type} {s s₁ : NsState} {seen : List ContentHash} {t : Nat}

/-- After an I/O error the index is in `D`. -/
def IoLeaves (D : NsIndex → Prop) (r : Except EngineError α) (s' : NsState) : Prop :=
  ∀ e, r = .error (.io e) → D s'.index

/-- An I/O error that was foretold has left the index of `s`; after any other a revision shows
that is new. -/
def Reported (refused : Prop) (s : NsState) (i : NsIndex) : Prop :=
  (refused ∧ i = s.index)
    ∨ (¬ refused ∧ ∃ k entry, i.get k = some entry ∧ s.lastTstamp < entry.tstampMs)

theorem wlp_then {p : Act α} {f : α → Act β} {Q : Except EngineError α → NsState → Prop}
    {Q' : Except EngineError β → NsState → Prop} (hc : Calm (fun _ => True) settings p.run)
    (h : wlp p.run Q s₁) (herr : ∀ e s₂, Same settings s₁ s₂ → Q (.error e) s₂ → Q' (.error e) s₂)
    (hok : ∀ a s₂, Q (.ok a) s₂ → wlp (f a).run Q' s₂) : wlp (p >>= f).run Q' s₁ := by
  refine (wlp_run_seq ..).mpr (wlp_mono (wlp_and (wlp_calm hc fun _ _ h => h) h) fun r s₂ hr => ?_)
  cases r with
  | error e => exact herr e s₂ hr.1 hr.2
  | ok a => exact hok a s₂ hr.2

/-- A revision is drawn while a put is prepared. -/
theorem Preparing.nextTstamp {n : Nat} (hp : Preparing s seen t s₁)
    (hle : s.lastTstamp ≤ s₁.lastTstamp)
    (hroom : Headroom (n + 1) s₁) :
    wlp nextTstamp (fun tstamp s₂ => Preparing s seen t s₂ ∧ s.lastTstamp < tstamp
      ∧ s.lastTstamp ≤ s₂.lastTstamp ∧ Headroom n s₂) s₁ := by
  refine wlp_mono (wlp_and (wlp_nextTstamp hroom) (wlp_calm (N := fun _ => True) (π := progress)
    (Q := fun _ => Same progress s₁) calm_nextTstamp fun _ _ h => h)) fun tstamp s₂ h => ?_
  obtain ⟨⟨hlt, -, hlast, -, hroom'⟩, hs⟩ := h
  have hlt' := UInt64.lt_of_le_of_lt hle hlt
  exact ⟨hp.calm hs, hlt', hlast ▸ UInt64.le_of_lt hlt', hroom'⟩

/-- The append, the commit that shows in the index, and the rotation behind it. -/
theorem Preparing.commit (P : Prims) {refused : Prop} {buf : Bytes} {hs : List ContentHash}
    {es : List Effect}
    {f : LogFile → Nat → NsState → NsState} {a : α} (hp : Preparing s seen t s₁)
    (hrefused : refused ↔ AppendFails s t buf.length)
    (hnew : ∀ active offset s', ∃ k entry, (f active offset s').index.get k = some entry
      ∧ s.lastTstamp < entry.tstampMs) :
    wlp (do
      lift (Prog.at_ .reserve)
      let active ← lift (Prog.gets NsState.active)
      let offset ← BeyondKv.appendOrUnref active buf hs
      lift (countAppend active offset buf.length)
      lift (Prog.at_ (.effect es))
      lift (Prog.modify (f active offset))
      rotateIfFull P active
      return a : Act α).run (IoLeaves (Reported refused s)) s₁ := by
  refine (wlp_run_seq ..).mpr ((wlp_ret _ _ _).mpr ((wlp_run_seq ..).mpr ((wlp_ret _ _ _).mpr ?_)))
  refine wlp_then (calm_appendOrUnref _ buf hs) hp.appendOrUnref ?_ fun offset s₂ hr => ?_
  · intro e s₂ hs hr io _
    exact .inl ⟨hrefused.mpr hr, (congrArg (fun v => v.2.2.2) hs).trans hp.index⟩
  refine (wlp_run_seq ..).mpr ((wlp_run_lift ..).mpr fun _ s₃ _ => ?_)
  refine (wlp_run_seq ..).mpr ((wlp_ret _ _ _).mpr ((wlp_run_seq ..).mpr ((wlp_ret _ _ _).mpr ?_)))
  have hcalm :
    Calm (fun _ => True) NsState.index (do rotateIfFull P s₁.active; return a : Act α).run :=
    .run_seq (calm_rotateIfFull P _) fun _ => trivial
  refine wlp_calm hcalm fun r s₄ hs io _ => .inr ⟨fun h => hr (hrefused.mp h), ?_⟩
  obtain ⟨k, entry, hk, hlt⟩ := hnew s₁.active offset s₃
  exact ⟨k, entry, (congrArg (fun i => NsIndex.get i k) hs).trans hk, hlt⟩

theorem Preparing.commitPut (P : Prims) (key value m : Bytes) (x : Option UInt64)
    (hp : Preparing s [] s.tick s₁) (hle : s.lastTstamp ≤ s₁.lastTstamp) (hroom : Headroom 1 s₁) :
    wlp (commitPut P key value m x).run
      (IoLeaves (Reported (Refused s (putLen s key value m) s.tick (newBlobs P s [] [value])) s))
      s₁ := by
  refine (wlp_run_seq ..).mpr ((wlp_run_lift ..).mpr (wlp_mono (hp.nextTstamp hle hroom) ?_))
  rintro tstamp s₂ ⟨hp₂, hlt, -, -⟩
  refine wlp_then (calm_maybeSeparate P value) (hp₂.maybeSeparate P value []) ?_ ?_
  · intro e s₃ hs hrefused io _
    exact .inl ⟨hrefused _, (congrArg (fun v => v.2.2.2) hs).trans hp₂.index⟩
  rintro sep s₃ ⟨rfl, seen', t', hp₃, hiff⟩
  refine wlp_then (calm_encodeOp P _ _ _) (wlp_encodeOp P [] tstamp key value m x) ?_ ?_
  · rintro e s₄ - ⟨-, hio⟩ io he
    exact absurd (Except.error.inj he) (hio io)
  · rintro buf s₄ ⟨rfl, hlen⟩
    refine hp₃.commit P (f := fun active offset => commitEntry key
      (IndexEntry.new active.fileId offset buf.length tstamp) x (sepHashOf P s value)) ?_
      fun active offset s' => ?_
    · rw [hiff, hlen, List.length_nil, Nat.zero_add]
      rfl
    · refine ⟨key, IndexEntry.new active.fileId offset buf.length tstamp, ?_, hlt⟩
      have hindex : (commitEntry key (IndexEntry.new active.fileId offset buf.length tstamp) x
          (sepHashOf P s value) s').index = _ := same_unref? (π := NsState.index) _ _
      rw [hindex]
      simp [NsState.setIndex]

theorem Preparing.encodeBatch (P : Prims) (pairs : List (Bytes × Bytes)) (buf : Bytes)
    (hp : Preparing s seen t s₁) (hle : s.lastTstamp ≤ s₁.lastTstamp)
    (hroom : Headroom pairs.length s₁) :
    wlp (encodeBatch P pairs buf).run (fun r s₂ => match r with
      | .ok (out, items) => (∃ seen' t', Preparing s seen' t' s₂ ∧ ∀ len,
            Refused s len t (newBlobs P s seen (pairs.map Prod.snd)) ↔ AppendFails s t' len)
          ∧ out.length = buf.length + (pairs.map fun p => putLen s p.1 p.2 []).sum
          ∧ items.length = pairs.length ∧ ∀ it ∈ items, s.lastTstamp < it.tstamp
      | .error e =>
        ∀ io, e = .io io → ∀ len, Refused s len t (newBlobs P s seen (pairs.map Prod.snd))) s₁ := by
  induction pairs generalizing buf seen t s₁ with
  | nil => exact (wlp_run_pure ..).mpr ⟨⟨seen, t, hp, fun _ => Iff.rfl⟩, rfl, rfl, by simp⟩
  | cons pair pairs ih =>
    obtain ⟨k, v⟩ := pair
    refine (wlp_run_seq ..).mpr ((wlp_run_lift ..).mpr (wlp_mono (hp.nextTstamp hle hroom) ?_))
    rintro tstamp s₂ ⟨hp₂, hlt, hle₂, hroom₂⟩
    refine wlp_then (calm_maybeSeparate P v) (wlp_and (hp₂.maybeSeparate P v (pairs.map Prod.snd))
      (Stampless.wlp (calm_maybeSeparate P v) s₂)) ?_ ?_
    · exact fun e s₃ _ h io _ len => h.1 len
    rintro sep s₃ ⟨⟨rfl, seen₃, t₃, hp₃, hiff⟩, hu⟩
    refine wlp_then (calm_encodeOp P _ _ _) (wlp_encodeOp P buf tstamp k v [] none) ?_ ?_
    · rintro e s₄ - ⟨-, hio⟩ io rfl
      exact absurd rfl (hio io)
    rintro buf' s₄ ⟨rfl, hlen⟩
    refine wlp_then (calm_encodeBatch P pairs buf')
      (ih buf' hp₃ (hu.last ▸ hle₂) (hroom₂.unstamped hu)) ?_ ?_
    · exact fun e s₅ _ h io he len => (hiff len).mpr (h io he len)
    rintro ⟨out, items⟩ s₅ ⟨⟨seen', t', hp', hiff'⟩, hout, hcount, hnew⟩
    refine (wlp_run_pure ..).mpr
      ⟨⟨seen', t', hp', fun len => (hiff len).trans (hiff' len)⟩, ?_, ?_, ?_⟩
    · rw [hout, hlen, List.map_cons, List.sum_cons, Nat.add_assoc]
    · rw [List.length_cons, List.length_cons, hcount]
    · rintro it hit
      rcases List.mem_cons.mp hit with rfl | hit
      · exact hlt
      · exact hnew it hit

/-- The last pair of a batch shows. -/
theorem get_insertItems (fileId base : Nat) {items : List BatchItem} (hne : items ≠ [])
    (acc : NsIndex × List ContentHash) :
    ∃ it ∈ items, (items.foldl (insertItem fileId base) acc).1.get it.key
      = some (IndexEntry.new fileId (base + it.start) it.size it.tstamp) := by
  obtain ⟨init, it, rfl⟩ := (List.eq_nil_or_concat items).resolve_left hne
  refine ⟨it, by simp, ?_⟩
  rw [List.concat_eq_append, List.foldl_append]
  simp [insertItem]

/-! ## Calls -/

/-- The states in which a call that started in `s` holds its locks. -/
structure Entered (s s₁ : NsState) : Prop where
  preparing : Preparing s [] s.tick s₁
  unstamped : Unstamped s s₁

theorem Entered.lock {body : Act α} {D : NsIndex → Prop} {lock : Task Unit} {rs : List Resource}
    {release : NsState → NsState} (h : Entered s s₁) (hlock : Calm (fun _ => True) progress lock)
    (hlock' : Calm (fun _ => True) stamps lock) (hrelease : ∀ s', (release s').index = s'.index)
    (hbody : ∀ s₂, Entered s s₂ → wlp body.run (IoLeaves D) s₂) :
    wlp (do lift lock; guarded rs release body).run (IoLeaves D) s₁ := by
  refine (wlp_run_seq ..).mpr ((wlp_run_lift ..).mpr fun _ s₂ hrun => wlp_guarded.mpr ?_)
  have hs : Same progress s₁ s₂ := Prog.Within.run Same.refl Same.trans hlock s₁ _ s₂ hrun
  have hu : Unstamped s₁ s₂ := Prog.Within.run Same.refl Same.trans hlock' s₁ _ s₂ hrun
  refine wlp_mono (hbody s₂ ⟨h.preparing.calm hs, h.unstamped.trans hu⟩) fun r s₃ hr e he => ?_
  rw [hrelease]
  exact hr e he

theorem wlp_gate {body : Act α} {D : NsIndex → Prop}
    (hbody : ∀ s₁, Entered s s₁ → wlp body.run (IoLeaves D) s₁) :
    wlp (do lift awaitReclaim; beginWrite; guarded [.inFlight] endWrite body).run
        (IoLeaves D) s := by
  have hbegin : ∀ s₁, Entered s s₁ →
      wlp (do beginWrite; guarded [.inFlight] endWrite body).run (IoLeaves D) s₁ := by
    intro s₁ h
    simp only [beginWrite, wlp_run_seq, lift, wlp_run_lift, wlp_gets, onOk_ok]
    cases s₁.frozen with
    | true => exact (wlp_ret _ _ _).mpr fun e he => by cases he
    | false =>
      refine (wlp_ret _ _ _).mpr ?_
      refine wlp_guarded.mpr (wlp_mono (hbody _ ⟨h.preparing.calm rfl, h.unstamped.trans rfl⟩)
        fun r s₃ hr => hr)
  refine (wlp_run_seq ..).mpr ((wlp_run_lift ..).mpr fun _ s₁ hrun => hbegin s₁ ⟨?_, ?_⟩)
  · exact (Preparing.refl s).calm (Prog.Within.run Same.refl Same.trans
      (calm_awaitReclaim (N := fun _ => True) (π := progress)) s _ s₁ hrun)
  · exact Prog.Within.run Same.refl Same.trans
      (calm_awaitReclaim (N := fun _ => True) (π := stamps)) s _ s₁ hrun

theorem leaves_writing (P : Prims) {key : Bytes} {body : Act α} {D : NsIndex → Prop}
    (hbody : ∀ s₁, Entered s s₁ → wlp body.run (IoLeaves D) s₁) :
    wlp (writing P key body).run (IoLeaves D) s :=
  wlp_gate fun _ h => h.lock (calm_lockStripe _) (calm_lockStripe _) (fun _ => rfl) hbody

theorem leaves_map {p : Act α} {D : NsIndex → Prop} (k : α → β) (h : wlp p.run (IoLeaves D) s₁) :
    wlp (p >>= fun a => pure (k a)).run (IoLeaves D) s₁ := by
  refine (wlp_run_seq ..).mpr (wlp_mono h fun r s₂ hr => ?_)
  cases r with
  | error e => exact fun io he => hr io (congrArg Except.error (Except.error.inj he))
  | ok a => exact (wlp_run_pure ..).mpr fun io he => by cases he

theorem leaves_pure {D : NsIndex → Prop} (a : α) : wlp (pure a : Act α).run (IoLeaves D) s₁ :=
  (wlp_run_pure ..).mpr fun io he => by cases he

/-- A step that does not touch the index, and the rest. -/
theorem leaves_after {p : Act α} {f : α → Act β} {D : NsIndex → Prop}
    (hc : Calm (fun _ => True) NsState.index p.run) (hD : D s₁.index)
    (hok : ∀ a s₂, s₂.index = s₁.index → wlp (f a).run (IoLeaves D) s₂) :
    wlp (p >>= f).run (IoLeaves D) s₁ := by
  refine (wlp_run_seq ..).mpr (wlp_calm hc fun r s₂ hs => ?_)
  cases r with
  | error e => exact fun _ _ => hs ▸ hD
  | ok a => exact hok a s₂ hs

variable (P : Prims)

theorem Entered.commitPut (h : Entered s s₁) (hroom : Headroom 1 s) (key value m : Bytes)
    (x : Option UInt64) :
    wlp (commitPut P key value m x).run
      (IoLeaves (Reported (Refused s (putLen s key value m) s.tick (newBlobs P s [] [value])) s))
      s₁ :=
  h.preparing.commitPut P key value m x (h.unstamped.last ▸ UInt64.le_refl _)
    (hroom.unstamped h.unstamped)

theorem leaves_putFull (key value m : Bytes) (x : Option UInt64) (hroom : Headroom 1 s) :
    wlp (Call.act P (.putFull key value m x)).run
      (IoLeaves (Reported (Refused s (putLen s key value m) s.tick (newBlobs P s [] [value])) s))
      s :=
  leaves_map _ (leaves_writing P fun _ h => h.commitPut P hroom key value m x)

theorem leaves_putFullCond (key value m : Bytes) (x : Option UInt64) (cond : WriteCondition)
    (now : UInt64)
    (hroom : Headroom 1 s) : wlp (Call.act P (.putFullCond key value m x cond now)).run
      (IoLeaves (Reported (Refused s (putLen s key value m) s.tick (newBlobs P s [] [value])) s))
      s := by
  refine leaves_map _ (leaves_writing P fun s₁ h => ?_)
  simp only [wlp_run_seq, lift, wlp_run_lift, wlp_gets, onOk_ok]
  split
  · exact leaves_map _ (h.commitPut P hroom key value m x)
  · exact (wlp_run_seq ..).mpr ((wlp_ret _ _ _).mpr (leaves_pure _))

theorem leaves_putMany (pairs : List (Bytes × Bytes)) (hroom : Headroom pairs.length s) :
    wlp (Call.act P (.putMany pairs)).run (IoLeaves (Reported (Refused s
      ((pairs.map fun p => putLen s p.1 p.2 []).sum) s.tick (newBlobs P s [] (pairs.map Prod.snd)))
        s)) s := by
  refine wlp_gate fun s₁ h => ?_
  by_cases hempty : pairs.isEmpty = true
  · rw [if_pos hempty]
    exact (wlp_run_seq ..).mpr ((wlp_ret _ _ _).mpr (leaves_pure _))
  · rw [if_neg hempty]
    refine h.lock (calm_lockStripes _) (calm_lockStripes _) (same_unlockStripes _) fun s₂ h₂ => ?_
    refine wlp_then (calm_encodeBatch P pairs []) (h₂.preparing.encodeBatch P pairs []
      (h₂.unstamped.last ▸ UInt64.le_refl _) (hroom.unstamped h₂.unstamped)) ?_ ?_
    · intro e s₃ hs hr io he
      exact .inl
        ⟨hr io (Except.error.inj he) _, (congrArg (fun v => v.2.2.2) hs).trans h₂.preparing.index⟩
    rintro ⟨buf, items⟩ s₃ ⟨⟨seen, t, hp, hiff⟩, hlen, hcount, hnew⟩
    refine hp.commit P (f := fun active base => commitBatch active.fileId base items) ?_
      fun active base s' => ?_
    · rw [hiff, hlen, List.length_nil, Nat.zero_add]
    · have hne : items ≠ [] := by
        rintro rfl
        exact hempty (List.isEmpty_iff_length_eq_zero.mpr hcount.symm)
      obtain ⟨it, hit, hget⟩ := get_insertItems active.fileId base hne (s'.index, [])
      have hindex : (commitBatch active.fileId base items s').index = _ :=
        same_unrefs (π := NsState.index) _ _
      exact ⟨it.key, _, by rw [hindex]; exact hget, hnew it hit⟩

/-! ### Deletes and expiry updates -/

/-- The key was there, and has been removed. -/
def Removed (key : Bytes) (i j : NsIndex) : Prop := (i.get key).isSome = true ∧ j = (i.remove key).2

theorem Removed.not_agrees {key : Bytes} {i j : NsIndex} (h : Removed key i j) : ¬ j.Agrees i := by
  obtain ⟨hkey, rfl⟩ := h
  intro hagree
  rw [← hagree.get key] at hkey
  simp at hkey

theorem Entered.commitTombstone (h : Entered s s₁) {key : Bytes}
    (hkey : (s.index.get key).isSome = true) :
    wlp (commitTombstone P key).run (IoLeaves (Removed key s.index)) s₁ := by
  refine (wlp_run_seq ..).mpr ((wlp_ret _ _ _).mpr ((wlp_run_seq ..).mpr ((wlp_ret _ _ _).mpr ?_)))
  refine wlp_calm (N := fun _ => True) (π := NsState.index) ?_ fun r s₂ hs io _ => ⟨hkey, ?_⟩
  · exact .run_seq (calm_lift calm_nextTstamp) fun t => .run_seq (calm_encodeOp P _ _ _) fun buf =>
      .run_seq (calm_lift (calm_at .io rfl)) fun _ =>
        .run_seq (calm_lift (calm_gets _)) fun active =>
        .run_seq (calm_append active buf) fun off =>
          .run_seq (calm_lift (calm_countAppend active off _)) fun _ =>
          .run_seq (calm_lift (Prog.within_modify fun s => same_unref? _ s)) fun _ => trivial
  · exact Eq.trans hs (congrArg (fun i => (NsIndex.remove i key).2) h.preparing.index)

theorem leaves_tombstone (key : Bytes) :
    wlp (Call.act P (.tombstone key)).run (IoLeaves (Removed key s.index)) s := by
  refine leaves_map _ (leaves_writing P fun s₁ h => ?_)
  simp only [wlp_run_seq, lift, wlp_run_lift, wlp_gets, onOk_ok, h.preparing.index]
  split
  · next hkey => exact leaves_map _ (h.commitTombstone P hkey)
  · exact (wlp_run_seq ..).mpr ((wlp_ret _ _ _).mpr (leaves_pure _))

theorem isSome_of_liveRev {idx : NsIndex} {key : Bytes} {now rev : UInt64}
    (h : liveRev idx key now = some rev) :
    (idx.get key).isSome = true := by
  unfold liveRev at h
  split at h
  · cases h
  · obtain ⟨entry, hentry, -⟩ := Option.map_eq_some_iff.mp h
    exact Option.isSome_iff_exists.mpr ⟨entry, hentry⟩

theorem leaves_tombstoneCond (key : Bytes) (expectedRev now : UInt64) :
    wlp (Call.act P (.tombstoneCond key expectedRev now)).run
        (IoLeaves (Removed key s.index)) s := by
  refine leaves_map _ (leaves_writing P fun s₁ h => ?_)
  simp only [wlp_run_seq, lift, wlp_run_lift, wlp_gets, onOk_ok, h.preparing.index]
  split
  · next hrev =>
      exact leaves_map _ (h.commitTombstone P (isSome_of_liveRev (of_decide_eq_true hrev)))
  · exact (wlp_run_seq ..).mpr ((wlp_ret _ _ _).mpr (leaves_pure _))

theorem leaves_ttlUpdate (key : Bytes) (x : Option UInt64) :
    wlp (Call.act P (.ttlUpdate key x)).run (IoLeaves (· = s.index)) s := by
  refine leaves_map _ (leaves_writing P fun s₁ h => ?_)
  refine leaves_after (calm_lift calm_nextTstamp) h.preparing.index fun t s₂ h₂ => ?_
  replace h₂ := h₂.trans h.preparing.index
  refine leaves_after (calm_encodeOp P _ _ _) h₂ fun buf s₃ h₃ => ?_
  replace h₃ := h₃.trans h₂
  refine leaves_after (calm_lift (calm_at .io rfl)) h₃ fun _ s₄ h₄ => ?_
  replace h₄ := h₄.trans h₃
  refine leaves_after (calm_lift (calm_gets _)) h₄ fun active s₅ h₅ => ?_
  replace h₅ := h₅.trans h₄
  refine leaves_after (calm_append active buf) h₅ fun offset s₆ h₆ => ?_
  replace h₆ := h₆.trans h₅
  refine leaves_after (calm_lift (calm_countAppend active offset _)) h₆ fun _ s₇ h₇ => ?_
  -- the index changes last, and nothing fails behind it
  refine leaves_after (calm_lift (calm_at .effect rfl)) (h₇.trans h₆) fun _ s₈ _ => ?_
  exact (wlp_run_seq ..).mpr ((wlp_ret _ _ _).mpr (leaves_pure _))

end puts

/-- A write that fails with an I/O error leaves the index as it was exactly if it is an expiry
update, or a put one of whose requests up to the append fails. -/
theorem write_error_atomic_iff (P : Prims) {call : Call} (hwrites : call.Writes = true)
    {s s' : NsState}
    (hrevs : ∀ k entry, s.index.get k = some entry → entry.tstampMs ≤ s.lastTstamp)
    (hroom : Headroom call.draws s) {e : IoError}
    (hend : ends (call.act P).run s = some (.error (.io e), s')) :
    s'.index.Agrees s.index ↔ call.Spares P s := by
  have hput : ∀ {refused : Prop}, wlp (call.act P).run (IoLeaves (Reported refused s)) s →
      (s'.index.Agrees s.index ↔ refused) := by
    intro refused h
    rcases h _ s' hend e rfl with ⟨hrefused, hsame⟩ | ⟨hrefused, k, entry, hk, hlt⟩
    · exact iff_of_true (hsame ▸ .refl _) hrefused
    · refine iff_of_false (fun hagree => ?_) hrefused
      exact absurd (hrevs k entry ((hagree.get k).symm.trans hk)) (UInt64.not_le.mpr hlt)
  cases call with
  | putFull k v m x => exact hput (leaves_putFull P k v m x hroom)
  | putFullCond k v m x cond now => exact hput (leaves_putFullCond P k v m x cond now hroom)
  | putMany pairs => exact hput (leaves_putMany P pairs hroom)
  | tombstone k => exact iff_of_false (leaves_tombstone P k _ s' hend e rfl).not_agrees id
  | tombstoneCond k rev now =>
    exact iff_of_false (leaves_tombstoneCond P k rev now _ s' hend e rfl).not_agrees id
  | ttlUpdate k x =>
    have hsame : s'.index = s.index := leaves_ttlUpdate P k x _ s' hend e rfl
    exact iff_of_true (hsame ▸ .refl _) trivial
  | _ => cases hwrites

def ioError? {α : Type} : Except EngineError α → Option IoError
  | .error (.io e) => some e
  | _ => none

/-- The write of a blob fails, which is the fourth request of a put: the index is as it was. -/
theorem write_error_atomic_iff_blob :
    ∃ s s' e, ends (Call.act realPrims (.putFull [0x61] [0] [] none)).run s
      = some (.error (.io e), s')
      ∧ s'.index.Agrees s.index := by
  let config : LogConfig := { LogConfig.default with valueSepThreshold := 1 }
  let fault : Nat → Option Nat := fun n => if n = 3 then some 0 else none
  have hview : ((openLog realPrims config (fun _ => 100) fault Disk.empty).toOption.bind fun s =>
      (ends (Call.act realPrims (.putFull [0x61] [0] [] none)).run s).map fun x =>
        (ioError? x.1, s.lastTstamp, s.tick, ValueStore.refcount s (realPrims.contentHash [0])))
      = some (some (.other "fault"), 0, 0, 0) := by decide +kernel
  obtain ⟨refs, hlog, -⟩ := openLog_eq config (fun _ => 100) fault (openNamespace_empty realPrims)
  rw [hlog] at hview
  obtain ⟨⟨r, s'⟩, hend, hprops⟩ := Option.map_eq_some_iff.mp hview
  simp only [Prod.mk.injEq] at hprops
  obtain ⟨hr, hlast, htick, hcount⟩ := hprops
  have hio : r = .error (.io (.other "fault")) := by
    unfold ioError? at hr
    split at hr
    · cases hr
      rfl
    · cases hr
  rw [hio] at hend
  refine ⟨_, s', _, hend,
    (write_error_atomic_iff realPrims rfl (fun k entry hk => ?_) ⟨?_, ?_⟩ hend).mpr ?_⟩
  · exact (lastTstamp_freshState config (fun _ => 100) fault).mp (UInt64.le_refl _) k entry hk
  · rw [hlast]
    decide
  · exact fun _ => (by decide : (100 : UInt64).toNat + 1 < 2 ^ 64)
  · rw [Call.Spares, newBlobs, if_pos ⟨Nat.le_refl 1, hcount, List.not_mem_nil⟩, htick]
    exact .inl (.inl ⟨3, by simp, rfl⟩)

/-- A call that fails with an I/O error after other calls on a fresh log: the states before and
after it. -/
def failing (config : LogConfig) (fault : Nat → Option Nat) (calls : List Call) (call : Call) :
    Option (NsState × NsState) := do
  let s₀ ← (openLog realPrims config (fun _ => 100) fault Disk.empty).toOption
  let s ← calls.foldlM (fun s c => (ends (c.act realPrims).run s).map Prod.snd) s₀
  match ← ends (call.act realPrims).run s with
  | (.error (.io _), s') => return (s, s')
  | _ => none

/-- The append of a delete fails, and the key is gone. A put fails in the rotation that it has
started, and the key is there. -/
theorem failed_write_shows :
    (failing .default (fun n => if n = 3 then some 0 else none) [.putFull [0x61] [0] [] none]
      (.tombstone [0x61])).map
        (fun x => ((x.1.index.get [0x61]).isSome, (x.2.index.get [0x61]).isSome))
        = some (true, false)
    ∧ (failing { LogConfig.default with rotateThreshold := 1 }
      (fun n => if n = 3 then some 0 else none) []
        (.putFull [0x61] [0] [] none)).map
        (fun x => ((x.1.index.get [0x61]).isSome, (x.2.index.get [0x61]).isSome))
        = some (false, true) := by
  refine ⟨?_, ?_⟩ <;> decide +kernel

end BeyondKv
