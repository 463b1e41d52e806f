/-
# Concurrent appends to one file

`append` reserves its place before it awaits the write, and writes complete in any order,
also after one of them has failed. So an append may return `Ok` above a place that was
never written or was torn, where `replay_active` stops. What is recovered is what is
acknowledged in turn (`inTurn`): a write fails only while nothing above it is in flight, no
append starts until the failure has been seen and has poisoned the file, and none returns
`Ok` while a write below it is queued.

The places of the file are numbered in the order they are reserved in. The tokens of a task
are its write in the ring, with its place and what has become of it.
-/
import BeyondKv.Namespace
import BeyondKv.Lib.Interleave

namespace BeyondKv

open Async List Multiset

/-! ## What a replay visits -/

/-- The records the scan loops apply, with their offsets. -/
def scanned (P : Prims) (file : Bytes) : Nat → Nat → List (Nat × RecordHeader × Bytes)
  | 0, _ => []
  | fuel + 1, offset =>
    if offset < file.length then
      match scanRecord P file offset with
      | none => []
      | some (hdr, body) => (offset, hdr, body) :: scanned P file fuel (offset + hdr.recordLen)
    else []

/-- The records `replay_active` applies. -/
def replayed (P : Prims) (file : Bytes) : List (Nat × RecordHeader × Bytes) :=
  scanned P file (file.length + 1) 0

/-- Records laid end to end from `offset`. -/
def laidAt (P : Prims) : Nat → List Rec → List (Nat × RecordHeader × Bytes)
  | _, [] => []
  | offset, r :: rs => (offset, r.header P, r.body) :: laidAt P (offset + (r.bytes P).length) rs

/-- A replay of the file comes to these records. -/
def Recovered (P : Prims) (file : Bytes) (offset : Nat) (rs : List Rec) : Prop :=
  laidAt P offset rs <:+: replayed P file

instance (P : Prims) (file : Bytes) (offset : Nat) (rs : List Rec) :
    Decidable (Recovered P file offset rs) := inferInstanceAs (Decidable (_ <:+: _))

section replay
variable {P : Prims} {file : Bytes}

/-- A scan loop applies what it visits, and nothing else. -/
theorem scanLoop_eq_foldl (fileId fuel offset : Nat) (index : NsIndex) :
    (scanLoop P file fileId fuel offset index).1
      = (scanned P file fuel offset).foldl
      (fun i x => applyRecord i fileId x.1 x.2.1 x.2.2) index := by
  induction fuel generalizing offset index with
  | zero => rfl
  | succ fuel ih =>
    unfold scanLoop scanned
    split_ifs
    · cases scanRecord P file offset with
      | none => rfl
      | some x => exact ih _ _
    · rfl

/-- A scan that has come to written records visits them. -/
theorem scanned_recs (rs : List Rec) (pre tail : Bytes) (fuel : Nat)
    (hfuel : (pre ++ recsBytes P rs ++ tail).length < fuel + pre.length) :
    ∃ rest, scanned P (pre ++ recsBytes P rs ++ tail) fuel pre.length
      = laidAt P pre.length rs ++ rest := by
  induction rs generalizing pre fuel with
  | nil => exact ⟨_, rfl⟩
  | cons r rs ih =>
    have hfile : pre ++ recsBytes P (r :: rs) ++ tail
        = (pre ++ r.bytes P) ++ recsBytes P rs ++ tail := by simp
    have hscan := scanRecord_bytes P pre (recsBytes P rs ++ tail) r
    rw [← append_assoc] at hscan
    have hpos := r.length_bytes_pos P
    rw [hfile] at hfuel ⊢
    have hlen : ((pre ++ r.bytes P) ++ recsBytes P rs ++ tail).length
        = pre.length + (r.bytes P).length + (recsBytes P rs).length + tail.length := by
      simp only [length_append]
    obtain ⟨m, rfl⟩ : ∃ m, fuel = m + 1 := ⟨fuel - 1, by omega⟩
    obtain ⟨rest, hrest⟩ := ih (pre ++ r.bytes P) m
      (by rw [hlen, length_append] at *; omega)
    refine ⟨rest, ?_⟩
    rw [scanned, if_pos (by omega), hscan]
    simp only [r.recordLen_header, laidAt, cons_append]
    rw [← length_append, hrest]

theorem laidAt_append (offset : Nat) (rs rs' : List Rec) :
    laidAt P offset (rs ++ rs') = laidAt P offset rs
        ++ laidAt P (offset + (recsBytes P rs).length) rs' := by
  induction rs generalizing offset with
  | nil => rfl
  | cons r rs ih => simp [laidAt, ih, Nat.add_assoc]

/-- Records are recovered when there are but records below them. -/
theorem recovered_of_take {rs rs' : List Rec}
    (h : file.take (recsBytes P (rs ++ rs')).length = recsBytes P (rs ++ rs')) :
    Recovered P file (recsBytes P rs).length rs' := by
  have hfile :
      file = [] ++ recsBytes P (rs ++ rs') ++ file.drop (recsBytes P (rs ++ rs')).length := by
    conv_lhs => rw [← take_append_drop (recsBytes P (rs ++ rs')).length file, h]
    rfl
  obtain ⟨rest, hrest⟩ :=
    scanned_recs (P := P) (rs ++ rs') [] (file.drop (recsBytes P (rs ++ rs')).length)
    (file.length + 1) (by rw [← hfile, length_nil]; omega)
  rw [← hfile, length_nil] at hrest
  refine ⟨laidAt P 0 rs, rest, ?_⟩
  rw [replayed, hrest, laidAt_append, Nat.zero_add]

end replay

/-! ## Appends and their acknowledgements -/

/-- A client that appends records. -/
def appender (P : Prims) (f : LogFile) (rs : List Rec) : Task Unit := do
  Prog.at_ .reserve
  match ← (f.append (recsBytes P rs)).run with
  | .ok offset => Prog.at_ (.acked offset (recsBytes P rs))
  | .error _ => return ()

/-- The appends that have returned `Ok`, and the places whose write has failed. -/
structure Outcomes where
  acked : List (Nat × Bytes)
  torn : List (Nat × Nat)
  deriving DecidableEq

/-- The kernel is about to fail this write. -/
def WriteFails (s : NsState) (offset len : Nat) : Prop :=
  (s.fault s.tick).isSome = true ∨ maxFileSize < offset + len

instance (s : NsState) (offset len : Nat) : Decidable (WriteFails s offset len) :=
  inferInstanceAs (Decidable (_ ∨ _))

def noteAppend : Point → NsState → Outcomes → Outcomes
  | .acked offset data, _, g => { g with acked := (offset, data) :: g.acked }
  | .write offset len, s, g =>
    if WriteFails s offset len then { g with torn := (offset, len) :: g.torn } else g
  | _, _, g => g

/-- No append begins while a failed write has not been seen, a write fails only if no other
above it is in flight, and an append returns only if the kernel has taken every write below it. -/
def inTurn (ino : Nat) : Discipline NsState Point Outcomes where
  note := noteAppend
  allows
    | .reserve, g, s => ∀ v ∈ s.ring, v.ino = ino → (v.offset, v.data.length) ∉ g.torn
    | .write offset len, _, s =>
      WriteFails s offset len → ∀ v ∈ s.ring, v.ino = ino → v.offset < offset + len
    | .acked offset _, _, s =>
      ∀ v ∈ s.ring, v.ino = ino → v.offset < offset → v.taken = true
    | _, _, _ => True

/-! ## The ring -/

section ring
variable {w : PendingWrite} {F : Multiset PendingWrite} {ring : List PendingWrite}

theorem takePending_own (hring : (ring : Multiset PendingWrite) = w ::ₘ F)
    (hreq : ∀ v ∈ F, v.req ≠ w.req) :
    (takePending w.req ring : Multiset PendingWrite) = { w with taken := true } ::ₘ F := by
  have hmap : (takePending w.req ring : Multiset PendingWrite)
      = (ring : Multiset PendingWrite).map
          fun v => if v.req = w.req then { v with taken := true } else v := rfl
  have hF : F.map (fun v => if v.req = w.req then { v with taken := true } else v) = F := by
    conv_rhs => rw [← Multiset.map_id F]
    exact Multiset.map_congr rfl fun v hv => if_neg (hreq v hv)
  rw [hmap, hring, Multiset.map_cons, hF, if_pos rfl]

theorem reapPending_own (hring : (ring : Multiset PendingWrite) = w ::ₘ F)
    (hreq : ∀ v ∈ F, v.req ≠ w.req) : (reapPending w.req ring : Multiset PendingWrite) = F := by
  have hfilter : (reapPending w.req ring : Multiset PendingWrite)
      = (ring : Multiset PendingWrite).filter fun v => v.req ≠ w.req := by
    rw [filter_coe]
    rfl
  rw [hfilter, hring, Multiset.filter_cons_of_neg _ (by simp), Multiset.filter_eq_self.mpr hreq]

end ring

/-- A write elsewhere leaves bytes that are there. -/
theorem slice_writeAt_apart {b d data : Bytes} {o off : Nat} (h : Bytes.slice b o d.length = d)
    (hap : o + d.length ≤ off ∨ off + data.length ≤ o) :
    Bytes.slice (Bytes.writeAt b off data) o d.length = d := by
  rcases Nat.eq_zero_or_pos d.length with hz | hpos
  · rw [length_eq_zero_iff.mp hz]
    exact take_zero
  · have hl := congrArg List.length h
    rw [Bytes.length_slice] at hl
    rcases hap with hap | hap
    · rw [Bytes.slice_writeAt_before data hap (by omega), h]
    · rw [Bytes.slice_writeAt_after data hap, h]

/-- What one write can do to its file: nothing, or put bytes into its place. -/
def PendingWrite.Wrote (w : PendingWrite) (file file' : Bytes) : Prop :=
  file' = file ∨ ∃ data : Bytes, data.length ≤ w.data.length
    ∧ file' = Bytes.writeAt file w.offset data

theorem PendingWrite.Wrote.slice {w : PendingWrite} {file file' d : Bytes} {o : Nat}
    (h : w.Wrote file file')
    (hd : Bytes.slice file o d.length = d)
    (hap : o + d.length ≤ w.offset ∨ w.offset + w.data.length ≤ o) :
    Bytes.slice file' o d.length = d := by
  rcases h with rfl | ⟨data, hlen, rfl⟩
  · exact hd
  · exact slice_writeAt_apart hd (hap.imp_right (Nat.le_trans (Nat.add_le_add_left hlen _)))

/-! ## Places -/

/-- What has become of a place. -/
inductive Fate where
  | queued
  | done
  | torn
  deriving DecidableEq

/-- The places that have been reserved behind the records the file began with, in order. -/
structure Places where
  count : Nat
  recs : Nat → List Rec
  fate : Nat → Fate

/-- A write in the ring. -/
structure Placed where
  place : Nat
  write : PendingWrite
  fate : Fate

/-- The records below place `i`. -/
def laid (rs₀ : List Rec) (recs : Nat → List Rec) : Nat → List Rec
  | 0 => rs₀
  | i + 1 => laid rs₀ recs i ++ recs i

section places
variable (P : Prims) (rs₀ : List Rec)

def Places.off (T : Places) (i : Nat) : Nat := (recsBytes P (laid rs₀ T.recs i)).length

def Places.bytes (T : Places) (i : Nat) : Bytes := recsBytes P (T.recs i)

/-- One more place. -/
def Places.add (T : Places) (rs : List Rec) : Places :=
  ⟨T.count + 1, Function.update T.recs T.count rs, Function.update T.fate T.count .queued⟩

/-- The write of a place has been performed. -/
def Places.settle (T : Places) (i : Nat) (c : Fate) : Places :=
  { T with fate := Function.update T.fate i c }

variable {P rs₀} {T : Places} {file : Bytes} {i j : Nat}

theorem Places.off_succ : T.off P rs₀ (i + 1) = T.off P rs₀ i + (T.bytes P i).length := by
  rw [off, laid, recsBytes_append, length_append]
  rfl

theorem Places.apart (h : i < j) : T.off P rs₀ i + (T.bytes P i).length ≤ T.off P rs₀ j := by
  induction h with
  | refl => exact Nat.le_of_eq off_succ.symm
  | step _ ih => exact Nat.le_trans ih (off_succ ▸ Nat.le_add_right ..)

theorem Places.apart_of_ne (h : i ≠ j) : T.off P rs₀ i + (T.bytes P i).length ≤ T.off P rs₀ j
    ∨ T.off P rs₀ j + (T.bytes P j).length ≤ T.off P rs₀ i :=
  (Nat.lt_or_gt_of_ne h).imp apart apart

theorem Places.start_le : (recsBytes P rs₀).length ≤ T.off P rs₀ i := by
  induction i with
  | zero => exact Nat.le_refl _
  | succ i ih => exact Nat.le_trans ih (off_succ ▸ Nat.le_add_right ..)

theorem laid_congr {recs recs' : Nat → List Rec} (h : ∀ j < i, recs' j = recs j) :
    laid rs₀ recs' i = laid rs₀ recs i := by
  induction i with
  | zero => rfl
  | succ i ih =>
    rw [laid, laid, ih fun j hj => h j (Nat.lt_succ_of_lt hj), h i (Nat.lt_succ_self i)]

/-- The places that were there stay as they are. -/
theorem Places.add_old (rs : List Rec) (h : i < T.count) :
    (T.add rs).recs i = T.recs i ∧ (T.add rs).fate i = T.fate i :=
  ⟨Function.update_of_ne (Nat.ne_of_lt h) .., Function.update_of_ne (Nat.ne_of_lt h) ..⟩

theorem Places.off_add (rs : List Rec) (h : i ≤ T.count) :
    (T.add rs).off P rs₀ i = T.off P rs₀ i := by
  rw [off, off, laid_congr fun j hj => (T.add_old rs (Nat.lt_of_lt_of_le hj h)).1]

theorem Places.bytes_add (rs : List Rec) (h : i < T.count) :
    (T.add rs).bytes P i = T.bytes P i := by
  rw [bytes, bytes, (T.add_old rs h).1]

theorem Places.add_new (rs : List Rec) :
    (T.add rs).recs T.count = rs ∧ (T.add rs).fate T.count = .queued :=
  ⟨Function.update_self .., Function.update_self ..⟩

/-- Where all places below `i` are done there are records up to `i`. -/
theorem Places.take_eq (hstart : Bytes.slice file 0 (recsBytes P rs₀).length = recsBytes P rs₀)
    (hdone : ∀ j < i, Bytes.slice file (T.off P rs₀ j) (T.bytes P j).length = T.bytes P j) :
    file.take (T.off P rs₀ i) = recsBytes P (laid rs₀ T.recs i) := by
  induction i with
  | zero => exact hstart
  | succ i ih =>
    rw [off_succ, ← Bytes.take_append_slice, ih fun j hj => hdone j (Nat.lt_succ_of_lt hj),
      hdone i (Nat.lt_succ_self i), laid, recsBytes_append]
    rfl

end places

/-- Places and their writes. Queued ones are in the ring. Those that are done are in the file, and
when one has returned all below it are done. Above a torn one all are torn, and when its failure
has been seen the file is poisoned. -/
structure Slots (P : Prims) (f : LogFile) (rs₀ : List Rec) (batches : List (List Rec)) (T : Places)
    (M : Multiset Placed) (g : Outcomes) (s : NsState) : Prop where
  ring : (s.ring : Multiset PendingWrite) = M.map Placed.write
  old : ∀ x ∈ M, x.write.req < s.tick
  distinct : (M.map fun x => x.write.req).Nodup
  once : (M.map Placed.place).Nodup
  mine : ∀ x ∈ M, x.place < T.count ∧ T.fate x.place = x.fate
    ∧ x.write = ⟨x.write.req, f.ino, T.off P rs₀ x.place, T.bytes P x.place,
      decide (x.fate ≠ .queued)⟩
  batch : ∀ i < T.count, T.recs i ∈ batches
  offset : f.writeOffset s = T.off P rs₀ T.count
  start : Bytes.slice (s.disk.inodes f.ino) 0 (recsBytes P rs₀).length = recsBytes P rs₀
  queued : ∀ i < T.count, T.fate i = .queued → ∃ x ∈ M, x.place = i
  written : ∀ i < T.count, T.fate i = .done →
    Bytes.slice (s.disk.inodes f.ino) (T.off P rs₀ i) (T.bytes P i).length = T.bytes P i
  returned : ∀ i < T.count, T.fate i = .done → (∀ x ∈ M, x.place ≠ i) → ∀ j < i, T.fate j = .done
  torn : ∀ i < T.count, T.fate i = .torn → (T.off P rs₀ i, (T.bytes P i).length) ∈ g.torn
    ∧ ∀ j, i < j → j < T.count → T.fate j = .torn
  poisoned : ∀ i < T.count, T.fate i = .torn → (∀ x ∈ M, x.place ≠ i) →
    (s.cells f.ino).poisoned = true
  acked : ∀ a ∈ g.acked, ∃ i < T.count, a = (T.off P rs₀ i, T.bytes P i) ∧ ∀ j ≤ i, T.fate j = .done
  failed : ∀ b ∈ g.torn, ∃ i < T.count, b = (T.off P rs₀ i, (T.bytes P i).length) ∧ T.fate i = .torn

section slots
variable {P : Prims} {f : LogFile} {rs₀ : List Rec} {batches : List (List Rec)} {T : Places}
  {M : Multiset Placed} {g : Outcomes} {s : NsState} {x : Placed}

theorem Slots.mem_ring (h : Slots P f rs₀ batches T M g s) (hx : x ∈ M) : x.write ∈ s.ring := by
  rw [← mem_coe, h.ring]
  exact Multiset.mem_map_of_mem _ hx

theorem Slots.own_req (h : Slots P f rs₀ batches T (x ::ₘ M) g s) :
    ∀ v ∈ M.map Placed.write, v.req ≠ x.write.req := by
  have hnodup := h.distinct
  rw [Multiset.map_cons, Multiset.nodup_cons] at hnodup
  intro v hv heq
  obtain ⟨y, hy, rfl⟩ := Multiset.mem_map.mp hv
  exact hnodup.1 (Multiset.mem_map.mpr ⟨y, hy, heq⟩)

theorem Slots.own_place (h : Slots P f rs₀ batches T (x ::ₘ M) g s) :
    ∀ y ∈ M, y.place ≠ x.place := by
  have hnodup := h.once
  rw [Multiset.map_cons, Multiset.nodup_cons] at hnodup
  exact fun y hy heq => hnodup.1 (Multiset.mem_map.mpr ⟨y, hy, heq⟩)

/-- When every failure has been seen and the file is not poisoned, no place is torn. -/
theorem Slots.clear (h : Slots P f rs₀ batches T M g s) (hseen : (inTurn f.ino).allows .reserve g s)
    (hp : (s.cells f.ino).poisoned = false) : ∀ i < T.count, T.fate i ≠ .torn := by
  intro i hi hfate
  by_cases hring : ∀ x ∈ M, x.place ≠ i
  · exact Bool.false_ne_true (hp.symm.trans (h.poisoned i hi hfate hring))
  · push Not at hring
    obtain ⟨x, hx, rfl⟩ := hring
    obtain ⟨-, -, hw⟩ := h.mine x hx
    refine hseen x.write (h.mem_ring hx) (by rw [hw]) ?_
    rw [hw]
    exact (h.torn _ hi hfate).1

/-- A place is reserved and its write goes into the ring. -/
theorem Slots.submit (h : Slots P f rs₀ batches T M g s) (hclear : ∀ i < T.count, T.fate i ≠ .torn)
    {rs : List Rec} (hrs : rs ∈ batches) :
    Slots P f rs₀ batches (T.add rs)
      (⟨T.count, ⟨s.tick, f.ino, f.writeOffset s, recsBytes P rs, false⟩, .queued⟩ ::ₘ M) g
      (submitWrite f.ino (f.writeOffset s) (recsBytes P rs)
        (f.reserve (recsBytes P rs).length s).2).2 := by
  obtain ⟨hrecs, hqueued⟩ := T.add_new rs
  have hcount : (T.add rs).count = T.count + 1 := rfl
  -- A place that is not queued was there.
  have hold : ∀ i < (T.add rs).count, (T.add rs).fate i ≠ .queued → i < T.count := by
    intro i hi hne
    rcases Nat.lt_succ_iff_lt_or_eq.mp hi with hi | rfl
    · exact hi
    · exact absurd hqueued hne
  have hnone : ∀ i < (T.add rs).count, (T.add rs).fate i ≠ .torn := by
    intro i hi hfate
    have hlt := hold i hi (by rw [hfate]; decide)
    exact hclear i hlt ((T.add_old rs hlt).2 ▸ hfate)
  refine ⟨?_, ?_, ?_, ?_, ?_, ?_, ?_, h.start, ?_, ?_, ?_,
    fun i hi hfate => absurd hfate (hnone i hi), fun i hi hfate => absurd hfate (hnone i hi),
    ?_, fun b hb => ?_⟩
  · rw [Multiset.map_cons, ← h.ring]
    rfl
  · exact Multiset.forall_mem_cons.mpr
      ⟨Nat.lt_succ_self _, fun x hx => Nat.lt_succ_of_lt (h.old x hx)⟩
  · rw [Multiset.map_cons, Multiset.nodup_cons]
    refine ⟨fun hmem => ?_, h.distinct⟩
    obtain ⟨x, hx, heq⟩ := Multiset.mem_map.mp hmem
    exact absurd heq (Nat.ne_of_lt (h.old x hx))
  · rw [Multiset.map_cons, Multiset.nodup_cons]
    refine ⟨fun hmem => ?_, h.once⟩
    obtain ⟨x, hx, heq⟩ := Multiset.mem_map.mp hmem
    exact absurd heq (Nat.ne_of_lt (h.mine x hx).1)
  · refine Multiset.forall_mem_cons.mpr ⟨?_, fun x hx => ?_⟩
    · refine ⟨Nat.lt_succ_self _, hqueued, ?_⟩
      rw [Places.off_add rs (Nat.le_refl _), Places.bytes, hrecs, h.offset]
      rfl
    · obtain ⟨hlt, hfate, hw⟩ := h.mine x hx
      refine ⟨Nat.lt_succ_of_lt hlt, (T.add_old rs hlt).2.trans hfate, ?_⟩
      rw [Places.off_add rs (Nat.le_of_lt hlt), Places.bytes_add rs hlt]
      exact hw
  · intro i hi
    rcases Nat.lt_succ_iff_lt_or_eq.mp hi with hi | rfl
    · exact (T.add_old rs hi).1 ▸ h.batch i hi
    · rw [hrecs]
      exact hrs
  · rw [hcount, Places.off_succ, Places.off_add rs (Nat.le_refl _), Places.bytes, hrecs, ← h.offset]
    simp [submitWrite, LogFile.reserve, LogFile.setCell, LogFile.writeOffset]
  · intro i hi hfate
    rcases Nat.lt_succ_iff_lt_or_eq.mp hi with hi | rfl
    · obtain ⟨x, hx, hplace⟩ := h.queued i hi ((T.add_old rs hi).2 ▸ hfate)
      exact ⟨x, Multiset.mem_cons_of_mem hx, hplace⟩
    · exact ⟨_, Multiset.mem_cons_self .., rfl⟩
  · intro i hi hfate
    have hlt := hold i hi (by rw [hfate]; decide)
    rw [Places.off_add rs (Nat.le_of_lt hlt), Places.bytes_add rs hlt]
    exact h.written i hlt ((T.add_old rs hlt).2 ▸ hfate)
  · intro i hi hfate hring j hj
    have hlt := hold i hi (by rw [hfate]; decide)
    rw [(T.add_old rs (Nat.lt_trans hj hlt)).2]
    exact h.returned i hlt ((T.add_old rs hlt).2 ▸ hfate)
      (fun x hx => hring x (Multiset.mem_cons_of_mem hx)) j hj
  · intro a ha
    obtain ⟨i, hi, rfl, hdone⟩ := h.acked a ha
    refine ⟨i, Nat.lt_succ_of_lt hi, ?_, fun j hj => ?_⟩
    · rw [Places.off_add rs (Nat.le_of_lt hi), Places.bytes_add rs hi]
    · rw [(T.add_old rs (Nat.lt_of_le_of_lt hj hi)).2]
      exact hdone j hj
  · obtain ⟨i, hi, -, hfate⟩ := h.failed b hb
    exact absurd hfate (hclear i hi)

/-- Below a write that is queued nothing is torn, and no append above it has returned. -/
theorem Slots.of_queued (h : Slots P f rs₀ batches T M g s) (hx : x ∈ M) (hq : x.fate = .queued) :
    T.fate x.place = .queued ∧ (∀ i < T.count, T.fate i = .torn → x.place < i)
      ∧ ∀ i < T.count, T.fate i = .done → (∀ y ∈ M, y.place ≠ i) → i < x.place := by
  obtain ⟨hlt, hfate, -⟩ := h.mine x hx
  rw [hq] at hfate
  refine ⟨hfate, fun i hi ht => ?_, fun i hi hd hring => ?_⟩
  · by_contra hle
    rcases Nat.lt_or_eq_of_le (Nat.not_lt.mp hle) with hlt' | rfl
    · exact absurd (hfate.symm.trans ((h.torn i hi ht).2 x.place hlt' hlt)) (by decide)
    · exact absurd (hfate.symm.trans ht) (by decide)
  · by_contra hle
    rcases Nat.lt_or_eq_of_le (Nat.not_lt.mp hle) with hlt' | rfl
    · exact absurd (hfate.symm.trans (h.returned i hi hd hring x.place hlt')) (by decide)
    · exact absurd (hfate.symm.trans hd) (by decide)

/-- All places above the topmost write in flight are torn, while that one is queued. -/
theorem Slots.torn_above (h : Slots P f rs₀ batches T (x ::ₘ M) g s) (hq : x.fate = .queued)
    (htop : ∀ y ∈ M, y.place < x.place) : ∀ j, x.place < j → j < T.count → T.fate j = .torn := by
  intro j hj hjlt
  have hring : ∀ y ∈ x ::ₘ M, y.place ≠ j := Multiset.forall_mem_cons.mpr
    ⟨Nat.ne_of_lt hj, fun y hy => Nat.ne_of_lt (Nat.lt_trans (htop y hy) hj)⟩
  cases hjf : T.fate j with
  | torn => rfl
  | done =>
    have := (h.of_queued (Multiset.mem_cons_self x M) hq).2.2 j hjlt hjf hring
    omega
  | queued =>
    obtain ⟨y, hy, heq⟩ := h.queued j hjlt hjf
    exact absurd heq (hring y hy)

/-- The kernel has taken a write, whatever came of it. -/
theorem Slots.settle (h : Slots P f rs₀ batches T (x ::ₘ M) g s) (hq : x.fate = .queued) {d : Disk}
    (hd : x.write.Wrote (s.disk.inodes f.ino) (d.inodes f.ino)) {c : Fate} (hc : c ≠ .queued)
    {g' : Outcomes}
    (hdone : c = .done → Bytes.slice (d.inodes f.ino) x.write.offset x.write.data.length
      = x.write.data)
    (htop : c = .torn → ∀ y ∈ M, y.place < x.place) (hacked : g'.acked = g.acked)
    (htorn : ∀ b, b ∈ g'.torn ↔ c = .torn ∧ b = (x.write.offset, x.write.data.length)
      ∨ b ∈ g.torn) :
    Slots P f rs₀ batches (T.settle x.place c)
      (⟨x.place, { x.write with taken := true }, c⟩ ::ₘ M) g'
      { s with tick := s.tick + 1, ring := takePending x.write.req s.ring, disk := d } := by
  have hself := Multiset.mem_cons_self x M
  obtain ⟨hlt, -, hw⟩ := h.mine x hself
  obtain ⟨hfate, hbelow, habove⟩ := h.of_queued hself hq
  have hoff : x.write.offset = T.off P rs₀ x.place := by rw [hw]
  have hdata : x.write.data = T.bytes P x.place := by rw [hw]
  have hown : (T.settle x.place c).fate x.place = c := Function.update_self ..
  have hother : ∀ {i}, i ≠ x.place → (T.settle x.place c).fate i = T.fate i :=
    fun hi => Function.update_of_ne hi ..
  -- A place that nobody has in the ring now had nobody before.
  have hcons : ∀ {i}, (∀ y ∈ (⟨x.place, { x.write with taken := true }, c⟩ : Placed) ::ₘ M,
      y.place ≠ i) → i ≠ x.place ∧ ∀ y ∈ x ::ₘ M, y.place ≠ i := fun hM =>
    ⟨((Multiset.forall_mem_cons.mp hM).1).symm,
      Multiset.forall_mem_cons.mpr (Multiset.forall_mem_cons.mp hM)⟩
  have hring : (s.ring : Multiset PendingWrite) = x.write ::ₘ M.map Placed.write := by
    rw [h.ring, Multiset.map_cons]
  refine ⟨?_, ?_, ?_, ?_, ?_, h.batch, h.offset, ?_, ?_, ?_, ?_, ?_, ?_, ?_, ?_⟩
  · rw [Multiset.map_cons]
    exact takePending_own hring h.own_req
  · have hold := Multiset.forall_mem_cons.mp h.old
    exact Multiset.forall_mem_cons.mpr
      ⟨Nat.lt_succ_of_lt hold.1, fun y hy => Nat.lt_succ_of_lt (hold.2 y hy)⟩
  · have hnodup := h.distinct
    rwa [Multiset.map_cons] at hnodup ⊢
  · have hnodup := h.once
    rwa [Multiset.map_cons] at hnodup ⊢
  · refine Multiset.forall_mem_cons.mpr ⟨?_, fun y hy => ?_⟩
    · refine ⟨hlt, hown, ?_⟩
      rw [hw, decide_eq_true hc]
      rfl
    · obtain ⟨hylt, hyf, hyw⟩ := h.mine y (Multiset.mem_cons_of_mem hy)
      exact ⟨hylt, (hother (h.own_place y hy)).trans hyf, hyw⟩
  · exact hd.slice h.start (.inl (Nat.zero_add _ ▸ hoff ▸ Places.start_le))
  · intro i hi hif
    have hne : i ≠ x.place := by
      rintro rfl
      exact hc (hown.symm.trans hif)
    obtain ⟨y, hy, rfl⟩ := h.queued i hi (hother hne ▸ hif)
    rcases Multiset.mem_cons.mp hy with rfl | hy
    · exact absurd rfl hne
    · exact ⟨y, Multiset.mem_cons_of_mem hy, rfl⟩
  · intro i hi hif
    by_cases hne : i = x.place
    · subst hne
      exact hoff ▸ hdata ▸ hdone (hown.symm.trans hif)
    · refine hd.slice (h.written i hi (hother hne ▸ hif)) ?_
      rw [hoff, hdata]
      exact Places.apart_of_ne hne
  · intro i hi hif hM j hj
    obtain ⟨hne, hi'⟩ := hcons hM
    have hlow := habove i hi (hother hne ▸ hif) hi'
    rw [hother (by omega)]
    exact h.returned i hi (hother hne ▸ hif) hi' j hj
  · intro i hi hif
    by_cases hne : i = x.place
    · subst hne
      have hct := hown.symm.trans hif
      refine ⟨(htorn _).mpr (.inl ⟨hct, ?_⟩), fun j hj hjlt => ?_⟩
      · rw [hoff, hdata]
        rfl
      · rw [hother (Nat.ne_of_gt hj)]
        exact h.torn_above hq (htop hct) j hj hjlt
    · obtain ⟨hmem, hup⟩ := h.torn i hi (hother hne ▸ hif)
      have hhigh := hbelow i hi (hother hne ▸ hif)
      refine ⟨(htorn _).mpr (.inr hmem), fun j hj hjlt => ?_⟩
      rw [hother (by omega)]
      exact hup j hj hjlt
  · intro i hi hif hM
    obtain ⟨hne, hi'⟩ := hcons hM
    exact h.poisoned i hi (hother hne ▸ hif) hi'
  · intro a ha
    rw [hacked] at ha
    obtain ⟨i, hi, rfl, hall⟩ := h.acked a ha
    refine ⟨i, hi, rfl, fun j hj => ?_⟩
    have hne : j ≠ x.place := by
      rintro rfl
      exact absurd (hfate.symm.trans (hall _ hj)) (by decide)
    rw [hother hne]
    exact hall j hj
  · intro b hb
    rcases (htorn b).mp hb with ⟨hct, rfl⟩ | hb
    · refine ⟨x.place, hlt, ?_, hown.trans hct⟩
      rw [hoff, hdata]
      rfl
    · obtain ⟨i, hi, rfl, hif⟩ := h.failed b hb
      exact ⟨i, hi, rfl, (hother (Nat.ne_of_gt (hbelow i hi hif))).trans hif⟩

/-- The kernel performs a write, if it is to fail the topmost one in flight. -/
theorem Slots.perform (h : Slots P f rs₀ batches T (x ::ₘ M) g s) (hq : x.fate = .queued)
    (hallows : (inTurn f.ino).allows (.write x.write.offset x.write.data.length) g s) :
    ∃ c T',
      ((performWrite x.write.req f.ino x.write.offset x.write.data s).1.isOk = true → c = .done)
      ∧ ((performWrite x.write.req f.ino x.write.offset x.write.data s).1.isOk = false → c = .torn)
      ∧ Slots P f rs₀ batches T' (⟨x.place, { x.write with taken := true }, c⟩ ::ₘ M)
        (noteAppend (.write x.write.offset x.write.data.length) s g)
        (performWrite x.write.req f.ino x.write.offset x.write.data s).2 := by
  have hfile : ∀ data, (s.disk.writeAt f.ino x.write.offset data).inodes f.ino
      = Bytes.writeAt (s.disk.inodes f.ino) x.write.offset data :=
      fun data => Disk.inodes_setBytes _ _ _
  obtain ⟨-, -, hw⟩ := h.mine x (Multiset.mem_cons_self x M)
  have htop : WriteFails s x.write.offset x.write.data.length → ∀ y ∈ M, y.place < x.place := by
    intro hfails y hy
    obtain ⟨-, -, hyw⟩ := h.mine y (Multiset.mem_cons_of_mem hy)
    have hlt := hallows hfails y.write (h.mem_ring (Multiset.mem_cons_of_mem hy)) (by rw [hyw])
    rw [hyw, hw] at hlt
    by_contra hle
    have hne := h.own_place y hy
    have hap : T.off P rs₀ x.place + (T.bytes P x.place).length ≤ T.off P rs₀ y.place :=
      Places.apart (by omega)
    exact absurd hlt (Nat.not_lt.mpr hap)
  cases hfault : s.fault s.tick with
  | some n =>
    have hfails : WriteFails s x.write.offset x.write.data.length := .inl (by rw [hfault]; rfl)
    simp only [performWrite, hfault, noteAppend, if_pos hfails]
    exact ⟨.torn, _, (fun hok => by cases hok), fun _ => rfl,
      h.settle hq (.inr ⟨_, length_take_le' .., hfile _⟩)
      (by decide) (fun hc => by cases hc) (fun _ => htop hfails) rfl fun b => by simp⟩
  | none =>
    by_cases hsize : x.write.offset + x.write.data.length > maxFileSize
    · have hfails : WriteFails s x.write.offset x.write.data.length := .inr hsize
      simp only [performWrite, hfault, hsize, if_true, noteAppend, if_pos hfails]
      exact ⟨.torn, _, (fun hok => by cases hok), fun _ => rfl, h.settle hq (.inl rfl) (by decide)
        (fun hc => by cases hc) (fun _ => htop hfails) rfl fun b => by simp⟩
    · have hfails : ¬ WriteFails s x.write.offset x.write.data.length := by
        rintro (hf | hf)
        · rw [hfault] at hf
          cases hf
        · exact hsize hf
      simp only [performWrite, hfault, hsize, if_false, noteAppend, if_neg hfails]
      refine ⟨.done, _, fun _ => rfl, (fun hok => by cases hok),
        h.settle hq (.inr ⟨_, Nat.le_refl _, hfile _⟩)
        (by decide) (fun _ => ?_) (fun hc => by cases hc) rfl fun b => by simp⟩
      rw [hfile]
      exact Bytes.slice_writeAt_self _ _ _

/-- When the completion of a write is seen its token is given up. -/
theorem Slots.reap (h : Slots P f rs₀ batches T (x ::ₘ M) g s) :
    (reapPending x.write.req s.ring : Multiset PendingWrite) = M.map Placed.write
      ∧ (M.map fun y => y.write.req).Nodup ∧ (M.map Placed.place).Nodup := by
  have hring : (s.ring : Multiset PendingWrite) = x.write ::ₘ M.map Placed.write := by
    rw [h.ring, Multiset.map_cons]
  have hnodup := h.distinct
  have honce := h.once
  rw [Multiset.map_cons, Multiset.nodup_cons] at hnodup honce
  exact ⟨reapPending_own hring h.own_req, hnodup.2, honce.2⟩

/-- A place of another fate is in the ring only if it is among the others. -/
theorem Slots.not_own (h : Slots P f rs₀ batches T (x ::ₘ M) g s) {i : Nat} (hi : T.fate i ≠ x.fate)
    (hM : ∀ y ∈ M, y.place ≠ i) : ∀ y ∈ x ::ₘ M, y.place ≠ i :=
  Multiset.forall_mem_cons.mpr
    ⟨fun heq => hi (heq ▸ (h.mine x (Multiset.mem_cons_self ..)).2.1), hM⟩

theorem Slots.queued_rest (h : Slots P f rs₀ batches T (x ::ₘ M) g s) (hx : x.fate ≠ .queued) :
    ∀ i < T.count, T.fate i = .queued → ∃ y ∈ M, y.place = i := by
  intro i hi hif
  by_contra hM
  push Not at hM
  obtain ⟨y, hy, heq⟩ := h.queued i hi hif
  exact h.not_own (hif ▸ hx.symm) hM y hy heq

/-- The failure of a write has been seen and the file is poisoned. -/
theorem Slots.poison (h : Slots P f rs₀ batches T (x ::ₘ M) g s) (ht : x.fate = .torn) :
    Slots P f rs₀ batches T M g (f.poison (reapWrite x.write.req s)) := by
  have hin : ∀ {y}, y ∈ M → y ∈ x ::ₘ M := fun hy => Multiset.mem_cons_of_mem hy
  obtain ⟨hring, hreqs, honce⟩ := h.reap
  have hpoisoned : ((f.poison (reapWrite x.write.req s)).cells f.ino).poisoned = true := by
    simp [LogFile.poison, LogFile.setCell]
  have hoff : f.writeOffset (f.poison (reapWrite x.write.req s)) = f.writeOffset s := by
    simp [LogFile.poison, LogFile.setCell, LogFile.writeOffset, reapWrite]
  exact ⟨hring, fun y hy => h.old y (hin hy), hreqs, honce, fun y hy => h.mine y (hin hy), h.batch,
    hoff.trans h.offset, h.start, h.queued_rest (by rw [ht]; decide), h.written,
    fun i hi hif hM => h.returned i hi hif (h.not_own (by rw [hif, ht]; decide) hM), h.torn,
    fun _ _ _ _ => hpoisoned, h.acked, h.failed⟩

/-- A write is acknowledged only when all below it are done: the kernel has taken them, and
above a torn one it would be torn itself. -/
theorem Slots.done_below (h : Slots P f rs₀ batches T (x ::ₘ M) g s) (hne : [] ∉ batches)
    (hd : x.fate = .done)
    (hallows : (inTurn f.ino).allows (.acked x.write.offset x.write.data) g
      (reapWrite x.write.req s)) :
    ∀ j ≤ x.place, T.fate j = .done := by
  obtain ⟨hlt, hfate, hw⟩ := h.mine x (Multiset.mem_cons_self x M)
  rw [hd] at hfate
  intro j hj
  rcases Nat.lt_or_eq_of_le hj with hj | rfl
  swap
  · exact hfate
  have hjlt := Nat.lt_trans hj hlt
  cases hjf : T.fate j with
  | done => rfl
  | torn => exact absurd (hfate.symm.trans ((h.torn j hjlt hjf).2 _ hj hlt)) (by decide)
  | queued =>
    obtain ⟨y, hy, rfl⟩ := h.queued_rest (by rw [hd]; decide) j hjlt hjf
    obtain ⟨-, hyf, hyw⟩ := h.mine y (Multiset.mem_cons_of_mem hy)
    have hmem : y.write ∈ reapPending x.write.req s.ring := by
      rw [← mem_coe, h.reap.1]
      exact Multiset.mem_map_of_mem _ hy
    have hpos : 0 < (T.bytes P y.place).length := by
      refine Nat.lt_of_lt_of_le (length_pos_iff.mpr fun hnil => hne ?_) (length_le_recsBytes P _)
      exact hnil ▸ h.batch _ hjlt
    have hap : T.off P rs₀ y.place + (T.bytes P y.place).length ≤ T.off P rs₀ x.place :=
      Places.apart hj
    have hlow : T.off P rs₀ y.place < T.off P rs₀ x.place := by omega
    have htaken := hallows y.write hmem (by rw [hyw]) (by rw [hyw, hw]; exact hlow)
    rw [hyw, ← hyf, hjf] at htaken
    exact absurd rfl (of_decide_eq_true (p := Fate.queued ≠ .queued) htaken)

/-- A write that has succeeded is acknowledged. -/
theorem Slots.ack (h : Slots P f rs₀ batches T (x ::ₘ M) g s) (hne : [] ∉ batches)
    (hd : x.fate = .done)
    (hallows : (inTurn f.ino).allows (.acked x.write.offset x.write.data) g
      (reapWrite x.write.req s)) :
    Slots P f rs₀ batches T M
      (noteAppend (.acked x.write.offset x.write.data) (reapWrite x.write.req s) g)
      (reapWrite x.write.req s) := by
  have hin : ∀ {y}, y ∈ M → y ∈ x ::ₘ M := fun hy => Multiset.mem_cons_of_mem hy
  obtain ⟨hring, hreqs, honce⟩ := h.reap
  have hbelow := h.done_below hne hd hallows
  obtain ⟨hlt, -, hw⟩ := h.mine x (Multiset.mem_cons_self x M)
  refine ⟨hring, fun y hy => h.old y (hin hy), hreqs, honce, fun y hy => h.mine y (hin hy), h.batch,
    h.offset, h.start, h.queued_rest (by rw [hd]; decide), h.written,
    fun i hi hif hM j hj => ?_, h.torn,
    fun i hi hif hM => h.poisoned i hi hif (h.not_own (by rw [hif, hd]; decide) hM),
    fun a ha => ?_, h.failed⟩
  · by_cases hix : i ≤ x.place
    · exact hbelow j (by omega)
    · have hne : x.place ≠ i := by omega
      exact h.returned i hi hif (Multiset.forall_mem_cons.mpr ⟨hne, hM⟩) j hj
  · rcases List.mem_cons.mp ha with rfl | ha
    · exact ⟨x.place, hlt, by rw [hw], hbelow⟩
    · exact h.acked a ha

end slots

/-! ## Runs -/

section runs
variable (P : Prims) (f : LogFile) (rs₀ : List Rec) {batches : List (List Rec)}

variable (batches) in
/-- Appenders keep the places of the file. -/
abbrev slotted : Regime NsState Point Outcomes Placed :=
  .plain (inTurn f.ino) fun M g s => ∃ T, Slots P f rs₀ batches T M g s

theorem appender_slots (hne : [] ∉ batches) {rs : List Rec} (hrs : rs ∈ batches)
    {M : Multiset Placed}
    {g : Outcomes} {s : NsState} (h : (slotted P f rs₀ batches).Inv M g s) :
    wpi (slotted P f rs₀ batches) (appender P f rs)
        (Gives (slotted P f rs₀ batches) Clean) M g s := by
  simp only [appender, wpi_seq, wpi_at, wpi_run, LogFile.append, wpix_seq, lift, wpix_lift,
    wpi_gets, onOkI_ok]
  intro hseen
  obtain ⟨T, h⟩ := h
  cases hp : (s.cells f.ino).poisoned with
  | true => exact ⟨0, ⟨T, by rwa [zero_add]⟩, rfl⟩
  | false =>
    simp only [Bool.false_eq_true, if_false, wpix_seq, onOkI_ok, wpix_lift, wpi_step,
      writeAllAt, wpi_seq, wpi_yield, wpi_at, wpi_modify, wpi_pure]
    refine ⟨{⟨T.count, ⟨s.tick, f.ino, f.writeOffset s, recsBytes P rs, false⟩, .queued⟩},
      ⟨T.add rs, ?_⟩, ?_⟩
    · rw [singleton_add]
      exact h.submit (h.clear hseen hp) hrs
    rintro M g s₁ ⟨T₁, h₁⟩ hallows
    rw [singleton_add] at h₁
    obtain ⟨c, T₂, hok, herr, h₂⟩ := h₁.perform rfl hallows
    refine ⟨{⟨T.count, ⟨s.tick, f.ino, f.writeOffset s, recsBytes P rs, true⟩, c⟩}, ⟨T₂, ?_⟩, ?_⟩
    · rw [singleton_add]
      exact h₂
    rintro M g s₃ ⟨T₃, h₃⟩
    rw [singleton_add] at h₃
    have hoff : (f.reserve (recsBytes P rs).length s).1 = f.writeOffset s := rfl
    have hreq :
      ∀ off, (submitWrite f.ino off (recsBytes P rs) (f.reserve (recsBytes P rs).length s).2).1
      = s.tick :=
      fun _ => rfl
    rw [hreq, hoff]
    cases hr : (performWrite s.tick f.ino (f.writeOffset s) (recsBytes P rs) s₁).1 with
    | error e => exact ⟨0, ⟨T₃, by rw [zero_add]; exact h₃.poison (herr (by rw [hr]; rfl))⟩, rfl⟩
    | ok u =>
      intro hallows
      exact ⟨0, ⟨T₃, by rw [zero_add]; exact h₃.ack hne (hok (by rw [hr]; rfl)) hallows⟩, rfl⟩

/-- In every run in which appends to a file of whole records are acknowledged in turn, whichever
of them fail, the file holds in every state reached each append that has returned `Ok`, where a
replay finds it, and below every place whose write has failed. -/
theorem acked_recovered {s : NsState} (hring : s.ring = [])
    (hfile : s.disk.inodes f.ino = recsBytes P rs₀)
    (hend : f.writeOffset s = (recsBytes P rs₀).length) (hne : [] ∉ batches)
    {w : Pool NsState Point Outcomes}
    (hrun : Runs (inTurn f.ino) (.of (batches.map (appender P f)) ⟨[], []⟩ s) w) :
    ∀ a ∈ w.ghost.acked,
      (∃ rs ∈ batches, a.2 = recsBytes P rs ∧ Recovered P (w.state.disk.inodes f.ino) a.1 rs)
        ∧ ∀ b ∈ w.ghost.torn, a.1 + a.2.length ≤ b.1 := by
  have hstart : (slotted P f rs₀ batches).Inv 0 ⟨[], []⟩ s := by
    refine ⟨⟨0, fun _ => [], fun _ => .queued⟩,
      ⟨by rw [hring]; rfl, by simp, by simp, by simp, by simp,
      by simp, hend, ?_, by simp, by simp, by simp, by simp, by simp, by simp, by simp⟩⟩
    rw [hfile]
    exact take_length
  obtain ⟨M, ⟨T, hinv⟩, -⟩ := Runs.inv (Γ := slotted P f rs₀ batches) hrun hstart
      fun p hp M g s h => by
    obtain ⟨rs, hrs, rfl⟩ := List.mem_map.mp hp
    exact appender_slots P f rs₀ hne hrs h
  intro a ha
  obtain ⟨i, hi, rfl, hdone⟩ := hinv.acked a ha
  refine ⟨⟨T.recs i, hinv.batch i hi, rfl, recovered_of_take ?_⟩, fun b hb => ?_⟩
  · exact Places.take_eq (i := i + 1) hinv.start fun j hj =>
      hinv.written j (by omega) (hdone j (Nat.le_of_lt_succ hj))
  · obtain ⟨k, -, rfl, hk⟩ := hinv.failed b hb
    refine Places.apart (Nat.lt_of_not_le fun hle => ?_)
    exact absurd ((hdone k hle).symm.trans hk) (by decide)

end runs

instance (ino : Nat) (l : Point) (g : Outcomes) (s : NsState) :
    Decidable ((inTurn ino).allows l g s) := by
  cases l with
  | reserve =>
    exact inferInstanceAs
      (Decidable (∀ v ∈ s.ring, v.ino = ino → (v.offset, v.data.length) ∉ g.torn))
  | write offset len =>
    exact inferInstanceAs
      (Decidable (WriteFails s offset len → ∀ v ∈ s.ring, v.ino = ino → v.offset < offset + len))
  | acked offset data =>
    exact inferInstanceAs
      (Decidable (∀ v ∈ s.ring, v.ino = ino → v.offset < offset → v.taken = true))
  | _ => exact inferInstanceAs (Decidable True)

/-- Appends of one record each. -/
def twoAppends : List (List Rec) :=
  [[(plainPut 1 [0x61] [0x31] fits_short).toRec], [(plainPut 2 [0x62] [0x32] fits_short).toRec]]

/-- A fresh log whose request number `n` may fail. -/
def freshLog (fault : Nat → Option Nat) : Option NsState :=
  (openLog realPrims .default (fun _ => 100) fault Disk.empty).toOption

/-- Tasks on a fresh log, resumed in the order given. -/
def runFresh {L G : Type} (D : Discipline NsState L G) [∀ l g s, Decidable (D.allows l g s)]
    (fault : Nat → Option Nat) (tasks : NsState → List (Prog NsState L Unit)) (g : G)
    (turns : List Nat) :
    Option (NsState × Pool NsState L G) :=
  (freshLog fault).bind fun s => (schedule D (turns.map (·, [])) (.of (tasks s) g s)).map (s, ·)

theorem runs_runFresh {L G : Type} {D : Discipline NsState L G}
    [∀ l g s, Decidable (D.allows l g s)]
    {fault : Nat → Option Nat} {tasks : NsState → List (Prog NsState L Unit)} {g : G}
    {turns : List Nat}
    {s : NsState} {w : Pool NsState L G} (h : runFresh D fault tasks g turns = some (s, w)) :
    freshLog fault = some s ∧ Runs D (.of (tasks s) g s) w := by
  obtain ⟨s', hs, h'⟩ := Option.bind_eq_some_iff.mp h
  obtain ⟨w', hw, heq⟩ := Option.map_eq_some_iff.mp h'
  cases heq
  exact ⟨hs, runs_of_schedule .start hw⟩

/-- Two clients of the active file. -/
def twoAppenders (s : NsState) : List (Task Unit) := twoAppends.map (appender realPrims s.active)

/-- The second write fails first, as the topmost of two in flight; the first one is acknowledged
below it. -/
theorem acked_recovered_two :
    ∃ s w, freshLog (fun n => if n = 2 then some 10 else none) = some s ∧ s.ring = []
      ∧ s.disk.inodes s.active.ino = recsBytes realPrims []
      ∧ s.active.writeOffset s = (recsBytes realPrims []).length
      ∧ [] ∉ twoAppends
      ∧ Runs (inTurn s.active.ino) (.of (twoAppends.map (appender realPrims s.active)) ⟨[], []⟩ s) w
      ∧ w.ghost
      = ⟨[(0, recsBytes realPrims [(plainPut 1 [0x61] [0x31] (by decide)).toRec])], [(39, 39)]⟩
      ∧ ∀ a ∈ w.ghost.acked,
        (∃ rs ∈ twoAppends, a.2 = recsBytes realPrims rs
            ∧ Recovered realPrims (w.state.disk.inodes s.active.ino) a.1 rs)
          ∧ ∀ b ∈ w.ghost.torn, a.1 + a.2.length ≤ b.1 := by
  have hview : (runFresh (inTurn 0) (fun n => if n = 2 then some 10 else none) twoAppenders ⟨[], []⟩
      [0, 1, 1, 0, 0, 1]).map
      (fun x => (x.1.active.ino, x.1.ring.length, x.1.disk.inodes x.1.active.ino,
        x.1.active.writeOffset x.1, x.2.ghost))
      = some
      (0, 0, [], 0,
      ⟨[(0, recsBytes realPrims [(plainPut 1 [0x61] [0x31] (by decide)).toRec])], [(39, 39)]⟩) := by
    decide +kernel
  obtain ⟨⟨s, w⟩, hsome, heq⟩ := Option.map_eq_some_iff.mp hview
  simp only [Prod.mk.injEq, length_eq_zero_iff] at heq
  obtain ⟨hino, hring, hfile, hend, hghost⟩ := heq
  obtain ⟨hs, hrun⟩ := runs_runFresh hsome
  rw [← hino] at hrun
  have hne : [] ∉ twoAppends := by simp [twoAppends]
  exact ⟨s, w, hs, hring, hfile, hend, hne, hrun, hghost,
    acked_recovered realPrims s.active [] hring hfile hend hne hrun⟩

/-- The first write tears after ten bytes; the second one, already in flight, is acknowledged
above the torn place, where no replay comes. -/
theorem acked_beyond_torn :
    ∃ s w, freshLog (fun n => if n = 2 then some 10 else none) = some s ∧ s.ring = []
      ∧ Runs (.record noteAppend) (.of (twoAppends.map (appender realPrims s.active)) ⟨[], []⟩ s) w
      ∧ w.ghost
      = ⟨[(39, recsBytes realPrims [(plainPut 2 [0x62] [0x32] (by decide)).toRec])], [(0, 39)]⟩
      ∧ ¬ Recovered realPrims (w.state.disk.inodes s.active.ino) 39
          [(plainPut 2 [0x62] [0x32] (by decide)).toRec] := by
  have hview : (runFresh (.record noteAppend) (fun n => if n = 2 then some 10 else none)
      twoAppenders ⟨[], []⟩ [0, 1, 0, 0, 1, 1]).map (fun x => (x.1.ring.length, x.2.ghost,
        decide (Recovered realPrims (x.2.state.disk.inodes x.1.active.ino) 39
          [(plainPut 2 [0x62] [0x32] (by decide)).toRec])))
      = some
      (0, ⟨[(39, recsBytes realPrims [(plainPut 2 [0x62] [0x32] (by decide)).toRec])], [(0, 39)]⟩,
      false) := by
    decide +kernel
  obtain ⟨⟨s, w⟩, hsome, heq⟩ := Option.map_eq_some_iff.mp hview
  simp only [Prod.mk.injEq, length_eq_zero_iff, decide_eq_false_iff_not] at heq
  obtain ⟨hring, hghost, hlost⟩ := heq
  obtain ⟨hs, hrun⟩ := runs_runFresh hsome
  exact ⟨s, w, hs, hring, hrun, hghost, hlost⟩

end BeyondKv
