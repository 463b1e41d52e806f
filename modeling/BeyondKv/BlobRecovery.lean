/-
# Blob references after a restart

The blob sidecar of the index names the blob of every key whose value is separated. A running
log keeps it in step with the key map: a put sets or clears it. The replay of a put only ever
sets it, so after a restart an inline value that has replaced a separated one still has the
blob of the old one. `recovered_hashes_iff` says exactly when that happens.
-/
import BeyondKv.Reopen

namespace BeyondKv

open List

/-! ## The live record of a key -/

/-- What an operation leaves of the live record of `key`. -/
def LogOp.live (key : Bytes) (current : Option Stored) : LogOp → Option Stored
  | put k v _ _ => if k = key then some v else current
  | tombstone k => if k = key then none else current
  | ttlUpdate _ _ => current

/-- The value field of the live record of `key`, if there is one. -/
def liveStored (ls : List Logged) (key : Bytes) : Option Stored :=
  ls.foldl (fun v l => l.op.live key v) none

/-- The hash the live record of `key` carries. -/
def liveHash (ls : List Logged) (key : Bytes) : Option ContentHash :=
  (liveStored ls key).bind Stored.hash?

/-- Replaying the operation sets or clears the sidecar at `key`. -/
def LogOp.Settles (key : Bytes) : LogOp → Prop
  | put k v _ _ => k = key ∧ v.hash?.isSome
  | tombstone k => k = key
  | ttlUpdate _ _ => False

instance (key : Bytes) : (op : LogOp) → Decidable (op.Settles key)
  | .put k v _ _ => inferInstanceAs (Decidable (k = key ∧ v.hash?.isSome))
  | .tombstone k => inferInstanceAs (Decidable (k = key))
  | .ttlUpdate _ _ => inferInstanceAs (Decidable False)

/-- What replaying it leaves there. -/
def LogOp.hash : LogOp → Option ContentHash
  | put _ v _ _ => v.hash?
  | _ => none

/-- A put of `key` with an inline value. -/
def LogOp.PutsInline (key : Bytes) (op : LogOp) : Prop := ∃ v m x, op = .put key (.inline v) m x

/-- An inline value has replaced a separated one, and no tombstone and no separated value has
come since. -/
def Shrunk (ls : List Logged) (key : Bytes) : Prop :=
  ∃ before l after h, ls = before ++ l :: after ∧ l.op.Settles key ∧ l.op.hash = some h
    ∧ (∀ l' ∈ after, ¬ l'.op.Settles key) ∧ ∃ l' ∈ after, l'.op.PutsInline key

section replay
variable {P : Prims} {key : Bytes}

theorem valsep_applyRecord (P : Prims) (idx : NsIndex) (fileId offset : Nat) (l : Logged)
    (key : Bytes) :
    (applyRecord idx fileId offset (l.toRec.header P) l.toRec.body).valsep key
      = if l.op.Settles key then l.op.hash else idx.valsep key := by
  cases hop : l.op with
  | put k v m x =>
    rw [applyRecord_put P idx fileId offset hop]
    cases v with
    | inline w => simp [NsIndex.replayPut, LogOp.Settles, Stored.hash?]
    | blob h => simp [NsIndex.replayPut, LogOp.Settles, LogOp.hash, Stored.hash?]
  | tombstone k =>
    rw [applyRecord_tombstone P idx fileId offset hop, NsIndex.valsep_remove]
    rfl
  | ttlUpdate k x =>
    rw [applyRecord_ttlUpdate P idx fileId offset hop]
    rw [if_neg (show ¬ (LogOp.ttlUpdate k x).Settles key from id)]
    split
    · exact NsIndex.valsep_setTtl idx key k x
    · rfl

theorem valsep_applyRecs_of_not_settles {ls : List Logged} (h : ∀ l ∈ ls, ¬ l.op.Settles key)
    (id offset : Nat)
    (idx : NsIndex) :
    (applyRecs P id offset (ls.map Logged.toRec) idx).valsep key = idx.valsep key := by
  induction ls generalizing offset idx with
  | nil => rfl
  | cons l ls ih =>
    rw [map_cons, applyRecs, ih (fun l hl => h l (mem_cons_of_mem _ hl)), valsep_applyRecord,
      if_neg (h l (mem_cons_self ..))]

/-- The last operation that settles the sidecar decides. -/
theorem valsep_applyRecs_of_last {before after : List Logged} {l : Logged} (hl : l.op.Settles key)
    (h : ∀ l' ∈ after, ¬ l'.op.Settles key) (id offset : Nat) (idx : NsIndex) :
    (applyRecs P id offset ((before ++ l :: after).map Logged.toRec) idx).valsep key
    = l.op.hash := by
  rw [map_append, applyRecs_append, map_cons, applyRecs, valsep_applyRecs_of_not_settles h,
    valsep_applyRecord, if_pos hl]

/-- Operations that do not settle the sidecar leave an inline value or the one there was. -/
theorem foldl_live_of_not_settles {ls : List Logged} (h : ∀ l ∈ ls, ¬ l.op.Settles key)
    (v : Option Stored) :
    (∃ w, ls.foldl (fun v l => l.op.live key v) v = some (.inline w))
    ∧ (∃ l ∈ ls, l.op.PutsInline key)
      ∨ ls.foldl (fun v l => l.op.live key v) v = v ∧ ¬ ∃ l ∈ ls, l.op.PutsInline key := by
  induction ls generalizing v with
  | nil => exact .inr ⟨rfl, by simp⟩
  | cons l ls ih =>
    rw [foldl_cons]
    have hhead := h l (mem_cons_self ..)
    have hone : (∃ w, l.op.live key v = some (.inline w)) ∧ l.op.PutsInline key
        ∨ l.op.live key v = v ∧ ¬ l.op.PutsInline key := by
      cases hop : l.op with
      | ttlUpdate k x => exact .inr ⟨rfl, by rintro ⟨w, m, x, hput⟩; cases hput⟩
      | tombstone k =>
        rw [hop] at hhead
        exact .inr ⟨if_neg hhead, by rintro ⟨w, m, x, hput⟩; cases hput⟩
      | put k u m x =>
        rw [hop] at hhead
        by_cases hk : k = key
        · cases u with
          | blob hash => exact absurd ⟨hk, rfl⟩ hhead
          | inline w => exact .inl ⟨⟨w, if_pos hk⟩, w, m, x, by rw [hk]⟩
        · exact .inr ⟨if_neg hk, by rintro ⟨w, m, x, hput⟩; cases hput; exact hk rfl⟩
    rcases ih (fun l hl => h l (mem_cons_of_mem _ hl)) (l.op.live key v)
      with ⟨hw, l', hl', hin⟩ | ⟨heq, hno⟩
    · exact .inl ⟨hw, l', mem_cons_of_mem _ hl', hin⟩
    · rw [heq]
      rcases hone with ⟨hw, hin⟩ | ⟨hv, hnot⟩
      · exact .inl ⟨hw, l, mem_cons_self .., hin⟩
      · refine .inr ⟨hv, ?_⟩
        rintro ⟨l', hl', hin⟩
        rcases mem_cons.mp hl' with rfl | hl'
        · exact hnot hin
        · exact hno ⟨l', hl', hin⟩

/-- An operation that settles the sidecar leaves a live record with the same hash. -/
theorem live_of_settles {op : LogOp} (h : op.Settles key) (v : Option Stored) :
    (op.live key v).bind Stored.hash? = op.hash := by
  cases op with
  | put k u m x => simp only [LogOp.live, if_pos h.1, LogOp.hash, Option.bind_some]
  | tombstone k =>
    have hk : k = key := h
    simp only [LogOp.live, if_pos hk, LogOp.hash, Option.bind_none]
  | ttlUpdate k x => exact h.elim

/-- After a replay the sidecar holds the hash of the live record of a key, unless the value has
shrunk. -/
theorem valsep_applyRecs_iff (P : Prims) (ls : List Logged) (id offset : Nat) (key : Bytes) :
    (applyRecs P id offset (ls.map Logged.toRec) .empty).valsep key = liveHash ls key
    ↔ ¬ Shrunk ls key := by
  constructor
  · rintro heq ⟨before, l, after, h, rfl, hl, hhash, hafter, l', hl', hin⟩
    have hlive :=
      foldl_live_of_not_settles hafter ((before ++ [l]).foldl (fun v l => l.op.live key v) none)
    rw [valsep_applyRecs_of_last hl hafter, hhash, liveHash, liveStored, append_cons, foldl_append]
      at heq
    rcases hlive with ⟨⟨w, hw⟩, -⟩ | ⟨-, hno⟩
    · rw [hw] at heq
      cases heq
    · exact hno ⟨l', hl', hin⟩
  · intro hno
    cases hfind : ls.reverse.find? fun l => decide (l.op.Settles key) with
    | none =>
      have hnone : ∀ l ∈ ls, ¬ l.op.Settles key := fun l hl => by
        simpa using find?_eq_none.mp hfind l (mem_reverse.mpr hl)
      rw [valsep_applyRecs_of_not_settles hnone, NsIndex.valsep_empty, liveHash, liveStored]
      rcases foldl_live_of_not_settles hnone none with ⟨⟨w, hw⟩, -⟩ | ⟨hv, -⟩
      · rw [hw]
        rfl
      · rw [hv]
        rfl
    | some l =>
      obtain ⟨hl, after, before, hsplit, hafter⟩ := find?_eq_some_iff_append.mp hfind
      have hls : ls = before.reverse ++ l :: after.reverse := by
        rw [← reverse_reverse ls, hsplit]
        simp
      have hl : l.op.Settles key := of_decide_eq_true hl
      have hafter : ∀ l' ∈ after.reverse, ¬ l'.op.Settles key := fun l' hl' => by
        simpa using hafter l' (mem_reverse.mp hl')
      subst hls
      rw [valsep_applyRecs_of_last hl hafter, liveHash, liveStored, foldl_append, foldl_cons]
      set v := before.reverse.foldl (fun v l => l.op.live key v) none
      rcases foldl_live_of_not_settles hafter (l.op.live key v) with ⟨⟨w, hw⟩, hin⟩ | ⟨hv, -⟩
      · -- an inline value behind it: then it was a tombstone
        rw [hw]
        cases hhash : l.op.hash with
        | none => rfl
        | some h => exact absurd ⟨_, l, _, h, rfl, hl, hhash, hafter, hin⟩ hno
      · rw [hv, live_of_settles hl]

end replay

/-! ## Opening -/

/-- After the operations `ls`: the sidecar holds the hash of every live record that carries
one, and no other; and of the blobs of `d`, those such a record points to are left. -/
structure HashesExact (ls : List Logged) (d : Disk) (s : NsState) : Prop where
  sidecar : ∀ key, s.index.valsep key = liveHash ls key
  kept : ∀ h ino, s.disk.blobs[h]? = some ino ↔ d.blobs[h]? = some ino
    ∧ ∃ key, liveHash ls key = some h

section opening
variable {P : Prims} {d d' : Disk} {o : OpenedFiles} {ls : List Logged}

/-- The blobs follow the sidecar. -/
theorem hashesExact_openLog_iff (config : LogConfig) (clock : Nat → UInt64)
    (fault : Nat → Option Nat)
    (hopen : openNamespace P d = .ok (o, d')) (hblobs : d'.blobs = d.blobs) :
    (∃ s, openLog P config clock fault d = .ok s ∧ HashesExact ls d s)
    ↔ ∀ key, o.index.valsep key = liveHash ls key := by
  obtain ⟨refs, hlog, hrefs⟩ := openLog_eq config clock fault hopen
  constructor
  · rintro ⟨s, hs, hexact⟩
    rw [hlog] at hs
    cases hs
    exact hexact.sidecar
  · intro hside
    refine ⟨_, hlog, hside, fun h ino => ?_⟩
    rw [blobs_freshState config clock fault hrefs, hblobs]
    simp only [← hside]
    rfl

/-- An open of the one file with the operations `ls` finds exactly the hashes of the live
records, and keeps exactly their blobs, if the file does not end like a footer and no value has
shrunk; or if it does, and the footer it is taken for says the same. Not otherwise. -/
theorem recovered_hashes_iff (P : Prims) (config : LogConfig) (clock : Nat → UInt64)
    (fault : Nat → Option Nat)
    {d : Disk} {id ino : Nat} (ls : List Logged) (hfiles : d.listDataFiles = [(id, ino)])
    (hfile : d.inodes ino = logBytes P ls) :
    (∃ s, openLog P config clock fault d = .ok s ∧ HashesExact ls d s)
      ↔ ((¬ ∃ r, (ls.map Logged.toRec).getLast? = some r ∧ magicBytes <:+ r.body)
        ∧ ∀ key, ¬ Shrunk ls key)
        ∨ ∃ es, readFooter P (d.inodes ino) = .ok (some es) ∧ id + 1 ≤ u32Max
          ∧ ∀ key, (applyFooterEntries .empty id es).valsep key = liveHash ls key := by
  have hfiles' : d.listDataFiles = [] ++ [(id, ino)] := hfiles
  have hplain := readFooter_recs_iff P (ls.map Logged.toRec)
  have hread : readFooter P (d.inodes ino) = readFooter P (recsBytes P (ls.map Logged.toRec)) :=
    by rw [hfile]; rfl
  rw [← hplain, ← hread]
  have herr : ∀ e, openNamespace P d = .error e → ¬ ∃ s, openLog P config clock fault d = .ok s
      ∧ HashesExact ls d s := by
    rintro e hopen ⟨s, hs, -⟩
    simp only [openLog, hopen, bind, Except.bind] at hs
    cases hs
  cases hfoot : readFooter P (d.inodes ino) with
  | error e =>
    have hopen : openNamespace P d = .error e := by
      unfold openNamespace
      rw [hfiles', getLast?_concat]
      simp only [dropLast_concat, loadAllSealed, hfoot, bind, Except.bind]
    simp [herr e hopen]
  | ok footer =>
    cases footer with
    | none =>
      obtain ⟨-, hopen⟩ := (open_replays_iff P (ls.map Logged.toRec) hfiles' rfl hfile).mpr
        (hplain.mp (hread ▸ hfoot))
      rw [hashesExact_openLog_iff config clock fault hopen rfl]
      simp [valsep_applyRecs_iff]
    | some es =>
      by_cases hid : id + 1 ≤ u32Max
      · have hopen : openNamespace P d = .ok (⟨[⟨id, ino⟩], ⟨id + 1, (d.openCreateData (id + 1)).1⟩,
            applyFooterEntries .empty id es⟩, (d.openCreateData (id + 1)).2) := by
          unfold openNamespace
          rw [hfiles', getLast?_concat]
          simp only [dropLast_concat, loadAllSealed, hfoot, bind, Except.bind,
            Nat.not_lt.mpr hid, if_false]
          rfl
        have hblobs : (d.openCreateData (id + 1)).2.blobs = d.blobs := by
          unfold Disk.openCreateData
          split <;> rfl
        rw [hashesExact_openLog_iff config clock fault hopen hblobs]
        simp [hid]
      · have hopen :
            openNamespace P d
            = .error (.badRecord 0 "file_id overflow on clean-shutdown recovery") := by
          unfold openNamespace
          rw [hfiles', getLast?_concat]
          simp only [dropLast_concat, loadAllSealed, hfoot, bind, Except.bind,
            Nat.lt_of_not_le hid, if_true]
        simp [herr _ hopen, hid]

end opening

/-- A put of the key `a` whose value is the blob of the single byte 0. -/
def blobPut (tstampMs : UInt64) : Logged :=
  { tstampMs, op := .put [0x61] (.blob (realPrims.contentHash [0])) [] none, fits := by decide }

/-- The directory of one file with these operations, and that blob. -/
def oneBlob (ls : List Logged) : Disk :=
  { Disk.single 0 (logBytes realPrims ls) with
    valuesDir := true, blobs := (∅ : Std.ExtTreeMap ContentHash Nat).insert
      (realPrims.contentHash [0]) 1 }

/-- From small to large. -/
theorem recovered_hashes_iff_grown :
    ∃ s, openLog realPrims .default (fun _ => 0) (fun _ => none)
        (oneBlob [plainPut 1 [0x61] [0x31] (by decide), blobPut 2]) = .ok s
      ∧ HashesExact [plainPut 1 [0x61] [0x31] (by decide), blobPut 2]
        (oneBlob [plainPut 1 [0x61] [0x31] (by decide), blobPut 2]) s :=
  (recovered_hashes_iff realPrims .default (fun _ => 0) (fun _ => none)
    [plainPut 1 [0x61] [0x31] (by decide), blobPut 2] (by decide : _ = [(0, 0)])
      (by simp [oneBlob, Disk.single])).mpr
    (.inl ⟨by
      rintro ⟨r, hr, hsuf⟩
      cases hr
      exact absurd hsuf (by decide), by
      rintro key ⟨before, l, after, h, hsplit, hl, -, -, l', hl', -⟩
      rcases before with _ | ⟨_, _ | ⟨_, before⟩⟩
      · cases hsplit
        cases hl.2
      · cases hsplit
        cases hl'
      · simp at hsplit⟩)

/-- From large to small: after a restart the key has the hash of the value it no longer has, and
the blob, which no live record points to, is kept. -/
theorem shrunk_value_keeps_blob :
    (openLog realPrims .default (fun _ => 0) (fun _ => none)
        (oneBlob [blobPut 1, plainPut 2 [0x61] [0x31] (by decide)])).toOption.map
      (fun s => (s.index.valsep [0x61], s.disk.blobs.contains (realPrims.contentHash [0])))
        = some (some (realPrims.contentHash [0]), true)
    ∧ liveStored [blobPut 1, plainPut 2 [0x61] [0x31] (by decide)] [0x61]
    = some (.inline [0x31]) := by
  refine ⟨?_, ?_⟩ <;> decide +kernel

end BeyondKv
