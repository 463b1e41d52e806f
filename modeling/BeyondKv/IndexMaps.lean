/-
# The maps of the index

The index has a map of keys, two sidecars, one of expiries and one of content hashes, and a count
of the keys. The sidecars are meant to have entries for keys of the map only, and the count to be
their number (`Tidy`).

Every operation of the index keeps this but one: `set_ttl` puts an expiry in for any key. Recovery
looks first whether the key is there; `ttl_update` leaves that to its callers, whose look is over
by the time the record has been written. So the index is tidy whatever runs, as long as each
expiry that is set finds its key (`index_tidy`).
-/
import BeyondKv.BlobCounts
import BeyondKv.Stamps
import BeyondKv.Lib.Interleave

namespace BeyondKv

open Async

/-- The sidecars go with the map, and the count is its size. -/
structure NsIndex.Tidy (idx : NsIndex) : Prop where
  ttl : idx.TtlLive
  valsep : idx.Paired
  count : idx.liveCount = idx.map.size

section tidy
variable {idx : NsIndex}

theorem NsIndex.TtlLive.insert (h : idx.TtlLive) (key : Bytes) (e : IndexEntry)
    (x : Option UInt64) :
    (idx.insert key e x).TtlLive := by
  intro k hk
  by_cases heq : key = k
  · simp [heq] at hk
  · simp only [get_insert, ttl_insert, if_neg heq] at hk ⊢
    exact h k hk

theorem NsIndex.TtlLive.setTtl (h : idx.TtlLive) (key : Bytes) (x : Option UInt64)
    (hkey : x.isSome → (idx.get key).isSome) : (idx.setTtl key x).TtlLive := by
  intro k hk
  rw [get_setTtl] at hk
  rw [ttl_setTtl]
  by_cases heq : key = k
  · subst heq
    rw [if_pos rfl]
    cases x with
    | none => rfl
    | some ms =>
      have hsome := hkey rfl
      rw [hk] at hsome
      cases hsome
  · rw [if_neg heq]
    exact h k hk

theorem NsIndex.TtlLive.remove (h : idx.TtlLive) (key : Bytes) : (idx.remove key).2.TtlLive := by
  intro k hk
  by_cases heq : key = k
  · simp [heq]
  · simp only [get_remove, ttl_remove, if_neg heq] at hk ⊢
    exact h k hk

theorem NsIndex.count_insert (h : idx.liveCount = idx.map.size) (key : Bytes) (e : IndexEntry)
    (x : Option UInt64) :
    (idx.insert key e x).liveCount = (idx.insert key e x).map.size := by
  have hget : ((idx.setTtl key x).get key).isNone = !idx.map.contains key := by
    rw [get_setTtl, get, ← Option.not_isSome, ← Std.ExtTreeMap.contains_eq_isSome_getElem?]
  have hmap : (idx.setTtl key x).map = idx.map := by cases x <;> rfl
  have hcount : (idx.setTtl key x).liveCount = idx.liveCount := by cases x <;> rfl
  simp only [insert, hget, hmap, hcount, h, Std.ExtTreeMap.size_insert]
  by_cases hkey : key ∈ idx.map <;> simp [hkey]

theorem NsIndex.count_remove (h : idx.liveCount = idx.map.size) (key : Bytes) :
    (idx.remove key).2.liveCount = (idx.remove key).2.map.size := by
  have hget : (idx.get key).isSome = idx.map.contains key :=
    Std.ExtTreeMap.contains_eq_isSome_getElem?.symm
  simp only [remove, hget, h, Std.ExtTreeMap.size_erase]

theorem NsIndex.closed_tidy : Closed Tidy where
  empty := ⟨ttlLive_empty, closed_paired.empty, rfl⟩
  insert key e x h :=
    ⟨h.ttl.insert key e x, closed_paired.insert key e x h.valsep, count_insert h.count key e x⟩
  setTtl key x h hkey :=
    ⟨h.ttl.setTtl key x hkey, h.valsep.setTtl key x, by cases x <;> exact h.count⟩
  setValsep key hash h hkey := by
    refine ⟨fun k hk => ?_, closed_paired.setValsep key hash h.valsep hkey,
      by cases hash <;> exact h.count⟩
    rw [get_setValsep] at hk
    rw [ttl_setValsep]
    exact h.ttl k hk
  remove key h := ⟨h.ttl.remove key, closed_paired.remove key h.valsep, count_remove h.count key⟩

end tidy

/-! ## Runs -/

/-- An expiry that is set finds its key. -/
def Effect.Placed (s : NsState) : Effect → Prop
  | .ttl key (some _) => (s.index.get key).isSome = true
  | _ => True

def Point.Placed (s : NsState) : Point → Prop
  | .effect es => ∀ e ∈ es, e.Placed s
  | _ => True

/-- The runs in which every expiry does. -/
def placing : Discipline NsState Point Unit := ⟨fun _ _ g => g, fun l _ s => l.Placed s⟩

def logTasks (P : Prims) (calls : List Call) : List (Task Unit) :=
  calls.map fun c => do let _ ← (c.act P).run

section runs
variable {I : NsIndex → Prop} {α β : Type}

/-- A step keeps a property of the index. -/
def Preserves (I : NsIndex → Prop) (s s' : NsState) : Prop := I s.index → I s'.index

/-- The property holds between any two steps. -/
abbrev throughout (I : NsIndex → Prop) : Regime NsState Point Unit Unit :=
  .plain placing fun _ _ s => I s.index

/-- Every step of the program keeps it. -/
abbrev Keeping (I : NsIndex → Prop) (p : Task α) : Prop :=
  p.Within (fun _ => True) (Awaits fun _ => True) (Preserves I)

theorem preserves_same (s s' : NsState) (h : Same NsState.index s s') :
    Preserves I s s' := fun hs =>
  (show s'.index = s.index from h) ▸ hs

theorem keeping_calm {p : Task α} (h : Calm (fun _ => True) NsState.index p) : Keeping I p :=
  within_of_calm preserves_same h

theorem keeping_modify {f : NsState → NsState} (h : ∀ s, I s.index → I (f s).index) :
    Keeping I (lift (Prog.modify f)).run :=
  Prog.Within.run_lift (Prog.within_modify h)

theorem keeping_writing {P : Prims} {key : Bytes} {body : Act α} (h : Keeping I body.run) :
    Keeping I (writing P key body).run :=
  .run_seq (keeping_calm (calm_lift calm_awaitReclaim)) fun _ =>
    .run_seq (keeping_calm calm_beginWrite) fun _ =>
    within_guarded preserves_same same_endWrite
      (.run_seq (keeping_calm (calm_lift (calm_lockStripe _))) fun _ =>
      within_guarded preserves_same (same_setStripe _ false) h)

variable (P : Prims) (hI : NsIndex.Closed I)
include hI

/-! ### Puts -/

theorem keeping_commitPut (key value m : Bytes) (x : Option UInt64) :
    Keeping I (commitPut P key value m x).run := by
  refine .run_seq (keeping_calm (calm_lift calm_nextTstamp)) fun tstamp =>
    .run_seq (keeping_calm (calm_maybeSeparate P value)) fun sep =>
    .run_seq (keeping_calm (calm_encodeOp P _ _ _)) fun buf =>
      .run_seq (keeping_calm (calm_lift (calm_at .io rfl))) fun _ =>
      .run_seq (keeping_calm (calm_lift (calm_gets _))) fun f =>
        .run_seq (keeping_calm (calm_appendOrUnref f buf _)) fun off =>
        .run_seq (keeping_calm (calm_lift (calm_countAppend f off _))) fun _ =>
          .run_seq (keeping_calm (calm_lift (calm_at .effect rfl))) fun _ =>
            .run_seq (keeping_modify fun s hs => ?_) fun _ =>
            .run_seq (keeping_calm (calm_rotateIfFull P f)) fun _ => trivial
  have hindex := same_unref? (π := NsState.index) (s.index.valsep key)
    (s.setIndex
      ((s.index.insert key (IndexEntry.new f.fileId off buf.length tstamp) x).setValsep key sep))
  exact preserves_same _ _ hindex (hI.put _ _ _ _ hs)

theorem keeping_putFullCond (key value m : Bytes) (x : Option UInt64) (cond : WriteCondition)
    (now : UInt64) :
    Keeping I (putFullCond P key value m x cond now).run := by
  refine keeping_writing (.run_seq (keeping_calm (calm_lift (calm_gets _))) fun rev => ?_)
  by_cases hcond : cond.check rev = true
  · simp only [hcond, if_true]
    exact .run_seq (keeping_commitPut P hI key value m x) fun _ => trivial
  · simp only [hcond]
    exact .run_seq (keeping_calm (calm_lift (calm_at .effect rfl))) fun _ => trivial

theorem closed_items (fileId base : Nat) (items : List BatchItem) (old : List ContentHash)
    {idx : NsIndex} (h : I idx) :
    I (items.foldl (insertItem fileId base) (idx, old)).1 := by
  induction items generalizing idx old with
  | nil => exact h
  | cons it items ih => exact ih _ (hI.put _ _ _ _ h)

theorem keeping_putMany (pairs : List (Bytes × Bytes)) : Keeping I (putMany P pairs).run := by
  refine .run_seq (keeping_calm (calm_lift calm_awaitReclaim)) fun _ =>
    .run_seq (keeping_calm calm_beginWrite) fun _ =>
    within_guarded preserves_same same_endWrite ?_
  by_cases hempty : pairs.isEmpty = true
  · simp only [hempty, if_true]
    exact .run_seq (keeping_calm (calm_lift (calm_at .effect rfl))) fun _ => trivial
  · simp only [hempty]
    refine .run_seq (keeping_calm (calm_lift (calm_lockStripes _))) fun _ =>
      within_guarded preserves_same (same_unlockStripes _)
        (.run_seq (keeping_calm (calm_encodeBatch P pairs [])) fun r =>
        .run_seq (keeping_calm (calm_lift (calm_at .io rfl))) fun _ =>
          .run_seq (keeping_calm (calm_lift (calm_gets _))) fun f =>
          .run_seq (keeping_calm (calm_appendOrUnref f r.1 _)) fun base =>
            .run_seq (keeping_calm (calm_lift (calm_countAppend f base _))) fun _ =>
              .run_seq (keeping_calm (calm_lift (calm_at .effect rfl))) fun _ =>
                .run_seq (keeping_modify fun s hs => ?_) fun _ =>
                .run_seq (keeping_calm (calm_rotateIfFull P f)) fun _ => trivial)
    exact preserves_same _ _ (same_unrefs (π := NsState.index) _ _) (closed_items hI _ _ _ _ hs)

/-! ### Deletes -/

theorem keeping_commitTombstone (key : Bytes) : Keeping I (commitTombstone P key).run :=
  .run_seq (keeping_calm (calm_lift (calm_at .effect rfl))) fun _ =>
    .run_seq (Prog.Within.run_lift (Prog.within_step fun _ hs => hI.remove key hs)) fun _ =>
      .run_seq (keeping_calm (calm_lift calm_nextTstamp)) fun _ =>
        .run_seq (keeping_calm (calm_encodeOp P _ _ _)) fun buf =>
        .run_seq (keeping_calm (calm_lift (calm_at .io rfl))) fun _ =>
          .run_seq (keeping_calm (calm_lift (calm_gets _))) fun f =>
          .run_seq (keeping_calm (calm_append f buf)) fun off =>
            .run_seq (keeping_calm (calm_lift (calm_countAppend f off _))) fun _ =>
            .run_seq (keeping_calm (calm_lift (Prog.within_modify fun s => same_unref? _ s)))
              fun _ => trivial

theorem keeping_tombstone (key : Bytes) : Keeping I (tombstone P key).run := by
  refine keeping_writing (.run_seq (keeping_calm (calm_lift (calm_gets _))) fun present => ?_)
  cases present with
  | true => exact .run_seq (keeping_commitTombstone P hI key) fun _ => trivial
  | false =>
    exact .run_seq (keeping_calm (calm_lift (calm_at .effect rfl))) fun _ =>
      .run_seq (keeping_modify fun _ hs => hI.remove key hs) fun _ => trivial

theorem keeping_tombstoneCond (key : Bytes) (rev now : UInt64) :
    Keeping I (tombstoneCond P key rev now).run := by
  refine keeping_writing (.run_seq (keeping_calm (calm_lift (calm_gets _))) fun found => ?_)
  cases found with
  | true => exact .run_seq (keeping_commitTombstone P hI key) fun _ => trivial
  | false => exact .run_seq (keeping_calm (calm_lift (calm_at .effect rfl))) fun _ => trivial

/-! ### Merges and flushes -/

theorem preserves_merge (lvl : Nat) (ids : List Nat) (f : LogFile) (entries : List LiveKey)
    (s : NsState) :
    Preserves I s (commitMerge lvl ids f entries s) := by
  intro hs
  change I (entries.foldl (fun idx x => idx.insert x.1 x.2.1 x.2.2) s.index)
  generalize s.index = idx at hs
  induction entries generalizing idx with
  | nil => exact hs
  | cons x entries ih => exact ih _ (hI.insert _ _ _ hs)

theorem keeping_reclaim : Keeping I (reclaim P).run :=
  within_reclaim preserves_same (preserves_merge hI) P

theorem keeping_flush : Keeping I flush.run := by
  refine .run_seq (keeping_calm (calm_lift calm_awaitReclaim)) fun _ =>
    .run_seq (keeping_calm (calm_lift (Prog.within_step fun s => same_setReclaiming true s)))
      fun busy => ?_
  refine act_unless (fun p => Keeping I p.run) ?_ fun h => .run_seq trivial fun _ => h
  exact .run_seq (keeping_calm (calm_lift (calm_at .lock rfl))) fun _ =>
    .run_seq (keeping_calm (calm_lift calm_drainWrites)) fun _ =>
    .run_seq (keeping_calm (calm_lift calm_nextTstamp)) fun _ =>
      .run_seq (keeping_calm (calm_lift (calm_at .lock rfl))) fun _ =>
      within_guarded preserves_same (same_setReclaiming false)
        (.run_seq (within_flushInner preserves_same fun _ _ => hI.empty) fun _ => trivial)

/-! ### Expiries -/

omit hI in
theorem Keeping.triple {p : Task α} (h : Keeping I p) : Triple (throughout I) 0 p (Owning 0) :=
  Triple.within (fun _ _ _ _ _ hs => hs) (fun _ _ _ => trivial) (fun _ _ _ _ hs hstep => hstep hs) h

omit hI in
theorem triple_released {rs : List Resource} {release : NsState → NsState} {body : Act α}
    (hrelease : ∀ s, Same NsState.index s (release s))
    (h : Triple (throughout I) 0 body.run (Owning 0)) :
    Triple (throughout I) 0 (guarded rs release body).run (Owning 0) := by
  refine h.seq ?_
  rintro r _ rfl
  have hend : Calm (fun _ => True) NsState.index (do Prog.modify release; dropAll rs; return r) :=
    .seq (Prog.within_modify hrelease) fun _ => .seq (calm_dropAll fun _ _ => trivial)
      fun _ => trivial
  exact (Keeping.triple (keeping_calm hend)).conseq fun _ _ h => h

/-- An expiry is set where its key is. -/
theorem triple_setTtl (key : Bytes) (x : Option UInt64) (tstamp : UInt64) :
    Triple (throughout I) 0 (do
      lift (Prog.at_ (.effect [.ttl key x]))
      lift (Prog.modify fun s => s.setIndex (s.index.setTtl key x))
      return tstamp : Act UInt64).run (Owning 0) := by
  intro f g s hs hplaced
  refine ⟨0, hI.setTtl key x hs fun hx => ?_, rfl⟩
  obtain ⟨ms, rfl⟩ := Option.isSome_iff_exists.mp hx
  exact hplaced (.ttl key (some ms)) (List.mem_singleton_self _)

theorem triple_ttlUpdate (key : Bytes) (x : Option UInt64) :
    Triple (throughout I) 0 (ttlUpdate P key x).run (Owning 0) := by
  have hcalm : ∀ {γ : Type} {p : Act γ}, Calm (fun _ => True) NsState.index p.run →
      Triple (throughout I) 0 p.run (Owning 0) := fun h => Keeping.triple (keeping_calm h)
  have hbody := Triple.run_after (hcalm (calm_lift calm_nextTstamp)) (fun tstamp =>
    Triple.run_after (hcalm (calm_encodeOp P [] tstamp (.ttlUpdate key x))) (fun buf =>
      Triple.run_after (hcalm (calm_lift (calm_at (l := .reserve) .io rfl))) (fun _ =>
        Triple.run_after (hcalm (calm_lift (calm_gets NsState.active))) (fun active =>
          Triple.run_after (hcalm (calm_append active buf)) (fun offset =>
            Triple.run_after (hcalm (calm_lift (calm_countAppend active offset buf.length)))
              (fun _ => triple_setTtl hI key x tstamp) fun _ => rfl) fun _ => rfl) fun _ => rfl)
                fun _ => rfl)
      fun _ => rfl) fun _ => rfl
  refine Triple.run_after (hcalm (calm_lift calm_awaitReclaim)) (fun _ => ?_) fun _ => rfl
  refine Triple.run_after (hcalm calm_beginWrite) (fun _ => triple_released same_endWrite ?_)
    fun _ => rfl
  refine Triple.run_after (hcalm (calm_lift (calm_lockStripe _))) (fun _ => ?_) fun _ => rfl
  exact triple_released (same_setStripe _ false) hbody

/-! ### Calls -/

theorem triple_call (c : Call) : Triple (throughout I) 0 (c.act P).run (Owning 0) := by
  have hret : ∀ {γ δ : Type} {p : Act γ} {k : γ → δ}, Keeping I p.run →
    Triple (throughout I) 0 (p >>= fun a => pure (k a)).run (Owning 0) :=
    fun h => Keeping.triple (.run_seq h fun _ => trivial)
  cases c with
  | putFull k v m x => exact hret (keeping_writing (keeping_commitPut P hI k v m x))
  | putFullCond k v m x cond now => exact hret (keeping_putFullCond P hI k v m x cond now)
  | putMany pairs => exact (keeping_putMany P hI pairs).triple
  | tombstone k => exact hret (keeping_tombstone P hI k)
  | tombstoneCond k rev now => exact hret (keeping_tombstoneCond P hI k rev now)
  | ttlUpdate k x =>
    refine Triple.run_after (triple_ttlUpdate P hI k x) (fun _ => ?_) fun _ => rfl
    exact Triple.ret rfl
  | rotateActive => exact hret (keeping_calm (calm_rotateActive P))
  | reclaim => exact hret (keeping_reclaim P hI)
  | sync => exact hret (keeping_calm calm_syncLog)
  | flush => exact hret (keeping_flush hI)
  | restart config clock => exact hret (keeping_calm (calm_seal P))

theorem Runs.closed {calls : List Call} {s₀ : NsState} (hstart : I s₀.index)
    {w : Pool NsState Point Unit}
    (hrun : Runs placing (.of (logTasks P calls) () s₀) w) : I w.state.index := by
  obtain ⟨M, hinv, -⟩ := Runs.inv (Γ := throughout I) hrun hstart fun p hp f g s hs => by
    obtain ⟨c, -, rfl⟩ := List.mem_map.mp hp
    have hclean : Triple (throughout I) 0 (do let _ ← (c.act P).run : Task Unit) Clean :=
      (triple_call P hI c).seq fun _ own hown => .ret hown
    exact hclean f g s hs
  exact hinv

theorem closed_openLog {config : LogConfig} {clock : Nat → UInt64} {fault : Nat → Option Nat}
    {d : Disk} {s : NsState}
    (hopen : openLog P config clock fault d = .ok s) : I s.index := by
  cases hfiles : openNamespace P d with
  | error e => simp [openLog, hfiles, bind, Except.bind] at hopen
  | ok x =>
    obtain ⟨o, d'⟩ := x
    obtain ⟨refs, hlog, -⟩ := openLog_eq config clock fault hfiles
    cases hopen.symm.trans hlog
    exact hI.openNamespace hfiles

end runs

/-- A log that has been opened has a tidy index, and so has every state it gets to by calls made in
any order and at once, if every expiry that is set finds its key. -/
theorem index_tidy (P : Prims) (calls : List Call) {config : LogConfig} {clock : Nat → UInt64}
    {fault : Nat → Option Nat}
    {d : Disk} {s₀ : NsState} (hopen : openLog P config clock fault d = .ok s₀) :
    s₀.index.Tidy ∧ ∀ w, Runs placing (.of (logTasks P calls) () s₀) w → w.state.index.Tidy := by
  have hstart := closed_openLog P NsIndex.closed_tidy hopen
  exact ⟨hstart, fun w hrun => Runs.closed P NsIndex.closed_tidy hstart hrun⟩

instance (s : NsState) : (e : Effect) → Decidable (e.Placed s)
  | .ttl key (some _) => inferInstanceAs (Decidable ((s.index.get key).isSome = true))
  | .ttl _ none | .put .. | .del _ | .clear => isTrue trivial

instance (s : NsState) (l : Point) : Decidable (l.Placed s) :=
  match l with
  | .effect es => inferInstanceAs (Decidable (∀ e ∈ es, e.Placed s))
  | .reserve | .snapshot | .write .. | .readBlob _ | .acked .. | .fsync .. | .fsynced _
      | .counted .. | .reset _
  | .wants _ | .passes _ | .holds _ | .drops _ => isTrue trivial

instance (l : Point) (g : Unit) (s : NsState) : Decidable (placing.allows l g s) :=
  inferInstanceAs (Decidable (l.Placed s))

/-- Calls on a fresh log, resumed in the order given. -/
def runLog (D : Discipline NsState Point Unit) [∀ l g s, Decidable (D.allows l g s)]
    (calls : List Call)
    (turns : List Nat) : Option (NsState × Pool NsState Point Unit) :=
  (openLog realPrims .default (fun _ => 100) (fun _ => none) Disk.empty).toOption.bind fun s =>
    (schedule D (turns.map (·, [])) (.of (logTasks realPrims calls) () s)).map (s, ·)

/-- A key is put and given an expiry. -/
theorem index_tidy_expiring :
    ∃ s₀ w, openLog realPrims .default (fun _ => 100) (fun _ => none) Disk.empty = .ok s₀
      ∧ Runs placing
      (.of (logTasks realPrims [.putFull [0x61] [0] [] none, .ttlUpdate [0x61] (some 99)]) () s₀) w
      ∧ w.state.index.ttl [0x61] = some 99 ∧ w.state.index.Tidy := by
  have hview :
    (runLog placing [.putFull [0x61] [0] [] none, .ttlUpdate [0x61] (some 99)]
    [0, 0, 0, 1, 1, 1]).map
      (fun x => x.2.state.index.ttl [0x61]) = some (some 99) := by decide +kernel
  obtain ⟨⟨s₀, w⟩, hsome, httl⟩ := Option.map_eq_some_iff.mp hview
  obtain ⟨s, hopened, hturns⟩ := Option.bind_eq_some_iff.mp hsome
  obtain ⟨w', hw, heq⟩ := Option.map_eq_some_iff.mp hturns
  cases heq
  have hopen : openLog realPrims .default (fun _ => 100) (fun _ => none) Disk.empty = .ok s₀ := by
    cases hlog : openLog realPrims .default (fun _ => 100) (fun _ => none) Disk.empty with
    | error e => rw [hlog] at hopened; cases hopened
    | ok s => rw [hlog] at hopened; exact congrArg _ (Option.some.inj hopened)
  have hrun := runs_of_schedule .start hw
  exact ⟨s₀, w, hopen, hrun, httl, (index_tidy realPrims _ hopen).2 w hrun⟩

/-- The key has been deleted by the time its expiry is set. -/
theorem expiry_without_key :
    (runLog (.record fun _ _ g => g)
        [.putFull [0x61] [0] [] none, .tombstone [0x61], .ttlUpdate [0x61] (some 99)]
          [0, 0, 0, 1, 1, 1, 2, 2, 2]).map
      (fun x => (x.2.tasks.all fun p => p.returned.isSome, x.2.state.index.get [0x61],
        x.2.state.index.ttl [0x61]))
      = some (true, none, some 99) := by
  decide +kernel

end BeyondKv
