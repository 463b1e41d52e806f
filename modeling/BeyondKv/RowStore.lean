/-
# Rows and the shard store

The calls on several keys are compared with one another on rows. Here the rows are those of a
shard store: what its index says of each key. A call that runs alone and succeeds returns what
it does on rows, and leaves the index of the rows it leaves. The values are not compared; the
index says where they are, not what they are.
-/
import BeyondKv.Rows
import BeyondKv.Writes

namespace BeyondKv

open Async Option

/-- The rows have the keys of the index, with their revisions and expiries. -/
def Rows.Indexed {J : Serde} (t : Rows J) (i : NsIndex) : Prop :=
  ∀ key, (t key).map (fun e => (e.revision, e.expiresAtMs))
    = (i.get key).map fun e => (e.tstampMs, i.ttl key)

/-- Every index has rows. -/
theorem NsIndex.indexes (J : Serde) (i : NsIndex) : ∃ t : Rows J, t.Indexed i :=
  ⟨fun key => (i.get key).map fun e => ⟨[], i.ttl key, none, e.tstampMs⟩,
    fun key => by simp [Function.comp_def]⟩

namespace Rows.Indexed
variable {J : Serde} {t : Rows J} {i : NsIndex}

theorem isSome (h : t.Indexed i) (key : Bytes) : (t key).isSome = (i.get key).isSome := by
  have hkey := congrArg Option.isSome (h key)
  rwa [isSome_map, isSome_map] at hkey

theorem past (h : t.Indexed i) (now : UInt64) (key : Bytes) :
    t.past (fun _ => now) key = ((i.get key).isSome && i.isExpired key now) := by
  have hkey := h key
  unfold Rows.past
  cases ht : t key with
  | none =>
    rw [ht, map_none, eq_comm, map_eq_none_iff] at hkey
    rw [hkey]
    rfl
  | some e =>
    rw [ht, map_some, eq_comm, map_eq_some_iff] at hkey
    obtain ⟨entry, hget, heq⟩ := hkey
    rw [hget, any_some, ← (Prod.mk.inj heq).2]
    rfl

/-- A key that is there is live unless its expiry is past. -/
theorem live (h : t.Indexed i) (now : UInt64) (key : Bytes) :
    ((t key).isSome && !t.past (fun _ => now) key)
      = ((i.get key).isSome && !i.isExpired key now) := by
  rw [h.isSome, h.past]
  cases (i.get key).isSome <;> rfl

theorem remove (h : t.Indexed i) (key : Bytes) : (t.remove key).Indexed (i.remove key).2 := by
  intro k
  by_cases hk : key = k
  · simp [Rows.remove, hk]
  · simpa [Rows.remove, hk, Function.update_of_ne (Ne.symm hk)] using h k

theorem put (h : t.Indexed i) (key value : Bytes) (e : IndexEntry) (sep : Option ContentHash) :
    (t.put key value e.tstampMs).Indexed ((i.insert key e none).setValsep key sep) := by
  intro k
  by_cases hk : key = k
  · simp [Rows.put, hk]
  · simpa [Rows.put, hk, Function.update_of_ne (Ne.symm hk)] using h k

theorem putAll (h : t.Indexed i) {fileId base : Nat} {items : List BatchItem}
    {pairs : List (Bytes × Bytes)} (hkeys : items.map BatchItem.key = pairs.map Prod.fst)
    (old : List ContentHash) :
    (Rows.putAll (fun n => (items.map BatchItem.tstamp).getD n 0) pairs t).Indexed
      (items.foldl (insertItem fileId base) (i, old)).1 := by
  induction items generalizing pairs t i old with
  | nil =>
    cases pairs with
    | nil => exact h
    | cons pair pairs => cases hkeys
  | cons it items ih =>
    cases pairs with
    | nil => cases hkeys
    | cons pair pairs =>
      obtain ⟨key, value⟩ := pair
      obtain ⟨hkey, hrest⟩ := List.cons_eq_cons.mp hkeys
      obtain rfl : it.key = key := hkey
      exact ih (h.put it.key value (IndexEntry.new fileId (base + it.start) it.size it.tstamp)
        it.sepHash) hrest _

end Rows.Indexed

/-! ## Batches -/

theorem keys_encodeBatch {P : Prims} {pairs : List (Bytes × Bytes)} {buf out : Bytes}
    {items : List BatchItem} {s s' : NsState}
    (h : ends (encodeBatch P pairs buf).run s = some (.ok (out, items), s')) :
    items.map BatchItem.key = pairs.map Prod.fst := by
  induction pairs generalizing buf out items s with
  | nil =>
    cases h
    rfl
  | cons pair pairs ih =>
    obtain ⟨k, v⟩ := pair
    obtain ⟨t, s₁, -, h⟩ := of_ends_run_seq h
    obtain ⟨sep, s₂, -, h⟩ := of_ends_run_seq h
    obtain ⟨buf', s₃, -, h⟩ := of_ends_run_seq h
    obtain ⟨⟨out', rest⟩, s₄, hrest, h⟩ := of_ends_run_seq h
    cases h
    rw [List.map_cons, List.map_cons, ih hrest]

/-- The pairs are in the index, one after another, with the revisions returned. -/
def BatchYields (pairs : List (Bytes × Bytes)) (i : NsIndex) (r : Except EngineError (List UInt64))
    (j : NsIndex) : Prop :=
  ∀ revs, r = .ok revs → ∃ (fileId base : Nat) (items : List BatchItem),
    items.map BatchItem.key = pairs.map Prod.fst ∧ revs = items.map BatchItem.tstamp
      ∧ j = (items.foldl (insertItem fileId base) (i, [])).1

theorem yields_putMany (P : Prims) (pairs : List (Bytes × Bytes)) :
    Yields (putMany P pairs) (BatchYields pairs) := by
  have herror : ∀ i e, BatchYields pairs i (.error e) i := fun _ _ _ h => by cases h
  refine .after (calm_lift calm_awaitReclaim) herror fun _ => .after calm_beginWrite herror fun _ =>
    .guarded (fun _ => rfl) ?_
  by_cases hempty : pairs.isEmpty = true
  · rw [if_pos hempty]
    intro s r s' hend revs hr
    cases hend
    cases hr
    exact ⟨0, 0, [], by rw [List.isEmpty_iff.mp hempty]; rfl, rfl, rfl⟩
  rw [if_neg hempty]
  refine .after (calm_lift (calm_lockStripes _)) herror fun _ =>
    .guarded (fun s => same_unlockStripes (π := NsState.index) _ s) ?_
  intro s r s' hend revs hr
  subst hr
  obtain ⟨⟨buf, items⟩, s₁, hencode, hend⟩ := of_ends_run_seq hend
  rw [← Indexless.index (calm_encodeBatch P pairs []) hencode]
  refine (Yields.after (R := BatchYields pairs) (calm_lift (calm_at .io rfl)) herror fun _ =>
    .after (calm_lift (calm_gets _)) herror fun active =>
    .after (calm_appendOrUnref active buf _) herror fun base =>
    .after (calm_lift (calm_countAppend active base _)) herror fun _ =>
    .after (calm_lift (calm_at .effect rfl)) herror fun _ => ?_) s₁ _ s' hend revs rfl
  -- the commit, and a rotation behind it
  intro s r s' hcommit revs hr
  subst hr
  obtain ⟨_, s₂, hmodify, hrest⟩ := of_ends_run_seq hcommit
  obtain ⟨_, s₃, hrotate, hreturn⟩ := of_ends_run_seq hrest
  cases hmodify
  cases hreturn
  refine ⟨active.fileId, base, items, keys_encodeBatch hencode, rfl, ?_⟩
  exact (Indexless.index (calm_rotateIfFull P active) hrotate).trans
    (same_unrefs (π := NsState.index) _ _)

/-! ## Calls -/

namespace ShardStore
variable {J : Serde} {P : Prims} {t : Rows J} {st st' : ShardStore J}

theorem exists_rows (h : t.Indexed st.log.index) (keys : List Bytes) :
    ends (exists_ keys).run st = some (.ok (t.count (fun _ => st.reading) keys), st.ticked) := by
  rw [exists_, ends_run_ok (ends_nowMs st)]
  have hcount : t.count (fun _ => st.reading) keys = keys.countP fun key =>
      (st.log.index.get key).isSome && !st.log.index.isExpired key st.reading :=
    List.countP_congr fun key _ => by rw [h.live]
  rw [hcount]
  rfl

theorem log_forM {α : Type} (f : α → StoreAct J Unit)
    (hf : ∀ x s r s', ends (f x).run s = some (r, s') → s'.log = s.log) (xs : List α)
    {s s' : ShardStore J} {r : Except EngineError Unit}
    (h : ends (xs.forM f).run s = some (r, s')) : s'.log = s.log := by
  induction xs generalizing s with
  | nil =>
    cases h
    rfl
  | cons x xs ih =>
    obtain ⟨⟨r₁, s₁⟩, hfirst, hrest⟩ := bind_eq_some_iff.mp ((ends_run_seq ..).symm.trans h)
    rw [← hf x _ _ _ hfirst]
    cases r₁ with
    | ok _ => exact ih hrest
    | error e =>
      cases hrest
      rfl

theorem mset_rows (h : t.Indexed st.log.index) {pairs : List (Bytes × Bytes)}
    (hend : ends (mset P pairs).run st = some (.ok (), st')) :
    ∃ revisions, (t.putAll revisions pairs).Indexed st'.log.index := by
  obtain ⟨revs, st₁, hput, hend⟩ := of_ends_run_seq hend
  obtain ⟨_, st₂, hcache, hnotify⟩ := of_ends_run_seq hend
  rw [log_forM _ (fun _ _ _ _ hx => by cases hx; rfl) _ hnotify,
    log_forM _ (fun _ _ _ _ hx => by cases hx; rfl) _ hcache]
  rw [ends_onLog] at hput
  obtain ⟨⟨r, s⟩, hlog, heq⟩ := map_eq_some_iff.mp hput
  cases heq
  obtain ⟨fileId, base, items, hkeys, -, hindex⟩ := yields_putMany P pairs _ _ _ hlog revs rfl
  exact ⟨_, hindex ▸ h.putAll hkeys []⟩

/-- Over the keys: what the tombstones return, and what is counted of it. -/
theorem tombstones_rows {keys : List Bytes} {flags : List Bool} {n count : Nat}
    {rs : List (Except EngineError (Option UInt64))} {st₁ st₂ : ShardStore J} {c : Nat}
    (h : t.Indexed st.log.index) (hflags : keys.length = flags.length)
    (hall : endsAll (fun x : Bytes × Nat => (onLogAs (x.2 + 1) (tombstone P x.1)).run)
      (keys.zipIdx n) st = some (rs, st'))
    (hcount : ends (countDeleted ((keys.zip rs).zip flags) c).run st₁ = some (.ok count, st₂)) :
    count = c + (Rows.delEach (keys.zip flags) t).1
      ∧ (Rows.delEach (keys.zip flags) t).2.Indexed st'.log.index ∧ st₂ = st₁ := by
  induction keys generalizing flags n rs st t c with
  | nil =>
    cases hall
    cases hcount
    exact ⟨rfl, h, rfl⟩
  | cons key keys ih =>
    obtain ⟨expired, flags, rfl⟩ := List.exists_of_length_succ flags hflags.symm
    obtain ⟨⟨r, st₃⟩, hfirst, htail⟩ := bind_eq_some_iff.mp hall
    obtain ⟨⟨rs', _⟩, hrest, heq⟩ := map_eq_some_iff.mp htail
    cases heq
    rw [ends_onLogAs] at hfirst
    obtain ⟨⟨_, s⟩, hlog, heq⟩ := map_eq_some_iff.mp hfirst
    cases heq
    obtain ⟨found, _, hr, hcounted⟩ := of_ends_run_seq hcount
    cases hr
    obtain ⟨hfound, hindex⟩ := yields_tombstone P key _ _ _ hlog found rfl
    have h₁ : (t.remove key).Indexed s.index := hindex ▸ h.remove key
    rw [← h.isSome] at hfound
    have hstep : (Rows.delEach ((key, expired) :: keys.zip flags) t).1
        = (Rows.delEach (keys.zip flags) (t.remove key)).1
          + if found.isSome && !expired then 1 else 0 := by
      show (if (t key).isSome && !expired then _ + 1 else _) = _
      rw [← hfound]
      split_ifs <;> rfl
    rw [List.zip_cons_cons, hstep]
    have hlen : keys.length = flags.length := Nat.succ.inj hflags
    cases found with
    | none =>
      obtain ⟨hn, hrows, hst⟩ := ih h₁ hlen hrest hcounted
      exact ⟨by rw [hn]; rfl, hrows, hst⟩
    | some rev =>
      cases expired with
      | true =>
        obtain ⟨hn, hrows, hst⟩ := ih h₁ hlen hrest hcounted
        exact ⟨by rw [hn]; rfl, hrows, hst⟩
      | false =>
        obtain ⟨hn, hrows, hst⟩ := ih (c := c + 1) h₁ hlen hrest hcounted
        refine ⟨?_, hrows, hst⟩
        rw [hn]
        simp [Nat.add_assoc, Nat.add_comm]

theorem del_rows (h : t.Indexed st.log.index) {keys : List Bytes} {count : Nat}
    (hend : ends (del P keys).run st = some (.ok count, st')) :
    count = (t.del (fun _ => st.reading) keys).1
      ∧ (t.del (fun _ => st.reading) keys).2.Indexed st'.log.index := by
  let expired := fun key => st.log.index.isExpired key st.reading
  have hlook : ends (look fun t : ShardStore J => keys.map fun key =>
      t.log.index.isExpired key st.reading).run st.ticked
        = some (.ok (keys.map expired), st.ticked) := rfl
  rw [del, ends_run_ok (ends_nowMs st), ends_run_ok hlook] at hend
  obtain ⟨rs, st₃, hjoin, hend₃⟩ := of_ends_run_seq hend
  obtain ⟨_, st₄, hremove, hcount⟩ := of_ends_run_seq hend₃
  obtain ⟨_, hremoved, hlog⟩ := ends_removeAll keys st₃
  cases hremove.symm.trans hremoved
  rw [ends_run_lift, ends_joinAll] at hjoin
  obtain ⟨⟨_, _⟩, hall, heq⟩ := map_eq_some_iff.mp hjoin
  cases heq
  have hticked : t.Indexed st.ticked.log.index := h
  obtain ⟨hn, hrows, rfl⟩ := tombstones_rows hticked (by simp) hall hcount
  rw [← List.map_prod_left_eq_zip] at hn hrows
  -- the two flags differ for keys that are not there at most
  refine ⟨?_, fun k => ?_⟩
  · rw [hn, Nat.zero_add, Rows.delEach_count, Rows.del_count]
    exact congrArg Finset.card (Finset.filter_congr fun k _ => by rw [h.live, h.isSome])
  · rw [hlog, ← hrows k, Rows.del_apply, Rows.delEach_apply, List.map_map]
    congr 2
    simp [Function.comp_def]

end ShardStore

end BeyondKv
