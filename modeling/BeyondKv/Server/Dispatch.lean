/-
# Commands on several keys

A connection lives on one shard. A command on several keys is cut into buckets by the shard of
the key; the buckets of other shards are sent to their inboxes, the connection's own bucket is
run in place, and the answers are put together, by the index of the argument or by adding up.

The shards work in any order. If every key is where `shard_for_key` says, such a command
answers and does what it would on one store that holds all keys
(`fan_out_is_one_store`).
-/
import BeyondKv.Rows

namespace BeyondKv.Server

open Finset List

/-! ## Buckets -/

/-- What a command knows of its connection: the number of shards, and its own one. -/
structure ConnState where
  nShards : Nat
  shardIdx : Nat
  here : shardIdx < nShards

/-- The bucket of a shard, if there is one. -/
def bucketOf {α : Type} (buckets : List (Option (List α))) (shard : Nat) : Option (List α) :=
  buckets[shard]?.join

section buckets
variable (hash : Bytes → Nat) {α : Type} (keyOf : α → Bytes)

/-- `shard_for_key`, with `hash` for the hasher. -/
def shardForKey (key : Bytes) (n : Nat) : Nat := hash key % n

/-- The loop of `bucket_by_shard`, and of the commands that cut their arguments themselves. -/
def bucketByShard (n : Nat) (items : List α) : List (Option (List α)) :=
  items.foldl (fun buckets x => buckets.modify (shardForKey hash (keyOf x) n) fun b =>
    some (b.getD [] ++ [x]))
    (List.replicate n none)

/-- The arguments whose keys belong to a shard. -/
def share (n shard : Nat) (items : List α) : List α :=
  items.filter fun x => shardForKey hash (keyOf x) n == shard

variable {hash keyOf} {n shard : Nat}

theorem mem_share {items : List α} {x : α} :
    x ∈ share hash keyOf n shard items ↔ x ∈ items ∧ shardForKey hash (keyOf x) n = shard := by
  simp [share]

theorem share_concat (n shard : Nat) (items : List α) (x : α) :
    share hash keyOf n shard (items ++ [x]) =
      share hash keyOf n shard items ++ if shardForKey hash (keyOf x) n = shard
          then [x] else [] := by
  unfold share
  rw [filter_append]
  by_cases hx : shardForKey hash (keyOf x) n = shard <;> simp [hx]

theorem getD_of_nonempty (ys : List α) : (if ys = [] then none else some ys).getD [] = ys := by
  split
  · rename_i hnil
    rw [hnil]
    rfl
  · rfl

theorem bucketByShard_getElem? (hs : shard < n) (items : List α) :
    (bucketByShard hash keyOf n items)[shard]? =
      some
          (if share hash keyOf n shard items = [] then none
          else some (share hash keyOf n shard items)) := by
  -- the loop appends, so the last argument comes off first
  induction items using List.reverseRecOn with
  | nil => simp [bucketByShard, share, hs]
  | append_singleton items x ih =>
    unfold bucketByShard at ih ⊢
    rw [foldl_append, foldl_cons, foldl_nil, getElem?_modify, ih]
    rw [share_concat]
    by_cases hx : shardForKey hash (keyOf x) n = shard
    · simp [hx, getD_of_nonempty]
    · simp [hx]

theorem bucketOf_bucketByShard (hs : shard < n) (items : List α) :
    bucketOf (bucketByShard hash keyOf n items) shard =
      if share hash keyOf n shard items = [] then none
          else some (share hash keyOf n shard items) := by
  rw [bucketOf, bucketByShard_getElem? hs]
  rfl

theorem bucketOf_getD (hs : shard < n) (items : List α) :
    (bucketOf (bucketByShard hash keyOf n items) shard).getD []
    = share hash keyOf n shard items := by
  rw [bucketOf_bucketByShard hs, getD_of_nonempty]

theorem bucketOf_isSome (hs : shard < n) (items : List α) :
    (bucketOf (bucketByShard hash keyOf n items) shard).isSome
    = decide (share hash keyOf n shard items ≠ []) := by
  rw [bucketOf_bucketByShard hs]
  split <;> simp_all

end buckets

/-! ## Requests and answers -/

section exchange
variable {J : Serde} {α β : Type}

/-- The shards run what they were sent, in the given order. -/
def workOff (run : Nat → Rows J → β × Rows J) :
    List Nat → (Nat → Rows J) → (Nat → Option β) × (Nat → Rows J)
  | [], shards => (fun _ => none, shards)
  | i :: order, shards =>
    let (answer, rows) := run i (shards i)
    let (answers, shards') := workOff run order (Function.update shards i rows)
    (Function.update answers i (some answer), shards')

/-- No shard is asked twice, so none sees what another one did. -/
theorem workOff_spec (run : Nat → Rows J → β × Rows J) {order : List Nat} (hnodup : order.Nodup)
    (shards : Nat → Rows J) (i : Nat) :
    (workOff run order shards).1 i = (if i ∈ order then some (run i (shards i)).1 else none) ∧
      (workOff run order shards).2 i = (if i ∈ order then (run i (shards i)).2 else shards i) := by
  induction order generalizing shards with
  | nil => simp [workOff]
  | cons j order ih =>
    obtain ⟨hj, hrest⟩ := nodup_cons.mp hnodup
    obtain ⟨hanswer, hrows⟩ := ih hrest (Function.update shards j (run j (shards j)).2)
    simp only [workOff]
    by_cases hij : i = j
    · subst hij
      simp [hrows, hj]
    · simp [hanswer, hrows, hij]

/-- The buckets are sent, run and answered; the connection's own answer comes first. -/
def exchange (state : ConnState) (order : List Nat)
    (run : Nat → List α → Rows J → Except String β × Rows J)
    (buckets : List (Option (List α))) (shards : Nat → Rows J) :
    Except String (List β) × (Nat → Rows J) :=
  let (answers, shards') := workOff (fun i => run i ((bucketOf buckets i).getD [])) order shards
  let own := [state.shardIdx].filter fun i => (bucketOf buckets i).isSome
  let others :=
    (List.range state.nShards).filter fun i => i != state.shardIdx && (bucketOf buckets i).isSome
  ((own ++ others).mapM fun i =>
      match answers i with
      | some answer => answer
      | none => .error "cross-shard reply dropped",
    shards')

/-- What stays on the connection's own shard. -/
def onOwnShard (state : ConnState) (f : Rows J → Except String β × Rows J) (shards : Nat → Rows J) :
    Except String β × (Nat → Rows J) :=
  ((f (shards state.shardIdx)).1, Function.update shards state.shardIdx
    (f (shards state.shardIdx)).2)

end exchange

/-! ## The commands -/

section commands
variable (hash : Bytes → Nat) {J : Serde} {α β : Type} (state : ConnState) (order : List Nat)

/-- `mset`, `del` and `exists`: the answers are combined, their order does not matter. -/
def fanOut (keyOf : α → Bytes) (combine : List β → β)
    (run : Nat → List α → Rows J → Except String β × Rows J)
    (items : List α) (shards : Nat → Rows J) : Except String β × (Nat → Rows J) :=
  if state.nShards ≤ 1 then onOwnShard state (run state.shardIdx items) shards
  else
    let buckets := bucketByShard hash keyOf state.nShards items
    if items.all fun x => shardForKey hash (keyOf x) state.nShards == state.shardIdx then
      onOwnShard state (run state.shardIdx ((bucketOf buckets state.shardIdx).getD [])) shards
    else
      let (answers, shards') := exchange state order run buckets shards
      (answers.map combine, shards')

variable (threshold : Nat) (now : Nat → UInt64) (revisions : Nat → Nat → UInt64)

def dispatchMset (pairs : List (Bytes × Bytes)) (shards : Nat → Rows J) :
    Except String Unit × (Nat → Rows J) :=
  fanOut hash state order Prod.fst (fun _ => ())
    (fun i => Rows.mset threshold (revisions i)) pairs shards

def dispatchDel (keys : List Bytes) (shards : Nat → Rows J) : Except String Nat × (Nat → Rows J) :=
  fanOut hash state order id List.sum
    (fun i keys t => (.ok (t.del (fun _ => now i) keys).1, (t.del (fun _ => now i) keys).2)) keys
    shards

def dispatchExists (keys : List Bytes) (shards : Nat → Rows J) :
    Except String Nat × (Nat → Rows J) :=
  fanOut hash state order id List.sum
    (fun i keys t => (.ok (t.count (fun _ => now i) keys), t)) keys shards

/-- `results[orig_idx] = entry`, for each of them. -/
def fillSlots (results : List (Option (Entry J))) (entries : List (Nat × Option (Entry J))) :
    List (Option (Entry J)) :=
  entries.foldl (fun results x => results.set x.1 x.2) results

/-- A bucket of `mget`: every key comes with the index of its argument. -/
def mgetBucket (i : Nat) (bucket : List (Bytes × Nat)) (t : Rows J) :
    Except String (List (Nat × Option (Entry J))) × Rows J :=
  let (entries, t') := t.mget (fun _ => now i) (bucket.map Prod.fst)
  (.ok ((bucket.map Prod.snd).zip entries), t')

/-- The keys of a command that stays on the shard `i`. -/
def mgetHere (i : Nat) (keys : List Bytes) (t : Rows J) :
    Except String (List (Option (Entry J))) × Rows J :=
  (.ok (t.mget (fun _ => now i) keys).1, (t.mget (fun _ => now i) keys).2)

def dispatchMget (keys : List Bytes) (shards : Nat → Rows J) :
    Except String (List (Option (Entry J))) × (Nat → Rows J) :=
  if state.nShards ≤ 1 then onOwnShard state (mgetHere now state.shardIdx keys) shards
  else
    let buckets := bucketByShard hash Prod.fst state.nShards keys.zipIdx
    if buckets.zipIdx.all fun x => x.2 == state.shardIdx || x.1.isNone then
      onOwnShard state (mgetHere now state.shardIdx keys) shards
    else
      let (answers, shards') := exchange state order (mgetBucket now) buckets shards
      (answers.map fun answers => answers.foldl fillSlots (List.replicate keys.length none),
        shards')

end commands

/-! ## One store -/

/-- The commands on several keys. -/
inductive Multi
  | mget (keys : List Bytes)
  | mset (pairs : List (Bytes × Bytes))
  | del (keys : List Bytes)
  | exists_ (keys : List Bytes)

inductive MultiReply (J : Serde)
  | entries (es : List (Option (Entry J)))
  | ok
  | count (n : Nat)

def Multi.keys : Multi → List Bytes
  | .mget keys | .del keys | .exists_ keys => keys
  | .mset pairs => pairs.map Prod.fst

section oneStore
variable (hash : Bytes → Nat) {J : Serde}

/-- A command on the connection `state`. The shards work in `order`; `now i` is the clock as the
shard `i` reads it, and `revisions i` are those its log gives out. -/
def dispatch (threshold : Nat) (state : ConnState) (order : List Nat) (now : Nat → UInt64)
    (revisions : Nat → Nat → UInt64)
    (shards : Nat → Rows J) : Multi → Except String (MultiReply J) × (Nat → Rows J)
  | .mget keys =>
    let (r, shards') := dispatchMget hash state order now keys shards
    (r.map .entries, shards')
  | .mset pairs =>
    let (r, shards') := dispatchMset hash state order threshold revisions pairs shards
    (r.map fun _ => .ok, shards')
  | .del keys =>
    let (r, shards') := dispatchDel hash state order now keys shards
    (r.map .count, shards')
  | .exists_ keys =>
    let (r, shards') := dispatchExists hash state order now keys shards
    (r.map .count, shards')

/-- The command on one store. -/
def Multi.onOne (threshold : Nat) (now : Bytes → UInt64) (revisions : Nat → UInt64) (t : Rows J) :
    Multi → Except String (MultiReply J) × Rows J
  | .mget keys => (.ok (.entries (t.mget now keys).1), (t.mget now keys).2)
  | .mset pairs =>
    ((Rows.mset threshold revisions pairs t).1.map fun _ => .ok,
      (Rows.mset threshold revisions pairs t).2)
  | .del keys => (.ok (.count (t.del now keys).1), (t.del now keys).2)
  | .exists_ keys => (.ok (.count (t.count now keys)), t)

/-- Every key is stored on the shard `shard_for_key` gives. -/
def Placed (n : Nat) (shards : Nat → Rows J) : Prop :=
  ∀ i key, (shards i key).isSome → i = shardForKey hash key n

/-- The shards that hold a key of the command. -/
def asked (n : Nat) (keys : List Bytes) : List Nat :=
  (List.range n).filter fun i => keys.any fun key => shardForKey hash key n == i

end oneStore

/-! ## The exchange -/

section spec
variable {hash : Bytes → Nat} {J : Serde} {α β : Type} {keyOf : α → Bytes} {state : ConnState}
  {order : List Nat}
  {items : List α}

theorem shardForKey_lt (hash : Bytes → Nat) (state : ConnState) (key : Bytes) :
    shardForKey hash key state.nShards < state.nShards :=
  Nat.mod_lt _ (Nat.zero_lt_of_lt state.here)

theorem share_eq_nil {n shard : Nat} :
    share hash keyOf n shard items = [] ↔ ∀ x ∈ items, shardForKey hash (keyOf x) n ≠ shard := by
  simp [share]

theorem share_eq_self {n shard : Nat}
    (h : ∀ x ∈ items, shardForKey hash (keyOf x) n = shard) :
    share hash keyOf n shard items = items := by
  simpa [share] using h

theorem mem_asked {n i : Nat} :
    i ∈ asked hash n (items.map keyOf) ↔ i < n ∧ share hash keyOf n i items ≠ [] := by
  simp [asked, share]

theorem asked_nodup (n : Nat) (keys : List Bytes) : (asked hash n keys).Nodup :=
  nodup_range.filter _

theorem mapM_congr {f g : Nat → Except String β} {l : List Nat} (h : ∀ i ∈ l, f i = g i) :
    l.mapM f = l.mapM g := by
  induction l with
  | nil => rfl
  | cons i l ih =>
    rw [mapM_cons, mapM_cons, h i List.mem_cons_self,
      ih fun j hj => h j (List.mem_cons_of_mem _ hj)]

theorem mapM_ok (g : Nat → β) (l : List Nat) :
    l.mapM (fun i => (.ok (g i) : Except String β)) = .ok (l.map g) := by
  induction l with
  | nil => rfl
  | cons i l ih =>
    rw [mapM_cons, ih]
    rfl

/-- The answers are those of the shards asked, each for its share, in some order. -/
theorem exchange_answers (run : Nat → List α → Rows J → Except String β × Rows J) (items : List α)
    (shards : Nat → Rows J)
    (horder : order.Perm (asked hash state.nShards (items.map keyOf))) :
    ∃ l : List Nat, l.Perm (asked hash state.nShards (items.map keyOf)) ∧
      (exchange state order run (bucketByShard hash keyOf state.nShards items) shards).1 =
        l.mapM fun i => (run i (share hash keyOf state.nShards i items) (shards i)).1 := by
  let has := fun i => (bucketOf (bucketByShard hash keyOf state.nShards items) i).isSome
  have hperm :
    ([state.shardIdx].filter has ++ (List.range state.nShards).filter fun i =>
    i != state.shardIdx && has i).Perm
      (asked hash state.nShards (items.map keyOf)) := by
    have hidx : state.shardIdx ∈ List.range state.nShards := List.mem_range.mpr state.here
    have hsplit := (perm_cons_erase hidx).filter has
    rw [nodup_range.erase_eq_filter, ← singleton_append, filter_append, List.filter_filter]
      at hsplit
    have hasked :
        (List.range state.nShards).filter has = asked hash state.nShards (items.map keyOf) := by
      refine List.filter_congr fun i hi => ?_
      show (bucketOf (bucketByShard hash keyOf state.nShards items) i).isSome = _
      rw [bucketOf_isSome (List.mem_range.mp hi), Bool.eq_iff_iff]
      simp [share]
    rw [← hasked]
    refine (List.Perm.of_eq ?_).trans hsplit.symm
    simp only [Bool.and_comm]
  refine ⟨_, hperm, mapM_congr fun i hi => ?_⟩
  have hi' := hperm.subset hi
  have hlt := (mem_asked.mp hi').1
  rw [(workOff_spec _ (horder.symm.nodup (asked_nodup ..)) shards i).1,
    if_pos (horder.symm.subset hi'),
    bucketOf_getD hlt]

/-- Every shard has run its share; one that was not asked had none. -/
theorem exchange_rows {run : Nat → List α → Rows J → Except String β × Rows J}
    (hnone : ∀ i t, (run i [] t).2 = t)
    (items : List α) (shards : Nat → Rows J)
    (horder : order.Perm (asked hash state.nShards (items.map keyOf))) {i : Nat}
    (hi : i < state.nShards) :
    (exchange state order run (bucketByShard hash keyOf state.nShards items) shards).2 i =
      (run i (share hash keyOf state.nShards i items) (shards i)).2 := by
  show (workOff _ order shards).2 i = _
  rw [(workOff_spec _ (horder.symm.nodup (asked_nodup ..)) shards i).2, bucketOf_getD hi]
  split
  · rfl
  · rename_i hnot
    have hnil : share hash keyOf state.nShards i items = [] := by
      by_contra hne
      exact hnot (horder.symm.subset (mem_asked.mpr ⟨hi, hne⟩))
    rw [hnil, hnone]

/-- Shards that do not exist are left alone. -/
theorem exchange_beyond (run : Nat → List α → Rows J → Except String β × Rows J)
    (buckets : List (Option (List α)))
    (shards : Nat → Rows J) {keys : List Bytes}
    (horder : order.Perm (asked hash state.nShards keys)) {i : Nat}
    (hi : state.nShards ≤ i) : (exchange state order run buckets shards).2 i = shards i := by
  show (workOff _ order shards).2 i = _
  rw [(workOff_spec _ (horder.symm.nodup (asked_nodup ..)) shards i).2, if_neg]
  intro hmem
  have hlt := (List.mem_filter.mp (horder.subset hmem)).1
  exact absurd (List.mem_range.mp hlt) (Nat.not_lt.mpr hi)

/-- A command that stays on its shard has run every share: those of the others are empty. -/
theorem onOwnShard_rows {run : Nat → List α → Rows J → Except String β × Rows J}
    (hnone : ∀ i t, (run i [] t).2 = t)
    (hlocal : ∀ x ∈ items, shardForKey hash (keyOf x) state.nShards = state.shardIdx)
    (shards : Nat → Rows J) (i : Nat) :
    (onOwnShard state (run state.shardIdx items) shards).2 i =
      (run i (share hash keyOf state.nShards i items) (shards i)).2 := by
  show Function.update shards state.shardIdx _ i = _
  by_cases hi : i = state.shardIdx
  · rw [hi, Function.update_self, share_eq_self hlocal]
  · have hnil : share hash keyOf state.nShards i items = [] :=
      share_eq_nil.mpr fun x hx h => hi (h.symm.trans (hlocal x hx))
    rw [Function.update_of_ne hi, hnil, hnone]

/-- The arguments all belong to the connection's shard, as they do if there is no other. -/
theorem local_of_one (hone : state.nShards ≤ 1) (key : Bytes) :
    shardForKey hash key state.nShards = state.shardIdx := by
  have hlt := shardForKey_lt hash state key
  have hhere := state.here
  omega

/-- A command runs on its own shard, which then holds all its keys, or as an exchange. -/
theorem fanOut_cases (hash : Bytes → Nat) (state : ConnState) (order : List Nat) (keyOf : α → Bytes)
    (combine : List β → β) (run : Nat → List α → Rows J → Except String β × Rows J) (items : List α)
    (shards : Nat → Rows J) :
    ((∀ x ∈ items, shardForKey hash (keyOf x) state.nShards = state.shardIdx) ∧
        fanOut hash state order keyOf combine run items shards
          = onOwnShard state (run state.shardIdx items) shards) ∨
      fanOut hash state order keyOf combine run items shards =
        ((exchange state order run (bucketByShard hash keyOf state.nShards items) shards).1.map
          combine,
          (exchange state order run (bucketByShard hash keyOf state.nShards items) shards).2) := by
  by_cases hone : state.nShards ≤ 1
  · exact .inl ⟨fun x _ => local_of_one hone (keyOf x), if_pos hone⟩
  · by_cases hall : items.all fun x => shardForKey hash (keyOf x) state.nShards == state.shardIdx
    · have hlocal : ∀ x ∈ items, shardForKey hash (keyOf x) state.nShards = state.shardIdx := by
        simpa using hall
      refine .inl ⟨hlocal, (if_neg hone).trans ((if_pos hall).trans ?_)⟩
      rw [bucketOf_getD state.here, share_eq_self hlocal]
    · exact .inr ((if_neg hone).trans (if_neg hall))

/-- Either way every shard ends with its share run. -/
theorem fanOut_rows {combine : List β → β} {run : Nat → List α → Rows J → Except String β × Rows J}
    (hnone : ∀ i t, (run i [] t).2 = t) (items : List α) (shards : Nat → Rows J)
    (horder : order.Perm (asked hash state.nShards (items.map keyOf))) {i : Nat}
    (hi : i < state.nShards) :
    (fanOut hash state order keyOf combine run items shards).2 i =
      (run i (share hash keyOf state.nShards i items) (shards i)).2 := by
  obtain ⟨hlocal, heq⟩ | heq := fanOut_cases hash state order keyOf combine run items shards
  · rw [heq]
    exact onOwnShard_rows hnone hlocal shards i
  · rw [heq]
    exact exchange_rows hnone items shards horder hi

theorem fanOut_beyond {combine : List β → β}
    {run : Nat → List α → Rows J → Except String β × Rows J} (items : List α)
    (shards : Nat → Rows J) (horder : order.Perm (asked hash state.nShards (items.map keyOf)))
    {i : Nat}
    (hi : state.nShards ≤ i) :
    (fanOut hash state order keyOf combine run items shards).2 i = shards i := by
  obtain ⟨-, heq⟩ | heq := fanOut_cases hash state order keyOf combine run items shards
  · rw [heq]
    exact Function.update_of_ne (Nat.ne_of_gt (Nat.lt_of_lt_of_le state.here hi)) ..
  · rw [heq]
    exact exchange_beyond _ _ shards horder hi

/-- A count is the sum of the counts of the shares. -/
theorem fanOut_sum {run : Nat → List α → Rows J → Except String Nat × Rows J}
    {f : Nat → List α → Rows J → Nat} (hrun : ∀ i xs t, (run i xs t).1 = .ok (f i xs t))
    (hnone : ∀ i t, f i [] t = 0)
    (items : List α) (shards : Nat → Rows J)
    (horder : order.Perm (asked hash state.nShards (items.map keyOf))) :
    (fanOut hash state order keyOf List.sum run items shards).1 =
      .ok (∑ i ∈ Finset.range state.nShards,
        f i (share hash keyOf state.nShards i items) (shards i)) := by
  let count := fun i => f i (share hash keyOf state.nShards i items) (shards i)
  have hzero : ∀ i, share hash keyOf state.nShards i items = [] → count i = 0 := by
    intro i hnil
    show f i (share hash keyOf state.nShards i items) (shards i) = 0
    rw [hnil, hnone]
  obtain ⟨hlocal, heq⟩ | heq := fanOut_cases hash state order keyOf List.sum run items shards
  · rw [heq]
    refine (hrun ..).trans (congrArg Except.ok ?_)
    rw [sum_eq_single_of_mem state.shardIdx (Finset.mem_range.mpr state.here), share_eq_self hlocal]
    intro i _ hi
    exact hzero i (share_eq_nil.mpr fun x hx h => hi (h.symm.trans (hlocal x hx)))
  · obtain ⟨l, hl, hanswers⟩ := exchange_answers run items shards horder
    rw [heq, hanswers, mapM_congr fun i _ => hrun i _ _, mapM_ok]
    show Except.ok (l.map count).sum = _
    rw [(hl.map count).sum_eq, ← sum_toFinset count (asked_nodup ..)]
    refine congrArg Except.ok (sum_subset ?_ ?_)
    · intro i hi
      exact Finset.mem_range.mpr (mem_asked.mp (mem_toFinset.mp hi)).1
    · intro i hi hnot
      refine hzero i ?_
      by_contra hne
      exact hnot (mem_toFinset.mpr (mem_asked.mpr ⟨Finset.mem_range.mp hi, hne⟩))

/-! ### `mget` -/

theorem share_zipIdx (n i : Nat) (keys : List Bytes) :
    (share hash Prod.fst n i keys.zipIdx).map Prod.fst = share hash id n i keys := by
  unfold share
  rw [show (fun x : Bytes × Nat => shardForKey hash x.1 n == i)
    = (fun k => shardForKey hash (id k) n == i) ∘ Prod.fst
    from rfl, ← List.filter_map, zipIdx_map_fst]

theorem mgetBucket_entries (now : Nat → UInt64) (i : Nat) (bucket : List (Bytes × Nat))
    (t : Rows J) :
    (mgetBucket now i bucket t).1
    = .ok (bucket.map fun x => (x.2, t.live (fun _ => now i) x.1)) := by
  show Except.ok ((bucket.map Prod.snd).zip ((bucket.map Prod.fst).map (t.live fun _ => now i))) = _
  rw [List.map_map, zip_map']
  rfl

theorem dispatchMget_cases (hash : Bytes → Nat) (state : ConnState) (order : List Nat)
    (now : Nat → UInt64)
    (keys : List Bytes) (shards : Nat → Rows J) :
    ((∀ key ∈ keys, shardForKey hash key state.nShards = state.shardIdx) ∧
        dispatchMget hash state order now keys shards =
          onOwnShard state (mgetHere now state.shardIdx keys) shards) ∨
      dispatchMget hash state order now keys shards =
        ((exchange state order (mgetBucket now)
          (bucketByShard hash Prod.fst state.nShards keys.zipIdx) shards).1.map
            fun answers => answers.foldl fillSlots (List.replicate keys.length none),
          (exchange state order (mgetBucket now)
            (bucketByShard hash Prod.fst state.nShards keys.zipIdx) shards).2) := by
  by_cases hone : state.nShards ≤ 1
  · exact .inl ⟨fun key _ => local_of_one hone key, if_pos hone⟩
  · by_cases hall : (bucketByShard hash Prod.fst state.nShards keys.zipIdx).zipIdx.all
        fun x => x.2 == state.shardIdx || x.1.isNone
    · refine .inl ⟨?_, (if_neg hone).trans (if_pos hall)⟩
      intro key hkey
      by_contra hne
      obtain ⟨j, hj⟩ := mem_iff_getElem?.mp hkey
      have hshare :
        share hash Prod.fst state.nShards (shardForKey hash key state.nShards) keys.zipIdx ≠ [] :=
        ne_nil_of_mem (mem_share.mpr ⟨mk_mem_zipIdx_iff_getElem?.mpr hj, rfl⟩)
      have hget :
        (bucketByShard hash Prod.fst state.nShards keys.zipIdx)[shardForKey hash key state.nShards]?
        = _ :=
        bucketByShard_getElem? (shardForKey_lt hash state key) keys.zipIdx
      have hbucket := all_eq_true.mp hall _ (mk_mem_zipIdx_iff_getElem?.mpr hget)
      simp [hne, hshare] at hbucket
    · exact .inr ((if_neg hone).trans (if_neg hall))

theorem fillSlots_getElem? {f : Nat → Option (Entry J)} {entries : List (Nat × Option (Entry J))}
    (hf : ∀ x ∈ entries, x.2 = f x.1) (results : List (Option (Entry J))) (j : Nat) :
    (fillSlots results entries)[j]? =
      if j ∈ entries.map Prod.fst ∧ j < results.length then some (f j) else results[j]? := by
  induction entries generalizing results with
  | nil => simp [fillSlots]
  | cons x entries ih =>
    have hx := hf x List.mem_cons_self
    show (fillSlots (results.set x.1 x.2) entries)[j]? = _
    rw [ih fun y hy => hf y (List.mem_cons_of_mem _ hy), length_set]
    by_cases hj : j = x.1
    · subst hj
      by_cases hlen : x.1 < results.length <;> simp [hlen, hx]
    · simp only [List.map_cons, List.mem_cons, hj, false_or, getElem?_set_ne (Ne.symm hj)]

/-- The answers of the shares fill every slot, with what one store would answer. -/
theorem fillSlots_answers {live : Bytes → Option (Entry J)} {keys : List Bytes} {n : Nat}
    {l : List Nat}
    {answer : Nat → List (Nat × Option (Entry J))} (hn : ∀ key, shardForKey hash key n < n)
    (hl : l.Perm (asked hash n (keys.zipIdx.map Prod.fst)))
    (hanswer : ∀ i, answer i = (share hash Prod.fst n i keys.zipIdx).map fun x => (x.2, live x.1)) :
    (l.map answer).foldl fillSlots (List.replicate keys.length none) = keys.map live := by
  have hvalue : ∀ x ∈ (l.map answer).flatten, x.2 = live (keys[x.1]?.getD []) := by
    intro x hx
    obtain ⟨_, hmem, hx⟩ := mem_flatten.mp hx
    obtain ⟨i, -, rfl⟩ := List.mem_map.mp hmem
    rw [hanswer] at hx
    obtain ⟨y, hy, rfl⟩ := List.mem_map.mp hx
    rw [mem_zipIdx_iff_getElem?.mp (mem_share.mp hy).1]
    rfl
  have hcover : ∀ j key, keys[j]? = some key → j ∈ (l.map answer).flatten.map Prod.fst := by
    intro j key hj
    have hshare : (key, j) ∈ share hash Prod.fst n (shardForKey hash key n) keys.zipIdx :=
      mem_share.mpr ⟨mk_mem_zipIdx_iff_getElem?.mpr hj, rfl⟩
    have hasked : shardForKey hash key n ∈ l :=
      hl.symm.subset (mem_asked.mpr ⟨hn key, ne_nil_of_mem hshare⟩)
    refine List.mem_map.mpr
      ⟨(j, live key), mem_flatten.mpr ⟨_, List.mem_map_of_mem hasked, ?_⟩, rfl⟩
    rw [hanswer]
    exact List.mem_map.mpr ⟨(key, j), hshare, rfl⟩
  have hfold : (l.map answer).foldl fillSlots (List.replicate keys.length none) =
      fillSlots (List.replicate keys.length none) (l.map answer).flatten := by
    show _ = (l.map answer).flatten.foldl _ _
    rw [foldl_flatten]
    rfl
  rw [hfold]
  refine ext_getElem? fun j => ?_
  rw [fillSlots_getElem? (f := fun j => live (keys[j]?.getD [])) hvalue, getElem?_map]
  cases hj : keys[j]? with
  | none => simp_all
  | some key =>
    have hlt := (List.getElem?_eq_some_iff.mp hj).1
    rw [if_pos ⟨hcover j key hj, by rwa [length_replicate]⟩]
    rfl

end spec

/-! ## As on one store -/

section result
variable (hash : Bytes → Nat) {J : Serde} {threshold : Nat} {state : ConnState} {order : List Nat}
  {now : Nat → UInt64}
variable {revisions : Nat → Nat → UInt64} {shards : Nat → Rows J}

/-- The part of a command that concerns a shard. -/
def Multi.share (n shard : Nat) : Multi → Multi
  | .mget keys => .mget (Server.share hash id n shard keys)
  | .mset pairs => .mset (Server.share hash Prod.fst n shard pairs)
  | .del keys => .del (Server.share hash id n shard keys)
  | .exists_ keys => .exists_ (Server.share hash id n shard keys)

/-- What the command writes can be encoded. -/
def Multi.Fits (threshold : Nat) : Multi → Prop
  | .mset pairs => ∀ pair ∈ pairs, fitsRecord threshold pair = true
  | _ => True

variable {hash}

theorem perm_asked_id {n : Nat} {keys : List Bytes} (h : order.Perm (asked hash n keys)) :
    order.Perm (asked hash n (keys.map id)) := by
  rw [map_id]
  exact h

theorem perm_asked_zipIdx {n : Nat} {keys : List Bytes} (h : order.Perm (asked hash n keys)) :
    order.Perm (asked hash n (keys.zipIdx.map Prod.fst)) := by
  rw [zipIdx_map_fst]
  exact h

/-- A command does to a shard what its share does there. -/
theorem dispatch_rows (cmd : Multi) (horder : order.Perm (asked hash state.nShards cmd.keys))
    {i : Nat}
    (hi : i < state.nShards) :
    (dispatch hash threshold state order now revisions shards cmd).2 i =
      ((cmd.share hash state.nShards i).onOne threshold (fun _ => now i) (revisions i)
        (shards i)).2 := by
  cases cmd with
  | mget keys =>
    show (dispatchMget hash state order now keys shards).2 i
      = ((shards i).mget _ (share hash id _ i keys)).2
    obtain ⟨hlocal, heq⟩ | heq := dispatchMget_cases hash state order now keys shards
    · rw [heq]
      exact onOwnShard_rows (fun _ _ => rfl) hlocal shards i
    · rw [heq]
      show (exchange state order (mgetBucket now) _ shards).2 i = _
      rw [exchange_rows (fun _ _ => rfl) keys.zipIdx shards (perm_asked_zipIdx horder) hi]
      show ((shards i).mget _ ((share hash Prod.fst _ i keys.zipIdx).map Prod.fst)).2 = _
      rw [share_zipIdx]
  | mset pairs =>
    show (dispatchMset hash state order threshold revisions pairs shards).2 i = _
    rw [dispatchMset, fanOut_rows (fun _ _ => rfl) pairs shards horder hi]
    rfl
  | del keys =>
    show (dispatchDel hash state order now keys shards).2 i = _
    rw [dispatchDel, fanOut_rows (fun _ _ => rfl) keys shards (perm_asked_id horder) hi]
    rfl
  | exists_ keys =>
    show (dispatchExists hash state order now keys shards).2 i = _
    rw [dispatchExists, fanOut_rows (fun _ _ => rfl) keys shards (perm_asked_id horder) hi]
    rfl

theorem dispatch_beyond (cmd : Multi) (horder : order.Perm (asked hash state.nShards cmd.keys))
    {i : Nat}
    (hi : state.nShards ≤ i) : (dispatch hash threshold state order now revisions shards cmd).2 i
    = shards i := by
  have hne : i ≠ state.shardIdx := Nat.ne_of_gt (Nat.lt_of_lt_of_le state.here hi)
  cases cmd with
  | mget keys =>
    show (dispatchMget hash state order now keys shards).2 i = _
    obtain ⟨-, heq⟩ | heq := dispatchMget_cases hash state order now keys shards
    · rw [heq]
      exact Function.update_of_ne hne ..
    · rw [heq]
      exact exchange_beyond _ _ shards horder hi
  | mset pairs =>
    show (dispatchMset hash state order threshold revisions pairs shards).2 i = _
    rw [dispatchMset, fanOut_beyond pairs shards horder hi]
  | del keys =>
    show (dispatchDel hash state order now keys shards).2 i = _
    rw [dispatchDel, fanOut_beyond keys shards (perm_asked_id horder) hi]
  | exists_ keys =>
    show (dispatchExists hash state order now keys shards).2 i = _
    rw [dispatchExists, fanOut_beyond keys shards (perm_asked_id horder) hi]

theorem mset_content {revisions₁ : Nat → UInt64} {pairs : List (Bytes × Bytes)}
    (hfits : ∀ pair ∈ pairs, fitsRecord threshold pair = true) (t : Rows J) (key : Bytes) :
    ((Rows.mset threshold revisions₁ pairs t).2 key).map Entry.content =
      ((Rows.lastValue key pairs).map fun value => (value, none, none)).or
      ((t key).map Entry.content) := by
  rw [Rows.mset, if_pos (all_eq_true.mpr hfits), Rows.putAll_content]

/-- On the shard of a key its share does what the whole command would. -/
theorem onOne_share_content {cmd : Multi} (hfits : cmd.Fits threshold) {n i : Nat} {key : Bytes}
    (hkey : shardForKey hash key n = i) {t one : Rows J} (hrow : t key = one key)
    {now₁ : Bytes → UInt64}
    (hnow : now i = now₁ key) (revisions₁ revisions₂ : Nat → UInt64) :
    (((cmd.share hash n i).onOne threshold (fun _ => now i) revisions₁ t).2 key).map Entry.content =
      ((cmd.onOne threshold now₁ revisions₂ one).2 key).map Entry.content := by
  have hmem : ∀ keys : List Bytes, key ∈ share hash id n i keys ↔ key ∈ keys := by
    intro keys
    rw [mem_share]
    exact and_iff_left hkey
  cases cmd with
  | mget keys =>
    show (((t.mget (fun _ => now i) (share hash id n i keys)).2 key).map _)
      = ((one.mget now₁ keys).2 key).map _
    have hpast : t.past (fun _ => now i) key = one.past now₁ key := Rows.past_congr hrow hnow
    rw [Rows.mget_apply, Rows.mget_apply, hpast, hrow]
    simp only [hmem]
  | mset pairs =>
    have hshare : ∀ pair ∈ share hash Prod.fst n i pairs, fitsRecord threshold pair = true :=
      fun pair hpair => hfits pair (mem_share.mp hpair).1
    show ((Rows.mset threshold _ (share hash Prod.fst n i pairs) t).2 key).map _ =
      ((Rows.mset threshold _ pairs one).2 key).map _
    rw [mset_content hshare, mset_content hfits, share,
      Rows.lastValue_filter (p := fun k => shardForKey hash k n == i) (beq_iff_eq.mpr hkey), hrow]
  | del keys =>
    show ((t.del (fun _ => now i) (share hash id n i keys)).2 key).map _
      = ((one.del now₁ keys).2 key).map _
    rw [Rows.del_apply, Rows.del_apply, hrow]
    simp only [hmem]
  | exists_ keys => exact congrArg (Option.map _) hrow

/-- The share of a share is the share. -/
theorem Multi.share_share (cmd : Multi) (n i : Nat) :
    (cmd.share hash n i).share hash n i = cmd.share hash n i := by
  cases cmd <;> simp only [Multi.share, Server.share, List.filter_filter, Bool.and_self]

/-- A command that cannot be encoded leaves everything as it was. -/
theorem onOne_not_fits {cmd : Multi} (hnot : ¬ cmd.Fits threshold) (now₁ : Bytes → UInt64)
    (revisions₁ : Nat → UInt64) (t : Rows J) : (cmd.onOne threshold now₁ revisions₁ t).2 = t := by
  cases cmd with
  | mset pairs =>
    show (Rows.mset threshold revisions₁ pairs t).2 = t
    rw [Rows.mset, if_neg fun hall => hnot (all_eq_true.mp hall)]
  | mget | del | exists_ => exact absurd trivial hnot

/-- On another shard nothing happens to the key. -/
theorem onOne_share_other (cmd : Multi) {n i : Nat} {key : Bytes}
    (hkey : shardForKey hash key n ≠ i)
    (t : Rows J) (now₁ : Bytes → UInt64) (revisions₁ : Nat → UInt64) :
    ((cmd.share hash n i).onOne threshold now₁ revisions₁ t).2 key = t key := by
  have hmem : ∀ keys : List Bytes, key ∉ share hash id n i keys :=
    fun keys h => hkey (mem_share.mp h).2
  cases cmd with
  | mget keys =>
    show (t.mget now₁ (share hash id n i keys)).2 key = _
    rw [Rows.mget_apply, if_neg fun h => hmem keys h.1]
  | mset pairs =>
    show (Rows.mset threshold revisions₁ (share hash Prod.fst n i pairs) t).2 key = _
    unfold Rows.mset
    split
    · refine Rows.putAll_other _ _ fun x hx h => hkey ?_
      rw [← h]
      exact (mem_share.mp hx).2
    · rfl
  | del keys =>
    show (t.del now₁ (share hash id n i keys)).2 key = _
    rw [Rows.del_apply, if_neg (hmem keys)]
  | exists_ keys => rfl

/-! ### Replies -/

/-- Every key counts on one shard. -/
theorem sum_share_countP {n : Nat} (hn : ∀ key, shardForKey hash key n < n) {p : Bytes → Bool}
    {q : Nat → Bytes → Bool} (hq : ∀ key, q (shardForKey hash key n) key = p key)
    (keys : List Bytes) :
    ∑ i ∈ Finset.range n, (share hash id n i keys).countP (q i) = keys.countP p := by
  induction keys with
  | nil => simp [share]
  | cons key keys ih =>
    have hcons : ∀ i, (share hash id n i (key :: keys)).countP (q i) =
        (share hash id n i keys).countP (q i) + if i = shardForKey hash key n
        then (if p key then 1 else 0) else 0 := by
      intro i
      by_cases hi : i = shardForKey hash key n
      · subst hi
        simp [share, countP_cons, hq]
      · simp [share, hi, Ne.symm hi]
    rw [sum_congr rfl fun i _ => hcons i, sum_add_distrib, ih, sum_ite_eq',
      if_pos (Finset.mem_range.mpr (hn key)), countP_cons]

theorem sum_share_card {n : Nat} (hn : ∀ key, shardForKey hash key n < n) {p : Bytes → Bool}
    {q : Nat → Bytes → Bool} (hq : ∀ key, q (shardForKey hash key n) key = p key)
    (keys : List Bytes) :
    ∑ i ∈ Finset.range n, ((share hash id n i keys).toFinset.filter fun k => q i k).card =
      (keys.toFinset.filter fun k => p k).card := by
  rw [card_eq_sum_card_fiberwise (f := fun key => shardForKey hash key n) (t := Finset.range n)
    fun key _ => mem_coe.mpr (Finset.mem_range.mpr (hn key))]
  refine sum_congr rfl fun i _ => congrArg Finset.card (Finset.ext fun key => ?_)
  simp only [Finset.mem_filter, mem_toFinset, mem_share, id]
  constructor
  · rintro ⟨⟨hkey, rfl⟩, hqk⟩
    exact ⟨⟨hkey, (hq key).symm.trans hqk⟩, rfl⟩
  · rintro ⟨⟨hkey, hpk⟩, rfl⟩
    exact ⟨⟨hkey, rfl⟩, (hq key).trans hpk⟩

theorem mapM_error {f : Nat → Except String Unit} {e : String} {l : List Nat}
    (hf : ∀ i ∈ l, f i = .ok () ∨ f i = .error e) (hsome : ∃ i ∈ l, f i = .error e) :
    l.mapM f = .error e := by
  induction l with
  | nil => obtain ⟨_, hi, -⟩ := hsome; cases hi
  | cons i l ih =>
    rw [mapM_cons]
    obtain hok | herr := hf i List.mem_cons_self
    · obtain ⟨j, hj, hje⟩ := hsome
      obtain rfl | hj := List.mem_cons.mp hj
      · rw [hok] at hje
        cases hje
      · rw [hok, ih (fun k hk => hf k (List.mem_cons_of_mem _ hk)) ⟨j, hj, hje⟩]
        rfl
    · rw [herr]
      rfl

/-- `mset` fails on the shards exactly if it does on one store, and with the same error. -/
theorem dispatchMset_reply {pairs : List (Bytes × Bytes)}
    (horder : order.Perm (asked hash state.nShards (pairs.map Prod.fst)))
    (revisions₁ : Nat → UInt64) (one : Rows J) :
    (dispatchMset hash state order threshold revisions pairs shards).1
    = (Rows.mset threshold revisions₁ pairs one).1 := by
  have hreply : ∀ (xs : List (Bytes × Bytes)) (revisions : Nat → UInt64) (t : Rows J),
      (Rows.mset threshold revisions xs t).1 = if xs.all (fitsRecord threshold) then .ok ()
        else .error "malformed record at offset 0: record exceeds 4 GiB limit" := by
    intro xs revisions t
    exact apply_ite Prod.fst ..
  rw [dispatchMset, hreply]
  obtain ⟨-, heq⟩ | heq := fanOut_cases hash state order Prod.fst (fun _ => ())
    (fun i => Rows.mset (J := J) threshold (revisions i)) pairs shards
  · rw [heq]
    exact hreply ..
  · obtain ⟨l, hl, hanswers⟩ :=
      exchange_answers (fun i => Rows.mset (J := J) threshold (revisions i)) pairs shards horder
    rw [heq, hanswers, mapM_congr fun i _ => hreply _ _ _]
    by_cases hall : pairs.all (fitsRecord threshold)
    · have hshare :
          ∀ i, (share hash Prod.fst state.nShards i pairs).all (fitsRecord threshold) = true := by
        intro i
        exact all_eq_true.mpr fun x hx => all_eq_true.mp hall x (mem_share.mp hx).1
      simp only [hshare, hall, if_true]
      rw [mapM_ok]
      rfl
    · rw [if_neg hall, mapM_error (e := "malformed record at offset 0: record exceeds 4 GiB limit")]
      · rfl
      · intro i _
        split
        · exact .inl rfl
        · exact .inr rfl
      · -- the shard of a pair that does not fit
        obtain ⟨pair, hpair, hbad⟩ : ∃ pair ∈ pairs, ¬ fitsRecord threshold pair = true := by
          simpa using hall
        have hmem :
          pair ∈ share hash Prod.fst state.nShards (shardForKey hash pair.1 state.nShards) pairs :=
          mem_share.mpr ⟨hpair, rfl⟩
        refine ⟨_,
          hl.symm.subset (mem_asked.mpr ⟨shardForKey_lt hash state pair.1, ne_nil_of_mem hmem⟩),
          if_neg ?_⟩
        intro hfits
        exact hbad (all_eq_true.mp hfits pair hmem)

/-- The reply is that of one store which holds all keys. -/
theorem dispatch_reply (cmd : Multi) (horder : order.Perm (asked hash state.nShards cmd.keys))
    {one : Rows J}
    (hone : ∀ key, one key = shards (shardForKey hash key state.nShards) key)
    (revisions₁ : Nat → UInt64) :
    (dispatch hash threshold state order now revisions shards cmd).1 =
      (cmd.onOne threshold (fun key => now (shardForKey hash key state.nShards))
        revisions₁ one).1 := by
  let now₁ := fun key => now (shardForKey hash key state.nShards)
  have hlive : ∀ key i, shardForKey hash key state.nShards = i →
      (shards i).live (fun _ => now i) key = one.live now₁ key := by
    rintro key _ rfl
    exact Rows.live_congr (hone key).symm rfl
  let counts := fun i key => (shards i key).isSome && !(shards i).past (fun _ => now i) key
  have hcounts :
      ∀ key, counts (shardForKey hash key state.nShards) key
      = ((one key).isSome && !one.past now₁ key) := by
    intro key
    have hpast : (shards (shardForKey hash key state.nShards)).past (fun _ => now₁ key) key
      = one.past now₁ key :=
      Rows.past_congr (hone key).symm rfl
    show ((shards _ key).isSome && !(shards _).past (fun _ => now₁ key) key) = _
    rw [hpast, hone key]
  have hn := shardForKey_lt hash state
  cases cmd with
  | mget keys =>
    show (dispatchMget hash state order now keys shards).1.map MultiReply.entries
      = .ok (.entries (keys.map (one.live now₁)))
    obtain ⟨hlocal, heq⟩ | heq := dispatchMget_cases hash state order now keys shards
    · rw [heq]
      show Except.ok (MultiReply.entries (keys.map ((shards state.shardIdx).live _))) = _
      rw [map_congr_left fun key hkey => hlive key _ (hlocal key hkey)]
    · obtain ⟨l, hl, hanswers⟩ :=
        exchange_answers (mgetBucket now) keys.zipIdx shards (perm_asked_zipIdx horder)
      rw [heq, hanswers, mapM_congr fun i _ => mgetBucket_entries now i _ _, mapM_ok]
      show Except.ok (MultiReply.entries ((l.map _).foldl fillSlots _)) = _
      rw [fillSlots_answers hn hl]
      intro i
      refine map_congr_left fun x hx => ?_
      rw [hlive x.1 i (mem_share.mp hx).2]
  | mset pairs =>
    show (dispatchMset hash state order threshold revisions pairs shards).1.map _ = Except.map _ _
    rw [dispatchMset_reply horder revisions₁ one]
  | del keys =>
    show (dispatchDel hash state order now keys shards).1.map MultiReply.count
      = .ok (.count (one.del now₁ keys).1)
    rw [dispatchDel, fanOut_sum (fun _ _ _ => rfl) (fun _ _ => rfl) keys shards
      (perm_asked_id horder), Rows.del_count,
      ← sum_share_card (q := counts) hn hcounts keys]
    refine congrArg (fun n => Except.ok (MultiReply.count n)) (sum_congr rfl fun i _ => ?_)
    exact Rows.del_count ..
  | exists_ keys =>
    show (dispatchExists hash state order now keys shards).1.map MultiReply.count
      = .ok (.count (one.count now₁ keys))
    rw [dispatchExists, fanOut_sum (fun _ _ _ => rfl) (fun _ _ => rfl) keys shards
      (perm_asked_id horder), Rows.count,
      ← sum_share_countP (q := counts) hn hcounts keys]
    rfl

/-- On keys that are stored where `shard_for_key` says, a command on several keys answers as it
would on one store with all keys, and leaves every key on its shard. It leaves the same values,
too, unless a record is too large to be written: one store then writes nothing. Of the shards,
each does what one store does with the shard's own pairs: if these fit they are written, if one
of them does not, nothing is. This is so in whatever order the shards work; the one store reads
the clock for a key as the key's shard did. -/
theorem fan_out_is_one_store (state : ConnState) (cmd : Multi) {order : List Nat}
    (horder : order.Perm (asked hash state.nShards cmd.keys)) {shards : Nat → Rows J}
    (hplaced : Placed hash state.nShards shards) {one : Rows J}
    (hone : ∀ key, one key = shards (shardForKey hash key state.nShards) key)
    (threshold : Nat) (now : Nat → UInt64) (revisions : Nat → Nat → UInt64)
    (revisions₁ : Nat → UInt64) :
    let now₁ := fun key => now (shardForKey hash key state.nShards)
    let after := (dispatch hash threshold state order now revisions shards cmd).2
    (dispatch hash threshold state order now revisions shards cmd).1 =
        (cmd.onOne threshold now₁ revisions₁ one).1 ∧
      Placed hash state.nShards after ∧
      (cmd.Fits threshold → ∀ key,
        (after (shardForKey hash key state.nShards) key).map Entry.content =
          ((cmd.onOne threshold now₁ revisions₁ one).2 key).map Entry.content) ∧
      ∀ key, let own := cmd.share hash state.nShards (shardForKey hash key state.nShards)
        (own.Fits threshold → (after (shardForKey hash key state.nShards) key).map Entry.content =
          ((own.onOne threshold now₁ revisions₁ one).2 key).map Entry.content) ∧
        (¬ own.Fits threshold → after (shardForKey hash key state.nShards) key = one key) := by
  refine ⟨dispatch_reply cmd horder hone revisions₁, ?_, ?_,
    fun key => ⟨fun hfits => ?_, fun hnot => ?_⟩⟩
  · intro i key hsome
    by_contra hne
    have hrow : (dispatch hash threshold state order now revisions shards cmd).2 i key =
        shards i key := by
      obtain hi | hi := Nat.lt_or_ge i state.nShards
      · rw [dispatch_rows cmd horder hi, onOne_share_other cmd (Ne.symm hne)]
      · rw [dispatch_beyond cmd horder hi]
    rw [hrow] at hsome
    exact hne (hplaced i key hsome)
  · intro hfits key
    rw [dispatch_rows cmd horder (shardForKey_lt hash state key)]
    exact onOne_share_content hfits rfl (hone key).symm rfl _ _
  · conv_lhs => rw [dispatch_rows cmd horder (shardForKey_lt hash state key), ← Multi.share_share]
    exact onOne_share_content hfits rfl (hone key).symm rfl _ _
  · rw [dispatch_rows cmd horder (shardForKey_lt hash state key), onOne_not_fits hnot, hone]

end result

/-! ## Two shards -/

/-- Metadata is of no concern here. -/
def noJson : Serde := ⟨Unit, fun _ => none, fun _ => []⟩

/-- A hasher that adds up the bytes. -/
def sumHash (key : Bytes) : Nat := (key.map UInt8.toNat).sum

/-- A key on each of two shards, and a delete that names one of them twice. -/
theorem fan_out_is_one_store_del :
    let one : Rows noJson := fun key => if key = [1]
      ∨ key = [2] then some ⟨[7], none, none, 5⟩ else none
    let shards : Nat → Rows noJson := fun i key => if i = shardForKey sumHash key 2
      then one key else none
    (dispatch sumHash 64 ⟨2, 0, by decide⟩ [1, 0] (fun _ => 9) (fun _ _ => 0) shards
      (.del [[1], [2], [1]])).1 =
      .ok (.count 2) := by
  intro one shards
  have hplaced : Placed sumHash 2 shards := by
    intro i key hsome
    by_contra hne
    simp [shards, hne] at hsome
  have hperm : [1, 0].Perm (asked sumHash 2 (Multi.del [[1], [2], [1]]).keys) := by decide
  exact (fan_out_is_one_store ⟨2, 0, by decide⟩ (.del [[1], [2], [1]]) hperm hplaced
    (fun key => (if_pos rfl).symm) 64 (fun _ => 9) (fun _ _ => 0) (fun _ => 0)).1

/-- With a key too large for a record on one shard, the pair on the other shard is written all
the same. -/
theorem mset_split {big : Bytes} (hlen : u32Max < headerLen + big.length)
    (hbig : shardForKey sumHash big 2 = 0) :
    ((Multi.mset [(big, []), ([1], [7])]).onOne 64 (fun _ => 9) (fun _ => 3)
      (fun _ => none : Rows noJson)).2 [1] = none ∧
      (dispatch sumHash 64 ⟨2, 0, by decide⟩ [0, 1] (fun _ => 9) (fun _ _ => 3)
        (fun _ => (fun _ => none : Rows noJson))
        (.mset [(big, []), ([1], [7])])).2 1 [1] = some ⟨[7], none, none, 3⟩ := by
  have hunfit : fitsRecord 64 (big, []) = false := by
    simp [fitsRecord]
    omega
  have hone : shardForKey sumHash [1] 2 = 1 := by decide
  constructor
  · show (Rows.mset 64 _ [(big, []), ([1], [7])] (fun _ => none : Rows noJson)).2 [1] = none
    simp [Rows.mset, hunfit]
  · have hperm : [0, 1].Perm (asked sumHash 2 (Multi.mset [(big, []), ([1], [7])]).keys) := by
      have hasked : asked sumHash 2 [big, [1]] = [0, 1] := by
        simp [asked, hbig, hone, range_succ]
      exact .of_eq hasked.symm
    rw [dispatch_rows _ hperm Nat.one_lt_two]
    have hshare : share sumHash Prod.fst 2 1 ([(big, []), ([1], [7])] : List (Bytes × Bytes))
        = [([1], [7])] := by
      simp [share, hbig, hone]
    show (Rows.mset 64 _ (share sumHash Prod.fst 2 1 [(big, []), ([1], [7])]) _).2 [1] = _
    rw [hshare]
    rfl

/-- A key of 4 GiB: `mset` fails, and has written the other pair. -/
theorem oversized_mset_is_split :
    let big : Bytes := List.replicate (2 ^ 32) 0
    let cmd := Multi.mset [(big, []), ([1], [7])]
    (cmd.onOne 64 (fun _ => 9) (fun _ => 3) (fun _ => none : Rows noJson)).2 [1] = none ∧
      (dispatch sumHash 64 ⟨2, 0, by decide⟩ [0, 1] (fun _ => 9) (fun _ _ => 3)
        (fun _ => (fun _ => none : Rows noJson))
        cmd).2 1 [1] = some ⟨[7], none, none, 3⟩ := by
  have hlen : u32Max < headerLen + (List.replicate (2 ^ 32) 0 : Bytes).length := by
    rw [length_replicate]
    decide
  have hsum : sumHash (List.replicate (2 ^ 32) 0) = 0 := by
    rw [sumHash, map_replicate, sum_replicate]
    exact smul_zero _
  exact mset_split hlen (by rw [shardForKey, hsum])

end BeyondKv.Server
