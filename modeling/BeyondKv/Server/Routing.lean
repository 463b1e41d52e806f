/-
# Where a key is looked for

A connection is given to a shard when it is accepted, by a key peeked from its first bytes or,
if there is none, in turn; it stays there. A RESP command or an HTTP request on one key is run
on the connection's shard, whatever the key. Commands on several keys and the operations of an
HTTP batch go to the shard of each key.

So a key is acted on where `shard_for_key` says, and what one connection writes is what
another one reads, if and only if the requests on one key come in on connections of the key's
shard (`every_key_on_one_shard_iff`).
-/
import BeyondKv.Server.Dispatch

namespace BeyondKv.Server

open List

open ShardStore (isPast)

/-! ## Requests -/

/-- An operation on one key: its answer, and the row it leaves. -/
abbrev RowOp (J : Serde) := Option (Entry J) → Except String (Reply J) × Option (Entry J)

/-- A row that has not expired. -/
def liveRow {J : Serde} (now : UInt64) (row : Option (Entry J)) : Option (Entry J) :=
  row.filter fun e => !isPast e.expiresAtMs now

def RowOp.get {J : Serde} (now : UInt64) : RowOp J :=
  fun row => (.ok (.entry (liveRow now row)), liveRow now row)

/-- A write without options. -/
def RowOp.set {J : Serde} (value : Bytes) (revision : UInt64) : RowOp J :=
  fun _ => (.ok .unit, some ⟨value, none, none, revision⟩)

inductive Request (J : Serde)
  /-- A RESP command or an HTTP request on one key. -/
  | single (key : Bytes) (op : RowOp J)
  | multi (cmd : Multi)
  /-- An HTTP batch. -/
  | batch (ops : List (Bytes × RowOp J))

inductive Response (J : Serde)
  | single (r : Except String (Reply J))
  | multi (r : Except String (MultiReply J))
  | batch (r : Except String (List (Reply J)))

def Request.keys {J : Serde} : Request J → List Bytes
  | .single key _ => [key]
  | .multi cmd => cmd.keys
  | .batch ops => ops.map Prod.fst

/-- What a request meets: the order in which the shards work, their clocks and revisions. -/
structure Circumstances where
  order : List Nat
  now : Nat → UInt64
  revisions : Nat → Nat → UInt64

section serve
variable (hash : Bytes → Nat) {J : Serde} (threshold : Nat) (state : ConnState)

/-- An operation on one key of one shard. -/
def onRow (i : Nat) (key : Bytes) (op : RowOp J) (shards : Nat → Rows J) :
    Except String (Reply J) × (Nat → Rows J) :=
  ((op (shards i key)).1, Function.update shards i
    (Function.update (shards i) key (op (shards i key)).2))

/-- The shard an operation of a batch is sent to. -/
def batchTarget (key : Bytes) : Nat :=
  if 1 < state.nShards then shardForKey hash key state.nShards else state.shardIdx

/-- `handle_batch`: one operation after another, up to the first that fails. The second
component says which key was acted on where. -/
def handleBatch : List (Bytes × RowOp J) → (Nat → Rows J) →
    Except String (List (Reply J)) × List (Bytes × Nat) × (Nat → Rows J)
  | [], shards => (.ok [], [], shards)
  | (key, op) :: ops, shards =>
    let target := batchTarget hash state key
    match onRow target key op shards with
    | (.error e, shards') => (.error e, [(key, target)], shards')
    | (.ok r, shards') =>
      let (rest, acts, shards'') := handleBatch ops shards'
      (rest.map (r :: ·), (key, target) :: acts, shards'')

/-- Where the keys of a command on several keys are acted on: it stays on its own shard, or
every shard acts on its bucket. -/
def multiActs (keys : List Bytes) : List (Bytes × Nat) :=
  if state.nShards ≤ 1 ∨ (keys.all fun key => shardForKey hash key state.nShards == state.shardIdx)
    then
    keys.map fun key => (key, state.shardIdx)
  else
    (List.range state.nShards).flatMap fun i =>
      ((bucketOf (bucketByShard hash id state.nShards keys) i).getD []).map fun key => (key, i)

/-- A request on a connection: the response, which key was acted on where, and the shards. -/
def serve (c : Circumstances) (shards : Nat → Rows J) :
    Request J → Response J × List (Bytes × Nat) × (Nat → Rows J)
  | .single key op =>
    let (r, shards') := onRow state.shardIdx key op shards
    (.single r, [(key, state.shardIdx)], shards')
  | .multi cmd =>
    let (r, shards') := dispatch hash threshold state c.order c.now c.revisions shards cmd
    (.multi r, multiActs hash state cmd.keys, shards')
  | .batch ops =>
    let (r, acts, shards') := handleBatch hash state ops shards
    (.batch r, acts, shards')

end serve

/-! ## The server -/

/-- The shards and the open connections, each with the shard it is pinned to. -/
structure Node (J : Serde) where
  nShards : Nat
  pos : 0 < nShards
  rr : Nat
  conns : List (Fin nShards)
  shards : Nat → Rows J

inductive Event (J : Serde)
  /-- A connection is accepted; `peeked` is the key found in its first bytes. -/
  | accept (peeked : Option Bytes)
  | request (conn : Nat) (c : Circumstances) (req : Request J)

section node
variable (hash : Bytes → Nat) {J : Serde} (threshold : Nat)

/-- `route`: the shard of a new connection, and the turn after it. -/
def route (peeked : Option Bytes) (n rr : Nat) : Nat × Nat :=
  match peeked with
  | some key => (shardForKey hash key n, rr)
  | none => (rr % n, rr + 1)

theorem route_lt (peeked : Option Bytes) {n : Nat} (hn : 0 < n) (rr : Nat) :
    (route hash peeked n rr).1 < n := by
  cases peeked with
  | some key => exact Nat.mod_lt _ hn
  | none => exact Nat.mod_lt _ hn

namespace Node

def connState (s : Node J) (i : Fin s.nShards) : ConnState := ⟨s.nShards, i, i.isLt⟩

/-- An event: the response if there is one, which key was acted on where, and the node after it. -/
def step (s : Node J) : Event J → Option (Response J) × List (Bytes × Nat) × Node J
  | .accept peeked =>
    (none, [], { s with
      rr := (route hash peeked s.nShards s.rr).2
      conns := s.conns
        ++ [⟨(route hash peeked s.nShards s.rr).1, route_lt hash peeked s.pos s.rr⟩] })
  | .request conn c req =>
    match s.conns[conn]? with
    | none => (none, [], s)
    | some i =>
      let (r, acts, shards) := serve hash threshold (s.connState i) c s.shards req
      (some r, acts, { s with shards })

/-- The node after some events. -/
def run (s : Node J) : List (Event J) → Node J
  | [] => s
  | e :: es => run (s.step hash threshold e).2.2 es

/-- Which key was acted on where in a run. -/
def acts (s : Node J) : List (Event J) → List (Bytes × Nat)
  | [] => []
  | e :: es => (s.step hash threshold e).2.1 ++ acts (s.step hash threshold e).2.2 es

/-- A request on one key comes in on a connection of the key's shard. -/
def RoutedStep (s : Node J) : Event J → Prop
  | .request conn _ (.single key _) =>
    ∀ i, s.conns[conn]? = some i → i.val = shardForKey hash key s.nShards
  | _ => True

/-- All of them do. -/
def Routed (s : Node J) : List (Event J) → Prop
  | [] => True
  | e :: es => s.RoutedStep hash e ∧ Routed (s.step hash threshold e).2.2 es

end Node

/-- Every shard asked by a command works once. -/
def Event.Valid (n : Nat) : Event J → Prop
  | .request _ c (.multi cmd) => c.order.Perm (asked hash n cmd.keys)
  | _ => True

def Event.keys : Event J → List Bytes
  | .accept _ => []
  | .request _ _ req => req.keys

end node

/-! ## Where keys are acted on -/

section placement
variable {hash : Bytes → Nat} {J : Serde} {threshold : Nat}

theorem batchTarget_eq (state : ConnState) (key : Bytes) :
    batchTarget hash state key = shardForKey hash key state.nShards := by
  unfold batchTarget
  split
  · rfl
  · rename_i hone
    exact (local_of_one (Nat.not_lt.mp hone) key).symm

theorem handleBatch_acts (state : ConnState) (ops : List (Bytes × RowOp J))
    (shards : Nat → Rows J) :
    ∀ a ∈ (handleBatch hash state ops shards).2.1, a.2 = shardForKey hash a.1 state.nShards := by
  induction ops generalizing shards with
  | nil =>
    intro a ha
    cases ha
  | cons x ops ih =>
    obtain ⟨key, op⟩ := x
    intro a ha
    unfold handleBatch at ha
    simp only at ha
    split at ha
    · rw [mem_singleton.mp ha]
      exact batchTarget_eq state key
    · obtain rfl | ha := mem_cons.mp ha
      · exact batchTarget_eq state key
      · exact ih _ a ha

theorem multiActs_placed (state : ConnState) (keys : List Bytes) :
    ∀ a ∈ multiActs hash state keys, a.2 = shardForKey hash a.1 state.nShards := by
  intro a ha
  unfold multiActs at ha
  split at ha
  · rename_i hown
    obtain ⟨key, hkey, rfl⟩ := mem_map.mp ha
    obtain hone | hall := hown
    · exact (local_of_one hone key).symm
    · exact (beq_iff_eq.mp (all_eq_true.mp hall key hkey)).symm
  · obtain ⟨i, hi, ha⟩ := mem_flatMap.mp ha
    rw [bucketOf_getD (mem_range.mp hi)] at ha
    obtain ⟨key, hkey, rfl⟩ := mem_map.mp ha
    exact (mem_share.mp hkey).2.symm

theorem Node.step_none {s : Node J} {conn : Nat} (h : s.conns[conn]? = none) (c : Circumstances)
    (req : Request J) :
    s.step hash threshold (.request conn c req) = (none, [], s) := by
  simp only [Node.step, h]

theorem Node.step_some {s : Node J} {conn : Nat} {i : Fin s.nShards} (h : s.conns[conn]? = some i)
    (c : Circumstances)
    (req : Request J) :
    s.step hash threshold (.request conn c req) =
      (some (serve hash threshold (s.connState i) c s.shards req).1,
        (serve hash threshold (s.connState i) c s.shards req).2.1,
        { s with shards := (serve hash threshold (s.connState i) c s.shards req).2.2 }) := by
  simp only [Node.step, h]

/-- One event acts where it should if and only if it is routed. -/
theorem Node.step_placed_iff (hash : Bytes → Nat) (threshold : Nat) (s : Node J) (e : Event J) :
    (∀ a ∈ (s.step hash threshold e).2.1, a.2 = shardForKey hash a.1 s.nShards)
    ↔ s.RoutedStep hash e := by
  cases e with
  | accept peeked => exact iff_of_true (fun a ha => nomatch ha) trivial
  | request conn c req =>
    cases hconn : s.conns[conn]? with
    | none =>
      refine iff_of_true ?_ ?_
      · intro a ha
        rw [Node.step_none hconn] at ha
        cases ha
      · cases req with
        | single key op =>
          intro i hi
          rw [hconn] at hi
          cases hi
        | multi cmd => trivial
        | batch ops => trivial
    | some i =>
      rw [Node.step_some hconn]
      cases req with
      | single key op =>
        constructor
        · intro hplaced j hj
          rw [hconn] at hj
          cases hj
          exact hplaced (key, i.val) (mem_singleton.mpr rfl)
        · intro hrouted a ha
          rw [mem_singleton.mp ha]
          exact hrouted i hconn
      | multi cmd => exact iff_of_true (multiActs_placed (s.connState i) cmd.keys) trivial
      | batch ops => exact iff_of_true (handleBatch_acts (s.connState i) ops s.shards) trivial

theorem Node.step_nShards (s : Node J) (e : Event J) :
    (s.step hash threshold e).2.2.nShards = s.nShards := by
  cases e with
  | accept peeked => rfl
  | request conn c req =>
    cases hconn : s.conns[conn]? with
    | none => rw [Node.step_none hconn]
    | some i => rw [Node.step_some hconn]

theorem Node.run_placed_iff (s : Node J) (es : List (Event J)) :
    (∀ a ∈ s.acts hash threshold es, a.2 = shardForKey hash a.1 s.nShards)
    ↔ s.Routed hash threshold es := by
  induction es generalizing s with
  | nil => exact iff_of_true (fun a ha => nomatch ha) trivial
  | cons e es ih =>
    have hrest := ih (s.step hash threshold e).2.2
    rw [Node.step_nShards] at hrest
    show _ ↔ s.RoutedStep hash e ∧ Node.Routed hash threshold _ es
    rw [← s.step_placed_iff hash threshold e, ← hrest]
    exact forall_mem_append

end placement

/-! ## Reading back -/

/-- The ways to write or read one key. -/
inductive Via
  | single
  | multi
  | batch

section readBack
variable {hash : Bytes → Nat} {J : Serde} {threshold : Nat} {key : Bytes}
  {c : Circumstances} {s : Node J}

def Via.write (key value : Bytes) (revision : UInt64) : Via → Request J
  | .single => .single key (.set value revision)
  | .multi => .multi (.mset [(key, value)])
  | .batch => .batch [(key, .set value revision)]

def Via.read (key : Bytes) (now : UInt64) : Via → Request J
  | .single => .single key (.get now)
  | .multi => .multi (.mget [key])
  | .batch => .batch [(key, .get now)]

/-- The request was not refused. -/
def Response.acked : Response J → Bool
  | .single r => r.isOk
  | .multi r => r.isOk
  | .batch r => r.isOk

/-- The value a read of one key was answered with. -/
def Response.value? : Response J → Option Bytes
  | .single (.ok (.entry (some e))) => some e.value
  | .multi (.ok (.entries [some e])) => some e.value
  | .batch (.ok [.entry (some e)]) => some e.value
  | _ => none

/-- A row with this value that does not expire. -/
def Holds (value : Bytes) (row : Option (Entry J)) : Prop :=
  ∃ e, row = some e ∧ e.value = value ∧ e.expiresAtMs = none

theorem onRow_other {i j : Nat} {key key' : Bytes} (hkey : key' ≠ key) (op : RowOp J)
    (shards : Nat → Rows J) :
    (onRow i key op shards).2 j key' = shards j key' := by
  show Function.update shards i (Function.update (shards i) key _) j key' = _
  by_cases hj : j = i
  · rw [hj, Function.update_self, Function.update_of_ne hkey]
  · rw [Function.update_of_ne hj]

theorem onRow_self (i : Nat) (key : Bytes) (op : RowOp J) (shards : Nat → Rows J) :
    (onRow i key op shards).2 i key = (op (shards i key)).2 := by
  show Function.update shards i (Function.update (shards i) key _) i key = _
  rw [Function.update_self, Function.update_self]

theorem handleBatch_other {state : ConnState} {ops : List (Bytes × RowOp J)}
    (hkey : key ∉ ops.map Prod.fst) (shards : Nat → Rows J) (j : Nat) :
    (handleBatch hash state ops shards).2.2 j key = shards j key := by
  induction ops generalizing shards with
  | nil => rfl
  | cons x ops ih =>
    obtain ⟨k, op⟩ := x
    have hk : key ≠ k := fun h => hkey (h ▸ mem_cons_self)
    have hrest : key ∉ ops.map Prod.fst := fun h => hkey (mem_cons_of_mem _ h)
    have hrow := onRow_other (i := batchTarget hash state k) (j := j) hk op shards
    unfold handleBatch
    simp only
    split
    · rename_i e shards' hop
      rw [hop] at hrow
      exact hrow
    · rename_i r shards' hop
      rw [hop] at hrow
      exact (ih hrest shards').trans hrow

theorem onOne_other {cmd : Multi} (hkey : key ∉ cmd.keys) (now : Bytes → UInt64)
    (revisions : Nat → UInt64) (t : Rows J) :
    (cmd.onOne threshold now revisions t).2 key = t key := by
  cases cmd with
  | mget keys =>
    show (t.mget now keys).2 key = _
    rw [Rows.mget_apply, if_neg fun h => hkey h.1]
  | mset pairs =>
    show (Rows.mset threshold revisions pairs t).2 key = _
    unfold Rows.mset
    split
    · exact Rows.putAll_other _ _ fun x hx h => hkey (mem_map.mpr ⟨x, hx, h⟩)
    · rfl
  | del keys =>
    show (t.del now keys).2 key = _
    rw [Rows.del_apply]
    exact if_neg hkey
  | exists_ keys => rfl

theorem dispatch_other {state : ConnState} {cmd : Multi}
    (hvalid : c.order.Perm (asked hash state.nShards cmd.keys)) (hkey : key ∉ cmd.keys)
    (shards : Nat → Rows J) (j : Nat) :
    (dispatch hash threshold state c.order c.now c.revisions shards cmd).2 j key
    = shards j key := by
  obtain hj | hj := Nat.lt_or_ge j state.nShards
  · rw [dispatch_rows cmd hvalid hj]
    refine onOne_other ?_ ..
    intro hmem
    refine hkey ?_
    cases cmd with
    | mget keys => exact (mem_share.mp hmem).1
    | mset pairs =>
      obtain ⟨x, hx, rfl⟩ := mem_map.mp hmem
      exact mem_map_of_mem (mem_share.mp hx).1
    | del keys => exact (mem_share.mp hmem).1
    | exists_ keys => exact (mem_share.mp hmem).1
  · rw [dispatch_beyond cmd hvalid hj]

/-- An event leaves the rows of the keys it does not name. -/
theorem Node.step_other {e : Event J} (hvalid : e.Valid hash s.nShards)
    (hkey : key ∉ e.keys) (j : Nat) :
    (s.step hash threshold e).2.2.shards j key = s.shards j key := by
  cases e with
  | accept peeked => rfl
  | request conn c req =>
    cases hconn : s.conns[conn]? with
    | none => rw [Node.step_none hconn]
    | some i =>
      rw [Node.step_some hconn]
      cases req with
      | single k op => exact onRow_other (fun h => hkey (mem_singleton.mpr h)) op s.shards
      | multi cmd =>
        have hperm : c.order.Perm (asked hash (s.connState i).nShards cmd.keys) := hvalid
        exact dispatch_other hperm hkey s.shards j
      | batch ops => exact handleBatch_other hkey s.shards j

theorem Node.run_other {es : List (Event J)} (hvalid : ∀ e ∈ es, e.Valid hash s.nShards)
    (hkey : ∀ e ∈ es, key ∉ e.keys) (j : Nat) :
    (s.run hash threshold es).shards j key = s.shards j key := by
  induction es generalizing s with
  | nil => rfl
  | cons e es ih =>
    show (Node.run hash threshold (s.step hash threshold e).2.2 es).shards j key = _
    rw [ih ?_ fun e' he' => hkey e' (mem_cons_of_mem _ he'),
      Node.step_other (hvalid e mem_cons_self) (hkey e mem_cons_self)]
    intro e' he'
    rw [Node.step_nShards]
    exact hvalid e' (mem_cons_of_mem _ he')

theorem Node.run_nShards (s : Node J) (es : List (Event J)) :
    (s.run hash threshold es).nShards = s.nShards := by
  induction es generalizing s with
  | nil => rfl
  | cons e es ih => exact (ih _).trans (s.step_nShards e)

/-- A write that is routed and acknowledged is on the shard of its key. -/
theorem Node.step_write {conn : Nat} {key value : Bytes} {revision : UInt64} {w : Via}
    (hrouted : s.RoutedStep hash (.request conn c (w.write key value revision)))
    (hvalid : (Event.request conn c (w.write key value revision) : Event J).Valid hash s.nShards)
    {r : Response J}
    (hr : (s.step hash threshold (.request conn c (w.write key value revision))).1 = some r)
    (hack : r.acked = true) :
    Holds value ((s.step hash threshold (.request conn c (w.write key value revision))).2.2.shards
      (shardForKey hash key s.nShards) key) := by
  cases hconn : s.conns[conn]? with
  | none =>
    rw [Node.step_none hconn] at hr
    cases hr
  | some i =>
    rw [Node.step_some hconn] at hr ⊢
    cases w with
    | single =>
      rw [← hrouted i hconn]
      exact ⟨_, onRow_self .., rfl, rfl⟩
    | multi =>
      have hlt : shardForKey hash key s.nShards < (s.connState i).nShards :=
        shardForKey_lt hash (s.connState i) key
      have hshare : share hash Prod.fst s.nShards (shardForKey hash key s.nShards) [(key, value)]
        = [(key, value)] :=
        share_eq_self fun x hx => by rw [mem_singleton.mp hx]
      have hperm :
        c.order.Perm (asked hash (s.connState i).nShards (Multi.mset [(key, value)]).keys) := hvalid
      have hreply :
        (dispatchMset hash (s.connState i) c.order threshold c.revisions [(key, value)] s.shards).1
        =
          (Rows.mset threshold (fun _ => 0) [(key, value)] (fun _ => none : Rows J)).1 :=
        dispatchMset_reply hperm (fun _ => 0) (fun _ => none)
      have hfits : fitsRecord threshold (key, value) = true := by
        by_contra hbad
        have hrefused :
          (dispatchMset hash (s.connState i) c.order threshold c.revisions
          [(key, value)] s.shards).1 =
            .error "malformed record at offset 0: record exceeds 4 GiB limit" := by
          rw [hreply, Rows.mset, if_neg (by simpa using hbad)]
        cases hr
        simp [Response.acked, Via.write, serve, dispatch, hrefused, Except.map, Except.isOk,
          Except.toBool] at hack
      show Holds value ((dispatch hash threshold (s.connState i) c.order c.now c.revisions s.shards
        (.mset [(key, value)])).2 (shardForKey hash key s.nShards) key)
      rw [dispatch_rows _ hperm hlt]
      show Holds value
        ((Rows.mset threshold _ (share hash Prod.fst s.nShards _ [(key, value)]) _).2 key)
      rw [hshare, Rows.mset, if_pos (by simpa using hfits)]
      exact ⟨_, Function.update_self .., rfl, rfl⟩
    | batch =>
      show Holds value
        ((onRow (batchTarget hash (s.connState i) key) key (RowOp.set value revision) s.shards).2
        (shardForKey hash key s.nShards) key)
      rw [batchTarget_eq]
      exact ⟨_, onRow_self .., rfl, rfl⟩

theorem liveRow_of_holds {value : Bytes} {row : Option (Entry J)} (h : Holds value row)
    (now : UInt64) :
    liveRow now row = row := by
  obtain ⟨e, rfl, -, hexpiry⟩ := h
  simp [liveRow, isPast, hexpiry]

/-- A read that is routed sees the row on the shard of its key. -/
theorem Node.step_read {conn : Nat} {key value : Bytes} {now : UInt64} {v : Via}
    (hrouted : s.RoutedStep hash (.request conn c (v.read key now)))
    (hvalid : (Event.request conn c (v.read key now) : Event J).Valid hash s.nShards)
    (hrow : Holds value (s.shards (shardForKey hash key s.nShards) key)) {r : Response J}
    (hr : (s.step hash threshold (.request conn c (v.read key now))).1 = some r) :
    r.value? = some value := by
  cases hconn : s.conns[conn]? with
  | none =>
    rw [Node.step_none hconn] at hr
    cases hr
  | some i =>
    rw [Node.step_some hconn] at hr
    cases hr
    have hlive := liveRow_of_holds hrow
    obtain ⟨e, he, hvalue, hexpiry⟩ := hrow
    cases v with
    | single =>
      show Response.value? (.single (.ok (.entry (liveRow now (s.shards i key))))) = _
      rw [hrouted i hconn, hlive, he]
      exact congrArg some hvalue
    | multi =>
      have hperm : c.order.Perm (asked hash (s.connState i).nShards (Multi.mget [key]).keys) :=
        hvalid
      have hreply :
        (dispatch hash threshold (s.connState i) c.order c.now c.revisions s.shards (.mget [key])).1
        = _ :=
        dispatch_reply _ hperm (fun key => rfl) (fun _ => 0)
      show Response.value?
        (.multi (dispatch hash threshold (s.connState i) c.order c.now c.revisions s.shards
        (.mget [key])).1) = _
      rw [hreply]
      let one : Rows J := fun key => s.shards (shardForKey hash key s.nShards) key
      have hrow : ∀ now, one.live now key = some e := by
        intro now
        simp [Rows.live, Rows.past, one, he, isPast, hexpiry]
      show Response.value? (.multi (.ok (.entries [one.live _ key]))) = _
      rw [hrow]
      exact congrArg some hvalue
    | batch =>
      show Response.value?
        (.batch (.ok [.entry (liveRow now (s.shards (batchTarget hash (s.connState i) key) key))]))
        = _
      rw [batchTarget_eq]
      show Response.value?
        (.batch (.ok [.entry (liveRow now (s.shards (shardForKey hash key s.nShards) key))])) = _
      rw [hlive, he]
      exact congrArg some hvalue

theorem Node.routed_append {es es' : List (Event J)} (h : s.Routed hash threshold (es ++ es')) :
    Node.Routed hash threshold (s.run hash threshold es) es' := by
  induction es generalizing s with
  | nil => exact h
  | cons e es ih => exact ih h.2

/-- In every run all operations act on the shards of their keys if and only if the requests on
one key come in on connections of that key's shard. If they do, a value that was written, in
any way and through any connection, is what every way to read it returns on every connection,
as long as no other request names the key. -/
theorem every_key_on_one_shard_iff (hash : Bytes → Nat) (threshold : Nat) (s : Node J) :
    (∀ es, (∀ a ∈ s.acts hash threshold es, a.2 = shardForKey hash a.1 s.nShards)
      ↔ s.Routed hash threshold es) ∧
      ∀ (w v : Via) (key value : Bytes) (revision now : UInt64) (conn conn' : Nat)
        (c c' : Circumstances)
        (between : List (Event J)) (ack r : Response J),
        let write := Event.request conn c (w.write key value revision)
        let read := Event.request conn' c' (v.read key now)
        s.Routed hash threshold (write :: between ++ [read]) →
        (∀ e ∈ write :: between ++ [read], e.Valid hash s.nShards) → (∀ e ∈ between, key ∉ e.keys) →
        (s.step hash threshold write).1 = some ack → ack.acked = true →
        ((s.run hash threshold (write :: between)).step hash threshold read).1 = some r →
        r.value? = some value := by
  refine ⟨fun es => s.run_placed_iff es, ?_⟩
  intro w v key value revision now conn conn' c c' between ack r write read hrouted hvalid hother
    hack hacked hr
  have hread : Node.RoutedStep hash (s.run hash threshold (write :: between)) read :=
    (Node.routed_append hrouted).1
  have hwrite := Node.step_write hrouted.1 (hvalid write mem_cons_self) hack hacked
  have hn : (s.run hash threshold (write :: between)).nShards = s.nShards := s.run_nShards _
  refine Node.step_read hread ?_ ?_ hr
  · rw [hn]
    exact hvalid read (mem_append_right _ (mem_singleton.mpr rfl))
  · rw [hn]
    show Holds value
      ((Node.run hash threshold (s.step hash threshold write).2.2 between).shards _ key)
    rw [Node.run_other ?_ hother]
    · exact hwrite
    · intro e he
      rw [Node.step_nShards]
      exact hvalid e (mem_append_left _ (mem_cons_of_mem _ he))

end readBack

/-! ## Two shards -/

/-- Two shards without data. -/
def twoShards (conns : List (Fin 2)) : Node noJson := ⟨2, by decide, 0, conns, fun _ _ => none⟩

def calm : Circumstances := ⟨[1], fun _ => 9, fun _ _ => 3⟩

/-- A write through a connection of the key's shard is read by a command of another one. -/
theorem every_key_on_one_shard_mget :
    ∃ r,
      (((twoShards [0, 1]).run sumHash 64 [.request 1 calm (Via.write [1] [7] 3 .single)]).step
      sumHash 64
      (.request 0 calm (Via.read [1] 9 .multi))).1 = some r ∧ r.value? = some [7] := by
  have hperm : calm.order.Perm (asked sumHash 2 (Multi.mget [[1]]).keys) := by decide
  refine ⟨_, rfl, (every_key_on_one_shard_iff sumHash 64 (twoShards [0, 1])).2 .single .multi [1]
    [7] 3 9 1 0 calm calm [] (.single (.ok .unit)) _
    ⟨?_, trivial, trivial⟩ ?_ (fun e he => nomatch he) rfl rfl rfl⟩
  · intro i hi
    cases hi
    decide
  · intro e he
    obtain rfl | he := mem_cons.mp he
    · trivial
    · rw [mem_singleton.mp he]
      exact hperm

/-- A client reads a key and then writes another one, which belongs to the other shard; the
write stays on the first key's shard, and a client of the second key's shard does not see it. -/
theorem write_misses_its_shard :
    let events : List (Event noJson) := [.accept (some [2]), .accept (some [1]),
      .request 0 calm (.single [2] (.get 9)), .request 0 calm (.single [1] (.set [7] 3))]
    ([1], 0) ∈ (twoShards []).acts sumHash 64 events ∧ shardForKey sumHash [1] 2 = 1 ∧
      (((twoShards []).run sumHash 64 events).step sumHash 64
        (.request 1 calm (.single [1] (.get 9)))).1 =
        some (.single (.ok (.entry none))) := by
  refine ⟨by decide, by decide, rfl⟩

end BeyondKv.Server
