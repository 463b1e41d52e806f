/-
# The watch registry

A shard keeps a sender for every subscription, by namespace and key or by namespace and prefix. A
notification tries every sender it concerns and drops those that fail, because the receiver is
gone or its channel is full. Dead senders that no notification concerns stay until a subscription
finds the registry full.

What a receiver is to see does not mention the registry (`Inbox.see`): the notifications that
match it, each once and in their order, until its channel overflows. The registry delivers exactly
that to every receiver in every run, holds no more senders than its cap, and refuses a
subscription only if so many receivers are open (`watch_delivers_exactly_once`).

A map is a list of its entries. A channel has one sender, so it takes one message more than its
buffer.
-/
import BeyondKv.Store

namespace BeyondKv.Watch

open Function
open List hiding beq_eq_decide

def watchChannelCapacity : Nat := 512

def maxTotalSubscriptions : Nat := 65536

inductive KeyFilter where
  | exact (key : Bytes)
  | startsWith (start : Bytes)
  deriving DecidableEq

def KeyFilter.matches : KeyFilter → Bytes → Bool
  | .exact k, key => k == key
  | .startsWith start, key => start.isPrefixOf key

/-! ## Channels -/

structure Channel (J : Serde) where
  isOpen : Bool
  queue : List (WatchEvent J)

variable {J : Serde}

def Channel.accepts (c : Channel J) : Bool :=
  c.isOpen && decide (c.queue.length ≤ watchChannelCapacity)

/-- The channels by the number of their receiver. -/
abbrev Channels (J : Serde) := Nat → Channel J

def trySend (id : Nat) (event : WatchEvent J) (chans : Channels J) : Bool × Channels J :=
  if (chans id).accepts
    then (true, Function.update chans id { chans id with queue := (chans id).queue ++ [event] })
  else (false, chans)

/-- `retain_mut` of `notify`: every sender that `p` names is tried, and dropped if it fails. -/
def retainSend {α : Type} (p : α → Bool) (id : α → Nat) (event : WatchEvent J) :
    List α → Channels J → List α × Channels J
  | [], chans => ([], chans)
  | x :: xs, chans =>
    if p x then
      let (ok, chans) := trySend (id x) event chans
      let (rest, chans) := retainSend p id event xs chans
      (if ok then x :: rest else rest, chans)
    else
      let (rest, chans) := retainSend p id event xs chans
      (x :: rest, chans)

/-! ## The registry -/

abbrev Keys := List ((Bytes × Bytes) × List Nat)

structure WatchRegistry where
  keys : Keys
  prefixes : List ((Bytes × Bytes) × Nat)

namespace WatchRegistry

def new : WatchRegistry := ⟨[], []⟩

def totalSubscriptions (r : WatchRegistry) :
    Nat := (r.keys.map fun e => e.2.length).sum + r.prefixes.length

/-- Without the senders whose receiver is gone. -/
def prune (isOpen : Nat → Bool) (r : WatchRegistry) : WatchRegistry where
  keys := (r.keys.map fun e => (e.1, e.2.filter isOpen)).filter fun e => !e.2.isEmpty
  prefixes := r.prefixes.filter fun e => isOpen e.2

def ensureCapacity (isOpen : Nat → Bool) (r : WatchRegistry) :
    Except EngineError Unit × WatchRegistry :=
  if r.totalSubscriptions < maxTotalSubscriptions then (.ok (), r)
  else
    let r := r.prune isOpen
    if r.totalSubscriptions ≥ maxTotalSubscriptions then
      (.error (.capacityExceeded "watch subscription limit reached"), r)
    else (.ok (), r)

/-- `entry(k).or_default().push(id)`. -/
def push (k : Bytes × Bytes) (id : Nat) : Keys → Keys
  | [] => [(k, [id])]
  | e :: es => if e.1 = k then (e.1, e.2 ++ [id]) :: es else e :: push k id es

def subscribeKey (isOpen : Nat → Bool) (ns key : Bytes) (id : Nat) (r : WatchRegistry) :
    Except EngineError Unit × WatchRegistry :=
  let pruned : Keys := r.keys.map fun e => if e.1 = (ns, key) then (e.1, e.2.filter isOpen) else e
  match { r with keys := pruned }.ensureCapacity isOpen with
  | (.error e, r) => (.error e, r)
  | (.ok (), r) => (.ok (), { r with keys := push (ns, key) id r.keys })

def subscribePrefix (isOpen : Nat → Bool) (ns start : Bytes) (id : Nat) (r : WatchRegistry) :
    Except EngineError Unit × WatchRegistry :=
  match { r with prefixes := r.prefixes.filter fun e => isOpen e.2 }.ensureCapacity isOpen with
  | (.error e, r) => (.error e, r)
  | (.ok (), r) => (.ok (), { r with prefixes := r.prefixes ++ [((ns, start), id)] })

/-- The senders of one key are tried; the entry goes with the last of them. -/
def notifyKey (k : Bytes × Bytes) (event : WatchEvent J) : Keys → Channels J → Keys × Channels J
  | [], chans => ([], chans)
  | e :: es, chans =>
    if e.1 = k then
      let (senders, chans) := retainSend (fun _ => true) id event e.2 chans
      (if senders.isEmpty then es else (e.1, senders) :: es, chans)
    else
      let (es, chans) := notifyKey k event es chans
      (e :: es, chans)

def notify (ns key : Bytes) (event : WatchEvent J) (r : WatchRegistry) (chans : Channels J) :
    WatchRegistry × Channels J :=
  if r.keys.isEmpty && r.prefixes.isEmpty then (r, chans)
  else
    let (keys, chans) := notifyKey (ns, key) event r.keys chans
    let (prefixes, chans) :=
      retainSend (fun e => e.1.1 == ns && e.1.2.isPrefixOf key) Prod.snd event r.prefixes chans
    (⟨keys, prefixes⟩, chans)

end WatchRegistry

/-! ## Runs -/

/-- The registry with all channels; the next receiver has the number `next`. -/
structure World (J : Serde) where
  registry : WatchRegistry
  chans : Channels J
  next : Nat

inductive Event (J : Serde) where
  /-- `subscribe_key` or `subscribe_prefix`. -/
  | subscribe (ns : Bytes) (filter : KeyFilter)
  | notify (ns key : Bytes) (event : WatchEvent J)
  | receive (id : Nat)
  | drop (id : Nat)

namespace World

def new : World J := ⟨.new, fun _ => ⟨false, []⟩, 0⟩

def isOpen (w : World J) (id : Nat) : Bool := (w.chans id).isOpen

/-- What `subscribe_key` and `subscribe_prefix` do. -/
def subscribe (w : World J) (ns : Bytes) : KeyFilter → Except EngineError Unit × WatchRegistry
  | .exact key => w.registry.subscribeKey w.isOpen ns key w.next
  | .startsWith start => w.registry.subscribePrefix w.isOpen ns start w.next

def step (w : World J) : Event J → World J
  | .subscribe ns filter =>
    match w.subscribe ns filter with
    | (.error _, r) => { w with registry := r }
    | (.ok (), r) => ⟨r, Function.update w.chans w.next ⟨true, []⟩, w.next + 1⟩
  | .notify ns key event =>
    let (r, chans) := w.registry.notify ns key event w.chans
    { w with registry := r, chans := chans }
  | .receive id =>
    { w with
      chans := Function.update w.chans id { w.chans id with queue := (w.chans id).queue.tail } }
  | .drop id => { w with chans := Function.update w.chans id { w.chans id with isOpen := false } }

def run (events : List (Event J)) : World J := events.foldl step new

end World

/-! ## What a receiver is to see -/

structure Inbox (J : Serde) where
  ns : Bytes
  filter : KeyFilter
  isOpen : Bool
  overflowed : Bool
  queue : List (WatchEvent J)

namespace Inbox

def channel (i : Inbox J) : Channel J := ⟨i.isOpen, i.queue⟩

/-- Wants the notifications of this key. -/
def wants (i : Inbox J) (ns key : Bytes) : Bool :=
  i.ns == ns && i.filter.matches key && i.isOpen && !i.overflowed

/-- The receiver `id` sees an event. -/
def see (id : Nat) (i : Inbox J) : Event J → Inbox J
  | .notify ns key event =>
    if i.wants ns key then
      if i.queue.length ≤ watchChannelCapacity then { i with queue := i.queue ++ [event] }
      else { i with overflowed := true }
    else i
  | .receive r => if r = id then { i with queue := i.queue.tail } else i
  | .drop r => if r = id then { i with isOpen := false } else i
  | .subscribe .. => i

end Inbox

/-! ## The senders -/

structure Sender where
  ns : Bytes
  filter : KeyFilter
  id : Nat

def Sender.hit (s : Sender) (ns key : Bytes) : Bool := s.ns == ns && s.filter.matches key

def keySenders (keys : Keys) : List Sender :=
  keys.flatMap fun e => e.2.map fun id => ⟨e.1.1, .exact e.1.2, id⟩

def prefixSender (e : (Bytes × Bytes) × Nat) : Sender := ⟨e.1.1, .startsWith e.1.2, e.2⟩

def WatchRegistry.senders (r : WatchRegistry) : List Sender :=
  keySenders r.keys ++ r.prefixes.map prefixSender

theorem WatchRegistry.totalSubscriptions_eq (r : WatchRegistry) :
    r.totalSubscriptions = r.senders.length := by
  simp [totalSubscriptions, senders, keySenders, length_flatMap]

/-! ### Pruning -/

/-- Some senders of closed channels are gone. -/
structure Pruned (isOpen : Nat → Bool) (r r' : WatchRegistry) : Prop where
  keys : (r'.keys.map Prod.fst).Sublist (r.keys.map Prod.fst)
  fewer : r'.senders.Sublist r.senders
  kept : ∀ s ∈ r.senders, isOpen s.id = true → s ∈ r'.senders

section pruning
variable {isOpen : Nat → Bool} {r r' r'' : WatchRegistry}

theorem Pruned.refl (r : WatchRegistry) : Pruned isOpen r r := ⟨.refl _, .refl _, fun _ h _ => h⟩

theorem Pruned.trans (h : Pruned isOpen r r') (h' : Pruned isOpen r' r'') : Pruned isOpen r r'' :=
  ⟨h'.keys.trans h.keys, h'.fewer.trans h.fewer, fun s hs ho => h'.kept s (h.kept s hs ho) ho⟩

theorem keySenders_cons (e : (Bytes × Bytes) × List Nat) (keys : Keys) :
    keySenders (e :: keys) = (e.2.map fun id => ⟨e.1.1, .exact e.1.2, id⟩) ++ keySenders keys :=
      flatMap_cons

theorem keySenders_prune (keys : Keys) :
    keySenders ((keys.map fun e => (e.1, e.2.filter isOpen)).filter fun e => !e.2.isEmpty)
      = (keySenders keys).filter fun s => isOpen s.id := by
  induction keys with
  | nil => rfl
  | cons e keys ih =>
    have hsenders :
      ((e.2.map fun id => (⟨e.1.1, .exact e.1.2, id⟩ : Sender)).filter fun s => isOpen s.id)
        = (e.2.filter isOpen).map fun id => ⟨e.1.1, .exact e.1.2, id⟩ := filter_map
    rw [map_cons, filter_cons, keySenders_cons, filter_append, hsenders, ← ih]
    cases hempty : e.2.filter isOpen with
    | nil => simp
    | cons id ids => simp [keySenders_cons]

theorem senders_prune (r : WatchRegistry) :
    (r.prune isOpen).senders = r.senders.filter fun s => isOpen s.id := by
  have hprefixes : ((r.prefixes.map prefixSender).filter fun s => isOpen s.id)
      = (r.prefixes.filter fun e => isOpen e.2).map prefixSender := filter_map
  rw [WatchRegistry.senders, WatchRegistry.senders, filter_append, hprefixes, ← keySenders_prune]
  rfl

theorem pruned_prune (r : WatchRegistry) : Pruned isOpen r (r.prune isOpen) := by
  refine ⟨?_, ?_, fun s hs hopen => ?_⟩
  · have hkeys :=
      (filter_sublist (p := fun e => !e.2.isEmpty)
        (l := r.keys.map fun e => (e.1, e.2.filter isOpen))).map
      Prod.fst
    rwa [map_map] at hkeys
  · rw [senders_prune]
    exact filter_sublist
  · rw [senders_prune]
    exact mem_filter.mpr ⟨hs, hopen⟩

theorem pruned_key (k : Bytes × Bytes) (r : WatchRegistry) :
    Pruned isOpen r { r with keys := r.keys.map fun e => if e.1 = k then (e.1, e.2.filter isOpen)
        else e } := by
  obtain ⟨keys, prefixes⟩ := r
  have hstep :
    ((keys.map fun e => if e.1 = k then (e.1, e.2.filter isOpen) else e).map Prod.fst).Sublist
    (keys.map Prod.fst)
      ∧ (keySenders (keys.map fun e => if e.1 = k then (e.1, e.2.filter isOpen) else e)).Sublist
      (keySenders keys)
      ∧ ∀ s ∈ keySenders keys, isOpen s.id = true →
        s ∈ keySenders (keys.map fun e => if e.1 = k then (e.1, e.2.filter isOpen) else e) := by
    induction keys with
    | nil => exact ⟨.refl _, .refl _, fun s hs _ => hs⟩
    | cons e keys ih =>
      obtain ⟨hkeys, hfewer, hkept⟩ := ih
      simp only [map_cons, keySenders_cons]
      by_cases hk : e.1 = k
      · simp only [if_pos hk]
        refine ⟨hkeys.cons_cons _, (filter_sublist.map _).append hfewer, fun s hs hopen => ?_⟩
        rw [mem_append] at hs ⊢
        refine hs.imp (fun hs => ?_) fun hs => hkept s hs hopen
        obtain ⟨id, hid, rfl⟩ := mem_map.mp hs
        exact mem_map.mpr ⟨id, mem_filter.mpr ⟨hid, hopen⟩, rfl⟩
      · simp only [if_neg hk]
        refine ⟨hkeys.cons_cons _, (List.Sublist.refl _).append hfewer, fun s hs hopen => ?_⟩
        rw [mem_append] at hs ⊢
        exact hs.imp id fun hs => hkept s hs hopen
  obtain ⟨hkeys, hfewer, hkept⟩ := hstep
  refine ⟨hkeys, hfewer.append (.refl _), fun s hs hopen => ?_⟩
  rw [WatchRegistry.senders, mem_append] at hs ⊢
  exact hs.imp (fun hs => hkept s hs hopen) id

theorem pruned_prefixes (r : WatchRegistry) :
    Pruned isOpen r { r with prefixes := r.prefixes.filter fun e => isOpen e.2 } := by
  refine ⟨.refl _, (List.Sublist.refl _).append (filter_sublist.map _), fun s hs hopen => ?_⟩
  rw [WatchRegistry.senders, mem_append] at hs ⊢
  refine hs.imp id fun hs => ?_
  obtain ⟨e, he, rfl⟩ := mem_map.mp hs
  exact mem_map.mpr ⟨e, mem_filter.mpr ⟨he, hopen⟩, rfl⟩

/-- There is room for one more sender, or every sender there is has an open receiver. -/
theorem ensureCapacity_pruned (isOpen : Nat → Bool) (r : WatchRegistry) :
    Pruned isOpen r (r.ensureCapacity isOpen).2
      ∧ match (r.ensureCapacity isOpen).1 with
        | .ok () => (r.ensureCapacity isOpen).2.senders.length < maxTotalSubscriptions
        | .error _ => maxTotalSubscriptions ≤ (r.ensureCapacity isOpen).2.senders.length
            ∧ ∀ s ∈ (r.ensureCapacity isOpen).2.senders, isOpen s.id = true := by
  rw [WatchRegistry.ensureCapacity]
  by_cases hroom : r.totalSubscriptions < maxTotalSubscriptions
  · rw [if_pos hroom]
    exact ⟨.refl r, r.totalSubscriptions_eq ▸ hroom⟩
  · rw [if_neg hroom]
    by_cases hfull : (r.prune isOpen).totalSubscriptions ≥ maxTotalSubscriptions
    · rw [if_pos hfull]
      refine ⟨pruned_prune r, WatchRegistry.totalSubscriptions_eq _ ▸ hfull, fun s hs => ?_⟩
      rw [senders_prune] at hs
      exact (mem_filter.mp hs).2
    · rw [if_neg hfull]
      exact ⟨pruned_prune r, WatchRegistry.totalSubscriptions_eq _ ▸ Nat.lt_of_not_ge hfull⟩

end pruning

/-! ### Sending -/

section sending
variable {event : WatchEvent J} {chans : Channels J}

/-- The channels once the receivers `ids` have been sent to. -/
def sent (ids : List Nat) (event : WatchEvent J) (chans : Channels J) : Channels J := fun id =>
  if id ∈ ids ∧ (chans id).accepts = true
    then { chans id with queue := (chans id).queue ++ [event] } else chans id

theorem sent_other {ids : List Nat} {id : Nat} (h : id ∉ ids) :
    sent ids event chans id = chans id :=
  if_neg fun hid => h hid.1

theorem sent_nil : sent [] event chans = chans := funext fun _ => sent_other not_mem_nil

theorem sent_append {ids ids' : List Nat} (h : ids.Disjoint ids') :
    sent ids' event (sent ids event chans) = sent (ids ++ ids') event chans := by
  funext id
  by_cases hid : id ∈ ids
  · have hid' : id ∉ ids' := h hid
    rw [sent_other hid']
    simp [sent, hid]
  · simp [sent, hid]

theorem trySend_eq (id : Nat) :
    trySend id event chans = ((chans id).accepts, sent [id] event chans) := by
  rw [trySend]
  split
  · rename_i hok
    refine Prod.ext hok.symm (funext fun r => ?_)
    by_cases hr : r = id
    · simp [sent, hr, hok]
    · simp [sent, hr]
  · rename_i hfull
    refine Prod.ext (Bool.eq_false_iff.mpr hfull).symm (funext fun r => ?_)
    by_cases hr : r = id
    · simp [sent, hr, hfull]
    · simp [sent, hr]

theorem retainSend_eq {α : Type} (p : α → Bool) (id : α → Nat) (xs : List α)
    (hids : (xs.map id).Nodup) :
    retainSend p id event xs chans
      = (xs.filter fun x => !p x || (chans (id x)).accepts,
        sent ((xs.filter p).map id) event chans) := by
  induction xs generalizing chans with
  | nil =>
    refine Prod.ext rfl ?_
    exact (funext fun _ => (sent_other not_mem_nil).symm : chans = sent [] event chans)
  | cons x xs ih =>
    obtain ⟨hnew, hids⟩ := nodup_cons.mp hids
    rw [retainSend]
    cases hx : p x with
    | false => simp [ih hids, hx]
    | true =>
      have hother :
          ∀ y ∈ xs, (sent [id x] event chans (id y)).accepts = (chans (id y)).accepts := by
        intro y hy
        rw [sent_other]
        rintro hmem
        exact hnew (mem_map.mpr ⟨y, hy, mem_singleton.mp hmem⟩)
      have hdisjoint : [id x].Disjoint ((xs.filter p).map id) := by
        refine singleton_disjoint.mpr fun hmem => hnew ?_
        obtain ⟨y, hy, heq⟩ := mem_map.mp hmem
        exact mem_map.mpr ⟨y, (mem_filter.mp hy).1, heq⟩
      have hrest : (xs.filter fun y => !p y || (sent [id x] event chans (id y)).accepts)
          = xs.filter fun y => !p y || (chans (id y)).accepts :=
        filter_congr fun y hy => by rw [hother y hy]
      rw [if_pos rfl, trySend_eq]
      dsimp only
      rw [ih hids, hrest, sent_append hdisjoint]
      cases hok : (chans (id x)).accepts <;> simp [hx, hok]

/-! ### Notifications -/

open WatchRegistry (notifyKey)

theorem hit_key {e : (Bytes × Bytes) × List Nat} {k : Bytes × Bytes} (id : Nat) :
    Sender.hit ⟨e.1.1, .exact e.1.2, id⟩ k.1 k.2 = decide (e.1 = k) := by
  simp [Sender.hit, KeyFilter.matches, Prod.ext_iff, beq_eq_decide]

theorem not_hit {k : Bytes × Bytes} {keys : Keys} (hk : k ∉ keys.map Prod.fst) :
    ∀ s ∈ keySenders keys, s.hit k.1 k.2 = false := by
  intro s hs
  obtain ⟨e, he, hs⟩ := mem_flatMap.mp hs
  obtain ⟨id, -, rfl⟩ := mem_map.mp hs
  rw [hit_key]
  exact decide_eq_false fun heq => hk (mem_map.mpr ⟨e, he, heq⟩)

theorem notifyKey_eq (event : WatchEvent J) (chans : Channels J) (k : Bytes × Bytes) (keys : Keys)
    (hkeys : (keys.map Prod.fst).Nodup)
    (hids : ((keySenders keys).map Sender.id).Nodup) :
    ((notifyKey k event keys chans).1.map Prod.fst).Sublist (keys.map Prod.fst)
      ∧ keySenders (notifyKey k event keys chans).1
        = (keySenders keys).filter (fun s => !s.hit k.1 k.2 || (chans s.id).accepts)
      ∧ (notifyKey k event keys chans).2
        = sent (((keySenders keys).filter fun s => s.hit k.1 k.2).map Sender.id) event chans := by
  induction keys with
  | nil => exact ⟨.refl _, rfl, sent_nil.symm⟩
  | cons e keys ih =>
    obtain ⟨hnew, hkeys⟩ := nodup_cons.mp hkeys
    rw [keySenders_cons, map_append, map_map] at hids
    have hown : (e.2.map id).Nodup := (nodup_append.mp hids).1
    have hrest := (nodup_append.mp hids).2.1
    rw [notifyKey, keySenders_cons, filter_append, filter_append, filter_map, filter_map]
    by_cases hk : e.1 = k
    · -- the entry of the key; no other one is hit
      have hnone := not_hit (hk ▸ hnew)
      have hkept : (keySenders keys).filter (fun s => !s.hit k.1 k.2 || (chans s.id).accepts)
        = keySenders keys :=
        filter_eq_self.mpr fun s hs => by simp [hnone s hs]
      have hhit : (keySenders keys).filter (fun s => s.hit k.1 k.2) = [] :=
        filter_eq_nil_iff.mpr fun s hs => by simp [hnone s hs]
      have hall (id : Nat) : Sender.hit ⟨e.1.1, .exact e.1.2, id⟩ k.1 k.2 = true :=
        by rw [hit_key, decide_eq_true hk]
      rw [if_pos hk, retainSend_eq _ _ _ hown, hkept, hhit]
      simp only [comp_def, hall, Bool.not_true, Bool.false_or, append_nil]
      refine ⟨?_, ?_, ?_⟩
      · split
        · exact sublist_cons_self _ _
        · exact .refl _
      · cases hempty : e.2.filter fun id => (chans id).accepts with
        | nil => simp [hempty]
        | cons id ids => simp [hempty, keySenders_cons]
      · simp [comp_def]
    · obtain ⟨hfst, hsenders, hsent⟩ := ih hkeys hrest
      have hnone (id : Nat) : Sender.hit ⟨e.1.1, .exact e.1.2, id⟩ k.1 k.2 = false :=
        by rw [hit_key, decide_eq_false hk]
      rw [if_neg hk]
      simp only [comp_def, hnone, Bool.not_false, Bool.true_or, map_cons]
      refine ⟨hfst.cons_cons _, ?_, ?_⟩
      · rw [keySenders_cons, hsenders]
        simp
      · rw [hsent]
        simp

/-- A notification tries the senders it hits, and keeps those that it can reach. -/
theorem notify_eq (event : WatchEvent J) (chans : Channels J) (ns key : Bytes) (r : WatchRegistry)
    (hkeys : (r.keys.map Prod.fst).Nodup)
    (hids : (r.senders.map Sender.id).Nodup) :
    ((r.notify ns key event chans).1.keys.map Prod.fst).Sublist (r.keys.map Prod.fst)
      ∧ (r.notify ns key event chans).1.senders
        = r.senders.filter (fun s => !s.hit ns key || (chans s.id).accepts)
      ∧ (r.notify ns key event chans).2
      = sent ((r.senders.filter fun s => s.hit ns key).map Sender.id) event chans := by
  rw [WatchRegistry.notify]
  split
  · rename_i hempty
    obtain ⟨hk, hp⟩ := Bool.and_eq_true_iff.mp hempty
    have hnone : r.senders = [] := by
      rw [WatchRegistry.senders, List.isEmpty_iff.mp hk, List.isEmpty_iff.mp hp]
      rfl
    rw [hnone]
    exact ⟨.refl _, rfl, sent_nil.symm⟩
  · rw [WatchRegistry.senders, map_append, map_map] at hids
    obtain ⟨hkeyIds, hprefixIds, hapart⟩ := nodup_append.mp hids
    obtain ⟨hfst, hsenders, hsent⟩ := notifyKey_eq event chans (ns, key) r.keys hkeys hkeyIds
    have hsecond (s : Sender) (hs : s ∈ keySenders r.keys) (e : (Bytes × Bytes) × Nat)
      (he : e ∈ r.prefixes) :
        s.id ≠ e.2 := hapart s.id (mem_map_of_mem hs) e.2 (mem_map.mpr ⟨e, he, rfl⟩)
    have hstart (e : (Bytes × Bytes) × Nat) :
      (prefixSender e).hit ns key = (e.1.1 == ns && e.1.2.isPrefixOf key) := rfl
    have hother :
      ∀ e ∈ r.prefixes,
      sent (((keySenders r.keys).filter fun s => s.hit ns key).map Sender.id) event chans e.2
        = chans e.2 := by
      intro e he
      refine sent_other fun hmem => ?_
      obtain ⟨s, hs, heq⟩ := mem_map.mp hmem
      exact hsecond s (mem_filter.mp hs).1 e he heq
    dsimp only
    rw [hsent, retainSend_eq _ Prod.snd _ hprefixIds]
    refine ⟨hfst, ?_, ?_⟩
    · rw [WatchRegistry.senders, WatchRegistry.senders, filter_append, hsenders, filter_map]
      refine congrArg (_ ++ ·) (congrArg (List.map prefixSender) (filter_congr fun e he => ?_))
      rw [hother e he, ← hstart]
      rfl
    · rw [WatchRegistry.senders, filter_append, map_append, filter_map, map_map, sent_append]
      · rfl
      · intro id hid hid'
        obtain ⟨s, hs, rfl⟩ := mem_map.mp hid
        obtain ⟨e, he, heq⟩ := mem_map.mp hid'
        exact hsecond s (mem_filter.mp hs).1 e (mem_filter.mp he).1 heq.symm

end sending

/-! ### New senders -/

open WatchRegistry (push)

theorem senders_push (k : Bytes × Bytes) (id : Nat) (keys : Keys) :
    (keySenders (push k id keys)).Perm (⟨k.1, .exact k.2, id⟩ :: keySenders keys) := by
  induction keys with
  | nil => exact .refl _
  | cons e keys ih =>
    rw [push]
    by_cases hk : e.1 = k
    · rw [if_pos hk, keySenders_cons, keySenders_cons, map_append, append_assoc]
      simp [← hk]
    · rw [if_neg hk, keySenders_cons, keySenders_cons]
      exact (ih.append_left _).trans perm_middle

theorem mem_push {k k' : Bytes × Bytes} {id : Nat} {keys : Keys}
    (h : k' ∈ (push k id keys).map Prod.fst) :
    k' = k ∨ k' ∈ keys.map Prod.fst := by
  induction keys with
  | nil => exact .inl (mem_singleton.mp h)
  | cons e keys ih =>
    rw [push] at h
    split at h
    · exact .inr h
    · rw [map_cons, mem_cons] at h ⊢
      exact h.elim (fun h => .inr (.inl h)) fun h => (ih h).imp_right .inr

theorem nodup_push {k : Bytes × Bytes} {id : Nat} {keys : Keys} (h : (keys.map Prod.fst).Nodup) :
    ((push k id keys).map Prod.fst).Nodup := by
  induction keys with
  | nil => exact nodup_singleton k
  | cons e keys ih =>
    rw [push]
    split
    · exact h
    · rename_i hk
      obtain ⟨hnew, hrest⟩ := nodup_cons.mp h
      exact nodup_cons.mpr ⟨fun hmem => (mem_push hmem).elim hk hnew, ih hrest⟩

/-! ## Delivery -/

/-- The channels hold what the receivers are to see, and the registry has a sender for every open
receiver that has not overflowed. -/
structure Delivers (inboxes : Nat → Inbox J) (w : World J) : Prop where
  chans : ∀ id < w.next, w.chans id = (inboxes id).channel
  keys : (w.registry.keys.map Prod.fst).Nodup
  ids : (w.registry.senders.map Sender.id).Nodup
  known : ∀ s ∈ w.registry.senders, s.id < w.next ∧ (inboxes s.id).ns = s.ns
    ∧ (inboxes s.id).filter = s.filter
    ∧ (inboxes s.id).overflowed = false
  held : ∀ id < w.next, (inboxes id).isOpen = true → (inboxes id).overflowed = false →
    ∃ s ∈ w.registry.senders, s.id = id
  cap : w.registry.senders.length ≤ maxTotalSubscriptions

section delivery
variable {inboxes : Nat → Inbox J} {w : World J}

theorem delivers_new (inboxes : Nat → Inbox J) : Delivers inboxes World.new :=
  ⟨nofun, nodup_nil, nodup_nil, nofun, nofun, Nat.zero_le _⟩

theorem Delivers.pruned (h : Delivers inboxes w) {r : WatchRegistry}
    (hr : Pruned w.isOpen w.registry r) :
    Delivers inboxes { w with registry := r } := by
  refine ⟨h.chans, h.keys.sublist hr.keys, h.ids.sublist (hr.fewer.map _),
    fun s hs => h.known s (hr.fewer.subset hs),
    fun id hid hopen hflow => ?_, hr.fewer.length_le.trans h.cap⟩
  obtain ⟨s, hs, rfl⟩ := h.held id hid hopen hflow
  refine ⟨s, hr.kept s hs ?_, rfl⟩
  rw [World.isOpen, h.chans _ hid]
  exact hopen

/-- The senders of different open receivers are counted by these. -/
theorem Delivers.open_receivers (h : Delivers inboxes w)
    (hopen : ∀ s ∈ w.registry.senders, w.isOpen s.id = true) :
    w.registry.senders.length ≤ ((List.range w.next).filter w.isOpen).length := by
  have hsub : w.registry.senders.map Sender.id ⊆ (List.range w.next).filter w.isOpen := by
    intro id hid
    obtain ⟨s, hs, rfl⟩ := mem_map.mp hid
    exact mem_filter.mpr ⟨mem_range.mpr (h.known s hs).1, hopen s hs⟩
  have hlength := (h.ids.subperm hsub).length_le
  rwa [length_map] at hlength

/-- What comes of a subscription. -/
theorem subscribe_cases (w : World J) (ns : Bytes) (filter : KeyFilter) :
    (∃ e r, w.subscribe ns filter = (.error e, r) ∧ Pruned w.isOpen w.registry r
        ∧ maxTotalSubscriptions ≤ r.senders.length ∧ ∀ s ∈ r.senders, w.isOpen s.id = true)
      ∨ ∃ r r', w.subscribe ns filter = (.ok (), r') ∧ Pruned w.isOpen w.registry r
        ∧ r.senders.length < maxTotalSubscriptions
        ∧ r'.senders.Perm (⟨ns, filter, w.next⟩ :: r.senders)
        ∧ ((r.keys.map Prod.fst).Nodup → (r'.keys.map Prod.fst).Nodup) := by
  cases filter with
  | exact key =>
    let r₀ : WatchRegistry := { w.registry with
      keys := w.registry.keys.map fun e => if e.1 = (ns, key)
        then (e.1, e.2.filter w.isOpen) else e }
    have hfirst : Pruned w.isOpen w.registry r₀ := pruned_key (ns, key) w.registry
    obtain ⟨hpruned, hroom⟩ := ensureCapacity_pruned w.isOpen r₀
    have hsubscribe : w.subscribe ns (.exact key) = match r₀.ensureCapacity w.isOpen with
      | (.error e, r) => (.error e, r)
      | (.ok (), r) => (.ok (), { r with keys := push (ns, key) w.next r.keys }) := rfl
    rw [hsubscribe]
    generalize r₀.ensureCapacity w.isOpen = out at hpruned hroom
    obtain ⟨e | u, r⟩ := out
    · exact .inl ⟨e, r, rfl, hfirst.trans hpruned, hroom⟩
    · exact .inr
        ⟨r, _, rfl, hfirst.trans hpruned, hroom, (senders_push _ _ _).append_right _, nodup_push⟩
  | startsWith start =>
    let r₀ : WatchRegistry :=
      { w.registry with prefixes := w.registry.prefixes.filter fun e => w.isOpen e.2 }
    have hfirst : Pruned w.isOpen w.registry r₀ := pruned_prefixes w.registry
    obtain ⟨hpruned, hroom⟩ := ensureCapacity_pruned w.isOpen r₀
    have hsubscribe : w.subscribe ns (.startsWith start) = match r₀.ensureCapacity w.isOpen with
      | (.error e, r) => (.error e, r)
      | (.ok (), r) => (.ok (), { r with prefixes := r.prefixes ++ [((ns, start), w.next)] }) := rfl
    rw [hsubscribe]
    generalize r₀.ensureCapacity w.isOpen = out at hpruned hroom
    obtain ⟨e | u, r⟩ := out
    · exact .inl ⟨e, r, rfl, hfirst.trans hpruned, hroom⟩
    · refine .inr ⟨r, _, rfl, hfirst.trans hpruned, hroom, ?_, id⟩
      rw [WatchRegistry.senders, WatchRegistry.senders, map_append, ← append_assoc]
      exact perm_append_singleton _ _

/-- The inboxes after an event. -/
def watched (w : World J) (inboxes : Nat → Inbox J) (ev : Event J) : Nat → Inbox J :=
  match ev with
  | .subscribe ns filter =>
    match (w.subscribe ns filter).1 with
    | .ok () => Function.update inboxes w.next ⟨ns, filter, true, false, []⟩
    | .error _ => inboxes
  | ev => fun id => (inboxes id).see id ev

/-- A new receiver. -/
theorem Delivers.added (h : Delivers inboxes w) {ns : Bytes} {filter : KeyFilter}
    {r : WatchRegistry}
    (hroom : w.registry.senders.length < maxTotalSubscriptions)
    (hkeys : (r.keys.map Prod.fst).Nodup)
    (hsenders : r.senders.Perm (⟨ns, filter, w.next⟩ :: w.registry.senders)) :
    Delivers (Function.update inboxes w.next ⟨ns, filter, true, false, []⟩)
      ⟨r, Function.update w.chans w.next ⟨true, []⟩, w.next + 1⟩ := by
  have hnew : w.next ∉ w.registry.senders.map Sender.id := by
    intro hmem
    obtain ⟨s, hs, heq⟩ := mem_map.mp hmem
    exact absurd (h.known s hs).1 (by omega)
  refine ⟨fun id hid => ?_, hkeys, ?_, fun s hs => ?_, fun id hid hopen hflow => ?_, ?_⟩
  · by_cases heq : id = w.next
    · subst heq
      simp [Inbox.channel]
    · simp only [update_of_ne heq]
      exact h.chans id (Nat.lt_of_le_of_ne (Nat.le_of_lt_succ hid) heq)
  · rw [(hsenders.map Sender.id).nodup_iff]
    exact nodup_cons.mpr ⟨hnew, h.ids⟩
  · rw [hsenders.mem_iff, mem_cons] at hs
    obtain rfl | hs := hs
    · simp
    · have hold := h.known s hs
      rw [update_of_ne hold.1.ne]
      exact ⟨Nat.lt_succ_of_lt hold.1, hold.2⟩
  · by_cases heq : id = w.next
    · exact ⟨_, hsenders.mem_iff.mpr mem_cons_self, heq.symm⟩
    · rw [update_of_ne heq] at hopen hflow
      obtain ⟨s, hs, hid⟩ := h.held id (Nat.lt_of_le_of_ne (Nat.le_of_lt_succ hid) heq) hopen hflow
      exact ⟨s, hsenders.mem_iff.mpr (mem_cons_of_mem _ hs), hid⟩
  · rw [hsenders.length_eq, length_cons]
    exact hroom

/-- A receiver takes a message, or goes. -/
theorem Delivers.received (h : Delivers inboxes w) {inboxes' : Nat → Inbox J} {chans : Channels J}
    (hchans : ∀ id < w.next, chans id = (inboxes' id).channel)
    (hsame : ∀ id, (inboxes' id).ns = (inboxes id).ns ∧ (inboxes' id).filter = (inboxes id).filter
      ∧ (inboxes' id).overflowed = (inboxes id).overflowed
        ∧ ((inboxes' id).isOpen = true → (inboxes id).isOpen = true)) :
    Delivers inboxes' { w with chans := chans } := by
  refine ⟨hchans, h.keys, h.ids, fun s hs => ?_, fun id hid hopen hflow => ?_, h.cap⟩
  · obtain ⟨hns, hfilter, hflow, -⟩ := hsame s.id
    rw [hns, hfilter, hflow]
    exact h.known s hs
  · obtain ⟨-, -, hflow', hopen'⟩ := hsame id
    exact h.held id hid (hopen' hopen) (hflow' ▸ hflow)

theorem Delivers.notified (h : Delivers inboxes w) (ns key : Bytes) (event : WatchEvent J) :
    Delivers (fun id => (inboxes id).see id (.notify ns key event))
        (w.step (.notify ns key event)) := by
  obtain ⟨hkeys, hsenders, hchans⟩ := notify_eq event w.chans ns key w.registry h.keys h.ids
  have haccepts : ∀ id < w.next, (w.chans id).accepts
      = ((inboxes id).isOpen && decide ((inboxes id).queue.length ≤ watchChannelCapacity)) := by
    intro id hid
    rw [h.chans id hid]
    rfl
  have hwants :
      ∀ s ∈ w.registry.senders, (inboxes s.id).wants ns key
      = (s.hit ns key && (inboxes s.id).isOpen) := by
    intro s hs
    obtain ⟨-, hns, hfilter, hflow⟩ := h.known s hs
    rw [Inbox.wants, hns, hfilter, hflow, Bool.not_false, Bool.and_true]
    rfl
  have hsee (id : Nat) :
    (inboxes id).see id (.notify ns key event) = if (inboxes id).wants ns key then
      if (inboxes id).queue.length ≤ watchChannelCapacity
        then { inboxes id with queue := (inboxes id).queue ++ [event] }
      else { inboxes id with overflowed := true }
    else inboxes id := rfl
  have hreached : ∀ s ∈ w.registry.senders, (inboxes s.id).wants ns key = true →
      ((w.chans s.id).accepts = true ↔ (inboxes s.id).queue.length ≤ watchChannelCapacity) := by
    intro s hs hw
    rw [hwants s hs, Bool.and_eq_true] at hw
    rw [haccepts _ (h.known s hs).1, hw.2, Bool.true_and, decide_eq_true_iff]
  refine ⟨fun id hid => ?_, h.keys.sublist hkeys, ?_, fun s hs => ?_,
    fun id hid hopen hflow => ?_, ?_⟩
  · change (w.registry.notify ns key event w.chans).2 id = _
    rw [hchans, hsee, sent]
    by_cases hw : (inboxes id).wants ns key = true
    · obtain ⟨hopen, hflow⟩ : (inboxes id).isOpen = true ∧ (inboxes id).overflowed = false := by
        simp only [Inbox.wants, Bool.and_eq_true, Bool.not_eq_true'] at hw
        exact ⟨hw.1.2, hw.2⟩
      obtain ⟨s, hs, rfl⟩ := h.held id hid hopen hflow
      have hhit : s.hit ns key = true := ((Bool.and_eq_true_iff).mp (hwants s hs ▸ hw)).1
      have hmem : s.id ∈ (w.registry.senders.filter fun s => s.hit ns key).map Sender.id :=
        mem_map.mpr ⟨s, mem_filter.mpr ⟨hs, hhit⟩, rfl⟩
      rw [if_pos hw, h.chans _ hid]
      by_cases hroom : (inboxes s.id).queue.length ≤ watchChannelCapacity
      · rw [if_pos hroom, ← h.chans _ hid, if_pos ⟨hmem, (hreached s hs hw).mpr hroom⟩,
          h.chans _ hid]
        rfl
      · rw [if_neg hroom, ← h.chans _ hid, if_neg fun hsent =>
          hroom ((hreached s hs hw).mp hsent.2), h.chans _ hid]
        rfl
    · rw [if_neg hw, if_neg, h.chans id hid]
      rintro ⟨hmem, hacc⟩
      obtain ⟨s, hs, rfl⟩ := mem_map.mp hmem
      obtain ⟨hs, hhit⟩ := mem_filter.mp hs
      rw [haccepts _ hid, Bool.and_eq_true] at hacc
      exact hw (by rw [hwants s hs, hhit, hacc.1]; rfl)
  · change ((w.registry.notify ns key event w.chans).1.senders.map Sender.id).Nodup
    rw [hsenders]
    exact h.ids.sublist (filter_sublist.map _)
  · change s ∈ (w.registry.notify ns key event w.chans).1.senders at hs
    rw [hsenders] at hs
    obtain ⟨hs, hkept⟩ := mem_filter.mp hs
    have hold := h.known s hs
    rw [hsee]
    split
    · rename_i hw
      have hhit : s.hit ns key = true := ((Bool.and_eq_true_iff).mp (hwants s hs ▸ hw)).1
      rw [hhit, Bool.not_true, Bool.false_or, hreached s hs hw] at hkept
      rw [if_pos hkept]
      exact hold
    · exact hold
  · rw [hsee] at hopen hflow
    have hbefore : (inboxes id).isOpen = true ∧ (inboxes id).overflowed = false
        ∧ ((inboxes id).wants ns key = true →
          (inboxes id).queue.length ≤ watchChannelCapacity) := by
      by_cases hw : (inboxes id).wants ns key = true
      · by_cases hroom : (inboxes id).queue.length ≤ watchChannelCapacity
        · rw [if_pos hw, if_pos hroom] at hopen hflow
          exact ⟨hopen, hflow, fun _ => hroom⟩
        · rw [if_pos hw, if_neg hroom] at hflow
          cases hflow
      · rw [if_neg hw] at hopen hflow
        exact ⟨hopen, hflow, fun hw' => absurd hw' hw⟩
    obtain ⟨hopen, hflow, hroom⟩ := hbefore
    obtain ⟨s, hs, rfl⟩ := h.held id hid hopen hflow
    refine ⟨s, ?_, rfl⟩
    change s ∈ (w.registry.notify ns key event w.chans).1.senders
    rw [hsenders]
    refine mem_filter.mpr ⟨hs, ?_⟩
    cases hhit : s.hit ns key with
    | false => rfl
    | true =>
      have hw : (inboxes s.id).wants ns key = true := by rw [hwants s hs, hhit, hopen]; rfl
      exact (hreached s hs hw).mpr (hroom hw)
  · change (w.registry.notify ns key event w.chans).1.senders.length ≤ _
    rw [hsenders]
    exact (length_filter_le _ _).trans h.cap

theorem Delivers.step (h : Delivers inboxes w) (ev : Event J) :
    Delivers (watched w inboxes ev) (w.step ev) := by
  cases ev with
  | subscribe ns filter =>
    obtain ⟨e, r, hsub, hpruned, -⟩ | ⟨r, r', hsub, hpruned, hroom, hsenders, hkeys⟩ :=
      subscribe_cases w ns filter
    · simp only [watched, World.step, hsub]
      exact h.pruned hpruned
    · simp only [watched, World.step, hsub]
      have hpruned := h.pruned hpruned
      exact hpruned.added hroom (hkeys hpruned.keys) hsenders
  | notify ns key event => exact h.notified ns key event
  | receive r =>
    refine h.received (fun id hid => ?_) fun id => ?_
    · by_cases hr : id = r
      · subst hr
        simp [watched, Inbox.see, Inbox.channel, h.chans id hid]
      · simp [watched, Inbox.see, hr, Ne.symm hr, h.chans id hid]
    · by_cases hr : r = id <;> simp [watched, Inbox.see, hr]
  | drop r =>
    refine h.received (fun id hid => ?_) fun id => ?_
    · by_cases hr : id = r
      · subst hr
        simp [watched, Inbox.see, Inbox.channel, h.chans id hid]
      · simp [watched, Inbox.see, hr, Ne.symm hr, h.chans id hid]
    · by_cases hr : r = id <;> simp [watched, Inbox.see, hr]

/-! ## Runs -/

theorem run_snoc (events : List (Event J)) (ev : Event J) :
    World.run (events ++ [ev]) = (World.run events).step ev :=
  foldl_append

theorem run_delivers (events : List (Event J)) :
    ∃ inboxes, Delivers inboxes (World.run events) := by
  induction events using List.reverseRecOn with
  | nil => exact ⟨fun _ => ⟨[], .exact [], false, false, []⟩, delivers_new _⟩
  | append_singleton events ev ih =>
    obtain ⟨inboxes, h⟩ := ih
    rw [run_snoc]
    exact ⟨_, h.step ev⟩

/-- A receiver sees what comes after its subscription. -/
theorem watched_of_lt (inboxes : Nat → Inbox J) {id : Nat} (hid : id < w.next) (ev : Event J) :
    watched w inboxes ev id = (inboxes id).see id ev ∧ id < (w.step ev).next := by
  cases ev with
  | subscribe ns filter =>
    obtain ⟨e, r, hsub, -⟩ | ⟨r, r', hsub, -⟩ := subscribe_cases w ns filter
    · simp only [watched, World.step, hsub]
      exact ⟨rfl, hid⟩
    · simp only [watched, World.step, hsub]
      exact ⟨update_of_ne hid.ne _ _, Nat.lt_succ_of_lt hid⟩
  | notify ns key event => exact ⟨rfl, hid⟩
  | receive r => exact ⟨rfl, hid⟩
  | drop r => exact ⟨rfl, hid⟩

/-- In every run: the registry holds no more senders than the cap; a subscription is refused only
if so many receivers are open; and the channel of a receiver holds what the receiver is to see of
the events after its subscription, whatever else the run does. -/
theorem watch_delivers_exactly_once (events : List (Event J)) :
    (World.run events).registry.totalSubscriptions ≤ maxTotalSubscriptions
      ∧ (∀ ns filter e, ((World.run events).subscribe ns filter).1 = .error e →
        maxTotalSubscriptions
          ≤ ((List.range (World.run events).next).filter (World.run events).isOpen).length)
      ∧ ∀ ns filter, ((World.run events).subscribe ns filter).1 = .ok () → ∀ rest,
        (World.run (events ++ .subscribe ns filter :: rest)).chans (World.run events).next
          = (rest.foldl (Inbox.see (World.run events).next)
            ⟨ns, filter, true, false, []⟩).channel := by
  obtain ⟨inboxes, h⟩ := run_delivers events
  refine ⟨?_, fun ns filter e hrefused => ?_, fun ns filter hok rest => ?_⟩
  · rw [WatchRegistry.totalSubscriptions_eq]
    exact h.cap
  · obtain ⟨e', r, hsub, hpruned, hfull, hopen⟩ | ⟨r, r', hsub, -⟩ :=
      subscribe_cases (World.run events) ns filter
    · exact hfull.trans ((h.pruned hpruned).open_receivers hopen)
    · rw [hsub] at hrefused
      cases hrefused
  · suffices hrest :
      ∃ inboxes', Delivers inboxes' (World.run (events ++ .subscribe ns filter :: rest))
        ∧ (World.run events).next < (World.run (events ++ .subscribe ns filter :: rest)).next
        ∧ inboxes' (World.run events).next
          = rest.foldl (Inbox.see (World.run events).next) ⟨ns, filter, true, false, []⟩ by
      obtain ⟨inboxes', h', hid, heq⟩ := hrest
      rw [h'.chans _ hid, heq]
    induction rest using List.reverseRecOn with
    | nil =>
      rw [run_snoc]
      refine ⟨_, h.step _, ?_, ?_⟩
      · obtain ⟨e, r, hsub, -⟩ | ⟨r, r', hsub, -⟩ := subscribe_cases (World.run events) ns filter
        · rw [hsub] at hok
          cases hok
        · simp only [World.step, hsub]
          exact Nat.lt_succ_self _
      · simp only [watched, hok]
        exact update_self _ _ _
    | append_singleton rest ev ih =>
      obtain ⟨inboxes', h', hid, heq⟩ := ih
      obtain ⟨hsee, hid'⟩ := watched_of_lt inboxes' hid ev
      rw [← cons_append, ← append_assoc, run_snoc, foldl_append]
      refine ⟨_, h'.step ev, hid', ?_⟩
      rw [hsee, heq]
      rfl

end delivery

end BeyondKv.Watch
