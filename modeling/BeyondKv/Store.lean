/-
# The shard store

`ShardStore` is the part of a shard that serves one open namespace: its log, and the L1 cache
that all calls share. A call is a program on it; the code of the log runs on its log
(`onLog`), the cache is read and written between suspensions. A call reads what it needs from
the cache or the index, may then wait for the disk or for a lock, and comes back to a cache
and an index that others have changed.

Left out: the opening of a namespace (every call here finds it open), the registry of
watchers (a notification is a mark), and the rendering of an expiry as an `Instant`.
-/
import BeyondKv.Cache
import BeyondKv.Lib.Zoom
import BeyondKv.Namespace

namespace BeyondKv

open Async

/-! ## Types -/

/-- `serde_json`: its values, their text and its parser. -/
structure Serde where
  Value : Type
  fromSlice : Bytes → Option Value
  toVec : Value → Bytes

structure Entry (J : Serde) where
  value : Bytes
  expiresAtMs : Option UInt64
  metadata : Option J.Value
  revision : UInt64

def Entry.ofCached {J : Serde} (d : Cached J.Value) : Entry J :=
  ⟨d.value, d.expiresAtMs, d.metadata, d.revision⟩

/-- A duration counts in milliseconds. -/
structure SetOptions (J : Serde) where
  ttl : Option Nat
  metadata : Option J.Value
  keepTtl : Bool

inductive TtlResult where
  | noExpiry
  | notFound
  | remaining (ms : UInt64)
  deriving DecidableEq

inductive GetExOp where
  | setTtl (ttl : Nat)
  | persist

inductive WatchEvent (J : Serde) where
  | set (key value : Bytes) (metadata : Option J.Value) (expiresAtMs : Option UInt64)
      (revision : UInt64)
  | del (key : Bytes) (revision : UInt64)

/-- What a call returns. -/
inductive Reply (J : Serde) where
  | unit
  | bool (b : Bool)
  | entry (e : Option (Entry J))
  | entries (es : List (Option (Entry J)))
  | revision (r : Option UInt64)
  | ttl (r : TtlResult)
  | int (n : Int)

/-- The marks of the store's own code. -/
inductive Mark (J : Serde) where
  /-- The index has the key, and its expiry is not after `now`. -/
  | expired (key : Bytes) (now : UInt64)
  | notify (e : WatchEvent J)

structure ShardStore (J : Serde) where
  ns : Bytes
  log : NsState
  cache : MemCache J.Value
  cacheHitCount : Nat
  cacheMissCount : Nat

/-- A call is one strand of execution, number 0; the futures it joins have other numbers. -/
abbrev StoreTask (J : Serde) := Prog (ShardStore J) (Nat × (Point ⊕ Mark J))

abbrev StoreAct (J : Serde) := ExceptT EngineError (StoreTask J)

namespace ShardStore
variable {J : Serde}

def logLens : Lens (ShardStore J) NsState where
  view t := t.log
  set s t := { t with log := s }
  view_set _ _ := rfl

/-- Code of the log, run by the strand `k`. -/
def onLogAs {α : Type} (k : Nat) (p : Act α) : StoreAct J α :=
  ExceptT.mk ((p.run.relabel fun l => (k, .inl l)).zoom logLens)

def onLog {α : Type} (p : Act α) : StoreAct J α := onLogAs 0 p

def look {α : Type} (f : ShardStore J → α) : StoreAct J α := ExceptT.lift (Prog.gets f)

def change (f : ShardStore J → ShardStore J) : StoreAct J Unit := ExceptT.lift (Prog.modify f)

def noteAs (k : Nat) (m : Mark J) : StoreAct J Unit := ExceptT.lift (Prog.at_ (k, .inr m))

def note (m : Mark J) : StoreAct J Unit := noteAs 0 m

def nowMs : StoreAct J UInt64 := onLog (lift BeyondKv.nowMs)

/-! ## The cache -/

/-- `cache_key`. -/
def cacheKey (ns key : Bytes) : Bytes := ns ++ 0 :: key

def cacheGet (key : Bytes) (now : UInt64) : StoreAct J (Option (Cached J.Value)) :=
  ExceptT.lift (Prog.step fun t =>
    let (d, cache) := t.cache.get (cacheKey t.ns key) now
    (d, { t with cache }))

def cacheInsert (key : Bytes) (d : Cached J.Value) (metaLen : Nat) : StoreAct J Unit :=
  change fun t => { t with cache := t.cache.insert (cacheKey t.ns key) d metaLen }

def cacheRemove (key : Bytes) : StoreAct J Unit :=
  change fun t => { t with cache := t.cache.remove (cacheKey t.ns key) }

def upsertCache (key : Bytes) (d : Cached J.Value) (metaLen : Nat) : StoreAct J Unit :=
  change fun t =>
    let (updated, cache) := t.cache.tryUpdate (cacheKey t.ns key) d metaLen
    { t with cache := if updated then cache else cache.insert (cacheKey t.ns key) d metaLen }

def countHit : StoreAct J Unit := change fun t => { t with cacheHitCount := t.cacheHitCount + 1 }

def countMiss : StoreAct J Unit := change fun t => { t with cacheMissCount := t.cacheMissCount + 1 }

/-! ## Helpers -/

def metadataFromBytes (metaBytes : Bytes) : Except EngineError (Option J.Value) :=
  if metaBytes.isEmpty then .ok none
  else match J.fromSlice metaBytes with
    | some v => .ok (some v)
    | none => .error .metadataJson

/-- `metadata.as_ref().map(to_vec)`, or nothing. -/
def metadataBytes (metadata : Option J.Value) : Bytes := (metadata.map J.toVec).getD []

def validateTtl (d : Nat) (now : UInt64) : Except EngineError UInt64 :=
  if 2 ^ 64 ≤ d then .error (.capacityExceeded "ttl exceeds u64::MAX milliseconds")
  else if 2 ^ 64 ≤ now.toNat + d
    then .error (.capacityExceeded "ttl would overflow absolute expiry timestamp")
  else .ok (now + UInt64.ofNat d)

def ofExcept {α : Type} (r : Except EngineError α) : StoreAct J α := ExceptT.mk (pure r)

def isPast (expiresAtMs : Option UInt64) (now : UInt64) : Bool := expiresAtMs.any fun ms => ms ≤ now

/-- What the index says of a key at a time. -/
inductive Lookup where
  | missing
  /-- Its expiry has passed: the caller is about to delete it. -/
  | past
  | live (e : IndexEntry) (expiresAtMs : Option UInt64)

/-- `idx.get(key)` with `idx.ttl(key)`, and the test of the expiry; `k` is the strand that will
delete the key if it has expired. -/
def lookupAs (k : Nat) (key : Bytes) (now : UInt64) : StoreAct J Lookup := do
  match ← look fun t => (t.log.index.get key).map fun e => (e, t.log.index.ttl key) with
  | none => return .missing
  | some (e, ttl) =>
    if isPast ttl now then
      noteAs k (.expired key now)
      return .past
    else return .live e ttl

def lookup (key : Bytes) (now : UInt64) : StoreAct J Lookup := lookupAs 0 key now

/-- The lazy delete of a key that has expired. -/
def deleteExpired (P : Prims) (key : Bytes) : StoreAct J Unit := do
  let _ ← onLog (tombstone P key)
  cacheRemove key

/-- Read a record; the value as the caller gets it, and the length of its metadata. -/
def readEntry (P : Prims) (e : IndexEntry) (expiresAtMs : Option UInt64) :
    StoreAct J (Cached J.Value × Nat) := do
  let (value, metaBytes) ← onLog (readValue P e)
  let metadata ← ofExcept (metadataFromBytes metaBytes)
  return (⟨value, expiresAtMs, metadata, e.tstampMs⟩, metaBytes.length)

/-! ## Reads -/

def getInline (P : Prims) (key : Bytes) (now : UInt64) : StoreAct J (Option (Entry J)) := do
  match ← cacheGet key now with
  | some d => return some (.ofCached d)
  | none =>
    match ← lookup key now with
    | .missing => return none
    | .past =>
      deleteExpired P key
      return none
    | .live e ttl =>
      let (d, _) ← readEntry P e ttl
      return some (.ofCached d)

def ttlRaw (P : Prims) (key : Bytes) : StoreAct J TtlResult := do
  let now ← nowMs
  match ← lookup key now with
  | .missing => return .notFound
  | .past =>
    deleteExpired P key
    return .notFound
  | .live _ none => return .noExpiry
  | .live _ (some ms) => return .remaining (ms - now)

def get (P : Prims) (key : Bytes) : StoreAct J (Option (Entry J)) := do
  let now ← nowMs
  match ← cacheGet key now with
  | some d =>
    countHit
    return some (.ofCached d)
  | none =>
    countMiss
    match ← lookup key now with
    | .missing => return none
    | .past =>
      deleteExpired P key
      return none
    | .live e ttl =>
      let (d, metaLen) ← readEntry P e ttl
      cacheInsert key d metaLen
      return some (.ofCached d)

/-! ## Writes -/

/-- The expiry of a write with these options. -/
def expiryOf (key : Bytes) (opts : SetOptions J) (now : UInt64) : StoreAct J (Option UInt64) :=
  if opts.keepTtl then look fun t => t.log.index.ttl key
  else match opts.ttl with
    | none => return none
    | some d => do return some (← ofExcept (validateTtl d now))

/-- What a committed write leaves in the cache, and tells the watchers. -/
def published (key value : Bytes) (expiresAtMs : Option UInt64) (metadata : Option J.Value)
    (metaLen : Nat)
    (revision : UInt64) : StoreAct J Unit := do
  upsertCache key ⟨value, expiresAtMs, metadata, revision⟩ metaLen
  note (.notify (.set key value metadata expiresAtMs revision))

def set (P : Prims) (key value : Bytes) (opts : SetOptions J) : StoreAct J Unit := do
  let now ← nowMs
  let expiresAtMs ← expiryOf key opts now
  let metaBytes := metadataBytes opts.metadata
  let revision ← onLog (putFull P key value metaBytes expiresAtMs)
  published key value expiresAtMs opts.metadata metaBytes.length revision

/-- `setnx` and `setxx`. -/
def setConditional (P : Prims) (key value : Bytes) (opts : SetOptions J) (requireLive : Bool) :
    StoreAct J Bool := do
  let now ← nowMs
  let cond := if requireLive then WriteCondition.keyPresent else .keyAbsent
  let expiresAtMs ← expiryOf key opts now
  let metaBytes := metadataBytes opts.metadata
  match ← onLog (putFullCond P key value metaBytes expiresAtMs cond now) with
  | none => return false
  | some revision =>
    published key value expiresAtMs opts.metadata metaBytes.length revision
    return true

def setrev (P : Prims) (key value : Bytes) (opts : SetOptions J) (expectedRev : UInt64) :
    StoreAct J (Option UInt64) := do
  let now ← nowMs
  -- unlike the other writes, `keep_ttl` is not looked at
  let expiresAtMs ← expiryOf key { opts with keepTtl := false } now
  let metaBytes := metadataBytes opts.metadata
  match ← onLog (putFullCond P key value metaBytes expiresAtMs (.revision expectedRev) now) with
  | none => return none
  | some revision =>
    published key value expiresAtMs opts.metadata metaBytes.length revision
    return some revision

def getset (P : Prims) (key value : Bytes) : StoreAct J (Option (Entry J)) := do
  let now ← nowMs
  let old ← getInline P key now
  let revision ← onLog (putFull P key value [] none)
  published key value none none 0 revision
  return old

/-- The watchers hear of a delete that found something. -/
def notifyDel (key : Bytes) : Option (Entry J) → Option UInt64 → StoreAct J Unit
  | some _, some revision => note (.notify (.del key revision))
  | _, _ => return ()

def getdel (P : Prims) (key : Bytes) : StoreAct J (Option (Entry J)) := do
  let now ← nowMs
  let old ← getInline P key now
  let tombRev ← onLog (tombstone P key)
  cacheRemove key
  notifyDel key old tombRev
  return old

def removeAll : List Bytes → StoreAct J Unit
  | [] => return ()
  | key :: keys => do
    cacheRemove key
    removeAll keys

/-- The loop of `del` over what the deletes returned; a key that had expired does not count. -/
def countDeleted : List ((Bytes × Except EngineError (Option UInt64)) × Bool) → Nat → StoreAct J Nat
  | [], count => return count
  | ((key, tomb), expired) :: rest, count => do
    match ← ofExcept tomb, expired with
    | some revision, false =>
      note (.notify (.del key revision))
      countDeleted rest (count + 1)
    | _, _ => countDeleted rest count

def del (P : Prims) (keys : List Bytes) : StoreAct J Nat := do
  let now ← nowMs
  let wasExpired ← look fun t => keys.map fun key => t.log.index.isExpired key now
  let tombs ← ExceptT.lift
    (Prog.joinAll keys.zipIdx fun (key, i) => (onLogAs (i + 1) (tombstone P key)).run)
  removeAll keys
  countDeleted ((keys.zip tombs).zip wasExpired) 0

def exists_ (keys : List Bytes) : StoreAct J Nat := do
  let now ← nowMs
  look fun t => keys.countP fun key =>
    (t.log.index.get key).isSome && !t.log.index.isExpired key now

/-- All caches are written before the first watcher hears of it. -/
def mset (P : Prims) (pairs : List (Bytes × Bytes)) : StoreAct J Unit := do
  let revisions ← onLog (putMany P pairs)
  (pairs.zip revisions).forM fun ((key, value), revision) =>
    upsertCache key ⟨value, none, none, revision⟩ 0
  (pairs.zip revisions).forM fun ((key, value), revision) =>
    note (.notify (.set key value none none revision))

def delrev (P : Prims) (key : Bytes) (expectedRev : UInt64) : StoreAct J (Option Unit) := do
  let now ← nowMs
  match ← onLog (tombstoneCond P key expectedRev now) with
  | none => return none
  | some revision =>
    cacheRemove key
    note (.notify (.del key revision))
    return some ()

/-! ## Expiries -/

/-- The end of `expire` and `persist`: the update, and the cache forgets the key. -/
def updateTtl (P : Prims) (key : Bytes) (expiresAtMs : Option UInt64) (e : Option (Entry J)) :
    StoreAct J Unit := do
  let revision ← onLog (ttlUpdate P key expiresAtMs)
  cacheRemove key
  match e with
  | some e => note (.notify (.set key e.value e.metadata expiresAtMs revision))
  | none => return ()

def expire (P : Prims) (key : Bytes) (ttl : Nat) : StoreAct J Bool := do
  let now ← nowMs
  if ← look fun t => (t.log.index.get key).isSome && !t.log.index.isExpired key now then
    let newMs ← ofExcept (validateTtl ttl now)
    let e ← getInline P key now
    updateTtl P key (some newMs) e
    return true
  else
    cacheRemove key
    return false

def persist (P : Prims) (key : Bytes) : StoreAct J Bool := do
  let now ← nowMs
  if ← look fun t =>
      (t.log.index.get key).isSome && (t.log.index.ttl key).isSome && !t.log.index.isExpired key now
      then
    let e ← getInline P key now
    updateTtl P key none e
    return true
  else return false

/-- The read part of `getex`; unlike `get_inline` it fills the cache, and after a lazy
delete it leaves the cache alone. -/
def getexRead (P : Prims) (key : Bytes) (now : UInt64) : StoreAct J (Option (Entry J)) := do
  match ← cacheGet key now with
  | some d => return some (.ofCached d)
  | none =>
    match ← lookup key now with
    | .missing => return none
    | .past =>
      let _ ← onLog (tombstone P key)
      return none
    | .live e ttl =>
      let (d, metaLen) ← readEntry P e ttl
      cacheInsert key d metaLen
      return some (.ofCached d)

def getex (P : Prims) (key : Bytes) (op : Option GetExOp) : StoreAct J (Option (Entry J)) := do
  match op with
  | none => get P key
  | some op =>
    let now ← nowMs
    match ← getexRead P key now with
    | none => return none
    | some found =>
      match op with
      | .setTtl ttl =>
        let newMs ← ofExcept (validateTtl ttl now)
        let _ ← onLog (ttlUpdate P key (some newMs))
      | .persist =>
        let _ ← onLog (ttlUpdate P key none)
      cacheRemove key
      return some found

/-! ## Counters -/

/-- The decimal digits of a number, most significant first. -/
def natBytes (n : Nat) : Bytes :=
  if n = 0 then [48] else (Nat.digits 10 n).reverse.map fun d => UInt8.ofNat (48 + d)

/-- `i64::to_string`. -/
def intBytes (n : Int) : Bytes := if n < 0 then 45 :: natBytes n.natAbs else natBytes n.natAbs

def isDigit (b : UInt8) : Bool := 48 ≤ b && b ≤ 57

/-- A non-empty run of digits. -/
def parseDigits (bs : Bytes) : Option Nat :=
  if bs.isEmpty ∨ ¬ bs.all isDigit then none
  else some (Nat.ofDigits 10 (bs.reverse.map fun b => b.toNat - 48))

def inI64 (n : Int) : Bool := -2 ^ 63 ≤ n && n < 2 ^ 63

/-- `str::parse::<i64>`. -/
def parseI64 (bs : Bytes) : Option Int := do
  let n ← match bs with
    | 45 :: digits => (parseDigits digits).map fun n => -(n : Int)
    | 43 :: digits => (parseDigits digits).map fun n => (n : Int)
    | digits => (parseDigits digits).map fun n => (n : Int)
  if inI64 n then some n else none

theorem isDigit_ofNat {d : Nat} (h : d < 10) : isDigit (UInt8.ofNat (48 + d)) = true := by
  interval_cases d <;> rfl

theorem toNat_ofNat_digit {d : Nat} (h : d < 10) : (UInt8.ofNat (48 + d)).toNat - 48 = d := by
  interval_cases d <;> rfl

/-- The digits of a number are digits, and read as that number. -/
theorem natBytes_digits (n : Nat) : natBytes n ≠ [] ∧ (∀ b ∈ natBytes n, isDigit b = true)
    ∧ Nat.ofDigits 10 ((natBytes n).reverse.map fun b => b.toNat - 48) = n := by
  unfold natBytes
  split
  · rename_i hn
    refine ⟨by simp, fun b hb => ?_, ?_⟩
    · rw [List.mem_singleton.mp hb]
      rfl
    · rw [hn]
      rfl
  · rename_i hn
    have hlt : ∀ d ∈ Nat.digits 10 n, d < 10 := fun d hd => Nat.digits_lt_base (by decide) hd
    refine ⟨?_, ?_, ?_⟩
    · simpa [Nat.digits_eq_nil_iff_eq_zero] using hn
    · intro b hb
      obtain ⟨d, hd, rfl⟩ := List.mem_map.mp hb
      exact isDigit_ofNat (hlt d (List.mem_reverse.mp hd))
    · have hback : (Nat.digits 10 n).map (fun d => (UInt8.ofNat (48 + d)).toNat - 48)
        = Nat.digits 10 n :=
        (List.map_congr_left fun d hd => toNat_ofNat_digit (hlt d hd)).trans (List.map_id _)
      rw [← List.map_reverse, List.reverse_reverse, List.map_map]
      exact (congrArg (Nat.ofDigits 10) hback).trans (Nat.ofDigits_digits 10 n)

theorem parseDigits_natBytes (n : Nat) : parseDigits (natBytes n) = some n := by
  obtain ⟨hne, hall, hval⟩ := natBytes_digits n
  have hdigits : ¬ ((natBytes n).isEmpty = true ∨ ¬ (natBytes n).all isDigit = true) := by
    simp [hne, List.all_eq_true.mpr hall]
  rw [parseDigits, if_neg hdigits, hval]

/-- What is printed is read back. -/
theorem parseI64_intBytes {n : Int} (h : inI64 n = true) : parseI64 (intBytes n) = some n := by
  by_cases hneg : n < 0
  · have habs : -|n| = n := by rw [abs_of_neg hneg, neg_neg]
    simp [parseI64, intBytes, hneg, parseDigits_natBytes, habs, h]
  · have habs : |n| = n := abs_of_nonneg (by omega)
    have hparse : parseDigits (natBytes n.natAbs) = some n.natAbs := parseDigits_natBytes _
    have hall := (natBytes_digits n.natAbs).2.1
    rw [intBytes, if_neg hneg]
    generalize natBytes n.natAbs = bs at hall hparse
    -- the first byte is a digit, so it is no sign
    unfold parseI64
    split
    · exact absurd (hall 45 (List.mem_cons_self ..)) (by decide)
    · exact absurd (hall 43 (List.mem_cons_self ..)) (by decide)
    · simp [hparse, habs, h]

/-- The new value of a counter. -/
def addTo (current : Option Bytes) (delta : Int) : Except EngineError Int :=
  let n := match current with
    | none => some 0
    | some v => parseI64 v
  match n with
  | none => .error (.invalidInput "value is not an integer or out of range")
  | some n =>
    if inI64 (n + delta) then .ok (n + delta)
    else .error (.invalidInput "increment or decrement would overflow")

/-- `ttl` counts in seconds. -/
def TtlResult.seconds : TtlResult → TtlResult
  | .remaining ms => .remaining (ms / 1000)
  | r => r

end ShardStore

end BeyondKv
