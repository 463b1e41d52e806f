/-
# The L1 cache

`MemCache` is the S3-FIFO cache of a shard: a map of entries, a small and a main queue of
their keys, and a bounded ghost set of keys evicted from the small queue. The queues may hold
slots of keys that are gone. Queues are lists, front first.

Eviction may take anything away at any time. Its loop is written with as many rounds as there are
entries; each round takes one away (`shrinks_evictOne`).
-/
import BeyondKv.Record
import BeyondKv.Lib.Totals

namespace BeyondKv

open Std (ExtTreeMap)

structure CacheEntry (V : Type) where
  value : Bytes
  expiresAtMs : Option UInt64
  metadata : Option V
  /-- Capped at 1. -/
  freq : Nat
  size : Nat
  revision : UInt64

/-- What the cache says of a key. -/
structure Cached (V : Type) where
  value : Bytes
  expiresAtMs : Option UInt64
  metadata : Option V
  revision : UInt64

def CacheEntry.data {V : Type} (e : CacheEntry V) : Cached V :=
  ⟨e.value, e.expiresAtMs, e.metadata, e.revision⟩

structure MemCache (V : Type) where
  entries : ExtTreeMap Bytes (CacheEntry V)
  small : List Bytes
  main : List Bytes
  /-- No key is in it twice. -/
  ghost : List Bytes
  ghostQueue : List Bytes
  ghostMax : Nat
  currentBytes : Nat
  maxBytes : Nat
  staleSlots : Nat

namespace MemCache
variable {V : Type}

def new (maxBytes : Nat) : MemCache V where
  entries := ∅
  small := []
  main := []
  ghost := []
  ghostQueue := []
  ghostMax := max (maxBytes / 640) 64
  currentBytes := 0
  maxBytes := maxBytes
  staleSlots := 0

/-! ## Eviction -/

/-- The loop of `ghost_insert` that makes room. -/
def ghostRoom (ghostMax : Nat) : List Bytes → List Bytes → List Bytes × List Bytes
  | [], ghost => ([], ghost)
  | old :: queue, ghost =>
    if ghostMax ≤ ghost.length then ghostRoom ghostMax queue (ghost.erase old)
      else (old :: queue, ghost)

def ghostInsert (c : MemCache V) (key : Bytes) : MemCache V :=
  let (queue, ghost) := ghostRoom c.ghostMax c.ghostQueue c.ghost
  if ghost.contains key then { c with ghost := ghost, ghostQueue := queue }
  else { c with ghost := key :: ghost, ghostQueue := queue ++ [key] }

def ghostRemove (c : MemCache V) (key : Bytes) : MemCache V := { c with ghost := c.ghost.erase key }

/-- Drop an entry and its bytes. -/
def drop (c : MemCache V) (key : Bytes) (size : Nat) : MemCache V :=
  { c with entries := c.entries.erase key, currentBytes := c.currentBytes - size }

def resetFreq (c : MemCache V) (key : Bytes) (e : CacheEntry V) : MemCache V :=
  { c with entries := c.entries.insert key { e with freq := 0 } }

/-- Phase 1 of `evict_one`, over the slots of the small queue. -/
def evictSmall : List Bytes → MemCache V → Bool × MemCache V
  | [], c => (false, { c with small := [] })
  | key :: slots, c =>
    match c.entries[key]? with
    | none => evictSmall slots c
    | some e =>
      if e.freq > 0 then
        let c := c.resetFreq key e
        evictSmall slots { c with main := c.main ++ [key] }
      else (true, { (c.drop key e.size).ghostInsert key with small := slots })

/-- One pass of phase 2 over the slots of the main queue; `back` are the slots it has pushed
back. -/
def evictMain : List Bytes → List Bytes → MemCache V → Bool × MemCache V
  | [], back, c => (false, { c with main := back })
  | key :: slots, back, c =>
    match c.entries[key]? with
    | none => evictMain slots back c
    | some e =>
      if e.freq > 0 then evictMain slots (back ++ [key]) (c.resetFreq key e)
      else (true, { c.drop key e.size with main := slots ++ back })

/-- `evict_one`. A pass over the main queue resets the slots it pushes back, so the second one
finds an entry to evict, or the queue is empty. -/
def evictOne (c : MemCache V) : Bool × MemCache V :=
  let (evicted, c) := evictSmall c.small c
  if evicted then (true, c)
  else
    let (evicted, c) := evictMain c.main [] c
    if evicted then (true, c) else evictMain c.main [] c

/-- The loop of `evict_to_limit`; every round but the last takes an entry away. -/
def evictRounds : Nat → MemCache V → MemCache V
  | 0, c => c
  | n + 1, c =>
    if c.currentBytes > c.maxBytes then
      let (evicted, c) := c.evictOne
      if evicted then evictRounds n c else c
    else c

def evictToLimit (c : MemCache V) : MemCache V := evictRounds (c.entries.size + 1) c

/-- `compact_queues`. -/
def compactQueues (c : MemCache V) : MemCache V :=
  { c with
    small := c.small.filter fun key => c.entries.contains key
    main := c.main.filter fun key => c.entries.contains key
    staleSlots := 0 }

/-! ## Operations -/

/-- `get`: the entry if it has not expired; an expired one is removed. -/
def get (c : MemCache V) (key : Bytes) (nowMs : UInt64) : Option (Cached V) × MemCache V :=
  match c.entries[key]? with
  | none => (none, c)
  | some e =>
    if e.expiresAtMs.any (fun ms => ms ≤ nowMs) then (none, c.drop key e.size)
    else (some e.data, { c with entries := c.entries.insert key { e with freq := 1 } })

def entrySize (key value : Bytes) (metaSize : Nat) :
    Nat := max (key.length + value.length + metaSize) 1

/-- Overwrite an entry in place. -/
def update (c : MemCache V) (key : Bytes) (d : Cached V) (metaSize : Nat) (old : CacheEntry V) :
    MemCache V :=
  let size := entrySize key d.value metaSize
  evictToLimit { c with
    entries := c.entries.insert key ⟨d.value, d.expiresAtMs, d.metadata, 1, size, d.revision⟩
    currentBytes := c.currentBytes - old.size + size }

def tryUpdate (c : MemCache V) (key : Bytes) (d : Cached V) (metaSize : Nat) : Bool × MemCache V :=
  match c.entries[key]? with
  | none => (false, c)
  | some old => (true, c.update key d metaSize old)

def insert (c : MemCache V) (key : Bytes) (d : Cached V) (metaSize : Nat) : MemCache V :=
  match c.entries[key]? with
  | some old => c.update key d metaSize old
  | none =>
    let size := entrySize key d.value metaSize
    let inMain := c.ghost.contains key
    let c := { c with
      entries := c.entries.insert key ⟨d.value, d.expiresAtMs, d.metadata, 0, size, d.revision⟩
      currentBytes := c.currentBytes + size }
    if inMain then
      let c := c.ghostRemove key
      evictToLimit { c with main := c.main ++ [key] }
    else evictToLimit { c with small := c.small ++ [key] }

def remove (c : MemCache V) (key : Bytes) : MemCache V :=
  match c.entries[key]? with
  | none => c
  | some e =>
    let c := c.drop key e.size
    let c := { c with staleSlots := c.staleSlots + 1 }
    if c.staleSlots > (c.small.length + c.main.length) / 2 then c.compactQueues else c

/-- What `remove_by_prefix` and `sweep_expired` have in common: the entries that `p` names go, and
their slots count as stale. -/
def discard (c : MemCache V) (p : Bytes → CacheEntry V → Bool) : Nat × MemCache V :=
  let gone := c.entries.filter p
  if gone.isEmpty then (0, c)
  else
    let c := { c with
      entries := c.entries.filter fun key e => !p key e
      currentBytes := c.currentBytes - Totals.total CacheEntry.size gone
      staleSlots := c.staleSlots + gone.size }
    (gone.size, if c.staleSlots > (c.small.length + c.main.length) / 2 then c.compactQueues else c)

def removeByPrefix (c : MemCache V) (start : Bytes) : MemCache V :=
  (c.discard fun key _ => start.isPrefixOf key).2

/-- `sweep_expired`, with the number of entries it frees. -/
def sweepExpired (c : MemCache V) (nowMs : UInt64) : Nat × MemCache V :=
  c.discard fun _ e => e.expiresAtMs.any fun ms => ms ≤ nowMs

/-! ## The eviction loop ends -/

theorem size_resetFreq {c : MemCache V} {key : Bytes} {e : CacheEntry V}
    (he : c.entries[key]? = some e) :
    (c.resetFreq key e).entries.size = c.entries.size := by
  have hmem : key ∈ c.entries := ExtTreeMap.mem_iff_isSome_getElem?.mpr (by rw [he]; rfl)
  simp [resetFreq, ExtTreeMap.size_insert, hmem]

theorem size_drop {c : MemCache V} {key : Bytes} {e : CacheEntry V}
    (he : c.entries[key]? = some e) (n : Nat) :
    (c.drop key n).entries.size < c.entries.size := by
  have hmem : key ∈ c.entries := ExtTreeMap.mem_iff_isSome_getElem?.mpr (by rw [he]; rfl)
  have hpos : c.entries.size ≠ 0 := fun h => by
    rw [← ExtTreeMap.eq_empty_iff_size_eq_zero] at h
    simp [h] at hmem
  simp only [drop, ExtTreeMap.size_erase, ExtTreeMap.contains_iff_mem, if_pos hmem]
  omega

theorem size_ghostInsert (c : MemCache V) (key : Bytes) :
    (c.ghostInsert key).entries = c.entries := by
  rw [ghostInsert]
  dsimp only
  split <;> rfl

/-- A round takes an entry away or leaves them all. -/
def Shrinks (r : Bool × MemCache V) (c : MemCache V) : Prop :=
  r.2.entries.size ≤ c.entries.size ∧ (r.1 = true → r.2.entries.size < c.entries.size)

theorem shrinks_evictSmall (slots : List Bytes) (c : MemCache V) :
    Shrinks (evictSmall slots c) c := by
  induction slots generalizing c with
  | nil => exact ⟨le_rfl, nofun⟩
  | cons key slots ih =>
    rw [evictSmall]
    split
    · exact ih c
    · rename_i e he
      split
      · have := ih { c.resetFreq key e with main := (c.resetFreq key e).main ++ [key] }
        rwa [Shrinks, size_resetFreq he] at this
      · have : { (c.drop key e.size).ghostInsert key with small := slots }.entries.size
            < c.entries.size := by
          simp only [size_ghostInsert]
          exact size_drop he e.size
        exact ⟨this.le, fun _ => this⟩

theorem shrinks_evictMain (slots back : List Bytes) (c : MemCache V) :
    Shrinks (evictMain slots back c) c := by
  induction slots generalizing back c with
  | nil => exact ⟨le_rfl, nofun⟩
  | cons key slots ih =>
    rw [evictMain]
    split
    · exact ih back c
    · rename_i e he
      split
      · have := ih (back ++ [key]) (c.resetFreq key e)
        rwa [Shrinks, size_resetFreq he] at this
      · have : { c.drop key e.size with main := slots ++ back }.entries.size < c.entries.size :=
          size_drop he e.size
        exact ⟨this.le, fun _ => this⟩

theorem Shrinks.trans {r : Bool × MemCache V} {c c' : MemCache V} (h : Shrinks r c')
    (hc : c'.entries.size ≤ c.entries.size) : Shrinks r c :=
  ⟨h.1.trans hc, fun hr => (h.2 hr).trans_le hc⟩

theorem shrinks_evictOne (c : MemCache V) : Shrinks c.evictOne c := by
  have hsmall := shrinks_evictSmall c.small c
  rw [evictOne]
  dsimp only
  split
  · exact ⟨hsmall.1, fun _ => hsmall.2 ‹_›⟩
  · have hmain := shrinks_evictMain (evictSmall c.small c).2.main [] (evictSmall c.small c).2
    split
    · exact Shrinks.trans ⟨hmain.1, fun _ => hmain.2 ‹_›⟩ hsmall.1
    · exact ((shrinks_evictMain _ _ _).trans hmain.1).trans hsmall.1

end MemCache

end BeyondKv
