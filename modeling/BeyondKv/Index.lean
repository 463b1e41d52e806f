/-
# The in-memory index of a namespace

`NsIndex` maps each live key to the record that holds it, with two sidecars:
expiries, and the content hashes of keys whose value is stored as a blob.
The maps are ordered as the source's `BTreeMap` iterates; the order of the two
hash-map sidecars is never observed.

Each operation gets one lemma per component, so that no later proof unfolds it.
-/
import BeyondKv.Record

namespace BeyondKv

open Std (ExtTreeMap)

structure IndexEntry where
  recordOffset : Nat
  recordSize : Nat
  fileId : Nat
  tstampMs : UInt64
  deriving DecidableEq, Repr

/-- `IndexEntry::new`, in the argument order of the source. -/
def IndexEntry.new (fileId recordOffset recordSize : Nat) (tstampMs : UInt64) : IndexEntry :=
  { recordOffset, recordSize, fileId, tstampMs }

structure NsIndex where
  map : ExtTreeMap Bytes IndexEntry
  /-- Expiry sidecar: only keys with an expiry are here. -/
  ttlMap : ExtTreeMap Bytes UInt64
  /-- Blob sidecar: keys whose value lives in the blob store. -/
  valsepMap : ExtTreeMap Bytes ContentHash
  liveCount : Nat

namespace NsIndex

def empty : NsIndex := { map := ∅, ttlMap := ∅, valsepMap := ∅, liveCount := 0 }

def get (idx : NsIndex) (key : Bytes) : Option IndexEntry := idx.map[key]?

def ttl (idx : NsIndex) (key : Bytes) : Option UInt64 := idx.ttlMap[key]?

def valsep (idx : NsIndex) (key : Bytes) : Option ContentHash := idx.valsepMap[key]?

def setTtl (idx : NsIndex) (key : Bytes) (expiresAtMs : Option UInt64) : NsIndex :=
  match expiresAtMs with
  | some ms => { idx with ttlMap := idx.ttlMap.insert key ms }
  | none => { idx with ttlMap := idx.ttlMap.erase key }

def setValsep (idx : NsIndex) (key : Bytes) (hash : Option ContentHash) : NsIndex :=
  match hash with
  | some h => { idx with valsepMap := idx.valsepMap.insert key h }
  | none => { idx with valsepMap := idx.valsepMap.erase key }

def insert (idx : NsIndex) (key : Bytes) (entry : IndexEntry)
    (expiresAtMs : Option UInt64) : NsIndex :=
  let idx := idx.setTtl key expiresAtMs
  { idx with
    map := idx.map.insert key entry
    liveCount := if (idx.get key).isNone then idx.liveCount + 1 else idx.liveCount }

/-- `remove`: what was there, and the index without the key. -/
def remove (idx : NsIndex) (key : Bytes) : Option IndexEntry × NsIndex :=
  let removed := idx.get key
  (removed,
    { map := idx.map.erase key
      ttlMap := idx.ttlMap.erase key
      valsepMap := idx.valsepMap.erase key
      liveCount := if removed.isSome then idx.liveCount - 1 else idx.liveCount })

def clear (_ : NsIndex) : NsIndex := empty

def isExpired (idx : NsIndex) (key : Bytes) (nowMs : UInt64) : Bool :=
  (idx.ttl key).any (fun ms => ms ≤ nowMs)

/-- `iter`: the live entries in key order. -/
def entries (idx : NsIndex) : List (Bytes × IndexEntry) := idx.map.toList

/-! ## What each operation does to each component -/

section lookups
variable (idx : NsIndex) (k key : Bytes) (e : IndexEntry) (x : Option UInt64)
  (h : Option ContentHash)

@[simp] theorem get_empty : empty.get k = none := by simp [get, empty]
@[simp] theorem ttl_empty : empty.ttl k = none := by simp [ttl, empty]
@[simp] theorem valsep_empty : empty.valsep k = none := by simp [valsep, empty]

@[simp] theorem get_setTtl : (idx.setTtl key x).get k = idx.get k := by
  cases x <;> rfl

@[simp] theorem valsep_setTtl : (idx.setTtl key x).valsep k = idx.valsep k := by
  cases x <;> rfl

@[simp] theorem ttl_setTtl :
    (idx.setTtl key x).ttl k = if key = k then x else idx.ttl k := by
  cases x <;> simp [setTtl, ttl, ExtTreeMap.getElem?_insert, ExtTreeMap.getElem?_erase]

@[simp] theorem get_setValsep : (idx.setValsep key h).get k = idx.get k := by
  cases h <;> rfl

@[simp] theorem ttl_setValsep : (idx.setValsep key h).ttl k = idx.ttl k := by
  cases h <;> rfl

@[simp] theorem valsep_setValsep :
    (idx.setValsep key h).valsep k = if key = k then h else idx.valsep k := by
  cases h <;> simp [setValsep, valsep, ExtTreeMap.getElem?_insert, ExtTreeMap.getElem?_erase]

@[simp] theorem get_insert :
    (idx.insert key e x).get k = if key = k then some e else idx.get k := by
  cases x <;> simp [insert, setTtl, get, ExtTreeMap.getElem?_insert]

@[simp] theorem ttl_insert :
    (idx.insert key e x).ttl k = if key = k then x else idx.ttl k :=
  ttl_setTtl idx k key x

@[simp] theorem valsep_insert : (idx.insert key e x).valsep k = idx.valsep k :=
  valsep_setTtl idx k key x

@[simp] theorem get_remove :
    (idx.remove key).2.get k = if key = k then none else idx.get k := by
  simp [remove, get, ExtTreeMap.getElem?_erase]

@[simp] theorem ttl_remove :
    (idx.remove key).2.ttl k = if key = k then none else idx.ttl k := by
  simp [remove, ttl, ExtTreeMap.getElem?_erase]

@[simp] theorem valsep_remove :
    (idx.remove key).2.valsep k = if key = k then none else idx.valsep k := by
  simp [remove, valsep, ExtTreeMap.getElem?_erase]

end lookups

/-! ## Properties that every operation keeps -/

/-- Closed under the operations, where expiries and hashes are only set for keys that are there. -/
structure Closed (I : NsIndex → Prop) : Prop where
  empty : I .empty
  insert : ∀ {idx : NsIndex} (key : Bytes) (e : IndexEntry) (x : Option UInt64), I idx →
    I (idx.insert key e x)
  setTtl : ∀ {idx : NsIndex} (key : Bytes) (x : Option UInt64), I idx →
    (x.isSome → (idx.get key).isSome) →
    I (idx.setTtl key x)
  setValsep : ∀ {idx : NsIndex} (key : Bytes) (h : Option ContentHash), I idx →
    (idx.get key).isSome → I (idx.setValsep key h)
  remove : ∀ {idx : NsIndex} (key : Bytes), I idx → I (idx.remove key).2

/-- A whole put. -/
theorem Closed.put {I : NsIndex → Prop} (hI : Closed I) {idx : NsIndex} (key : Bytes)
    (e : IndexEntry)
    (x : Option UInt64) (h : Option ContentHash) (hidx : I idx) :
    I ((idx.insert key e x).setValsep key h) :=
  hI.setValsep key h (hI.insert key e x hidx) (by simp)

theorem mem_entries {idx : NsIndex} {k : Bytes} {e : IndexEntry} :
    (k, e) ∈ idx.entries ↔ idx.get k = some e := by
  simp [entries, get, ExtTreeMap.mem_toList_iff_getElem?_eq_some]

theorem entries_nodup (idx : NsIndex) : (idx.entries.map Prod.fst).Nodup := by
  have := ExtTreeMap.distinct_keys_toList (t := idx.map)
  rw [List.Nodup, List.pairwise_map]
  exact this.imp (fun h hab => h (by simp [hab]))

end NsIndex

end BeyondKv
