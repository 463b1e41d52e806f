/-
# Rows

What a namespace of a shard is to its clients: rows by key. A row may carry an expiry, and
from then on it counts as gone, although it stays until a call that meets it deletes it.

The calls on several keys are given here on rows. Each reads the clock once; `now` says which
reading decides about a key, so that calls on several shards, with a reading each, can be put
side by side with one call on one store.
-/
import BeyondKv.Store

namespace BeyondKv

open ShardStore (isPast)

/-- The rows of a namespace by key. -/
abbrev Rows (J : Serde) := Bytes → Option (Entry J)

/-- A row without its revision. -/
def Entry.content {J : Serde} (e : Entry J) : Bytes × Option J.Value × Option UInt64 :=
  (e.value, e.metadata, e.expiresAtMs)

/-- The record of a pair can be encoded. From a threshold on a value is stored by its hash. -/
def fitsRecord (threshold : Nat) (pair : Bytes × Bytes) : Bool :=
  headerLen + pair.1.length + (if threshold ≤ pair.2.length then 16 else pair.2.length) ≤ u32Max

namespace Rows
variable {J : Serde}

/-- `idx.is_expired`. -/
def past (t : Rows J) (now : Bytes → UInt64) (key : Bytes) : Bool :=
  (t key).any fun e => isPast e.expiresAtMs (now key)

def live (t : Rows J) (now : Bytes → UInt64) (key : Bytes) : Option (Entry J) :=
  if t.past now key then none else t key

def remove (t : Rows J) (key : Bytes) : Rows J := Function.update t key none

/-- A write without expiry or metadata. -/
def put (t : Rows J) (key value : Bytes) (revision : UInt64) : Rows J :=
  Function.update t key (some ⟨value, none, none, revision⟩)

/-! ## Calls on several keys -/

/-- The values, and the keys that were found expired deleted. -/
def mget (t : Rows J) (now : Bytes → UInt64) (keys : List Bytes) :
    List (Option (Entry J)) × Rows J :=
  (keys.map (t.live now), (keys.filter (t.past now)).foldl remove t)

/-- The pairs one after another; `revisions` are those the log gives them. -/
def putAll (revisions : Nat → UInt64) : List (Bytes × Bytes) → Rows J → Rows J
  | [], t => t
  | (key, value) :: pairs, t =>
    putAll (fun i => revisions (i + 1)) pairs (t.put key value (revisions 0))

/-- The pairs, or nothing if the record of one of them cannot be encoded. -/
def mset (threshold : Nat) (revisions : Nat → UInt64) (pairs : List (Bytes × Bytes)) (t : Rows J) :
    Except String Unit × Rows J :=
  if pairs.all (fitsRecord threshold) then (.ok (), putAll revisions pairs t)
  else (.error "malformed record at offset 0: record exceeds 4 GiB limit", t)

/-- One tombstone after another; one that finds a row counts, unless the row was expired when
the call began. -/
def delEach : List (Bytes × Bool) → Rows J → Nat × Rows J
  | [], t => (0, t)
  | (key, expired) :: rest, t =>
    let (count, t') := delEach rest (t.remove key)
    (if (t key).isSome && !expired then count + 1 else count, t')

def del (t : Rows J) (now : Bytes → UInt64) (keys : List Bytes) : Nat × Rows J :=
  delEach (keys.map fun key => (key, t.past now key)) t

/-- `exists`. -/
def count (t : Rows J) (now : Bytes → UInt64) (keys : List Bytes) : Nat :=
  keys.countP fun key => (t key).isSome && !t.past now key

/-! ## What they do, key by key -/

theorem past_congr {t t' : Rows J} {now now' : Bytes → UInt64} {key : Bytes} (ht : t key = t' key)
    (hnow : now key = now' key) : t.past now key = t'.past now' key := by
  unfold past
  rw [ht, hnow]

theorem live_congr {t t' : Rows J} {now now' : Bytes → UInt64} {key : Bytes} (ht : t key = t' key)
    (hnow : now key = now' key) : t.live now key = t'.live now' key := by
  unfold live
  rw [past_congr ht hnow, ht]

theorem foldl_remove (keys : List Bytes) (t : Rows J) (k : Bytes) :
    keys.foldl remove t k = if k ∈ keys then none else t k := by
  induction keys generalizing t with
  | nil => simp
  | cons key keys ih =>
    rw [List.foldl_cons, ih]
    by_cases hk : k = key
    · simp [hk, remove]
    · simp [hk, remove]

theorem mget_apply (t : Rows J) (now : Bytes → UInt64) (keys : List Bytes) (k : Bytes) :
    (t.mget now keys).2 k = if k ∈ keys ∧ t.past now k = true then none else t k := by
  show (keys.filter (t.past now)).foldl remove t k = _
  rw [foldl_remove]
  simp only [List.mem_filter]

/-- The value of the last pair of a key. -/
def lastValue (key : Bytes) : List (Bytes × Bytes) → Option Bytes
  | [] => none
  | (k, value) :: pairs => (lastValue key pairs).or (if k = key then some value else none)

theorem lastValue_filter {p : Bytes → Bool} {key : Bytes} (hp : p key = true)
    (pairs : List (Bytes × Bytes)) :
    lastValue key (pairs.filter fun x => p x.1) = lastValue key pairs := by
  induction pairs with
  | nil => rfl
  | cons x pairs ih =>
    obtain ⟨k, value⟩ := x
    cases hk : p k with
    | true => simp only [List.filter_cons, hk, if_true, lastValue, ih]
    | false =>
      have hne : k ≠ key := by
        intro h
        rw [h, hp] at hk
        cases hk
      simp [hk, lastValue, ih, hne]

theorem putAll_content (revisions : Nat → UInt64) (pairs : List (Bytes × Bytes))
    (t : Rows J) (k : Bytes) :
    (putAll revisions pairs t k).map Entry.content =
      ((lastValue k pairs).map fun value => (value, none, none)).or ((t k).map Entry.content) := by
  induction pairs generalizing revisions t with
  | nil => rfl
  | cons x pairs ih =>
    obtain ⟨key, value⟩ := x
    rw [putAll, ih, lastValue]
    by_cases hk : k = key
    · subst hk
      cases lastValue k pairs <;> simp [put, Entry.content]
    · cases lastValue k pairs <;> simp [put, Function.update_of_ne hk, Ne.symm hk]

theorem putAll_other (revisions : Nat → UInt64) {pairs : List (Bytes × Bytes)}
    (t : Rows J) {k : Bytes}
    (hk : ∀ x ∈ pairs, x.1 ≠ k) : putAll revisions pairs t k = t k := by
  induction pairs generalizing revisions t with
  | nil => rfl
  | cons x pairs ih =>
    rw [putAll, ih _ _ fun y hy => hk y (List.mem_cons_of_mem _ hy)]
    exact Function.update_of_ne (hk x List.mem_cons_self).symm ..

theorem delEach_apply (xs : List (Bytes × Bool)) (t : Rows J) (k : Bytes) :
    (delEach xs t).2 k = if k ∈ xs.map Prod.fst then none else t k := by
  induction xs generalizing t with
  | nil => simp [delEach]
  | cons x xs ih =>
    obtain ⟨key, expired⟩ := x
    show (delEach xs (t.remove key)).2 k = _
    rw [ih]
    by_cases hk : k = key
    · simp [hk, remove]
    · simp [hk, remove]

theorem del_apply (t : Rows J) (now : Bytes → UInt64) (keys : List Bytes) (k : Bytes) :
    (t.del now keys).2 k = if k ∈ keys then none else t k := by
  rw [del, delEach_apply, List.map_map]
  congr 1
  simp [Function.comp_def]

/-- A key counts once, however often it is listed. -/
theorem delEach_count (expired : Bytes → Bool) (keys : List Bytes) (t : Rows J) :
    (delEach (keys.map fun key => (key, expired key)) t).1 =
      (keys.toFinset.filter fun k => (t k).isSome && !expired k).card := by
  induction keys generalizing t with
  | nil => rfl
  | cons key keys ih =>
    have hrest : (keys.toFinset.filter fun k => (t.remove key k).isSome && !expired k) =
        (keys.toFinset.filter fun k => (t k).isSome && !expired k).erase key := by
      ext k
      by_cases hk : k = key
      · simp [hk, remove]
      · simp [hk, remove]
    show (if (t key).isSome && !expired key then _ + 1 else _) = _
    rw [ih, hrest, List.toFinset_cons, Finset.filter_insert]
    cases hc : (t key).isSome && !expired key with
    | true =>
      simp only [if_true]
      rw [← Finset.card_insert_of_notMem (Finset.notMem_erase key _)]
      congr 1
      ext k
      by_cases hk : k = key <;> simp [hk]
    | false =>
      simp only [Bool.false_eq_true, if_false]
      rw [Finset.erase_eq_of_notMem]
      intro hmem
      rw [(Finset.mem_filter.mp hmem).2] at hc
      cases hc

theorem del_count (t : Rows J) (now : Bytes → UInt64) (keys : List Bytes) :
    (t.del now keys).1 = (keys.toFinset.filter fun k => (t k).isSome && !t.past now k).card :=
  delEach_count (t.past now) keys t

end Rows

end BeyondKv
