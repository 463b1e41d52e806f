/-
# Scans

A scan of a namespace is asked for page by page. The cursor of a page is the last key of the
one before it, behind a byte that tells it from the cursor `0`, which starts a scan and ends it.
Between two pages anything may happen to the index.

`NsIndex.scan` returns the page of the live keys that match (`scan_eq`), so that the laws of
`Paging` hold of every scan (`scan_guarantees`): a key that is there all the time is returned
once, no key is returned twice, and on an index that does not change a scan ends.
-/
import BeyondKv.Glob
import BeyondKv.Index
import BeyondKv.Lib.Paging

namespace BeyondKv

open Paging List

/-! ## The index -/

namespace NsIndex

/-- The loop of `scan` over a range of keys. -/
def scanLoop (idx : NsIndex) (count : Nat) (nowMs : UInt64) (filter : Bytes → Bool) :
    List Bytes → List Bytes → List Bytes
  | [], yielded => yielded
  | k :: ks, yielded =>
    if !idx.ttlMap.isEmpty && (idx.ttl k).any (fun ms => ms ≤ nowMs)
      then scanLoop idx count nowMs filter ks yielded
    else if !filter k then scanLoop idx count nowMs filter ks yielded
    else if count ≤ (yielded ++ [k]).length then yielded ++ [k]
    else scanLoop idx count nowMs filter ks (yielded ++ [k])

/-- The keys after the cursor in key order that have not expired and pass the filter, up to
`count`; the last one if there may be more. -/
def scan (idx : NsIndex) (cursor : Option Bytes) (count : Nat) (nowMs : UInt64)
    (filter : Bytes → Bool) :
    List Bytes × Option Bytes :=
  let count := max count 1
  let range := match cursor with
    | none => idx.map.keys
    | some key => idx.map.keys.filter fun k => compare key k == .lt
  let yielded := idx.scanLoop count nowMs filter range []
  (yielded, if count ≤ yielded.length then yielded.getLast? else none)

/-- The keys that a scan is to find, in key order. -/
def liveKeys (idx : NsIndex) (nowMs : UInt64) (filter : Bytes → Bool) : List Bytes :=
  idx.map.keys.filter fun k => !idx.isExpired k nowMs && filter k

theorem mem_liveKeys {idx : NsIndex} {nowMs : UInt64} {filter : Bytes → Bool} {k : Bytes} :
    k ∈ idx.liveKeys nowMs filter ↔ (idx.get k).isSome ∧ idx.isExpired k nowMs = false
        ∧ filter k = true := by
  simp only [liveKeys, mem_filter, Std.ExtTreeMap.mem_keys, Bool.and_eq_true,
    Bool.not_eq_true', get,
    Std.ExtTreeMap.isSome_getElem?_iff_mem]

theorem liveKeys_sorted (idx : NsIndex) (nowMs : UInt64) (filter : Bytes → Bool) :
    Sorted (idx.liveKeys nowMs filter) :=
  Std.ExtTreeMap.ordered_keys.filter _

theorem skips_eq (idx : NsIndex) (k : Bytes) (nowMs : UInt64) :
    (!idx.ttlMap.isEmpty && (idx.ttl k).any fun ms => ms ≤ nowMs) = idx.isExpired k nowMs := by
  unfold isExpired
  cases hempty : idx.ttlMap.isEmpty with
  | false => rfl
  | true =>
    have hnone : idx.ttl k = none := by
      rw [ttl, Std.ExtTreeMap.isEmpty_iff.mp hempty]
      exact Std.ExtTreeMap.getElem?_empty
    rw [hnone]
    rfl

/-- The loop stops where the page is full. -/
theorem scanLoop_eq (idx : NsIndex) {count : Nat} (nowMs : UInt64) (filter : Bytes → Bool)
    (ks : List Bytes)
    {yielded : List Bytes} (h : yielded.length < count) :
    idx.scanLoop count nowMs filter ks yielded =
      yielded ++ (ks.filter fun k => !idx.isExpired k nowMs && filter k).take
          (count - yielded.length) := by
  induction ks generalizing yielded with
  | nil => simp [scanLoop]
  | cons k ks ih =>
    rw [scanLoop, skips_eq]
    cases hpast : idx.isExpired k nowMs with
    | true => simp [hpast, ih h]
    | false =>
      cases hfilter : filter k with
      | false => simp [hpast, hfilter, ih h]
      | true =>
        obtain ⟨m, hm⟩ : ∃ m, count - yielded.length = m + 1 :=
          ⟨count - yielded.length - 1, by omega⟩
        have hnext : count - (yielded ++ [k]).length = m := by
          rw [length_append, length_singleton]
          omega
        simp only [Bool.false_eq_true, if_false, Bool.not_true, filter_cons, hpast, hfilter,
          Bool.not_false,
          Bool.and_self, if_true, hm, take_succ_cons]
        split
        · rename_i hfull
          obtain rfl : m = 0 := by omega
          rw [take_zero]
        · rw [ih (by omega), hnext, append_assoc]
          rfl

theorem scan_eq (idx : NsIndex) (cursor : Option Bytes) (count : Nat) (nowMs : UInt64)
    (filter : Bytes → Bool) :
    idx.scan cursor count nowMs filter =
      ((keyPage (idx.liveKeys nowMs filter, count) cursor).1,
        (keyPage (idx.liveKeys nowMs filter, count) cursor).2.join) := by
  have hkeys :
    (idx.map.keys.filter (above cursor)).filter (fun k => !idx.isExpired k nowMs && filter k) =
      (idx.liveKeys nowMs filter).filter (above cursor) := by
    rw [liveKeys, filter_filter, filter_filter]
    exact filter_congr fun k _ => Bool.and_comm ..
  have hloop : idx.scanLoop (max count 1) nowMs filter (idx.map.keys.filter (above cursor)) [] =
      ((idx.liveKeys nowMs filter).filter (above cursor)).take (max count 1) := by
    rw [scanLoop_eq idx nowMs filter _
      (Nat.lt_of_lt_of_le Nat.zero_lt_one (Nat.le_max_right count 1)), hkeys]
    rfl
  have hscan : idx.scan cursor count nowMs filter =
      (idx.scanLoop (max count 1) nowMs filter (idx.map.keys.filter (above cursor)) [],
        if max count 1
          ≤ (idx.scanLoop (max count 1) nowMs filter (idx.map.keys.filter (above cursor)) []).length
          then
          (idx.scanLoop (max count 1) nowMs filter (idx.map.keys.filter (above cursor)) []).getLast?
            else none) := by
    cases cursor with
    | none =>
      have hall : idx.map.keys.filter (above none) = idx.map.keys := filter_true _
      rw [hall]
      rfl
    | some key => rfl
  rw [hscan, hloop]
  refine Prod.ext rfl ?_
  simp only [keyPage]
  split
  · cases ((idx.liveKeys nowMs filter).filter (above cursor)).take (max count 1) |>.getLast? <;> rfl
  · rfl

end NsIndex

/-! ## The store -/

structure ScanPage where
  nextCursor : Bytes
  keys : List Bytes
  deriving DecidableEq

/-- `b"0"`. -/
def scanStart : Bytes := [48]

namespace ShardStore

/-- The key a cursor stands for; what is no cursor starts again. -/
def resumeAfter (cursor : Bytes) : Option Bytes :=
  if cursor = scanStart then none
  else match cursor with
    | 1 :: key => some key
    | _ => none

/-- Of the store a scan reads the index of the namespace. -/
def scan (index : NsIndex) (now : UInt64) (cursor : Bytes) (pattern : Option Bytes)
    (count : UInt64) : ScanPage :=
  let (keys, lastKey) := index.scan (resumeAfter cursor) count.toNat now fun k => pattern.all
    fun p => globMatch p k
  { keys
    nextCursor := match lastKey with
      | none => scanStart
      | some k => 1 :: k }

end ShardStore

/-! ## Scans -/

/-- What a call meets: the index, the clock and the page size it asks for. -/
structure ScanCall where
  index : NsIndex
  now : UInt64
  count : UInt64

namespace ScanCall

/-- The key is there, has not expired and matches. That is the verdict of `glob_match` itself, which
misses some keys of the language that its comment describes (see `Glob`). -/
def Has (call : ScanCall) (pattern : Option Bytes) (k : Bytes) : Prop :=
  (call.index.get k).isSome ∧ call.index.isExpired k call.now = false ∧
    ∀ p ∈ pattern, globMatch p k = true

/-- The keys it could return. -/
def keys (call : ScanCall) (pattern : Option Bytes) : List Bytes :=
  call.index.liveKeys call.now fun k => pattern.all fun p => globMatch p k

theorem mem_keys {call : ScanCall} {pattern : Option Bytes} {k : Bytes} :
    k ∈ call.keys pattern ↔ call.Has pattern k := by
  rw [keys, NsIndex.mem_liveKeys, Has, Option.all_eq_true]
  rfl

/-- A page, and the cursor of the next one if the scan is not over. -/
def page (pattern : Option Bytes) (call : ScanCall) (cursor : Bytes) : List Bytes × Option Bytes :=
  let p := ShardStore.scan call.index call.now cursor pattern call.count
  (p.keys, if p.nextCursor = scanStart then none else some p.nextCursor)

end ScanCall

/-- The cursor of a key. -/
def scanCursor : Option Bytes → Bytes
  | none => scanStart
  | some key => 1 :: key

theorem scanCursor_ne {key : Bytes} : scanCursor (some key) ≠ scanStart := by
  intro h
  cases (List.cons.inj h).1

@[simp] theorem resumeAfter_scanCursor (c : Option Bytes) :
    ShardStore.resumeAfter (scanCursor c) = c := by
  cases c with
  | none => rfl
  | some key => exact if_neg scanCursor_ne

/-- A page of the store is a page of the keys it could return, under any cursor. -/
theorem ScanCall.page_eq (pattern : Option Bytes) (call : ScanCall) (cursor : Bytes) :
    call.page pattern cursor =
      ((keyPage (call.keys pattern, call.count.toNat) (ShardStore.resumeAfter cursor)).1,
        (keyPage (call.keys pattern, call.count.toNat) (ShardStore.resumeAfter cursor)).2.map
          scanCursor) := by
  rw [← keyPage_join]
  have hscan : call.index.scan (ShardStore.resumeAfter cursor) call.count.toNat call.now
      (fun k => pattern.all fun p => globMatch p k) =
      ((keyPage (call.keys pattern, call.count.toNat) (ShardStore.resumeAfter cursor)).1,
        (keyPage (call.keys pattern, call.count.toNat) (ShardStore.resumeAfter cursor)).2.join) :=
        NsIndex.scan_eq ..
  simp only [ScanCall.page, ShardStore.scan, hscan]
  cases (keyPage (call.keys pattern, call.count.toNat) (ShardStore.resumeAfter cursor)).2.join with
  | none =>
    refine Prod.ext rfl ?_
    show (if scanStart = scanStart then none else some scanStart) = none
    exact if_pos rfl
  | some k =>
    refine Prod.ext rfl ?_
    show (if scanCursor (some k) = scanStart then none else some (scanCursor (some k)))
      = some (scanCursor (some k))
    exact if_neg scanCursor_ne

theorem scan_refines (pattern : Option Bytes) :
    Refines (ScanCall.page pattern) keyPage
      (fun call => (call.keys pattern, call.count.toNat)) scanCursor id
      fun _ => True := by
  refine ⟨fun call c _ => ?_, fun _ _ _ _ _ => trivial⟩
  rw [ScanCall.page_eq, resumeAfter_scanCursor, map_id]

/-- Anything may happen between the pages; the clock may stand anywhere. -/
theorem scan_guarantees (pattern : Option Bytes) :
    (∀ (calls : List ScanCall) (pages : List (List Bytes)),
      Walk (ScanCall.page pattern) scanStart calls pages →
      (∀ k, (∀ call ∈ calls, call.Has pattern k) → pages.flatten.count k = 1)
      ∧ pages.flatten.Nodup ∧
        List.Forall₂ (fun call keys => ∀ k ∈ keys, ScanCall.Has call pattern k) calls pages) ∧
      ∀ (calls : Nat → ScanCall) (index : NsIndex), (∀ i, (calls i).index = index) → ∀ cursor,
        ∃ keys, Ends (ScanCall.page pattern) calls cursor keys := by
  constructor
  · intro calls pages hwalk
    have hstart : Walk (ScanCall.page pattern) (scanCursor none) calls pages := hwalk
    obtain ⟨pages, hspec, rfl⟩ := (scan_refines pattern).walk_spec trivial hstart
    simp only [map_id_fun, map_id]
    have hs : ∀ s ∈ calls.map fun call => (call.keys pattern, call.count.toNat), Sorted s.1 := by
      intro s hmem
      obtain ⟨call, -, rfl⟩ := mem_map.mp hmem
      exact NsIndex.liveKeys_sorted ..
    have hnodup := (hspec.sorted hs).1.nodup
    refine ⟨fun k hk => ?_, hnodup, ?_⟩
    · refine count_eq_one_of_mem hnodup (hspec.mem hs rfl fun s hmem => ?_)
      obtain ⟨call, hcall, rfl⟩ := mem_map.mp hmem
      exact ScanCall.mem_keys.mpr (hk call hcall)
    · refine (forall₂_map_left_iff.mp hspec.mem_page).imp fun call keys hkeys k hk => ?_
      exact ScanCall.mem_keys.mp (hkeys k hk)
  · intro calls index hindex cursor
    have hstart : ∀ call : ScanCall,
        call.page pattern (scanCursor (ShardStore.resumeAfter cursor))
            = call.page pattern cursor := by
      intro call
      rw [ScanCall.page_eq, ScanCall.page_eq, resumeAfter_scanCursor]
    have hstock : ∀ i, (calls i).keys pattern ⊆ index.map.keys := by
      intro i k hk
      rw [← hindex i]
      exact (mem_filter.mp hk).1
    obtain ⟨keys, hkeys⟩ :=
      ends_of_subset index.map.keys (f := fun i => ((calls i).keys pattern, (calls i).count.toNat))
      (fun i => NsIndex.liveKeys_sorted ..) hstock (ShardStore.resumeAfter cursor)
    obtain ⟨n, pages, hwalk, hpages⟩ :=
      ((scan_refines pattern).ends_iff trivial).mpr ⟨keys, hkeys, rfl⟩
    exact ⟨_, n, pages, hwalk.of_start hstart, hpages⟩

/-- Between the two pages a key goes and another one comes. -/
theorem scan_guarantees_two :
    let e : IndexEntry := ⟨0, 0, 0, 1⟩
    let before := (NsIndex.empty.insert [97] e none).insert [98] e none
    let after := (NsIndex.empty.insert [97] e none).insert [99] e none
    let calls : List ScanCall := [⟨before, 5, 1⟩, ⟨after, 6, 5⟩]
    Walk (ScanCall.page (some [42])) scanStart calls [[[97]], [[99]]]
        ∧ [[[97]], [[99]]].flatten.count ([97] : Bytes) = 1 := by
  intro e before after calls
  have hfirst : ScanCall.page (some [42]) ⟨before, 5, 1⟩ scanStart = ([[97]], some [1, 97]) :=
    by decide +kernel
  have hwalk : Walk (ScanCall.page (some [42])) scanStart calls [[[97]], [[99]]] :=
    .more hfirst (.last (by decide +kernel))
  refine ⟨hwalk, ((scan_guarantees (some [42])).1 calls _ hwalk).1 [97] ?_⟩
  intro call hcall
  rw [← ScanCall.mem_keys]
  obtain rfl | rfl : call = ⟨before, 5, 1⟩ ∨ call = ⟨after, 6, 5⟩ := by simpa [calls] using hcall
  · decide +kernel
  · decide +kernel

end BeyondKv
