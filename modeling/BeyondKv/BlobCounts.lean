/-
# Counting blobs

What the counts of the blob store ought to say: for each content hash, how many keys of the
index have it as their value (`ExactCounts`). The lemmas say how one insertion or removal moves
the keys, how each operation of the store moves its count, and that a log that has been opened,
on any directory, starts with exact counts.
-/
import BeyondKv.Reopen

namespace BeyondKv

open List

/-! ## What is counted -/

/-- The keys of the index whose value is the blob. -/
def NsIndex.holders (idx : NsIndex) (h : ContentHash) : Finset Bytes :=
  idx.map.keys.toFinset.filter fun k => idx.valsep k = some h

/-- The sidecar of blobs has entries for keys of the index only. -/
def NsIndex.Paired (idx : NsIndex) : Prop := ∀ k, idx.get k = none → idx.valsep k = none

section holders
variable {idx idx' : NsIndex} {h : ContentHash}

theorem NsIndex.mem_holders {k : Bytes} : k ∈ idx.holders h ↔ (idx.get k).isSome
    ∧ idx.valsep k = some h := by
  simp [holders, get, Std.ExtTreeMap.mem_keys]

/-- One key holds its own blob, and the rest is up to the other keys. -/
theorem NsIndex.Paired.card (hp : idx.Paired) (key : Bytes) (h : ContentHash) :
    (idx.holders h).card = ((idx.holders h).erase key).card + (idx.valsep key).toList.count h := by
  by_cases hk : idx.valsep key = some h
  · have hmem : key ∈ idx.holders h := by
      refine NsIndex.mem_holders.mpr ⟨?_, hk⟩
      cases hg : idx.get key with
      | some e => rfl
      | none => rw [hp key hg] at hk; cases hk
    rw [Finset.card_erase_of_mem hmem, hk]
    have hpos : 0 < (idx.holders h).card := Finset.card_pos.mpr ⟨key, hmem⟩
    simp only [Option.toList_some, count_cons_self, count_nil]
    omega
  · have hmem : key ∉ idx.holders h := fun hm => hk (NsIndex.mem_holders.mp hm).2
    rw [Finset.erase_eq_of_notMem hmem]
    cases hv : idx.valsep key with
    | none => rfl
    | some h' =>
      have hne : h' ≠ h := fun he => hk (hv.trans (congrArg some he))
      simp [hne]

/-- A change of one key moves at most one holder. -/
theorem NsIndex.holders_change {key : Bytes} (hp : idx.Paired) (hp' : idx'.Paired)
    (hget : ∀ k, k ≠ key → idx'.get k = idx.get k)
    (hsep : ∀ k, k ≠ key → idx'.valsep k = idx.valsep k)
    (h : ContentHash) :
    (idx'.holders h).card + (idx.valsep key).toList.count h
      = (idx.holders h).card + (idx'.valsep key).toList.count h := by
  have hrest : (idx'.holders h).erase key = (idx.holders h).erase key := by
    ext k
    simp only [Finset.mem_erase, NsIndex.mem_holders]
    exact and_congr_right fun hk => by rw [hget k hk, hsep k hk]
  rw [hp.card key h, hp'.card key h, hrest]
  omega

theorem NsIndex.Paired.setTtl (hp : idx.Paired) (key : Bytes) (x : Option UInt64) :
    (idx.setTtl key x).Paired := by
  intro k hk
  rw [get_setTtl] at hk
  rw [valsep_setTtl]
  exact hp k hk

theorem NsIndex.closed_paired : Closed Paired where
  empty k _ := valsep_empty k
  insert {idx} key e x hp k hk := by
    by_cases heq : key = k
    · simp [heq] at hk
    · simp only [get_insert, heq, if_false] at hk
      simpa using hp k hk
  setTtl key x hp _ := hp.setTtl key x
  setValsep {idx} key h hp hkey k hk := by
    rw [get_setValsep] at hk
    have hne : key ≠ k := by
      rintro rfl
      rw [hk] at hkey
      cases hkey
    simpa [hne] using hp k hk
  remove {idx} key hp k hk := by
    by_cases heq : key = k
    · simp [heq]
    · simp only [get_remove, heq, if_false] at hk
      simpa [heq] using hp k hk

theorem NsIndex.Paired.put (hp : idx.Paired) (key : Bytes) (e : IndexEntry) (x : Option UInt64)
    (sep : Option ContentHash) :
    ((idx.insert key e x).setValsep key sep).Paired := closed_paired.put key e x sep hp

theorem NsIndex.Paired.remove (hp : idx.Paired) (key : Bytes) : (idx.remove key).2.Paired :=
  closed_paired.remove key hp

theorem NsIndex.holders_put (hp : idx.Paired) (key : Bytes) (e : IndexEntry) (x : Option UInt64)
    (sep : Option ContentHash) (h : ContentHash) :
    (((idx.insert key e x).setValsep key sep).holders h).card + (idx.valsep key).toList.count h
      = (idx.holders h).card + sep.toList.count h := by
  have hget : ∀ k, k ≠ key → ((idx.insert key e x).setValsep key sep).get k = idx.get k :=
    fun k hk => by simp [Ne.symm hk]
  have hsep : ∀ k, k ≠ key → ((idx.insert key e x).setValsep key sep).valsep k = idx.valsep k :=
    fun k hk => by simp [Ne.symm hk]
  simpa using holders_change hp (hp.put key e x sep) hget hsep h

theorem NsIndex.holders_remove (hp : idx.Paired) (key : Bytes) (h : ContentHash) :
    ((idx.remove key).2.holders h).card + (idx.valsep key).toList.count h
    = (idx.holders h).card := by
  have hget : ∀ k, k ≠ key → (idx.remove key).2.get k = idx.get k :=
    fun k hk => by simp [Ne.symm hk]
  have hsep : ∀ k, k ≠ key → (idx.remove key).2.valsep k = idx.valsep k :=
    fun k hk => by simp [Ne.symm hk]
  simpa using holders_change hp (hp.remove key) hget hsep h

/-- The insertions of a batch: what they put in and what they replace. -/
theorem NsIndex.holders_items (hp : idx.Paired) (fileId base : Nat) (items : List BatchItem)
    (old : List ContentHash) :
    (items.foldl (insertItem fileId base) (idx, old)).1.Paired
      ∧ ∀ h, ((items.foldl (insertItem fileId base) (idx, old)).1.holders h).card
          + (items.foldl (insertItem fileId base) (idx, old)).2.count h
        = (idx.holders h).card + old.count h + (items.filterMap BatchItem.sepHash).count h := by
  induction items generalizing idx old with
  | nil => exact ⟨hp, fun h => by simp⟩
  | cons it items ih =>
    let e := IndexEntry.new fileId (base + it.start) it.size it.tstamp
    obtain ⟨hpair, hcount⟩ :=
      ih (hp.put it.key e none it.sepHash) (old ++ (idx.valsep it.key).toList)
    refine ⟨hpair, fun h => ?_⟩
    have hsep : ((it :: items).filterMap BatchItem.sepHash).count h
        = it.sepHash.toList.count h + (items.filterMap BatchItem.sepHash).count h := by
      cases hs : it.sepHash <;> simp [hs, Nat.add_comm, count_cons]
    have hrest := hcount h
    have hfirst := NsIndex.holders_put hp it.key e none it.sepHash h
    rw [count_append] at hrest
    have hstep :
      (it :: items).foldl (insertItem fileId base) (idx, old) = items.foldl (insertItem fileId base)
        ((idx.insert it.key e none).setValsep it.key it.sepHash,
          old ++ (idx.valsep it.key).toList) := rfl
    rw [hsep, hstep]
    omega

end holders

/-- Occurrences in a list, as a multiset counts them. -/
theorem count_hashes (hs : List ContentHash) (h : ContentHash) :
    (hs : Multiset ContentHash).count h = hs.count h := by
  induction hs with
  | nil => rfl
  | cons h' hs ih =>
    rw [← Multiset.cons_coe, Multiset.count_cons, ih, count_cons]
    by_cases heq : h = h'
    · simp [heq]
    · simp [heq, Ne.symm heq]

/-! ## What the blob store does to its counts -/

section refcounts
variable (h h' : ContentHash) (s : NsState)

open ValueStore

theorem refcount_takeRef : refcount (takeRef h s).2 h' = refcount s h' + [h].count h' := by
  by_cases heq : h = h'
  · subst heq
    simp [takeRef, refcount]
  · simp [takeRef, refcount, Std.ExtTreeMap.getD_insert, heq]

theorem refcount_dec : refcount (dec h s).2 h' = refcount s h' - [h].count h' := by
  unfold dec
  by_cases heq : h = h'
  · subst heq
    cases hr : s.refs[h]? with
    | none => simp [refcount, Std.ExtTreeMap.getD_eq_getD_getElem?, hr]
    | some c =>
      by_cases hc : c - 1 = 0
      · simp [refcount, Std.ExtTreeMap.getD_eq_getD_getElem?, hr, hc]
      · simp [refcount, Std.ExtTreeMap.getD_eq_getD_getElem?, hr, hc]
  · cases hr : s.refs[h]? with
    | none => simp [heq]
    | some c =>
      by_cases hc : c - 1 = 0
      · simp [refcount, hc, heq, Std.ExtTreeMap.getD_erase]
      · simp [refcount, hc, heq, Std.ExtTreeMap.getD_insert]

theorem refcount_unref : refcount (unref h s) h' = refcount s h' - [h].count h' := by
  rw [← refcount_dec]
  unfold unref
  cases hd : dec h s with
  | mk dead s₁ => cases dead <;> rfl

theorem refcount_unrefs (hs : List ContentHash) :
    refcount (hs.foldl (fun s h => unref h s) s) h' = refcount s h' - hs.count h' := by
  induction hs generalizing s with
  | nil => simp
  | cons h hs ih =>
    rw [foldl_cons, ih, refcount_unref]
    simp only [count_cons, count_nil]
    omega

theorem refcount_unref? (o : Option ContentHash) :
    refcount (unref? o s) h' = refcount s h' - o.toList.count h' := by
  cases o with
  | none => simp [unref?]
  | some h => simpa [unref?] using refcount_unref h h' s

end refcounts

/-- The count of each blob is the number of keys of the index whose value it is. -/
def ExactCounts (s : NsState) : Prop := ∀ h, ValueStore.refcount s h = (s.index.holders h).card

/-! ## An open log -/

section opened
variable {P : Prims} {idx : NsIndex}

theorem refcount_incrRefs (hs : List ContentHash) (s : NsState) (h : ContentHash) :
    ValueStore.refcount (hs.foldl (fun s h => ValueStore.incrRef h s) s) h = ValueStore.refcount s h
        + hs.count h := by
  induction hs generalizing s with
  | nil => rfl
  | cons h' hs ih =>
    rw [foldl_cons, ih, ValueStore.incrRef, refcount_takeRef]
    simp only [count_cons, count_nil]
    omega

/-- The sidecar lists each key that holds a blob once. -/
theorem NsIndex.Paired.count_sidecar (hp : idx.Paired) (h : ContentHash) :
    (idx.valsepMap.toList.map Prod.snd).count h = (idx.holders h).card := by
  have hnodup : ((idx.valsepMap.toList.filter fun x => x.2 = h).map Prod.fst).Nodup := by
    have hkeys := Std.ExtTreeMap.distinct_keys_toList (t := idx.valsepMap)
    rw [List.Nodup, pairwise_map]
    exact (hkeys.filter _).imp fun hne he => hne (by simp [he])
  have hset :
      idx.holders h = ((idx.valsepMap.toList.filter fun x => x.2 = h).map Prod.fst).toFinset := by
    ext k
    simp only [mem_holders, mem_toFinset, mem_map, mem_filter, decide_eq_true_eq, Prod.exists,
      Std.ExtTreeMap.mem_toList_iff_getElem?_eq_some]
    constructor
    · rintro ⟨-, hk⟩
      exact ⟨k, h, ⟨hk, rfl⟩, rfl⟩
    · rintro ⟨k, _, ⟨hk, rfl⟩, rfl⟩
      refine ⟨?_, hk⟩
      cases hg : idx.get k with
      | some e => rfl
      | none => rw [show idx.valsepMap[k]? = none from hp k hg] at hk; cases hk
  rw [hset, toFinset_card_of_nodup hnodup, length_map, count_eq_length_filter, filter_map,
    length_map]
  congr 1
  refine filter_congr fun x _ => ?_
  by_cases heq : x.2 = h <;> simp [heq]

/-- A log that has been opened, on any directory. -/
theorem openLog_exact {config : LogConfig} {clock : Nat → UInt64} {fault : Nat → Option Nat}
    {d : Disk} {s : NsState}
    (h : openLog P config clock fault d = .ok s) : ExactCounts s ∧ s.index.Paired := by
  cases ho : openNamespace P d with
  | error e => simp [openLog, ho, bind, Except.bind] at h
  | ok x =>
    have hp := NsIndex.closed_paired.openNamespace ho
    let s₁ : NsState := { freshState config clock fault x.1 x.2 ∅ with disk := x.2 }
    let hashes := x.1.index.valsepMap.toList.map Prod.snd
    have hfold : x.1.index.valsepMap.foldl (fun s _ h => ValueStore.incrRef h s) s₁
        = hashes.foldl (fun s h => ValueStore.incrRef h s) s₁ := by
      rw [Std.ExtTreeMap.foldl_eq_foldl_toList, foldl_map]
    have hs :
        s = ValueStore.sweepOrphans (hashes.foldl (fun s h => ValueStore.incrRef h s) s₁) := by
      rw [← hfold]
      simp only [openLog, ho, bind, Except.bind, pure, Except.pure, Except.ok.injEq] at h
      exact h.symm
    have hindex : s.index = x.1.index := by
      obtain ⟨refs, heq, -⟩ := foldl_incrRef hashes s₁
      rw [hs, heq]
      rfl
    rw [hindex]
    refine ⟨fun c => ?_, hp⟩
    rw [hindex, ← hp.count_sidecar c, hs]
    exact (refcount_incrRefs hashes s₁ c).trans (zero_add _)

end opened

end BeyondKv
