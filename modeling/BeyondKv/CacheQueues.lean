/-
# The books of the cache

Entries and slots are kept apart: a slot stays in its queue when its entry goes, and a key that
comes back gets another one. Two things are said of every run of the cache.

The bytes are those of the entries and within the limit, and no entry is without a slot, so that
eviction can reach it (`Kept`). The loops of `evict_to_limit` are also written out as they stand
in the source, one slot at a time and without an end in sight; they return what the model says,
whatever the cache holds (`evictLoop_returns`).

The slots are not bounded by the entries: an entry that a lookup finds expired leaves a slot that
is not counted as stale, and compaction keeps all slots of a key that is there. As long as neither
happens (no lookup meets an expired entry, and no key comes back while a slot of it is left),
every key has one slot at most and the dead ones are counted, so that compaction keeps them within
the entries (`queue_slots_bounded`).
-/
import BeyondKv.Cache

namespace BeyondKv

open Std (ExtTreeMap)
open Totals List

namespace MemCache
variable {V : Type}

/-! ## Runs -/

inductive Op (V : Type) where
  | get (key : Bytes) (nowMs : UInt64)
  | tryUpdate (key : Bytes) (d : Cached V) (metaSize : Nat)
  | insert (key : Bytes) (d : Cached V) (metaSize : Nat)
  | remove (key : Bytes)
  | removeByPrefix (start : Bytes)
  | sweepExpired (nowMs : UInt64)

def Op.apply (c : MemCache V) : Op V → MemCache V
  | .get key nowMs => (c.get key nowMs).2
  | .tryUpdate key d metaSize => (c.tryUpdate key d metaSize).2
  | .insert key d metaSize => c.insert key d metaSize
  | .remove key => c.remove key
  | .removeByPrefix start => c.removeByPrefix start
  | .sweepExpired nowMs => (c.sweepExpired nowMs).2

def runOps (ops : List (Op V)) (c : MemCache V) : MemCache V := ops.foldl Op.apply c

/-- The slots of both queues. -/
def queue (c : MemCache V) : List Bytes := c.small ++ c.main

/-! ## The loops of eviction -/

/-- Phase 2 of `evict_one` as it is written: one slot at a time, for `n` slots at most. -/
def mainLoop : Nat → MemCache V → Option (Bool × MemCache V)
  | 0, _ => none
  | n + 1, c =>
    match c.main with
    | [] => some (false, c)
    | key :: slots =>
      match c.entries[key]? with
      | none => mainLoop n { c with main := slots }
      | some e =>
        if e.freq > 0 then mainLoop n { c.resetFreq key e with main := slots ++ [key] }
        else some (true, { c.drop key e.size with main := slots })

/-- `evict_one`; the loop of phase 1 pops the small queue until it is empty. -/
def evictOneLoop (n : Nat) (c : MemCache V) : Option (Bool × MemCache V) :=
  match evictSmall c.small c with
  | (true, c) => some (true, c)
  | (false, c) => mainLoop n c

/-- `evict_to_limit` as it is written, for `n` rounds at most and as many slots in each. -/
def evictLoop : Nat → MemCache V → Option (MemCache V)
  | 0, _ => none
  | n + 1, c =>
    if c.currentBytes > c.maxBytes then do
      let (evicted, c) ← evictOneLoop n c
      if evicted then evictLoop n c else some c
    else some c

/-- The slots a pass pushes back are of entries that have used up their second chance. -/
def Cold (c : MemCache V) (keys : List Bytes) : Prop :=
  ∀ k ∈ keys, ∃ e, c.entries[k]? = some e ∧ e.freq = 0

theorem Cold.resetFreq {c : MemCache V} {back : List Bytes} (h : Cold c back) (key : Bytes)
    (e : CacheEntry V) :
    Cold (c.resetFreq key e) (back ++ [key]) := by
  intro k hk
  simp only [MemCache.resetFreq, ExtTreeMap.getElem?_insert, Std.LawfulEqCmp.compare_eq_iff_eq]
  by_cases hkey : key = k
  · exact ⟨_, if_pos hkey, rfl⟩
  · rw [if_neg hkey]
    refine h k ((mem_append.mp hk).resolve_right fun hlast => hkey ?_)
    exact (mem_singleton.mp hlast).symm

theorem cold_evictMain (slots back : List Bytes) (c : MemCache V) (hcold : Cold c back)
    (hnone : (evictMain slots back c).1 = false) :
    Cold (evictMain slots back c).2 (evictMain slots back c).2.main := by
  induction slots generalizing back c with
  | nil => exact hcold
  | cons key slots ih =>
    rw [evictMain] at hnone ⊢
    split at hnone
    · exact ih back c hcold hnone
    · rename_i e he
      split at hnone
      · rename_i hfreq
        rw [if_pos hfreq]
        exact ih (back ++ [key]) (c.resetFreq key e) (hcold.resetFreq key e) hnone
      · cases hnone

/-- So a second pass evicts the first of them, if there is one. -/
theorem evictMain_cold {c : MemCache V} {keys : List Bytes} (hcold : Cold c keys)
    (hnone : (evictMain keys [] c).1 = false) : keys = [] := by
  cases keys with
  | nil => rfl
  | cons key keys =>
    obtain ⟨e, he, hfreq⟩ := hcold key mem_cons_self
    rw [evictMain, he] at hnone
    simp [hfreq] at hnone

/-- A pass, slot by slot. -/
theorem mainLoop_pass (n : Nat) (slots back : List Bytes) (c : MemCache V) :
    mainLoop (slots.length + n) { c with main := slots ++ back } =
      match evictMain slots back c with
      | (true, c') => some (true, c')
      | (false, c') => mainLoop n c' := by
  induction slots generalizing back c with
  | nil => rw [length_nil, Nat.zero_add, nil_append, evictMain]
  | cons key slots ih =>
    rw [length_cons, Nat.add_right_comm, mainLoop, evictMain]
    dsimp only [cons_append]
    cases he : c.entries[key]? with
    | none => exact ih back c
    | some e =>
      dsimp only
      split
      · rw [append_assoc]
        exact ih (back ++ [key]) (c.resetFreq key e)
      · rfl

theorem mainLoop_main (n : Nat) (c : MemCache V) :
    mainLoop (c.main.length + n) c =
      match evictMain c.main [] c with
      | (true, c') => some (true, c')
      | (false, c') => mainLoop n c' := by
  have hpass := mainLoop_pass n c.main [] c
  rwa [append_nil] at hpass

theorem evictOneLoop_returns (c : MemCache V) :
    ∃ n, ∀ m ≥ n, evictOneLoop m c = some c.evictOne := by
  rw [evictOne]
  unfold evictOneLoop
  generalize evictSmall c.small c = r₁
  obtain ⟨_ | _, c₁⟩ := r₁
  · have hfirst (n : Nat) := mainLoop_main n c₁
    have hcold := cold_evictMain c₁.main [] c₁ (forall_mem_nil _)
    dsimp only
    generalize evictMain c₁.main [] c₁ = r₂ at hfirst hcold ⊢
    obtain ⟨_ | _, c₂⟩ := r₂
    · have hempty : (evictMain c₂.main [] c₂).1 = false → c₂.main = [] := evictMain_cold (hcold rfl)
      refine ⟨c₁.main.length + (c₂.main.length + 1), fun m hm => ?_⟩
      obtain ⟨k, rfl⟩ := Nat.exists_eq_add_of_le hm
      rw [Nat.add_assoc, Nat.add_assoc, hfirst]
      dsimp only
      rw [mainLoop_main]
      generalize hr : evictMain c₂.main [] c₂ = r₃ at hempty ⊢
      obtain ⟨_ | _, c₃⟩ := r₃
      · -- nothing was evicted, so the queue is empty
        rw [hempty rfl, evictMain] at hr
        cases hr
        rw [Nat.add_comm 1 k]
        rfl
      · rfl
    · refine ⟨c₁.main.length, fun m hm => ?_⟩
      obtain ⟨k, rfl⟩ := Nat.exists_eq_add_of_le hm
      exact hfirst k
  · exact ⟨0, fun _ _ => rfl⟩

/-- The loops return what the model says, whatever the cache holds. -/
theorem evictLoop_returns (c : MemCache V) : ∃ n, ∀ m ≥ n, evictLoop m c = some c.evictToLimit := by
  suffices h : ∀ k (c : MemCache V), c.entries.size < k →
    ∃ n, ∀ m ≥ n, evictLoop m c = some (evictRounds k c) from
    h _ c (Nat.lt_succ_self _)
  intro k
  induction k with
  | zero => exact fun c h => absurd h (Nat.not_lt_zero _)
  | succ k ih =>
    intro c hc
    have hshrinks := (shrinks_evictOne c).2
    obtain ⟨n, hone⟩ := evictOneLoop_returns c
    rw [evictRounds]
    dsimp only
    split
    · rename_i hover
      generalize c.evictOne = r at hshrinks hone ⊢
      obtain ⟨_ | _, c'⟩ := r
      · refine ⟨n + 1, fun m hm => ?_⟩
        obtain ⟨j, rfl⟩ := Nat.exists_eq_add_of_le' hm
        rw [← Nat.add_assoc, evictLoop, if_pos hover, hone _ (Nat.le_add_left n j)]
        rfl
      · obtain ⟨n', hrest⟩ := ih c' ((hshrinks rfl).trans_le (Nat.le_of_lt_succ hc))
        refine ⟨n + n' + 1, fun m hm => ?_⟩
        obtain ⟨j, rfl⟩ := Nat.exists_eq_add_of_le' hm
        rw [← Nat.add_assoc, evictLoop, if_pos hover, hone _ (by omega)]
        exact hrest _ (by omega)
    · rename_i hfits
      refine ⟨1, fun m hm => ?_⟩
      obtain ⟨j, rfl⟩ := Nat.exists_eq_add_of_le' hm
      rw [evictLoop, if_neg hfits]

/-! ## The books -/

/-- What holds of a cache whose queues are `small` and `main`. -/
structure Kept (small main : List Bytes) (c : MemCache V) : Prop where
  bytes : c.currentBytes = total CacheEntry.size c.entries
  slotted : ∀ key ∈ c.entries, key ∈ small ∨ key ∈ main

section kept
variable {c : MemCache V} {small main S M : List Bytes} {key : Bytes} {e : CacheEntry V}

theorem Kept.moved (h : Kept small main c)
    (hmove : ∀ k ∈ c.entries, k ∈ small ∨ k ∈ main → k ∈ S ∨ k ∈ M) : Kept S M c :=
  ⟨h.bytes, fun k hk => hmove k hk (h.slotted k hk)⟩

/-- The queues of the record itself do not matter. -/
theorem Kept.of_entries {c' : MemCache V} (h : Kept small main c)
    (hentries : c'.entries = c.entries)
    (hbytes : c'.currentBytes = c.currentBytes) : Kept small main c' :=
  ⟨by rw [hentries, hbytes, h.bytes], by rw [hentries]; exact h.slotted⟩

theorem Kept.drop (h : Kept small main c) (he : c.entries[key]? = some e) :
    Kept small main (c.drop key e.size) := by
  refine ⟨?_, fun k hk => h.slotted k ?_⟩
  · have htotal := total_of_get (w := CacheEntry.size) he
    have hbytes := h.bytes
    simp only [MemCache.drop]
    omega
  · exact (ExtTreeMap.mem_erase.mp hk).2

/-- Without the key, the slots of the key do not matter. -/
theorem Kept.drop_slot (h : Kept small main c) (he : c.entries[key]? = some e)
    (hmove : ∀ k, k ≠ key → k ∈ small ∨ k ∈ main → k ∈ S ∨ k ∈ M) :
    Kept S M (c.drop key e.size) := by
  refine (h.drop he).moved fun k hk => hmove k ?_
  rintro rfl
  simp [MemCache.drop] at hk

/-- A slot of a key that is not there. -/
theorem Kept.skip (h : Kept small main c) (hnone : c.entries[key]? = none)
    (hmove : ∀ k, k ≠ key → k ∈ small ∨ k ∈ main → k ∈ S ∨ k ∈ M) : Kept S M c := by
  refine h.moved fun k hk => hmove k ?_
  rintro rfl
  rw [ExtTreeMap.mem_iff_isSome_getElem?, hnone] at hk
  cases hk

theorem Kept.put (h : Kept small main c) {e' : CacheEntry V} {c' : MemCache V}
    (he : c.entries[key]? = some e)
    (hentries : c'.entries = c.entries.insert key e')
    (hbytes : c'.currentBytes = c.currentBytes - e.size + e'.size) : Kept small main c' := by
  refine ⟨?_, fun k hk => h.slotted k ?_⟩
  · have htotal := total_of_get (w := CacheEntry.size) he
    have hbefore := h.bytes
    rw [hentries, total_insert, hbytes]
    omega
  · rw [hentries, ExtTreeMap.mem_insert, Std.LawfulEqCmp.compare_eq_iff_eq] at hk
    obtain rfl | hk := hk
    · exact ExtTreeMap.mem_iff_isSome_getElem?.mpr (by rw [he]; rfl)
    · exact hk

theorem Kept.touch (h : Kept small main c) (he : c.entries[key]? = some e) (freq : Nat) :
    Kept small main { c with entries := c.entries.insert key { e with freq := freq } } := by
  refine h.put he rfl ?_
  have htotal := total_of_get (w := CacheEntry.size) he
  have hbytes := h.bytes
  change c.currentBytes = c.currentBytes - e.size + e.size
  omega

end kept

/-! ### Eviction -/

/-- Eviction from the queues `slots` takes slots away, and of an entry that it leaves no slot. -/
structure Trims (slots : List Bytes) (c c' : MemCache V) : Prop where
  fewer : c'.queue <+~ slots
  live : ∀ k ∈ c'.queue, k ∈ c.entries → k ∈ c'.entries
  stale : c'.staleSlots = c.staleSlots

theorem Trims.refl {slots : List Bytes} {c c' : MemCache V} (hqueue : c'.queue = slots)
    (hentries : c'.entries = c.entries) (hstale : c'.staleSlots = c.staleSlots) :
    Trims slots c c' :=
  ⟨hqueue ▸ Subperm.refl _, fun _ _ hk => hentries ▸ hk, hstale⟩

theorem Trims.trans {slots slots' : List Bytes} {c₁ c₂ c₃ : MemCache V} (h : Trims slots' c₂ c₃)
    (hslots : slots' <+~ slots) (hlive : ∀ k ∈ slots', k ∈ c₁.entries → k ∈ c₂.entries)
    (hstale : c₂.staleSlots = c₁.staleSlots) : Trims slots c₁ c₃ :=
  ⟨h.fewer.trans hslots, fun k hk hin => h.live k hk (hlive k (h.fewer.subset hk) hin),
    h.stale.trans hstale⟩

theorem Trims.once {slots : List Bytes} {c c' : MemCache V} (h : Trims slots c c')
    (hnodup : slots.Nodup) : c'.queue.Nodup := by
  obtain ⟨kept, hperm, hsub⟩ := h.fewer
  exact hperm.nodup_iff.mp (hnodup.sublist hsub)

/-- Eviction keeps the books; and if no key has two slots, it takes the slot of what it evicts. -/
structure Evicted (c : MemCache V) (slots : List Bytes) (r : Bool × MemCache V) : Prop where
  kept : Kept r.2.small r.2.main r.2
  limit : r.2.maxBytes = c.maxBytes
  trims : slots.Nodup → Trims slots c r.2

theorem mem_resetFreq {c : MemCache V} {key k : Bytes} {e : CacheEntry V} (hk : k ∈ c.entries) :
    k ∈ (c.resetFreq key e).entries :=
  ExtTreeMap.mem_insert.mpr (.inr hk)

theorem mem_drop {c : MemCache V} {key k : Bytes} (n : Nat) (hne : k ≠ key) (hk : k ∈ c.entries) :
    k ∈ (c.drop key n).entries := by
  refine ExtTreeMap.mem_erase.mpr ⟨fun heq => hne ?_, hk⟩
  exact (Std.LawfulEqCmp.compare_eq_iff_eq.mp heq).symm

theorem ghostInsert_eq (c : MemCache V) (key : Bytes) :
    ∃ ghost queue, c.ghostInsert key = { c with ghost := ghost, ghostQueue := queue } := by
  rw [ghostInsert]
  dsimp only
  split
  · exact ⟨_, _, rfl⟩
  · exact ⟨_, _, rfl⟩

theorem evictSmall_kept (slots : List Bytes) (c : MemCache V) (h : Kept slots c.main c) :
    Evicted c (slots ++ c.main) (evictSmall slots c)
      ∧ ((evictSmall slots c).1 = false → (evictSmall slots c).2.small = []) := by
  induction slots generalizing c with
  | nil => exact ⟨⟨h.of_entries rfl rfl, rfl, fun _ => .refl rfl rfl rfl⟩, fun _ => rfl⟩
  | cons key slots ih =>
    rw [evictSmall]
    split
    · rename_i hnone
      obtain ⟨hev, hempty⟩ := ih c (h.skip hnone fun k hk => by simp [hk])
      refine ⟨⟨hev.kept, hev.limit, fun hnodup => ?_⟩, hempty⟩
      have hrest := nodup_cons.mp hnodup
      exact (hev.trims hrest.2).trans (sublist_cons_self ..).subperm (fun _ _ hk => hk) rfl
    · rename_i e he
      split
      · -- promoted: the slot moves to the main queue
        have hkept := (h.touch he 0).moved (S := slots) (M := c.main ++ [key]) fun k _ => by
          simp only [mem_cons, mem_append, not_mem_nil, or_false]
          tauto
        have hmoved : slots ++ (c.main ++ [key]) ~ key :: (slots ++ c.main) := by
          rw [← append_assoc]
          exact perm_append_singleton key _
        obtain ⟨hev, hempty⟩ := ih { c.resetFreq key e with main := c.main ++ [key] }
          (hkept.of_entries rfl rfl)
        refine ⟨⟨hev.kept, hev.limit, fun hnodup => ?_⟩, hempty⟩
        exact (hev.trims (hmoved.nodup_iff.mpr hnodup)).trans hmoved.subperm
          (fun _ _ hk => mem_resetFreq hk) rfl
      · have hkept := h.drop_slot he (S := slots) (M := c.main) fun k hk => by simp [hk]
        obtain ⟨ghost, queue, hghost⟩ := ghostInsert_eq (c.drop key e.size) key
        rw [hghost]
        refine ⟨⟨hkept.of_entries rfl rfl, rfl, fun hnodup => ?_⟩, by simp⟩
        have hrest := nodup_cons.mp hnodup
        refine ⟨(sublist_cons_self ..).subperm, fun k hk hin => mem_drop e.size ?_ hin, rfl⟩
        rintro rfl
        exact hrest.1 hk

theorem evictMain_kept (slots back : List Bytes) (c : MemCache V)
    (h : Kept c.small (slots ++ back) c) :
    Evicted c (c.small ++ (slots ++ back)) (evictMain slots back c)
      ∧ (evictMain slots back c).2.small = c.small := by
  induction slots generalizing back c with
  | nil => exact ⟨⟨h.of_entries rfl rfl, rfl, fun _ => .refl rfl rfl rfl⟩, rfl⟩
  | cons key slots ih =>
    have hfront : c.small ++ (key :: slots ++ back) ~ key :: (c.small ++ (slots ++ back)) :=
      perm_middle
    rw [evictMain]
    split
    · rename_i hnone
      obtain ⟨hev, hsmall⟩ := ih back c (h.skip hnone fun k hk => by simp [hk])
      refine ⟨⟨hev.kept, hev.limit, fun hnodup => ?_⟩, hsmall⟩
      have hrest := nodup_cons.mp (hfront.nodup_iff.mp hnodup)
      exact (hev.trims hrest.2).trans ((sublist_cons_self ..).subperm.trans hfront.symm.subperm)
        (fun _ _ hk => hk) rfl
    · rename_i e he
      split
      · have hkept :=
            (h.touch he 0).moved (S := c.small) (M := slots ++ (back ++ [key])) fun k _ => by
          simp only [cons_append, mem_cons, mem_append, not_mem_nil, or_false]
          tauto
        have hmoved :
            c.small ++ (slots ++ (back ++ [key])) ~ c.small ++ (key :: slots ++ back) := by
          refine Perm.append_left c.small ?_
          rw [← append_assoc]
          exact perm_append_singleton key _
        obtain ⟨hev, hsmall⟩ := ih (back ++ [key]) (c.resetFreq key e) hkept
        refine ⟨⟨hev.kept, hev.limit, fun hnodup => ?_⟩, hsmall⟩
        exact (hev.trims (hmoved.nodup_iff.mpr hnodup)).trans hmoved.subperm
          (fun _ _ hk => mem_resetFreq hk) rfl
      · have hkept := h.drop_slot he (S := c.small) (M := slots ++ back) fun k hk => by simp [hk]
        refine ⟨⟨hkept.of_entries rfl rfl, rfl, fun hnodup => ?_⟩, rfl⟩
        have hrest := nodup_cons.mp (hfront.nodup_iff.mp hnodup)
        refine ⟨(sublist_cons_self ..).subperm.trans hfront.symm.subperm,
          fun k hk hin => mem_drop e.size ?_ hin, rfl⟩
        rintro rfl
        exact hrest.1 hk

/-- A further step of the eviction. -/
theorem Evicted.trans {c c' : MemCache V} {slots : List Bytes} {b : Bool} {r : Bool × MemCache V}
    (h : Evicted c slots (b, c')) (h' : Evicted c' c'.queue r) : Evicted c slots r := by
  refine ⟨h'.kept, h'.limit.trans h.limit, fun hnodup => ?_⟩
  have htrims := h.trims hnodup
  exact (h'.trims (htrims.once hnodup)).trans htrims.fewer htrims.live htrims.stale

/-- If nothing is evicted, the queues are empty. -/
theorem evictOne_kept {c : MemCache V} (h : Kept c.small c.main c) :
    Evicted c c.queue c.evictOne ∧ (c.evictOne.1 = false → c.evictOne.2.queue = []) := by
  obtain ⟨hsmall, hempty⟩ := evictSmall_kept c.small c h
  rw [evictOne]
  generalize evictSmall c.small c = r₁ at hsmall hempty ⊢
  obtain ⟨_ | _, c₁⟩ := r₁
  · have hempty : c₁.small = [] := hempty rfl
    have hkept : Kept c₁.small (c₁.main ++ []) c₁ := by simpa using hsmall.kept
    obtain ⟨hfirst, hsame⟩ := evictMain_kept c₁.main [] c₁ hkept
    have hcold := cold_evictMain c₁.main [] c₁ (forall_mem_nil _)
    rw [append_nil] at hfirst
    dsimp only
    generalize evictMain c₁.main [] c₁ = r₂ at hfirst hsame hcold ⊢
    obtain ⟨_ | _, c₂⟩ := r₂
    · have hkept₂ : Kept c₂.small (c₂.main ++ []) c₂ := by simpa using hfirst.kept
      obtain ⟨hsecond, -⟩ := evictMain_kept c₂.main [] c₂ hkept₂
      rw [append_nil] at hsecond
      refine ⟨(hsmall.trans hfirst).trans hsecond, fun hnone => ?_⟩
      have hmain : c₂.main = [] := evictMain_cold (hcold rfl) hnone
      have hsmall : c₂.small = [] := hsame.trans hempty
      simp [hmain, evictMain, MemCache.queue, hsmall]
    · exact ⟨hsmall.trans hfirst, by simp⟩
  · exact ⟨hsmall, by simp⟩

/-- A cache without slots is empty. -/
theorem Kept.empty {c : MemCache V} (h : Kept c.small c.main c) (hslots : c.queue = []) :
    c.currentBytes = 0 := by
  obtain ⟨hsmall, hmain⟩ := append_eq_nil_iff.mp hslots
  have hentries : c.entries = ∅ := by
    refine ExtTreeMap.eq_empty_iff_forall_not_mem.mpr fun k hk => ?_
    have hslot := h.slotted k hk
    rw [hsmall, hmain] at hslot
    simp at hslot
  rw [h.bytes, hentries, total_empty]

/-- The books are in order: the bytes are counted and within the limit, every entry has a slot. -/
structure InOrder (limit : Nat) (c : MemCache V) : Prop where
  kept : Kept c.small c.main c
  within : c.currentBytes ≤ limit
  limit : c.maxBytes = limit

theorem evictRounds_inOrder (n : Nat) (c : MemCache V) (h : Kept c.small c.main c)
    (hn : c.entries.size < n) :
    InOrder c.maxBytes (evictRounds n c) ∧ (c.queue.Nodup → Trims c.queue c (evictRounds n c)) := by
  induction n generalizing c with
  | zero => exact absurd hn (Nat.not_lt_zero _)
  | succ n ih =>
    rw [evictRounds]
    split
    · obtain ⟨hev, hnone⟩ := evictOne_kept h
      have hshrinks := (shrinks_evictOne c).2
      dsimp only
      generalize c.evictOne = r at hev hnone hshrinks ⊢
      obtain ⟨_ | _, c'⟩ := r
      · -- nothing is left
        have hbytes := hev.kept.empty (hnone rfl)
        exact ⟨⟨hev.kept, hbytes.le.trans (Nat.zero_le _), hev.limit⟩, hev.trims⟩
      · obtain ⟨hin, htrims⟩ := ih c' hev.kept ((hshrinks rfl).trans_le (Nat.le_of_lt_succ hn))
        rw [show c'.maxBytes = c.maxBytes from hev.limit] at hin
        refine ⟨hin, fun hnodup => ?_⟩
        have hfirst := hev.trims hnodup
        exact (htrims (hfirst.once hnodup)).trans hfirst.fewer hfirst.live hfirst.stale
    · exact ⟨⟨h, by omega, rfl⟩, fun _ => .refl rfl rfl rfl⟩

theorem evictToLimit_inOrder {c : MemCache V} (h : Kept c.small c.main c) :
    InOrder c.maxBytes c.evictToLimit ∧ (c.queue.Nodup → Trims c.queue c c.evictToLimit) :=
  evictRounds_inOrder _ c h (Nat.lt_succ_self _)

/-! ### Operations -/

section operations
variable {limit : Nat} {c : MemCache V}

theorem InOrder.compactQueues (h : InOrder limit c) : InOrder limit c.compactQueues := by
  refine ⟨⟨h.kept.bytes, fun k hk => ?_⟩, h.within, h.limit⟩
  have hmem : c.entries.contains k = true := hk
  exact (h.kept.slotted k hk).imp (fun hs => mem_filter.mpr ⟨hs, hmem⟩) fun hm =>
    mem_filter.mpr ⟨hm, hmem⟩

/-- Slots may be counted as stale, and swept. -/
theorem InOrder.stale (h : InOrder limit c) (n : Nat) (full : Prop) [Decidable full] :
    InOrder limit (if full then { c with staleSlots := n }.compactQueues
        else { c with staleSlots := n }) := by
  have hcounted : InOrder limit { c with staleSlots := n } :=
    ⟨h.kept.of_entries rfl rfl, h.within, h.limit⟩
  split
  · exact hcounted.compactQueues
  · exact hcounted

theorem InOrder.drop (h : InOrder limit c) {key : Bytes} {e : CacheEntry V}
    (he : c.entries[key]? = some e) :
    InOrder limit (c.drop key e.size) :=
  ⟨h.kept.drop he, (Nat.sub_le _ _).trans h.within, h.limit⟩

theorem InOrder.update (h : InOrder limit c) {key : Bytes} {old : CacheEntry V}
    (hold : c.entries[key]? = some old)
    (d : Cached V) (metaSize : Nat) :
    InOrder limit (c.update key d metaSize old)
      ∧ (c.queue.Nodup → Trims c.queue c (c.update key d metaSize old)) := by
  let e : CacheEntry V :=
    ⟨d.value, d.expiresAtMs, d.metadata, 1, entrySize key d.value metaSize, d.revision⟩
  let c' :=
    { c with entries := c.entries.insert key e, currentBytes := c.currentBytes - old.size + e.size }
  have hkept : Kept c'.small c'.main c' := h.kept.put hold rfl rfl
  obtain ⟨hin, htrims⟩ := evictToLimit_inOrder hkept
  refine ⟨h.limit ▸ hin,
    fun hnodup => (htrims hnodup).trans (Subperm.refl _) (fun k _ hk => ?_) rfl⟩
  exact ExtTreeMap.mem_insert.mpr (.inr hk)

theorem InOrder.discard (h : InOrder limit c) (p : Bytes → CacheEntry V → Bool) :
    InOrder limit (c.discard p).2 := by
  rw [MemCache.discard]
  dsimp only
  split
  · exact h
  · have htotal := total_filter (w := CacheEntry.size) (m := c.entries) p
    have hbytes := h.kept.bytes
    refine InOrder.stale (c := { c with
      entries := c.entries.filter fun key e => !p key e
      currentBytes := c.currentBytes - total CacheEntry.size (c.entries.filter p) })
        ⟨⟨?_, fun k hk => ?_⟩, ?_, h.limit⟩ _ _
    · dsimp only
      omega
    · exact h.kept.slotted k (ExtTreeMap.mem_of_mem_filter hk)
    · exact (Nat.sub_le _ _).trans h.within

/-- A new entry, in front of the eviction. -/
theorem Kept.fresh {small main : List Bytes} (h : Kept small main c) {key : Bytes}
    (hnone : c.entries[key]? = none)
    {e : CacheEntry V} {S M : List Bytes} {c' : MemCache V}
    (hentries : c'.entries = c.entries.insert key e)
    (hbytes : c'.currentBytes = c.currentBytes + e.size)
    (hmove : ∀ k, k = key ∨ k ∈ small ∨ k ∈ main → k ∈ S ∨ k ∈ M) : Kept S M c' := by
  refine ⟨?_, fun k hk => hmove k ?_⟩
  · rw [hentries, total_insert, erase_of_none hnone, hbytes, h.bytes, Nat.add_comm]
  · rw [hentries, ExtTreeMap.mem_insert, Std.LawfulEqCmp.compare_eq_iff_eq] at hk
    exact hk.imp Eq.symm (h.slotted k)

section fresh
variable {c' : MemCache V} {key : Bytes} {e : CacheEntry V}
  (hslots : c'.small = c.small ∧ c'.main = c.main ++ [key]
    ∨ c'.small = c.small ++ [key] ∧ c'.main = c.main)
include hslots

theorem queue_fresh : c'.queue ~ key :: c.queue := by
  obtain ⟨hs, hm⟩ | ⟨hs, hm⟩ := hslots
  · rw [MemCache.queue, hs, hm, ← append_assoc]
    exact perm_append_singleton key _
  · rw [MemCache.queue, hs, hm, append_assoc]
    exact perm_middle

theorem Kept.fresh_slot (h : Kept c.small c.main c) (hnone : c.entries[key]? = none)
    (hentries : c'.entries = c.entries.insert key e)
    (hbytes : c'.currentBytes = c.currentBytes + e.size) : Kept c'.small c'.main c' := by
  refine h.fresh hnone hentries hbytes fun k hk => ?_
  obtain ⟨hs, hm⟩ | ⟨hs, hm⟩ :=
    hslots <;> rw [hs, hm] <;> simp only [mem_append, mem_singleton] <;> tauto

/-- A cache with a new entry that evicts. -/
theorem InOrder.fresh (h : InOrder limit c) (hnone : c.entries[key]? = none)
    (hentries : c'.entries = c.entries.insert key e)
    (hbytes : c'.currentBytes = c.currentBytes + e.size) (hlimit : c'.maxBytes = c.maxBytes) :
    InOrder limit c'.evictToLimit :=
  h.limit ▸ hlimit ▸ (evictToLimit_inOrder (h.kept.fresh_slot hslots hnone hentries hbytes)).1

end fresh

/-- Every operation keeps the books in order. -/
theorem InOrder.apply (h : InOrder limit c) (op : Op V) : InOrder limit (op.apply c) := by
  cases op with
  | get key nowMs =>
    rw [Op.apply, MemCache.get]
    split
    · exact h
    · rename_i e he
      split
      · exact h.drop he
      · exact ⟨h.kept.touch he 1, h.within, h.limit⟩
  | tryUpdate key d metaSize =>
    rw [Op.apply, MemCache.tryUpdate]
    split
    · exact h
    · rename_i old hold
      exact (h.update hold d metaSize).1
  | insert key d metaSize =>
    rw [Op.apply, MemCache.insert]
    split
    · rename_i old hold
      exact (h.update hold d metaSize).1
    · rename_i hnone
      let e : CacheEntry V :=
        ⟨d.value, d.expiresAtMs, d.metadata, 0, entrySize key d.value metaSize, d.revision⟩
      dsimp only
      split
      · exact InOrder.fresh (c := c) (e := e) (.inl ⟨rfl, rfl⟩) h hnone rfl rfl rfl
      · exact InOrder.fresh (c := c) (e := e) (.inr ⟨rfl, rfl⟩) h hnone rfl rfl rfl
  | remove key =>
    rw [Op.apply, MemCache.remove]
    split
    · exact h
    · rename_i e he
      exact (h.drop he).stale _ _
  | removeByPrefix start => exact h.discard _
  | sweepExpired nowMs => exact h.discard _

end operations

/-! ## The books of a run -/

theorem inOrder_new (maxBytes : Nat) : InOrder maxBytes (new maxBytes : MemCache V) :=
  ⟨⟨total_empty.symm, fun _ hkey => absurd hkey ExtTreeMap.not_mem_empty⟩, Nat.zero_le _, rfl⟩

theorem inOrder_runOps (maxBytes : Nat) (ops : List (Op V)) :
    InOrder maxBytes (runOps ops (new maxBytes)) := by
  induction ops using List.reverseRecOn with
  | nil => exact inOrder_new maxBytes
  | append_singleton ops op ih =>
    rw [runOps, foldl_append]
    exact ih.apply op

/-- After every run of operations the bytes are those of the entries and within the limit, and
every entry has a slot; and the eviction loop returns, whatever it is given. -/
theorem cache_accounting (maxBytes : Nat) (ops : List (Op V)) :
    (runOps ops (new maxBytes)).currentBytes
    = total CacheEntry.size (runOps ops (new maxBytes)).entries
      ∧ (runOps ops (new maxBytes)).currentBytes ≤ maxBytes
      ∧ (∀ key ∈ (runOps ops (new maxBytes)).entries,
          key ∈ (runOps ops (new maxBytes)).small ∨ key ∈ (runOps ops (new maxBytes)).main)
      ∧ ∀ c : MemCache V, ∃ n, ∀ m ≥ n, evictLoop m c = some c.evictToLimit := by
  have h := inOrder_runOps maxBytes ops
  exact ⟨h.kept.bytes, h.within, h.kept.slotted, evictLoop_returns⟩

/-! ## The slots of a run -/

/-- The slots of keys that are not there. -/
def dead (c : MemCache V) : Nat := c.queue.countP fun k => !c.entries.contains k

/-- Every key has one slot at most, and the dead ones are counted and few. -/
structure Tidy (n : Nat) (c : MemCache V) : Prop where
  once : c.queue.Nodup
  counted : c.dead ≤ c.staleSlots
  few : c.dead ≤ n

section tidy
variable {n : Nat} {c c' : MemCache V}

theorem countP_le_add {α : Type} {p q r : α → Bool} {l : List α}
    (h : ∀ a ∈ l, p a = true → q a = true ∨ r a = true) : l.countP p ≤ l.countP q + l.countP r := by
  induction l with
  | nil => exact Nat.le_refl _
  | cons a l ih =>
    have hrest := ih fun b hb => h b (mem_cons_of_mem a hb)
    have hfirst := h a mem_cons_self
    simp only [countP_cons]
    split_ifs <;> first | omega | simp_all

theorem countP_contains_le {α : Type} {slots : List Bytes} (h : slots.Nodup)
    (m : ExtTreeMap Bytes α) :
    slots.countP (fun k => m.contains k) ≤ m.size := by
  rw [countP_eq_length_filter, ← ExtTreeMap.length_keys]
  refine (subperm_of_subset (h.filter _) fun k hk => ?_).length_le
  exact ExtTreeMap.mem_keys.mpr (of_mem_filter hk)

theorem length_queue_le (h : c.queue.Nodup) : c.queue.length ≤ c.entries.size + c.dead := by
  rw [length_eq_countP_add_countP fun k => c.entries.contains k]
  refine Nat.add_le_add (countP_contains_le h c.entries) (countP_mono_left fun k _ hk => ?_)
  simpa [← ExtTreeMap.contains_iff_mem] using hk

/-- The dead slots afterwards are dead before. -/
theorem Tidy.trims (h : Tidy n c) (htrims : Trims c.queue c c') : Tidy n c' := by
  have hdead : c'.dead ≤ c.dead := by
    calc c'.queue.countP (fun k => !c'.entries.contains k)
        ≤ c'.queue.countP (fun k => !c.entries.contains k) := by
          refine countP_mono_left fun k hk hgone => ?_
          rw [Bool.not_eq_true'] at hgone ⊢
          by_contra hin
          rw [Bool.not_eq_false] at hin
          rw [show c'.entries.contains k = true from htrims.live k hk hin] at hgone
          cases hgone
      _ ≤ c.dead := htrims.fewer.countP_le _
  exact ⟨htrims.once h.once, htrims.stale ▸ hdead.trans h.counted, hdead.trans h.few⟩

/-- Counted slots are swept once they dominate the queues, and so there are not more of them than
entries. -/
theorem tidy_swept (honce : c.queue.Nodup) (hcounted : c.dead ≤ c.staleSlots)
    (hn : c.entries.size ≤ n) :
    Tidy n (if c.staleSlots > (c.small.length + c.main.length) / 2
        then c.compactQueues else c) := by
  split
  · have hqueue : c.compactQueues.queue = c.queue.filter fun k => c.entries.contains k :=
      (filter_append ..).symm
    have hdead : c.compactQueues.dead = 0 := by
      rw [dead, hqueue, countP_eq_zero]
      intro k hk
      simpa [MemCache.compactQueues] using of_mem_filter hk
    exact ⟨hqueue ▸ honce.filter _, hdead.le.trans (Nat.zero_le _), hdead.le.trans (Nat.zero_le _)⟩
  · rename_i hstale
    have hlength := length_queue_le honce
    rw [MemCache.queue, length_append] at hlength
    exact ⟨honce, hcounted, by omega⟩

theorem Tidy.discard (h : Tidy n c) (p : Bytes → CacheEntry V → Bool)
    (hn : (c.discard p).2.entries.size ≤ n) : Tidy n (c.discard p).2 := by
  rw [MemCache.discard] at hn ⊢
  dsimp only at hn ⊢
  split at hn
  · rename_i hnone
    rw [if_pos hnone]
    exact h
  rename_i hsome
  rw [if_neg hsome]
  refine tidy_swept (c := { c with
    entries := c.entries.filter fun key e => !p key e
    currentBytes := c.currentBytes - total CacheEntry.size (c.entries.filter p)
    staleSlots := c.staleSlots + (c.entries.filter p).size }) h.once ?_ ?_
  · -- a slot is dead now if it was before, or if its entry has gone
    have hgone := countP_contains_le h.once (c.entries.filter p)
    have hdead : c.queue.countP (fun k => !(c.entries.filter fun key e => !p key e).contains k)
        ≤ c.dead + c.queue.countP (fun k => (c.entries.filter p).contains k) := by
      refine countP_le_add fun k _ hk => ?_
      simp only [ExtTreeMap.contains_eq_isSome_getElem?, ExtTreeMap.getElem?_filter'] at hk ⊢
      cases hget : c.entries[k]? with
      | none => exact .inl rfl
      | some e => cases hp : p k e <;> simp_all
    exact hdead.trans (Nat.add_le_add h.counted hgone)
  · split at hn <;> exact hn

theorem Tidy.remove (h : Tidy n c) (key : Bytes) (hn : (c.remove key).entries.size ≤ n) :
    Tidy n (c.remove key) := by
  rw [MemCache.remove] at hn ⊢
  cases hget : c.entries[key]? with
  | none => exact h
  | some e =>
    rw [hget] at hn
    dsimp only at hn ⊢
    refine tidy_swept (c := { c.drop key e.size with staleSlots := c.staleSlots + 1 }) h.once ?_ ?_
    · have hone : c.queue.countP (· == key) ≤ 1 := nodup_iff_count_le_one.mp h.once key
      have hdead : c.queue.countP (fun k => !(c.entries.erase key).contains k)
          ≤ c.dead + c.queue.countP (· == key) := by
        refine countP_le_add fun k _ hk => ?_
        by_cases hkey : key = k
        · exact .inr (beq_iff_eq.mpr hkey.symm)
        · exact .inl (by simpa [ExtTreeMap.contains_erase, hkey] using hk)
      exact hdead.trans (Nat.add_le_add h.counted hone)
    · split at hn <;> exact hn

/-- A key that has no slot gets one. -/
theorem Tidy.fresh (h : Tidy n c) {limit : Nat} (hin : InOrder limit c) {key : Bytes}
    (hnone : c.entries[key]? = none) (hslot : key ∉ c.queue) {e : CacheEntry V}
    (hentries : c'.entries = c.entries.insert key e)
    (hbytes : c'.currentBytes = c.currentBytes + e.size) (hstale : c'.staleSlots = c.staleSlots)
    (hslots : c'.small = c.small ∧ c'.main = c.main ++ [key]
      ∨ c'.small = c.small ++ [key] ∧ c'.main = c.main) : Tidy n c'.evictToLimit := by
  have hqueue : c'.queue ~ key :: c.queue := queue_fresh hslots
  have hkept := hin.kept.fresh_slot hslots hnone hentries hbytes
  have hdead : c'.dead = c.dead := by
    rw [dead, hqueue.countP_eq, hentries, countP_cons_of_neg (by simp)]
    refine countP_congr fun k hk => ?_
    have hne : key ≠ k := fun heq => hslot (heq ▸ hk)
    simp [ExtTreeMap.contains_insert, hne]
  have hold : Tidy n c' := ⟨hqueue.nodup_iff.mpr (nodup_cons.mpr ⟨hslot, h.once⟩),
    by rw [hdead, hstale]; exact h.counted, hdead ▸ h.few⟩
  exact hold.trims ((evictToLimit_inOrder hkept).2 hold.once)

/-- No lookup meets an expired entry, and no key comes back while a slot of it is left. -/
def Op.Sound (c : MemCache V) : Op V → Prop
  | .get key nowMs =>
    ∀ e, c.entries[key]? = some e → e.expiresAtMs.any (fun ms => ms ≤ nowMs) = false
  | .insert key _ _ => c.entries[key]? = none → key ∉ c.queue
  | _ => True

theorem Tidy.apply (h : Tidy n c) {limit : Nat} (hin : InOrder limit c) {op : Op V}
    (hop : op.Sound c)
    (hn : (op.apply c).entries.size ≤ n) : Tidy n (op.apply c) := by
  cases op with
  | get key nowMs =>
    rw [Op.apply, MemCache.get]
    split
    · exact h
    · rename_i e he
      rw [if_neg (Bool.eq_false_iff.mp (hop e he))]
      exact h.trims ⟨Subperm.refl _, fun k _ hk => ExtTreeMap.mem_insert.mpr (.inr hk), rfl⟩
  | tryUpdate key d metaSize =>
    rw [Op.apply, MemCache.tryUpdate]
    split
    · exact h
    · rename_i old hold
      exact h.trims ((hin.update hold d metaSize).2 h.once)
  | insert key d metaSize =>
    rw [Op.apply, MemCache.insert]
    split
    · rename_i old hold
      exact h.trims ((hin.update hold d metaSize).2 h.once)
    · rename_i hnone
      let e : CacheEntry V :=
        ⟨d.value, d.expiresAtMs, d.metadata, 0, entrySize key d.value metaSize, d.revision⟩
      dsimp only
      split
      · exact h.fresh hin (e := e) hnone (hop hnone) rfl rfl rfl (.inl ⟨rfl, rfl⟩)
      · exact h.fresh hin (e := e) hnone (hop hnone) rfl rfl rfl (.inr ⟨rfl, rfl⟩)
  | remove key => exact h.remove key hn
  | removeByPrefix start => exact h.discard _ hn
  | sweepExpired nowMs => exact h.discard _ hn

end tidy

theorem tidy_new (maxBytes n : Nat) : Tidy n (new maxBytes : MemCache V) :=
  ⟨nodup_nil, Nat.le_refl _, Nat.zero_le _⟩

/-- In a run whose operations are all `Sound` and that never holds more than `n` entries, the queues
never hold more than `2 * n + 2` slots. -/
theorem queue_slots_bounded (maxBytes n : Nat) {ops : List (Op V)}
    (hsound : ∀ done op, done ++ [op] <+: ops → op.Sound (runOps done (new maxBytes)))
    (hfew : ∀ done, done <+: ops → (runOps done (new maxBytes)).entries.size ≤ n)
    {done : List (Op V)} (hdone : done <+: ops) :
    (runOps done (new maxBytes)).small.length + (runOps done (new maxBytes)).main.length
      ≤ 2 * n + 2 := by
  have htidy : Tidy n (runOps done (new maxBytes)) := by
    induction done using List.reverseRecOn with
    | nil => exact tidy_new maxBytes n
    | append_singleton done op ih =>
      have hstep : runOps (done ++ [op]) (new maxBytes) = op.apply (runOps done (new maxBytes)) :=
        foldl_append
      have hn := hfew _ hdone
      rw [hstep] at hn ⊢
      exact (ih ((prefix_append done [op]).trans hdone)).apply (inOrder_runOps maxBytes done)
        (hsound done op hdone) hn
  have hlength := length_queue_le htidy.once
  have hdead := htidy.few
  have hn := hfew done hdone
  rw [MemCache.queue, length_append] at hlength
  omega

instance (c : MemCache V) : (op : Op V) → Decidable (op.Sound c)
  | .get key _ => inferInstanceAs (Decidable (∀ e, c.entries[key]? = some e → _))
  | .insert key _ _ => inferInstanceAs (Decidable (c.entries[key]? = none → key ∉ c.queue))
  | .tryUpdate .. | .remove _ | .removeByPrefix _ | .sweepExpired _ =>
    inferInstanceAs (Decidable True)

/-- Three keys come, two of them go and their slots are swept, and one comes back. -/
def sweptOps : List (Op Unit) :=
  [.insert [97] ⟨[118], none, none, 1⟩ 0, .insert [98] ⟨[118], none, none, 2⟩ 0,
    .insert [99] ⟨[118], none, none, 3⟩ 0, .remove [97], .remove [98],
    .insert [97] ⟨[118], none, none, 4⟩ 0]

theorem queue_slots_bounded_swept :
    (runOps sweptOps (new 1000)).small.length + (runOps sweptOps (new 1000)).main.length
      ≤ 2 * 3 + 2 := by
  have hsound : ∀ i < 6, ∀ op, sweptOps[i]? = some op →
      op.Sound (runOps (sweptOps.take i) (new 1000)) := by decide +kernel
  have hfew : ∀ i < 7, (runOps (sweptOps.take i) (new 1000)).entries.size ≤ 3 := by decide +kernel
  have htake {done : List (Op Unit)} (h : done <+: sweptOps) :
      sweptOps.take done.length = done ∧ done.length ≤ 6 :=
    ⟨(prefix_iff_eq_take.mp h).symm, h.length_le⟩
  refine queue_slots_bounded 1000 3 (fun done op h => ?_) (fun done h => ?_) (List.prefix_refl _)
  · obtain ⟨htaken, -⟩ := htake ((prefix_append done [op]).trans h)
    obtain ⟨rest, hrest⟩ := h
    have hop : sweptOps[done.length]? = some op := by simp [← hrest]
    have hlt : done.length < 6 := (List.getElem?_eq_some_iff.mp hop).1
    exact htaken ▸ hsound _ hlt op hop
  · obtain ⟨htaken, hle⟩ := htake h
    exact htaken ▸ hfew _ (Nat.lt_succ_of_le hle)

/-- A key that expires and is looked up and set again, five times: one entry at a time, and five
slots. -/
theorem expired_key_leaves_slots :
    (∀ k ≤ 10,
      (runOps
      ((List.replicate 5 [Op.insert [107] ⟨[118], some 1, none, 1⟩ 0, .get [107] 1]).flatten.take k)
        (new 1000 : MemCache Unit)).entries.size ≤ 1)
      ∧
      (runOps (List.replicate 5 [Op.insert [107] ⟨[118], some 1, none, 1⟩ 0, .get [107] 1]).flatten
        (new 1000 : MemCache Unit)).queue.length = 5 := by
  decide +kernel

end MemCache

end BeyondKv
