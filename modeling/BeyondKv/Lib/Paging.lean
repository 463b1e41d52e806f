/-
# Listings in pages

A listing is asked for page by page: a request with a cursor returns some keys and the cursor
of the next page, or none at the end. What the requests meet may change from one to the next.

`keyPage` is the page of an ordered set of keys after a key, the last key of a full page being
the next cursor. Since a cursor is a key and no position, a listing is strictly increasing
whatever happens between the pages (`Walk.sorted`), finds what is there all the time
(`Walk.mem`), and ends if there are only finitely many keys to come (`ends_of_subset`).
`fanPage` lists several sources one after the other.
-/
import Mathlib

namespace Paging

open List

/-! ## Following the cursors -/

section walks
variable {σ C K : Type*} {page : σ → C → List K × Option C} {c : C} {f : Nat → σ}

/-- From a cursor to the end: what the requests meet, and the pages. -/
inductive Walk (page : σ → C → List K × Option C) : C → List σ → List (List K) → Prop where
  | last {s : σ} {c : C} {ks : List K} (h : page s c = (ks, none)) : Walk page c [s] [ks]
  | more {s : σ} {c c' : C} {ks : List K} {ss : List σ} {pages : List (List K)}
      (h : page s c = (ks, some c'))
      (rest : Walk page c' ss pages) : Walk page c (s :: ss) (ks :: pages)

/-- The pages depend on what the first cursor gives. -/
theorem Walk.of_start {c d : C} {ss : List σ} {pages : List (List K)} (h : Walk page c ss pages)
    (hstart : ∀ s, page s c = page s d) : Walk page d ss pages := by
  cases h with
  | last hlast => exact .last (hstart _ ▸ hlast)
  | more hmore rest => exact .more (hstart _ ▸ hmore) rest

/-- The requests meet `f 0`, `f 1` and so on, and the end is reached with these keys. -/
def Ends (page : σ → C → List K × Option C) (f : Nat → σ) (c : C) (keys : List K) : Prop :=
  ∃ n pages, Walk page c ((List.range n).map f) pages ∧ pages.flatten = keys

theorem ends_last {ks : List K} (h : page (f 0) c = (ks, none)) : Ends page f c ks :=
  ⟨1, [ks], .last h, by simp⟩

theorem ends_more {c' : C} {ks keys : List K} (h : page (f 0) c = (ks, some c'))
    (hrest : Ends page (fun i => f (i + 1)) c' keys) : Ends page f c (ks ++ keys) := by
  obtain ⟨n, pages, hwalk, rfl⟩ := hrest
  refine ⟨n + 1, ks :: pages, ?_, rfl⟩
  rw [range_succ_eq_map, map_cons, map_map]
  exact .more h hwalk

/-- A pager that never says so does not come to an end. -/
theorem not_ends {keys : List K} (h : ∀ s c, (page s c).2 ≠ none) : ¬ Ends page f c keys := by
  rintro ⟨n, pages, hwalk, -⟩
  generalize (List.range n).map f = ss at hwalk
  induction hwalk with
  | last hlast => exact h _ _ (congrArg Prod.snd hlast)
  | more _ _ ih => exact ih

/-- What the requests meet decides the pages. -/
theorem Walk.unique {ss ss' all : List σ} {pages pages' : List (List K)} (h : Walk page c ss pages)
    (h' : Walk page c ss' pages') (hss : ss <+: all) (hss' : ss' <+: all) : pages = pages' := by
  induction h generalizing ss' all pages' with
  | last hlast =>
    obtain ⟨rest, rfl⟩ := hss
    cases h' with
    | last hlast' =>
      obtain ⟨rfl, -⟩ := List.cons_prefix_cons.mp hss'
      rw [hlast] at hlast'
      cases hlast'
      rfl
    | more hmore' _ =>
      obtain ⟨rfl, -⟩ := List.cons_prefix_cons.mp hss'
      rw [hlast] at hmore'
      cases hmore'
  | more hmore _ ih =>
    obtain ⟨rest, rfl⟩ := hss
    cases h' with
    | last hlast' =>
      obtain ⟨rfl, -⟩ := List.cons_prefix_cons.mp hss'
      rw [hmore] at hlast'
      cases hlast'
    | more hmore' hrest' =>
      obtain ⟨rfl, hpre⟩ := List.cons_prefix_cons.mp hss'
      rw [hmore] at hmore'
      cases hmore'
      rw [ih hrest' (List.prefix_append _ rest) hpre]

theorem Ends.unique {keys keys' : List K} (h : Ends page f c keys) (h' : Ends page f c keys') :
    keys = keys' := by
  obtain ⟨m, pages, hwalk, rfl⟩ := h
  obtain ⟨n, pages', hwalk', rfl⟩ := h'
  have hpre : ∀ l ≤ max m n, (List.range l).map f <+: (List.range (max m n)).map f := by
    intro l hl
    refine List.IsPrefix.map f ?_
    rw [List.prefix_iff_eq_take, length_range, take_range, Nat.min_eq_left hl]
  rw [hwalk.unique hwalk' (hpre m (Nat.le_max_left m n)) (hpre n (Nat.le_max_right m n))]

end walks

/-! ## Pages under other cursors -/

section refinement
variable {σ τ C D K L : Type*}

/-- A pager whose cursors are codes of another one's: it meets `g` of what the other one meets, and
names the keys. `Q` says which cursors can be coded. -/
structure Refines (page : σ → D → List L × Option D) (spec : τ → C → List K × Option C)
    (g : σ → τ) (enc : C → D)
    (name : K → L) (Q : C → Prop) : Prop where
  step : ∀ s c, Q c → page s (enc c) = ((spec (g s) c).1.map name, (spec (g s) c).2.map enc)
  next : ∀ s c c', Q c → (spec (g s) c).2 = some c' → Q c'

namespace Refines
variable {page : σ → D → List L × Option D} {spec : τ → C → List K × Option C} {g : σ → τ}
  {enc : C → D} {name : K → L}
  {Q : C → Prop}

theorem walk_of_spec (R : Refines page spec g enc name Q) {c : C} (hc : Q c) {ss : List σ}
    {pages : List (List K)}
    (h : Walk spec c (ss.map g) pages) : Walk page (enc c) ss (pages.map (List.map name)) := by
  induction ss generalizing c pages with
  | nil => cases h
  | cons s ss ih =>
    rw [map_cons] at h
    generalize hss : ss.map g = ss' at h
    cases h with
    | last hlast =>
      obtain rfl := map_eq_nil_iff.mp hss
      refine .last ?_
      rw [R.step s c hc, hlast]
      rfl
    | more hmore rest =>
      refine .more ?_ (ih (R.next s c _ hc (congrArg Prod.snd hmore)) (hss ▸ rest))
      rw [R.step s c hc, hmore]
      rfl

theorem walk_spec (R : Refines page spec g enc name Q) {c : C} (hc : Q c) {ss : List σ}
    {pages' : List (List L)}
    (h : Walk page (enc c) ss pages') :
    ∃ pages, Walk spec c (ss.map g) pages ∧ pages' = pages.map (List.map name) := by
  generalize hd : enc c = d at h
  induction h generalizing c with
  | @last s d ks hlast =>
    rw [← hd, R.step s c hc] at hlast
    obtain ⟨rfl, hnone⟩ := Prod.mk.inj hlast
    exact ⟨[(spec (g s) c).1], .last (Prod.ext rfl (Option.map_eq_none_iff.mp hnone)), rfl⟩
  | @more s d d' ks ss pages hmore rest ih =>
    rw [← hd, R.step s c hc] at hmore
    obtain ⟨rfl, hsome⟩ := Prod.mk.inj hmore
    obtain ⟨c', hc', henc⟩ := Option.map_eq_some_iff.mp hsome
    obtain ⟨pages, hwalk, rfl⟩ := ih (R.next s c c' hc hc') henc
    exact ⟨(spec (g s) c).1 :: pages, .more (Prod.ext rfl hc') hwalk, rfl⟩

theorem ends_iff (R : Refines page spec g enc name Q) {c : C} (hc : Q c) {f : Nat → σ}
    {keys' : List L} :
    Ends page f (enc c) keys' ↔ ∃ keys, Ends spec (fun i => g (f i)) c keys
        ∧ keys' = keys.map name := by
  constructor
  · rintro ⟨n, pages', hwalk, rfl⟩
    obtain ⟨pages, hspec, rfl⟩ := R.walk_spec hc hwalk
    rw [map_map] at hspec
    exact ⟨pages.flatten, ⟨n, pages, hspec, rfl⟩, by rw [map_flatten]⟩
  · rintro ⟨keys, ⟨n, pages, hwalk, rfl⟩, rfl⟩
    refine ⟨n, pages.map (List.map name), R.walk_of_spec hc ?_, by rw [map_flatten]⟩
    rwa [map_map]

end Refines

end refinement

/-! ## Pages of ordered keys -/

section keys
variable {K : Type*} [Ord K] {s : List K × Nat} {ks : List K}

/-- Strictly after a bound, if there is one. -/
def above : Option K → K → Bool
  | none, _ => true
  | some b, k => compare b k == .lt

abbrev Sorted (keys : List K) : Prop := keys.Pairwise fun a b => compare a b = .lt

/-- Up to `n` keys after the bound, one at least; the last one of a full page is the next bound. -/
def keyPage (s : List K × Nat) (c : Option K) : List K × Option (Option K) :=
  let ks := (s.1.filter (above c)).take (max s.2 1)
  (ks, if max s.2 1 ≤ ks.length then ks.getLast?.map some else none)

/-- The next cursor is a key. -/
theorem keyPage_join (s : List K × Nat) (c : Option K) :
    (keyPage s c).2.join.map some = (keyPage s c).2 := by
  simp only [keyPage]
  split
  · cases (s.1.filter (above c)).take (max s.2 1) |>.getLast? <;> rfl
  · rfl

theorem keyPage_sub {c : Option K} {next : Option (Option K)}
    (h : keyPage s c = (ks, next)) : ∀ k ∈ ks, k ∈ s.1 ∧ above c k = true := by
  cases h
  intro k hk
  exact mem_filter.mp (mem_of_mem_take hk)

theorem keyPage_sorted {c : Option K} {next : Option (Option K)}
    (h : keyPage s c = (ks, next)) (hs : Sorted s.1) : Sorted ks := by
  cases h
  exact (hs.filter _).take

/-- The last page. -/
theorem keyPage_none {c : Option K} (h : keyPage s c = (ks, none)) : s.1.filter (above c) = ks := by
  obtain ⟨rfl, hnext⟩ := Prod.mk.inj h
  refine (take_of_length_le ?_).symm
  have hlen := length_take (i := max s.2 1) (l := s.1.filter (above c))
  split at hnext
  · rename_i hfull
    have hpos : 1 ≤ ((s.1.filter (above c)).take (max s.2 1)).length :=
      Nat.le_trans (Nat.le_max_right _ 1) hfull
    rw [Option.map_eq_none_iff, getLast?_eq_none_iff] at hnext
    rw [hnext] at hpos
    cases hpos
  · omega

variable [Std.TransOrd K]

theorem Sorted.nodup {keys : List K} (h : Sorted keys) : keys.Nodup := by
  refine List.Pairwise.imp ?_ h
  rintro a _ hlt rfl
  rw [Std.ReflOrd.compare_self] at hlt
  cases hlt

theorem above_trans {c : Option K} {l k : K} (hl : above c l = true) (hk : above (some l) k = true)
    : above c k = true := by
  cases c with
  | none => rfl
  | some b =>
    simp only [above, beq_iff_eq] at hl hk ⊢
    exact Std.TransCmp.lt_trans hl hk

theorem above_self (l : K) : above (some l) l = false := by
  simp only [above, Std.ReflOrd.compare_self]
  rfl

theorem filter_above_above {c : Option K} {l : K} (hl : above c l = true) (keys : List K) :
    (keys.filter (above c)).filter (above (some l)) = keys.filter (above (some l)) := by
  rw [filter_filter]
  refine filter_congr fun k _ => ?_
  cases hk : above (some l) k with
  | true => rw [above_trans hl hk]; rfl
  | false => rfl

/-- After the last key of a page comes what the page left out. -/
theorem filter_above_last {keys ys zs : List K} {c : Option K} {l : K} (hs : Sorted keys)
    (h : keys.filter (above c) = ys ++ l :: zs) : keys.filter (above (some l)) = zs := by
  have hsorted : Sorted (ys ++ l :: zs) := h ▸ hs.filter _
  have hl : above c l = true := (mem_filter.mp (h ▸ mem_append_right ys mem_cons_self)).2
  obtain ⟨-, hlz, hyl⟩ := pairwise_append.mp hsorted
  obtain ⟨hzs, -⟩ := pairwise_cons.mp hlz
  have hys : ys.filter (above (some l)) = [] := by
    refine filter_eq_nil_iff.mpr fun y hy hlt => ?_
    exact Std.OrientedCmp.not_lt_of_lt (hyl y hy l mem_cons_self) (beq_iff_eq.mp hlt)
  rw [← filter_above_above hl, h, filter_append, hys, nil_append,
    filter_cons_of_neg (by simp [above_self])]
  exact filter_eq_self.mpr fun z hz => beq_iff_eq.mpr (hzs z hz)

/-- A page with another one after it: its last key is the cursor, and parts the keys to come. -/
theorem keyPage_some {c c' : Option K} (h : keyPage s c = (ks, some c'))
    (hs : Sorted s.1) : ∃ ys l, c' = some l ∧ ks = ys ++ [l] ∧
      s.1.filter (above c) = ks ++ s.1.filter (above (some l)) := by
  obtain ⟨hks, hnext⟩ := Prod.mk.inj h
  split at hnext
  · obtain ⟨l, hlast, rfl⟩ := Option.map_eq_some_iff.mp hnext
    rw [hks] at hlast
    obtain ⟨ys, hys⟩ := getLast?_eq_some_iff.mp hlast
    have hall : s.1.filter (above c) = ys ++ l :: (s.1.filter (above c)).drop (max s.2 1) := by
      conv_lhs => rw [← take_append_drop (max s.2 1) (s.1.filter (above c)), hks, hys]
      simp
    refine ⟨ys, l, rfl, hys, ?_⟩
    rw [filter_above_last hs hall, ← hks, take_append_drop]
  · cases hnext

/-! ### Whatever happens between the pages -/

section walks
variable {c : Option K} {ss : List (List K × Nat)} {pages : List (List K)}

omit [Std.TransOrd K] in
theorem Walk.mem_page (h : Walk keyPage c ss pages) :
    List.Forall₂ (fun s ks => ∀ k ∈ ks, k ∈ s.1) ss pages := by
  induction h with
  | last hlast => exact .cons (fun k hk => (keyPage_sub hlast k hk).1) .nil
  | more hmore _ ih => exact .cons (fun k hk => (keyPage_sub hmore k hk).1) ih

omit [Std.TransOrd K] in
theorem Walk.mem_met {k : K} (h : Walk keyPage c ss pages) (hk : k ∈ pages.flatten) :
    ∃ s ∈ ss, k ∈ s.1 := by
  induction h with
  | @last s _ ks hlast =>
    rw [flatten_singleton] at hk
    exact ⟨s, mem_cons_self, (keyPage_sub hlast k hk).1⟩
  | @more s _ _ ks ss pages hmore _ ih =>
    obtain hk | hk := mem_append.mp hk
    · exact ⟨s, mem_cons_self, (keyPage_sub hmore k hk).1⟩
    · obtain ⟨s', hs', hk'⟩ := ih hk
      exact ⟨s', mem_cons_of_mem _ hs', hk'⟩

theorem Walk.sorted (h : Walk keyPage c ss pages) (hs : ∀ s ∈ ss, Sorted s.1) :
    Sorted pages.flatten ∧ ∀ k ∈ pages.flatten, above c k = true := by
  induction h with
  | last hlast =>
    simp only [flatten_cons, flatten_nil, append_nil]
    exact ⟨keyPage_sorted hlast (hs _ mem_cons_self), fun k hk => (keyPage_sub hlast k hk).2⟩
  | more hmore rest ih =>
    obtain ⟨hrest, habove⟩ := ih fun s hmem => hs s (mem_cons_of_mem _ hmem)
    have hks := keyPage_sorted hmore (hs _ mem_cons_self)
    obtain ⟨ys, l, rfl, rfl, -⟩ := keyPage_some hmore (hs _ mem_cons_self)
    have hl := (keyPage_sub hmore l (mem_append_right _ mem_cons_self)).2
    constructor
    · refine pairwise_append.mpr ⟨hks, hrest, fun a ha b hb => ?_⟩
      have hlb : compare l b = .lt := beq_iff_eq.mp (habove b hb)
      obtain ha | ha := mem_append.mp ha
      · exact Std.TransCmp.lt_trans ((pairwise_append.mp hks).2.2 a ha l mem_cons_self) hlb
      · rw [mem_singleton.mp ha]
        exact hlb
    · intro k hk
      obtain hk | hk := mem_append.mp hk
      · exact (keyPage_sub hmore k hk).2
      · exact above_trans hl (habove k hk)

/-- A key that is there all the time is found. -/
theorem Walk.mem (h : Walk keyPage c ss pages) (hs : ∀ s ∈ ss, Sorted s.1) {k : K}
    (hc : above c k = true)
    (hk : ∀ s ∈ ss, k ∈ s.1) : k ∈ pages.flatten := by
  induction h with
  | last hlast =>
    have hmem := mem_filter.mpr ⟨hk _ mem_cons_self, hc⟩
    rw [keyPage_none hlast] at hmem
    exact mem_append_left _ hmem
  | more hmore rest ih =>
    obtain ⟨ys, l, rfl, rfl, hsplit⟩ := keyPage_some hmore (hs _ mem_cons_self)
    have hmem := mem_filter.mpr ⟨hk _ mem_cons_self, hc⟩
    rw [hsplit] at hmem
    obtain hmem | hmem := mem_append.mp hmem
    · exact mem_append_left _ hmem
    · exact mem_append_right _
        (ih (fun s hs' => hs s (mem_cons_of_mem _ hs')) (mem_filter.mp hmem).2
        fun s hs' => hk s (mem_cons_of_mem _ hs'))

end walks

/-! ### The end -/

/-- The keys come from a finite stock. -/
theorem ends_of_subset (stock : List K) {f : Nat → List K × Nat} (hs : ∀ i, Sorted (f i).1)
    (hsub : ∀ i, (f i).1 ⊆ stock) (c : Option K) : ∃ keys, Ends keyPage f c keys := by
  -- every page that is not the last one takes a key from those of the stock after the cursor
  induction hn : (stock.filter (above c)).length using Nat.strong_induction_on generalizing f c with
  | _ n ih =>
    rcases hpage : keyPage (f 0) c with ⟨ks, next⟩
    cases next with
    | none => exact ⟨ks, ends_last hpage⟩
    | some c' =>
      obtain ⟨ys, l, rfl, rfl, -⟩ := keyPage_some hpage (hs 0)
      obtain ⟨hl, hcl⟩ := keyPage_sub hpage l (mem_append_right _ mem_cons_self)
      have hless : (stock.filter (above (some l))).length < n := by
        rw [← hn, ← filter_above_above hcl]
        exact length_filter_lt_length_iff_exists.mpr
          ⟨l, mem_filter.mpr ⟨hsub 0 hl, hcl⟩, by simp [above_self]⟩
      obtain ⟨keys, hkeys⟩ := ih _ hless (fun i => hs (i + 1)) (fun i => hsub (i + 1)) (some l) rfl
      exact ⟨_, ends_more hpage hkeys⟩

/-- The listing of a finite stock: it ends, with every key that is there all the time and no key
that is never there. -/
theorem ends_keys (stock : List K) {f : Nat → List K × Nat} (hs : ∀ i, Sorted (f i).1)
    (hsub : ∀ i, (f i).1 ⊆ stock) :
    ∃ keys, Ends keyPage f none keys ∧ keys.Nodup ∧ (∀ k, (∀ i, k ∈ (f i).1) → k ∈ keys) ∧
      ∀ k ∈ keys, ∃ i, k ∈ (f i).1 := by
  obtain ⟨keys, n, pages, hwalk, rfl⟩ := ends_of_subset stock hs hsub none
  have hmet : ∀ s ∈ (List.range n).map f, ∃ i, f i = s := by
    intro s hmem
    obtain ⟨i, -, hi⟩ := mem_map.mp hmem
    exact ⟨i, hi⟩
  have hsorted : ∀ s ∈ (List.range n).map f, Sorted s.1 := by
    intro s hmem
    obtain ⟨i, rfl⟩ := hmet s hmem
    exact hs i
  refine ⟨pages.flatten, ⟨n, pages, hwalk, rfl⟩, (hwalk.sorted hsorted).1.nodup, fun k hk => ?_,
    fun k hk => ?_⟩
  · refine hwalk.mem hsorted rfl fun s hmem => ?_
    obtain ⟨i, rfl⟩ := hmet s hmem
    exact hk i
  · obtain ⟨s, hmem, hks⟩ := hwalk.mem_met hk
    obtain ⟨i, rfl⟩ := hmet s hmem
    exact ⟨i, hks⟩

end keys

/-! ## Several sources, one after the other -/

section fan
variable {σ C K : Type*}

/-- The page of the source the cursor names; after its last one comes the next source. -/
def fanPage (n : Nat) (start : C) (page : Nat → σ → C → List K × Option C) (s : σ) (c : Nat × C) :
    List K × Option (Nat × C) :=
  ((page c.1 s c.2).1, match (page c.1 s c.2).2 with
    | some c' => some (c.1, c')
    | none => if c.1 + 1 < n then some (c.1 + 1, start) else none)

variable {n : Nat} {start : C} {page : Nat → σ → C → List K × Option C} {i : Nat}

theorem fanPage_some {s : σ} {c c' : C} {ks : List K} (h : page i s c = (ks, some c')) :
    fanPage n start page s (i, c) = (ks, some (i, c')) := by
  simp only [fanPage, h]

theorem fanPage_none {s : σ} {c : C} {ks : List K} (h : page i s c = (ks, none)) :
    fanPage n start page s (i, c) = (ks, if i + 1 < n then some (i + 1, start) else none) := by
  simp only [fanPage, h]

/-- No source beyond the last one. -/
theorem fanPage_next {s : σ} {c c' : Nat × C} (hc : c.1 < n)
    (h : (fanPage n start page s c).2 = some c') : c'.1 < n := by
  obtain ⟨i, c⟩ := c
  rcases hpage : page i s c with ⟨ks, next⟩
  cases next with
  | none =>
    rw [fanPage_none hpage] at h
    split at h
    · cases h
      assumption
    · cases h
  | some d =>
    rw [fanPage_some hpage] at h
    cases h
    exact hc

theorem Walk.fan_last {c : C} {ss : List σ} {pages : List (List K)} (h : Walk (page i) c ss pages)
    (hi : ¬ i + 1 < n) : Walk (fanPage n start page) (i, c) ss pages := by
  induction h with
  | last hlast => exact .last (by rw [fanPage_none hlast, if_neg hi])
  | more hmore _ ih => exact .more (fanPage_some hmore) ih

theorem Walk.fan_more {c : C} {ss ss' : List σ} {pages pages' : List (List K)}
    (h : Walk (page i) c ss pages)
    (hi : i + 1 < n) (hnext : Walk (fanPage n start page) (i + 1, start) ss' pages') :
    Walk (fanPage n start page) (i, c) (ss ++ ss') (pages ++ pages') := by
  induction h with
  | last hlast => exact .more (by rw [fanPage_none hlast, if_pos hi]) hnext
  | more hmore _ ih => exact .more (fanPage_some hmore) ih

/-- If every source can be listed at any time, all of them are, one after the other. -/
theorem ends_fan {P : Nat → List K → Prop} {f : Nat → σ}
    (h : ∀ i < n, ∀ j, ∃ keys, Ends (page i) (fun k => f (j + k)) start keys ∧ P i keys)
    (hi : i < n) (j : Nat) :
    ∃ parts : Nat → List K, (∀ m, i ≤ m → m < n → P m (parts m)) ∧
      Ends (fanPage n start page) (fun k => f (j + k)) (i, start)
          ((List.range' i (n - i)).flatMap parts) := by
  induction hd : n - i generalizing i j with
  | zero => omega
  | succ d ih =>
    obtain ⟨keys, ⟨m, pages, hwalk, rfl⟩, hP⟩ := h i hi j
    by_cases hnext : i + 1 < n
    · obtain ⟨parts, hparts, m', pages', hwalk', hkeys'⟩ := ih hnext (j + m) (by omega)
      refine ⟨Function.update parts i pages.flatten, fun l hil hln => ?_, m + m',
        pages ++ pages', ?_, ?_⟩
      · obtain rfl | hlt := Nat.eq_or_lt_of_le hil
        · rw [Function.update_self]
          exact hP
        · rw [Function.update_of_ne (by omega)]
          exact hparts l hlt hln
      · rw [range_add, map_append, map_map]
        refine hwalk.fan_more hnext ?_
        simpa [Function.comp_def, Nat.add_assoc] using hwalk'
      · rw [flatten_append, hkeys', range'_succ, flatMap_cons, Function.update_self]
        congr 1
        refine flatMap_congr fun l hl => ?_
        have hl := (mem_range'_1.mp hl).1
        rw [Function.update_of_ne (by omega)]
    · obtain rfl : d = 0 := by omega
      refine ⟨fun _ => pages.flatten, fun l hil hln => ?_, m, pages, hwalk.fan_last hnext, by simp⟩
      obtain rfl : i = l := by omega
      exact hP

end fan

end Paging
