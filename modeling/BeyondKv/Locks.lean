/-
# Waiting and exclusion

Writes, reclaims and the collector wait for one another: for the flag that a reclaim or a
flush has set, for the writes in flight to drain, for write stripes and for blob locks. The
marks of a run say what each call holds and what it waits for (`localOf`), and the state
says how often each resource is in use (`users`).

The calls take resources in one order: the reclaim flag, a place among the writes in
flight, the write stripes by number, a blob lock. So no set of calls waits in a circle, and
a call that cannot go on waits for something another one holds (`never_stuck`). The flag is
set before the writes are drained and looked at in the turn in which a write counts itself
in, so the inner part of a reclaim or flush runs alone (`inner_alone`).
-/
import BeyondKv.Appends
import BeyondKv.Calls
import BeyondKv.Calm

namespace BeyondKv

open Async Bool Function List Multiset

/-! ## What calls hold and wait for -/

/-- What one call holds, and what it waits for. -/
@[ext] structure Local where
  held : Multiset Resource
  wants : Option Resource

def Local.idle : Local := ⟨0, none⟩

/-- What a mark says of the call that sets it. -/
def Local.mark (a : Local) : Point → Local
  | .wants r => { a with wants := some r }
  | .passes _ => { a with wants := none }
  | .holds r => ⟨r ::ₘ a.held, none⟩
  | .drops r => { a with held := a.held.erase r }
  | _ => a

/-- Where the call `i` stands after a run, given as the list of its marks, newest first. -/
def localOf (i : Nat) : List (Nat × Point) → Local
  | [] => .idle
  | (j, l) :: g => if j = i then (localOf i g).mark l else localOf i g

/-- How many calls use a resource, as the state has it. -/
def users (s : NsState) : Resource → Nat
  | .reclaim => s.reclaimInProgress.toNat
  | .inFlight => s.inFlightWrites
  | .stripe i => (s.writeStripes i).toNat
  | .blob i => (s.fileLocks i).toNat
  | .inner => 0

/-- The order in which resources are taken. -/
def Resource.rank : Resource → Nat ×ₗ Nat
  | .reclaim => toLex (0, 0)
  | .inFlight => toLex (1, 0)
  | .stripe i => toLex (2, i)
  | .blob i => toLex (3, i)
  | .inner => toLex (4, 0)

/-- Nothing is waited for, and what is held comes before `r`. -/
def Local.Below (a : Local) (r : Resource) : Prop :=
  a.wants = none ∧ ∀ q ∈ a.held, q.rank < r.rank

/-- `reclaim_inner` and `flush_inner` run alone: no write is in flight, and there is one run
at most. -/
structure InnerAlone (g : List (Nat × Point)) : Prop where
  noWrite : ∀ i j, .inner ∈ (localOf i g).held → .inFlight ∉ (localOf j g).held
  once : ∀ i, (localOf i g).held.count .inner ≤ 1
  one : ∀ i j, .inner ∈ (localOf i g).held → .inner ∈ (localOf j g).held → i = j

section traces
variable {i j : Nat} {l : Point} {g : List (Nat × Point)}

@[simp] theorem localOf_self : localOf i ((i, l) :: g) = (localOf i g).mark l := if_pos rfl

theorem localOf_other (h : i ≠ j) : localOf j ((i, l) :: g) = localOf j g := if_neg h

theorem Local.mark_quiet (a : Local) (h : l.kind ≠ .lock) : a.mark l = a := by
  cases l <;> first | rfl | exact absurd rfl h

theorem localOf_quiet (h : l.kind ≠ .lock) : localOf j ((i, l) :: g) = localOf j g := by
  by_cases hij : i = j
  · subst hij
    rw [localOf_self, Local.mark_quiet _ h]
  · exact localOf_other hij

/-- A mark by which nobody gains anything. -/
theorem InnerAlone.fewer {g' : List (Nat × Point)} (h : InnerAlone g)
    (hle : ∀ j, (localOf j g').held ≤ (localOf j g).held) : InnerAlone g' where
  noWrite i j hi hj := h.noWrite i j (mem_of_le (hle i) hi) (mem_of_le (hle j) hj)
  once i := (count_le_of_le _ (hle i)).trans (h.once i)
  one i j hi hj := h.one i j (mem_of_le (hle i) hi) (mem_of_le (hle j) hj)

theorem held_drops_le : (localOf j ((i, .drops r) :: g)).held ≤ (localOf j g).held := by
  by_cases hij : i = j
  · subst hij
    rw [localOf_self]
    exact erase_le _ _
  · rw [localOf_other hij]

end traces

/-! ## The invariant -/

/-- How often a resource is held. -/
def total (M : Multiset (Nat × Local)) (r : Resource) : Nat := (M.map fun x => x.2.held.count r).sum

@[simp] theorem total_add (M N : Multiset (Nat × Local)) (r : Resource) :
    total (M + N) r = total M r + total N r := by
  rw [total, Multiset.map_add, sum_add]
  rfl

@[simp] theorem total_singleton (i : Nat) (a : Local) (r : Resource) :
    total {(i, a)} r = a.held.count r := by
  rw [total, Multiset.map_singleton, Multiset.sum_singleton]

theorem count_le_total {M : Multiset (Nat × Local)} {x : Nat × Local} (hx : x ∈ M) (r : Resource) :
    x.2.held.count r ≤ total M r :=
  Multiset.single_le_sum (fun _ _ => Nat.zero_le _) _ (Multiset.mem_map_of_mem _ hx)

theorem exists_held {M : Multiset (Nat × Local)} {r : Resource} (h : 0 < total M r) :
    ∃ x ∈ M, r ∈ x.2.held := by
  by_contra hnone
  push Not at hnone
  refine absurd (Multiset.sum_eq_zero fun c hc => ?_) (Nat.ne_of_gt h)
  obtain ⟨x, hx, rfl⟩ := Multiset.mem_map.mp hc
  exact count_eq_zero_of_notMem (hnone x hx)

/-- The tokens of the calls are what the marks say of them. -/
structure Traced (M : Multiset (Nat × Local)) (g : List (Nat × Point)) : Prop where
  ids : (M.map Prod.fst).Nodup
  mine : ∀ x ∈ M, localOf x.1 g = x.2
  rest : ∀ i, (∀ x ∈ M, x.1 ≠ i) → localOf i g = .idle

/-- A call waits for a resource after those it holds, and runs an inner part behind the flag. -/
structure Local.Ok (a : Local) : Prop where
  order : ∀ r, a.wants = some r → ∀ q ∈ a.held, q.rank < r.rank
  inner : a.held.count .inner ≤ a.held.count .reclaim

/-- The tokens are what the state says of the resources. -/
structure Tallied (M : Multiset (Nat × Local)) (s : NsState) : Prop where
  ok : ∀ x ∈ M, x.2.Ok
  users : ∀ r, r ≠ .inner → total M r = users s r
  drained : 0 < total M .inner → total M .inFlight = 0

structure Locking (M : Multiset (Nat × Local)) (g : List (Nat × Point)) (s : NsState) : Prop where
  traced : Traced M g
  tallied : Tallied M s
  alone : ∀ g', g' <:+ g → InnerAlone g'

section invariant
variable {M f : Multiset (Nat × Local)} {g : List (Nat × Point)} {s s' : NsState}
  {i : Nat} {a : Local}
  {r : Resource} {rs : List Resource}

theorem Traced.other (h : Traced ({(i, a)} + f) g) {x : Nat × Local} (hx : x ∈ f) : x.1 ≠ i := by
  rintro rfl
  have hids := h.ids
  rw [Multiset.map_add, Multiset.map_singleton, singleton_add, Multiset.nodup_cons] at hids
  exact hids.1 (Multiset.mem_map.mpr ⟨x, hx, rfl⟩)

theorem Traced.self (h : Traced ({(i, a)} + f) g) : localOf i g = a := h.mine (i, a) (by simp)

/-- The call sets a mark. -/
theorem Traced.mark (h : Traced ({(i, a)} + f) g) (l : Point) :
    Traced ({(i, a.mark l)} + f) ((i, l) :: g) := by
  refine ⟨?_, fun x hx => ?_, fun j hj => ?_⟩
  · have hids := h.ids
    rw [Multiset.map_add, Multiset.map_singleton] at hids ⊢
    exact hids
  · rcases mem_add.mp hx with hx | hx
    · rw [Multiset.mem_singleton.mp hx, localOf_self, h.self]
    · rw [localOf_other (h.other hx).symm]
      exact h.mine x (mem_add.mpr (.inr hx))
  · have hij : i ≠ j := hj (i, a.mark l) (by simp)
    rw [localOf_other hij]
    refine h.rest j fun x hx => ?_
    rcases mem_add.mp hx with hx | hx
    · rwa [Multiset.mem_singleton.mp hx]
    · exact hj x (mem_add.mpr (.inr hx))

theorem Traced.quiet (h : Traced M g) (i : Nat) {l : Point} (hl : l.kind ≠ .lock) :
    Traced M ((i, l) :: g) :=
  ⟨h.ids, fun x hx => (localOf_quiet hl).trans (h.mine x hx),
    fun j hj => (localOf_quiet hl).trans (h.rest j hj)⟩

theorem Tallied.same (h : Tallied M s) (hs : Same BeyondKv.users s s') : Tallied M s' :=
  ⟨h.ok, fun r hr => (h.users r hr).trans (congrFun hs.symm r), h.drained⟩

theorem Tallied.inner_le (h : Tallied M s) : total M .inner ≤ total M .reclaim :=
  sum_map_le_sum_map _ _ fun x hx => (h.ok x hx).inner

theorem users_reclaim_le (s : NsState) : users s .reclaim ≤ 1 := toNat_le _

/-- What the counts say of a trace. -/
theorem Tallied.alone (h : Tallied M s) (ht : Traced M g) : InnerAlone g := by
  have hheld : ∀ {i r}, r ∈ (localOf i g).held → ∃ a, (i, a) ∈ M ∧ localOf i g = a := by
    intro i r hr
    by_contra hnone
    push Not at hnone
    rw [ht.rest i fun x hx heq => hnone x.2 (heq ▸ hx) (heq ▸ ht.mine x hx)] at hr
    exact absurd hr (notMem_zero _)
  have hle : total M .inner ≤ 1 :=
    h.inner_le.trans ((h.users .reclaim (by decide)).trans_le (users_reclaim_le s))
  refine ⟨fun i j hi hj => ?_, fun i => ?_, fun i j hi hj => ?_⟩
  · obtain ⟨a, ha, hia⟩ := hheld hi
    obtain ⟨b, hb, hjb⟩ := hheld hj
    rw [hia] at hi
    rw [hjb] at hj
    have hinner := (count_pos.mpr hi).trans_le (count_le_total ha .inner)
    have hwrite := (count_pos.mpr hj).trans_le (count_le_total hb .inFlight)
    exact absurd (h.drained hinner) (Nat.ne_of_gt hwrite)
  · by_cases hi : .inner ∈ (localOf i g).held
    · obtain ⟨a, ha, hia⟩ := hheld hi
      rw [hia]
      exact (count_le_total ha .inner).trans hle
    · rw [count_eq_zero_of_notMem hi]
      exact Nat.zero_le _
  · by_contra hij
    obtain ⟨a, ha, hia⟩ := hheld hi
    obtain ⟨b, hb, hjb⟩ := hheld hj
    obtain ⟨N, rfl⟩ := exists_cons_of_mem ha
    have hbN : (j, b) ∈ N :=
      (Multiset.mem_cons.mp hb).resolve_left fun heq => hij (congrArg Prod.fst heq).symm
    have h₁ : 0 < a.held.count .inner := count_pos.mpr (hia ▸ hi)
    have h₂ : 0 < total N .inner :=
      (count_pos.mpr (hjb ▸ hj)).trans_le (count_le_total hbN .inner)
    rw [← singleton_add, total_add, total_singleton] at hle
    omega

theorem Locking.same (h : Locking M g s) (hs : Same BeyondKv.users s s') : Locking M g s' :=
  ⟨h.traced, h.tallied.same hs, h.alone⟩

theorem alone_cons {l : Nat × Point} (h : ∀ g', g' <:+ g → InnerAlone g')
    (hl : InnerAlone (l :: g)) :
    ∀ g', g' <:+ l :: g → InnerAlone g' := by
  intro g' hg
  rcases suffix_cons_iff.mp hg with rfl | hg
  · exact hl
  · exact h g' hg

theorem Locking.quiet (h : Locking M g s) (i : Nat) {l : Point} (hl : l.kind ≠ .lock) :
    Locking M ((i, l) :: g) s := by
  refine ⟨h.traced.quiet i hl, h.tallied, alone_cons h.alone ?_⟩
  exact (h.alone g (suffix_refl g)).fewer fun j => (congrArg Local.held (localOf_quiet hl)).le

/-- The call changes in what it waits for only. -/
theorem Tallied.waits {b : Local} (h : Tallied ({(i, a)} + f) s) (hb : b.held = a.held)
    (ho : ∀ r, b.wants = some r → ∀ q ∈ a.held, q.rank < r.rank) : Tallied ({(i, b)} + f) s := by
  have htotal : ∀ r, total ({(i, b)} + f) r = total ({(i, a)} + f) r := by
    intro r
    rw [total_add, total_add, total_singleton, total_singleton, hb]
  refine ⟨fun x hx => ?_, fun r hr => (htotal r).trans (h.users r hr), ?_⟩
  · rcases mem_add.mp hx with hx | hx
    · rw [Multiset.mem_singleton.mp hx]
      exact ⟨fun r hr => hb ▸ ho r hr, hb ▸ (h.ok (i, a) (by simp)).inner⟩
    · exact h.ok x (mem_add.mpr (.inr hx))
  · rw [htotal, htotal]
    exact h.drained

theorem Locking.waits {l : Point} (h : Locking ({(i, a)} + f) g s)
    (hheld : (a.mark l).held = a.held)
    (ho : ∀ r, (a.mark l).wants = some r → ∀ q ∈ a.held, q.rank < r.rank) :
    Locking ({(i, a.mark l)} + f) ((i, l) :: g) s := by
  refine ⟨h.traced.mark l, h.tallied.waits hheld ho, alone_cons h.alone ?_⟩
  exact (h.tallied.waits hheld ho).alone (h.traced.mark l)

/-- The call takes a resource. -/
theorem Locking.take (h : Locking ({(i, a)} + f) g s)
    (hs : ∀ q, q ≠ .inner → users s' q = users s q + if q = r then 1 else 0)
    (hwrite : r = .inFlight → users s .reclaim = 0)
    (hinner : r = .inner → 0 < a.held.count .reclaim ∧ a.held.count .inner = 0
      ∧ users s .inFlight = 0) :
    Locking ({(i, ⟨r ::ₘ a.held, none⟩)} + f) ((i, .holds r) :: g) s' := by
  have htotal : ∀ q, total ({(i, (⟨r ::ₘ a.held, none⟩ : Local))} + f) q
      = total ({(i, a)} + f) q + if q = r then 1 else 0 := by
    intro q
    simp only [total_add, total_singleton, Multiset.count_cons]
    omega
  have hc : Tallied ({(i, (⟨r ::ₘ a.held, none⟩ : Local))} + f) s' := by
    refine ⟨fun x hx => ?_, fun q hq => ?_, fun hpos => ?_⟩
    · rcases mem_add.mp hx with hx | hx
      · rw [Multiset.mem_singleton.mp hx]
        have hold : a.held.count .inner ≤ a.held.count .reclaim :=
          (h.tallied.ok (i, a) (by simp)).inner
        refine ⟨nofun, ?_⟩
        simp only [Multiset.count_cons]
        by_cases hr : r = .inner
        · subst hr
          have := hinner rfl
          simp only [reduceCtorEq, if_true, if_false]
          omega
        · rw [if_neg (Ne.symm hr)]
          omega
      · exact h.tallied.ok x (mem_add.mpr (.inr hx))
    · rw [htotal, h.tallied.users q hq, hs q hq]
    · rw [htotal] at hpos ⊢
      by_cases hw : r = .inFlight
      · subst hw
        have hle := h.tallied.inner_le
        rw [h.tallied.users .reclaim (by decide), hwrite rfl] at hle
        simp only [reduceCtorEq, if_false] at hpos
        omega
      · rw [if_neg (Ne.symm hw)]
        by_cases hr : r = .inner
        · rw [h.tallied.users .inFlight (by decide), (hinner hr).2.2]
        · rw [if_neg (Ne.symm hr)] at hpos
          exact h.tallied.drained hpos
  exact ⟨h.traced.mark (.holds r), hc, alone_cons h.alone (hc.alone (h.traced.mark (.holds r)))⟩

/-- The resources `rs` and those of `b`. -/
def holding (rs : List Resource) (b : Multiset Resource) : Multiset Resource := rs + b

theorem holding_singleton (r : Resource) (b : Multiset Resource) : holding [r] b = r ::ₘ b := by
  rw [holding, coe_singleton, singleton_add]

theorem holding_cons (r : Resource) (rs : List Resource) (b : Multiset Resource) :
    holding (r :: rs) b = r ::ₘ holding rs b := by
  rw [holding, ← cons_coe, cons_add, holding]

theorem count_holding (rs : List Resource) (b : Multiset Resource) (q : Resource) :
    (holding rs b).count q = rs.count q + b.count q := by
  rw [holding, count_add, coe_count]

/-- The marks of dropped resources. -/
def dropped (i : Nat) (rs : List Resource) (g : List (Nat × Point)) : List (Nat × Point) :=
  rs.foldl (fun g r => (i, .drops r) :: g) g

theorem Traced.drops {b : Multiset Resource} {w : Option Resource}
    (h : Traced ({(i, ⟨holding rs b, w⟩)} + f) g) :
    Traced ({(i, ⟨b, w⟩)} + f) (dropped i rs g) := by
  induction rs generalizing g with
  | nil =>
    rw [holding, coe_nil, zero_add] at h
    exact h
  | cons r rs ih =>
    refine ih ?_
    have hmark := h.mark (.drops r)
    rw [holding_cons] at hmark
    simp only [Local.mark, Multiset.erase_cons_head] at hmark
    exact hmark

theorem alone_dropped (h : ∀ g', g' <:+ g → InnerAlone g') :
    ∀ g', g' <:+ dropped i rs g → InnerAlone g' := by
  induction rs generalizing g with
  | nil => exact h
  | cons r rs ih =>
    refine ih (alone_cons h ?_)
    exact (h g (suffix_refl g)).fewer fun j => held_drops_le

/-- The call drops resources. -/
theorem Locking.drops {b : Multiset Resource} (h : Locking ({(i, ⟨holding rs b, none⟩)} + f) g s)
    (hs : ∀ q, q ≠ .inner → users s' q + rs.count q = users s q)
    (hinner : b.count .inner ≤ b.count .reclaim) :
    Locking ({(i, ⟨b, none⟩)} + f) (dropped i rs g) s' := by
  have htotal : ∀ q, total ({(i, (⟨b, none⟩ : Local))} + f) q + rs.count q
      = total ({(i, (⟨holding rs b, none⟩ : Local))} + f) q := by
    intro q
    simp only [total_add, total_singleton, count_holding]
    omega
  refine ⟨h.traced.drops, ⟨fun x hx => ?_, fun q hq => ?_, fun hpos => ?_⟩, alone_dropped h.alone⟩
  · rcases mem_add.mp hx with hx | hx
    · rw [Multiset.mem_singleton.mp hx]
      exact ⟨nofun, hinner⟩
    · exact h.tallied.ok x (mem_add.mpr (.inr hx))
  · have h₁ := htotal q
    rw [h.tallied.users q hq] at h₁
    have h₂ := hs q hq
    omega
  · have h₁ := htotal .inFlight
    have h₂ := htotal .inner
    have h₃ := h.tallied.drained (by omega)
    omega

/-- A call that has ended. -/
theorem Locking.ended (h : Locking ({(i, .idle)} + f) g s) : Locking f g s := by
  have htotal : ∀ r, total ({(i, .idle)} + f) r = total f r := by
    intro r
    rw [total_add, total_singleton]
    exact Nat.zero_add _
  refine ⟨⟨?_, fun x hx => ?_, fun j hj => ?_⟩, ⟨fun x hx => ?_, fun r hr => ?_, ?_⟩, h.alone⟩
  · have hids := h.traced.ids
    rw [Multiset.map_add] at hids
    exact nodup_of_le (Multiset.le_add_left ..) hids
  · exact h.traced.mine x (mem_add.mpr (.inr hx))
  · by_cases hij : i = j
    · exact hij ▸ h.traced.self
    · refine h.traced.rest j fun x hx => ?_
      rcases mem_add.mp hx with hx | hx
      · rwa [Multiset.mem_singleton.mp hx]
      · exact hj x hx
  · exact h.tallied.ok x (mem_add.mpr (.inr hx))
  · exact htotal r ▸ h.tallied.users r hr
  · rw [← htotal, ← htotal]
    exact h.tallied.drained

/-- The resource is in use exactly if a call holds it, and only the count of the writes has more
than one holder. -/
structure Owned (g : List (Nat × Point)) (s : NsState) (r : Resource) : Prop where
  free : users s r = 0 ↔ ∀ i, r ∉ (localOf i g).held
  one : r ≠ .inFlight → ∀ i j, r ∈ (localOf i g).held → r ∈ (localOf j g).held → i = j

theorem Traced.mem (h : Traced M g) (hi : r ∈ (localOf i g).held) : (i, localOf i g) ∈ M := by
  by_contra hout
  rw [h.rest i fun x hx hxi => hout (by rwa [← hxi, h.mine x hx])] at hi
  exact notMem_zero _ hi

theorem Locking.owned (h : Locking M g s) (hr : r ≠ .inner) : Owned g s r := by
  have hcount := h.tallied.users r hr
  refine ⟨⟨fun hzero i hi => ?_, fun hnone => ?_⟩, fun hflight i j hi hj => ?_⟩
  · have hle := count_le_total (h.traced.mem hi) r
    rw [hcount, hzero] at hle
    exact absurd (count_pos.mpr hi) (Nat.not_lt.mpr hle)
  · by_contra hne
    obtain ⟨x, hx, hheld⟩ := exists_held (hcount.symm ▸ Nat.pos_of_ne_zero hne)
    exact hnone x.1 (by rwa [h.traced.mine x hx])
  · have hone : users s r ≤ 1 := by
      cases r with
      | inFlight => exact absurd rfl hflight
      | inner => exact absurd rfl hr
      | _ => exact toNat_le _
    by_contra hij
    -- two holders would be counted twice
    obtain ⟨N, rfl⟩ := exists_cons_of_mem (h.traced.mem hi)
    have hj' := (Multiset.mem_cons.mp (h.traced.mem hj)).resolve_left fun heq =>
      hij (congrArg Prod.fst heq).symm
    have hle := (count_pos.mpr hj).trans_le (count_le_total hj' r)
    rw [← hcount, ← singleton_add, total_add, total_singleton] at hone
    have hpos := count_pos.mpr hi
    omega
end invariant

/-! ## The terms of a call -/

/-- Every mark is recorded with the number of the call that sets it. -/
abbrev recording : Discipline NsState (Nat × Point) (List (Nat × Point)) :=
  .record fun l _ g => l :: g

/-- The call `i` waits for a resource that is in use. -/
def waiting (i : Nat) : Excuse NsState (Nat × Local) where
  For own ready := ∀ s, ready s = false →
    ∃ a r, (i, a) ∈ own ∧ a.wants = some r ∧ r ≠ .inner ∧ 0 < users s r
  ready _ _ hready s hs := absurd hs (by simp [hready s])

abbrev locking : Regime NsState (Nat × Point) (List (Nat × Point)) (Nat × Local) :=
  .plain recording Locking

abbrev lockingBy (i : Nat) : Regime NsState Point (List (Nat × Point)) (Nat × Local) :=
  (locking.excusing (waiting i)).via (Prod.mk i)

/-- The call stands where it stood. -/
abbrev Stays {α : Type} (i : Nat) (a : Local) (p : Task α) : Prop :=
  Triple (lockingBy i) {(i, a)} p (Owning {(i, a)})

instance : BlindSync users where
  io _ _ _ _ _ := rfl
  refs _ _ _ := rfl
  files _ _ _ _ := rfl
  active _ _ _ := rfl

instance : BlindIndex users := ⟨fun _ _ => rfl⟩

instance : BlindStamp users := ⟨fun _ _ _ => rfl⟩

/-- Marks that are not about locks. -/
def Unlocked (l : Point) : Prop := l.kind ≠ .lock

instance : Has .io Unlocked := ⟨fun _ hl h => by rw [hl] at h; cases h⟩

instance : Has .sync Unlocked := ⟨fun _ hl h => by rw [hl] at h; cases h⟩

instance : Has .effect Unlocked := ⟨fun _ hl h => by rw [hl] at h; cases h⟩

section rules
variable {α β : Type} {i : Nat} {a : Local} {b : Multiset Resource} {f : Multiset (Nat × Local)}
  {g : List (Nat × Point)} {s : NsState} {Q : Unit → Multiset (Nat × Local) → List (Nat × Point) →
    NsState → Prop}

theorem Stays.calm {p : Task α} (hp : Calm Unlocked users p) : Stays i a p := by
  refine Triple.within (fun l hl M g s h => h.quiet i hl) ?_ (fun M g s s' h hs => h.same hs) hp
  rintro r (hr | hr) own
  · exact (waiting i).ready own r hr
  · exact absurd rfl (hr .reclaim)

theorem Stays.run_seq {p : Act α} {k : α → Act β} (hp : Stays i a p.run)
    (hk : ∀ x, Stays i a (k x).run) :
    Stays i a (p >>= k).run := Triple.run_after hp hk fun _ => rfl

theorem Stays.gets (e : NsState → α) : Stays i a (lift (Prog.gets e)).run :=
  .calm (calm_lift (calm_gets e))

theorem Stays.at {l : Point} (hl : Unlocked l) : Stays i a (lift (Prog.at_ l)).run :=
  .calm (calm_lift (Prog.within_at hl))

theorem Stays.modify {e : NsState → NsState} (he : ∀ s, Same users s (e s)) :
    Stays i a (lift (Prog.modify e)).run := .calm (calm_lift (Prog.within_modify he))

/-- While the call waits for `r`. -/
theorem wpi_waits {r : Resource} {ready : NsState → Bool} {k : Unit → Task α}
    {Q : α → Multiset (Nat × Local) → List (Nat × Point) → NsState → Prop} (hbelow : a.Below r)
    (hr : r ≠ .inner) (hbusy : ∀ s, ready s = false → 0 < users s r)
    (h : Locking ({(i, a)} + f) g s)
    (hk : ∀ f g s, Locking ({(i, { a with wants := some r })} + f) g s → ready s = true →
      wpi (lockingBy i) (k ()) Q f g s) :
    wpi (lockingBy i) (Prog.at_ (.wants r) >>= fun _ => Prog.wait ready >>= k) Q f g s := by
  simp only [wpi_seq, wpi_at, wpi_wait]
  intro _
  have hwants : Locking ({(i, a.mark (.wants r))} + f) ((i, .wants r) :: g) s :=
    h.waits rfl fun q hq => Option.some.inj hq ▸ hbelow.2
  refine ⟨{(i, { a with wants := some r })}, hwants, fun s hs => ?_, hk⟩
  · exact ⟨_, r, Multiset.mem_singleton_self _, rfl, hr, hbusy s hs⟩

/-- The call waits until nobody uses `r` and goes on without it. -/
theorem Locking.passes {r : Resource} (h : Locking ({(i, { a with wants := some r })} + f) g s)
    (ha : a.wants = none) : Locking ({(i, a)} + f) ((i, .passes r) :: g) s := by
  have hmark : ({ a with wants := some r } : Local).mark (.passes r) = a := by
    ext1
    · rfl
    · exact ha.symm
  have hpass := h.waits (l := .passes r) rfl (by rw [hmark, ha]; nofun)
  rwa [hmark] at hpass

theorem wpi_awaitReclaim (hbelow : a.Below .reclaim) (h : Locking ({(i, a)} + f) g s)
    (hQ : ∀ f g s, Locking ({(i, a)} + f) g s → s.reclaimInProgress = false → Q () f g s) :
    wpi (lockingBy i) awaitReclaim Q f g s := by
  simp only [awaitReclaim, wpi_seq, wpi_gets]
  cases hflag : s.reclaimInProgress with
  | false => exact hQ f g s h hflag
  | true =>
    rw [if_pos rfl]
    refine wpi_waits hbelow (by decide) (fun s hs => ?_) h fun f g s h hs => ?_
    · simp only [not_eq_false'] at hs
      simp [users, hs]
    · simp only [not_eq_true'] at hs
      exact fun _ => hQ f _ s (h.passes hbelow.1) hs

theorem wpi_drainWrites (hbelow : a.Below .inFlight) (h : Locking ({(i, a)} + f) g s)
    (hQ : ∀ f g s, Locking ({(i, a)} + f) g s → s.inFlightWrites = 0 → Q () f g s) :
    wpi (lockingBy i) drainWrites Q f g s := by
  simp only [drainWrites, wpi_seq, wpi_gets]
  by_cases hn : s.inFlightWrites > 0
  · simp only [hn, if_true]
    refine wpi_waits hbelow (by decide) (fun s hs => ?_) h fun f g s h hs => ?_
    · exact Nat.pos_of_ne_zero (of_decide_eq_false hs)
    · exact fun _ => hQ f _ s (h.passes hbelow.1) (of_decide_eq_true hs)
  · simp only [hn, if_false]
    exact hQ f g s h (Nat.eq_zero_of_not_pos hn)

/-- A lock of the write stripes or of the blob store. -/
theorem triple_acquire {r : Resource} {locked : NsState → Bool} {lock : NsState → NsState}
    (hr : r ≠ .inFlight ∧ r ≠ .inner) (hlocked : ∀ s, users s r = (locked s).toNat)
    (hlock : ∀ s, users (lock s) = Function.update (users s) r 1)
    (hbelow : (⟨b, none⟩ : Local).Below r) :
    Triple (lockingBy i) {(i, ⟨b, none⟩)} (acquire r locked lock)
        (Owning {(i, ⟨holding [r] b, none⟩)}) := by
  have htake : ∀ {w f g s}, Locking ({(i, ⟨b, w⟩)} + f) g s → locked s = false →
      Locking ({(i, ⟨holding [r] b, none⟩)} + f) ((i, .holds r) :: g) (lock s) := by
    intro w f g s h hfree
    rw [holding_singleton]
    refine h.take (fun q _ => ?_) (fun hq => absurd hq hr.1) fun hq => absurd hq hr.2
    rw [hlock]
    by_cases hq : q = r
    · subst hq
      rw [update_self, hlocked, hfree, if_pos rfl]
      rfl
    · rw [update_of_ne hq, if_neg hq, Nat.add_zero]
  intro f g s h
  simp only [acquire, wpi_seq, wpi_gets]
  cases hl : locked s with
  | false => exact fun _ => ⟨_, htake h hl, rfl⟩
  | true =>
    rw [if_pos rfl]
    refine wpi_waits hbelow hr.2 (fun s hs => ?_) h fun f g s h hs => ?_
    · simp only [not_eq_false'] at hs
      simp [hlocked, hs]
    · simp only [not_eq_true'] at hs
      exact fun _ => ⟨_, htake h hs, rfl⟩

theorem wpi_dropAll {rs : List Resource} :
    wpi (lockingBy i) (dropAll rs) Q f g s ↔ Q () f (dropped i rs g) s := by
  induction rs generalizing g with
  | nil => exact wpi_pure ..
  | cons r rs ih =>
    simp only [dropAll, wpi_seq, wpi_at, ih]
    exact forall_prop_of_true trivial

/-- A guard gives its resources back whatever the body returns. -/
theorem triple_guarded {rs : List Resource} {release : NsState → NsState} {body : Act α}
    (hinner : b.count .inner ≤ b.count .reclaim)
    (hrelease : ∀ s, (∀ q, q ≠ .inner → rs.count q ≤ users s q) →
      ∀ q, q ≠ .inner → users (release s) q + rs.count q = users s q)
    (hbody : Stays i ⟨holding rs b, none⟩ body.run) :
    Triple (lockingBy i) {(i, ⟨holding rs b, none⟩)} (guarded rs release body).run
        (Owning {(i, ⟨b, none⟩)}) := by
  refine Triple.seq hbody ?_
  rintro x own rfl f g s h
  simp only [wpi_seq, wpi_modify, wpi_dropAll, wpi_pure]
  refine ⟨_, h.drops (hrelease s fun q hq => ?_) hinner, rfl⟩
  rw [← h.tallied.users q hq, total_add, total_singleton, count_holding]
  omega

end rules

/-! ## The calls -/

theorem users_setStripe (n : Nat) (l : Bool) (s : NsState) :
    users (setStripe n l s) = Function.update (users s) (.stripe n) l.toNat := by
  funext q
  by_cases hq : q = .stripe n
  · subst hq
    simp [users, setStripe]
  · rw [update_of_ne hq]
    cases q with
    | stripe m =>
      have hm : m ≠ n := fun heq => hq (heq ▸ rfl)
      simp [users, setStripe, hm]
    | _ => rfl

theorem users_setFileLock (h : ContentHash) (l : Bool) (s : NsState) :
    users (ValueStore.setFileLock h l s)
      = Function.update (users s) (.blob (ValueStore.flockIdx h)) l.toNat := by
  funext q
  by_cases hq : q = .blob (ValueStore.flockIdx h)
  · subst hq
    simp [users, ValueStore.setFileLock]
  · rw [update_of_ne hq]
    cases q with
    | blob m =>
      have hm : m ≠ ValueStore.flockIdx h := fun heq => hq (heq ▸ rfl)
      simp [users, ValueStore.setFileLock, hm]
    | _ => rfl

/-- A lock that is given back. -/
theorem users_release {r : Resource} {s s' : NsState}
    (hs : users s' = Function.update (users s) r 0)
    (hone : users s r ≤ 1) (hused : ∀ q, q ≠ .inner → [r].count q ≤ users s q) :
    ∀ q, q ≠ .inner → users s' q + [r].count q = users s q := by
  intro q hq
  rw [hs]
  by_cases hqr : q = r
  · subst hqr
    have := hused q hq
    rw [List.count_singleton_self] at this ⊢
    rw [update_self]
    omega
  · rw [update_of_ne hqr, List.count_singleton, if_neg (by simpa using Ne.symm hqr), Nat.add_zero]

theorem below_idle (r : Resource) : Local.idle.Below r :=
  ⟨rfl, fun _ hq => absurd hq (notMem_zero _)⟩

theorem below_of_one {q r : Resource} (h : q.rank < r.rank) :
    (⟨holding [q] 0, none⟩ : Local).Below r := by
  refine ⟨rfl, fun p hp => ?_⟩
  rw [holding_singleton, Multiset.mem_cons, or_iff_left (notMem_zero _)] at hp
  exact hp ▸ h

section calls
variable (P : Prims) {α : Type} {i : Nat} {b : Multiset Resource}

/-- What is held leaves room for a blob lock. -/
structure BlobRoom (b : Multiset Resource) : Prop where
  below : ∀ n, (⟨b, none⟩ : Local).Below (.blob n)
  inner : b.count .inner ≤ b.count .reclaim

theorem blobRoom_nil : BlobRoom 0 := ⟨fun _ => below_idle _, le_rfl⟩

/-- A call with its resources `rs` after those of `b`. -/
theorem BlobRoom.add {rs : List Resource} (h : BlobRoom b)
    (hrs : ∀ q ∈ rs, q = .inFlight ∨ ∃ n, q = .stripe n) : BlobRoom (holding rs b) := by
  refine ⟨fun n => ⟨rfl, fun q hq => ?_⟩, ?_⟩
  · rcases mem_add.mp hq with hq | hq
    · rcases hrs q (mem_coe.mp hq) with rfl | ⟨m, rfl⟩
      · exact Prod.Lex.toLex_lt_toLex.mpr (.inl (by simp))
      · exact Prod.Lex.toLex_lt_toLex.mpr (.inl (by simp))
    · exact (h.below n).2 q hq
  · have hnone : Resource.inner ∉ rs := fun hin => by rcases hrs _ hin with h | ⟨_, h⟩ <;> cases h
    rw [count_holding, count_holding, count_eq_zero_of_not_mem hnone]
    have := h.inner
    omega

/-! ### Blobs -/

theorem triple_lockFile (h : ContentHash) (hb : BlobRoom b) :
    Triple (lockingBy i) {(i, ⟨b, none⟩)} (ValueStore.lockFile h)
      (Owning {(i, ⟨holding [.blob (ValueStore.flockIdx h)] b, none⟩)}) :=
  triple_acquire ⟨by simp, by simp⟩ (fun _ => rfl) (users_setFileLock h true) (hb.below _)

theorem stays_valuePut (value : Bytes) (hb : BlobRoom b) :
    Stays i ⟨b, none⟩ (ValueStore.put P value).run := by
  refine Triple.run_lift_seq (triple_lockFile _ hb) ?_
  rintro _ _ rfl
  exact triple_guarded hb.inner
    (fun s hs => users_release (users_setFileLock _ false s) (toNat_le _) hs)
    (.calm (calm_valueBody _ value))

theorem stays_maybeSeparate (value : Bytes) (hb : BlobRoom b) :
    Stays i ⟨b, none⟩ (maybeSeparate P value).run := by
  refine .run_seq (.gets _) fun n => ?_
  by_cases hn : n ≤ value.length
  · simp only [hn, if_true]
    exact .run_seq (stays_valuePut P value hb) fun _ => .calm trivial
  · simp only [hn, if_false]
    exact .calm trivial

theorem stays_collect (h : ContentHash) (hb : BlobRoom b) :
    Stays i ⟨b, none⟩ (ValueStore.collect h) := by
  have hunlock : Triple (lockingBy i) {(i, ⟨holding [.blob (ValueStore.flockIdx h)] b, none⟩)} (do
      Prog.modify (ValueStore.unlockFile h)
      Prog.at_ (.drops (.blob (ValueStore.flockIdx h)))) (Owning {(i, ⟨b, none⟩)}) := by
    intro f g s hl
    simp only [wpi_seq, wpi_modify, wpi_at]
    have hfree : Locking ({(i, ⟨b, none⟩)} + f) (dropped i [.blob (ValueStore.flockIdx h)] g)
        (ValueStore.unlockFile h s) := by
      refine hl.drops
        (users_release (users_setFileLock h false s) (toNat_le _) fun q hq => ?_) hb.inner
      rw [← hl.tallied.users q hq, total_add, total_singleton, count_holding]
      omega
    exact fun _ => ⟨_, hfree, rfl⟩
  refine Triple.seq (triple_lockFile h hb) ?_
  rintro _ _ rfl
  refine Triple.seq (Triple.gets _) ?_
  rintro n _ rfl
  by_cases hn : n = 0
  · simp only [hn, if_true]
    refine Triple.seq (Stays.calm (calm_io _)) ?_
    rintro _ _ rfl
    exact hunlock
  · simp only [hn, if_false]
    exact hunlock

theorem stays_collectGarbage : Stays i .idle ValueStore.collectGarbage := by
  refine Triple.seq (Stays.calm (Prog.within_step fun s => same_refs s s.refs _)) ?_
  rintro hs _ rfl
  induction hs with
  | nil => exact .ret rfl
  | cons h hs ih =>
    refine Triple.seq (stays_collect h blobRoom_nil) ?_
    rintro _ _ rfl
    exact ih

/-! ### Writes -/

/-- A call counts itself in: the flag is down in the turn in which it does. -/
theorem triple_enter {k : Act α} {post : Except EngineError α → Multiset (Nat × Local) → Prop}
    (hk : Triple (lockingBy i) {(i, ⟨holding [.inFlight] 0, none⟩)} k.run post)
    (he : post (.error .frozen) {(i, .idle)}) :
    Triple (lockingBy i) {(i, .idle)}
        (lift awaitReclaim >>= fun _ => beginWrite >>= fun _ => k).run post := by
  intro f g s h
  rw [wpi_run]
  simp only [wpix_seq, lift, wpix_lift]
  refine wpi_awaitReclaim (below_idle _) h fun f g s h hflag => ?_
  simp only [onOkI_ok, beginWrite, wpix_seq, lift, wpix_lift, wpi_gets]
  cases s.frozen with
  | true => exact ⟨_, h, he⟩
  | false =>
    refine fun _ => hk f _ _ ?_
    rw [holding_singleton]
    refine h.take (fun q _ => ?_) (fun _ => by simp [users, hflag]) (by simp)
    cases q <;> rfl

theorem users_endWrite (s : NsState)
    (hs : ∀ q, q ≠ .inner → [Resource.inFlight].count q ≤ users s q) :
    ∀ q, q ≠ .inner → users (endWrite s) q + [Resource.inFlight].count q = users s q := by
  intro q hq
  cases q with
  | inFlight =>
    have := hs .inFlight hq
    rw [List.count_singleton_self] at this ⊢
    change s.inFlightWrites - 1 + 1 = s.inFlightWrites
    exact Nat.sub_add_cancel this
  | _ => rfl

theorem triple_lockStripe (n : Nat) (hb : (⟨b, none⟩ : Local).Below (.stripe n)) :
    Triple (lockingBy i) {(i, ⟨b, none⟩)} (lockStripe n)
      (Owning {(i, ⟨holding [.stripe n] b, none⟩)}) :=
  triple_acquire ⟨by simp, by simp⟩ (fun _ => rfl) (users_setStripe n true) hb

theorem below_stripe (n : Nat) : (⟨holding [.inFlight] 0, none⟩ : Local).Below (.stripe n) :=
  below_of_one (Prod.Lex.toLex_lt_toLex.mpr (.inl (by simp)))

/-- What a write to one key holds. -/
def writer (n : Nat) : Multiset Resource := holding [.stripe n] (holding [.inFlight] 0)

theorem blobRoom_inFlight : BlobRoom (holding [.inFlight] 0) := blobRoom_nil.add (by simp)

theorem blobRoom_writer (n : Nat) : BlobRoom (writer n) := blobRoom_inFlight.add (by simp)

theorem stays_writing {key : Bytes} {body : Act α}
    (hbody : Stays i ⟨writer (stripeIdx P key), none⟩ body.run) :
    Stays i .idle (writing P key body).run := by
  refine triple_enter (triple_guarded blobRoom_nil.inner users_endWrite ?_) rfl
  refine Triple.run_lift_seq (triple_lockStripe _ (below_stripe _)) ?_
  rintro _ _ rfl
  exact triple_guarded blobRoom_inFlight.inner
    (fun s hs => users_release (users_setStripe _ false s) (toNat_le _) hs) hbody

theorem stays_commitPut (key value m : Bytes) (x : Option UInt64) (hb : BlobRoom b) :
    Stays i ⟨b, none⟩ (commitPut P key value m x).run :=
  .run_seq (.calm (calm_lift calm_nextTstamp)) fun _ =>
    .run_seq (stays_maybeSeparate P value hb) fun _ =>
    .run_seq (.calm (calm_encodeOp P _ _ _)) fun buf => .run_seq (.at nofun) fun _ =>
      .run_seq (.gets _) fun f =>
      .run_seq (.calm (calm_appendOrUnref f buf _)) fun off =>
        .run_seq (.calm (calm_lift (calm_countAppend f off _))) fun _ =>
          .run_seq (.at nofun) fun _ =>
          .run_seq (.modify fun s => same_unref? _ (s.setIndex _)) fun _ =>
            .run_seq (.calm (calm_rotateIfFull P f)) fun _ => .calm trivial

theorem stays_putFullCond (key value m : Bytes) (x : Option UInt64) (cond : WriteCondition)
    (now : UInt64) :
    Stays i .idle (putFullCond P key value m x cond now).run := by
  refine stays_writing P (.run_seq (.gets _) fun rev => ?_)
  by_cases hc : cond.check rev = true
  · simp only [hc, if_true]
    exact .run_seq (stays_commitPut P key value m x (blobRoom_writer _)) fun _ => .calm trivial
  · simp only [hc, false_eq_true, if_false]
    exact .run_seq (.at nofun) fun _ => .calm trivial

theorem stays_encodeBatch (pairs : List (Bytes × Bytes)) (buf : Bytes) (hb : BlobRoom b) :
    Stays i ⟨b, none⟩ (encodeBatch P pairs buf).run := by
  induction pairs generalizing buf with
  | nil => exact .calm trivial
  | cons pair pairs ih =>
    exact .run_seq (.calm (calm_lift calm_nextTstamp)) fun _ =>
      .run_seq (stays_maybeSeparate P pair.2 hb) fun _ =>
        .run_seq (.calm (calm_encodeOp P _ _ _)) fun buf' =>
        .run_seq (ih buf') fun _ => .calm trivial

/-- The stripes of a batch are taken in ascending order. -/
theorem triple_lockStripes (ns : List Nat) (hns : ns.Pairwise (· < ·))
    (hb : ∀ n ∈ ns, (⟨b, none⟩ : Local).Below (.stripe n)) :
    Triple (lockingBy i) {(i, ⟨b, none⟩)} (lockStripes ns)
      (Owning {(i, ⟨holding (ns.map .stripe) b, none⟩)}) := by
  induction ns generalizing b with
  | nil =>
    rw [map_nil, holding, coe_nil, zero_add]
    exact .ret rfl
  | cons n ns ih =>
    obtain ⟨hn, hns⟩ := pairwise_cons.mp hns
    refine Triple.seq (triple_lockStripe n (hb n (List.mem_cons_self ..))) ?_
    rintro _ _ rfl
    have hnext :
        holding ((n :: ns).map .stripe) b = holding (ns.map .stripe) (holding [.stripe n] b) := by
      rw [holding, List.map_cons, ← cons_coe, ← singleton_add, holding, holding,
        coe_singleton]
      abel
    rw [hnext]
    refine ih hns fun m hm => ⟨rfl, fun q hq => ?_⟩
    rw [holding_singleton, Multiset.mem_cons] at hq
    rcases hq with rfl | hq
    · exact Prod.Lex.toLex_lt_toLex.mpr (.inr ⟨rfl, hn m hm⟩)
    · exact (hb m (List.mem_cons_of_mem _ hm)).2 q hq

theorem batchStripes_sorted (pairs : List (Bytes × Bytes)) :
    (batchStripes P pairs).Pairwise (· < ·) := by
  have hle : (batchStripes P pairs).Pairwise (· ≤ ·) :=
    (pairwise_insertionSort _ _).sublist (dedup_sublist _)
  exact hle.imp₂ (fun _ _ hle hne => lt_of_le_of_ne hle hne) (List.nodup_dedup _)

theorem users_unlockStripes {ns : List Nat} (hns : ns.Nodup) (s : NsState)
    (hs : ∀ q, q ≠ .inner → (ns.map Resource.stripe).count q ≤ users s q) :
    ∀ q, q ≠ .inner → users (unlockStripes ns s) q + (ns.map Resource.stripe).count q
        = users s q := by
  have hfree : ∀ q, users (unlockStripes ns s) q
      = if q ∈ ns.map Resource.stripe then 0 else users s q := by
    clear hs hns
    induction ns generalizing s with
    | nil => exact fun q => (if_neg not_mem_nil).symm
    | cons n ns ih =>
      intro q
      rw [unlockStripes, List.foldl_cons]
      refine (ih (unlockStripe n s) q).trans ?_
      simp only [unlockStripe, users_setStripe, List.map_cons, List.mem_cons]
      by_cases hq : q ∈ ns.map Resource.stripe
      · rw [if_pos hq, if_pos (.inr hq)]
      · rw [if_neg hq]
        by_cases hqn : q = .stripe n
        · rw [hqn, update_self, if_pos (.inl rfl)]
          rfl
        · rw [update_of_ne hqn, if_neg (not_or.mpr ⟨hqn, hq⟩)]
  intro q hq
  rw [hfree]
  have hnodup : (ns.map Resource.stripe).Nodup := hns.map fun _ _ h => by cases h; rfl
  by_cases hmem : q ∈ ns.map Resource.stripe
  · have hone : users s q ≤ 1 := by
      obtain ⟨n, -, rfl⟩ := List.mem_map.mp hmem
      exact toNat_le _
    have := hs q hq
    rw [List.count_eq_one_of_mem hnodup hmem] at this ⊢
    rw [if_pos hmem]
    omega
  · rw [if_neg hmem, count_eq_zero_of_not_mem hmem, Nat.add_zero]

theorem stays_putMany (pairs : List (Bytes × Bytes)) : Stays i .idle (putMany P pairs).run := by
  refine triple_enter (triple_guarded blobRoom_nil.inner users_endWrite ?_) rfl
  by_cases hempty : pairs.isEmpty = true
  · simp only [hempty, if_true]
    exact .run_seq (.at nofun) fun _ => .calm trivial
  · simp only [hempty, false_eq_true, if_false]
    have hsorted := batchStripes_sorted P pairs
    refine Triple.run_lift_seq (triple_lockStripes _ hsorted fun n _ => below_stripe n) ?_
    rintro _ _ rfl
    refine triple_guarded blobRoom_inFlight.inner (users_unlockStripes (hsorted.imp ne_of_lt)) ?_
    have hroom : BlobRoom (holding ((batchStripes P pairs).map .stripe) (holding [.inFlight] 0)) :=
      blobRoom_inFlight.add fun q hq => by
        obtain ⟨n, -, rfl⟩ := List.mem_map.mp hq
        exact .inr ⟨n, rfl⟩
    exact .run_seq (stays_encodeBatch P pairs [] hroom) fun _ => .run_seq (.at nofun) fun _ =>
      .run_seq (.gets _) fun f => .run_seq (.calm (calm_appendOrUnref f _ _)) fun off =>
        .run_seq (.calm (calm_lift (calm_countAppend f off _))) fun _ =>
          .run_seq (.at nofun) fun _ =>
          .run_seq (.modify fun s => same_unrefs _ (s.setIndex _)) fun _ =>
            .run_seq (.calm (calm_rotateIfFull P f)) fun _ => .calm trivial

theorem stays_commitTombstone (key : Bytes) {a : Local} : Stays i a (commitTombstone P key).run :=
  .run_seq (.at nofun) fun _ => .run_seq (.calm (calm_lift (Prog.within_step fun _ => rfl)))
    fun old =>
    .run_seq (.calm (calm_lift calm_nextTstamp)) fun _ =>
      .run_seq (.calm (calm_encodeOp P _ _ _)) fun buf =>
      .run_seq (.at nofun) fun _ => .run_seq (.gets _) fun f =>
        .run_seq (.calm (calm_append f buf)) fun off =>
        .run_seq (.calm (calm_lift (calm_countAppend f off _))) fun _ =>
          .run_seq (.modify (same_unref? old)) fun _ => .calm trivial

theorem stays_tombstone (key : Bytes) : Stays i .idle (tombstone P key).run := by
  refine stays_writing P (.run_seq (.gets _) fun live => ?_)
  cases live with
  | true => exact .run_seq (stays_commitTombstone P key) fun _ => .calm trivial
  | false =>
    exact .run_seq (.at nofun) fun _ => .run_seq (.modify fun _ => rfl) fun _ => .calm trivial

theorem stays_tombstoneCond (key : Bytes) (rev now : UInt64) :
    Stays i .idle (tombstoneCond P key rev now).run := by
  refine stays_writing P (.run_seq (.gets _) fun live => ?_)
  cases live with
  | true => exact .run_seq (stays_commitTombstone P key) fun _ => .calm trivial
  | false => exact .run_seq (.at nofun) fun _ => .calm trivial

theorem stays_ttlUpdate (key : Bytes) (x : Option UInt64) : Stays i .idle (ttlUpdate P key x).run :=
  stays_writing P (.run_seq (.calm (calm_lift calm_nextTstamp)) fun _ =>
    .run_seq (.calm (calm_encodeOp P _ _ _)) fun buf => .run_seq (.at nofun) fun _ =>
      .run_seq (.gets _) fun f => .run_seq (.calm (calm_append f buf)) fun off =>
        .run_seq (.calm (calm_lift (calm_countAppend f off _))) fun _ =>
          .run_seq (.at nofun) fun _ =>
          .run_seq (.modify fun _ => rfl) fun _ => .calm trivial)

/-! ### Reclaim and flush -/

section inner
variable {f : Multiset (Nat × Local)} {g : List (Nat × Point)} {s : NsState}

/-- The flag is set. -/
theorem Locking.flag (h : Locking ({(i, .idle)} + f) g s) (hflag : s.reclaimInProgress = false) :
    Locking ({(i, ⟨holding [.reclaim] 0, none⟩)} + f) ((i, .holds .reclaim) :: g)
        (setReclaiming true s) := by
  rw [holding_singleton]
  refine h.take (fun q _ => ?_) nofun nofun
  cases q with
  | reclaim => simp [users, setReclaiming, hflag]
  | _ => rfl

theorem below_inFlight : (⟨holding [.reclaim] 0, none⟩ : Local).Below .inFlight :=
  below_of_one (Prod.Lex.toLex_lt_toLex.mpr (.inl (by simp)))

/-- The inner part, when the writes have drained. -/
theorem wpix_inner {body : Act α} (hbody : Calm Unlocked users body.run)
    (h : Locking ({(i, ⟨holding [.reclaim] 0, none⟩)} + f) g s) (hn : s.inFlightWrites = 0) :
    wpix (lockingBy i) (lift (Prog.at_ (.holds .inner)) >>= fun _ =>
      guarded [.inner, .reclaim] (setReclaiming false) body)
      (Gives (lockingBy i) (Owning {(i, .idle)})) f g s := by
  simp only [wpix_seq, lift, wpix_lift, wpi_at, onOkI_ok]
  intro _
  have hinner :
      Locking ({(i, ⟨holding [.inner, .reclaim] 0, none⟩)} + f) ((i, .holds .inner) :: g) s := by
    rw [holding_cons]
    refine h.take (fun q hq => by rw [if_neg hq, Nat.add_zero]) (by simp) fun _ =>
      ⟨by decide, by decide, hn⟩
  refine triple_guarded blobRoom_nil.inner (fun s hs q hq => ?_) (.calm hbody) f _ s hinner
  cases q with
  | reclaim =>
    have hone := users_reclaim_le s
    have hused : 1 ≤ users s .reclaim := hs .reclaim (by decide)
    change 0 + 1 = users s .reclaim
    omega
  | inner => exact absurd rfl hq
  | _ => rfl

theorem stays_reclaim : Stays i .idle (reclaim P).run := by
  intro f g s h
  rw [wpi_run]
  simp only [reclaim, wpix_seq, lift, wpix_lift, wpi_step]
  cases hflag : s.reclaimInProgress with
  | true =>
    refine ⟨_, h.same ?_, rfl⟩
    funext q
    cases q with
    | reclaim => simp [users, setReclaiming, hflag]
    | _ => rfl
  | false =>
    simp only [onOkI_ok, false_eq_true, if_false, wpix_seq, wpix_lift, wpi_at]
    intro _
    refine wpi_drainWrites below_inFlight (h.flag hflag) fun f g s h hn => ?_
    have hrun := wpix_inner (calm_reclaimInner P) h hn
    simpa only [wpix_seq, lift, wpix_lift, wpi_at, onOkI_ok] using hrun

theorem stays_flush : Stays i .idle flush.run := by
  intro f g s h
  rw [wpi_run]
  simp only [flush, wpix_seq, lift, wpix_lift, wpi_step]
  have hbody : ∀ t :
    UInt64, Calm Unlocked users (flushInner >>= fun _ => pure t : Act UInt64).run :=
    fun t => .run_seq calm_flushInner fun _ => trivial
  refine wpi_awaitReclaim (below_idle _) h fun f g s h hflag => ?_
  simp only [onOkI_ok, hflag, false_eq_true, if_false, wpix_seq, wpix_lift, wpi_at]
  intro _
  refine wpi_drainWrites below_inFlight (h.flag hflag) fun f g s h hn => ?_
  simp only [nextTstamp, nowMs, wpi_seq, wpi_step]
  have hrun := wpix_inner (s := { s with readings := s.readings + 1, lastTstamp := nextRevision s })
    (hbody (nextRevision s)) (h.same rfl) hn
  simp only [wpix_seq, lift, wpix_lift, wpi_at, onOkI_ok] at hrun
  exact hrun

end inner

theorem stays_syncLog : Stays i .idle sync.run := by
  have hcollect : Stays i .idle (lift ValueStore.collectGarbage).run :=
    Triple.run_lift stays_collectGarbage
  refine .run_seq (.gets _) fun n => ?_
  by_cases hn : n > 0
  · simp only [hn, if_true]
    exact .run_seq (.gets _) fun f => .run_seq (.calm (calm_sync f)) fun _ =>
      .run_seq (.at nofun) fun _ =>
      .run_seq (.modify fun _ => rfl) fun _ => hcollect
  · simp only [hn, if_false]
    exact hcollect

theorem stays_freezeAndDrain : Stays i .idle freezeAndDrain := by
  refine Triple.seq (Stays.calm (Prog.within_modify fun _ => rfl)) ?_
  rintro _ _ rfl f g s h
  exact wpi_drainWrites (below_idle _) h fun f g s h _ => ⟨_, h, rfl⟩

theorem Call.stays (call : Call) : Stays i .idle (call.act P).run := by
  cases call with
  | putFull k v m x =>
    exact .run_seq (stays_writing P (stays_commitPut P k v m x (blobRoom_writer _)))
      fun _ => .calm trivial
  | putFullCond k v m x cond now =>
    exact .run_seq (stays_putFullCond P k v m x cond now) fun _ => .calm trivial
  | putMany pairs => exact stays_putMany P pairs
  | tombstone k => exact .run_seq (stays_tombstone P k) fun _ => .calm trivial
  | tombstoneCond k rev now =>
    exact .run_seq (stays_tombstoneCond P k rev now) fun _ => .calm trivial
  | ttlUpdate k x => exact .run_seq (stays_ttlUpdate P k x) fun _ => .calm trivial
  | rotateActive => exact .run_seq (.calm (calm_rotateActive P)) fun _ => .calm trivial
  | reclaim => exact .run_seq (stays_reclaim P) fun _ => .calm trivial
  | sync => exact .run_seq stays_syncLog fun _ => .calm trivial
  | flush => exact .run_seq stays_flush fun _ => .calm trivial
  | restart config clock => exact .run_seq (.calm (calm_seal P)) fun _ => .calm trivial

end calls

/-! ## Runs -/

/-- A client of the log that may take locks. -/
inductive LockClient where
  | calls (call : Call)
  | freezes
  | collects

def LockClient.task (P : Prims) : LockClient → Task Unit
  | .calls call => do let _ ← (call.act P).run; return ()
  | .freezes => freezeAndDrain
  | .collects => ValueStore.collectGarbage

/-- Clients, each with its number on its marks. -/
def clientTasks (P : Prims) (clients : List LockClient) : List (Prog NsState (Nat × Point) Unit) :=
  numbered (clients.map (LockClient.task P))

theorem LockClient.stays (P : Prims) (i : Nat) (c : LockClient) : Stays i .idle (c.task P) := by
  cases c with
  | calls call =>
    refine Triple.seq (call.stays P) ?_
    rintro _ _ rfl
    exact .ret rfl
  | freezes => exact stays_freezeAndDrain
  | collects => exact stays_collectGarbage

/-- A call that has returned holds nothing. -/
theorem LockClient.clean (P : Prims) (i : Nat) (c : LockClient) :
    Triple (lockingBy i) {(i, .idle)} (c.task P) Clean := by
  refine (c.stays P i).drop ?_
  rintro _ _ rfl
  refine ⟨0, rfl, fun f g s h => ?_⟩
  rw [zero_add]
  exact Locking.ended h

section runs
variable (P : Prims) {clients : List LockClient} {s : NsState}
  {w : Pool NsState (Nat × Point) (List (Nat × Point))}

theorem locking_start (n : Nat) (hs : ∀ r, users s r = 0) :
    Locking ((List.range n).map fun i => ({(i, .idle)} : Multiset (Nat × Local))).sum [] s := by
  have hidle : ∀ x ∈ ((List.range n).map fun i => (i, Local.idle) : List _), x.2 = .idle := by
    intro x hx
    obtain ⟨i, -, rfl⟩ := List.mem_map.mp hx
    rfl
  have htotal : ∀ r, total (((List.range n).map fun i => (i, Local.idle) : List _)) r = 0 := by
    intro r
    refine Multiset.sum_eq_zero fun c hc => ?_
    obtain ⟨x, hx, rfl⟩ := Multiset.mem_map.mp hc
    rw [hidle x (mem_coe.mp hx)]
    rfl
  rw [sum_singletons]
  refine ⟨⟨?_, fun x hx => (hidle x hx).symm, fun _ _ => rfl⟩,
    ⟨fun x hx => ?_, fun r _ => ?_, ?_⟩, ?_⟩
  · simpa [comp_def] using List.nodup_range
  · rw [hidle x hx]
    exact ⟨nofun, le_rfl⟩
  · rw [htotal, hs]
  · rw [htotal]
    exact fun h => absurd h (Nat.lt_irrefl 0)
  · intro g hg
    rw [suffix_nil.mp hg]
    exact ⟨fun _ _ h => absurd h (notMem_zero _), fun _ => Nat.zero_le _,
      fun _ _ h => absurd h (notMem_zero _)⟩

theorem clients_ok (hs : ∀ r, users s r = 0)
    (hrun : Runs recording (.of (clientTasks P clients) [] s) w) :
    w.Ok locking waiting (List.range clients.length) := by
  have hstart : (Pool.of (clientTasks P clients) [] s).Ok locking waiting
      (List.range (clients.map (LockClient.task P)).length) := by
    refine Pool.ok_numbered (fun i => {(i, .idle)}) (locking_start _ hs) fun i p hp => ?_
    obtain ⟨c, -, rfl⟩ := List.mem_map.mp (mem_of_getElem? hp)
    exact c.clean P i
  rw [length_map] at hstart
  exact Runs.ok (Γ := locking) hrun hstart

/-- Each of these calls waits for a resource that one of them holds. -/
def Deadlocked (g : List (Nat × Point)) (S : Finset Nat) : Prop :=
  S.Nonempty ∧ ∀ i ∈ S, ∃ r, (localOf i g).wants = some r ∧ ∃ j ∈ S, r ∈ (localOf j g).held

/-- The calls wait in the order of the resources. -/
theorem Locking.not_deadlocked {M : Multiset (Nat × Local)} {g : List (Nat × Point)}
    (h : Locking M g s)
    (S : Finset Nat) : ¬ Deadlocked g S := by
  rintro ⟨hne, hwait⟩
  have hlocal : ∀ i, (localOf i g).Ok := by
    intro i
    by_cases hi : ∃ x ∈ M, x.1 = i
    · obtain ⟨x, hx, rfl⟩ := hi
      exact (h.traced.mine x hx).symm ▸ h.tallied.ok x hx
    · push Not at hi
      rw [h.traced.rest i hi]
      exact ⟨nofun, le_rfl⟩
  -- the call that waits for the last resource waits for one that waits for a later one
  have : Nonempty Resource := ⟨.reclaim⟩
  choose! r hr hheld using hwait
  obtain ⟨i, hi, hmax⟩ := S.exists_max_image (fun i => (r i).rank) hne
  obtain ⟨j, hj, hrj⟩ := hheld i hi
  exact absurd ((hlocal j).order (r j) (hr j hj) (r i) hrj) (not_lt_of_ge (hmax j hj))

/-- In no state of any run do some calls wait for one another, and a call that cannot take a
turn waits for a resource that some call holds. -/
theorem never_stuck (hs : ∀ r, users s r = 0)
    (hrun : Runs recording (.of (clientTasks P clients) [] s) w) :
    (∀ S, ¬ Deadlocked w.ghost S)
      ∧ ∀ i p, w.tasks[i]? = some p → p ≠ .ret () →
        (∀ p' g' s', ¬ Turn recording p w.ghost w.state p' g' s') →
          ∃ r j, (localOf i w.ghost).wants = some r ∧ r ∈ (localOf j w.ghost).held := by
  obtain ⟨owns, hids, hall, hinv⟩ := clients_ok P hs hrun
  refine ⟨hinv.not_deadlocked, fun i p hp hend hturn => ?_⟩
  obtain ⟨hi, rfl⟩ := List.getElem?_eq_some_iff.mp hp
  have hi' : i < owns.length := hall.length_eq ▸ hi
  have hown : (owns[i]).1 = i := by
    have hget : (owns.map Prod.fst)[i]? = some (owns[i]).1 := by simp [hi']
    have hlen := congrArg List.length hids
    rw [length_map, length_range] at hlen
    rw [hids, getElem?_range (hlen ▸ hi')] at hget
    exact (Option.some.inj hget).symm
  have hholds := forall₂_iff_get.mp hall |>.2 i hi hi'
  rcases hholds.stalled (fun _ _ _ => trivial) w.ghost w.state
    with ⟨_, hret⟩ | ⟨p', g', s', ht⟩ | hstall
  · exact absurd hret hend
  · exact absurd ht (hturn p' g' s')
  · obtain ⟨own', hle, ready, hready, hwaits⟩ := hstall
    obtain ⟨a, r, ha, hr, hinner, hused⟩ := hwaits w.state hready
    have hmem : ∀ x ∈ (owns[i]).2, x ∈ (owns.map Prod.snd).sum := fun x hx =>
      mem_of_le (List.single_le_sum (fun _ _ => Multiset.zero_le _) _
        (List.mem_map_of_mem (getElem_mem hi'))) hx
    have hself := hinv.traced.mine _ (hmem _ (mem_of_le hle ha))
    rw [← hinv.tallied.users r hinner] at hused
    obtain ⟨x, hx, hheld⟩ := exists_held hused
    refine ⟨r, x.1, ?_, ?_⟩
    · rw [← hown]
      exact (congrArg Local.wants hself).trans hr
    · rw [hinv.traced.mine x hx]
      exact hheld

theorem users_freshLog {fault : Nat → Option Nat} (h : freshLog fault = some s) :
    ∀ r, users s r = 0 := by
  obtain ⟨refs, hopen, -⟩ :=
    openLog_eq .default (fun _ => 100) fault (openNamespace_empty realPrims)
  rw [freshLog, hopen] at h
  cases h
  intro r
  cases r <;> rfl

/-- Two writes of one key: the second waits for the stripe of the first. -/
theorem never_stuck_two :
    ∃ s w, freshLog (fun _ => none) = some s ∧ (∀ r, users s r = 0)
      ∧ Runs recording (.of (clientTasks realPrims [.calls (.putFull [0x61] [0x31] [] none),
          .calls (.putFull [0x61] [0x32] [] none)]) [] s) w
      ∧ (localOf 1 w.ghost).wants = some (.stripe (stripeIdx realPrims [0x61]))
      ∧ .stripe (stripeIdx realPrims [0x61]) ∈ (localOf 0 w.ghost).held
      ∧ (∀ S, ¬ Deadlocked w.ghost S)
      ∧ ∀ i p, w.tasks[i]? = some p → p ≠ .ret () →
        (∀ p' g' s', ¬ Turn recording p w.ghost w.state p' g' s') →
          ∃ r j, (localOf i w.ghost).wants = some r ∧ r ∈ (localOf j w.ghost).held := by
  have hview : (runFresh recording (fun _ => none) (fun _ => clientTasks realPrims
      [.calls (.putFull [0x61] [0x31] [] none), .calls (.putFull [0x61] [0x32] [] none)])
        [] [0, 1]).map
        (fun x => decide ((localOf 1 x.2.ghost).wants = some (.stripe (stripeIdx realPrims [0x61]))
          ∧ .stripe (stripeIdx realPrims [0x61]) ∈ (localOf 0 x.2.ghost).held)) = some true := by
    decide +kernel
  obtain ⟨⟨s, w⟩, hsome, heq⟩ := Option.map_eq_some_iff.mp hview
  obtain ⟨hwants, hheld⟩ := of_decide_eq_true heq
  obtain ⟨hfresh, hrun⟩ := runs_runFresh hsome
  have hs := users_freshLog hfresh
  exact ⟨s, w, hfresh, hs, hrun, hwants, hheld, never_stuck realPrims hs hrun⟩

/-- At every moment of every run of writes, reclaims, flushes and the like, `reclaim_inner`
and `flush_inner` run alone. -/
theorem inner_alone (hs : ∀ r, users s r = 0)
    (hrun : Runs recording (.of (clientTasks P clients) [] s) w) :
    ∀ g, g <:+ w.ghost → InnerAlone g := by
  obtain ⟨owns, -, -, hinv⟩ := clients_ok P hs hrun
  exact hinv.alone

/-- A reclaim that has waited for a write to drain. -/
theorem inner_alone_reclaim :
    ∃ s w, freshLog (fun _ => none) = some s ∧ (∀ r, users s r = 0)
      ∧ Runs recording (.of (clientTasks realPrims [.calls (.putFull [0x61] [0x31] [] none),
          .calls .reclaim]) [] s) w
      ∧ .inner ∈ (localOf 1 w.ghost).held ∧ ∀ g, g <:+ w.ghost → InnerAlone g := by
  have hview : (runFresh recording (fun _ => none) (fun _ => clientTasks realPrims
      [.calls (.putFull [0x61] [0x31] [] none), .calls .reclaim]) [] [0, 1, 0, 0, 1]).map
        (fun x => decide (.inner ∈ (localOf 1 x.2.ghost).held)) = some true := by
    decide +kernel
  obtain ⟨⟨s, w⟩, hsome, heq⟩ := Option.map_eq_some_iff.mp hview
  obtain ⟨hfresh, hrun⟩ := runs_runFresh hsome
  have hs := users_freshLog hfresh
  exact ⟨s, w, hfresh, hs, hrun, of_decide_eq_true heq, inner_alone realPrims hs hrun⟩

/-- When no call is left, nothing is held. -/
theorem Locking.all_free {g : List (Nat × Point)} (h : Locking 0 g s) (r : Resource) :
    users s r = 0 ∧ ∀ i, r ∉ (localOf i g).held := by
  have hidle : ∀ i, localOf i g = .idle :=
    fun i => h.traced.rest i fun x hx => absurd hx (notMem_zero _)
  refine ⟨?_, fun i hi => ?_⟩
  · by_cases hr : r = .inner
    · rw [hr]; rfl
    · exact (h.tallied.users r hr).symm
  · rw [hidle i] at hi
    exact notMem_zero r hi

/-- In every state of every run, whatever has failed in it, the locks are with the calls, and
once all calls have returned, with whatever result, every lock is free. -/
theorem locks_owned (hs : ∀ r, users s r = 0)
    (hrun : Runs recording (.of (clientTasks P clients) [] s) w) :
    (∀ r, r ≠ .inner → Owned w.ghost w.state r)
      ∧ (w.Ended → ∀ r, users w.state r = 0 ∧ ∀ i, r ∉ (localOf i w.ghost).held) := by
  have hok := clients_ok P hs hrun
  refine ⟨fun r hr => ?_, fun hend => (hok.ended hend).all_free⟩
  obtain ⟨owns, -, -, hinv⟩ := hok
  exact hinv.owned hr

/-- A put whose record is not written returns an error, and gives back its stripe and its
place among the writes in flight. -/
theorem locks_owned_failed :
    ∃ s w, Runs recording (.of (clientTasks realPrims [.calls (.putFull [0x61] [0x31] [] none)])
        [] s) w
      ∧ .stripe (stripeIdx realPrims [0x61]) ∈ (localOf 0 (w.ghost.drop 2)).held
      ∧ w.state.index.get [0x61] = none ∧ w.Ended
      ∧ ∀ r, users w.state r = 0 ∧ ∀ i, r ∉ (localOf i w.ghost).held := by
  have hview : (runFresh recording (fun n => if n = 1 then some 0 else none)
      (fun _ => clientTasks realPrims [.calls (.putFull [0x61] [0x31] [] none)]) [] [0, 0, 0]).map
        (fun x =>
          (decide (.stripe (stripeIdx realPrims [0x61]) ∈ (localOf 0 (x.2.ghost.drop 2)).held),
          decide (x.2.state.index.get [0x61] = none), x.2.tasks.all fun p => p.returned.isSome))
      = some (true, true, true) := by
    decide +kernel
  obtain ⟨⟨s, w⟩, hsome, heq⟩ := Option.map_eq_some_iff.mp hview
  simp only [Prod.mk.injEq, decide_eq_true_eq] at heq
  obtain ⟨hheld, hindex, hend⟩ := heq
  obtain ⟨hfresh, hrun⟩ := runs_runFresh hsome
  exact ⟨s, w, hrun, hheld, hindex, ended_of_returned hend,
    (locks_owned realPrims (users_freshLog hfresh) hrun).2 (ended_of_returned hend)⟩

end runs

end BeyondKv
