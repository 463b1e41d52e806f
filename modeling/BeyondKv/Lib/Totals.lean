/-
# Totals over a map

The sum of a weight over the values of a finite map, and how an update changes it.
-/
import Mathlib

namespace Totals

open Std (ExtTreeMap TransCmp LawfulEqCmp)

variable {α β : Type} {cmp : α → α → Ordering} [TransCmp cmp]
variable {w : β → Nat} {m : ExtTreeMap α β cmp} {k : α} {v : β}

def total (w : β → Nat) (m : ExtTreeMap α β cmp) : Nat := (m.toList.map fun x => w x.2).sum

@[simp] theorem total_empty : total w (∅ : ExtTreeMap α β cmp) = 0 := by
  rw [total, ExtTreeMap.toList_eq_nil_iff.mpr rfl]
  rfl

/-- What is filtered out and what stays make up the whole. -/
theorem total_filter (p : α → β → Bool) :
    total w (m.filter p) + total w (m.filter fun k v => !p k v) = total w m := by
  rw [total, total, ExtTreeMap.toList_filter, ExtTreeMap.toList_filter, ← List.sum_append,
    ← List.map_append]
  exact ((List.filter_append_perm (fun x => p x.1 x.2) m.toList).map fun x => w x.2).sum_eq

variable [LawfulEqCmp cmp]

theorem nodup_toList (m : ExtTreeMap α β cmp) : m.toList.Nodup := by
  refine ExtTreeMap.distinct_keys_toList.imp fun {a b} hne heq => hne ?_
  rw [heq]
  exact Std.ReflCmp.compare_self

theorem toList_perm (h : m[k]? = some v) : m.toList.Perm ((k, v) :: (m.erase k).toList) := by
  have hgone : (k, v) ∉ (m.erase k).toList := by simp
  refine (List.perm_ext_iff_of_nodup (nodup_toList m)
    (List.nodup_cons.mpr ⟨hgone, nodup_toList _⟩)).mpr ?_
  rintro ⟨k', v'⟩
  rw [List.mem_cons, ExtTreeMap.mem_toList_iff_getElem?_eq_some,
    ExtTreeMap.mem_toList_iff_getElem?_eq_some,
    ExtTreeMap.getElem?_erase, Prod.mk.injEq]
  by_cases hk : cmp k k' = .eq
  · rw [if_pos hk]
    rw [LawfulEqCmp.compare_eq_iff_eq] at hk
    subst hk
    simp [h, eq_comm]
  · rw [if_neg hk]
    rw [LawfulEqCmp.compare_eq_iff_eq] at hk
    simp [Ne.symm hk]

theorem total_of_get (h : m[k]? = some v) : total w m = w v + total w (m.erase k) := by
  rw [total, ((toList_perm h).map _).sum_eq, List.map_cons, List.sum_cons]
  rfl

theorem total_insert : total w (m.insert k v) = w v + total w (m.erase k) := by
  have herase : (m.insert k v).erase k = m.erase k := by
    refine ExtTreeMap.ext_getElem? fun k' => ?_
    rw [ExtTreeMap.getElem?_erase, ExtTreeMap.getElem?_erase, ExtTreeMap.getElem?_insert]
    split <;> rfl
  rw [total_of_get ExtTreeMap.getElem?_insert_self, herase]

theorem erase_of_none (h : m[k]? = none) : m.erase k = m := by
  refine ExtTreeMap.ext_getElem? fun k' => ?_
  rw [ExtTreeMap.getElem?_erase]
  split
  · rename_i hk
    rw [LawfulEqCmp.compare_eq_iff_eq] at hk
    rw [← hk, h]
  · rfl

end Totals
