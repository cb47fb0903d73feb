import Mathlib.Order.Basic
import Oba.Library.UnorderedMap

/-! # Maps from numbers, listed by their keys

The bindings of a map in the order of the keys are the only list of its bindings whose keys
increase. A map that is filled with growing keys is therefore the list of what was put in.
-/

namespace OrderedMap

open UnorderedMap List

variable {ν : Type} {bindings : List (Nat × ν)} {m : Std.ExtTreeMap Nat ν}

/-- The keys of a list of bindings increase. -/
def Ascending (bindings : List (Nat × ν)) : Prop := bindings.Pairwise fun a b => a.1 < b.1

lemma Ascending.keys_nodup (hsorted : Ascending bindings) : (bindings.map Prod.fst).Nodup :=
  pairwise_map.mpr (hsorted.imp fun hlt => hlt.ne)

lemma ascending_toList (m : Std.ExtTreeMap Nat ν) : Ascending m.toList :=
  Std.ExtTreeMap.ordered_keys_toList.imp fun hlt => Nat.compare_eq_lt.mp hlt

lemma toList_eq_of_ascending (hsorted : Ascending bindings)
    (hmem : ∀ (k : Nat) (v : ν), m[k]? = some v ↔ (k, v) ∈ bindings) : m.toList = bindings := by
  have hnodup : ∀ {l : List (Nat × ν)}, Ascending l → l.Nodup :=
    fun h => List.Nodup.of_map _ h.keys_nodup
  have hperm : m.toList.Perm bindings := by
    rw [perm_ext_iff_of_nodup (hnodup (ascending_toList m)) (hnodup hsorted)]
    rintro ⟨k, v⟩
    rw [Std.ExtTreeMap.mem_toList_iff_getElem?_eq_some, hmem]
  refine hperm.eq_of_pairwise ?_ (ascending_toList m) hsorted
  intro a b _ _ hab hba
  exact absurd hba (lt_asymm hab)

lemma toList_insertAll (hsorted : Ascending bindings) :
    (insertAll ∅ bindings).toList = bindings := by
  apply toList_eq_of_ascending hsorted
  intro k v
  rw [getElem?_insertAll hsorted.keys_nodup]
  simp

lemma toList_insert {k : Nat} {v : ν} (hlt : ∀ binding ∈ m.toList, binding.1 < k) :
    (m.insert k v).toList = m.toList ++ [(k, v)] := by
  apply toList_eq_of_ascending
  · refine pairwise_append.mpr ⟨ascending_toList m, pairwise_singleton _ _, ?_⟩
    intro a ha b hb
    rw [mem_singleton.mp hb]
    exact hlt a ha
  · intro key value
    rw [Std.ExtTreeMap.getElem?_insert]
    by_cases heq : k = key
    · subst heq
      have habsent : m[k]? ≠ some value := fun hget =>
        lt_irrefl _ (hlt _ (Std.ExtTreeMap.mem_toList_iff_getElem?_eq_some.mpr hget))
      simp [habsent, eq_comm]
    · have hne : compare k key ≠ .eq := fun h => heq (Nat.compare_eq_eq.mp h)
      simp [hne, Ne.symm heq]

end OrderedMap
