import Mathlib.Tactic.Common
import Mathlib.Data.List.Perm.Basic
import Mathlib.Algebra.Order.BigOperators.Group.List
import Mathlib.Algebra.Order.Ring.Nat
import Mathlib.Data.List.Nodup

/-! # Maps whose iteration order is not specified

A map may be iterated in a different order by every loop. A loop sees the bindings of the
map as a list; what it computes is a function of the map as long as it does not depend on
the order of that list.
-/

namespace UnorderedMap

open List

variable {κ ν β : Type} [Ord κ] [Std.TransOrd κ] {k : κ} {v : ν} {bindings : List (κ × ν)}

/-- How one loop over a map runs through its bindings. -/
structure Order (κ ν : Type) [Ord κ] [Std.TransOrd κ] where
  range : Std.ExtTreeMap κ ν → List (κ × ν)
  perm : ∀ m, (range m).Perm m.toList

namespace Order

/-- The order of the keys. -/
def ascending : Order κ ν := ⟨fun m => m.toList, fun _ => .refl _⟩

/-- The keys from the last to the first. -/
def descending : Order κ ν := ⟨fun m => m.toList.reverse, fun m => m.toList.reverse_perm⟩

/-- The binding of a key comes first. -/
def front [DecidableEq κ] (k : κ) : Order κ ν where
  range m := m.toList.filter (·.1 = k) ++ m.toList.filter fun binding => !binding.1 = k
  perm _ := List.filter_append_perm _ _

variable (order other : Order κ ν) (m : Std.ExtTreeMap κ ν)

lemma length_range : (order.range m).length = m.size :=
  (order.perm m).length_eq.trans Std.ExtTreeMap.length_toList

lemma range_perm : (order.range m).Perm (other.range m) :=
  (order.perm m).trans (other.perm m).symm

variable [Std.LawfulEqOrd κ]

lemma mem_range : (k, v) ∈ order.range m ↔ m[k]? = some v :=
  (order.perm m).mem_iff.trans Std.ExtTreeMap.mem_toList_iff_getElem?_eq_some

lemma mem_iff_mem_range : k ∈ m ↔ ∃ v, (k, v) ∈ order.range m := by
  simp only [order.mem_range, Std.ExtTreeMap.mem_iff_isSome_getElem?, Option.isSome_iff_exists]

lemma keys_nodup : ((order.range m).map Prod.fst).Nodup := by
  have hdistinct : (m.toList.map Prod.fst).Nodup :=
    pairwise_map.mpr (Std.ExtTreeMap.distinct_keys_toList.imp fun hne heq =>
      hne (by rw [heq, Std.ReflOrd.compare_self]))
  exact ((order.perm m).map Prod.fst).nodup_iff.mpr hdistinct

/-- There is one way to run through a map with one binding. -/
lemma range_singleton (k : κ) (v : ν) :
    order.range ((∅ : Std.ExtTreeMap κ ν).insert k v) = [(k, v)] := by
  have hlength : (order.range ((∅ : Std.ExtTreeMap κ ν).insert k v)).length = 1 := by
    simp [order.length_range, Std.ExtTreeMap.size_insert]
  have hmem : (k, v) ∈ order.range ((∅ : Std.ExtTreeMap κ ν).insert k v) :=
    (order.mem_range _).mpr (by simp)
  obtain ⟨binding, hbinding⟩ := length_eq_one_iff.mp hlength
  rw [hbinding] at hmem ⊢
  rw [mem_singleton.mp hmem]

end Order

/-- Insert the bindings of a list one after another. -/
def insertAll (m : Std.ExtTreeMap κ ν) (bindings : List (κ × ν)) : Std.ExtTreeMap κ ν :=
  bindings.foldl (fun m binding => m.insert binding.1 binding.2) m

variable [Std.LawfulEqOrd κ]

lemma getElem?_insertAll {m : Std.ExtTreeMap κ ν} (hnodup : (bindings.map Prod.fst).Nodup) (k : κ)
    (v : ν) :
    (insertAll m bindings)[k]? = some v ↔
      (k, v) ∈ bindings ∨ (k ∉ bindings.map Prod.fst ∧ m[k]? = some v) := by
  induction bindings generalizing m with
  | nil => simp [insertAll]
  | cons binding rest ih =>
    obtain ⟨hfresh, hrest⟩ := nodup_cons.mp hnodup
    show (insertAll (m.insert binding.1 binding.2) rest)[k]? = some v ↔ _
    rw [ih hrest, Std.ExtTreeMap.getElem?_insert]
    obtain ⟨key, value⟩ := binding
    by_cases heq : key = k
    · subst heq
      have habsent : ∀ w, (key, w) ∉ rest := fun w hw =>
        hfresh (mem_map.mpr ⟨(key, w), hw, rfl⟩)
      simp only [Std.ReflOrd.compare_self, if_pos, Option.some.injEq, mem_cons,
        Prod.mk.injEq, true_and, habsent, false_or, or_false, map_cons, true_or, not_true,
        false_and]
      exact ⟨fun h => h.2.symm, fun h => ⟨hfresh, h.symm⟩⟩
    · have hne : compare key k ≠ .eq := fun h => heq (Std.LawfulEqOrd.eq_of_compare h)
      simp [hne, Ne.symm heq]

/-- Inserting the bindings of a map in any order gives the map back. -/
lemma insertAll_range (order : Order κ ν) (m : Std.ExtTreeMap κ ν) :
    insertAll ∅ (order.range m) = m := by
  refine Std.ExtTreeMap.ext_getElem? fun k => Option.ext fun v => ?_
  rw [getElem?_insertAll (order.keys_nodup m), order.mem_range]
  simp

/-- A map that is contained in another one of its size is that map. -/
lemma eq_of_subset {m m' : Std.ExtTreeMap κ ν} (hsize : m.size = m'.size)
    (hsubset : ∀ (k : κ) (v : ν), m[k]? = some v → m'[k]? = some v) : m = m' := by
  have hnodup : m.toList.Nodup := List.Nodup.of_map _ (Order.ascending.keys_nodup m)
  have hmem : m.toList ⊆ m'.toList := fun b hb =>
    Std.ExtTreeMap.mem_toList_iff_getElem?_eq_some.mpr
      (hsubset b.1 b.2 (Std.ExtTreeMap.mem_toList_iff_getElem?_eq_some.mp hb))
  have hlength : m'.toList.length ≤ m.toList.length := by
    rw [Std.ExtTreeMap.length_toList, Std.ExtTreeMap.length_toList, hsize]
  have hperm := (subperm_of_subset hnodup hmem).perm_of_length_le hlength
  refine Std.ExtTreeMap.ext_getElem? fun k => Option.ext fun v => ?_
  rw [← Std.ExtTreeMap.mem_toList_iff_getElem?_eq_some, hperm.mem_iff,
    Std.ExtTreeMap.mem_toList_iff_getElem?_eq_some]

/-- A binding of the result is one of the list or was there before. -/
lemma mem_of_getElem?_insertAll {m : Std.ExtTreeMap κ ν}
    (h : (insertAll m bindings)[k]? = some v) :
    (k, v) ∈ bindings ∨ m[k]? = some v := by
  induction bindings generalizing m with
  | nil => exact .inr h
  | cons binding rest ih =>
    rcases ih h with hrest | hfirst
    · exact .inl (mem_cons_of_mem _ hrest)
    · rw [Std.ExtTreeMap.getElem?_insert] at hfirst
      split at hfirst
      next heq =>
        obtain rfl := Std.LawfulEqOrd.eq_of_compare heq
        exact .inl (Option.some.inj hfirst ▸ mem_cons_self)
      · exact .inr hfirst

omit [Std.LawfulEqOrd κ] in
lemma size_insertAll_le (m : Std.ExtTreeMap κ ν) (bindings : List (κ × ν)) :
    (insertAll m bindings).size ≤ m.size + bindings.length := by
  induction bindings generalizing m with
  | nil => exact le_rfl
  | cons binding rest ih =>
    have hrest := ih (m.insert binding.1 binding.2)
    have hfirst : (m.insert binding.1 binding.2).size ≤ m.size + 1 :=
      Std.ExtTreeMap.size_insert_le
    show (insertAll (m.insert binding.1 binding.2) rest).size ≤ _
    rw [length_cons]
    omega

/-- A later binding of a key replaces an earlier one, so the bindings of the result weigh at
most what the list weighs. -/
lemma sum_insertAll_le (weight : κ × ν → Nat) (bindings : List (κ × ν)) :
    ((insertAll ∅ bindings).toList.map weight).sum ≤ (bindings.map weight).sum := by
  have hnodup : (insertAll ∅ bindings).toList.Nodup :=
    List.Nodup.of_map _ (Order.ascending.keys_nodup (insertAll ∅ bindings))
  have hsubset : (insertAll ∅ bindings).toList ⊆ bindings := by
    rintro ⟨k, v⟩ hmem
    rcases mem_of_getElem?_insertAll (Std.ExtTreeMap.mem_toList_iff_getElem?_eq_some.mp hmem) with
      hin | hempty
    · exact hin
    · simp at hempty
  obtain ⟨kept, hperm, hsublist⟩ := subperm_of_subset hnodup hsubset
  rw [← (hperm.map weight).sum_nat]
  exact (hsublist.map weight).sum_le_sum fun _ _ => Nat.zero_le _

/-- A search that at most one element can answer does not depend on the order. -/
lemma findSome?_perm {α : Type} {f : α → Option β} {l₁ l₂ : List α} (hperm : l₁.Perm l₂)
    (hunique : l₁.Pairwise fun a b => f a = none ∨ f b = none) :
    l₁.findSome? f = l₂.findSome? f := by
  induction hperm with
  | nil => rfl
  | cons a hperm ih =>
    rw [findSome?_cons, findSome?_cons, ih (pairwise_cons.mp hunique).2]
  | swap a b l =>
    simp only [findSome?_cons]
    have hne := (pairwise_cons.mp hunique).1 a mem_cons_self
    rcases hne with h | h <;> rw [h]
  | trans h₁ h₂ ih₁ ih₂ =>
    rw [ih₁ hunique]
    exact ih₂ (hunique.perm h₁ fun h => h.symm)

end UnorderedMap
