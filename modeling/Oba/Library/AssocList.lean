import Mathlib.Tactic.Common
import Mathlib.Data.List.Nodup

/-! # Association lists

Lookup after the list was filtered by its keys, after its values were mapped, and in a list
whose keys are distinct.
-/

namespace AssocList

open List

variable {κ ν μ : Type} [BEq κ] [LawfulBEq κ]

lemma lookup_map (l : List (κ × ν)) (f : κ → ν → μ) (k : κ) :
    (l.map fun binding => (binding.1, f binding.1 binding.2)).lookup k =
      (l.lookup k).map (f k) := by
  induction l with
  | nil => rfl
  | cons binding rest ih =>
    rw [map_cons, lookup_cons, lookup_cons, ih]
    cases hkey : k == binding.1 with
    | true => rw [beq_iff_eq.mp hkey]; rfl
    | false => rfl

lemma lookup_filter (l : List (κ × ν)) (p : κ → Bool) (k : κ) :
    (l.filter fun binding => p binding.1).lookup k = if p k then l.lookup k else none := by
  induction l with
  | nil => simp
  | cons binding rest ih =>
    obtain ⟨key, value⟩ := binding
    by_cases heq : k = key
    · subst heq
      by_cases hp : p k <;> simp [hp, ih]
    · have hne : (k == key) = false := beq_false_of_ne heq
      by_cases hp : p key <;> simp [hp, hne, lookup_cons, ih]

section

variable [DecidableEq κ] (l : List (κ × ν)) {k other : κ}

lemma lookup_erase_self (k : κ) : (l.filter (·.1 ≠ k)).lookup k = none := by
  rw [lookup_filter l (fun key => decide (key ≠ k)), if_neg (by simp)]

lemma lookup_erase_of_ne (h : other ≠ k) : (l.filter (·.1 ≠ k)).lookup other = l.lookup other := by
  rw [lookup_filter l (fun key => decide (key ≠ k)), if_pos (decide_eq_true h)]

end

section

variable {l : List (κ × ν)} {k : κ} {v : ν}

lemma mem_of_lookup (h : l.lookup k = some v) : (k, v) ∈ l := by
  obtain ⟨before, after, hl, _⟩ := lookup_eq_some_iff.mp h
  exact hl ▸ mem_append_right _ mem_cons_self

/-- The keys are distinct, so a binding is found. -/
lemma lookup_eq_some_iff (hnodup : (l.map Prod.fst).Nodup) :
    l.lookup k = some v ↔ (k, v) ∈ l := by
  refine ⟨mem_of_lookup, fun hmem => ?_⟩
  obtain ⟨before, after, rfl⟩ := append_of_mem hmem
  refine lookup_eq_some_iff.mpr ⟨before, after, rfl, fun binding hbinding => ?_⟩
  rw [map_append] at hnodup
  rw [bne_iff_ne]
  rintro rfl
  exact disjoint_of_nodup_append hnodup (mem_map_of_mem hbinding) mem_cons_self

lemma lookup_isSome_iff : (l.lookup k).isSome ↔ k ∈ l.map Prod.fst := by
  rw [List.lookup_isSome_iff, mem_map]
  refine exists_congr fun binding => and_congr_right fun _ => ?_
  rw [beq_iff_eq, eq_comm]

/-- A key whose bindings are known has them as its value. -/
lemma lookup_eq_of_mem_iff {value : Option ν} (h : ∀ v, (k, v) ∈ l ↔ value = some v) :
    l.lookup k = value := by
  cases hlookup : l.lookup k with
  | some v => exact ((h v).mp (mem_of_lookup hlookup)).symm
  | none =>
    cases value with
    | none => rfl
    | some v =>
      have hmem := mem_map_of_mem (f := Prod.fst) ((h v).mpr rfl)
      rw [← lookup_isSome_iff, hlookup] at hmem
      cases hmem

end

end AssocList
