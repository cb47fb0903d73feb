import Mathlib.Data.List.Basic
import Mathlib.Data.Option.Basic

/-! # Overwriting parts of a list

A patch is written over the part of a list that starts at its offset, when it lies inside the
list. After several patches, every position holds what the last patch over it says.
-/

/-- Values and the position of the first of them. -/
structure Patch (α : Type) where
  offset : Nat
  values : List α
  deriving DecidableEq, Repr

namespace Patch

variable {α : Type}

def apply (patch : Patch α) (data : List α) : List α :=
  if patch.offset + patch.values.length ≤ data.length then
    data.take patch.offset ++ patch.values ++ data.drop (patch.offset + patch.values.length)
  else data

/-- What a patch says about a position of a list of the given length. -/
def valueAt (patch : Patch α) (length i : Nat) : Option α :=
  if patch.offset + patch.values.length ≤ length ∧ patch.offset ≤ i then
    patch.values[i - patch.offset]?
  else none

@[simp]
lemma length_apply (patch : Patch α) (data : List α) :
    (patch.apply data).length = data.length := by
  unfold apply
  split
  next hfits =>
    simp only [List.length_append, List.length_take, List.length_drop]
    omega
  · rfl

lemma getElem?_apply (patch : Patch α) (data : List α) (i : Nat) :
    (patch.apply data)[i]? = (patch.valueAt data.length i).or data[i]? := by
  unfold apply valueAt
  by_cases hfits : patch.offset + patch.values.length ≤ data.length
  · have hfront : (data.take patch.offset).length = patch.offset := by
      rw [List.length_take]
      omega
    rw [if_pos hfits, List.append_assoc]
    by_cases hi : patch.offset ≤ i
    · rw [if_pos ⟨hfits, hi⟩, List.getElem?_append_right (by omega), hfront]
      by_cases hin : i - patch.offset < patch.values.length
      · rw [List.getElem?_append_left hin, List.getElem?_eq_getElem hin, Option.some_or]
      · rw [List.getElem?_append_right (Nat.not_lt.mp hin), List.getElem?_drop,
          List.getElem?_eq_none (Nat.not_lt.mp hin)]
        congr 1
        omega
    · rw [if_neg fun h => hi h.2, List.getElem?_append_left (by omega),
        List.getElem?_take_of_lt (by omega), Option.none_or]
  · rw [if_neg hfits, if_neg fun h => hfits h.1, Option.none_or]

lemma lt_of_valueAt_eq_some {patch : Patch α} {length i : Nat} {a : α}
    (h : patch.valueAt length i = some a) : i < length := by
  unfold valueAt at h
  split at h
  next hin =>
    obtain ⟨hlt, -⟩ := List.getElem?_eq_some_iff.mp h
    omega
  · cases h

end Patch
