import Mathlib.Data.List.Infix
import Mathlib.Data.List.TakeDrop

/-! # Parts of a list, one after another

A list has some parts in this order if it is the parts with arbitrary lists before, between and
after them. Taking the first occurrence of every part finds them if they are there.
-/

namespace Greedy

open List

variable {α : Type*} [DecidableEq α] {part s : List α} {i : Nat}

/-! ## One part -/

/-- Where `part` occurs first. -/
def index (part : List α) : List α → Option Nat
  | [] => if part = [] then some 0 else none
  | a :: rest => if part.isPrefixOf (a :: rest) then some 0 else (index part rest).map (· + 1)

lemma index_of_isPrefix (h : part <+: s) : index part s = some 0 := by
  cases s with
  | nil => simp [index, prefix_nil.mp h]
  | cons a rest => simp [index, h]

/-- The part is where it is found. -/
lemma eq_of_index (h : index part s = some i) :
    ∃ before after, s = before ++ part ++ after ∧ before.length = i := by
  induction s generalizing i with
  | nil =>
    simp only [index, Option.ite_none_right_eq_some] at h
    obtain ⟨rfl, ⟨⟩⟩ := h
    exact ⟨[], [], rfl, rfl⟩
  | cons a rest ih =>
    rw [index] at h
    split at h
    next hstarts =>
      obtain ⟨after, hafter⟩ := isPrefixOf_iff_prefix.mp hstarts
      cases h
      exact ⟨[], after, hafter.symm, rfl⟩
    · obtain ⟨j, hj, rfl⟩ := Option.map_eq_some_iff.mp h
      obtain ⟨before, after, rfl, rfl⟩ := ih hj
      exact ⟨a :: before, after, rfl, rfl⟩

/-- A part that occurs is found no later than there. -/
lemma index_le (before part after : List α) :
    ∃ i ≤ before.length, index part (before ++ part ++ after) = some i := by
  induction before with
  | nil => exact ⟨0, le_rfl, index_of_isPrefix (prefix_append part after)⟩
  | cons a before ih =>
    obtain ⟨i, hle, hi⟩ := ih
    rw [cons_append, cons_append, index]
    split
    · exact ⟨0, Nat.zero_le _, rfl⟩
    · exact ⟨i + 1, Nat.succ_le_succ hle, by rw [hi]; rfl⟩

lemma index_eq_none_iff : index part s = none ↔ ¬ part <:+: s := by
  constructor
  · rintro hnone ⟨before, after, rfl⟩
    obtain ⟨i, -, hi⟩ := index_le before part after
    rw [hi] at hnone
    cases hnone
  · intro hinfix
    cases hi : index part s with
    | none => rfl
    | some i =>
      obtain ⟨before, after, rfl, -⟩ := eq_of_index hi
      exact absurd ⟨before, after, rfl⟩ hinfix

/-- A part is not found where its first element does not occur. -/
lemma index_append_of_not_mem {a : α} (hs : a ∉ s) (part t : List α) :
    index (a :: part) (s ++ t) = (index (a :: part) t).map (s.length + ·) := by
  induction s with
  | nil => simp
  | cons c s ih =>
    obtain ⟨hc, hs⟩ := ne_and_not_mem_of_not_mem_cons hs
    rw [cons_append, index, if_neg (by simp [hc]), ih hs, Option.map_map]
    congr 1
    funext i
    simp only [Function.comp_apply, length_cons]
    omega

lemma length_le_of_index (h : index part s = some i) : i + part.length ≤ s.length := by
  obtain ⟨before, after, rfl, rfl⟩ := eq_of_index h
  simp

/-! ## Several parts -/

/-- The parts occur in `s` one after another, without overlap, and `last` ends it. -/
def Splits (last : List α) : List (List α) → List α → Prop
  | [], s => last <:+ s
  | part :: rest, s => ∃ before after, s = before ++ part ++ after ∧ Splits last rest after

omit [DecidableEq α] in
lemma Splits.of_suffix {last : List α} {parts : List (List α)} {t : List α}
    (h : Splits last parts s) (hsuffix : s <:+ t) : Splits last parts t := by
  obtain ⟨front, rfl⟩ := hsuffix
  cases parts with
  | nil => exact h.trans (suffix_append front s)
  | cons part rest =>
    obtain ⟨before, after, rfl, hrest⟩ := h
    exact ⟨front ++ before, after, by simp, hrest⟩

omit [DecidableEq α] in
lemma splits_flatten (last : List α) (parts : List (List α)) :
    Splits last parts (parts.flatten ++ last) := by
  induction parts with
  | nil => exact suffix_rfl
  | cons part rest ih => exact ⟨[], rest.flatten ++ last, by simp, ih⟩

omit [DecidableEq α] in
lemma splits_nil_cons (last : List α) (parts : List (List α)) (s : List α) :
    Splits last ([] :: parts) s ↔ Splits last parts s := by
  constructor
  · rintro ⟨before, after, rfl, hrest⟩
    exact hrest.of_suffix ⟨before, by simp⟩
  · intro h
    exact ⟨[], s, rfl, h⟩

/-- What is left behind the first occurrences of the parts. -/
def remainder : List (List α) → List α → Option (List α)
  | [], s => some s
  | part :: rest, s =>
    match index part s with
    | none => none
    | some i => remainder rest (s.drop (i + part.length))

lemma remainder_append (parts others : List (List α)) (s : List α) :
    remainder (parts ++ others) s = (remainder parts s).bind (remainder others) := by
  induction parts generalizing s with
  | nil => rfl
  | cons part rest ih =>
    rw [cons_append, remainder, remainder]
    cases index part s with
    | none => rfl
    | some i => exact ih _

/-- First occurrences are enough. -/
lemma splits_iff_remainder (last : List α) (parts : List (List α)) (s : List α) :
    Splits last parts s ↔ ∃ left, remainder parts s = some left ∧ last <:+ left := by
  induction parts generalizing s with
  | nil => simp [Splits, remainder]
  | cons part rest ih =>
    constructor
    · rintro ⟨before, after, rfl, hrest⟩
      obtain ⟨i, hle, hi⟩ := index_le before part after
      have hsuffix : after <:+ (before ++ part ++ after).drop (i + part.length) := by
        have hdrop : after = (before ++ part ++ after).drop (before.length + part.length) := by
          rw [← length_append, drop_left]
        have hsplit : before.length + part.length =
            (i + part.length) + (before.length - i) := by omega
        rw [hsplit, ← drop_drop] at hdrop
        have hlater := drop_suffix (before.length - i)
          ((before ++ part ++ after).drop (i + part.length))
        rwa [← hdrop] at hlater
      rw [remainder, hi]
      exact (ih _).mp (hrest.of_suffix hsuffix)
    · rintro ⟨left, hleft, hlast⟩
      rw [remainder] at hleft
      cases hi : index part s with
      | none => simp [hi] at hleft
      | some i =>
        obtain ⟨before, after, rfl, rfl⟩ := eq_of_index hi
        rw [hi] at hleft
        dsimp only at hleft
        rw [← length_append, drop_left] at hleft
        exact ⟨before, after, rfl, (ih after).mpr ⟨left, hleft, hlast⟩⟩

end Greedy
