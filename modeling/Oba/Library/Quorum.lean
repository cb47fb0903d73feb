import Mathlib.Data.Finset.Card

/-! # Majorities

Two majorities of one finite membership have a common member.
-/

namespace Quorum

open List

variable {Member : Type*} [DecidableEq Member] {members : List Member}

/-- A set of members that is larger than half of the membership. -/
structure Majority (members : List Member) (quorum : Finset Member) : Prop where
  subset : quorum ⊆ members.toFinset
  half_lt : members.length < 2 * quorum.card

lemma Majority.exists_common {first second : Finset Member} (hfirst : Majority members first)
    (hsecond : Majority members second) : ∃ member, member ∈ first ∧ member ∈ second := by
  have hunion : (first ∪ second).card ≤ members.length :=
    (Finset.card_le_card (Finset.union_subset hfirst.subset hsecond.subset)).trans
      (toFinset_card_le members)
  have hcard := Finset.card_union_add_card_inter first second
  have hpos : 0 < (first ∩ second).card := by
    have := hfirst.half_lt
    have := hsecond.half_lt
    omega
  obtain ⟨member, hmember⟩ := Finset.card_pos.mp hpos
  exact ⟨member, Finset.mem_inter.mp hmember⟩

/-- One member with more than half of the membership's votes, its own included. -/
lemma Majority.of_voters {self : Member} {voters : List Member} (hself : self ∈ members)
    (hvoters : ∀ voter ∈ voters, voter ∈ members) (hnodup : (self :: voters).Nodup)
    (hcount : members.length < 2 * (voters.length + 1)) :
    Majority members (self :: voters).toFinset := by
  refine ⟨?_, ?_⟩
  · intro member hmember
    rcases mem_cons.mp (mem_toFinset.mp hmember) with rfl | hmem
    · exact mem_toFinset.mpr hself
    · exact mem_toFinset.mpr (hvoters member hmem)
  · rw [toFinset_card_of_nodup hnodup]
    exact hcount

end Quorum
