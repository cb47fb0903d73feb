import Oba.Server.Search

/-! # Sorting of search results

The entries of a search are sorted by the first values of the keys' attributes. An entry without
a value comes last, whether the key is reversed or not.
-/

namespace Oba.Server

open Storage List Std

/-! ## Stable sorting -/

section

variable {α : Type*} {le : α → α → Bool}

/-- The elements of `l` in order, and equal ones in the order of their positions in `l`. -/
def StablySorted (le : α → α → Bool) (l sorted : List α) : Prop :=
  ∃ placed : List (α × Nat), placed.Perm l.zipIdx ∧ placed.Pairwise (zipIdxLE le · ·) ∧
    placed.map Prod.fst = sorted

lemma eq_of_zipIdxLE {l : List α} {x y : α × Nat} (hx : x ∈ l.zipIdx) (hy : y ∈ l.zipIdx)
    (hxy : zipIdxLE le x y) (hyx : zipIdxLE le y x) : x = y := by
  have hposition : x.2 = y.2 := by
    simp only [zipIdxLE] at hxy hyx
    grind
  rw [mem_zipIdx_iff_getElem?] at hx hy
  rw [hposition, hy] at hx
  exact Prod.ext (Option.some.inj hx).symm hposition

lemma stablySorted_iff (htrans : ∀ a b c, le a b → le b c → le a c)
    (htotal : ∀ a b, (le a b || le b a) = true) (l sorted : List α) :
    StablySorted le l sorted ↔ sorted = l.mergeSort le := by
  have hpairwise := pairwise_mergeSort (zipIdxLE_trans htrans) (zipIdxLE_total htotal) l.zipIdx
  have hperm := mergeSort_perm l.zipIdx (zipIdxLE le)
  constructor
  · rintro ⟨placed, hplaced, hordered, rfl⟩
    rw [← mergeSort_zipIdx]
    refine congrArg _ (Perm.eq_of_pairwise (fun x y hx hy => ?_) hordered hpairwise
      (hplaced.trans hperm.symm))
    exact eq_of_zipIdxLE (hplaced.mem_iff.mp hx) (hperm.mem_iff.mp hy)
  · rintro rfl
    exact ⟨_, hperm, hpairwise, mergeSort_zipIdx⟩

end

/-! ## The sort -/

structure SortKey where
  attr : Bytes
  reverse : Bool

structure SortControl where
  keys : List SortKey

/-- The first value of an attribute, which is empty if there is none. -/
def getSearchEntryFirstValue (entry : Option SearchEntry) (attr : Bytes) : Bytes :=
  match entry with
  | none => []
  | some entry =>
    match entry.attributes.find? fun a => toLower a.1 = toLower attr ∧ a.2 ≠ [] with
    | some (_, value :: _) => value
    | _ => []

def compareSearchEntryAttributeWithReverse (key : SortKey) (a b : Option SearchEntry) : Ordering :=
  let va := getSearchEntryFirstValue a key.attr
  let vb := getSearchEntryFirstValue b key.attr
  if va = [] ∧ vb = [] then .eq
  else if va = [] then .gt
  else if vb = [] then .lt
  else if key.reverse then (compare va vb).swap
  else compare va vb

/-- The first key by which two entries differ decides. -/
def compareSearchEntries (keys : List SortKey) (a b : Option SearchEntry) : Ordering :=
  match keys with
  | [] => .eq
  | key :: keys =>
    (compareSearchEntryAttributeWithReverse key a b).then (compareSearchEntries keys a b)

/-- `sort.SliceStable` may be any stable sort. -/
def sortSearchEntries (entries : List (Option SearchEntry)) (ctrl : Option SortControl) :
    List (Option SearchEntry) :=
  match ctrl with
  | none => entries
  | some ⟨keys⟩ =>
    if keys = [] ∨ entries.length ≤ 1 then entries
    else entries.mergeSort fun a b => compareSearchEntries keys b a ≠ .lt

instance (key : SortKey) : TransCmp (compareSearchEntryAttributeWithReverse key) := by
  let first := (getSearchEntryFirstValue · key.attr)
  have heq : compareSearchEntryAttributeWithReverse key =
      compareLex (compareOn fun e => (first e).isEmpty)
        fun a b => if key.reverse then compareOn first b a else compareOn first a b := by
    funext a b
    have hswap : ∀ v w : Bytes, (compare v w).swap = compare w v :=
      fun _ _ => OrientedCmp.eq_swap.symm
    simp only [compareSearchEntryAttributeWithReverse, compareLex, compareOn, hswap, first]
    cases getSearchEntryFirstValue a key.attr <;> cases getSearchEntryFirstValue b key.attr <;>
      cases key.reverse <;> rfl
  rw [heq]
  cases key.reverse
  · exact inferInstanceAs (TransCmp (compareLex _ (compareOn first)))
  · exact inferInstanceAs (TransCmp (compareLex _ fun a b => compareOn first b a))

instance (keys : List SortKey) : TransCmp (compareSearchEntries keys) := by
  induction keys with
  | nil => exact { eq_swap := rfl, isLE_trans := fun _ _ => rfl }
  | cons key keys ih =>
    exact inferInstanceAs (TransCmp (compareLex (compareSearchEntryAttributeWithReverse key)
      (compareSearchEntries keys)))

lemma compareSearchEntries_swap (keys : List SortKey) (a b : Option SearchEntry) :
    compareSearchEntries keys b a = (compareSearchEntries keys a b).swap := OrientedCmp.eq_swap

lemma compareSearchEntries_append (before keys : List SortKey) (a b : Option SearchEntry) :
    compareSearchEntries (before ++ keys) a b =
      (compareSearchEntries before a b).then (compareSearchEntries keys a b) := by
  induction before with
  | nil => rfl
  | cons key before ih => simp only [compareSearchEntries, cons_append, ih, Ordering.then_assoc]

lemma sortSearchEntries_eq (keys : List SortKey) (entries : List (Option SearchEntry)) :
    sortSearchEntries entries (some ⟨keys⟩) =
      entries.mergeSort fun a b => (compareSearchEntries keys a b).isLE := by
  have hle : ∀ a b, decide (compareSearchEntries keys b a ≠ .lt) =
      (compareSearchEntries keys a b).isLE := by
    intro a b
    rw [compareSearchEntries_swap]
    cases compareSearchEntries keys a b <;> rfl
  simp only [sortSearchEntries, hle]
  split
  next hfew =>
    refine (mergeSort_of_pairwise ?_).symm
    rcases hfew with rfl | hone
    · exact pairwise_of_forall fun _ _ => rfl
    · match entries, hone with
      | [], _ => exact .nil
      | [_], _ => exact pairwise_singleton _ _
  · rfl

/-- The attribute is there, perhaps with an empty value. -/
def HasAttribute (entry : Option SearchEntry) (attr : Bytes) : Prop :=
  ∃ e ∈ entry, ∃ a ∈ e.attributes, toLower a.1 = toLower attr

end Oba.Server
