import Mathlib.Data.List.DropRight
import Oba.Library.UnorderedMap

/-! # Entries and the names of their attributes

Strings are byte strings. Letters and blanks are those of ASCII: for other texts the functions
of the package `strings` below also know the letters and blanks of Unicode. The attributes of an
entry are a Go map, so every loop over them has an iteration order of its own.
-/

namespace Oba.Storage

open List

variable {s attr : Bytes} {attributes : Attributes}

abbrev Bytes := List UInt8

/-- The bytes of an ASCII text. -/
def ascii (text : String) : Bytes := text.toList.map fun c => UInt8.ofNat c.toNat

def isASCII (s : Bytes) : Bool := s.all (· < 128)

/-- `strings.ToLower` -/
def toLower (s : Bytes) : Bytes := s.map fun b => if 65 ≤ b ∧ b ≤ 90 then b + 32 else b

/-- `strings.EqualFold` -/
def equalFold (s t : Bytes) : Bool := toLower s = toLower t

def isSpace (b : UInt8) : Bool := b = 32 ∨ 9 ≤ b ∧ b ≤ 13

/-- `strings.TrimSpace` -/
def trimSpace (s : Bytes) : Bytes :=
  ((s.dropWhile isSpace).reverse.dropWhile isSpace).reverse

lemma trimSpace_sublist (s : Bytes) : (trimSpace s).Sublist s := by
  have hback := ((s.dropWhile isSpace).reverse.dropWhile_sublist isSpace).reverse
  rw [reverse_reverse] at hback
  exact hback.trans (s.dropWhile_sublist isSpace)

/-- A text that neither begins nor ends with a blank is not changed. -/
lemma trimSpace_of_ends (hfirst : ∀ b ∈ s.head?, isSpace b = false)
    (hlast : ∀ b ∈ s.getLast?, isSpace b = false) : trimSpace s = s := by
  have hkept : ∀ t : Bytes, (∀ b ∈ t.head?, isSpace b = false) → t.dropWhile isSpace = t := by
    intro t ht
    cases t with
    | nil => rfl
    | cons b rest => exact dropWhile_cons_of_neg (by simp [ht b rfl])
  rw [trimSpace, hkept s hfirst, hkept, reverse_reverse]
  rwa [head?_reverse]

lemma trimSpace_of_not_isSpace (hs : ∀ b ∈ s, isSpace b = false) : trimSpace s = s :=
  trimSpace_of_ends (fun b hb => hs b (mem_of_mem_head? hb))
    fun b hb => hs b (mem_of_mem_getLast? hb)

lemma length_toLower (s : Bytes) : (toLower s).length = s.length := length_map _

lemma ends_trimSpace (s : Bytes) : (∀ b ∈ (trimSpace s).head?, isSpace b = false) ∧
    ∀ b ∈ (trimSpace s).getLast?, isSpace b = false := by
  have hends : ∀ (l : Bytes), ∀ b ∈ (l.dropWhile isSpace).head?, isSpace b = false := by
    intro l b hb
    have hnot := l.head?_dropWhile_not isSpace
    rw [hb] at hnot
    exact hnot
  refine ⟨fun b hb => hends s b ?_, fun b hb => hends _ b (getLast?_reverse ▸ hb)⟩
  -- the first byte that is left comes first without the leading blanks as well
  obtain ⟨last, hlast⟩ : trimSpace s <+: s.dropWhile isSpace := rdropWhile_prefix isSpace _
  rw [← hlast, head?_append, hb]
  rfl

lemma trimSpace_trimSpace (s : Bytes) : trimSpace (trimSpace s) = trimSpace s :=
  trimSpace_of_ends (ends_trimSpace s).1 (ends_trimSpace s).2

lemma toLower_toLower (s : Bytes) : toLower (toLower s) = toLower s := by
  unfold toLower
  rw [map_map]
  refine map_congr_left fun b _ => ?_
  have hlower : ¬ (65 ≤ (if 65 ≤ b ∧ b ≤ 90 then b + 32 else b) ∧
      (if 65 ≤ b ∧ b ≤ 90 then b + 32 else b) ≤ 90) := by
    split
    next hupper =>
      simp only [UInt8.le_iff_toNat_le, UInt8.toNat_add, UInt8.toNat_ofNat] at hupper ⊢
      omega
    next hother => exact hother
  exact if_neg hlower

lemma isSpace_lower (b : UInt8) : isSpace (if 65 ≤ b ∧ b ≤ 90 then b + 32 else b) = isSpace b := by
  split
  next hupper =>
    unfold isSpace
    simp only [UInt8.le_iff_toNat_le, UInt8.toNat_add, UInt8.toNat_ofNat, ← UInt8.toNat_inj,
      decide_eq_decide] at hupper ⊢
    omega
  · rfl

lemma toLower_trimSpace (s : Bytes) : toLower (trimSpace s) = trimSpace (toLower s) := by
  have hdrop : ∀ l : Bytes, (toLower l).dropWhile isSpace = toLower (l.dropWhile isSpace) := by
    intro l
    unfold toLower
    rw [dropWhile_map]
    congr 2
    funext b
    exact isSpace_lower b
  have hreverse : ∀ l : Bytes, (toLower l).reverse = toLower l.reverse := fun l =>
    map_reverse.symm
  unfold trimSpace
  rw [hdrop, hreverse, hdrop, hreverse]

/-- `strings.Contains` -/
def contains (s part : Bytes) : Bool := s.tails.any (part.isPrefixOf ·)

/-- `map[string][][]byte` -/
abbrev Attributes := Std.ExtTreeMap Bytes (List Bytes)

/-- How one loop runs through an attribute map. -/
abbrev MapOrder := UnorderedMap.Order Bytes (List Bytes)

structure Entry where
  dn : Bytes
  attributes : Attributes

/-! ## Names that are equal but for their case -/

/-- At most one attribute has the name `attr` in some spelling. -/
def SpelledOnce (attr : Bytes) (attributes : Attributes) : Prop :=
  ∀ a b, a ∈ attributes → b ∈ attributes → toLower a = attr → toLower b = attr → a = b

/-- `GetAttribute` of an index entry: the first attribute in iteration order whose name is
`attr` in some spelling. -/
def lookupFolded (order : MapOrder) (attr : Bytes) (attributes : Attributes) : List Bytes :=
  ((order.range attributes).findSome? fun binding =>
    if toLower binding.1 = toLower attr then some binding.2 else none).getD []

/-- The canonical form of a uid value, unless the value is blank. -/
def canonicalUID (raw : Bytes) : Option Bytes :=
  let uid := toLower (trimSpace raw)
  if raw = [] ∨ uid = [] then none else some uid

/-- `extractCanonicalUID`: the first uid that is not blank, empty when there is none. -/
def extractCanonicalUID (order : MapOrder) (attributes : Attributes) : Bytes :=
  ((order.range attributes).findSome? fun binding =>
    if toLower binding.1 = ascii "uid" then binding.2.findSome? canonicalUID else none).getD []

/-- A loop that looks only at the spellings of one name does not depend on the order when the
name is spelled once. -/
lemma findSome?_range {β : Type} (o₁ o₂ : MapOrder) (honce : SpelledOnce attr attributes)
    {f : Bytes × List Bytes → Option β}
    (hf : ∀ binding, toLower binding.1 ≠ attr → f binding = none) :
    (o₁.range attributes).findSome? f = (o₂.range attributes).findSome? f := by
  refine UnorderedMap.findSome?_perm (o₁.range_perm o₂ attributes) ?_
  have hnodup := pairwise_map.mp (o₁.keys_nodup attributes)
  refine hnodup.imp_of_mem fun {a b} ha hb hne => ?_
  by_contra hboth
  rw [not_or] at hboth
  have hmem : ∀ binding ∈ o₁.range attributes, binding.1 ∈ attributes := fun binding hbinding =>
    (o₁.mem_iff_mem_range attributes).mpr ⟨binding.2, hbinding⟩
  have hname : ∀ binding, f binding ≠ none → toLower binding.1 = attr := fun binding hsome =>
    by_contra fun hother => hsome (hf binding hother)
  exact hne (honce _ _ (hmem a ha) (hmem b hb) (hname a hboth.1) (hname b hboth.2))

lemma lookupFolded_order (o₁ o₂ : MapOrder) (honce : SpelledOnce (toLower attr) attributes) :
    lookupFolded o₁ attr attributes = lookupFolded o₂ attr attributes := by
  unfold lookupFolded
  rw [findSome?_range o₁ o₂ honce fun binding hne => if_neg hne]

lemma extractCanonicalUID_order (o₁ o₂ : MapOrder)
    (honce : SpelledOnce (ascii "uid") attributes) :
    extractCanonicalUID o₁ attributes = extractCanonicalUID o₂ attributes := by
  unfold extractCanonicalUID
  rw [findSome?_range o₁ o₂ honce fun binding hne => if_neg hne]

/-! ## Equality of entries -/

/-- `entriesEqual` -/
def entriesEqual (order : MapOrder) (a b : Entry) : Bool :=
  a.dn = b.dn ∧ a.attributes.size = b.attributes.size ∧
    (order.range a.attributes).all fun binding => b.attributes[binding.1]? = some binding.2

lemma entriesEqual_order (o₁ o₂ : MapOrder) (a b : Entry) :
    entriesEqual o₁ a b = entriesEqual o₂ a b := by
  unfold entriesEqual
  rw [(o₁.range_perm o₂ a.attributes).all_eq]

lemma attributes_eq_of_entriesEqual {order : MapOrder} {a b : Entry}
    (h : entriesEqual order a b) : a.attributes = b.attributes := by
  obtain ⟨-, hsize, hall⟩ := of_decide_eq_true h
  refine UnorderedMap.eq_of_subset hsize fun k v hk => ?_
  exact of_decide_eq_true (all_eq_true.mp hall (k, v) ((order.mem_range a.attributes).mpr hk))

end Oba.Storage
