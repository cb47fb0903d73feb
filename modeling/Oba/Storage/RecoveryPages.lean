import Oba.Storage.Recovery
import Oba.Storage.WALRefinement

/-! # What recovery does to a byte

The passes write images over pages one after the other. A byte of a page that can be written
ends with the before image of the first update that is undone, else with the after image of
the last update that is redone, else as it was.
-/

namespace Oba.Storage

open UnorderedMap Option List

/-- The number in the header and the length of the data of every page. -/
abbrev Layout := List (Nat × Nat)

namespace PageFile

def layout (f : PageFile) : Layout := f.pages.map fun page => (page.pageID, page.data.length)

/-- A byte of the data of a page. -/
def byte (f : PageFile) (p i : Nat) : Option UInt8 := (f.readPage p).bind fun page => page.data[i]?

end PageFile

namespace Layout

/-- The header of a page has its own number, or zero in a page that was never written. -/
def WellFormed (layout : Layout) : Prop :=
  ∀ p header length, p ≠ 0 → layout[p]? = some (header, length) → header = p ∨ header = 0

/-- The header of a page has its number. -/
def Initialised (layout : Layout) (p : Nat) : Prop :=
  p ≠ 0 ∧ layout[p]?.map Prod.fst = some p

instance (layout : Layout) (p : Nat) : Decidable (layout.Initialised p) :=
  inferInstanceAs (Decidable (_ ∧ _))

/-- What an image says about a byte of a page. -/
def imageAt (layout : Layout) (pageID : UInt64) (offset : UInt16) (image : Bytes) (p i : Nat) :
    Option UInt8 :=
  if pageID.toNat = p ∧ p ≠ 0 then
    layout[p]?.bind fun page => Patch.valueAt ⟨offset.toNat, image⟩ page.2 i
  else none

end Layout

/-- What the after image of a record says about a byte. -/
def WALRecord.after (r : WALRecord) (layout : Layout) (p i : Nat) : Option UInt8 :=
  layout.imageAt r.pageID r.offset r.newData p i

/-- What the before image of a record says about a byte. -/
def WALRecord.before (r : WALRecord) (layout : Layout) (p i : Nat) : Option UInt8 :=
  layout.imageAt r.pageID r.offset r.oldData p i

namespace PageFile

/-- Write an image over a page, or leave the file when that fails. -/
def apply (f : PageFile) (pageID : UInt64) (offset : UInt16) (image : Bytes) : PageFile :=
  (f.applyImage pageID offset image).getD f

lemma layout_eq_of_readPage {f : PageFile} {p : Nat} {page : Page}
    (h : f.readPage p = some page) :
    p ≠ 0 ∧ f.layout[p]? = some (page.pageID, page.data.length) := by
  unfold readPage at h
  split at h
  · cases h
  next hp => exact ⟨hp, by rw [layout, getElem?_map, h, map_some]⟩

section

variable {f : PageFile} (hwf : f.layout.WellFormed) (pageID : UInt64) (offset : UInt16)
  (image : Bytes)
include hwf

/-- Writing an image replaces the data of one page whose header has its number, or changes
nothing. -/
lemma apply_cases :
    (∃ page, f.readPage pageID.toNat = some page ∧ page.pageID = pageID.toNat ∧
      f.apply pageID offset image = ⟨f.pages.set pageID.toNat
        { page with data := Patch.apply ⟨offset.toNat, image⟩ page.data }⟩) ∨
    (f.apply pageID offset image = f ∧ ∀ p i, f.layout.Initialised p →
      f.layout.imageAt pageID offset image p i = none) := by
  unfold apply applyImage
  split
  next hzero =>
    refine .inr ⟨rfl, fun p i _ => if_neg ?_⟩
    rintro ⟨heq, hp⟩
    rw [hzero] at heq
    exact hp heq.symm
  next hzero =>
    split
    next hnone =>
      refine .inr ⟨rfl, fun p i hinit => ?_⟩
      unfold Layout.imageAt
      split
      next hin =>
        obtain ⟨rfl, hp⟩ := hin
        rw [readPage, if_neg hp] at hnone
        rw [layout, List.getElem?_map, hnone, map_none, bind_none]
      · rfl
    next page hread =>
      obtain ⟨hp, hlayout⟩ := layout_eq_of_readPage hread
      split
      next hfits =>
        rcases hwf _ _ _ hp hlayout with hheader | hheader
        · have hlt : pageID.toNat < f.pages.length := by
            rw [readPage, if_neg hp] at hread
            exact (List.getElem?_eq_some_iff.mp hread).1
          refine .inl ⟨page, hread, hheader, ?_⟩
          rw [writePage, if_neg (hheader ▸ hp), if_neg (hheader ▸ not_le.mpr hlt), getD_some]
          rw [hheader]
        · refine .inr ⟨by rw [writePage, if_pos hheader, getD_none], fun p i hinit => ?_⟩
          refine if_neg ?_
          rintro ⟨rfl, -⟩
          rw [Layout.Initialised, hlayout, hheader] at hinit
          exact hp (some.inj hinit.2).symm
      next hfits =>
        refine .inr ⟨rfl, fun p i _ => ?_⟩
        unfold Layout.imageAt
        split
        next hin =>
          rw [← hin.1, hlayout, bind_some, Patch.valueAt]
          split
          next hlong =>
            have hempty : image = [] := by
              by_contra hne
              exact hfits ⟨hne, hlong.1⟩
            rw [hempty, List.getElem?_nil]
          · rfl
        · rfl

lemma layout_apply : (f.apply pageID offset image).layout = f.layout := by
  rcases apply_cases hwf pageID offset image with ⟨page, hread, hheader, heq⟩ | ⟨heq, -⟩
  · obtain ⟨hp, hlayout⟩ := layout_eq_of_readPage hread
    rw [heq, layout, List.map_set, Patch.length_apply, ← layout]
    apply List.ext_getElem?
    intro p
    rw [List.getElem?_set]
    split
    next hpage =>
      rw [← hpage, hlayout, if_pos (List.getElem?_eq_some_iff.mp hlayout).1]
    · rfl
  · rw [heq]

/-- An image that is written decides the bytes it covers. -/
lemma byte_apply (p i : Nat) :
    (f.apply pageID offset image).byte p i =
      (if f.layout.Initialised p then f.layout.imageAt pageID offset image p i else none).or
        (f.byte p i) := by
  rcases apply_cases hwf pageID offset image with ⟨page, hread, hheader, heq⟩ | ⟨heq, hnone⟩
  · obtain ⟨hp, hlayout⟩ := layout_eq_of_readPage hread
    rw [heq]
    by_cases hpage : pageID.toNat = p
    · subst hpage
      have hinit : f.layout.Initialised pageID.toNat := by
        rw [Layout.Initialised, hlayout, hheader]
        exact ⟨hp, rfl⟩
      have hlt : pageID.toNat < f.pages.length := by
        rw [readPage, if_neg hp] at hread
        exact (List.getElem?_eq_some_iff.mp hread).1
      rw [if_pos hinit, Layout.imageAt, if_pos ⟨rfl, hp⟩, hlayout, bind_some, byte, byte,
        hread, bind_some, readPage, if_neg hp, List.getElem?_set_self hlt, bind_some,
        Patch.getElem?_apply]
    · have himage : f.layout.imageAt pageID offset image p i = none :=
        if_neg fun h => hpage h.1
      rw [himage, ite_self, none_or, byte, byte, readPage, readPage, List.getElem?_set_ne hpage]
  · rw [heq]
    split
    next hinit => rw [hnone p i hinit, none_or]
    · rw [none_or]

end

/-- Write an image of every record over its page. -/
def applyAll (image : WALRecord → Bytes) (rs : List WALRecord) (f : PageFile) : PageFile :=
  rs.foldl (fun f r => f.apply r.pageID r.offset (image r)) f

section

variable (image : WALRecord → Bytes) (rs : List WALRecord) {f : PageFile}
  (hwf : f.layout.WellFormed)
include hwf

lemma layout_applyAll : (f.applyAll image rs).layout = f.layout := by
  induction rs generalizing f with
  | nil => rfl
  | cons r rest ih =>
    have hlayout := layout_apply hwf r.pageID r.offset (image r)
    rw [applyAll, foldl_cons, ← applyAll, ih (hlayout ▸ hwf), hlayout]

/-- The last image over a byte decides it. -/
lemma byte_applyAll (p i : Nat) :
    (f.applyAll image rs).byte p i =
      (if f.layout.Initialised p then
        rs.reverse.findSome? fun r => f.layout.imageAt r.pageID r.offset (image r) p i
      else none).or (f.byte p i) := by
  induction rs generalizing f with
  | nil => simp [applyAll]
  | cons r rest ih =>
    have hlayout := layout_apply hwf r.pageID r.offset (image r)
    rw [applyAll, foldl_cons, ← applyAll, ih (hlayout ▸ hwf), hlayout, byte_apply hwf]
    split
    · rw [reverse_cons, findSome?_append, findSome?_singleton, Option.or_assoc]
    · rw [Option.none_or]

end

end PageFile

end Oba.Storage
