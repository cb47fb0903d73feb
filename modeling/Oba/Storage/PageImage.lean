import Oba.Storage.Engine

/-! # Entries on pages

The version store writes the stored form of an entry behind its length on a page of its own, and
the disk loader reads it from there. The engine's model keeps the attributes that this gives.
-/

namespace Oba.Storage

open ByteCodec List

/-- The data part of a new page on which `allocateStorage` has written. -/
def pageImage (data : Bytes) : Bytes :=
  let page := replicate pageDataSize 0
  if data.length + 4 ≤ page.length then
    putUint 4 data.length ++ (data ++ page.drop (4 + data.length))
  else page

/-- What the callback of `setupDiskLoader` reads from a page. -/
def loadPage (page : Bytes) : Option Bytes :=
  if page.length < 4 then none
  else
    let dataLen := getUint (page.take 4)
    if dataLen = 0 ∨ page.length < dataLen + 4 then none else some ((page.drop 4).take dataLen)

lemma loadPage_pageImage {data : Bytes} (hne : data ≠ [])
    (hfits : data.length + 4 ≤ pageDataSize) : loadPage (pageImage data) = some data := by
  have hpos := length_pos_of_ne_nil hne
  have hcount : data.length < 256 ^ 4 := by
    unfold pageDataSize at hfits
    omega
  obtain ⟨rest, himage⟩ : ∃ rest, pageImage data = putUint 4 data.length ++ (data ++ rest) := by
    rw [pageImage, length_replicate, if_pos hfits]
    exact ⟨_, rfl⟩
  rw [loadPage, himage, take_left' (length_putUint _ _), drop_left' (length_putUint _ _),
    getUint_putUint_of_lt hcount]
  simp only [length_append, length_putUint, take_left]
  rw [if_neg (by omega), if_neg (by omega)]

/-- What is written for a list is as long as the list, and as what is written for a member. -/
lemma length_le_flatMap {α : Type} (items : List α) {put : α → Bytes}
    (hput : ∀ a, 0 < (put a).length) : items.length ≤ (items.flatMap put).length ∧
      ∀ a ∈ items, (put a).length ≤ (items.flatMap put).length := by
  rw [length_flatMap]
  refine ⟨?_, fun a ha => le_sum_of_mem (mem_map_of_mem ha)⟩
  rw [← length_map (fun a => (put a).length)]
  exact length_le_sum_of_one_le _ (forall_mem_map.mpr fun a _ => hput a)

/-- The lengths in a short stored form fit their fields. -/
lemma fits_of_length_serializeEntry {order : MapOrder} {entry : Entry}
    (h : (serializeEntry order entry).length < 256 ^ 2) : entry.Fits 4 := by
  obtain ⟨hsize, hbindings⟩ := length_le_flatMap (order.range entry.attributes)
    fun binding => show 0 < (putAttribute binding).length by simp [putAttribute]
  rw [order.length_range] at hsize
  simp only [serializeEntry, length_append, length_putBlock, length_putUint] at h
  refine ⟨by omega, by omega, fun name values hmem => ?_⟩
  obtain ⟨hcount, hvalues⟩ := length_le_flatMap values
    fun value => show 0 < (putBlock 4 value).length by simp [putBlock]
  have hbinding := hbindings _ ((order.mem_range _).mpr hmem)
  simp only [putAttribute, length_append, length_putBlock, length_putUint] at hbinding
  refine ⟨show name.length < _ by omega, show values.length < _ by omega, fun value hvalue => ?_⟩
  have hle := hvalues value hvalue
  rw [length_putBlock] at hle
  omega

/-- An entry that fits on a page is read back from it, in whatever order it was written. -/
theorem pageImage_roundTrip (order : MapOrder) (entry : Entry)
    (hfits : (serializeEntry order entry).length + 4 ≤ pageDataSize) :
    (loadPage (pageImage (serializeEntry order entry))).bind deserializeEntry =
      some entry.attributes := by
  have hshort : (serializeEntry order entry).length < 256 ^ 2 := by
    unfold pageDataSize at hfits
    omega
  rw [loadPage_pageImage (by simp [serializeEntry, putBlock, putUint]) hfits, Option.bind_some]
  exact deserializeEntry_serializeEntry order (fits_of_length_serializeEntry hshort)

/-- An attribute without a name, and with an empty value. -/
def nameless : Entry := ⟨[], (∅ : Attributes).insert [] [[]]⟩

theorem pageImage_roundTrip_nameless :
    (serializeEntry .ascending nameless).length + 4 ≤ pageDataSize ∧
      (loadPage (pageImage (serializeEntry .ascending nameless))).bind deserializeEntry =
        some nameless.attributes :=
  ⟨by decide, pageImage_roundTrip .ascending nameless (by decide)⟩

end Oba.Storage
