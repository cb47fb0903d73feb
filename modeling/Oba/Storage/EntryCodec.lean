import Oba.Library.ByteCodec
import Oba.Storage.Entry

/-! # The stored form of an entry

The engine writes an entry as its DN and its attributes in iteration order. Reading is
lenient: it stops at the first field that is cut short and keeps what it has. Reading what
was written gives the attributes back, whatever the iteration order was.
-/

namespace Oba.Storage

open ByteCodec UnorderedMap List

/-- One attribute as `serializeEntry` writes it. -/
def putAttribute (binding : Bytes × List Bytes) : Bytes :=
  putBlock 2 binding.1 ++ putUint 4 binding.2.length ++ binding.2.flatMap (putBlock 4)

/-- `serializeEntry` of the engine -/
def serializeEntry (order : MapOrder) (entry : Entry) : Bytes :=
  putBlock 4 entry.dn ++ putUint 4 entry.attributes.size ++
    (order.range entry.attributes).flatMap putAttribute

/-- The loop over the values of one attribute. A value that is cut short ends it, with its
length already read. -/
def decodeValues : Nat → Bytes → List Bytes × Bytes
  | 0, s => ([], s)
  | count + 1, s =>
    match readUint 4 s with
    | none => ([], s)
    | some (valueLen, s) =>
      match readBytes valueLen s with
      | none => ([], s)
      | some (value, s) => ((value :: (decodeValues count s).1), (decodeValues count s).2)

/-- The loop over the attributes, which a name or a value count that is cut short ends. -/
def decodeAttributes : Nat → Bytes → List (Bytes × List Bytes)
  | 0, _ => []
  | count + 1, s =>
    match readBlock 2 s with
    | none => []
    | some (name, s) =>
      match readUint 4 s with
      | none => []
      | some (valueCount, s) =>
        (name, (decodeValues valueCount s).1) ::
          decodeAttributes count (decodeValues valueCount s).2

/-- `deserializeEntry` of the engine: the attributes, or `none` for `ErrInvalidEntry`. -/
def deserializeEntry (data : Bytes) : Option Attributes :=
  if data.length < 8 then none
  else match readUint 4 data with
    | none => none
    | some (dnLen, s) =>
      match readUint 4 (s.drop dnLen) with
      | none => some ∅
      | some (attrCount, s) => some (insertAll ∅ (decodeAttributes attrCount s))

/-! ## Reading what was written -/

/-- The lengths of an attribute fit its fields, when the values are counted in `width` bytes. -/
@[mk_iff]
structure BindingFits (width : Nat) (binding : Bytes × List Bytes) : Prop where
  name : binding.1.length < 256 ^ 2
  count : binding.2.length < 256 ^ width
  value : ∀ value ∈ binding.2, value.length < 256 ^ 4

/-- The lengths of an entry fit its fields, when DN, attributes and values are counted in
`width` bytes. -/
structure Entry.Fits (width : Nat) (entry : Entry) : Prop where
  dn : entry.dn.length < 256 ^ width
  size : entry.attributes.size < 256 ^ width
  bindings : ∀ (name : Bytes) (values : List Bytes), entry.attributes[name]? = some values →
    BindingFits width (name, values)

lemma Entry.Fits.mono {width width' : Nat} {entry : Entry} (hfits : entry.Fits width)
    (hle : width ≤ width') : entry.Fits width' := by
  have hpow : 256 ^ width ≤ 256 ^ width' := Nat.pow_le_pow_right (by decide) hle
  refine ⟨hfits.dn.trans_le hpow, hfits.size.trans_le hpow, fun name values hmem => ?_⟩
  obtain ⟨hname, hcount, hvalue⟩ := hfits.bindings name values hmem
  exact ⟨hname, hcount.trans_le hpow, hvalue⟩

lemma Entry.Fits.range {width : Nat} {entry : Entry} (hfits : entry.Fits width)
    (order : MapOrder) : ∀ binding ∈ order.range entry.attributes, BindingFits width binding :=
  fun _ hmem => hfits.bindings _ _ ((order.mem_range _).mp hmem)

instance (width : Nat) (binding : Bytes × List Bytes) : Decidable (BindingFits width binding) :=
  decidable_of_iff _ (bindingFits_iff width binding).symm

instance (width : Nat) (entry : Entry) : Decidable (entry.Fits width) :=
  decidable_of_iff (entry.dn.length < 256 ^ width ∧ entry.attributes.size < 256 ^ width ∧
      ∀ binding ∈ entry.attributes.toList, BindingFits width binding)
    ⟨fun h => ⟨h.1, h.2.1, fun _ _ hmem =>
        h.2.2 _ (Std.ExtTreeMap.mem_toList_iff_getElem?_eq_some.mpr hmem)⟩,
      fun h => ⟨h.dn, h.size, h.range .ascending⟩⟩

lemma decodeValues_flatMap (values : List Bytes) (hfits : ∀ value ∈ values, value.length < 256 ^ 4)
    (rest : Bytes) : decodeValues values.length (values.flatMap (putBlock 4) ++ rest) =
      (values, rest) := by
  induction values with
  | nil => rfl
  | cons value values ih =>
    obtain ⟨hvalue, hvalues⟩ := forall_mem_cons.mp hfits
    rw [length_cons, decodeValues]
    simp only [flatMap_cons, putBlock, append_assoc, readUint_putUint,
      Nat.mod_eq_of_lt hvalue, readBytes_append]
    rw [ih hvalues]

lemma decodeAttributes_flatMap (bindings : List (Bytes × List Bytes))
    (hfits : ∀ binding ∈ bindings, BindingFits 4 binding) :
    decodeAttributes bindings.length (bindings.flatMap putAttribute) = bindings := by
  induction bindings with
  | nil => rfl
  | cons binding bindings ih =>
    obtain ⟨⟨hname, hcount, hvalue⟩, hrest⟩ := forall_mem_cons.mp hfits
    rw [length_cons, decodeAttributes]
    simp only [flatMap_cons, putAttribute, append_assoc, readBlock_putBlock hname,
      readUint_putUint, Nat.mod_eq_of_lt hcount, decodeValues_flatMap _ hvalue]
    rw [ih hrest]

/-- What the engine stores for an entry does not depend on the iteration order. -/
lemma deserializeEntry_serializeEntry (order : MapOrder) {entry : Entry} (hfits : entry.Fits 4) :
    deserializeEntry (serializeEntry order entry) = some entry.attributes := by
  have hdecode := decodeAttributes_flatMap _ (hfits.range order)
  rw [order.length_range] at hdecode
  unfold deserializeEntry serializeEntry
  rw [if_neg (by simp [putBlock]; omega)]
  simp only [putBlock, append_assoc, readUint_putUint, Nat.mod_eq_of_lt hfits.dn,
    drop_left, Nat.mod_eq_of_lt hfits.size, hdecode, insertAll_range]

lemma length_serializeEntry_order (o₁ o₂ : MapOrder) (entry : Entry) :
    (serializeEntry o₁ entry).length = (serializeEntry o₂ entry).length := by
  have hattributes := ((o₁.range_perm o₂ entry.attributes).flatMap_right putAttribute).length_eq
  simp only [serializeEntry, length_append, hattributes]

end Oba.Storage
