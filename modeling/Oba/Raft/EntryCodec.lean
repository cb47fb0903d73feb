import Oba.Storage.EntryCodec

/-! # Entries in commands and snapshots

The state machine writes an entry with 16-bit lengths and counts, in iteration order, and
reads it back strictly. An entry that fits comes back as it was, whatever the order.
-/

namespace Oba.Raft

open ByteCodec UnorderedMap Storage List Option

variable {binding : Bytes × List Bytes} {entry : Entry}

/-- One attribute as `serializeEntry` writes it. -/
def putAttribute (binding : Bytes × List Bytes) : Bytes :=
  putBlock 2 binding.1 ++ putUint 2 binding.2.length ++ binding.2.flatMap (putBlock 4)

/-- `serializeEntry` of the state machine -/
def serializeEntry (order : MapOrder) (entry : Entry) : Bytes :=
  putBlock 2 entry.dn ++ putUint 2 entry.attributes.size ++
    (order.range entry.attributes).flatMap putAttribute

def readAttribute (s : Bytes) : Option ((Bytes × List Bytes) × Bytes) := do
  let (name, s) ← readBlock 2 s
  let (valueCount, s) ← readUint 2 s
  let (values, s) ← readMany (readBlock 4) valueCount s
  some ((name, values), s)

/-- `deserializeEntry` of the state machine; `none` is `ErrLogCorrupted`. -/
def deserializeEntry (data : Bytes) : Option Entry :=
  if data = [] then none
  else do
    let (dn, s) ← readBlock 2 data
    let (attrCount, s) ← readUint 2 s
    let (bindings, _) ← readMany readAttribute attrCount s
    some ⟨dn, insertAll ∅ bindings⟩

lemma readAttribute_putAttribute (hfits : BindingFits 2 binding) (rest : Bytes) :
    readAttribute (putAttribute binding ++ rest) = some (binding, rest) := by
  have hvalues := readMany_flatMap binding.2
    (fun value hvalue => readBlock_putBlock (hfits.value value hvalue)) rest
  unfold readAttribute putAttribute
  simp only [append_assoc, readBlock_putBlock hfits.name, readUint_putUint,
    Nat.mod_eq_of_lt hfits.count, hvalues, bind_eq_bind, bind_some]

lemma deserializeEntry_serializeEntry (order : MapOrder) (hfits : entry.Fits 2) :
    deserializeEntry (serializeEntry order entry) = some entry := by
  have hbindings := readMany_flatMap (order.range entry.attributes)
    (fun binding hmem => readAttribute_putAttribute (hfits.range order binding hmem)) []
  rw [order.length_range, append_nil] at hbindings
  have hne : serializeEntry order entry ≠ [] := by simp [serializeEntry, putBlock, putUint]
  unfold deserializeEntry
  rw [if_neg hne, serializeEntry]
  simp only [append_assoc, readBlock_putBlock hfits.dn, readUint_putUint,
    Nat.mod_eq_of_lt hfits.size, hbindings, bind_eq_bind, bind_some, insertAll_range]

/-! ## Sizes -/

def entrySize (entry : Entry) : Nat :=
  4 + entry.dn.length + (entry.attributes.toList.map fun binding =>
    4 + binding.1.length + (binding.2.map fun value => 4 + value.length).sum).sum

lemma length_putAttribute (binding : Bytes × List Bytes) : (putAttribute binding).length =
    4 + binding.1.length + (binding.2.map fun value => 4 + value.length).sum := by
  have hvalues : (binding.2.flatMap (putBlock 4)).length =
      (binding.2.map fun value => 4 + value.length).sum := by
    rw [length_flatMap]
    exact congrArg (sum <| map · binding.2) (funext (length_putBlock 4))
  rw [putAttribute, length_append, length_append, length_putBlock, length_putUint]
  omega

lemma length_serializeEntry (order : MapOrder) (entry : Entry) :
    (serializeEntry order entry).length = entrySize entry := by
  have hsum := ((order.perm entry.attributes).map fun binding =>
    (putAttribute binding).length).sum_nat
  simp only [serializeEntry, length_append, length_putBlock, length_putUint, length_flatMap, hsum]
  simp only [length_putAttribute, entrySize]
  omega

lemma readAttribute_some {s rest : Bytes} (h : readAttribute s = some (binding, rest)) :
    BindingFits 2 binding ∧ s.length = (putAttribute binding).length + rest.length := by
  obtain ⟨⟨name, s₁⟩, hname, h⟩ := bind_eq_some_iff.mp h
  obtain ⟨⟨valueCount, s₂⟩, hcount, h⟩ := bind_eq_some_iff.mp h
  obtain ⟨⟨values, s₃⟩, hvalues, h⟩ := bind_eq_some_iff.mp h
  obtain ⟨rfl, rfl⟩ := Prod.mk.inj (some.inj h)
  obtain ⟨hnameFits, hnameLen⟩ := readBlock_some hname
  obtain ⟨hcountFits, hcountLen⟩ := readUint_some hcount
  obtain ⟨hlen, hall⟩ := readMany_forall (P := fun value => value.length < 256 ^ 4)
    (fun _ _ _ h => (readBlock_some h).1) hvalues
  have hvaluesLen :
      s₂.length = (values.map fun value : Bytes => 4 + value.length).sum + s₃.length :=
    length_rest_of_readMany (fun _ _ _ h => (readBlock_some h).2) hvalues
  refine ⟨⟨hnameFits, hlen ▸ hcountFits, hall⟩, ?_⟩
  rw [length_putAttribute]
  dsimp only at hnameLen hcountLen ⊢
  omega

/-- An entry that was read fits the form it was read from, and takes no more bytes when it is
written. -/
lemma deserializeEntry_some {data : Bytes} (h : deserializeEntry data = some entry) :
    entry.Fits 2 ∧ entrySize entry ≤ data.length := by
  unfold deserializeEntry at h
  split at h
  · cases h
  · obtain ⟨⟨dn, s₁⟩, hdn, h⟩ := bind_eq_some_iff.mp h
    obtain ⟨⟨attrCount, s₂⟩, hcount, h⟩ := bind_eq_some_iff.mp h
    obtain ⟨⟨bindings, s₃⟩, hbindings, h⟩ := bind_eq_some_iff.mp h
    cases h
    obtain ⟨hdnFits, hdnLen⟩ := readBlock_some hdn
    obtain ⟨hcountFits, hcountLen⟩ := readUint_some hcount
    obtain ⟨hlen, hall⟩ := readMany_forall (fun _ _ _ h => (readAttribute_some h).1) hbindings
    refine ⟨⟨hdnFits, ?_, fun name values hmem => ?_⟩, ?_⟩
    · have hsize := size_insertAll_le ∅ bindings
      rw [Std.ExtTreeMap.size_empty, zero_add, hlen] at hsize
      exact lt_of_le_of_lt hsize hcountFits
    · rcases mem_of_getElem?_insertAll hmem with hin | hempty
      · exact hall _ hin
      · simp at hempty
    · have hattributes := sum_insertAll_le (fun binding => (putAttribute binding).length) bindings
      have hbindingsLen :=
        length_rest_of_readMany (fun _ _ _ h => (readAttribute_some h).2) hbindings
      simp only [length_putAttribute] at hattributes hbindingsLen
      dsimp only [entrySize] at hdnLen hcountLen ⊢
      omega

end Oba.Raft
