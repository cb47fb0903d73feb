import Oba.Storage.Engine

/-! # Entries of the backend

The backend keeps the names of attributes in lower case. Its entries are converted to those of
the storage engine and back by loops over the attributes.
-/

namespace Oba.Backend

open Storage (Bytes Attributes Entry MapOrder toLower)

/-! ## Attributes -/

section

variable (entry : Entry) (name : Bytes)

def getAttribute : List Bytes :=
  (entry.attributes[toLower name]?).getD []

def getFirstAttribute : Bytes :=
  ((getAttribute entry name).head?).getD []

def setAttribute (values : List Bytes) : Entry :=
  { entry with attributes := entry.attributes.insert (toLower name) values }

def addAttributeValue (value : Bytes) : Entry :=
  setAttribute entry name (getAttribute entry name ++ [value])

def deleteAttribute : Entry :=
  { entry with attributes := entry.attributes.erase (toLower name) }

/-- An attribute whose last value goes is deleted. -/
def deleteAttributeValue (value : Bytes) : Entry :=
  let values := getAttribute entry name
  if values = [] then entry
  else
    let newValues := values.filter (· ≠ value)
    if newValues = [] then deleteAttribute entry name else setAttribute entry name newValues

end

/-! ## Conversion -/

section

variable (order : MapOrder)

/-- The attributes under their names in lower case, set by a loop. Of attributes whose names differ
in case only, the last one in iteration order stays. -/
def lowerNames (attributes : Attributes) : Attributes :=
  (order.range attributes).foldl
    (fun lowered binding => lowered.insert (toLower binding.1) binding.2) ∅

lemma mem_lowerNames (attributes : Attributes) (name : Bytes) :
    name ∈ lowerNames order attributes ↔ ∃ n, n ∈ attributes ∧ toLower n = name := by
  have hfold : ∀ (bindings : List (Bytes × List Bytes)) (lowered : Attributes),
      name ∈ bindings.foldl (fun lowered binding => lowered.insert (toLower binding.1) binding.2)
        lowered ↔ name ∈ lowered ∨ ∃ binding ∈ bindings, toLower binding.1 = name := by
    intro bindings
    induction bindings with
    | nil => simp
    | cons binding bindings ih =>
      intro lowered
      rw [List.foldl_cons, ih, Std.ExtTreeMap.mem_insert, Std.LawfulEqCmp.compare_eq_iff_eq]
      simp only [List.mem_cons, exists_eq_or_imp]
      tauto
  unfold lowerNames
  rw [hfold]
  constructor
  · rintro (hempty | ⟨binding, hbinding, hname⟩)
    · exact absurd hempty Std.ExtTreeMap.not_mem_empty
    · exact ⟨binding.1, (order.mem_iff_mem_range attributes).mpr ⟨binding.2, hbinding⟩, hname⟩
  · rintro ⟨n, hn, hname⟩
    obtain ⟨values, hvalues⟩ := (order.mem_iff_mem_range attributes).mp hn
    exact .inr ⟨(n, values), hvalues, hname⟩

def convertFromStorageEntry (entry : Entry) : Entry :=
  ⟨entry.dn, lowerNames order entry.attributes⟩

def convertToStorageEntry (entry : Entry) : Entry :=
  ⟨entry.dn, lowerNames order entry.attributes⟩

end

end Oba.Backend
