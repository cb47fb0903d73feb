import Oba.Storage.Calls

/-! # The spellings of a DN

The version store knows an entry by its normalised DN, the DN index by the components of it. Two
spellings with the same components need not be normalised to the same text, and then they name
two entries of the version store and one of the index.
-/

namespace Oba.Storage.ObaDB

variable {τ : Type} {dn dn' : Bytes} {path : List Bytes}

lemma ne_nil_of_parseDN (h : parseDN dn = .ok path) : dn ≠ [] := by
  rintro rfl
  cases h

/-! ## One DN in the version store and in the index -/

lemma get_finds_iff (hdn : dn ≠ []) (db : ObaDB τ) (tx : Nat) :
    (∃ entry, (db.get tx dn).1 = .ok entry) ↔ (db.reads tx (normalizeDN dn)).isSome := by
  rw [db.get_eq tx hdn]
  cases db.reads tx (normalizeDN dn) <;> simp

lemma searchByDN_base_finds_iff (db : ObaDB τ) (tx : Nat) (dn : Bytes) :
    (∃ entry, (db.searchByDN tx dn .base).1 = .ok [entry]) ↔
      (db.radix.lookup (normalizeDN dn)).isSome ∧ (db.reads tx (normalizeDN dn)).isSome := by
  unfold searchByDN RadixTree.iterator RadixTree.lookup
  cases parseDN (normalizeDN dn) with
  | error err => simp
  | ok path =>
    dsimp only
    cases db.radix.lookupPath path with
    | none => simp [search]
    | some page =>
      rw [Option.isSome_some, if_pos rfl, search_singleton]
      cases db.reads tx (normalizeDN dn) <;> simp

/-- The version that a transaction finds in memory, on the chain or else in the entry cache. -/
def remembered (db : ObaDB τ) (tx : Nat) (dn : Bytes) : Option Version :=
  ((db.store.versions dn).find? (·.isVisibleTo tx tx)).or
    ((db.store.cache.lookup dn).filter (·.isVisibleTo tx tx))

/-- What is not listed is read only if it is remembered. -/
lemma isSome_reads_iff {db : ObaDB τ} (hlookup : db.radix.lookup dn = none) (tx : Nat) :
    (db.reads tx dn).isSome ↔ ∃ v, db.remembered tx dn = some v ∧ v.deleted = false := by
  have hlive : ∀ v : Version, v.live.isSome ↔ v.deleted = false := by
    intro v
    unfold Version.live
    cases v.deleted <;> simp
  have hload : db.diskLoader dn = none := by
    unfold diskLoader
    rw [hlookup]
  rw [reads_eq, remembered, hload, Option.filter_none, Option.or_none]
  cases (db.store.versions dn).find? (·.isVisibleTo tx tx) with
  | some v => simp [hlive]
  | none => cases (db.store.cache.lookup dn).filter (·.isVisibleTo tx tx) <;> simp [hlive]

/-! ## Two spellings -/

section

variable (dn : Bytes) (attributes : Attributes)

/-- A database opened with an entry in the version store and an empty index. -/
def holdingAt : ObaDB Unit :=
  { new () with
    store := { VersionStore.new with
      versions := Function.update (fun _ => []) dn [⟨0, 1, attributes, 0, false⟩] } }

lemma opened_holdingAt : (holdingAt dn attributes).Opened := by
  refine ⟨List.forall_mem_nil _, fun _ _ => rfl, rfl, rfl, rfl, rfl, fun d v hv => ?_⟩
  dsimp only [holdingAt] at hv ⊢
  by_cases hd : d = dn
  · subst hd
    rw [Function.update_self] at hv ⊢
    rw [List.mem_singleton.mp hv]
    exact ⟨rfl, rfl⟩
  · rw [Function.update_of_ne hd] at hv
    exact absurd hv List.not_mem_nil

lemma reads_holdingAt_self : (holdingAt dn attributes).reads 1 dn = some attributes := by
  rw [reads_eq]
  dsimp only [holdingAt]
  rw [Function.update_self]
  rfl

end

lemma reads_holdingAt_of_ne {d : Bytes} (hne : d ≠ dn) (attributes : Attributes) :
    (holdingAt dn attributes).reads 1 d = none := by
  have hload : (holdingAt dn attributes).diskLoader d = none := by
    unfold diskLoader RadixTree.lookup
    cases parseDN d <;> rfl
  rw [reads_eq, hload]
  dsimp only [holdingAt]
  rw [Function.update_of_ne hne]
  rfl

/-- Two spellings with the same components are one name for `Get` and `Delete`, in every database
that calls of any transactions lead to, exactly if they are normalised to the same text. And a
`Get` agrees with a search for the DN alone exactly if the index lists the DN, or the version that
the transaction finds in memory, if any, is a deletion. -/
theorem one_entry_per_name_iff (hdn : parseDN dn = .ok path) (hdn' : parseDN dn' = .ok path) :
    ((∀ (τ : Type) (trees : IndexTrees τ) (start : ObaDB τ) (calls : List Call) (orders : Orders)
        (tx : Nat), start.Opened →
        ((start.exec trees calls).get tx dn).1.map Entry.attributes =
            ((start.exec trees calls).get tx dn').1.map Entry.attributes ∧
          (start.exec trees calls).delete trees orders tx dn =
            (start.exec trees calls).delete trees orders tx dn') ↔
      normalizeDN dn = normalizeDN dn') ∧
    ∀ (τ : Type) (trees : IndexTrees τ) (start : ObaDB τ) (calls : List Call) (tx : Nat),
      start.Opened →
      (((∃ entry, ((start.exec trees calls).get tx dn).1 = .ok entry) ↔
          ∃ entry, ((start.exec trees calls).searchByDN tx dn .base).1 = .ok [entry]) ↔
        ((start.exec trees calls).radix.lookup (normalizeDN dn)).isSome ∨
          ∀ v, (start.exec trees calls).remembered tx (normalizeDN dn) = some v →
            v.deleted = true) := by
  have hne := ne_nil_of_parseDN hdn
  have hne' := ne_nil_of_parseDN hdn'
  refine ⟨⟨fun hall => ?_, fun hsame τ trees start calls orders tx _ => ?_⟩,
    fun τ trees start calls tx _ => ?_⟩
  · by_contra hdiffer
    have hget := (hall Unit .empty (holdingAt (normalizeDN dn) ∅) [] (fun _ => .ascending) 1
      (opened_holdingAt _ _)).1
    dsimp only [exec, List.foldl_nil] at hget
    rw [get_eq _ _ hne, get_eq _ _ hne', reads_holdingAt_self,
      reads_holdingAt_of_ne (Ne.symm hdiffer)] at hget
    cases hget
  · unfold get delete
    rw [if_neg hne, if_neg hne, if_neg hne', if_neg hne', hsame]
    exact ⟨rfl, rfl⟩
  · rw [get_finds_iff hne, searchByDN_base_finds_iff]
    cases hlookup : (start.exec trees calls).radix.lookup (normalizeDN dn) with
    | some page => simp
    | none =>
      rw [isSome_reads_iff hlookup]
      simp

/-- A person that is committed. -/
def storedPerson : List Call := [.begin, putPerson 1 "1", .commit 1, .begin]

/-- The person is read and found in upper and lower case. -/
theorem one_entry_per_name_upperCase : let db := (new ()).exec .empty storedPerson
    (∀ orders tx, (db.get tx (ascii "CN=a,dc=x")).1.map Entry.attributes =
        (db.get tx personDN).1.map Entry.attributes ∧
      db.delete .empty orders tx (ascii "CN=a,dc=x") = db.delete .empty orders tx personDN) ∧
      (∀ tx, ((∃ entry, (db.get tx (ascii "CN=a,dc=x")).1 = .ok entry) ↔
        ∃ entry, (db.searchByDN tx (ascii "CN=a,dc=x") .base).1 = .ok [entry])) ∧
      (db.get 2 (ascii "CN=a,dc=x")).1.toOption.isSome := by
  have hname := @one_entry_per_name_iff (ascii "CN=a,dc=x") personDN [ascii "dc=x", ascii "cn=a"]
    (by decide) (by decide)
  exact ⟨fun orders tx =>
    hname.1.mpr (by decide) Unit .empty (new ()) storedPerson orders tx (opened_new ()),
    fun tx => (hname.2 Unit .empty (new ()) storedPerson tx (opened_new ())).mpr
      (.inl (by decide +kernel)), by decide +kernel⟩

/-- A person is changed and then read with a space after the comma: the old attributes are
found. Deleting the person in that spelling leaves it to a read in the other one. And a person
whose deletion is rolled back is read but not found by a search. -/
theorem two_entries_per_name :
    parseDN (ascii "cn=a, dc=x") = parseDN personDN ∧
      (let changed := (new ()).exec .empty
        [.begin, putPerson 1 "1", .commit 1, .begin, putPerson 2 "2", .commit 2, .begin]
      (changed.get 3 personDN).1.toOption.map (·.attributes.toList) =
          some (person "2").attributes.toList ∧
        (changed.get 3 (ascii "cn=a, dc=x")).1.toOption.map (·.attributes.toList) =
          some (person "1").attributes.toList ∧
        (changed.delete .empty (fun _ => .ascending) 3 (ascii "cn=a, dc=x")).1 = .ok () ∧
        ((changed.delete .empty (fun _ => .ascending) 3 (ascii "cn=a, dc=x")).2.get 3
          personDN).1.toOption.map (·.attributes.toList) = some (person "2").attributes.toList) ∧
      let kept := (new ()).exec .empty [.begin, putPerson 1 "1", .commit 1, .begin,
        .delete 2 (fun _ => .ascending) personDN, .rollback 2, .begin]
      (kept.get 3 personDN).1.toOption.map Entry.dn = some personDN ∧
        (kept.searchByDN 3 personDN .base).1.toOption.map (List.map Entry.dn) = some [] := by
  decide +kernel

end Oba.Storage.ObaDB
