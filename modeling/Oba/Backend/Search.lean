import Oba.Backend.Entry
import Oba.Storage.Calls

/-! # Searches of the backend

A search without a filter keeps to its scope. A search with a filter goes another way through the
storage engine, which looks at the whole subtree.
-/

namespace Oba.Backend

open Storage List ObaDB

variable {baseDN : Bytes} {scope : Int} {base path : List Bytes}

/-- Other numbers than those of the three scopes find nothing. -/
def storageScope : Int → Option Scope
  | 0 => some .base
  | 1 => some .oneLevel
  | 2 => some .subtree
  | _ => none

section Search

variable {τ : Type}

/-- The entries that the iterator of a search gives. A filter says which entries it accepts. -/
def iterated (db : ObaDB τ) (tx : Nat) (baseDN : Bytes) (scope : Int)
    (filter : Option (Entry → Bool)) : Except RadixError (List Entry) × ObaDB τ :=
  match filter with
  | some accepts => db.searchByFilter tx baseDN accepts
  | none =>
    match storageScope scope with
    | some scope => db.searchByDN tx baseDN scope
    | none => ((db.radix.iterator (normalizeDN baseDN) .base).map fun _ => [], db)

/-- `Search`, in a transaction of its own. -/
def search (orders : Bytes → MapOrder) (db : ObaDB τ) (baseDN : Bytes) (scope : Int)
    (filter : Option (Entry → Bool)) : Except RadixError (List Entry) × ObaDB τ :=
  let (result, read) := iterated db.begin.2 db.begin.1 (normalizeDN baseDN) scope filter
  (result.map (List.map fun entry => convertFromStorageEntry (orders entry.dn) entry),
    read.rollback db.begin.1)

/-- The entries that a search without a filter gives, before they are converted. -/
def unfiltered (db : ObaDB τ) (baseDN : Bytes) (scope : Int) : Except RadixError (List Entry) :=
  (iterated db.begin.2 db.begin.1 (normalizeDN baseDN) scope none).1

/-- A search with the filter gives the entries of the search without it that are accepted. -/
def SearchLaw (db : ObaDB τ) (baseDN : Bytes) (scope : Int) (accepts : Entry → Bool) : Prop :=
  ∀ orders, (search orders db baseDN scope (some accepts)).1 =
    (unfiltered db baseDN scope).map fun entries =>
      (entries.filter accepts).map fun entry => convertFromStorageEntry (orders entry.dn) entry

/-! ## Where the law holds -/

/-- A filter and the scope of the whole subtree. -/
lemma searchLaw_subtree (db : ObaDB τ) (hbase : normalizeDN baseDN ≠ [])
    (accepts : Entry → Bool) :
    SearchLaw db baseDN 2 accepts := by
  intro orders
  have hscope : storageScope 2 = some .subtree := rfl
  unfold search unfiltered iterated searchByFilter searchByDN
  rw [hscope]
  dsimp only
  rw [normalizeDN_normalizeDN, if_neg fun hempty => hbase hempty.1]
  cases db.begin.2.radix.iterator (normalizeDN baseDN) .subtree <;> rfl

lemma storageScope_ne_subtree (hscope : scope ≠ 2) : storageScope scope ≠ some .subtree := by
  unfold storageScope
  split <;> simp at hscope ⊢

/-- The DNs that a search without a filter and with another scope looks at. -/
def scopeDNs (db : ObaDB τ) (baseDN : Bytes) (scope : Int) : Except RadixError (List Bytes) :=
  match storageScope scope with
  | some kind => db.radix.iterator (normalizeDN baseDN) kind
  | none => (db.radix.iterator (normalizeDN baseDN) .base).map fun _ => []

lemma unfiltered_eq (db : ObaDB τ) (baseDN : Bytes) (hscope : scope ≠ 2) :
    unfiltered db baseDN scope =
      (scopeDNs db baseDN scope).map fun dns => (db.begin.2.search db.begin.1 dns).1 := by
  have hbegin : db.begin.2.radix = db.radix := rfl
  have hsubtree := storageScope_ne_subtree hscope
  unfold unfiltered iterated scopeDNs searchByDN
  cases hkind : storageScope scope with
  | none =>
    rw [normalizeDN_normalizeDN, hbegin]
    cases db.radix.iterator (normalizeDN baseDN) .base <;> rfl
  | some kind =>
    have hne : ¬ (normalizeDN baseDN = [] ∧ kind = .subtree) :=
      fun h => hsubtree (h.2 ▸ hkind)
    dsimp only
    rw [normalizeDN_normalizeDN, hbegin, if_neg hne]
    cases db.radix.iterator (normalizeDN baseDN) kind <;> rfl

/-- A base that is no DN. -/
lemma searchLaw_invalid (db : ObaDB τ) {err : RadixError}
    (hbase : parseDN (normalizeDN baseDN) = .error err) (hscope : scope ≠ 2)
    (accepts : Entry → Bool) : SearchLaw db baseDN scope accepts := by
  have hiterator : ∀ kind, db.radix.iterator (normalizeDN baseDN) kind = .error err := by
    intro kind
    unfold RadixTree.iterator
    rw [hbase]
  have hdns : scopeDNs db baseDN scope = .error err := by
    unfold scopeDNs
    cases storageScope scope with
    | none => exact congrArg (Except.map fun _ => []) (hiterator .base)
    | some kind => exact hiterator kind
  have hbegin : db.begin.2.radix = db.radix := rfl
  intro orders
  rw [unfiltered_eq db baseDN hscope, hdns]
  unfold search iterated searchByFilter
  rw [normalizeDN_normalizeDN, hbegin, hiterator]
  rfl

end Search

/-! ## Where it does not -/

/-- A database opened with one entry, which the index lists at a path. -/
def oneEntry (path : List Bytes) : ObaDB Unit :=
  { ObaDB.new () with
    radix := ⟨[(path, 0)]⟩
    store := { VersionStore.new with
      versions := Function.update (fun _ => []) (joinDNReverse path) [⟨0, 1, ∅, 0, false⟩] } }

lemma opened_oneEntry (path : List Bytes) : (oneEntry path).Opened := by
  refine ⟨by simp [ObaDB.Located, oneEntry, new], fun _ _ => rfl, rfl, rfl, rfl, rfl,
    fun d v hv => ?_⟩
  dsimp only [oneEntry] at hv ⊢
  by_cases hd : d = joinDNReverse path
  · subst hd
    rw [Function.update_self] at hv ⊢
    rw [mem_singleton.mp hv]
    exact ⟨rfl, rfl⟩
  · rw [Function.update_of_ne hd] at hv
    exact absurd hv not_mem_nil

/-- The filter that accepts everything finds an entry anywhere below the base. -/
lemma search_oneEntry (orders : Bytes → MapOrder) (scope : Int)
    (hbase : parseDN (normalizeDN baseDN) = .ok base) (hbelow : base <+: path) :
    ∃ entry, (search orders (oneEntry path) baseDN scope (some fun _ => true)).1 = .ok [entry] := by
  have hdns : (oneEntry path).radix.iterator (normalizeDN baseDN) .subtree =
      .ok [joinDNReverse path] := by
    unfold RadixTree.iterator oneEntry
    rw [hbase]
    have hlisted : base.isPrefixOf path = true := isPrefixOf_iff_prefix.mpr hbelow
    simp [hlisted]
  have hreads : (oneEntry path).begin.2.reads 1 (joinDNReverse path) = some ∅ := by
    rw [reads_eq]
    dsimp only [begin, oneEntry]
    rw [Function.update_self]
    rfl
  unfold search iterated searchByFilter
  rw [normalizeDN_normalizeDN]
  have hbegin : (oneEntry path).begin.2.radix = (oneEntry path).radix := rfl
  have htx : (oneEntry path).begin.1 = 1 := rfl
  rw [hbegin, hdns, htx]
  dsimp only
  rw [search_singleton, hreads]
  exact ⟨_, rfl⟩

/-- A search without a filter does not find the entry outside its scope. -/
lemma unfiltered_oneEntry (hbase : parseDN (normalizeDN baseDN) = .ok base) (hscope : scope ≠ 2)
    (hself : scope = 0 → path ≠ base) (hchild : scope = 1 → path = base) :
    unfiltered (oneEntry path) baseDN scope = .ok [] := by
  have hdns : scopeDNs (oneEntry path) baseDN scope = .ok [] := by
    unfold scopeDNs RadixTree.iterator oneEntry RadixTree.lookupPath
    rw [hbase]
    dsimp only
    by_cases hzero : scope = 0
    · have hlookup : [(path, 0)].lookup base = none := by
        rw [lookup_cons, beq_false_of_ne (Ne.symm (hself hzero))]
        rfl
      subst hzero
      rw [hlookup]
      rfl
    · by_cases hone : scope = 1
      · have hnot : RadixTree.childOf base path = false := by
          rw [hchild hone]
          refine decide_eq_false fun hbelow => ?_
          have hlength := congrArg length hbelow.2
          rw [length_dropLast] at hlength
          have hpos := length_pos_of_ne_nil hbelow.1
          omega
        subst hone
        rw [filter_cons_of_neg (by simp [hnot])]
        rfl
      · have hnone : storageScope scope = none := by
          unfold storageScope
          split <;> simp at hzero hone hscope ⊢
        rw [hnone]
        rfl
  rw [unfiltered_eq _ _ hscope, hdns]
  rfl

/-- All searches from a base with a scope obey the law, in every database and for every filter,
exactly if the scope is that of the whole subtree and the base is not empty, or if the scope is
another one and the base is no DN. -/
theorem searchLaw_iff (baseDN : Bytes) (scope : Int) :
    (∀ (τ : Type) (trees : IndexTrees τ) (start : ObaDB τ) (calls : List Call)
        (accepts : Entry → Bool), start.Opened →
        SearchLaw (start.exec trees calls) baseDN scope accepts) ↔
      (scope = 2 ∧ normalizeDN baseDN ≠ []) ∨
        (scope ≠ 2 ∧ ∀ path, parseDN (normalizeDN baseDN) ≠ .ok path) := by
  constructor
  · intro hlaw
    by_cases hscope : scope = 2
    · subst hscope
      refine .inl ⟨rfl, fun hempty => ?_⟩
      -- with an empty base the filter gets an error
      have hnew := hlaw Unit .empty (ObaDB.new ()) [] (fun _ => true) (ObaDB.opened_new ())
        fun _ => .ascending
      unfold search unfiltered iterated ObaDB.searchByFilter ObaDB.searchByDN at hnew
      rw [hempty] at hnew
      cases hnew
    · refine .inr ⟨hscope, fun base hbase => ?_⟩
      -- an entry below the base, but not in the scope
      obtain ⟨path, hbelow, hself, hchild⟩ : ∃ path, base <+: path ∧ (scope = 0 → path ≠ base) ∧
          (scope = 1 → path = base) := by
        by_cases hzero : scope = 0
        · exact ⟨base ++ [ascii "cn=a"], prefix_append .., by simp, by omega⟩
        · exact ⟨base, prefix_rfl, fun h => absurd h hzero, fun _ => rfl⟩
      obtain ⟨entry, hfound⟩ := search_oneEntry (fun _ => .ascending) scope hbase hbelow
      have hone := hlaw Unit .empty (oneEntry path) [] (fun _ => true) (opened_oneEntry path)
        fun _ => .ascending
      dsimp only [ObaDB.exec, foldl_nil] at hone
      rw [hfound, unfiltered_oneEntry hbase hscope hself hchild] at hone
      cases hone
  · rintro (⟨rfl, hbase⟩ | ⟨hscope, hbase⟩) τ trees start calls accepts -
    · exact searchLaw_subtree _ hbase accepts
    · cases hparse : parseDN (normalizeDN baseDN) with
      | ok path => exact absurd hparse (hbase path)
      | error err => exact searchLaw_invalid _ hparse hscope accepts

/-- The domain and a person in it. -/
def twoEntries : ObaDB Unit :=
  (ObaDB.new ()).exec .empty
    [.begin, .put 1 (fun _ => .ascending) ⟨ascii "dc=x", ∅⟩, putPerson 1 "1", .commit 1]

/-- A search for the domain alone finds the person as well when it has a filter that accepts
everything; a search below the domain finds the domain; and a search of the whole tree fails. -/
theorem searchLaw_fails :
    let found := fun baseDN scope filter =>
      (search (fun _ => .ascending) twoEntries baseDN scope filter).1.toOption.map
        (List.map Entry.dn)
    found (ascii "dc=x") 0 none = some [ascii "dc=x"] ∧
      found (ascii "dc=x") 0 (some fun _ => true) = some [ascii "dc=x", personDN] ∧
      found (ascii "dc=x") 1 none = some [personDN] ∧
      found (ascii "dc=x") 1 (some fun _ => true) = some [ascii "dc=x", personDN] ∧
      found [] 2 none = some [ascii "dc=x", personDN] ∧
      found [] 2 (some fun _ => true) = none := by
  decide +kernel

end Oba.Backend
