import Mathlib.Data.List.TakeWhile
import Oba.Storage.Entry

/-! # Distinguished names and the DN index

A DN is parsed into its components from the root down. The index is kept as the finite map
from component lists to locations that its tree stands for.
-/

namespace Oba.Storage

open List

inductive RadixError
  | emptyDN
  | invalidDN
  | invalidRDN
  | emptyRDNComponent
  | entryNotFound
  | entryExists
  deriving DecidableEq, Repr

inductive Scope
  | base
  | oneLevel
  | subtree
  deriving DecidableEq, Repr

/-- A component of `splitDN`, which drops blank ones. -/
def component (current : Bytes) : List Bytes :=
  if trimSpace current = [] then [] else [trimSpace current]

/-- The loop of `splitDN`: a backslash escapes the byte after it, a comma ends a component. -/
def splitLoop : Bytes → Bytes → Bool → List Bytes
  | [], current, _ => component current
  | c :: rest, current, true => splitLoop rest (current ++ [c]) false
  | c :: rest, current, false =>
    if c = 92 then splitLoop rest (current ++ [c]) true
    else if c = 44 then component current ++ splitLoop rest [] false
    else splitLoop rest (current ++ [c]) false

def splitDN (dn : Bytes) : List Bytes := splitLoop dn [] false

def normalizeRDN (rdn : Bytes) : Except RadixError Bytes :=
  let rdn := trimSpace rdn
  if rdn = [] then .error .emptyRDNComponent
  else if 61 ∉ rdn then .error .invalidRDN
  else
    let attrType := trimSpace (rdn.takeWhile (· ≠ 61))
    let attrValue := trimSpace ((rdn.dropWhile (· ≠ 61)).drop 1)
    if attrType = [] then .error .invalidRDN
    else .ok (toLower attrType ++ [61] ++ attrValue)

def parseDN (dn : Bytes) : Except RadixError (List Bytes) :=
  let dn := trimSpace dn
  if dn = [] then .error .emptyDN
  else if splitDN dn = [] then .error .invalidDN
  else ((splitDN dn).mapM normalizeRDN).map List.reverse

lemma mapM_ok_iff {α β ε : Type} {f : α → Except ε β} {l : List α} {bs : List β} :
    l.mapM f = .ok bs ↔ l.map f = bs.map .ok := by
  induction l generalizing bs with
  | nil => simp [pure, Except.pure, eq_comm]
  | cons a l ih =>
    rw [mapM_cons, map_cons]
    cases f a <;> cases hothers : l.mapM f <;> cases bs <;>
      simp_all [bind, Except.bind, pure, Except.pure]

lemma mapM_error {α β ε : Type} {f : α → Except ε β} {l : List α} {err : ε}
    (h : l.mapM f = .error err) : ∃ a ∈ l, f a = .error err := by
  induction l with
  | nil => cases h
  | cons a l ih =>
    rw [mapM_cons] at h
    cases hfirst : f a with
    | error err' =>
      rw [hfirst] at h
      cases h
      exact ⟨a, mem_cons_self, hfirst⟩
    | ok first =>
      cases hothers : l.mapM f with
      | error err' =>
        rw [hfirst, hothers] at h
        cases h
        obtain ⟨a', ha', herr⟩ := ih hothers
        exact ⟨a', mem_cons_of_mem _ ha', herr⟩
      | ok others => rw [hfirst, hothers] at h; cases h

/-- Only the tree itself says that an entry exists. -/
lemma parseDN_ne_entryExists (dn : Bytes) : parseDN dn ≠ .error .entryExists := by
  intro h
  dsimp only [parseDN] at h
  split at h
  · cases h
  · split at h
    · cases h
    · cases hcomponents : (splitDN (trimSpace dn)).mapM normalizeRDN with
      | ok components => rw [hcomponents] at h; cases h
      | error err =>
        rw [hcomponents] at h
        cases h
        obtain ⟨rdn, -, herr⟩ := mapM_error hcomponents
        dsimp only [normalizeRDN] at herr
        split at herr
        · cases herr
        · split at herr
          · cases herr
          · split at herr <;> cases herr

/-! The components of a DN are no longer than the DN. -/

variable {c dn : Bytes} {path : List Bytes} {rdn : Bytes}

/-- The components of a DN are parts of it. -/
lemma sublist_of_mem_splitLoop {s current : Bytes} {escaped : Bool}
    (hmem : c ∈ splitLoop s current escaped) : c.Sublist (current ++ s) := by
  have hcomponent : ∀ current : Bytes, c ∈ component current → c.Sublist current := by
    intro current hc
    unfold component at hc
    split at hc
    · exact absurd hc not_mem_nil
    · rw [mem_singleton.mp hc]
      exact trimSpace_sublist current
  induction s, current, escaped using splitLoop.induct with
  | case1 current escaped => exact (hcomponent current hmem).trans (sublist_append_left _ _)
  | case2 b rest current ih | case3 rest current ih => simpa using ih hmem
  | case4 rest current _ ih =>
    rw [splitLoop, if_neg (by decide), if_pos rfl, mem_append] at hmem
    rcases hmem with hfirst | hrest
    · exact (hcomponent current hfirst).trans (sublist_append_left _ _)
    · exact ((ih hrest).trans (sublist_cons_self _ _)).trans (sublist_append_right _ _)
  | case5 b rest current hbackslash hcomma ih =>
    rw [splitLoop, if_neg hbackslash, if_neg hcomma] at hmem
    simpa using ih hmem

/-- The type of a component is what comes before its first equals sign. -/
lemma normalizeRDN_of_split {attrType attrValue : Bytes}
    (h : trimSpace rdn = attrType ++ 61 :: attrValue) (htype : 61 ∉ attrType) :
    normalizeRDN rdn = if trimSpace attrType = [] then .error .invalidRDN
      else .ok (toLower (trimSpace attrType) ++ 61 :: trimSpace attrValue) := by
  have hne : ∀ b ∈ attrType, decide (b ≠ 61) = true := fun b hb =>
    decide_eq_true (ne_of_mem_of_not_mem hb htype)
  simp only [normalizeRDN]
  rw [h, takeWhile_append_of_pos hne, dropWhile_append_of_pos hne]
  simp

lemma normalizeRDN_ok_iff {c : Bytes} : normalizeRDN rdn = .ok c ↔
    ∃ attrType attrValue, trimSpace rdn = attrType ++ 61 :: attrValue ∧ 61 ∉ attrType ∧
      trimSpace attrType ≠ [] ∧ toLower (trimSpace attrType) ++ 61 :: trimSpace attrValue = c := by
  constructor
  · intro h
    by_cases hequal : 61 ∈ trimSpace rdn
    · obtain ⟨attrType, attrValue, hrdn, htype⟩ := eq_append_cons_of_mem hequal
      rw [normalizeRDN_of_split hrdn htype] at h
      exact ⟨attrType, attrValue, hrdn, htype, by simpa [ite_eq_iff] using h⟩
    · simp [normalizeRDN, hequal, ite_eq_iff] at h
  · rintro ⟨attrType, attrValue, hrdn, htype, hne, rfl⟩
    rw [normalizeRDN_of_split hrdn htype, if_neg hne]

lemma length_le_of_normalizeRDN (h : normalizeRDN rdn = .ok c) : c.length ≤ rdn.length := by
  obtain ⟨attrType, attrValue, hrdn, -, -, rfl⟩ := normalizeRDN_ok_iff.mp h
  have htype := (trimSpace_sublist attrType).length_le
  have hvalue := (trimSpace_sublist attrValue).length_le
  have htrim := (trimSpace_sublist rdn).length_le
  rw [hrdn, length_append, length_cons] at htrim
  rw [length_append, length_cons, length_toLower]
  omega

lemma parseDN_ok_iff : parseDN dn = .ok path ↔
    path ≠ [] ∧ (splitDN (trimSpace dn)).map normalizeRDN = path.reverse.map .ok := by
  constructor
  · intro h
    dsimp only [parseDN] at h
    split at h
    · cases h
    · split at h
      · cases h
      next hne =>
        cases hcomponents : (splitDN (trimSpace dn)).mapM normalizeRDN with
        | error err => rw [hcomponents] at h; cases h
        | ok components =>
          rw [hcomponents] at h
          cases h
          have hmap := mapM_ok_iff.mp hcomponents
          rw [reverse_reverse]
          refine ⟨?_, hmap⟩
          intro hnil
          rw [reverse_eq_nil_iff.mp hnil] at hmap
          exact hne (map_eq_nil_iff.mp hmap)
  · rintro ⟨hne, hcomponents⟩
    have hsplit : splitDN (trimSpace dn) ≠ [] := by
      intro hnil
      rw [hnil] at hcomponents
      simp [hne] at hcomponents
    have hdn : trimSpace dn ≠ [] := by
      intro hnil
      rw [hnil] at hsplit
      exact hsplit rfl
    dsimp only [parseDN]
    rw [if_neg hdn, if_neg hsplit, mapM_ok_iff.mpr hcomponents]
    simp [Except.map]

section

variable (h : parseDN dn = .ok path)
include h

/-- Every component of a DN comes from a part between two commas. -/
lemma exists_of_mem_path (hmem : c ∈ path) :
    ∃ rdn ∈ splitDN (trimSpace dn), normalizeRDN rdn = .ok c :=
  mem_map.mp ((parseDN_ok_iff.mp h).2 ▸ mem_map_of_mem (mem_reverse.mpr hmem))

lemma length_le_of_parseDN (hmem : c ∈ path) : c.length ≤ dn.length := by
  obtain ⟨rdn, hrdn, hnormal⟩ := exists_of_mem_path h hmem
  calc c.length ≤ rdn.length := length_le_of_normalizeRDN hnormal
    _ ≤ (trimSpace dn).length := (sublist_of_mem_splitLoop hrdn).length_le
    _ ≤ dn.length := (trimSpace_sublist dn).length_le

lemma ne_nil_of_mem_path (hmem : c ∈ path) : c ≠ [] := by
  obtain ⟨rdn, -, hnormal⟩ := exists_of_mem_path h hmem
  obtain ⟨attrType, attrValue, -, -, -, rfl⟩ := normalizeRDN_ok_iff.mp hnormal
  exact append_ne_nil_of_right_ne_nil _ (cons_ne_nil _ _)

/-! A DN has an equals sign. -/

lemma mem_of_parseDN : 61 ∈ dn := by
  obtain ⟨c, hc⟩ := exists_mem_of_ne_nil path (parseDN_ok_iff.mp h).1
  obtain ⟨rdn, hrdn, hnormal⟩ := exists_of_mem_path h hc
  obtain ⟨attrType, attrValue, htrim, -⟩ := normalizeRDN_ok_iff.mp hnormal
  have hmem : 61 ∈ trimSpace rdn := htrim ▸ mem_append_right _ mem_cons_self
  exact (trimSpace_sublist _).mem
    ((sublist_of_mem_splitLoop hrdn).mem ((trimSpace_sublist _).mem hmem))

end

def joinDNReverse (components : List Bytes) : Bytes :=
  [44].intercalate components.reverse

lemma intercalate_append {α : Type} (sep : List α) {xs ys : List (List α)} (hxs : xs ≠ [])
    (hys : ys ≠ []) :
    sep.intercalate (xs ++ ys) = sep.intercalate xs ++ sep ++ sep.intercalate ys := by
  induction xs with
  | nil => exact absurd rfl hxs
  | cons x xs ih =>
    cases xs with
    | nil =>
      obtain ⟨y, ys, rfl⟩ := exists_cons_of_ne_nil hys
      rw [singleton_append, intercalate_cons_cons, intercalate_singleton]
    | cons x' xs =>
      rw [cons_append, cons_append, intercalate_cons_cons,
        intercalate_cons_cons, ← cons_append, ih (cons_ne_nil x' xs)]
      simp only [append_assoc]

/-- The DN of an entry ends in the DN of an entry above it. -/
lemma joinDNReverse_append {rest : List Bytes} (hpath : path ≠ []) (hrest : rest ≠ []) :
    joinDNReverse (path ++ rest) = joinDNReverse rest ++ [44] ++ joinDNReverse path := by
  unfold joinDNReverse
  rw [reverse_append, intercalate_append _ (by simpa using hrest) (by simpa using hpath)]

lemma joinDNReverse_ne_nil (hne : path ≠ []) (h : ∀ c ∈ path, c ≠ []) :
    joinDNReverse path ≠ [] := by
  obtain ⟨before, last, rfl⟩ := eq_nil_or_concat path |>.resolve_left hne
  have hlast : last ≠ [] := h last (by simp)
  unfold joinDNReverse
  rw [concat_eq_append, reverse_append, reverse_singleton, singleton_append]
  cases before.reverse with
  | nil => rwa [intercalate_singleton]
  | cons c rest =>
    simp [hlast]

/-- The paths that hold an entry, with the page of the entry. -/
structure RadixTree where
  paths : List (List Bytes × Nat)
  deriving DecidableEq, Repr

namespace RadixTree

section

variable (tree : RadixTree)

def lookupPath (path : List Bytes) : Option Nat := tree.paths.lookup path

def insert (dn : Bytes) (pageID : Nat) : Except RadixError RadixTree :=
  match parseDN dn with
  | .error err => .error err
  | .ok path =>
    if (tree.lookupPath path).isSome then .error .entryExists
    else .ok ⟨tree.paths ++ [(path, pageID)]⟩

def delete (dn : Bytes) : Except RadixError RadixTree :=
  match parseDN dn with
  | .error err => .error err
  | .ok path =>
    if (tree.lookupPath path).isSome then .ok ⟨tree.paths.filter (·.1 ≠ path)⟩
    else .error .entryNotFound

def lookup (dn : Bytes) : Option Nat :=
  match parseDN dn with
  | .error _ => none
  | .ok path => tree.lookupPath path

/-- The DNs that `IterateSubtree` visits from the root. -/
def iterate : List Bytes := tree.paths.map fun p => joinDNReverse p.1

end

/-- `childOf path q` says that `q` is one component below `path`. -/
def childOf (path q : List Bytes) : Bool := q ≠ [] ∧ q.dropLast = path

/-- A node has children if there are entries below it. -/
def hasChildren (tree : RadixTree) (dn : Bytes) : Except RadixError Bool :=
  match parseDN dn with
  | .error err => .error err
  | .ok path => .ok (tree.paths.any fun p => path.isPrefixOf p.1 ∧ p.1 ≠ path)

/-- The DNs that an `Iterator` gives. The base is given as it was asked for. -/
def iterator (tree : RadixTree) (baseDN : Bytes) (scope : Scope) : Except RadixError (List Bytes) :=
  match parseDN baseDN with
  | .error err => .error err
  | .ok path => .ok (match scope with
    | .base => if (tree.lookupPath path).isSome then [baseDN] else []
    | .oneLevel => (tree.paths.filter (childOf path ·.1)).map fun p => joinDNReverse p.1
    | .subtree => (tree.paths.filter (path.isPrefixOf ·.1)).map fun p => joinDNReverse p.1)

end RadixTree

example : parseDN (ascii " UID=Al\\,ice , ou=Users,dc=x") =
    .ok [ascii "dc=x", ascii "ou=Users", ascii "uid=Al\\,ice"] := by decide

end Oba.Storage
