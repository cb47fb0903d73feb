import Mathlib.Data.List.Dedup
import Mathlib.Data.List.Infix
import Mathlib.Data.List.Perm.Subperm
import Mathlib.Data.List.Range
import Oba.Library.AssocList
import Oba.Storage.EntryCache
import Oba.Storage.Radix

/-! # The DN index on disk

The nodes of the index tree are its paths and the paths above them. `radix/cache.go` writes
them to a cache file when the database is closed, each with the numbers of its children, and
reads the tree back from there. `persistRoot` keeps the tree on one page as long as it fits.
-/

namespace Oba.Storage

open ByteCodec List Option
open Nat (mod_eq_of_lt mod_lt)

namespace RadixTree

variable {tree : RadixTree} {path : List Bytes}

/-- The root, the entries and the nodes between them. -/
def nodePaths (tree : RadixTree) : List (List Bytes) :=
  ([] :: tree.paths.flatMap fun p => p.1.inits).dedup

lemma childOf_iff {q : List Bytes} : childOf path q = true ↔ ∃ key, q = path ++ [key] := by
  simp only [childOf, decide_eq_true_eq]
  constructor
  · rintro ⟨hne, rfl⟩
    exact ⟨q.getLast hne, (dropLast_append_getLast hne).symm⟩
  · rintro ⟨key, rfl⟩
    simp

/-! ## The root page -/

/-- The nodes fit one page, with a header of 22 bytes each. -/
def fitsPage (tree : RadixTree) : Bool :=
  tree.nodePaths.length ≤ (4096 - 16 - 4) / 22 ∧ 16 + 2 + (tree.nodePaths.map fun path =>
      22 + (path.getLastD []).length + 3 * tree.nodePaths.countP (childOf path)).sum ≤ 4096

/-- What the root page holds after `persistRoot`; a tree that is too large leaves it alone. -/
def persistRoot (page tree : RadixTree) : RadixTree := if tree.fitsPage then tree else page

/-! ## The cache file -/

structure NodeRecord where
  key : Bytes
  hasEntry : Bool
  pageID : Nat
  subtreeCount : Nat
  parentIdx : Nat
  children : List Nat

/-- The nodes in the order in which the tree is walked, the root first. -/
structure Walk (tree : RadixTree) where
  nodes : List (List Bytes)
  perm : nodes.Perm tree.nodePaths
  root : nodes.head? = some []

/-- What is written of a node. The root has -1 for its parent. -/
def Walk.record (walk : tree.Walk) (path : List Bytes) : NodeRecord :=
  { key := path.getLastD []
    hasEntry := (tree.lookupPath path).isSome
    pageID := (tree.lookupPath path).getD 0 % 256 ^ 8
    subtreeCount := tree.paths.countP (path.isPrefixOf ·.1) % 256 ^ 4
    parentIdx := if path = [] then 256 ^ 4 - 1 else walk.nodes.idxOf path.dropLast % 256 ^ 4
    children := (walk.nodes.filter (childOf path)).map fun q => walk.nodes.idxOf q % 256 ^ 4 }

def NodeRecord.serialize (r : NodeRecord) : Bytes :=
  putBlock 2 r.key ++ [if r.hasEntry then 1 else 0] ++ putUint 8 r.pageID ++ putUint 2 0 ++
    putUint 4 r.subtreeCount ++ putUint 4 r.parentIdx ++ putUint 2 r.children.length ++
    r.children.flatMap (putUint 4)

def readNode (s : Bytes) : Option (NodeRecord × Bytes) := do
  let (keyLen, s) ← readUint 2 s
  let (key, s) ← bufRead keyLen s
  let (flags, s) ← readUint 1 s
  let (pageID, s) ← readUint 8 s
  let (_, s) ← readUint 2 s
  let (subtreeCount, s) ← readUint 4 s
  let (parentIdx, s) ← readUint 4 s
  let (childCount, s) ← readUint 2 s
  let (children, s) ← readMany (readUint 4) childCount s
  some (⟨key, flags % 2 = 1, pageID, subtreeCount, parentIdx, children⟩, s)

def serializeNodes (walk : tree.Walk) : Bytes :=
  putUint 4 walk.nodes.length ++ (walk.nodes.map walk.record).flatMap NodeRecord.serialize

def saveCache (walk : tree.Walk) (txID : Nat) : Bytes :=
  Cache.writeFile Cache.typeRadix (serializeNodes walk) walk.nodes.length txID

/-- The entries below a node of the given number. A number is read as a signed one. -/
def collect (nodes : List NodeRecord) : Nat → Nat → List Bytes → List (List Bytes × Nat)
  | 0, _, _ => []
  | fuel + 1, i, path =>
    match nodes[i]? with
    | none => []
    | some node =>
      (if node.hasEntry then [(path, node.pageID)] else []) ++ node.children.flatMap fun j =>
        match if j < 2 ^ 31 then nodes[j]? else none with
        | none => []
        | some child => collect nodes fuel j (path ++ [child.key])

/-- No tree is deeper than it has nodes. -/
def deserializeNodes (data : Bytes) (expectedCount : Nat) : Option RadixTree := do
  let (nodeCount, s) ← readUint 4 data
  if nodeCount ≠ expectedCount then none
  else if nodeCount = 0 then some ⟨[]⟩
  else do
    let (nodes, _) ← readMany readNode nodeCount s
    some ⟨collect nodes nodes.length 0 []⟩

def loadCache (file : Option Bytes) (expectedTxID : Nat) : Option RadixTree := do
  let (data, count) ← file.bind (Cache.readFile · Cache.typeRadix expectedTxID)
  deserializeNodes data count

/-! ## Reading what was written -/

/-- The keys and the numbers of children fit their fields. -/
structure Walk.Fits (walk : tree.Walk) : Prop where
  count : walk.nodes.length < 2 ^ 31
  data : (serializeNodes walk).length < 256 ^ 8
  key : ∀ path ∈ walk.nodes, (path.getLastD []).length < 256 ^ 2
  children : ∀ path ∈ walk.nodes, walk.nodes.countP (childOf path) < 256 ^ 2

lemma readNode_serialize {r : NodeRecord} (hkey : r.key.length < 256 ^ 2)
    (hpage : r.pageID < 256 ^ 8) (hsubtree : r.subtreeCount < 256 ^ 4)
    (hparent : r.parentIdx < 256 ^ 4) (hcount : r.children.length < 256 ^ 2)
    (hchildren : ∀ j ∈ r.children, j < 256 ^ 4) (rest : Bytes) :
    readNode (r.serialize ++ rest) = some (r, rest) := by
  have hflag :
      [if r.hasEntry then (1 : UInt8) else 0] = putUint 1 (if r.hasEntry then 1 else 0) := by
    cases r.hasEntry <;> rfl
  have hread : ∀ (n : Nat) (rest : Bytes),
      bufRead r.key.length (r.key ++ (putUint 1 n ++ rest)) = some (r.key, putUint 1 n ++ rest) :=
    fun n rest => bufRead_append (by simp [putUint])
  have hmany : ∀ rest, readMany (readUint 4) r.children.length
      (r.children.flatMap (putUint 4) ++ rest) = some (r.children, rest) :=
    readMany_flatMap r.children fun j hj rest => by
      rw [readUint_putUint, mod_eq_of_lt (hchildren j hj)]
  have hentry : (if r.hasEntry then 1 else 0) % 256 ^ 1 % 2 = 1 ↔ r.hasEntry = true := by
    cases r.hasEntry <;> decide
  rw [NodeRecord.serialize, hflag]
  simp only [readNode, putBlock, append_assoc, readUint_putUint, mod_eq_of_lt hkey,
    hread, mod_eq_of_lt hpage, mod_eq_of_lt hsubtree, mod_eq_of_lt hparent,
    mod_eq_of_lt hcount, hmany, hentry, bind_eq_bind, bind_some,
    Bool.decide_eq_true]

namespace Walk

variable (walk : tree.Walk)

lemma mem_nodes : path ∈ walk.nodes ↔ path = [] ∨ ∃ p ∈ tree.paths, path <+: p.1 := by
  rw [walk.perm.mem_iff]
  simp [nodePaths]

/-- The nodes above a node come with it. -/
lemma mem_of_isPrefix {path' : List Bytes} (hmem : path' ∈ walk.nodes) (h : path <+: path') :
    path ∈ walk.nodes := by
  rw [mem_nodes] at hmem ⊢
  rcases hmem with rfl | ⟨p, hp, hpath⟩
  · exact .inl (prefix_nil.mp h)
  · exact .inr ⟨p, hp, h.trans hpath⟩

/-- A node is less deep than there are nodes. -/
lemma length_lt (hmem : path ∈ walk.nodes) : path.length < walk.nodes.length := by
  have hsubset : (range (path.length + 1)).map path.take ⊆ walk.nodes := by
    intro q hq
    obtain ⟨depth, -, rfl⟩ := mem_map.mp hq
    exact walk.mem_of_isPrefix hmem ( take_prefix depth path)
  have hnodup : ((range (path.length + 1)).map path.take).Nodup := by
    refine List.Nodup.map_on (fun a ha b hb heq => ?_) nodup_range
    have hlength := congrArg length heq
    rw [mem_range] at ha hb
    rw [length_take, length_take] at hlength
    omega
  have hle := (subperm_of_subset hnodup hsubset).length_le
  rwa [length_map, length_range] at hle

lemma getElem?_records (hmem : path ∈ walk.nodes) :
    (walk.nodes.map walk.record)[walk.nodes.idxOf path]? = some (walk.record path) := by
  rw [getElem?_map, getElem?_idxOf hmem, map_some]

/-- The number of a node is its own, and below `2 ^ 31`. -/
lemma idxOf_lt (hcount : walk.nodes.length < 2 ^ 31) (hmem : path ∈ walk.nodes) :
    walk.nodes.idxOf path % 256 ^ 4 = walk.nodes.idxOf path ∧ walk.nodes.idxOf path < 2 ^ 31 := by
  have hlt := idxOf_lt_length_of_mem hmem
  exact ⟨mod_eq_of_lt (by omega), by omega⟩

/-- What is collected below a node are the entries below it that the fuel suffices for. -/
lemma mem_collect (hcount : walk.nodes.length < 2 ^ 31) (fuel : Nat) (hmem : path ∈ walk.nodes)
    (q : List Bytes) (page : Nat) :
    (q, page) ∈ collect (walk.nodes.map walk.record) fuel (walk.nodes.idxOf path) path ↔
      ∃ rest, q = path ++ rest ∧ rest.length < fuel ∧
        (tree.lookupPath q).map (· % 256 ^ 8) = some page := by
  induction fuel generalizing path with
  | zero => simp [collect]
  | succ fuel ih =>
    have hself : (q, page) ∈ (if (walk.record path).hasEntry then
          [(path, (walk.record path).pageID)] else []) ↔
        q = path ∧ (tree.lookupPath q).map (· % 256 ^ 8) = some page := by
      cases hlookup : tree.lookupPath path with
      | none =>
        simp only [record, hlookup, isSome_none, Bool.false_eq_true, if_false,
          not_mem_nil, false_iff, not_and]
        rintro rfl
        simp [hlookup]
      | some n =>
        simp only [record, hlookup, isSome_some, if_true, mem_singleton, Prod.mk.injEq, getD_some]
        refine and_congr_right fun hq => ?_
        rw [hq, hlookup, map_some, Option.some.injEq, eq_comm]
    -- the children of `path` by their numbers, each with the entries below it
    have hchildren : (q, page) ∈ ((walk.record path).children.flatMap fun j =>
          match if j < 2 ^ 31 then (walk.nodes.map walk.record)[j]? else none with
          | none => []
          | some child =>
            collect (walk.nodes.map walk.record) fuel j (path ++ [child.key])) ↔
        ∃ child ∈ walk.nodes, childOf path child ∧
          ∃ rest, q = child ++ rest ∧ rest.length < fuel ∧
            (tree.lookupPath q).map (· % 256 ^ 8) = some page := by
      simp only [record, flatMap_map, mem_flatMap, mem_filter, and_assoc]
      refine exists_congr fun child => and_congr_right fun hchild =>
        and_congr_right fun hbelow => ?_
      obtain ⟨key, rfl⟩ := childOf_iff.mp hbelow
      obtain ⟨hmod, hlt⟩ := walk.idxOf_lt hcount hchild
      rw [hmod, if_pos hlt, walk.getElem?_records hchild, ← ih hchild]
      simp [record]
    rw [collect, walk.getElem?_records hmem]
    rw [mem_append, hself, hchildren]
    constructor
    · rintro (⟨rfl, hpage⟩ | ⟨child, -, hbelow, rest, rfl, hrest, hpage⟩)
      · exact ⟨[], (append_nil q).symm, Nat.succ_pos _, hpage⟩
      · obtain ⟨key, rfl⟩ := childOf_iff.mp hbelow
        exact ⟨key :: rest, by simp, Nat.succ_lt_succ hrest, hpage⟩
    · rintro ⟨rest, rfl, hrest, hpage⟩
      cases rest with
      | nil => exact .inl ⟨append_nil path, hpage⟩
      | cons key rest =>
        have hsome : (tree.lookupPath (path ++ key :: rest)).isSome := by
          rw [← isSome_map, hpage]
          rfl
        have hentry : path ++ key :: rest ∈ tree.paths.map Prod.fst :=
          AssocList.lookup_isSome_iff.mp hsome
        obtain ⟨p, hp, hpath⟩ := mem_map.mp hentry
        have hchild : path ++ [key] ∈ walk.nodes :=
          walk.mem_nodes.mpr (.inr ⟨p, hp, by rw [hpath]; exact ⟨rest, by simp⟩⟩)
        refine .inr ⟨path ++ [key], hchild, childOf_iff.mpr ⟨key, rfl⟩, rest, by simp, ?_, hpage⟩
        exact Nat.lt_of_succ_lt_succ hrest

variable {walk}

lemma readMany_records (hfits : walk.Fits) (rest : Bytes) : readMany readNode walk.nodes.length
      ((walk.nodes.map walk.record).flatMap NodeRecord.serialize ++ rest) =
      some (walk.nodes.map walk.record, rest) := by
  have hitem : ∀ r ∈ walk.nodes.map walk.record, ∀ rest,
      readNode (r.serialize ++ rest) = some (r, rest) := by
    intro r hr rest
    obtain ⟨path, hpath, rfl⟩ := mem_map.mp hr
    refine readNode_serialize (hfits.key path hpath) (mod_lt _ (by decide))
      (mod_lt _ (by decide)) ?_ ?_ ?_ rest
    · dsimp only [record]
      split
      · decide
      · exact mod_lt _ (by decide)
    · rw [record, length_map, ← countP_eq_length_filter]
      exact hfits.children path hpath
    · intro j hj
      obtain ⟨q, -, rfl⟩ := mem_map.mp hj
      exact mod_lt _ (by decide)
  have hread := readMany_flatMap _ hitem rest
  rwa [length_map] at hread

/-- The tree that is read from the file has the entries of the tree that was written. -/
lemma loadCache_saveCache (hfits : walk.Fits) {txID : Nat} (htx : txID < 256 ^ 8) :
    ∃ loaded, loadCache (some (saveCache walk txID)) txID = some loaded ∧
      ∀ path, loaded.lookupPath path = (tree.lookupPath path).map (· % 256 ^ 8) := by
  have hcount := hfits.count
  have hroot : [] ∈ walk.nodes := walk.mem_nodes.mpr (.inl rfl)
  have hindex : walk.nodes.idxOf [] = 0 := by
    obtain ⟨rest, hnodes⟩ := head?_eq_some_iff.mp walk.root
    rw [hnodes, idxOf_cons_self]
  have hpos : walk.nodes.length ≠ 0 := by
    rw [Ne, length_eq_zero_iff]
    exact ne_nil_of_mem hroot
  refine ⟨⟨collect (walk.nodes.map walk.record) walk.nodes.length 0 []⟩, ?_, fun path => ?_⟩
  · have hread := readMany_records hfits []
    rw [append_nil] at hread
    rw [loadCache, bind_some, saveCache, Cache.readFile_writeFile (by omega) htx hfits.data]
    simp only [bind_eq_bind, bind_some, deserializeNodes, serializeNodes, readUint_putUint]
    rw [mod_eq_of_lt (by omega), if_neg (by simp), if_neg hpos, hread]
    simp only [bind_some, length_map]
  · refine AssocList.lookup_eq_of_mem_iff fun page => ?_
    have hcollect := walk.mem_collect hcount walk.nodes.length hroot path page
    rw [hindex] at hcollect
    rw [hcollect]
    constructor
    · rintro ⟨rest, -, -, hpage⟩
      exact hpage
    · intro hpage
      have hsome : (tree.lookupPath path).isSome := by
        rw [← isSome_map, hpage]
        rfl
      obtain ⟨p, hp, rfl⟩ := mem_map.mp (AssocList.lookup_isSome_iff.mp hsome)
      exact ⟨p.1, rfl, walk.length_lt (walk.mem_nodes.mpr (.inr ⟨p, hp, prefix_rfl⟩)), hpage⟩

end Walk

end RadixTree

end Oba.Storage
