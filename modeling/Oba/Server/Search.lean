import Oba.Acl.Evaluator
import Oba.Backend.Search
import Oba.Storage.Alone

/-! # Searches of the server

The search handler that the server installs hands out what the backend finds. The rules of the
access control are loaded beside it and do not enter it.
-/

namespace Oba.Server

open Storage Backend List Option

/-! ## Results -/

inductive ResultCode
  | success
  | operationsError
  deriving DecidableEq, Repr

structure SearchEntry where
  dn : Bytes
  attributes : List (Bytes × List Bytes)
  deriving DecidableEq

structure SearchResult where
  resultCode : ResultCode
  diagnosticMessage : Bytes
  entries : List SearchEntry
  deriving DecidableEq

/-- The client of a connection; an empty DN is an anonymous one. -/
structure Connection where
  bindDN : Bytes

/-- A search request. The filter says which entries it accepts. -/
structure SearchRequest where
  baseObject : Bytes
  scope : Int
  filter : Option (Entry → Bool)

/-- The texts of the errors that searches can end with. -/
def errorText : RadixError → Bytes
  | .emptyDN => ascii "DN cannot be empty"
  | .invalidDN => ascii "invalid DN format"
  | .invalidRDN => ascii "invalid RDN format"
  | .emptyRDNComponent => ascii "empty RDN component"
  | .entryNotFound => ascii "entry not found"
  | .entryExists => ascii "entry already exists"

/-! ## The handler -/

def convertAttributes (order : MapOrder) (entry : Entry) : List (Bytes × List Bytes) :=
  order.range entry.attributes

/-- The search handler of `setupHandlers`, which does not ask who the client is. -/
def searchHandler {τ : Type} (orders attrOrders : Bytes → MapOrder) (_conn : Connection)
    (req : SearchRequest) (db : ObaDB τ) : SearchResult × ObaDB τ :=
  match search orders db req.baseObject req.scope req.filter with
  | (.error err, db) => (⟨.operationsError, ascii "backend: " ++ errorText err, []⟩, db)
  | (.ok entries, db) => (⟨.success, [], entries.map fun entry =>
    ⟨entry.dn, convertAttributes (attrOrders entry.dn) entry⟩⟩, db)

/-- The client may read every entry of the result and every attribute in it. -/
def Obeys (config : Acl.Config) (bindDN : Bytes) (result : SearchResult) : Prop :=
  ∀ entry ∈ result.entries, config.canRead bindDN entry.dn ∧
    ∀ attr ∈ entry.attributes,
      config.checkAttributeAccess attr.1 (some ⟨bindDN, entry.dn, Acl.Right.read⟩)

/-! ## What a search reaches -/

section Reach

variable {τ : Type} {db : ObaDB τ}

/-- The DNs that the index lists for a request. A filter looks at the whole subtree. -/
def reach (db : ObaDB τ) (req : SearchRequest) : Except RadixError (List Bytes) :=
  match req.filter with
  | some _ => db.radix.iterator (normalizeDN req.baseObject) .subtree
  | none =>
    if normalizeDN req.baseObject = [] ∧ req.scope = 2 then .ok db.radix.iterate
    else scopeDNs db req.baseObject req.scope

def SearchRequest.accepts (req : SearchRequest) (entry : Entry) : Bool :=
  (req.filter.getD fun _ => true) entry

/-- The entries that a new transaction reads at DNs. -/
def readAt (db : ObaDB τ) (dns : List Bytes) : List Entry :=
  dns.filterMap fun dn => (db.begin.2.reads db.begin.1 dn).map (Entry.mk dn)

lemma search_readAt (h : db.Synced) {dns : List Bytes}
    (hdns : (∀ dn ∈ dns, ∃ path, Canonical dn path) ∨ ∃ dn, dns = [dn]) :
    (db.begin.2.search db.begin.1 dns).1 = readAt db dns := by
  have hreader : db.begin.2.Reader db.begin.1 :=
    .inl (by simp [ObaDB.begin, ObaDB.isActive])
  rcases hdns with hdns | ⟨dn, rfl⟩
  · rw [h.begin.search_eq hreader hdns]
    refine filterMap_congr fun dn hdn => ?_
    obtain ⟨path, hpath⟩ := hdns dn hdn
    rw [h.begin.reads_eq_sees hreader hpath]
  · rw [ObaDB.search_singleton, readAt]
    cases hreads : db.begin.2.reads db.begin.1 dn with
    | none | some => simp [hreads]

/-- The index lists names in its own spelling, or the base alone. -/
lemma iterator_listed (h : db.Synced) {base : Bytes} {kind : Scope} {dns : List Bytes}
    (hdns : db.radix.iterator base kind = .ok dns) :
    (∀ dn ∈ dns, ∃ path, Canonical dn path) ∨ ∃ dn, dns = [dn] := by
  have hpaths : ∀ selects : List Bytes → Bool,
      ∀ dn ∈ (db.radix.paths.filter (selects ·.1)).map fun p => joinDNReverse p.1,
        ∃ path, Canonical dn path := by
    intro selects dn hdn
    obtain ⟨p, hp, rfl⟩ := mem_map.mp hdn
    exact ⟨p.1, h.paths p (mem_of_mem_filter hp)⟩
  unfold RadixTree.iterator at hdns
  split at hdns
  · cases hdns
  next path _ =>
    cases hdns
    cases kind with
    | base =>
      dsimp only
      split
      · exact .inr ⟨base, rfl⟩
      · exact .inl (forall_mem_nil _)
    | oneLevel => exact .inl (hpaths (RadixTree.childOf path))
    | subtree => exact .inl (hpaths path.isPrefixOf)

/-- A search gives the accepted entries among those that the index lists. -/
lemma iterated_eq (h : db.Synced) (req : SearchRequest) :
    (iterated db.begin.2 db.begin.1 (normalizeDN req.baseObject) req.scope req.filter).1 =
      (reach db req).map fun dns => (readAt db dns).filter req.accepts := by
  have hall : ∀ entries : List Entry, entries.filter (fun _ => true) = entries :=
    fun entries => filter_eq_self.mpr fun _ _ => rfl
  have hradix : db.begin.2.radix = db.radix := rfl
  unfold iterated reach SearchRequest.accepts
  cases hfilter : req.filter with
  | some accepts =>
    unfold ObaDB.searchByFilter
    rw [hradix, normalizeDN_normalizeDN]
    dsimp only [getD_some]
    cases hdns : db.radix.iterator (normalizeDN req.baseObject) .subtree with
    | error err => rfl
    | ok dns =>
      dsimp only [Except.map]
      rw [search_readAt h (iterator_listed h hdns)]
  | none =>
    dsimp only [getD_none]
    cases hkind : storageScope req.scope with
    | none =>
      have hscope : req.scope ≠ 2 := fun hscope => by rw [hscope] at hkind; cases hkind
      rw [if_neg fun hboth => hscope hboth.2, scopeDNs, hkind]
      rw [hradix, normalizeDN_normalizeDN]
      cases db.radix.iterator (normalizeDN req.baseObject) .base <;> rfl
    | some kind =>
      have hsubtree : kind = .subtree ↔ req.scope = 2 := by
        refine ⟨fun hsubtree => ?_, fun hscope => ?_⟩
        · by_contra hscope
          exact storageScope_ne_subtree hscope (hsubtree ▸ hkind)
        · rw [hscope] at hkind
          exact (some.inj hkind).symm
      unfold ObaDB.searchByDN
      dsimp only
      rw [normalizeDN_normalizeDN, hradix]
      by_cases hempty : normalizeDN req.baseObject = [] ∧ kind = .subtree
      · rw [if_pos hempty, if_pos ⟨hempty.1, hsubtree.mp hempty.2⟩]
        dsimp only [Except.map]
        rw [hall, search_readAt h (.inl fun dn hdn => h.iterate hdn)]
      · rw [if_neg hempty, if_neg fun hboth => hempty ⟨hboth.1, hsubtree.mpr hboth.2⟩, scopeDNs,
          hkind]
        dsimp only
        cases hdns : db.radix.iterator (normalizeDN req.baseObject) kind with
        | error err => rfl
        | ok dns =>
          dsimp only [Except.map]
          rw [hall, search_readAt h (iterator_listed h hdns)]

/-- The rules let the client read every entry that a request reaches, with all its attributes. -/
def Open (config : Acl.Config) (bindDN : Bytes) (db : ObaDB τ) (req : SearchRequest) : Prop :=
  ∀ dns, reach db req = .ok dns → ∀ dn ∈ dns, ∀ attributes,
    db.begin.2.reads db.begin.1 dn = some attributes → req.accepts ⟨dn, attributes⟩ →
    config.canRead bindDN dn ∧ ∀ name, name ∈ attributes →
      config.checkAttributeAccess (toLower name) (some ⟨bindDN, dn, Acl.Right.read⟩)

end Reach

section Served

variable {τ : Type} {db : ObaDB τ}

lemma mem_readAt {dns : List Bytes} {entry : Entry} : entry ∈ readAt db dns ↔
    entry.dn ∈ dns ∧ db.begin.2.reads db.begin.1 entry.dn = some entry.attributes := by
  unfold readAt
  rw [mem_filterMap]
  constructor
  · rintro ⟨dn, hdn, hentry⟩
    obtain ⟨attributes, hattributes, rfl⟩ := map_eq_some_iff.mp hentry
    exact ⟨hdn, hattributes⟩
  · rintro ⟨hdn, hattributes⟩
    exact ⟨entry.dn, hdn, by rw [hattributes]; rfl⟩

/-- What the handler serves is in order exactly if the rules withhold nothing that the request
reaches. -/
theorem searchHandler_obeys_iff (h : db.Synced) (config : Acl.Config) (conn : Connection)
    (req : SearchRequest) (orders attrOrders : Bytes → MapOrder) :
    Obeys config conn.bindDN (searchHandler orders attrOrders conn req db).1 ↔
      Open config conn.bindDN db req := by
  have hiterated := iterated_eq h req
  unfold searchHandler search
  cases hresult : iterated db.begin.2 db.begin.1 (normalizeDN req.baseObject) req.scope
    req.filter with | mk result read =>
  rw [hresult] at hiterated
  dsimp only at hiterated ⊢
  cases hreach : reach db req with
  | error err =>
    rw [hreach] at hiterated
    rw [hiterated]
    refine ⟨fun _ dns hdns => ?_, fun _ entry hentry => absurd hentry not_mem_nil⟩
    rw [hreach] at hdns
    cases hdns
  | ok dns =>
    rw [hreach] at hiterated
    rw [hiterated]
    constructor
    · intro hobeys dns' hdns' dn hdn attributes hattributes haccepts
      rw [hreach] at hdns'
      cases hdns'
      have hfound : (⟨dn, attributes⟩ : Entry) ∈ (readAt db dns).filter req.accepts :=
        mem_filter.mpr ⟨mem_readAt.mpr ⟨hdn, hattributes⟩, haccepts⟩
      obtain ⟨hread, hattrs⟩ := hobeys _ (mem_map_of_mem (mem_map_of_mem hfound))
      refine ⟨hread, fun name hname => ?_⟩
      have hlower : toLower name ∈ lowerNames (orders dn) attributes :=
        (mem_lowerNames _ _ _).mpr ⟨name, hname, rfl⟩
      obtain ⟨values, hvalues⟩ := ((attrOrders dn).mem_iff_mem_range _).mp hlower
      exact hattrs _ hvalues
    · intro hopen entry hentry
      obtain ⟨converted, hconverted, rfl⟩ := mem_map.mp hentry
      obtain ⟨found, hfound, rfl⟩ := mem_map.mp hconverted
      obtain ⟨hmem, haccepts⟩ := mem_filter.mp hfound
      obtain ⟨hdn, hattributes⟩ := mem_readAt.mp hmem
      obtain ⟨hread, hattrs⟩ := hopen dns hreach found.dn hdn found.attributes hattributes haccepts
      refine ⟨hread, fun attr hattr => ?_⟩
      have hname : attr.1 ∈ lowerNames (orders found.dn) found.attributes :=
        ((attrOrders found.dn).mem_iff_mem_range _).mpr ⟨attr.2, hattr⟩
      obtain ⟨name, hmemName, hlower⟩ := (mem_lowerNames _ _ _).mp hname
      rw [← hlower]
      exact hattrs name hmemName

end Served

/-- A domain with one person. -/
def mailDirectory : ObaDB Unit :=
  ObaDB.onDisk [⟨ascii "dc=x", ∅⟩,
    ⟨ascii "cn=a,dc=x", UnorderedMap.insertAll ∅ [(ascii "mail", [ascii "a@x"])]⟩]

lemma synced_mailDirectory : mailDirectory.Synced :=
  (ObaDB.opened_onDisk _).synced (ObaDB.paths_onDisk (by decide +kernel))

/-- Only the administrator may read. -/
def adminOnly : Acl.Config :=
  ⟨ascii "deny", [⟨ascii "dc=x", .subtree, ascii "uid=admin,dc=x", Acl.Right.all, [], false⟩]⟩

/-- The administrator searches the domain. -/
theorem searchHandler_obeys_admin :
    Obeys adminOnly (ascii "uid=admin,dc=x") (searchHandler (fun _ => .ascending)
      (fun _ => .ascending) ⟨ascii "uid=admin,dc=x"⟩ ⟨ascii "dc=x", 2, none⟩ mailDirectory).1 := by
  refine (searchHandler_obeys_iff synced_mailDirectory adminOnly ⟨ascii "uid=admin,dc=x"⟩
    ⟨ascii "dc=x", 2, none⟩ _ _).mpr fun dns hdns dn hdn attributes hattributes _ => ?_
  have hall : ∀ dns ∈ (reach mailDirectory ⟨ascii "dc=x", 2, none⟩).toOption,
      ∀ entry ∈ readAt mailDirectory dns,
        adminOnly.canRead (ascii "uid=admin,dc=x") entry.dn ∧
          ∀ name ∈ entry.attributes.keys, adminOnly.checkAttributeAccess (toLower name)
            (some ⟨ascii "uid=admin,dc=x", entry.dn, Acl.Right.read⟩) := by decide +kernel
  obtain ⟨hread, hattrs⟩ := hall dns (by rw [hdns]; rfl) ⟨dn, attributes⟩
    (mem_readAt.mpr ⟨hdn, hattributes⟩)
  exact ⟨hread, fun name hname => hattrs name (Std.ExtTreeMap.mem_keys.mpr hname)⟩

/-- An anonymous client, which may read nothing, is served the same. -/
theorem searchHandler_disobeys :
    ¬ Obeys adminOnly [] (searchHandler (fun _ => .ascending) (fun _ => .ascending) ⟨[]⟩
      ⟨ascii "dc=x", 2, none⟩ mailDirectory).1 := by
  intro h
  have hserved : (⟨ascii "cn=a,dc=x", [(ascii "mail", [ascii "a@x"])]⟩ : SearchEntry) ∈
      (searchHandler (fun _ => .ascending) (fun _ => .ascending) ⟨[]⟩ ⟨ascii "dc=x", 2, none⟩
        mailDirectory).1.entries := by decide +kernel
  exact absurd (h _ hserved).1 (by decide +kernel)

end Oba.Server
