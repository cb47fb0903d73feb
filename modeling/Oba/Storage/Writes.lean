import Oba.Storage.Settled

/-! # Writing one entry

What a put and a delete of a single entry do to a settled database, once their transaction is
committed.
-/

namespace Oba.Storage

open UnorderedMap List
open Function (update update_of_ne update_self)

namespace VersionStore

variable {vs : VersionStore} {load : Bytes → Option Version} {tx : Nat} {dn : Bytes}

lemma recached_latest (load : Bytes → Option Version) (vs : VersionStore) (dn : Bytes) :
    (vs.latest load dn).2.versions = vs.versions ∧
      (vs.latest load dn).2.activeWriters = vs.activeWriters ∧
      ∀ other, (vs.latest load dn).2.cache.lookup other = vs.cache.lookup other := by
  unfold latest
  split
  · exact ⟨rfl, rfl, fun _ => rfl⟩
  · exact ⟨vs.versions_touch dn, vs.activeWriters_touch dn, vs.lookup_touch dn⟩

lemma claim_of_free (h : vs.activeWriters dn = none) (tx : Nat) :
    vs.claim tx dn =
      some { vs with activeWriters := update vs.activeWriters dn (some tx) } :=
  if_pos (.inl h)

lemma lookup_cachePut_self (vs : VersionStore) (dn : Bytes) (v : Version) :
    (vs.cachePut dn v).cache.lookup dn = some v := by
  unfold cachePut
  split <;> exact lookup_cons_self

/-- What a new version is put on: the chain, or what is found when there is none. -/
def under (load : Bytes → Option Version) (vs : VersionStore) (dn : Bytes) : List Version :=
  match vs.versions dn with
  | [] => ((vs.cache.lookup dn).or (load dn)).toList
  | chain => chain

lemma createVersion_effect (load : Bytes → Option Version) (vs : VersionStore) (tx : Nat)
    (dn : Bytes) (data : Attributes) (page : Nat) :
    (vs.createVersion load tx dn data page).versions =
        update vs.versions dn (⟨tx, 0, data, page, false⟩ :: vs.under load dn) ∧
      (vs.createVersion load tx dn data page).activeWriters = vs.activeWriters ∧
      (vs.createVersion load tx dn data page).cache.lookup dn =
        some ⟨tx, 0, data, page, false⟩ ∧
      ∀ other w, other ≠ dn → (vs.createVersion load tx dn data page).cache.lookup other = some w →
        vs.cache.lookup other = some w := by
  obtain ⟨hversions, hwriters, hcache⟩ := vs.recached_latest load dn
  refine ⟨?_, (activeWriters_cachePut ..).trans hwriters, lookup_cachePut_self .., ?_⟩
  · dsimp only [createVersion]
    rw [versions_cachePut, hversions]
    unfold under latest
    split <;> simp_all
  · intro other w hne hw
    rcases lookup_cachePut hw with ⟨heq, _⟩ | ⟨_, hold⟩
    · exact absurd heq hne
    · exact (hcache other).symm.trans hold

end VersionStore

namespace ObaDB

variable {τ : Type} {db db' : ObaDB τ} {tx : Nat} {content : Bytes → Option Attributes}
  {dn : Bytes} {path : List Bytes} {writeSet : List Nat} {attributes : Attributes} {entry : Entry}

/-! ## Deletes -/

lemma View.latest (hview : db.View tx content) (hdn : Canonical dn path)
    (hsome : (content dn).isSome) : ∃ v, (db.store.latest db.diskLoader dn).1 = some v := by
  have hshows := hview.shows dn path hdn
  unfold VersionStore.Shows at hshows
  split at hshows
  next v rest hchain => exact ⟨v, by rw [VersionStore.latest, hchain]⟩
  next hchain =>
    rw [VersionStore.latest, hchain]
    refine Option.isSome_iff_exists.mp ?_
    rw [← hshows.1, Option.isSome_map] at hsome
    simp [hsome]

lemma isActive_single (hactive : db.active = [(tx, writeSet)]) : db.isActive tx = true := by
  simp [isActive, hactive]

lemma addToWriteSet_single (hactive : db.active = [(tx, writeSet)]) (page : Nat) :
    ∃ writeSet', (db.addToWriteSet tx page).active = [(tx, writeSet')] := by
  simp only [addToWriteSet, hactive, map_cons, map_nil]
  split
  · exact ⟨_, rfl⟩
  · exact ⟨_, rfl⟩

lemma View.deleteVersion (hview : db.View tx content) (hdn : Canonical dn path)
    (hsome : (content dn).isSome) : ∃ page store,
      db.store.deleteVersion db.diskLoader tx dn = (.ok page, store) ∧
      store.versions = update db.store.versions dn
        (⟨tx, 0, ∅, page, true⟩ :: db.store.versions dn) ∧
      store.activeWriters = update db.store.activeWriters dn (some tx) ∧
      ∀ other, other ≠ dn → store.cache.lookup other = db.store.cache.lookup other := by
  obtain ⟨v, hv⟩ := hview.latest hdn hsome
  obtain ⟨hversions, hwriters, hcache⟩ := db.store.recached_latest db.diskLoader dn
  have hfree : (db.store.latest db.diskLoader dn).2.activeWriters dn = none := by
    rw [hwriters, hview.activeWriters dn]
  unfold VersionStore.deleteVersion
  rw [show db.store.latest db.diskLoader dn =
    (some v, (db.store.latest db.diskLoader dn).2) from Prod.ext hv rfl]
  dsimp only
  rw [VersionStore.claim_of_free hfree]
  refine ⟨v.pageID, _, rfl, ?_, ?_, fun other hne => ?_⟩
  · rw [← hversions]
    rfl
  · rw [← hwriters]
    rfl
  · exact (AssocList.lookup_erase_of_ne _ hne).trans (hcache other)

variable (trees : IndexTrees τ)

lemma View.deleteFound (hview : db.View tx content) (hdn : Canonical dn path)
    (hsome : (content dn).isSome) (hactive : db.active = [(tx, writeSet)]) (orders : Orders)
    (old : Attributes) : ∃ v : Version, v.deleted = true ∧
      db.Wrote (db.deleteFound trees orders tx dn old).2 tx dn path v := by
  obtain ⟨page, store, hdelete, hversions, hwriters, hcache⟩ := hview.deleteVersion hdn hsome
  obtain ⟨path', hcanonical, hlisted⟩ := hview.listed dn hsome
  obtain rfl : path' = path := Except.ok.inj (hcanonical.parsed.symm.trans hdn.parsed)
  have hradix : db.radix.delete dn = .ok ⟨db.radix.paths.filter (·.1 ≠ path')⟩ := by
    unfold RadixTree.delete
    rw [hdn.parsed]
    exact if_pos (AssocList.lookup_isSome_iff.mpr hlisted)
  refine ⟨⟨tx, 0, ∅, page, true⟩, rfl, ?_⟩
  unfold ObaDB.deleteFound ObaDB.deleteVersion
  rw [if_neg (by simp [isActive_single hactive]), hdelete]
  dsimp only [addToWriteSet]
  rw [hradix]
  obtain ⟨writeSet', hactive'⟩ := addToWriteSet_single hactive page
  have hsublist := (filter_sublist (p := fun p => decide (p.1 ≠ path'))
    (l := db.radix.paths)).map Prod.fst
  refine {
    pending := ⟨rfl, rfl⟩
    chain := ⟨db.store.versions dn, by rw [hversions, update_self]⟩
    versions := fun other hne => by rw [hversions, update_of_ne hne]
    cache := fun other w hne hw => hcache other hne ▸ hw
    owner := by rw [hwriters, update_self]
    activeWriters := fun other hne => by rw [hwriters, update_of_ne hne]
    currentTS := rfl
    nextTxID := rfl
    active := ⟨writeSet', hactive'⟩
    nodup := hview.nodup.sublist hsublist
    paths := fun p hp => .inl (mem_of_mem_filter hp)
    kept := fun p hp hne => mem_filter.mpr ⟨hp, decide_eq_true hne⟩
    listed := nofun
    nextPage := le_rfl
    pages := fun _ _ => rfl
    indexes := rfl }

lemma Settled.delete (hdb : db.Settled content) (hdn : Canonical dn path)
    (hsome : (content dn).isSome) (orders : Orders) :
    ((db.begin.2.delete trees orders db.begin.1 dn).2.commit db.begin.1).2.indexes = db.indexes ∧
      ((db.begin.2.delete trees orders db.begin.1 dn).2.commit db.begin.1).2.Settled
        (update content dn none) := by
  have hanswer := hdb.begin.visible hdn
  have hview := hdb.begin.reread (db.begin.2.reread_visible db.begin.1 dn)
  have hactive : (db.begin.2.visible db.begin.1 dn).2.active = [(db.begin.1, [])] :=
    congrArg (_ :: ·) hdb.active
  obtain ⟨data, hdata⟩ := Option.isSome_iff_exists.mp hsome
  rw [hdata] at hanswer
  obtain ⟨v, hv, rfl⟩ := hanswer
  have hdelete : db.begin.2.delete trees orders db.begin.1 dn =
      (db.begin.2.visible db.begin.1 dn).2.deleteFound trees orders db.begin.1 dn v.data := by
    unfold ObaDB.delete
    rw [if_neg hdn.ne_nil, hdn.normalized, show db.begin.2.visible db.begin.1 dn =
      (.ok v, (db.begin.2.visible db.begin.1 dn).2) from Prod.ext hv rfl]
  obtain ⟨w, hdeleted, hwrote⟩ := hview.deleteFound trees hdn hsome hactive orders v.data
  obtain ⟨_, hindexes, hsettled⟩ := hwrote.commit hview hdn rfl
  rw [hdeleted] at hsettled
  rw [hdelete]
  exact ⟨hindexes, hsettled⟩

/-! ## Puts -/

/-- No other user has the uid. -/
def UidFree (content : Bytes → Option Attributes) (dn uid : Bytes) : Prop :=
  ∀ other data order, other ≠ dn → isUsersSubtreeDN other → content other = some data →
    extractCanonicalUID order data ≠ uid

section

variable (hview : db.View tx content)
include hview

lemma View.uidScan {uid : Bytes} (hfree : UidFree content dn uid) (orders : Orders)
    (position : Nat) {dns : List Bytes} (hdns : ∀ other ∈ dns, ∃ path, Canonical other path) :
    (db.uidScan orders tx dn uid position dns).1 = true := by
  induction dns generalizing db position with
  | nil => rfl
  | cons other rest ih =>
    obtain ⟨⟨path, hother⟩, hrest⟩ := forall_mem_cons.mp hdns
    have hanswer := hview.visible hother
    rw [ObaDB.uidScan]
    split
    next heq => exact ih (hview.reread (reread_of_visible heq)) position hrest
    next v _ heq =>
      have hnext := hview.reread (reread_of_visible heq)
      rw [heq] at hanswer
      split
      · exact ih hnext position hrest
      next hscanned =>
        rw [not_or, not_or, not_not] at hscanned
        rw [if_neg (hfree other _ _ hscanned.2.1 hscanned.2.2 hanswer.data_eq.symm)]
        exact ih hnext _ hrest

lemma View.checkUIDUnique (orders : Orders)
    (hfree : isUsersSubtreeDN dn → ∀ order, extractCanonicalUID order attributes ≠ [] →
      UidFree content dn (extractCanonicalUID order attributes)) :
    (db.checkUIDUnique orders tx dn attributes).1 = true := by
  unfold ObaDB.checkUIDUnique
  dsimp only
  split
  · rfl
  next hcheck =>
    rw [not_or, not_not] at hcheck
    exact hview.uidScan (hfree hcheck.2 (orders .newUid) hcheck.1) orders 0
      fun _ hother => hview.iterate hother

omit hview

lemma insertDN_new (db : ObaDB τ) (hpath : parseDN dn = .ok path) (page : Nat) :
    db.insertDN true dn page = .ok (if (db.radix.lookupPath path).isSome then db.radix
      else ⟨db.radix.paths ++ [(path, page)]⟩) := by
  rw [insertDN, if_pos rfl, RadixTree.insert, hpath]
  by_cases hthere : (db.radix.lookupPath path).isSome
  · simp only [hthere, if_true]
  · simp only [hthere, Bool.false_eq_true, if_false]

lemma insertDN_invalid (db : ObaDB τ) {err : RadixError} (hpath : parseDN dn = .error err)
    (page : Nat) : db.insertDN true dn page = .error err := by
  rw [insertDN, if_pos rfl, RadixTree.insert, hpath]
  cases err with
  | entryExists => exact absurd hpath (parseDN_ne_entryExists dn)
  | _ => rfl

include hview

/-- The path is in the tree, at the given page if it was not there before. -/
structure Listed (tree tree' : RadixTree) (path : List Bytes) (page : Nat) : Prop where
  nodup : (tree'.paths.map Prod.fst).Nodup
  paths : ∀ p ∈ tree'.paths, p ∈ tree.paths ∨ p = (path, page)
  kept : ∀ p ∈ tree.paths, p ∈ tree'.paths
  listed : path ∈ tree'.paths.map Prod.fst

lemma View.insertDN (hdn : Canonical dn path) {isNew : Bool}
    (hold : isNew = false → (content dn).isSome) (page : Nat) :
    ∃ radix, db.insertDN isNew dn page = .ok radix ∧ Listed db.radix radix path page := by
  have hsame : path ∈ db.radix.paths.map Prod.fst → Listed db.radix db.radix path page :=
    fun hlisted => ⟨hview.nodup, fun _ hp => .inl hp, fun _ hp => hp, hlisted⟩
  cases isNew with
  | false =>
    obtain ⟨path', hcanonical, hlisted⟩ := hview.listed dn (hold rfl)
    obtain rfl : path' = path := Except.ok.inj (hcanonical.parsed.symm.trans hdn.parsed)
    exact ⟨db.radix, rfl, hsame hlisted⟩
  | true =>
    refine ⟨_, insertDN_new db hdn.parsed page, ?_⟩
    split
    next hthere => exact hsame (AssocList.lookup_isSome_iff.mp hthere)
    next hthere =>
      have hfresh : path ∉ db.radix.paths.map Prod.fst := fun hlisted =>
        hthere (AssocList.lookup_isSome_iff.mpr hlisted)
      refine ⟨?_, fun p hp => ?_, fun p hp => mem_append_left _ hp, ?_⟩
      · rw [map_append]
        refine nodup_append.mpr ⟨hview.nodup, nodup_singleton _, ?_⟩
        rintro a ha b hb rfl
        obtain rfl : a = path := mem_singleton.mp hb
        exact hfresh ha
      · simpa using hp
      · simp

lemma View.createVersionWithLocation (hactive : db.active = [(tx, writeSet)]) (dn : Bytes)
    (path : List Bytes) (data : Attributes) (size : Nat) : ∃ created,
      db.createVersionWithLocation tx dn data size = .ok (db.nextPage, created) ∧
      created.radix = db.radix ∧ created.indexes = db.indexes ∧
      ∀ radix t, Listed db.radix radix path db.nextPage →
        db.Wrote { created with radix := radix, trees := t } tx dn path
          ⟨tx, 0, data, db.nextPage, false⟩ := by
  unfold ObaDB.createVersionWithLocation
  rw [if_neg (by simp [isActive_single hactive]),
    VersionStore.claim_of_free (hview.activeWriters dn)]
  refine ⟨_, rfl, rfl, rfl, fun radix t hlisted => ?_⟩
  obtain ⟨hversions, hwriters, -, hcache⟩ := VersionStore.createVersion_effect
    ({ db with store := _ }.allocateStorage data size).2.diskLoader
    { db.store with activeWriters := update db.store.activeWriters dn (some tx) }
    tx dn data db.nextPage
  exact {
    pending := ⟨rfl, rfl⟩
    chain := ⟨_, (congrFun hversions dn).trans (update_self ..)⟩
    versions := fun other hne => (congrFun hversions other).trans (update_of_ne hne ..)
    cache := hcache
    owner := (congrFun hwriters dn).trans (update_self ..)
    activeWriters := fun other hne =>
      (congrFun hwriters other).trans (update_of_ne hne ..)
    currentTS := rfl
    nextTxID := rfl
    active := addToWriteSet_single hactive db.nextPage
    nodup := hlisted.nodup
    paths := fun p hp => (hlisted.paths p hp).imp_right fun heq =>
      ⟨by rw [heq], by rw [heq]; exact lt_add_one _⟩
    kept := fun p hp _ => hlisted.kept p hp
    listed := fun _ => hlisted.listed
    nextPage := Nat.le_succ _
    pages := fun page hpage => by
      split
      · exact update_of_ne hpage.ne ..
      · rfl
    indexes := rfl }

end

/-- The index trees accept every key that the attributes have. -/
def Indexable (indexes : List (Bytes × IndexType)) (attributes : Attributes) : Prop :=
  ∀ index ∈ indexes, ∀ order, ∀ key ∈ indexKeys index.2 (lookupFolded order index.1 attributes),
    ∀ ref t, (trees.insert index.1 key ref t).2 = true

lemma insertKeys_ok {attr : Bytes} {ref : EntryRef} {keys : List Bytes}
    (hkeys : ∀ key ∈ keys, ∀ t, (trees.insert attr key ref t).2 = true) (t : τ) :
    (insertKeys trees attr ref keys t).2 = true := by
  induction keys generalizing t with
  | nil => rfl
  | cons key rest ih =>
    obtain ⟨hkey, hrest⟩ := forall_mem_cons.mp hkeys
    rw [insertKeys]
    split
    · exact ih hrest _
    next heq => cases (congrArg Prod.snd heq).symm.trans (hkey t)

lemma addToIndexes_ok {indexes : List (Bytes × IndexType)}
    (hindex : Indexable trees indexes attributes) (site : Bytes → MapOrder) (ref : EntryRef)
    (t : τ) :
    (addToIndexes trees site ref attributes indexes t).2 = true := by
  induction indexes generalizing t with
  | nil => rfl
  | cons index rest ih =>
    obtain ⟨hfirst, hrest⟩ := forall_mem_cons.mp hindex
    rw [addToIndexes]
    split
    · exact ih hrest _
    next heq =>
      cases (congrArg Prod.snd heq).symm.trans
        (insertKeys_ok trees (fun key hkey => hfirst (site index.1) key hkey ref) t)

lemma updateIndexes_ok {new : Attributes} (hindex : Indexable trees db.indexes new)
    (orders : Orders) (dn : Bytes) (old : Option Attributes) (page : Nat) :
    ∃ t, db.updateIndexes trees orders dn old new page = (.ok (), { db with trees := t }) := by
  dsimp only [updateIndexes]
  split
  next t _ => exact ⟨t, rfl⟩
  next heq => cases (congrArg Prod.snd heq).symm.trans (addToIndexes_ok trees hindex ..)

lemma View.putVersion (hview : db.View tx content) (hactive : db.active = [(tx, writeSet)])
    (hdn : Canonical entry.dn path) (hfits : entry.Fits 4)
    (hindex : Indexable trees db.indexes entry.attributes) (orders : Orders) :
    ∃ written, db.putVersion trees orders tx entry = (.ok (), written) ∧
      (db.visible tx entry.dn).2.Wrote written tx entry.dn path
        ⟨tx, 0, entry.attributes, db.nextPage, false⟩ := by
  have hread := hview.reread (db.reread_visible tx entry.dn)
  have hold : ((db.visible tx entry.dn).1.toOption.map Version.data).isNone = false →
      (content entry.dn).isSome := by
    rw [(hview.visible hdn).data_eq]
    exact fun hsome => by simpa using hsome
  obtain ⟨created, hcreated, hradix, hindexes, hwrote⟩ :=
    hread.createVersionWithLocation hactive entry.dn path entry.attributes
      (serializeEntry (orders .write) entry).length
  obtain ⟨radix, hinsert, hlisted⟩ := hread.insertDN hdn hold (db.visible tx entry.dn).2.nextPage
  rw [ObaDB.insertDN, ← hradix, ← ObaDB.insertDN] at hinsert
  have hready : Indexable trees { created with radix := radix }.indexes entry.attributes :=
    hindexes ▸ hindex
  obtain ⟨t, ht⟩ := updateIndexes_ok trees hready orders entry.dn
    ((db.visible tx entry.dn).1.toOption.map Version.data) db.nextPage
  refine ⟨_, ?_, hwrote radix t hlisted⟩
  dsimp only [ObaDB.putVersion]
  rw [deserializeEntry_serializeEntry _ hfits, Option.getD_some, hcreated]
  dsimp only
  rw [hinsert]
  exact ht

lemma Settled.put (hdb : db.Settled content) (hdn : Canonical entry.dn path)
    (hfits : entry.Fits 4) (hindex : Indexable trees db.indexes entry.attributes)
    (hfree : isUsersSubtreeDN entry.dn → ∀ order, extractCanonicalUID order entry.attributes ≠ [] →
      UidFree content entry.dn (extractCanonicalUID order entry.attributes)) (orders : Orders) :
    ∃ written, db.begin.2.put trees orders db.begin.1 entry = (.ok (), written) ∧
      (written.commit db.begin.1).1 = .ok () ∧
      (written.commit db.begin.1).2.indexes = db.indexes ∧
      (written.commit db.begin.1).2.Settled (update content entry.dn (some entry.attributes)) := by
  have hread := db.begin.2.reread_checkUIDUnique orders db.begin.1 entry.dn entry.attributes
  have hcheck := hdb.begin.checkUIDUnique orders hfree
  cases hunique : db.begin.2.checkUIDUnique orders db.begin.1 entry.dn entry.attributes with
    | mk result read =>
  rw [hunique] at hread hcheck
  obtain rfl : result = true := hcheck
  have hread : Reread db.begin.2 read := hread
  have hindexes : read.indexes = db.indexes := by
    rw [hread.frame]
    rfl
  have hview := hdb.begin.reread hread
  have hactive : read.active = [(db.begin.1, [])] :=
    hread.active.trans (congrArg (_ :: ·) hdb.active)
  obtain ⟨written, hput, hwrote⟩ :=
    hview.putVersion trees hactive hdn hfits (hindexes.symm ▸ hindex) orders
  obtain ⟨hcommit, hkept, hsettled⟩ :=
    hwrote.commit (hview.reread (reread_visible _ _ entry.dn)) hdn hread.nextTxID
  refine ⟨written, ?_, hcommit, hkept.trans hindexes, hsettled⟩
  unfold ObaDB.put
  rw [if_neg hdn.ne_nil, hdn.normalized, hunique]
  exact hput

end ObaDB

end Oba.Storage
