import Oba.Storage.Engine

/-! # Databases in which iteration orders do not matter

The engine looks names up without regard to case, in the iteration order of a map. When no
entry spells such a name in two ways, every operation gives the same result in every order.
-/

namespace Oba.Storage

open UnorderedMap List Option

variable {dn : Bytes} {data : Attributes}

/-- No name that the engine looks up is spelled in two ways. -/
def Unambiguous (indexes : List (Bytes × IndexType)) (attributes : Attributes) : Prop :=
  ∀ attr ∈ ascii "uid" :: indexes.map (fun index => toLower index.1), SpelledOnce attr attributes

lemma Unambiguous.empty (indexes : List (Bytes × IndexType)) : Unambiguous indexes ∅ :=
  fun _ _ _ _ ha => absurd ha Std.ExtTreeMap.not_mem_empty

lemma unambiguous_of_lower {indexes : List (Bytes × IndexType)} {attributes : Attributes}
    (hlower : ∀ name ∈ attributes, toLower name = name) : Unambiguous indexes attributes :=
  fun _ _ a b ha hb hattr hattr' =>
    (hlower a ha).symm.trans (hattr.trans (hattr'.symm.trans (hlower b hb)))

/-! ## What a database holds -/

namespace VersionStore

/-- Everything the store holds satisfies `P`. -/
structure Holds (P : Attributes → Prop) (vs : VersionStore) : Prop where
  versions : ∀ dn, ∀ v ∈ vs.versions dn, P v.data
  cache : ∀ c ∈ vs.cache, P c.2.data

variable {P : Attributes → Prop} {vs : VersionStore} {load : Bytes → Option Version}

namespace Holds

section

variable (hvs : vs.Holds P)
include hvs

lemma lookup {v : Version} (h : vs.cache.lookup dn = some v) : P v.data := by
  obtain ⟨before, after, hcache, _⟩ := lookup_eq_some_iff.mp h
  exact hvs.cache (dn, v) (hcache ▸ by simp)

lemma touch (dn : Bytes) : (vs.touch dn).Holds P := by
  unfold VersionStore.touch
  split
  next v hv =>
    refine ⟨hvs.versions, forall_mem_cons.mpr ⟨hvs.lookup hv, fun c hc => ?_⟩⟩
    exact hvs.cache c (mem_of_mem_filter hc)
  · exact hvs

lemma cachePut (dn : Bytes) {v : Version} (hv : P v.data) : (vs.cachePut dn v).Holds P := by
  unfold VersionStore.cachePut
  split
  · exact ⟨hvs.versions, forall_mem_cons.mpr ⟨hv, fun c hc => hvs.cache c (mem_of_mem_filter hc)⟩⟩
  · refine ⟨hvs.versions, forall_mem_cons.mpr ⟨hv, fun c hc => hvs.cache c ?_⟩⟩
    split at hc
    · exact (dropLast_sublist _).subset hc
    · exact hc

lemma getVisibleForTx (hload : ∀ dn v, load dn = some v → P v.data) (dn : Bytes)
    (snapshot tx : Nat) :
    (vs.getVisibleForTx load dn snapshot tx).2.Holds P ∧
      ∀ v, (vs.getVisibleForTx load dn snapshot tx).1 = .ok v → P v.data := by
  have hfound : ∀ {v w}, P v.data → found v = .ok w → P w.data := by
    intro v w hv h
    unfold found at h
    split at h
    · cases h
    · exact Except.ok.inj h ▸ hv
  unfold VersionStore.getVisibleForTx
  split
  next v hv => exact ⟨hvs, fun w => hfound (hvs.versions dn v (mem_of_find?_eq_some hv))⟩
  · split
    next v hv =>
      exact ⟨hvs.touch dn, fun w => hfound (hvs.lookup (filter_eq_some_iff.mp hv).1)⟩
    · split
      · exact ⟨hvs.touch dn, nofun⟩
      next v hv =>
        refine ⟨(hvs.touch dn).cachePut dn (hload dn v hv), fun w hw => ?_⟩
        split at hw
        · exact hfound (hload dn v hv) hw
        · cases hw

lemma latest (hload : ∀ dn v, load dn = some v → P v.data) (dn : Bytes) :
    (vs.latest load dn).2.Holds P ∧ ∀ v, (vs.latest load dn).1 = some v → P v.data := by
  unfold VersionStore.latest
  split
  next v rest hchain =>
    refine ⟨hvs, fun w hw => hvs.versions dn w ?_⟩
    rw [hchain, some.inj hw]
    exact mem_cons_self
  · refine ⟨hvs.touch dn, fun v hv => ?_⟩
    rcases or_eq_some_iff.mp hv with hcached | ⟨_, hloaded⟩
    · exact hvs.lookup hcached
    · exact hload dn v hloaded

lemma claim {tx : Nat} {vs' : VersionStore} (h : vs.claim tx dn = some vs') : vs'.Holds P := by
  unfold VersionStore.claim at h
  split at h
  · exact some.inj h ▸ ⟨hvs.versions, hvs.cache⟩
  · cases h

/-- A new chain for one DN. -/
lemma update (dn : Bytes) {chain : List Version} (hchain : ∀ v ∈ chain, P v.data) :
    { vs with versions := Function.update vs.versions dn chain }.Holds P := by
  refine ⟨fun other v hv => ?_, hvs.cache⟩
  by_cases heq : other = dn
  · subst heq
    exact hchain v (by simpa using hv)
  · exact hvs.versions other v (by simpa [heq] using hv)

lemma createVersion (hload : ∀ dn v, load dn = some v → P v.data) (tx : Nat) (dn : Bytes)
    (hdata : P data) (pageID : Nat) : (vs.createVersion load tx dn data pageID).Holds P := by
  obtain ⟨hrest, hlatest⟩ := hvs.latest hload dn
  refine (hrest.update dn (forall_mem_cons.mpr ⟨hdata, ?_⟩)).cachePut dn hdata
  split
  · exact fun v hv => hlatest v (mem_toList.mp hv)
  · exact hvs.versions dn

lemma deleteVersion (hload : ∀ dn v, load dn = some v → P v.data) (hempty : P ∅) (tx : Nat)
    (dn : Bytes) : (vs.deleteVersion load tx dn).2.Holds P := by
  have hrest := (hvs.latest hload dn).1
  unfold VersionStore.deleteVersion
  split
  next heq =>
    rw [heq] at hrest
    exact hrest
  next v _ heq =>
    rw [heq] at hrest
    split
    · exact hrest
    next hclaim =>
      have hclaimed := hrest.claim hclaim
      have hempty' : P (Version.mk tx 0 ∅ v.pageID true).data := hempty
      have hnew := hclaimed.update dn (forall_mem_cons.mpr ⟨hempty', hclaimed.versions dn⟩)
      exact ⟨hnew.versions, fun c hc => hnew.cache c (mem_of_mem_filter hc)⟩

lemma commitVersion (tx commitTS : Nat) : (vs.commitVersion tx commitTS).Holds P := by
  have hcommit : ∀ v : Version, (v.commit tx commitTS).data = v.data := fun v => by
    unfold Version.commit
    split <;> rfl
  constructor
  · intro dn v hv
    obtain ⟨w, hw, rfl⟩ := mem_map.mp hv
    exact hcommit w ▸ hvs.versions dn w hw
  · intro c hc
    obtain ⟨d, hd, rfl⟩ := mem_map.mp hc
    split
    · exact hcommit d.2 ▸ hvs.cache d hd
    · exact hvs.cache d hd

lemma rollbackVersion (tx : Nat) : (vs.rollbackVersion tx).Holds P :=
  ⟨fun dn v hv => hvs.versions dn v ((dropWhile_sublist _).subset hv),
    fun c hc => hvs.cache c (mem_of_mem_filter hc)⟩

end

end Holds

end VersionStore

namespace ObaDB

variable {τ : Type} {indexes : List (Bytes × IndexType)} {db : ObaDB τ} {db' : ObaDB τ}

/-- The database has the given indexes and holds no entry that is ambiguous for them. -/
def Clear (indexes : List (Bytes × IndexType)) (db : ObaDB τ) : Prop :=
  db.indexes = indexes ∧ db.store.Holds (Unambiguous indexes) ∧
    ∀ page data, db.pages page = some data → Unambiguous indexes data

lemma new_clear (trees : τ) : (new trees).Clear defaultIndexes :=
  ⟨rfl, ⟨fun _ => (nofun), (nofun)⟩, nofun⟩

namespace Clear

section

variable (hdb : db.Clear indexes)
include hdb

lemma diskLoader (dn : Bytes) (v : Version) (h : db.diskLoader dn = some v) :
    Unambiguous indexes v.data := by
  unfold ObaDB.diskLoader at h
  split at h
  · cases h
  · cases h
  next page _ =>
    obtain ⟨data, hdata, rfl⟩ := map_eq_some_iff.mp h
    exact hdb.2.2 _ data hdata

lemma withStore {store : VersionStore} (hstore : store.Holds (Unambiguous indexes)) :
    { db with store := store }.Clear indexes :=
  ⟨hdb.1, hstore, hdb.2.2⟩

lemma visible {tx : Nat} {result : Except VersionError Version}
    (h : db.visible tx dn = (result, db')) :
    db'.Clear indexes ∧ ∀ v, result = .ok v → Unambiguous indexes v.data := by
  obtain ⟨hstore, hresult⟩ := hdb.2.1.getVisibleForTx hdb.diskLoader dn tx tx
  cases h
  exact ⟨hdb.withStore hstore, hresult⟩

lemma begin : db.begin.2.Clear indexes := hdb

lemma commit (tx : Nat) : (db.commit tx).2.Clear indexes := by
  have hstore := hdb.2.1.commitVersion tx (db.currentTS + 1)
  unfold ObaDB.commit
  dsimp only
  split
  · exact hdb.withStore hstore
  · split
    · exact hdb.withStore hstore
    · exact hdb.withStore hstore

lemma rollback (tx : Nat) : (db.rollback tx).Clear indexes :=
  hdb.withStore (hdb.2.1.rollbackVersion tx)

lemma get (tx : Nat) (dn : Bytes) : (db.get tx dn).2.Clear indexes := by
  unfold ObaDB.get
  split
  · exact hdb
  · split <;> exact (hdb.visible ‹_›).1

lemma addToWriteSet (tx pageID : Nat) : (db.addToWriteSet tx pageID).Clear indexes := hdb

lemma allocateStorage (hdata : Unambiguous indexes data) (size : Nat) :
    (db.allocateStorage data size).2.Clear indexes := by
  refine ⟨hdb.1, hdb.2.1, fun page held hheld => ?_⟩
  dsimp only [ObaDB.allocateStorage] at hheld
  split at hheld
  · by_cases heq : page = db.nextPage
    · subst heq
      rw [Function.update_self] at hheld
      exact some.inj hheld ▸ hdata
    · rw [Function.update_of_ne heq] at hheld
      exact hdb.2.2 page held hheld
  · exact hdb.2.2 page held hheld

lemma uidScan (orders : Orders) (tx : Nat) (dn uid : Bytes) (position : Nat) (dns : List Bytes) :
    (db.uidScan orders tx dn uid position dns).2.Clear indexes := by
  induction dns generalizing db position with
  | nil => exact hdb
  | cons other rest ih =>
    rw [ObaDB.uidScan]
    split
    next heq => exact ih (hdb.visible heq).1 position
    next heq =>
      have hvisible := (hdb.visible heq).1
      split
      · exact ih hvisible position
      · split
        · exact hvisible
        · exact ih hvisible _

lemma checkUIDUnique {orders : Orders} {tx : Nat} {attributes : Attributes} {result : Bool}
    (h : db.checkUIDUnique orders tx dn attributes = (result, db')) : db'.Clear indexes := by
  dsimp only [ObaDB.checkUIDUnique] at h
  split at h
  · exact (Prod.mk.inj h).2 ▸ hdb
  · have hscanned := hdb.uidScan orders tx dn
      (extractCanonicalUID (orders .newUid) attributes) 0 db.radix.iterate
    rw [h] at hscanned
    exact hscanned

end

end Clear

/-! ## The order does not matter -/

lemma uidScan_order (hdb : db.Clear indexes) (o₁ o₂ : Orders) (tx : Nat) (dn uid : Bytes)
    (position : Nat) (dns : List Bytes) :
    db.uidScan o₁ tx dn uid position dns = db.uidScan o₂ tx dn uid position dns := by
  induction dns generalizing db position with
  | nil => rfl
  | cons other rest ih =>
    rw [uidScan, uidScan]
    split
    next heq => exact ih (hdb.visible heq).1 position
    next v _ heq =>
      obtain ⟨hvisible, hdata⟩ := hdb.visible heq
      have huid : extractCanonicalUID (o₁ (.oldUid position)) v.data =
          extractCanonicalUID (o₂ (.oldUid position)) v.data :=
        extractCanonicalUID_order _ _ (hdata v rfl _ mem_cons_self)
      rw [huid, ih hvisible position, ih hvisible (position + 1)]

lemma checkUIDUnique_order (hdb : db.Clear indexes) (o₁ o₂ : Orders) (tx : Nat) (dn : Bytes)
    {attributes : Attributes} (hattributes : Unambiguous indexes attributes) :
    db.checkUIDUnique o₁ tx dn attributes = db.checkUIDUnique o₂ tx dn attributes := by
  have huid : extractCanonicalUID (o₁ .newUid) attributes =
      extractCanonicalUID (o₂ .newUid) attributes :=
    extractCanonicalUID_order _ _ (hattributes _ mem_cons_self)
  unfold checkUIDUnique
  rw [huid]
  dsimp only
  rw [uidScan_order hdb o₁ o₂]

variable (trees : IndexTrees τ)

/-- The indexes find the same values in every order. -/
lemma lookupFolded_index (o₁ o₂ : MapOrder) {attributes : Attributes}
    (hattributes : Unambiguous indexes attributes) {index : Bytes × IndexType}
    (hindex : index ∈ indexes) :
    lookupFolded o₁ index.1 attributes = lookupFolded o₂ index.1 attributes :=
  lookupFolded_order o₁ o₂ (hattributes _ (mem_cons_of_mem _ (mem_map_of_mem hindex)))

section

variable (o₁ o₂ : Bytes → MapOrder) (ref : EntryRef) {attributes : Attributes}
  (hattributes : Unambiguous indexes attributes) (t : τ)
include hattributes

lemma addToIndexes_order :
    addToIndexes trees o₁ ref attributes indexes t =
      addToIndexes trees o₂ ref attributes indexes t := by
  have hlookup := fun index (hindex : index ∈ indexes) =>
    lookupFolded_index (o₁ index.1) (o₂ index.1) hattributes hindex
  clear hattributes
  induction indexes generalizing t with
  | nil => rfl
  | cons index rest ih =>
    obtain ⟨hfirst, hrest⟩ := forall_mem_cons.mp hlookup
    rw [addToIndexes, addToIndexes, hfirst]
    split
    · exact ih _ hrest
    · rfl

lemma removeFromIndexes_order :
    removeFromIndexes trees o₁ ref attributes indexes t =
      removeFromIndexes trees o₂ ref attributes indexes t := by
  refine foldl_ext _ _ _ fun t index hindex => ?_
  rw [lookupFolded_index (o₁ index.1) (o₂ index.1) hattributes hindex]

end

section

variable (hdb : db.Clear indexes)
include hdb

lemma updateIndexes_order (o₁ o₂ : Orders) (dn : Bytes) {old : Option Attributes}
    (hold : ∀ attributes ∈ old, Unambiguous indexes attributes) {new : Attributes}
    (hnew : Unambiguous indexes new) (pageID : Nat) :
    db.updateIndexes trees o₁ dn old new pageID = db.updateIndexes trees o₂ dn old new pageID := by
  obtain ⟨rfl, _⟩ := hdb
  unfold updateIndexes
  cases old with
  | none =>
    dsimp only
    rw [addToIndexes_order trees _ (o₂ <| .newIndex ·) _ hnew]
  | some old =>
    dsimp only
    rw [removeFromIndexes_order trees _ (o₂ <| .oldIndex ·) _ (hold old rfl),
      addToIndexes_order trees _ (o₂ <| .newIndex ·) _ hnew]

lemma Clear.updateIndexes (orders : Orders) (dn : Bytes) (old : Option Attributes)
    (new : Attributes) (pageID : Nat) :
    (db.updateIndexes trees orders dn old new pageID).2.Clear indexes := by
  unfold ObaDB.updateIndexes
  dsimp only
  split <;> exact hdb

lemma Clear.createVersionWithLocation {tx size pageID : Nat} (hdata : Unambiguous indexes data)
    (h : db.createVersionWithLocation tx dn data size = .ok (pageID, db')) : db'.Clear indexes := by
  unfold ObaDB.createVersionWithLocation at h
  split at h
  · cases h
  · split at h
    · cases h
    next store hclaim =>
      cases h
      have hallocated :=
        (hdb.withStore (hdb.2.1.claim hclaim)).allocateStorage hdata size
      exact (hallocated.withStore (hallocated.2.1.createVersion hallocated.diskLoader tx dn
        hdata _)).addToWriteSet tx _

section

variable (o₁ o₂ : Orders) (tx : Nat) {entry : Entry} (hfits : entry.Fits 4)
  (hentry : Unambiguous indexes entry.attributes)
include hfits hentry

lemma putVersion_order :
    db.putVersion trees o₁ tx entry = db.putVersion trees o₂ tx entry ∧
      (db.putVersion trees o₁ tx entry).2.Clear indexes := by
  dsimp only [putVersion]
  rw [deserializeEntry_serializeEntry _ hfits, deserializeEntry_serializeEntry _ hfits,
    length_serializeEntry_order _ (o₂ .write)]
  cases hvisible : db.visible tx entry.dn with | mk existing db' =>
  obtain ⟨hdb', hfound⟩ := hdb.visible hvisible
  have hold : ∀ attributes ∈ existing.toOption.map Version.data,
      Unambiguous indexes attributes := by
    cases existing with
    | error err => nofun
    | ok v => exact fun _ hmem => some.inj hmem ▸ hfound v rfl
  split
  · exact ⟨rfl, hdb'⟩
  next pageID created hcreated =>
    have hclear := hdb'.createVersionWithLocation hentry hcreated
    split
    next radix _ =>
      have hindexed : { created with radix := radix }.Clear indexes := hclear
      exact ⟨updateIndexes_order trees hindexed o₁ o₂ _ hold hentry pageID,
        hindexed.updateIndexes trees o₁ _ _ _ _⟩
    · exact ⟨rfl, hclear⟩

lemma put_order :
    db.put trees o₁ tx entry = db.put trees o₂ tx entry ∧
      (db.put trees o₁ tx entry).2.Clear indexes := by
  unfold put
  rw [checkUIDUnique_order hdb o₁ o₂ tx _ hentry]
  split
  · exact ⟨rfl, hdb⟩
  · split
    next heq => exact ⟨rfl, hdb.checkUIDUnique heq⟩
    next heq =>
      refine putVersion_order trees (hdb.checkUIDUnique heq) o₁ o₂ tx
        ⟨?_, hfits.size, hfits.bindings⟩ hentry
      exact lt_of_le_of_lt (length_normalizeDN_le _) hfits.dn

end

lemma deleteFound_order (o₁ o₂ : Orders) (tx : Nat) (dn : Bytes) {old : Attributes}
    (hold : Unambiguous indexes old) :
    db.deleteFound trees o₁ tx dn old = db.deleteFound trees o₂ tx dn old ∧
      (db.deleteFound trees o₁ tx dn old).2.Clear indexes := by
  obtain ⟨rfl, hrest⟩ := hdb
  have hstore := hrest.1.deleteVersion (Clear.diskLoader ⟨rfl, hrest⟩) (.empty _) tx dn
  unfold deleteFound deleteVersion
  split_ifs
  · rcases hdelete : db.store.deleteVersion db.diskLoader tx dn with ⟨_ | _, store⟩ <;>
      rw [hdelete] at hstore
    · exact ⟨rfl, rfl, hstore, hrest.2⟩
    · dsimp only [addToWriteSet]
      rw [removeFromIndexes_order trees _ (o₂ <| .deleteIndex ·) _ hold]
      refine ⟨rfl, ?_⟩
      split <;> exact ⟨rfl, hstore, hrest.2⟩
  · exact ⟨rfl, rfl, hrest⟩

lemma delete_order (o₁ o₂ : Orders) (tx : Nat) (dn : Bytes) :
    db.delete trees o₁ tx dn = db.delete trees o₂ tx dn ∧
      (db.delete trees o₁ tx dn).2.Clear indexes := by
  unfold delete
  split
  · exact ⟨rfl, hdb⟩
  · split
    next heq => exact ⟨rfl, (hdb.visible heq).1⟩
    next heq => exact ⟨rfl, (hdb.visible heq).1⟩
    next v _ heq =>
      obtain ⟨hclear, hfound⟩ := hdb.visible heq
      exact deleteFound_order trees hclear o₁ o₂ tx _ (hfound v rfl)

end

end ObaDB

end Oba.Storage
