import Oba.Storage.Writes

/-! # What a call changes

A call that only reads changes nothing but the cache. A put or a delete that passes its checks
puts one version on the chain of its DN and claims the DN. A put also allocates a page, and
enters the DN into the index if the transaction sees no entry; a delete takes it out.
-/

namespace Oba.Storage

open Option VersionStore
open Function (update update_of_ne)

namespace ObaDB

variable {τ : Type} {db db' db'' : ObaDB τ} {tx : Nat} {dn : Bytes} {page : Nat} {entry : Entry}
  {seen : Bool}

/-- The pages that the index names have been allocated. -/
def Located (db : ObaDB τ) : Prop := ∀ p ∈ db.radix.paths, p.2 < db.nextPage

/-- A version has been put on the chain of a DN. -/
structure Pushed (db db' : ObaDB τ) (dn : Bytes) (v : Version) (below : List Version) : Prop where
  active : db.isActive v.txID = true
  free : ∀ other, db.store.activeWriters dn = some other → other = v.txID
  pending : v.commitTS = 0
  versions : db'.store.versions = update db.store.versions dn (v :: below)
  activeWriters : db'.store.activeWriters = update db.store.activeWriters dn (some v.txID)
  cached : ∀ w, db'.store.cache.lookup dn = some w → w = v ∧ v.deleted = false
  cache : ∀ other w, other ≠ dn → db'.store.cache.lookup other = some w →
    db.store.cache.lookup other = some w ∨ db.diskLoader other = some w
  currentTS : db'.currentTS = db.currentTS
  nextTxID : db'.nextTxID = db.nextTxID
  actives : db'.active = (db.addToWriteSet v.txID v.pageID).active

namespace Pushed

variable {v w : Version} {below : List Version} {d : Bytes}

lemma mem_versions (h : Pushed db db' dn v below) (hw : w ∈ db'.store.versions d) :
    d = dn ∧ (w = v ∨ w ∈ below) ∨ d ≠ dn ∧ w ∈ db.store.versions d := by
  rw [h.versions, Function.update_apply] at hw
  split at hw
  next heq => exact .inl ⟨heq, List.mem_cons.mp hw⟩
  next hne => exact .inr ⟨hne, hw⟩

lemma lookup_cache (h : Pushed db db' dn v below) (hw : db'.store.cache.lookup d = some w) :
    d = dn ∧ w = v ∨
      d ≠ dn ∧ (db.store.cache.lookup d = some w ∨ db.diskLoader d = some w) := by
  by_cases hd : d = dn
  · exact .inl ⟨hd, (h.cached w (hd ▸ hw)).1⟩
  · exact .inr ⟨hd, h.cache d w hd hw⟩

end Pushed

/-- The attributes that the engine stores for an entry. -/
def stored (orders : Orders) (entry : Entry) : Attributes :=
  (deserializeEntry (serializeEntry (orders .write) entry)).getD ∅

/-- The attributes that go to the page of an entry; those that do not fit are not written. -/
def written (orders : Orders) (entry : Entry) : Option Attributes :=
  if (serializeEntry (orders .write) entry).length + 4 ≤ pageDataSize then
    some (stored orders entry)
  else none

/-- What a put finds below its version: the chain, or the version in the cache or on the disk
when there is no chain. -/
def FoundBelow (db : ObaDB τ) (dn : Bytes) (below : List Version) : Prop :=
  db.store.versions dn ≠ [] ∧ below = db.store.versions dn ∨ db.store.versions dn = [] ∧
    ((∃ w, db.store.cache.lookup dn = some w ∧ below = [w]) ∨ below = (db.diskLoader dn).toList)

/-- A transaction has put an entry; `seen` says that it has seen one there before. -/
structure PutEffect (db db' : ObaDB τ) (orders : Orders) (tx : Nat) (entry : Entry)
    (seen : Bool) (below : List Version) : Prop where
  pushed : Pushed db db' entry.dn ⟨tx, 0, stored orders entry, db.nextPage, false⟩ below
  below : db.FoundBelow entry.dn below
  radix : db.insertDN (!seen) entry.dn db.nextPage = .ok db'.radix ∨
    (∃ err, db.insertDN (!seen) entry.dn db.nextPage = .error err) ∧ db'.radix = db.radix
  nextPage : db'.nextPage = db.nextPage + 1
  pages : db'.pages = match written orders entry with
    | some data => update db.pages db.nextPage (some data)
    | none => db.pages

/-- The DN index after a put is the old one, or it has the new DN at its end. -/
lemma insertDN_cases {isNew : Bool} {radix : RadixTree}
    (h : db.insertDN isNew dn page = .ok radix) :
    radix = db.radix ∨ isNew = true ∧ ∃ path, parseDN dn = .ok path ∧
      db.radix.lookupPath path = none ∧ radix = ⟨db.radix.paths ++ [(path, page)]⟩ := by
  cases isNew with
  | false => exact .inl (Except.ok.inj h).symm
  | true =>
    cases hpath : parseDN dn with
    | error err => cases (insertDN_invalid db hpath page).symm.trans h
    | ok path =>
      cases (insertDN_new db hpath page).symm.trans h
      split
      · exact .inl rfl
      next hnone => exact .inr ⟨rfl, path, rfl, by simpa using hnone, rfl⟩

lemma PutEffect.radix_cases {orders : Orders} {below : List Version}
    (h : PutEffect db db' orders tx entry seen below) :
    db'.radix = db.radix ∨ seen = false ∧ ∃ path, parseDN entry.dn = .ok path ∧
      db.radix.lookupPath path = none ∧
      db'.radix = ⟨db.radix.paths ++ [(path, db.nextPage)]⟩ := by
  rcases h.radix with hinsert | ⟨-, hradix⟩
  · exact (insertDN_cases hinsert).imp_right (And.imp_left fun hnew => by simpa using hnew)
  · exact .inl hradix

/-- The disk loader reads the pages that the index names. -/
lemma diskLoader_congr (hradix : db'.radix = db.radix)
    (hpages : ∀ p ∈ db.radix.paths, db'.pages p.2 = db.pages p.2) :
    db'.diskLoader = db.diskLoader := by
  funext dn
  unfold diskLoader
  rw [hradix]
  split
  · rfl
  · rfl
  next page hpage =>
    have hmem : ∃ p ∈ db.radix.paths, p.2 = page + 1 := by
      unfold RadixTree.lookup at hpage
      split at hpage
      · cases hpage
      next path _ => exact ⟨(path, page + 1), AssocList.mem_of_lookup hpage, rfl⟩
    obtain ⟨p, hp, hlocation⟩ := hmem
    rw [← hlocation, hpages p hp]

lemma Located.diskLoader_allocateStorage (hlocated : db.Located) (data : Attributes)
    (size : Nat) : (db.allocateStorage data size).2.diskLoader = db.diskLoader := by
  refine diskLoader_congr rfl fun p hp => ?_
  dsimp only [allocateStorage]
  split
  · exact update_of_ne (Nat.ne_of_lt (hlocated p hp)) ..
  · rfl

lemma claim_eq_some {vs vs' : VersionStore} (h : vs.claim tx dn = some vs') :
    (∀ other, vs.activeWriters dn = some other → other = tx) ∧
      vs' = { vs with activeWriters := update vs.activeWriters dn (some tx) } := by
  unfold claim at h
  split at h
  next hfree =>
    refine ⟨fun other hother => ?_, (some.inj h).symm⟩
    rcases hfree with hnone | hsome
    · rw [hother] at hnone
      cases hnone
    · exact some.inj (hother.symm.trans hsome)
  · cases h

lemma foundBelow_under (db : ObaDB τ) (dn : Bytes) :
    db.FoundBelow dn (db.store.under db.diskLoader dn) := by
  unfold FoundBelow under
  cases hchain : db.store.versions dn with
  | nil =>
    cases hcached : db.store.cache.lookup dn with
    | none => exact .inr ⟨rfl, .inr rfl⟩
    | some w => exact .inr ⟨rfl, .inl ⟨w, rfl, rfl⟩⟩
  | cons v rest => exact .inl ⟨List.cons_ne_nil v rest, rfl⟩

lemma createVersionWithLocation_effect (hlocated : db.Located) {data : Attributes} {size : Nat}
    {created : ObaDB τ} (h : db.createVersionWithLocation tx dn data size = .ok (page, created)) :
    page = db.nextPage ∧
      Pushed db created dn ⟨tx, 0, data, db.nextPage, false⟩ (db.store.under db.diskLoader dn) ∧
      created.radix = db.radix ∧ created.nextPage = db.nextPage + 1 ∧
      created.pages = (if size + 4 ≤ pageDataSize then
        update db.pages db.nextPage (some data) else db.pages) := by
  unfold createVersionWithLocation at h
  split at h
  · cases h
  next hactive =>
    split at h
    · cases h
    next store hclaim =>
      obtain ⟨hfree, rfl⟩ := claim_eq_some hclaim
      cases h
      generalize hstore : { db.store with
        activeWriters := update db.store.activeWriters dn (some tx) } = claimed
      have hload : ({ db with store := claimed }.allocateStorage data size).2.diskLoader =
          db.diskLoader := hlocated.diskLoader_allocateStorage data size
      obtain ⟨hversions, hwriters, hself, hcache⟩ := createVersion_effect
        ({ db with store := claimed }.allocateStorage data size).2.diskLoader claimed tx dn data
        db.nextPage
      have hunder : claimed.under
          ({ db with store := claimed }.allocateStorage data size).2.diskLoader dn =
          db.store.under db.diskLoader dn := by
        rw [hload, ← hstore]
        rfl
      rw [hunder] at hversions
      subst hstore
      refine ⟨rfl, ?_, rfl, rfl, rfl⟩
      exact {
        active := by simpa using hactive
        free := hfree
        pending := rfl
        versions := hversions
        activeWriters := hwriters
        cached := fun w hw => ⟨(some.inj (hself.symm.trans hw)).symm, rfl⟩
        cache := fun other w hne hw => .inl (hcache other w hne hw)
        currentTS := rfl
        nextTxID := rfl
        actives := rfl }

namespace Reread

lemma located (h : Reread db db') (hlocated : db.Located) : db'.Located := by
  unfold Located
  rw [h.radix, h.nextPage]
  exact hlocated

lemma isActive (h : Reread db db') (tx : Nat) : db'.isActive tx = db.isActive tx := by
  rw [ObaDB.isActive, h.active, ObaDB.isActive]

/-- A write after reads is a write. -/
lemma pushed (h : Reread db db') {v : Version} {below : List Version}
    (hpushed : Pushed db' db'' dn v below) : Pushed db db'' dn v below := by
  have hversions := h.recached.versions
  have hwriters := h.recached.activeWriters
  refine {
    active := h.isActive _ ▸ hpushed.active
    free := fun other hother => hpushed.free other (hwriters ▸ hother)
    pending := hpushed.pending
    versions := hversions ▸ hpushed.versions
    activeWriters := hwriters ▸ hpushed.activeWriters
    cached := hpushed.cached
    cache := fun other w hne hw => ?_
    currentTS := hpushed.currentTS.trans h.currentTS
    nextTxID := hpushed.nextTxID.trans h.nextTxID
    actives := by rw [hpushed.actives, addToWriteSet, h.active, addToWriteSet] }
  rcases hpushed.cache other w hne hw with hcached | hload
  · exact h.recached.cache other w hcached
  · exact .inr (h.diskLoader ▸ hload)

/-- What is found after reads was there before. -/
lemma foundBelow (h : Reread db db') {below : List Version} (hbelow : db'.FoundBelow dn below) :
    db.FoundBelow dn below := by
  unfold FoundBelow at hbelow ⊢
  rw [h.recached.versions, h.diskLoader] at hbelow
  rcases hbelow with hchain | ⟨hnil, ⟨w, hcached, rfl⟩ | hload⟩
  · exact .inl hchain
  · rcases h.recached.cache dn w hcached with hold | hload
    · exact .inr ⟨hnil, .inl ⟨w, hold, rfl⟩⟩
    · exact .inr ⟨hnil, .inr (by rw [hload]; rfl)⟩
  · exact .inr ⟨hnil, .inr hload⟩

end Reread

variable (trees : IndexTrees τ)

/-- Indexing an entry changes the index trees only. -/
lemma updateIndexes_frame (db : ObaDB τ) (orders : Orders) (dn : Bytes)
    (old : Option Attributes) (new : Attributes) (page : Nat) :
    ∃ t, (db.updateIndexes trees orders dn old new page).2 = { db with trees := t } := by
  dsimp only [updateIndexes]
  split <;> exact ⟨_, rfl⟩

/-- A put fails before it has written, or it has written. -/
lemma putVersion_cases (hlocated : db.Located) (orders : Orders) (tx : Nat) (entry : Entry) :
    (∃ err, (db.putVersion trees orders tx entry).1 = .error err ∧
      Reread db (db.putVersion trees orders tx entry).2) ∨
    ∃ seen below, (seen = true ↔ ∃ v, (db.visible tx entry.dn).1 = .ok v) ∧
      PutEffect db (db.putVersion trees orders tx entry).2 orders tx entry seen below ∧
      ((db.putVersion trees orders tx entry).1 = .ok () →
        db.insertDN (!seen) entry.dn db.nextPage =
          .ok (db.putVersion trees orders tx entry).2.radix) := by
  dsimp only [putVersion]
  cases hvisible : db.visible tx entry.dn with | mk existing read =>
  have hread : Reread db read := reread_of_visible hvisible
  split
  next err hcreate => exact .inl ⟨_, rfl, hread⟩
  next page created hcreate =>
    obtain ⟨rfl, hpushed, hradix, hnext, hpages⟩ :=
      createVersionWithLocation_effect (hread.located hlocated) hcreate
    have hpage : read.nextPage = db.nextPage := hread.nextPage
    have hseen : (!(existing.toOption.map Version.data).isNone) = true ↔ ∃ v, existing = .ok v := by
      cases existing <;> simp [Except.toOption]
    have hinsert : ∀ isNew, created.insertDN isNew entry.dn read.nextPage =
        db.insertDN isNew entry.dn db.nextPage := fun isNew => by
      unfold insertDN
      rw [hradix, hpage, hread.radix]
    rw [hinsert]
    -- the effect, whatever has become of the index trees
    have heffect : ∀ (radix : RadixTree) (t : τ),
        (db.insertDN (existing.toOption.map Version.data).isNone entry.dn db.nextPage = .ok radix ∨
          (∃ err, db.insertDN (existing.toOption.map Version.data).isNone entry.dn db.nextPage =
            .error err) ∧ radix = db.radix) →
        PutEffect db { created with radix := radix, trees := t } orders tx entry
          (!(existing.toOption.map Version.data).isNone)
          (read.store.under read.diskLoader entry.dn) := by
      intro radix t hindex
      have hpushed' := hread.pushed hpushed
      rw [hpage] at hpushed'
      refine ⟨?_, hread.foundBelow (read.foundBelow_under entry.dn),
        by rw [Bool.not_not]; exact hindex, ?_, ?_⟩
      · exact { hpushed' with }
      · exact hnext.trans (congrArg (· + 1) hpage)
      · rw [hpages, hpage, hread.pages, written]
        split <;> rfl
    split
    next radix hradix' =>
      obtain ⟨t, ht⟩ := updateIndexes_frame trees { created with radix := radix } orders entry.dn
        (existing.toOption.map Version.data) entry.attributes read.nextPage
      refine .inr ⟨_, read.store.under read.diskLoader entry.dn, hseen, ?_, fun _ => ?_⟩
      · rw [ht]
        exact heffect radix t (.inl hradix')
      · rw [ht, Bool.not_not]
        exact hradix'
    next err herr =>
      refine .inr ⟨_, read.store.under read.diskLoader entry.dn, hseen, ?_, by simp⟩
      have hframe : created = { created with radix := db.radix, trees := created.trees } := by
        rw [← hread.radix, ← hradix]
      rw [hframe]
      exact heffect db.radix created.trees (.inr ⟨⟨err, herr⟩, rfl⟩)

lemma Reread.putEffect {orders : Orders} {below : List Version} (h : Reread db db')
    (heffect : PutEffect db' db'' orders tx entry seen below) :
    PutEffect db db'' orders tx entry seen below := by
  have hpushed := h.pushed heffect.pushed
  have hinsert : ∀ isNew, db'.insertDN isNew entry.dn db'.nextPage =
      db.insertDN isNew entry.dn db.nextPage := fun isNew => by
    unfold insertDN
    rw [h.radix, h.nextPage]
  have hradix := heffect.radix
  rw [hinsert, h.radix] at hradix
  have hpages := heffect.pages
  rw [h.pages, h.nextPage] at hpages
  rw [h.nextPage] at hpushed
  exact ⟨hpushed, h.foundBelow heffect.below, hradix, by rw [heffect.nextPage, h.nextPage], hpages⟩

/-- `Put` fails before it has written, or it has written; `read` is the database when it looks
for an entry. -/
lemma put_cases (hlocated : db.Located) (orders : Orders) (tx : Nat) (entry : Entry) :
    (∃ err, (db.put trees orders tx entry).1 = .error err ∧
      Reread db (db.put trees orders tx entry).2) ∨
    ∃ read seen below, Reread db read ∧
      (seen = true ↔ ∃ v, (read.visible tx (normalizeDN entry.dn)).1 = .ok v) ∧
      PutEffect db (db.put trees orders tx entry).2 orders tx entry.normalized seen below ∧
      ((db.put trees orders tx entry).1 = .ok () →
        db.insertDN (!seen) (normalizeDN entry.dn) db.nextPage =
          .ok (db.put trees orders tx entry).2.radix) := by
  rcases db.put_reread_or_putVersion trees orders tx entry with hfailed | ⟨read, hread, -, heq⟩
  · exact .inl hfailed
  rw [heq]
  rcases putVersion_cases trees (hread.located hlocated) orders tx entry.normalized with
      ⟨err, herr, hreread⟩ | hput
  · exact .inl ⟨err, herr, hread.trans hreread⟩
  · obtain ⟨seen, below, hseen, heffect, hok⟩ := hput
    refine .inr ⟨read, seen, below, hread, hseen, hread.putEffect heffect, fun h => ?_⟩
    rw [← hok h]
    unfold insertDN
    rw [hread.radix, hread.nextPage]

/-- A transaction has deleted the entry at a DN. -/
structure DeleteEffect (db db' : ObaDB τ) (tx : Nat) (dn : Bytes) : Prop where
  pushed : ∃ page, Pushed db db' dn ⟨tx, 0, ∅, page, true⟩ (db.store.versions dn)
  radix : db.radix.delete dn = .ok db'.radix ∨
    (∃ err, db.radix.delete dn = .error err) ∧ db'.radix = db.radix
  nextPage : db'.nextPage = db.nextPage
  pages : db'.pages = db.pages

lemma DeleteEffect.radix_cases (h : DeleteEffect db db' tx dn) :
    db'.radix = db.radix ∧ db.radix.lookup dn = none ∨
      ∃ path, parseDN dn = .ok path ∧ db'.radix = ⟨db.radix.paths.filter (·.1 ≠ path)⟩ := by
  have hradix := h.radix
  unfold RadixTree.delete at hradix
  rw [RadixTree.lookup]
  cases hpath : parseDN dn with
  | error err =>
    rw [hpath] at hradix
    rcases hradix with hdelete | ⟨-, hsame⟩
    · cases hdelete
    · exact .inl ⟨hsame, rfl⟩
  | ok path =>
    rw [hpath] at hradix
    cases hlookup : db.radix.lookupPath path with
    | some location =>
      simp only [hlookup, isSome_some, if_true, Except.ok.injEq, reduceCtorEq,
        exists_false, false_and, or_false] at hradix
      exact .inr ⟨path, rfl, hradix.symm⟩
    | none =>
      simp only [hlookup, isSome_none, Bool.false_eq_true, if_false, reduceCtorEq,
        Except.error.injEq, exists_eq', true_and, false_or] at hradix
      exact .inl ⟨hradix, hlookup⟩

lemma Reread.deleteEffect (h : Reread db db') (heffect : DeleteEffect db' db'' tx dn) :
    DeleteEffect db db'' tx dn := by
  obtain ⟨⟨page, hpushed⟩, hradix, hnext, hpages⟩ := heffect
  rw [h.recached.versions] at hpushed
  rw [h.radix] at hradix
  exact ⟨⟨page, h.pushed hpushed⟩, hradix, hnext.trans h.nextPage, hpages.trans h.pages⟩

/-- `DeleteVersion` fails, or it puts a deletion with the page of the latest version on the
chain. -/
lemma deleteVersion_cases (db : ObaDB τ) (tx : Nat) (dn : Bytes) :
    (∃ err, (db.deleteVersion tx dn).1 = .error err ∧ err ≠ .deleted ∧
      Reread db (db.deleteVersion tx dn).2) ∨
    ∃ w, (db.store.latest db.diskLoader dn).1 = some w ∧
      (db.deleteVersion tx dn).1 = .ok w.pageID ∧
      Pushed db (db.deleteVersion tx dn).2 dn ⟨tx, 0, ∅, w.pageID, true⟩ (db.store.versions dn) ∧
      (db.deleteVersion tx dn).2.radix = db.radix ∧
      (db.deleteVersion tx dn).2.nextPage = db.nextPage ∧
      (db.deleteVersion tx dn).2.pages = db.pages := by
  have hlatest := db.store.recached_latest db.diskLoader dn
  have hrecached : VersionStore.Recached db.diskLoader db.store
      (db.store.latest db.diskLoader dn).2 :=
    ⟨hlatest.1, hlatest.2.1, fun other w hw => .inl (hlatest.2.2 other ▸ hw)⟩
  unfold deleteVersion
  split
  · exact .inl ⟨_, rfl, nofun, .refl db⟩
  next hactive =>
    unfold VersionStore.deleteVersion
    cases hfound : db.store.latest db.diskLoader dn with | mk found store =>
    rw [hfound] at hrecached
    cases found with
    | none => exact .inl ⟨_, rfl, nofun, hrecached, rfl⟩
    | some w =>
      cases hclaim : store.claim tx dn with
      | none =>
        dsimp only
        rw [hclaim]
        exact .inl ⟨_, rfl, nofun, hrecached, rfl⟩
      | some claimed =>
        obtain ⟨hfree, rfl⟩ := claim_eq_some hclaim
        dsimp only
        rw [hclaim]
        refine .inr ⟨w, rfl, rfl, ?_, rfl, rfl, rfl⟩
        exact {
          active := by simpa using hactive
          free := fun other hother => hfree other (hrecached.activeWriters ▸ hother)
          pending := rfl
          versions := by
            dsimp only [VersionStore.cacheDelete, addToWriteSet]
            rw [hrecached.versions]
          activeWriters := by
            dsimp only [VersionStore.cacheDelete, addToWriteSet]
            rw [hrecached.activeWriters]
          cached := fun v hv => by
            cases (AssocList.lookup_erase_self _ dn).symm.trans hv
          cache := fun other v hne hv =>
            hrecached.cache other v ((AssocList.lookup_erase_of_ne _ hne).symm.trans hv)
          currentTS := rfl
          nextTxID := rfl
          actives := rfl }

section

variable (db : ObaDB τ) (orders : Orders) (tx : Nat) (dn : Bytes)

lemma deleteFound_cases (old : Attributes) :
    (∃ err, (db.deleteFound trees orders tx dn old).1 = .error (.version err) ∧
      err ≠ .deleted ∧ Reread db (db.deleteFound trees orders tx dn old).2) ∨
    DeleteEffect db (db.deleteFound trees orders tx dn old).2 tx dn ∧
      ((db.deleteFound trees orders tx dn old).1 = .ok () ∨
        ∃ err, (db.deleteFound trees orders tx dn old).1 = .error (.radix err) ∧
          err ≠ .entryNotFound ∧ db.radix.delete dn = .error err) := by
  unfold deleteFound
  cases hdelete : db.deleteVersion tx dn with | mk result deleted =>
  rcases db.deleteVersion_cases tx dn with ⟨err, herr, hne, hread⟩ | ⟨w, -, hok, hpushed, hframe⟩
  · rw [hdelete] at herr hread
    obtain rfl : result = .error err := herr
    exact .inl ⟨_, rfl, hne, hread⟩
  · rw [hdelete] at hok hpushed hframe
    obtain rfl : result = .ok w.pageID := hok
    obtain ⟨hradix, hnext, hpages⟩ := hframe
    have heffect : ∀ (radix : RadixTree) (t : τ), Pushed db
        { deleted with radix := radix, trees := t } dn ⟨tx, 0, ∅, w.pageID, true⟩
        (db.store.versions dn) := fun radix t => { hpushed with }
    refine .inr ?_
    dsimp only at hradix hnext hpages ⊢
    rw [hradix]
    split
    next radix hok' => exact ⟨⟨⟨_, heffect radix _⟩, .inl hok', hnext, hpages⟩, .inl rfl⟩
    next herr => exact ⟨⟨⟨_, heffect db.radix _⟩, .inr ⟨⟨_, herr⟩, rfl⟩, hnext, hpages⟩, .inl rfl⟩
    next err hne herr =>
      exact ⟨⟨⟨_, heffect deleted.radix deleted.trees⟩, .inr ⟨⟨_, herr⟩, hradix⟩, hnext, hpages⟩,
        .inr ⟨err, rfl, hne, herr⟩⟩

/-- `Delete` fails before it has written, or the transaction saw an entry and has deleted it.
It says that there is no entry only if the transaction sees none. -/
lemma delete_cases :
    (∃ err, (db.delete trees orders tx dn).1 = .error err ∧ err ≠ .writeConflict ∧
      (err = .entryNotFound ∨ err = .version .deleted →
        ¬ ∃ v, (db.visible tx (normalizeDN dn)).1 = .ok v) ∧
      Reread db (db.delete trees orders tx dn).2) ∨
    (∃ v, (db.visible tx (normalizeDN dn)).1 = .ok v) ∧
      DeleteEffect db (db.delete trees orders tx dn).2 tx (normalizeDN dn) ∧
      ((db.delete trees orders tx dn).1 = .ok () ∨
        ∃ err, (db.delete trees orders tx dn).1 = .error (.radix err) ∧ err ≠ .entryNotFound ∧
          db.radix.delete (normalizeDN dn) = .error err) := by
  unfold delete
  split
  · exact .inl ⟨_, rfl, nofun, by simp, .refl db⟩
  · split
    next heq => exact .inl ⟨_, rfl, nofun, by simp [heq], reread_of_visible heq⟩
    next heq => exact .inl ⟨_, rfl, nofun, by simp [heq], reread_of_visible heq⟩
    next v read heq =>
      have hread := reread_of_visible heq
      rcases read.deleteFound_cases trees orders tx (normalizeDN dn) v.data with
        ⟨err, herr, hne, hreread⟩ | ⟨heffect, hresult⟩
      · exact .inl ⟨_, herr, nofun, by simp [hne], hread.trans hreread⟩
      · exact .inr ⟨⟨v, by rw [heq]⟩, hread.deleteEffect heffect, hread.radix ▸ hresult⟩

end

end ObaDB

end Oba.Storage
