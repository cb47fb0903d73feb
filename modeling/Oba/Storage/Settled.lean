import Oba.Library.AssocList
import Oba.Storage.Engine

/-! # Databases between transactions

A settled database has no transaction under way, and every transaction that begins sees the
same entries. A transaction that writes one entry and commits leaves the database settled,
with that entry changed and no other.
-/

namespace Oba.Storage

open UnorderedMap List Option VersionStore AssocList

/-! ## The cache -/

namespace VersionStore

variable {vs vs' : VersionStore} {load : Bytes → Option Version}

/-- The stores differ in their caches only, and what is new in the cache is on the disk. -/
structure Recached (load : Bytes → Option Version) (vs vs' : VersionStore) : Prop where
  versions : vs'.versions = vs.versions
  activeWriters : vs'.activeWriters = vs.activeWriters
  cache : ∀ dn v, vs'.cache.lookup dn = some v → vs.cache.lookup dn = some v ∨ load dn = some v

lemma lookup_touch (vs : VersionStore) (dn other : Bytes) :
    (vs.touch dn).cache.lookup other = vs.cache.lookup other := by
  unfold touch
  split
  next v hv =>
    by_cases heq : other = dn
    · subst heq
      rw [hv, lookup_cons_self]
    · rw [lookup_cons, beq_false_of_ne heq]
      exact lookup_erase_of_ne _ heq
  · rfl

lemma lookup_cachePut {dn other : Bytes} {v w : Version}
    (h : (vs.cachePut dn v).cache.lookup other = some w) :
    other = dn ∧ w = v ∨ other ≠ dn ∧ vs.cache.lookup other = some w := by
  by_cases heq : other = dn
  · subst heq
    refine .inl ⟨rfl, ?_⟩
    unfold cachePut at h
    split at h <;>
      · rw [lookup_cons_self] at h
        exact (some.inj h).symm
  · refine .inr ⟨heq, ?_⟩
    unfold cachePut at h
    split at h
    · rw [lookup_cons, beq_false_of_ne heq] at h
      exact (lookup_erase_of_ne _ heq).symm.trans h
    · rw [lookup_cons, beq_false_of_ne heq] at h
      dsimp only at h
      split at h
      · exact ( dropLast_prefix _).lookup_eq_some h
      · exact h

section

variable (vs : VersionStore)

lemma versions_touch (dn : Bytes) : (vs.touch dn).versions = vs.versions := by
  unfold touch
  split <;> rfl

lemma activeWriters_touch (dn : Bytes) : (vs.touch dn).activeWriters = vs.activeWriters := by
  unfold touch
  split <;> rfl

lemma versions_cachePut (dn : Bytes) (v : Version) :
    (vs.cachePut dn v).versions = vs.versions := by
  unfold cachePut
  split <;> rfl

lemma activeWriters_cachePut (dn : Bytes) (v : Version) :
    (vs.cachePut dn v).activeWriters = vs.activeWriters := by
  unfold cachePut
  split <;> rfl

lemma lookup_commitVersion (tx commitTS : Nat) (dn : Bytes) :
    (vs.commitVersion tx commitTS).cache.lookup dn = (vs.cache.lookup dn).map fun v =>
      if (vs.versions dn).any (Version.pendingOf tx) then v.commit tx commitTS else v :=
  lookup_map vs.cache
    (fun key v =>
      if (vs.versions key).any (Version.pendingOf tx) then v.commit tx commitTS else v) dn

variable {vs} in
lemma lookup_rollbackVersion {tx : Nat} {dn : Bytes} {v : Version} :
    (vs.rollbackVersion tx).cache.lookup dn = some v ↔
      (vs.versions dn = [] ∨ vs.rolledBack tx dn ≠ []) ∧ vs.cache.lookup dn = some v := by
  rw [rollbackVersion, lookup_filter vs.cache
    (fun key => decide (vs.versions key = [] ∨ vs.rolledBack tx key ≠ [])),
    Option.ite_none_right_eq_some, decide_eq_true_eq]

lemma recached_touch (dn : Bytes) : Recached load vs (vs.touch dn) :=
  ⟨vs.versions_touch dn, vs.activeWriters_touch dn, fun _ _ h => .inl (vs.lookup_touch dn _ ▸ h)⟩

end

lemma getVisibleForTx_recached (load : Bytes → Option Version) (vs : VersionStore) (dn : Bytes)
    (snapshot tx : Nat) : Recached load vs (vs.getVisibleForTx load dn snapshot tx).2 := by
  unfold getVisibleForTx
  split
  · exact ⟨rfl, rfl, fun _ _ h => .inl h⟩
  · split
    · exact vs.recached_touch dn
    · split
      · exact vs.recached_touch dn
      next v hv =>
        refine ⟨?_, ?_, fun other w hw => ?_⟩
        · rw [versions_cachePut, versions_touch]
        · rw [activeWriters_cachePut, activeWriters_touch]
        · rcases lookup_cachePut hw with ⟨rfl, rfl⟩ | ⟨_, hold⟩
          · exact .inr hv
          · exact .inl (vs.lookup_touch dn other ▸ hold)

lemma Recached.refl (load : Bytes → Option Version) (vs : VersionStore) : Recached load vs vs :=
  ⟨rfl, rfl, fun _ _ h => .inl h⟩

lemma Recached.trans (h : Recached load vs vs') (h' : Recached load vs' vs'') :
    Recached load vs vs'' := by
  refine ⟨h'.versions.trans h.versions, h'.activeWriters.trans h.activeWriters, fun dn v hv => ?_⟩
  rcases h'.cache dn v hv with hold | hload
  · exact h.cache dn v hold
  · exact .inr hload

end VersionStore

/-- The entry that `Put` writes. -/
abbrev Entry.normalized (entry : Entry) : Entry := ⟨normalizeDN entry.dn, entry.attributes⟩

namespace ObaDB

variable {τ : Type} {db db' db'' : ObaDB τ} {tx : Nat} {dn : Bytes}

/-! ## Reads -/

/-- The second database is the first one after reads. -/
structure Reread (db db' : ObaDB τ) : Prop where
  recached : VersionStore.Recached db.diskLoader db.store db'.store
  frame : db' = { db with store := db'.store }

namespace Reread

lemma refl (db : ObaDB τ) : Reread db db := ⟨.refl _ _, rfl⟩

section

variable (h : Reread db db')
include h

/-- Nothing but the cache has changed. -/
lemma eq : db' = { db with store := { db'.store with
    versions := db.store.versions, activeWriters := db.store.activeWriters } } := by
  rw [← h.recached.versions, ← h.recached.activeWriters]
  exact h.frame

lemma diskLoader : db'.diskLoader = db.diskLoader := by
  rw [h.frame]
  rfl

lemma radix : db'.radix = db.radix := by rw [h.frame]

lemma pages : db'.pages = db.pages := by rw [h.frame]

lemma nextPage : db'.nextPage = db.nextPage := by rw [h.frame]

lemma nextTxID : db'.nextTxID = db.nextTxID := by rw [h.frame]

lemma currentTS : db'.currentTS = db.currentTS := by rw [h.frame]

lemma active : db'.active = db.active := by rw [h.frame]

lemma trans (h' : Reread db' db'') : Reread db db'' := by
  have hframe := h'.frame
  rw [h.frame] at hframe
  exact ⟨h.recached.trans (h.diskLoader ▸ h'.recached), hframe⟩

end

end Reread

lemma reread_visible (db : ObaDB τ) (tx : Nat) (dn : Bytes) : Reread db (db.visible tx dn).2 :=
  ⟨db.store.getVisibleForTx_recached db.diskLoader dn tx tx, rfl⟩

lemma reread_of_visible {result : Except VersionError Version}
    (h : db.visible tx dn = (result, db')) : Reread db db' := by
  have hread := db.reread_visible tx dn
  rwa [h] at hread

lemma reread_get (db : ObaDB τ) (tx : Nat) (dn : Bytes) : Reread db (db.get tx dn).2 := by
  unfold get
  split
  · exact .refl db
  · split <;> exact reread_of_visible ‹_›

lemma reread_search (db : ObaDB τ) (tx : Nat) (dns : List Bytes) :
    Reread db (db.search tx dns).2 := by
  induction dns generalizing db with
  | nil => exact .refl db
  | cons dn rest ih =>
    rw [search]
    split
    next heq => exact (reread_of_visible heq).trans (ih _)
    next heq => exact (reread_of_visible heq).trans (ih _)

lemma reread_uidScan (db : ObaDB τ) (orders : Orders) (tx : Nat) (dn uid : Bytes)
    (position : Nat) (dns : List Bytes) :
    Reread db (db.uidScan orders tx dn uid position dns).2 := by
  induction dns generalizing db position with
  | nil => exact .refl db
  | cons other rest ih =>
    rw [uidScan]
    split
    next heq => exact (reread_of_visible heq).trans (ih _ _)
    next heq =>
      have hread := reread_of_visible heq
      split
      · exact hread.trans (ih _ _)
      · split
        · exact hread
        · exact hread.trans (ih _ _)

lemma reread_checkUIDUnique (db : ObaDB τ) (orders : Orders) (tx : Nat) (dn : Bytes)
    (attributes : Attributes) : Reread db (db.checkUIDUnique orders tx dn attributes).2 := by
  unfold checkUIDUnique
  dsimp only
  split
  · exact .refl db
  · exact db.reread_uidScan ..

/-- `Put` fails without a write, or it writes after its uids have been found to be unique. -/
lemma put_reread_or_putVersion (trees : IndexTrees τ) (db : ObaDB τ) (orders : Orders) (tx : Nat)
    (entry : Entry) :
    (∃ err, (db.put trees orders tx entry).1 = .error err ∧
      Reread db (db.put trees orders tx entry).2) ∨
    ∃ read, Reread db read ∧
      (db.checkUIDUnique orders tx (normalizeDN entry.dn) entry.attributes).1 = true ∧
      db.put trees orders tx entry = putVersion trees orders read tx entry.normalized := by
  unfold put
  split
  · exact .inl ⟨_, rfl, .refl db⟩
  · have hread := db.reread_checkUIDUnique orders tx (normalizeDN entry.dn) entry.attributes
    cases hcheck : db.checkUIDUnique orders tx (normalizeDN entry.dn) entry.attributes with
      | mk unique read =>
    rw [hcheck] at hread
    cases unique with
    | false => exact .inl ⟨_, rfl, hread⟩
    | true => exact .inr ⟨read, hread, rfl, rfl⟩

end ObaDB

/-! ## What a transaction sees -/

/-- A DN in the form in which the index lists it. -/
structure Canonical (dn : Bytes) (path : List Bytes) : Prop where
  normalized : normalizeDN dn = dn
  parsed : parseDN dn = .ok path
  joined : joinDNReverse path = dn

lemma Canonical.path_ne {dn dn' : Bytes} {path path' : List Bytes} (h : Canonical dn path)
    (h' : Canonical dn' path') (hne : dn' ≠ dn) : path' ≠ path := by
  rintro rfl
  exact hne (h'.joined.symm.trans h.joined)

/-- The DN is in the form in which the index lists it. -/
def isCanonical (dn : Bytes) : Bool :=
  match parseDN dn with
  | .error _ => false
  | .ok path => normalizeDN dn = dn ∧ joinDNReverse path = dn

lemma isCanonical_iff {dn : Bytes} : isCanonical dn ↔ ∃ path, Canonical dn path := by
  unfold isCanonical
  constructor
  · intro h
    split at h
    · cases h
    next path hparsed =>
      obtain ⟨hnormalized, hjoined⟩ := of_decide_eq_true h
      exact ⟨path, hnormalized, hparsed, hjoined⟩
  · rintro ⟨path, hnormalized, hparsed, hjoined⟩
    rw [hparsed]
    exact decide_eq_true ⟨hnormalized, hjoined⟩

instance {dn : Bytes} : Decidable (∃ path, Canonical dn path) := decidable_of_iff _ isCanonical_iff

lemma nodup_iterate {tree : RadixTree} (hpaths : (tree.paths.map Prod.fst).Nodup)
    (hcanonical : ∀ p ∈ tree.paths, Canonical (joinDNReverse p.1) p.1) : tree.iterate.Nodup := by
  unfold RadixTree.iterate
  rw [List.Nodup, pairwise_map] at hpaths ⊢
  refine hpaths.imp_of_mem fun {p q} hp hq hne heq => hne ?_
  have hparsed := (hcanonical p hp).parsed
  rw [heq, (hcanonical q hq).parsed] at hparsed
  exact (Except.ok.inj hparsed).symm

lemma Canonical.ne_nil {dn : Bytes} {path : List Bytes} (h : Canonical dn path) : dn ≠ [] := by
  rintro rfl
  cases h.parsed

def Version.CommittedBefore (tx : Nat) (v : Version) : Prop := v.commitTS ≠ 0 ∧ v.commitTS ≤ tx

lemma Version.CommittedBefore.visible {tx : Nat} {v : Version} (h : v.CommittedBefore tx) :
    v.isVisibleTo tx tx = true := by
  unfold isVisibleTo
  rw [if_neg h.1]
  exact decide_eq_true h.2

lemma Version.CommittedBefore.not_pending {tx other : Nat} {v : Version}
    (h : v.CommittedBefore tx) : v.pendingOf other = false := by
  exact decide_eq_false fun hpending => h.1 hpending.2

/-- The newest version of a DN, or the disk when there is none, is committed and shows the
given attributes. A cached version is used only when there is no chain; it agrees with the
disk. -/
def VersionStore.Shows (vs : VersionStore) (load : Bytes → Option Version) (tx : Nat) (dn : Bytes)
    (shown : Option Attributes) : Prop :=
  match vs.versions dn with
  | v :: _ => v.CommittedBefore tx ∧ shown = if v.deleted then none else some v.data
  | [] => (load dn).map Version.data = shown ∧ ∀ v, vs.cache.lookup dn = some v →
      v.CommittedBefore tx ∧ v.deleted = false ∧ shown = some v.data

lemma ObaDB.diskLoader_version {τ : Type} {db : ObaDB τ} {dn : Bytes} {v : Version}
    (h : db.diskLoader dn = some v) : v.txID = 0 ∧ v.commitTS = 1 ∧ v.deleted = false := by
  unfold ObaDB.diskLoader at h
  split at h
  · cases h
  · cases h
  · obtain ⟨data, _, rfl⟩ := map_eq_some_iff.mp h
    exact ⟨rfl, rfl, rfl⟩

/-- What a read answers for a DN with the given attributes. -/
def Answers (shown : Option Attributes) (result : Except VersionError Version) : Prop :=
  match shown with
  | some data => ∃ v, result = .ok v ∧ v.data = data
  | none => ∃ err, result = .error err ∧ err ≠ .conflict

lemma Answers.data_eq {shown : Option Attributes} {result : Except VersionError Version}
    (h : Answers shown result) : result.toOption.map Version.data = shown := by
  cases shown with
  | none =>
    obtain ⟨_, rfl, _⟩ := h
    rfl
  | some _ =>
    obtain ⟨_, rfl, rfl⟩ := h
    rfl

namespace VersionStore.Shows

variable {vs vs' : VersionStore} {load : Bytes → Option Version} {tx : Nat} {dn : Bytes}
  {shown : Option Attributes}

section

variable (h : vs.Shows load tx dn shown)
include h

lemma mono {tx' : Nat} (hle : tx ≤ tx') : vs.Shows load tx' dn shown := by
  have hcommitted : ∀ v : Version, v.CommittedBefore tx → v.CommittedBefore tx' :=
    fun v hv => ⟨hv.1, hv.2.trans hle⟩
  unfold Shows at h ⊢
  split at h
  · exact ⟨hcommitted _ h.1, h.2⟩
  · exact ⟨h.1, fun v hv => (h.2 v hv).imp_left (hcommitted v)⟩

lemma recached (hcache : Recached load vs vs')
    (hload : ∀ v, load dn = some v → v.CommittedBefore tx ∧ v.deleted = false) :
    vs'.Shows load tx dn shown := by
  unfold Shows at h ⊢
  rw [hcache.versions]
  split at h
  · exact h
  · refine ⟨h.1, fun v hv => ?_⟩
    rcases hcache.cache dn v hv with hold | hloaded
    · exact h.2 v hold
    · obtain ⟨hcommitted, hlive⟩ := hload v hloaded
      exact ⟨hcommitted, hlive, by rw [← h.1, hloaded]; rfl⟩

lemma answers (hload : ∀ v, load dn = some v → v.CommittedBefore tx ∧ v.deleted = false) :
    Answers shown (vs.getVisibleForTx load dn tx tx).1 := by
  have hlive : ∀ v : Version, v.deleted = false → Answers (some v.data) (found v) := fun v hv =>
    ⟨v, by rw [found, hv]; rfl, rfl⟩
  unfold Shows at h
  unfold getVisibleForTx
  split at h
  next v rest hchain =>
    simp only [hchain, find?_cons, h.1.visible, h.2]
    cases hdeleted : v.deleted with
    | true => exact ⟨.deleted, by rw [found, hdeleted]; rfl, nofun⟩
    | false => exact hlive v hdeleted
  next hchain =>
    rw [hchain]
    cases hcached : vs.cache.lookup dn with
    | some v =>
      obtain ⟨hcommitted, hdeleted, rfl⟩ := h.2 v hcached
      rw [filter_some, if_pos hcommitted.visible]
      exact hlive v hdeleted
    | none =>
      rw [← h.1]
      cases hdisk : load dn with
      | none => exact ⟨.notFound, rfl, nofun⟩
      | some v =>
        obtain ⟨hcommitted, hdeleted⟩ := hload v hdisk
        dsimp only [map_some]
        rw [if_pos hcommitted.visible]
        exact hlive v hdeleted

lemma rollback (other : Nat) : (vs.rollbackVersion other).Shows load tx dn shown := by
  unfold VersionStore.Shows at h ⊢
  dsimp only [rollbackVersion, rolledBack]
  split at h
  next v rest hchain =>
    rw [hchain, dropWhile_cons_of_neg (by simp [h.1.not_pending])]
    exact h
  next hchain =>
    rw [hchain]
    exact ⟨h.1, fun v hv => h.2 v (lookup_rollbackVersion.mp hv).2⟩

lemma commit (other commitTS : Nat) :
    (vs.commitVersion other commitTS).Shows load tx dn shown := by
  have hcommit : ∀ v : Version, v.CommittedBefore tx → v.commit other commitTS = v := fun v hv => by
    rw [Version.commit, hv.not_pending]
    rfl
  unfold Shows at h ⊢
  dsimp only [commitVersion]
  split at h
  next v rest hchain =>
    rw [hchain, map_cons, hcommit v h.1]
    exact h
  next hchain =>
    rw [hchain]
    refine ⟨h.1, fun w hw => ?_⟩
    refine h.2 w ?_
    have hcached := (vs.lookup_commitVersion other commitTS dn).symm.trans hw
    simpa [hchain] using hcached

end

end VersionStore.Shows

namespace ObaDB

variable {τ : Type} {db db' : ObaDB τ} {tx : Nat} {content : Bytes → Option Attributes}

/-- The entries that a transaction sees before it has written. -/
structure View (db : ObaDB τ) (tx : Nat) (content : Bytes → Option Attributes) : Prop where
  activeWriters : ∀ dn, db.store.activeWriters dn = none
  clock : db.currentTS < tx
  paths : ∀ p ∈ db.radix.paths, Canonical (joinDNReverse p.1) p.1 ∧ p.2 < db.nextPage
  nodup : (db.radix.paths.map Prod.fst).Nodup
  listed : ∀ dn, (content dn).isSome →
    ∃ path, Canonical dn path ∧ path ∈ db.radix.paths.map Prod.fst
  shows : ∀ dn path, Canonical dn path → db.store.Shows db.diskLoader tx dn (content dn)

namespace View

section

variable (hview : db.View tx content)
include hview

lemma diskLoader_committed (dn : Bytes) (v : Version) (h : db.diskLoader dn = some v) :
    v.CommittedBefore tx ∧ v.deleted = false := by
  obtain ⟨-, hts, hlive⟩ := diskLoader_version h
  have hclock := hview.clock
  exact ⟨⟨by omega, by omega⟩, hlive⟩

lemma visible {dn : Bytes} {path : List Bytes} (hdn : Canonical dn path) :
    Answers (content dn) (db.visible tx dn).1 :=
  (hview.shows dn path hdn).answers (hview.diskLoader_committed dn)

lemma reread (hread : Reread db db') : db'.View tx content := by
  have hrecached := hread.recached
  rw [hread.eq] at hrecached ⊢
  exact { hview with shows := fun other path hother =>
    (hview.shows other path hother).recached hrecached (hview.diskLoader_committed other) }

lemma iterate {dn : Bytes} (hdn : dn ∈ db.radix.iterate) : ∃ path, Canonical dn path := by
  obtain ⟨p, hp, rfl⟩ := mem_map.mp hdn
  exact ⟨p.1, (hview.paths p hp).1⟩

lemma mem_iterate {dn : Bytes} (h : (content dn).isSome) : dn ∈ db.radix.iterate := by
  obtain ⟨path, hcanonical, hpath⟩ := hview.listed dn h
  obtain ⟨p, hp, rfl⟩ := mem_map.mp hpath
  exact mem_map.mpr ⟨p, hp, hcanonical.joined⟩

lemma mono {tx' : Nat} (hle : tx ≤ tx') : db.View tx' content :=
  { hview with
    clock := lt_of_lt_of_le hview.clock hle
    shows := fun dn path hdn => (hview.shows dn path hdn).mono hle }

end

end View

/-! ## Listing -/

lemma View.search (hview : db.View tx content) {dns : List Bytes}
    (hdns : ∀ dn ∈ dns, ∃ path, Canonical dn path) :
    (db.search tx dns).1 = dns.filterMap fun dn => (content dn).map (Entry.mk dn) := by
  induction dns generalizing db with
  | nil => rfl
  | cons dn rest ih =>
    obtain ⟨⟨path, hdn⟩, hrest⟩ := forall_mem_cons.mp hdns
    have hcontent := (hview.visible hdn).data_eq
    rw [ObaDB.search, filterMap_cons, ← hcontent]
    split
    next v db' heq =>
      rw [heq]
      exact congrArg _ (ih (hview.reread (reread_of_visible heq)) hrest)
    next err db' heq =>
      rw [heq]
      exact ih (hview.reread (reread_of_visible heq)) hrest

/-- The entries that a new transaction finds when it lists the whole tree. -/
def entries (db : ObaDB τ) : List Entry := (db.begin.2.search db.begin.1 db.radix.iterate).1

/-- No transaction is under way, and the next one sees the given entries. -/
structure Settled (db : ObaDB τ) (content : Bytes → Option Attributes) : Prop where
  active : db.active = []
  view : db.View db.nextTxID content

lemma new_settled (trees : τ) : (new trees).Settled fun _ => none := by
  refine ⟨rfl, fun _ => rfl, Nat.zero_lt_one, nofun, .nil, nofun, fun dn path hdn => ?_⟩
  have hload : (new trees).diskLoader dn = none := by
    unfold diskLoader RadixTree.lookup
    rw [hdn.parsed]
    rfl
  exact ⟨by rw [hload]; rfl, nofun⟩

namespace Settled

section

variable (hdb : db.Settled content)
include hdb

lemma begin : db.begin.2.View db.begin.1 content := by
  obtain ⟨hactive, hview⟩ := hdb
  exact { hview with }

lemma entries_eq :
    db.entries = db.radix.iterate.filterMap fun dn => (content dn).map (Entry.mk dn) :=
  hdb.begin.search fun _ hdn => hdb.view.iterate hdn

lemma mem_entries (entry : Entry) :
    entry ∈ db.entries ↔ content entry.dn = some entry.attributes := by
  rw [hdb.entries_eq, mem_filterMap]
  constructor
  · rintro ⟨dn, _, hentry⟩
    obtain ⟨data, hdata, rfl⟩ := map_eq_some_iff.mp hentry
    exact hdata
  · intro hentry
    exact ⟨entry.dn, hdb.view.mem_iterate (by rw [hentry]; rfl), by rw [hentry]; rfl⟩

lemma map_dn_entries :
    db.entries.map Entry.dn = db.radix.iterate.filter fun dn => (content dn).isSome := by
  rw [hdb.entries_eq]
  induction db.radix.iterate with
  | nil => rfl
  | cons dn rest ih =>
    rw [filterMap_cons, filter_cons]
    cases content dn with
    | none => exact ih
    | some data => exact congrArg (dn :: ·) ih

lemma nodup_entries : (db.entries.map Entry.dn).Nodup := by
  rw [hdb.map_dn_entries]
  exact (nodup_iterate hdb.view.nodup fun p hp => (hdb.view.paths p hp).1).filter _

end

end Settled

/-! ## Transactions that end -/

/-- A transaction that has written nothing leaves the entries as they were. -/
lemma View.rollback (hview : db.View tx content) (hnext : db.nextTxID = tx + 1)
    (writeSet : List Nat) (hactive : db.active = [(tx, writeSet)]) :
    (db.rollback tx).Settled content := by
  refine ⟨by simp [ObaDB.rollback, hactive], ?_⟩
  have hrolled : (db.rollback tx).View tx content := by
    refine { hview with
      activeWriters := fun dn => ?_
      shows := fun dn path hdn => (hview.shows dn path hdn).rollback tx }
    simp [ObaDB.rollback, rollbackVersion, release,
      hview.activeWriters dn]
  exact hrolled.mono (by simp [ObaDB.rollback, hnext])

lemma Settled.list (hdb : db.Settled content) :
    ((db.begin.2.search db.begin.1 db.radix.iterate).2.rollback db.begin.1).Settled content := by
  have hread := db.begin.2.reread_search db.begin.1 db.radix.iterate
  refine (hdb.begin.reread hread).rollback hread.nextTxID [] ?_
  rw [hread.active]
  simp [ObaDB.begin, hdb.active]

/-- The transaction has put one version on the chain of `dn`, and nothing else that another
DN depends on has changed. -/
structure Wrote (db db' : ObaDB τ) (tx : Nat) (dn : Bytes) (path : List Bytes) (v : Version) :
    Prop where
  pending : v.txID = tx ∧ v.commitTS = 0
  chain : ∃ rest, db'.store.versions dn = v :: rest
  versions : ∀ other, other ≠ dn → db'.store.versions other = db.store.versions other
  cache : ∀ other w, other ≠ dn → db'.store.cache.lookup other = some w →
    db.store.cache.lookup other = some w
  owner : db'.store.activeWriters dn = some tx
  activeWriters : ∀ other, other ≠ dn → db'.store.activeWriters other = db.store.activeWriters other
  currentTS : db'.currentTS = db.currentTS
  nextTxID : db'.nextTxID = db.nextTxID
  active : ∃ writeSet, db'.active = [(tx, writeSet)]
  nodup : (db'.radix.paths.map Prod.fst).Nodup
  paths : ∀ p ∈ db'.radix.paths, p ∈ db.radix.paths ∨ p.1 = path ∧ p.2 < db'.nextPage
  kept : ∀ p ∈ db.radix.paths, p.1 ≠ path → p ∈ db'.radix.paths
  listed : v.deleted = false → path ∈ db'.radix.paths.map Prod.fst
  nextPage : db.nextPage ≤ db'.nextPage
  pages : ∀ page < db.nextPage, db'.pages page = db.pages page
  indexes : db'.indexes = db.indexes

namespace Wrote

variable {dn : Bytes} {path : List Bytes} {v : Version}

section

variable (hwrote : db.Wrote db' tx dn path v) (hview : db.View tx content)
  (hdn : Canonical dn path) {other : Bytes} {path' : List Bytes} (hother : Canonical other path')
  (hne : other ≠ dn)
include hwrote hview hdn hother hne

lemma diskLoader : db'.diskLoader other = db.diskLoader other := by
  have hpath := hdn.path_ne hother hne
  have hlookup : db'.radix.lookup other = db.radix.lookup other := by
    unfold RadixTree.lookup RadixTree.lookupPath
    rw [hother.parsed]
    refine Option.ext fun page => ?_
    rw [lookup_eq_some_iff hwrote.nodup, lookup_eq_some_iff hview.nodup]
    refine ⟨fun hmem => ?_, fun hmem => hwrote.kept _ hmem hpath⟩
    exact (hwrote.paths _ hmem).resolve_right fun hnew => hpath hnew.1
  have hpages : ∀ page, db.radix.lookup other = some page → db'.pages page = db.pages page := by
    intro page hpage
    unfold RadixTree.lookup RadixTree.lookupPath at hpage
    rw [hother.parsed] at hpage
    exact hwrote.pages page (hview.paths _ (mem_of_lookup hpage)).2
  unfold ObaDB.diskLoader
  rw [hlookup]
  split
  · rfl
  · rfl
  next page hpage => rw [hpages _ hpage]

lemma shows_other : db'.store.Shows db'.diskLoader tx other (content other) := by
  have hshows := hview.shows other path' hother
  unfold VersionStore.Shows at hshows ⊢
  rw [hwrote.versions other hne, hwrote.diskLoader hview hdn hother hne]
  split at hshows
  · exact hshows
  · exact ⟨hshows.1, fun w hw => hshows.2 w (hwrote.cache other w hne hw)⟩

end

/-- The new version is committed. -/
lemma shows_self (hwrote : db.Wrote db' tx dn path v) {commitTS : Nat} (hpos : commitTS ≠ 0)
    (hle : commitTS ≤ tx) (load : Bytes → Option Version) :
    (db'.store.commitVersion tx commitTS).Shows load tx dn
      (if v.deleted then none else some v.data) := by
  obtain ⟨rest, hchain⟩ := hwrote.chain
  have hcommit : v.commit tx commitTS = { v with commitTS := commitTS } := by
    exact if_pos (decide_eq_true hwrote.pending)
  unfold VersionStore.Shows
  dsimp only [commitVersion]
  rw [hchain, map_cons, hcommit]
  exact ⟨⟨hpos, hle⟩, rfl⟩

lemma commit (hwrote : db.Wrote db' tx dn path v) (hview : db.View tx content)
    (hdn : Canonical dn path) (hnext : db.nextTxID = tx + 1) :
    (db'.commit tx).1 = .ok () ∧ (db'.commit tx).2.indexes = db.indexes ∧ (db'.commit tx).2.Settled
        (Function.update content dn (if v.deleted then none else some v.data)) := by
  obtain ⟨writeSet, hactive⟩ := hwrote.active
  have hcommit : db'.commit tx = (.ok (), { db' with
      currentTS := db'.currentTS + 1, active := []
      store := db'.store.commitVersion tx (db'.currentTS + 1) }) := by
    simp [ObaDB.commit, hactive]
  rw [hcommit]
  refine ⟨rfl, hwrote.indexes, rfl, ?_⟩
  have hclock : db'.currentTS < tx := hwrote.currentTS ▸ hview.clock
  have hnext' : db'.nextTxID = tx + 1 := hwrote.nextTxID.trans hnext
  refine ⟨fun other => ?_, ?_, fun p hp => ?_, hwrote.nodup, fun other hother => ?_,
    fun other path' hother => ?_⟩
  · by_cases hne : other = dn
    · obtain ⟨rest, hchain⟩ := hwrote.chain
      simp [commitVersion, release, hne, hchain, hwrote.owner]
    · simp [commitVersion, release, hwrote.activeWriters other hne,
        hview.activeWriters other]
  · dsimp only
    omega
  · rcases hwrote.paths p hp with hold | ⟨hpath, hpage⟩
    · obtain ⟨hcanonical, hpage⟩ := hview.paths p hold
      exact ⟨hcanonical, hpage.trans_le hwrote.nextPage⟩
    · exact ⟨by rw [hpath, hdn.joined]; exact hdn, hpage⟩
  · by_cases hne : other = dn
    · subst hne
      refine ⟨path, hdn, hwrote.listed ?_⟩
      by_contra hdeleted
      simp [hdeleted] at hother
    · rw [Function.update_of_ne hne] at hother
      obtain ⟨path', hcanonical, hlisted⟩ := hview.listed other hother
      obtain ⟨p, hp, rfl⟩ := mem_map.mp hlisted
      exact ⟨p.1, hcanonical, mem_map_of_mem (hwrote.kept p hp (hdn.path_ne hcanonical hne))⟩
  · refine VersionStore.Shows.mono ?_ ((Nat.le_succ tx).trans_eq hnext'.symm)
    by_cases hne : other = dn
    · subst hne
      rw [Function.update_self]
      exact hwrote.shows_self (Nat.succ_ne_zero _) hclock _
    · rw [Function.update_of_ne hne]
      exact (hwrote.shows_other hview hdn hother hne).commit tx _

end Wrote

end ObaDB

end Oba.Storage
