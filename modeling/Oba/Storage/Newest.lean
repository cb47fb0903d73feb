import Oba.Storage.History
import Oba.Storage.Rollback

/-! # The newest versions

The newest versions at all DNs, committed or not, are the contents that the calls of all
transactions work on: a put or a delete that succeeds changes them at its DN, and a call that
fails leaves them alone, as long as no index tree refuses a key.
-/

namespace Oba.Storage

open List Version

open Function (update update_of_ne update_self)

/-- No insertion into an index tree fails. -/
def IndexTrees.Accepting {τ : Type} (trees : IndexTrees τ) : Prop :=
  ∀ attr key ref t, (trees.insert attr key ref t).2 = true

lemma accepting_empty : IndexTrees.empty.Accepting := fun _ _ _ _ => rfl

namespace ObaDB

variable {τ : Type} {trees : IndexTrees τ} {db db' : ObaDB τ} {tx u : Nat} {dn d : Bytes}
  {path q : List Bytes}

/-! ## Calls that fail -/

lemma insertDN_ok (hdn : parseDN dn = .ok path) (db : ObaDB τ) (isNew : Bool) (page : Nat) :
    ∃ radix, db.insertDN isNew dn page = .ok radix := by
  cases isNew with
  | false => exact ⟨_, rfl⟩
  | true => exact ⟨_, insertDN_new db hdn page⟩

variable {entry : Entry} {orders : Orders} {v : Version} {below : List Version} {seen : Bool}
  {other : Nat}

/-- A put that returns an error has changed nothing. -/
lemma put_ok_or_reread (haccept : trees.Accepting) (orders : Orders)
    (hdn : parseDN (normalizeDN entry.dn) = .ok path) :
    (db.put trees orders tx entry).1 = .ok () ∨ Reread db (db.put trees orders tx entry).2 := by
  rcases db.put_reread_or_putVersion trees orders tx entry with
    ⟨_, -, hread⟩ | ⟨read, hread, -, heq⟩
  · exact .inr hread
  rw [heq]
  dsimp only [putVersion]
  cases hvisible : read.visible tx (normalizeDN entry.dn) with | mk existing read' =>
  have hread' : Reread read read' := reread_of_visible hvisible
  split
  · exact .inr (hread.trans hread')
  next page created hcreate =>
    obtain ⟨radix, hradix⟩ := insertDN_ok hdn created
      (existing.toOption.map data).isNone page
    rw [hradix]
    have hindex : Indexable trees { created with radix := radix }.indexes entry.attributes :=
      fun _ _ _ _ _ => haccept _ _
    obtain ⟨t, hupdate⟩ := updateIndexes_ok trees hindex orders (normalizeDN entry.dn)
      (existing.toOption.map data) page
    exact .inl (congrArg Prod.fst hupdate)

/-- A delete that returns an error has changed nothing. -/
lemma delete_ok_or_reread (orders : Orders) (hdn : parseDN (normalizeDN dn) = .ok path) :
    (db.delete trees orders tx dn).1 = .ok () ∨ Reread db (db.delete trees orders tx dn).2 := by
  rcases delete_cases trees db orders tx dn with
    ⟨_, -, -, -, hread⟩ | ⟨-, -, hok | ⟨err, -, hne, hdelete⟩⟩
  · exact .inr hread
  · exact .inl hok
  · rw [RadixTree.delete, hdn] at hdelete
    dsimp only at hdelete
    split at hdelete
    · cases hdelete
    · exact absurd (Except.error.inj hdelete).symm hne

lemma delete_ne_writeConflict (orders : Orders) (db : ObaDB τ) (tx : Nat) (dn : Bytes) :
    (db.delete trees orders tx dn).1 ≠ .error .writeConflict := by
  rcases delete_cases trees db orders tx dn with
    ⟨err, herr, hne, -⟩ | ⟨-, -, hok | ⟨err, herr, -⟩⟩
  · rw [herr]
    exact fun heq => hne (Except.error.inj heq)
  · simp [hok]
  · simp [herr]

/-- The errors of a delete that finds nothing. -/
lemma reads_of_delete_absent {err : EngineError}
    (h : (db.delete trees orders tx dn).1 = .error err)
    (habsent : err = .entryNotFound ∨ err = .version .deleted) :
    db.reads tx (normalizeDN dn) = none := by
  rcases delete_cases trees db orders tx dn with
    ⟨err', herr, -, hnone, -⟩ | ⟨-, -, hok | ⟨err', herr, -⟩⟩
  · cases herr.symm.trans h
    rw [← isSome_reads] at hnone
    exact Option.not_isSome_iff_eq_none.mp (hnone habsent)
  · cases hok.symm.trans h
  · cases herr.symm.trans h
    rcases habsent with habsent | habsent <;> cases habsent

/-! ## Contents -/

/-- The attributes of the newest version at a DN, which is the one on the disk if there is no
chain. -/
def newest (db : ObaDB τ) (dn : Bytes) : Option Attributes :=
  match db.store.versions dn with
  | v :: _ => v.live
  | [] => (db.diskLoader dn).map Version.data

lemma newest_of_top (h : db.store.versions dn = v :: below) : db.newest dn = v.live := by
  unfold newest
  rw [h]

lemma newest_of_nil (h : db.store.versions dn = []) :
    db.newest dn = (db.diskLoader dn).map data := by
  unfold newest
  rw [h]

lemma Reread.newest (h : Reread db db') : db'.newest = db.newest := by
  unfold ObaDB.newest
  rw [h.recached.versions, h.diskLoader]

/-- What stands at another DN, if the disk loader finds the same there. -/
lemma Pushed.newest_of_ne (h : Pushed db db' dn v below)
    (hload : db'.diskLoader d = db.diskLoader d) (hne : d ≠ dn) : db'.newest d = db.newest d := by
  unfold ObaDB.newest
  rw [h.versions, update_of_ne hne, hload]

lemma Pushed.newest_self (h : Pushed db db' dn v below) : db'.newest dn = v.live := by
  have htop : db'.store.versions dn = v :: below := by rw [h.versions, update_self]
  exact newest_of_top htop

lemma PutEffect.newest (h : PutEffect db db' orders tx entry seen below) (hlocated : db.Located)
    (hdn : Canonical entry.dn path) (hd : Canonical d q) :
    db'.newest d = update db.newest entry.dn (some (stored orders entry)) d := by
  by_cases hne : d = entry.dn
  · subst hne
    rw [update_self, h.pushed.newest_self]
    rfl
  · rw [update_of_ne hne, h.pushed.newest_of_ne (h.diskLoader_of_ne hlocated hdn hd hne) hne]

lemma DeleteEffect.newest (h : DeleteEffect db db' tx dn) (hlocated : db.Located)
    (hdn : Canonical dn path) (hd : Canonical d q) :
    db'.newest d = update db.newest dn none d := by
  obtain ⟨page, hpushed⟩ := h.pushed
  by_cases hne : d = dn
  · subst hne
    rw [update_self, hpushed.newest_self]
    rfl
  · rw [update_of_ne hne, hpushed.newest_of_ne (h.diskLoader_of_ne hlocated hdn hd hne) hne]

lemma stored_eq (hfits : entry.Fits 4) (orders : Orders) :
    stored orders entry.normalized = entry.attributes := by
  have hfits' : Entry.Fits 4 entry.normalized :=
    ⟨lt_of_le_of_lt (length_normalizeDN_le _) hfits.dn, hfits.size, hfits.bindings⟩
  rw [stored, deserializeEntry_serializeEntry _ hfits', Option.getD_some]

lemma newest_commit (db : ObaDB τ) (tx : Nat) : (db.commit tx).2.newest = db.newest := by
  obtain ⟨active, hcommit, -⟩ := db.commit_eq tx
  have hload : (db.commit tx).2.diskLoader = db.diskLoader := by
    rw [hcommit]
    rfl
  funext dn
  cases hchain : db.store.versions dn with
  | nil =>
    have hnil : (db.commit tx).2.store.versions dn = [] := by rw [versions_commit, hchain]; rfl
    rw [newest_of_nil hchain, newest_of_nil hnil, hload]
  | cons v below =>
    have htop := db.versions_commit tx dn
    rw [hchain] at htop
    rw [newest_of_top hchain, newest_of_top htop, live_commit]

section

variable (h : db.Sound) (hnone : ∀ v ∈ db.store.versions dn, v.pendingOf tx = false)
include h hnone

lemma Sound.versions_rollback : (db.rollback tx).store.versions dn = db.store.versions dn := by
  refine (h.rolledBack_eq tx dn).trans (filter_eq_self.mpr fun v hv => ?_)
  rw [hnone v hv]
  rfl

/-- A rollback where the transaction has nothing uncommitted. -/
lemma Sound.newest_rollback : (db.rollback tx).newest dn = db.newest dn := by
  unfold newest
  rw [h.versions_rollback hnone]
  rfl

end

/-! ## Uncommitted versions -/

/-- The transaction has written the DN and has not ended. -/
def Uncommitted (db : ObaDB τ) (tx : Nat) (dn : Bytes) : Prop :=
  ∃ v ∈ db.store.versions dn, v.pendingOf tx

lemma Opened.not_uncommitted (h : db.Opened) (tx : Nat) (dn : Bytes) : ¬ db.Uncommitted tx dn := by
  rintro ⟨v, hv, hpending⟩
  have hzero := (of_decide_eq_true hpending).2
  rw [(h.loaded dn v hv).2] at hzero
  cases hzero

lemma not_pendingOf_of_not_uncommitted (h : ¬ db.Uncommitted tx dn) :
    ∀ v ∈ db.store.versions dn, v.pendingOf tx = false := fun v hv =>
  Bool.eq_false_of_not_eq_true fun hpending => h ⟨v, hv, hpending⟩

lemma Reread.uncommitted (h : Reread db db') : db'.Uncommitted = db.Uncommitted := by
  unfold Uncommitted
  rw [h.recached.versions]

lemma Sound.uncommitted_pushed (h : db.Sound) (hpushed : Pushed db db' dn v below)
    (hbelow : below = db.store.versions dn ∨ db.FoundBelow dn below)
    (huncommitted : db'.Uncommitted tx d) : tx = v.txID ∧ d = dn ∨ db.Uncommitted tx d := by
  obtain ⟨w, hw, hpending⟩ := huncommitted
  rcases hpushed.mem_versions hw with ⟨rfl, rfl | hw⟩ | ⟨-, hw⟩
  · exact .inl ⟨(of_decide_eq_true hpending).1.symm, rfl⟩
  · rcases hbelow.elim .inl h.foundBelow with rfl | hcommitted
    · exact .inr ⟨w, hw, hpending⟩
    · exact absurd (of_decide_eq_true hpending).2 (hcommitted w hw)
  · exact .inr ⟨w, hw, hpending⟩

lemma uncommitted_commit (h : (db.commit tx).2.Uncommitted other d) :
    other ≠ tx ∧ db.Uncommitted other d := by
  obtain ⟨w, hw, hpending⟩ := h
  rw [versions_commit] at hw
  obtain ⟨v, hv, rfl⟩ := mem_map.mp hw
  obtain ⟨hother, hzero⟩ := of_decide_eq_true hpending
  obtain ⟨-, hne, hsame⟩ := commit_pending (Nat.succ_ne_zero _) hzero
  rw [txID_commit] at hother
  exact ⟨hother ▸ hne, v, hv, hsame ▸ hpending⟩

lemma uncommitted_commit_of_ne (hne : other ≠ tx) (h : db.Uncommitted other d) :
    (db.commit tx).2.Uncommitted other d := by
  obtain ⟨v, hv, hpending⟩ := h
  have hsame : v.pendingOf tx = false := decide_eq_false fun htx =>
    hne ((of_decide_eq_true hpending).1.symm.trans htx.1)
  refine ⟨v, ?_, hpending⟩
  rw [versions_commit]
  exact mem_map.mpr ⟨v, hv, commit_of_not_pending hsame _⟩

lemma Sound.uncommitted_rollback (h : db.Sound)
    (huncommitted : (db.rollback tx).Uncommitted other d) :
    other ≠ tx ∧ db.Uncommitted other d := by
  obtain ⟨v, hv, hpending⟩ := huncommitted
  have hchain : (db.rollback tx).store.versions d = _ := h.rolledBack_eq tx d
  rw [hchain] at hv
  obtain ⟨hmem, hkept⟩ := mem_filter.mp hv
  refine ⟨?_, v, hmem, hpending⟩
  rintro rfl
  rw [hpending] at hkept
  cases hkept

/-- A transaction that sees all versions at a DN reads the newest one. -/
lemma Synced.reads_of_visible (h : db.Synced) (hu : db.Reader u) (hdn : Canonical dn path)
    (hvisible : ∀ v ∈ db.store.versions dn, v.isVisibleTo u u) : db.reads u dn = db.newest dn := by
  rw [h.reads_eq_sees hu hdn, sees]
  cases hchain : db.store.versions dn with
  | nil =>
    rw [newest_of_nil hchain]
    rfl
  | cons v below =>
    have hv := hvisible v (hchain ▸ mem_cons_self)
    rw [newest_of_top hchain, find?_cons, hv]

/-- A later transaction reads the newest version where nothing is uncommitted. -/
lemma Synced.reads_eq_newest (h : db.Synced) (hdated : db.Dated)
    (hclock : db.currentTS < db.nextTxID) (hu : db.nextTxID ≤ u) (hdn : Canonical dn path)
    (hcommitted : ∀ tx, ¬ db.Uncommitted tx dn) : db.reads u dn = db.newest dn := by
  refine h.reads_of_visible (.inr hu) hdn fun v hv => ?_
  have hts : v.commitTS ≠ 0 := fun hzero =>
    hcommitted v.txID ⟨v, hv, decide_eq_true ⟨rfl, hzero⟩⟩
  rw [isVisibleTo, if_neg hts]
  exact decide_eq_true (((hdated.chains dn v hv).trans (max_le h.sound.begun hclock.le)).trans hu)

/-- Reading does not change what is read. -/
lemma Synced.reads_reread (h : db.Synced) (hread : Reread db db') (htx : db.isActive tx)
    (hdn : Canonical dn path) : db'.reads tx dn = db.reads tx dn := by
  have htx' : db'.isActive tx := hread.isActive tx ▸ htx
  rw [(h.reread hread).reads_eq_sees (.inl htx') hdn, h.reads_eq_sees (.inl htx) hdn,
    sees_reread hread]

/-! ## The index -/

lemma Synced.iterate (h : db.Synced) {d : Bytes} (hd : d ∈ db.radix.iterate) :
    ∃ q, Canonical d q := by
  obtain ⟨p, hp, rfl⟩ := mem_map.mp hd
  exact ⟨p.1, h.paths p hp⟩

lemma mem_iterate_of_lookupPath {tree : RadixTree} (hdn : Canonical dn path)
    (h : (tree.lookupPath path).isSome) : dn ∈ tree.iterate := by
  obtain ⟨page, hpage⟩ := Option.isSome_iff_exists.mp h
  exact mem_map.mpr ⟨(path, page), AssocList.mem_of_lookup hpage, hdn.joined⟩

lemma PutEffect.iterate_subset (h : PutEffect db db' orders tx entry seen below) :
    db.radix.iterate ⊆ db'.radix.iterate := by
  rcases h.radix_cases with hsame | ⟨-, _, -, -, hnew⟩
  · rw [hsame]
    exact List.Subset.refl _
  · rw [hnew, RadixTree.iterate, RadixTree.iterate, map_append]
    exact subset_append_left _ _

/-- A put leaves its DN in the index, if what the transaction sees there is listed. -/
lemma PutEffect.mem_iterate (h : PutEffect db db' orders tx entry seen below)
    (hdn : Canonical entry.dn path) (hseen : seen = true → entry.dn ∈ db.radix.iterate) :
    entry.dn ∈ db'.radix.iterate := by
  cases seen with
  | true => exact h.iterate_subset (hseen rfl)
  | false =>
    by_cases hlisted : (db.radix.lookupPath path).isSome
    · exact h.iterate_subset (mem_iterate_of_lookupPath hdn hlisted)
    · have hinsert : db.insertDN true entry.dn db.nextPage =
          .ok ⟨db.radix.paths ++ [(path, db.nextPage)]⟩ := by
        rw [insertDN_new db hdn.parsed, if_neg hlisted]
      rcases h.radix with hok | ⟨⟨err, herr⟩, -⟩
      · rw [← Except.ok.inj (hinsert.symm.trans hok), RadixTree.iterate, map_append]
        exact mem_append_right _ (mem_singleton.mpr hdn.joined.symm)
      · cases hinsert.symm.trans herr

lemma DeleteEffect.mem_iterate (h : DeleteEffect db db' tx dn) (hdn : Canonical dn path)
    (hne : d ≠ dn) (hd : d ∈ db.radix.iterate) : d ∈ db'.radix.iterate := by
  rcases h.radix_cases with ⟨hsame, -⟩ | ⟨path', hpath', hfilter⟩
  · rwa [hsame]
  · cases hdn.parsed.symm.trans hpath'
    obtain ⟨p, hp, rfl⟩ := mem_map.mp hd
    have hother : p.1 ≠ path := fun heq => hne (by rw [heq, hdn.joined])
    rw [hfilter]
    exact mem_map.mpr ⟨p, mem_filter.mpr ⟨hp, decide_eq_true hother⟩, rfl⟩

/-! ## Calls that succeed -/

lemma put_ok_effect (hlocated : db.Located) (hok : (db.put trees orders tx entry).1 = .ok ()) :
    ∃ read seen below, Reread db read ∧ (seen = (read.reads tx (normalizeDN entry.dn)).isSome) ∧
      PutEffect db (db.put trees orders tx entry).2 orders tx entry.normalized seen below := by
  rcases put_cases trees hlocated orders tx entry with
    ⟨err, herr, -⟩ | ⟨read, seen, below, hread, hseen, heffect, -⟩
  · rw [hok] at herr
    cases herr
  · rw [← isSome_reads, ← Bool.eq_iff_iff] at hseen
    exact ⟨read, seen, below, hread, hseen, heffect⟩

lemma get_ok (h : (db.get tx dn).1 = .ok entry) :
    entry.dn = normalizeDN dn ∧ db.reads tx (normalizeDN dn) = some entry.attributes := by
  by_cases hdn : dn = []
  · rw [get, if_pos hdn] at h
    cases h
  · rw [get_eq db tx hdn] at h
    cases hreads : db.reads tx (normalizeDN dn) with
    | none =>
      rw [hreads] at h
      cases h
    | some attributes =>
      rw [hreads] at h
      cases h
      exact ⟨rfl, rfl⟩

lemma delete_ok_effect (hok : (db.delete trees orders tx dn).1 = .ok ()) :
    (db.reads tx (normalizeDN dn)).isSome ∧
      DeleteEffect db (db.delete trees orders tx dn).2 tx (normalizeDN dn) := by
  rcases delete_cases trees db orders tx dn with ⟨err, herr, -⟩ | ⟨hseen, heffect, -⟩
  · rw [hok] at herr
    cases herr
  · exact ⟨isSome_reads.mpr hseen, heffect⟩

/-! ## The directory -/

/-- What the newest versions hold at the DNs that are in the form of the index. -/
def directory (db : ObaDB τ) (dn : Bytes) : Option Attributes :=
  if isCanonical dn then db.newest dn else none

lemma directory_of_canonical (db : ObaDB τ) (hdn : Canonical dn path) :
    db.directory dn = db.newest dn := if_pos (isCanonical_iff.mpr ⟨path, hdn⟩)

lemma canonical_of_directory {attributes : Attributes}
    (h : db.directory dn = some attributes) : ∃ path, Canonical dn path := by
  refine isCanonical_iff.mp (by_contra fun hnot => ?_)
  rw [directory, if_neg hnot] at h
  cases h

lemma directory_congr (h : ∀ d q, Canonical d q → db'.newest d = db.newest d) :
    db'.directory = db.directory := by
  funext d
  unfold directory
  split
  next hcanonical =>
    obtain ⟨q, hd⟩ := isCanonical_iff.mp hcanonical
    exact h d q hd
  · rfl

lemma directory_update {value : Option Attributes} (hdn : Canonical dn path)
    (h : ∀ d q, Canonical d q → db'.newest d = update db.newest dn value d) :
    db'.directory = update db.directory dn value := by
  funext d
  by_cases hcanonical : isCanonical d
  · obtain ⟨q, hd⟩ := isCanonical_iff.mp hcanonical
    rw [directory_of_canonical db' hd, h d q hd]
    by_cases hne : d = dn
    · rw [hne, update_self, update_self]
    · rw [update_of_ne hne, update_of_ne hne, directory_of_canonical db hd]
  · have hne : d ≠ dn := fun heq => hcanonical (isCanonical_iff.mpr ⟨path, heq ▸ hdn⟩)
    rw [update_of_ne hne, directory, directory, if_neg hcanonical, if_neg hcanonical]

lemma directory_new (t : τ) (dn : Bytes) : (new t).directory dn = none := by
  have hlookup : (new t).radix.lookup dn = none := by
    unfold RadixTree.lookup
    split <;> rfl
  unfold directory
  split
  · rw [newest_of_nil rfl, diskLoader, hlookup]
    rfl
  · rfl

end ObaDB

end Oba.Storage
