import Oba.Storage.Newest

/-! # A transaction that runs alone

Where no other transaction has uncommitted versions, and the index lists every entry, a
transaction works on the directory: its reads and searches give what the directory holds, and its
puts and deletes change the directory at their DNs.
-/

namespace Oba.Storage.ObaDB

open List

variable {τ : Type} {trees : IndexTrees τ} {db db' : ObaDB τ} {tx : Nat} {dn : Bytes}
  {path : List Bytes} {orders : Orders} {entry : Entry}

/-- The index lists every entry. -/
def Indexed (db : ObaDB τ) : Prop := ∀ dn, (db.directory dn).isSome → dn ∈ db.radix.iterate

/-- Only this transaction has uncommitted versions, and it sees all others. -/
structure Alone (db : ObaDB τ) (tx : Nat) : Prop where
  synced : db.Synced
  dated : db.Dated
  active : db.isActive tx
  clock : max 1 db.currentTS ≤ tx
  own : ∀ other dn, db.Uncommitted other dn → other = tx
  indexed : db.Indexed

lemma Reread.directory (h : Reread db db') : db'.directory = db.directory :=
  directory_congr fun d _ _ => congrFun h.newest d

lemma directory_commit (db : ObaDB τ) (tx : Nat) : (db.commit tx).2.directory = db.directory :=
  directory_congr fun d _ _ => congrFun (db.newest_commit tx) d

lemma Reread.indexed (h : Reread db db') (hindexed : db.Indexed) : db'.Indexed := by
  unfold Indexed at hindexed ⊢
  rwa [h.directory, h.radix]

namespace Alone

section

variable (h : db.Alone tx)
include h

lemma reread (hread : Reread db db') : db'.Alone tx where
  synced := h.synced.reread hread
  dated := h.dated.reread hread
  active := hread.isActive tx ▸ h.active
  clock := hread.currentTS ▸ h.clock
  own := by
    rw [hread.uncommitted]
    exact h.own
  indexed := hread.indexed h.indexed

lemma reads (hdn : Canonical dn path) : db.reads tx dn = db.directory dn := by
  rw [directory_of_canonical db hdn]
  refine h.synced.reads_of_visible (.inl h.active) hdn fun v hv => ?_
  unfold Version.isVisibleTo
  split
  next hzero => exact decide_eq_true (h.own v.txID dn ⟨v, hv, decide_eq_true ⟨rfl, hzero⟩⟩)
  · exact decide_eq_true ((h.dated.chains dn v hv).trans h.clock)

lemma get (hdn : Canonical (normalizeDN dn) path) (hne : dn ≠ []) :
    (db.get tx dn).1 = match db.directory (normalizeDN dn) with
      | some attributes => .ok ⟨normalizeDN dn, attributes⟩
      | none => .error .entryNotFound := by
  have hget := get_eq db tx hne
  rw [h.reads hdn] at hget
  exact hget

/-! ## Searches -/

/-- What a search finds below the paths that it selects. -/
lemma mem_search (selects : List Bytes → Bool) : entry ∈ (db.search tx
        ((db.radix.paths.filter (selects ·.1)).map fun p => joinDNReverse p.1)).1 ↔
      db.directory entry.dn = some entry.attributes ∧
        ∃ q, Canonical entry.dn q ∧ selects q = true := by
  have hcanonical : ∀ d ∈ (db.radix.paths.filter (selects ·.1)).map fun p => joinDNReverse p.1,
      ∃ q, Canonical d q := by
    intro d hd
    obtain ⟨p, hp, rfl⟩ := mem_map.mp hd
    exact ⟨p.1, h.synced.paths p (mem_of_mem_filter hp)⟩
  rw [h.synced.search_eq (.inl h.active) hcanonical, mem_filterMap]
  constructor
  · rintro ⟨d, hd, hsees⟩
    obtain ⟨p, hp, rfl⟩ := mem_map.mp hd
    obtain ⟨hpath, hselects⟩ := mem_filter.mp hp
    have hp' := h.synced.paths p hpath
    rw [← h.synced.reads_eq_sees (.inl h.active) hp', h.reads hp'] at hsees
    obtain ⟨attributes, hattributes, rfl⟩ := Option.map_eq_some_iff.mp hsees
    exact ⟨hattributes, p.1, hp', hselects⟩
  · rintro ⟨hattributes, q, hq, hselects⟩
    have hlisted := h.indexed entry.dn (by rw [hattributes]; rfl)
    obtain ⟨p, hp, hjoined⟩ := mem_map.mp hlisted
    have hp' := h.synced.paths p hp
    rw [hjoined] at hp'
    cases hp'.parsed.symm.trans hq.parsed
    refine ⟨entry.dn, mem_map.mpr ⟨p, mem_filter.mpr ⟨hp, hselects⟩, hjoined⟩, ?_⟩
    rw [← h.synced.reads_eq_sees (.inl h.active) hq, h.reads hq, hattributes]
    rfl

/-- The entries one level below a DN, or at and below it. -/
lemma searchByDN {baseDN : Bytes} (hbase : Canonical (normalizeDN baseDN) path) {scope : Scope}
    {selects : List Bytes → Bool}
    (hscope : scope = .oneLevel ∧ selects = RadixTree.childOf path ∨
      scope = .subtree ∧ selects = path.isPrefixOf) :
    ∃ entries, (db.searchByDN tx baseDN scope).1 = .ok entries ∧
      ∀ entry, entry ∈ entries ↔ db.directory entry.dn = some entry.attributes ∧
        ∃ q, Canonical entry.dn q ∧ selects q = true := by
  refine ⟨_, ?_, fun entry => h.mem_search selects⟩
  unfold ObaDB.searchByDN RadixTree.iterator
  rw [if_neg fun hnil => hbase.ne_nil hnil.1, hbase.parsed]
  rcases hscope with ⟨rfl, rfl⟩ | ⟨rfl, rfl⟩ <;> rfl

/-! ## Writes -/

/-- A new version at a DN. -/
lemma pushed {v : Version} {below : List Version} {value : Option Attributes}
    (hpushed : Pushed db db' dn v below) (htx : v.txID = tx)
    (hbelow : below = db.store.versions dn ∨ db.FoundBelow dn below) (hsynced : db'.Synced)
    (hdirectory : db'.directory = Function.update db.directory dn value)
    (hindex : ∀ d, d ≠ dn → d ∈ db.radix.iterate → d ∈ db'.radix.iterate)
    (hself : value.isSome → dn ∈ db'.radix.iterate) : db'.Alone tx where
  synced := hsynced
  dated := h.dated.pushed hpushed hbelow
  active := hpushed.isActive tx ▸ h.active
  clock := hpushed.currentTS ▸ h.clock
  own := fun other d hother => by
    rcases h.synced.sound.uncommitted_pushed hpushed hbelow hother with ⟨rfl, -⟩ | hold
    · exact htx
    · exact h.own other d hold
  indexed := fun d hd => by
    rw [hdirectory] at hd
    by_cases heq : d = dn
    · subst heq
      rw [Function.update_self] at hd
      exact hself hd
    · rw [Function.update_of_ne heq] at hd
      exact hindex d heq (h.indexed d hd)

lemma put (hdn : Canonical (normalizeDN entry.dn) path)
    (hput : db.put trees orders tx entry = (.ok (), db')) :
    db'.Alone tx ∧ db'.directory = Function.update db.directory (normalizeDN entry.dn)
      (some (stored orders entry.normalized)) := by
  obtain ⟨read, seen, below, hread, hseen, heffect⟩ :=
    put_ok_effect h.synced.sound.located (congrArg Prod.fst hput)
  rw [hput] at heffect
  have hdirectory :=
    directory_update hdn fun d q hd => heffect.newest h.synced.sound.located hdn hd
  refine ⟨h.pushed heffect.pushed rfl (.inr heffect.below) (h.synced.put heffect hdn) hdirectory
    (fun d _ hd => heffect.iterate_subset hd) fun _ => ?_, hdirectory⟩
  refine heffect.mem_iterate hdn fun hsaw => h.indexed _ ?_
  rwa [← h.reads hdn, ← h.synced.reads_reread hread h.active hdn, ← hseen]

lemma delete (hdn : Canonical (normalizeDN dn) path)
    (hdelete : db.delete trees orders tx dn = (.ok (), db')) :
    db'.Alone tx ∧ db'.directory = Function.update db.directory (normalizeDN dn) none := by
  obtain ⟨-, heffect⟩ := delete_ok_effect (congrArg Prod.fst hdelete)
  rw [hdelete] at heffect
  obtain ⟨page, hpushed⟩ := heffect.pushed
  have hdirectory := directory_update hdn fun d q hd =>
    heffect.newest h.synced.sound.located hdn hd
  exact ⟨h.pushed hpushed rfl (.inl rfl) (h.synced.delete heffect hdn) hdirectory
    (fun d => heffect.mem_iterate hdn) (fun hsome => by cases hsome), hdirectory⟩

end

end Alone

/-! ## A database on the disk -/

/-- A database opened with entries, each on a page of its own. -/
def onDisk (entries : List Entry) : ObaDB Unit :=
  { new () with
    radix := ⟨(entries.zipIdx 1).map fun e => ((parseDN e.1.dn).toOption.getD [], e.2)⟩
    pages := fun page => if page = 0 then none else (entries[page - 1]?).map Entry.attributes
    nextPage := entries.length + 1 }

lemma opened_onDisk (entries : List Entry) : (onDisk entries).Opened := by
  refine ⟨fun p hp => ?_, fun page hpage => ?_, rfl, rfl, rfl, rfl,
    fun _ _ hv => absurd hv not_mem_nil⟩
  · obtain ⟨e, he, rfl⟩ := mem_map.mp hp
    have hlt := snd_lt_add_of_mem_zipIdx he
    dsimp only [onDisk]
    omega
  · dsimp only [onDisk] at hpage ⊢
    rw [if_neg (by omega), getElem?_eq_none (by omega)]
    rfl

variable {entries : List Entry}

lemma paths_onDisk (hnames : ∀ entry ∈ entries, isCanonical entry.dn) :
    ∀ p ∈ (onDisk entries).radix.paths, Canonical (joinDNReverse p.1) p.1 := by
  intro p hp
  obtain ⟨e, he, rfl⟩ := mem_map.mp hp
  obtain ⟨path, hpath⟩ := isCanonical_iff.mp (hnames e.1 (fst_mem_of_mem_zipIdx he))
  rw [hpath.parsed]
  exact hpath.joined.symm ▸ hpath

lemma indexed_onDisk (entries : List Entry) : (onDisk entries).Indexed := by
  intro dn hdn
  obtain ⟨attributes, hattributes⟩ := Option.isSome_iff_exists.mp hdn
  obtain ⟨path, hpath⟩ := canonical_of_directory hattributes
  rw [directory_of_canonical _ hpath] at hattributes
  obtain ⟨v, hv, -⟩ := Option.map_eq_some_iff.mp hattributes
  refine mem_iterate_of_lookupPath hpath ?_
  unfold diskLoader RadixTree.lookup at hv
  rw [hpath.parsed] at hv
  dsimp only at hv
  cases hlookup : (onDisk entries).radix.lookupPath path with
  | none =>
    rw [hlookup] at hv
    cases hv
  | some page => rfl

lemma mem_of_directory_onDisk (hnames : ∀ entry ∈ entries, isCanonical entry.dn)
    (hdn : ((onDisk entries).directory dn).isSome) : dn ∈ entries.map Entry.dn := by
  obtain ⟨p, hp, rfl⟩ := mem_map.mp (indexed_onDisk entries dn hdn)
  obtain ⟨e, he, rfl⟩ := mem_map.mp hp
  have hentry := fst_mem_of_mem_zipIdx he
  obtain ⟨path, hpath⟩ := isCanonical_iff.mp (hnames e.1 hentry)
  rw [hpath.parsed, Except.toOption, Option.getD_some, hpath.joined]
  exact mem_map_of_mem hentry

end Oba.Storage.ObaDB
