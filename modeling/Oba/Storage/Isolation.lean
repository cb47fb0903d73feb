import Oba.Storage.LostUpdate

/-! # Isolation

A put that creates an entry shows it to everyone at once, since the entry is on its page and in
the index before the transaction has committed; a delete takes it out of the index at once. A
commit becomes visible to every transaction with a larger identifier, also to those that run.
Apart from these, the calls of other transactions do not change what a transaction reads.
-/

namespace Oba.Storage

open List

namespace ObaDB

variable {τ : Type} {db db' : ObaDB τ} {tx u : Nat} {dn : Bytes} {path : List Bytes} {c : Call}

/-- The reader has a version of the DN on its chain. -/
def chained (db : ObaDB τ) (u : Nat) (dn : Bytes) : Option Version :=
  (db.store.versions dn).find? (·.isVisibleTo u u)

/-! ## Repeatable reads -/

/-- The call leaves alone what the reader gets at the DN. -/
def KeepsGet (u : Nat) (dn : Bytes) (db : ObaDB τ) : Call → Prop
  | .put tx orders entry => normalizeDN entry.dn = dn →
    (db.reads tx dn).isSome ∨ (db.radix.lookup dn).isSome ∨ (db.chained u dn).isSome ∨
      written orders ⟨dn, entry.attributes⟩ = none
  | .delete _ _ d => normalizeDN d = dn → (db.chained u dn).isSome ∨ db.reads u dn = none
  | .commit tx => (∀ v ∈ db.store.versions dn, v.pendingOf tx = false) ∨ u ≤ db.currentTS
  | _ => True

namespace Synced

/-- What a put has found when it looked for an entry. -/
lemma isSome_reads_put (h : db.Synced) {read : ObaDB τ} (hread : Reread db read)
    (hactive : db.isActive tx) (hdn : Canonical dn path) :
    read.reads tx dn = db.reads tx dn := by
  have hreader : read.Reader tx := .inl (hread.isActive tx ▸ hactive)
  rw [(h.reread hread).reads_eq_sees hreader hdn, h.reads_eq_sees (.inl hactive) hdn,
    sees_reread hread]

/-- A call of another transaction that keeps what the reader gets. -/
lemma sees_step (h : db.Synced) (trees : IndexTrees τ) (hc : c.Named) (hu : db.Reader u)
    (hother : c.writer ≠ some u) (hdn : Canonical dn path) (hkeeps : KeepsGet u dn db c) :
    (db.step trees c).sees u dn = db.sees u dn := by
  have heffect := step_effect trees h.sound.located c
  generalize db.step trees c = db' at heffect
  have hpos := hu.pos h.sound
  cases heffect with
  | begin => rfl
  | reread _ hread => exact sees_reread hread u dn
  | put hread hput =>
    obtain ⟨path', hpath'⟩ := hc
    refine h.sees_put hput hpath' hdn (fun heq => hother (congrArg some heq)) hpos fun heq => ?_
    subst heq
    rw [h.isSome_reads_put hread hput.pushed.active hpath']
    exact hkeeps rfl
  | delete _ hdelete =>
    obtain ⟨path', hpath'⟩ := hc
    refine h.sees_delete hdelete hpath' hdn (fun heq => hother (congrArg some heq)) fun heq => ?_
    subst heq
    rw [← h.reads_eq_sees hu hdn]
    exact hkeeps rfl
  | commit _ => exact sees_commit (fun heq => hother (congrArg some heq)) hkeeps
  | rollback => exact h.sound.sees_rollback (fun heq => hother (congrArg some heq)) dn

lemma run {trees : IndexTrees τ} {ok : ObaDB τ → Call → Prop} {calls : List Call}
    (h : db.Synced) (hrun : Runs trees ok db calls db') (hok : ∀ db c, ok db c → c.Named) :
    db'.Synced :=
  hrun.invariant Synced h fun _ _ _ hsynced hc hstep =>
    Option.some.inj hstep ▸ hsynced.step trees (hok _ _ hc)

end Synced

/-- The reader is 1. The person is created by 2 and then changed by 3. -/
def createdBesideReader : List Call := [.begin, .begin, putPerson 2 "1", .commit 2, .begin]

/-- Transaction 2 changes the person while transaction 3 runs. -/
def changedBesideReader : List Call :=
  [.begin, putPerson 1 "1", .commit 1, .begin, .begin]

/-- The entries that a reader finds at the paths of an index that a search selects. -/
def shown (sees : Bytes → Option Attributes) (selects : List Bytes → Bool)
    (paths : List (List Bytes × Nat)) : List Entry :=
  paths.filterMap fun p =>
    if selects p.1 then (sees (joinDNReverse p.1)).map (Entry.mk (joinDNReverse p.1)) else none

/-- A search returns what the reader sees at the DNs. -/
lemma Synced.search_eq (h : db.Synced) (hu : db.Reader u) {dns : List Bytes}
    (hdns : ∀ dn ∈ dns, ∃ path, Canonical dn path) :
    (db.search u dns).1 = dns.filterMap fun dn => (db.sees u dn).map (Entry.mk dn) := by
  induction dns generalizing db with
  | nil => rfl
  | cons dn rest ih =>
    obtain ⟨path, hpath⟩ := hdns dn mem_cons_self
    have hread := db.reread_visible u dn
    have hsees := h.reads_eq_sees hu hpath
    have hreader : (db.visible u dn).2.Reader u := by
      exact hu
    have hrest := ih (h.reread hread) hreader fun d hd => hdns d (mem_cons_of_mem dn hd)
    simp only [sees_reread hread] at hrest
    unfold reads at hsees
    rw [search, filterMap_cons, ← hsees]
    cases hvisible : db.visible u dn with | mk result read =>
    rw [hvisible] at hrest
    cases result with
    | ok v => exact congrArg (Entry.mk dn v.data :: ·) hrest
    | error err => exact hrest

lemma Synced.search_paths (h : db.Synced) (hu : db.Reader u) (selects : List Bytes → Bool) :
    (db.search u ((db.radix.paths.filter (selects ·.1)).map fun p => joinDNReverse p.1)).1 =
      shown (db.sees u) selects db.radix.paths := by
  rw [h.search_eq hu, filterMap_map, filterMap_filter]
  · rfl
  · intro dn hdn
    obtain ⟨p, hp, rfl⟩ := mem_map.mp hdn
    exact ⟨p.1, h.paths p (mem_of_mem_filter hp)⟩

lemma shown_erase {content : Bytes → Option Attributes} (hdn : Canonical dn path)
    (hnone : content dn = none) (selects : List Bytes → Bool) (paths : List (List Bytes × Nat)) :
    shown content selects (paths.filter (·.1 ≠ path)) = shown content selects paths := by
  unfold shown
  rw [filterMap_filter]
  refine filterMap_congr fun p _ => ?_
  by_cases hp : p.1 = path
  · rw [hp, hdn.joined, hnone]
    simp
  · rw [if_pos (decide_eq_true hp)]

/-- The first reader reads in the first database what the second one reads in the second. -/
structure SameReads (db db' : ObaDB τ) (u u' : Nat) : Prop where
  sees : ∀ dn path, Canonical dn path → db'.sees u' dn = db.sees u dn
  base : ∀ dn path, Canonical dn path → (db.sees u dn).isSome →
    (db'.radix.lookupPath path).isSome = (db.radix.lookupPath path).isSome
  results : ∀ selects, shown (db'.sees u') selects db'.radix.paths =
    shown (db.sees u) selects db.radix.paths

namespace SameReads

variable {db'' : ObaDB τ} {u' u'' : Nat}

lemma refl (db : ObaDB τ) (u : Nat) : SameReads db db u u :=
  ⟨fun _ _ _ => rfl, fun _ _ _ _ => rfl, fun _ => rfl⟩

lemma trans (h : SameReads db db' u u') (h' : SameReads db' db'' u' u'') :
    SameReads db db'' u u'' where
  sees := fun dn path hdn => (h'.sees dn path hdn).trans (h.sees dn path hdn)
  base := fun dn path hdn hsome =>
    (h'.base dn path hdn (h.sees dn path hdn ▸ hsome)).trans (h.base dn path hdn hsome)
  results := fun selects => (h'.results selects).trans (h.results selects)

section

variable (hpaths : ∀ p ∈ db.radix.paths, Canonical (joinDNReverse p.1) p.1)
include hpaths

/-- The index is the same. -/
lemma of_radix (hradix : db'.radix = db.radix)
    (hsees : ∀ dn path, Canonical dn path → db'.sees u' dn = db.sees u dn) :
    SameReads db db' u u' where
  sees := hsees
  base := fun _ _ _ _ => by rw [hradix]
  results := fun selects => by
    rw [hradix]
    exact filterMap_congr fun p hp => by rw [hsees _ _ (hpaths p hp)]

/-- The indexes differ at one path only, at which the reader reads nothing. -/
lemma of_erase (hradix : db'.radix.paths.filter (·.1 ≠ path) = db.radix.paths.filter (·.1 ≠ path))
    (hdn : Canonical dn path) (hnone : db.sees u dn = none)
    (hsees : ∀ dn path, Canonical dn path → db'.sees u dn = db.sees u dn) :
    SameReads db db' u u where
  sees := hsees
  base := fun d q hd hsome => by
    have hq : q ≠ path := by
      rintro rfl
      rw [← hd.joined, hdn.joined, hnone] at hsome
      cases hsome
    rw [lookupPath_eq_of_erase hradix hq]
  results := fun selects => by
    rw [← shown_erase hdn ((hsees dn path hdn).trans hnone), hradix,
      shown_erase hdn ((hsees dn path hdn).trans hnone)]
    exact filterMap_congr fun p hp => by rw [hsees _ _ (hpaths p hp)]

end

/-! The results of the calls. -/

variable (hsynced : db.Synced) (hsynced' : db'.Synced) (hu : db.Reader u) (hu' : db'.Reader u')

include hsynced hsynced' hu hu'

section

variable (h : SameReads db db' u u')
include h

lemma get (hdn : Canonical (normalizeDN dn) path) : (db'.get u' dn).1 = (db.get u dn).1 := by
  have hne : dn ≠ [] := by
    rintro rfl
    exact hdn.ne_nil rfl
  rw [get_eq _ u' hne, get_eq _ u hne, hsynced'.reads_eq_sees hu' hdn, hsynced.reads_eq_sees hu hdn,
    h.sees _ _ hdn]

lemma search_paths (selects : List Bytes → Bool) :
    (db'.search u' ((db'.radix.paths.filter (selects ·.1)).map fun p => joinDNReverse p.1)).1 =
      (db.search u ((db.radix.paths.filter (selects ·.1)).map fun p => joinDNReverse p.1)).1 := by
  rw [hsynced'.search_paths hu', hsynced.search_paths hu, h.results]

lemma search_base (hdn : Canonical dn path) :
    (db'.search u' (if (db'.radix.lookupPath path).isSome then [dn] else [])).1 =
      (db.search u (if (db.radix.lookupPath path).isSome then [dn] else [])).1 := by
  have hlist : ∀ (db : ObaDB τ) (u : Nat), db.Synced → db.Reader u →
      (db.search u (if (db.radix.lookupPath path).isSome then [dn] else [])).1 =
        if (db.radix.lookupPath path).isSome then
          ((db.sees u dn).map (Entry.mk dn)).toList else [] := by
    intro db u hsynced hu
    split
    · rw [hsynced.search_eq hu fun d hd => ⟨path, mem_singleton.mp hd ▸ hdn⟩]
      cases hsees : db.sees u dn <;> simp [hsees]
    · rfl
  rw [hlist db' u' hsynced' hu', hlist db u hsynced hu, h.sees dn path hdn]
  cases hsees : db.sees u dn with
  | none => simp
  | some attributes => rw [h.base dn path hdn (by rw [hsees]; rfl)]

lemma searchByDN {baseDN : Bytes} {scope : Scope}
    (hbase : scope = .base → ∃ path, Canonical (normalizeDN baseDN) path) :
    (db'.searchByDN u' baseDN scope).1 = (db.searchByDN u baseDN scope).1 := by
  unfold ObaDB.searchByDN RadixTree.iterator RadixTree.iterate
  split
  · have hall := h.search_paths hsynced hsynced' hu hu' fun _ => true
    rw [filter_true, filter_true] at hall
    exact congrArg Except.ok hall
  · cases hparse : parseDN (normalizeDN baseDN) with
    | error err => rfl
    | ok path =>
      cases scope with
      | base =>
        obtain ⟨path', hdn⟩ := hbase rfl
        cases hdn.parsed.symm.trans hparse
        exact congrArg Except.ok (h.search_base hsynced hsynced' hu hu' hdn)
      | oneLevel =>
        exact congrArg Except.ok (h.search_paths hsynced hsynced' hu hu' (RadixTree.childOf path))
      | subtree =>
        exact congrArg Except.ok (h.search_paths hsynced hsynced' hu hu' path.isPrefixOf)

lemma searchByFilter (baseDN : Bytes) (accepts : Entry → Bool) :
    (db'.searchByFilter u' baseDN accepts).1 = (db.searchByFilter u baseDN accepts).1 := by
  unfold ObaDB.searchByFilter RadixTree.iterator
  cases hparse : parseDN (normalizeDN baseDN) with
  | error err => rfl
  | ok path =>
    have hsubtree := h.search_paths hsynced hsynced' hu hu' path.isPrefixOf
    exact congrArg (fun entries => Except.ok (entries.filter accepts)) hsubtree

end

end SameReads

/-! ## No dirty reads -/

/-- The call does not commit, and the reader cannot tell that it has been made. -/
def Unseen (u : Nat) (db : ObaDB τ) : Call → Prop
  | .put tx orders entry =>
    (db.reads tx (normalizeDN entry.dn)).isSome ∨
      (db.radix.lookup (normalizeDN entry.dn)).isSome ∨
      match db.chained u (normalizeDN entry.dn) with
      | some v => v.deleted = true
      | none => written orders ⟨normalizeDN entry.dn, entry.attributes⟩ = none
  | .delete _ _ dn => db.reads u (normalizeDN dn) = none
  | .commit _ => False
  | _ => True

lemma Unseen.keepsGet (h : Unseen u db c) (dn : Bytes) : KeepsGet u dn db c := by
  cases c with
  | put tx orders entry =>
    rintro rfl
    rcases h with hseen | hlisted | hchained
    · exact .inl hseen
    · exact .inr (.inl hlisted)
    · refine .inr (.inr ?_)
      cases hv : db.chained u (normalizeDN entry.dn) with
      | some v => exact .inl rfl
      | none =>
        rw [hv] at hchained
        exact .inr hchained
  | delete tx orders d =>
    rintro rfl
    exact .inr h
  | commit tx => exact h.elim
  | _ => trivial

/-- A call that the reader cannot tell changes none of its results. -/
lemma Synced.sameReads_step (h : db.Synced) (trees : IndexTrees τ) (hc : c.Named)
    (hu : db.Reader u) (hother : c.writer ≠ some u) (hunseen : Unseen u db c) :
    SameReads db (db.step trees c) u u := by
  have hsees : ∀ dn path, Canonical dn path → (db.step trees c).sees u dn = db.sees u dn :=
    fun dn path hdn => h.sees_step trees hc hu hother hdn (hunseen.keepsGet dn)
  have heffect := step_effect trees h.sound.located c
  generalize db.step trees c = db' at heffect hsees
  cases heffect with
  | begin | rollback => exact .of_radix h.paths rfl hsees
  | reread _ hread => exact .of_radix h.paths hread.radix hsees
  | @put tx orders entry read _ below hread hput =>
    obtain ⟨path, hdn⟩ := hc
    rcases hput.radix_cases with hsame | ⟨hseen, path', hpath', hnone, hnew⟩
    · exact .of_radix h.paths hsame hsees
    · cases hdn.parsed.symm.trans hpath'
      have hlookup : db.radix.lookup (normalizeDN entry.dn) = none := by
        rw [RadixTree.lookup, hdn.parsed]
        exact hnone
      rw [h.isSome_reads_put hread hput.pushed.active hdn] at hseen
      -- the entry is new; the reader sees a deletion, or nothing on the chain and the disk
      have hchained := (hunseen.resolve_left (by simp [hseen])).resolve_left (by simp [hlookup])
      refine .of_erase h.paths (by simp [hnew]) hdn ?_ hsees
      unfold ObaDB.sees
      unfold chained at hchained
      cases hv : (db.store.versions (normalizeDN entry.dn)).find? (·.isVisibleTo u u) with
      | some v =>
        rw [hv] at hchained
        exact if_pos hchained
      | none =>
        rw [diskLoader, hlookup]
        rfl
  | @delete _ _ dn _ _ hdelete =>
    obtain ⟨path, hdn⟩ := hc
    rcases hdelete.radix_cases with ⟨hsame, -⟩ | ⟨path', hpath', hfilter⟩
    · exact .of_radix h.paths hsame hsees
    · cases hdn.parsed.symm.trans hpath'
      exact .of_erase h.paths (by simp [hfilter]) hdn ((h.reads_eq_sees hu hdn).symm.trans hunseen)
        hsees
  | commit _ => exact hunseen.elim

/-- Every transaction but `u` that writes among the calls has its commit among them. -/
def Settles (trees : IndexTrees τ) (u : Nat) (start : ObaDB τ) (calls : List Call) : Prop :=
  ∀ tx dn, tx ≠ u → ((engine trees).lastWrite tx dn start calls).isSome →
    ∃ before after, calls = before ++ .commit tx :: after ∧
      (((engine trees).exec start before).commit tx).1 = .ok ()

/-- Then only `u` has uncommitted versions. -/
lemma Settles.own {trees : IndexTrees τ} {start : ObaDB τ} {calls : List Call} {v : Version}
    (h : Settles trees u start calls) (hopened : start.Opened)
    (hv : v ∈ ((engine trees).exec start calls).store.versions dn) (hzero : v.commitTS = 0) :
    v.txID = u := by
  by_contra hne
  obtain ⟨before, after, rfl, hok⟩ :=
    h v.txID dn hne (Machine.isSome_lastWrite hopened hv hzero)
  have hsound := (engine trees).sound_exec hopened.sound before
  have hactive := (((engine trees).sound_exec hopened.sound _).pending dn v hv hzero).1
  rw [Machine.exec_append] at hactive
  -- the transaction has ended with its commit
  have hstill : (((engine trees).exec start before).commit v.txID).2.isActive v.txID :=
    Machine.isActive_exec (hsound.step trees (.commit v.txID))
      ((hsound.active _ (commit_ok_isActive hok)).2.trans_le
        ((engine trees).moves (.commit v.txID) hsound).clock.2) hactive
  obtain ⟨active, hcommit, ⟨-, rfl⟩ | ⟨herror, -⟩⟩ :=
    ((engine trees).exec start before).commit_eq v.txID
  · rw [hcommit] at hstill
    exact ((isActive_filter _ _ _).mp hstill).2 rfl
  · exact herror hok

/-- The person is there before the reader 2 and the writer 3 begin. -/
def committedPerson : List Call := [.begin, putPerson 1 "1", .commit 1, .begin, .begin]

end ObaDB

end Oba.Storage
