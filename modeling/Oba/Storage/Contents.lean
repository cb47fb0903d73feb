import Oba.Storage.Effects

/-! # The contents of a database with one writer

As long as transactions run one after the other and every DN is spelled in one way, the newest
versions of the chains are the contents of the database: a put or a delete changes them at its
DN, and everything else leaves them alone.
-/

namespace Oba.Storage

open List Version

open Function (update update_of_ne update_self)
open VersionStore (found getVisibleForTx)

/-- The DNs of the list that have the same components are equal. -/
def Spelled (dns : List Bytes) : Prop :=
  ∀ dn ∈ dns, ∀ dn' ∈ dns, ∀ path, parseDN dn = .ok path → parseDN dn' = .ok path → dn = dn'

def personDN : Bytes := ascii "cn=a,dc=x"

/-- An entry with one value. -/
def person (value : String) : Entry :=
  ⟨personDN, (∅ : Attributes).insert (ascii "cn") [ascii value]⟩

lemma canonical_personDN : Canonical personDN [ascii "dc=x", ascii "cn=a"] :=
  ⟨by decide +kernel, by decide +kernel, by decide⟩

namespace RadixTree

variable {tree tree' : RadixTree} {dn : Bytes} {path : List Bytes}

lemma isSome_lookupPath_delete (h : tree.delete dn = .ok tree') (hpath : parseDN dn = .ok path)
    (q : List Bytes) :
    (tree'.lookupPath q).isSome ↔ (tree.lookupPath q).isSome ∧ q ≠ path := by
  rw [delete, hpath] at h
  dsimp only at h
  split at h
  · cases h
    rw [lookupPath, lookupPath]
    by_cases hq : q = path <;> simp [hq]
  · cases h

end RadixTree

namespace ObaDB

variable {τ : Type} {db db' : ObaDB τ} {tx : Nat} {dns : List Bytes} {dn : Bytes}
  {content : Bytes → Option Attributes}

/-- The attributes that a transaction reads at a DN. -/
def reads (db : ObaDB τ) (tx : Nat) (dn : Bytes) : Option Attributes :=
  (db.visible tx dn).1.toOption.map Version.data

lemma found_toOption (v : Version) :
    (found v).toOption.map data = v.live := by
  unfold found live
  split <;> rfl

/-- A read gives the version on the chain, or else the cached one, or else the one on the disk. -/
lemma reads_eq (db : ObaDB τ) (tx : Nat) (dn : Bytes) :
    db.reads tx dn = match (db.store.versions dn).find? (·.isVisibleTo tx tx) with
      | some v => v.live
      | none => ((((db.store.cache.lookup dn).filter (·.isVisibleTo tx tx)).or
          ((db.diskLoader dn).filter (·.isVisibleTo tx tx))).bind live) := by
  dsimp only [reads, visible, getVisibleForTx]
  cases (db.store.versions dn).find? (·.isVisibleTo tx tx) with
  | some v => exact found_toOption v
  | none =>
    cases (db.store.cache.lookup dn).filter (·.isVisibleTo tx tx) with
    | some v => exact found_toOption v
    | none =>
      cases db.diskLoader dn with
      | none => rfl
      | some v =>
        by_cases hvisible : v.isVisibleTo tx tx = true
        · simpa [hvisible, Option.filter] using found_toOption v
        · simp [hvisible, Option.filter, Except.toOption]

lemma isSome_reads : (db.reads tx dn).isSome ↔ ∃ v, (db.visible tx dn).1 = .ok v := by
  unfold reads
  cases (db.visible tx dn).1 <;> simp [Except.toOption]

/-- The database with the versions of a transaction committed. -/
abbrev committing (db : ObaDB τ) (tx : Nat) (active : List (Nat × List Nat)) : ObaDB τ :=
  { db with
    currentTS := db.currentTS + 1, store := db.store.commitVersion tx (db.currentTS + 1)
    active := active }

/-- A commit that succeeds ends the transaction; one that fails has committed its versions
as well. -/
lemma commit_eq (db : ObaDB τ) (tx : Nat) :
    ∃ active, (db.commit tx).2 = db.committing tx active ∧
      ((db.commit tx).1 = .ok () ∧ active = db.active.filter (·.1 ≠ tx) ∨
        (db.commit tx).1 ≠ .ok () ∧ active = db.active) := by
  unfold commit
  dsimp only
  split
  · exact ⟨_, rfl, .inr ⟨by simp, rfl⟩⟩
  · split
    · exact ⟨_, rfl, .inr ⟨by simp, rfl⟩⟩
    · exact ⟨_, rfl, .inl ⟨rfl, rfl⟩⟩

/-- A search for one DN. -/
lemma search_singleton (db : ObaDB τ) (tx : Nat) (dn : Bytes) :
    (db.search tx [dn]).1 = ((db.reads tx dn).map (Entry.mk dn)).toList := by
  unfold search reads
  cases hvisible : db.visible tx dn with | mk result read =>
  cases result <;> rfl

/-- `Get` is a read at the normalised DN. -/
lemma get_eq (db : ObaDB τ) (tx : Nat) (hdn : dn ≠ []) :
    (db.get tx dn).1 = match db.reads tx (normalizeDN dn) with
      | some attributes => .ok ⟨normalizeDN dn, attributes⟩
      | none => .error .entryNotFound := by
  have herr : ∀ err, (db.visible tx (normalizeDN dn)).1 = .error err → err ≠ .conflict := by
    have hfound : ∀ v err, found v = .error err → err = .deleted := by
      intro v err hv
      unfold found at hv
      split at hv
      · exact (Except.error.inj hv).symm
      · cases hv
    intro err h hconflict
    subst hconflict
    dsimp only [visible, getVisibleForTx] at h
    split at h
    · cases hfound _ _ h
    · split at h
      · cases hfound _ _ h
      · split at h
        · cases h
        · split at h
          · cases hfound _ _ h
          · cases h
  rw [get, if_neg hdn, reads]
  cases hvisible : db.visible tx (normalizeDN dn) with | mk result read =>
  rw [hvisible] at herr
  cases result with
  | ok v => rfl
  | error err =>
    cases err with
    | conflict => exact absurd rfl (herr _ rfl)
    | notFound | deleted | aborted => rfl

/-- The newest versions are the contents. Only `tx` has uncommitted ones; all DNs with a chain
are among `dns`, and the index names the DNs with contents. -/
structure Holding (db : ObaDB τ) (tx : Nat) (dns : List Bytes)
    (content : Bytes → Option Attributes) : Prop where
  clock : db.currentTS < tx
  located : db.Located
  newest : ∀ dn v rest, db.store.versions dn = v :: rest →
    v.live = content dn ∧ (v.commitTS = 0 → v.txID = tx) ∧ v.commitTS ≤ db.currentTS
  absent : ∀ dn, db.store.versions dn = [] → content dn = none
  chained : ∀ dn, db.store.versions dn ≠ [] → dn ∈ dns
  parsed : ∀ dn, (content dn).isSome → ∃ path, parseDN dn = .ok path
  listed : ∀ path, (db.radix.lookupPath path).isSome ↔
    ∃ dn, parseDN dn = .ok path ∧ (content dn).isSome
  uncached : ∀ dn ∈ dns, db.store.versions dn = [] → db.store.cache.lookup dn = none

namespace Holding

section

variable (h : db.Holding tx dns content)
include h

lemma mem (hsome : (content dn).isSome) : dn ∈ dns := by
  refine h.chained dn fun hnil => ?_
  rw [h.absent dn hnil] at hsome
  cases hsome

section

variable (hspelled : Spelled dns)
include hspelled

/-- A DN without a chain is not on the disk. -/
lemma diskLoader_eq_none (hdn : dn ∈ dns) (hnil : db.store.versions dn = []) :
    db.diskLoader dn = none := by
  have hnone : db.radix.lookup dn = none := by
    unfold RadixTree.lookup
    split
    · rfl
    next path hpath =>
      by_contra hne
      obtain ⟨dn', hpath', hsome⟩ :=
        (h.listed path).mp (Option.isSome_iff_ne_none.mpr hne)
      obtain rfl := hspelled dn hdn dn' (h.mem hsome) path hpath hpath'
      rw [h.absent dn hnil] at hsome
      cases hsome
  rw [diskLoader, hnone]

lemma reads (hdn : dn ∈ dns) : db.reads tx dn = content dn := by
  rw [reads_eq]
  cases hchain : db.store.versions dn with
  | nil =>
    rw [h.uncached dn hdn hchain, h.diskLoader_eq_none hspelled hdn hchain, h.absent dn hchain]
    rfl
  | cons v rest =>
    obtain ⟨hlive, hown, hcommitted⟩ := h.newest dn v rest hchain
    have hclock := h.clock
    have hvisible : v.isVisibleTo tx tx = true := by
      unfold isVisibleTo
      split
      next hpending => exact decide_eq_true (hown hpending)
      · exact decide_eq_true (by omega)
    rw [find?_cons_of_pos (p := fun w : Version => w.isVisibleTo tx tx) hvisible]
    exact hlive

lemma reread (hread : Reread db db') : db'.Holding tx dns content := by
  have hcache := hread.recached.cache
  rw [hread.eq]
  refine { h with
    uncached := fun dn hdn hnil => Option.eq_none_iff_forall_ne_some.mpr fun v hv => ?_ }
  rcases hcache dn v hv with hold | hload
  · cases (h.uncached dn hdn hnil).symm.trans hold
  · cases (h.diskLoader_eq_none hspelled hdn hnil).symm.trans hload

/-- A write changes the contents at its DN, if the index agrees. -/
lemma pushed (hdn : dn ∈ dns) {v : Version} {below : List Version}
    (hpushed : Pushed db db' dn v below) (htx : v.txID = tx) (hlocated : db'.Located)
    (hparsed : v.live.isSome → ∃ path, parseDN dn = .ok path)
    (hlisted : ∀ path, (db'.radix.lookupPath path).isSome ↔ ∃ d, parseDN d = .ok path ∧
      (update content dn v.live d).isSome) :
    db'.Holding tx dns (update content dn v.live) where
  clock := hpushed.currentTS ▸ h.clock
  located := hlocated
  newest := by
    intro d w rest hchain
    rw [hpushed.versions] at hchain
    rw [hpushed.currentTS]
    by_cases hd : d = dn
    · subst hd
      rw [update_self] at hchain ⊢
      obtain ⟨rfl, -⟩ := cons.inj hchain
      exact ⟨rfl, fun _ => htx, hpushed.pending ▸ Nat.zero_le _⟩
    · rw [update_of_ne hd] at hchain ⊢
      exact h.newest d w rest hchain
  absent := by
    intro d hnil
    rw [hpushed.versions] at hnil
    by_cases hd : d = dn
    · rw [hd, update_self] at hnil
      cases hnil
    · rw [update_of_ne hd] at hnil ⊢
      exact h.absent d hnil
  chained := by
    intro d hne
    by_cases hd : d = dn
    · exact hd ▸ hdn
    · rw [hpushed.versions, update_of_ne hd] at hne
      exact h.chained d hne
  parsed := by
    intro d hsome
    by_cases hd : d = dn
    · subst hd
      rw [update_self] at hsome
      exact hparsed hsome
    · rw [update_of_ne hd] at hsome
      exact h.parsed d hsome
  listed := hlisted
  uncached := by
    intro d hmem hnil
    have hne : d ≠ dn := by
      rintro rfl
      rw [hpushed.versions, update_self] at hnil
      cases hnil
    rw [hpushed.versions, update_of_ne hne] at hnil
    rw [Option.eq_none_iff_forall_ne_some]
    intro w hw
    rcases hpushed.cache d w hne hw with hold | hload
    · cases (h.uncached d hmem hnil).symm.trans hold
    · cases (h.diskLoader_eq_none hspelled hmem hnil).symm.trans hload

omit hspelled in
/-- The index after a DN has got contents. -/
lemma listed_insert {page : Nat} (hpage : page < db'.nextPage)
    (hnext : db.nextPage ≤ db'.nextPage)
    (hinsert : db.insertDN (!(content dn).isSome) dn page = .ok db'.radix) (data : Attributes) :
    db'.Located ∧ (∃ path, parseDN dn = .ok path) ∧
      ∀ path, (db'.radix.lookupPath path).isSome ↔
        ∃ d, parseDN d = .ok path ∧ (update content dn (some data) d).isSome := by
  obtain ⟨path, hpath, hradix⟩ : ∃ path, parseDN dn = .ok path ∧
      db'.radix = if (db.radix.lookupPath path).isSome then db.radix
        else ⟨db.radix.paths ++ [(path, page)]⟩ := by
    cases hcontent : content dn with
    | some old =>
      -- the DN is in the index already
      have hsome : (content dn).isSome := by simp [hcontent]
      obtain ⟨path, hpath⟩ := h.parsed dn hsome
      rw [hcontent] at hinsert
      refine ⟨path, hpath, ?_⟩
      rw [if_pos ((h.listed path).mpr ⟨dn, hpath, hsome⟩)]
      exact (Except.ok.inj hinsert).symm
    | none =>
      rw [hcontent] at hinsert
      cases hpath : parseDN dn with
      | error err => cases (insertDN_invalid db hpath page).symm.trans hinsert
      | ok path =>
        exact ⟨path, rfl, Except.ok.inj (hinsert.symm.trans (insertDN_new db hpath page))⟩
  have hlookup : ∀ q, (db'.radix.lookupPath q).isSome ↔
      (db.radix.lookupPath q).isSome ∨ q = path := by
    intro q
    rw [hradix]
    split
    next hthere => exact (or_iff_left_of_imp fun hq => hq ▸ hthere).symm
    · simp only [RadixTree.lookupPath, AssocList.lookup_isSome_iff, map_append, mem_append,
        map_singleton, mem_singleton]
  refine ⟨fun p hp => ?_, ⟨path, hpath⟩, fun q => ?_⟩
  · rw [hradix] at hp
    split at hp
    · exact (h.located p hp).trans_le hnext
    · rcases mem_append.mp hp with hold | hnew
      · exact (h.located p hold).trans_le hnext
      · rw [mem_singleton.mp hnew]
        exact hpage
  · rw [hlookup, h.listed]
    constructor
    · rintro (⟨d, hd, hsome⟩ | rfl)
      · refine ⟨d, hd, ?_⟩
        by_cases hdn' : d = dn
        · rw [hdn', update_self]
          rfl
        · rwa [update_of_ne hdn']
      · exact ⟨dn, hpath, by rw [update_self]; rfl⟩
    · rintro ⟨d, hd, hsome⟩
      by_cases hdn' : d = dn
      · rw [hdn', hpath] at hd
        exact .inr (Except.ok.inj hd).symm
      · rw [update_of_ne hdn'] at hsome
        exact .inl ⟨d, hd, hsome⟩

/-- The index after a DN has lost its contents. -/
lemma listed_delete (hdn : dn ∈ dns) {radix : RadixTree} {path : List Bytes}
    (hpath : parseDN dn = .ok path) (hdelete : db.radix.delete dn = .ok radix) (q : List Bytes) :
    (radix.lookupPath q).isSome ↔ ∃ d, parseDN d = .ok q ∧ (update content dn none d).isSome := by
  rw [RadixTree.isSome_lookupPath_delete hdelete hpath, h.listed]
  constructor
  · rintro ⟨⟨d, hd, hsome⟩, hne⟩
    have hdn' : d ≠ dn := by
      rintro rfl
      exact hne (Except.ok.inj (hd.symm.trans hpath))
    exact ⟨d, hd, by rwa [update_of_ne hdn']⟩
  · rintro ⟨d, hd, hsome⟩
    have hdn' : d ≠ dn := by
      rintro rfl
      rw [update_self] at hsome
      cases hsome
    rw [update_of_ne hdn'] at hsome
    refine ⟨⟨d, hd, hsome⟩, ?_⟩
    rintro rfl
    exact hdn' (hspelled d (h.mem hsome) dn hdn q hd hpath)

end

end

section Calls

variable (trees : IndexTrees τ)

/-- A put that returns no error. -/
lemma put (h : db.Holding tx dns content) (hspelled : Spelled dns) {orders : Orders}
    {entry : Entry} (hdn : normalizeDN entry.dn ∈ dns)
    (hok : (db.put trees orders tx entry).1 = .ok ()) :
    (db.put trees orders tx entry).2.Holding tx dns (update content (normalizeDN entry.dn)
          (some (stored orders entry.normalized))) ∧
      (db.put trees orders tx entry).2.nextTxID = db.nextTxID := by
  rcases put_cases trees h.located orders tx entry with
    ⟨err, herr, -⟩ | ⟨read, seen, below, hread, hseen, heffect, hinsert⟩
  · cases herr.symm.trans hok
  · have hcontent : seen = (content (normalizeDN entry.dn)).isSome := by
      rw [Bool.eq_iff_iff, hseen, ← isSome_reads, (h.reread hspelled hread).reads hspelled hdn]
    have hinsert := hinsert hok
    rw [hcontent] at hinsert
    have hnext := heffect.nextPage
    obtain ⟨hlocated, hparsed, hlisted⟩ := h.listed_insert (by omega) (by omega) hinsert
      (stored orders entry.normalized)
    exact ⟨h.pushed hspelled hdn heffect.pushed rfl hlocated (fun _ => hparsed) hlisted,
      heffect.pushed.nextTxID⟩

/-- A delete that returns no error. -/
lemma delete (h : db.Holding tx dns content) (hspelled : Spelled dns) {orders : Orders}
    (hdn : normalizeDN dn ∈ dns) (hok : (db.delete trees orders tx dn).1 = .ok ()) :
    (db.delete trees orders tx dn).2.Holding tx dns
        (update content (normalizeDN dn) none) ∧
      (db.delete trees orders tx dn).2.nextTxID = db.nextTxID := by
  rcases delete_cases trees db orders tx dn with ⟨err, herr, -⟩ | ⟨hseen, heffect, -⟩
  · cases herr.symm.trans hok
  · rw [← isSome_reads, h.reads hspelled hdn] at hseen
    obtain ⟨path, hpath⟩ := h.parsed _ hseen
    have hpresent : (db.radix.lookupPath path).isSome := (h.listed path).mpr ⟨_, hpath, hseen⟩
    have hdelete : db.radix.delete (normalizeDN dn) =
        .ok (db.delete trees orders tx dn).2.radix := by
      rcases heffect.radix with hdelete | ⟨⟨err, herr⟩, -⟩
      · exact hdelete
      · simp [RadixTree.delete, hpath, hpresent] at herr
    have hlocated : (db.delete trees orders tx dn).2.Located := by
      intro p hp
      rw [RadixTree.delete, hpath] at hdelete
      simp only [hpresent, if_true, Except.ok.injEq] at hdelete
      rw [← hdelete] at hp
      rw [heffect.nextPage]
      exact h.located p (mem_of_mem_filter hp)
    obtain ⟨page, hpushed⟩ := heffect.pushed
    exact ⟨h.pushed hspelled hdn hpushed rfl hlocated (by simp [live])
      (h.listed_delete hspelled hdn hpath hdelete), hpushed.nextTxID⟩

end Calls

/-- A transaction that begins finds what the one before has left. -/
lemma begin (h : db.Holding db.nextTxID dns content) :
    db.begin.2.Holding db.begin.1 dns content := { h with }

/-- A commit leaves no uncommitted version on top. -/
lemma commit (h : db.Holding tx dns content) :
    (db.commit tx).2.Holding (tx + 1) dns content ∧
      (∀ dn v rest, (db.commit tx).2.store.versions dn = v :: rest → v.commitTS ≠ 0) ∧
      (db.commit tx).2.nextTxID = db.nextTxID := by
  obtain ⟨active, hcommit, -⟩ := db.commit_eq tx
  -- the newest version before and after
  have hchain : ∀ dn v rest, (db.commit tx).2.store.versions dn = v :: rest →
      ∃ w rest', db.store.versions dn = w :: rest' ∧ v = w.commit tx (db.currentTS + 1) := by
    intro dn v rest hv
    rw [hcommit] at hv
    obtain ⟨w, rest', hw, hvw, -⟩ := map_eq_cons_iff.mp hv
    exact ⟨w, rest', hw, hvw.symm⟩
  have hnil : ∀ dn, (db.commit tx).2.store.versions dn = [] ↔ db.store.versions dn = [] := by
    intro dn
    rw [hcommit]
    exact map_eq_nil_iff
  refine ⟨?_, fun dn v rest hv => ?_, by rw [hcommit]⟩
  · have hclock := h.clock
    refine ⟨by rw [hcommit]; exact Nat.succ_lt_succ hclock, ?_, fun dn v rest hv => ?_,
      fun dn hdn => h.absent dn ((hnil dn).mp hdn), fun dn hdn => ?_, h.parsed, ?_,
      fun dn hdn hchain => ?_⟩
    · rw [hcommit]
      exact h.located
    · obtain ⟨w, rest', hw, rfl⟩ := hchain dn v rest hv
      obtain ⟨hlive, hown, hle⟩ := h.newest dn w rest' hw
      rw [hcommit]
      unfold Version.commit
      split
      · exact ⟨hlive, by simp, le_rfl⟩
      next hpending =>
        refine ⟨hlive, fun hzero => absurd ?_ hpending, Nat.le_succ_of_le hle⟩
        simp [Version.pendingOf, hown hzero, hzero]
    · exact h.chained dn fun hempty => hdn ((hnil dn).mpr hempty)
    · rw [hcommit]
      exact h.listed
    · have hempty := (hnil dn).mp hchain
      rw [hcommit]
      exact (VersionStore.lookup_commitVersion _ _ _ dn).trans
        (by rw [h.uncached dn hdn hempty]; rfl)
  · obtain ⟨w, rest', hw, rfl⟩ := hchain dn v rest hv
    obtain ⟨-, hown, -⟩ := h.newest dn w rest' hw
    unfold Version.commit
    split
    · exact Nat.succ_ne_zero _
    next hpending =>
      intro hzero
      exact hpending (by simp [Version.pendingOf, hown hzero, hzero])

end Holding

end ObaDB

end Oba.Storage
