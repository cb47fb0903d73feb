import Mathlib.Data.List.Find
import Oba.Storage.Isolation

/-! # Rollback

A rollback takes the versions of the transaction off the chains. The DN index keeps what puts
have entered and deletes have taken out, and the disk loader finds what puts have written to
their pages. A transaction that leaves the index alone leaves no trace for later readers.
-/

namespace Oba.Storage

open List Option Version

/-- The call begins a transaction or reads. -/
def Call.isQuiet : Call → Bool
  | begin | get _ _ | searchByDN _ _ _ | searchByFilter _ _ _ => true
  | _ => false

lemma Version.commitTS_commit_le {v : Version} {ts : Nat} (h : v.commitTS ≤ max 1 ts)
    (tx : Nat) : (v.commit tx (ts + 1)).commitTS ≤ max 1 (ts + 1) := by
  unfold commit
  split
  · exact le_max_right ..
  · exact h.trans (max_le_max_left 1 (Nat.le_succ ts))

namespace ObaDB

variable {τ : Type} {db db' : ObaDB τ} {tx u : Nat} {dn : Bytes} {path : List Bytes}

/-! ## Timestamps -/

/-- No version is from the future. Versions that come from the disk have timestamp 1. -/
structure Dated (db : ObaDB τ) : Prop where
  chains : ∀ dn, ∀ v ∈ db.store.versions dn, v.commitTS ≤ max 1 db.currentTS
  cached : ∀ dn v, db.store.cache.lookup dn = some v → v.commitTS ≤ max 1 db.currentTS

namespace Dated

lemma loaded {v : Version} (h : db.diskLoader dn = some v) : v.commitTS ≤ max 1 db.currentTS :=
  (diskLoader_version h).2.1 ▸ le_max_left ..

lemma reread (h : db.Dated) (hread : Reread db db') : db'.Dated := by
  have hcache := hread.recached.cache
  rw [hread.eq]
  exact ⟨h.chains, fun dn v hv => (hcache dn v hv).elim (h.cached dn v) loaded⟩

lemma pushed (h : db.Dated) {v : Version} {below : List Version}
    (hpushed : Pushed db db' dn v below)
    (hbelow : below = db.store.versions dn ∨ db.FoundBelow dn below) : db'.Dated := by
  have hzero : v.commitTS ≤ max 1 db.currentTS := hpushed.pending ▸ Nat.zero_le _
  have hold : ∀ w ∈ below, w.commitTS ≤ max 1 db.currentTS := by
    rcases hbelow with rfl | ⟨-, rfl⟩ | ⟨-, ⟨w, hcached, rfl⟩ | rfl⟩
    · exact h.chains dn
    · exact h.chains dn
    · exact forall_mem_singleton.mpr (h.cached dn w hcached)
    · exact fun w hw => loaded (mem_toList.mp hw)
  refine ⟨fun d w hw => ?_, fun d w hw => ?_⟩
  · rw [hpushed.currentTS]
    rcases hpushed.mem_versions hw with ⟨-, rfl | hmem⟩ | ⟨-, hmem⟩
    · exact hzero
    · exact hold w hmem
    · exact h.chains d w hmem
  · rw [hpushed.currentTS]
    rcases hpushed.lookup_cache hw with ⟨-, rfl⟩ | ⟨-, hcache⟩
    · exact hzero
    · exact hcache.elim (h.cached d w) loaded

lemma commit (h : db.Dated) (tx : Nat) (active : List (Nat × List Nat)) :
    Dated (db.committing tx active) where
  chains := fun dn v hv => by
    obtain ⟨w, hw, rfl⟩ := mem_map.mp hv
    exact commitTS_commit_le (h.chains dn w hw) tx
  cached := fun dn v hv => by
    rw [VersionStore.lookup_commitVersion] at hv
    obtain ⟨w, hw, rfl⟩ := map_eq_some_iff.mp hv
    split
    · exact commitTS_commit_le (h.cached dn w hw) tx
    · exact (h.cached dn w hw).trans (max_le_max_left 1 (Nat.le_succ _))

lemma rollback (h : db.Dated) (tx : Nat) : (db.rollback tx).Dated where
  chains := fun dn v hv => h.chains dn v ((dropWhile_sublist _).subset hv)
  cached := fun dn v hv => by
    exact h.cached dn v (VersionStore.lookup_rollbackVersion.mp hv).2

lemma step (h : db.Dated) (hsound : db.Sound) (trees : IndexTrees τ) (c : Call) :
    (db.step trees c).Dated := by
  have heffect := step_effect trees hsound.located c
  generalize db.step trees c = db' at heffect
  cases heffect with
  | begin => exact ⟨h.chains, h.cached⟩
  | reread _ hread => exact h.reread hread
  | put _ hput => exact h.pushed hput.pushed (.inr hput.below)
  | delete _ hdelete =>
    obtain ⟨page, hpushed⟩ := hdelete.pushed
    exact h.pushed hpushed (.inl rfl)
  | commit _ => exact h.commit _ _
  | rollback => exact h.rollback _

end Dated

lemma Opened.dated (h : db.Opened) : db.Dated where
  chains := fun dn v hv => (h.loaded dn v hv).2 ▸ le_max_left ..
  cached := fun dn v hv => by
    rw [h.cache] at hv
    cases hv

/-- Transactions that begin after all commits see the same. -/
lemma Sound.sees_later (h : db.Sound) (hdated : db.Dated) {u u' : Nat}
    (hclock : db.currentTS < db.nextTxID) (hu : db.nextTxID ≤ u) (hu' : db.nextTxID ≤ u')
    (dn : Bytes) : db.sees u' dn = db.sees u dn := by
  have hvisible : ∀ v ∈ db.store.versions dn, v.isVisibleTo u' u' = v.isVisibleTo u u := by
    intro v hv
    by_cases hzero : v.commitTS = 0
    · have hlt := (h.active _ (h.pending dn v hv hzero).1).2
      rw [isVisibleTo_of_pending hzero (hlt.trans_le hu').ne,
        isVisibleTo_of_pending hzero (hlt.trans_le hu).ne]
    · have hle : v.commitTS ≤ db.nextTxID :=
        (hdated.chains dn v hv).trans (max_le h.begun hclock.le)
      rw [isVisibleTo, isVisibleTo, if_neg hzero, if_neg hzero,
        decide_eq_true (hle.trans hu'), decide_eq_true (hle.trans hu)]
  unfold sees
  rw [find?_congr hvisible]

/-! ## Calls that leave the index alone -/

/-- The call does not commit, and the DN index stays as it is: a put is of an entry that the
transaction finds or that the index has, and a delete of one that the index does not have. -/
def KeepsIndex (db : ObaDB τ) : Call → Prop
  | .put tx _ entry => (db.reads tx (normalizeDN entry.dn)).isSome ∨
    (db.radix.lookup (normalizeDN entry.dn)).isSome
  | .delete _ _ dn => db.radix.lookup (normalizeDN dn) = none
  | .commit _ => False
  | _ => True

namespace Synced

variable {c : Call}

lemma keepsGet (h : db.Synced) (hu : db.Reader u) (hkeeps : KeepsIndex db c)
    (hdn : Canonical dn path) : KeepsGet u dn db c := by
  cases c with
  | put tx orders entry =>
    rintro rfl
    exact hkeeps.imp_right .inl
  | delete tx orders d =>
    rintro rfl
    cases hchained : db.chained u (normalizeDN d) with
    | some v => exact .inl rfl
    | none =>
      refine .inr ?_
      unfold chained at hchained
      rw [h.reads_eq_sees hu hdn, sees, hchained, diskLoader, hkeeps]
      rfl
  | commit tx => exact hkeeps.elim
  | _ => trivial

/-- A call that keeps the index. -/
lemma radix_step (h : db.Synced) (trees : IndexTrees τ) (hc : c.Named)
    (hkeeps : KeepsIndex db c) : (db.step trees c).radix = db.radix := by
  have heffect := step_effect trees h.sound.located c
  generalize db.step trees c = db' at heffect
  cases heffect with
  | begin | rollback => rfl
  | reread _ hread => exact hread.radix
  | @put tx orders entry read _ below hread hput =>
    obtain ⟨path, hdn⟩ := hc
    rcases hput.radix_cases with hsame | ⟨hseen, path', hpath', hnone, -⟩
    · exact hsame
    · rw [h.isSome_reads_put hread hput.pushed.active hdn] at hseen
      have hlisted := hkeeps.resolve_left (by simp [hseen])
      rw [RadixTree.lookup, hpath'] at hlisted
      exact absurd hlisted (by simp [hnone])
  | @delete _ _ d _ _ hdelete =>
    rcases hdelete.radix_cases with ⟨hsame, -⟩ | ⟨path, hpath, hfilter⟩
    · exact hsame
    · -- there is no such path to take out
      have hnone : db.radix.lookup (normalizeDN d) = none := hkeeps
      rw [RadixTree.lookup, hpath] at hnone
      have hall : ∀ p ∈ db.radix.paths, p.1 ≠ path := by
        intro p hp heq
        have hsome : (db.radix.lookupPath path).isSome :=
          AssocList.lookup_isSome_iff.mpr (mem_map.mpr ⟨p, hp, heq⟩)
        exact absurd hsome (by simp [hnone])
      rw [hfilter, filter_eq_self.mpr fun p hp => decide_eq_true (hall p hp)]
  | commit _ => exact hkeeps.elim

/-- What holds after calls of others that leave the index alone. -/
lemma keepsIndex_run {trees : IndexTrees τ} {ok : ObaDB τ → Call → Prop} {calls : List Call}
    (h : db.Synced) (hu : db.Reader u) (hrun : Runs trees ok db calls db')
    (hok : ∀ state c, ok state c → c.Named ∧ c.writer ≠ some u ∧ KeepsIndex state c) :
    db'.Synced ∧ db'.Reader u ∧ db'.radix = db.radix ∧
      ∀ dn path, Canonical dn path → db'.sees u dn = db.sees u dn := by
  refine hrun.invariant (fun later => later.Synced ∧ later.Reader u ∧ later.radix = db.radix ∧
    ∀ dn path, Canonical dn path → later.sees u dn = db.sees u dn)
    ⟨h, hu, rfl, fun _ _ _ => rfl⟩ ?_
  rintro later c _ ⟨hlater, hreader, hradix, hsees⟩ hc hstep
  obtain ⟨hnamed, hother, hkeeps⟩ := hok later c hc
  cases hstep
  refine ⟨hlater.step trees hnamed, hreader.step hlater.sound.located trees hother,
    (hlater.radix_step trees hnamed hkeeps).trans hradix, fun dn path hdn => ?_⟩
  exact (hlater.sees_step trees hnamed hreader hother hdn
    (hlater.keepsGet hreader hkeeps hdn)).trans (hsees dn path hdn)

end Synced

lemma keepsIndex_of_isQuiet {c : Call} (h : c.isQuiet) (db : ObaDB τ) (u : Nat) :
    c.Named ∧ c.writer ≠ some u ∧ KeepsIndex db c := by
  cases c with
  | put _ _ _ | delete _ _ _ | commit _ | rollback _ => cases h
  | _ => exact ⟨trivial, by simp [Call.writer], trivial⟩

/-- A transaction begins, leaves the index alone and is rolled back. Later transactions read
what they would have read without it, as long as nothing is written after the rollback: the pages
that the transaction has filled stay filled, and later writes would land on others. -/
theorem rollback_invisible (trees : IndexTrees τ) {start db db' final never : ObaDB τ}
    (hopened : start.Opened)
    (hpaths : ∀ p ∈ start.radix.paths, Canonical (joinDNReverse p.1) p.1)
    {before during later later' : List Call}
    (hbefore : Runs trees (fun _ c => c.Named) start before db)
    (hclock : db.currentTS < db.nextTxID)
    (hduring : Runs trees (fun state c => c.Named ∧ c.isAccess ∧
      (∀ tx, c.writer = some tx → tx = db.nextTxID) ∧ KeepsIndex state c) db.begin.2 during db')
    (hlater : Runs trees (fun _ c => c.isQuiet) (db'.rollback db.nextTxID) later final)
    (hnever : Runs trees (fun _ c => c.isQuiet) db later' never)
    (u u' : Nat) (hu : db.nextTxID < u) (hu' : db.nextTxID ≤ u') :
    (∀ dn, (∃ path, Canonical (normalizeDN dn) path) →
        (final.get u dn).1 = (never.get u' dn).1) ∧
      (∀ dn, final.hasChildren dn = never.hasChildren dn) ∧
      (∀ baseDN scope, (scope = .base → ∃ path, Canonical (normalizeDN baseDN) path) →
        (final.searchByDN u baseDN scope).1 = (never.searchByDN u' baseDN scope).1) ∧
      ∀ baseDN accepts,
        (final.searchByFilter u baseDN accepts).1 = (never.searchByFilter u' baseDN accepts).1 := by
  have hsynced := (hopened.synced hpaths).run hbefore fun _ _ hc => hc
  have hdated : db.Dated := (hbefore.invariant (fun db => db.Sound ∧ db.Dated)
    ⟨hopened.sound, hopened.dated⟩ fun _ c _ hdb _ hstep => some.inj hstep ▸
      ⟨hdb.1.step trees c, hdb.2.step hdb.1 trees c⟩).2
  -- with the transaction
  have hne : ∀ c : Call, (∀ tx, c.writer = some tx → tx = db.nextTxID) → c.writer ≠ some u :=
    fun c hc heq => hu.ne' (hc u heq)
  obtain ⟨hsynced₁, hreader₁, hradix₁, hsees₁⟩ := hsynced.begin.keepsIndex_run (.inr hu) hduring
    fun _ c hc => ⟨hc.1, hne c hc.2.2.1, hc.2.2.2⟩
  have hrolled : (db'.rollback db.nextTxID).Reader u :=
    hreader₁.step hsynced₁.sound.located trees (c := .rollback db.nextTxID)
      (hne _ fun _ htx => (some.inj htx).symm)
  obtain ⟨hsynced₂, hreader₂, hradix₂, hsees₂⟩ :=
    (hsynced₁.rollback db.nextTxID).keepsIndex_run hrolled hlater
      fun state _ hc => keepsIndex_of_isQuiet hc state u
  -- without the transaction
  obtain ⟨hsynced₃, hreader₃, hradix₃, hsees₃⟩ := hsynced.keepsIndex_run (.inr hu') hnever
    fun state _ hc => keepsIndex_of_isQuiet hc state u'
  have hradix : final.radix = never.radix :=
    hradix₂.trans (hradix₁.trans hradix₃.symm)
  have hsame : SameReads never final u' u := by
    refine .of_radix hsynced₃.paths hradix fun dn path hdn => ?_
    calc final.sees u dn
      _ = (db'.rollback db.nextTxID).sees u dn := hsees₂ dn path hdn
      _ = db'.sees u dn := hsynced₁.sound.sees_rollback hu.ne dn
      _ = db.sees u dn := hsees₁ dn path hdn
      _ = db.sees u' dn := hsynced.sound.sees_later hdated hclock hu' hu.le dn
      _ = never.sees u' dn := (hsees₃ dn path hdn).symm
  refine ⟨?_, fun dn => ?_, fun baseDN scope hbase => ?_, fun baseDN accepts => ?_⟩
  · rintro dn ⟨path, hdn⟩
    exact hsame.get hsynced₃ hsynced₂ hreader₃ hreader₂ hdn
  · unfold hasChildren
    rw [hradix]
  · exact hsame.searchByDN hsynced₃ hsynced₂ hreader₃ hreader₂ hbase
  · exact hsame.searchByFilter hsynced₃ hsynced₂ hreader₃ hreader₂ baseDN accepts

/-- The person is created by transaction 1. -/
def createdPerson : List Call := [.begin, putPerson 1 "1", .commit 1]

/-- A change by transaction 2 is rolled back. -/
theorem rollback_invisible_change :
    (((new ()).exec .empty (createdPerson ++ [.begin, putPerson 2 "2", .rollback 2, .begin])).get 3
      personDN).1 = (((new ()).exec .empty (createdPerson ++ [.begin])).get 2 personDN).1 := by
  have hkeeps : KeepsIndex (((new ()).exec .empty createdPerson).begin.2) (putPerson 2 "2") :=
    .inl (by decide +kernel)
  have hwriter : ∀ tx, (putPerson 2 "2").writer = some tx → tx = 2 :=
    fun _ htx => (some.inj htx).symm
  have hbegin : Call.begin.isQuiet := rfl
  exact (rollback_invisible .empty (opened_new ()) (forall_mem_nil _)
    (runs_exec (by decide +kernel) (new ())) (by decide +kernel)
    (.snoc .nil ⟨by decide +kernel, rfl, hwriter, hkeeps⟩ rfl) (.snoc .nil hbegin rfl)
    (.snoc .nil hbegin rfl) 3 2 (by decide +kernel) (by decide +kernel)).1 personDN
    (by decide +kernel)

/-- A person that was created and rolled back is still read, and one whose deletion was rolled
back is no longer found. -/
theorem rollback_visible :
    (((new ()).exec .empty [.begin]).get 1 personDN).1 = .error .entryNotFound ∧
      (((new ()).exec .empty [.begin, putPerson 1 "1", .rollback 1, .begin]).get 2
        personDN).1.toOption.map (·.attributes.toList) = some (person "1").attributes.toList ∧
      (((new ()).exec .empty (createdPerson ++ [.begin])).searchByDN 2 [] .subtree
        ).1.toOption.map (List.map Entry.dn) = some [personDN] ∧
      (((new ()).exec .empty (createdPerson ++ [.begin, .delete 2 (fun _ => .ascending) personDN,
        .rollback 2, .begin])).searchByDN 3 [] .subtree).1.toOption.map (List.map Entry.dn) =
          some [] := by
  refine ⟨rfl, ?_, ?_, ?_⟩
  · decide +kernel
  · decide +kernel
  · decide +kernel

end ObaDB

end Oba.Storage
