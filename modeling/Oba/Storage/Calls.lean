import Oba.Library.Execution
import Oba.Storage.Contents

/-! # Interleaved transactions

A run is a sequence of calls of any transactions, each of which takes effect at once. Searches
run to their end in one call. The invariant of all runs ties the uncommitted versions to the
writer of their DN: they are on top of the chain, and the writer is active.
-/

namespace Oba.Storage

open List Version VersionStore
open Function (update_of_ne update_self)

inductive Call
  | begin
  | get (tx : Nat) (dn : Bytes)
  | searchByDN (tx : Nat) (baseDN : Bytes) (scope : Scope)
  | searchByFilter (tx : Nat) (baseDN : Bytes) (accepts : Entry → Bool)
  | put (tx : Nat) (orders : Orders) (entry : Entry)
  | delete (tx : Nat) (orders : Orders) (dn : Bytes)
  | commit (tx : Nat)
  | rollback (tx : Nat)

/-- The call neither begins nor ends a transaction. -/
def Call.isAccess : Call → Bool
  | begin | commit _ | rollback _ => false
  | _ => true

/-- The transaction for which a call writes, or which it ends. -/
def Call.writer : Call → Option Nat
  | put tx _ _ | delete tx _ _ | commit tx | rollback tx => some tx
  | _ => none

/-- A put of the example entry. -/
def putPerson (tx : Nat) (value : String) : Call := .put tx (fun _ => .ascending) (person value)

/-- An uncommitted version after a commit is one of another transaction. -/
lemma Version.commit_pending {v : Version} {tx ts : Nat} (hts : ts ≠ 0)
    (h : (v.commit tx ts).commitTS = 0) :
    v.commitTS = 0 ∧ v.txID ≠ tx ∧ v.commit tx ts = v := by
  unfold commit at h ⊢
  split at h
  · exact absurd h hts
  next hpending =>
    refine ⟨h, fun htx => hpending (decide_eq_true ⟨htx, h⟩), ?_⟩
    rw [if_neg hpending]

lemma Version.commit_of_not_pending {v : Version} {tx : Nat} (h : v.pendingOf tx = false)
    (ts : Nat) : v.commit tx ts = v := by
  rw [commit, if_neg (by simp [h])]

lemma Version.live_commit (v : Version) (tx ts : Nat) : (v.commit tx ts).live = v.live := by
  unfold commit
  split <;> rfl

lemma Version.txID_commit (v : Version) (tx ts : Nat) : (v.commit tx ts).txID = v.txID := by
  unfold commit
  split <;> rfl

namespace ObaDB

variable {τ : Type} {db db' : ObaDB τ} {tx : Nat} {dn : Bytes} {below : List Version}

section Step

variable (trees : IndexTrees τ)

/-- The database after a call. -/
def step (db : ObaDB τ) : Call → ObaDB τ
  | .begin => db.begin.2
  | .get tx dn => (db.get tx dn).2
  | .searchByDN tx baseDN scope => (db.searchByDN tx baseDN scope).2
  | .searchByFilter tx baseDN accepts => (db.searchByFilter tx baseDN accepts).2
  | .put tx orders entry => (db.put trees orders tx entry).2
  | .delete tx orders dn => (db.delete trees orders tx dn).2
  | .commit tx => (db.commit tx).2
  | .rollback tx => db.rollback tx

/-- The runs all of whose calls satisfy a condition on the database before them. -/
abbrev Runs (ok : ObaDB τ → Call → Prop) (start : ObaDB τ) (calls : List Call)
    (final : ObaDB τ) : Prop :=
  Execution.Run (fun db c => some (db.step trees c)) ok start calls final

/-- The database after calls. -/
def exec (start : ObaDB τ) (calls : List Call) : ObaDB τ := calls.foldl (step trees) start

variable {trees}

lemma runs_exec {ok : Call → Prop} {calls : List Call} (h : ∀ c ∈ calls, ok c)
    (start : ObaDB τ) : Runs trees (fun _ c => ok c) start calls (start.exec trees calls) :=
  Execution.run_total_iff.mpr ⟨rfl, fun before c after hcalls => h c (by rw [hcalls]; simp)⟩

end Step

/-! ## What a call does -/

lemma reread_searchByDN (db : ObaDB τ) (tx : Nat) (baseDN : Bytes) (scope : Scope) :
    Reread db (db.searchByDN tx baseDN scope).2 := by
  unfold searchByDN
  split
  · exact db.reread_search ..
  · split
    · exact .refl db
    · exact db.reread_search ..

lemma reread_searchByFilter (db : ObaDB τ) (tx : Nat) (baseDN : Bytes)
    (accepts : Entry → Bool) : Reread db (db.searchByFilter tx baseDN accepts).2 := by
  unfold searchByFilter
  split
  · exact .refl db
  · exact db.reread_search ..

/-- All that a call can do. -/
inductive Effect (db : ObaDB τ) : Call → ObaDB τ → Prop
  | begin : Effect db .begin db.begin.2
  | reread {c : Call} {db' : ObaDB τ} (hcall : c.isAccess) (hread : Reread db db') : Effect db c db'
  | put {tx : Nat} {orders : Orders} {entry : Entry} {read db' : ObaDB τ} {below : List Version}
      (hread : Reread db read)
      (hput : PutEffect db db' orders tx ⟨normalizeDN entry.dn, entry.attributes⟩
        (read.reads tx (normalizeDN entry.dn)).isSome below) :
      Effect db (.put tx orders entry) db'
  | delete {tx : Nat} {orders : Orders} {dn : Bytes} {db' : ObaDB τ}
      (hseen : (db.reads tx (normalizeDN dn)).isSome)
      (hdelete : DeleteEffect db db' tx (normalizeDN dn)) : Effect db (.delete tx orders dn) db'
  | commit {tx : Nat} {active : List (Nat × List Nat)}
      (hactive : active = db.active ∨ active = db.active.filter (·.1 ≠ tx)) :
      Effect db (.commit tx) { db with
        currentTS := db.currentTS + 1, store := db.store.commitVersion tx (db.currentTS + 1)
        active := active }
  | rollback {tx : Nat} : Effect db (.rollback tx) (db.rollback tx)

lemma step_effect (trees : IndexTrees τ) (hlocated : db.Located) (c : Call) :
    Effect db c (db.step trees c) := by
  cases c with
  | begin => exact .begin
  | get tx dn => exact .reread rfl (db.reread_get tx dn)
  | searchByDN tx baseDN scope => exact .reread rfl (db.reread_searchByDN tx baseDN scope)
  | searchByFilter tx baseDN accepts =>
    exact .reread rfl (db.reread_searchByFilter tx baseDN accepts)
  | put tx orders entry =>
    rcases put_cases trees hlocated orders tx entry with
      ⟨_, _, hread⟩ | ⟨read, seen, below, hread, hseen, hput, -⟩
    · exact .reread rfl hread
    · rw [← isSome_reads, ← Bool.eq_iff_iff] at hseen
      exact .put hread (hseen ▸ hput)
  | delete tx orders dn =>
    rcases delete_cases trees db orders tx dn with ⟨_, _, _, _, hread⟩ | ⟨hseen, hdelete, -⟩
    · exact .reread rfl hread
    · exact .delete (isSome_reads.mpr hseen) hdelete
  | commit tx =>
    obtain ⟨active, hcommit, hactive⟩ := db.commit_eq tx
    rw [step, hcommit]
    exact .commit (hactive.elim (fun h => .inr h.2) fun h => .inl h.2)
  | rollback tx => exact .rollback

/-! ## The invariant of all runs -/

lemma isActive_addToWriteSet (db : ObaDB τ) (tx page other : Nat) :
    (db.addToWriteSet tx page).isActive other = db.isActive other := by
  have hkeys : (db.addToWriteSet tx page).active.map Prod.fst = db.active.map Prod.fst := by
    dsimp only [addToWriteSet]
    rw [map_map]
    refine map_congr_left fun t _ => ?_
    dsimp only [Function.comp]
    split <;> rfl
  unfold isActive
  rw [Bool.eq_iff_iff, AssocList.lookup_isSome_iff, AssocList.lookup_isSome_iff, hkeys]

lemma isActive_filter (active : List (Nat × List Nat)) (tx other : Nat) :
    ((active.filter (·.1 ≠ tx)).lookup other).isSome ↔
      (active.lookup other).isSome ∧ other ≠ tx := by
  by_cases h : other = tx <;> simp [h]

lemma isActive_begin : db.begin.2.isActive tx ↔ tx = db.nextTxID ∨ db.isActive tx := by
  unfold isActive ObaDB.begin
  rw [lookup_cons]
  by_cases heq : tx = db.nextTxID
  · simp [heq]
  · simp [beq_false_of_ne heq, heq]

lemma Pushed.isActive {v : Version} (hpushed : Pushed db db' dn v below) (tx : Nat) :
    db'.isActive tx = db.isActive tx := by
  rw [← db.isActive_addToWriteSet v.txID v.pageID tx, ObaDB.isActive, ObaDB.isActive,
    hpushed.actives]

structure Sound (db : ObaDB τ) : Prop where
  located : db.Located
  blank : ∀ page, db.nextPage ≤ page → db.pages page = none
  begun : 0 < db.nextTxID
  active : ∀ tx, db.isActive tx → 0 < tx ∧ tx < db.nextTxID
  pending : ∀ dn, ∀ v ∈ db.store.versions dn, v.commitTS = 0 →
    db.isActive v.txID ∧ db.store.activeWriters dn = some v.txID
  ordered : ∀ dn, (db.store.versions dn).Pairwise fun newer older =>
    older.commitTS = 0 → newer.commitTS = 0
  cached : ∀ dn v, db.store.cache.lookup dn = some v →
    v.txID < db.nextTxID ∧ (v.commitTS = 0 → db.store.versions dn ≠ [])

namespace Sound

section

variable (h : db.Sound)
include h

/-- A rollback takes the uncommitted versions of the transaction off the chain. -/
lemma rolledBack_eq (tx : Nat) (dn : Bytes) :
    db.store.rolledBack tx dn = (db.store.versions dn).filter fun v => !v.pendingOf tx := by
  have hordered := h.ordered dn
  have hwriter := h.pending dn
  unfold rolledBack
  generalize db.store.versions dn = chain at hordered hwriter ⊢
  induction chain with
  | nil => rfl
  | cons v rest ih =>
    obtain ⟨hnewer, hrest⟩ := pairwise_cons.mp hordered
    cases hpending : v.pendingOf tx with
    | true =>
      rw [dropWhile_cons_of_pos hpending, filter_cons_of_neg (by simp [hpending])]
      exact ih hrest fun w hw => hwriter w (mem_cons_of_mem v hw)
    | false =>
      rw [dropWhile_cons_of_neg (by simp [hpending]),
        filter_cons_of_pos (by simp [hpending]), filter_eq_self.mpr]
      -- an uncommitted version below would have the same writer
      intro w hw
      rw [Bool.not_eq_true']
      by_contra hw'
      obtain ⟨htx, hzero⟩ := of_decide_eq_true (Bool.eq_true_of_not_eq_false hw')
      have hvzero := hnewer w hw hzero
      have hsame := (hwriter v mem_cons_self hvzero).2.symm.trans
        (hwriter w (mem_cons_of_mem v hw) hzero).2
      have hv : v.pendingOf tx = true :=
        decide_eq_true ⟨(Option.some.inj hsame).trans htx, hvzero⟩
      rw [hpending] at hv
      cases hv

lemma reread (hread : Reread db db') : db'.Sound := by
  have hcache := hread.recached.cache
  rw [hread.eq]
  refine { h with cached := fun dn v hv => ?_ }
  rcases hcache dn v hv with hold | hload
  · exact h.cached dn v hold
  · obtain ⟨htx, hts, -⟩ := diskLoader_version hload
    exact ⟨htx ▸ h.begun, by omega⟩

/-- A version on top of a chain of committed versions, or of versions of its own writer. -/
lemma pushed {v : Version} (hpushed : Pushed db db' dn v below) (hlocated : db'.Located)
    (hblank : ∀ page, db'.nextPage ≤ page → db'.pages page = none)
    (hbelow : below = db.store.versions dn ∨ ∀ w ∈ below, w.commitTS ≠ 0) : db'.Sound := by
  have hactive := hpushed.isActive
  refine ⟨hlocated, hblank, hpushed.nextTxID ▸ h.begun, fun tx htx => ?_, fun d w hw hzero => ?_,
    fun d => ?_, fun d w hw => ?_⟩
  · rw [hpushed.nextTxID]
    exact h.active tx (hactive tx ▸ htx)
  · rw [hactive, hpushed.activeWriters]
    rcases hpushed.mem_versions hw with ⟨rfl, rfl | hw⟩ | ⟨hd, hw⟩
    · rw [update_self]
      exact ⟨hpushed.active, rfl⟩
    · rw [update_self]
      rcases hbelow with rfl | hcommitted
      · obtain ⟨hwactive, hwriter⟩ := h.pending d w hw hzero
        exact ⟨hwactive, congrArg some (hpushed.free w.txID hwriter).symm⟩
      · exact absurd hzero (hcommitted w hw)
    · rw [update_of_ne hd]
      exact h.pending d w hw hzero
  · rw [hpushed.versions]
    by_cases hd : d = dn
    · subst hd
      rw [update_self, pairwise_cons]
      refine ⟨fun _ _ _ => hpushed.pending, ?_⟩
      rcases hbelow with rfl | hcommitted
      · exact h.ordered d
      · exact pairwise_of_forall_mem_list fun _ _ w hw hzero => absurd hzero (hcommitted w hw)
    · rw [update_of_ne hd]
      exact h.ordered d
  · rw [hpushed.nextTxID, hpushed.versions]
    rcases hpushed.lookup_cache hw with ⟨rfl, rfl⟩ | ⟨hd, hold | hload⟩
    · rw [update_self]
      exact ⟨(h.active _ hpushed.active).2, fun _ => cons_ne_nil _ _⟩
    · rw [update_of_ne hd]
      exact h.cached d w hold
    · obtain ⟨htx, hts, -⟩ := diskLoader_version hload
      exact ⟨htx ▸ h.begun, by omega⟩

/-- What a write finds without a chain is committed. -/
lemma foundBelow (hbelow : db.FoundBelow dn below) :
    below = db.store.versions dn ∨ ∀ w ∈ below, w.commitTS ≠ 0 := by
  rcases hbelow with ⟨-, hchain⟩ | ⟨hnil, ⟨v, hcached, rfl⟩ | hload⟩
  · exact .inl hchain
  · refine .inr fun w hw hzero => ?_
    rw [mem_singleton.mp hw] at hzero
    exact (h.cached dn v hcached).2 hzero hnil
  · refine .inr fun w hw hzero => ?_
    rw [hload] at hw
    obtain ⟨-, hts, -⟩ := diskLoader_version (Option.mem_toList.mp hw)
    omega

lemma put {orders : Orders} {entry : Entry} {seen : Bool}
    (hput : PutEffect db db' orders tx entry seen below) : db'.Sound := by
  refine h.pushed hput.pushed ?_ ?_ ?_
  · intro p hp
    rw [hput.nextPage]
    rcases hput.radix_cases with hsame | ⟨-, path, -, -, hnew⟩
    · exact Nat.lt_succ_of_lt (h.located p (hsame ▸ hp))
    · rw [hnew] at hp
      rcases mem_append.mp hp with hold | hlast
      · exact Nat.lt_succ_of_lt (h.located p hold)
      · rw [mem_singleton.mp hlast]
        exact lt_add_one _
  · intro page hpage
    rw [hput.nextPage] at hpage
    have hold := h.blank page (Nat.le_of_succ_le hpage)
    rw [hput.pages]
    split
    · rw [update_of_ne (Nat.ne_of_gt hpage), hold]
    · exact hold
  · exact h.foundBelow hput.below

lemma delete (hdelete : DeleteEffect db db' tx dn) : db'.Sound := by
  obtain ⟨page, hpushed⟩ := hdelete.pushed
  refine h.pushed hpushed ?_ ?_ (.inl rfl)
  · intro p hp
    rw [hdelete.nextPage]
    rcases hdelete.radix_cases with ⟨hsame, -⟩ | ⟨path, -, hfilter⟩
    · exact h.located p (hsame ▸ hp)
    · rw [hfilter] at hp
      exact h.located p (mem_of_mem_filter hp)
  · rw [hdelete.nextPage, hdelete.pages]
    exact h.blank

lemma begin : db.begin.2.Sound := by
  refine ⟨h.located, h.blank, Nat.succ_pos _, fun tx htx => ?_, fun dn v hv hzero => ?_, h.ordered,
    fun dn v hv => ?_⟩
  · rcases isActive_begin.mp htx with rfl | hold
    · exact ⟨h.begun, lt_add_one _⟩
    · exact (h.active tx hold).imp_right Nat.lt_succ_of_lt
  · exact (h.pending dn v hv hzero).imp_left fun hold => isActive_begin.mpr (.inr hold)
  · exact (h.cached dn v hv).imp_left Nat.lt_succ_of_lt

lemma commit {active : List (Nat × List Nat)}
    (hactive : active = db.active ∨ active = db.active.filter (·.1 ≠ tx)) :
    Sound (db.committing tx active) := by
  have hts : db.currentTS + 1 ≠ 0 := Nat.succ_ne_zero _
  have hstill : ∀ other, (active.lookup other).isSome → db.isActive other := by
    intro other hother
    rcases hactive with rfl | rfl
    · exact hother
    · exact ((isActive_filter db.active tx other).mp hother).1
  have hkept : ∀ other, db.isActive other → other ≠ tx → (active.lookup other).isSome := by
    intro other hother hne
    rcases hactive with rfl | rfl
    · exact hother
    · exact (isActive_filter db.active tx other).mpr ⟨hother, hne⟩
  refine ⟨h.located, h.blank, h.begun, fun other hother => h.active other (hstill other hother),
    fun dn v hv hzero => ?_, fun dn => ?_, fun dn v hv => ?_⟩
  · obtain ⟨w, hw, rfl⟩ := mem_map.mp hv
    obtain ⟨hwzero, hne, hsame⟩ := commit_pending hts hzero
    obtain ⟨hwactive, hwriter⟩ := h.pending dn w hw hwzero
    rw [txID_commit]
    refine ⟨hkept w.txID hwactive hne, ?_⟩
    dsimp only [commitVersion, release]
    rw [if_neg, hwriter]
    rintro ⟨-, hwriter'⟩
    exact hne (Option.some.inj (hwriter.symm.trans hwriter'))
  · refine pairwise_map.mpr
      ((h.ordered dn).imp_of_mem fun {newer older} hnewer holder hle hzero => ?_)
    obtain ⟨hozero, hne, -⟩ := commit_pending hts hzero
    -- both have the same writer
    have hnzero := hle hozero
    have hsame :=
      (h.pending dn newer hnewer hnzero).2.symm.trans (h.pending dn older holder hozero).2
    have hntx : newer.txID ≠ tx := Option.some.inj hsame ▸ hne
    have hpending : newer.pendingOf tx = false := decide_eq_false fun hp => hntx hp.1
    rw [commit_of_not_pending hpending]
    exact hnzero
  · rw [lookup_commitVersion] at hv
    obtain ⟨w, hw, hvw⟩ := Option.map_eq_some_iff.mp hv
    obtain ⟨hwtx, hwchain⟩ := h.cached dn w hw
    have hold : v.txID = w.txID ∧ (v.commitTS = 0 → w.commitTS = 0) := by
      subst hvw
      split
      · exact ⟨txID_commit .., fun hzero => (commit_pending hts hzero).1⟩
      · exact ⟨rfl, id⟩
    refine ⟨hold.1 ▸ hwtx, fun hzero hnil => hwchain (hold.2 hzero) ?_⟩
    exact map_eq_nil_iff.mp hnil

lemma rollback (tx : Nat) : (db.rollback tx).Sound := by
  have hchain : ∀ dn, (db.rollback tx).store.versions dn =
      (db.store.versions dn).filter fun v => !v.pendingOf tx := h.rolledBack_eq tx
  have hactive : ∀ other, (db.rollback tx).isActive other ↔ db.isActive other ∧ other ≠ tx :=
    isActive_filter db.active tx
  refine ⟨h.located, h.blank, h.begun,
    fun other hother => h.active other ((hactive other).mp hother).1,
    fun dn v hv hzero => ?_, fun dn => ?_, fun dn v hv => ?_⟩
  · rw [hchain] at hv
    obtain ⟨hmem, hkept⟩ := mem_filter.mp hv
    obtain ⟨hvactive, hwriter⟩ := h.pending dn v hmem hzero
    have hne : v.txID ≠ tx := fun htx => by
      rw [pendingOf, decide_eq_true ⟨htx, hzero⟩] at hkept
      cases hkept
    refine ⟨(hactive v.txID).mpr ⟨hvactive, hne⟩, ?_⟩
    dsimp only [ObaDB.rollback, rollbackVersion, release]
    rw [if_neg, hwriter]
    rintro ⟨-, hwriter'⟩
    exact hne (Option.some.inj (hwriter.symm.trans hwriter'))
  · rw [hchain]
    exact (h.ordered dn).filter _
  · obtain ⟨hkept, hcache⟩ := lookup_rollbackVersion.mp hv
    obtain ⟨hvtx, hvchain⟩ := h.cached dn v hcache
    exact ⟨hvtx, fun hzero => hkept.resolve_left (hvchain hzero)⟩

lemma effect {c : Call} (heffect : Effect db c db') : db'.Sound := by
  cases heffect with
  | begin => exact h.begin
  | reread _ hread => exact h.reread hread
  | put _ hput => exact h.put hput
  | delete _ hdelete => exact h.delete hdelete
  | commit hactive => exact h.commit hactive
  | rollback => exact h.rollback _

lemma step (trees : IndexTrees τ) (c : Call) : (db.step trees c).Sound :=
  h.effect (step_effect trees h.located c)

end

end Sound

/-- A database that has just been opened: a chain is empty or has one version, from the entry
cache. -/
structure Opened (db : ObaDB τ) : Prop where
  located : db.Located
  blank : ∀ page, db.nextPage ≤ page → db.pages page = none
  nextTxID : db.nextTxID = 1
  currentTS : db.currentTS = 0
  active : db.active = []
  cache : db.store.cache = []
  loaded : ∀ dn, ∀ v ∈ db.store.versions dn, db.store.versions dn = [v] ∧ v.commitTS = 1

lemma opened_new (trees : τ) : (new trees).Opened :=
  ⟨forall_mem_nil _, fun _ _ => rfl, rfl, rfl, rfl, rfl, fun _ _ hv => absurd hv not_mem_nil⟩

lemma Opened.sound (h : db.Opened) : db.Sound where
  located := h.located
  blank := h.blank
  begun := h.nextTxID ▸ Nat.zero_lt_one
  active := fun tx htx => by
    rw [isActive, h.active] at htx
    cases htx
  pending := fun dn v hv hzero => absurd hzero (by rw [(h.loaded dn v hv).2]; decide)
  ordered := fun dn => pairwise_of_forall_mem_list fun _ _ v hv hzero =>
    absurd hzero (by rw [(h.loaded dn v hv).2]; decide)
  cached := fun dn v hv => by
    rw [h.cache] at hv
    cases hv

end ObaDB

end Oba.Storage
