import Oba.Storage.LostUpdate

/-! # Commits that fail

A commit first dates the versions of its transaction and then writes a record to the log. If the
record cannot be written the commit returns an error, but the versions stay committed.
-/

namespace Oba.Storage

open List

/-- The call of the log that fails during a commit. -/
inductive LogFault
  | append
  | sync
  deriving DecidableEq, Repr

def LogFault.error : LogFault → EngineError
  | append => .walWriteFailed
  | sync => .walSyncFailed

namespace ObaDB

variable {τ : Type} (trees : IndexTrees τ)

/-- `Commit` with a log that may fail. A transaction without its record stays active. -/
def commitWith (fault : Option LogFault) (db : ObaDB τ) (tx : Nat) :
    Except EngineError Unit × ObaDB τ :=
  match fault with
  | none => db.commit tx
  | some fault =>
    match db.commit tx with
    | (.ok (), committed) => (.error fault.error, { committed with active := db.active })
    | failed => failed

/-- The database after a call during which the log may fail. -/
def stepWith (db : ObaDB τ) (c : Call × Option LogFault) : ObaDB τ :=
  match c.1 with
  | .commit tx => (db.commitWith c.2 tx).2
  | call => db.step trees call

/-- The pages that a transaction under way has written. -/
def writeSet (db : ObaDB τ) (tx : Nat) : List Nat := (db.active.lookup tx).getD []

variable {trees} {db start : ObaDB τ} {tx : Nat} {fault : Option LogFault}

/-- Whatever the log does, the versions are committed. -/
lemma commitWith_eq (fault : Option LogFault) (db : ObaDB τ) (tx : Nat) :
    ∃ active, (db.commitWith fault tx).2 = db.committing tx active ∧
      (active = db.active ∨ active = db.active.filter (·.1 ≠ tx)) := by
  obtain ⟨active, hcommit, hactive⟩ := db.commit_eq tx
  have hended := hactive.symm.imp And.right And.right
  cases fault with
  | none => exact ⟨active, hcommit, hended⟩
  | some fault =>
    unfold commitWith
    dsimp only
    split
    next committed heq =>
      rw [heq] at hcommit
      refine ⟨db.active, ?_, .inl rfl⟩
      dsimp only at hcommit ⊢
      rw [hcommit]
    · exact ⟨active, hcommit, hended⟩

lemma Sound.stepWith (h : db.Sound) (c : Call × Option LogFault) : (db.stepWith trees c).Sound := by
  unfold ObaDB.stepWith
  split
  next tx _ =>
    obtain ⟨active, hcommit, hactive⟩ := commitWith_eq c.2 db tx
    have hsound := h.commit hactive
    rw [← hcommit] at hsound
    exact hsound
  · exact h.step trees c.1

lemma moves_stepWith (h : db.Sound) (c : Call × Option LogFault) :
    Moves db (db.move trees c.1) (db.stepWith trees c) := by
  obtain ⟨call, fault⟩ := c
  cases call with
  | commit tx =>
    obtain ⟨active, hcommit, hactive⟩ := commitWith_eq fault db tx
    change Moves db (.commit tx) (db.commitWith fault tx).2
    rw [hcommit]
    exact .commit hactive
  | _ => exact moves_move h _

variable (trees) in
/-- The engine with a log that may fail during every commit. -/
def faulty : Machine τ (Call × Option LogFault) where
  step := stepWith trees
  move db c := db.move trees c.1
  committed c := c.1.committed
  sound c h := h.stepWith c
  moves c h := moves_stepWith h c
  committed_move db c := (engine trees).committed_move db c.1

/-- A later transaction gets what the writer has put or deleted at a DN. -/
def Shows (trees : IndexTrees τ) (start : ObaDB τ) (calls : List (Call × Option LogFault))
    (writer : Nat) (after : ObaDB τ) (reader : Nat) : Prop :=
  ∃ dn value, (faulty trees).lastWrite writer dn start calls = some value ∧
    after.reads reader dn = value

/-- A commit of a transaction under way succeeds if nobody else has written its pages. -/
lemma commit_ok_iff : (db.commit tx).1 = .ok () ↔ db.isActive tx ∧
    ∀ t ∈ db.active, t.1 ≠ tx → ∀ page ∈ t.2, page ∉ db.writeSet tx := by
  unfold commit isActive writeSet
  dsimp only
  cases hlookup : db.active.lookup tx with
  | none => simp
  | some pages =>
    dsimp only
    split
    next hshared =>
      obtain ⟨t, ht, hshared⟩ := any_eq_true.mp hshared
      obtain ⟨hne, hpages⟩ := of_decide_eq_true hshared
      obtain ⟨page, hpage, hmem⟩ := any_eq_true.mp hpages
      exact iff_of_false (by simp) fun h => h.2 t ht hne page hpage (of_decide_eq_true hmem)
    next hshared =>
      refine iff_of_true rfl ⟨rfl, fun t ht hne page hpage hmem => hshared ?_⟩
      refine any_eq_true.mpr ⟨t, ht, decide_eq_true ⟨hne, ?_⟩⟩
      exact any_eq_true.mpr ⟨page, hpage, decide_eq_true hmem⟩

/-- When a commit returns no error. -/
lemma commitWith_ok_iff : (db.commitWith fault tx).1 = .ok () ↔
    fault = none ∧ db.isActive tx ∧
      ∀ t ∈ db.active, t.1 ≠ tx → ∀ page ∈ t.2, page ∉ db.writeSet tx := by
  cases fault with
  | none =>
    rw [eq_self, true_and, ← commit_ok_iff]
    rfl
  | some fault =>
    unfold commitWith
    dsimp only
    split
    · simp
    next failed hfailed =>
      refine iff_of_false (fun hok => ?_) (by simp)
      exact hfailed _ (Prod.ext hok rfl)

/-- Transactions that only begin. -/
lemma exec_begins (db : ObaDB τ) (trees : IndexTrees τ) (n : Nat) :
    ((faulty trees).exec db (.replicate n (.begin, none))).store = db.store ∧
      ((faulty trees).exec db (.replicate n (.begin, none))).nextTxID = db.nextTxID + n := by
  induction n generalizing db with
  | zero => exact ⟨rfl, rfl⟩
  | succ n ih =>
    obtain ⟨hstore, hnext⟩ := ih db.begin.2
    exact ⟨hstore, hnext.trans (Nat.succ_add_eq_add_succ ..)⟩

/-- A version on top that a commit dates, with or without an error, is read by a transaction that
begins afterwards and late enough. -/
lemma reads_commitWith (trees : IndexTrees τ) {dn : Bytes} {v : Version} {below : List Version}
    (htop : db.store.versions dn = v :: below) (htx : v.txID = tx) (hzero : v.commitTS = 0)
    (fault : Option LogFault) :
    ∃ more reader, db.nextTxID ≤ reader ∧
      ((faulty trees).exec (db.commitWith fault tx).2 more).isActive reader ∧
      ((faulty trees).exec (db.commitWith fault tx).2 more).reads reader dn = v.live := by
  obtain ⟨active, hcommit, -⟩ := commitWith_eq fault db tx
  generalize (db.commitWith fault tx).2 = committed at hcommit ⊢
  have hnext : committed.nextTxID = db.nextTxID := by rw [hcommit]
  have hdated : committed.store.versions dn = { v with commitTS := db.currentTS + 1 } ::
      below.map (Version.commit tx (db.currentTS + 1)) := by
    have hpending : v.pendingOf tx = true := decide_eq_true ⟨htx, hzero⟩
    rw [hcommit]
    dsimp only [VersionStore.commitVersion]
    rw [htop, map_cons, Version.commit, if_pos hpending]
  -- one that begins after enough others has an identifier that reaches the clock
  have hbegins := committed.exec_begins trees (db.currentTS + 1)
  rw [hnext] at hbegins
  generalize hothers : (faulty trees).exec committed
    (.replicate (db.currentTS + 1) (.begin, none)) = others at hbegins
  obtain ⟨hstore, hids⟩ := hbegins
  have hexec : (faulty trees).exec committed
      (.replicate (db.currentTS + 1) (.begin, none) ++ [(.begin, none)]) = others.begin.2 := by
    rw [Machine.exec_snoc, hothers]
    rfl
  refine ⟨.replicate (db.currentTS + 1) (.begin, none) ++ [(.begin, none)], others.nextTxID,
    hids ▸ Nat.le_add_right _ _, ?_, ?_⟩
  · rw [hexec]
    exact isActive_begin.mpr (.inl rfl)
  · have hvisible : db.currentTS + 1 ≤ others.nextTxID := hids ▸ Nat.le_add_left _ _
    have hstore' : others.begin.2.store = committed.store := hstore
    rw [hexec, reads_eq, hstore', hdated, find?_cons, Version.isVisibleTo,
      if_neg (Nat.succ_ne_zero _), decide_eq_true hvisible]
    rfl

/-- A first commit of a transaction under way that returns an error leaves nothing of its
transaction to those that begin later, exactly if the log does not fail and nobody else has
written a page of the transaction, or if the transaction has written nothing. -/
theorem commit_all_or_nothing (hopened : start.Opened) (calls : List (Call × Option LogFault))
    (fault : Option LogFault) (tx : Nat) (hdb : (faulty trees).exec start calls = db)
    (hactive : db.isActive tx) (hfirst : tx ∉ (faulty trees).commits calls) :
    ((db.commitWith fault tx).1 ≠ .ok () → ∀ more reader, db.nextTxID ≤ reader →
        ((faulty trees).exec (db.commitWith fault tx).2 more).isActive reader →
        ¬ Shows trees start calls tx ((faulty trees).exec (db.commitWith fault tx).2 more)
          reader) ↔
      (fault = none ∧ ∀ t ∈ db.active, t.1 ≠ tx → ∀ page ∈ t.2, page ∉ db.writeSet tx) ∨
        ∀ dn, (faulty trees).lastWrite tx dn start calls = none := by
  constructor
  · intro hall
    by_cases hwritten : ∀ dn, (faulty trees).lastWrite tx dn start calls = none
    · exact .inr hwritten
    · left
      push Not at hwritten
      obtain ⟨dn, hwritten⟩ := hwritten
      obtain ⟨value, hvalue⟩ := Option.ne_none_iff_exists'.mp hwritten
      by_cases hok : (db.commitWith fault tx).1 = .ok ()
      · exact (commitWith_ok_iff.mp hok).imp_right And.right
      · -- the last write is on top of its chain, and the commit has dated it
        subst hdb
        obtain ⟨v, below, htop, htx, hzero, hlive⟩ :=
          Machine.top_of_lastWrite hopened.sound hvalue hfirst hactive
        obtain ⟨more, reader, hlater, hreader, hreads⟩ :=
          reads_commitWith trees htop htx hzero fault
        exact absurd ⟨dn, value, hvalue, hreads.trans hlive⟩ (hall hok more reader hlater hreader)
  · rintro (⟨hfault, hfree⟩ | hnone) herror more reader - - ⟨dn, value, hvalue, -⟩
    · exact herror (commitWith_ok_iff.mpr ⟨hfault, hactive, hfree⟩)
    · cases (hnone dn).symm.trans hvalue

/-- A new person, not committed. -/
def newPerson : List (Call × Option LogFault) := [(.begin, none), (putPerson 1 "1", none)]

def uncommittedPerson : ObaDB Unit := (faulty .empty).exec (new ()) newPerson

/-- A transaction that has written commits without an error if the log works. If the log fails,
its person does not stay hidden. -/
theorem commit_all_or_nothing_newPerson :
    (uncommittedPerson.commitWith none 1).1 = .ok () ∧
      ∀ fault : LogFault, ¬ ((uncommittedPerson.commitWith (some fault) 1).1 ≠ .ok () →
        ∀ more reader, uncommittedPerson.nextTxID ≤ reader →
          ((faulty .empty).exec (uncommittedPerson.commitWith (some fault) 1).2 more).isActive
            reader →
          ¬ Shows .empty (new ()) newPerson 1
            ((faulty .empty).exec (uncommittedPerson.commitWith (some fault) 1).2 more)
              reader) := by
  have hwritten : ((faulty .empty).lastWrite 1 personDN (new ()) newPerson).isSome := by
    decide +kernel
  refine ⟨by decide +kernel, fun fault hall => ?_⟩
  have hcases := (commit_all_or_nothing (opened_new ()) newPerson (some fault) 1 rfl
    (by decide +kernel) (by decide)).mp hall
  rcases hcases with ⟨hnone, -⟩ | hnothing
  · cases hnone
  · rw [hnothing personDN] at hwritten
    cases hwritten

/-- The record of the commit is not written, and yet a later transaction finds the person. -/
theorem committed_despite_error : let failed := uncommittedPerson.commitWith (some .append) 1
    failed.1 = .error .walWriteFailed ∧ failed.2.begin.1 = 2 ∧
      (failed.2.begin.2.get 2 personDN).1.toOption.map (·.attributes.toList) =
        some (person "1").attributes.toList := by
  decide +kernel

end ObaDB

end Oba.Storage
