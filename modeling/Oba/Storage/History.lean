import Mathlib.Order.Interval.Finset.Nat
import Oba.Storage.Calls

/-! # The history of a DN

The calls of the engine, with a log that works or fails, make a few moves on the chains, the
clock and the transactions. A transaction that has not ended keeps its uncommitted
versions, and a version that is committed never leaves its chain.
-/

namespace Oba.Storage

open List Version

variable {v : Version}

/-- What a call does to the versions and to the transactions. -/
inductive Move
  | quiet
  | begin
  | write (tx : Nat) (dn : Bytes) (value : Option Attributes)
  | commit (tx : Nat)
  | rollback (tx : Nat)

/-- The transaction whose commit is called. -/
def Move.committed : Move → Option Nat
  | commit tx => some tx
  | _ => none

/-- What a move of the transaction leaves at the DN. -/
def Move.valueAt (tx : Nat) (dn : Bytes) : Move → Option (Option Attributes)
  | write tx' dn' value => if tx' = tx ∧ dn' = dn then some value else none
  | _ => none

lemma Move.valueAt_eq_some {m : Move} {tx : Nat} {dn : Bytes} {value : Option Attributes} :
    m.valueAt tx dn = some value ↔ m = .write tx dn value := by
  cases m with
  | write tx' dn' value' =>
    unfold valueAt
    simp [and_assoc]
  | _ => simp [valueAt]

lemma Version.pendingOf_eq_false {tx : Nat} (h : v.txID = tx → v.commitTS ≠ 0) :
    v.pendingOf tx = false :=
  decide_eq_false fun hpending => h hpending.1 hpending.2

namespace ObaDB

variable {τ : Type} {db db' : ObaDB τ} {tx : Nat} {dn : Bytes} {m : Move} {below : List Version}

/-- The second database is the first one after the move. A commit dates the versions whether or
not it ends the transaction. -/
inductive Moves (db : ObaDB τ) : Move → ObaDB τ → Prop
  | quiet {db' : ObaDB τ} (hread : Reread db db') : Moves db .quiet db'
  | begin : Moves db .begin db.begin.2
  | write {db' : ObaDB τ} {dn : Bytes} {v : Version} {below : List Version}
      (hpushed : Pushed db db' dn v below)
      (hbelow : below = db.store.versions dn ∨ db.FoundBelow dn below) :
      Moves db (.write v.txID dn v.live) db'
  | commit {tx : Nat} {active : List (Nat × List Nat)}
      (hactive : active = db.active ∨ active = db.active.filter (·.1 ≠ tx)) :
      Moves db (.commit tx) (db.committing tx active)
  | rollback {tx : Nat} : Moves db (.rollback tx) (db.rollback tx)

/-- What a move can make of the chain of a DN. -/
inductive ChainStep (db : ObaDB τ) (m : Move) (dn : Bytes) : List Version → Prop
  | same (hquiet : ∀ tx, m.valueAt tx dn = none) : ChainStep db m dn (db.store.versions dn)
  | push {v : Version} {below : List Version} (hpending : v.commitTS = 0)
      (hactive : db.isActive v.txID)
      (hfree : ∀ other, db.store.activeWriters dn = some other → other = v.txID)
      (hmove : m = .write v.txID dn v.live)
      (hbelow : below = db.store.versions dn ∨ db.FoundBelow dn below) :
      ChainStep db m dn (v :: below)
  | commit {tx : Nat} (hmove : m = .commit tx) :
      ChainStep db m dn ((db.store.versions dn).map (Version.commit tx (db.currentTS + 1)))
  | rollback {tx : Nat} (hmove : m = .rollback tx) :
      ChainStep db m dn ((db.store.versions dn).filter fun v => !v.pendingOf tx)

/-- A version is put on the chain if there is one. -/
lemma below_eq (h : below = db.store.versions dn ∨ db.FoundBelow dn below)
    (hne : db.store.versions dn ≠ []) : below = db.store.versions dn :=
  h.elim id fun hfound => hfound.elim And.right fun hnil => absurd hnil.1 hne

lemma versions_commit (db : ObaDB τ) (tx : Nat) (dn : Bytes) :
    (db.commit tx).2.store.versions dn =
      (db.store.versions dn).map (Version.commit tx (db.currentTS + 1)) := by
  obtain ⟨active, hcommit, -⟩ := db.commit_eq tx
  rw [hcommit]
  rfl

/-- A commit of the transaction whose version is on top. -/
lemma versions_commit_cons (htop : db.store.versions dn = v :: below) (htx : v.txID = tx)
    (hzero : v.commitTS = 0) :
    (db.commit tx).2.store.versions dn = { v with commitTS := db.currentTS + 1 } ::
      below.map (Version.commit tx (db.currentTS + 1)) := by
  have hpending : v.pendingOf tx = true := decide_eq_true ⟨htx, hzero⟩
  rw [versions_commit, htop, map_cons, Version.commit, if_pos hpending]

lemma commit_ok_isActive (h : (db.commit tx).1 = .ok ()) : db.isActive tx := by
  unfold commit at h
  dsimp only at h
  unfold isActive
  cases hlookup : db.active.lookup tx with
  | none =>
    rw [hlookup] at h
    cases h
  | some writeSet => rfl

namespace Moves

lemma of_commit (db : ObaDB τ) (tx : Nat) : Moves db (.commit tx) (db.commit tx).2 := by
  obtain ⟨active, hcommit, hactive⟩ := db.commit_eq tx
  rw [hcommit]
  exact .commit (hactive.symm.imp And.right And.right)

/-- What a move has made of every chain. -/
lemma chainStep (hsound : db.Sound) (h : Moves db m db') (dn : Bytes) :
    ChainStep db m dn (db'.store.versions dn) := by
  cases h with
  | quiet hread =>
    rw [hread.recached.versions]
    exact .same fun _ => rfl
  | begin => exact .same fun _ => rfl
  | @write _ d v below hpushed hbelow =>
    rw [hpushed.versions]
    by_cases hdn : dn = d
    · subst hdn
      rw [Function.update_self]
      exact .push hpushed.pending hpushed.active hpushed.free rfl hbelow
    · rw [Function.update_of_ne hdn]
      exact .same fun _ => if_neg fun hsame => hdn hsame.2.symm
  | commit _ => exact .commit rfl
  | @rollback tx =>
    have hchain : (db.rollback tx).store.versions dn = _ := hsound.rolledBack_eq tx dn
    rw [hchain]
    exact .rollback rfl

lemma written {value : Option Attributes} (h : Moves db (.write tx dn value) db') :
    db.isActive tx ∧ ∃ v below, db'.store.versions dn = v :: below ∧ v.txID = tx ∧
      v.commitTS = 0 ∧ v.live = value := by
  cases h with
  | @write _ _ v below hpushed _ =>
    refine ⟨hpushed.active, v, below, ?_, rfl, hpushed.pending, rfl⟩
    rw [hpushed.versions, Function.update_self]

/-! ## Clock and identifiers -/

/-- Every call of a commit advances the clock, and only a begin takes an identifier. -/
lemma clock (h : Moves db m db') :
    db'.currentTS = db.currentTS + m.committed.toList.length ∧ db.nextTxID ≤ db'.nextTxID := by
  cases h with
  | quiet hread =>
    rw [hread.currentTS, hread.nextTxID]
    exact ⟨rfl, le_rfl⟩
  | begin => exact ⟨rfl, Nat.le_succ _⟩
  | write hpushed _ =>
    rw [hpushed.currentTS, hpushed.nextTxID]
    exact ⟨rfl, le_rfl⟩
  | commit _ | rollback => exact ⟨rfl, le_rfl⟩

/-- A transaction that has ended does not come back. -/
lemma isActive (h : Moves db m db') (hbegun : tx < db.nextTxID) (hactive : db'.isActive tx) :
    db.isActive tx ∧ m ≠ .rollback tx := by
  cases h with
  | quiet hread => exact ⟨hread.isActive tx ▸ hactive, by simp⟩
  | begin =>
    exact ⟨(isActive_begin.mp hactive).resolve_left hbegun.ne, by simp⟩
  | write hpushed _ => exact ⟨hpushed.isActive tx ▸ hactive, by simp⟩
  | @commit t _ hended =>
    refine ⟨?_, by simp⟩
    rcases hended with rfl | rfl
    · exact hactive
    · exact ((isActive_filter db.active t tx).mp hactive).1
  | @rollback t =>
    obtain ⟨hold, hne⟩ := (isActive_filter db.active t tx).mp hactive
    exact ⟨hold, fun heq => hne (Move.rollback.inj heq).symm⟩

/-! ## Versions that stay -/

/-- A committed version stays on its chain. -/
lemma committed (hsound : db.Sound) (h : Moves db m db') (hv : v ∈ db.store.versions dn)
    (hts : v.commitTS ≠ 0) : v ∈ db'.store.versions dn := by
  have hpending : ∀ t, v.pendingOf t = false := fun t => pendingOf_eq_false fun _ => hts
  have hchain := h.chainStep hsound dn
  generalize db'.store.versions dn = chain at hchain
  cases hchain with
  | same _ => exact hv
  | push _ _ _ _ hbelow =>
    rw [below_eq hbelow (ne_nil_of_mem hv)]
    exact mem_cons_of_mem _ hv
  | @commit t _ => exact mem_map.mpr ⟨v, hv, commit_of_not_pending (hpending t) _⟩
  | @rollback t _ => exact mem_filter.mpr ⟨hv, by rw [hpending t]; rfl⟩

/-- The version on top stays there until its transaction writes again or ends. -/
lemma top (hsound : db.Sound) (h : Moves db m db') (htop : db.store.versions dn = v :: below)
    (hzero : v.commitTS = 0) (hquiet : m.valueAt v.txID dn = none)
    (hcommit : m.committed ≠ some v.txID) (hactive : db'.isActive v.txID) :
    ∃ below', db'.store.versions dn = v :: below' := by
  have hmem : v ∈ db.store.versions dn := htop ▸ mem_cons_self
  obtain ⟨hvactive, hwriter⟩ := hsound.pending dn v hmem hzero
  have hrollback := (h.isActive (hsound.active _ hvactive).2 hactive).2
  have hchain := h.chainStep hsound dn
  generalize db'.store.versions dn = chain at hchain
  cases hchain with
  | same _ => exact ⟨below, htop⟩
  | @push w _ _ _ hfree hmove _ =>
    -- the DN belongs to the transaction, so it is the one that writes
    rw [← hfree v.txID hwriter] at hmove
    cases hquiet.symm.trans (Move.valueAt_eq_some.mpr hmove)
  | @commit t hmove =>
    have hpending : v.pendingOf t = false := pendingOf_eq_false fun htx _ =>
      hcommit (by rw [hmove, htx]; rfl)
    rw [htop, map_cons, commit_of_not_pending hpending]
    exact ⟨_, rfl⟩
  | @rollback t hmove =>
    have hpending : v.pendingOf t = false := pendingOf_eq_false fun htx _ =>
      hrollback (by rw [hmove, htx])
    rw [htop, filter_cons_of_pos (by rw [hpending]; rfl)]
    exact ⟨_, rfl⟩

end Moves

end ObaDB

/-! ## Runs -/

/-- A system whose calls move the database. -/
structure Machine (τ ι : Type) where
  step : ObaDB τ → ι → ObaDB τ
  move : ObaDB τ → ι → Move
  committed : ι → Option Nat
  sound : ∀ {db : ObaDB τ} (c : ι), db.Sound → (step db c).Sound
  moves : ∀ {db : ObaDB τ} (c : ι), db.Sound → db.Moves (move db c) (step db c)
  committed_move : ∀ (db : ObaDB τ) (c : ι), (move db c).committed = committed c

/-- Distinct identifiers that were given out are fewer than the next one. -/
lemma length_lt_of_ids {ids : List Nat} {next : Nat} (hnext : 0 < next) (hnodup : ids.Nodup)
    (hids : ∀ tx ∈ ids, 0 < tx ∧ tx < next) : ids.length < next := by
  have hsubset : ids.toFinset ⊆ Finset.Ioo 0 next := fun tx htx =>
    Finset.mem_Ioo.mpr (hids tx (mem_toFinset.mp htx))
  have hle := Finset.card_le_card hsubset
  rw [toFinset_card_of_nodup hnodup, Nat.card_Ioo] at hle
  omega

namespace Machine

variable {τ ι : Type} (m : Machine τ ι)

/-- The database after calls. -/
def exec (start : ObaDB τ) (calls : List ι) : ObaDB τ := calls.foldl m.step start

/-- The transactions whose commit is called, in the order of the calls. -/
def commits (calls : List ι) : List Nat := calls.filterMap m.committed

/-- The value of the last of the calls that write the DN for the transaction. -/
def lastWrite (tx : Nat) (dn : Bytes) (start : ObaDB τ) : List ι → Option (Option Attributes)
  | [] => none
  | c :: calls => (lastWrite tx dn (m.step start c) calls).or ((m.move start c).valueAt tx dn)

variable {start : ObaDB τ} {calls : List ι} {tx : Nat} {dn : Bytes}

lemma exec_append (start : ObaDB τ) (calls more : List ι) :
    m.exec start (calls ++ more) = m.exec (m.exec start calls) more :=
  foldl_append

lemma exec_snoc (start : ObaDB τ) (calls : List ι) (c : ι) :
    m.exec start (calls ++ [c]) = m.step (m.exec start calls) c :=
  m.exec_append start calls [c]

lemma sound_exec (h : start.Sound) (calls : List ι) : (m.exec start calls).Sound := by
  induction calls using reverseRecOn with
  | nil => exact h
  | append_singleton earlier c ih =>
    rw [m.exec_snoc]
    exact m.sound c ih

lemma clock_exec (h : start.Sound) (calls : List ι) :
    (m.exec start calls).currentTS = start.currentTS + (m.commits calls).length ∧
      start.nextTxID ≤ (m.exec start calls).nextTxID := by
  induction calls using reverseRecOn with
  | nil => exact ⟨rfl, le_rfl⟩
  | append_singleton earlier c ih =>
    obtain ⟨hclock, hids⟩ := ih
    have hstep := (m.moves c (m.sound_exec h earlier)).clock
    rw [m.committed_move] at hstep
    rw [m.exec_snoc]
    refine ⟨?_, hids.trans hstep.2⟩
    rw [hstep.1, hclock, add_assoc]
    cases hcommitted : m.committed c <;> simp [commits, hcommitted]

variable {m}

/-- A transaction that is active later on was active before. -/
lemma isActive_exec (h : start.Sound) (hbegun : tx < start.nextTxID)
    (hactive : (m.exec start calls).isActive tx) : start.isActive tx := by
  induction calls using reverseRecOn with
  | nil => exact hactive
  | append_singleton earlier c ih =>
    rw [m.exec_snoc] at hactive
    have hlt := hbegun.trans_le (m.clock_exec h earlier).2
    exact ih ((m.moves c (m.sound_exec h earlier)).isActive hlt hactive).1

/-- A version that is committed never leaves its chain. -/
lemma committed_exec (h : start.Sound) (hv : v ∈ start.store.versions dn) (hts : v.commitTS ≠ 0)
    (calls : List ι) : v ∈ (m.exec start calls).store.versions dn := by
  induction calls using reverseRecOn with
  | nil => exact hv
  | append_singleton earlier c ih =>
    have hsound := m.sound_exec h earlier
    rw [m.exec_snoc]
    exact (m.moves c hsound).committed hsound ih hts

lemma lastWrite_append (calls more : List ι) :
    m.lastWrite tx dn start (calls ++ more) =
      (m.lastWrite tx dn (m.exec start calls) more).or (m.lastWrite tx dn start calls) := by
  induction calls generalizing start with
  | nil => rw [lastWrite, Option.or_none]; rfl
  | cons c rest ih =>
    rw [cons_append, lastWrite, ih, Option.or_assoc]
    rfl

lemma lastWrite_snoc (calls : List ι) (c : ι) :
    m.lastWrite tx dn start (calls ++ [c]) =
      ((m.move (m.exec start calls) c).valueAt tx dn).or (m.lastWrite tx dn start calls) :=
  lastWrite_append calls [c]

/-- A write is one of the calls. -/
lemma exists_of_lastWrite {value : Option Attributes}
    (h : m.lastWrite tx dn start calls = some value) :
    ∃ before c after, calls = before ++ c :: after ∧
      m.move (m.exec start before) c = .write tx dn value := by
  induction calls generalizing start with
  | nil => cases h
  | cons c rest ih =>
    rw [lastWrite, Option.or_eq_some_iff] at h
    rcases h with hlater | ⟨-, hfirst⟩
    · obtain ⟨before, c', after, rfl, hmove⟩ := ih hlater
      exact ⟨c :: before, c', after, rfl, hmove⟩
    · exact ⟨[], c, rest, rfl, Move.valueAt_eq_some.mp hfirst⟩

section

variable {value : Option Attributes} (h : start.Sound)
  (hlast : m.lastWrite tx dn start calls = some value)
include h hlast

/-- Only a transaction that has begun writes. -/
lemma lt_of_lastWrite : tx < (m.exec start calls).nextTxID := by
  obtain ⟨before, c, after, rfl, hmove⟩ := exists_of_lastWrite hlast
  have hsound := m.sound_exec h before
  have hmoves := hmove ▸ m.moves c hsound
  rw [m.exec_append]
  exact (hsound.active tx hmoves.written.1).2.trans_le (m.clock_exec hsound (c :: after)).2

/-- The last write of a transaction that has not ended is on top. -/
lemma top_of_lastWrite (hcommit : tx ∉ m.commits calls)
    (hactive : (m.exec start calls).isActive tx) :
    ∃ v below, (m.exec start calls).store.versions dn = v :: below ∧ v.txID = tx ∧
      v.commitTS = 0 ∧ v.live = value := by
  induction calls using reverseRecOn with
  | nil => cases hlast
  | append_singleton earlier c ih =>
    have hsound := m.sound_exec h earlier
    have hmoves := m.moves c hsound
    rw [lastWrite_snoc, Option.or_eq_some_iff] at hlast
    rw [m.exec_snoc] at hactive ⊢
    rcases hlast with hwrite | ⟨hquiet, hearlier⟩
    · rw [Move.valueAt_eq_some.mp hwrite] at hmoves
      exact hmoves.written.2
    · rw [commits, filterMap_append, mem_append, not_or] at hcommit
      have hbefore := (hmoves.isActive (lt_of_lastWrite h hearlier) hactive).1
      obtain ⟨v, below, htop, rfl, hzero, hlive⟩ := ih hearlier hcommit.1 hbefore
      have hother : (m.move (m.exec start earlier) c).committed ≠ some v.txID := by
        rw [m.committed_move]
        intro hcommitted
        exact hcommit.2 (by simp [hcommitted])
      obtain ⟨below', htop'⟩ := hmoves.top hsound htop hzero hquiet hother hactive
      exact ⟨v, below', htop', rfl, hzero, hlive⟩

end

/-- A transaction with an uncommitted version of a DN has written it. -/
lemma isSome_lastWrite (hopened : start.Opened)
    (hv : v ∈ (m.exec start calls).store.versions dn) (hzero : v.commitTS = 0) :
    (m.lastWrite v.txID dn start calls).isSome := by
  induction calls using reverseRecOn generalizing v with
  | nil =>
    rw [(hopened.loaded dn v hv).2] at hzero
    cases hzero
  | append_singleton earlier c ih =>
    have hsound := m.sound_exec hopened.sound earlier
    have hchain := (m.moves c hsound).chainStep hsound dn
    have hold : ∀ w ∈ (m.exec start earlier).store.versions dn, w.commitTS = 0 →
        (m.lastWrite w.txID dn start (earlier ++ [c])).isSome := by
      intro w hw hpending
      rw [lastWrite_snoc, Option.isSome_or, ih hw hpending, Bool.or_true]
    rw [m.exec_snoc] at hv
    generalize (m.step _ c).store.versions dn = chain at hv hchain
    cases hchain with
    | same _ => exact hold v hv hzero
    | push _ _ _ hmove hbelow =>
      rcases mem_cons.mp hv with rfl | hmem
      · rw [lastWrite_snoc, hmove, Move.valueAt_eq_some.mpr rfl]
        rfl
      · rcases hbelow.elim .inl hsound.foundBelow with rfl | hcommitted
        · exact hold v hmem hzero
        · exact absurd hzero (hcommitted v hmem)
    | commit _ =>
      obtain ⟨w, hw, rfl⟩ := mem_map.mp hv
      obtain ⟨hpending, -, hsame⟩ := commit_pending (Nat.succ_ne_zero _) hzero
      rw [hsame]
      exact hold w hw hpending
    | rollback _ => exact hold v (mem_of_mem_filter hv) hzero

end Machine

end Oba.Storage
