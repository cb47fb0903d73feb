import Oba.Storage.History
import Oba.Storage.Reading

/-! # Lost updates

Two transactions cannot write a DN at the same time. But a commit gives the DN up, and another
transaction that began before it can then overwrite what it has not seen. Updates are not lost
if every transaction writes only DNs that nobody has committed since it began. The writers are
known by the spelling of the DN, and no garbage collection is among the calls.
-/

namespace Oba.Storage

open List

/-! ## The calls of the engine as moves -/

def Call.committed : Call → Option Nat
  | commit tx => some tx
  | _ => none

namespace ObaDB

variable {τ : Type} (trees : IndexTrees τ)

/-- The call makes the chain of the DN longer. -/
def grows (db : ObaDB τ) (c : Call) (dn : Bytes) : Bool :=
  (db.store.versions dn).length < ((db.step trees c).store.versions dn).length

/-- A put or a delete writes if it puts a version on the chain. -/
def move (db : ObaDB τ) (c : Call) : Move :=
  match c with
  | .begin => .begin
  | .put tx orders entry =>
    if db.grows trees c (normalizeDN entry.dn) then
      .write tx (normalizeDN entry.dn)
        (some (stored orders ⟨normalizeDN entry.dn, entry.attributes⟩))
    else .quiet
  | .delete tx _ dn =>
    if db.grows trees c (normalizeDN dn) then .write tx (normalizeDN dn) none else .quiet
  | .commit tx => .commit tx
  | .rollback tx => .rollback tx
  | _ => .quiet

variable {trees} {db db' : ObaDB τ} {c : Call} {dn : Bytes}

lemma not_grows (h : Reread db (db.step trees c)) (dn : Bytes) : db.grows trees c dn = false := by
  unfold grows
  rw [h.recached.versions]
  exact decide_eq_false (lt_irrefl _)

lemma Pushed.grows {v : Version} {below : List Version}
    (hpushed : Pushed db (db.step trees c) dn v below)
    (hbelow : below = db.store.versions dn ∨ db.FoundBelow dn below) :
    db.grows trees c dn = true := by
  unfold ObaDB.grows
  rw [hpushed.versions, Function.update_self, decide_eq_true_eq]
  by_cases hnil : db.store.versions dn = []
  · rw [hnil]
    exact Nat.succ_pos _
  · rw [below_eq hbelow hnil]
    exact lt_add_one _

/-- Every call of the engine makes its move. -/
lemma moves_move (hsound : db.Sound) (c : Call) : Moves db (db.move trees c) (db.step trees c) := by
  have heffect := step_effect trees hsound.located c
  generalize hnext : db.step trees c = next at heffect
  cases heffect with
  | begin => exact .begin
  | reread hcall hread =>
    have hsame := not_grows (hnext ▸ hread : Reread db (db.step trees c))
    have hquiet : db.move trees c = .quiet := by
      cases c with
      | begin | commit _ | rollback _ => cases hcall
      | put | delete => rw [move, hsame, if_neg Bool.false_ne_true]
      | _ => rfl
    rw [hquiet]
    exact .quiet hread
  | @put tx orders entry _ _ below _ hput =>
    subst hnext
    rw [move, hput.pushed.grows (.inr hput.below)]
    exact .write hput.pushed (.inr hput.below)
  | @delete tx orders dn _ _ hdelete =>
    obtain ⟨page, hpushed⟩ := hdelete.pushed
    subst hnext
    rw [move, hpushed.grows (.inl rfl)]
    exact .write hpushed (.inl rfl)
  | commit _ =>
    rw [← hnext]
    exact .of_commit db _
  | rollback => exact .rollback

/-- A write is a call of its transaction. -/
lemma of_move_eq_write {tx : Nat} {value : Option Attributes}
    (h : db.move trees c = .write tx dn value) :
    c.writer = some tx ∧ (c.Named → ∃ path, Canonical dn path) := by
  cases c with
  | put | delete =>
    rw [move] at h
    split at h <;> cases h
    exact ⟨rfl, id⟩
  | _ => cases h

variable (trees)

/-- The engine, whose calls come from any number of transactions. -/
def engine : Machine τ Call where
  step := step trees
  move := move trees
  committed := Call.committed
  sound c h := h.step trees c
  moves c h := moves_move h c
  committed_move db c := by
    cases c with
    | put | delete => rw [move]; split <;> rfl
    | _ => rfl

end ObaDB

/-! ## The clock at the beginning of a transaction -/

namespace Move

variable {τ : Type} (clocks : List (Nat × Nat)) (db : ObaDB τ)

/-- Take down the clock at which a transaction begins. -/
def record : Move → List (Nat × Nat)
  | begin => (db.nextTxID, db.currentTS) :: clocks
  | _ => clocks

/-- Nobody has committed the DN that is written since the writer began. Versions that come from
the disk have no transaction. -/
def upToDate : Move → Bool
  | write tx dn _ =>
    (db.store.versions dn).all fun v => v.txID = 0 ∨ v.commitTS ≤ (clocks.lookup tx).getD 0
  | _ => true

end Move

namespace Machine

variable {τ ι : Type} (m : Machine τ ι)

/-- The clocks at which transactions have begun, after calls. -/
def clocks (known : List (Nat × Nat)) (start : ObaDB τ) : List ι → List (Nat × Nat)
  | [] => known
  | c :: calls => clocks ((m.move start c).record known start) (m.step start c) calls

/-- All writes among the calls are up to date. -/
def upToDate (known : List (Nat × Nat)) (start : ObaDB τ) : List ι → Bool
  | [] => true
  | c :: calls => (m.move start c).upToDate known start &&
      upToDate ((m.move start c).record known start) (m.step start c) calls

variable {m} {start : ObaDB τ} {known : List (Nat × Nat)} {calls : List ι} {tx : Nat} {dn : Bytes}

lemma upToDate_append (calls more : List ι) : m.upToDate known start (calls ++ more) =
    (m.upToDate known start calls &&
      m.upToDate (m.clocks known start calls) (m.exec start calls) more) := by
  induction calls generalizing start known with
  | nil => rfl
  | cons c rest ih =>
    rw [cons_append, upToDate, upToDate, ih, Bool.and_assoc]
    rfl

lemma clocks_append (calls more : List ι) : m.clocks known start (calls ++ more) =
    m.clocks (m.clocks known start calls) (m.exec start calls) more := by
  induction calls generalizing start known with
  | nil => rfl
  | cons c rest ih => exact ih

/-- The clock of a transaction that has begun is not taken down again. -/
lemma lookup_clocks (h : start.Sound) (hbegun : tx < start.nextTxID) :
    (m.clocks known start calls).lookup tx = known.lookup tx := by
  induction calls generalizing start known with
  | nil => rfl
  | cons c rest ih =>
    rw [clocks, ih (m.sound c h) (hbegun.trans_le (m.moves c h).clock.2)]
    cases m.move start c with
    | begin => exact lookup_cons.trans (by rw [beq_false_of_ne hbegun.ne])
    | _ => rfl

/-- No clock that was taken down is ahead. -/
lemma clocks_le (h : start.Sound) (hknown : ∀ p ∈ known, p.2 ≤ start.currentTS) :
    ∀ p ∈ m.clocks known start calls, p.2 ≤ (m.exec start calls).currentTS := by
  induction calls generalizing start known with
  | nil => exact hknown
  | cons c rest ih =>
    have hmono : start.currentTS ≤ (m.step start c).currentTS := by
      rw [(m.moves c h).clock.1]
      exact Nat.le_add_right _ _
    refine ih (m.sound c h) fun p hp => ?_
    have hp' : p ∈ known ∨ p = (start.nextTxID, start.currentTS) := by
      cases hmove : m.move start c with
      | begin =>
        rw [hmove] at hp
        exact (mem_cons.mp hp).symm
      | _ =>
        rw [hmove] at hp
        exact .inl hp
    rcases hp' with hold | rfl
    · exact (hknown p hold).trans hmono
    · exact hmono

/-- A transaction that has begun did so at a clock that is not ahead. -/
lemma begun_le (h : start.Sound) (calls more : List ι)
    (hbegun : tx < (m.exec start calls).nextTxID) :
    ((m.clocks [] start (calls ++ more)).lookup tx).getD 0 ≤ (m.exec start calls).currentTS := by
  rw [clocks_append, lookup_clocks (m.sound_exec h calls) hbegun]
  cases hlookup : (m.clocks [] start calls).lookup tx with
  | none => exact Nat.zero_le _
  | some clock =>
    exact clocks_le h (forall_mem_nil _) (tx, clock) (AssocList.mem_of_lookup hlookup)

/-- What stands on the chain where an up to date write is made. -/
lemma upToDate_write {before after : List ι} {c : ι} {value : Option Attributes}
    (hdate : m.upToDate [] start (before ++ c :: after))
    (hmove : m.move (m.exec start before) c = .write tx dn value) :
    ∀ v ∈ (m.exec start before).store.versions dn,
      v.txID = 0 ∨ v.commitTS ≤ ((m.clocks [] start before).lookup tx).getD 0 := by
  rw [upToDate_append, upToDate, hmove, Bool.and_eq_true, Bool.and_eq_true] at hdate
  intro v hv
  exact of_decide_eq_true (all_eq_true.mp hdate.2.1 v hv)

end Machine

namespace ObaDB

variable {τ : Type} {trees : IndexTrees τ} {start : ObaDB τ}

/-- A transaction that is committed once is not committed before or after. -/
lemma not_mem_committed {tx : Nat} {first rest : List Call}
    (honce : ((first ++ .commit tx :: rest).filterMap Call.committed).Nodup) :
    tx ∉ first.filterMap Call.committed ∧ tx ∉ rest.filterMap Call.committed := by
  have hcons : (Call.commit tx :: rest).filterMap Call.committed =
      tx :: rest.filterMap Call.committed := rfl
  rw [filterMap_append, hcons, nodup_append, nodup_cons] at honce
  exact ⟨fun hmem => honce.2.2 tx hmem tx mem_cons_self rfl, honce.2.1.1⟩

/-- A DN that was written is spelled as the index lists it if all calls spell theirs so. -/
lemma canonical_of_lastWrite {calls : List Call} (hnamed : ∀ c ∈ calls, c.Named) {tx : Nat}
    {dn : Bytes} (h : ((engine trees).lastWrite tx dn start calls).isSome) :
    ∃ path, Canonical dn path := by
  obtain ⟨value, hvalue⟩ := Option.isSome_iff_exists.mp h
  obtain ⟨before, c, after, rfl, hmove⟩ := Machine.exists_of_lastWrite hvalue
  exact (of_move_eq_write hmove).2 (hnamed c (mem_append_right _ mem_cons_self))

/-- Transaction 2 puts the person and gives up before transaction 1 does. -/
def givenUp : List Call :=
  [.begin, .begin, putPerson 2 "2", .rollback 2, putPerson 1 "1"]

/-- Transactions 1 and 2 run at the same time, and both change the person. -/
def overwritten : List Call := [.begin, .begin, putPerson 1 "1", .commit 1, putPerson 2 "2"]

end ObaDB

end Oba.Storage
