import Oba.Raft.StateMachine
import Oba.Storage.Unambiguous

/-! # Replica agreement

Replicas apply the same commands to the same state, but each of them runs through attribute
maps in orders of its own. They agree on every result and on the final state as long as no
entry spells a name that the engine looks up in two ways.
-/

namespace Oba.Raft

open Storage

section

variable {τ : Type} (trees : IndexTrees τ) {indexes : List (Bytes × IndexType)} {db : ObaDB τ}

/-- Every entry that a command carries is unambiguous. -/
def Command.Clear (indexes : List (Bytes × IndexType)) (cmd : Command) : Prop :=
  ∀ entry, deserializeEntry cmd.entryData = some entry → Unambiguous indexes entry.attributes

/-- Names in lower case are spelled once. -/
lemma Command.clear_of_lower {cmd : Command}
    (hlower : ((deserializeEntry cmd.entryData).all fun entry =>
      entry.attributes.keys.all fun name => toLower name = name) = true) : cmd.Clear indexes := by
  intro entry hentry
  rw [hentry] at hlower
  exact unambiguous_of_lower fun name hname =>
    of_decide_eq_true (List.all_eq_true.mp hlower name (Std.ExtTreeMap.mem_keys.mpr hname))

lemma finishCommand_clear (hdb : db.Clear indexes) (tx : Nat) (err : Option ApplyError) :
    (finishCommand db tx err).2.Clear indexes := by
  cases err with
  | some err => exact hdb.rollback tx
  | none =>
    have hcommitted := hdb.commit tx
    rw [finishCommand]
    split <;> simp_all

variable (o₁ o₂ : Orders) (tx : Nat) {entry : Entry}

lemma applyPut_order (hdb : db.Clear indexes) (hfits : entry.Fits 2)
    (hentry : Unambiguous indexes entry.attributes) :
    applyPut trees o₁ db tx entry = applyPut trees o₂ db tx entry ∧
      (applyPut trees o₁ db tx entry).2.Clear indexes := by
  obtain ⟨hsame, hclear⟩ :=
    ObaDB.put_order trees hdb o₁ o₂ tx (hfits.mono (by decide)) hentry
  dsimp only [applyPut]
  rw [← hsame]
  exact ⟨rfl, finishCommand_clear hclear tx _⟩

lemma applyPutCommand_order (isLog : Bool) (hdb : db.Clear indexes) (hfits : entry.Fits 2)
    (hentry : Unambiguous indexes entry.attributes) :
    applyPutCommand trees o₁ isLog db tx entry = applyPutCommand trees o₂ isLog db tx entry ∧
      (applyPutCommand trees o₁ isLog db tx entry).2.Clear indexes := by
  have hgot := hdb.get tx entry.dn
  dsimp only [applyPutCommand]
  split
  next existing _ =>
    rw [entriesEqual_order (o₁ .equal) (o₂ .equal)]
    split
    · exact ⟨rfl, hgot.rollback tx⟩
    · split
      · exact ⟨rfl, hgot.rollback tx⟩
      · exact applyPut_order trees o₁ o₂ tx hgot hfits hentry
  · refine applyPut_order trees o₁ o₂ tx ?_ hfits hentry
    split
    · exact hgot.get tx entry.dn
    · exact hgot

lemma applyDeleteCommand_order (isLog : Bool) (hdb : db.Clear indexes) (dn : Bytes) :
    applyDeleteCommand trees o₁ isLog db tx dn = applyDeleteCommand trees o₂ isLog db tx dn ∧
      (applyDeleteCommand trees o₁ isLog db tx dn).2.Clear indexes := by
  obtain ⟨hsame, hclear⟩ := ObaDB.delete_order trees hdb o₁ o₂ tx dn
  dsimp only [applyDeleteCommand]
  rw [← hsame]
  refine ⟨rfl, ?_⟩
  split
  · exact finishCommand_clear hdb tx _
  · exact finishCommand_clear hclear tx _

lemma applyModifyDNCommand_order (hdb : db.Clear indexes) (oldDN entryData : Bytes)
    (hentry : ∀ entry, deserializeEntry entryData = some entry →
      Unambiguous indexes entry.attributes) :
    applyModifyDNCommand trees o₁ db tx oldDN entryData =
        applyModifyDNCommand trees o₂ db tx oldDN entryData ∧
      (applyModifyDNCommand trees o₁ db tx oldDN entryData).2.Clear indexes := by
  obtain ⟨hsame, hclear⟩ := ObaDB.delete_order trees hdb o₁ o₂ tx (toLower (trimSpace oldDN))
  dsimp only [applyModifyDNCommand]
  rw [← hsame]
  split
  · exact ⟨rfl, finishCommand_clear hclear tx _⟩
  · split
    · exact ⟨rfl, hclear.rollback tx⟩
    next entry heq =>
      exact applyPut_order trees o₁ o₂ tx hclear (deserializeEntry_some heq).1 (hentry entry heq)

lemma applyLDAPCommand_order (hdb : db.Clear indexes) {cmd : Command} (hcmd : cmd.Clear indexes) :
    applyLDAPCommand trees o₁ db cmd = applyLDAPCommand trees o₂ db cmd ∧
      (applyLDAPCommand trees o₁ db cmd).2.Clear indexes := by
  have hbegun := hdb.begin
  dsimp only [applyLDAPCommand]
  cases cmd.type with
  | put =>
    dsimp only
    split
    · exact ⟨rfl, hbegun.rollback _⟩
    next entry heq =>
      exact applyPutCommand_order trees o₁ o₂ _ _ hbegun (deserializeEntry_some heq).1
        (hcmd entry heq)
  | delete => exact applyDeleteCommand_order trees o₁ o₂ _ _ hbegun _
  | modifyDN => exact applyModifyDNCommand_order trees o₁ o₂ _ hbegun _ _ hcmd

end

/-! ## Runs of commands -/

namespace ObaDBStateMachine

variable {τ : Type} (trees : IndexTrees τ) {main log : List (Bytes × IndexType)}

/-- The main database has the indexes `main`, the log database has the indexes `log`, and
neither holds an ambiguous entry. -/
structure Clear (main log : List (Bytes × IndexType)) (sm : ObaDBStateMachine τ) : Prop where
  mainEngine : sm.mainEngine.Clear main
  logEngine : ∀ db ∈ sm.logEngine, db.Clear log

/-- One command, on two replicas. -/
lemma apply_order {sm : ObaDBStateMachine τ} (hsm : sm.Clear main log) (o₁ o₂ : Orders)
    {cmd : Command} (hcmd : cmd.Clear (if cmd.databaseID = dbLog then log else main)) :
    sm.apply trees o₁ cmd = sm.apply trees o₂ cmd ∧ (sm.apply trees o₁ cmd).2.Clear main log := by
  unfold apply
  split
  next hlog =>
    rw [if_pos hlog] at hcmd
    split
    · exact ⟨rfl, hsm⟩
    next db hdb =>
      obtain ⟨hsame, hclear⟩ := applyLDAPCommand_order trees o₁ o₂ (hsm.logEngine db hdb) hcmd
      rw [← hsame]
      exact ⟨rfl, hsm.mainEngine, fun _ h => Option.some.inj h ▸ hclear⟩
  next hmain =>
    rw [if_neg hmain] at hcmd
    obtain ⟨hsame, hclear⟩ := applyLDAPCommand_order trees o₁ o₂ hsm.mainEngine hcmd
    rw [← hsame]
    exact ⟨rfl, hclear, hsm.logEngine⟩

end ObaDBStateMachine

/-- Replicas that apply the same commands to the same state get the same results and end in
the same state, whatever their iteration orders are. -/
theorem replica_agreement {τ : Type} (trees : IndexTrees τ) (main log : List (Bytes × IndexType))
    (sm : ObaDBStateMachine τ) (run₁ run₂ : List (Command × Orders))
    (hsame : run₁.map Prod.fst = run₂.map Prod.fst) (hsm : sm.Clear main log)
    (hcmds : ∀ cmd ∈ run₁.map Prod.fst,
      cmd.Clear (if cmd.databaseID = dbLog then log else main)) :
    sm.applyAll trees run₁ = sm.applyAll trees run₂ := by
  induction run₁ generalizing sm run₂ with
  | nil => rw [List.map_eq_nil_iff.mp hsame.symm]
  | cons step₁ rest₁ ih =>
    obtain ⟨step₂, rest₂, rfl, hstep, hrest⟩ := List.map_eq_cons_iff.mp hsame.symm
    obtain ⟨hcmd, hcmds⟩ := List.forall_mem_cons.mp hcmds
    obtain ⟨happly, hclear⟩ := ObaDBStateMachine.apply_order trees hsm step₁.2 step₂.2 hcmd
    simp only [ObaDBStateMachine.applyAll, hstep, ← happly, ih _ rest₂ hrest.symm hclear hcmds]

/-! ## Two users, and a user with two spellings of uid -/

/-- A command that writes a user with the given attributes. -/
def putUser (dn : String) (attributes : List (String × String)) : Command :=
  let bindings := attributes.map fun binding => (ascii binding.1, [ascii binding.2])
  { type := .put, databaseID := dbMain, dn := ascii dn, oldDN := []
    entryData := serializeEntry .ascending ⟨ascii dn, UnorderedMap.insertAll ∅ bindings⟩ }

/-- What a replica does that runs through all maps in one order, from an empty database. -/
def replica (order : MapOrder) (cmds : List Command) :
    List (Option ApplyError) × ObaDBStateMachine Unit :=
  ObaDBStateMachine.applyAll IndexTrees.empty (cmds.map (·, fun _ => order)) ⟨.new (), none⟩

def twoUsers : List Command :=
  [putUser "uid=a,ou=users,dc=x" [("uid", "alice"), ("cn", "A")],
    putUser "uid=b,ou=users,dc=x" [("uid", "Alice"), ("cn", "B")]]

/-- The second user has a second uid that is free. -/
def spelledTwice : List Command :=
  [putUser "uid=a,ou=users,dc=x" [("uid", "alice")],
    putUser "uid=b,ou=users,dc=x" [("uid", "alice"), ("UID", "bob")]]

theorem replica_agreement_twoUsers :
    (replica .ascending twoUsers).1 = [none, some (.typed .rejectConflict (some .uidNotUnique))] ∧
      replica .ascending twoUsers = replica .descending twoUsers := by
  refine ⟨by decide +kernel, ?_⟩
  refine replica_agreement IndexTrees.empty defaultIndexes defaultIndexes _ _ _ rfl
    ⟨ObaDB.new_clear (), nofun⟩ fun cmd hcmd => Command.clear_of_lower ?_
  have hlower : ∀ cmd ∈ twoUsers, ((deserializeEntry cmd.entryData).all fun entry =>
      entry.attributes.keys.all fun name => toLower name = name) = true := by decide +kernel
  exact hlower cmd hcmd

/-- One replica takes the uid `bob` for that of the second user and accepts it, another one
takes `alice` and rejects it. -/
theorem spelledTwice_replicas_differ :
    (replica .ascending spelledTwice).1 = [none, none] ∧
      (replica .descending spelledTwice).1 =
        [none, some (.typed .rejectConflict (some .uidNotUnique))] ∧
      (replica .ascending spelledTwice).2.mainEngine.radix.iterate =
        [ascii "uid=a,ou=users,dc=x", ascii "uid=b,ou=users,dc=x"] ∧
      (replica .descending spelledTwice).2.mainEngine.radix.iterate =
        [ascii "uid=a,ou=users,dc=x"] := by
  decide +kernel

end Oba.Raft
