import Oba.Raft.Cluster
import Oba.Raft.EntryCodec
import Oba.Storage.Engine

/-! # Applying LDAP commands

`ObaDBStateMachine` runs every command in a transaction of its own on the main or the log
database. The iteration orders of the attribute maps are a parameter of every command.
-/

namespace Oba.Raft

open Storage

inductive CommandType
  | put
  | delete
  | modifyDN
  deriving DecidableEq, Repr

/-- The fields of a command that LDAP operations use. -/
structure Command where
  type : CommandType
  databaseID : Nat
  dn : Bytes
  oldDN : Bytes
  entryData : Bytes
  deriving DecidableEq, Repr

def dbMain : Nat := 0

def dbLog : Nat := 1

/-- What `Apply` can return besides nil: an `ApplyResultError`, an error of the engine, or
`ErrLogCorrupted`. -/
inductive ApplyError
  | typed (result : ApplyResult) (err : Option EngineError)
  | engine (err : EngineError)
  | corrupted
  deriving DecidableEq, Repr

/-- `ApplyResultFromError` -/
def applyResultFromError : Option ApplyError → ApplyResult
  | none => .applied
  | some (.typed result _) => result
  | some _ => .fatal

def classifyPutApplyError : Except EngineError Unit → Option ApplyError
  | .ok () => none
  | .error .uidNotUnique => some (.typed .rejectConflict (some .uidNotUnique))
  | .error .writeConflict => some (.typed .rejectConflict (some .writeConflict))
  | .error err => some (.engine err)

def classifyDeleteApplyError : Except EngineError Unit → Option ApplyError
  | .ok () => none
  | .error .entryNotFound => some (.typed .idempotent (some .entryNotFound))
  | .error (.version .deleted) => some (.typed .idempotent (some (.version .deleted)))
  | .error .writeConflict => some (.typed .rejectConflict (some .writeConflict))
  | .error err => some (.engine err)

section

variable {τ : Type} (trees : IndexTrees τ) (orders : Orders)

/-- The end of `applyLDAPCommand`. -/
def finishCommand (db : ObaDB τ) (tx : Nat) : Option ApplyError → Option ApplyError × ObaDB τ
  | some err => (some err, db.rollback tx)
  | none =>
    match db.commit tx with
    | (.ok (), db) => (none, db)
    | (.error err, db) => (some (.engine err), db)

/-- A put that has found no equal entry. -/
def applyPut (db : ObaDB τ) (tx : Nat) (entry : Entry) : Option ApplyError × ObaDB τ :=
  let (result, db) := db.put trees orders tx entry
  finishCommand db tx (classifyPutApplyError result)

/-- An entry of the log database is never written again, and no entry is when it is there
already with the same attributes. -/
def applyPutCommand (isLog : Bool) (db : ObaDB τ) (tx : Nat) (entry : Entry) :
    Option ApplyError × ObaDB τ :=
  let (found, db) := db.get tx entry.dn
  match found with
  | .ok existing =>
    if isLog then (some (.typed .idempotent none), db.rollback tx)
    else if entriesEqual (orders .equal) existing entry then
      (some (.typed .idempotent none), db.rollback tx)
    else applyPut trees orders db tx entry
  | .error _ => applyPut trees orders (if isLog then (db.get tx entry.dn).2 else db) tx entry

def applyDeleteCommand (isLog : Bool) (db : ObaDB τ) (tx : Nat) (dn : Bytes) :
    Option ApplyError × ObaDB τ :=
  if isLog then finishCommand db tx (some (.typed .idempotent none))
  else
    let (result, db) := db.delete trees orders tx dn
    finishCommand db tx (classifyDeleteApplyError result)

def applyModifyDNCommand (db : ObaDB τ) (tx : Nat) (oldDN entryData : Bytes) :
    Option ApplyError × ObaDB τ :=
  let (result, db) := db.delete trees orders tx (toLower (trimSpace oldDN))
  let deleteErr := classifyDeleteApplyError result
  if applyResultFromError deleteErr = .fatal then finishCommand db tx deleteErr
  else match deserializeEntry entryData with
    | none => (some .corrupted, db.rollback tx)
    | some entry => applyPut trees orders db tx entry

/-- `applyLDAPCommand` on the engine of the command's database. -/
def applyLDAPCommand (db : ObaDB τ) (cmd : Command) : Option ApplyError × ObaDB τ :=
  let (tx, db) := db.begin
  match cmd.type with
  | .put =>
    match deserializeEntry cmd.entryData with
    | none => (some .corrupted, db.rollback tx)
    | some entry => applyPutCommand trees orders (cmd.databaseID = dbLog) db tx entry
  | .delete => applyDeleteCommand trees orders (cmd.databaseID = dbLog) db tx cmd.dn
  | .modifyDN => applyModifyDNCommand trees orders db tx cmd.oldDN cmd.entryData

/-- The log database need not be attached. -/
structure ObaDBStateMachine (τ : Type) where
  mainEngine : ObaDB τ
  logEngine : Option (ObaDB τ)

/-- `Apply` for LDAP commands; a command for a log database that is not attached is skipped. -/
def ObaDBStateMachine.apply (sm : ObaDBStateMachine τ) (cmd : Command) :
    Option ApplyError × ObaDBStateMachine τ :=
  if cmd.databaseID = dbLog then
    match sm.logEngine with
    | none => (none, sm)
    | some db =>
      let (result, db) := applyLDAPCommand trees orders db cmd
      (result, { sm with logEngine := some db })
  else
    let (result, db) := applyLDAPCommand trees orders sm.mainEngine cmd
    (result, { sm with mainEngine := db })

end

/-- Apply commands in order, each with the iteration orders of its own loops. -/
def ObaDBStateMachine.applyAll {τ : Type} (trees : IndexTrees τ) :
    List (Command × Orders) → ObaDBStateMachine τ → List (Option ApplyError) × ObaDBStateMachine τ
  | [], sm => ([], sm)
  | (cmd, orders) :: rest, sm =>
    let (result, sm) := sm.apply trees orders cmd
    let (results, sm) := applyAll trees rest sm
    (result :: results, sm)

end Oba.Raft
