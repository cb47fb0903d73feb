import Oba.Backend.Requests
import Oba.Raft.StateMachine

/-! # Requests that run at the same time

Every client runs one request. A step of a client is one call of the storage engine, and the
steps of the clients are interleaved in any way. In a cluster the requests run on the leader;
their writes go through the replicated log and are applied one at a time.
-/

namespace Oba.Backend

open Storage

/-- `GetParentDN`; the parent of a DN with one component is empty. -/
def getParentDN (dn : Bytes) : Except RadixError Bytes :=
  (parseDN dn).map fun path => joinDNReverse path.dropLast

/-- Where a request stands, with its local variables. -/
inductive Phase
  | idle
  | parentBegun (tx : Nat)
  | parentFound (tx : Nat)
  | ready
  | begun (tx : Nat)
  | read (tx : Nat) (entry : Option Entry)
  | leaf (tx : Nat)
  | refused (tx : Nat) (err : BackendError)
  | checked (entry : Option Entry)
  | writing (tx : Nat) (entry : Option Entry) (write : WriteCall)
  | written (tx : Nat)
  | proposed (entry : Option Entry) (write : WriteCall)
  | done (result : Except BackendError Unit)

/-- The transaction that a request has under way. -/
def Phase.tx : Phase → Option Nat
  | parentBegun tx | parentFound tx | begun tx | read tx _ | leaf tx | refused tx _
  | writing tx _ _ | written tx => some tx
  | _ => none

/-- What a request has returned. -/
def Phase.returned : Phase → Option (Except BackendError Unit)
  | done result => some result
  | _ => none

lemma Phase.returned_eq_some {p : Phase} {result : Except BackendError Unit} :
    p.returned = some result ↔ p = .done result := by
  cases p <;> simp [returned]

section Steps

variable {τ : Type} (trees : IndexTrees τ)

def runWrite (db : ObaDB τ) (tx : Nat) : WriteCall → Except EngineError Unit × ObaDB τ
  | .put orders entry => db.put trees orders tx entry
  | .delete orders dn => db.delete trees orders tx dn

/-- A write in a transaction that is under way. -/
def attempt (db : ObaDB τ) (tx : Nat) (write : WriteCall) : Phase × ObaDB τ :=
  match runWrite trees db tx write with
  | (.ok (), db) => (.written tx, db)
  | (.error err, db) => (.refused tx (.storage err), db)

/-! ## The leader of a cluster -/

/-- `checkUIDUnique` of the cluster backend, before a put is proposed. -/
def leaderCheckUID (orders : Orders) (db : ObaDB τ) (entry : Entry) : Bool × ObaDB τ :=
  let uid := extractCanonicalUID (orders .newUid) entry.attributes
  if uid = [] ∨ ¬ isUsersSubtreeDN entry.dn then (true, db)
  else
    let (found, read) := db.begin.2.searchByDN db.begin.1 [] .subtree
    let free := (found.toOption.getD []).zipIdx.all fun existing =>
      existing.1.dn = entry.dn ∨ ¬ isUsersSubtreeDN existing.1.dn ∨
        extractCanonicalUID (orders (.oldUid existing.2)) existing.1.attributes ≠ uid
    (free, read.rollback db.begin.1)

/-- `CreatePutCommand` and `CreateDeleteCommand` -/
def command (order : MapOrder) : WriteCall → Raft.Command
  | .put _ entry => ⟨.put, Raft.dbMain, entry.dn, [], Raft.serializeEntry order entry⟩
  | .delete _ dn => ⟨.delete, Raft.dbMain, dn, [], []⟩

/-- What the leader answers; a command that found its work done counts as applied. -/
def answer (err : Option Raft.ApplyError) : Except BackendError Unit :=
  match Raft.applyResultFromError err with
  | .applied | .idempotent => .ok ()
  | _ => .error .rejected

/-- The iteration orders of a write. -/
def writeOrders : WriteCall → Orders
  | .put orders _ | .delete orders _ => orders

/-- A command that was proposed, when it is applied. -/
def propose (inv : Invocation) (db : ObaDB τ) (write : WriteCall) :
    Except BackendError Unit × ObaDB τ :=
  let (err, db) := Raft.applyLDAPCommand trees (writeOrders write) db
    (command (inv.loops .command) write)
  (answer err, db)

/-! ## The steps of a request -/

variable (s : Settings) (inv : Invocation)

/-- Only in a cluster an entry of a managed unit needs its parent. -/
def requiresParent : Bool :=
  s.cluster ∧ (dnUnderOU inv.request.dn "users" ∨ dnUnderOU inv.request.dn "groups")

section

variable (db : ObaDB τ)

/-- The first call of a request. -/
def start : Phase × ObaDB τ :=
  match inv.request.refusal with
  | some result => (.done result, db)
  | none =>
    match inv.request with
    | .add entry bindDN =>
      match inv.addEntry s entry bindDN with
      | .error err => (.done (.error err), db)
      | .ok _ =>
        if requiresParent s inv then (.parentBegun db.begin.1, db.begin.2)
        else (.begun db.begin.1, db.begin.2)
    | _ => (.begun db.begin.1, db.begin.2)

def checkParent (tx : Nat) : Phase × ObaDB τ :=
  match getParentDN inv.request.dn with
  | .error _ => (.refused tx .invalidDN, db)
  | .ok parentDN =>
    if parentDN = [] then (.parentFound tx, db)
    else match db.get tx parentDN with
      | (.error _, db) => (.refused tx .entryNotFound, db)
      | (.ok _, db) => (.parentFound tx, db)

/-- What a request does with the entry it has read. -/
def afterRead (tx : Nat) (entry : Option Entry) : Phase × ObaDB τ :=
  match inv.request, entry with
  | .add _ _, some _ => (.done (.error .entryExists), db.rollback tx)
  | .add _ _, none =>
    if s.cluster then (.checked none, db.rollback tx)
    else match inv.toWrite s none with
      | .error err => (.refused tx err, db)
      | .ok write => attempt trees db tx write
  | .modify _ _ _, some read => (.checked (some read), db.rollback tx)
  | _, none => (.done (.error .entryNotFound), db.rollback tx)
  | _, some _ =>
    match db.hasChildren inv.request.dn with
    | .error err => (.refused tx (.storage err), db)
    | .ok true => (.refused tx .notAllowedOnNonLeaf, db)
    | .ok false => (.leaf tx, db)

/-- The write, in a new transaction or through the log. -/
def beginWrite (entry : Option Entry) : Phase × ObaDB τ :=
  match inv.toWrite s entry with
  | .error err => (.done (.error err), db)
  | .ok write =>
    if ¬ s.cluster then (.writing db.begin.1 entry write, db.begin.2)
    else match write with
      | .delete _ _ => (.proposed entry write, db)
      | .put orders new =>
        match leaderCheckUID orders db new with
        | (false, db) => (.done (.error .rejected), db)
        | (true, db) => (.proposed entry write, db)

/-- `DeleteEntry` deletes in the transaction that has looked for children. -/
def afterLeaf (tx : Nat) : Phase × ObaDB τ :=
  match inv.request with
  | .deleteEntry dn => attempt trees db tx (.delete inv.orders (normalizeDN dn))
  | _ => (.checked none, db.rollback tx)

/-- One step; a request that is done takes none. -/
def stepPhase : Phase → Option (Phase × ObaDB τ)
  | .idle => some (start s inv db)
  | .parentBegun tx => some (checkParent inv db tx)
  | .parentFound tx => some (.ready, db.rollback tx)
  | .ready => some (.begun db.begin.1, db.begin.2)
  | .begun tx =>
    some (.read tx (db.get tx inv.request.dn).1.toOption, (db.get tx inv.request.dn).2)
  | .read tx entry => some (afterRead trees s inv db tx entry)
  | .leaf tx => some (afterLeaf trees inv db tx)
  | .refused tx err => some (.done (.error err), db.rollback tx)
  | .checked entry => some (beginWrite s inv db entry)
  | .writing tx _ write => some (attempt trees db tx write)
  | .written tx =>
    match db.commit tx with
    | (.ok (), db) => some (.done (.ok ()), db)
    | (.error err, db) => some (.done (.error (.storage err)), db)
  | .proposed _ write =>
    some (.done (propose trees inv db write).1, (propose trees inv db write).2)
  | .done _ => none

end

/-- The write that the next step makes, with the entry that was read for it. -/
def nextWrite : Phase → Option (Option Entry × WriteCall)
  | .read _ none =>
    match inv.request with
    | .add _ _ => if s.cluster then none else (inv.toWrite s none).toOption.map (none, ·)
    | _ => none
  | .leaf _ =>
    match inv.request with
    | .deleteEntry dn => some (none, .delete inv.orders (normalizeDN dn))
    | _ => none
  | .writing _ entry write | .proposed entry write => some (entry, write)
  | _ => none

end Steps

/-! ## Systems of clients -/

structure System (τ ι : Type) where
  db : ObaDB τ
  phase : ι → Phase

variable {τ ι : Type} [DecidableEq ι] (trees : IndexTrees τ) (s : Settings) (inv : ι → Invocation)

/-- A step of one client. -/
def System.step (sys : System τ ι) (i : ι) : Option (System τ ι) :=
  (stepPhase trees s (inv i) sys.db (sys.phase i)).map fun next =>
    ⟨next.2, Function.update sys.phase i next.1⟩

/-- The steps of clients in turn. -/
def System.exec (sys : System τ ι) (schedule : List ι) : Option (System τ ι) :=
  Execution.exec (System.step trees s inv) sys schedule

/-- All requests before their first step. -/
def System.initial (db : ObaDB τ) : System τ ι := ⟨db, fun _ => .idle⟩

/-- A request with nothing to be known about time and iteration order. -/
def Invocation.plain (request : Request) : Invocation :=
  ⟨request, [], [], fun _ => .ascending, fun _ => .ascending⟩

/-- A standalone server, or the leader of a cluster, without a schema. -/
def server (cluster : Bool) : Settings := ⟨cluster, fun _ => true⟩

end Oba.Backend
