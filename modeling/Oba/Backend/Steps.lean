import Oba.Backend.Clients
import Oba.Storage.Newest

/-! # What a step of a client does

Whatever the request, a step reads, begins or rolls back a transaction, writes, or commits. In a
cluster a write and its commit are one step.
-/

namespace Oba.Backend

open Storage ObaDB Raft

namespace Phase

def isWritten : Phase → Bool
  | written _ => true
  | _ => false

/-- The request has written, or it has returned. -/
def isOver : Phase → Bool
  | written _ | done _ => true
  | _ => false

/-- The request has written and has not failed, or it has returned no error. -/
def succeeded : Phase → Bool
  | written _ | done (.ok ()) => true
  | _ => false

/-- The width of the length fields through which the next write goes. -/
def width : Phase → Nat
  | proposed _ _ => 2
  | _ => 4

end Phase

/-- A write under a canonical DN, of an entry whose parts fit length fields of a width. -/
structure Writable (width : Nat) (w : WriteCall) : Prop where
  canonical : ∃ path, Canonical w.dn path
  fits : ∀ orders entry, w = .put orders entry → entry.Fits width

instance (width : Nat) (w : WriteCall) : Decidable (Writable width w) :=
  have : Decidable (∃ path, Canonical w.dn path) := inferInstance
  match w with
  | .put _ entry => decidable_of_iff (_ ∧ entry.Fits width)
      ⟨fun h => ⟨h.1, by grind⟩, fun h => ⟨h.canonical, h.fits _ _ rfl⟩⟩
  | .delete _ _ => decidable_of_iff _ ⟨fun h => ⟨h, by simp⟩, (·.canonical)⟩

section

variable {τ : Type} (trees : IndexTrees τ) (s : Settings) (inv : Invocation)

/-- All that a step can do, with the write it makes. In a cluster a write that finds its work
done counts as made. -/
inductive Does (db : ObaDB τ) (p : Phase) : Option WriteCall → Phase → ObaDB τ → Prop
  | read {p' : Phase} {db' : ObaDB τ} (hover : p.isOver = false) (hwritten : p'.isWritten = false)
      (hsucceeded : p'.succeeded → inv.request.refusal.isSome) (htx : p'.tx = p.tx)
      (hread : Reread db db') : Does db p none p' db'
  | begin {p' : Phase} (hover : p.isOver = false) (hover' : p'.isOver = false)
      (htx : p.tx = none) (htx' : p'.tx = some db.nextTxID) : Does db p none p' db.begin.2
  | rollback {p' : Phase} {tx : Nat} (hover : p.isOver = false) (hsucceeded : p'.succeeded = false)
      (htx : p.tx = some tx) (htx' : p'.tx = none) : Does db p none p' (db.rollback tx)
  | look {p' : Phase} {read : ObaDB τ} (hover : p.isOver = false)
      (hsucceeded : p'.succeeded = false) (htx : p.tx = none) (htx' : p'.tx = none)
      (hread : Reread db.begin.2 read) : Does db p none p' (read.rollback db.nextTxID)
  | write {tx : Nat} {entry : Option Entry} {w : WriteCall} {db' : ObaDB τ}
      (hover : p.isOver = false) (hnext : nextWrite s inv p = some (entry, w))
      (htx : p.tx = some tx) (hok : runWrite trees db tx w = (.ok (), db')) :
      Does db p (some w) (.written tx) db'
  | commit {tx : Nat} {result : Except BackendError Unit} (hp : p = .written tx) :
      Does db p none (.done result) (db.commit tx).2
  | apply {entry : Option Entry} {w : WriteCall} {read db' : ObaDB τ}
      {result : Except BackendError Unit} (hover : p.isOver = false)
      (hnext : nextWrite s inv p = some (entry, w)) (htx : p.tx = none)
      (hread : Reread db.begin.2 read) (hok : runWrite trees read db.nextTxID w = (.ok (), db')) :
      Does db p (some w) (.done result) (db'.commit db.nextTxID).2
  | idempotent {entry : Option Entry} {w : WriteCall} {read : ObaDB τ}
      (hover : p.isOver = false) (hnext : nextWrite s inv p = some (entry, w))
      (htx : p.tx = none) (hread : Reread db.begin.2 read)
      (hsame : db.begin.2.reads db.nextTxID w.dn = w.value) :
      Does db p (some w) (.done (.ok ())) (read.rollback db.nextTxID)

variable {trees s inv} {db db' : ObaDB τ} {p p' : Phase} {tx width : Nat} {w : WriteCall}

lemma Writable.parsed (h : Writable width w) : ∃ path, parseDN w.dn = .ok path :=
  h.canonical.imp fun _ hdn => hdn.parsed

/-- A write that fails has changed nothing. -/
lemma runWrite_error (haccept : trees.Accepting) (hw : Writable width w) {err : EngineError}
    (h : runWrite trees db tx w = (.error err, db')) : Reread db db' := by
  obtain ⟨path, hdn⟩ := hw.parsed
  cases w with
  | put orders entry =>
    have hput : db.put trees orders tx entry = (.error err, db') := h
    rcases put_ok_or_reread haccept orders hdn with hok | hread
    · rw [hput] at hok
      cases hok
    · rw [hput] at hread
      exact hread
  | delete orders dn =>
    have hdelete : db.delete trees orders tx dn = (.error err, db') := h
    rcases delete_ok_or_reread orders hdn with hok | hread
    · rw [hdelete] at hok
      cases hok
    · rw [hdelete] at hread
      exact hread

lemma Does.keep (hover : p.isOver = false) (hwritten : p'.isWritten = false)
    (hsucceeded : p'.succeeded = false) (htx : p'.tx = p.tx) (hread : Reread db db') :
    Does trees s inv db p none p' db' :=
  .read hover hwritten (fun h => absurd h (by simp [hsucceeded])) htx hread

/-- A request that has made its write is over. -/
lemma Does.made (h : Does trees s inv db p (some w) p' db') :
    p.isOver = false ∧ p'.isOver ∧ ∃ entry, nextWrite s inv p = some (entry, w) := by
  cases h with
  | write hover hnext | apply hover hnext | idempotent hover hnext => exact ⟨hover, rfl, _, hnext⟩

lemma Does.isOver (h : Does trees s inv db p none p' db') (hover : p.isOver) : p'.isOver := by
  cases h with
  | read hfalse | begin hfalse | rollback hfalse | look hfalse => simp [hfalse] at hover
  | commit _ => rfl

/-- Only a request that is answered at once succeeds without a write. -/
lemma Does.succeeded (h : Does trees s inv db p none p' db') (hsucceeded : p'.succeeded) :
    p.succeeded ∨ inv.request.refusal.isSome := by
  cases h with
  | read _ _ hrefusal _ _ => exact .inr (hrefusal hsucceeded)
  | begin _ hover _ _ =>
    have hphase : p'.succeeded = false := by
      cases p' with
      | written | done => cases hover
      | _ => rfl
    simp [hphase] at hsucceeded
  | rollback _ hfalse | look _ hfalse => simp [hfalse] at hsucceeded
  | commit hp =>
    rw [hp]
    exact .inl rfl

lemma attempt_does (haccept : trees.Accepting) {entry : Option Entry}
    (hover : p.isOver = false) (hnext : nextWrite s inv p = some (entry, w))
    (hw : Writable width w) (htx : p.tx = some tx) :
    ∃ made, Does trees s inv db p made (attempt trees db tx w).1 (attempt trees db tx w).2 := by
  unfold attempt
  split
  next db' hok => exact ⟨_, .write hover hnext htx hok⟩
  next err db' herr =>
    exact ⟨_, .keep hover rfl rfl htx.symm (runWrite_error haccept hw herr)⟩

/-! ## Commands -/

variable {entry : Option Entry} {read : ObaDB τ}

variable {result : Except EngineError Unit} {orders : Orders} {next : Phase × ObaDB τ}

/-- The end of a command, after its write was tried. -/
lemma finishCommand_does (haccept : trees.Accepting) (hover : p.isOver = false)
    (hnext : nextWrite s inv p = some (entry, w)) (hw : Writable width w) (htx : p.tx = none)
    (hread : Reread db.begin.2 read) (hrun : runWrite trees read db.nextTxID w = (result, db'))
    {err : Option Raft.ApplyError} (hnone : result = .ok () ↔ err = none)
    (hdone : err ≠ none → answer err = .ok () → db.begin.2.reads db.nextTxID w.dn = w.value) :
    ∃ made, Does trees s inv db p made (.done (answer (finishCommand db' db.nextTxID err).1))
      (finishCommand db' db.nextTxID err).2 := by
  cases err with
  | none =>
    obtain rfl := hnone.mpr rfl
    have hcommit : (finishCommand db' db.nextTxID none).2 = (db'.commit db.nextTxID).2 := by
      rw [finishCommand]
      split
      next heq => rw [heq]
      next heq => rw [heq]
    rw [hcommit]
    exact ⟨_, .apply hover hnext htx hread hrun⟩
  | some err =>
    have hreread : Reread read db' := by
      cases result with
      | ok _ => exact absurd (hnone.mp rfl) (by simp)
      | error _ => exact runWrite_error haccept hw hrun
    have hboth : Reread db.begin.2 db' := hread.trans hreread
    show ∃ made, Does trees s inv db p made (.done (answer (some err))) (db'.rollback db.nextTxID)
    cases hanswer : answer (some err) with
    | error _ => exact ⟨_, .look hover rfl htx rfl hboth⟩
    | ok _ =>
      exact ⟨_, .idempotent hover hnext htx hboth (hdone (by simp) hanswer)⟩

lemma classifyPutApplyError_eq_none :
    result = .ok () ↔ classifyPutApplyError result = none := by
  unfold classifyPutApplyError
  split <;> simp

lemma answer_classifyPut (h : answer (classifyPutApplyError result) = .ok ()) :
    classifyPutApplyError result = none := by
  revert h
  unfold classifyPutApplyError
  split <;> simp [answer, applyResultFromError]

/-- A put that is proposed is one write, or none. -/
lemma propose_put_does (haccept : trees.Accepting) {new : Entry} (hover : p.isOver = false)
    (hnext : nextWrite s inv p = some (entry, .put orders new)) (hw : Writable 2 (.put orders new))
    (htx : p.tx = none) :
    ∃ made, Does trees s inv db p made (.done (propose trees inv db (.put orders new)).1)
      (propose trees inv db (.put orders new)).2 := by
  have happly : applyLDAPCommand trees orders db
      (command (inv.loops .command) (.put orders new)) =
        applyPutCommand trees orders false db.begin.2 db.nextTxID new := by
    dsimp only [applyLDAPCommand, command]
    rw [deserializeEntry_serializeEntry _ (hw.fits orders new rfl)]
    rfl
  have hpropose : propose trees inv db (.put orders new) =
      (answer (applyPutCommand trees orders false db.begin.2 db.nextTxID new).1,
        (applyPutCommand trees orders false db.begin.2 db.nextTxID new).2) := by
    rw [← happly]
    rfl
  rw [hpropose]
  have hread := db.begin.2.reread_get db.nextTxID new.dn
  have hput : ∀ read, Reread db.begin.2 read → ∃ made, Does trees s inv db p made
        (.done (answer (applyPut trees orders read db.nextTxID new).1))
        (applyPut trees orders read db.nextTxID new).2 := by
    intro read hread
    refine finishCommand_does haccept hover hnext hw htx hread rfl ?_ ?_
    · exact classifyPutApplyError_eq_none
    · exact fun hne hanswer => absurd (answer_classifyPut hanswer) hne
  cases hget : db.begin.2.get db.nextTxID new.dn with | mk found read =>
  rw [hget] at hread
  unfold applyPutCommand
  rw [hget]
  cases found with
  | error err => exact hput read hread
  | ok existing =>
    dsimp only
    rw [if_neg (by simp)]
    split
    next hequal =>
      refine ⟨_, .idempotent hover hnext htx hread ?_⟩
      have hfound : (db.begin.2.get db.nextTxID new.dn).1 = .ok existing := by rw [hget]
      rw [WriteCall.dn, (get_ok hfound).2, attributes_eq_of_entriesEqual hequal]
      rfl
    · exact hput read hread

lemma classifyDeleteApplyError_eq_none :
    result = .ok () ↔ classifyDeleteApplyError result = none := by
  unfold classifyDeleteApplyError
  split <;> simp

lemma answer_classifyDelete (h : answer (classifyDeleteApplyError result) = .ok ()) :
    result = .ok () ∨ result = .error .entryNotFound ∨ result = .error (.version .deleted) := by
  revert h
  unfold classifyDeleteApplyError
  split <;> simp [answer, applyResultFromError]

lemma propose_delete_does (haccept : trees.Accepting) {dn : Bytes} (hover : p.isOver = false)
    (hnext : nextWrite s inv p = some (entry, .delete orders dn))
    (hw : Writable 2 (.delete orders dn)) (htx : p.tx = none) :
    ∃ made, Does trees s inv db p made (.done (propose trees inv db (.delete orders dn)).1)
      (propose trees inv db (.delete orders dn)).2 := by
  refine finishCommand_does haccept hover hnext hw htx (.refl db.begin.2) rfl
    classifyDeleteApplyError_eq_none fun hne hanswer => ?_
  rcases answer_classifyDelete hanswer with hok | habsent
  · exact absurd (classifyDeleteApplyError_eq_none.mp hok) hne
  · rcases habsent with habsent | habsent
    · exact reads_of_delete_absent habsent (.inl rfl)
    · exact reads_of_delete_absent habsent (.inr rfl)

/-! ## Steps -/

lemma start_does (db : ObaDB τ) :
    Does trees s inv db .idle none (start s inv db).1 (start s inv db).2 := by
  have hbegun : ∀ p' : Phase, p'.isOver = false → p'.tx = some db.nextTxID →
      Does trees s inv db .idle none p' db.begin.2 := fun p' hover htx =>
    .begin rfl hover rfl htx
  unfold start
  split
  next result hrefusal =>
    exact .read rfl rfl (fun _ => by rw [hrefusal]; rfl) rfl (.refl db)
  · split
    · split
      · exact .keep rfl rfl rfl rfl (.refl db)
      · split
        · exact hbegun _ rfl rfl
        · exact hbegun _ rfl rfl
    · exact hbegun _ rfl rfl

lemma checkParent_does (db : ObaDB τ) (tx : Nat) : Does trees s inv db (.parentBegun tx) none
    (checkParent inv db tx).1 (checkParent inv db tx).2 := by
  unfold checkParent
  split
  · exact .keep rfl rfl rfl rfl (.refl db)
  next parentDN hparent =>
    split
    · exact .keep rfl rfl rfl rfl (.refl db)
    · have hget := db.reread_get tx parentDN
      split
      next heq =>
        rw [heq] at hget
        exact .keep rfl rfl rfl rfl hget
      next heq =>
        rw [heq] at hget
        exact .keep rfl rfl rfl rfl hget

lemma afterLeaf_does (haccept : trees.Accepting)
    (hw : ∀ entry w, nextWrite s inv (.leaf tx) = some (entry, w) → Writable 4 w) :
    ∃ made, Does trees s inv db (.leaf tx) made (afterLeaf trees inv db tx).1
      (afterLeaf trees inv db tx).2 := by
  unfold afterLeaf
  split
  next dn hrequest =>
    have hnext : nextWrite s inv (.leaf tx) = some (none, .delete inv.orders (normalizeDN dn)) := by
      rw [nextWrite, hrequest]
    exact attempt_does haccept rfl hnext (hw none _ hnext) rfl
  · exact ⟨_, .rollback rfl rfl rfl rfl⟩

/-- The step after the read makes one write, or none. -/
lemma afterRead_does (haccept : trees.Accepting)
    (hw : ∀ found w, nextWrite s inv (.read tx entry) = some (found, w) → Writable 4 w) :
    ∃ made, Does trees s inv db (.read tx entry) made (afterRead trees s inv db tx entry).1
      (afterRead trees s inv db tx entry).2 := by
  have hend : ∀ p' : Phase, p'.succeeded = false → p'.tx = none →
      ∃ made, Does trees s inv db (.read tx entry) made p' (db.rollback tx) :=
    fun p' hsucceeded htx => ⟨_, .rollback rfl hsucceeded rfl htx⟩
  unfold afterRead
  split
  · exact hend _ rfl rfl
  next new bindDN hrequest =>
    split
    · exact hend _ rfl rfl
    next hcluster =>
      split
      · exact ⟨_, .keep rfl rfl rfl rfl (.refl db)⟩
      next w hok =>
        have hnext : nextWrite s inv (.read tx none) = some (none, w) := by
          rw [nextWrite, hrequest]
          rw [if_neg hcluster, hok]
          rfl
        exact attempt_does haccept rfl hnext (hw none w hnext) rfl
  iterate 2 exact hend _ rfl rfl
  · split <;> exact ⟨_, .keep rfl rfl rfl rfl (.refl db)⟩

lemma leaderCheckUID_look (orders : Orders) (db : ObaDB τ) (new : Entry) :
    (leaderCheckUID orders db new).2 = db ∨ ∃ read, Reread db.begin.2 read ∧
      (leaderCheckUID orders db new).2 = read.rollback db.nextTxID := by
  unfold leaderCheckUID
  dsimp only
  split
  · exact .inl rfl
  · exact .inr ⟨_, db.begin.2.reread_searchByDN _ [] .subtree, rfl⟩

lemma beginWrite_does (db : ObaDB τ) : Does trees s inv db (.checked entry) none
    (beginWrite s inv db entry).1 (beginWrite s inv db entry).2 := by
  have hlook : ∀ (orders : Orders) (new : Entry) (p' : Phase), p'.isWritten = false →
      p'.succeeded = false → p'.tx = none → Does trees s inv db (.checked entry) none p'
        (leaderCheckUID orders db new).2 := by
    intro orders new p' hwritten hsucceeded htx
    rcases leaderCheckUID_look orders db new with hsame | ⟨read, hread, hend⟩
    · rw [hsame]
      exact .keep rfl hwritten hsucceeded htx (.refl db)
    · rw [hend]
      exact .look rfl hsucceeded rfl htx hread
  unfold beginWrite
  split
  · exact .keep rfl rfl rfl rfl (.refl db)
  · split
    · exact .begin rfl rfl rfl rfl
    · split
      · exact .keep rfl rfl rfl rfl (.refl db)
      next orders new _ =>
        have hnew := hlook orders new
        split
        next heq =>
          rw [heq] at hnew
          exact hnew _ rfl rfl rfl
        next heq =>
          rw [heq] at hnew
          exact hnew _ rfl rfl rfl

/-- Whatever a client does is one of these. -/
lemma stepPhase_does (haccept : trees.Accepting)
    (hw : ∀ entry w, nextWrite s inv p = some (entry, w) → Writable p.width w)
    (h : stepPhase trees s inv db p = some next) :
    ∃ made, Does trees s inv db p made next.1 next.2 := by
  cases p with
  | idle =>
    cases h
    exact ⟨_, start_does db⟩
  | parentBegun tx =>
    cases h
    exact ⟨_, checkParent_does db tx⟩
  | parentFound | refused =>
    cases h
    exact ⟨_, .rollback rfl rfl rfl rfl⟩
  | ready =>
    cases h
    exact ⟨_, .begin rfl rfl rfl rfl⟩
  | begun tx =>
    cases h
    exact ⟨_, .keep rfl rfl rfl rfl (db.reread_get tx _)⟩
  | read tx entry =>
    cases h
    exact afterRead_does haccept hw
  | leaf tx =>
    cases h
    exact afterLeaf_does haccept hw
  | checked entry =>
    cases h
    exact ⟨_, beginWrite_does db⟩
  | writing tx entry w =>
    cases h
    exact attempt_does haccept rfl rfl (hw entry w rfl) rfl
  | written tx =>
    have hcommit : ∃ result, next = (.done result, (db.commit tx).2) := by
      rw [stepPhase] at h
      split at h
      next heq =>
        cases h
        exact ⟨_, by rw [heq]⟩
      next heq =>
        cases h
        exact ⟨_, by rw [heq]⟩
    obtain ⟨result, rfl⟩ := hcommit
    exact ⟨_, .commit rfl⟩
  | proposed entry w =>
    cases h
    cases w with
    | put orders new => exact propose_put_does haccept rfl rfl (hw entry _ rfl) rfl
    | delete orders dn => exact propose_delete_does haccept rfl rfl (hw entry _ rfl) rfl
  | done result => cases h

/-! ## Local variables -/

/-- A request that is not answered at once has read an entry of its DN, or none. -/
structure Fetched (inv : Invocation) (entry : Option Entry) : Prop where
  accepted : inv.request.refusal = none
  dn : ∀ e, entry = some e → e.dn = inv.request.dn

/-- What the local variables of a request hold. -/
def Phase.Holds (s : Settings) (inv : Invocation) : Phase → Prop
  | .idle => True
  | .done result => ∀ answered, inv.request.refusal = some answered → answered = result
  | .read _ entry | .checked entry => Fetched inv entry
  | .writing _ entry w | .proposed entry w => Fetched inv entry ∧ inv.toWrite s entry = .ok w
  | _ => inv.request.refusal = none

/-- An entry that was read is the one in the directory. -/
def Request.Known (request : Request) (directory : Bytes → Option Attributes)
    (entry : Option Entry) : Prop :=
  ∀ found, entry = some found → directory request.dn = some found.attributes

/-- What the local variables of a request tell of the directory. A delete finds no entry just if
there is none. -/
def Phase.Knows (s : Settings) (request : Request) (directory : Bytes → Option Attributes) :
    Phase → Prop
  | parentBegun _ => request.isDelete = false
  | .read _ entry => entry = (directory request.dn).map (Entry.mk request.dn)
  | checked entry | writing _ entry _ => request.Known directory entry
  | proposed entry _ => s.cluster ∧ request.Known directory entry
  | refused _ err => request.isDelete → err ≠ .entryNotFound
  | done result => request.isDelete → result = .error .entryNotFound → directory request.dn = none
  | _ => True

lemma Fetched.none (h : inv.request.refusal = none) : Fetched inv none :=
  ⟨h, fun e he => by cases he⟩

lemma done_holds (haccepted : inv.request.refusal = none) {result : Except BackendError Unit} :
    (Phase.done result).Holds s inv := fun answered hanswered => by
  rw [haccepted] at hanswered
  cases hanswered

lemma refusal_ne_notFound (request : Request) :
    request.refusal ≠ some (.error .entryNotFound) := by
  cases request with
  | add | delete | deleteEntry | modify =>
    rw [Request.refusal]
    repeat' split
    all_goals simp

lemma toWrite_ne_notFound (h : inv.request.isDelete) (entry : Option Entry) :
    inv.toWrite s entry ≠ .error .entryNotFound := by
  unfold Invocation.toWrite
  cases hrequest : inv.request with
  | delete | deleteEntry => simp
  | add | modify =>
    rw [hrequest] at h
    cases h

lemma answer_ne_notFound (err : Option Raft.ApplyError) : answer err ≠ .error .entryNotFound := by
  unfold answer
  split <;> simp

lemma get_fetched (haccepted : inv.request.refusal = none) (db : ObaDB τ) (tx : Nat) :
    Fetched inv (db.get tx inv.request.dn).1.toOption := by
  refine ⟨haccepted, fun e he => ?_⟩
  have hget : (db.get tx inv.request.dn).1 = .ok e := by
    cases hresult : (db.get tx inv.request.dn).1 with
    | error err =>
      rw [hresult] at he
      cases he
    | ok found =>
      rw [hresult] at he
      exact congrArg Except.ok (Option.some.inj he)
  exact (get_ok hget).1.trans inv.request.normalizeDN_dn

section

variable {content : Bytes → Option Attributes}

lemma start_kept (db : ObaDB τ) :
    (start s inv db).1.Holds s inv ∧ (start s inv db).1.Knows s inv.request content := by
  unfold start
  split
  next result hrefusal =>
    exact ⟨fun answered hanswered => Option.some.inj (hanswered.symm.trans hrefusal),
      fun _ hresult => absurd (hresult ▸ hrefusal) (refusal_ne_notFound inv.request)⟩
  next hrefusal =>
    split
    next hrequest =>
      have hother : inv.request.isDelete = false := by
        rw [hrequest]
        rfl
      split
      · exact ⟨done_holds hrefusal, fun hdelete => absurd (hother ▸ hdelete) Bool.false_ne_true⟩
      · split
        · exact ⟨hrefusal, hother⟩
        · exact ⟨hrefusal, trivial⟩
    · exact ⟨hrefusal, trivial⟩

section

variable (haccepted : inv.request.refusal = none) (db : ObaDB τ) (tx : Nat)
include haccepted

lemma checkParent_kept : (checkParent inv db tx).1.Holds s inv ∧
    (inv.request.isDelete = false → (checkParent inv db tx).1.Knows s inv.request content) := by
  have hrefused : ∀ err, inv.request.isDelete = false →
      (Phase.refused tx err).Knows s inv.request content := fun err hother hdelete =>
    absurd (hother ▸ hdelete) Bool.false_ne_true
  unfold checkParent
  split
  · exact ⟨haccepted, hrefused _⟩
  · split
    · exact ⟨haccepted, fun _ => trivial⟩
    · split
      · exact ⟨haccepted, hrefused _⟩
      · exact ⟨haccepted, fun _ => trivial⟩

lemma attempt_kept (w : WriteCall) : (attempt trees db tx w).1.Holds s inv ∧
    (attempt trees db tx w).1.Knows s inv.request content := by
  unfold attempt
  split
  · exact ⟨haccepted, trivial⟩
  · exact ⟨haccepted, fun _ => by simp⟩

lemma afterLeaf_kept : (afterLeaf trees inv db tx).1.Holds s inv ∧
    (afterLeaf trees inv db tx).1.Knows s inv.request content := by
  unfold afterLeaf
  split
  · exact attempt_kept haccepted ..
  · exact ⟨.none haccepted, fun found hfound => by cases hfound⟩

end

section

variable (hfetched : Fetched inv entry)
include hfetched

lemma afterRead_kept (db : ObaDB τ) (tx : Nat) :
    (afterRead trees s inv db tx entry).1.Holds s inv ∧
      (entry = (content inv.request.dn).map (Entry.mk inv.request.dn) →
        (afterRead trees s inv db tx entry).1.Knows s inv.request content) := by
  have haccepted := hfetched.accepted
  unfold afterRead
  split
  · exact ⟨done_holds haccepted, fun _ _ => by simp⟩
  next hrequest =>
    split
    · exact ⟨hfetched, fun _ found hfound => by cases hfound⟩
    · split
      · refine ⟨haccepted, fun _ hdelete => ?_⟩
        rw [hrequest] at hdelete
        cases hdelete
      · exact (attempt_kept haccepted ..).imp_right fun hknows _ => hknows
  next read _ =>
    refine ⟨hfetched, fun h found hfound => ?_⟩
    obtain ⟨attributes, hattributes, rfl⟩ := Option.map_eq_some_iff.mp h.symm
    rw [hattributes, ← Option.some.inj hfound]
  · exact ⟨done_holds haccepted, fun h _ _ => Option.map_eq_none_iff.mp h.symm⟩
  · split
    · exact ⟨haccepted, fun _ _ => by simp⟩
    · exact ⟨haccepted, fun _ _ => by simp⟩
    · exact ⟨haccepted, fun _ => trivial⟩

lemma beginWrite_kept (db : ObaDB τ) : (beginWrite s inv db entry).1.Holds s inv ∧
    (inv.request.Known content entry →
      (beginWrite s inv db entry).1.Knows s inv.request content) := by
  unfold beginWrite
  split
  next err herr =>
    exact ⟨done_holds hfetched.accepted, fun _ hdelete hresult =>
      absurd (Except.error.inj hresult ▸ herr) (toWrite_ne_notFound hdelete entry)⟩
  next hwrite =>
    split
    · exact ⟨⟨hfetched, hwrite⟩, id⟩
    next hcluster =>
      have hcluster : s.cluster = true := by simpa using hcluster
      split
      · exact ⟨⟨hfetched, hwrite⟩, fun h => ⟨hcluster, h⟩⟩
      · split
        · exact ⟨done_holds hfetched.accepted, fun _ _ hresult => by cases hresult⟩
        · exact ⟨⟨hfetched, hwrite⟩, fun h => ⟨hcluster, h⟩⟩

end

/-- What the local variables hold and tell after a step, if what is read is in the directory. -/
lemma stepPhase_kept (content : Bytes → Option Attributes) (h : p.Holds s inv)
    (hstep : stepPhase trees s inv db p = some next) :
    next.1.Holds s inv ∧ ((∀ tx, p = .begun tx → (db.get tx inv.request.dn).1.toOption =
      (content inv.request.dn).map (Entry.mk inv.request.dn)) →
      p.Knows s inv.request content → next.1.Knows s inv.request content) := by
  cases p with
  | idle =>
    cases hstep
    exact (start_kept db).imp_right fun hknows _ _ => hknows
  | parentBegun tx =>
    cases hstep
    exact (checkParent_kept h db tx).imp_right fun hknows _ => hknows
  | begun tx =>
    cases hstep
    exact ⟨get_fetched h db tx, fun hget _ => hget tx rfl⟩
  | read tx entry =>
    cases hstep
    exact (afterRead_kept h db tx).imp_right fun hknows _ => hknows
  | leaf tx =>
    cases hstep
    exact (afterLeaf_kept h db tx).imp_right fun hknows _ _ => hknows
  | checked entry =>
    cases hstep
    exact (beginWrite_kept h db).imp_right fun hknows _ => hknows
  | writing tx entry w =>
    cases hstep
    exact (attempt_kept h.1.accepted ..).imp_right fun hknows _ _ => hknows
  | written tx =>
    rw [stepPhase] at hstep
    split at hstep <;> cases hstep <;> exact ⟨done_holds h, fun _ _ _ hresult => by cases hresult⟩
  | parentFound | ready =>
    cases hstep
    exact ⟨h, fun _ _ => trivial⟩
  | refused tx err =>
    cases hstep
    exact ⟨done_holds h, fun _ hknows hdelete hresult =>
      absurd (Except.error.inj hresult) (hknows hdelete)⟩
  | proposed entry w =>
    cases hstep
    exact ⟨done_holds h.1.accepted, fun _ _ _ hresult => absurd hresult (answer_ne_notFound _)⟩
  | done result => cases hstep

end

/-- The write that comes next has been computed before, or there is no entry. -/
lemma nextWrite_cases (hnext : nextWrite s inv p = some (entry, w)) :
    (∃ tx, p = .writing tx entry w) ∨ p = .proposed entry w ∨
      entry = none ∧ inv.toWrite s none = .ok w ∧ ∃ tx, p = .read tx none ∨ p = .leaf tx := by
  cases p with
  | read tx found =>
    cases found with
    | some e => cases hnext
    | none =>
      rw [nextWrite] at hnext
      split at hnext
      · split at hnext
        · cases hnext
        · obtain ⟨w', hw', heq⟩ := Option.map_eq_some_iff.mp hnext
          cases heq
          refine .inr (.inr ⟨rfl, ?_, tx, .inl rfl⟩)
          cases hwrite : inv.toWrite s none with
          | error err =>
            rw [hwrite] at hw'
            cases hw'
          | ok w' =>
            rw [hwrite] at hw'
            exact congrArg Except.ok (Option.some.inj hw')
      · cases hnext
  | leaf tx =>
    rw [nextWrite] at hnext
    split at hnext
    next dn hrequest =>
      cases hnext
      refine .inr (.inr ⟨rfl, ?_, tx, .inr rfl⟩)
      rw [Invocation.toWrite, hrequest]
    · cases hnext
  | writing tx found write =>
    cases hnext
    exact .inl ⟨tx, rfl⟩
  | proposed found write =>
    cases hnext
    exact .inr (.inl rfl)
  | _ => cases hnext

/-- The write that comes next is the one of the request. -/
lemma toWrite_of_nextWrite (h : p.Holds s inv) (hnext : nextWrite s inv p = some (entry, w)) :
    Fetched inv entry ∧ inv.toWrite s entry = .ok w := by
  rcases nextWrite_cases hnext with ⟨tx, rfl⟩ | rfl | ⟨rfl, hwrite, tx, rfl | rfl⟩
  · exact h
  · exact h
  · exact ⟨h, hwrite⟩
  · exact ⟨.none h, hwrite⟩

/-- The entry that a request has read and still holds. -/
def Phase.held : Phase → Option Entry
  | .read _ entry | .checked entry | .writing _ entry _ | .proposed entry _ => entry
  | _ => none

lemma held_of_nextWrite (hnext : nextWrite s inv p = some (entry, w)) : p.held = entry := by
  rcases nextWrite_cases hnext with ⟨tx, rfl⟩ | rfl | ⟨rfl, -, tx, rfl | rfl⟩ <;> rfl

/-- An entry that a request holds has been read in this step, or it has been held before. -/
lemma held_stepPhase {next : Phase × ObaDB τ} {e : Entry}
    (hstep : stepPhase trees s inv db p = some next) (hheld : next.1.held = some e) :
    (∃ tx, p = .begun tx ∧ (db.get tx inv.request.dn).1.toOption = some e) ∨
      p.held = some e := by
  have hattempt : ∀ (db : ObaDB τ) tx w, (attempt trees db tx w).1.held = none := by
    intro db tx w
    unfold attempt
    split <;> rfl
  cases p with
  | begun tx =>
    cases hstep
    exact .inl ⟨tx, rfl, hheld⟩
  | read tx found =>
    right
    cases hstep
    unfold afterRead at hheld
    repeat' split at hheld
    all_goals first | exact hheld | (rw [hattempt] at hheld; cases hheld) | cases hheld
  | checked found =>
    right
    cases hstep
    unfold beginWrite at hheld
    repeat' split at hheld
    all_goals first | exact hheld | cases hheld
  | _ =>
    simp only [stepPhase, start, checkParent, afterLeaf, Option.some.injEq] at hstep
    repeat' split at hstep
    all_goals first
      | (subst hstep; cases hheld)
      | (subst hstep; rw [hattempt] at hheld; cases hheld)
      | (cases hstep; done)
      | (cases hstep; cases hheld)

end

end Oba.Backend
