import Oba.Backend.Linearization
import Oba.Storage.Alone

/-! # A request that runs alone

Where no other request is under way, a request takes its steps one after the other. It reads the
directory, and when it has succeeded it has made its one write.
-/

namespace Oba.Backend

open Storage ObaDB Option
open Function (update)

/-! ## A call -/

/-- The number of steps that a request takes at most. -/
def Phase.rank : Phase → Nat
  | idle => 10
  | parentBegun _ => 9
  | parentFound _ => 8
  | ready => 7
  | begun _ => 6
  | read _ _ => 5
  | leaf _ => 4
  | checked _ => 3
  | writing _ _ _ => 2
  | written _ | refused _ _ | proposed _ _ => 1
  | done _ => 0

section Calls

variable {τ : Type} (trees : IndexTrees τ) (s : Settings) (inv : Invocation)

/-- Up to a number of steps. -/
def finish : Nat → Phase × ObaDB τ → Phase × ObaDB τ
  | 0, state => state
  | n + 1, state =>
    match stepPhase trees s inv state.2 state.1 with
    | none => state
    | some next => finish n next

/-- The call of a request, from its first step to its return. -/
def perform (db : ObaDB τ) : Except BackendError Unit × ObaDB τ :=
  let (p, db) := finish trees s inv 10 (.idle, db)
  (p.returned.getD (.error .rejected), db)

variable {trees s inv} {db db' : ObaDB τ} {p p' : Phase} {tx : Nat} {path : List Bytes}
  {next : Phase × ObaDB τ} {w : WriteCall} {entry : Option Entry}

/-- Every step brings a request nearer to its end. -/
lemma rank_stepPhase (h : stepPhase trees s inv db p = some next) : next.1.rank < p.rank := by
  cases p with
  | idle =>
    cases h
    unfold start
    repeat' split
    all_goals simp [Phase.rank]
  | parentBegun tx =>
    cases h
    unfold checkParent
    repeat' split
    all_goals simp [Phase.rank]
  | read tx entry =>
    cases h
    unfold afterRead attempt
    repeat' split
    all_goals simp [Phase.rank]
  | leaf tx =>
    cases h
    unfold afterLeaf attempt
    repeat' split
    all_goals simp [Phase.rank]
  | checked entry =>
    cases h
    unfold beginWrite
    repeat' split
    all_goals simp [Phase.rank]
  | writing tx entry w =>
    cases h
    unfold attempt
    split <;> simp [Phase.rank]
  | written tx =>
    rw [stepPhase] at h
    split at h <;> cases h <;> simp [Phase.rank]
  | done result => cases h
  | _ =>
    cases h
    simp [Phase.rank]

lemma stepPhase_eq_none (h : stepPhase trees s inv db p = none) : ∃ result, p = .done result := by
  cases p with
  | written tx =>
    rw [stepPhase] at h
    split at h
    · cases h
    · cases h
  | done result => exact ⟨result, rfl⟩
  | _ => cases h

/-- A request returns. -/
lemma finish_done {n : Nat} {state : Phase × ObaDB τ} (h : state.1.rank ≤ n) :
    ∃ result, (finish trees s inv n state).1 = .done result := by
  induction n generalizing state with
  | zero =>
    rw [finish]
    cases hp : state.1 with
    | done result => exact ⟨result, rfl⟩
    | _ =>
      rw [hp] at h
      cases h
  | succ n ih =>
    rw [finish]
    cases hstep : stepPhase trees s inv state.2 state.1 with
    | none => exact stepPhase_eq_none hstep
    | some next => exact ih (Nat.le_of_lt_succ ((rank_stepPhase hstep).trans_le h))

lemma perform_done (db : ObaDB τ) :
    finish trees s inv 10 (.idle, db) =
      (.done (perform trees s inv db).1, (perform trees s inv db).2) := by
  obtain ⟨result, hresult⟩ : ∃ result, (finish trees s inv 10 (.idle, db)).1 = .done result :=
    finish_done (Nat.le_refl 10)
  refine Prod.ext ?_ rfl
  unfold perform
  dsimp only
  rw [hresult]
  rfl

/-- What is true after every step is true in the end. -/
lemma perform_induction {motive : Phase → ObaDB τ → Prop} (hidle : motive .idle db)
    (hstep : ∀ p db next, motive p db → stepPhase trees s inv db p = some next →
      motive next.1 next.2) :
    motive (.done (perform trees s inv db).1) (perform trees s inv db).2 := by
  have hfinish : ∀ n (state : Phase × ObaDB τ), motive state.1 state.2 →
      motive (finish trees s inv n state).1 (finish trees s inv n state).2 := by
    intro n
    induction n with
    | zero => exact fun _ h => h
    | succ n ih =>
      intro state h
      rw [finish]
      cases hnext : stepPhase trees s inv state.2 state.1 with
      | none => exact h
      | some next => exact ih next (hstep _ _ next h hnext)
  have hend := hfinish 10 (.idle, db) hidle
  rwa [perform_done] at hend

/-! ## One client -/

lemma Quiet.alone (h : Quiet db) (hindexed : db.Indexed) : db.begin.2.Alone db.begin.1 where
  synced := h.synced.begin
  dated := ⟨h.dated.chains, h.dated.cached⟩
  active := by
    unfold isActive ObaDB.begin
    rw [List.lookup_cons_self]
    rfl
  clock := max_le h.synced.sound.begun h.clock.le
  own := fun other dn hother => absurd hother (h.committed other dn)
  indexed := hindexed

lemma Indexed.congr (h : db.Indexed) (hradix : db'.radix = db.radix)
    (hdirectory : db'.directory = db.directory) : db'.Indexed := by
  unfold Indexed at h ⊢
  rwa [hradix, hdirectory]

lemma radix_commit (db : ObaDB τ) (tx : Nat) : (db.commit tx).2.radix = db.radix := by
  obtain ⟨active, hcommit, -⟩ := db.commit_eq tx
  rw [hcommit]

/-- A transaction that has only read leaves the database at rest. -/
lemma Quiet.rollback (h : Quiet db) (hindexed : db.Indexed) {read : ObaDB τ}
    (hread : Reread db.begin.2 read) : Quiet (read.rollback db.begin.1) ∧
      (read.rollback db.begin.1).Indexed ∧
      (read.rollback db.begin.1).directory = db.directory := by
  have hlook : Coherent (read.rollback db.nextTxID)
        (update (fun _ : Unit => .idle) () .idle) ∧
      (read.rollback db.nextTxID).directory = db.directory := h.coherent.look rfl hread rfl
  obtain ⟨hcoherent, hdirectory⟩ := hlook
  refine ⟨hcoherent.quiet fun i tx hi => ?_, fun dn hdn => ?_, hdirectory⟩
  · cases hi
  · have hradix : (read.rollback db.begin.1).radix = db.radix := hread.radix
    rw [hradix]
    exact hindexed dn (hdirectory ▸ hdn)

lemma alone_runWrite {width : Nat} (h : db.Alone tx) (hw : Writable width w)
    (hok : runWrite trees db tx w = (.ok (), db')) : db'.Alone tx := by
  obtain ⟨path, hdn⟩ := hw.canonical
  cases w with
  | put orders entry => exact (h.put hdn hok).1
  | delete orders dn => exact (h.delete hdn hok).1

/-- The only request stands at a phase. -/
structure Serial (db : ObaDB τ) (p : Phase) : Prop where
  coherent : Coherent db fun _ : Unit => p
  indexed : db.Indexed
  active : ∀ tx, p.tx = some tx → db.isActive tx ∧ max 1 db.currentTS ≤ tx

lemma Serial.alone (h : Serial db p) (htx : p.tx = some tx) : db.Alone tx where
  synced := h.coherent.synced
  dated := h.coherent.dated
  active := (h.active tx htx).1
  clock := (h.active tx htx).2
  own := fun other dn hother => by
    obtain ⟨-, rfl⟩ := h.coherent.uncommitted other dn hother
    exact some.inj htx
  indexed := h.indexed

lemma Quiet.serial (h : Quiet db) (hindexed : db.Indexed) : Serial db .idle :=
  ⟨h.coherent, hindexed, fun tx htx => by cases htx⟩

lemma Serial.quiet (h : Serial db p) (hwritten : p.isWritten = false) : Quiet db :=
  h.coherent.quiet fun _ tx hp => by
    rw [hp] at hwritten
    cases hwritten

/-- A request without a transaction that moves within one step. -/
lemma Serial.begun (h : Serial db p) (htx : p.tx = none) : db.begin.2.Alone db.nextTxID := by
  have hwritten : p.isWritten = false := by
    cases p with
    | written tx => cases htx
    | _ => rfl
  exact (h.quiet hwritten).alone h.indexed

lemma Serial.does {made : Option WriteCall} (h : Serial db p)
    (hadmissible : ∀ entry w, nextWrite s inv p = some (entry, w) → Admissible db p w)
    (hdoes : Does trees s inv db p made p' db') :
    Serial db' p' ∧ db'.directory = made.elim db.directory (·.apply db.directory) := by
  have hcoherent : Coherent db' (update (fun _ : Unit => p) () p') ∧
      db'.directory = made.elim db.directory (·.apply db.directory) :=
    h.coherent.does hadmissible hdoes
  obtain ⟨hcoherent, hdirectory⟩ := hcoherent
  -- a request that has given its transaction up has nothing to say about it
  have hnone : p'.tx = none → ∀ tx, p'.tx = some tx → db'.isActive tx ∧ max 1 db'.currentTS ≤ tx :=
    fun hnone tx htx => by
      rw [hnone] at htx
      cases htx
  suffices hrest : db'.Indexed ∧
      ∀ tx, p'.tx = some tx → db'.isActive tx ∧ max 1 db'.currentTS ≤ tx from
    ⟨⟨hcoherent, hrest.1, hrest.2⟩, hdirectory⟩
  cases hdoes with
  | read _ _ _ htx hread =>
    refine ⟨hread.indexed h.indexed, fun tx hp' => ?_⟩
    rw [hread.isActive, hread.currentTS]
    exact h.active tx (htx ▸ hp')
  | begin _ _ htx htx' =>
    refine ⟨h.indexed, fun tx hp' => ?_⟩
    cases htx'.symm.trans hp'
    exact ⟨(h.begun htx).active, (h.begun htx).clock⟩
  | rollback _ _ _ htx' => exact ⟨Indexed.congr h.indexed rfl hdirectory, hnone htx'⟩
  | @look _ read _ _ _ htx' hread =>
    have hradix : (read.rollback db.nextTxID).radix = db.radix := hread.radix
    exact ⟨Indexed.congr h.indexed hradix hdirectory, hnone htx'⟩
  | write _ hnext htx hok =>
    have halone := alone_runWrite (h.alone htx) (hadmissible _ _ hnext).writable hok
    refine ⟨halone.indexed, fun tx hp' => ?_⟩
    cases hp'
    exact ⟨halone.active, halone.clock⟩
  | commit hp =>
    exact ⟨Indexed.congr h.indexed (radix_commit db _) (directory_commit db _), hnone rfl⟩
  | @apply _ _ read written _ _ hnext htx hread hok =>
    have halone := alone_runWrite ((h.begun htx).reread hread) (hadmissible _ _ hnext).writable hok
    exact ⟨Indexed.congr halone.indexed (radix_commit written _) (directory_commit written _),
      hnone rfl⟩
  | @idempotent _ _ read _ _ htx hread _ =>
    have hradix : (read.rollback db.nextTxID).radix = db.radix := hread.radix
    have hlook : Coherent (read.rollback db.nextTxID)
        (update (fun _ : Unit => p) () .idle) ∧
      (read.rollback db.nextTxID).directory = db.directory := h.coherent.look htx hread rfl
    exact ⟨Indexed.congr h.indexed hradix hlook.2, hnone rfl⟩

lemma get_knows (h : db.Alone tx) (hdn : Canonical inv.request.dn path) :
    (db.get tx inv.request.dn).1.toOption =
      (db.directory inv.request.dn).map (Entry.mk inv.request.dn) := by
  have hget := h.get (inv.request.normalizeDN_dn.symm ▸ hdn) hdn.ne_nil
  rw [inv.request.normalizeDN_dn] at hget
  rw [hget]
  cases db.directory inv.request.dn <;> rfl

/-! ## What a call does -/

/-- The width of the length fields that an entry goes through on its way to the store. -/
def Settings.width (s : Settings) : Nat := if s.cluster then 2 else 4

/-- A request that runs alone: what it has written, if anything, is its write for what it has
read. -/
structure Serves (s : Settings) (inv : Invocation) (content : Bytes → Option Attributes)
    (db : ObaDB τ) (p : Phase) : Prop where
  serial : Serial db p
  holds : p.Holds s inv
  knows : p.Knows s inv.request content
  before : p.isOver = false → db.directory = content
  after : p.isOver → db.directory = content ∧ (p.succeeded → inv.request.refusal.isSome) ∨
    ∃ entry w, inv.request.Known content entry ∧ Fetched inv entry ∧
      inv.toWrite s entry = .ok w ∧ db.directory = w.apply content

section Serves

variable {content : Bytes → Option Attributes} {result : Except BackendError Unit} {dn : Bytes}

/-- The entry that the next write was computed from is the one in the directory. -/
lemma known_of_nextWrite (h : p.Knows s inv.request content)
    (hnext : nextWrite s inv p = some (entry, w)) : inv.request.Known content entry := by
  rcases nextWrite_cases hnext with ⟨tx, rfl⟩ | rfl | ⟨rfl, -⟩
  · exact h
  · exact h.2
  · exact fun found hfound => by cases hfound

lemma width_of_knows (h : p.Knows s inv.request content) : s.width ≤ p.width := by
  unfold Settings.width
  cases p with
  | proposed entry w =>
    rw [if_pos h.1]
    exact Nat.le_refl 2
  | _ =>
    show _ ≤ 4
    split <;> decide

lemma Serves.step (haccept : trees.Accepting) (hdn : Canonical inv.request.dn path)
    (hfits : ∀ entry orders new, inv.request.Known content entry → Fetched inv entry →
      inv.toWrite s entry = .ok (.put orders new) → new.Fits s.width)
    (h : Serves s inv content db p) (hstep : stepPhase trees s inv db p = some next) :
    Serves s inv content next.2 next.1 := by
  have hadmissible : ∀ entry w, nextWrite s inv p = some (entry, w) → Admissible db p w := by
    intro entry w hnext
    obtain ⟨hfetched, hwrite⟩ := toWrite_of_nextWrite h.holds hnext
    refine ⟨⟨⟨path, ?_⟩, ?_⟩, fun htx tx huncommitted => ?_⟩
    · rw [Invocation.dn_of_toWrite hfetched.dn hwrite]
      exact hdn
    · rintro orders new rfl
      exact (hfits entry orders new (known_of_nextWrite h.knows hnext) hfetched hwrite).mono
        (width_of_knows h.knows)
    obtain ⟨-, hp⟩ := h.serial.coherent.uncommitted tx _ huncommitted
    rw [hp] at htx
    cases htx
  obtain ⟨made, hdoes⟩ := stepPhase_does haccept
    (fun entry w hnext => (hadmissible entry w hnext).writable) hstep
  obtain ⟨hserial, hdirectory⟩ := h.serial.does hadmissible hdoes
  obtain ⟨hholds, hknows⟩ := stepPhase_kept content h.holds hstep
  refine ⟨hserial, hholds, hknows ?_ h.knows, fun hover => ?_, fun hover => ?_⟩
  · rintro tx rfl
    have hget := get_knows (h.serial.alone rfl) hdn
    rwa [h.before rfl] at hget
  · cases made with
    | none =>
      rw [hdirectory]
      refine h.before (Bool.eq_false_iff.mpr fun hold => ?_)
      rw [hdoes.isOver hold] at hover
      cases hover
    | some w =>
      rw [hdoes.made.2.1] at hover
      cases hover
  · cases made with
    | none =>
      have hsame : next.2.directory = db.directory := hdirectory
      rw [hsame]
      cases hold : p.isOver with
      | true =>
        refine (h.after hold).imp_left (And.imp_right fun hrefusal hsucceeded => ?_)
        exact (hdoes.succeeded hsucceeded).elim hrefusal id
      | false =>
        refine .inl ⟨h.before hold, fun hsucceeded => (hdoes.succeeded hsucceeded).elim ?_ id⟩
        intro hsucceeded
        cases p <;> cases hold <;> cases hsucceeded
    | some w =>
      obtain ⟨hnot, -, entry, hnext⟩ := hdoes.made
      obtain ⟨hfetched, hwrite⟩ := toWrite_of_nextWrite h.holds hnext
      refine .inr ⟨entry, w, known_of_nextWrite h.knows hnext, hfetched, hwrite, ?_⟩
      rw [hdirectory, h.before hnot]
      rfl

/-- What is known of a call that has returned. -/
lemma perform_serves (haccept : trees.Accepting) (hquiet : Quiet db) (hindexed : db.Indexed)
    (hdn : Canonical inv.request.dn path)
    (hfits : ∀ entry orders new, inv.request.Known db.directory entry → Fetched inv entry →
      inv.toWrite s entry = .ok (.put orders new) → new.Fits s.width) :
    Serves s inv db.directory (perform trees s inv db).2 (.done (perform trees s inv db).1) := by
  have hidle : Serves s inv db.directory db .idle :=
    ⟨hquiet.serial hindexed, trivial, trivial, fun _ => rfl, fun hover => by cases hover⟩
  exact perform_induction (motive := fun p db' => Serves s inv db.directory db' p) hidle
    fun p db' next h hstep => h.step haccept hdn hfits hstep

/-- A database at rest whose index lists every entry. -/
structure AtRest (db : ObaDB τ) : Prop where
  quiet : Quiet db
  indexed : db.Indexed

lemma Serves.atRest (h : Serves s inv content db (.done result)) : AtRest db :=
  ⟨h.serial.quiet rfl, h.serial.indexed⟩

/-- A modification that succeeds has written the modified entry. -/
lemma perform_modify {bindDN : Bytes} {changes : List Modification} (haccept : trees.Accepting)
    (h : AtRest db) (hrequest : inv.request = .modify dn changes bindDN) (hdn : Canonical dn path)
    (hchanges : changes ≠ []) (hfits : ∀ attributes new, db.directory dn = some attributes →
      inv.modifyEntry s changes bindDN ⟨dn, attributes⟩ = .ok new → new.Fits s.width)
    (hok : perform trees s inv db = (.ok (), db')) :
    AtRest db' ∧ ∃ attributes new, db.directory dn = some attributes ∧
      inv.modifyEntry s changes bindDN ⟨dn, attributes⟩ = .ok new ∧
      db'.directory = update db.directory dn (some new.attributes) := by
  have hname : inv.request.dn = dn := by
    rw [hrequest]
    exact hdn.normalized
  have hread : ∀ entry w, inv.request.Known db.directory entry → Fetched inv entry →
      inv.toWrite s entry = .ok w → ∃ attributes new, db.directory dn = some attributes ∧
        inv.modifyEntry s changes bindDN ⟨dn, attributes⟩ = .ok new ∧ w = .put inv.orders new := by
    intro entry w hknown hfetched hwrite
    obtain ⟨found, new, rfl, hnew, rfl⟩ := Invocation.toWrite_modify hrequest hwrite
    have hfound := hknown found rfl
    have hdn' := hfetched.dn found rfl
    rw [hname] at hfound hdn'
    subst hdn'
    exact ⟨found.attributes, new, hfound, hnew, rfl⟩
  have hserves := perform_serves haccept h.quiet h.indexed (hname.symm ▸ hdn)
    fun entry orders put hknown hfetched hwrite => by
      obtain ⟨attributes, new, hattributes, hnew, hput⟩ := hread entry _ hknown hfetched hwrite
      obtain ⟨-, rfl⟩ := WriteCall.put.inj hput
      exact hfits attributes put hattributes hnew
  rw [hok] at hserves
  refine ⟨hserves.atRest, ?_⟩
  rcases hserves.after rfl with ⟨-, hrefusal⟩ | ⟨entry, w, hknown, hfetched, hwrite, hdirectory⟩
  · have hsome := hrefusal rfl
    rw [hrequest, Request.refusal, if_neg hdn.ne_nil, if_neg hchanges] at hsome
    cases hsome
  · obtain ⟨attributes, new, hattributes, hnew, rfl⟩ := hread entry w hknown hfetched hwrite
    have hnewDN : new.dn = dn := Invocation.dn_of_modifyEntry hnew
    refine ⟨attributes, new, hattributes, hnew, ?_⟩
    rw [hdirectory, WriteCall.apply, WriteCall.dn, hnewDN, hdn.normalized]
    rfl

/-- After a delete that succeeds, or finds no entry, there is none. -/
lemma perform_delete (haccept : trees.Accepting) (h : AtRest db)
    (hrequest : inv.request = .delete dn) (hdn : Canonical dn path)
    (hresult : result = .ok () ∨ result = .error .entryNotFound)
    (hok : perform trees s inv db = (result, db')) :
    AtRest db' ∧ db'.directory = update db.directory dn none := by
  have hname : inv.request.dn = dn := by
    rw [hrequest]
    exact hdn.normalized
  have hserves : Serves s inv db.directory (perform trees s inv db).2
      (.done (perform trees s inv db).1) :=
    perform_serves haccept h.quiet h.indexed (hname.symm ▸ hdn)
      fun entry orders put _ _ hwrite => by
      cases Invocation.toWrite_delete (.inl hrequest) hwrite
  rw [hok] at hserves
  refine ⟨hserves.atRest, ?_⟩
  rcases hserves.after rfl with ⟨hsame, hrefusal⟩ | ⟨entry, w, -, -, hwrite, hdirectory⟩
  · rcases hresult with rfl | rfl
    · have hsome := hrefusal rfl
      rw [hrequest, Request.refusal, if_neg hdn.ne_nil] at hsome
      cases hsome
    · have hnone := hserves.knows (by rw [hrequest]; rfl) rfl
      rw [hname] at hnone
      rw [hsame, Function.update_eq_self_iff.mpr hnone.symm]
  · have hw := Invocation.toWrite_delete (.inl hrequest) hwrite
    rw [hdirectory, hw, WriteCall.apply, WriteCall.dn, hdn.normalized, hdn.normalized]
    rfl

end Serves

end Calls

end Oba.Backend
