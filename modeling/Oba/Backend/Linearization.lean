import Oba.Backend.Steps

/-! # Requests take effect one after the other

The writes of all clients, in the order in which they are made, say what the directory is. What
is true of the directory whenever a client writes is therefore true of a run of the same writes
one at a time.
-/

namespace Oba.Backend

open Storage ObaDB List Option
open Function (update update_of_ne update_self forall_update_iff)

/-! ## Writes -/

section Writes

variable {τ : Type} {trees : IndexTrees τ} {db db' : ObaDB τ} {tx width : Nat} {w : WriteCall}

/-- A write that was made: a version on the chain of its DN. -/
structure Wrote (db db' : ObaDB τ) (tx : Nat) (w : WriteCall) : Prop where
  pushed : ∃ v below, Pushed db db' w.dn v below ∧ v.txID = tx ∧
    (below = db.store.versions w.dn ∨ db.FoundBelow w.dn below)
  synced : db'.Synced
  directory : db'.directory = w.apply db.directory

/-- A call that returned no error has made its write. -/
lemma runWrite_wrote (hsynced : db.Synced) (hw : Writable width w) (hwidth : width ≤ 4)
    (hok : runWrite trees db tx w = (.ok (), db')) : Wrote db db' tx w := by
  obtain ⟨path, hdn⟩ := hw.canonical
  cases w with
  | put orders entry =>
    have hput : db.put trees orders tx entry = (.ok (), db') := hok
    obtain ⟨read, seen, below, -, -, heffect⟩ :=
      put_ok_effect hsynced.sound.located (congrArg Prod.fst hput)
    rw [hput] at heffect
    refine ⟨⟨_, below, heffect.pushed, rfl, .inr heffect.below⟩, hsynced.put heffect hdn, ?_⟩
    have hstored := stored_eq ((hw.fits orders entry rfl).mono hwidth) orders
    refine directory_update hdn fun d q hd => ?_
    rw [heffect.newest hsynced.sound.located hdn hd, hstored]
    rfl
  | delete orders dn =>
    have hdelete : db.delete trees orders tx dn = (.ok (), db') := hok
    obtain ⟨-, heffect⟩ := delete_ok_effect (congrArg Prod.fst hdelete)
    rw [hdelete] at heffect
    obtain ⟨page, hpushed⟩ := heffect.pushed
    refine ⟨⟨_, _, hpushed, rfl, .inl rfl⟩, hsynced.delete heffect hdn, ?_⟩
    exact directory_update hdn fun d q hd => heffect.newest hsynced.sound.located hdn hd

end Writes

/-! ## Coherence -/

variable {τ ι : Type} {trees : IndexTrees τ} {s : Settings}

/-- The transactions of the clients are distinct, and only a client that has written has
uncommitted versions. No transaction was committed twice. -/
structure Coherent (db : ObaDB τ) (phase : ι → Phase) : Prop where
  synced : db.Synced
  dated : db.Dated
  commits : ∃ commits : List Nat, commits.Nodup ∧ commits.length = db.currentTS ∧
    ∀ tx ∈ commits, (0 < tx ∧ tx < db.nextTxID) ∧ ∀ i, (phase i).tx ≠ some tx
  begun : ∀ i tx, (phase i).tx = some tx → 0 < tx ∧ tx < db.nextTxID
  distinct : ∀ i j tx, (phase i).tx = some tx → (phase j).tx = some tx → i = j
  uncommitted : ∀ tx dn, db.Uncommitted tx dn → ∃ i, phase i = .written tx

namespace Coherent

variable {db db' : ObaDB τ} {phase : ι → Phase} {i : ι} {p' : Phase} {tx : Nat}

/-- The clock stays behind the identifiers. -/
lemma clock (h : Coherent db phase) : db.currentTS < db.nextTxID := by
  obtain ⟨commits, hnodup, hlength, hids⟩ := h.commits
  rw [← hlength]
  exact length_lt_of_ids h.synced.sound.begun hnodup fun tx htx => (hids tx htx).1

lemma not_uncommitted (h : Coherent db phase) (htx : (phase i).tx = some tx)
    (hwritten : (phase i).isWritten = false) (dn : Bytes) : ¬ db.Uncommitted tx dn := by
  intro huncommitted
  obtain ⟨j, hj⟩ := h.uncommitted tx dn huncommitted
  obtain rfl := h.distinct i j tx htx (by rw [hj]; rfl)
  rw [hj] at hwritten
  cases hwritten

/-- An uncommitted version belongs to another client if client `i` has not written. -/
lemma other_written (h : Coherent db phase) (hwritten : (phase i).isWritten = false)
    {dn : Bytes} (huncommitted : db.Uncommitted tx dn) : ∃ j, j ≠ i ∧ phase j = .written tx := by
  obtain ⟨j, hj⟩ := h.uncommitted tx dn huncommitted
  refine ⟨j, ?_, hj⟩
  rintro rfl
  rw [hj] at hwritten
  cases hwritten

variable [DecidableEq ι]

/-- Where a client has a transaction after client `i` has moved. -/
lemma tx_update {j : ι} (h : (update phase i p' j).tx = some tx) :
    j = i ∧ p'.tx = some tx ∨ j ≠ i ∧ (phase j).tx = some tx := by
  by_cases hj : j = i
  · rw [hj, update_self] at h
    exact .inl ⟨hj, h⟩
  · rw [update_of_ne hj] at h
    exact .inr ⟨hj, h⟩

/-- What is kept when client `i` moves to a state with a transaction of its own or with none. -/
lemma move (h : Coherent db phase) (hsynced : db'.Synced) (hdated : db'.Dated)
    (hnext : db.nextTxID ≤ db'.nextTxID)
    (hcommits : ∃ commits : List Nat, commits.Nodup ∧ commits.length = db'.currentTS ∧
      ∀ tx ∈ commits, (0 < tx ∧ tx < db'.nextTxID) ∧ p'.tx ≠ some tx ∧
        ∀ j, j ≠ i → (phase j).tx ≠ some tx)
    (hbegun : ∀ tx, p'.tx = some tx → (0 < tx ∧ tx < db'.nextTxID) ∧
      ∀ j, j ≠ i → (phase j).tx ≠ some tx)
    (huncommitted : ∀ tx dn, db'.Uncommitted tx dn →
      p' = .written tx ∨ ∃ j, j ≠ i ∧ phase j = .written tx) :
    Coherent db' (update phase i p') := by
  refine ⟨hsynced, hdated, ?_, ?_, ?_, ?_⟩
  · obtain ⟨commits, hnodup, hlength, hids⟩ := hcommits
    refine ⟨commits, hnodup, hlength, fun tx htx => ⟨(hids tx htx).1, fun j hj => ?_⟩⟩
    rcases tx_update hj with ⟨-, hp'⟩ | ⟨hne, hold⟩
    · exact (hids tx htx).2.1 hp'
    · exact (hids tx htx).2.2 j hne hold
  · intro j tx hj
    rcases tx_update hj with ⟨-, hp'⟩ | ⟨-, hold⟩
    · exact (hbegun tx hp').1
    · exact (h.begun j tx hold).imp_right fun hlt => hlt.trans_le hnext
  · intro j k tx hj hk
    rcases tx_update hj with ⟨rfl, hp'⟩ | ⟨hj, hold⟩ <;>
      rcases tx_update hk with ⟨rfl, hp''⟩ | ⟨hk, hold'⟩
    · rfl
    · exact absurd hold' ((hbegun tx hp').2 k hk)
    · exact absurd hold ((hbegun tx hp'').2 j hj)
    · exact h.distinct j k tx hold hold'
  · intro tx dn hpending
    rcases huncommitted tx dn hpending with hp' | ⟨j, hne, hj⟩
    · exact ⟨i, by rw [update_self, hp']⟩
    · exact ⟨j, by rw [update_of_ne hne, hj]⟩

variable (h : Coherent db phase)

include h

/-- What is kept when nothing is committed and client `i` has its old transaction, a new one or
none. -/
lemma keep (hsynced : db'.Synced) (hdated : db'.Dated) (hclock : db'.currentTS = db.currentTS)
    (hnext : db.nextTxID ≤ db'.nextTxID) (htx : ∀ tx, p'.tx = some tx →
      (phase i).tx = some tx ∨ db.nextTxID ≤ tx ∧ tx < db'.nextTxID)
    (huncommitted : ∀ tx dn, db'.Uncommitted tx dn →
      p' = .written tx ∨ ∃ j, j ≠ i ∧ phase j = .written tx) :
    Coherent db' (update phase i p') := by
  refine h.move hsynced hdated hnext ?_ (fun tx hp' => ?_) huncommitted
  · obtain ⟨commits, hnodup, hlength, hids⟩ := h.commits
    refine ⟨commits, hnodup, hlength.trans hclock.symm, fun tx hmem => ?_⟩
    obtain ⟨⟨hpos, hlt⟩, hfree⟩ := hids tx hmem
    refine ⟨⟨hpos, hlt.trans_le hnext⟩, fun hp' => ?_, fun j _ => hfree j⟩
    rcases htx tx hp' with hold | ⟨hle, -⟩
    · exact hfree i hold
    · exact not_lt.mpr hle hlt
  · rcases htx tx hp' with hold | ⟨hle, hlt⟩
    · exact ⟨(h.begun i tx hold).imp_right fun hlt => hlt.trans_le hnext,
        fun j hne hj => hne (h.distinct j i tx hj hold)⟩
    · exact ⟨⟨h.synced.sound.begun.trans_le hle, hlt⟩,
        fun j _ hj => not_lt.mpr hle (h.begun j tx hj).2⟩

lemma reread (hread : Reread db db') (hwritten : (phase i).isWritten = false)
    (htx : p'.tx = (phase i).tx) : Coherent db' (update phase i p') := by
  refine h.keep (h.synced.reread hread) (h.dated.reread hread) hread.currentTS hread.nextTxID.ge
    (fun tx hp' => .inl (htx ▸ hp')) fun tx dn huncommitted => ?_
  rw [hread.uncommitted] at huncommitted
  exact .inr (h.other_written hwritten huncommitted)

lemma begin (htx : (phase i).tx = none) (htx' : p'.tx = some db.nextTxID) :
    Coherent db.begin.2 (update phase i p') := by
  have hwritten : (phase i).isWritten = false := by
    cases hp : phase i with
    | written tx =>
      rw [hp] at htx
      cases htx
    | _ => rfl
  refine h.keep h.synced.begin ⟨h.dated.chains, h.dated.cached⟩ rfl (Nat.le_succ _)
    (fun tx hp' => .inr ?_) fun tx dn huncommitted => .inr (h.other_written hwritten huncommitted)
  cases htx'.symm.trans hp'
  exact ⟨le_rfl, lt_add_one _⟩

lemma rollback (tx : Nat) (hwritten : (phase i).isWritten = false) (htx' : p'.tx = none) :
    Coherent (db.rollback tx) (update phase i p') := by
  refine h.keep (h.synced.rollback tx) (h.dated.rollback tx) rfl (le_rfl)
    (fun tx hp' => ?_) fun tx dn huncommitted => ?_
  · rw [htx'] at hp'
    cases hp'
  · have hold := (h.synced.sound.uncommitted_rollback huncommitted).2
    exact .inr (h.other_written hwritten hold)

lemma write (htx : (phase i).tx = some tx) (hwritten : (phase i).isWritten = false)
    {w : WriteCall} (hwrote : Wrote db db' tx w) :
    Coherent db' (update phase i (.written tx)) := by
  obtain ⟨v, below, hpushed, rfl, hbelow⟩ := hwrote.pushed
  refine h.keep hwrote.synced (h.dated.pushed hpushed hbelow) hpushed.currentTS
    hpushed.nextTxID.ge (fun t ht => .inl (htx.trans ht)) fun t dn huncommitted => ?_
  rcases h.synced.sound.uncommitted_pushed hpushed hbelow huncommitted with ⟨rfl, -⟩ | hold
  · exact .inl rfl
  · exact .inr (h.other_written hwritten hold)

lemma commit (hp : phase i = .written tx) (htx' : p'.tx = none) :
    Coherent (db.commit tx).2 (update phase i p') := by
  have hopen : (phase i).tx = some tx := by rw [hp]; rfl
  obtain ⟨active, hcommit, hactive⟩ := db.commit_eq tx
  refine h.move ?_ ?_ ?_ ?_ ?_ ?_
  · rw [hcommit]
    exact h.synced.commit (hactive.elim (fun hok => .inr hok.2) fun herr => .inl herr.2)
  · rw [hcommit]
    exact h.dated.commit tx active
  · rw [hcommit]
  · obtain ⟨commits, hnodup, hlength, hids⟩ := h.commits
    refine ⟨tx :: commits, nodup_cons.mpr ⟨fun hmem => (hids tx hmem).2 i hopen, hnodup⟩,
      ?_, fun t ht => ?_⟩
    · rw [length_cons, hlength, hcommit]
    · rw [hcommit, htx']
      rcases mem_cons.mp ht with rfl | hmem
      · exact ⟨h.begun i t hopen, by simp, fun j hne hj => hne (h.distinct j i t hj hopen)⟩
      · exact ⟨(hids t hmem).1, by simp, fun j _ => (hids t hmem).2 j⟩
  · intro t hp'
    rw [htx'] at hp'
    cases hp'
  · intro t dn huncommitted
    obtain ⟨hne, hold⟩ := uncommitted_commit huncommitted
    obtain ⟨j, hj⟩ := h.uncommitted t dn hold
    refine .inr ⟨j, ?_, hj⟩
    rintro rfl
    rw [hp] at hj
    exact hne (Phase.written.inj hj).symm

omit [DecidableEq ι] in
/-- A client that has not written may give its transaction up. -/
lemma directory_rollback (htx : (phase i).tx = some tx)
    (hwritten : (phase i).isWritten = false) : (db.rollback tx).directory = db.directory :=
  directory_congr fun d _ _ => h.synced.sound.newest_rollback
    (not_pendingOf_of_not_uncommitted (h.not_uncommitted htx hwritten d))

variable {read : ObaDB τ}

section

variable (htx : (phase i).tx = none) (hread : Reread db.begin.2 read)
include htx hread

/-- A transaction that begins and reads within one step. -/
lemma beginRead :
    Coherent read (update phase i (.begun db.nextTxID)) ∧ read.directory = db.directory := by
  have hbegun : Coherent db.begin.2 (update phase i (.begun db.nextTxID)) :=
    h.begin htx rfl
  have hself : update phase i (.begun db.nextTxID) i = .begun db.nextTxID :=
    update_self ..
  refine ⟨?_, directory_congr fun d _ _ => congrFun hread.newest d⟩
  have hsame := hbegun.reread hread (by rw [hself]; rfl) (congrArg Phase.tx hself.symm)
  rwa [Function.update_idem] at hsame

/-- A transaction that only reads, within one step. -/
lemma look (htx' : p'.tx = none) :
    Coherent (read.rollback db.nextTxID) (update phase i p') ∧
      (read.rollback db.nextTxID).directory = db.directory := by
  obtain ⟨hbegun, hdirectory⟩ := h.beginRead htx hread
  have hwritten : (update phase i (.begun db.nextTxID) i).isWritten = false := by
    rw [update_self]
    rfl
  have hended := hbegun.rollback db.nextTxID hwritten htx'
  rw [Function.update_idem] at hended
  refine ⟨hended, ?_⟩
  rw [hbegun.directory_rollback (by rw [update_self]; rfl) hwritten, hdirectory]

/-- A transaction that writes, within one step. -/
lemma apply {w : WriteCall} (hwrote : Wrote read db' db.nextTxID w) (htx' : p'.tx = none) :
    Coherent (db'.commit db.nextTxID).2 (update phase i p') ∧
      (db'.commit db.nextTxID).2.directory = w.apply db.directory := by
  obtain ⟨hbegun, hdirectory⟩ := h.beginRead htx hread
  have hwritten := hbegun.write (by rw [update_self]; rfl) (by rw [update_self]; rfl) hwrote
  have hcommitted := hwritten.commit (update_self ..) htx'
  rw [Function.update_idem, Function.update_idem] at hcommitted
  refine ⟨hcommitted, ?_⟩
  rw [directory_congr fun d _ _ => congrFun (newest_commit db' db.nextTxID) d, hwrote.directory,
    hdirectory]

end

end Coherent

/-! ## Steps -/

/-- What is asked of the write that comes next. A command is applied when no transaction has an
uncommitted version of its DN. -/
structure Admissible (db : ObaDB τ) (p : Phase) (w : WriteCall) : Prop where
  writable : Writable p.width w
  committed : p.tx = none → ∀ tx, ¬ db.Uncommitted tx w.dn

instance (db : ObaDB τ) (p : Phase) (w : WriteCall) : Decidable (Admissible db p w) :=
  decidable_of_iff (Writable p.width w ∧
      (p.tx = none → ∀ v ∈ db.store.versions w.dn, v.commitTS ≠ 0))
    ⟨fun h => ⟨h.1, fun htx _ ⟨v, hv, hpending⟩ => h.2 htx v hv (of_decide_eq_true hpending).2⟩,
      fun h => ⟨h.writable, fun htx v hv hzero =>
        h.committed htx v.txID ⟨v, hv, decide_eq_true ⟨rfl, hzero⟩⟩⟩⟩

lemma Phase.width_le (p : Phase) : p.width ≤ 4 := by
  unfold width
  split <;> decide

lemma Phase.isWritten_of_isOver {p : Phase} (h : p.isOver = false) : p.isWritten = false := by
  cases p with
  | written tx => cases h
  | _ => rfl

/-- What a step does to the directory is the write that it makes. -/
lemma Coherent.does [DecidableEq ι] {inv : Invocation} {db db' : ObaDB τ} {phase : ι → Phase}
    {i : ι} {p' : Phase} {made : Option WriteCall} (h : Coherent db phase)
    (hadmissible : ∀ entry w, nextWrite s inv (phase i) = some (entry, w) →
      Admissible db (phase i) w)
    (hdoes : Does trees s inv db (phase i) made p' db') :
    Coherent db' (update phase i p') ∧
      db'.directory = made.elim db.directory (·.apply db.directory) := by
  cases hdoes with
  | read hover _ _ htx hread =>
    exact ⟨h.reread hread (Phase.isWritten_of_isOver hover) htx,
      directory_congr fun d _ _ => congrFun hread.newest d⟩
  | begin hover _ htx htx' => exact ⟨h.begin htx htx', rfl⟩
  | rollback hover _ htx htx' =>
    have hwritten := Phase.isWritten_of_isOver hover
    exact ⟨h.rollback _ hwritten htx', h.directory_rollback htx hwritten⟩
  | look hover _ htx htx' hread => exact h.look htx hread htx'
  | write hover hnext htx hok =>
    have hwrote := runWrite_wrote h.synced (hadmissible _ _ hnext).writable (phase i).width_le hok
    exact ⟨h.write htx (Phase.isWritten_of_isOver hover) hwrote, hwrote.directory⟩
  | commit hp =>
    exact ⟨h.commit hp rfl, directory_congr fun d _ _ => congrFun (newest_commit db _) d⟩
  | apply hover hnext htx hread hok =>
    have hwrote := runWrite_wrote (h.synced.begin.reread hread)
      (hadmissible _ _ hnext).writable (phase i).width_le hok
    exact h.apply htx hread hwrote rfl
  | @idempotent entry w read hover hnext htx hread hsame =>
    refine (h.look htx hread rfl).imp_right fun hdirectory => hdirectory.trans ?_
    obtain ⟨path, hdn⟩ := (hadmissible _ _ hnext).writable.canonical
    have hnewest := h.synced.reads_eq_newest h.dated h.clock (le_rfl) hdn
      ((hadmissible _ _ hnext).committed htx)
    have hvalue : db.directory w.dn = w.value := by
      rw [directory_of_canonical db hdn, ← hnewest]
      exact hsame
    exact (Function.update_eq_self_iff.mpr hvalue.symm).symm

/-! ## Runs -/

/-- A write that was made, with the client and the entry that it had read. -/
structure Made (ι : Type) where
  client : ι
  entry : Option Entry
  call : WriteCall

section

variable (start : Bytes → Option Attributes)

/-- The directory after writes one after the other. -/
def replay (log : List (Made ι)) : Bytes → Option Attributes :=
  log.foldl (fun content m => m.call.apply content) start

lemma replay_append (log more : List (Made ι)) :
    replay start (log ++ more) = replay (replay start log) more := foldl_append ..

lemma replay_cons (m : Made ι) (log : List (Made ι)) :
    replay start (m :: log) = replay (m.call.apply start) log := rfl

end

section

variable {start : Bytes → Option Attributes} {log : List (Made ι)} {dn : Bytes}

/-- An entry stays as long as it is not deleted. -/
lemma isSome_replay (hstart : (start dn).isSome)
    (hputs : ∀ m ∈ log, m.call.dn = dn → m.call.value.isSome) : (replay start log dn).isSome := by
  induction log generalizing start with
  | nil => exact hstart
  | cons m log ih =>
    rw [replay_cons]
    refine ih ?_ fun later hlater => hputs later (mem_cons_of_mem m hlater)
    unfold WriteCall.apply
    by_cases hdn : dn = m.call.dn
    · rw [hdn, update_self]
      exact hputs m mem_cons_self hdn.symm
    · rw [update_of_ne hdn]
      exact hstart

lemma replay_of_ne (hother : ∀ m ∈ log, m.call.dn ≠ dn) : replay start log dn = start dn := by
  induction log generalizing start with
  | nil => rfl
  | cons m log ih =>
    rw [replay_cons, ih fun later hlater => hother later (mem_cons_of_mem m hlater),
      WriteCall.apply, update_of_ne (hother m mem_cons_self).symm]

end

/-- No transaction has uncommitted versions, and all DNs are as the index lists them. -/
structure Quiet (db : ObaDB τ) : Prop where
  synced : db.Synced
  dated : db.Dated
  clock : db.currentTS < db.nextTxID
  committed : ∀ tx dn, ¬ db.Uncommitted tx dn

lemma Quiet.coherent {db : ObaDB τ} (h : Quiet db) : Coherent db fun _ : ι => .idle where
  __ := h
  commits := by
    refine ⟨range' 1 db.currentTS, nodup_range', length_range', fun tx htx => ?_⟩
    have hclock := h.clock
    obtain ⟨hle, hlt⟩ := mem_range'_1.mp htx
    exact ⟨⟨hle, by omega⟩, fun _ hnone => by cases hnone⟩
  begun := fun _ _ hnone => by cases hnone
  distinct := fun _ _ _ hnone => by cases hnone
  uncommitted := fun tx dn huncommitted => absurd huncommitted (h.committed tx dn)

lemma Quiet.opened {db : ObaDB τ} (hopened : db.Opened) (hsynced : db.Synced) : Quiet db where
  synced := hsynced
  dated := hopened.dated
  clock := by
    rw [hopened.nextTxID, hopened.currentTS]
    exact Nat.zero_lt_one
  committed := hopened.not_uncommitted

lemma quiet_new : Quiet (new ()) :=
  .opened (opened_new ()) ((opened_new ()).synced (forall_mem_nil _))

/-- When all clients are done, nothing is uncommitted. -/
lemma Coherent.quiet {db : ObaDB τ} {phase : ι → Phase} (h : Coherent db phase)
    (hdone : ∀ i tx, phase i ≠ .written tx) : Quiet db where
  __ := h
  clock := h.clock
  committed := fun tx dn huncommitted =>
    (h.uncommitted tx dn huncommitted).elim fun i hi => hdone i tx hi

/-- What a new transaction finds at a DN. -/
def current (db : ObaDB τ) (dn : Bytes) : Except EngineError Entry :=
  (db.begin.2.get db.begin.1 dn).1

lemma Quiet.current_eq {db : ObaDB τ} (h : Quiet db) {dn : Bytes} {path : List Bytes}
    (hdn : Canonical dn path) : current db dn = match db.directory dn with
      | some attributes => .ok ⟨dn, attributes⟩
      | none => .error .entryNotFound := by
  have hreads : db.begin.2.reads db.begin.1 dn = db.newest dn :=
    h.synced.reads_eq_newest h.dated h.clock (le_rfl) hdn fun tx => h.committed tx dn
  have hget := get_eq db.begin.2 db.begin.1 hdn.ne_nil
  rw [hdn.normalized, hreads, ← directory_of_canonical db hdn] at hget
  exact hget

lemma Quiet.current_ok_iff {db : ObaDB τ} (h : Quiet db) {dn : Bytes} {path : List Bytes}
    (hdn : Canonical dn path) {entry : Entry} :
    current db dn = .ok entry ↔ db.directory dn = some entry.attributes ∧ dn = entry.dn := by
  obtain ⟨d, attributes⟩ := entry
  rw [h.current_eq hdn]
  cases db.directory dn <;> simp [and_comm]

variable [DecidableEq ι] (trees) (s) (inv : ι → Invocation)

/-- The client may take its next step: a write that it makes is admissible and satisfies a
condition on the directory. -/
def Allowed (ok : (Bytes → Option Attributes) → Made ι → Prop) (sys : System τ ι) (i : ι) : Prop :=
  ∀ entry w, nextWrite s (inv i) (sys.phase i) = some (entry, w) →
    Admissible sys.db (sys.phase i) w ∧ ok sys.db.directory ⟨i, entry, w⟩

omit [DecidableEq ι] in
lemma allowed_iff {ok : (Bytes → Option Attributes) → Made ι → Prop} {sys : System τ ι} {i : ι} :
    Allowed s inv ok sys i ↔ ∀ m ∈ nextWrite s (inv i) (sys.phase i),
      Admissible sys.db (sys.phase i) m.2 ∧ ok sys.db.directory ⟨i, m.1, m.2⟩ :=
  ⟨fun h m hm => h m.1 m.2 hm, fun h entry w hm => h (entry, w) hm⟩

instance (ok : (Bytes → Option Attributes) → Made ι → Prop)
    [∀ directory m, Decidable (ok directory m)]
    (sys : System τ ι) (i : ι) : Decidable (Allowed s inv ok sys i) :=
  decidable_of_iff _ (allowed_iff s inv).symm

/-- The runs in which every client may take its steps. -/
abbrev Runs (ok : (Bytes → Option Attributes) → Made ι → Prop) (start : ObaDB τ) :
    List ι → System τ ι → Prop :=
  Execution.Run (System.step trees s inv) (Allowed s inv ok) (System.initial start)

/-- The system after a schedule, if all its steps are allowed. -/
def allowedExec (ok : (Bytes → Option Attributes) → Made ι → Prop)
    [∀ directory m, Decidable (ok directory m)] (start : ObaDB τ) (schedule : List ι) :
    Option (System τ ι) :=
  Execution.exec (Execution.guarded (System.step trees s inv) (Allowed s inv ok))
    (System.initial start) schedule

lemma runs_allowedExec {ok : (Bytes → Option Attributes) → Made ι → Prop}
    [∀ directory m, Decidable (ok directory m)] {start : ObaDB τ} {schedule : List ι}
    (h : (allowedExec trees s inv ok start schedule).isSome) :
    Runs trees s inv ok start schedule ((allowedExec trees s inv ok start schedule).get h) :=
  Execution.run_of_exec (some_get h).symm

/-- The writes of a run in the order in which they were made. Every client that has succeeded is
among them, and each write satisfied the condition when it was made. -/
structure Linearized (ok : (Bytes → Option Attributes) → Made ι → Prop)
    (start : Bytes → Option Attributes) (db : ObaDB τ) (phase : ι → Phase) (log : List (Made ι)) :
    Prop where
  coherent : Coherent db phase
  holds : ∀ i, (phase i).Holds s (inv i)
  nodup : (log.map Made.client).Nodup
  ended : ∀ m ∈ log, (phase m.client).isOver
  succeeded : ∀ i, (phase i).succeeded → (inv i).request.refusal = none → i ∈ log.map Made.client
  made : ∀ m ∈ log, Fetched (inv m.client) m.entry ∧ (inv m.client).toWrite s m.entry = .ok m.call
  condition : ∀ before m after, log = before ++ m :: after → ok (replay start before) m
  directory : db.directory = replay start log

variable {trees s inv} {ok : (Bytes → Option Attributes) → Made ι → Prop} {sys : System τ ι}
  {db db' : ObaDB τ} {phase : ι → Phase} {log : List (Made ι)} {i : ι}

namespace Linearized

omit [DecidableEq ι] in
lemma initial (hquiet : Quiet db) : Linearized s inv ok db.directory db (fun _ => .idle) [] where
  coherent := hquiet.coherent
  holds := fun _ => trivial
  nodup := nodup_nil
  ended := forall_mem_nil _
  succeeded := fun _ h => by cases h
  made := forall_mem_nil _
  condition := fun before m after h => by simp at h
  directory := rfl

variable {start : Bytes → Option Attributes} (h : Linearized s inv ok start db phase log)

include h

section

variable {p' : Phase} (hadmissible : ∀ entry w,
  nextWrite s (inv i) (phase i) = some (entry, w) → Admissible db (phase i) w)
  (hholds : p'.Holds s (inv i))
include hadmissible hholds

/-- A step without a write. -/
lemma quiet (hdoes : Does trees s (inv i) db (phase i) none p' db') :
    Linearized s inv ok start db' (update phase i p') log := by
  obtain ⟨hcoherent, hdirectory⟩ := h.coherent.does hadmissible hdoes
  refine ⟨hcoherent, fun j => ?_, h.nodup, fun m hm => ?_, fun j hsucceeded hrefusal => ?_, h.made,
    h.condition, hdirectory.trans h.directory⟩
  · exact (forall_update_iff phase fun j p => p.Holds s (inv j)).mpr
      ⟨hholds, fun j _ => h.holds j⟩ j
  · by_cases hm' : m.client = i
    · have hover := h.ended m hm
      rw [hm'] at hover
      rw [hm', update_self]
      exact hdoes.isOver hover
    · rw [update_of_ne hm']
      exact h.ended m hm
  · by_cases hj : j = i
    · subst hj
      rw [update_self] at hsucceeded
      rcases hdoes.succeeded hsucceeded with hold | hsome
      · exact h.succeeded j hold hrefusal
      · rw [hrefusal] at hsome
        cases hsome
    · rw [update_of_ne hj] at hsucceeded
      exact h.succeeded j hsucceeded hrefusal

/-- A step that makes a write. -/
lemma write {entry : Option Entry} {w : WriteCall}
    (hdoes : Does trees s (inv i) db (phase i) (some w) p' db')
    (hnext : nextWrite s (inv i) (phase i) = some (entry, w))
    (hok : ok db.directory ⟨i, entry, w⟩) :
    Linearized s inv ok start db' (update phase i p') (log ++ [⟨i, entry, w⟩]) := by
  obtain ⟨hcoherent, hdirectory⟩ := h.coherent.does hadmissible hdoes
  obtain ⟨hover, hover', -⟩ := hdoes.made
  have hnew : i ∉ log.map Made.client := by
    intro hmem
    obtain ⟨m, hm, rfl⟩ := mem_map.mp hmem
    have hm' := h.ended m hm
    rw [hover] at hm'
    cases hm'
  refine ⟨hcoherent, fun j => ?_, ?_, fun m hm => ?_, fun j hsucceeded hrefusal => ?_,
    fun m hm => ?_, fun before m after hlog => ?_, ?_⟩
  · exact (forall_update_iff phase fun j p => p.Holds s (inv j)).mpr
      ⟨hholds, fun j _ => h.holds j⟩ j
  · rw [map_append]
    refine nodup_append.mpr ⟨h.nodup, nodup_singleton i, ?_⟩
    rintro j hj _ hi rfl
    obtain rfl := mem_singleton.mp hi
    exact hnew hj
  · rcases mem_append.mp hm with hold | hlast
    · have hne : m.client ≠ i := fun heq => hnew (heq ▸ mem_map_of_mem hold)
      rw [update_of_ne hne]
      exact h.ended m hold
    · rw [mem_singleton.mp hlast, update_self]
      exact hover'
  · rw [map_append]
    by_cases hj : j = i
    · exact mem_append_right _ (by rw [hj]; exact mem_singleton_self i)
    · rw [update_of_ne hj] at hsucceeded
      exact mem_append_left _ (h.succeeded j hsucceeded hrefusal)
  · rcases mem_append.mp hm with hold | hlast
    · exact h.made m hold
    · rw [mem_singleton.mp hlast]
      exact toWrite_of_nextWrite (h.holds i) hnext
  · rcases eq_nil_or_concat after with rfl | ⟨rest, last, rfl⟩
    · obtain ⟨rfl, hm⟩ := append_inj' hlog rfl
      rw [← singleton_inj.mp hm, ← h.directory]
      exact hok
    · rw [concat_eq_append, ← cons_append, ← append_assoc] at hlog
      exact h.condition before m rest (append_inj' hlog rfl).1
  · rw [hdirectory, h.directory, replay, replay, foldl_append]
    rfl

end

lemma step (haccept : trees.Accepting) (hallowed : Allowed s inv ok ⟨db, phase⟩ i)
    {moved : Phase × ObaDB τ} (hmoved : stepPhase trees s (inv i) db (phase i) = some moved) :
    ∃ log', Linearized s inv ok start moved.2 (update phase i moved.1) log' ∧
      (log' = log ∨ ∃ m : Made ι, m.client = i ∧ log' = log ++ [m]) := by
  have hadmissible : ∀ entry w, nextWrite s (inv i) (phase i) = some (entry, w) →
      Admissible db (phase i) w := fun entry w hnext => (hallowed entry w hnext).1
  obtain ⟨made, hdoes⟩ := stepPhase_does haccept
    (fun entry w hnext => (hadmissible entry w hnext).writable) hmoved
  have hholds := (stepPhase_kept start (h.holds i) hmoved).1
  cases made with
  | none => exact ⟨log, h.quiet hadmissible hholds hdoes, .inl rfl⟩
  | some w =>
    obtain ⟨-, -, entry, hnext⟩ := hdoes.made
    exact ⟨_, h.write hadmissible hholds hdoes hnext (hallowed entry w hnext).2, .inr ⟨_, rfl, rfl⟩⟩

end Linearized

variable {schedule whole : List ι} {e : Entry}

/-! ## What the clients have read -/

variable (trees s inv ok db i schedule e) in
/-- At some point of the schedule the client has read the entry in the database of that point. -/
def HasRead : Prop :=
  ∃ before state tx, before ++ [i] <+: schedule ∧ Runs trees s inv ok db before state ∧
    state.phase i = .begun tx ∧ (state.db.get tx (inv i).request.dn).1.toOption = some e

lemma HasRead.mono (h : HasRead trees s inv ok db i schedule e) (hwhole : schedule <+: whole) :
    HasRead trees s inv ok db i whole e := by
  obtain ⟨before, state, tx, hbefore, hread⟩ := h
  exact ⟨before, state, tx, hbefore.trans hwhole, hread⟩

/-- The entry that a client holds was read in an earlier step. -/
lemma Runs.hasRead (hrun : Runs trees s inv ok db schedule sys)
    (hheld : (sys.phase i).held = some e) : HasRead trees s inv ok db i schedule e := by
  induction hrun with
  | nil => cases hheld
  | @snoc trace state next j hprev _ hstep ih =>
    obtain ⟨moved, hmoved, rfl⟩ := map_eq_some_iff.mp hstep
    by_cases hi : i = j
    · subst hi
      dsimp only at hheld
      rw [update_self] at hheld
      rcases held_stepPhase hmoved hheld with ⟨tx, hbegun, hget⟩ | hold
      · exact ⟨trace, state, tx, prefix_rfl, hprev, hbegun, hget⟩
      · exact (ih hold).mono (prefix_append ..)
    · dsimp only at hheld
      rw [update_of_ne hi] at hheld
      exact (ih hheld).mono (prefix_append ..)

/-- Every write is made from an entry that its client has read. -/
lemma Runs.noted (hrun : Runs trees s inv ok db schedule sys) (hwhole : schedule <+: whole) :
    Runs trees s inv
      (fun _ m => ∀ e, m.entry = some e → HasRead trees s inv ok db m.client whole e)
      db schedule sys := by
  induction hrun with
  | nil => exact .nil
  | @snoc trace state next j hprev hallowed hstep ih =>
    have htrace : trace <+: whole := (prefix_append ..).trans hwhole
    refine .snoc (ih htrace) (fun entry w hnext =>
      ⟨(hallowed entry w hnext).1, fun e he => ?_⟩) hstep
    exact (Runs.hasRead hprev ((held_of_nextWrite hnext).trans he)).mono htrace

section

variable (haccept : trees.Accepting) (hquiet : Quiet db)
  (hrun : Runs trees s inv ok db schedule sys)
include haccept hquiet hrun

/-- Every run has its writes in the order of the steps that made them. -/
lemma Runs.linearized : ∃ log, Linearized s inv ok db.directory sys.db sys.phase log ∧
      (log.map Made.client).Sublist schedule := by
  induction hrun with
  | nil => exact ⟨[], .initial hquiet, .slnil⟩
  | @snoc trace sys next i _ hallowed hstep ih =>
    obtain ⟨log, h, hsublist⟩ := ih
    obtain ⟨moved, hmoved, rfl⟩ := map_eq_some_iff.mp hstep
    obtain ⟨log', h', hlog⟩ := h.step haccept hallowed hmoved
    refine ⟨log', h', ?_⟩
    rcases hlog with rfl | ⟨m, rfl, rfl⟩
    · exact hsublist.trans (sublist_append_left ..)
    · rw [map_append]
      exact hsublist.append (.refl _)

/-- What follows from the condition of a run at its directories may replace it. -/
lemma Runs.strengthen {ok' : (Bytes → Option Attributes) → Made ι → Prop}
    (h : ∀ (state : System τ ι) log i entry w,
      Linearized s inv ok db.directory state.db state.phase log →
        nextWrite s (inv i) (state.phase i) = some (entry, w) →
          ok state.db.directory ⟨i, entry, w⟩ → ok' state.db.directory ⟨i, entry, w⟩) :
    Runs trees s inv ok' db schedule sys := by
  induction hrun with
  | nil => exact .nil
  | @snoc trace sys next i hprev hallowed hstep ih =>
    obtain ⟨log, hlog, -⟩ := Runs.linearized haccept hquiet hprev
    exact .snoc ih (fun entry w hnext =>
      (hallowed entry w hnext).imp_right (h sys log i entry w hlog hnext)) hstep

/-- A database that clients have left, all of them done, may be the start of other runs. -/
lemma Runs.quiet (hdone : ∀ i, (sys.phase i).returned.isSome) : Quiet sys.db := by
  obtain ⟨log, hlog, -⟩ := hrun.linearized haccept hquiet
  refine hlog.coherent.quiet fun i tx hi => ?_
  have hsome := hdone i
  rw [hi] at hsome
  cases hsome

end

/-- A client that has taken a step is in the schedule. -/
lemma Runs.mem_schedule (hrun : Runs trees s inv ok db schedule sys)
    (hmoved : sys.phase i ≠ .idle) : i ∈ schedule := by
  induction hrun with
  | nil => exact absurd rfl hmoved
  | @snoc trace state next j hprev _ hstep ih =>
    obtain ⟨moved, -, rfl⟩ := map_eq_some_iff.mp hstep
    by_cases hi : i = j
    · exact mem_append_right _ (by rw [hi]; exact mem_singleton_self j)
    · dsimp only at hmoved
      rw [update_of_ne hi] at hmoved
      exact mem_append_left _ (ih hmoved)

end Oba.Backend
