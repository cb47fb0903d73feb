import Oba.Backend.Linearization

/-! # Adds of one entry

An add looks for the entry and writes it in separate steps. If nothing is there when it writes,
at most one add of a DN succeeds until the entry is deleted.
-/

namespace Oba.Backend

open Storage ObaDB List

section

variable {τ ι : Type} {trees : IndexTrees τ} {s : Settings} (inv : ι → Invocation)

/-- An add finds no entry at its DN. -/
def Free (directory : Bytes → Option Attributes) (m : Made ι) : Prop :=
  (inv m.client).request.isAdd → directory m.call.dn = none

instance (directory : Bytes → Option Attributes) (m : Made ι) : Decidable (Free inv directory m) :=
  inferInstanceAs (Decidable (_ → _))

/-- The writes in the order of the schedule, when adds of one DN exclude each other: between two
of them there is a delete, and what is stored is the entry of the last one. -/
structure AddsInTurn (s : Settings) (schedule : List ι) (sys : System τ ι) (log : List (Made ι)) :
    Prop where
  order : (log.map Made.client).Sublist schedule
  nodup : (log.map Made.client).Nodup
  made : ∀ m ∈ log, (inv m.client).toWrite s m.entry = .ok m.call
  succeeded : ∀ i, (sys.phase i).returned = some (.ok ()) → i ∈ log.map Made.client
  exclusive : ∀ before first between second after,
    log = before ++ first :: between ++ second :: after →
    (inv first.client).request.isAdd → (inv second.client).request.isAdd →
    first.call.dn = second.call.dn →
    ∃ m ∈ between, (inv m.client).request.isDelete ∧ m.call.dn = first.call.dn
  stored : ∀ before m after entry bindDN new, log = before ++ m :: after →
    (inv m.client).request = .add entry bindDN → (inv m.client).addEntry s entry bindDN = .ok new →
    (∀ later ∈ after, (inv later.client).request.isDelete → later.call.dn ≠ m.call.dn) →
    (∀ i, (sys.phase i).tx = none) → current sys.db new.dn = .ok new

variable {inv} {m : Made ι}

lemma isSome_value_of_isAdd (hadd : (inv m.client).request.isAdd)
    (hmade : (inv m.client).toWrite s m.entry = .ok m.call) : m.call.value.isSome := by
  cases hrequest : (inv m.client).request with
  | add entry bindDN =>
    obtain ⟨new, -, hput⟩ := Invocation.toWrite_add hrequest hmade
    rw [hput]
    rfl
  | delete | deleteEntry | modify =>
    rw [hrequest] at hadd
    cases hadd

lemma value_of_isDelete (hdelete : (inv m.client).request.isDelete)
    (hmade : (inv m.client).toWrite s m.entry = .ok m.call) : m.call.value = none := by
  cases hrequest : (inv m.client).request with
  | delete dn =>
    rw [Invocation.toWrite_delete (.inl hrequest) hmade]
    rfl
  | deleteEntry dn =>
    rw [Invocation.toWrite_delete (.inr hrequest) hmade]
    rfl
  | add | modify =>
    rw [hrequest] at hdelete
    cases hdelete

/-- An add or a delete that has returned success has made its write. -/
lemma Linearized.mem_of_returned {ok : (Bytes → Option Attributes) → Made ι → Prop}
    {start : Bytes → Option Attributes} {db : ObaDB τ} {phase : ι → Phase} {log : List (Made ι)}
    (h : Linearized s inv ok start db phase log) {i : ι}
    (hrequest : (inv i).request.isAdd ∨ (inv i).request.isDelete)
    (hi : (phase i).returned = some (.ok ())) : i ∈ log.map Made.client := by
  have hphase := Phase.returned_eq_some.mp hi
  refine h.succeeded i (by rw [hphase]; rfl) ?_
  have hholds := h.holds i
  rw [hphase] at hholds
  by_contra hrefusal
  obtain ⟨result, hresult⟩ := Option.ne_none_iff_exists'.mp hrefusal
  exact Request.refusal_ne_ok hrequest (hholds result hresult ▸ hresult)

end

/-- If every add finds nothing when it writes, adds of one DN exclude each other. -/
theorem adds_exclusive {τ ι : Type} [DecidableEq ι] {trees : IndexTrees τ}
    (haccept : trees.Accepting) {s : Settings} {inv : ι → Invocation}
    (hrequests : ∀ i, (inv i).request.isAdd ∨ (inv i).request.isDelete)
    {start : ObaDB τ} (hquiet : Quiet start) {schedule : List ι} {sys : System τ ι}
    (hrun : Runs trees s inv (Free inv) start schedule sys) :
    ∃ log, AddsInTurn inv s schedule sys log := by
  obtain ⟨log, hlog, hsublist⟩ := hrun.linearized haccept hquiet
  have hmade : ∀ m ∈ log, (inv m.client).toWrite s m.entry = .ok m.call := fun m hm =>
    (hlog.made m hm).2
  have hexclusive : ∀ before first between second after,
      log = before ++ first :: between ++ second :: after →
      (inv first.client).request.isAdd → (inv second.client).request.isAdd →
      first.call.dn = second.call.dn →
      ∃ m ∈ between, (inv m.client).request.isDelete ∧ m.call.dn = first.call.dn := by
    intro before first between second after hsplit hfirst hsecond hsame
    by_contra hnone
    have hfree := hlog.condition (before ++ first :: between) second after hsplit hsecond
    rw [← hsame, replay_append, replay_cons] at hfree
    have hmem : ∀ m, m = first ∨ m ∈ between → m ∈ log := by
      intro m hm
      rw [hsplit, append_assoc]
      exact mem_append_right _ (hm.elim (fun h => h ▸ mem_cons_self)
        fun h => mem_cons_of_mem _ (mem_append_left _ h))
    have hputs : ∀ m ∈ between, m.call.dn = first.call.dn → m.call.value.isSome := by
      intro m hm hdn
      rcases hrequests m.client with hadd | hdelete
      · exact isSome_value_of_isAdd hadd (hmade m (hmem m (.inr hm)))
      · exact absurd ⟨m, hm, hdelete, hdn⟩ hnone
    have hfirstPut : (first.call.apply (replay start.directory before) first.call.dn).isSome := by
      rw [WriteCall.apply, Function.update_self]
      exact isSome_value_of_isAdd hfirst (hmade first (hmem first (.inl rfl)))
    have hsome := isSome_replay hfirstPut hputs
    rw [hfree] at hsome
    cases hsome
  refine ⟨log, hsublist, hlog.nodup, hmade, fun i hi => ?_, hexclusive, ?_⟩
  · exact hlog.mem_of_returned (hrequests i) hi
  · intro before m after entry bindDN new hsplit hrequest hnew hkept hended
    have hm : m ∈ log := hsplit ▸ mem_append_right _ mem_cons_self
    have hadd : (inv m.client).request.isAdd := by
      rw [hrequest]
      rfl
    have hother : ∀ later ∈ after, later.call.dn ≠ m.call.dn := by
      intro later hlater hdn
      rcases hrequests later.client with hlaterAdd | hdelete
      · obtain ⟨between, rest, rfl⟩ := append_of_mem hlater
        obtain ⟨deleted, hdeleted, hdelete, hsame⟩ := hexclusive before m between later rest
          (by rw [hsplit]; simp) hadd hlaterAdd hdn.symm
        exact hkept deleted (mem_append_left _ hdeleted) hdelete hsame
      · exact hkept later hlater hdelete hdn
    obtain ⟨new', hnew', hput⟩ := Invocation.toWrite_add hrequest (hmade m hm)
    obtain rfl := Except.ok.inj (hnew'.symm.trans hnew)
    have hdn : m.call.dn = new'.dn := by
      rw [hput, WriteCall.dn, Invocation.dn_of_addEntry hnew, normalizeDN_normalizeDN]
    have hdirectory : sys.db.directory new'.dn = some new'.attributes := by
      rw [hlog.directory, hsplit, replay_append, replay_cons, ← hdn, replay_of_ne hother,
        WriteCall.apply, Function.update_self, hput]
      rfl
    obtain ⟨path, hcanonical⟩ := canonical_of_directory hdirectory
    have hquiet' : Quiet sys.db := hlog.coherent.quiet fun i tx hi => by
      have hnone := hended i
      rw [hi] at hnone
      cases hnone
    rw [hquiet'.current_eq hcanonical, hdirectory]

/-! ## Two persons -/

/-- The person is added, deleted and added again. -/
def addDeleteAdd : Fin 3 → Invocation
  | 0 => .plain (.add (person "1") [])
  | 1 => .plain (.delete personDN)
  | 2 => .plain (.add (person "2") [])

/-- One client after the other. -/
def threeInTurn (first second third : Nat) : List (Fin 3) :=
  replicate first 0 ++ replicate second 1 ++ replicate third 2

def addedAgain : Option (System Unit (Fin 3)) :=
  allowedExec .empty (server false) addDeleteAdd (Free addDeleteAdd) (new ())
    (threeInTurn 4 7 4)

lemma isSome_addedAgain : addedAgain.isSome := by decide +kernel

theorem adds_exclusive_addedAgain :
    (∀ i, ((addedAgain.get isSome_addedAgain).phase i).returned = some (.ok ())) ∧
      ∃ log, AddsInTurn addDeleteAdd (server false) (threeInTurn 4 7 4)
        (addedAgain.get isSome_addedAgain) log :=
  ⟨by decide +kernel, adds_exclusive accepting_empty (by decide +kernel) quiet_new
    (runs_allowedExec .empty (server false) addDeleteAdd isSome_addedAgain)⟩

/-- Each of two clients adds the person, with another value. -/
def addPerson (first : Bool) : Invocation :=
  .plain (.add (person (if first then "1" else "2")) [])

/-- Both clients look for the person before one of them writes. -/
def bothLook (cluster : Bool) : List Bool :=
  if cluster then [true, true, true, false, false, false, true, true, false, false]
  else [true, false, true, false, true, true, false, false]

/-- Both adds of the person to a new database return success. -/
def AddedTwice (cluster : Bool) : Prop :=
  ∃ sys, (System.initial (new ())).exec .empty (server cluster) addPerson (bothLook cluster) =
      some sys ∧ ∀ i, (addPerson i).request.isAdd ∧ (addPerson i).request.dn = personDN ∧
        (sys.phase i).returned = some (.ok ())

/-- Both modes let two adds of one entry succeed. -/
theorem added_twice : AddedTwice false ∧ AddedTwice true := by
  have hadded : ∀ cluster, ∃ sys ∈ (System.initial (new ())).exec .empty (server cluster) addPerson
      (bothLook cluster), ∀ i, (addPerson i).request.isAdd ∧
        (addPerson i).request.dn = personDN ∧ (sys.phase i).returned = some (.ok ()) := by
    decide +kernel
  exact ⟨hadded false, hadded true⟩

end Oba.Backend
