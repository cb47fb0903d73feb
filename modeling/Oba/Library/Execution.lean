import Mathlib.Logic.Basic
import Mathlib.Data.List.Induction

/-! # Executions of a partial step function

A system is a partial step function on a state and an action. A run is a finite
list of actions whose steps all succeed and all satisfy a side condition. Safety
is proved by one invariant rule, and history variables are added to a system
without changing its runs.
-/

namespace Execution

open List Option

variable {State Action History : Type*}

/-- The runs of `step` from `start` in which every step taken satisfies `ok`. -/
inductive Run (step : State → Action → Option State) (ok : State → Action → Prop)
    (start : State) : List Action → State → Prop
  | nil : Run step ok start [] start
  | snoc {trace : List Action} {state next : State} {action : Action} :
      Run step ok start trace state → ok state action → step state action = some next →
      Run step ok start (trace ++ [action]) next

/-- Execute a list of actions, stopping as soon as one is not enabled. -/
def exec (step : State → Action → Option State) (start : State) (trace : List Action) :
    Option State :=
  trace.foldlM step start

section Rules

variable {step : State → Action → Option State} {ok weak : State → Action → Prop}
variable {start final : State} {trace : List Action}

/-- The invariant rule: what holds at the start and is kept by every step holds at
the end of every run. -/
lemma Run.invariant (P : State → Prop) (hrun : Run step ok start trace final) (hstart : P start)
    (hstep : ∀ state action next, P state → ok state action → step state action = some next →
      P next) : P final := by
  induction hrun with
  | nil => exact hstart
  | snoc _ hok hnext ih => exact hstep _ _ _ ih hok hnext

lemma Run.mono (hrun : Run step ok start trace final)
    (hweak : ∀ state action, ok state action → weak state action) :
    Run step weak start trace final := by
  induction hrun with
  | nil => exact Run.nil
  | snoc _ hok hnext ih => exact Run.snoc ih (hweak _ _ hok) hnext

end Rules

/-- The step function that also checks the side condition. -/
def guarded (step : State → Action → Option State) (ok : State → Action → Prop)
    [∀ state action, Decidable (ok state action)] : State → Action → Option State :=
  fun state action => if ok state action then step state action else none

variable {step : State → Action → Option State} {ok : State → Action → Prop} {start final : State}
  {trace : List Action}

/-- A run is found by executing the guarded step function. -/
lemma run_of_exec [∀ state action, Decidable (ok state action)]
    (hexec : exec (guarded step ok) start trace = some final) : Run step ok start trace final := by
  induction trace using reverseRecOn generalizing final with
  | nil =>
    obtain rfl : start = final := by simpa [exec] using hexec
    exact Run.nil
  | append_singleton earlier action ih =>
    simp only [exec, foldlM_append, bind_eq_bind, bind_eq_some_iff,
      foldlM_cons, foldlM_nil] at hexec ih
    obtain ⟨middle, hmiddle, next, hnext, hfinal⟩ := hexec
    obtain rfl : next = final := by simpa using hfinal
    obtain ⟨hok, hstep⟩ := ite_none_right_eq_some.mp hnext
    exact Run.snoc (ih hmiddle) hok hstep

lemma exists_run [∀ state action, Decidable (ok state action)] {P : State → Prop}
    (h : ∃ final ∈ exec (guarded step ok) start trace, P final) :
    ∃ final, Run step ok start trace final ∧ P final :=
  h.imp fun _ hfinal => hfinal.imp_left run_of_exec

/-- If every step of a run can be followed from a related state, the whole run can. -/
lemma Run.exec_related (R : State → State → Prop) (other : State)
    (hrun : Run step ok start trace final) (hstart : R start other)
    (hstep : ∀ state action next other, R state other → ok state action →
      step state action = some next → ∃ other', step other action = some other' ∧ R next other') :
    ∃ last, exec step other trace = some last ∧ R final last := by
  induction hrun with
  | nil => exact ⟨other, rfl, hstart⟩
  | snoc _ hok hnext ih =>
    obtain ⟨middle, hexec, hmiddle⟩ := ih
    obtain ⟨last, hlast, hrelated⟩ := hstep _ _ _ _ hmiddle hok hnext
    refine ⟨last, ?_, hrelated⟩
    unfold exec at hexec ⊢
    simp [foldlM_append, hexec, hlast]

/-! ## Total step functions -/

/-- A run of a total step function is determined by its actions. -/
lemma run_total_iff {step : State → Action → State} :
    Run (fun state action => some (step state action)) ok start trace final ↔
      final = trace.foldl step start ∧
        ∀ before action after, trace = before ++ action :: after →
          ok (before.foldl step start) action := by
  constructor
  · intro hrun
    induction hrun with
    | nil =>
      refine ⟨rfl, fun before action after htrace => ?_⟩
      have hlength := congrArg length htrace
      simp at hlength
    | @snoc trace state next action hprev hok hnext ih =>
      obtain ⟨rfl, hall⟩ := ih
      refine ⟨?_, fun before action' after htrace => ?_⟩
      · rw [foldl_append]
        exact (some.inj hnext).symm
      · rcases eq_nil_or_concat after with rfl | ⟨rest, last, rfl⟩
        · obtain ⟨rfl, haction⟩ := append_inj' htrace rfl
          rw [← singleton_inj.mp haction]
          exact hok
        · rw [concat_eq_append, ← cons_append, ← append_assoc] at htrace
          exact hall before action' rest (append_inj' htrace rfl).1
  · rintro ⟨rfl, hall⟩
    induction trace using reverseRecOn with
    | nil => exact .nil
    | append_singleton earlier action ih =>
      rw [foldl_append]
      refine .snoc (ih fun before action' after htrace =>
        hall before action' (after ++ [action]) ?_) (hall earlier action [] rfl) rfl
      rw [htrace, append_assoc, cons_append]

lemma foldl_self (step : State → Action → State) (h : ∀ action ∈ trace, step start action = start) :
    trace.foldl step start = start :=
  foldlRecOn trace step (motive := (· = start)) rfl fun _ heq action haction =>
    heq ▸ h action haction

section Loops

variable {step : State → Action → State} (count : State → Nat)
  (hle : ∀ state action, count state ≤ count (step state action))
include hle

lemma le_foldl (trace : List Action) (start : State) :
    count start ≤ count (trace.foldl step start) :=
  foldlRecOn trace step (motive := fun state => count start ≤ count state) (Nat.le_refl _)
    fun state h action _ => Nat.le_trans h (hle state action)

/-- What a loop keeps up as long as a counter is zero that it never lowers. -/
lemma foldl_while_zero (P : List Action → List Action → State → Prop)
    (hzero : count (trace.foldl step start) = 0) (hstart : P [] trace start)
    (hstep : ∀ done action todo state, trace = done ++ action :: todo →
      P done (action :: todo) state → count (step state action) = 0 →
      P (done ++ [action]) todo (step state action)) : P trace [] (trace.foldl step start) := by
  have hloop : ∀ todo done state, trace = done ++ todo → P done todo state →
      count (todo.foldl step state) = 0 → P trace [] (todo.foldl step state) := by
    intro todo
    induction todo with
    | nil =>
      intro done state htrace h _
      rwa [htrace, append_nil]
    | cons action todo ih =>
      intro done state htrace h hzero
      refine ih (done ++ [action]) _ (by rw [htrace, append_cons]) ?_ hzero
      exact hstep done action todo state htrace h
        (Nat.eq_zero_of_le_zero (hzero ▸ le_foldl count hle todo (step state action)))
  exact hloop trace [] start rfl hstart hzero

end Loops

/-! ## History variables -/

/-- The system that also carries a history, updated after each step. -/
def withHistory (step : State → Action → Option State)
    (record : History → State → Action → State → History) :
    State × History → Action → Option (State × History) :=
  fun current action =>
    (step current.1 action).map fun next => (next, record current.2 current.1 action next)

/-- Every run of a system is the visible part of a run of the system with history. -/
lemma Run.exists_history (record : History → State → Action → State → History)
    (initial : History) (hrun : Run step ok start trace final) :
    ∃ history, Run (withHistory step record) (fun current action => ok current.1 action)
      (start, initial) trace (final, history) := by
  induction hrun with
  | nil => exact ⟨initial, Run.nil⟩
  | @snoc _ state next action _ hok hnext ih =>
    obtain ⟨history, hrun⟩ := ih
    refine ⟨record history state action next, Run.snoc hrun hok ?_⟩
    simp [withHistory, hnext]

lemma withHistory_eq_some {record : History → State → Action → State → History}
    {current next : State × History} {action : Action}
    (hstep : withHistory step record current action = some next) :
    step current.1 action = some next.1 ∧
      next.2 = record current.2 current.1 action next.1 := by
  simp only [withHistory, map_eq_some_iff] at hstep
  obtain ⟨state, hstate, rfl⟩ := hstep
  exact ⟨hstate, rfl⟩

end Execution
