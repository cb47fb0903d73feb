import Mathlib.Data.List.Basic
import Mathlib.Tactic.MkIffOfInductiveProp

/-! # Scanners

A scanner takes a state to a result and the state after it, also when it fails. Scanners are put
together in sequence; a failure ends the sequence in the state in which it happened.
-/

/-- A scanner over states `σ` with errors `ε`. -/
def Scanner (σ ε α : Type) : Type := σ → Except ε α × σ

namespace Scanner

variable {σ ε ε' α β : Type}

instance : Monad (Scanner σ ε) where
  pure a := fun s => (.ok a, s)
  bind p f := fun s =>
    match p s with
    | (.ok a, s) => f a s
    | (.error err, s) => (.error err, s)

def fail (err : ε) : Scanner σ ε α := fun s => (.error err, s)

/-- The state before the next step. -/
def here : Scanner σ ε σ := fun s => (.ok s, s)

/-- Go back to a state. -/
def restore (s : σ) : Scanner σ ε Unit := fun _ => (.ok (), s)

/-- Change the error of a failure, which may depend on where it happened. -/
def mapError (f : σ → ε → ε') (p : Scanner σ ε α) : Scanner σ ε' α := fun s =>
  match p s with
  | (.ok a, s) => (.ok a, s)
  | (.error err, s) => (.error (f s err), s)

variable {s t : σ} {p : Scanner σ ε α} {a : α} {f : σ → ε → ε'}

lemma pure_ok {b : α} : (pure a : Scanner σ ε α) s = (.ok b, t) ↔ a = b ∧ s = t := by
  have hpure : (pure a : Scanner σ ε α) s = (.ok a, s) := rfl
  rw [hpure, Prod.mk.injEq, Except.ok.injEq]

lemma bind_eq (p : Scanner σ ε α) (f : α → Scanner σ ε β) (s : σ) :
    (p >>= f) s = match p s with
      | (.ok a, s) => f a s
      | (.error err, s) => (.error err, s) := rfl

/-- A sequence succeeds just if its parts do. -/
lemma bind_ok {f : α → Scanner σ ε β} {b : β} :
    (p >>= f) s = (.ok b, t) ↔ ∃ a u, p s = (.ok a, u) ∧ f a u = (.ok b, t) := by
  rw [bind_eq]
  cases hp : p s with | mk result u =>
  cases result with
  | ok a =>
    constructor
    · intro h
      exact ⟨a, u, rfl, h⟩
    · rintro ⟨a', u', heq, h⟩
      cases heq
      exact h
  | error err =>
    constructor
    · intro h
      cases h
    · rintro ⟨a', u', heq, -⟩
      cases heq

lemma bind_of_ok {u : σ} (h : p s = (.ok a, u)) (f : α → Scanner σ ε β) :
    (p >>= f) s = f a u := by
  rw [bind_eq, h]

lemma mapError_ok : mapError f p s = (.ok a, t) ↔ p s = (.ok a, t) := by
  unfold mapError
  cases hp : p s with | mk result u =>
  cases result with
  | ok | error => simp

lemma mapError_error {err : ε'} (h : mapError f p s = (.error err, t)) :
    ∃ cause, p s = (.error cause, t) := by
  unfold mapError at h
  cases hp : p s with | mk result u =>
  rw [hp] at h
  cases result with
  | ok a => cases h
  | error cause =>
    cases h
    exact ⟨cause, rfl⟩

lemma here_bind (f : σ → Scanner σ ε β) (s : σ) : (here >>= f) s = f s s := rfl

lemma restore_eq (s t : σ) : (restore s : Scanner σ ε Unit) t = (.ok (), s) := rfl

lemma fail_ne_ok {err : ε} : (fail err : Scanner σ ε α) s ≠ (.ok a, t) := by
  intro h
  cases h

/-! ## Loops -/

/-- `for more { p }`, with the results in their order. -/
def many (more : σ → Bool) (p : Scanner σ ε α) : Nat → Scanner σ ε (List α)
  | 0 => pure []
  | fuel + 1 => fun s =>
    if more s then (p >>= fun a => many more p fuel >>= fun as => pure (a :: as)) s
    else (.ok [], s)

lemma many_succ (more : σ → Bool) (p : Scanner σ ε α) (fuel : Nat) (s : σ) :
    many more p (fuel + 1) s =
      if more s then (p >>= fun a => many more p fuel >>= fun as => pure (a :: as)) s
      else (.ok [], s) := rfl

/-- A loop depends on what its body does to the states that it meets. -/
lemma many_congr (more : σ → Bool) {q : Scanner σ ε α} {meets : σ → Prop}
    (heq : ∀ s, meets s → p s = q s) (hkeep : ∀ s a t, meets s → p s = (.ok a, t) → meets t)
    (hs : meets s) (fuel : Nat) : many more p fuel s = many more q fuel s := by
  induction fuel generalizing s with
  | zero => rfl
  | succ fuel ih =>
    rw [many_succ, many_succ]
    split
    · rw [bind_eq, bind_eq, ← heq s hs]
      cases hp : p s with | mk result t =>
      cases result with
      | ok a =>
        dsimp only
        rw [bind_eq, bind_eq, ih (hkeep s a t hs hp)]
      | error err => rfl
    · rfl

/-- The runs of a loop that end because its condition fails. -/
@[mk_iff]
inductive Runs (more : σ → Bool) (p : Scanner σ ε α) : σ → List α → σ → Prop
  | stop {s : σ} : more s = false → Runs more p s [] s
  | step {s t u : σ} {a : α} {as : List α} : more s = true → p s = (.ok a, t) →
      Runs more p t as u → Runs more p s (a :: as) u

/-- `for more { p }` that ends at the first failure. The state is then made of those before and
after the step that failed. -/
def attempts (more : σ → Bool) (p : Scanner σ ε α) (giveUp : σ → σ → σ) : Nat → Scanner σ ε (List α)
  | 0 => pure []
  | fuel + 1 => fun s =>
    if more s then
      match p s with
      | (.ok a, t) => (attempts more p giveUp fuel >>= fun as => pure (a :: as)) t
      | (.error _, t) => (.ok [], giveUp s t)
    else (.ok [], s)

lemma attempts_succ (more : σ → Bool) (p : Scanner σ ε α) (giveUp : σ → σ → σ) (fuel : Nat)
    (s : σ) :
    attempts more p giveUp (fuel + 1) s =
      if more s then
        match p s with
        | (.ok a, t) => (attempts more p giveUp fuel >>= fun as => pure (a :: as)) t
        | (.error _, t) => (.ok [], giveUp s t)
      else (.ok [], s) := rfl

/-- The runs of a loop that ends at the first failure. -/
@[mk_iff]
inductive Tries (more : σ → Bool) (p : Scanner σ ε α) (giveUp : σ → σ → σ) :
    σ → List α → σ → Prop
  | stop {s : σ} : more s = false → Tries more p giveUp s [] s
  | failed {s t : σ} {err : ε} : more s = true → p s = (.error err, t) →
      Tries more p giveUp s [] (giveUp s t)
  | step {s t u : σ} {a : α} {as : List α} : more s = true → p s = (.ok a, t) →
      Tries more p giveUp t as u → Tries more p giveUp s (a :: as) u

lemma Runs.tries {more : σ → Bool} {as : List α} (h : Runs more p s as t) (giveUp : σ → σ → σ) :
    Tries more p giveUp s as t := by
  induction h with
  | stop hstop => exact .stop hstop
  | step hgo ha _ ih => exact .step hgo ha ih

section

variable {more : σ → Bool} (measure : σ → Nat) (hmore : ∀ s, more s = true → 0 < measure s)
include hmore

lemma stops_of_measure (hfuel : measure s ≤ 0) : more s = false := by
  by_contra hgo
  have := hmore s (by simpa using hgo)
  omega

variable (hless : ∀ s a t, more s = true → p s = (.ok a, t) → measure t < measure s) {fuel : Nat}
  {as : List α} (hfuel : measure s ≤ fuel)
include hless hfuel

/-- A loop whose steps make a measure smaller does not run out of fuel. -/
lemma many_ok : many more p fuel s = (.ok as, t) ↔ Runs more p s as t := by
  induction fuel generalizing s as with
  | zero =>
    rw [many, pure_ok, runs_iff]
    simp [stops_of_measure measure hmore hfuel, eq_comm]
  | succ fuel ih =>
    rw [many_succ, runs_iff]
    cases hgo : more s with
    | false => simp [eq_comm]
    | true =>
      have hrest : ∀ a u rest, p s = (.ok a, u) →
          (many more p fuel u = (.ok rest, t) ↔ Runs more p u rest t) := fun a u rest ha => by
        have := hless s a u hgo ha
        exact ih (by omega)
      simp only [if_true, bind_ok, pure_ok]
      aesop

lemma attempts_ok {giveUp : σ → σ → σ} :
    attempts more p giveUp fuel s = (.ok as, t) ↔ Tries more p giveUp s as t := by
  induction fuel generalizing s as with
  | zero =>
    rw [attempts, pure_ok, tries_iff]
    simp [stops_of_measure measure hmore hfuel, eq_comm]
  | succ fuel ih =>
    rw [attempts_succ, tries_iff]
    cases hgo : more s with
    | false => simp [eq_comm]
    | true =>
      cases hp : p s with | mk result u =>
      cases result with
      | error err => simp [eq_comm]
      | ok a =>
        have := hless s a u hgo hp
        have hrest : ∀ rest, attempts more p giveUp fuel u = (.ok rest, t) ↔
            Tries more p giveUp u rest t := fun rest => ih (by omega)
        simp only [if_true, bind_ok, pure_ok]
        aesop

end

end Scanner
