import Mathlib.Data.List.Basic

/-! # The lockout of an account

A success forgets the failures but not the time of the last lock. Whether the account stays
unlocked until enough further failures are recorded then depends on the changes of the duration.
-/

namespace Oba.Password

open List

/-- Times and durations are nanoseconds; the time zero stands for no lock. -/
structure AccountLockout where
  failureTimes : List Int
  lockedTime : Int
  maxFailures : Int
  lockoutDuration : Int
  failureWindow : Int

def newAccountLockout (maxFailures lockoutDuration failureWindow : Int) : AccountLockout :=
  ⟨[], 0, maxFailures, lockoutDuration, failureWindow⟩

namespace AccountLockout

def pruneFailuresBefore (failureTimes : List Int) (cutoff : Int) : List Int :=
  failureTimes.dropWhile (· < cutoff)

def recordFailureAt (l : AccountLockout) (now : Int) : AccountLockout :=
  let times := l.failureTimes ++ [now]
  let times := if 0 < l.failureWindow then pruneFailuresBefore times (now - l.failureWindow)
    else times
  { l with
    failureTimes := times
    lockedTime := if 0 < l.maxFailures ∧ l.maxFailures ≤ times.length then now else l.lockedTime }

def isLockedAt (l : AccountLockout) (now : Int) : Bool :=
  if l.lockedTime = 0 then false
  else if l.lockoutDuration = 0 then true
  else now - l.lockedTime < l.lockoutDuration

def recordSuccess (l : AccountLockout) : AccountLockout :=
  { l with failureTimes := [] }

def setMaxFailures (l : AccountLockout) (maxFailures : Int) : AccountLockout :=
  { l with maxFailures }

def setLockoutDuration (l : AccountLockout) (duration : Int) : AccountLockout :=
  { l with lockoutDuration := duration }

end AccountLockout

/-- A lock of the given time is no longer, or was never, in force. -/
def Past (lockedTime duration now : Int) : Prop :=
  lockedTime = 0 ∨ duration ≠ 0 ∧ duration ≤ now - lockedTime

variable {l : AccountLockout} {now : Int}

lemma isLockedAt_eq_false_iff :
    l.isLockedAt now = false ↔ Past l.lockedTime l.lockoutDuration now := by
  unfold AccountLockout.isLockedAt Past
  split
  next hzero => simp [hzero]
  next hzero =>
    split
    next hforever => simp [hzero, hforever]
    next hforever => simp [hzero, hforever]

lemma length_recordFailureAt :
    (l.recordFailureAt now).failureTimes.length ≤ l.failureTimes.length + 1 := by
  have happend : (l.failureTimes ++ [now]).length = l.failureTimes.length + 1 := length_append
  rw [AccountLockout.recordFailureAt, ← happend]
  dsimp only
  split
  · exact (dropWhile_sublist _).length_le
  · exact Nat.le_refl _

lemma lockedTime_recordFailureAt
    (hfew : ¬(0 < l.maxFailures ∧ l.maxFailures ≤ (l.recordFailureAt now).failureTimes.length)) :
    (l.recordFailureAt now).lockedTime = l.lockedTime :=
  if_neg hfew

/-! ## Sequences of calls -/

inductive Call where
  | recordFailureAt
  | recordSuccess
  | isLockedAt
  | setMaxFailures (maxFailures : Int)
  | setLockoutDuration (duration : Int)

structure Event where
  time : Int
  call : Call

/-- The lockout of an account and the time of the last call. -/
structure Watch where
  lockout : AccountLockout
  now : Int
  /-- The failures since the last success, until they reach the maximum of their time. -/
  further : Option Nat := none

def Watch.step (w : Watch) (e : Event) : Watch :=
  match e.call with
  | .recordFailureAt =>
    ⟨w.lockout.recordFailureAt e.time, e.time, w.further.bind fun n =>
      if 0 < w.lockout.maxFailures ∧ w.lockout.maxFailures ≤ n + 1 then none else some (n + 1)⟩
  | .recordSuccess => ⟨w.lockout.recordSuccess, e.time, some 0⟩
  | .isLockedAt => ⟨w.lockout, e.time, w.further⟩
  | .setMaxFailures n => ⟨w.lockout.setMaxFailures n, e.time, w.further⟩
  | .setLockoutDuration d => ⟨w.lockout.setLockoutDuration d, e.time, w.further⟩

/-- Time does not go back, and nobody logs in to a locked account. -/
def Orderly (w : Watch) (e : Event) : Prop :=
  w.now ≤ e.time ∧ (e.call = .recordSuccess → w.lockout.isLockedAt e.time = false)

/-- A new duration does not bring back a lock of before the last success. -/
def Mild (w : Watch) (e : Event) : Prop :=
  ∀ d, e.call = .setLockoutDuration d → w.further.isSome → Past w.lockout.lockedTime d e.time

/-- Since the last success too few failures were recorded, so the account is not locked. -/
def Watch.Unlocked (w : Watch) : Prop :=
  w.further.isSome → ∀ t, w.now ≤ t → w.lockout.isLockedAt t = false

/-- Every call satisfies a condition in the state that it finds. -/
def Throughout (P : Watch → Event → Prop) : Watch → List Event → Prop
  | _, [] => True
  | w, e :: events => P w e ∧ Throughout P (w.step e) events

def Watch.Kept (w : Watch) : Prop :=
  ∀ n, w.further = some n → w.lockout.failureTimes.length ≤ n ∧
    Past w.lockout.lockedTime w.lockout.lockoutDuration w.now

variable {w : Watch} {e : Event}

lemma Past.mono {lockedTime duration t : Int} (h : Past lockedTime duration now) (ht : now ≤ t) :
    Past lockedTime duration t :=
  h.imp_right fun ⟨hne, hle⟩ => ⟨hne, by omega⟩

lemma Watch.Kept.unlocked (h : w.Kept) : w.Unlocked := by
  intro hfurther t ht
  obtain ⟨n, hn⟩ := Option.isSome_iff_exists.mp hfurther
  exact isLockedAt_eq_false_iff.mpr ((h n hn).2.mono ht)

lemma mild_of_unlocked (h : (w.step e).Unlocked) : Mild w e := by
  intro d hcall hfurther
  unfold Watch.step at h
  rw [hcall] at h
  exact isLockedAt_eq_false_iff.mp (h hfurther e.time (Int.le_refl _))

lemma Watch.Kept.step (h : w.Kept) (horderly : Orderly w e) (hmild : Mild w e) :
    (w.step e).Kept := by
  obtain ⟨htime, hsuccess⟩ := horderly
  intro n hn
  unfold Watch.step at hn ⊢
  cases hcall : e.call with
  | recordFailureAt =>
    simp only [hcall, Option.bind_eq_some_iff, Option.ite_none_left_eq_some,
      Option.some.injEq] at hn ⊢
    obtain ⟨m, hm, hfew, rfl⟩ := hn
    obtain ⟨hlength, hpast⟩ := h m hm
    have hnext : (w.lockout.recordFailureAt e.time).failureTimes.length ≤ _ :=
      length_recordFailureAt
    rw [lockedTime_recordFailureAt (by omega)]
    exact ⟨by omega, hpast.mono htime⟩
  | recordSuccess =>
    simp only [hcall] at hn ⊢
    exact ⟨Nat.zero_le n, isLockedAt_eq_false_iff.mp (hsuccess hcall)⟩
  | setLockoutDuration d =>
    simp only [hcall] at hn ⊢
    exact ⟨(h n hn).1, hmild d hcall (hn ▸ rfl)⟩
  | _ =>
    simp only [hcall] at hn ⊢
    exact ⟨(h n hn).1, (h n hn).2.mono htime⟩

variable {events : List Event}

lemma Watch.Kept.unlocked_iff_mild (h : w.Kept) (horderly : Throughout Orderly w events) :
    Throughout (fun w e => (w.step e).Unlocked) w events ↔ Throughout Mild w events := by
  induction events generalizing w with
  | nil => exact Iff.rfl
  | cons e events ih =>
    obtain ⟨he, hrest⟩ := horderly
    constructor
    · rintro ⟨hunlocked, hlater⟩
      have hmild := mild_of_unlocked hunlocked
      exact ⟨hmild, (ih (h.step he hmild) hrest).mp hlater⟩
    · rintro ⟨hmild, hlater⟩
      have hstep := h.step he hmild
      exact ⟨hstep.unlocked, (ih hstep hrest).mpr hlater⟩

/-- The account stays unlocked after every success just if no new duration brings back a lock. -/
theorem throughout_unlocked_iff (horderly : Throughout Orderly ⟨l, now, none⟩ events) :
    Throughout (fun w e => (w.step e).Unlocked) ⟨l, now, none⟩ events ↔
      Throughout Mild ⟨l, now, none⟩ events :=
  Watch.Kept.unlocked_iff_mild nofun horderly

/-- A longer duration that has passed as well changes nothing. -/
theorem throughout_unlocked_iff_passed :
    Throughout (fun w e => (w.step e).Unlocked) ⟨newAccountLockout 1 10 0, 0, none⟩
      [⟨1, .recordFailureAt⟩, ⟨20, .recordSuccess⟩, ⟨21, .setLockoutDuration 15⟩] := by
  refine (throughout_unlocked_iff ?_).mpr ⟨nofun, nofun, ?_, trivial⟩
  · exact ⟨⟨by decide, nofun⟩, ⟨by decide, fun _ => rfl⟩, ⟨by decide, nofun⟩, trivial⟩
  · rintro _ ⟨⟩ -
    exact .inr (by decide)

/-- The lock has passed at the success; the longer duration brings it back without a failure. -/
theorem relocked_by_duration :
    let events : List Event :=
      [⟨1, .recordFailureAt⟩, ⟨20, .recordSuccess⟩, ⟨21, .setLockoutDuration 60⟩]
    let w := events.foldl Watch.step ⟨newAccountLockout 1 10 0, 0, none⟩
    Throughout Orderly ⟨newAccountLockout 1 10 0, 0, none⟩ events ∧
      w.further = some 0 ∧ w.lockout.isLockedAt 21 = true :=
  ⟨⟨⟨by decide, nofun⟩, ⟨by decide, fun _ => rfl⟩, ⟨by decide, nofun⟩, trivial⟩, rfl, rfl⟩

end Oba.Password
