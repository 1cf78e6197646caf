import Mathlib.Algebra.Ring.Nat
import Mathlib.Data.List.Chain

/-!
# Logs of a lock

The calls that take and release one lock, with their results. `held` follows the lock through a log;
it is `none` once the lock is taken while it is held, or released while it is not.

* `held_append`: logs in a row.
* `balanced`: the lock is held exactly when it was taken once more than it was released.
* `alternates`: the successful calls strictly alternate.
-/

namespace LockLog

/-- A call to take or to release the lock, and whether it succeeded. -/
inductive Call where
  | lock (ok : Bool)
  | unlock (ok : Bool)
  deriving DecidableEq

/-- Whether the lock is held after the calls. -/
def held : Bool → List Call → Option Bool
  | b, [] => some b
  | b, .lock ok :: l => if b then none else held ok l
  | b, .unlock ok :: l => if b then held (!ok) l else none

/-- The successful calls: `true` for a lock that was taken. -/
def successes : List Call → List Bool
  | [] => []
  | .lock true :: l => true :: successes l
  | .unlock true :: l => false :: successes l
  | _ :: l => successes l

variable {b b' : Bool} {l l' : List Call}

theorem held_append (l l' : List Call) (b : Bool) : held b (l ++ l') = (held b l).bind (held · l') := by
  induction l generalizing b with
  | nil => rfl
  | cons c l ih =>
    cases c <;> cases b <;> simp [held, ih]

theorem held_append_of (h : held b l = some b') : held b (l ++ l') = held b' l' := by
  rw [held_append, h]; rfl

/-- As often released as taken, but for the lock that is held. -/
theorem balanced (h : held b l = some b') :
    (successes l).count true + b.toNat = (successes l).count false + b'.toNat := by
  induction l generalizing b with
  | nil => cases h; rfl
  | cons c l ih =>
    rcases c with (_ | _) | (_ | _) <;> cases b <;> simp only [held, if_true, if_false, Bool.false_eq_true,
      reduceCtorEq] at h <;> have := ih h <;> simp [successes] at this ⊢ <;> omega

/-- A lock is only taken while it is free, and released while it is held. -/
theorem alternates (h : held b l = some b') : (b :: successes l).IsChain (· ≠ ·) := by
  induction l generalizing b with
  | nil => exact .singleton b
  | cons c l ih =>
    rcases c with (_ | _) | (_ | _) <;> cases b <;> simp only [held, if_true, if_false, Bool.false_eq_true,
      reduceCtorEq] at h <;> have hc := ih h <;> simp only [successes]
    · exact hc
    · exact .cons_cons (by decide) hc
    · exact hc
    · exact .cons_cons (by decide) hc

end LockLog
