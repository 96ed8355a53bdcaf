import Mathlib.Order.Lattice
import Mathlib.Tactic.Common

/-!
# `struct timeval`

The macros `timercmp`, `timeradd` and `timersub` of the C library, and what they
mean on normalised values: comparison and arithmetic of microseconds.
-/

namespace BachScheduler

/-- `struct timeval`. -/
structure Timeval where
  sec : Int
  usec : Int
  deriving DecidableEq, Repr, Inhabited

/-- `timercmp(a, b, >)`. -/
def timercmpGt (a b : Timeval) : Bool :=
  if a.sec = b.sec then a.usec > b.usec else a.sec > b.sec

/-- `timeradd`. -/
def timeradd (a b : Timeval) : Timeval :=
  let sec := a.sec + b.sec
  let usec := a.usec + b.usec
  if usec ≥ 1000000 then ⟨sec + 1, usec - 1000000⟩ else ⟨sec, usec⟩

/-- `timersub`. -/
def timersub (a b : Timeval) : Timeval :=
  let sec := a.sec - b.sec
  let usec := a.usec - b.usec
  if usec < 0 then ⟨sec - 1, usec + 1000000⟩ else ⟨sec, usec⟩

namespace Timeval

/-- The microseconds are less than a second. -/
structure Normal (t : Timeval) : Prop where
  nonneg : 0 ≤ t.usec
  small : t.usec < 1000000

/-- The time in microseconds. -/
def micros (t : Timeval) : Int :=
  t.sec * 1000000 + t.usec

end Timeval

section Arithmetic

variable {a b : Timeval}

theorem timercmpGt_iff (left : a.Normal) (right : b.Normal) :
    timercmpGt a b = true ↔ b.micros < a.micros := by
  obtain ⟨leftLow, leftHigh⟩ := left
  obtain ⟨rightLow, rightHigh⟩ := right
  unfold timercmpGt Timeval.micros
  split <;> simp only [decide_eq_true_eq] <;> omega

theorem timeradd_normal (left : a.Normal) (right : b.Normal) : (timeradd a b).Normal := by
  obtain ⟨leftLow, leftHigh⟩ := left
  obtain ⟨rightLow, rightHigh⟩ := right
  simp only [timeradd]
  split <;> constructor <;> dsimp only at * <;> omega

theorem timersub_normal (left : a.Normal) (right : b.Normal) : (timersub a b).Normal := by
  obtain ⟨leftLow, leftHigh⟩ := left
  obtain ⟨rightLow, rightHigh⟩ := right
  simp only [timersub]
  split <;> constructor <;> dsimp only at * <;> omega

@[simp] theorem timeradd_micros : (timeradd a b).micros = a.micros + b.micros := by
  simp only [timeradd, Timeval.micros]
  split <;> dsimp only <;> omega

@[simp] theorem timersub_micros : (timersub a b).micros = a.micros - b.micros := by
  simp only [timersub, Timeval.micros]
  split <;> dsimp only <;> omega

end Arithmetic

end BachScheduler
