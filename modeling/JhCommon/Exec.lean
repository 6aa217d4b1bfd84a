import Mathlib.Tactic

/-! Outcomes of the modelled calls. A call that would leave the object it points into, run a
fatal log statement or a failed ASSERT_ERR, throw or take an int past its range does not return: it
ends in a `Fault`. The build is the one with JH_VERBOSE_LOGGING, in which these two statements abort
and LOG reads what it is to print. -/
namespace JhCommon

universe u v

inductive Fault
  | outOfBounds
  | fatal
  | lengthError
  | nullDeref
  | useAfterFree
  | divideByZero
  | overflow
  | outOfFuel
  deriving DecidableEq, Repr

abbrev Exec (α : Type u) := Except Fault α

section Binds
variable {ε : Type v} {α β : Type u}

@[simp] theorem ok_bind (a : α) (f : α → Except ε β) : (Except.ok a >>= f) = f a := rfl

@[simp] theorem error_bind (e : ε) (f : α → Except ε β) :
    (Except.error e >>= f) = Except.error e := rfl

/-- Peel one computation off a bind that returned. -/
theorem bind_eq_ok {x : Except ε α} {f : α → Except ε β} {b : β} :
    (x >>= f) = Except.ok b ↔ ∃ a, x = Except.ok a ∧ f a = Except.ok b := by
  cases x with
  | error e => simp
  | ok a => simp

theorem map_eq_ok {x : Except ε α} {f : α → β} {b : β} :
    x.map f = Except.ok b ↔ ∃ a, x = Except.ok a ∧ f a = b := by
  cases x with
  | error e => simp [Except.map]
  | ok a => simp [Except.map]

theorem toOption_eq_some {x : Except ε α} {a : α} : x.toOption = some a ↔ x = .ok a := by
  cases x with
  | error e =>
    constructor <;> intro h <;> cases h
  | ok b => simp [Except.toOption]

end Binds

end JhCommon
