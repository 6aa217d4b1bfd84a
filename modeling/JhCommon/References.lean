import Mathlib.Tactic

/-! Programs that read and write through references to places. Where no written reference shares its
place with another one, what a program does depends on the values behind the references only. -/
namespace JhCommon

/-- A program with n references, of which it writes only what it may. It ends. -/
inductive RefProgram (n : ℕ) (V R : Type) (may : Fin n → V → Prop)
  | done (r : R)
  | read (i : Fin n) (next : V → RefProgram n V R may)
  | write (i : Fin n) (v : V) (admitted : may i v) (next : RefProgram n V R may)

namespace RefProgram
variable {n : ℕ} {V R P P' : Type} {may : Fin n → V → Prop} [DecidableEq P] [DecidableEq P']

/-- The places that the references are bound to, and the memory. -/
def run (place : Fin n → P) : RefProgram n V R may → (P → V) → R × (P → V)
  | .done r, mem => (r,mem)
  | .read i next, mem => (next (mem (place i))).run place mem
  | .write i v _ next, mem => next.run place (Function.update mem (place i) v)

/-- A place that can be written is behind one reference. -/
def Apart (may : Fin n → V → Prop) (place : Fin n → P) : Prop :=
  ∀ i j, (∃ v, may i v) → place i = place j → i = j

/-- The result and the values behind the references do not depend on where these are bound. -/
theorem run_apart (place : Fin n → P) (place' : Fin n → P') (h : Apart may place) (h' : Apart may place')
    (p : RefProgram n V R may) (mem : P → V) (mem' : P' → V) (hmem : ∀ i, mem (place i) = mem' (place' i)) :
    (p.run place mem).1 = (p.run place' mem').1 ∧
      ∀ i, (p.run place mem).2 (place i) = (p.run place' mem').2 (place' i) := by
  induction p generalizing mem mem' with
  | done r => exact ⟨rfl,hmem⟩
  | read i next ih =>
    rw [run, run, ← hmem i]
    exact ih _ _ _ hmem
  | write i v admitted next ih =>
    apply ih
    intro j
    by_cases hj : j = i
    · rw [hj, Function.update_self, Function.update_self]
    · have hne : place j ≠ place i := fun heq => hj (h i j ⟨v,admitted⟩ heq.symm).symm
      have hne' : place' j ≠ place' i := fun heq => hj (h' i j ⟨v,admitted⟩ heq.symm).symm
      rw [Function.update_of_ne hne, Function.update_of_ne hne']
      exact hmem j

/-- The other places are left as they are. -/
theorem run_frame {place : Fin n → P} {q : P} (hq : ∀ i, (∃ v, may i v) → place i ≠ q)
    (p : RefProgram n V R may) (mem : P → V) : (p.run place mem).2 q = mem q := by
  induction p generalizing mem with
  | done r => rfl
  | read i next ih => exact ih _ mem
  | write i v admitted next ih =>
    rw [run, ih]
    exact Function.update_of_ne (hq i ⟨v,admitted⟩).symm _ _

/-- What each value behind a reference is, it still is behind the program, if what it may write is. -/
theorem run_keeps (Good : P → V → Prop) {place : Fin n → P} (hmay : ∀ i v, may i v → Good (place i) v)
    (p : RefProgram n V R may) {mem : P → V} (hmem : ∀ q, Good q (mem q)) (q : P) :
    Good q ((p.run place mem).2 q) := by
  induction p generalizing mem with
  | done r => exact hmem q
  | read i next ih => exact ih _ hmem
  | write i v admitted next ih =>
    apply ih
    intro q'
    by_cases hq : q' = place i
    · rw [hq, Function.update_self]
      exact hmay i v admitted
    · rw [Function.update_of_ne hq]
      exact hmem q'

end RefProgram

end JhCommon
