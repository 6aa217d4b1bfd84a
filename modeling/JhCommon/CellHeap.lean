import JhCommon.Exec

/-! Cells in a heap that makes each at an address of its own. A cell that has been given back is
not there any more, and what touches it does not return. -/
namespace JhCommon

structure CellHeap (V : Type) where
  cells : ℕ → Option V
  made : ℕ
  fresh : ∀ a, made ≤ a → cells a = none

namespace CellHeap
variable {V : Type} {h h' : CellHeap V} {a b : ℕ} {v : V}

def empty : CellHeap V := ⟨fun _ => none,0,fun _ _ => rfl⟩

/-- The new cell and the heap with it. -/
def alloc (h : CellHeap V) (v : V) : ℕ × CellHeap V :=
  (h.made,
    { cells := Function.update h.cells h.made (some v)
      made := h.made+1
      fresh := fun a ha => by
        rw [Function.update_of_ne (by omega)]
        exact h.fresh a (by omega) })

def read (h : CellHeap V) (a : ℕ) : Exec V :=
  match h.cells a with
  | some v => .ok v
  | none => .error .useAfterFree

def modify (h : CellHeap V) (a : ℕ) (f : V → V) : CellHeap V :=
  { h with
    cells := Function.update h.cells a ((h.cells a).map f)
    fresh := fun b hb => by
      by_cases hba : b = a
      · rw [hba, Function.update_self, h.fresh a (hba ▸ hb), Option.map_none]
      · rw [Function.update_of_ne hba]
        exact h.fresh b hb }

def write (h : CellHeap V) (a : ℕ) (f : V → V) : Exec (CellHeap V) := do
  let _ ← h.read a
  .ok (h.modify a f)

def clear (h : CellHeap V) (a : ℕ) : CellHeap V :=
  { h with
    cells := Function.update h.cells a none
    fresh := fun b hb => by
      by_cases hba : b = a
      · rw [hba, Function.update_self]
      · rw [Function.update_of_ne hba]
        exact h.fresh b hb }

def free (h : CellHeap V) (a : ℕ) : Exec (CellHeap V) := do
  let _ ← h.read a
  .ok (h.clear a)

theorem lt_made (hv : h.cells a = some v) : a < h.made := by
  by_contra hle
  rw [h.fresh a (by omega)] at hv
  cases hv

theorem read_eq_ok : h.read a = .ok v ↔ h.cells a = some v := by
  unfold read
  cases h.cells a <;> simp

@[simp] theorem alloc_fst (h : CellHeap V) (v : V) : (h.alloc v).1 = h.made := rfl

@[simp] theorem alloc_made (h : CellHeap V) (v : V) : (h.alloc v).2.made = h.made+1 := rfl

@[simp] theorem alloc_cells (h : CellHeap V) (v : V) :
    (h.alloc v).2.cells = Function.update h.cells h.made (some v) := rfl

@[simp] theorem modify_made (h : CellHeap V) (a : ℕ) (f : V → V) : (h.modify a f).made = h.made := rfl

@[simp] theorem modify_cells (h : CellHeap V) (a : ℕ) (f : V → V) :
    (h.modify a f).cells = Function.update h.cells a ((h.cells a).map f) := rfl

@[simp] theorem clear_made (h : CellHeap V) (a : ℕ) : (h.clear a).made = h.made := rfl

@[simp] theorem clear_cells (h : CellHeap V) (a : ℕ) :
    (h.clear a).cells = Function.update h.cells a none := rfl

theorem write_ok (hv : h.cells a = some v) (f : V → V) : h.write a f = .ok (h.modify a f) := by
  rw [write, read_eq_ok.mpr hv, ok_bind]

theorem free_ok (hv : h.cells a = some v) : h.free a = .ok (h.clear a) := by
  rw [free, read_eq_ok.mpr hv, ok_bind]

/-- A write that returns has found a cell, and changes no other one. -/
theorem write_inv {f : V → V} (hw : h.write a f = .ok h') : h' = h.modify a f := by
  obtain ⟨v,-,hw⟩ := bind_eq_ok.mp hw
  exact (Except.ok.inj hw).symm

theorem modify_cells_of_ne {f : V → V} (hb : b ≠ a) : (h.modify a f).cells b = h.cells b := by
  rw [modify_cells, Function.update_of_ne hb]

theorem clear_cells_of_ne (hb : b ≠ a) : (h.clear a).cells b = h.cells b := by
  rw [clear_cells, Function.update_of_ne hb]

theorem ext_cells (hcells : ∀ b, h.cells b = h'.cells b) (hmade : h.made = h'.made) : h = h' := by
  obtain ⟨cells,made,_⟩ := h
  obtain rfl : cells = h'.cells := funext hcells
  obtain rfl : made = h'.made := hmade
  rfl

/-- Writes to two cells, in either order. -/
theorem modify_modify {f g : V → V} (hab : a ≠ b) :
    (h.modify a f).modify b g = (h.modify b g).modify a f := by
  refine ext_cells ?_ rfl
  intro c
  simp only [modify_cells, Function.update_of_ne hab, Function.update_of_ne hab.symm]
  rw [Function.update_comm hab]

theorem modify_clear {f : V → V} (hab : a ≠ b) : (h.clear a).modify b f = (h.modify b f).clear a := by
  refine ext_cells ?_ rfl
  intro c
  simp only [modify_cells, clear_cells, Function.update_of_ne hab.symm]
  rw [Function.update_comm hab]

/-- What a field of the cells says, where there is a cell. -/
def get {γ : Type} (f : V → Option γ) (h : CellHeap V) (a : ℕ) : Option γ := (h.cells a).bind f

section Fields
variable {γ : Type} {f : V → Option γ} {g : V → V} {c : γ}

theorem exists_of_get (hc : h.get f a = some c) : ∃ v, h.cells a = some v ∧ f v = some c :=
  Option.bind_eq_some_iff.mp hc

theorem get_alloc (h : CellHeap V) (v : V) :
    (h.alloc v).2.get f = Function.update (h.get f) h.made (f v) := by
  funext b
  by_cases hb : b = h.made
  · subst hb
    simp [get]
  · simp [get, Function.update_of_ne hb]

/-- A write to the field. -/
theorem get_modify (hv : h.cells a = some v) :
    (h.modify a g).get f = Function.update (h.get f) a (f (g v)) := by
  funext b
  by_cases hb : b = a
  · subst hb
    simp [get, hv]
  · simp [get, Function.update_of_ne hb]

/-- A write to another field. -/
theorem get_modify_same (hg : ∀ v, f (g v) = f v) : (h.modify a g).get f = h.get f := by
  funext b
  by_cases hb : b = a
  · subst hb
    cases hv : h.cells b <;> simp [get, hv, hg]
  · simp [get, Function.update_of_ne hb]

theorem get_clear (h : CellHeap V) (a : ℕ) :
    (h.clear a).get f = Function.update (h.get f) a none := by
  funext b
  by_cases hb : b = a
  · subst hb
    simp [get]
  · simp [get, Function.update_of_ne hb]

end Fields

end CellHeap

end JhCommon
