import Mathlib.Tactic

/-! A list of entries kept in the order in which they fall due. Entries with one due time stay in
the order of their numbers, which is the order in which they were put in. -/
namespace JhCommon.Agenda

structure Entry (α : Type*) where
  id : ℕ
  due : ℕ
  item : α

variable {α : Type*}

def Entry.Before (a b : Entry α) : Prop := a.due < b.due ∨ a.due = b.due ∧ a.id < b.id

/-- In front of the first entry that is due later. -/
def put (e : Entry α) : List (Entry α) → List (Entry α)
  | [] => [e]
  | b :: l => if e.due < b.due then e :: b :: l else b :: put e l

section Order
variable {a b e : Entry α} {l : List (Entry α)} {now : ℕ}

theorem Entry.Before.due_le (h : a.Before b) : a.due ≤ b.due := by
  rcases h with h | h
  · exact le_of_lt h
  · exact le_of_eq h.1

theorem mem_put : a ∈ put e l ↔ a = e ∨ a ∈ l := by
  induction l with
  | nil => simp [put]
  | cons b l ih =>
    rw [put]
    split
    · simp
    · simp only [List.mem_cons, ih]
      tauto

/-- An entry with the highest number yet goes behind those with its due time. -/
theorem put_sorted (h : l.Pairwise Entry.Before) (hid : ∀ b ∈ l, b.id < e.id) :
    (put e l).Pairwise Entry.Before := by
  induction l with
  | nil => exact List.pairwise_singleton _ _
  | cons b l ih =>
    obtain ⟨hb,hl⟩ := List.pairwise_cons.mp h
    rw [put]
    split
    · rename_i hlt
      refine .cons (fun c hc => Or.inl ?_) h
      rcases List.mem_cons.mp hc with rfl | hc
      · exact hlt
      · exact lt_of_lt_of_le hlt (hb c hc).due_le
    · rename_i hge
      refine .cons (fun c hc => ?_) (ih hl (fun c hc => hid c (List.mem_cons_of_mem b hc)))
      rcases mem_put.mp hc with rfl | hc
      · rcases Nat.lt_or_ge b.due c.due with hlt | hle
        · exact Or.inl hlt
        · exact Or.inr ⟨by omega,hid b List.mem_cons_self⟩
      · exact hb c hc

/-- The entries that are due stand in front. -/
theorem mem_takeWhile_due (h : l.Pairwise Entry.Before) :
    a ∈ l.takeWhile (fun e => e.due ≤ now) ↔ a ∈ l ∧ a.due ≤ now := by
  induction l with
  | nil => simp
  | cons b l ih =>
    obtain ⟨hb,hl⟩ := List.pairwise_cons.mp h
    by_cases hdue : b.due ≤ now
    · rw [List.takeWhile_cons_of_pos (by simpa using hdue), List.mem_cons, List.mem_cons, ih hl]
      constructor
      · rintro (rfl | ⟨hmem,hle⟩)
        · exact ⟨Or.inl rfl,hdue⟩
        · exact ⟨Or.inr hmem,hle⟩
      · rintro ⟨rfl | hmem,hle⟩
        · exact Or.inl rfl
        · exact Or.inr ⟨hmem,hle⟩
    · rw [List.takeWhile_cons_of_neg (by simpa using hdue)]
      refine ⟨fun hmem => absurd hmem (by simp),fun ⟨hmem,hle⟩ => ?_⟩
      rcases List.mem_cons.mp hmem with rfl | hmem
      · exact absurd hle hdue
      · have := (hb a hmem).due_le
        omega

theorem mem_dropWhile_due (h : l.Pairwise Entry.Before) :
    a ∈ l.dropWhile (fun e => e.due ≤ now) ↔ a ∈ l ∧ now < a.due := by
  induction l with
  | nil => simp
  | cons b l ih =>
    obtain ⟨hb,hl⟩ := List.pairwise_cons.mp h
    by_cases hdue : b.due ≤ now
    · rw [List.dropWhile_cons_of_pos (by simpa using hdue), ih hl, List.mem_cons]
      constructor
      · rintro ⟨hmem,hlt⟩
        exact ⟨Or.inr hmem,hlt⟩
      · rintro ⟨rfl | hmem,hlt⟩
        · omega
        · exact ⟨hmem,hlt⟩
    · rw [List.dropWhile_cons_of_neg (by simpa using hdue)]
      refine ⟨fun hmem => ⟨hmem,?_⟩,fun hmem => hmem.1⟩
      rcases List.mem_cons.mp hmem with rfl | hmem
      · omega
      · have := (hb a hmem).due_le
        omega

end Order

end JhCommon.Agenda
