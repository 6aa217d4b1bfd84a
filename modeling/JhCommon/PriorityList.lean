import Mathlib.Tactic

/-! Arrivals arranged by priority: the highest priority in front, and the order of arrival within
one priority. -/
namespace JhCommon.PriorityList

variable {α : Type*}

section Arrangement
variable (prio : α → ℤ)

/-- The list q arranges the arrivals p. -/
def Arranges (q p : List α) : Prop :=
  q.Pairwise (fun a b => prio b ≤ prio a) ∧
    ∀ k, q.filter (fun a => prio a = k) = p.filter (fun a => prio a = k)

/-- The first arrival of the highest priority there is. -/
def earliest (p : List α) : Option α := p.find? (fun a => ∀ b ∈ p, prio b ≤ prio a)

/-- In front of the first element of a lower priority. -/
def insertByPriority (a : α) : List α → List α
  | [] => [a]
  | b :: q => if prio a > prio b then a :: b :: q else b :: insertByPriority a q

end Arrangement

section Facts
variable {prio : α → ℤ} {p q : List α} {a b : α}

theorem Arranges.mem_iff (h : Arranges prio q p) : a ∈ q ↔ a ∈ p := by
  have hk := congrArg (a ∈ ·) (h.2 (prio a))
  simpa using hk

theorem arranges_nil : Arranges prio [] ([] : List α) := ⟨.nil,fun _ => rfl⟩

theorem Arranges.eq_nil (h : Arranges prio [] p) : p = [] := by
  rw [List.eq_nil_iff_forall_not_mem]
  intro a ha
  exact absurd (h.mem_iff.mpr ha) (by simp)

theorem insertByPriority_perm : (insertByPriority prio a q).Perm (a :: q) := by
  induction q with
  | nil => rfl
  | cons c q ih =>
    rw [insertByPriority]
    split
    · rfl
    · exact (ih.cons c).trans (List.Perm.swap a c q)

theorem mem_insertByPriority : b ∈ insertByPriority prio a q ↔ b = a ∨ b ∈ q := by
  rw [insertByPriority_perm.mem_iff, List.mem_cons]

/-- A priority no higher than any other goes to the end. -/
theorem insertByPriority_of_le (h : ∀ b ∈ q, prio a ≤ prio b) :
    insertByPriority prio a q = q ++ [a] := by
  induction q with
  | nil => rfl
  | cons b q ih =>
    have hb := h b List.mem_cons_self
    rw [insertByPriority, if_neg (by omega), ih (fun c hc => h c (List.mem_cons_of_mem b hc)),
      List.cons_append]

theorem filter_insertByPriority (h : q.Pairwise (fun a b => prio b ≤ prio a)) (k : ℤ) :
    (insertByPriority prio a q).filter (fun b => prio b = k) =
      q.filter (fun b => prio b = k) ++ if prio a = k then [a] else [] := by
  induction q with
  | nil => rw [insertByPriority, List.filter_singleton]; simp
  | cons b q ih =>
    obtain ⟨hb,hq⟩ := List.pairwise_cons.mp h
    rw [insertByPriority]
    split
    · rename_i hlt
      -- nothing from b on has the priority of a
      by_cases hk : prio a = k
      · have hnone : (b :: q).filter (fun b => prio b = k) = [] := by
          rw [List.filter_eq_nil_iff]
          intro c hc
          have hcb : prio c ≤ prio b := by
            rcases List.mem_cons.mp hc with rfl | hc
            · exact le_rfl
            · exact hb c hc
          simp only [decide_eq_true_eq]
          omega
        rw [List.filter_cons_of_pos (by simpa using hk), hnone, if_pos hk, List.nil_append]
      · rw [List.filter_cons_of_neg (by simpa using hk), if_neg hk, List.append_nil]
    · rw [List.filter_cons, List.filter_cons, ih hq]
      split <;> simp

/-- A new arrival put in by its priority. -/
theorem Arranges.insert (h : Arranges prio q p) (a : α) :
    Arranges prio (insertByPriority prio a q) (p ++ [a]) := by
  refine ⟨?_,fun k => ?_⟩
  · obtain ⟨hsorted,-⟩ := h
    induction q with
    | nil => exact List.pairwise_singleton _ _
    | cons b q ih =>
      obtain ⟨hb,hq⟩ := List.pairwise_cons.mp hsorted
      rw [insertByPriority]
      split
      · rename_i hlt
        refine .cons (fun c hc => ?_) hsorted
        rcases List.mem_cons.mp hc with rfl | hc
        · omega
        · have := hb c hc
          omega
      · rename_i hge
        refine .cons (fun c hc => ?_) (ih hq)
        rcases mem_insertByPriority.mp hc with rfl | hc
        · omega
        · exact hb c hc
  · rw [filter_insertByPriority h.1, h.2 k, List.filter_append, List.filter_singleton]
    simp

theorem Arranges.filter (h : Arranges prio q p) (f : α → Bool) :
    Arranges prio (q.filter f) (p.filter f) := by
  refine ⟨h.1.sublist List.filter_sublist,fun k => ?_⟩
  rw [List.filter_comm, h.2 k, List.filter_comm]

/-- What stands in front arrived first among those of the highest priority. -/
theorem Arranges.earliest_eq (h : Arranges prio (a :: q) p) : earliest prio p = some a := by
  have hmax : ∀ b ∈ p, prio b ≤ prio a := by
    intro b hb
    rcases List.mem_cons.mp (h.mem_iff.mpr hb) with rfl | hb
    · exact le_rfl
    · exact (List.pairwise_cons.mp h.1).1 b hb
  have hsame : ∀ b ∈ p, decide (∀ c ∈ p, prio c ≤ prio b) = decide (prio b = prio a) := by
    intro b hb
    have hba := hmax b hb
    simp only [decide_eq_decide]
    constructor
    · intro hall
      have := hall a (h.mem_iff.mp List.mem_cons_self)
      omega
    · intro heq c hc
      have := hmax c hc
      omega
  have hk := h.2 (prio a)
  rw [List.filter_cons_of_pos (by simp)] at hk
  rw [earliest, ← List.head?_filter, List.filter_congr hsame, ← hk, List.head?_cons]

theorem Arranges.earliest_eq_none_iff (h : Arranges prio q p) : earliest prio p = none ↔ q = [] := by
  cases q with
  | nil => simp [h.eq_nil, earliest]
  | cons a q => simp [h.earliest_eq]

/-- Taking out what stands in front. -/
theorem Arranges.tail [DecidableEq α] (h : Arranges prio (a :: q) p) :
    Arranges prio q (p.erase a) := by
  refine ⟨(List.pairwise_cons.mp h.1).2,fun k => ?_⟩
  have hk := h.2 k
  rw [← List.erase_filter, ← hk]
  by_cases hak : prio a = k
  · rw [List.filter_cons_of_pos (by simpa using hak), List.erase_cons_head]
  · rw [List.filter_cons_of_neg (by simpa using hak), List.erase_of_not_mem]
    simp [hak]

end Facts

end JhCommon.PriorityList
