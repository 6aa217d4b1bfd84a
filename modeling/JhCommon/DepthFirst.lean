import Mathlib.Tactic

/-! Depth-first walks over a graph without cycles. Every node has a list of successors, and from no node
do they go on for ever. -/
namespace JhCommon.DepthFirst

variable {α : Type*} {next : α → List α}

/-- The nodes in the order in which they are met, each before its successors. -/
def preorder (hwf : WellFounded fun b a => b ∈ next a) (a : α) : List α :=
  a :: (next a).attach.flatMap fun b => preorder hwf b.1
termination_by hwf.wrap a
decreasing_by exact b.2

variable {hwf : WellFounded fun b a => b ∈ next a} {a b c : α}

theorem preorder_eq (a : α) : preorder hwf a = a :: (next a).flatMap (preorder hwf) := by
  rw [preorder]
  simp

theorem self_mem : a ∈ preorder hwf a := by
  rw [preorder_eq]
  exact List.mem_cons_self

theorem mem_preorder : c ∈ preorder hwf a ↔ c = a ∨ ∃ b ∈ next a, c ∈ preorder hwf b := by
  rw [preorder_eq, List.mem_cons, List.mem_flatMap]

theorem mem_of_next (hb : b ∈ next a) (hc : c ∈ preorder hwf b) : c ∈ preorder hwf a :=
  mem_preorder.mpr (.inr ⟨b,hb,hc⟩)

/-- What is met behind the start is a successor of something. -/
theorem eq_or_next_of_mem (h : c ∈ preorder hwf a) : c = a ∨ ∃ b, c ∈ next b := by
  induction a using hwf.induction with
  | _ a ih =>
    rcases mem_preorder.mp h with rfl | ⟨b,hb,hc⟩
    · exact .inl rfl
    · rcases ih b hb hc with rfl | hnext
      · exact .inr ⟨a,hb⟩
      · exact .inr hnext

/-- The first node of a kind is the start, or the first one behind some successor. -/
theorem find?_preorder (p : α → Bool) : (preorder hwf a).find? p =
    if p a then some a else (next a).findSome? fun b => (preorder hwf b).find? p := by
  rw [preorder_eq, List.find?_cons, List.find?_flatMap]
  cases p a <;> rfl

end JhCommon.DepthFirst
