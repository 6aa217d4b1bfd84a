import Mathlib.Tactic

/-! Loops that advance a state until a test for lateness no longer holds of it. -/
namespace JhCommon

/-- The test holds n times, and then not. -/
inductive CatchesUp {σ : Type*} (late : σ → Prop) (advance : σ → σ) : σ → ℕ → σ → Prop
  | stop {s : σ} (h : ¬late s) : CatchesUp late advance s 0 s
  | go {s s' : σ} {n : ℕ} (h : late s) (hrest : CatchesUp late advance (advance s) n s') :
      CatchesUp late advance s (n+1) s'

namespace CatchesUp
variable {σ : Type*} {late late' : σ → Prop} {advance : σ → σ} {s s' s'' : σ} {n m : ℕ}

theorem unique (h : CatchesUp late advance s n s') (h' : CatchesUp late advance s m s'') :
    n = m ∧ s' = s'' := by
  induction h generalizing m with
  | stop hstop =>
    cases h' with
    | stop _ => exact ⟨rfl,rfl⟩
    | go hgo _ => exact absurd hgo hstop
  | go hgo _ ih =>
    cases h' with
    | stop hstop => exact absurd hgo hstop
    | go _ hrest =>
      obtain ⟨hn,hs⟩ := ih hrest
      exact ⟨congrArg (·+1) hn,hs⟩

/-- Two loops in a row do what the second one does alone, where it is late whenever the first one
is. -/
theorem trans (h : CatchesUp late advance s n s') (h' : CatchesUp late' advance s' m s'')
    {inv : σ → Prop} (hinv : ∀ s, inv s → late s → inv (advance s)) (hs : inv s)
    (hlate : ∀ s, inv s → late s → late' s) : CatchesUp late' advance s (n+m) s'' := by
  induction h with
  | stop _ =>
    rw [Nat.zero_add]
    exact h'
  | go hgo _ ih =>
    rw [Nat.add_right_comm]
    exact .go (hlate _ hs hgo) (ih h' (hinv _ hs hgo))

/-- Each time around lowers a measure. -/
theorem exists_of_measure {inv : σ → Prop} (hinv : ∀ s, inv s → late s → inv (advance s))
    (μ : σ → ℕ) (hμ : ∀ s, inv s → late s → μ (advance s) < μ s) (hs : inv s) :
    ∃ n s', CatchesUp late advance s n s' := by
  induction hm : μ s using Nat.strong_induction_on generalizing s with
  | _ m ih =>
    by_cases hlate : late s
    · have hless := hμ s hs hlate
      rw [hm] at hless
      obtain ⟨n,s',hrest⟩ := ih _ hless (hinv s hs hlate) rfl
      exact ⟨n+1,s',.go hlate hrest⟩
    · exact ⟨0,s,.stop hlate⟩

/-- What one time around keeps holds in the end, where the test fails. -/
theorem keeps (h : CatchesUp late advance s n s') {inv : σ → Prop}
    (hinv : ∀ s, inv s → late s → inv (advance s)) (hs : inv s) : inv s' ∧ ¬late s' := by
  induction h with
  | stop hstop => exact ⟨hs,hstop⟩
  | go hgo _ ih => exact ih (hinv _ hs hgo)

end CatchesUp

end JhCommon
