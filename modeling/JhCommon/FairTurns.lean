import JhCommon.Transition

/-! Threads that take turns in any order. Nothing here depends on what the machine is. -/
namespace JhCommon.Transition

section Turns
variable {σ α ω ε : Type*} {step : σ → α → Except ε (ω × σ)}

/-- The actions of a machine that runs down: none of them faults, each leaves the state alone or makes
it smaller, and until a state is final one of those that are needed goes on. -/
structure RunsDown (step : σ → α → Except ε (ω × σ)) (Inv final : σ → Prop) (adm : α → Prop)
    (needs : σ → α → Prop) (μ : σ → ℕ) : Prop where
  smaller : ∀ s a, Inv s → adm a → ∃ o s', step s a = .ok (o,s') ∧ Inv s' ∧ (s' = s ∨ μ s' < μ s)
  stays : ∀ s a o s', Inv s → adm a → step s a = .ok (o,s') → final s → final s'
  fewer : ∀ s a o s' b, Inv s → adm a → step s a = .ok (o,s') → needs s' b → needs s b
  admits : ∀ s a, needs s a → adm a
  goesOn : ∀ s, Inv s → ¬final s → ∃ a, needs s a ∧ ¬Final step a s

variable {Inv final : σ → Prop} {adm : α → Prop} {needs : σ → α → Prop} {μ : σ → ℕ} {s : σ}

/-- What a round of turns comes to: nobody had anything to do, or the state is smaller. -/
theorem RunsDown.round (h : RunsDown step Inv final adm needs μ) (hs : Inv s) (r : List α)
    (hr : ∀ a ∈ r, adm a) :
    ∃ os s', run step s r = .ok (os,s') ∧ Inv s' ∧ (final s → final s') ∧
      (∀ b, needs s' b → needs s b) ∧ (s' = s ∧ (∀ a ∈ r, Final step a s) ∨ μ s' < μ s) := by
  induction r generalizing s with
  | nil => exact ⟨[],s,rfl,hs,id,fun _ => id,.inl ⟨rfl,by simp⟩⟩
  | cons a r ih =>
    have ha := hr a List.mem_cons_self
    obtain ⟨o,s₁,hstep,hs₁,hless⟩ := h.smaller s a hs ha
    obtain ⟨os,s',hrun,hs',hfinal,hneeds,hrest⟩ := ih hs₁ fun b hb => hr b (List.mem_cons_of_mem a hb)
    refine ⟨o :: os,s',?_,hs',fun hf => hfinal (h.stays s a o s₁ hs ha hstep hf),
      fun b hb => h.fewer s a o s₁ b hs ha hstep (hneeds b hb),?_⟩
    · simp only [run, hstep, hrun, bind, Except.bind]
    · rcases hless with rfl | hless
      · rcases hrest with ⟨rfl,hidle⟩ | hrest
        · exact .inl ⟨rfl,List.forall_mem_cons.mpr ⟨⟨o,hstep⟩,hidle⟩⟩
        · exact .inr hrest
      · rcases hrest with ⟨rfl,-⟩ | hrest
        · exact .inr hless
        · exact .inr (hrest.trans hless)

/-- The rule of fair turns: after as many rounds as the state is large, in each of which everybody who
is needed has a turn, the machine is in a final state. -/
theorem RunsDown.rounds (h : RunsDown step Inv final adm needs μ) (hs : Inv s)
    {rounds : List (List α)} (hlen : μ s ≤ rounds.length)
    (hfair : ∀ r ∈ rounds, (∀ a ∈ r, adm a) ∧ ∀ a, needs s a → a ∈ r) :
    ∃ os s', run step s rounds.flatten = .ok (os,s') ∧ Inv s' ∧ final s' := by
  have hall : ∀ a ∈ rounds.flatten, adm a := by
    intro a ha
    obtain ⟨r,hr,har⟩ := List.mem_flatten.mp ha
    exact (hfair r hr).1 a har
  by_cases hfinal : final s
  · obtain ⟨os,s',hrun,hs',hkeep,-⟩ := h.round hs _ hall
    exact ⟨os,s',hrun,hs',hkeep hfinal⟩
  obtain ⟨a,hneeds,hbusy⟩ := h.goesOn s hs hfinal
  induction rounds generalizing s a with
  | nil =>
    -- a state of size zero gets no smaller, and so has nobody to go on
    obtain ⟨o,s',hstep,-,rfl | hless⟩ := h.smaller s a hs (h.admits s a hneeds)
    · exact absurd ⟨o,hstep⟩ hbusy
    · simp only [List.length_nil] at hlen
      omega
  | cons r rounds ih =>
    obtain ⟨hadm,hturn⟩ := hfair r List.mem_cons_self
    obtain ⟨os,s₁,hrun,hs₁,-,hfewer,hless⟩ := h.round hs r hadm
    have hlt : μ s₁ < μ s := hless.resolve_left fun hidle => hbusy (hidle.2 a (hturn a hneeds))
    have hfair₁ : ∀ r ∈ rounds, (∀ a ∈ r, adm a) ∧ ∀ a, needs s₁ a → a ∈ r := by
      intro r hr
      obtain ⟨hadm,hturn⟩ := hfair r (List.mem_cons_of_mem _ hr)
      exact ⟨hadm,fun b hb => hturn b (hfewer b hb)⟩
    have hrest : ∀ a ∈ rounds.flatten, adm a := fun a ha => hall a (by simp [ha])
    have hlen₁ : μ s₁ ≤ rounds.length := by
      simp only [List.length_cons] at hlen
      omega
    obtain ⟨os',s',hrun',hs',hfinal'⟩ : ∃ os' s', run step s₁ rounds.flatten = .ok (os',s') ∧
        Inv s' ∧ final s' := by
      by_cases hfinal₁ : final s₁
      · obtain ⟨os',s',hrun',hs',hkeep,-⟩ := h.round hs₁ _ hrest
        exact ⟨os',s',hrun',hs',hkeep hfinal₁⟩
      · obtain ⟨b,hneeds₁,hbusy₁⟩ := h.goesOn s₁ hs₁ hfinal₁
        exact ih hs₁ hlen₁ hfair₁ hrest hfinal₁ b hneeds₁ hbusy₁
    refine ⟨os ++ os',s',?_,hs',hfinal'⟩
    rw [List.flatten_cons]
    exact run_append hrun hrun'

end Turns

end JhCommon.Transition
