import Mathlib.Tactic

/-! Runs of fallible machines and of relational specifications, and the forward simulation
rule between them. Nothing here depends on what the machine is. -/
namespace JhCommon.Transition

section Runs
variable {σ τ α ω ε : Type*}

/-- Perform the actions in order, collecting what each of them returns. -/
def run (step : σ → α → Except ε (ω × σ)) : σ → List α → Except ε (List ω × σ)
  | s, [] => .ok ([], s)
  | s, a :: as => do
    let (o, s') ← step s a
    let (os, s'') ← run step s' as
    .ok (o :: os, s'')

/-- What a run of one action and more consists of. -/
theorem run_cons {step : σ → α → Except ε (ω × σ)} {s s' : σ} {a : α} {as : List α} {os : List ω}
    (h : run step s (a :: as) = .ok (os,s')) :
    ∃ o s₁ os₁, step s a = .ok (o,s₁) ∧ run step s₁ as = .ok (os₁,s') ∧ os = o :: os₁ := by
  simp only [run, bind, Except.bind] at h
  cases ha : step s a with
  | error e => simp [ha] at h
  | ok r =>
    cases hr : run step r.2 as with
    | error e => simp [ha, hr] at h
    | ok rs =>
      simp only [ha, hr, Except.ok.injEq, Prod.mk.injEq] at h
      obtain ⟨rfl,rfl⟩ := h
      exact ⟨r.1,r.2,rs.1,rfl,hr,rfl⟩

theorem run_append {step : σ → α → Except ε (ω × σ)} {s s' s'' : σ} {as bs : List α}
    {os os' : List ω} (h : run step s as = .ok (os,s')) (h' : run step s' bs = .ok (os',s'')) :
    run step s (as ++ bs) = .ok (os ++ os',s'') := by
  induction as generalizing s os with
  | nil =>
    obtain ⟨rfl,rfl⟩ : os = [] ∧ s' = s := by simpa [run, eq_comm] using h
    exact h'
  | cons b as ih =>
    obtain ⟨o₁,s₁,os₁,hb,hrun,rfl⟩ := run_cons h
    simp only [List.cons_append, run, hb, ih hrun, bind, Except.bind]

theorem run_one {step : σ → α → Except ε (ω × σ)} {s s' : σ} {a : α} {o : ω}
    (h : step s a = .ok (o,s')) : run step s [a] = .ok ([o],s') := by
  simp only [run, h, bind, Except.bind]

theorem run_concat {step : σ → α → Except ε (ω × σ)} {s s' s'' : σ} {as : List α} {a : α}
    {os : List ω} {o : ω} (h : run step s as = .ok (os,s')) (ha : step s' a = .ok (o,s'')) :
    run step s (as ++ [a]) = .ok (os ++ [o],s'') := run_append h (run_one ha)

theorem run_two {step : σ → α → Except ε (ω × σ)} {s s₁ s' : σ} {a b : α} {o o' : ω}
    (h : step s a = .ok (o,s₁)) (h' : step s₁ b = .ok (o',s')) :
    run step s [a,b] = .ok ([o,o'],s') := by
  simp only [run, h, h', bind, Except.bind]

/-- A specification relates a state, an action, its output and the next state. -/
inductive Trace (spec : τ → α → ω → τ → Prop) : τ → List α → List ω → τ → Prop
  | nil (t : τ) : Trace spec t [] [] t
  | cons {t t' t'' : τ} {a : α} {o : ω} {as : List α} {os : List ω}
      (head : spec t a o t') (tail : Trace spec t' as os t'') : Trace spec t (a :: as) (o :: os) t''

/-- A condition on the action and the state it meets, all along a run. -/
def Guarded (step : σ → α → Except ε (ω × σ)) (ok : σ → α → Prop) : σ → List α → Prop
  | _, [] => True
  | s, a :: as => ok s a ∧ ∀ o s', step s a = .ok (o,s') → Guarded step ok s' as

theorem Guarded.cons {step : σ → α → Except ε (ω × σ)} {ok : σ → α → Prop} {s s' : σ} {a : α}
    {o : ω} {as : List α} (hstep : step s a = .ok (o,s')) (hok : ok s a)
    (h : Guarded step ok s' as) : Guarded step ok s (a :: as) := by
  refine ⟨hok,?_⟩
  intro o' t ht
  obtain ⟨-,rfl⟩ := Prod.mk.inj (Except.ok.inj (hstep.symm.trans ht))
  exact h

theorem Guarded.and {step : σ → α → Except ε (ω × σ)} {ok ok' : σ → α → Prop} {s : σ} {as : List α}
    (h : Guarded step ok s as) (h' : Guarded step ok' s as) :
    Guarded step (fun s a => ok s a ∧ ok' s a) s as := by
  induction as generalizing s with
  | nil => trivial
  | cons a as ih => exact ⟨⟨h.1,h'.1⟩,fun o s' hstep => ih (h.2 o s' hstep) (h'.2 o s' hstep)⟩

/-- A guard that can be decided is decided for a run by running it. -/
def meets (step : σ → α → Except ε (ω × σ)) (ok : σ → α → Prop) [∀ s a, Decidable (ok s a)] :
    σ → List α → Bool
  | _, [] => true
  | s, a :: as => decide (ok s a) && match step s a with
    | .ok (_,s') => meets step ok s' as
    | .error _ => true

theorem guarded_of_meets {step : σ → α → Except ε (ω × σ)} {ok : σ → α → Prop}
    [∀ s a, Decidable (ok s a)] {s : σ} {as : List α} (h : meets step ok s as = true) :
    Guarded step ok s as := by
  induction as generalizing s with
  | nil => trivial
  | cons a as ih =>
    obtain ⟨hok,hrest⟩ := Bool.and_eq_true_iff.mp h
    refine ⟨of_decide_eq_true hok,fun o s' hstep => ih ?_⟩
    rw [hstep] at hrest
    exact hrest

/-- The guard is met by the action behind a part of the run. -/
theorem Guarded.last {step : σ → α → Except ε (ω × σ)} {ok : σ → α → Prop} {s s' : σ} {a : α}
    {as : List α} {os : List ω} (h : Guarded step ok s (as ++ [a]))
    (hrun : run step s as = .ok (os,s')) : ok s' a := by
  induction as generalizing s os with
  | nil =>
    obtain ⟨-,rfl⟩ := Prod.mk.inj (Except.ok.inj hrun)
    exact h.1
  | cons b as ih =>
    obtain ⟨o₁,s₁,os₁,hb,hrest,-⟩ := run_cons hrun
    exact ih (h.2 o₁ s₁ hb) hrest

/-- The run rule: what every guarded action keeps holds at the end of a guarded run. -/
theorem Guarded.keeps {step : σ → α → Except ε (ω × σ)} {ok : σ → α → Prop} {Inv : σ → Prop}
    (hstep : ∀ s a o s', Inv s → ok s a → step s a = .ok (o,s') → Inv s') {s s' : σ} {as : List α}
    {os : List ω} (hg : Guarded step ok s as) (hs : Inv s) (hrun : run step s as = .ok (os,s')) :
    Inv s' := by
  induction as generalizing s os with
  | nil =>
    obtain ⟨-,rfl⟩ := Prod.mk.inj (Except.ok.inj hrun)
    exact hs
  | cons a as ih =>
    obtain ⟨o₁,s₁,os₁,ha,hrest,-⟩ := run_cons hrun
    exact ih (hg.2 o₁ s₁ ha) (hstep s a o₁ s₁ hs hg.1 ha) hrest

/-- A guard that a run's actions meet in every state. -/
theorem guarded_of_all {step : σ → α → Except ε (ω × σ)} {ok : σ → α → Prop} {s : σ} {as : List α}
    (h : ∀ a ∈ as, ∀ s, ok s a) : Guarded step ok s as := by
  induction as generalizing s with
  | nil => trivial
  | cons a as ih =>
    have hrest := fun b hb => h b (List.mem_cons_of_mem a hb)
    exact ⟨h a List.mem_cons_self s,fun _ _ _ => ih hrest⟩

/-- What every action keeps holds at the end of a run. -/
theorem run_keeps {step : σ → α → Except ε (ω × σ)} {Inv : σ → Prop}
    (hstep : ∀ s a o s', Inv s → step s a = .ok (o,s') → Inv s') {s s' : σ} {as : List α}
    {os : List ω} (hs : Inv s) (hrun : run step s as = .ok (os,s')) : Inv s' := by
  have hg : Guarded step (fun _ _ => True) s as := guarded_of_all fun _ _ _ => trivial
  exact hg.keeps (fun s a o s' h _ => hstep s a o s' h) hs hrun

/-- Forward simulation: a relation that every guarded action keeps carries every guarded run of
the machine to a trace of the specification, and no such run faults. -/
theorem run_simulates_guarded {step : σ → α → Except ε (ω × σ)} {spec : τ → α → ω → τ → Prop}
    (ok : σ → α → Prop) (R : σ → τ → Prop)
    (hstep : ∀ s t a, R s t → ok s a → ∃ o s' t', step s a = .ok (o,s') ∧ spec t a o t' ∧ R s' t')
    {s : σ} {t : τ} (h : R s t) (as : List α) (hg : Guarded step ok s as) :
    ∃ os s' t', run step s as = .ok (os,s') ∧ Trace spec t as os t' ∧ R s' t' := by
  induction as generalizing s t with
  | nil => exact ⟨[], s, t, rfl, .nil t, h⟩
  | cons a as ih =>
    obtain ⟨hok,hnext⟩ := hg
    obtain ⟨o, s₁, t₁, hs, ht, hr⟩ := hstep s t a h hok
    obtain ⟨os, s₂, t₂, hs', ht', hr'⟩ := ih hr (hnext o s₁ hs)
    refine ⟨o :: os, s₂, t₂, ?_, .cons ht ht', hr'⟩
    simp only [run, hs, hs', bind, Except.bind]

/-- A run that does not fault was guarded, if no action gets past a failed guard. -/
theorem guarded_of_run {step : σ → α → Except ε (ω × σ)} {spec : τ → α → ω → τ → Prop}
    (ok : σ → α → Prop) (R : σ → τ → Prop)
    (hstep : ∀ s t a, R s t → ok s a → ∃ o s' t', step s a = .ok (o,s') ∧ spec t a o t' ∧ R s' t')
    (hok : ∀ s t a o s', R s t → step s a = .ok (o,s') → ok s a)
    {s s'' : σ} {t : τ} {as : List α} {os : List ω} (h : R s t)
    (hrun : run step s as = .ok (os,s'')) : Guarded step ok s as := by
  induction as generalizing s t os with
  | nil => trivial
  | cons a as ih =>
    obtain ⟨o,s₁,os₁,ha,hrest,-⟩ := run_cons hrun
    have hg := hok s t a o s₁ h ha
    obtain ⟨o',s',t',ha',-,hr⟩ := hstep s t a h hg
    obtain ⟨rfl,rfl⟩ := Prod.mk.inj (Except.ok.inj (ha'.symm.trans ha))
    exact .cons ha hg (ih hr hrest)

/-- The run does not fault, and what P says holds at its start and after each action. -/
def Throughout (step : σ → α → Except ε (ω × σ)) (P : σ → Prop) : σ → List α → Prop
  | s, [] => P s
  | s, a :: as => P s ∧ ∃ o s', step s a = .ok (o,s') ∧ Throughout step P s' as

theorem Throughout.runs {step : σ → α → Except ε (ω × σ)} {P : σ → Prop} {s : σ} {as : List α}
    (h : Throughout step P s as) : ∃ os s', run step s as = .ok (os,s') := by
  induction as generalizing s with
  | nil => exact ⟨[],s,rfl⟩
  | cons a as ih =>
    obtain ⟨-,o,s₁,ha,hrest⟩ := h
    obtain ⟨os,s',hrun⟩ := ih hrest
    refine ⟨o :: os,s',?_⟩
    simp only [run, ha, hrun, bind, Except.bind]

/-- Where each guarded action keeps an invariant, a guarded run has throughout what follows from
it. -/
theorem throughout_of_guarded {step : σ → α → Except ε (ω × σ)} {Inv P : σ → Prop}
    (ok : σ → α → Prop) (hP : ∀ s, Inv s → P s)
    (hstep : ∀ s a, Inv s → ok s a → ∃ o s', step s a = .ok (o,s') ∧ Inv s')
    {s : σ} (hs : Inv s) (as : List α) (hg : Guarded step ok s as) : Throughout step P s as := by
  induction as generalizing s with
  | nil => exact hP s hs
  | cons a as ih =>
    obtain ⟨hok,hnext⟩ := hg
    obtain ⟨o,s',ha,hs'⟩ := hstep s a hs hok
    exact ⟨hP s hs,o,s',ha,ih hs' (hnext o s' ha)⟩

/-- Of the runs with admitted actions, the guarded ones have the property throughout: a guarded
action returns and keeps the invariant, and any other one faults or ends without the property. -/
theorem throughout_iff_of_admitted {step : σ → α → Except ε (ω × σ)} {Inv P : σ → Prop}
    (adm ok : σ → α → Prop) (hP : ∀ s, Inv s → P s)
    (hkeep : ∀ s a, Inv s → adm s a → ok s a → ∃ o s', step s a = .ok (o,s') ∧ Inv s')
    (hfail : ∀ s a o s', Inv s → adm s a → step s a = .ok (o,s') → P s' → ok s a)
    {s : σ} (hs : Inv s) (as : List α) (ha : Guarded step adm s as) :
    Throughout step P s as ↔ Guarded step ok s as := by
  induction as generalizing s with
  | nil => exact iff_of_true (hP s hs) trivial
  | cons a as ih =>
    obtain ⟨hadm,hnext⟩ := ha
    constructor
    · rintro ⟨-,o,s',hstep,hrest⟩
      have hs' : P s' := by
        cases as with
        | nil => exact hrest
        | cons b as => exact hrest.1
      have hok := hfail s a o s' hs hadm hstep hs'
      obtain ⟨o₁,s₁,hstep₁,hs₁⟩ := hkeep s a hs hadm hok
      obtain ⟨rfl,rfl⟩ : o₁ = o ∧ s₁ = s' := by simpa [hstep] using hstep₁.symm
      exact .cons hstep hok ((ih hs₁ (hnext o₁ s₁ hstep)).mp hrest)
    · rintro ⟨hok,hrest⟩
      obtain ⟨o,s',hstep,hs'⟩ := hkeep s a hs hadm hok
      exact ⟨hP s hs,o,s',hstep,(ih hs' (hnext o s' hstep)).mpr (hrest o s' hstep)⟩

/-- Where the property that follows from the invariant fails with each action that does not keep
it, the guard says of each run whether it has the property throughout. -/
theorem throughout_iff_guarded {step : σ → α → Except ε (ω × σ)} {Inv P : σ → Prop}
    (ok : σ → α → Prop) (hP : ∀ s, Inv s → P s)
    (hstep : ∀ s a, Inv s → ∃ o s', step s a = .ok (o,s') ∧ (ok s a → Inv s') ∧ (P s' → ok s a))
    {s : σ} (hs : Inv s) (as : List α) : Throughout step P s as ↔ Guarded step ok s as := by
  apply throughout_iff_of_admitted (fun _ _ => True) ok hP _ _ hs as (guarded_of_all fun _ _ _ => trivial)
  · intro s a hs _ hok
    obtain ⟨o,s',ha,hkeep,-⟩ := hstep s a hs
    exact ⟨o,s',ha,hkeep hok⟩
  · intro s a o s' hs _ ha
    obtain ⟨o₁,s₁,ha₁,-,hfail⟩ := hstep s a hs
    obtain ⟨-,rfl⟩ := Prod.mk.inj (Except.ok.inj (ha₁.symm.trans ha))
    exact hfail

/-- Where the guard says of each action whether it faults, and a guarded one keeps the invariant, it
says of each run whether it has throughout what follows from the invariant. -/
theorem throughout_iff_guarded_of_ok {step : σ → α → Except ε (ω × σ)} {Inv P : σ → Prop}
    (ok : σ → α → Prop) (hP : ∀ s, Inv s → P s)
    (hstep : ∀ s a, Inv s → ok s a → ∃ o s', step s a = .ok (o,s') ∧ Inv s')
    (hok : ∀ s a o s', Inv s → step s a = .ok (o,s') → ok s a)
    {s : σ} (hs : Inv s) (as : List α) : Throughout step P s as ↔ Guarded step ok s as :=
  throughout_iff_of_admitted (fun _ _ => True) ok hP (fun s a hs _ => hstep s a hs)
    (fun s a o s' hs _ ha _ => hok s a o s' hs ha) hs as (guarded_of_all fun _ _ _ => trivial)

/-- The loop rule for one action: where it keeps an invariant and lowers a measure until a final
state, and meets its guard all the way, it comes to a final state. -/
theorem run_ends {step : σ → α → Except ε (ω × σ)} {Inv P final : σ → Prop} (ok : σ → α → Prop)
    (a : α) (μ : σ → ℕ) (hP : ∀ s, Inv s → ok s a → P s)
    (hstep : ∀ s, Inv s → ok s a → ¬final s →
      ∃ o s', step s a = .ok (o,s') ∧ Inv s' ∧ μ s' < μ s)
    {s : σ} (hs : Inv s) (hg : ∀ n, Guarded step ok s (List.replicate n a)) :
    ∃ n os s', run step s (List.replicate n a) = .ok (os,s') ∧
      Throughout step P s (List.replicate n a) ∧ Inv s' ∧ final s' := by
  induction hμ : μ s using Nat.strong_induction_on generalizing s with
  | _ m ih =>
    have hok : ok s a := (hg 1).1
    by_cases hfinal : final s
    · exact ⟨0,[],s,rfl,hP s hs hok,hs,hfinal⟩
    · obtain ⟨o,s₁,ha,hs₁,hlt⟩ := hstep s hs hok hfinal
      have hg₁ : ∀ n, Guarded step ok s₁ (List.replicate n a) := fun n => (hg (n+1)).2 o s₁ ha
      obtain ⟨n,os,s',hrun,hall,hinv,hend⟩ := ih (μ s₁) (hμ ▸ hlt) hs₁ hg₁ rfl
      refine ⟨n+1,o :: os,s',?_,⟨hP s hs hok,o,s₁,ha,hall⟩,hinv,hend⟩
      simp only [List.replicate_succ, run, ha, hrun, bind, Except.bind]

/-- A state that an action leaves as it is. -/
def Final (step : σ → α → Except ε (ω × σ)) (a : α) (s : σ) : Prop := ∃ o, step s a = .ok (o,s)

theorem Final.run {step : σ → α → Except ε (ω × σ)} {a : α} {s s' : σ} {n : ℕ} {os : List ω}
    (h : Final step a s) (hrun : run step s (List.replicate n a) = .ok (os,s')) : s' = s := by
  induction n generalizing os with
  | zero =>
    obtain ⟨-,rfl⟩ := Prod.mk.inj (Except.ok.inj hrun)
    rfl
  | succ n ih =>
    obtain ⟨o,hstep⟩ := h
    obtain ⟨o₁,s₁,os₁,ha,hrest,-⟩ := run_cons hrun
    obtain ⟨rfl,rfl⟩ := Prod.mk.inj (Except.ok.inj (hstep.symm.trans ha))
    exact ih hrest

/-- One action leads to one final state only. -/
theorem Final.unique {step : σ → α → Except ε (ω × σ)} {a : α} {s t t' : σ} {n m : ℕ}
    {os os' : List ω} (ht : Final step a t) (ht' : Final step a t')
    (hrun : Transition.run step s (List.replicate n a) = .ok (os,t))
    (hrun' : Transition.run step s (List.replicate m a) = .ok (os',t')) : t = t' := by
  induction n generalizing s m os os' with
  | zero =>
    obtain ⟨-,rfl⟩ := Prod.mk.inj (Except.ok.inj hrun)
    exact (ht.run hrun').symm
  | succ n ih =>
    cases m with
    | zero =>
      obtain ⟨-,rfl⟩ := Prod.mk.inj (Except.ok.inj hrun')
      exact ht'.run hrun
    | succ m =>
      obtain ⟨o,s₁,os₁,ha,hrest,-⟩ := run_cons hrun
      obtain ⟨o',s₁',os₁',ha',hrest',-⟩ := run_cons hrun'
      obtain ⟨-,rfl⟩ := Prod.mk.inj (Except.ok.inj (ha.symm.trans ha'))
      exact ih hrest hrest'

/-- A guard that is met up to a final state and there is met for ever. -/
theorem Guarded.forever {step : σ → α → Except ε (ω × σ)} {ok : σ → α → Prop} {a : α} {s t : σ}
    {n : ℕ} {os : List ω} (ht : Final step a t) (hok : ok t a)
    (hg : Guarded step ok s (List.replicate n a))
    (hrun : Transition.run step s (List.replicate n a) = .ok (os,t)) (m : ℕ) :
    Guarded step ok s (List.replicate m a) := by
  induction m generalizing s n os with
  | zero => trivial
  | succ m ih =>
    cases n with
    | zero =>
      obtain ⟨-,rfl⟩ := Prod.mk.inj (Except.ok.inj hrun)
      obtain ⟨o,hstep⟩ := id ht
      exact .cons hstep hok (ih (n := 0) trivial rfl)
    | succ n =>
      obtain ⟨o,s₁,os₁,ha,hrest,-⟩ := run_cons hrun
      exact .cons ha hg.1 (ih (hg.2 o s₁ ha) hrest)

/-- The machine does on a run what the specification says, and every state on the way is related
to the specification's. -/
def Simulated (step : σ → α → Except ε (ω × σ)) (spec : τ → α → ω → τ → Prop) (R : σ → τ → Prop) :
    σ → τ → List α → Prop
  | s, t, [] => R s t
  | s, t, a :: as => R s t ∧ ∃ o s' t', step s a = .ok (o,s') ∧ spec t a o t' ∧
      Simulated step spec R s' t' as

theorem Simulated.mono {step : σ → α → Except ε (ω × σ)} {spec : τ → α → ω → τ → Prop}
    {R P : σ → τ → Prop} (hR : ∀ s t, R s t → P s t) {s : σ} {t : τ} {as : List α}
    (h : Simulated step spec R s t as) : Simulated step spec P s t as := by
  induction as generalizing s t with
  | nil => exact hR s t h
  | cons a as ih =>
    obtain ⟨hst,o,s',t',hs,ht,hrest⟩ := h
    exact ⟨hR s t hst,o,s',t',hs,ht,ih hrest⟩

/-- Where each guarded action does what the specification says, a guarded run does. -/
theorem simulated_of_guarded {step : σ → α → Except ε (ω × σ)} {spec : τ → α → ω → τ → Prop}
    {R : σ → τ → Prop} (ok : σ → α → Prop)
    (hstep : ∀ s t a, R s t → ok s a → ∃ o s' t', step s a = .ok (o,s') ∧ spec t a o t' ∧ R s' t')
    {s : σ} {t : τ} (h : R s t) (as : List α) (hg : Guarded step ok s as) :
    Simulated step spec R s t as := by
  induction as generalizing s t with
  | nil => exact h
  | cons a as ih =>
    obtain ⟨hok,hnext⟩ := hg
    obtain ⟨o,s',t',hs,ht,hr⟩ := hstep s t a h hok
    exact ⟨h,o,s',t',hs,ht,ih hr (hnext o s' hs)⟩

/-- A guard that says of each admitted action whether the machine does what the specification
says, and ends in a related state, says it of each run. -/
theorem simulated_iff_guarded {step : σ → α → Except ε (ω × σ)} {spec : τ → α → ω → τ → Prop}
    {R : σ → τ → Prop} (adm : α → Prop) (ok : σ → α → Prop)
    (hstep : ∀ s t a, R s t → adm a →
      ((∃ o s' t', step s a = .ok (o,s') ∧ spec t a o t' ∧ R s' t') ↔ ok s a))
    {s : σ} {t : τ} (h : R s t) (as : List α) (ha : ∀ a ∈ as, adm a) :
    Simulated step spec R s t as ↔ Guarded step ok s as := by
  induction as generalizing s t with
  | nil => exact iff_of_true h trivial
  | cons a as ih =>
    have has := fun b hb => ha b (List.mem_cons_of_mem a hb)
    have hiff := hstep s t a h (ha a List.mem_cons_self)
    constructor
    · rintro ⟨-,o,s',t',hs,ht,hrest⟩
      have hr : R s' t' := by
        cases as with
        | nil => exact hrest
        | cons b as => exact hrest.1
      refine ⟨hiff.mp ⟨o,s',t',hs,ht,hr⟩,?_⟩
      intro o₁ s₁ hs₁
      obtain ⟨-,rfl⟩ : o = o₁ ∧ s' = s₁ := by simpa [hs] using hs₁
      exact (ih hr has).mp hrest
    · rintro ⟨hok,hnext⟩
      obtain ⟨o,s',t',hs,ht,hr⟩ := hiff.mpr hok
      exact ⟨h,o,s',t',hs,ht,(ih hr has).mpr (hnext o s' hs)⟩

/-- Of the runs with admitted actions, the guarded ones do what the specification says: a guarded
action does, and any other one faults or ends in a state that is not related. -/
theorem simulated_iff_of_admitted {step : σ → α → Except ε (ω × σ)} {spec : τ → α → ω → τ → Prop}
    {R P : σ → τ → Prop} (adm ok : σ → α → Prop) (hP : ∀ s t, R s t → P s t)
    (hkeep : ∀ s t a, R s t → adm s a → ok s a →
      ∃ o s' t', step s a = .ok (o,s') ∧ spec t a o t' ∧ R s' t')
    (hfail : ∀ s t a o s' t', R s t → adm s a → step s a = .ok (o,s') → spec t a o t' → P s' t' →
      ok s a ∧ R s' t')
    {s : σ} {t : τ} (h : R s t) (as : List α) (ha : Guarded step adm s as) :
    Simulated step spec P s t as ↔ Guarded step ok s as := by
  induction as generalizing s t with
  | nil => exact iff_of_true (hP s t h) trivial
  | cons a as ih =>
    obtain ⟨hadm,hnext⟩ := ha
    constructor
    · rintro ⟨-,o,s',t',hstep,ht,hrest⟩
      have hs' : P s' t' := by
        cases as with
        | nil => exact hrest
        | cons b as => exact hrest.1
      obtain ⟨hok,hr⟩ := hfail s t a o s' t' h hadm hstep ht hs'
      exact .cons hstep hok ((ih hr (hnext o s' hstep)).mp hrest)
    · rintro ⟨hok,hrest⟩
      obtain ⟨o,s',t',hstep,ht,hr⟩ := hkeep s t a h hadm hok
      exact ⟨hP s t h,o,s',t',hstep,ht,(ih hr (hnext o s' hstep)).mpr (hrest o s' hstep)⟩

/-- A condition on the actions of a run and on the states of a specification that has one next state
for each of them. -/
def GuardedBy (next : τ → α → τ) (ok : τ → α → Prop) : τ → List α → Prop
  | _, [] => True
  | t, a :: as => ok t a ∧ GuardedBy next ok (next t a) as

/-- Where such a condition says of each action whether the machine does what the specification says, it
says it of each run. -/
theorem simulated_iff_guardedBy {step : σ → α → Except ε (ω × σ)} {spec : τ → α → ω → τ → Prop}
    {R P : σ → τ → Prop} (next : τ → α → τ) (ok : τ → α → Prop) (hP : ∀ s t, R s t → P s t)
    (hspec : ∀ t a o t', spec t a o t' → t' = next t a)
    (hkeep : ∀ s t a, R s t → ok t a →
      ∃ o s', step s a = .ok (o,s') ∧ spec t a o (next t a) ∧ R s' (next t a))
    (hfail : ∀ s t a o s', R s t → step s a = .ok (o,s') → spec t a o (next t a) → ok t a)
    {s : σ} {t : τ} (h : R s t) (as : List α) :
    Simulated step spec P s t as ↔ GuardedBy next ok t as := by
  induction as generalizing s t with
  | nil => exact iff_of_true (hP s t h) trivial
  | cons a as ih =>
    constructor
    · rintro ⟨-,o,s',t',hstep,ht,hrest⟩
      obtain rfl := hspec t a o t' ht
      have hok := hfail s t a o s' h hstep ht
      obtain ⟨o₁,s₁,hstep₁,-,hr⟩ := hkeep s t a h hok
      obtain ⟨rfl,rfl⟩ := Prod.mk.inj (Except.ok.inj (hstep₁.symm.trans hstep))
      exact ⟨hok,(ih hr).mp hrest⟩
    · rintro ⟨hok,hrest⟩
      obtain ⟨o,s',hstep,ht,hr⟩ := hkeep s t a h hok
      exact ⟨hP s t h,o,s',next t a,hstep,ht,(ih hr).mpr hrest⟩

/-- Forward simulation where the actions themselves say whether they are admitted. -/
theorem run_simulates {step : σ → α → Except ε (ω × σ)} {spec : τ → α → ω → τ → Prop}
    (adm : α → Prop) (R : σ → τ → Prop)
    (hstep : ∀ s t a, R s t → adm a → ∃ o s' t', step s a = .ok (o,s') ∧ spec t a o t' ∧ R s' t')
    {s : σ} {t : τ} (h : R s t) (as : List α) (ha : ∀ a ∈ as, adm a) :
    ∃ os s' t', run step s as = .ok (os,s') ∧ Trace spec t as os t' ∧ R s' t' := by
  apply run_simulates_guarded (fun _ a => adm a) R hstep h
  clear h
  induction as generalizing s with
  | nil => trivial
  | cons a as ih =>
    exact ⟨ha a List.mem_cons_self,fun _ _ _ => ih (fun b hb => ha b (List.mem_cons_of_mem a hb))⟩

/-- The states some sequence of transitions leads to. -/
inductive Reachable (start : σ → Prop) (next : σ → σ → Prop) : σ → Prop
  | start {s : σ} (h : start s) : Reachable start next s
  | next {s s' : σ} (h : Reachable start next s) (step : next s s') : Reachable start next s'

/-- A guarded run goes from one reachable state to another. -/
theorem Reachable.run {step : σ → α → Except ε (ω × σ)} {ok : σ → α → Prop} {start : σ → Prop}
    {next : σ → σ → Prop} (hnext : ∀ s a o s', ok s a → step s a = .ok (o,s') → next s s') {s s' : σ}
    (hs : Reachable start next s) {as : List α} {os : List ω} (hg : Guarded step ok s as)
    (hrun : Transition.run step s as = .ok (os,s')) : Reachable start next s' :=
  hg.keeps (fun s a o s' hs hok hstep => hs.next (hnext s a o s' hok hstep)) hs hrun

/-- What holds at the start and survives every transition holds in every reachable state. -/
theorem Reachable.invariant {start : σ → Prop} {next : σ → σ → Prop} (inv : σ → Prop)
    (hstart : ∀ s, start s → inv s) (hnext : ∀ s s', inv s → next s s' → inv s') {s : σ}
    (h : Reachable start next s) : inv s := by
  induction h with
  | start h => exact hstart _ h
  | next _ hstep ih => exact hnext _ _ ih hstep

/-- What a machine without actions comes to. -/
def Leads (next : σ → Except ε σ) : σ → σ → Prop :=
  Relation.ReflTransGen fun s s' => next s = .ok s'

/-- The state after some number of steps. -/
def iterate (next : σ → Except ε σ) : ℕ → σ → Except ε σ
  | 0, s => .ok s
  | n+1, s => next s >>= iterate next n

/-- The states that the first steps come to. -/
def states (next : σ → Except ε σ) : ℕ → σ → List σ
  | 0, s => [s]
  | n+1, s => s :: match next s with
    | .ok s' => states next n s'
    | .error _ => []

theorem iterate_add (next : σ → Except ε σ) (m n : ℕ) (s : σ) :
    iterate next (m+n) s = iterate next m s >>= iterate next n := by
  induction m generalizing s with
  | zero =>
    rw [Nat.zero_add]
    rfl
  | succ m ih =>
    rw [Nat.succ_add, iterate, iterate]
    cases hs : next s with
    | error e => rfl
    | ok s' => exact ih s'

theorem iterate_halted {next : σ → Except ε σ} {s : σ} (hhalt : next s = .ok s) (n : ℕ) :
    iterate next n s = .ok s := by
  induction n with
  | zero => rfl
  | succ n ih =>
    rw [iterate, hhalt]
    exact ih

/-- What each step keeps, and from where there is a step, is there after any number of them. -/
theorem iterate_keeps {next : σ → Except ε σ} {Inv : σ → Prop}
    (hnext : ∀ s, Inv s → ∃ s', next s = .ok s' ∧ Inv s') (n : ℕ) {s : σ} (hs : Inv s) :
    ∃ s', iterate next n s = .ok s' ∧ Inv s' := by
  induction n generalizing s with
  | zero => exact ⟨s,rfl,hs⟩
  | succ n ih =>
    obtain ⟨s₁,hstep,hs₁⟩ := hnext s hs
    obtain ⟨s',hrest,hs'⟩ := ih hs₁
    refine ⟨s',?_,hs'⟩
    rw [iterate, hstep]
    exact hrest

/-- The loop rule: a machine that gets smaller until it is done is done after some steps. -/
theorem iterate_ends {next : σ → Except ε σ} {Inv final : σ → Prop} {β : Type*} {r : β → β → Prop}
    (hwf : WellFounded r) (measure : σ → β)
    (hnext : ∀ s, Inv s → ¬final s → ∃ s', next s = .ok s' ∧ Inv s' ∧ r (measure s') (measure s))
    {s : σ} (hs : Inv s) : ∃ n s', iterate next n s = .ok s' ∧ Inv s' ∧ final s' := by
  induction hm : measure s using hwf.induction generalizing s with
  | _ b ih =>
    by_cases hfinal : final s
    · exact ⟨0,s,rfl,hs,hfinal⟩
    · obtain ⟨s₁,hstep,hs₁,hless⟩ := hnext s hs hfinal
      obtain ⟨n,s',hrest,hs',hfinal'⟩ := ih _ (hm ▸ hless) hs₁ rfl
      refine ⟨n+1,s',?_,hs',hfinal'⟩
      rw [iterate, hstep]
      exact hrest

namespace Leads
variable {next : σ → Except ε σ} {s t u : σ}

theorem step (h : next s = .ok t) : Leads next s t := .single h

theorem of_iterate {n : ℕ} (h : iterate next n s = .ok t) : Leads next s t := by
  induction n generalizing s with
  | zero =>
    obtain rfl := Except.ok.inj h
    exact .refl
  | succ n ih =>
    cases hu : next s with
    | error e => simp [iterate, hu, bind, Except.bind] at h
    | ok u =>
      have hrest : iterate next n u = .ok t := by
        simpa only [iterate, hu, bind, Except.bind] using h
      exact (step hu).trans (ih hrest)

theorem keeps {P : σ → Prop} (hP : ∀ s s', P s → next s = .ok s' → P s') (h : Leads next s t)
    (hs : P s) : P t := by
  induction h with
  | refl => exact hs
  | tail _ hstep ih => exact hP _ _ ih hstep

theorem eq_of_halted (hhalt : next t = .ok t) (h : Leads next t u) : u = t := by
  apply h.keeps (P := fun u => u = t) _ rfl
  rintro s s' rfl hstep
  exact Except.ok.inj (hstep.symm.trans hhalt)

/-- A run that halts comes to no states but those of its steps. -/
theorem mem_states {n : ℕ} (hrun : iterate next n s = .ok t) (hhalt : next t = .ok t)
    (h : Leads next s u) : u ∈ states next n s := by
  induction n generalizing s with
  | zero =>
    obtain rfl := Except.ok.inj hrun
    rw [eq_of_halted hhalt h]
    exact List.mem_singleton_self _
  | succ n ih =>
    rcases h.cases_head with rfl | ⟨s₁,hfirst,h₁⟩
    · exact List.mem_cons_self
    · rw [iterate, hfirst] at hrun
      rw [states, hfirst]
      exact List.mem_cons_of_mem s (ih hrun h₁)

/-- A machine that halts does not get stuck on the way. -/
theorem goes_on (hhalt : next t = .ok t) (h : Leads next s t) (hu : Leads next s u) :
    ∃ u', next u = .ok u' := by
  have hunique : Relator.RightUnique fun s s' : σ => next s = .ok s' :=
    fun _ _ _ h h' => Except.ok.inj (h.symm.trans h')
  rcases Relation.ReflTransGen.total_of_right_unique hunique h hu with htu | hut
  · exact ⟨t,(eq_of_halted hhalt htu) ▸ hhalt⟩
  · cases hut.cases_head with
    | inl h => exact ⟨t,h ▸ hhalt⟩
    | inr h =>
      obtain ⟨u',hstep,-⟩ := h
      exact ⟨u',hstep⟩

end Leads

/-- Two outcomes are the same fault, or two related states. -/
inductive Lockstep (R : σ → τ → Prop) : Except ε σ → Except ε τ → Prop
  | ok {s : σ} {t : τ} (h : R s t) : Lockstep R (.ok s) (.ok t)
  | error (e : ε) : Lockstep R (.error e) (.error e)

namespace Lockstep
universe v
variable {α β γ δ : Type v} {R : α → β → Prop} {S : γ → δ → Prop}

theorem bind {x : Except ε α} {y : Except ε β} {f : α → Except ε γ} {g : β → Except ε δ}
    (h : Lockstep R x y) (hrest : ∀ a b, R a b → Lockstep S (f a) (g b)) :
    Lockstep S (x >>= f) (y >>= g) := by
  cases h with
  | ok hab => exact hrest _ _ hab
  | error e => exact .error e

/-- Both do the same first, and go on with its outcome. -/
theorem bind_same {x : Except ε α} {f : α → Except ε γ} {g : α → Except ε δ}
    (h : ∀ a, x = .ok a → Lockstep S (f a) (g a)) : Lockstep S (x >>= f) (x >>= g) := by
  cases x with
  | error e => exact .error e
  | ok a => exact h a rfl

/-- Two machines that return the same for each admitted action, from related states to related
ones, return the same for each run. -/
theorem run {step : σ → ρ → Except ε (ω × σ)} {step' : τ → ρ → Except ε (ω × τ)} (adm : ρ → Prop)
    {P : σ → τ → Prop}
    (hstep : ∀ s t a, P s t → adm a →
      Lockstep (fun out out' => out.1 = out'.1 ∧ P out.2 out'.2) (step s a) (step' t a))
    {s : σ} {t : τ} (h : P s t) (as : List ρ) (has : ∀ a ∈ as, adm a) :
    Lockstep (fun out out' => out.1 = out'.1 ∧ P out.2 out'.2)
      (Transition.run step s as) (Transition.run step' t as) := by
  induction as generalizing s t with
  | nil => exact .ok ⟨rfl,h⟩
  | cons a as ih =>
    have hfirst := hstep s t a h (has a List.mem_cons_self)
    have hnext := fun b hb => has b (List.mem_cons_of_mem a hb)
    unfold Transition.run
    generalize step s a = x at hfirst ⊢
    generalize step' t a = y at hfirst ⊢
    cases hfirst with
    | error e => exact .error e
    | @ok out out' hout =>
      obtain ⟨o,s₁⟩ := out
      obtain ⟨o',t₁⟩ := out'
      obtain ⟨rfl,hP⟩ := hout
      have hrest := ih hP hnext
      simp only [Bind.bind, Except.bind]
      generalize Transition.run step s₁ as = x at hrest ⊢
      generalize Transition.run step' t₁ as = y at hrest ⊢
      cases hrest with
      | error e => exact .error e
      | ok hout => exact .ok ⟨by rw [hout.1],hout.2⟩

theorem ite {c : Prop} [Decidable c] {x x' : Except ε α} {y y' : Except ε β}
    (hthen : c → Lockstep R x y) (helse : ¬c → Lockstep R x' y') :
    Lockstep R (if c then x else x') (if c then y else y') := by
  by_cases hc : c
  · rw [if_pos hc, if_pos hc]
    exact hthen hc
  · rw [if_neg hc, if_neg hc]
    exact helse hc

end Lockstep

end Runs

end JhCommon.Transition
