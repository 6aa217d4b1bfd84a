import JhCommon.TickTermination
import JhCommon.TimerRemoval

/-! The removals on lists where nodes with a listener stand between those with an event. -/
namespace JhCommon

/-- The two `removeTimedEvent`s, and `removeAgentsByReceiver`. -/
inductive NodeRemoval
  | id (eventId : ℤ) (dispatcher : Option ℕ)
  | event (ev : Option ℕ)
  | agents (receiver : ℕ) (dispatcher : Option ℕ)

namespace NodeRemoval

/-- The nodes that a removal is for, where the events are known by their ids and the targets of the
agents among them. -/
def names (eventId : ℕ → ℤ) (deliveryTarget : ℕ → ℕ) (timer : TimerNode) : NodeRemoval → Bool
  | .id i dispatcher => timer.mEvent.any fun ev =>
      timer.mDispatcher = dispatcher ∧ (eventId ev = i ∨ i = kInvalidEventId)
  | .event ev => ev ≠ none ∧ timer.mEvent = ev
  | .agents receiver dispatcher => timer.mEvent.any fun ev =>
      timer.mDispatcher = dispatcher ∧ eventId ev = kAgentEventId ∧ deliveryTarget ev = receiver

/-- The lists on which a removal does what it is for. -/
def Safe (list : List TimerNode) : NodeRemoval → Prop
  | .id _ _ => True
  | .event ev => ev ≠ none ∨ ∀ timer ∈ list, timer.mEvent ≠ none
  | .agents _ _ => ∀ timer ∈ list, timer.mEvent ≠ none

end NodeRemoval

namespace Timer

/-- The nodes hold references, so that their events can be asked. -/
def remove (t : Timer) (eventId : ℕ → ℤ) (deliveryTarget : ℕ → ℕ) :
    NodeRemoval → Exec (Timer × List TimerNode)
  | .id i dispatcher => t.removeTimedEventId (fun ev => .ok (eventId ev)) i dispatcher
  | .event ev => t.removeTimedEvent ev
  | .agents receiver dispatcher => t.removeAgentsByReceiver (fun ev => .ok (eventId ev))
      (fun ev => .ok (deliveryTarget ev)) receiver dispatcher

section Removals
variable {t : Timer} {test : TimerNode → Exec Bool} {eventId : ℕ → ℤ} {deliveryTarget : ℕ → ℕ}

theorem removeNodes_tests {list : List TimerNode} {r : List TimerNode × List TimerNode}
    (h : removeNodes test list = .ok r) : ∀ timer ∈ list, ∃ b, test timer = .ok b := by
  induction list generalizing r with
  | nil => simp
  | cons timer rest ih =>
    obtain ⟨b,hb,hloop⟩ := bind_eq_ok.mp h
    have hrest : ∃ r', removeNodes test rest = .ok r' := by
      cases b with
      | true =>
        obtain ⟨r',hr',-⟩ := bind_eq_ok.mp hloop
        exact ⟨r',hr'⟩
      | false =>
        obtain ⟨r',hr',-⟩ := bind_eq_ok.mp hloop
        exact ⟨r',hr'⟩
    obtain ⟨r',hr'⟩ := hrest
    intro x hx
    rcases List.mem_cons.mp hx with rfl | hx
    · exact ⟨b,hb⟩
    · exact ih hr' x hx

/-- A test that answers what a removal names erases that and nothing else. -/
theorem removeWhere_eq {f : TimerNode → Bool} (htest : ∀ timer ∈ t.mList, test timer = .ok (f timer)) :
    t.removeWhere test = .ok ({ t with mList := t.mList.filter fun timer => !f timer },
      t.mList.filter f) := by
  rw [removeWhere, removeNodes_eq htest]
  rfl

theorem hasEventId_eq (i : ℤ) (dispatcher : Option ℕ) (timer : TimerNode) :
    hasEventId (fun ev => .ok (eventId ev)) i dispatcher timer =
      .ok ((NodeRemoval.id i dispatcher).names eventId deliveryTarget timer) := by
  cases hev : timer.mEvent with
  | none => simp only [hasEventId, NodeRemoval.names, hev, Option.any_none]
  | some ev =>
    simp only [hasEventId, NodeRemoval.names, hev, Option.any_some]
    by_cases hto : timer.mDispatcher = dispatcher
    · simp [hto]
    · simp [hto]

theorem isAgentFor_eq (receiver : ℕ) (dispatcher : Option ℕ) {timer : TimerNode}
    (hsome : timer.mEvent ≠ none) :
    isAgentFor (fun ev => .ok (eventId ev)) (fun ev => .ok (deliveryTarget ev)) receiver dispatcher
      timer = .ok ((NodeRemoval.agents receiver dispatcher).names eventId deliveryTarget timer) := by
  cases hev : timer.mEvent with
  | none => exact absurd hev hsome
  | some ev =>
    simp only [isAgentFor, NodeRemoval.names, hev, Option.any_some, ok_bind]
    by_cases hagent : eventId ev = kAgentEventId
    · by_cases hto : timer.mDispatcher = dispatcher
      · simp [hagent, hto]
      · simp [hagent, hto]
    · simp [hagent]

/-- A removal erases what it names, keeps the rest in its order and touches no event that is not
there, exactly where it is by id, or by an event that there is, or there is no listener's node. -/
theorem remove_exact_iff (call : NodeRemoval) :
    (∃ erased, t.remove eventId deliveryTarget call =
      .ok ({ t with mList := t.mList.filter fun timer => !call.names eventId deliveryTarget timer },
        erased)) ↔ call.Safe t.mList := by
  constructor
  · rintro ⟨erased,h⟩
    cases call with
    | id i dispatcher => trivial
    | event ev =>
      rcases eq_or_ne ev none with rfl | hne
      · -- NULL is what the nodes with a listener hold
        right
        intro timer htimer hnone
        have hremove : t.remove eventId deliveryTarget (.event none) =
            .ok ({ t with mList := t.mList.filter fun timer => !decide (timer.mEvent = none) },
              t.mList.filter fun timer => decide (timer.mEvent = none)) :=
          removeWhere_eq fun _ _ => rfl
        rw [hremove] at h
        obtain ⟨ht,-⟩ := Prod.mk.inj (Except.ok.inj h)
        have hlist := congrArg Timer.mList ht
        have hmem : timer ∈ t.mList.filter
            fun timer => !(NodeRemoval.event none).names eventId deliveryTarget timer := by
          simp [NodeRemoval.names, htimer]
        simp only at hlist
        rw [← hlist] at hmem
        simp [hnone] at hmem
      · exact .inl hne
    | agents receiver dispatcher =>
      intro timer htimer hnone
      obtain ⟨r,hr,-⟩ := bind_eq_ok.mp h
      -- the test was made of every node, also of one with a listener
      obtain ⟨b,hb⟩ := removeNodes_tests hr timer htimer
      rw [isAgentFor, hnone] at hb
      cases hb
  · intro hsafe
    cases call with
    | id i dispatcher => exact ⟨_,removeWhere_eq fun timer _ => hasEventId_eq i dispatcher timer⟩
    | event ev =>
      refine ⟨_,removeWhere_eq ?_⟩
      intro timer htimer
      rcases hsafe with hne | hall
      · simp [NodeRemoval.names, hne]
      · rcases eq_or_ne ev none with rfl | hne
        · simp [NodeRemoval.names, hall timer htimer]
        · simp [NodeRemoval.names, hne]
    | agents receiver dispatcher =>
      exact ⟨_,removeWhere_eq fun timer htimer => isAgentFor_eq receiver dispatcher (hsafe timer htimer)⟩

/-- The agents of a receiver are removed while a listener's timer is there. -/
theorem remove_agents_nullDeref : ¬∀ (T : ℕ) (periods : Set ℕ) (t : Timer), 1 ≤ T →
    Reachable T periods t → ∀ (eventId : ℕ → ℤ) (deliveryTarget : ℕ → ℕ) (call : NodeRemoval),
      ∃ erased, t.remove eventId deliveryTarget call =
        .ok ({ t with mList := t.mList.filter fun timer => !call.names eventId deliveryTarget timer },
          erased) := by
  intro h
  have hadd : (init 10).call (.addTimer 0 25 0) = .ok ⟨10,[periodicNode 0 3],0⟩ := by decide +kernel
  have hreachable : Reachable 10 ∅ ⟨10,[periodicNode 0 3],0⟩ :=
    reachable_call reachable_init (.inl rfl) hadd
  obtain ⟨erased,herased⟩ := h 10 ∅ _ (by decide) hreachable (fun _ => 0) (fun _ => 0) (.agents 1 (some 2))
  cases herased

end Removals

end Timer

end JhCommon
