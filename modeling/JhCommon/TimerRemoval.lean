import JhCommon.Timer

/-! The three removals of `Timer.cpp`. What a timer asks of an event object is a parameter, as the
objects live with the event queues. -/
namespace JhCommon

def kInvalidEventId : ℤ := -1
def kAgentEventId : ℤ := -5

namespace Timer

/-- The loops that erase what a test names, and keep what they pass. The erased nodes come second:
they held a reference to their event. -/
def removeNodes (test : TimerNode → Exec Bool) : List TimerNode → Exec (List TimerNode × List TimerNode)
  | [] => .ok ([],[])
  | timer :: rest => do
    if ← test timer then
      let (left,erased) ← removeNodes test rest
      .ok (left,timer :: erased)
    else
      let (left,erased) ← removeNodes test rest
      .ok (timer :: left,erased)

def removeWhere (t : Timer) (test : TimerNode → Exec Bool) : Exec (Timer × List TimerNode) := do
  let (left,erased) ← removeNodes test t.mList
  .ok ({ t with mList := left },erased)

/-- kInvalidEventId stands for any id. -/
def hasEventId (getEventId : ℕ → Exec ℤ) (eventId : ℤ) (dispatcher : Option ℕ) (timer : TimerNode) :
    Exec Bool :=
  match timer.mEvent with
  | none => .ok false
  | some event =>
    if timer.mDispatcher = dispatcher then do
      let id ← getEventId event
      .ok (decide (id = eventId ∨ eventId = kInvalidEventId))
    else .ok false

/-- `removeTimedEvent` by id. -/
def removeTimedEventId (t : Timer) (getEventId : ℕ → Exec ℤ) (eventId : ℤ) (dispatcher : Option ℕ) :
    Exec (Timer × List TimerNode) :=
  t.removeWhere (hasEventId getEventId eventId dispatcher)

/-- `removeTimedEvent` by event. -/
def removeTimedEvent (t : Timer) (ev : Option ℕ) : Exec (Timer × List TimerNode) :=
  t.removeWhere fun timer => .ok (decide (timer.mEvent = ev))

/-- The id is looked at without a test for NULL. -/
def isAgentFor (getEventId : ℕ → Exec ℤ) (getDeliveryTarget : ℕ → Exec ℕ) (receiver : ℕ)
    (dispatcher : Option ℕ) (timer : TimerNode) : Exec Bool :=
  match timer.mEvent with
  | none => .error .nullDeref
  | some event => do
    let id ← getEventId event
    if id = kAgentEventId ∧ timer.mDispatcher = dispatcher then do
      let target ← getDeliveryTarget event
      .ok (decide (target = receiver))
    else .ok false

def removeAgentsByReceiver (t : Timer) (getEventId : ℕ → Exec ℤ) (getDeliveryTarget : ℕ → Exec ℕ)
    (receiver : ℕ) (dispatcher : Option ℕ) : Exec (Timer × List TimerNode) :=
  t.removeWhere (isAgentFor getEventId getDeliveryTarget receiver dispatcher)

/-- Where the test answers, the loop splits the list. -/
theorem removeNodes_eq {test : TimerNode → Exec Bool} {f : TimerNode → Bool} {list : List TimerNode}
    (htest : ∀ timer ∈ list, test timer = .ok (f timer)) :
    removeNodes test list = .ok (list.filter fun timer => !f timer,list.filter f) := by
  induction list with
  | nil => rfl
  | cons timer rest ih =>
    have hrest := ih fun timer htimer => htest timer (List.mem_cons_of_mem _ htimer)
    rw [removeNodes, htest timer List.mem_cons_self, ok_bind, hrest]
    cases hf : f timer with
    | true =>
      rw [List.filter_cons_of_neg (by simp [hf]), List.filter_cons_of_pos hf]
      rfl
    | false =>
      rw [List.filter_cons_of_pos (by simp [hf]), List.filter_cons_of_neg (by simp [hf])]
      rfl

/-- Each node that is left was tested. -/
theorem removeNodes_ok {test : TimerNode → Exec Bool} {list left erased : List TimerNode}
    (h : removeNodes test list = .ok (left,erased)) :
    ∀ timer ∈ left, timer ∈ list ∧ test timer = .ok false := by
  induction list generalizing left erased with
  | nil =>
    obtain ⟨rfl,-⟩ := Prod.mk.inj (Except.ok.inj h)
    simp
  | cons timer rest ih =>
    obtain ⟨b,hb,hloop⟩ := bind_eq_ok.mp h
    cases b with
    | true =>
      obtain ⟨⟨left',erased'⟩,hrest,heq⟩ := bind_eq_ok.mp hloop
      obtain ⟨rfl,-⟩ := Prod.mk.inj (Except.ok.inj heq)
      intro x hx
      obtain ⟨hmem,hx⟩ := ih hrest x hx
      exact ⟨List.mem_cons_of_mem timer hmem,hx⟩
    | false =>
      obtain ⟨⟨left',erased'⟩,hrest,heq⟩ := bind_eq_ok.mp hloop
      obtain ⟨rfl,-⟩ := Prod.mk.inj (Except.ok.inj heq)
      intro x hx
      rcases List.mem_cons.mp hx with rfl | hx
      · exact ⟨List.mem_cons_self,hb⟩
      · obtain ⟨hmem,hx⟩ := ih hrest x hx
        exact ⟨List.mem_cons_of_mem timer hmem,hx⟩

end Timer

end JhCommon
