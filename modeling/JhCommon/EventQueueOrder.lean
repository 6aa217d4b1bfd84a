import JhCommon.EventQueue
import JhCommon.PriorityList
import JhCommon.Transition

/-! The event queue over whole runs: an arrangement of the arrivals by priority, in which every
entry holds one reference to its event. -/
namespace JhCommon
open PriorityList Transition

inductive QueueOp
  | sendEvent (ev : ℕ)
  | pollEvent
  | removeId (id : ℤ)
  | removeEvent (ev : ℕ)
  | flush

/-- The id of an event, which no call changes. -/
def idOf (events : ℕ → Option Event) (ev : ℕ) : ℤ := ((events ev).map Event.mEventId).getD 0

def priorityOf (events : ℕ → Option Event) (ev : ℕ) : ℤ := ((events ev).map Event.mPriority).getD 0

/-- The references to an event. There are none to one that is gone. -/
def refs (events : ℕ → Option Event) (ev : ℕ) : ℤ := ((events ev).map Event.mRefCount).getD 0

/-- What the queue is for: the arrivals that have not left, in the order they were sent. The events
are those of the start. -/
def Arrivals.step (start : ℕ → Option Event) (p : List ℕ) : QueueOp → Option ℕ × List ℕ
  | .sendEvent ev => (none,p ++ [ev])
  | .pollEvent =>
    match earliest (priorityOf start) p with
    | none => (none,p)
    | some ev => (some ev,p.erase ev)
  | .removeId id => (none,p.filter (fun ev => idOf start ev ≠ id))
  | .removeEvent ev => (none,p.filter (fun i => i ≠ ev))
  | .flush => (none,[])

namespace EventQueue

def step (q : EventQueue) : QueueOp → Exec (Option ℕ × EventQueue)
  | .sendEvent ev => do
    let q ← q.sendEvent ev
    .ok (none,q)
  | .pollEvent => .ok q.pollEvent
  | .removeId id => do
    let q ← q.removeId id
    .ok (none,q)
  | .removeEvent ev => do
    let q ← q.removeEvent ev
    .ok (none,q)
  | .flush => do
    let q ← q.flush
    .ok (none,q)

/-- Events are sent while they exist, with a priority that is at least normal. -/
def Sendable (q : EventQueue) : QueueOp → Prop
  | .sendEvent ev => ∃ o, q.events ev = some o ∧ priorityNormal ≤ o.mPriority
  | _ => True

/-- There is room in the count of an event for the reference of its entry. -/
def Countable (q : EventQueue) : QueueOp → Prop
  | .sendEvent ev => refs q.events ev < 2^31-1
  | _ => True

def Allowed (q : EventQueue) (op : QueueOp) : Prop := q.Sendable op ∧ q.Countable op

instance (q : EventQueue) (op : QueueOp) : Decidable (q.Sendable op) :=
  match op with
  | .sendEvent ev => inferInstanceAs (Decidable (∃ o, q.events ev = some o ∧ priorityNormal ≤ o.mPriority))
  | .pollEvent | .removeId _ | .removeEvent _ | .flush => inferInstanceAs (Decidable True)

instance (q : EventQueue) (op : QueueOp) : Decidable (q.Countable op) :=
  match op with
  | .sendEvent ev => inferInstanceAs (Decidable (refs q.events ev < 2^31-1))
  | .pollEvent | .removeId _ | .removeEvent _ | .flush => inferInstanceAs (Decidable True)

instance (q : EventQueue) (op : QueueOp) : Decidable (q.Allowed op) :=
  inferInstanceAs (Decidable (_ ∧ _))

/-- The objects that exist have the ids and priorities of the start. -/
def SameEvents (start events : ℕ → Option Event) : Prop :=
  ∀ ev o, events ev = some o → o.mEventId = idOf start ev ∧ o.mPriority = priorityOf start ev

/-- Every entry of the queue holds a reference, next to base others. -/
structure Owns (start : ℕ → Option Event) (base : ℕ → ℤ) (q : EventQueue) : Prop where
  same : SameEvents start q.events
  nonneg : ∀ ev, 0 ≤ base ev
  counted : ∀ ev, refs q.events ev = base ev+q.mQueue.count ev

section Calls
variable {start : ℕ → Option Event} {base : ℕ → ℤ} {q : EventQueue} {ev : ℕ} {o : Event}

theorem refs_of_some {events : ℕ → Option Event} (h : events ev = some o) :
    refs events ev = o.mRefCount := by
  simp [refs, h]

/-- The events of the queue exist. -/
theorem Owns.exists_event (h : q.Owns start base) (hev : ev ∈ q.mQueue) :
    ∃ o, q.events ev = some o ∧ o.mEventId = idOf start ev ∧ o.mPriority = priorityOf start ev := by
  cases ho : q.events ev with
  | some o => exact ⟨o,rfl,h.same ev o ho⟩
  | none =>
    have hcount := h.counted ev
    have hnonneg := h.nonneg ev
    have hpos := List.count_pos_iff.mpr hev
    simp only [refs, ho, Option.map_none, Option.getD_none] at hcount
    omega

theorem addRef_eq (hev : q.events ev = some o) (hfits : o.mRefCount < 2^31-1) : q.addRef ev =
    .ok { q with events := Function.update q.events ev (some { o with mRefCount := o.mRefCount+1 }) } := by
  rw [addRef, event, hev, ok_bind, if_pos hfits]

theorem release_eq (hev : q.events ev = some o) : q.release ev =
    .ok { q with events := Function.update q.events ev
                   (if o.mRefCount-1 = 0 then none else some { o with mRefCount := o.mRefCount-1 }) } := by
  rw [release, event, hev]
  rfl

theorem SameEvents.update {events : ℕ → Option Event} (h : SameEvents start events)
    {v : Option Event}
    (hv : ∀ o, v = some o → o.mEventId = idOf start ev ∧ o.mPriority = priorityOf start ev) :
    SameEvents start (Function.update events ev v) := by
  intro x ox hx
  rcases eq_or_ne x ev with rfl | hne
  · rw [Function.update_self] at hx
    exact hv ox hx
  · rw [Function.update_of_ne hne] at hx
    exact h x ox hx

theorem refs_update (events : ℕ → Option Event) (v : Option Event) (x : ℕ) :
    refs (Function.update events ev v) x =
      if x = ev then (v.map Event.mRefCount).getD 0 else refs events x := by
  rcases eq_or_ne x ev with rfl | hne
  · rw [refs, Function.update_self, if_pos rfl]
  · rw [refs, Function.update_of_ne hne, if_neg hne, refs]

theorem addRef_spec (h : q.Owns start base) (hev : q.events ev = some o)
    (hfits : o.mRefCount < 2^31-1) :
    ∃ q', q.addRef ev = .ok q' ∧ q'.mQueue = q.mQueue ∧ SameEvents start q'.events ∧
      (∀ x, refs q'.events x = refs q.events x+if x = ev then 1 else 0) ∧
      ∃ o', q'.event ev = .ok o' ∧ o'.mPriority = priorityOf start ev := by
  have hsame := h.same ev o hev
  refine ⟨_,addRef_eq hev hfits,rfl,h.same.update ?_,fun x => ?_,{ o with mRefCount := o.mRefCount+1 },?_,
    hsame.2⟩
  · rintro _ ⟨⟩
    exact hsame
  · rw [refs_update]
    split
    · rename_i hx
      rw [hx, refs_of_some hev]
      rfl
    · rw [add_zero]
  · simp only [event, Function.update_self]

/-- A release takes one reference away, and the object with the last one. -/
theorem release_spec (h : q.Owns start base) (hev : q.events ev = some o) :
    ∃ q', q.release ev = .ok q' ∧ q'.mQueue = q.mQueue ∧ SameEvents start q'.events ∧
      ∀ x, refs q'.events x = refs q.events x-if x = ev then 1 else 0 := by
  have hsame := h.same ev o hev
  refine ⟨_,release_eq hev,rfl,h.same.update ?_,fun x => ?_⟩
  · intro ox hx
    split at hx
    · simp at hx
    · rw [Option.some_inj] at hx
      rw [← hx]
      exact hsame
  · rw [refs_update]
    split
    · rename_i hx
      rw [hx, refs_of_some hev]
      split
      · rename_i hzero
        exact hzero.symm
      · rfl
    · rw [sub_zero]

/-- Releasing the reference of one entry, and taking the entry out. -/
theorem Owns.release (h : q.Owns start base) {l r : List ℕ} (hq : q.mQueue = l ++ ev :: r) :
    ∃ q', q.release ev = .ok q' ∧ q'.mQueue = q.mQueue ∧
      { q' with mQueue := l ++ r }.Owns start base := by
  obtain ⟨o,ho,-⟩ := h.exists_event (show ev ∈ q.mQueue by simp [hq])
  obtain ⟨q',hrelease,hqueue,hsame,hrefs⟩ := release_spec h ho
  refine ⟨q',hrelease,hqueue,hsame,h.nonneg,fun x => ?_⟩
  have hx := h.counted x
  rw [hq] at hx
  simp only [List.count_append, List.count_cons, beq_iff_eq] at hx ⊢
  rw [hrefs, hx]
  by_cases hxe : x = ev
  · rw [if_pos hxe, if_pos hxe.symm]
    push_cast
    omega
  · rw [if_neg hxe, if_neg (Ne.symm hxe)]
    push_cast
    omega

/-- Both removal loops: the entries that the test names go, with their references. The induction is
on the entries that the iterator has in front of it. -/
theorem removeFrom_spec (test : EventQueue → ℕ → Exec Bool) (f : ℕ → Bool)
    (htest : ∀ q : EventQueue, q.Owns start base → ∀ ev ∈ q.mQueue, test q ev = .ok (f ev))
    (rest : List ℕ) {passed : List ℕ} (h : q.Owns start base) (hq : q.mQueue = passed ++ rest)
    {fuel : ℕ} (hfuel : rest.length < fuel) :
    ∃ q', removeFrom test fuel q (passed.length+1) = .ok q' ∧
      q'.mQueue = passed ++ rest.filter (fun ev => !f ev) ∧ q'.Owns start base := by
  induction rest generalizing q passed fuel with
  | nil =>
    obtain ⟨fuel,rfl⟩ : ∃ n, fuel = n+1 := ⟨fuel-1,by simp only [List.length_nil] at hfuel; omega⟩
    refine ⟨q,?_,by simpa using hq,h⟩
    rw [removeFrom, if_pos (by simp [hq])]
  | cons ev rest ih =>
    obtain ⟨fuel,rfl⟩ : ∃ n, fuel = n+1 := ⟨fuel-1,by simp only [List.length_cons] at hfuel; omega⟩
    have hlen : rest.length < fuel := by simpa using hfuel
    have hget : q.mQueue[passed.length+1-1]? = some ev := by
      rw [hq, Nat.add_sub_cancel, List.getElem?_append_right le_rfl, Nat.sub_self]
      rfl
    rw [removeFrom, if_neg (by simp [hq]), hget]
    simp only [htest q h ev (by simp [hq]), ok_bind]
    -- an entry that goes leaves the iterator at its index, one that stays is passed
    cases hf : f ev with
    | true =>
      obtain ⟨q',hrelease,hqueue,h'⟩ := h.release hq
      have herase : q'.mQueue.eraseIdx passed.length = passed ++ rest := by
        rw [hqueue, hq, List.eraseIdx_append_of_length_le le_rfl, Nat.sub_self]
        rfl
      obtain ⟨q'',hrec,hqueue',h''⟩ := ih h' rfl hlen
      refine ⟨q'',?_,?_,h''⟩
      · simp only [if_true, hrelease, ok_bind, herase, Nat.add_sub_cancel]
        exact hrec
      · rw [hqueue', List.filter_cons_of_neg (by simp [hf])]
    | false =>
      obtain ⟨q',hrec,hqueue',h'⟩ := ih h
        (show q.mQueue = passed ++ [ev] ++ rest by simp [hq]) hlen
      refine ⟨q',?_,?_,h'⟩
      · rw [List.length_append, List.length_singleton] at hrec
        simp only [Bool.false_eq_true, if_false]
        exact hrec
      · rw [hqueue', List.filter_cons_of_pos (by simp [hf])]
        simp

theorem removeId_spec (h : q.Owns start base) (id : ℤ) :
    ∃ q', q.removeId id = .ok q' ∧ q'.mQueue = q.mQueue.filter (fun ev => idOf start ev ≠ id) ∧
      q'.Owns start base := by
  obtain ⟨q',hremove,hqueue,h'⟩ := removeFrom_spec
    (fun q ev => do
      let o ← q.event ev
      .ok (decide (o.mEventId = id)))
    (fun ev => decide (idOf start ev = id))
    (by
      intro q h ev hev
      obtain ⟨o,ho,hid,-⟩ := h.exists_event hev
      simp only [event, ho, ok_bind, hid])
    q.mQueue h (show q.mQueue = [] ++ q.mQueue from rfl) (Nat.lt_succ_self _)
  refine ⟨q',hremove,?_,h'⟩
  rw [hqueue]
  simp

theorem removeEvent_spec (h : q.Owns start base) (ev : ℕ) :
    ∃ q', q.removeEvent ev = .ok q' ∧ q'.mQueue = q.mQueue.filter (fun i => i ≠ ev) ∧
      q'.Owns start base := by
  obtain ⟨q',hremove,hqueue,h'⟩ := removeFrom_spec
    (fun _ i => .ok (decide (i = ev))) (fun i => decide (i = ev)) (fun _ _ _ _ => rfl)
    q.mQueue h (show q.mQueue = [] ++ q.mQueue from rfl) (Nat.lt_succ_self _)
  refine ⟨q',hremove,?_,h'⟩
  rw [hqueue]
  simp

theorem flushFrom_spec (rest : List ℕ) (h : q.Owns start base) (hq : q.mQueue = rest) :
    ∃ q', q.flushFrom rest = .ok q' ∧ q'.mQueue = [] ∧ q'.Owns start base := by
  induction rest generalizing q with
  | nil =>
    refine ⟨_,rfl,rfl,?_⟩
    rw [← hq]
    exact h
  | cons ev rest ih =>
    obtain ⟨o,ho,-⟩ := h.exists_event (show ev ∈ q.mQueue by simp [hq])
    obtain ⟨q',hrelease,-,h'⟩ := h.release (l := []) hq
    have hrelease' : { q with mQueue := rest }.release ev = .ok { q' with mQueue := rest } := by
      simp only [EventQueue.release, event, ho, ok_bind, Except.ok.injEq] at hrelease ⊢
      rw [← hrelease]
    rw [List.nil_append] at h'
    obtain ⟨q'',hrec,hnil,h''⟩ := ih h' rfl
    exact ⟨q'',by rw [flushFrom, hrelease', ok_bind, hrec],hnil,h''⟩

theorem insertEvent_eq {queue : List ℕ} {priority : ℤ}
    (hqueue : ∀ i ∈ queue, ∃ o, q.events i = some o ∧ o.mPriority = priorityOf start i)
    (hev : priorityOf start ev = priority) :
    q.insertEvent ev priority queue = .ok (insertByPriority (priorityOf start) ev queue) := by
  induction queue with
  | nil => rfl
  | cons i rest ih =>
    obtain ⟨o,ho,hprio⟩ := hqueue i List.mem_cons_self
    rw [insertEvent, event, ho, ok_bind, hprio, insertByPriority, hev]
    split
    · rfl
    · rw [ih (fun j hj => hqueue j (List.mem_cons_of_mem i hj)), ok_bind]

/-- `SendEvent` takes a reference and puts the event at the end, or before the first entry of a
lower priority. -/
theorem sendEvent_owns (h : q.Owns start base) (hev : q.events ev = some o)
    (hfits : o.mRefCount < 2^31-1) : ∃ q', q.sendEvent ev = .ok q' ∧ q'.Owns start base ∧
      q'.mQueue = if priorityOf start ev = priorityNormal then q.mQueue ++ [ev]
        else insertByPriority (priorityOf start) ev q.mQueue := by
  obtain ⟨q₁,hadd,hqueue,hsame,hrefs,o',hevent,hprio⟩ := addRef_spec h hev hfits
  -- where the event goes does not matter for the counts
  have howns : ∀ l : List ℕ, l.Perm (ev :: q.mQueue) → { q₁ with mQueue := l }.Owns start base := by
    intro l hl
    refine ⟨hsame,h.nonneg,fun x => ?_⟩
    simp only [hrefs, h.counted x, hl.count_eq, List.count_cons, beq_iff_eq, eq_comm (a := ev)]
    split <;> push_cast <;> omega
  simp only [sendEvent, hadd, ok_bind, hevent, hprio, hqueue]
  by_cases hzero : priorityOf start ev = priorityNormal
  · rw [if_pos hzero, if_pos hzero]
    exact ⟨_,rfl,howns _ (List.perm_append_singleton ev q.mQueue),rfl⟩
  · rw [if_neg hzero, if_neg hzero]
    have halive : ∀ i ∈ q.mQueue, ∃ o, q₁.events i = some o ∧ o.mPriority = priorityOf start i := by
      intro i hi
      have hpos : 0 < refs q₁.events i := by
        have hi' := List.count_pos_iff.mpr hi
        have := h.nonneg i
        rw [hrefs, h.counted]
        split <;> omega
      cases ho : q₁.events i with
      | none => simp [refs, ho] at hpos
      | some o => exact ⟨o,rfl,(hsame i o ho).2⟩
    rw [insertEvent_eq halive rfl, ok_bind]
    exact ⟨_,rfl,howns _ insertByPriority_perm,rfl⟩

theorem sendEvent_perm (h : q.Owns start base) (hev : q.events ev = some o)
    (hfits : o.mRefCount < 2^31-1) :
    ∃ q', q.sendEvent ev = .ok q' ∧ q'.Owns start base ∧ q'.mQueue.Perm (ev :: q.mQueue) := by
  obtain ⟨q',hsend,howns,hqueue⟩ := sendEvent_owns h hev hfits
  refine ⟨q',hsend,howns,?_⟩
  rw [hqueue]
  split
  · exact List.perm_append_singleton ev q.mQueue
  · exact insertByPriority_perm

/-- Where no priority is below normal, the end is the place of a normal event too. -/
theorem sendEvent_spec (h : q.Owns start base) (hev : q.events ev = some o)
    (hfits : o.mRefCount < 2^31-1)
    (hnormal : ∀ i ∈ q.mQueue, priorityNormal ≤ priorityOf start i) :
    ∃ q', q.sendEvent ev = .ok q' ∧
      q'.mQueue = insertByPriority (priorityOf start) ev q.mQueue ∧ q'.Owns start base := by
  obtain ⟨q',hsend,howns,hqueue⟩ := sendEvent_owns h hev hfits
  refine ⟨q',hsend,?_,howns⟩
  rw [hqueue]
  split
  · rename_i hzero
    exact (insertByPriority_of_le (fun i hi => by rw [hzero]; exact hnormal i hi)).symm
  · rfl

end Calls

end EventQueue

/-- A queue next to the arrivals it should hold, with the events handed to the poller so far. -/
structure QueueRun where
  queue : EventQueue
  arrivals : List ℕ
  handed : List ℕ

namespace QueueRun
open EventQueue

def Next (start : ℕ → Option Event) (w w' : QueueRun) : Prop :=
  ∃ op out, w.queue.Allowed op ∧ w.queue.step op = .ok (out,w'.queue) ∧
    w'.arrivals = (Arrivals.step start w.arrivals op).2 ∧ w'.handed = w.handed ++ out.toList

def Reachable (start : ℕ → Option Event) : QueueRun → Prop :=
  Transition.Reachable (· = ⟨⟨[],start⟩,[],[]⟩) (Next start)

/-- The queue arranges the arrivals, and its entries and the poller hold the references that were
taken. -/
structure Ordered (start : ℕ → Option Event) (w : QueueRun) : Prop where
  arranged : Arranges (priorityOf start) w.queue.mQueue w.arrivals
  owns : w.queue.Owns start (fun ev => refs start ev+w.handed.count ev)
  normal : ∀ ev ∈ w.queue.mQueue, priorityNormal ≤ priorityOf start ev

/-- What a call leaves in the queue. -/
def Leaves (start : ℕ → Option Event) (q : EventQueue) (q' : EventQueue) : QueueOp → Prop
  | .sendEvent ev => q'.mQueue = insertByPriority (priorityOf start) ev q.mQueue
  | .pollEvent => q'.mQueue = q.mQueue.tail
  | .removeId id => q'.mQueue = q.mQueue.filter (fun ev => idOf start ev ≠ id)
  | .removeEvent ev => q'.mQueue = q.mQueue.filter (fun i => i ≠ ev)
  | .flush => q'.mQueue = []

section Runs
variable {start : ℕ → Option Event} {w : QueueRun}

theorem Ordered.poll (h : w.Ordered start) :
    ∃ q', w.queue.pollEvent = ((Arrivals.step start w.arrivals .pollEvent).1,q') ∧
      q'.mQueue = w.queue.mQueue.tail ∧
      Ordered start ⟨q',(Arrivals.step start w.arrivals .pollEvent).2,
        w.handed ++ (Arrivals.step start w.arrivals .pollEvent).1.toList⟩ := by
  obtain ⟨harranged,howns,hnormal⟩ := h
  cases hq : w.queue.mQueue with
  | nil =>
    rw [hq] at harranged
    have hnone : Arrivals.step start w.arrivals .pollEvent = (none,w.arrivals) := by
      simp [Arrivals.step, harranged.eq_nil, earliest]
    refine ⟨w.queue,?_,hq,?_⟩
    · simp only [pollEvent, hq, hnone]
    · rw [hnone]
      simp only [Option.toList_none, List.append_nil]
      exact ⟨by rwa [hq],howns,hnormal⟩
  | cons ev rest =>
    rw [hq] at harranged
    have hsome : Arrivals.step start w.arrivals .pollEvent = (some ev,w.arrivals.erase ev) := by
      simp [Arrivals.step, harranged.earliest_eq]
    refine ⟨{ w.queue with mQueue := rest },?_,rfl,?_⟩
    · simp only [pollEvent, hq, hsome]
    · rw [hsome]
      refine ⟨harranged.tail,⟨howns.same,fun x => ?_,fun x => ?_⟩,fun x hx => hnormal x ?_⟩
      · have := howns.nonneg x
        simp only [List.count_append]
        push_cast
        omega
      · -- the reference of the entry is the poller's now
        have hx := howns.counted x
        rw [hq] at hx
        simp only [Option.toList_some, List.count_append, List.count_cons, List.count_nil,
          beq_iff_eq] at hx ⊢
        rw [hx]
        push_cast
        omega
      · rw [hq]
        exact List.mem_cons_of_mem ev hx

theorem Ordered.step (h : w.Ordered start) {op : QueueOp} (hop : w.queue.Allowed op) :
    ∃ q', w.queue.step op = .ok ((Arrivals.step start w.arrivals op).1,q') ∧
      Leaves start w.queue q' op ∧
      Ordered start ⟨q',(Arrivals.step start w.arrivals op).2,
        w.handed ++ (Arrivals.step start w.arrivals op).1.toList⟩ := by
  -- a removal leaves no priority that was not there
  have hsub : ∀ {f : ℕ → Bool} {q' : EventQueue}, q'.mQueue = w.queue.mQueue.filter f →
      ∀ ev ∈ q'.mQueue, priorityNormal ≤ priorityOf start ev := by
    intro f q' hq' ev hev
    rw [hq'] at hev
    exact h.normal ev (List.mem_filter.mp hev).1
  cases op with
  | sendEvent ev =>
    obtain ⟨⟨o,ho,hpriority⟩,hcount⟩ := hop
    have hfits : o.mRefCount < 2^31-1 := refs_of_some ho ▸ hcount
    obtain ⟨q',hsend,hqueue,howns⟩ := sendEvent_spec h.owns ho hfits h.normal
    refine ⟨q',by simp only [EventQueue.step, hsend, ok_bind, Arrivals.step],hqueue,?_,?_,?_⟩
    · rw [hqueue]
      exact h.arranged.insert ev
    · simpa [Arrivals.step] using howns
    · intro i hi
      rw [hqueue] at hi
      rcases mem_insertByPriority.mp hi with rfl | hi
      · rw [← (h.owns.same i o ho).2]
        exact hpriority
      · exact h.normal i hi
  | pollEvent =>
    obtain ⟨q',hpoll,hqueue,h'⟩ := h.poll
    exact ⟨q',by rw [EventQueue.step, hpoll],hqueue,h'⟩
  | removeId id =>
    obtain ⟨q',hremove,hqueue,howns⟩ := removeId_spec h.owns id
    refine ⟨q',by simp only [EventQueue.step, hremove, ok_bind, Arrivals.step],hqueue,?_,?_,hsub hqueue⟩
    · rw [hqueue]
      exact h.arranged.filter _
    · simpa [Arrivals.step] using howns
  | removeEvent ev =>
    obtain ⟨q',hremove,hqueue,howns⟩ := removeEvent_spec h.owns ev
    refine ⟨q',by simp only [EventQueue.step, hremove, ok_bind, Arrivals.step],hqueue,?_,?_,hsub hqueue⟩
    · rw [hqueue]
      exact h.arranged.filter _
    · simpa [Arrivals.step] using howns
  | flush =>
    obtain ⟨q',hflush,hqueue,howns⟩ := flushFrom_spec _ h.owns rfl
    refine ⟨q',by simp only [EventQueue.step, flush, hflush, ok_bind, Arrivals.step],hqueue,?_,?_,?_⟩
    · rw [hqueue]
      exact arranges_nil
    · simpa [Arrivals.step] using howns
    · simp [hqueue]

theorem Reachable.ordered (hstart : ∀ ev o, start ev = some o → 0 ≤ o.mRefCount)
    (hr : Reachable start w) : w.Ordered start := by
  refine Transition.Reachable.invariant (Ordered start) ?_ ?_ hr
  · rintro w rfl
    refine ⟨arranges_nil,⟨fun ev o ho => ?_,fun ev => ?_,fun ev => by simp⟩,by simp⟩
    · have ho' : start ev = some o := ho
      simp [idOf, priorityOf, ho']
    · cases ho : start ev with
      | none => simp [refs, ho]
      | some o => simpa [refs, ho] using hstart ev o ho
  · rintro w ⟨q',arrivals,handed⟩ h ⟨op,out,hop,hstep,rfl,rfl⟩
    obtain ⟨q'',hstep',-,h'⟩ := h.step hop
    rw [hstep, Except.ok.injEq, Prod.mk.injEq] at hstep'
    obtain ⟨rfl,rfl⟩ := hstep'
    exact h'

/-- In every reachable state the queue arranges the arrivals by priority, the references to each
event are those of the start, one for each entry and one for each time it was handed out, and
every call returns what the arrivals say. -/
theorem reachable_ordered (hstart : ∀ ev o, start ev = some o → 0 ≤ o.mRefCount)
    (hr : Reachable start w) :
    Arranges (priorityOf start) w.queue.mQueue w.arrivals ∧
      (∀ ev, refs w.queue.events ev =
        refs start ev+w.handed.count ev+w.queue.mQueue.count ev) ∧
      (earliest (priorityOf start) w.arrivals = none ↔ w.queue.mQueue = []) ∧
      ∀ op, w.queue.Allowed op → ∃ q',
        w.queue.step op = .ok ((Arrivals.step start w.arrivals op).1,q') ∧ Leaves start w.queue q' op := by
  have h := hr.ordered hstart
  refine ⟨h.arranged,h.owns.counted,h.arranged.earliest_eq_none_iff,fun op hop => ?_⟩
  obtain ⟨q',hstep,hleaves,-⟩ := h.step hop
  exact ⟨q',hstep,hleaves⟩

/-- A run of allowed calls goes from one reachable state to another. -/
theorem Reachable.run (hr : Reachable start w) {ops : List QueueOp} {outs : List (Option ℕ)}
    {q' : EventQueue} (hg : Guarded EventQueue.step Allowed w.queue ops)
    (hrun : Transition.run EventQueue.step w.queue ops = .ok (outs,q')) :
    Reachable start ⟨q',ops.foldl (fun p op => (Arrivals.step start p op).2) w.arrivals,
      w.handed ++ outs.flatMap Option.toList⟩ := by
  induction ops generalizing w outs with
  | nil =>
    obtain ⟨rfl,rfl⟩ := Prod.mk.inj (Except.ok.inj hrun)
    simpa using hr
  | cons op ops ih =>
    obtain ⟨out,q₁,outs₁,hstep,hrest,rfl⟩ := run_cons hrun
    have hnext : Next start w ⟨q₁,(Arrivals.step start w.arrivals op).2,w.handed ++ out.toList⟩ :=
      ⟨op,out,hg.1,hstep,rfl,rfl⟩
    have hr' := ih (hr.next hnext) (hg.2 out q₁ hstep) hrest
    simpa [List.append_assoc] using hr'

/-- Four events of three priorities: the two that share an id are adjacent, and both go. -/
def mixed (ev : ℕ) : Option Event :=
  [⟨5,0,0⟩,⟨6,2,1⟩,⟨6,2,0⟩,⟨7,1,0⟩][ev]?

/-- After mixed sends, a removal and a poll the queue still serves the earliest of the highest
priority, and the flush releases what is left. -/
theorem reachable_ordered_mixed : ∃ outs q, Transition.run EventQueue.step ⟨[],mixed⟩
      [.sendEvent 0,.sendEvent 1,.sendEvent 3,.sendEvent 2,.removeId 6,.sendEvent 3,.pollEvent] =
        .ok (outs,q) ∧ q.mQueue = [3,0] ∧ refs q.events 3 = 2 ∧ refs q.events 1 = 1 ∧
      (∃ q', q.step .pollEvent = .ok (some 3,q') ∧ q'.mQueue = [0]) ∧
      ∃ q', q.step .flush = .ok (none,q') ∧ q'.mQueue = [] := by
  have hstart : ∀ ev o, mixed ev = some o → 0 ≤ o.mRefCount := by
    intro ev o ho
    have hall : ∀ o ∈ [(⟨5,0,0⟩ : Event),⟨6,2,1⟩,⟨6,2,0⟩,⟨7,1,0⟩], 0 ≤ o.mRefCount := by simp
    exact hall o (List.mem_of_getElem? ho)
  obtain ⟨⟨outs,q⟩,hrun,hfacts⟩ : ∃ r, Transition.run EventQueue.step ⟨[],mixed⟩
      [.sendEvent 0,.sendEvent 1,.sendEvent 3,.sendEvent 2,.removeId 6,.sendEvent 3,.pollEvent] =
        .ok r ∧ r.2.mQueue = [3,0] ∧ r.1.flatMap Option.toList = [3] := by
    refine ⟨_,rfl,?_,?_⟩ <;> decide +kernel
  obtain ⟨hqueue,hhanded⟩ := hfacts
  have hr : Reachable mixed _ := Reachable.run (.start rfl) (guarded_of_meets (by decide +kernel)) hrun
  obtain ⟨-,hrefs,-,hcalls⟩ := reachable_ordered hstart hr
  simp only [List.nil_append, hhanded] at hrefs
  refine ⟨outs,q,hrun,hqueue,?_,?_,?_,?_⟩
  · rw [hrefs, hqueue]
    decide
  · rw [hrefs, hqueue]
    decide
  · obtain ⟨q',hstep,hleaves⟩ := hcalls .pollEvent ⟨trivial,trivial⟩
    exact ⟨q',hstep,hleaves.trans (by rw [hqueue]; rfl)⟩
  · obtain ⟨q',hstep,hleaves⟩ := hcalls .flush ⟨trivial,trivial⟩
    exact ⟨q',hstep,hleaves⟩

/-- An event that nobody holds can be in the queue as often as its count goes. -/
theorem Reachable.sends {ev : ℕ} {o : Event} (hstart : ∀ ev o, start ev = some o → 0 ≤ o.mRefCount)
    (ho : start ev = some o) (hnone : o.mRefCount = 0) (hpriority : priorityNormal ≤ o.mPriority)
    {n : ℕ} (hn : n < 2^31) : ∃ w, Reachable start w ∧ w.queue.Sendable (.sendEvent ev) ∧
      refs w.queue.events ev = n := by
  induction n with
  | zero =>
    refine ⟨⟨⟨[],start⟩,[],[]⟩,.start rfl,⟨o,ho,hpriority⟩,?_⟩
    rw [refs_of_some ho, hnone]
    rfl
  | succ n ih =>
    obtain ⟨w,hr,hsend,hrefs⟩ := ih (by omega)
    have hcount : refs w.queue.events ev < 2^31-1 := by omega
    have h := hr.ordered hstart
    obtain ⟨q',hstep,hleaves,h'⟩ := h.step ⟨hsend,hcount⟩
    refine ⟨⟨q',w.arrivals ++ [ev],w.handed ++ []⟩,
      hr.next ⟨.sendEvent ev,none,⟨hsend,hcount⟩,hstep,rfl,rfl⟩,?_,?_⟩
    · have hqueued : ev ∈ q'.mQueue := by
        rw [hleaves]
        exact mem_insertByPriority.mpr (.inl rfl)
      obtain ⟨o',ho',-,hsame⟩ := h'.owns.exists_event hqueued
      obtain ⟨o₁,ho₁,hpriority₁⟩ := hsend
      refine ⟨o',ho',?_⟩
      rw [hsame, ← (h.owns.same ev o₁ ho₁).2]
      exact hpriority₁
    · have hnow := h.owns.counted ev
      have hthen := h'.owns.counted ev
      have hperm : q'.mQueue.count ev = w.queue.mQueue.count ev+1 := by
        rw [hleaves, insertByPriority_perm.count_eq, List.count_cons_self]
      simp only [Arrivals.step, Option.toList_none, List.append_nil] at hthen
      rw [hthen, hperm]
      push_cast
      omega

/-- One event is sent 2³¹ times: the last call has no room for its reference. -/
theorem sends_not_counted : ∃ w, Reachable (fun _ => some ⟨1,1,0⟩) w ∧
    w.queue.Sendable (.sendEvent 7) ∧ ¬∃ out q', w.queue.step (.sendEvent 7) = .ok (out,q') := by
  have hstart : ∀ ev o, (fun _ : ℕ => some (Event.mk 1 1 0)) ev = some o → 0 ≤ o.mRefCount := by
    rintro _ _ ⟨⟩
    decide
  have ho : (fun _ : ℕ => some (Event.mk 1 1 0)) 7 = some ⟨1,1,0⟩ := rfl
  obtain ⟨w,hr,hsend,hrefs⟩ := Reachable.sends hstart ho rfl (by decide)
    (show 2^31-1 < 2^31 by norm_num)
  refine ⟨w,hr,hsend,?_⟩
  rintro ⟨out,q',hstep⟩
  obtain ⟨o,ho,-⟩ := hsend
  obtain ⟨q₁,hcall,-⟩ := bind_eq_ok.mp hstep
  obtain ⟨q₂,hadd,-⟩ := bind_eq_ok.mp hcall
  rw [refs_of_some ho] at hrefs
  rw [addRef, event, ho, ok_bind, if_neg (by omega)] at hadd
  cases hadd

end Runs

end QueueRun

end JhCommon
