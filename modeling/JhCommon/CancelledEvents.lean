import JhCommon.EventQueueContents
import JhCommon.TimedEvents
import JhCommon.Transition

/-! When a removal returns, what it names should come no more. It goes through the timers that the
manager has in its list, and then through the queue. An event that is being dispatched still comes to the
listeners behind the one that removes it. -/
namespace JhCommon

namespace Timer

theorem mem_insertNode {node newTimer : TimerNode} {list : List TimerNode} :
    node ∈ insertNode newTimer list ↔ node = newTimer ∨ node ∈ list := by
  induction list with
  | nil => simp [insertNode]
  | cons timer rest ih =>
    rw [insertNode]
    split
    · simp
    · simp only [List.mem_cons, ih]
      tauto

theorem addListener_mem {t t' : Timer} {listener : Option ℕ} {msecs privateData repeatMS : ℕ}
    (h : t.addListener listener msecs privateData repeatMS = .ok t') {node : TimerNode}
    (hnode : node ∈ t'.mList) : node ∈ t.mList ∨ node.mEvent = none := by
  unfold addListener at h
  split at h
  · cases h
  · obtain ⟨ticks,-,ht'⟩ := bind_eq_ok.mp h
    rw [← Except.ok.inj ht'] at hnode
    rcases mem_insertNode.mp hnode with rfl | hmem
    · exact .inr rfl
    · exact .inl hmem

theorem addEvent_mem {t t' : Timer} {event dispatcher : Option ℕ} {msecs repeatMS : ℕ}
    (h : t.addEvent event dispatcher msecs repeatMS = .ok t') {node : TimerNode}
    (hnode : node ∈ t'.mList) :
    node ∈ t.mList ∨ node.mEvent = event ∧ node.mDispatcher = dispatcher := by
  obtain ⟨ticks,-,ht'⟩ := bind_eq_ok.mp h
  rw [← Except.ok.inj ht'] at hnode
  rcases mem_insertNode.mp hnode with rfl | hmem
  · exact .inr ⟨rfl,rfl⟩
  · exact .inl hmem

theorem rearm_mem {t t' : Timer} {timer node : TimerNode} (h : t.rearm timer = .ok t')
    (hnode : node ∈ t'.mList) : node ∈ t.mList ∨
      timer.mRepeatMS ≠ 0 ∧ node.mEvent = timer.mEvent ∧ node.mDispatcher = timer.mDispatcher := by
  unfold rearm at h
  split at h
  · rw [← Except.ok.inj h] at hnode
    exact .inl hnode
  · rename_i hrepeat
    split at h
    · cases h
    · rw [← Except.ok.inj h] at hnode
      rcases mem_insertNode.mp hnode with rfl | hmem
      · exact .inr ⟨hrepeat,rfl,rfl⟩
      · exact .inl hmem

end Timer

/-- A node that the clock thread has in hand, and that can still send its event. -/
def ClockPhase.hand : ClockPhase → List TimerNode
  | .delivering node => [node]
  | .rearming node => if node.mRepeatMS = 0 then [] else [node]
  | _ => []

def LiveTimer.nodes (live : LiveTimer) : List TimerNode := live.clock.hand ++ live.timer.mList

/-- Where the event exists, it is one that a removal is for. -/
def Removal.Names (call : Removal) (q : EventQueue) (ev : ℕ) : Prop :=
  match call with
  | .id eventId => ∀ o, q.events ev = some o → o.mEventId = eventId
  | .event ev' => ev = ev'
  | .all => True

namespace TimedDispatcher
open Transition

variable {s s' : TimedDispatcher} {q : EventQueue} {call : Removal} {ev t : ℕ}

theorem names_of_names (h : call.names q ev = true) : call.Names q ev := by
  cases call with
  | id eventId =>
    intro o ho
    have hany : (q.events ev).any (fun o => o.mEventId = eventId) = true := h
    rw [ho] at hany
    exact of_decide_eq_true hany
  | event ev' =>
    have heq : ev = ev' := by simpa only [Removal.names, decide_eq_true_eq] using h
    exact heq
  | all => trivial

theorem names_kept {q' : EventQueue} (h : call.Names q ev) (hkept : EventQueue.IdsKept q q') :
    call.Names q' ev := by
  cases call with
  | id eventId =>
    intro o' ho'
    obtain ⟨o,ho,hid⟩ := hkept ev o' ho'
    rw [← hid]
    exact h o ho
  | event ev' => exact h
  | all => trivial

/-- A node that sends this event to the dispatcher. -/
def Sends (s : TimedDispatcher) (ev : ℕ) (node : TimerNode) : Prop :=
  node.mDispatcher = some s.address ∧ node.mEvent = some ev

/-- A removal is under way that names the event, with these timers still to come. -/
def Under (s : TimedDispatcher) (ev : ℕ) (rest : List ℕ) : Prop :=
  ∃ call, s.removing = some (call,rest) ∧ call.Names s.queue ev

/-- The loop over the listeners is at an entry of their list. Once the event in hand was named by a
removal, no listener behind the entry is for it. -/
def Looks (s : TimedDispatcher) : Prop :=
  match s.lookup with
  | .outside | .inAgent => ∃ regs, s.mDispatcher.Lists regs
  | .atNode event_id i => ∃ ys zs, s.mDispatcher.Lists (ys ++ zs) ∧ i = s.mDispatcher.iterAt zs ∧
      (s.struck = true → ∀ r ∈ zs, ¬r.val.isFor event_id)
  | .inListener event_id i => ∃ ys r zs, s.mDispatcher.Lists (ys ++ r :: zs) ∧ i = some r.cell ∧
      (s.struck = true → ∀ q ∈ zs, ¬q.val.isFor event_id)

/-- A cancelled event is left only where the removal under way still comes. -/
structure Clean (s : TimedDispatcher) : Prop where
  delivered : ∀ d ∈ s.delivered, d.2 = false
  hand : ∀ ev, s.dispatcher.thread = .handling ev → s.removing = none → s.struck = false
  looks : s.Looks
  timers : ∀ t live ev, s.timers t = some live → s.cancelled ev = true →
    (∃ node ∈ live.nodes, s.Sends ev node) → ∃ rest, s.Under ev rest ∧ t ∈ rest
  queue : ∀ ev ∈ s.queue.mQueue, s.cancelled ev = true → ∃ rest, s.Under ev rest

theorem init_clean (address : ℕ) : (init address).Clean where
  delivered := by simp [init]
  hand := by simp [init]
  looks := ⟨[],EventDispatcherHelper.init_lists⟩
  timers := by simp [init]
  queue := by simp [init, TimedDispatcher.queue, EventDispatcher.init]

/-- The queue changes: what comes into it is not cancelled, or the removal still comes to it. -/
theorem Clean.setQueue (hs : s.Clean) (hkept : EventQueue.IdsKept s.queue q)
    (hmem : ∀ ev ∈ q.mQueue, s.cancelled ev = true → ev ∈ s.queue.mQueue ∨ ∃ rest, s.Under ev rest) :
    (s.setQueue q).Clean where
  delivered := hs.delivered
  hand := hs.hand
  looks := hs.looks
  timers := by
    intro t live ev hlive hcancelled hnode
    obtain ⟨rest,⟨call,hcall,hnames⟩,hrest⟩ := hs.timers t live ev hlive hcancelled hnode
    exact ⟨rest,⟨call,hcall,names_kept hnames hkept⟩,hrest⟩
  queue := by
    intro ev hev hcancelled
    have hunder : ∃ rest, s.Under ev rest := by
      rcases hmem ev hev hcancelled with hold | hunder
      · exact hs.queue ev hold hcancelled
      · exact hunder
    obtain ⟨rest,call,hcall,hnames⟩ := hunder
    exact ⟨rest,call,hcall,names_kept hnames hkept⟩

/-- A timer changes: what it can send it could send before, or is not cancelled. -/
theorem Clean.setTimer (hs : s.Clean) {live' : LiveTimer}
    (hnodes : ∀ node ∈ live'.nodes, ∀ ev, s.Sends ev node → s.cancelled ev = true →
      ∃ live, s.timers t = some live ∧ ∃ node ∈ live.nodes, s.Sends ev node) :
    (s.setTimer t live').Clean where
  delivered := hs.delivered
  hand := hs.hand
  looks := hs.looks
  queue := hs.queue
  timers := by
    rintro t' live ev hlive hcancelled ⟨node,hnode,hsends⟩
    have hget : Function.update s.timers t (some live') t' = some live := hlive
    by_cases ht : t' = t
    · subst ht
      rw [Function.update_self] at hget
      obtain rfl := Option.some.inj hget
      obtain ⟨live₀,hlive₀,hnode₀⟩ := hnodes node hnode ev hsends hcancelled
      exact hs.timers t' live₀ ev hlive₀ hcancelled hnode₀
    · rw [Function.update_of_ne ht] at hget
      exact hs.timers t' live ev hget hcancelled ⟨node,hnode,hsends⟩

theorem cancelled_sent {x : ℕ} (h : (s.sent ev).cancelled x = true) :
    x ≠ ev ∧ s.cancelled x = true := by
  have hupdate : Function.update s.cancelled ev false x = true := h
  by_cases hx : x = ev
  · rw [hx, Function.update_self] at hupdate
    cases hupdate
  · rw [Function.update_of_ne hx] at hupdate
    exact ⟨hx,hupdate⟩

theorem Clean.sent (hs : s.Clean) (ev : ℕ) : (s.sent ev).Clean where
  delivered := hs.delivered
  hand := hs.hand
  looks := hs.looks
  timers := fun t live x hlive hx => hs.timers t live x hlive (cancelled_sent hx).2
  queue := fun x hmem hx => hs.queue x hmem (cancelled_sent hx).2

theorem releaseNodes_ok {q q' : EventQueue} {nodes : List TimerNode}
    (h : releaseNodes q nodes = .ok q') : q'.mQueue = q.mQueue ∧ EventQueue.IdsKept q q' := by
  induction nodes generalizing q with
  | nil =>
    obtain rfl := Except.ok.inj h
    exact ⟨rfl,.refl q⟩
  | cons node rest ih =>
    rw [releaseNodes] at h
    cases hev : node.mEvent with
    | none =>
      rw [hev] at h
      exact ih h
    | some ev =>
      rw [hev] at h
      obtain ⟨q₁,hrelease,hrest⟩ := bind_eq_ok.mp h
      obtain ⟨hqueue₁,hkept₁⟩ := EventQueue.release_ok hrelease
      obtain ⟨hqueue,hkept⟩ := ih hrest
      exact ⟨hqueue.trans hqueue₁,hkept₁.trans hkept⟩

/-- References come and go: the queue stays as it is. -/
theorem Clean.setObjects (hs : s.Clean) (hqueue : q.mQueue = s.queue.mQueue)
    (hkept : EventQueue.IdsKept s.queue q) : (s.setQueue q).Clean := by
  apply hs.setQueue hkept
  intro ev hev _
  rw [hqueue] at hev
  exact .inl hev

/-- The event that is sent is no longer cancelled. -/
theorem Clean.setQueue_sent (hs : s.Clean) (hkept : EventQueue.IdsKept s.queue q)
    (hmem : ∀ x ∈ q.mQueue, x = ev ∨ x ∈ s.queue.mQueue) : ((s.setQueue q).sent ev).Clean := by
  have hsent : ((s.sent ev).setQueue q).Clean := by
    apply (hs.sent ev).setQueue hkept
    intro x hx hcancelled
    rcases hmem x hx with rfl | hold
    · exact absurd rfl (cancelled_sent hcancelled).1
    · exact .inl hold
  exact hsent

theorem Clean.sendEvent (hs : s.Clean) (h : s.sendEvent ev = .ok s') : s'.Clean := by
  obtain ⟨q,hsend,hs'⟩ := bind_eq_ok.mp h
  obtain ⟨hperm,hkept⟩ := EventQueue.sendEvent_ok hsend
  rw [← Except.ok.inj hs']
  apply hs.setQueue_sent hkept
  intro x hx
  exact List.mem_cons.mp (hperm.mem_iff.mp hx)

/-- A new object takes an address that nothing is at, so that no removal is for it. -/
theorem Clean.create (hs : s.Clean) {o : Event} : (s.create ev o).Clean := by
  unfold TimedDispatcher.create
  split
  · rename_i hfree
    have hnew : s.dispatcher.create ev o = { s.dispatcher with
        mQueue := { s.queue with events := Function.update s.queue.events ev (some o) } } :=
      if_pos hfree
    rw [hnew]
    have hsent := hs.sent ev
    -- the objects at other addresses are the ones that were there
    have hother : ∀ x rest, x ≠ ev → s.Under x rest →
        ∃ call, s.removing = some (call,rest) ∧
          call.Names { s.queue with events := Function.update s.queue.events ev (some o) } x := by
      intro x rest hx hunder
      obtain ⟨call,hcall,hnames⟩ := hunder
      refine ⟨call,hcall,?_⟩
      cases call with
      | id eventId =>
        intro o' ho'
        have hget : Function.update s.queue.events ev (some o) x = some o' := ho'
        rw [Function.update_of_ne hx] at hget
        exact hnames o' hget
      | event ev' => exact hnames
      | all => trivial
    constructor
    · exact hsent.delivered
    · exact hsent.hand
    · exact hsent.looks
    · intro t live x hlive hx hnode
      obtain ⟨hne,hcancelled⟩ := cancelled_sent hx
      obtain ⟨rest,hunder,hrest⟩ := hs.timers t live x hlive hcancelled hnode
      exact ⟨rest,hother x rest hne hunder,hrest⟩
    · intro x hmem hx
      obtain ⟨hne,hcancelled⟩ := cancelled_sent hx
      obtain ⟨rest,hunder⟩ := hs.queue x hmem hcancelled
      exact ⟨rest,hother x rest hne hunder⟩
  · exact hs

theorem Clean.construct (hs : s.Clean) {tickTimeMs : ℤ} : (s.construct t tickTimeMs).Clean := by
  unfold TimedDispatcher.construct
  split
  · apply hs.setTimer
    intro node hnode
    cases hnode
  · exact hs

theorem Clean.getTimer (hs : s.Clean) {tickTimeMs : ℤ} : (s.getTimer t tickTimeMs).Clean := by
  unfold TimedDispatcher.getTimer
  split
  · split
    · exact hs
    · exact hs.construct
  · exact hs

/-- The list of the manager is gone through from its state at the call on. -/
theorem Clean.setTimers (hs : s.Clean) (list : List ℕ) :
    ({ s with mTimers := list } : TimedDispatcher).Clean :=
  ⟨hs.delivered,hs.hand,hs.looks,hs.timers,hs.queue⟩

theorem Clean.addTimer (hs : s.Clean) : (s.addTimer t).Clean := by
  unfold TimedDispatcher.addTimer
  split
  · exact hs.setTimers _
  · exact hs

theorem Clean.unlistTimer (hs : s.Clean) : (s.removeTimer t).Clean := by
  unfold TimedDispatcher.removeTimer
  split
  · exact hs.setTimers _
  · exact hs

theorem Clean.addEvent (hs : s.Clean) {dispatcher msecs repeatMS : ℕ}
    (h : s.addEvent t ev dispatcher msecs repeatMS = .ok s') : s'.Clean := by
  unfold TimedDispatcher.addEvent at h
  split at h
  · rw [← Except.ok.inj h]
    exact hs
  · rename_i live hlive
    split at h
    · obtain ⟨q,hadd,hrest⟩ := bind_eq_ok.mp h
      obtain ⟨timer,htimer,hs'⟩ := bind_eq_ok.mp hrest
      obtain ⟨hqueue,hkept⟩ := EventQueue.addRef_ok hadd
      have hset := hs.setObjects hqueue hkept
      rw [← Except.ok.inj hs']
      -- what a node of the timer sends is the event, or was in the timer before
      have hold : ∀ node ∈ LiveTimer.nodes { live with timer := timer }, ∀ x, s.Sends x node →
          dispatcher = s.address ∧ x = ev ∨ ∃ node ∈ live.nodes, s.Sends x node := by
        intro node hnode x hsends
        rcases List.mem_append.mp hnode with hhand | hlist
        · exact .inr ⟨node,List.mem_append_left _ hhand,hsends⟩
        · rcases Timer.addEvent_mem htimer hlist with hmem | ⟨hevent,hdispatcher⟩
          · exact .inr ⟨node,List.mem_append_right _ hmem,hsends⟩
          · obtain ⟨hto,hx⟩ := hsends
            rw [hdispatcher] at hto
            rw [hevent] at hx
            exact .inl ⟨Option.some.inj hto,(Option.some.inj hx).symm⟩
      split
      · have hsent : (((s.setQueue q).sent ev).setTimer t { live with timer := timer }).Clean := by
          apply (hset.sent ev).setTimer
          intro node hnode x hsends hx
          rcases hold node hnode x hsends with ⟨-,rfl⟩ | hnode
          · exact absurd rfl (cancelled_sent hx).1
          · exact ⟨live,hlive,hnode⟩
        exact hsent
      · rename_i hother
        apply hset.setTimer
        intro node hnode x hsends _
        rcases hold node hnode x hsends with ⟨hto,-⟩ | hnode
        · exact absurd hto hother
        · exact ⟨live,hlive,hnode⟩
    · rw [← Except.ok.inj h]
      exact hs

theorem Clean.addListener (hs : s.Clean) {listener msecs privateData repeatMS : ℕ}
    (h : s.addListener t listener msecs privateData repeatMS = .ok s') : s'.Clean := by
  unfold TimedDispatcher.addListener at h
  split at h
  · rw [← Except.ok.inj h]
    exact hs
  · rename_i live hlive
    split at h
    · obtain ⟨timer,htimer,hs'⟩ := bind_eq_ok.mp h
      rw [← Except.ok.inj hs']
      apply hs.setTimer
      intro node hnode x hsends _
      refine ⟨live,hlive,node,?_,hsends⟩
      rcases List.mem_append.mp hnode with hhand | hlist
      · exact List.mem_append_left _ hhand
      · rcases Timer.addListener_mem htimer hlist with hmem | hnone
        · exact List.mem_append_right _ hmem
        · have hsome := hsends.2
          rw [hnone] at hsome
          cases hsome
    · rw [← Except.ok.inj h]
      exact hs

theorem Clean.tick (hs : s.Clean) : (s.tick t).Clean := by
  unfold TimedDispatcher.tick
  split
  · rename_i timer hlive
    apply hs.setTimer
    intro node hnode x hsends _
    exact ⟨⟨timer,.waiting⟩,hlive,node,hnode,hsends⟩
  · exact hs

/-- The event goes from the hand of the clock thread to the queue. -/
theorem Clean.deliver (hs : s.Clean) {live : LiveTimer} (hlive : s.timers t = some live)
    {node : TimerNode} (hnode : node ∈ live.nodes) (h : s.deliver node = .ok s') :
    s'.Clean ∧ ∃ q, s' = s.setQueue q := by
  obtain ⟨delivery,hdelivery,hrest⟩ := bind_eq_ok.mp h
  cases delivery with
  | onTimeout listener privateData =>
    obtain rfl := Except.ok.inj hrest
    exact ⟨hs,s.queue,rfl⟩
  | sendEvent dispatcher ev =>
    have hnodeSends : node.mDispatcher = some dispatcher ∧ node.mEvent = some ev := by
      unfold Timer.deliver at hdelivery
      split at hdelivery
      · split at hdelivery <;> cases hdelivery
      · rename_i event hevent
        split at hdelivery
        · cases hdelivery
        · rename_i dispatcher' hdispatcher
          obtain ⟨rfl,rfl⟩ := Delivery.sendEvent.inj (Except.ok.inj hdelivery)
          exact ⟨hdispatcher,hevent⟩
    -- only what goes to this dispatcher comes into its queue
    by_cases hto : dispatcher = s.address
    · have hqueue : (do
          let q ← s.queue.sendEvent ev
          .ok (s.setQueue q) : Exec TimedDispatcher) = .ok s' := by
        simpa only [if_pos hto] using hrest
      obtain ⟨q,hsend,hs'⟩ := bind_eq_ok.mp hqueue
      obtain ⟨hperm,hkept⟩ := EventQueue.sendEvent_ok hsend
      rw [← Except.ok.inj hs']
      refine ⟨hs.setQueue hkept ?_,q,rfl⟩
      intro x hx hcancelled
      rcases List.mem_cons.mp (hperm.mem_iff.mp hx) with rfl | hold
      · rw [hto] at hnodeSends
        obtain ⟨rest,hunder,-⟩ := hs.timers t live x hlive hcancelled ⟨node,hnode,hnodeSends⟩
        exact .inr ⟨rest,hunder⟩
      · exact .inl hold
    · have hs' : (.ok s : Exec TimedDispatcher) = .ok s' := by simpa only [if_neg hto] using hrest
      obtain rfl := Except.ok.inj hs'
      exact ⟨hs,s.queue,rfl⟩

theorem Clean.clock (hs : s.Clean) (h : s.clock t = .ok s') : s'.Clean := by
  unfold TimedDispatcher.clock at h
  split at h
  · rw [← Except.ok.inj h]
    exact hs
  · rename_i timer hlive
    rw [← Except.ok.inj h]
    exact hs.setTimer fun node hnode x hsends _ => ⟨_,hlive,node,hnode,hsends⟩
  · rename_i timer hlive
    split at h
    · rw [← Except.ok.inj h]
      exact hs.setTimer fun node hnode x hsends _ => ⟨_,hlive,node,hnode,hsends⟩
    · rename_i node rest hlist
      split at h
      · rw [← Except.ok.inj h]
        exact hs.setTimer fun node hnode x hsends _ => ⟨_,hlive,node,hnode,hsends⟩
      · rw [← Except.ok.inj h]
        apply hs.setTimer
        intro node' hnode x hsends _
        refine ⟨_,hlive,node',?_,hsends⟩
        have hmem : node' ∈ timer.mList := by
          rw [hlist]
          exact hnode
        exact hmem
  · -- the node in hand delivers: what it sends to this dispatcher is in the queue then
    rename_i timer node hlive
    obtain ⟨s₁,hdeliver,hs'⟩ := bind_eq_ok.mp h
    obtain ⟨hclean,q,rfl⟩ := hs.deliver hlive (List.mem_append_left _ List.mem_cons_self) hdeliver
    rw [← Except.ok.inj hs']
    apply hclean.setTimer
    intro node' hnode x hsends _
    refine ⟨_,hlive,node',?_,hsends⟩
    rcases List.mem_append.mp hnode with hhand | hlist
    · -- only a periodic node is kept in hand
      rw [ClockPhase.hand] at hhand
      split at hhand
      · cases hhand
      · exact List.mem_append_left _ hhand
    · exact List.mem_append_right _ hlist
  · -- a periodic node that is put back sends what it has sent before
    rename_i timer node hlive
    obtain ⟨timer',hrearm,hrest⟩ := bind_eq_ok.mp h
    obtain ⟨q,hrelease,hs'⟩ := bind_eq_ok.mp hrest
    obtain ⟨hqueue,hkept⟩ := releaseNodes_ok hrelease
    rw [← Except.ok.inj hs']
    apply (hs.setObjects hqueue hkept).setTimer
    intro node' hnode x hsends _
    have hlist : node' ∈ timer'.mList := hnode
    rcases Timer.rearm_mem hrearm hlist with hmem | ⟨hrepeat,hevent,hdispatcher⟩
    · exact ⟨_,hlive,node',List.mem_append_right _ hmem,hsends⟩
    · have hhand : node ∈ (ClockPhase.rearming node).hand := by
        rw [ClockPhase.hand, if_neg hrepeat]
        exact List.mem_cons_self
      refine ⟨_,hlive,node,List.mem_append_left _ hhand,?_,?_⟩
      · rw [← hdispatcher]
        exact hsends.1
      · rw [← hevent]
        exact hsends.2

/-- A removal leaves no node in a timer that sends what it names. -/
theorem removeNodes_names {timer timer' : Timer} {erased : List TimerNode}
    (h : call.removeNodes s.queue s.address timer = .ok (timer',erased)) {node : TimerNode}
    (hnode : node ∈ timer'.mList) :
    node ∈ timer.mList ∧ ∀ ev, s.Sends ev node → ¬call.Names s.queue ev := by
  have hid : ∀ eventId, timer.removeTimedEventId s.queue.getEventId eventId (some s.address) =
      .ok (timer',erased) → node ∈ timer.mList ∧ ∀ ev, s.Sends ev node →
        ∃ o, s.queue.events ev = some o ∧ o.mEventId ≠ eventId ∧ eventId ≠ kInvalidEventId := by
    intro eventId hremove
    obtain ⟨⟨left,gone⟩,hloop,heq⟩ := bind_eq_ok.mp hremove
    obtain ⟨htimer,-⟩ := Prod.mk.inj (Except.ok.inj heq)
    rw [← htimer] at hnode
    obtain ⟨hmem,htest⟩ := Timer.removeNodes_ok hloop node hnode
    refine ⟨hmem,?_⟩
    intro ev hsends
    rw [Timer.hasEventId, hsends.2] at htest
    simp only [hsends.1, if_true] at htest
    obtain ⟨id,hgetId,hfalse⟩ := bind_eq_ok.mp htest
    obtain ⟨o,ho,hoid⟩ := bind_eq_ok.mp hgetId
    obtain rfl := Except.ok.inj hoid
    obtain ⟨hne,hany⟩ := not_or.mp (of_decide_eq_false (Except.ok.inj hfalse))
    exact ⟨o,EventQueue.event_ok ho,hne,hany⟩
  -- all events are those of the id that stands for any
  cases call with
  | id eventId =>
    obtain ⟨hmem,hleft⟩ := hid eventId h
    refine ⟨hmem,?_⟩
    intro ev hsends hnames
    obtain ⟨o,ho,hne,-⟩ := hleft ev hsends
    exact hne (hnames o ho)
  | all =>
    obtain ⟨hmem,hleft⟩ := hid kInvalidEventId h
    refine ⟨hmem,?_⟩
    intro ev hsends _
    obtain ⟨o,-,-,hany⟩ := hleft ev hsends
    exact hany rfl
  | event ev' =>
    obtain ⟨⟨left,gone⟩,hloop,heq⟩ := bind_eq_ok.mp h
    obtain ⟨htimer,-⟩ := Prod.mk.inj (Except.ok.inj heq)
    rw [← htimer] at hnode
    obtain ⟨hmem,htest⟩ := Timer.removeNodes_ok hloop node hnode
    refine ⟨hmem,?_⟩
    intro ev hsends hnames
    have hev : ev = ev' := hnames
    have hne : node.mEvent ≠ some ev' := of_decide_eq_false (Except.ok.inj htest)
    rw [hev] at hsends
    exact hne hsends.2

/-- It leaves nothing in the queue that it names. -/
theorem removeQueued_names (h : call.removeQueued s.queue = .ok q) :
    q.mQueue.Sublist s.queue.mQueue ∧ EventQueue.IdsKept s.queue q ∧
      ∀ ev ∈ q.mQueue, ¬call.Names s.queue ev := by
  cases call with
  | id eventId =>
    obtain ⟨hsub,hkept,hleft⟩ := EventQueue.removeId_ok h
    refine ⟨hsub,hkept,?_⟩
    intro ev hev hnames
    obtain ⟨o,ho,hne⟩ := hleft ev hev
    exact hne (hnames o ho)
  | event ev' => exact EventQueue.removeEvent_ok h
  | all =>
    obtain ⟨hnil,hkept⟩ := EventQueue.flush_ok h
    rw [hnil]
    exact ⟨List.nil_sublist _,hkept,by simp⟩

theorem Clean.removeTimer (hs : s.Clean) {rest : List ℕ} (hremoving : s.removing = some (call,t :: rest))
    (h : s.removeStep call (t :: rest) = .ok s') : s'.Clean := by
  simp only [TimedDispatcher.removeStep] at h
  split at h
  · cases h
  · rename_i live hlive
    split at h
    · obtain ⟨⟨timer,erased⟩,hremove,hrest⟩ := bind_eq_ok.mp h
      obtain ⟨q,hrelease,hs'⟩ := bind_eq_ok.mp hrest
      obtain ⟨hqueue,hkept⟩ := releaseNodes_ok hrelease
      have hset := hs.setObjects hqueue hkept
      rw [← Except.ok.inj hs']
      -- the removal is the one that was under way, and has this timer behind it
      have hnext : ∀ ev rest', s.Under ev rest' → rest' = t :: rest ∧ call.Names s.queue ev := by
        intro ev rest' hunder
        obtain ⟨call',hcall',hnames⟩ := hunder
        rw [hremoving] at hcall'
        obtain ⟨rfl,rfl⟩ := Prod.mk.inj (Option.some.inj hcall')
        exact ⟨rfl,hnames⟩
      constructor
      · exact hs.delivered
      · intro ev _ hnone
        cases hnone
      · exact hs.looks
      · intro t' live' ev hget hcancelled hnode
        have hlive' : Function.update s.timers t (some { live with timer := timer }) t' = some live' :=
          hget
        by_cases ht : t' = t
        · rw [ht, Function.update_self] at hlive'
          obtain rfl := Option.some.inj hlive'
          obtain ⟨node,hnode,hsends⟩ := hnode
          rename_i hwaiting
          have hlist : node ∈ timer.mList := by
            rw [LiveTimer.nodes, hwaiting] at hnode
            exact hnode
          obtain ⟨hmem,hnot⟩ := removeNodes_names hremove hlist
          obtain ⟨rest',hunder,-⟩ := hs.timers t live ev hlive hcancelled
            ⟨node,List.mem_append_right _ hmem,hsends⟩
          exact absurd (hnext ev rest' hunder).2 (hnot ev hsends)
        · rw [Function.update_of_ne ht] at hlive'
          obtain ⟨rest',hunder,hmem⟩ := hs.timers t' live' ev hlive' hcancelled hnode
          obtain ⟨rfl,hnames⟩ := hnext ev rest' hunder
          have hlater : t' ∈ rest := (List.mem_cons.mp hmem).resolve_left ht
          exact ⟨rest,⟨call,rfl,names_kept hnames hkept⟩,hlater⟩
      · intro ev hev hcancelled
        obtain ⟨rest',hunder⟩ := hset.queue ev hev hcancelled
        obtain ⟨call',hcall',hnames⟩ := hunder
        have hsame : s.removing = some (call',rest') := hcall'
        rw [hremoving] at hsame
        obtain ⟨rfl,-⟩ := Prod.mk.inj (Option.some.inj hsame)
        exact ⟨rest,call,rfl,hnames⟩
    · rw [← Except.ok.inj h]
      exact hs

theorem Clean.removeQueued (hs : s.Clean) (hremoving : s.removing = some (call,[]))
    (h : s.removeStep call [] = .ok s') : s'.Clean := by
  obtain ⟨q,hqueue,hs'⟩ := bind_eq_ok.mp h
  obtain ⟨hsub,-,hleft⟩ := removeQueued_names hqueue
  rw [← Except.ok.inj hs']
  constructor
  · exact hs.delivered
  · intro ev hthread _
    exfalso
    revert hthread
    cases s.dispatcher.thread <;> simp
  · exact hs.looks
  · intro t live ev hlive hcancelled hnode
    obtain ⟨rest,⟨call',hcall',-⟩,hmem⟩ := hs.timers t live ev hlive hcancelled hnode
    rw [hremoving] at hcall'
    obtain ⟨-,rfl⟩ := Prod.mk.inj (Option.some.inj hcall')
    cases hmem
  · intro ev hev hcancelled
    obtain ⟨rest,call',hcall',hnames⟩ := hs.queue ev (hsub.subset hev) hcancelled
    rw [hremoving] at hcall'
    obtain ⟨rfl,-⟩ := Prod.mk.inj (Option.some.inj hcall')
    exact absurd hnames (hleft ev hev)

/-- The thread takes the front of the queue in hand, and puts nothing into it. -/
theorem threadStep_ok {d d' : EventDispatcher Empty} (h : d.threadStep = .ok d') :
    EventQueue.IdsKept d.mQueue d'.mQueue ∧ (∀ ev ∈ d'.mQueue.mQueue, ev ∈ d.mQueue.mQueue) ∧
      ∀ ev, d'.thread = .handling ev → ev ∈ d.mQueue.mQueue := by
  cases EventDispatcher.threadStep_moves h with
  | rests hrests =>
    refine ⟨.refl _,fun _ hev => hev,?_⟩
    intro ev hthread
    rw [hthread] at hrests
    rcases hrests with hhand | ⟨holder,hlocking⟩
    · cases hhand
    · cases hlocking
  | @takes front rest _ hqueue =>
    refine ⟨.of_events rfl,fun ev hev => hqueue ▸ List.mem_cons_of_mem front hev,?_⟩
    intro ev hthread
    rw [← LoopPhase.handling.inj hthread, hqueue]
    exact List.mem_cons_self
  | flushes _ hflush =>
    obtain ⟨hnil,hkept⟩ := EventQueue.flush_ok hflush
    refine ⟨hkept,?_,fun _ hthread => by cases hthread⟩
    intro ev hev
    rw [hnil] at hev
    cases hev
  | @releases _ done _ _ hrelease =>
    -- the event is released, which leaves the queue as it is
    obtain ⟨hqueue,hkept⟩ := EventQueue.release_ok hrelease
    refine ⟨hkept,fun ev hev => hqueue ▸ hev,?_⟩
    intro ev hthread
    cases done <;> cases hthread
  | unpacks | hands | handled | delivers | locks | marks | unlocks | wakes =>
    exact ⟨.refl _,fun _ hev => hev,fun _ hthread => by cases hthread⟩

/-- The manager has in its list each timer that is still to send an event that the removal names. -/
def Listed (s : TimedDispatcher) (call : Removal) : Prop :=
  ∀ t live, s.timers t = some live →
    (∃ node ∈ live.nodes, ∃ ev, s.Sends ev node ∧ call.names s.queue ev = true) → t ∈ s.mTimers

/-- Where the removal names the event in hand, the listener that calls it is the last one for it. -/
def LastCalled (s : TimedDispatcher) (call : Removal) : Prop :=
  s.inHand.any (call.names s.queue) = true → ∀ event_id i, s.lookup = .inListener event_id i →
    ∀ nodes, s.mDispatcher.nodesBehind i = .ok nodes → ∀ n ∈ nodes, ¬n.isFor event_id

/-- How removals are called, and listeners added while an event that was removed is in hand. -/
def Registered (s : TimedDispatcher) : TimedAction → Prop
  | .remove call => s.listening = true → s.removing = none → s.Listed call ∧ s.LastCalled call
  | .addEventListener listener event_id => s.removing = none → s.struck = true →
      ∀ id i, s.lookup = .inListener id i → ¬(⟨listener,event_id⟩ : EventListenerNode).isFor id
  | _ => True

theorem Clean.begin (hs : s.Clean) (hremoving : s.removing = none) : (s.begin call).Clean where
  delivered := hs.delivered
  hand := by
    intro ev _ hnone
    cases hnone
  looks := hs.looks
  timers := by
    intro t live ev hlive hcancelled hnode
    obtain ⟨rest,⟨call',hcall',-⟩,-⟩ := hs.timers t live ev hlive hcancelled hnode
    rw [hremoving] at hcall'
    cases hcall'
  queue := by
    intro ev hev hcancelled
    obtain ⟨rest,call',hcall',-⟩ := hs.queue ev hev hcancelled
    rw [hremoving] at hcall'
    cases hcall'

/-- The listeners behind the one that is running are for other events, where it removes its own. -/
theorem Looks.remove (hs : s.Looks) (hlistening : s.listening = true) (hlast : s.LastCalled call) :
    ({ s with struck := s.struck || s.inHand.any (call.names s.queue) } : TimedDispatcher).Looks := by
  cases hlookup : s.lookup with
  | outside | inAgent =>
    simp only [Looks, hlookup] at hs ⊢
    exact hs
  | atNode event_id i =>
    rw [listening, hlookup] at hlistening
    cases hlistening
  | inListener event_id i =>
    simp only [Looks, hlookup] at hs ⊢
    obtain ⟨ys,r,zs,hlists,hi,hbehind⟩ := hs
    refine ⟨ys,r,zs,hlists,hi,?_⟩
    intro hor q hq
    rcases Bool.or_eq_true_iff.mp hor with hstruck | hnamed
    · exact hbehind hstruck q hq
    · have hnodes : s.mDispatcher.nodesBehind i = .ok (zs.map Registration.val) := by
        rw [hi]
        exact EventDispatcherHelper.nodesBehind_ok hlists
      exact hlast hnamed event_id i hlookup _ hnodes q.val (List.mem_map_of_mem hq)

/-- What a removal cancels is where it will come to. -/
theorem Clean.remove (hs : s.Clean) (hregistered : s.Registered (.remove call)) :
    (s.remove call).Clean := by
  unfold TimedDispatcher.remove
  split
  · rename_i hcalled
    obtain ⟨hlistening,hremoving⟩ := hcalled
    obtain ⟨hlisted,hlast⟩ := hregistered hlistening hremoving
    -- the removals that returned left nothing, so that what is there is what this one names
    have hnamed : ∀ ev, (s.cancelled ev || call.names s.queue ev) = true →
        (s.cancelled ev = true → False) → call.names s.queue ev = true := by
      intro ev hor hnot
      rcases (Bool.or_eq_true_iff.mp hor) with hcancelled | hnames
      · exact (hnot hcancelled).elim
      · exact hnames
    constructor
    · exact hs.delivered
    · intro ev _ hnone
      cases hnone
    · exact hs.looks.remove hlistening hlast
    · rintro t live ev hlive hor ⟨node,hnode,hsends⟩
      have hnames : call.names s.queue ev = true := by
        apply hnamed ev hor
        intro hcancelled
        obtain ⟨rest,⟨call',hcall',-⟩,-⟩ := hs.timers t live ev hlive hcancelled ⟨node,hnode,hsends⟩
        rw [hremoving] at hcall'
        cases hcall'
      have hmem : t ∈ s.mTimers := hlisted t live hlive ⟨node,hnode,ev,hsends,hnames⟩
      exact ⟨s.mTimers,⟨call,rfl,names_of_names hnames⟩,hmem⟩
    · intro ev hev hor
      have hnames : call.names s.queue ev = true := by
        apply hnamed ev hor
        intro hcancelled
        obtain ⟨rest,call',hcall',-⟩ := hs.queue ev hev hcancelled
        rw [hremoving] at hcall'
        cases hcall'
      exact ⟨s.mTimers,call,rfl,names_of_names hnames⟩
  · exact hs

/-- Between the removals nothing cancelled is left, and the thread takes nothing else in hand. -/
theorem Clean.dispatch (hs : s.Clean) (hremoving : s.removing = none) {d : EventDispatcher Empty}
    (h : s.dispatcher.threadStep = .ok d) {struck : Bool}
    (hstruck : ∀ ev, d.thread = .handling ev → s.cancelled ev = false → struck = false)
    (hlooks : ({ s with struck := struck } : TimedDispatcher).Looks) :
    ({ s with dispatcher := d, struck := struck } : TimedDispatcher).Clean := by
  obtain ⟨hkept,hmem,hhand⟩ := threadStep_ok h
  have hnone : ∀ ev ∈ s.queue.mQueue, s.cancelled ev = false := by
    intro ev hev
    by_contra hcancelled
    rw [Bool.not_eq_false] at hcancelled
    obtain ⟨rest,call',hcall',-⟩ := hs.queue ev hev hcancelled
    rw [hremoving] at hcall'
    cases hcall'
  constructor
  · exact hs.delivered
  · intro ev hthread _
    exact hstruck ev hthread (hnone ev (hhand ev hthread))
  · exact hlooks
  · intro t live ev hlive hcancelled hnode
    obtain ⟨rest,⟨call',hcall',-⟩,-⟩ := hs.timers t live ev hlive hcancelled hnode
    rw [hremoving] at hcall'
    cases hcall'
  · intro ev hev hcancelled
    have hfalse := hnone ev (hmem ev hev)
    have htrue : s.cancelled ev = true := hcancelled
    rw [hfalse] at htrue
    cases htrue

/-- The loop goes on, and calls a listener only where the event in hand is not a removed one. -/
theorem Clean.setLoop (hs : s.Clean) {mDispatcher : EventDispatcherHelper} {lookup : LookupPhase}
    {delivered : List (ℕ × Bool)} (hdelivered : ∀ d ∈ delivered, d.2 = false)
    (hlooks : ({ s with mDispatcher := mDispatcher, lookup := lookup } : TimedDispatcher).Looks) :
    ({ s with mDispatcher := mDispatcher, lookup := lookup, delivered := delivered } :
      TimedDispatcher).Clean :=
  ⟨hdelivered,hs.hand,hlooks,hs.timers,hs.queue⟩

theorem delivered_false (hs : s.Clean) (hstruck : s.struck = false) :
    ∀ d ∈ (s.deliverEvent ev).delivered, d.2 = false := by
  intro d hd
  rcases List.mem_append.mp hd with hold | hnew
  · exact hs.delivered d hold
  · rw [List.mem_singleton.mp hnew]
    exact hstruck

theorem Looks.lists (hs : s.Looks) : ∃ regs, s.mDispatcher.Lists regs := by
  cases hlookup : s.lookup with
  | outside | inAgent =>
    simp only [Looks, hlookup] at hs
    exact hs
  | atNode event_id i =>
    simp only [Looks, hlookup] at hs
    obtain ⟨ys,zs,hlists,-⟩ := hs
    exact ⟨ys ++ zs,hlists⟩
  | inListener event_id i =>
    simp only [Looks, hlookup] at hs
    obtain ⟨ys,r,zs,hlists,-⟩ := hs
    exact ⟨ys ++ r :: zs,hlists⟩

/-- A dispatch begins with an event that is not a removed one. -/
theorem Clean.dispatchEvent (hs : s.Clean) (hstruck : s.struck = false) {event_id : ℤ}
    (h : s.dispatchEvent ev event_id = .ok s') : s'.Clean := by
  obtain ⟨regs,hlists⟩ := hs.looks.lists
  unfold TimedDispatcher.dispatchEvent at h
  split at h
  · rw [← Except.ok.inj h]
    exact hs.setLoop (delivered_false hs hstruck) ⟨regs,hlists⟩
  · rw [EventDispatcherHelper.begin_ok hlists, ok_bind] at h
    rw [← Except.ok.inj h]
    apply hs.setLoop hs.delivered
    refine ⟨[],regs,hlists,rfl,?_⟩
    intro htrue
    have hfalse : s.struck = true := htrue
    rw [hstruck] at hfalse
    cases hfalse

/-- A turn of the loop: a listener that it comes to is for the event, so that this was not removed. -/
theorem Clean.lookupListeners (hs : s.Clean) {event_id : ℤ} {i : Option ℕ}
    (hlookup : s.lookup = .atNode event_id i) (h : s.lookupListeners event_id i = .ok s') :
    s'.Clean := by
  have hlooks := hs.looks
  simp only [Looks, hlookup] at hlooks
  obtain ⟨ys,zs,hlists,hi,hahead⟩ := hlooks
  obtain ⟨phase,mDispatcher,hvisit,hcases⟩ := EventDispatcherHelper.visit_ok event_id hlists
  rw [TimedDispatcher.lookupListeners, hi, hvisit, ok_bind] at h
  rcases hcases with ⟨rfl,rfl⟩ | ⟨r,zs',rfl,rfl,rfl,hfor⟩ | ⟨r,ys',zs',rfl,rfl,hlists'⟩
  · rw [← Except.ok.inj h]
    exact hs.setLoop hs.delivered ⟨ys ++ zs,hlists⟩
  · have hstruck : s.struck = false := by
      by_contra htrue
      rw [Bool.not_eq_false] at htrue
      exact hahead htrue r List.mem_cons_self hfor
    have hclean (delivered : List (ℕ × Bool)) (hdelivered : ∀ d ∈ delivered, d.2 = false) :
        ({ s with lookup := .inListener event_id (some r.cell), delivered := delivered } :
          TimedDispatcher).Clean :=
      hs.setLoop hdelivered ⟨ys,r,zs',hlists,rfl,fun htrue q hq =>
        hahead htrue q (List.mem_cons_of_mem r hq)⟩
    -- the thread is in a dispatch, or else nothing is called
    have hinHand : ({ s with lookup := .inListener event_id (some r.cell) } :
        TimedDispatcher).inHand = s.inHand := rfl
    simp only [hinHand] at h
    cases hhand : s.inHand with
    | none =>
      rw [hhand] at h
      rw [← Except.ok.inj h]
      exact hclean s.delivered hs.delivered
    | some ev =>
      rw [hhand] at h
      rw [← Except.ok.inj h]
      have hdelivered : ∀ d ∈ (s.deliverEvent ev).delivered, d.2 = false :=
        delivered_false hs hstruck
      exact hclean _ hdelivered
  · rw [← Except.ok.inj h]
    apply hs.setLoop hs.delivered
    exact ⟨ys',zs',hlists',rfl,fun htrue q hq => hahead htrue q (List.mem_cons_of_mem r hq)⟩

theorem Clean.loopStep (hs : s.Clean) (hremoving : s.removing = none) (hlookup : s.lookup = .outside)
    (h : s.loopStep = .ok s') : s'.Clean := by
  unfold TimedDispatcher.loopStep at h
  split at h
  · rename_i ev hthread
    have hstruck := hs.hand ev hthread hremoving
    obtain ⟨o,-,hrest⟩ := bind_eq_ok.mp h
    by_cases hshutdown : o.mEventId = kShutdownEventId
    · rw [if_pos hshutdown] at hrest
      rw [← Except.ok.inj hrest]
      exact hs.begin hremoving
    · rw [if_neg hshutdown] at hrest
      obtain ⟨d,hd,hs'⟩ := bind_eq_ok.mp hrest
      have hclean := hs.dispatch hremoving hd (fun _ _ _ => hstruck) hs.looks
      exact hclean.dispatchEvent hstruck hs'
  · obtain ⟨d,hd,hs'⟩ := bind_eq_ok.mp h
    rw [← Except.ok.inj hs']
    apply hs.dispatch hremoving hd
    · intro ev hthread hcancelled
      rw [hthread]
      exact hcancelled
    · simp only [Looks, hlookup]
      exact hs.looks.lists

theorem Clean.threadStep (hs : s.Clean) (h : s.threadStep = .ok s') : s'.Clean := by
  unfold TimedDispatcher.threadStep at h
  split at h
  · rename_i call rest hremoving
    cases rest with
    | nil => exact hs.removeQueued hremoving h
    | cons t rest => exact hs.removeTimer hremoving h
  · rename_i hremoving
    split at h
    · rename_i hlookup
      exact hs.loopStep hremoving hlookup h
    · rename_i event_id i hlookup
      exact hs.lookupListeners hlookup h
    · rename_i event_id i hlookup
      have hlooks := hs.looks
      simp only [Looks, hlookup] at hlooks
      obtain ⟨ys,r,zs,hlists,hi,hbehind⟩ := hlooks
      rw [hi, EventDispatcherHelper.forward_ok hlists, ok_bind] at h
      rw [← Except.ok.inj h]
      have hlists' : s.mDispatcher.Lists ((ys ++ [r]) ++ zs) := by rwa [List.append_assoc]
      exact hs.setLoop hs.delivered ⟨ys ++ [r],zs,hlists',rfl,hbehind⟩
    · rw [← Except.ok.inj h]
      exact hs.setLoop hs.delivered hs.looks.lists

/-- A listener that is added comes behind the others. -/
theorem Clean.addEventListener (hs : s.Clean) {listener : Option ℕ} {event_id : ℤ}
    (hregistered : s.Registered (.addEventListener listener event_id))
    (h : s.addEventListener listener event_id = .ok s') : s'.Clean := by
  unfold TimedDispatcher.addEventListener at h
  split at h
  · rename_i hchanges
    obtain ⟨regs,hregs⟩ := hs.looks.lists
    have hadd (regs : List Registration) (hregs : s.mDispatcher.Lists regs) :
        ∃ mDispatcher, s' = { s with mDispatcher := mDispatcher } ∧ ∃ new : Registration,
          new.val = ⟨listener,event_id⟩ ∧ mDispatcher.Lists (regs ++ [new]) := by
      obtain ⟨mDispatcher,hadd,hlists,-⟩ :=
        EventDispatcherHelper.addEventListener_ok hregs listener event_id
      rw [hadd, ok_bind] at h
      exact ⟨mDispatcher,(Except.ok.inj h).symm,_,rfl,hlists⟩
    cases hlookup : s.lookup with
    | outside | inAgent =>
      obtain ⟨mDispatcher,rfl,new,-,hlists⟩ := hadd regs hregs
      apply hs.setLoop hs.delivered
      simp only [Looks, hlookup]
      exact ⟨regs ++ [new],hlists⟩
    | atNode id i =>
      rw [changesListeners, hlookup] at hchanges
      cases hchanges
    | inListener id i =>
      have hlooks := hs.looks
      simp only [Looks, hlookup] at hlooks
      obtain ⟨ys,r,zs,hlists,hi,hbehind⟩ := hlooks
      obtain ⟨mDispatcher,rfl,new,hnew,hlists'⟩ := hadd _ hlists
      apply hs.setLoop hs.delivered
      simp only [Looks, hlookup]
      have hsplit : (ys ++ r :: zs) ++ [new] = ys ++ r :: (zs ++ [new]) := by simp
      rw [hsplit] at hlists'
      refine ⟨ys,r,zs ++ [new],hlists',hi,?_⟩
      intro hstruck q hq
      rcases List.mem_append.mp hq with hold | hq
      · exact hbehind hstruck q hold
      · have hremoving : s.removing = none := by
          rw [changesListeners, hlookup] at hchanges
          exact Option.isNone_iff_eq_none.mp hchanges
        rw [List.mem_singleton.mp hq, hnew]
        exact hregistered hremoving hstruck id i hlookup
  · rw [← Except.ok.inj h]
    exact hs

/-- A node that loses its listener is for no event. -/
theorem not_isFor_kill {regs : List Registration} {event_id : ℤ} (a : ℕ)
    (h : ∀ r ∈ regs, ¬r.val.isFor event_id) :
    ∀ r ∈ EventDispatcherHelper.kill a regs, ¬r.val.isFor event_id := by
  intro r hr
  obtain ⟨q,hq,rfl⟩ := List.mem_map.mp hr
  split
  · exact fun hfor => hfor.1 rfl
  · exact h q hq

/-- A listener that is removed is for no event any more. -/
theorem Clean.removeEventListener (hs : s.Clean) {listener : Option ℕ} {event_id : ℤ}
    (h : s.removeEventListener listener event_id = .ok s') : s'.Clean := by
  unfold TimedDispatcher.removeEventListener at h
  split at h
  · rename_i hchanges
    have hremove (regs : List Registration) (hregs : s.mDispatcher.Lists regs) :
        ∃ mDispatcher, s' = { s with mDispatcher := mDispatcher } ∧
          (mDispatcher.Lists regs ∨ ∃ a, mDispatcher.Lists (EventDispatcherHelper.kill a regs)) := by
      obtain ⟨res,mDispatcher,hremove,hlists,-⟩ :=
        EventDispatcherHelper.removeEventListener_ok hregs listener event_id
      rw [hremove, ok_bind] at h
      refine ⟨mDispatcher,(Except.ok.inj h).symm,?_⟩
      cases hfind : (regs.find? (EventDispatcherHelper.names listener event_id)).map
          Registration.node with
      | none =>
        rw [hfind] at hlists
        exact .inl hlists
      | some a =>
        rw [hfind] at hlists
        exact .inr ⟨a,hlists⟩
    cases hlookup : s.lookup with
    | outside | inAgent =>
      obtain ⟨regs,hregs⟩ := hs.looks.lists
      obtain ⟨mDispatcher,rfl,hlists⟩ := hremove regs hregs
      apply hs.setLoop hs.delivered
      simp only [Looks, hlookup]
      rcases hlists with hsame | ⟨a,hkill⟩
      · exact ⟨regs,hsame⟩
      · exact ⟨_,hkill⟩
    | atNode id i =>
      rw [changesListeners, hlookup] at hchanges
      cases hchanges
    | inListener id i =>
      have hlooks := hs.looks
      simp only [Looks, hlookup] at hlooks
      obtain ⟨ys,r,zs,hlists,hi,hbehind⟩ := hlooks
      obtain ⟨mDispatcher,rfl,hlists'⟩ := hremove _ hlists
      apply hs.setLoop hs.delivered
      simp only [Looks, hlookup]
      rcases hlists' with hsame | ⟨a,hkill⟩
      · exact ⟨ys,r,zs,hsame,hi,hbehind⟩
      · obtain ⟨r',hcons,hcell⟩ := EventDispatcherHelper.kill_cons a r zs
        rw [EventDispatcherHelper.kill_append, hcons] at hkill
        refine ⟨EventDispatcherHelper.kill a ys,r',EventDispatcherHelper.kill a zs,hkill,?_,?_⟩
        · rw [hcell]
          exact hi
        · exact fun hstruck => not_isFor_kill a (hbehind hstruck)
  · rw [← Except.ok.inj h]
    exact hs

theorem Clean.step (hs : s.Clean) {a : TimedAction} {o : Unit} (hregistered : s.Registered a)
    (h : s.step a = .ok (o,s')) : s'.Clean := by
  obtain ⟨s₁,hnext,heq⟩ := bind_eq_ok.mp h
  obtain ⟨-,rfl⟩ := Prod.mk.inj (Except.ok.inj heq)
  cases a with
  | create ev o =>
    rw [← Except.ok.inj hnext]
    exact hs.create
  | sendEvent ev => exact hs.sendEvent hnext
  | construct t tickTimeMs =>
    rw [← Except.ok.inj hnext]
    exact hs.construct
  | getTimer t tickTimeMs =>
    rw [← Except.ok.inj hnext]
    exact hs.getTimer
  | addTimer t =>
    rw [← Except.ok.inj hnext]
    exact hs.addTimer
  | removeTimer t =>
    rw [← Except.ok.inj hnext]
    exact hs.unlistTimer
  | sendTimedEvent t ev dispatcher msecs => exact hs.addEvent hnext
  | sendPeriodicEvent t ev dispatcher period => exact hs.addEvent hnext
  | addListener t listener msecs privateData repeatMS => exact hs.addListener hnext
  | tick t =>
    rw [← Except.ok.inj hnext]
    exact hs.tick
  | clock t => exact hs.clock hnext
  | thread => exact hs.threadStep hnext
  | remove call =>
    rw [← Except.ok.inj hnext]
    exact hs.remove hregistered
  | addEventListener listener event_id => exact hs.addEventListener hregistered hnext
  | removeEventListener listener event_id => exact hs.removeEventListener hnext

/-- Once a removal has returned, what it names is not delivered unless it was sent again. -/
theorem cancelled_not_delivered {address : ℕ} {as : List TimedAction} {os : List Unit}
    (hg : Guarded TimedDispatcher.step Registered (init address) as)
    (hrun : run TimedDispatcher.step (init address) as = .ok (os,s)) :
    ∀ d ∈ s.delivered, d.2 = false := by
  have hclean : s.Clean :=
    hg.keeps (fun _ _ _ _ hs hregistered h => hs.step hregistered h) (init_clean address) hrun
  exact hclean.delivered

/-- A client's event is in a timer, and the listener of another event runs. There is one for the event
too. -/
def timedRun (made : List TimedAction) : List TimedAction :=
  made ++ [.addEventListener (some 1) 43,.addEventListener (some 2) 42,
    .create 5 ⟨42,priorityNormal,1⟩,.sendTimedEvent 1 5 0 10,.create 7 ⟨43,priorityNormal,0⟩,.sendEvent 7,
    .thread,.thread,.thread]

/-- The thread goes on with its dispatch, the timer ticks, and what it sent is dispatched. -/
def tickedRun : List TimedAction :=
  [.thread,.thread,.thread,.thread,.thread,.thread,.tick 1,.clock 1,.clock 1,.clock 1,.clock 1,.thread,
    .thread,.thread,.thread,.thread,.thread,.thread]

theorem registered_unstruck (hstruck : s.struck = false) (listener : Option ℕ) (event_id : ℤ) :
    s.Registered (.addEventListener listener event_id) := by
  intro _ htrue
  rw [hstruck] at htrue
  cases htrue

/-- Everything is removed, the event in hand too. A listener for the other event is added, which is sent
again. -/
def removedRun : List TimedAction :=
  timedRun [.construct 1 10,.addTimer 1] ++ .remove .all :: .thread :: .thread ::
    .addEventListener (some 3) 42 :: (tickedRun ++ .sendEvent 5 :: tickedRun)

theorem removedRun_registered : Guarded TimedDispatcher.step Registered (init 0) removedRun := by
  apply Guarded.cons rfl trivial
  apply Guarded.cons rfl trivial
  apply Guarded.cons rfl (registered_unstruck rfl _ _)
  apply Guarded.cons rfl (registered_unstruck rfl _ _)
  apply Guarded.cons rfl trivial
  apply Guarded.cons rfl trivial
  apply Guarded.cons rfl trivial
  apply Guarded.cons rfl trivial
  apply Guarded.cons rfl trivial
  apply Guarded.cons rfl trivial
  apply Guarded.cons rfl trivial
  apply Guarded.cons rfl
  · intro _ _
    constructor
    · intro t live hlive _
      have hupdate : Function.update (Function.update (fun _ => none) 1 _) 1 _ t = some live := hlive
      by_cases ht : t = 1
      · rw [ht]
        exact List.mem_cons_self
      · rw [Function.update_of_ne ht, Function.update_of_ne ht] at hupdate
        cases hupdate
    · intro _ event_id i hlookup nodes hnodes
      obtain ⟨rfl,rfl⟩ := LookupPhase.inListener.inj hlookup
      have hbehind : nodes = [⟨some 2,42⟩] := (Except.ok.inj hnodes).symm
      rw [hbehind]
      decide
  apply Guarded.cons rfl trivial
  apply Guarded.cons rfl trivial
  apply Guarded.cons rfl
  · intro _ _ id i hlookup
    obtain ⟨rfl,-⟩ := LookupPhase.inListener.inj hlookup
    decide
  apply guarded_of_all
  simp [tickedRun, Registered]

theorem cancelled_not_delivered_listed : ∃ os s,
    run TimedDispatcher.step (init 0) removedRun = .ok (os,s) ∧
      s.delivered.map Prod.fst = [7,5,5] ∧ ∀ d ∈ s.delivered, d.2 = false := by
  have hends : (run TimedDispatcher.step (init 0) removedRun).map (fun r => r.2.delivered.map Prod.fst) =
      .ok [7,5,5] := by decide +kernel
  cases hrun : run TimedDispatcher.step (init 0) removedRun with
  | error e =>
    rw [hrun] at hends
    cases hends
  | ok r =>
    rw [hrun] at hends
    exact ⟨r.1,r.2,rfl,Except.ok.inj hends,cancelled_not_delivered removedRun_registered hrun⟩

/-- A timer that its client made is in no list. -/
theorem cancelled_delivered : ¬∀ address as os s,
    run TimedDispatcher.step (init address) as = .ok (os,s) → ∀ d ∈ s.delivered, d.2 = false := by
  intro h
  have hrun : (run TimedDispatcher.step (init 0)
      (timedRun [.construct 1 10] ++ .remove (.id 42) :: tickedRun)).map (fun r => r.2.delivered) =
      .ok [(7,false),(5,true)] := by decide +kernel
  cases hend : run TimedDispatcher.step (init 0)
      (timedRun [.construct 1 10] ++ .remove (.id 42) :: tickedRun) with
  | error e =>
    rw [hend] at hrun
    cases hrun
  | ok r =>
    rw [hend] at hrun
    have hdelivered : r.2.delivered = [(7,false),(5,true)] := Except.ok.inj hrun
    have hfalse := h 0 _ r.1 r.2 hend (5,true) (by rw [hdelivered]; simp)
    cases hfalse

/-- A listener removes the event that it is called with, and the one behind it still gets it. -/
example : (run TimedDispatcher.step (init 0) [.addEventListener (some 1) 42,
    .addEventListener (some 2) 42,.create 5 ⟨42,priorityNormal,0⟩,.sendEvent 5,.thread,.thread,.thread,
    .remove (.id 42),.thread,.thread,.thread]).map (fun r => r.2.delivered) =
    .ok [(5,false),(5,true)] := by decide +kernel

end TimedDispatcher

end JhCommon
