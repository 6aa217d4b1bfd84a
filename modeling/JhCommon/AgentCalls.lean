import JhCommon.EventAgent

/-! The calls that agents make on an object from any number of threads are linearized by what the
dispatcher's thread delivers. -/
namespace JhCommon
open Transition

namespace EventDispatcher
variable {T : Type} {s s' : EventDispatcher T} {t : T} {h a : ℕ}

/-- The thread is inside of a call with this holder and this event. -/
def Sends (s : EventDispatcher T) (t : T) (h realEvent : ℕ) : Prop :=
  (s.clients t).map Prod.fst = some h ∧ (s.holders h).map SyncEventHolder.mRealEvent = some realEvent

/-- The threads are inside of the same calls, and nothing has been delivered to one of them. -/
structure SameCalls (s s' : EventDispatcher T) : Prop where
  client : ∀ t, (s'.clients t).map Prod.fst = (s.clients t).map Prod.fst
  real : ∀ h, (s'.holders h).map SyncEventHolder.mRealEvent =
    (s.holders h).map SyncEventHolder.mRealEvent
  dispatched : s'.dispatched = s.dispatched

theorem SameCalls.sends (hsame : SameCalls s s') : s'.Sends t h a ↔ s.Sends t h a := by
  rw [Sends, Sends, hsame.client, hsame.real]

theorem SameCalls.holder (hsame : SameCalls s s') {r : SyncEventHolder} (hr : s.holders h = some r) :
    ∃ r', s'.holders h = some r' := by
  have hreal := hsame.real h
  rw [hr, Option.map_some] at hreal
  obtain ⟨r',hr',-⟩ := Option.map_eq_some_iff.mp hreal
  exact ⟨r',hr'⟩

theorem sends_of_client {p : ClientPhase} {r : SyncEventHolder} (hc : s.clients t = some (h,p))
    (hr : s.holders h = some r) : s.Sends t h r.mRealEvent := by
  rw [Sends, hc, hr]
  exact ⟨rfl,rfl⟩

theorem Sends.client (hsends : s.Sends t h a) :
    ∃ p r, s.clients t = some (h,p) ∧ s.holders h = some r ∧ r.mRealEvent = a := by
  obtain ⟨⟨h',p⟩,hc,rfl⟩ := Option.map_eq_some_iff.mp hsends.1
  obtain ⟨r,hr,hreal⟩ := Option.map_eq_some_iff.mp hsends.2
  exact ⟨p,r,hc,hr,hreal⟩

/-- Only a delivery is seen by the calls. -/
theorem LoopMoves.sameCalls (hmoves : LoopMoves s s')
    (hquiet : ∀ h realEvent, s.thread ≠ .dispatchingSync h realEvent) : SameCalls s s' := by
  cases hmoves with
  | delivers h => exact absurd h (hquiet _ _)
  | @marks holder r h hr =>
    refine ⟨fun _ => rfl,fun h' => ?_,rfl⟩
    have hholder := holder_eq_ok hr
    by_cases hh : h' = holder
    · rw [hh]
      simp only [Function.update_self, hholder, Option.map_some]
    · simp only [Function.update_of_ne hh]
  | wakes h =>
    refine ⟨fun t => ?_,fun _ => rfl,rfl⟩
    simp only [wake, Option.map_map]
    congr 1
    funext c
    simp only [Function.comp]
    split <;> rfl
  | _ => exact ⟨fun _ => rfl,fun _ => rfl,rfl⟩

theorem create_sameCalls (ev : ℕ) (o : Event) : SameCalls s (s.create ev o) := by
  unfold create
  split <;> exact ⟨fun _ => rfl,fun _ => rfl,rfl⟩

variable [DecidableEq T]

theorem sameCalls_setClient {p p' : ClientPhase} (hc : s.clients t = some (h,p))
    (lock : Option (LockOwner T)) : SameCalls s (s.setClient t h p' lock) := by
  refine ⟨fun t' => ?_,fun _ => rfl,rfl⟩
  by_cases ht : t' = t
  · rw [ht, hc]
    simp only [setClient, Function.update_self, Option.map_some]
  · simp only [setClient, Function.update_of_ne ht]

theorem clientStep_sameCalls (hstep : s.clientStep t = .ok s')
    (hinside : ∀ h, s.clients t ≠ some (h,.returning)) : SameCalls s s' := by
  have hrefl : SameCalls s s := ⟨fun _ => rfl,fun _ => rfl,rfl⟩
  have hlock (h : ℕ) (p : ClientPhase) (hc : s.clients t = some (h,p))
      (hlock : (if s.mSyncLock = none then Except.ok (s.setClient t h .testing (some (.client t)))
        else .ok s : Exec (EventDispatcher T)) = .ok s') : SameCalls s s' := by
    split at hlock <;> rw [← Except.ok.inj hlock]
    · exact sameCalls_setClient hc _
    · exact hrefl
  unfold clientStep at hstep
  cases hc : s.clients t with
  | none =>
    rw [hc] at hstep
    rw [← Except.ok.inj hstep]
    exact hrefl
  | some c =>
    obtain ⟨h,p⟩ := c
    rw [hc] at hstep
    cases p with
    | sent => exact hlock h _ hc hstep
    | woken => exact hlock h _ hc hstep
    | testing =>
      obtain ⟨r,-,hs'⟩ := bind_eq_ok.mp hstep
      rw [← Except.ok.inj hs']
      exact sameCalls_setClient hc _
    | unready =>
      rw [← Except.ok.inj hstep]
      exact sameCalls_setClient hc _
    | waiting =>
      rw [← Except.ok.inj hstep]
      exact hrefl
    | ready =>
      rw [← Except.ok.inj hstep]
      exact sameCalls_setClient hc _
    | returning => exact absurd hc (hinside h)

/-- What a call comes to that begins. -/
theorem sendEventSync_eq {priority : ℤ} {holder : ℕ} (hok : s.clients t = none ∧ s.Free holder)
    (hstep : s.sendEventSync t a priority holder = .ok s') :
    s'.clients = Function.update s.clients t (some (holder,.sent)) ∧
      s'.holders = Function.update s.holders holder (some ⟨a,false⟩) ∧
      s'.dispatched = s.dispatched := by
  unfold sendEventSync at hstep
  rw [if_pos hok] at hstep
  obtain ⟨q,-,hs'⟩ := bind_eq_ok.mp hstep
  rw [← Except.ok.inj hs']
  exact ⟨rfl,rfl,rfl⟩

/-- What is not done in a call, and not on the dispatcher's thread. -/
def Outside : DispatcherAction T → Prop
  | .thread | .client _ | .create _ _ | .sendEventSync _ _ _ _ => False
  | _ => True

theorem next_sameCalls {x : DispatcherAction T} (hx : Outside x) (hstep : s.next x = .ok s') :
    SameCalls s s' := by
  have hremove (call : EventQueue → Exec EventQueue) (hstep : s.remove call = .ok s') :
      SameCalls s s' := by
    unfold remove at hstep
    split at hstep
    · obtain ⟨q,-,hs'⟩ := bind_eq_ok.mp hstep
      rw [← Except.ok.inj hs']
      exact ⟨fun _ => rfl,fun _ => rfl,rfl⟩
    · rw [← Except.ok.inj hstep]
      exact ⟨fun _ => rfl,fun _ => rfl,rfl⟩
  cases x with
  | sendEvent ev =>
    simp only [next, sendEvent] at hstep
    cases ho : s.mQueue.events ev with
    | none =>
      rw [ho] at hstep
      rw [← Except.ok.inj hstep]
      exact ⟨fun _ => rfl,fun _ => rfl,rfl⟩
    | some o =>
      simp only [ho] at hstep
      split at hstep
      · rw [← Except.ok.inj hstep]
        exact ⟨fun _ => rfl,fun _ => rfl,rfl⟩
      · obtain ⟨q,-,hs'⟩ := bind_eq_ok.mp hstep
        rw [← Except.ok.inj hs']
        exact ⟨fun _ => rfl,fun _ => rfl,rfl⟩
  | wakeup t =>
    rw [← Except.ok.inj hstep, wakeup]
    split
    · rename_i h hc
      exact sameCalls_setClient hc _
    · exact ⟨fun _ => rfl,fun _ => rfl,rfl⟩
  | removeId id => exact hremove (·.removeId id) hstep
  | removeEvent ev => exact hremove (·.removeEvent ev) hstep
  | removeAll => exact hremove EventQueue.flush hstep
  | create ev o => exact absurd hx id
  | sendEventSync t ev priority holder => exact absurd hx id
  | client t => exact absurd hx id
  | thread => exact absurd hx id

end EventDispatcher

namespace AgentSystem
variable {T σ μ ρ : Type} {method : μ → σ → ρ × σ} {start : σ} {s s' : AgentSystem T σ μ ρ} {t : T}
  {h a : ℕ} {g : SyncRetEventAgent μ ρ}

@[simp] theorem setAgent_setAgent (g g' : Option (SyncRetEventAgent μ ρ)) :
    (s.setAgent a g).setAgent a g' = s.setAgent a g' := by
  simp only [setAgent, Function.update_idem]

@[simp] theorem setAgent_agents (g : Option (SyncRetEventAgent μ ρ)) :
    (s.setAgent a g).agents a = g := Function.update_self _ _ _

@[simp] theorem meet_setAgent (g : Option (SyncRetEventAgent μ ρ)) (i : Option ℕ) (call : μ) :
    (s.setAgent a g).meet method i call = (s.meet method i call).setAgent a g := rfl

/-- What a call relies on: its agent has the references of holdMe and the holder, the call has not
been answered, and once it is delivered mRetValue is what the object returned. -/
structure Current (s : AgentSystem T σ μ ρ) (h : ℕ) (g : SyncRetEventAgent μ ρ) : Prop where
  counted : g.mRefCount = g.owners+2
  invoked : .invoke h g.call ∈ s.history
  unanswered : ∀ r, .respond h r ∉ s.history
  unmet : s.dispatcher.dispatched h = [] → ∀ e ∈ s.effects, e.id ≠ some h
  met : s.dispatcher.dispatched h ≠ [] → ⟨some h,g.call,g.mRetValue⟩ ∈ s.effects

/-- The invariant. An agent is in one call at most, and outside of one it has the references of its
owners. -/
structure Calling (method : μ → σ → ρ × σ) (start : σ) (s : AgentSystem T σ μ ρ) : Prop where
  synced : s.dispatcher.Synced
  linear : Linearizes method start s.history s.effects s.object
  known : ∀ h m, .invoke h m ∈ s.history → ∃ r, s.dispatcher.holders h = some r
  current : ∀ t h a, s.dispatcher.Sends t h a → ∃ g, s.agents a = some g ∧ s.Current h g
  alone : ∀ t t' h h' a, s.dispatcher.Sends t h a → s.dispatcher.Sends t' h' a → t = t'
  idle : ∀ a g, s.agents a = some g → (∀ t h, ¬s.dispatcher.Sends t h a) → g.mRefCount = g.owners

theorem init_calling (method : μ → σ → ρ × σ) (start : σ) :
    (init start : AgentSystem T σ μ ρ).Calling method start where
  synced := EventDispatcher.init_synced
  linear := linearizes_nil method start
  known h m hm := nomatch hm
  current t h a hsends := nomatch hsends.1
  alone t t' h h' a hsends := nomatch hsends.1
  idle a g hg := nomatch hg

/-- A step of the dispatcher that the calls do not see. -/
theorem Calling.quiet (hs : s.Calling method start) {d : EventDispatcher T} (hd : d.Synced)
    (hsame : EventDispatcher.SameCalls s.dispatcher d) (asyncAgents : ℕ → Option μ) :
    { s with dispatcher := d, asyncAgents := asyncAgents }.Calling method start where
  synced := hd
  linear := hs.linear
  known h m hm := by
    obtain ⟨r,hr⟩ := hs.known h m hm
    exact hsame.holder hr
  current t h a hsends := by
    obtain ⟨g,hg,hcur⟩ := hs.current t h a (hsame.sends.mp hsends)
    exact ⟨g,hg,hcur.counted,hcur.invoked,hcur.unanswered,
      fun hno => hcur.unmet (hsame.dispatched ▸ hno),fun hyes => hcur.met (hsame.dispatched ▸ hyes)⟩
  alone t t' h h' a hsends hsends' :=
    hs.alone t t' h h' a (hsame.sends.mp hsends) (hsame.sends.mp hsends')
  idle a g hg hno := hs.idle a g hg fun t h hsends => hno t h (hsame.sends.mpr hsends)

/-- A change of one agent. A call that it is in relies on what it calls and returns, and on two
references more than the owners have. -/
theorem Calling.setAgent (hs : s.Calling method start) (a : ℕ) (g' : Option (SyncRetEventAgent μ ρ))
    (hcurrent : ∀ t h g, s.dispatcher.Sends t h a → s.agents a = some g → g.mRefCount = g.owners+2 →
      ∃ g₁, g' = some g₁ ∧ g₁.call = g.call ∧ g₁.mRetValue = g.mRetValue ∧
        g₁.mRefCount = g₁.owners+2)
    (hidle : (∀ t h, ¬s.dispatcher.Sends t h a) → ∀ g₁, g' = some g₁ → g₁.mRefCount = g₁.owners) :
    (s.setAgent a g').Calling method start where
  synced := hs.synced
  linear := hs.linear
  known := hs.known
  current t h b hsends := by
    obtain ⟨g,hg,hcur⟩ := hs.current t h b hsends
    by_cases hb : b = a
    · subst hb
      obtain ⟨g₁,hg₁,hcall,hret,hcount⟩ := hcurrent t h g hsends hg hcur.counted
      refine ⟨g₁,by rw [setAgent_agents, hg₁],hcount,?_,
        hcur.unanswered,hcur.unmet,?_⟩
      · rw [hcall]
        exact hcur.invoked
      · rw [hcall, hret]
        exact hcur.met
    · exact ⟨g,(Function.update_of_ne hb _ _).trans hg,hcur.counted,hcur.invoked,hcur.unanswered,
        hcur.unmet,hcur.met⟩
  alone := hs.alone
  idle b g₁ hg₁ hno := by
    by_cases hb : b = a
    · subst hb
      rw [setAgent_agents] at hg₁
      exact hidle hno g₁ hg₁
    · exact hs.idle b g₁ ((Function.update_of_ne hb _ _).symm.trans hg₁) hno

/-- So many more references to the agent can be counted. -/
def RoomFor (s : AgentSystem T σ μ ρ) (a n : ℕ) : Prop :=
  ∀ g, s.agents a = some g → g.mRefCount+n < 2^31

theorem addRef_eq (hg : s.agents a = some g) (hroom : g.mRefCount+1 < 2^31) :
    s.addRef a = .ok (s.setAgent a (some { g with mRefCount := g.mRefCount+1 })) := by
  simp only [addRef, agent, hg, ok_bind, if_pos (show g.mRefCount < 2^31-1 by omega)]

theorem release_eq (hg : s.agents a = some g) : s.release a = .ok (s.setAgent a
    (if g.mRefCount-1 = 0 then none else some { g with mRefCount := g.mRefCount-1 })) := by
  simp only [release, agent, hg, ok_bind]

theorem Calling.ownerAddRef (hs : s.Calling method start) (a : ℕ) (hroom : s.RoomFor a 1) :
    ∃ s', s.ownerAddRef a = .ok s' ∧ s'.Calling method start := by
  unfold AgentSystem.ownerAddRef
  cases hg : s.agents a with
  | none => exact ⟨s,rfl,hs⟩
  | some g =>
    refine ⟨_,addRef_eq (setAgent_agents _) (hroom g hg),?_⟩
    rw [setAgent_setAgent]
    refine hs.setAgent a _ ?_ ?_
    · intro t h g' _ hg' hcount
      obtain rfl := Option.some.inj (hg.symm.trans hg')
      refine ⟨_,rfl,rfl,rfl,?_⟩
      push_cast
      omega
    · rintro hno g₁ ⟨⟩
      have hcount := hs.idle a g hg hno
      push_cast
      omega

theorem Calling.ownerRelease (hs : s.Calling method start) (a : ℕ) :
    ∃ s', s.ownerRelease a = .ok s' ∧ s'.Calling method start := by
  unfold AgentSystem.ownerRelease
  cases hg : s.agents a with
  | none => exact ⟨s,rfl,hs⟩
  | some g =>
    by_cases hzero : g.owners = 0
    · exact ⟨s,if_pos hzero,hs⟩
    simp only [if_neg hzero]
    rw [release_eq (setAgent_agents _), setAgent_setAgent]
    have hcast : ((g.owners-1 : ℕ) : ℤ) = g.owners-1 := by omega
    refine ⟨_,rfl,hs.setAgent a _ ?_ ?_⟩
    · -- a call that goes on keeps the agent
      intro t h g' _ hg' hcount
      obtain rfl := Option.some.inj (hg.symm.trans hg')
      refine ⟨_,if_neg ?_,rfl,rfl,?_⟩
      · simp only
        omega
      · simp only [hcast]
        omega
    · intro hno g₁ hg₁
      have hcount := hs.idle a g hg hno
      split at hg₁
      · cases hg₁
      · obtain rfl := Option.some.inj hg₁
        simp only [hcast]
        omega

/-- The object meets something that is in no call. -/
theorem Calling.pass (hs : s.Calling method start) (call : μ) :
    (s.meet method none call).Calling method start where
  synced := hs.synced
  linear := hs.linear.pass call
  known := hs.known
  current t h b hsends := by
    obtain ⟨g,hg,hcur⟩ := hs.current t h b hsends
    refine ⟨g,hg,hcur.counted,hcur.invoked,hcur.unanswered,?_,?_⟩
    · intro hd e he
      rcases List.mem_append.mp he with he | he
      · exact hcur.unmet hd e he
      · obtain rfl := List.mem_singleton.mp he
        intro hid
        cases hid
    · exact fun hd => List.mem_append_left _ (hcur.met hd)
  alone := hs.alone
  idle := hs.idle

/-- A holder in the thread's hand is that of a call, which has had no delivery. -/
theorem Calling.unmet (hs : s.Calling method start) {realEvent : ℕ}
    (hthread : s.dispatcher.thread = .dispatchingSync h realEvent) :
    s.dispatcher.dispatched h = [] ∧ ∃ t, s.dispatcher.Sends t h realEvent := by
  have htyped := hs.synced.typed
  rw [hthread] at htyped
  obtain ⟨hid,r₀,hr₀,hreal⟩ := htyped
  obtain ⟨t,p,hc⟩ := hs.synced.clientOf h hid
  obtain ⟨r,priority,hr,-,hp⟩ := hs.synced.served t h p hc
  obtain rfl := Option.some.inj (hr₀.symm.trans hr)
  have hheld : h ∈ s.dispatcher.held := by
    simp only [EventDispatcher.held, hthread, LoopPhase.hand, List.mem_append, List.mem_singleton,
      or_true]
  obtain ⟨-,-,hd⟩ := hp.unmarked hheld
  rw [hthread] at hd
  exact ⟨hd,t,hreal ▸ EventDispatcher.sends_of_client hc hr⟩

/-- The delivery of a call. Its agent keeps the value, and no other call has that agent. -/
theorem Calling.deliver (hs : s.Calling method start) {realEvent : ℕ}
    (hthread : s.dispatcher.thread = .dispatchingSync h realEvent) :
    ∃ s₁, s.deliver method realEvent (some h) = .ok s₁ ∧ { s₁ with
      dispatcher := { s.dispatcher with
        dispatched := Function.update s.dispatcher.dispatched h
          (s.dispatcher.dispatched h ++ [realEvent])
        thread := .locking h } }.Calling method start := by
  obtain ⟨hd,t,hsends⟩ := hs.unmet hthread
  obtain ⟨g,hg,hcur⟩ := hs.current t h realEvent hsends
  refine ⟨_,by rw [AgentSystem.deliver, agent, hg]; rfl,?_⟩
  constructor
  case synced => exact hs.synced.dispatch hthread
  case linear => exact hs.linear.meet hcur.invoked (hcur.unmet hd)
  case known => exact hs.known
  case current =>
    intro t' h' b hsends'
    have hsends' : s.dispatcher.Sends t' h' b := hsends'
    by_cases hb : b = realEvent
    · -- it is the same call
      subst hb
      obtain rfl := hs.alone t t' h h' b hsends hsends'
      obtain rfl := Option.some.inj (hsends.1.symm.trans hsends'.1)
      refine ⟨_,setAgent_agents _,hcur.counted,hcur.invoked,hcur.unanswered,?_,?_⟩
      · intro hno
        simp only [Function.update_self, hd] at hno
        cases hno
      · exact fun _ => List.mem_append_right _ List.mem_cons_self
    · have hh : h' ≠ h := by
        rintro rfl
        exact hb (Option.some.inj (hsends'.2.symm.trans hsends.2))
      obtain ⟨g',hg',hcur'⟩ := hs.current t' h' b hsends'
      refine ⟨g',(Function.update_of_ne hb _ _).trans hg',hcur'.counted,hcur'.invoked,
        hcur'.unanswered,?_,?_⟩
      · simp only [Function.update_of_ne hh]
        intro hno e he
        rcases List.mem_append.mp he with he | he
        · exact hcur'.unmet hno e he
        · obtain rfl := List.mem_singleton.mp he
          exact fun hid => hh (Option.some.inj hid).symm
      · simp only [Function.update_of_ne hh]
        exact fun hyes => List.mem_append_left _ (hcur'.met hyes)
  case alone => exact hs.alone
  case idle =>
    intro b g₁ hg₁ hno
    have hb : b ≠ realEvent := by
      rintro rfl
      exact hno t h hsends
    exact hs.idle b g₁ ((Function.update_of_ne hb _ _).symm.trans hg₁) hno

/-- Where the thread does not deliver to a call, the object meets an agent that nobody waits for, or
nothing. -/
theorem Calling.dispatchEvent (hs : s.Calling method start)
    (hquiet : ∀ h realEvent, s.dispatcher.thread ≠ .dispatchingSync h realEvent) :
    ∃ s₁, s.dispatchEvent method = .ok s₁ ∧ s₁.dispatcher = s.dispatcher ∧
      s₁.Calling method start := by
  unfold AgentSystem.dispatchEvent
  cases hthread : s.dispatcher.thread with
  | dispatchingSync h realEvent => exact absurd hthread (hquiet h realEvent)
  | dispatching ev =>
    cases hcall : s.asyncAgents ev with
    | none => exact ⟨s,by simp only [hcall],rfl,hs⟩
    | some call => exact ⟨s.meet method none call,by simp only [hcall],rfl,hs.pass call⟩
  | _ => exact ⟨s,rfl,rfl,hs⟩

theorem Calling.threadStep (hs : s.Calling method start) (hspares : s.dispatcher.Spares .thread) :
    ∃ s', s.threadStep method = .ok s' ∧ s'.Calling method start := by
  obtain ⟨d,hd,hkeeps,-⟩ := hs.synced.threadStep
  have hsynced := hkeeps hspares
  unfold AgentSystem.threadStep
  by_cases hsync : ∃ h realEvent, s.dispatcher.thread = .dispatchingSync h realEvent
  · obtain ⟨h,realEvent,hthread⟩ := hsync
    obtain ⟨s₁,hs₁,hcalling⟩ := hs.deliver hthread
    have hdispatcher : s₁.dispatcher = s.dispatcher := by
      obtain ⟨g,-,hs₁⟩ := bind_eq_ok.mp hs₁
      rw [← Except.ok.inj hs₁]
      rfl
    refine ⟨_,?_,hcalling⟩
    simp only [AgentSystem.dispatchEvent, hthread, hs₁, ok_bind, EventDispatcher.threadStep,
      hdispatcher]
  · push Not at hsync
    obtain ⟨s₁,hs₁,hdispatcher,hcalling⟩ := hs.dispatchEvent hsync
    have hsame := (EventDispatcher.threadStep_moves hd).sameCalls hsync
    rw [← hdispatcher] at hsame
    refine ⟨_,?_,hcalling.quiet hsynced hsame s₁.asyncAgents⟩
    simp only [hs₁, ok_bind, hdispatcher, hd]

theorem Calling.create (hs : s.Calling method start) (ev : ℕ) (o : Event) (call : Option μ) :
    (s.create ev o call).Calling method start := by
  unfold AgentSystem.create
  split
  · exact hs.quiet (hs.synced.create ev o) (EventDispatcher.create_sameCalls ev o) _
  · exact hs

/-- A `send` on the dispatcher's own thread. The agent is gone behind it if nobody has a reference. -/
theorem Calling.sendCurrent (hs : s.Calling method start) (a : ℕ)
    (hno : ∀ t h, ¬s.dispatcher.Sends t h a) (hroom : s.RoomFor a 1) :
    ∃ s', s.sendCurrent method a = .ok s' ∧ s'.Calling method start := by
  have hrun (g : SyncRetEventAgent μ ρ) (hg : s.agents a = some g) : ∃ s', (do
      let s ← s.addRef a
      let s ← s.deliver method a none
      s.release a : Exec (AgentSystem T σ μ ρ)) = .ok s' ∧ s'.Calling method start := by
    have hcount := hs.idle a g hg hno
    refine ⟨(s.meet method none g.call).setAgent a
      (if g.mRefCount+1-1 = 0 then none else some { g with
        mRetValue := (method g.call s.object).1
        mRefCount := g.mRefCount+1-1 }),?_,?_⟩
    · rw [addRef_eq hg (hroom g hg), ok_bind]
      simp only [AgentSystem.deliver, AgentSystem.release, agent, ok_bind, setAgent_agents,
        meet_setAgent, setAgent_setAgent]
      rfl
    · apply (hs.pass g.call).setAgent
      · intro t h g' hsends
        exact absurd hsends (hno t h)
      · intro _ g₁ hg₁
        split at hg₁
        · cases hg₁
        · rw [← Option.some.inj hg₁]
          simp only
          omega
  unfold AgentSystem.sendCurrent
  cases hg : s.agents a with
  | none => exact ⟨s,rfl,hs⟩
  | some g =>
    cases s.dispatcher.thread with
    | dispatching ev =>
      simp only
      split
      · exact hrun g hg
      · exact ⟨s,rfl,hs⟩
    | _ => exact ⟨s,rfl,hs⟩

variable [DecidableEq T]

/-- A call ends. Its agent has met the object, and has the references of its owners left. -/
theorem Calling.return (hs : s.Calling method start)
    (hc : s.dispatcher.clients t = some (h,.returning)) :
    ∃ s', s.clientStep t = .ok s' ∧ s'.Calling method start := by
  obtain ⟨r,priority,hr,ho,hmarked⟩ := hs.synced.served t h _ hc
  have hsends := EventDispatcher.sends_of_client hc hr
  obtain ⟨g,hg,hcur⟩ := hs.current t h r.mRealEvent hsends
  have hmet := hcur.met (by rw [hmarked.2.2]; exact List.cons_ne_nil _ _)
  -- the two references that `send` took
  have hfirst : g.mRefCount-1 ≠ 0 := by
    rw [hcur.counted]
    omega
  have hlast : g.mRefCount-1-1 = g.owners := by
    rw [hcur.counted]
    omega
  have hstep : s.clientStep t = .ok { s with
      dispatcher := { s.dispatcher with
        mQueue := { s.dispatcher.mQueue with
          events := Function.update s.dispatcher.mQueue.events h none }
        clients := Function.update s.dispatcher.clients t none
        returned := s.dispatcher.returned ++ [h] }
      agents := Function.update s.agents r.mRealEvent
        (if (g.owners : ℤ) = 0 then none else some { g with mRefCount := g.owners })
      history := s.history ++ [.respond h g.mRetValue] } := by
    simp only [AgentSystem.clientStep, EventDispatcher.clientStep, hc, EventQueue.event, ho, ok_bind,
      EventDispatcher.holder, hr, AgentSystem.release, agent, hg, if_neg hfirst, setAgent_agents,
      setAgent_setAgent, hlast]
    rfl
  refine ⟨_,hstep,?_⟩
  -- the calls that go on are others
  have hother (t' : T) (h' b : ℕ) (hsends' : EventDispatcher.Sends { s.dispatcher with
        mQueue := { s.dispatcher.mQueue with
          events := Function.update s.dispatcher.mQueue.events h none }
        clients := Function.update s.dispatcher.clients t none
        returned := s.dispatcher.returned ++ [h] } t' h' b) :
      s.dispatcher.Sends t' h' b ∧ t' ≠ t := by
    have ht : t' ≠ t := by
      rintro rfl
      have hnone := hsends'.1
      simp only [Function.update_self, Option.map_none] at hnone
      cases hnone
    refine ⟨⟨?_,hsends'.2⟩,ht⟩
    have hclient := hsends'.1
    simpa only [Function.update_of_ne ht] using hclient
  constructor
  case synced => exact hs.synced.return hc
  case linear => exact hs.linear.respond hmet hcur.unanswered
  case known =>
    intro h' m hm
    rcases List.mem_append.mp hm with hm | hm
    · exact hs.known h' m hm
    · cases List.mem_singleton.mp hm
  case current =>
    intro t' h' b hsends'
    obtain ⟨hsends',ht⟩ := hother t' h' b hsends'
    obtain ⟨g',hg',hcur'⟩ := hs.current t' h' b hsends'
    have hb : b ≠ r.mRealEvent := by
      rintro rfl
      exact ht (hs.alone t' t h' h r.mRealEvent hsends' hsends)
    have hh : h' ≠ h := by
      rintro rfl
      exact hb (Option.some.inj (hsends'.2.symm.trans hsends.2))
    refine ⟨g',(Function.update_of_ne hb _ _).trans hg',hcur'.counted,
      List.mem_append_left _ hcur'.invoked,?_,hcur'.unmet,hcur'.met⟩
    intro r' hr'
    rcases List.mem_append.mp hr' with hr' | hr'
    · exact hcur'.unanswered r' hr'
    · exact hh (CallEvent.respond.inj (List.mem_singleton.mp hr')).1
  case alone =>
    intro t₁ t₂ h₁ h₂ b hsends₁ hsends₂
    exact hs.alone t₁ t₂ h₁ h₂ b (hother t₁ h₁ b hsends₁).1 (hother t₂ h₂ b hsends₂).1
  case idle =>
    intro b g₁ hg₁ hno
    by_cases hb : b = r.mRealEvent
    · subst hb
      simp only [Function.update_self] at hg₁
      split at hg₁
      · cases hg₁
      · rw [← Option.some.inj hg₁]
    · refine hs.idle b g₁ ((Function.update_of_ne hb _ _).symm.trans hg₁) ?_
      intro t' h' hsends'
      have ht : t' ≠ t := by
        rintro rfl
        obtain rfl := Option.some.inj (hsends'.1.symm.trans hsends.1)
        exact hb (Option.some.inj (hsends'.2.symm.trans hsends.2))
      apply hno t' h'
      refine ⟨?_,hsends'.2⟩
      simp only [Function.update_of_ne ht]
      exact hsends'.1

theorem Calling.clientStep (hs : s.Calling method start) (t : T) :
    ∃ s', s.clientStep t = .ok s' ∧ s'.Calling method start := by
  by_cases hend : ∃ h, s.dispatcher.clients t = some (h,.returning)
  · obtain ⟨h,hc⟩ := hend
    exact hs.return hc
  · push Not at hend
    obtain ⟨d,hd,hsynced⟩ := hs.synced.clientStep t
    have hsame := EventDispatcher.clientStep_sameCalls hd hend
    refine ⟨{ s with dispatcher := d },?_,hs.quiet hsynced hsame s.asyncAgents⟩
    unfold AgentSystem.clientStep
    rw [hd, ok_bind]
    cases hc : s.dispatcher.clients t with
    | none => rfl
    | some c =>
      obtain ⟨h,p⟩ := c
      cases p with
      | returning => exact absurd hc (hend h)
      | _ => rfl

/-- A call begins with an agent that is in no other one. -/
theorem Calling.send (hs : s.Calling method start) (t : T) (a : ℕ) (priority : ℤ) (holder : ℕ)
    (hno : ∀ t h, ¬s.dispatcher.Sends t h a) (hroom : s.RoomFor a 2) :
    ∃ s', s.send t a priority holder = .ok s' ∧ s'.Calling method start := by
  unfold AgentSystem.send
  cases hg : s.agents a with
  | none => exact ⟨s,rfl,hs⟩
  | some g =>
  by_cases hok : s.dispatcher.clients t = none ∧ s.dispatcher.Free holder
  swap
  · exact ⟨s,if_neg hok,hs⟩
  obtain ⟨d,hd,hsynced⟩ := hs.synced.sendEventSync t a priority holder
  obtain ⟨hclients,hholders,hdispatched⟩ := EventDispatcher.sendEventSync_eq hok hd
  obtain ⟨-,hfresh,-⟩ := hs.synced.free_of hok.2
  have hcount := hs.idle a g hg hno
  -- the holder's address has not been in use
  have hnew (m : μ) : .invoke holder m ∉ s.history := by
    intro hm
    obtain ⟨r,hr⟩ := hs.known holder m hm
    cases hfresh.symm.trans hr
  have hsends (t' : T) (h b : ℕ) (hsends : d.Sends t' h b) :
      t' = t ∧ h = holder ∧ b = a ∨ t' ≠ t ∧ h ≠ holder ∧ s.dispatcher.Sends t' h b := by
    by_cases ht : t' = t
    · subst ht
      have hclient := hsends.1
      rw [hclients, Function.update_self] at hclient
      obtain rfl := Option.some.inj hclient
      have hreal := hsends.2
      rw [hholders, Function.update_self] at hreal
      exact .inl ⟨rfl,rfl,(Option.some.inj hreal).symm⟩
    · have hclient := hsends.1
      rw [hclients, Function.update_of_ne ht] at hclient
      obtain ⟨⟨h',p⟩,hc,rfl⟩ := Option.map_eq_some_iff.mp hclient
      have hne := hs.synced.ne_of_free hok.2 hc
      have hreal := hsends.2
      rw [hholders, Function.update_of_ne hne] at hreal
      exact .inr ⟨ht,hne,hclient,hreal⟩
  refine ⟨{ s with
    dispatcher := d
    agents := Function.update s.agents a (some { g with mRefCount := g.mRefCount+1+1 })
    history := s.history ++ [.invoke holder g.call] },?_,?_⟩
  · have htwo : g.mRefCount+2 < 2^31 := hroom g hg
    have hsecond := addRef_eq (setAgent_agents (s := s) (a := a) (some { g with
      mRefCount := g.mRefCount+1 })) (show g.mRefCount+1+1 < 2^31 by omega)
    rw [setAgent_setAgent] at hsecond
    simp only [if_pos hok, addRef_eq hg (show g.mRefCount+1 < 2^31 by omega), ok_bind, hsecond]
    simp only [AgentSystem.setAgent, hd, ok_bind]
  constructor
  case synced => exact hsynced
  case linear => exact hs.linear.invoke hnew g.call
  case known =>
    intro h m hm
    rcases List.mem_append.mp hm with hm | hm
    · obtain ⟨r,hr⟩ := hs.known h m hm
      have hne : h ≠ holder := fun hh => hnew m (hh ▸ hm)
      exact ⟨r,by rw [hholders, Function.update_of_ne hne, hr]⟩
    · obtain ⟨rfl,-⟩ := CallEvent.invoke.inj (List.mem_singleton.mp hm)
      exact ⟨_,by rw [hholders, Function.update_self]⟩
  case current =>
    intro t' h b hsends'
    rcases hsends t' h b hsends' with ⟨rfl,rfl,rfl⟩ | ⟨-,hne,hold⟩
    · refine ⟨_,Function.update_self _ _ _,?_,?_,?_,?_,?_⟩
      · simp only
        omega
      · exact List.mem_append_right _ List.mem_cons_self
      · intro r hr
        rcases List.mem_append.mp hr with hr | hr
        · obtain ⟨m,hm⟩ := hs.linear.responses h r hr
          exact hnew m hm.left_mem
        · cases List.mem_singleton.mp hr
      · intro _ e he hid
        exact hnew _ (hs.linear.called e he h hid)
      · intro hyes
        rw [hdispatched] at hyes
        exact absurd (hs.synced.fresh h hfresh) hyes
    · have hb : b ≠ a := by
        rintro rfl
        exact hno t' h hold
      obtain ⟨g',hg',hcur⟩ := hs.current t' h b hold
      refine ⟨g',(Function.update_of_ne hb _ _).trans hg',hcur.counted,
        List.mem_append_left _ hcur.invoked,?_,?_,?_⟩
      · intro r hr
        rcases List.mem_append.mp hr with hr | hr
        · exact hcur.unanswered r hr
        · cases List.mem_singleton.mp hr
      · rw [hdispatched]
        exact hcur.unmet
      · rw [hdispatched]
        exact hcur.met
  case alone =>
    intro t₁ t₂ h₁ h₂ b hsends₁ hsends₂
    rcases hsends t₁ h₁ b hsends₁ with ⟨rfl,-,rfl⟩ | ⟨-,-,hold₁⟩ <;>
      rcases hsends t₂ h₂ _ hsends₂ with ⟨rfl,-,hb⟩ | ⟨-,-,hold₂⟩
    · rfl
    · exact absurd hold₂ (hno t₂ h₂)
    · subst hb
      exact absurd hold₁ (hno t₁ h₁)
    · exact hs.alone t₁ t₂ h₁ h₂ b hold₁ hold₂
  case idle =>
    intro b g₁ hg₁ hno'
    have hb : b ≠ a := by
      rintro rfl
      apply hno' t holder
      refine ⟨?_,?_⟩
      · rw [hclients, Function.update_self, Option.map_some]
      · rw [hholders, Function.update_self, Option.map_some]
    refine hs.idle b g₁ ((Function.update_of_ne hb _ _).symm.trans hg₁) ?_
    intro t' h hold
    obtain ⟨p,r,hc,hr,-⟩ := hold.client
    have ht : t' ≠ t := by
      rintro rfl
      cases hok.1.symm.trans hc
    apply hno' t' h
    refine ⟨?_,?_⟩
    · rw [hclients, Function.update_of_ne ht]
      exact hold.1
    · rw [hholders, Function.update_of_ne (hs.synced.ne_of_free hok.2 hc)]
      exact hold.2

/-- What others do to the dispatcher. -/
theorem Calling.outside (hs : s.Calling method start) (x : DispatcherAction T)
    (hx : EventDispatcher.Outside x) (hspares : s.dispatcher.Spares x) : ∃ s', (do
      let d ← s.dispatcher.next x
      .ok { s with dispatcher := d } : Exec (AgentSystem T σ μ ρ)) = .ok s' ∧
        s'.Calling method start := by
  obtain ⟨o,d,hstep,hkeeps,-⟩ := EventDispatcher.step_synced s.dispatcher x hs.synced
  obtain ⟨d',hnext,hd⟩ := bind_eq_ok.mp hstep
  obtain ⟨-,rfl⟩ := Prod.mk.inj (Except.ok.inj hd)
  refine ⟨{ s with dispatcher := d' },by rw [hnext, ok_bind],?_⟩
  exact hs.quiet (hkeeps hspares) (EventDispatcher.next_sameCalls hx hnext) s.asyncAgents

/-- An agent is sent while it is in no call, its references can be counted, those that a call takes
among them, and no holder is thrown out of the queue. -/
def Admits (s : AgentSystem T σ μ ρ) : AgentAction T μ ρ → Prop
  | .send _ a _ _ => (∀ t h, ¬s.dispatcher.Sends t h a) ∧ s.RoomFor a 2
  | .sendCurrent a => (∀ t h, ¬s.dispatcher.Sends t h a) ∧ s.RoomFor a 1
  | .addRef a => s.RoomFor a 1
  | .dispatcher x => s.dispatcher.Spares x
  | _ => True

theorem step_calling (s : AgentSystem T σ μ ρ) (x : AgentAction T μ ρ)
    (hs : s.Calling method start) (hx : s.Admits x) :
    ∃ o s', s.step method x = .ok (o,s') ∧ s'.Calling method start := by
  suffices hnext : ∃ s', s.next method x = .ok s' ∧ s'.Calling method start by
    obtain ⟨s',hnext,hs'⟩ := hnext
    exact ⟨(),s',by rw [step, hnext, ok_bind],hs'⟩
  cases x with
  | newAgent a call mRetValue =>
    by_cases hnone : (s.agents a).isNone = true
    · refine ⟨_,if_pos hnone,hs.setAgent a _ ?_ ?_⟩
      · intro t h g _ hg
        rw [hg] at hnone
        cases hnone
      · rintro - g₁ ⟨⟩
        rfl
    · exact ⟨s,if_neg hnone,hs⟩
  | addRef a => exact hs.ownerAddRef a hx
  | release a => exact hs.ownerRelease a
  | newAsyncAgent ev call priority => exact ⟨_,rfl,hs.create ev _ _⟩
  | send t a priority holder => exact hs.send t a priority holder hx.1 hx.2
  | sendCurrent a => exact hs.sendCurrent a hx.1 hx.2
  | dispatcher y =>
    cases y with
    | thread => exact hs.threadStep hx
    | client t => exact hs.clientStep t
    | create ev o => exact ⟨_,rfl,hs.create ev o none⟩
    | sendEventSync t ev priority holder => exact ⟨s,rfl,hs⟩
    | sendEvent ev => exact hs.outside _ trivial hx
    | wakeup t => exact hs.outside _ trivial hx
    | removeId id => exact hs.outside _ trivial hx
    | removeEvent ev => exact hs.outside _ trivial hx
    | removeAll => exact hs.outside _ trivial hx

/-- What the threads see of the object, and what is left of the agents: those in no call have the
references of their owners only. -/
def Served (method : μ → σ → ρ × σ) (start : σ) (s : AgentSystem T σ μ ρ) : Prop :=
  Linearizes method start s.history s.effects s.object ∧
    ∀ a g, s.agents a = some g →
      ((∃ t h, s.dispatcher.Sends t h a) → g.mRefCount = g.owners+2) ∧
      ((∀ t h, ¬s.dispatcher.Sends t h a) → g.mRefCount = g.owners)

/-- Any number of threads call methods of an object through agents, with others that nobody waits
for, and in any order with the dispatcher's thread: no step faults, each call that returned has met
the object once, with the result it returned, and the object met calls that did not overlap in the
order they were made. -/
theorem calls_linearized (method : μ → σ → ρ × σ) (start : σ) (xs : List (AgentAction T μ ρ))
    (h : Guarded (step method) Admits (init start) xs) :
    Throughout (step method) (Served method start) (init start) xs := by
  have hserved (s : AgentSystem T σ μ ρ) (hs : s.Calling method start) : s.Served method start := by
    refine ⟨hs.linear,fun a g hg => ⟨?_,hs.idle a g hg⟩⟩
    rintro ⟨t,h,hsends⟩
    obtain ⟨g',hg',hcur⟩ := hs.current t h a hsends
    obtain rfl := Option.some.inj (hg.symm.trans hg')
    exact hcur.counted
  exact throughout_of_guarded Admits hserved step_calling (init_calling method start) xs h

/-- An agent that nobody waits for adds to a number; then a thread does, and gets what was there. It
keeps its agent. -/
theorem calls_linearized_one_call :
    Throughout (step fun (n : ℕ) (o : ℕ) => (o,o+n))
      (Served (fun (n : ℕ) (o : ℕ) => (o,o+n)) 1) (init 1 : AgentSystem Unit ℕ ℕ ℕ)
      [.newAsyncAgent 7 4 0,.dispatcher (.sendEvent 7),.newAgent 1 3 0,.addRef 1,.send () 1 0 2,
        .dispatcher (.client ()),.dispatcher (.client ()),.dispatcher (.client ()),
        .dispatcher .thread,.dispatcher .thread,.dispatcher .thread,.dispatcher .thread,
        .dispatcher .thread,.dispatcher .thread,.dispatcher .thread,.dispatcher .thread,
        .dispatcher .thread,.dispatcher .thread,.dispatcher .thread,
        .dispatcher (.client ()),.dispatcher (.client ()),.dispatcher (.client ()),
        .dispatcher (.client ())] := by
  apply calls_linearized
  have hclient (d : EventDispatcher Unit) : d.Spares (.client ()) := fun h _ _ => id
  have hthread (d : EventDispatcher Unit) (h : ∀ ev, d.thread ≠ .handling ev) : d.Spares .thread :=
    EventDispatcher.spares_thread fun ev hev => absurd hev (h ev)
  refine .cons rfl trivial (.cons rfl (fun h _ _ => id) (.cons rfl trivial (.cons rfl ?_
    (.cons rfl ⟨?_,?_⟩ ?_))))
  · rintro g ⟨⟩
    decide
  · rintro t h ⟨⟨⟩,-⟩
  · rintro g ⟨⟩
    decide
  refine .cons rfl (hclient _) (.cons rfl (hclient _) (.cons rfl (hclient _) ?_))
  refine .cons rfl (hthread _ (by rintro _ ⟨⟩)) (.cons rfl (EventDispatcher.spares_thread ?_) ?_)
  · rintro ev ⟨⟩
    decide
  refine .cons rfl (hthread _ (by rintro _ ⟨⟩)) (.cons rfl (hthread _ (by rintro _ ⟨⟩)) ?_)
  refine .cons rfl (hthread _ (by rintro _ ⟨⟩)) (.cons rfl (EventDispatcher.spares_thread ?_) ?_)
  · rintro ev ⟨⟩
    decide
  refine .cons rfl (hthread _ (by rintro _ ⟨⟩)) (.cons rfl (hthread _ (by rintro _ ⟨⟩)) ?_)
  refine .cons rfl (hthread _ (by rintro _ ⟨⟩)) (.cons rfl (hthread _ (by rintro _ ⟨⟩)) ?_)
  refine .cons rfl (hthread _ (by rintro _ ⟨⟩)) ?_
  refine .cons rfl (hclient _) (.cons rfl (hclient _) (.cons rfl (hclient _) ?_))
  exact .cons rfl (hclient _) trivial

end AgentSystem

end JhCommon
