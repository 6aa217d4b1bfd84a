import JhCommon.SyncSend

/-! Runs of the threads that send synchronously: each call returns after its own event was
dispatched, and when removals and the shutdown leave nobody behind. -/
namespace JhCommon
open EventQueue Transition

namespace EventDispatcher
variable {T : Type}

/-- The entry h leaves the queue in this step, other than to be dispatched. -/
def TakesOut (s : EventDispatcher T) (h : ℕ) : DispatcherAction T → Prop
  | .removeId id => s.thread.listening = true ∧ idOf s.mQueue.events h = id
  | .removeEvent ev => s.thread.listening = true ∧ h = ev
  | .removeAll => s.thread.listening = true
  | .thread => ∃ ev, s.thread = .handling ev ∧ idOf s.mQueue.events ev = kShutdownEventId
  | _ => False

/-- No holder that is queued leaves the queue in this step, other than to be dispatched. -/
def Spares (s : EventDispatcher T) (a : DispatcherAction T) : Prop :=
  ∀ h ∈ s.mQueue.mQueue, idOf s.mQueue.events h = kSyncEventId → ¬s.TakesOut h a

/-- Nobody is left waiting: the holder of each thread inside of `sendEventSync` has a reference, and
is in the queue, or in the dispatcher's hand, or done, with a wakeup to come if the thread waits. -/
def NotLeft (s : EventDispatcher T) : Prop :=
  ∀ t h p, s.clients t = some (h,p) → 0 < refs s.mQueue.events h ∧
    (h ∈ s.held ∨ ∃ r, s.holders h = some r ∧ r.mDone = true ∧
      (p = .waiting → s.thread.waking = true))

section Steps
variable {s s' : EventDispatcher T} {t : T} {h ev : ℕ} {p : ClientPhase} {r : SyncEventHolder}

theorem Synced.notLeft (hs : s.Synced) : s.NotLeft := by
  intro t h p hc
  obtain ⟨r,priority,hr,ho,hp⟩ := hs.served t h p hc
  refine ⟨by rw [refs_of_some ho]; exact Int.one_pos,?_⟩
  rcases hp.cases with hun | hma
  · exact .inl hun.2.1
  · refine .inr ⟨r,hr,hma.1,?_⟩
    rintro rfl
    rcases hp with hun | hwake
    · exact absurd hun.2.1 hma.2.1
    · exact hwake.2

/-- A removal is harmless if the test keeps the holders. A holder that it throws out has no
reference left. -/
theorem Synced.takeOut (hs : s.Synced) {q : EventQueue} (hb : Balanced s.mQueue q) {f : ℕ → Bool}
    (hq : q.mQueue = s.mQueue.mQueue.filter f) :
    ((∀ h ∈ s.mQueue.mQueue, idOf s.mQueue.events h = kSyncEventId → f h = true) →
        { s with mQueue := q }.Synced) ∧
      ((∀ t h p, s.clients t = some (h,p) → 0 < refs q.events h) →
        ∀ h ∈ s.mQueue.mQueue, idOf s.mQueue.events h = kSyncEventId → f h = true) := by
  constructor
  · intro hkeep
    apply hs.queue hb
    intro t h p hc
    rw [hq]
    by_cases hmem : h ∈ s.mQueue.mQueue
    · exact List.count_filter (hkeep h hmem (hs.idOf_client hc))
    · rw [List.count_eq_zero.mpr hmem, List.count_eq_zero]
      exact fun hf => hmem (List.mem_filter.mp hf).1
  · intro hleft h hmem hid
    obtain ⟨t,p,hc⟩ := hs.clientOf h hid
    have hpos := hleft t h p hc
    -- the entry held the only reference
    obtain ⟨r,priority,-,ho,-⟩ := hs.served t h p hc
    have hone := hs.count_le hc
    have hentry := List.count_pos_iff.mpr hmem
    rw [held_count] at hone
    rw [hb.counted, refs_of_some ho, hq] at hpos
    by_contra hf
    have hgone : (s.mQueue.mQueue.filter f).count h = 0 := by
      rw [List.count_eq_zero]
      exact fun hin => hf (List.mem_filter.mp hin).2
    rw [hgone] at hpos
    simp only at hpos
    omega

theorem Synced.remove (hs : s.Synced) (call : EventQueue → Exec EventQueue) (f : ℕ → Bool)
    (hcall : ∃ q, call s.mQueue = .ok q ∧ q.mQueue = s.mQueue.mQueue.filter f ∧
      Balanced s.mQueue q) (a : DispatcherAction T)
    (ha : ∀ h, s.TakesOut h a ↔ s.thread.listening = true ∧ f h = false) :
    ∃ s', s.remove call = .ok s' ∧ (s.Spares a → s'.Synced) ∧ (s'.NotLeft → s.Spares a) := by
  obtain ⟨q,hq,hfilter,hb⟩ := hcall
  have hspares : s.Spares a ↔ (s.thread.listening = true →
      ∀ h ∈ s.mQueue.mQueue, idOf s.mQueue.events h = kSyncEventId → f h = true) := by
    simp only [Spares, ha, not_and, Bool.not_eq_false]
    exact ⟨fun h hl x hx hid => h x hx hid hl,fun h x hx hid hl => h hl x hx hid⟩
  rw [hspares, EventDispatcher.remove]
  by_cases hl : s.thread.listening = true
  · obtain ⟨hkeep,hlost⟩ := hs.takeOut hb hfilter
    refine ⟨{ s with mQueue := q },by simp only [if_pos hl, hq, ok_bind],fun h => hkeep (h hl),?_⟩
    intro hleft _
    exact hlost (fun t h p hc => (hleft t h p hc).1)
  · exact ⟨s,if_neg hl,fun _ => hs,fun _ h => absurd h hl⟩

/-- A step of the thread that is not the removal of a shutdown. -/
theorem spares_thread (h : ∀ ev, s.thread = .handling ev →
    idOf s.mQueue.events ev ≠ kShutdownEventId) : s.Spares .thread := by
  rintro h' - - ⟨ev,hev,hid⟩
  exact h ev hev hid

/-- At a shutdown everything that is queued goes. The invariant stays unless a holder goes with it. -/
theorem Synced.shutdown (hs : s.Synced) (hthread : s.thread = .handling ev)
    (hid : idOf s.mQueue.events ev = kShutdownEventId) : ∃ q, s.mQueue.flush = .ok q ∧
      (s.Spares .thread → { s with mQueue := q, thread := .releasing ev true }.Synced) ∧
      ({ s with mQueue := q, thread := .releasing ev true }.NotLeft → s.Spares .thread) := by
  obtain ⟨q,hflush,hnil,hb⟩ := flushFrom_spec _ hs.owns rfl
  have hfilter : q.mQueue = s.mQueue.mQueue.filter (fun _ => false) := by
    rw [hnil, List.filter_false]
  obtain ⟨hkeep,hlost⟩ := hs.takeOut hb hfilter
  refine ⟨q,hflush,?_,?_⟩
  · intro hspares
    have hs' : { s with mQueue := q }.Synced := by
      apply hkeep
      intro h hmem hsync
      exact absurd ⟨ev,hthread,hid⟩ (hspares h hmem hsync)
    apply hs'.goesOn (.releasing ev true) hthread rfl rfl rfl rfl
    -- the event in hand is the shutdown, so no holder
    intro hsync
    have hstart : idOf s.mQueue.events ev = kSyncEventId := idOf_sync hb.same hsync
    rw [hid] at hstart
    exact absurd hstart (by decide)
  · intro hleft h hmem hsync
    cases hlost (fun t h p hc => (hleft t h p hc).1) h hmem hsync

theorem Synced.handleEvent (hs : s.Synced) (hthread : s.thread = .handling ev) :
    ∃ s', s.handleEvent ev = .ok s' ∧ (s.Spares .thread → s'.Synced) ∧
      (s'.NotLeft → s.Spares .thread) := by
  obtain ⟨o,ho⟩ := hs.exists_hand ev (by simp [hthread, LoopPhase.hand])
  have hid : idOf s.mQueue.events ev = o.mEventId := by
    rw [idOf, ho]
    rfl
  have hother (hne : o.mEventId ≠ kShutdownEventId) : s.Spares .thread := by
    apply spares_thread
    intro ev' hev'
    obtain rfl := LoopPhase.handling.inj (hthread.symm.trans hev')
    rwa [hid]
  unfold EventDispatcher.handleEvent
  simp only [event, ho, ok_bind]
  by_cases hshut : o.mEventId = kShutdownEventId
  · obtain ⟨q,hflush,hkeeps,hspares⟩ := hs.shutdown hthread (hid.trans hshut)
    refine ⟨{ s with mQueue := q, thread := .releasing ev true },?_,hkeeps,hspares⟩
    simp only [if_pos hshut, hflush, ok_bind]
  · rw [if_neg hshut]
    by_cases hsync : o.mEventId = kSyncEventId
    · -- the holder has the event that the agents get
      obtain ⟨t,p,hc⟩ := hs.clientOf ev (hid.trans hsync)
      obtain ⟨r,priority,hr,-,hp⟩ := hs.served t ev p hc
      refine ⟨{ s with thread := .dispatchingSync ev r.mRealEvent },?_,fun _ => ?_,
        fun _ => hother hshut⟩
      · simp only [if_pos hsync, holder, event, ho, ok_bind, hr]
      · exact hs.goesOn (.dispatchingSync ev r.mRealEvent) hthread rfl rfl rfl rfl
          ⟨hid.trans hsync,r,hr,rfl⟩
    · refine ⟨{ s with thread := .dispatching ev },by rw [if_neg hsync],fun _ => ?_,
        fun _ => hother hshut⟩
      have hordinary : idOf s.mQueue.events ev ≠ kSyncEventId := by rwa [hid]
      exact hs.goesOn (.dispatching ev) hthread rfl rfl rfl rfl hordinary

/-- The steps of the thread outside of `handleEvent`, which remove nothing. -/
theorem Synced.threadStep_loop (hs : s.Synced) (hne : ∀ ev, s.thread ≠ .handling ev) :
    ∃ s', s.threadStep = .ok s' ∧ s'.Synced := by
  have hafter (ph : LoopPhase) (hph : ph.after = s.thread.after) (t : T) (h : ℕ) (p : ClientPhase)
      (_ : s.clients t = some (h,p)) : ph.after = some h ↔ s.thread.after = some h := by
    rw [hph]
  unfold EventDispatcher.threadStep
  cases hthread : s.thread with
  | polling =>
    cases hq : s.mQueue.mQueue with
    | nil => exact ⟨s,by simp only [pollEvent, hq],hs⟩
    | cons ev rest => exact ⟨_,by simp only [pollEvent, hq],hs.poll hthread hq⟩
  | handling ev => exact absurd hthread (hne ev)
  | dispatching ev =>
    have htyped := hs.typed
    rw [hthread] at htyped
    exact ⟨_,rfl,hs.goesOn (.releasing ev false) hthread rfl rfl rfl rfl htyped⟩
  | dispatchingSync h realEvent => exact ⟨_,rfl,hs.dispatch hthread⟩
  | locking h =>
    by_cases hlock : s.mSyncLock = none
    · have htyped := hs.typed
      rw [hthread] at htyped
      exact ⟨_,if_pos hlock,hs.setThread (.marking h) (by rw [hthread]; rfl)
        (hafter _ (by rw [hthread]; rfl)) (by rw [hthread]; rintro ⟨⟩)
        (fun t ht => by cases hlock.symm.trans ht) (fun _ => rfl) htyped⟩
    · exact ⟨s,if_neg hlock,hs⟩
  | marking h =>
    obtain ⟨r,hr,hs'⟩ := hs.mark hthread
    obtain ⟨o,ho⟩ := hs.exists_hand h (by simp [hthread, LoopPhase.hand])
    exact ⟨_,by simp only [holder, event, ho, hr, ok_bind],hs'⟩
  | unlocking =>
    have hlock := hs.threadLocked (by rw [hthread]; rfl)
    exact ⟨_,rfl,hs.setThread .broadcasting (by rw [hthread]; rfl) (hafter _ (by rw [hthread]; rfl))
      (fun _ => rfl) (fun t ht => by cases hlock.symm.trans ht) (by rintro ⟨⟩) trivial⟩
  | broadcasting => exact ⟨_,rfl,hs.broadcast hthread⟩
  | releasing ev done =>
    obtain ⟨q,hrelease,hs'⟩ := hs.release hthread (if done = true then .stopped else .polling)
      (by split <;> simp)
    exact ⟨_,by simp only [hrelease, ok_bind],hs'⟩
  | stopped => exact ⟨s,rfl,hs⟩

theorem Synced.threadStep (hs : s.Synced) : ∃ s', s.threadStep = .ok s' ∧
    (s.Spares .thread → s'.Synced) ∧ (s'.NotLeft → s.Spares .thread) := by
  by_cases hhandling : ∃ ev, s.thread = .handling ev
  · obtain ⟨ev,hthread⟩ := hhandling
    rw [EventDispatcher.threadStep, hthread]
    exact hs.handleEvent hthread
  · push Not at hhandling
    obtain ⟨s',hstep,hs'⟩ := hs.threadStep_loop hhandling
    exact ⟨s',hstep,fun _ => hs',fun _ => spares_thread fun ev hev => absurd hev (hhandling ev)⟩

variable [DecidableEq T]

/-- A thread that unlocks had the lock. -/
theorem Synced.unlock (hs : s.Synced) (hc : s.clients t = some (h,p)) (hp : p.locks = true)
    (p' : ClientPhase) (hp' : p'.locks = false)
    (hplaced : ∀ r, s.holders h = some r → s.Placed h r p → s.Placed h r p') :
    (s.setClient t h p' none).Synced := by
  apply hs.setClient hc p' hplaced
  · rw [hp']
    rintro ⟨⟩
  · intro w hw hl
    rw [hs.locked t h p hc hp] at hl
    exact absurd (Option.some.inj hl).symm hw

/-- A thread that is not in the critical section takes the lock, if it is free. -/
theorem Synced.lock (hs : s.Synced) (hc : s.clients t = some (h,p))
    (hplaced : ∀ r, s.Placed h r p → s.Placed h r .testing) :
    ∃ s', (if s.mSyncLock = none then Except.ok (s.setClient t h .testing (some (.client t)))
      else .ok s : Exec (EventDispatcher T)) = .ok s' ∧ s'.Synced := by
  by_cases hlock : s.mSyncLock = none
  · refine ⟨_,if_pos hlock,hs.setClient hc .testing (fun r _ => hplaced r) (fun _ => rfl) ?_⟩
    intro w _ hl
    cases hlock.symm.trans hl
  · exact ⟨s,if_neg hlock,hs⟩

theorem Synced.clientStep (hs : s.Synced) (t : T) : ∃ s', s.clientStep t = .ok s' ∧ s'.Synced := by
  unfold EventDispatcher.clientStep
  cases hc : s.clients t with
  | none => exact ⟨s,rfl,hs⟩
  | some c =>
    obtain ⟨h,p⟩ := c
    obtain ⟨r,priority,hr,ho,-⟩ := hs.served t h p hc
    cases p with
    | sent => exact hs.lock hc (fun r hp => hp)
    | woken => exact hs.lock hc (fun r hp => hp)
    | testing =>
      refine ⟨_,by simp only [holder, event, ho, hr, ok_bind]; rfl,?_⟩
      apply hs.setClient hc
      · -- the flag tells which of the two it is
        intro r' hr' hp
        obtain rfl := Option.some.inj (hr'.symm.trans hr)
        split_ifs with hdone
        · refine hp.resolve_right fun hma => ?_
          rw [hma.1] at hdone
          cases hdone
        · exact hp.resolve_left fun hun => hdone hun.1
      · intro _
        exact hs.locked t h _ hc rfl
      · exact fun _ _ hl => hl
    | unready => exact ⟨_,rfl,hs.unlock hc rfl .waiting rfl (fun r _ hun => .inl hun)⟩
    | waiting => exact ⟨s,rfl,hs⟩
    | ready => exact ⟨_,rfl,hs.unlock hc rfl .returning rfl (fun r _ hma => hma)⟩
    | returning => exact ⟨_,by simp only [event, ho, ok_bind],hs.return hc⟩

theorem Synced.wakeup (hs : s.Synced) (t : T) : (s.wakeup t).Synced := by
  unfold EventDispatcher.wakeup
  split
  · rename_i h hc
    exact hs.setClient hc .woken (fun r _ hp => hp.imp id And.left) (by rintro ⟨⟩) (fun _ _ hl => hl)
  · exact hs

/-- No step faults. One that spares the holders keeps the invariant, and one that does not leaves
somebody waiting. -/
theorem step_synced (s : EventDispatcher T) (a : DispatcherAction T) (hs : s.Synced) :
    ∃ o s', s.step a = .ok (o,s') ∧ (s.Spares a → s'.Synced) ∧ (s'.NotLeft → s.Spares a) := by
  suffices h : ∃ s', s.next a = .ok s' ∧ (s.Spares a → s'.Synced) ∧ (s'.NotLeft → s.Spares a) by
    obtain ⟨s',hnext,h⟩ := h
    exact ⟨(),s',by rw [step, hnext, ok_bind],h⟩
  have hspares (hno : ∀ h, ¬s.TakesOut h a) : s.Spares a := fun h _ _ => hno h
  have hall (hno : ∀ h, ¬s.TakesOut h a) (h : ∃ s', s.next a = .ok s' ∧ s'.Synced) :
      ∃ s', s.next a = .ok s' ∧ (s.Spares a → s'.Synced) ∧ (s'.NotLeft → s.Spares a) := by
    obtain ⟨s',hnext,hs'⟩ := h
    exact ⟨s',hnext,fun _ => hs',fun _ => hspares hno⟩
  cases a with
  | create ev o => exact hall (fun _ => id) ⟨_,rfl,hs.create ev o⟩
  | sendEvent ev => exact hall (fun _ => id) (hs.sendEvent ev)
  | sendEventSync t ev priority holder =>
    exact hall (fun _ => id) (hs.sendEventSync t ev priority holder)
  | client t => exact hall (fun _ => id) (hs.clientStep t)
  | wakeup t => exact hall (fun _ => id) ⟨_,rfl,hs.wakeup t⟩
  | thread => exact hs.threadStep
  | removeId id =>
    apply hs.remove (·.removeId id) (fun ev => idOf s.mQueue.events ev ≠ id)
      (removeId_spec hs.owns id)
    intro h
    simp [TakesOut]
  | removeEvent ev =>
    apply hs.remove (·.removeEvent ev) (fun i => i ≠ ev) (removeEvent_spec hs.owns ev)
    intro h
    simp [TakesOut]
  | removeAll =>
    apply hs.remove EventQueue.flush (fun _ => false)
    · rw [List.filter_false]
      exact flushFrom_spec _ hs.owns rfl
    · intro h
      simp [TakesOut]

end Steps

/-- What a call relies on: it returns when its own event has been dispatched, once, and until then
its holder is in the queue or with the dispatcher. No thread gets past its wait earlier, and none
waits on when the flag is set, without a wakeup to come. -/
def DispatchedOnce (s : EventDispatcher T) : Prop :=
  ∀ h r, s.holders h = some r →
    (h ∈ s.returned → s.dispatched h = [r.mRealEvent]) ∧
    (s.dispatched h = [r.mRealEvent] ∨
      s.dispatched h = [] ∧ (h ∈ s.mQueue.mQueue ∨ s.thread.before = some h)) ∧
    ∀ t p, s.clients t = some (h,p) →
      (p = .ready ∨ p = .returning → s.dispatched h = [r.mRealEvent]) ∧
      (p = .waiting → r.mDone = true → s.thread.waking = true)

theorem Synced.dispatched_or {s : EventDispatcher T} (hs : s.Synced) {t : T} {h : ℕ}
    {p : ClientPhase} {r : SyncEventHolder} (hc : s.clients t = some (h,p)) (hp : s.Placed h r p) :
    s.dispatched h = [r.mRealEvent] ∨
      s.dispatched h = [] ∧ (h ∈ s.mQueue.mQueue ∨ s.thread.before = some h) := by
  rcases hp.cases with ⟨-,hheld,hd⟩ | hma
  swap
  · exact .inl hma.2.2
  by_cases hafter : s.thread.after = some h
  · rw [if_pos hafter] at hd
    exact .inl hd
  rw [if_neg hafter] at hd
  refine .inr ⟨hd,(List.mem_append.mp hheld).imp id fun hhand => ?_⟩
  -- a holder in the thread's hand is not taken for an ordinary event
  have hid := hs.idOf_client hc
  have htyped := hs.typed
  cases hthread : s.thread <;> rw [hthread] at hhand hafter htyped <;>
    simp only [LoopPhase.hand, LoopPhase.after, LoopPhase.before, Typed, List.mem_singleton,
      List.not_mem_nil] at hhand hafter htyped ⊢
  all_goals subst hhand
  all_goals first
    | rfl
    | exact absurd hid htyped
    | exact absurd rfl hafter

theorem Synced.dispatchedOnce {s : EventDispatcher T} (hs : s.Synced) : s.DispatchedOnce := by
  intro h r hr
  refine ⟨fun hh => ?_,?_,fun t p hc => ?_⟩
  · obtain ⟨⟨r',hr',-,hd⟩,-⟩ := hs.returned h hh
    obtain rfl := Option.some.inj (hr'.symm.trans hr)
    exact hd
  · rcases hs.made h r hr with hh | ⟨t,p,hc⟩
    · obtain ⟨⟨r',hr',-,hd⟩,-⟩ := hs.returned h hh
      obtain rfl := Option.some.inj (hr'.symm.trans hr)
      exact .inl hd
    · obtain ⟨r',priority,hr',-,hp⟩ := hs.served t h p hc
      obtain rfl := Option.some.inj (hr'.symm.trans hr)
      exact hs.dispatched_or hc hp
  · obtain ⟨r',priority,hr',-,hp⟩ := hs.served t h p hc
    obtain rfl := Option.some.inj (hr'.symm.trans hr)
    constructor
    · rintro (rfl | rfl)
      · exact hp.2.2
      · exact hp.2.2
    · rintro rfl hdone
      rcases hp with hun | hwake
      · cases hun.1.symm.trans hdone
      · exact hwake.2

/-- A step that is no removal and no shutdown. -/
def Undisturbed (s : EventDispatcher T) : DispatcherAction T → Prop
  | .removeId _ | .removeEvent _ | .removeAll => False
  | .thread => ∀ ev, s.thread = .handling ev → idOf s.mQueue.events ev ≠ kShutdownEventId
  | _ => True

instance (s : EventDispatcher T) (a : DispatcherAction T) : Decidable (s.Undisturbed a) :=
  match a with
  | .removeId _ | .removeEvent _ | .removeAll => isFalse id
  | .thread =>
    match h : s.thread with
    | .handling ev => decidable_of_iff (idOf s.mQueue.events ev ≠ kShutdownEventId) (by
        constructor
        · rintro hid ev' hev
          rw [h] at hev
          cases hev
          exact hid
        · exact fun hall => hall ev h)
    | .polling | .dispatching _ | .dispatchingSync _ _ | .locking _ | .marking _ | .unlocking
    | .broadcasting | .releasing _ _ | .stopped =>
      isTrue fun ev hev => absurd (h.symm.trans hev) nofun
  | .create _ _ | .sendEvent _ | .sendEventSync _ _ _ _ | .client _ | .wakeup _ => isTrue trivial

theorem Undisturbed.spares {s : EventDispatcher T} {a : DispatcherAction T} (ha : s.Undisturbed a) :
    s.Spares a := by
  intro h _ _ hout
  cases a with
  | removeId id => exact ha
  | removeEvent ev => exact ha
  | removeAll => exact ha
  | thread =>
    obtain ⟨ev,hthread,hid⟩ := hout
    exact ha ev hthread hid
  | _ => exact hout

variable [DecidableEq T]

/-- As long as nobody removes anything no step faults, and each call returns after its own event was
dispatched once. -/
theorem dispatchedOnce_of_undisturbed (as : List (DispatcherAction T))
    (h : Guarded step Undisturbed init as) : Throughout step DispatchedOnce init as := by
  have honce (s : EventDispatcher T) (hs : s.Synced) : s.DispatchedOnce := hs.dispatchedOnce
  apply throughout_of_guarded Undisturbed honce _ init_synced as h
  intro s a hs ha
  obtain ⟨o,s',hstep,hkeep,-⟩ := step_synced s a hs
  exact ⟨o,s',hstep,hkeep ha.spares⟩

/-- Nobody is left waiting, and no holder loses its reference, all along a run exactly if no step of
it throws a holder out of the queue. -/
theorem notLeft_throughout_iff (as : List (DispatcherAction T)) :
    Throughout step NotLeft init as ↔ Guarded step Spares init as :=
  throughout_iff_guarded Spares (fun _ hs => hs.notLeft) step_synced init_synced as

/-- A thread has sent an event when the listener of another one removes all: its holder has no
reference any more, and its flag is not set. -/
theorem removeAll_leaves_waiting : ¬∀ as : List (DispatcherAction Unit),
    Throughout step NotLeft init as := by
  intro h
  obtain ⟨-,o₁,s₁,h₁,-,o₂,s₂,h₂,-,o₃,s₃,h₃,-,o₄,s₄,h₄,-,o₅,s₅,h₅,-,o₆,s₆,h₆,hleft⟩ :=
    h [.create 1 ⟨5,0,0⟩,.sendEvent 1,.thread,.thread,.sendEventSync () 7 0 2,.removeAll]
  obtain ⟨-,rfl⟩ := Prod.mk.inj (Except.ok.inj h₁)
  obtain ⟨-,rfl⟩ := Prod.mk.inj (Except.ok.inj h₂)
  obtain ⟨-,rfl⟩ := Prod.mk.inj (Except.ok.inj h₃)
  obtain ⟨-,rfl⟩ := Prod.mk.inj (Except.ok.inj h₄)
  obtain ⟨-,rfl⟩ := Prod.mk.inj (Except.ok.inj h₅)
  obtain ⟨-,rfl⟩ := Prod.mk.inj (Except.ok.inj h₆)
  have hrefs := (hleft () 2 .sent rfl).1
  exact absurd hrefs (by decide)

end EventDispatcher

end JhCommon
