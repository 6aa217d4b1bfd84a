import JhCommon.EventDispatcher
import JhCommon.EventQueueOrder

/-! What holds of the holders of synchronous sends between the steps of the threads, as long as no
holder is thrown out of the queue. -/
namespace JhCommon
open EventQueue

/-- The holder whose real event the thread is still to dispatch. -/
def LoopPhase.before : LoopPhase → Option ℕ
  | .handling h | .dispatchingSync h _ => some h
  | _ => none

/-- The holder whose real event the thread has dispatched, and which it has not marked. -/
def LoopPhase.after : LoopPhase → Option ℕ
  | .locking h | .marking h => some h
  | _ => none

theorem LoopPhase.mem_hand_of_after {p : LoopPhase} {h : ℕ} (hp : p.after = some h) : h ∈ p.hand := by
  cases p <;> simp_all [after, hand]

namespace EventDispatcher
variable {T : Type}

/-- The events that the dispatcher has a reference to from its queue. -/
def held (s : EventDispatcher T) : List ℕ := s.mQueue.mQueue ++ s.thread.hand

/-- The holder is in the queue or in the thread's hand, and not done. -/
def Unmarked (s : EventDispatcher T) (h : ℕ) (r : SyncEventHolder) : Prop :=
  r.mDone = false ∧ h ∈ s.held ∧
    s.dispatched h = if s.thread.after = some h then [r.mRealEvent] else []

/-- The dispatcher is through with the holder. -/
def Marked (s : EventDispatcher T) (h : ℕ) (r : SyncEventHolder) : Prop :=
  r.mDone = true ∧ h ∉ s.held ∧ s.dispatched h = [r.mRealEvent]

/-- What a thread can rely on where it is. One that is about to wait knows that the flag is not set,
and one that waits that it will be woken when it is. -/
def Placed (s : EventDispatcher T) (h : ℕ) (r : SyncEventHolder) : ClientPhase → Prop
  | .sent | .testing | .woken => s.Unmarked h r ∨ s.Marked h r
  | .unready => s.Unmarked h r
  | .waiting => s.Unmarked h r ∨ s.Marked h r ∧ s.thread.waking = true
  | .ready | .returning => s.Marked h r

/-- The ids of the events that the thread works on are the ones it has asked for. -/
def Typed (s : EventDispatcher T) : LoopPhase → Prop
  | .dispatching ev | .releasing ev _ => idOf s.mQueue.events ev ≠ kSyncEventId
  | .dispatchingSync h realEvent => idOf s.mQueue.events h = kSyncEventId ∧
      ∃ r, s.holders h = some r ∧ r.mRealEvent = realEvent
  | .locking h | .marking h => idOf s.mQueue.events h = kSyncEventId
  | _ => True

/-- The invariant. Holders that exist are those of the threads inside of `sendEventSync`, one each,
and have one reference; those of the calls that returned are done. -/
structure Synced (s : EventDispatcher T) : Prop where
  counted : ∀ ev, (s.held.count ev : ℤ) ≤ refs s.mQueue.events ev
  served : ∀ t h p, s.clients t = some (h,p) → ∃ r priority, s.holders h = some r ∧
    s.mQueue.events h = some ⟨kSyncEventId,priority,1⟩ ∧ s.Placed h r p
  clientOf : ∀ ev, idOf s.mQueue.events ev = kSyncEventId → ∃ t p, s.clients t = some (ev,p)
  distinct : ∀ t t' h p p', s.clients t = some (h,p) → s.clients t' = some (h,p') → t = t'
  locked : ∀ t h p, s.clients t = some (h,p) → p.locks = true → s.mSyncLock = some (.client t)
  threadLocked : s.thread.locks = true → s.mSyncLock = some .dispatcher
  typed : s.Typed s.thread
  returned : ∀ h ∈ s.returned, (∃ r, s.holders h = some r ∧ r.mDone = true ∧
    s.dispatched h = [r.mRealEvent]) ∧ ∀ t p, s.clients t ≠ some (h,p)
  made : ∀ h r, s.holders h = some r → h ∈ s.returned ∨ ∃ t p, s.clients t = some (h,p)
  fresh : ∀ h, s.holders h = none → s.dispatched h = []

theorem init_synced : (init : EventDispatcher T).Synced where
  counted ev := by simp [init, held, LoopPhase.hand, refs]
  served t h p hc := nomatch hc
  clientOf ev hid := absurd hid (show (0 : ℤ) ≠ kSyncEventId by decide)
  distinct t t' h p p' hc := nomatch hc
  locked t h p hc := nomatch hc
  threadLocked hl := nomatch hl
  typed := trivial
  returned h hh := nomatch hh
  made h r hr := nomatch hr
  fresh h hh := rfl

section Frames
variable {s s' : EventDispatcher T} {t : T} {h ev : ℕ} {p p' : ClientPhase} {r : SyncEventHolder}
  {o : Event}

theorem Placed.cases (hp : s.Placed h r p) : s.Unmarked h r ∨ s.Marked h r := by
  cases p with
  | unready => exact .inl hp
  | waiting => exact hp.imp id And.left
  | ready => exact .inr hp
  | returning => exact .inr hp
  | _ => exact hp

/-- Steps that leave a holder where it is leave its thread what it relies on. -/
theorem Placed.transfer (hp : s.Placed h r p) (hmem : h ∈ s'.held ↔ h ∈ s.held)
    (hafter : s'.thread.after = some h ↔ s.thread.after = some h)
    (hdisp : s'.dispatched h = s.dispatched h)
    (hwaking : p = .waiting → s.thread.waking = true → s'.thread.waking = true) :
    s'.Placed h r p := by
  have hun : s.Unmarked h r → s'.Unmarked h r := by
    rintro ⟨hdone,hheld,hd⟩
    refine ⟨hdone,hmem.mpr hheld,?_⟩
    rw [hdisp, hd]
    simp only [hafter]
  have hma : s.Marked h r → s'.Marked h r := by
    rintro ⟨hdone,hheld,hd⟩
    exact ⟨hdone,fun hh => hheld (hmem.mp hh),hdisp.trans hd⟩
  cases p with
  | unready => exact hun hp
  | waiting => exact hp.imp hun (And.imp hma (hwaking rfl))
  | ready => exact hma hp
  | returning => exact hma hp
  | _ => exact hp.imp hun hma

/-- A step of the dispatcher's thread, or of another one that only sends. -/
theorem Synced.frame (hs : s.Synced) (hclients : s'.clients = s.clients)
    (hreturned : s'.returned = s.returned)
    (hsync : ∀ ev, idOf s'.mQueue.events ev = kSyncEventId →
      idOf s.mQueue.events ev = kSyncEventId)
    (hcounted : ∀ ev, (s'.held.count ev : ℤ) ≤ refs s'.mQueue.events ev)
    (hserved : ∀ t h p r, s.clients t = some (h,p) → s.holders h = some r → s.Placed h r p →
      s'.mQueue.events h = s.mQueue.events h ∧ ∃ r', s'.holders h = some r' ∧ s'.Placed h r' p)
    (hothers : ∀ h, (∀ t p, s.clients t ≠ some (h,p)) →
      s'.holders h = s.holders h ∧ s'.dispatched h = s.dispatched h)
    (hlock : ∀ t, s.mSyncLock = some (.client t) → s'.mSyncLock = some (.client t))
    (hthreadLocked : s'.thread.locks = true → s'.mSyncLock = some .dispatcher)
    (htyped : s'.Typed s'.thread) : s'.Synced where
  counted := hcounted
  served t h p hc := by
    rw [hclients] at hc
    obtain ⟨r,priority,hr,ho,hp⟩ := hs.served t h p hc
    obtain ⟨ho',r',hr',hp'⟩ := hserved t h p r hc hr hp
    exact ⟨r',priority,hr',ho'.trans ho,hp'⟩
  clientOf ev hid := by
    rw [hclients]
    exact hs.clientOf ev (hsync ev hid)
  distinct := by
    rw [hclients]
    exact hs.distinct
  locked t h p hc hl := by
    rw [hclients] at hc
    exact hlock t (hs.locked t h p hc hl)
  threadLocked := hthreadLocked
  typed := htyped
  returned h hh := by
    rw [hreturned] at hh
    rw [hclients]
    obtain ⟨⟨r,hr,hdone,hd⟩,hnot⟩ := hs.returned h hh
    obtain ⟨hholder,hdisp⟩ := hothers h hnot
    exact ⟨⟨r,hholder.trans hr,hdone,hdisp.trans hd⟩,hnot⟩
  made h r hr := by
    rw [hreturned, hclients]
    by_cases hc : ∃ t p, s.clients t = some (h,p)
    · exact .inr hc
    · push Not at hc
      rw [(hothers h hc).1] at hr
      exact hs.made h r hr
  fresh h hh := by
    by_cases hc : ∃ t p, s.clients t = some (h,p)
    · obtain ⟨t,p,hc⟩ := hc
      obtain ⟨r,priority,hr,ho,hp⟩ := hs.served t h p hc
      obtain ⟨-,r',hr',-⟩ := hserved t h p r hc hr hp
      cases hh.symm.trans hr'
    · push Not at hc
      obtain ⟨hholder,hdisp⟩ := hothers h hc
      rw [hdisp]
      exact hs.fresh h (hholder.symm.trans hh)

theorem held_count (s : EventDispatcher T) (ev : ℕ) :
    s.held.count ev = s.mQueue.mQueue.count ev+s.thread.hand.count ev :=
  List.count_append

theorem Synced.owns (hs : s.Synced) : s.mQueue.Owns s.mQueue.events
    (fun ev => refs s.mQueue.events ev-s.mQueue.mQueue.count ev) := by
  refine ⟨fun ev o ho => by simp [idOf, priorityOf, ho],fun ev => ?_,fun ev => by omega⟩
  have := hs.counted ev
  rw [held_count] at this
  omega

/-- A call on the queue that gives and takes a reference with each entry. -/
def Balanced (q q' : EventQueue) : Prop :=
  q'.Owns q.events (fun ev => refs q.events ev-q.mQueue.count ev)

theorem event_eq {start events : ℕ → Option Event} (hsame : SameEvents start events)
    (ho : start ev = some o) (hpos : 0 < refs events ev) :
    events ev = some { o with mRefCount := refs events ev } := by
  cases ho' : events ev with
  | none => simp [refs, ho'] at hpos
  | some o' =>
    obtain ⟨hid,hpriority⟩ := hsame ev o' ho'
    simp only [idOf, priorityOf, ho, Option.map_some, Option.getD_some] at hid hpriority
    rw [refs_of_some ho', ← hid, ← hpriority]

theorem Balanced.event_eq {q q' : EventQueue} (hb : Balanced q q') (ho : q.events ev = some o)
    (hpos : 0 < o.mRefCount) (hcount : q'.mQueue.count ev = q.mQueue.count ev) :
    q'.events ev = some o := by
  have hrefs : refs q'.events ev = o.mRefCount := by
    rw [hb.counted, hcount, refs_of_some ho, sub_add_cancel]
  rw [EventDispatcher.event_eq hb.same ho (by omega), hrefs]

theorem idOf_sync {start events : ℕ → Option Event} (hsame : SameEvents start events)
    (hid : idOf events ev = kSyncEventId) : idOf start ev = kSyncEventId := by
  cases ho : events ev with
  | none =>
    simp only [idOf, ho, Option.map_none, Option.getD_none] at hid
    exact absurd hid (by decide)
  | some o =>
    rw [← (hsame ev o ho).1]
    simpa only [idOf, ho, Option.map_some, Option.getD_some] using hid

/-- The thread relies on the event in its hand only. -/
theorem Synced.typed_of (hs : s.Synced) (s' : EventDispatcher T) {ph : LoopPhase}
    (hsync : ∀ ev ∈ ph.hand, idOf s'.mQueue.events ev = kSyncEventId →
      idOf s.mQueue.events ev = kSyncEventId)
    (hhand : ∀ t h p, s.clients t = some (h,p) → h ∈ ph.hand →
      s'.mQueue.events h = s.mQueue.events h ∧ s'.holders h = s.holders h)
    (hph : s.Typed ph) : s'.Typed ph := by
  have hkeep (h : ℕ) (hmem : h ∈ ph.hand) (hid : idOf s.mQueue.events h = kSyncEventId) :
      idOf s'.mQueue.events h = kSyncEventId ∧ s'.holders h = s.holders h := by
    obtain ⟨t,p,hc⟩ := hs.clientOf h hid
    obtain ⟨hevent,hholder⟩ := hhand t h p hc hmem
    exact ⟨by rwa [idOf, hevent],hholder⟩
  cases ph with
  | dispatching ev => exact fun hid => hph (hsync ev List.mem_cons_self hid)
  | releasing ev done => exact fun hid => hph (hsync ev List.mem_cons_self hid)
  | dispatchingSync h realEvent =>
    obtain ⟨hid,hholder⟩ := hkeep h List.mem_cons_self hph.1
    refine ⟨hid,?_⟩
    rw [hholder]
    exact hph.2
  | locking h => exact (hkeep h List.mem_cons_self hph).1
  | marking h => exact (hkeep h List.mem_cons_self hph).1
  | _ => trivial

/-- A call on the queue that moves no holder. -/
theorem Synced.queue (hs : s.Synced) {q : EventQueue} (hb : Balanced s.mQueue q)
    (hcount : ∀ t h p, s.clients t = some (h,p) → q.mQueue.count h = s.mQueue.mQueue.count h) :
    { s with mQueue := q }.Synced := by
  have hevents : ∀ t h p, s.clients t = some (h,p) → q.events h = s.mQueue.events h := by
    intro t h p hc
    obtain ⟨r,priority,-,ho,-⟩ := hs.served t h p hc
    rw [ho]
    exact hb.event_eq ho Int.one_pos (hcount t h p hc)
  have hsync : ∀ ev, idOf q.events ev = kSyncEventId → idOf s.mQueue.events ev = kSyncEventId :=
    fun ev => idOf_sync hb.same
  refine hs.frame rfl rfl hsync ?_ ?_ (fun _ _ => ⟨rfl,rfl⟩) (fun _ h => h) hs.threadLocked
    (hs.typed_of { s with mQueue := q } (fun ev _ => hsync ev)
      (fun t h p hc _ => ⟨hevents t h p hc,rfl⟩) hs.typed)
  · intro ev
    have hcounted := hs.counted ev
    have hrefs := hb.counted ev
    rw [held_count] at hcounted ⊢
    simp only at hrefs ⊢
    omega
  · intro t h p r hc hr hp
    refine ⟨hevents t h p hc,r,hr,hp.transfer ?_ .rfl rfl (fun _ => id)⟩
    rw [← List.count_pos_iff, ← List.count_pos_iff, held_count, held_count, hcount t h p hc]

/-- The thread goes on with what it has in its hand. -/
theorem Synced.setThread (hs : s.Synced) (ph : LoopPhase) (hhand : ph.hand = s.thread.hand)
    (hafter : ∀ t h p, s.clients t = some (h,p) → (ph.after = some h ↔ s.thread.after = some h))
    (hwaking : s.thread.waking = true → ph.waking = true) {lock : Option (LockOwner T)}
    (hlock : ∀ t, s.mSyncLock = some (.client t) → lock = some (.client t))
    (hlocked : ph.locks = true → lock = some .dispatcher) (htyped : s.Typed ph) :
    { s with thread := ph, mSyncLock := lock }.Synced := by
  have hheld : { s with thread := ph, mSyncLock := lock }.held = s.held := by
    simp only [held, hhand]
  refine hs.frame rfl rfl (fun _ h => h) ?_ ?_ (fun _ _ => ⟨rfl,rfl⟩) hlock hlocked
    (hs.typed_of _ (fun _ _ h => h) (fun _ _ _ _ _ => ⟨rfl,rfl⟩) htyped)
  · rw [hheld]
    exact hs.counted
  · intro t h p r hc hr hp
    exact ⟨rfl,r,hr,hp.transfer (by rw [hheld]) (hafter t h p hc) rfl (fun _ => hwaking)⟩

/-- The thread goes on without the lock: it keeps what it has in its hand and what it has dispatched,
and there is nobody that it has to wake. -/
theorem Synced.goesOn (hs : s.Synced) (ph : LoopPhase) {old : LoopPhase} (hthread : s.thread = old)
    (hhand : ph.hand = old.hand) (hafter : ph.after = old.after) (hwaking : old.waking = false)
    (hlocks : ph.locks = false) (htyped : s.Typed ph) : { s with thread := ph }.Synced := by
  subst hthread
  refine hs.setThread ph hhand ?_ ?_ (fun _ hl => hl) ?_ htyped
  · intro t h p hc
    rw [hafter]
  · rw [hwaking]
    rintro ⟨⟩
  · rw [hlocks]
    rintro ⟨⟩

/-- An entry goes from the queue to the thread's hand. -/
theorem Synced.poll (hs : s.Synced) (hthread : s.thread = .polling) {rest : List ℕ}
    (hq : s.mQueue.mQueue = ev :: rest) :
    { s with mQueue := { s.mQueue with mQueue := rest }, thread := .handling ev }.Synced := by
  have hheld (x : ℕ) : (rest ++ [ev]).count x = s.held.count x := by
    simp only [held_count, hq, hthread, LoopPhase.hand, List.count_append, List.count_cons,
      List.count_nil]
    omega
  refine hs.frame rfl rfl (fun _ h => h) ?_ ?_ (fun _ _ => ⟨rfl,rfl⟩) (fun _ h => h) (by rintro ⟨⟩) trivial
  · intro x
    have hcounted := hs.counted x
    rwa [← hheld x] at hcounted
  · intro t h p r hc hr hp
    refine ⟨rfl,r,hr,hp.transfer ?_ (by rw [hthread]; exact .rfl) rfl (by rw [hthread]; rintro - ⟨⟩)⟩
    rw [← List.count_pos_iff, ← List.count_pos_iff]
    exact (congrArg (0 < ·) (hheld h)).to_iff

/-- A holder that a thread waits with is in one place only. -/
theorem Synced.count_le (hs : s.Synced) (hc : s.clients t = some (h,p)) : s.held.count h ≤ 1 := by
  obtain ⟨r,priority,-,ho,-⟩ := hs.served t h p hc
  have hcounted := hs.counted h
  rw [refs_of_some ho] at hcounted
  have hone : (s.held.count h : ℤ) ≤ 1 := hcounted
  exact_mod_cast hone

theorem Synced.idOf_client (hs : s.Synced) (hc : s.clients t = some (h,p)) :
    idOf s.mQueue.events h = kSyncEventId := by
  obtain ⟨r,priority,-,ho,-⟩ := hs.served t h p hc
  rw [idOf, ho]
  rfl

/-- What is in the thread's hand exists. -/
theorem Synced.exists_hand (hs : s.Synced) (ev : ℕ) (hmem : ev ∈ s.thread.hand) :
    ∃ o, s.mQueue.events ev = some o := by
  have hcounted := hs.counted ev
  have hpos := List.count_pos_iff.mpr hmem
  rw [held_count] at hcounted
  cases ho : s.mQueue.events ev with
  | some o => exact ⟨o,rfl⟩
  | none =>
    simp only [refs, ho, Option.map_none, Option.getD_none] at hcounted
    omega

/-- The thread is through with an ordinary event, and gives up the reference to it. -/
theorem Synced.release (hs : s.Synced) {done : Bool} (hthread : s.thread = .releasing ev done)
    (ph : LoopPhase) (hph : ph = .polling ∨ ph = .stopped) :
    ∃ q, s.mQueue.release ev = .ok q ∧ { s with mQueue := q, thread := ph }.Synced := by
  obtain ⟨o,ho⟩ := hs.exists_hand ev (by simp [hthread, LoopPhase.hand])
  obtain ⟨q,hrelease,hqueue,hsame,hrefs⟩ := release_spec hs.owns ho
  have hne : idOf s.mQueue.events ev ≠ kSyncEventId := by
    have htyped := hs.typed
    rwa [hthread] at htyped
  have hother : ∀ t h p, s.clients t = some (h,p) → h ≠ ev := by
    rintro t h p hc rfl
    exact hne (hs.idOf_client hc)
  have hhand : ph.hand = [] ∧ ph.after = none ∧ ph.locks = false := by
    rcases hph with rfl | rfl <;> exact ⟨rfl,rfl,rfl⟩
  have hheld (x : ℕ) : s.held.count x = q.mQueue.count x+if x = ev then 1 else 0 := by
    rw [held_count, hqueue, hthread, LoopPhase.hand, List.count_singleton]
    simp only [beq_iff_eq, eq_comm (a := ev)]
  -- the clients' holders are other objects
  have hevents : ∀ t h p, s.clients t = some (h,p) → q.events h = s.mQueue.events h := by
    intro t h p hc
    rw [release_eq ho, Except.ok.injEq] at hrelease
    rw [← hrelease]
    exact Function.update_of_ne (hother t h p hc) _ _
  have hsync : ∀ x, idOf q.events x = kSyncEventId → idOf s.mQueue.events x = kSyncEventId :=
    fun x => idOf_sync hsame
  refine ⟨q,hrelease,hs.frame rfl rfl hsync ?_ ?_ (fun _ _ => ⟨rfl,rfl⟩) (fun _ h => h) ?_ ?_⟩
  · intro x
    have hcounted := hs.counted x
    rw [hheld] at hcounted
    rw [held_count, hhand.1, hrefs]
    push_cast at hcounted
    simp only [List.count_nil]
    omega
  · intro t h p r hc hr hp
    refine ⟨hevents t h p hc,r,hr,hp.transfer ?_ ?_ rfl ?_⟩
    · rw [← List.count_pos_iff, ← List.count_pos_iff, held_count, hheld, hhand.1,
        if_neg (hother t h p hc)]
      rfl
    · rw [hthread]
      simp only [hhand.2.1]
      exact .rfl
    · rw [hthread]
      rintro - ⟨⟩
  · rw [hhand.2.2]
    rintro ⟨⟩
  · rcases hph with rfl | rfl <;> trivial

theorem Placed.unmarked (hp : s.Placed h r p) (hmem : h ∈ s.held) : s.Unmarked h r :=
  hp.cases.resolve_right fun hm => hm.2.1 hmem

theorem Placed.of_unmarked (hp : s.Placed h r p) (hmem : h ∈ s.held) (hun : s'.Unmarked h r) :
    s'.Placed h r p := by
  cases p with
  | unready => exact hun
  | ready => exact absurd hmem hp.2.1
  | returning => exact absurd hmem hp.2.1
  | _ => exact .inl hun

/-- The real event of a holder has been dispatched. -/
theorem Synced.dispatch (hs : s.Synced) {realEvent : ℕ}
    (hthread : s.thread = .dispatchingSync h realEvent) :
    { s with
      dispatched := Function.update s.dispatched h (s.dispatched h ++ [realEvent])
      thread := .locking h }.Synced := by
  have htyped := hs.typed
  rw [hthread] at htyped
  obtain ⟨hid,r₀,hr₀,rfl⟩ := htyped
  have hheld : h ∈ s.held := by simp [held, hthread, LoopPhase.hand]
  have hsame : s.mQueue.mQueue ++ LoopPhase.hand (.locking h) = s.held := by
    rw [held, hthread, LoopPhase.hand, LoopPhase.hand]
  refine hs.frame rfl rfl (fun _ h => h) ?_ ?_ ?_ (fun _ h => h) (by rintro ⟨⟩) hid
  · rw [held, hsame]
    exact hs.counted
  · intro t h' p r hc hr hp
    refine ⟨rfl,r,hr,?_⟩
    by_cases hh : h' = h
    · subst hh
      obtain rfl := Option.some.inj (hr.symm.trans hr₀)
      obtain ⟨hdone,-,hd⟩ := hp.unmarked hheld
      rw [hthread] at hd
      apply hp.of_unmarked hheld
      refine ⟨hdone,by rw [held, hsame]; exact hheld,?_⟩
      simp [hd, LoopPhase.after]
    · apply hp.transfer
      · rw [held, hsame]
      · simp [hthread, LoopPhase.after, Ne.symm hh]
      · exact Function.update_of_ne hh _ _
      · rw [hthread]
        rintro - ⟨⟩
  · intro h' hnot
    refine ⟨rfl,Function.update_of_ne ?_ _ _⟩
    rintro rfl
    obtain ⟨t,p,hc⟩ := hs.clientOf h' hid
    exact hnot t p hc

/-- The flag of a holder is set. No thread is about to wait for it, since the dispatcher has the
lock. -/
theorem Synced.mark (hs : s.Synced) (hthread : s.thread = .marking h) :
    ∃ r, s.holders h = some r ∧ { s with
      holders := Function.update s.holders h (some { r with mDone := true })
      thread := .unlocking }.Synced := by
  have hid := hs.typed
  rw [hthread] at hid
  obtain ⟨t₀,p₀,hc₀⟩ := hs.clientOf h hid
  obtain ⟨r₀,priority,hr₀,ho,hp₀⟩ := hs.served t₀ h p₀ hc₀
  have hlock : s.mSyncLock = some .dispatcher := hs.threadLocked (by rw [hthread]; rfl)
  have hheld (x : ℕ) : s.held.count x = s.mQueue.mQueue.count x+if x = h then 1 else 0 := by
    rw [held_count, hthread, LoopPhase.hand, List.count_singleton]
    simp only [beq_iff_eq, eq_comm (a := h)]
  have hleft : h ∉ s.mQueue.mQueue := by
    intro hmem
    have hle := hs.count_le hc₀
    have hpos := List.count_pos_iff.mpr hmem
    rw [hheld, if_pos rfl] at hle
    omega
  have hmem : h ∈ s.held := by simp [held, hthread, LoopPhase.hand]
  refine ⟨r₀,hr₀,hs.frame rfl rfl (fun _ h => h) ?_ ?_ ?_ (fun _ h => h) (fun _ => hlock) trivial⟩
  · intro x
    have hcounted := hs.counted x
    rw [hheld] at hcounted
    rw [held_count]
    simp only [LoopPhase.hand, List.count_nil]
    push_cast at hcounted
    split at hcounted <;> omega
  · intro t h' p r hc hr hp
    refine ⟨rfl,?_⟩
    -- one holder is marked, and the others stay as they are
    by_cases hh : h' = h
    · subst hh
      obtain rfl := Option.some.inj (hr.symm.trans hr₀)
      obtain ⟨-,-,hd⟩ := hp.unmarked hmem
      rw [hthread, LoopPhase.after, if_pos rfl] at hd
      refine ⟨_,Function.update_self _ _ _,?_⟩
      have hmarked : { s with
          holders := Function.update s.holders h' (some { r with mDone := true })
          thread := .unlocking }.Marked h' { r with mDone := true } := by
        refine ⟨rfl,?_,hd⟩
        simpa [held, LoopPhase.hand] using hleft
      cases p with
      | unready => cases (hs.locked t h' _ hc rfl).symm.trans hlock
      | waiting => exact .inr ⟨hmarked,rfl⟩
      | ready => exact hmarked
      | returning => exact hmarked
      | _ => exact .inr hmarked
    · refine ⟨r,(Function.update_of_ne hh _ _).trans hr,hp.transfer ?_ ?_ rfl ?_⟩
      · rw [← List.count_pos_iff, ← List.count_pos_iff, held_count, hheld, if_neg hh]
        rfl
      · simp [hthread, LoopPhase.after, Ne.symm hh]
      · rw [hthread]
        rintro - ⟨⟩
  · intro h' hnot
    refine ⟨Function.update_of_ne ?_ _ _,rfl⟩
    rintro rfl
    exact hnot t₀ p₀ hc₀

theorem update_eq_some [DecidableEq T] {clients : T → Option (ℕ × ClientPhase)} {t' : T}
    {c : Option (ℕ × ClientPhase)} (hc : Function.update clients t c t' = some (h,p)) :
    t' = t ∧ c = some (h,p) ∨ t' ≠ t ∧ clients t' = some (h,p) := by
  by_cases ht : t' = t
  · rw [ht, Function.update_self] at hc
    exact .inl ⟨ht,hc⟩
  · rw [Function.update_of_ne ht] at hc
    exact .inr ⟨ht,hc⟩

/-- A step of a thread inside of `sendEventSync`. -/
theorem Synced.setClient [DecidableEq T] (hs : s.Synced) (hc : s.clients t = some (h,p))
    (p' : ClientPhase) {lock : Option (LockOwner T)}
    (hplaced : ∀ r, s.holders h = some r → s.Placed h r p → s.Placed h r p')
    (hlock : p'.locks = true → lock = some (.client t))
    (hothers : ∀ w, w ≠ .client t → s.mSyncLock = some w → lock = some w) :
    (s.setClient t h p' lock).Synced := by
  -- the others are where they were
  have hclient (t' : T) (h' : ℕ) (q : ClientPhase)
      (hc' : (s.setClient t h p' lock).clients t' = some (h',q)) :
      t' = t ∧ h' = h ∧ q = p' ∨ t' ≠ t ∧ s.clients t' = some (h',q) := by
    refine (update_eq_some hc').imp (And.imp id ?_) id
    rintro ⟨⟩
    exact ⟨rfl,rfl⟩
  have hback (h' : ℕ) : (∃ t p, s.clients t = some (h',p)) →
      ∃ t' q, (s.setClient t h p' lock).clients t' = some (h',q) := by
    rintro ⟨t',q,hc'⟩
    by_cases ht : t' = t
    · subst ht
      obtain ⟨rfl,-⟩ := Prod.mk.inj (Option.some.inj (hc.symm.trans hc'))
      exact ⟨t',p',Function.update_self _ _ _⟩
    · exact ⟨t',q,(Function.update_of_ne ht _ _).trans hc'⟩
  constructor
  case counted =>
    exact hs.counted
  case served =>
    intro t' h' q hc'
    rcases hclient t' h' q hc' with ⟨rfl,rfl,rfl⟩ | ⟨-,hc'⟩
    · obtain ⟨r,priority,hr,ho,hp⟩ := hs.served t' h' p hc
      exact ⟨r,priority,hr,ho,hplaced r hr hp⟩
    · exact hs.served t' h' q hc'
  case clientOf =>
    intro ev hid
    exact hback ev (hs.clientOf ev hid)
  case distinct =>
    intro t₁ t₂ h' q₁ q₂ hc₁ hc₂
    rcases hclient t₁ h' q₁ hc₁ with ⟨ht₁,hh₁,-⟩ | ⟨-,hold₁⟩ <;>
      rcases hclient t₂ h' q₂ hc₂ with ⟨ht₂,hh₂,-⟩ | ⟨-,hold₂⟩
    · rw [ht₁, ht₂]
    · rw [ht₁]
      exact hs.distinct _ _ _ _ _ (hh₁ ▸ hc) hold₂
    · rw [ht₂]
      exact hs.distinct _ _ _ _ _ hold₁ (hh₂ ▸ hc)
    · exact hs.distinct _ _ _ _ _ hold₁ hold₂
  case locked =>
    intro t' h' q hc' hq
    rcases hclient t' h' q hc' with ⟨rfl,-,rfl⟩ | ⟨ht,hc'⟩
    · exact hlock hq
    · apply hothers
      · rintro ⟨⟩
        exact ht rfl
      · exact hs.locked t' h' q hc' hq
  case threadLocked =>
    intro hl
    exact hothers _ (by rintro ⟨⟩) (hs.threadLocked hl)
  case typed =>
    exact hs.typed
  case returned =>
    intro h' hh
    obtain ⟨hdone,hnot⟩ := hs.returned h' hh
    refine ⟨hdone,fun t' q hc' => ?_⟩
    rcases hclient t' h' q hc' with ⟨rfl,rfl,-⟩ | ⟨-,hc'⟩
    · exact hnot t' p hc
    · exact hnot t' q hc'
  case made =>
    intro h' r hr
    exact (hs.made h' r hr).imp id (hback h')
  case fresh =>
    exact hs.fresh

/-- Everyone who waits is woken. -/
theorem Synced.broadcast (hs : s.Synced) (hthread : s.thread = .broadcasting) :
    { s with clients := wake s.clients, thread := .polling }.Synced := by
  -- a client is where it was, or has been woken
  have hclient (t : T) (h : ℕ) (q : ClientPhase) (hc : wake s.clients t = some (h,q)) :
      ∃ p, s.clients t = some (h,p) ∧ q = if p = .waiting then .woken else p := by
    rw [wake, Option.map_eq_some_iff] at hc
    obtain ⟨⟨h',p⟩,hc,heq⟩ := hc
    split at heq <;> obtain ⟨rfl,rfl⟩ := Prod.mk.inj heq
    · rename_i hp
      exact ⟨p,hc,by rw [if_pos hp]⟩
    · rename_i hp
      exact ⟨p,hc,by rw [if_neg hp]⟩
  have hback (h : ℕ) : (∃ t p, s.clients t = some (h,p)) → ∃ t q, wake s.clients t = some (h,q) := by
    rintro ⟨t,p,hc⟩
    by_cases hp : p = .waiting
    · exact ⟨t,.woken,by simp [wake, hc, hp]⟩
    · exact ⟨t,p,by simp [wake, hc, hp]⟩
  have hheld : { s with clients := wake s.clients, thread := .polling }.held = s.held := by
    simp only [held, hthread, LoopPhase.hand]
  constructor
  case counted =>
    rw [hheld]
    exact hs.counted
  case served =>
    intro t h q hc
    obtain ⟨p,hold,rfl⟩ := hclient t h q hc
    obtain ⟨r,priority,hr,ho,hp⟩ := hs.served t h p hold
    refine ⟨r,priority,hr,ho,?_⟩
    have hmoved (p' : ClientPhase) (hne : p' ≠ .waiting) (hp' : s.Placed h r p') :
        { s with clients := wake s.clients, thread := .polling }.Placed h r p' :=
      hp'.transfer (by rw [hheld]) (by rw [hthread]; exact .rfl) rfl (fun hw => absurd hw hne)
    split
    · apply hmoved _ (by decide)
      exact hp.cases
    · rename_i hne
      exact hmoved p hne hp
  case clientOf =>
    intro ev hid
    exact hback ev (hs.clientOf ev hid)
  case distinct =>
    intro t₁ t₂ h q₁ q₂ hc₁ hc₂
    obtain ⟨p₁,hc₁,-⟩ := hclient t₁ h q₁ hc₁
    obtain ⟨p₂,hc₂,-⟩ := hclient t₂ h q₂ hc₂
    exact hs.distinct _ _ _ _ _ hc₁ hc₂
  case locked =>
    intro t h q hc hq
    obtain ⟨p,hold,rfl⟩ := hclient t h q hc
    apply hs.locked t h p hold
    split at hq
    · cases hq
    · exact hq
  case threadLocked =>
    rintro ⟨⟩
  case typed =>
    trivial
  case returned =>
    intro h hh
    obtain ⟨hdone,hnot⟩ := hs.returned h hh
    refine ⟨hdone,fun t q hc => ?_⟩
    obtain ⟨p,hc,-⟩ := hclient t h q hc
    exact hnot t p hc
  case made =>
    intro h r hr
    exact (hs.made h r hr).imp id (hback h)
  case fresh =>
    exact hs.fresh

theorem Synced.free_of (hs : s.Synced) (hfree : s.Free ev) :
    s.mQueue.events ev = none ∧ s.holders ev = none ∧ s.held.count ev = 0 := by
  have hnone : s.mQueue.events ev = none := Option.isNone_iff_eq_none.mp hfree.1
  have hcounted := hs.counted ev
  simp only [refs, hnone, Option.map_none, Option.getD_none] at hcounted
  exact ⟨hnone,Option.isNone_iff_eq_none.mp hfree.2,by omega⟩

theorem Synced.ne_of_free (hs : s.Synced) (hfree : s.Free ev) (hc : s.clients t = some (h,p)) :
    h ≠ ev := by
  rintro rfl
  obtain ⟨r,priority,hr,-⟩ := hs.served t h p hc
  cases (hs.free_of hfree).2.1.symm.trans hr

theorem Synced.create (hs : s.Synced) (ev : ℕ) (o : Event) : (s.create ev o).Synced := by
  unfold EventDispatcher.create
  split_ifs with hok
  swap
  · exact hs
  obtain ⟨hfree,hid,hcount⟩ := hok
  obtain ⟨-,-,hheld⟩ := hs.free_of hfree
  have hsync : ∀ x, idOf (Function.update s.mQueue.events ev (some o)) x = kSyncEventId →
      idOf s.mQueue.events x = kSyncEventId := by
    intro x hx
    by_cases hxe : x = ev
    · subst hxe
      simp only [idOf, Function.update_self, Option.map_some, Option.getD_some] at hx
      exact absurd hx hid
    · rwa [idOf, Function.update_of_ne hxe] at hx
  refine hs.frame rfl rfl hsync ?_ ?_ (fun _ _ => ⟨rfl,rfl⟩) (fun _ h => h) hs.threadLocked ?_
  · intro x
    rw [refs_update]
    split_ifs with hxe
    · subst hxe
      have hzero : (s.held.count x : ℤ) = 0 := by exact_mod_cast hheld
      exact hzero.trans_le hcount
    · exact hs.counted x
  · intro t h p r hc hr hp
    exact ⟨Function.update_of_ne (hs.ne_of_free hfree hc) _ _,r,hr,hp⟩
  · exact hs.typed_of _ (fun x _ => hsync x)
      (fun t h p hc _ => ⟨Function.update_of_ne (hs.ne_of_free hfree hc) _ _,rfl⟩) hs.typed

theorem Synced.sendEvent (hs : s.Synced) (ev : ℕ) : ∃ s', s.sendEvent ev = .ok s' ∧ s'.Synced := by
  unfold EventDispatcher.sendEvent
  cases ho : s.mQueue.events ev with
  | none => exact ⟨s,rfl,hs⟩
  | some o =>
    by_cases hok : o.mEventId = kSyncEventId ∨ 2^31-1 ≤ o.mRefCount
    · exact ⟨s,if_pos hok,hs⟩
    · obtain ⟨hid,hfits⟩ := not_or.mp hok
      obtain ⟨q,hsend,hb,hperm⟩ := sendEvent_perm hs.owns ho (not_le.mp hfits)
      refine ⟨{ s with mQueue := q },by simp only [if_neg hok, hsend, ok_bind],hs.queue hb ?_⟩
      intro t h p hc
      rw [hperm.count_eq, List.count_cons_of_ne]
      rintro rfl
      have hsync := hs.idOf_client hc
      rw [idOf, ho] at hsync
      exact hid hsync

/-- What `SendEvent` does with a new holder. -/
theorem Synced.sendHolder (hs : s.Synced) {holder : ℕ} (hfree : s.Free holder) (priority : ℤ) :
    ∃ q, (EventQueue.mk s.mQueue.mQueue (Function.update s.mQueue.events holder
        (some ⟨kSyncEventId,priority,0⟩))).sendEvent holder = .ok q ∧
      q.mQueue.Perm (holder :: s.mQueue.mQueue) ∧
      q.events holder = some ⟨kSyncEventId,priority,1⟩ ∧
      (∀ x, refs q.events x = refs s.mQueue.events x+if x = holder then 1 else 0) ∧
      (∀ t h p, s.clients t = some (h,p) → q.events h = s.mQueue.events h) ∧
      ∀ x ≠ holder, idOf q.events x = kSyncEventId → idOf s.mQueue.events x = kSyncEventId := by
  obtain ⟨hnone,-,hcount⟩ := hs.free_of hfree
  -- the queue with the new object, which has no reference yet
  generalize hq₀ : EventQueue.mk s.mQueue.mQueue (Function.update s.mQueue.events holder
    (some ⟨kSyncEventId,priority,0⟩)) = q₀
  have hqueue : q₀.mQueue = s.mQueue.mQueue := by rw [← hq₀]
  have ho : q₀.events holder = some ⟨kSyncEventId,priority,0⟩ := by
    rw [← hq₀]
    exact Function.update_self _ _ _
  have hother (x : ℕ) (hx : x ≠ holder) : q₀.events x = s.mQueue.events x := by
    rw [← hq₀]
    exact Function.update_of_ne hx _ _
  have hrefs₀ (x : ℕ) : refs q₀.events x = refs s.mQueue.events x := by
    by_cases hx : x = holder
    · rw [hx, refs_of_some ho, refs, hnone]
      rfl
    · rw [refs, hother x hx, refs]
  have howns : q₀.Owns q₀.events (fun x => refs q₀.events x-q₀.mQueue.count x) := by
    refine ⟨fun x ox hx => by simp [idOf, priorityOf, hx],fun x => ?_,fun x => by omega⟩
    have hx := hs.counted x
    rw [held_count] at hx
    rw [hrefs₀, hqueue]
    omega
  obtain ⟨q,hsend,hb,hperm⟩ := sendEvent_perm howns ho (by norm_num)
  have hrefs (x : ℕ) : refs q.events x = refs s.mQueue.events x+if x = holder then 1 else 0 := by
    rw [hb.counted, hperm.count_eq, List.count_cons, hrefs₀]
    simp only [beq_iff_eq, eq_comm (a := holder)]
    push_cast
    omega
  refine ⟨q,hsend,by rwa [hqueue] at hperm,?_,hrefs,?_,?_⟩
  · have hone : refs q.events holder = 1 := by
      rw [hrefs, if_pos rfl, refs, hnone]
      rfl
    rw [event_eq hb.same ho (by rw [hone]; exact Int.one_pos), hone]
  · intro t h p hc
    have hne := hs.ne_of_free hfree hc
    obtain ⟨r,priority',-,ho',-⟩ := hs.served t h p hc
    rw [ho']
    apply Balanced.event_eq hb ((hother h hne).trans ho') Int.one_pos
    rw [hperm.count_eq, List.count_cons_of_ne (Ne.symm hne)]
  · intro x hx hid
    have hid₀ := idOf_sync hb.same hid
    rwa [idOf, hother x hx] at hid₀

/-- A call begins: its holder is queued, and has one reference. -/
theorem Synced.sendEventSync [DecidableEq T] (hs : s.Synced) (t : T) (ev : ℕ) (priority : ℤ)
    (holder : ℕ) : ∃ s', s.sendEventSync t ev priority holder = .ok s' ∧ s'.Synced := by
  unfold EventDispatcher.sendEventSync
  by_cases hok : s.clients t = none ∧ s.Free holder
  swap
  · exact ⟨s,if_neg hok,hs⟩
  obtain ⟨hidle,hfree⟩ := hok
  obtain ⟨-,hholder,hcount⟩ := hs.free_of hfree
  obtain ⟨q,hsend,hperm,ho,hrefs,hevents,hsync⟩ := hs.sendHolder hfree priority
  have hhand : holder ∉ s.thread.hand := by
    intro hmem
    have hpos := List.count_pos_iff.mpr hmem
    rw [held_count] at hcount
    omega
  refine ⟨{ s with
    mQueue := q
    holders := Function.update s.holders holder (some { mRealEvent := ev, mDone := false })
    clients := Function.update s.clients t (some (holder,.sent)) },?_,?_⟩
  · simp only [if_pos (And.intro hidle hfree), hsend, ok_bind]
  have hheld (x : ℕ) : (q.mQueue ++ s.thread.hand).count x =
      s.held.count x+if x = holder then 1 else 0 := by
    rw [held_count, List.count_append, hperm.count_eq, List.count_cons]
    simp only [beq_iff_eq, eq_comm (a := holder)]
    exact Nat.add_right_comm _ _ _
  -- a client is the one whose call begins, or was one before
  have hclient {t' : T} {h : ℕ} {p : ClientPhase}
      (hc : Function.update s.clients t (some (holder,.sent)) t' = some (h,p)) :
      t' = t ∧ h = holder ∧ p = .sent ∨ t' ≠ t ∧ s.clients t' = some (h,p) := by
    refine (update_eq_some hc).imp (And.imp id ?_) id
    rintro ⟨⟩
    exact ⟨rfl,rfl⟩
  have hback (h : ℕ) : (∃ t' p, s.clients t' = some (h,p)) →
      ∃ t' p, Function.update s.clients t (some (holder,.sent)) t' = some (h,p) := by
    rintro ⟨t',p,hc⟩
    refine ⟨t',p,(Function.update_of_ne ?_ _ _).trans hc⟩
    rintro rfl
    cases hidle.symm.trans hc
  constructor
  case counted =>
    intro x
    have hx := hs.counted x
    simp only [held, hrefs]
    rw [hheld]
    push_cast
    omega
  case served =>
    intro t' h p hc
    rcases hclient hc with ⟨-,rfl,rfl⟩ | ⟨-,hc⟩
    · refine ⟨_,priority,Function.update_self _ _ _,ho,.inl ⟨rfl,?_,?_⟩⟩
      · simp [held, hperm.mem_iff]
      · have hafter : s.thread.after ≠ some h :=
          fun hafter => hhand (LoopPhase.mem_hand_of_after hafter)
        rw [if_neg hafter]
        exact hs.fresh h hholder
    · have hne := hs.ne_of_free hfree hc
      obtain ⟨r,priority',hr,ho',hp⟩ := hs.served t' h p hc
      refine ⟨r,priority',(Function.update_of_ne hne _ _).trans hr,(hevents t' h p hc).trans ho',
        hp.transfer ?_ .rfl rfl (fun _ => id)⟩
      simp [held, hperm.mem_iff, hne]
  case clientOf =>
    intro x hid
    by_cases hx : x = holder
    · exact ⟨t,.sent,hx ▸ Function.update_self _ _ _⟩
    · exact hback x (hs.clientOf x (hsync x hx hid))
  case distinct =>
    intro t₁ t₂ h p₁ p₂ hc₁ hc₂
    rcases hclient hc₁ with ⟨ht₁,hh₁,-⟩ | ⟨-,hold₁⟩ <;>
      rcases hclient hc₂ with ⟨ht₂,hh₂,-⟩ | ⟨-,hold₂⟩
    · rw [ht₁, ht₂]
    · exact absurd hh₁ (hs.ne_of_free hfree hold₂)
    · exact absurd hh₂ (hs.ne_of_free hfree hold₁)
    · exact hs.distinct _ _ _ _ _ hold₁ hold₂
  case locked =>
    intro t' h p hc hp
    rcases hclient hc with ⟨-,-,rfl⟩ | ⟨-,hc⟩
    · cases hp
    · exact hs.locked t' h p hc hp
  case threadLocked =>
    exact hs.threadLocked
  case typed =>
    apply hs.typed_of _ _ _ hs.typed
    · rintro x hx
      apply hsync x
      rintro rfl
      exact hhand hx
    · intro t' h p hc _
      exact ⟨hevents t' h p hc,Function.update_of_ne (hs.ne_of_free hfree hc) _ _⟩
  case returned =>
    intro h hh
    obtain ⟨⟨r,hr,hdone,hd⟩,hnot⟩ := hs.returned h hh
    have hne : h ≠ holder := by
      rintro rfl
      cases hholder.symm.trans hr
    refine ⟨⟨r,(Function.update_of_ne hne _ _).trans hr,hdone,hd⟩,fun t' p hc => ?_⟩
    rcases hclient hc with ⟨-,hh,-⟩ | ⟨-,hc⟩
    · exact hne hh
    · exact hnot t' p hc
  case made =>
    intro h r hr
    by_cases hh : h = holder
    · exact .inr ⟨t,.sent,hh ▸ Function.update_self _ _ _⟩
    · exact (hs.made h r ((Function.update_of_ne hh _ _).symm.trans hr)).imp id (hback h)
  case fresh =>
    intro h hh
    have hne : h ≠ holder := by
      rintro rfl
      cases hh.symm.trans (Function.update_self _ _ _)
    exact hs.fresh h ((Function.update_of_ne hne _ _).symm.trans hh)

/-- A call returns, and its holder is gone. -/
theorem Synced.return [DecidableEq T] (hs : s.Synced) (hc : s.clients t = some (h,.returning)) :
    { s with
      mQueue := { s.mQueue with events := Function.update s.mQueue.events h none }
      clients := Function.update s.clients t none
      returned := s.returned ++ [h] }.Synced := by
  obtain ⟨r,priority,hr,-,hdone,hheld,hd⟩ := hs.served t h _ hc
  -- the clients that are left have other holders
  have hclient {t' : T} {h' : ℕ} {p : ClientPhase}
      (hc' : Function.update s.clients t none t' = some (h',p)) :
      t' ≠ t ∧ h' ≠ h ∧ s.clients t' = some (h',p) := by
    obtain ⟨-,hnone⟩ | ⟨ht,hc'⟩ := update_eq_some hc'
    · cases hnone
    · refine ⟨ht,?_,hc'⟩
      rintro rfl
      exact ht (hs.distinct _ _ _ _ _ hc' hc)
  have hback (h' : ℕ) (hne : h' ≠ h) : (∃ t' p, s.clients t' = some (h',p)) →
      ∃ t' p, Function.update s.clients t none t' = some (h',p) := by
    rintro ⟨t',p,hc'⟩
    refine ⟨t',p,(Function.update_of_ne ?_ _ _).trans hc'⟩
    rintro rfl
    exact hne (Prod.mk.inj (Option.some.inj (hc'.symm.trans hc))).1
  have hsync (x : ℕ) (hid : idOf (Function.update s.mQueue.events h none) x = kSyncEventId) :
      x ≠ h ∧ idOf s.mQueue.events x = kSyncEventId := by
    by_cases hx : x = h
    · rw [hx, idOf, Function.update_self] at hid
      exact absurd hid (by decide)
    · rw [idOf, Function.update_of_ne hx] at hid
      exact ⟨hx,hid⟩
  constructor
  case counted =>
    intro x
    simp only
    rw [refs_update]
    split_ifs with hx
    · have hzero : (s.held.count x : ℤ) = 0 := by
        rw [hx]
        exact_mod_cast List.count_eq_zero.mpr hheld
      exact hzero.le
    · exact hs.counted x
  case served =>
    intro t' h' p hc'
    obtain ⟨-,hne,hold⟩ := hclient hc'
    obtain ⟨r',priority',hr',ho',hp⟩ := hs.served t' h' p hold
    exact ⟨r',priority',hr',(Function.update_of_ne hne _ _).trans ho',hp⟩
  case clientOf =>
    intro x hid
    obtain ⟨hne,hid⟩ := hsync x hid
    exact hback x hne (hs.clientOf x hid)
  case distinct =>
    intro t₁ t₂ h' p₁ p₂ hc₁ hc₂
    exact hs.distinct _ _ _ _ _ (hclient hc₁).2.2 (hclient hc₂).2.2
  case locked =>
    intro t' h' p hc' hp
    exact hs.locked t' h' p (hclient hc').2.2 hp
  case threadLocked =>
    exact hs.threadLocked
  case typed =>
    apply hs.typed_of _ (fun x _ hid => (hsync x hid).2) _ hs.typed
    intro t' h' p hc' hmem
    refine ⟨Function.update_of_ne ?_ _ _,rfl⟩
    rintro rfl
    exact hheld (List.mem_append_right _ hmem)
  case returned =>
    intro h' hh
    rw [List.mem_append, List.mem_singleton] at hh
    rcases hh with hh | rfl
    · obtain ⟨hdone',hnot⟩ := hs.returned h' hh
      exact ⟨hdone',fun t' p hc' => hnot t' p (hclient hc').2.2⟩
    · exact ⟨⟨r,hr,hdone,hd⟩,fun t' p hc' => (hclient hc').2.1 rfl⟩
  case made =>
    intro h' r' hr'
    rw [List.mem_append, List.mem_singleton]
    by_cases hh : h' = h
    · exact .inl (.inr hh)
    · exact (hs.made h' r' hr').imp .inl (hback h' hh)
  case fresh =>
    exact hs.fresh

end Frames

end EventDispatcher

end JhCommon
