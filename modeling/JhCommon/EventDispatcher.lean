import JhCommon.EventQueue

/-! The dispatcher of `EventDispatcher.cpp` with the loop of `EventThread.cpp`, and the threads that
call `sendEventSync` on it. A step is what one thread does between two points at which another one
can be seen: a call on the queue, a lock, a look at a flag. -/
namespace JhCommon

def kShutdownEventId : ℤ := -2
def kSyncEventId : ℤ := -3

/-- What a SyncEventHolder has beside its Event. It lives on the stack of the thread that sends. -/
structure SyncEventHolder where
  mRealEvent : ℕ
  mDone : Bool

/-- Where a thread is in `sendEventSync`, from the send on. -/
inductive ClientPhase
  | sent
  | testing
  | unready
  | waiting
  | woken
  | ready
  | returning
  deriving DecidableEq

/-- The thread is inside of the critical section of mSyncLock. -/
def ClientPhase.locks : ClientPhase → Bool
  | .testing | .unready | .ready => true
  | _ => false

/-- Where the dispatcher's thread is: in the loop, in `handleEvent` or in `handleSyncEvent`. -/
inductive LoopPhase
  | polling
  | handling (ev : ℕ)
  | dispatching (ev : ℕ)
  | dispatchingSync (holder realEvent : ℕ)
  | locking (holder : ℕ)
  | marking (holder : ℕ)
  | unlocking
  | broadcasting
  | releasing (ev : ℕ) (done : Bool)
  | stopped
  deriving DecidableEq

namespace LoopPhase

/-- The event that the thread has taken from the queue and is not through with. -/
def hand : LoopPhase → List ℕ
  | .handling ev | .dispatching ev | .releasing ev _ => [ev]
  | .dispatchingSync holder _ | .locking holder | .marking holder => [holder]
  | _ => []

def locks : LoopPhase → Bool
  | .marking _ | .unlocking => true
  | _ => false

/-- A listener or an agent is running, and can call the dispatcher. -/
def listening : LoopPhase → Bool
  | .dispatching _ | .dispatchingSync _ _ => true
  | _ => false

/-- A flag is set, and its broadcast is still to come. -/
def waking : LoopPhase → Bool
  | .unlocking | .broadcasting => true
  | _ => false

end LoopPhase

inductive LockOwner (T : Type)
  | dispatcher
  | client (t : T)
  deriving DecidableEq

/-- Holders have addresses of their own for ever. The last two fields record what happened: the
events that were dispatched for each holder, and the holders whose call returned. -/
structure EventDispatcher (T : Type) where
  mQueue : EventQueue
  holders : ℕ → Option SyncEventHolder
  mSyncLock : Option (LockOwner T)
  thread : LoopPhase
  clients : T → Option (ℕ × ClientPhase)
  dispatched : ℕ → List ℕ
  returned : List ℕ

/-- What happens next. `create` makes an ordinary event, that someone may hold references to,
`client` and `thread` are the next step of a thread inside of a call, and `wakeup` is a wakeup that
nobody asked for. -/
inductive DispatcherAction (T : Type)
  | create (ev : ℕ) (o : Event)
  | sendEvent (ev : ℕ)
  | sendEventSync (t : T) (ev : ℕ) (priority : ℤ) (holder : ℕ)
  | client (t : T)
  | wakeup (t : T)
  | thread
  | removeId (id : ℤ)
  | removeEvent (ev : ℕ)
  | removeAll

namespace EventDispatcher
variable {T : Type} [DecidableEq T]

def init : EventDispatcher T :=
  { mQueue := ⟨[],fun _ => none⟩, holders := fun _ => none, mSyncLock := none, thread := .polling
    clients := fun _ => none, dispatched := fun _ => [], returned := [] }

/-- A look into a holder, as long as it exists. -/
def holder (s : EventDispatcher T) (h : ℕ) : Exec SyncEventHolder := do
  let _ ← s.mQueue.event h
  match s.holders h with
  | none => .error .nullDeref
  | some r => .ok r

/-- An address that nothing is at, or was that a holder had. -/
def Free (s : EventDispatcher T) (ev : ℕ) : Prop :=
  (s.mQueue.events ev).isNone = true ∧ (s.holders ev).isNone = true

instance (s : EventDispatcher T) (ev : ℕ) : Decidable (s.Free ev) :=
  inferInstanceAs (Decidable (_ ∧ _))

def create (s : EventDispatcher T) (ev : ℕ) (o : Event) : EventDispatcher T :=
  if s.Free ev ∧ o.mEventId ≠ kSyncEventId ∧ 0 ≤ o.mRefCount then
    { s with mQueue := { s.mQueue with events := Function.update s.mQueue.events ev (some o) } }
  else s

/-- Ordinary events are sent while they exist, and have room in their count for a reference. Ids of
holders are not for them. -/
def sendEvent (s : EventDispatcher T) (ev : ℕ) : Exec (EventDispatcher T) :=
  match s.mQueue.events ev with
  | none => .ok s
  | some o =>
    if o.mEventId = kSyncEventId ∨ 2^31-1 ≤ o.mRefCount then .ok s
    else do
      let q ← s.mQueue.sendEvent ev
      .ok { s with mQueue := q }

/-- The call begins: the holder is made, which nobody sees before it is in the queue. The thread is
not the dispatcher's own one, for which the call ends fatally. -/
def sendEventSync (s : EventDispatcher T) (t : T) (ev : ℕ) (priority : ℤ) (holder : ℕ) :
    Exec (EventDispatcher T) :=
  if s.clients t = none ∧ s.Free holder then do
    let o : Event := { mEventId := kSyncEventId, mPriority := priority, mRefCount := 0 }
    let q ← { s.mQueue with
      events := Function.update s.mQueue.events holder (some o) }.sendEvent holder
    .ok { s with
      mQueue := q
      holders := Function.update s.holders holder (some { mRealEvent := ev, mDone := false })
      clients := Function.update s.clients t (some (holder,.sent)) }
  else .ok s

def setClient (s : EventDispatcher T) (t : T) (h : ℕ) (p : ClientPhase)
    (lock : Option (LockOwner T)) : EventDispatcher T :=
  { s with clients := Function.update s.clients t (some (h,p)), mSyncLock := lock }

/-- The rest of `sendEventSync`, up to the end of the holder. -/
def clientStep (s : EventDispatcher T) (t : T) : Exec (EventDispatcher T) :=
  match s.clients t with
  | none => .ok s
  | some (h,.sent) | some (h,.woken) =>
    if s.mSyncLock = none then .ok (s.setClient t h .testing (some (.client t))) else .ok s
  | some (h,.testing) => do
    let r ← s.holder h
    .ok (s.setClient t h (if r.mDone = false then .unready else .ready) s.mSyncLock)
  | some (h,.unready) => .ok (s.setClient t h .waiting none)
  | some (_,.waiting) => .ok s
  | some (h,.ready) => .ok (s.setClient t h .returning none)
  | some (h,.returning) => do
    let _ ← s.mQueue.event h
    .ok { s with
      mQueue := { s.mQueue with events := Function.update s.mQueue.events h none }
      clients := Function.update s.clients t none
      returned := s.returned ++ [h] }

def wakeup (s : EventDispatcher T) (t : T) : EventDispatcher T :=
  match s.clients t with
  | some (h,.waiting) => s.setClient t h .woken s.mSyncLock
  | _ => s

/-- `handleEvent` up to the point where it dispatches, or has removed everything. -/
def handleEvent (s : EventDispatcher T) (ev : ℕ) : Exec (EventDispatcher T) := do
  let o ← s.mQueue.event ev
  if o.mEventId = kShutdownEventId then do
    let q ← s.mQueue.flush
    .ok { s with mQueue := q, thread := .releasing ev true }
  else if o.mEventId = kSyncEventId then do
    let r ← s.holder ev
    .ok { s with thread := .dispatchingSync ev r.mRealEvent }
  else .ok { s with thread := .dispatching ev }

/-- Everyone who waits is woken. -/
def wake (clients : T → Option (ℕ × ClientPhase)) (t : T) : Option (ℕ × ClientPhase) :=
  (clients t).map fun c => if c.2 = .waiting then (c.1,.woken) else c

def threadStep (s : EventDispatcher T) : Exec (EventDispatcher T) :=
  match s.thread with
  | .polling =>
    match s.mQueue.pollEvent with
    | (none,_) => .ok s
    | (some ev,q) => .ok { s with mQueue := q, thread := .handling ev }
  | .handling ev => s.handleEvent ev
  | .dispatching ev => .ok { s with thread := .releasing ev false }
  | .releasing ev done => do
    let q ← s.mQueue.release ev
    .ok { s with mQueue := q, thread := if done = true then .stopped else .polling }
  | .dispatchingSync h realEvent =>
    .ok { s with
      dispatched := Function.update s.dispatched h (s.dispatched h ++ [realEvent])
      thread := .locking h }
  | .locking h =>
    if s.mSyncLock = none then .ok { s with mSyncLock := some .dispatcher, thread := .marking h }
    else .ok s
  | .marking h => do
    let r ← s.holder h
    .ok { s with
      holders := Function.update s.holders h (some { r with mDone := true })
      thread := .unlocking }
  | .unlocking => .ok { s with mSyncLock := none, thread := .broadcasting }
  | .broadcasting => .ok { s with clients := wake s.clients, thread := .polling }
  | .stopped => .ok s

/-- A removal. It is done on the dispatcher's thread, by a listener or by the agent that another
thread sends. -/
def remove (s : EventDispatcher T) (call : EventQueue → Exec EventQueue) :
    Exec (EventDispatcher T) :=
  if s.thread.listening = true then do
    let q ← call s.mQueue
    .ok { s with mQueue := q }
  else .ok s

def next (s : EventDispatcher T) : DispatcherAction T → Exec (EventDispatcher T)
  | .create ev o => .ok (s.create ev o)
  | .sendEvent ev => s.sendEvent ev
  | .sendEventSync t ev priority holder => s.sendEventSync t ev priority holder
  | .client t => s.clientStep t
  | .wakeup t => .ok (s.wakeup t)
  | .thread => s.threadStep
  | .removeId id => s.remove (·.removeId id)
  | .removeEvent ev => s.remove (·.removeEvent ev)
  | .removeAll => s.remove EventQueue.flush

def step (s : EventDispatcher T) (a : DispatcherAction T) : Exec (Unit × EventDispatcher T) := do
  let s ← s.next a
  .ok ((),s)

end EventDispatcher

namespace EventDispatcher

section Moves
variable {T : Type} {s s' : EventDispatcher T}

theorem holder_eq_ok {h : ℕ} {r : SyncEventHolder} (hr : s.holder h = .ok r) : s.holders h = some r := by
  obtain ⟨-,-,hrest⟩ := bind_eq_ok.mp hr
  cases hh : s.holders h with
  | none => simp [hh] at hrest
  | some r' =>
    rw [hh] at hrest
    rw [Except.ok.inj hrest]

/-- What a step of the dispatcher's thread comes to. An event in hand is a shutdown, for which the
queue is emptied, or a holder, or an ordinary one. -/
inductive LoopMoves (s : EventDispatcher T) : EventDispatcher T → Prop
  | rests (h : s.thread.hand = [] ∨ ∃ holder, s.thread = .locking holder) : LoopMoves s s
  | takes {ev : ℕ} {rest : List ℕ} (h : s.thread = .polling) (hqueue : s.mQueue.mQueue = ev :: rest) :
    LoopMoves s { s with mQueue := { s.mQueue with mQueue := rest }, thread := .handling ev }
  | flushes {ev : ℕ} {q : EventQueue} {o : Event} (h : s.thread = .handling ev)
    (hflush : s.mQueue.flush = .ok q) (ho : s.mQueue.event ev = .ok o)
    (hid : o.mEventId = kShutdownEventId) :
    LoopMoves s { s with mQueue := q, thread := .releasing ev true }
  | unpacks {ev : ℕ} {r : SyncEventHolder} (h : s.thread = .handling ev) (hr : s.holder ev = .ok r) :
    LoopMoves s { s with thread := .dispatchingSync ev r.mRealEvent }
  | hands {ev : ℕ} (h : s.thread = .handling ev) : LoopMoves s { s with thread := .dispatching ev }
  | handled {ev : ℕ} (h : s.thread = .dispatching ev) :
    LoopMoves s { s with thread := .releasing ev false }
  | releases {ev : ℕ} {done : Bool} {q : EventQueue} (h : s.thread = .releasing ev done)
    (hrelease : s.mQueue.release ev = .ok q) :
    LoopMoves s { s with mQueue := q, thread := if done = true then .stopped else .polling }
  | delivers {holder realEvent : ℕ} (h : s.thread = .dispatchingSync holder realEvent) :
    LoopMoves s { s with
      dispatched := Function.update s.dispatched holder (s.dispatched holder ++ [realEvent])
      thread := .locking holder }
  | locks {holder : ℕ} (h : s.thread = .locking holder) (hlock : s.mSyncLock = none) :
    LoopMoves s { s with mSyncLock := some .dispatcher, thread := .marking holder }
  | marks {holder : ℕ} {r : SyncEventHolder} (h : s.thread = .marking holder)
    (hr : s.holder holder = .ok r) :
    LoopMoves s { s with
      holders := Function.update s.holders holder (some { r with mDone := true })
      thread := .unlocking }
  | unlocks (h : s.thread = .unlocking) : LoopMoves s { s with mSyncLock := none, thread := .broadcasting }
  | wakes (h : s.thread = .broadcasting) :
    LoopMoves s { s with clients := wake s.clients, thread := .polling }

theorem handleEvent_moves {ev : ℕ} (hthread : s.thread = .handling ev) (h : s.handleEvent ev = .ok s') :
    LoopMoves s s' := by
  obtain ⟨o,ho,hrest⟩ := bind_eq_ok.mp h
  by_cases hshutdown : o.mEventId = kShutdownEventId
  · rw [if_pos hshutdown] at hrest
    obtain ⟨q,hflush,hs'⟩ := bind_eq_ok.mp hrest
    rw [← Except.ok.inj hs']
    exact .flushes hthread hflush ho hshutdown
  · rw [if_neg hshutdown] at hrest
    by_cases hsync : o.mEventId = kSyncEventId
    · rw [if_pos hsync] at hrest
      obtain ⟨r,hr,hs'⟩ := bind_eq_ok.mp hrest
      rw [← Except.ok.inj hs']
      exact .unpacks hthread hr
    · rw [if_neg hsync] at hrest
      rw [← Except.ok.inj hrest]
      exact .hands hthread

theorem threadStep_moves (h : s.threadStep = .ok s') : LoopMoves s s' := by
  unfold threadStep at h
  cases hthread : s.thread with
  | polling =>
    simp only [hthread, EventQueue.pollEvent] at h
    cases hqueue : s.mQueue.mQueue with
    | nil =>
      simp only [hqueue] at h
      rw [← Except.ok.inj h]
      exact .rests (.inl (by rw [hthread]; rfl))
    | cons ev rest =>
      simp only [hqueue] at h
      rw [← Except.ok.inj h]
      exact .takes hthread hqueue
  | handling ev =>
    rw [hthread] at h
    exact handleEvent_moves hthread h
  | releasing ev done =>
    rw [hthread] at h
    obtain ⟨q,hrelease,hs'⟩ := bind_eq_ok.mp h
    rw [← Except.ok.inj hs']
    exact .releases hthread hrelease
  | marking holder =>
    rw [hthread] at h
    obtain ⟨r,hr,hs'⟩ := bind_eq_ok.mp h
    rw [← Except.ok.inj hs']
    exact .marks hthread hr
  | locking holder =>
    simp only [hthread] at h
    by_cases hlock : s.mSyncLock = none
    · rw [if_pos hlock] at h
      rw [← Except.ok.inj h]
      exact .locks hthread hlock
    · rw [if_neg hlock] at h
      rw [← Except.ok.inj h]
      exact .rests (.inr ⟨holder,hthread⟩)
  | dispatching ev =>
    rw [hthread] at h
    rw [← Except.ok.inj h]
    exact .handled hthread
  | dispatchingSync holder realEvent =>
    rw [hthread] at h
    rw [← Except.ok.inj h]
    exact .delivers hthread
  | unlocking =>
    rw [hthread] at h
    rw [← Except.ok.inj h]
    exact .unlocks hthread
  | broadcasting =>
    rw [hthread] at h
    rw [← Except.ok.inj h]
    exact .wakes hthread
  | stopped =>
    rw [hthread] at h
    rw [← Except.ok.inj h]
    exact .rests (.inl (by rw [hthread]; rfl))

end Moves

end EventDispatcher

end JhCommon
