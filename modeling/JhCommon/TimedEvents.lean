import JhCommon.EventDispatcher
import JhCommon.EventListeners

/-! A dispatcher with its listeners, the timers that send events to it, and the `TimerManager` through
which it removes them. A step is what one thread does between two points at which another one can be
seen: the timers and the manager have mutexes of their own. Dispatchers and timers are known by their
addresses. -/
namespace JhCommon
open Word32

/-- Where a timer's clock thread is in `handleTick`, with the node that it has taken off the list. -/
inductive ClockPhase
  | waiting
  | looking
  | delivering (node : TimerNode)
  | rearming (node : TimerNode)
  deriving DecidableEq

/-- The calls to a timer wait for its mutex, which is recursive: a listener of the timer itself can
make them. -/
def ClockPhase.takesCalls : ClockPhase → Bool
  | .waiting => true
  | .delivering node => decide (node.mEvent = none)
  | _ => false

/-- The mutex of the timer is held all through `handleTick`. -/
structure LiveTimer where
  timer : Timer
  clock : ClockPhase

/-- The removals of a dispatcher. -/
inductive Removal
  | id (eventId : ℤ)
  | event (ev : ℕ)
  | all
  deriving DecidableEq

def EventQueue.getEventId (q : EventQueue) (ev : ℕ) : Exec ℤ := do
  let o ← q.event ev
  .ok o.mEventId

/-- The nodes that a removal names in a timer. -/
def Removal.removeNodes (call : Removal) (q : EventQueue) (address : ℕ) (timer : Timer) :
    Exec (Timer × List TimerNode) :=
  match call with
  | .id eventId => timer.removeTimedEventId q.getEventId eventId (some address)
  | .event ev => timer.removeTimedEvent (some ev)
  | .all => timer.removeTimedEventId q.getEventId kInvalidEventId (some address)

def Removal.removeQueued (call : Removal) (q : EventQueue) : Exec EventQueue :=
  match call with
  | .id eventId => q.removeId eventId
  | .event ev => q.removeEvent ev
  | .all => q.flush

/-- The event is one that a removal is for. -/
def Removal.names (call : Removal) (q : EventQueue) (ev : ℕ) : Bool :=
  match call with
  | .id eventId => (q.events ev).any fun o => o.mEventId = eventId
  | .event ev' => decide (ev = ev')
  | .all => true

/-- A removal is under way on the dispatcher's thread while `removing` has it, with the timers that
are still to be gone through. The last three fields record what happened: the events that were named
by a removal and not sent again since its call, whether the event in the thread's hand was named
since it was sent, and the calls of listeners and agents, with whether their event was. -/
structure TimedDispatcher where
  address : ℕ
  dispatcher : EventDispatcher Empty
  mDispatcher : EventDispatcherHelper
  lookup : LookupPhase
  timers : ℕ → Option LiveTimer
  mTimers : List ℕ
  removing : Option (Removal × List ℕ)
  cancelled : ℕ → Bool
  struck : Bool
  delivered : List (ℕ × Bool)

/-- What happens next. `tick` is the clock thread's call to `handleTick`, and `clock` its next step
there; `thread` is the next one of the dispatcher's thread. A removal is called on that thread by a
listener or an agent, and so are changes of the listeners, unless the thread is not dispatching. -/
inductive TimedAction
  | create (ev : ℕ) (o : Event)
  | sendEvent (ev : ℕ)
  | construct (t : ℕ) (tickTimeMs : ℤ)
  | getTimer (t : ℕ) (tickTimeMs : ℤ)
  | addTimer (t : ℕ)
  | removeTimer (t : ℕ)
  | sendTimedEvent (t : ℕ) (ev dispatcher msecs : ℕ)
  | sendPeriodicEvent (t : ℕ) (ev dispatcher period : ℕ)
  | addListener (t : ℕ) (listener msecs privateData repeatMS : ℕ)
  | tick (t : ℕ)
  | clock (t : ℕ)
  | thread
  | remove (call : Removal)
  | addEventListener (listener : Option ℕ) (event_id : ℤ)
  | removeEventListener (listener : Option ℕ) (event_id : ℤ)

namespace TimedDispatcher

def init (address : ℕ) : TimedDispatcher :=
  { address := address, dispatcher := .init, mDispatcher := .init, lookup := .outside
    timers := fun _ => none, mTimers := [], removing := none, cancelled := fun _ => false
    struck := false, delivered := [] }

def queue (s : TimedDispatcher) : EventQueue := s.dispatcher.mQueue

def setQueue (s : TimedDispatcher) (q : EventQueue) : TimedDispatcher :=
  { s with dispatcher := { s.dispatcher with mQueue := q } }

def setTimer (s : TimedDispatcher) (t : ℕ) (live : LiveTimer) : TimedDispatcher :=
  { s with timers := Function.update s.timers t (some live) }

/-- The events of some nodes lose a reference each. -/
def releaseNodes : EventQueue → List TimerNode → Exec EventQueue
  | q, [] => .ok q
  | q, node :: rest =>
    match node.mEvent with
    | none => releaseNodes q rest
    | some ev => do
      let q ← q.release ev
      releaseNodes q rest

/-- An event that is sent to the dispatcher is not a cancelled one, and neither is a new one. -/
def sent (s : TimedDispatcher) (ev : ℕ) : TimedDispatcher :=
  { s with cancelled := Function.update s.cancelled ev false }

def create (s : TimedDispatcher) (ev : ℕ) (o : Event) : TimedDispatcher :=
  if s.dispatcher.Free ev ∧ o.mEventId ≠ kSyncEventId ∧ 0 ≤ o.mRefCount then
    { s with dispatcher := s.dispatcher.create ev o }.sent ev
  else s

def sendEvent (s : TimedDispatcher) (ev : ℕ) : Exec TimedDispatcher := do
  let q ← s.queue.sendEvent ev
  .ok ((s.setQueue q).sent ev)

/-- The constructor starts the clock thread. Nothing adds the timer to the manager's list. -/
def construct (s : TimedDispatcher) (t : ℕ) (tickTimeMs : ℤ) : TimedDispatcher :=
  if s.timers t = none then s.setTimer t ⟨.init tickTimeMs,.waiting⟩ else s

/-- The manager's mutex is free. -/
def managerFree (s : TimedDispatcher) : Bool :=
  match s.removing with
  | some (_,_ :: _) => false
  | _ => true

/-- A timer of the list is found by its tick time, or a new one is made. -/
def getTimer (s : TimedDispatcher) (t : ℕ) (tickTimeMs : ℤ) : TimedDispatcher :=
  if s.managerFree = true then
    if s.mTimers.any (fun t => (s.timers t).any fun live => (live.timer.mMsPerTick : ℤ) = tickTimeMs)
    then s
    else s.construct t tickTimeMs
  else s

def addTimer (s : TimedDispatcher) (t : ℕ) : TimedDispatcher :=
  if s.managerFree = true ∧ t ∉ s.mTimers then { s with mTimers := s.mTimers ++ [t] } else s

def removeTimer (s : TimedDispatcher) (t : ℕ) : TimedDispatcher :=
  if s.managerFree = true then { s with mTimers := s.mTimers.erase t } else s

/-- `sendTimedEvent` and `sendPeriodicEvent`, with the reference that the node holds. -/
def addEvent (s : TimedDispatcher) (t ev dispatcher msecs repeatMS : ℕ) : Exec TimedDispatcher :=
  match s.timers t with
  | none => .ok s
  | some live =>
    if live.clock.takesCalls = true then do
      let q ← s.queue.addRef ev
      let timer ← live.timer.addEvent (some ev) (some dispatcher) msecs repeatMS
      let s := (s.setQueue q).setTimer t { live with timer := timer }
      .ok (if dispatcher = s.address then s.sent ev else s)
    else .ok s

def addListener (s : TimedDispatcher) (t listener msecs privateData repeatMS : ℕ) :
    Exec TimedDispatcher :=
  match s.timers t with
  | none => .ok s
  | some live =>
    if live.clock.takesCalls = true then do
      let timer ← live.timer.addListener (some listener) msecs privateData repeatMS
      .ok (s.setTimer t { live with timer := timer })
    else .ok s

def tick (s : TimedDispatcher) (t : ℕ) : TimedDispatcher :=
  match s.timers t with
  | some ⟨timer,.waiting⟩ => s.setTimer t ⟨{ timer with mTicks := add32 timer.mTicks 1 },.looking⟩
  | _ => s

/-- A node's event goes to its dispatcher. The queues of other dispatchers are left out. -/
def deliver (s : TimedDispatcher) (node : TimerNode) : Exec TimedDispatcher := do
  let delivery ← Timer.deliver node
  match delivery with
  | .onTimeout _ _ => .ok s
  | .sendEvent dispatcher ev =>
    if dispatcher = s.address then do
      let q ← s.queue.sendEvent ev
      .ok (s.setQueue q)
    else .ok s

/-- The next step of the loop of `handleTick`. -/
def clock (s : TimedDispatcher) (t : ℕ) : Exec TimedDispatcher :=
  match s.timers t with
  | none => .ok s
  | some ⟨timer,.waiting⟩ => .ok (s.setTimer t ⟨timer,.waiting⟩)
  | some ⟨timer,.looking⟩ =>
    match timer.mList with
    | [] => .ok (s.setTimer t ⟨timer,.waiting⟩)
    | node :: rest =>
      if int32 (sub32 node.mTick timer.mTicks) > 0 then .ok (s.setTimer t ⟨timer,.waiting⟩)
      else .ok (s.setTimer t ⟨{ timer with mList := rest },.delivering node⟩)
  | some ⟨timer,.delivering node⟩ => do
    let s ← s.deliver node
    .ok (s.setTimer t ⟨timer,.rearming node⟩)
  | some ⟨timer,.rearming node⟩ => do
    let timer ← timer.rearm node
    -- a node that is not periodic lets go of its event
    let q ← releaseNodes s.queue (if node.mRepeatMS = 0 then [node] else [])
    .ok ((s.setQueue q).setTimer t ⟨timer,.looking⟩)

/-- A removal begins with the manager's mutex. -/
def begin (s : TimedDispatcher) (call : Removal) : TimedDispatcher :=
  { s with removing := some (call,s.mTimers) }

/-- A listener or an agent is running. -/
def listening (s : TimedDispatcher) : Bool :=
  match s.lookup with
  | .inListener _ _ | .inAgent => true
  | .outside | .atNode _ _ => false

/-- The event that is being dispatched. -/
def inHand (s : TimedDispatcher) : Option ℕ :=
  match s.dispatcher.thread with
  | .dispatching ev => some ev
  | _ => none

/-- A listener calls it, so that the events it names are cancelled, with the one in hand. -/
def remove (s : TimedDispatcher) (call : Removal) : TimedDispatcher :=
  if s.listening = true ∧ s.removing = none then
    { s with
      cancelled := fun ev => s.cancelled ev || call.names s.queue ev
      struck := s.struck || s.inHand.any (call.names s.queue) }.begin call
  else s

/-- The next step of a removal: a timer, when its mutex is free, or behind the timers the queue. A
shutdown removes everything and goes on. -/
def removeStep (s : TimedDispatcher) (call : Removal) : List ℕ → Exec TimedDispatcher
  | t :: rest =>
    match s.timers t with
    | none => .error .useAfterFree
    | some live =>
      if live.clock = .waiting then do
        let (timer,erased) ← call.removeNodes s.queue s.address live.timer
        let q ← releaseNodes s.queue erased
        .ok { (s.setQueue q).setTimer t { live with timer := timer } with removing := some (call,rest) }
      else .ok s
  | [] => do
    let q ← call.removeQueued s.queue
    let thread := match s.dispatcher.thread with
      | .handling ev => .releasing ev true
      | thread => thread
    .ok { s with dispatcher := { s.dispatcher with mQueue := q, thread := thread }, removing := none }

/-- A listener or an agent is called with the event in hand. -/
def deliverEvent (s : TimedDispatcher) (ev : ℕ) : TimedDispatcher :=
  { s with delivered := s.delivered ++ [(ev,s.struck)] }

/-- `dispatchEvent`, up to the call of the agent or the loop over the listeners. -/
def dispatchEvent (s : TimedDispatcher) (ev : ℕ) (event_id : ℤ) : Exec TimedDispatcher :=
  if event_id = kAgentEventId then .ok { s.deliverEvent ev with lookup := .inAgent }
  else do
    let i ← s.mDispatcher.mEventList.iterBegin s.mDispatcher.cells
    .ok { s with lookup := .atNode event_id i }

/-- A turn of the loop of `lookupListeners`. -/
def lookupListeners (s : TimedDispatcher) (event_id : ℤ) (i : Option ℕ) : Exec TimedDispatcher := do
  let (phase,mDispatcher) ← s.mDispatcher.visit event_id i
  let s := { s with mDispatcher := mDispatcher, lookup := phase }
  match phase, s.inHand with
  | .inListener _ _, some ev => .ok (s.deliverEvent ev)
  | _, _ => .ok s

/-- The dispatcher's thread where it is in no dispatch. The event that it takes in hand may be one that
should not come. -/
def loopStep (s : TimedDispatcher) : Exec TimedDispatcher :=
  match s.dispatcher.thread with
  | .handling ev => do
    let o ← s.queue.event ev
    if o.mEventId = kShutdownEventId then .ok (s.begin .all)
    else do
      let d ← s.dispatcher.threadStep
      { s with dispatcher := d }.dispatchEvent ev o.mEventId
  | _ => do
    let d ← s.dispatcher.threadStep
    let struck := match d.thread with
      | .handling ev => s.cancelled ev
      | _ => s.struck
    .ok { s with dispatcher := d, struck := struck }

def threadStep (s : TimedDispatcher) : Exec TimedDispatcher :=
  match s.removing with
  | some (call,rest) => s.removeStep call rest
  | none =>
    match s.lookup with
    | .outside => s.loopStep
    | .atNode event_id i => s.lookupListeners event_id i
    | .inListener event_id i => do
      let i ← JhList.forward s.mDispatcher.cells i
      .ok { s with lookup := .atNode event_id i }
    | .inAgent => .ok { s with lookup := .outside }

/-- The mutex of the listeners is held in a dispatch, where a listener or an agent can change them as
long as it is in no removal. -/
def changesListeners (s : TimedDispatcher) : Bool :=
  match s.lookup with
  | .outside => true
  | .inListener _ _ | .inAgent => s.removing.isNone
  | .atNode _ _ => false

def addEventListener (s : TimedDispatcher) (listener : Option ℕ) (event_id : ℤ) :
    Exec TimedDispatcher :=
  if s.changesListeners = true then do
    let (_,mDispatcher) ← s.mDispatcher.addEventListener listener event_id
    .ok { s with mDispatcher := mDispatcher }
  else .ok s

def removeEventListener (s : TimedDispatcher) (listener : Option ℕ) (event_id : ℤ) :
    Exec TimedDispatcher :=
  if s.changesListeners = true then do
    let (_,mDispatcher) ← s.mDispatcher.removeEventListener listener event_id
    .ok { s with mDispatcher := mDispatcher }
  else .ok s

def next (s : TimedDispatcher) : TimedAction → Exec TimedDispatcher
  | .create ev o => .ok (s.create ev o)
  | .sendEvent ev => s.sendEvent ev
  | .construct t tickTimeMs => .ok (s.construct t tickTimeMs)
  | .getTimer t tickTimeMs => .ok (s.getTimer t tickTimeMs)
  | .addTimer t => .ok (s.addTimer t)
  | .removeTimer t => .ok (s.removeTimer t)
  | .sendTimedEvent t ev dispatcher msecs => s.addEvent t ev dispatcher msecs 0
  | .sendPeriodicEvent t ev dispatcher period => s.addEvent t ev dispatcher period period
  | .addListener t listener msecs privateData repeatMS =>
    s.addListener t listener msecs privateData repeatMS
  | .tick t => .ok (s.tick t)
  | .clock t => s.clock t
  | .thread => s.threadStep
  | .remove call => .ok (s.remove call)
  | .addEventListener listener event_id => s.addEventListener listener event_id
  | .removeEventListener listener event_id => s.removeEventListener listener event_id

def step (s : TimedDispatcher) (a : TimedAction) : Exec (Unit × TimedDispatcher) := do
  let s ← s.next a
  .ok ((),s)

end TimedDispatcher

end JhCommon
