import JhCommon.Exec
import JhCommon.Word32

/-! The timer of `Timer.cpp`: a list of nodes sorted by the tick that triggers them. Listeners,
dispatchers and events are known by their addresses, NULL is none. The mutex and the clock
thread are left out, and so are the listeners' own calls. -/
namespace JhCommon
open Word32

structure TimerNode where
  mEvent : Option ℕ
  mDispatcher : Option ℕ
  mListener : Option ℕ
  mPrivateData : ℕ
  mTick : ℕ
  mRepeatMS : ℕ
  mRemainingMS : ℕ
  deriving DecidableEq, Repr

structure Timer where
  mMsPerTick : ℕ
  mList : List TimerNode
  mTicks : ℕ
  deriving DecidableEq, Repr

/-- A call the timer makes when a node is due. -/
inductive Delivery
  | onTimeout (listener privateData : ℕ)
  | sendEvent (dispatcher event : ℕ)
  deriving DecidableEq, Repr

namespace Timer

/-- The constructor, with the reset that its start makes. -/
def init (tickTimeMs : ℤ) : Timer :=
  { mMsPerTick := if tickTimeMs < 0 then 100 else tickTimeMs.toNat, mList := [], mTicks := 0 }

def insertNode (newTimer : TimerNode) : List TimerNode → List TimerNode
  | [] => [newTimer]
  | timer :: rest =>
    if int32 (sub32 newTimer.mTick timer.mTick) < 0 then newTimer :: timer :: rest
    else timer :: insertNode newTimer rest

def addTimerNode (t : Timer) (newTimer : TimerNode) : Timer :=
  { t with mList := insertNode newTimer t.mList }

/-- The timeout time in ticks. -/
def toTicks (t : Timer) (msecs : ℕ) : Exec ℕ :=
  if t.mMsPerTick = 0 then .error .divideByZero
  else .ok (sub32 (add32 msecs t.mMsPerTick) 1/t.mMsPerTick)

/-- `addTimer` and `addPeriodicTimer`, which differ in the repeat time only. -/
def addListener (t : Timer) (listener : Option ℕ) (msecs privateData repeatMS : ℕ) : Exec Timer :=
  if listener = none then .error .fatal
  else do
    let ticks ← t.toTicks msecs
    .ok (t.addTimerNode
      { mEvent := none
        mDispatcher := none
        mPrivateData := privateData
        mListener := listener
        mTick := add32 t.mTicks ticks
        mRepeatMS := repeatMS
        mRemainingMS := 0 })

def addTimer (t : Timer) (listener : Option ℕ) (msecs privateData : ℕ) : Exec Timer :=
  t.addListener listener msecs privateData 0

def addPeriodicTimer (t : Timer) (listener : Option ℕ) (period privateData : ℕ) : Exec Timer :=
  t.addListener listener period privateData period

/-- `sendTimedEvent` and `sendPeriodicEvent`, which differ in the repeat time only. -/
def addEvent (t : Timer) (event dispatcher : Option ℕ) (msecs repeatMS : ℕ) : Exec Timer := do
  let ticks ← t.toTicks msecs
  .ok (t.addTimerNode
    { mEvent := event
      mDispatcher := dispatcher
      mPrivateData := 0
      mListener := none
      mTick := add32 t.mTicks ticks
      mRepeatMS := repeatMS
      mRemainingMS := 0 })

def sendTimedEvent (t : Timer) (event dispatcher : Option ℕ) (msecs : ℕ) : Exec Timer :=
  t.addEvent event dispatcher msecs 0

def sendPeriodicEvent (t : Timer) (event dispatcher : Option ℕ) (period : ℕ) : Exec Timer :=
  t.addEvent event dispatcher period period

/-- Call the listener, or send the event to its dispatcher. -/
def deliver (timer : TimerNode) : Exec Delivery :=
  match timer.mEvent with
  | none =>
    match timer.mListener with
    | none => .error .nullDeref
    | some listener => .ok (.onTimeout listener timer.mPrivateData)
  | some event =>
    match timer.mDispatcher with
    | none => .error .nullDeref
    | some dispatcher => .ok (.sendEvent dispatcher event)

/-- Put a periodic node back at its next tick. The milliseconds lost by the tick calculation are
accumulated in the node. -/
def rearm (t : Timer) (timer : TimerNode) : Exec Timer :=
  if timer.mRepeatMS = 0 then .ok t
  else if t.mMsPerTick = 0 then .error .divideByZero
  else
    let newTicks :=
      sub32 (sub32 (add32 timer.mRepeatMS t.mMsPerTick) 1) timer.mRemainingMS/t.mMsPerTick
    .ok (t.addTimerNode { timer with
      mTick := add32 timer.mTick newTicks
      mRemainingMS := add32 timer.mRepeatMS timer.mRemainingMS % t.mMsPerTick })

/-- The loop of `handleTick`. -/
def handleDue : ℕ → Timer → Exec (List Delivery × Timer)
  | 0, _ => .error .outOfFuel
  | fuel+1, t =>
    match t.mList with
    | [] => .ok ([],t)
    | timer :: rest =>
      if int32 (sub32 timer.mTick t.mTicks) > 0 then .ok ([],t)
      else do
        let delivery ← deliver timer
        let t ← rearm { t with mList := rest } timer
        let (deliveries,t) ← handleDue fuel t
        .ok (delivery :: deliveries,t)

def handleTick (fuel : ℕ) (t : Timer) : Exec (List Delivery × Timer) :=
  handleDue fuel { t with mTicks := add32 t.mTicks 1 }

end Timer

end JhCommon
