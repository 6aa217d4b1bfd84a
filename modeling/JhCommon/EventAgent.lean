import JhCommon.Linearization
import JhCommon.SyncSendRuns
import JhCommon.TimerRemoval

/-! The agents of `EventAgent.h`: events that call a method of an object when a dispatcher's thread
gets them. Threads send SyncRetEventAgents to the dispatcher of `EventDispatcher.cpp`, and wait for
the value; AsyncEventAgents and other events go through the same queue. -/
namespace JhCommon

/-- The call has the method and its parameters. What stands in mRetValue before the first delivery
is whatever was there. The last field counts the references that are not those of `send`. -/
structure SyncRetEventAgent (μ ρ : Type) where
  call : μ
  mRetValue : ρ
  mRefCount : ℤ
  owners : ℕ

/-- An object whose methods are called by agents only. The last two fields record what happened: the
calls of `send` on other threads, each under the address of its holder, and what the object met. -/
structure AgentSystem (T σ μ ρ : Type) where
  dispatcher : EventDispatcher T
  object : σ
  agents : ℕ → Option (SyncRetEventAgent μ ρ)
  asyncAgents : ℕ → Option μ
  history : List (CallEvent ℕ μ ρ)
  effects : List (Effect ℕ μ ρ)

/-- What happens next. A new agent has no references. `sendCurrent` is a `send` on the dispatcher's
own thread, by a listener. -/
inductive AgentAction (T μ ρ : Type)
  | newAgent (a : ℕ) (call : μ) (mRetValue : ρ)
  | addRef (a : ℕ)
  | release (a : ℕ)
  | newAsyncAgent (ev : ℕ) (call : μ) (priority : ℤ)
  | send (t : T) (a : ℕ) (priority : ℤ) (holder : ℕ)
  | sendCurrent (a : ℕ)
  | dispatcher (x : DispatcherAction T)

namespace AgentSystem
variable {T σ μ ρ : Type}

def init (start : σ) : AgentSystem T σ μ ρ :=
  { dispatcher := .init, object := start, agents := fun _ => none, asyncAgents := fun _ => none
    history := [], effects := [] }

def agent (s : AgentSystem T σ μ ρ) (a : ℕ) : Exec (SyncRetEventAgent μ ρ) :=
  match s.agents a with
  | none => .error .useAfterFree
  | some g => .ok g

def setAgent (s : AgentSystem T σ μ ρ) (a : ℕ) (g : Option (SyncRetEventAgent μ ρ)) :
    AgentSystem T σ μ ρ :=
  { s with agents := Function.update s.agents a g }

/-- The count is an int. -/
def addRef (s : AgentSystem T σ μ ρ) (a : ℕ) : Exec (AgentSystem T σ μ ρ) := do
  let g ← s.agent a
  if g.mRefCount < 2^31-1 then .ok (s.setAgent a (some { g with mRefCount := g.mRefCount+1 }))
  else .error .overflow

/-- The agent deletes itself when its last reference is released. -/
def release (s : AgentSystem T σ μ ρ) (a : ℕ) : Exec (AgentSystem T σ μ ρ) := do
  let g ← s.agent a
  .ok (s.setAgent a
    (if g.mRefCount-1 = 0 then none else some { g with mRefCount := g.mRefCount-1 }))

/-- The references of everyone but `send`. They take one while the agent exists, and release what
they have. -/
def ownerAddRef (s : AgentSystem T σ μ ρ) (a : ℕ) : Exec (AgentSystem T σ μ ρ) :=
  match s.agents a with
  | none => .ok s
  | some g => (s.setAgent a (some { g with owners := g.owners+1 })).addRef a

def ownerRelease (s : AgentSystem T σ μ ρ) (a : ℕ) : Exec (AgentSystem T σ μ ρ) :=
  match s.agents a with
  | none => .ok s
  | some g =>
    if g.owners = 0 then .ok s
    else (s.setAgent a (some { g with owners := g.owners-1 })).release a

variable (method : μ → σ → ρ × σ)

/-- The object meets a call. -/
def meet (s : AgentSystem T σ μ ρ) (i : Option ℕ) (call : μ) : AgentSystem T σ μ ρ :=
  { s with
    object := (method call s.object).2
    effects := s.effects ++ [⟨i,call,(method call s.object).1⟩] }

/-- `deliver` of a SyncRetEventAgent keeps what the method returns. -/
def deliver (s : AgentSystem T σ μ ρ) (a : ℕ) (i : Option ℕ) : Exec (AgentSystem T σ μ ρ) := do
  let g ← s.agent a
  .ok ((s.meet method i g.call).setAgent a
    (some { g with mRetValue := (method g.call s.object).1 }))

/-- `dispatchEvent`, as far as it comes to agents of the object. -/
def dispatchEvent (s : AgentSystem T σ μ ρ) : Exec (AgentSystem T σ μ ρ) :=
  match s.dispatcher.thread with
  | .dispatchingSync holder realEvent => s.deliver method realEvent (some holder)
  | .dispatching ev =>
    match s.asyncAgents ev with
    | none => .ok s
    | some call => .ok (s.meet method none call)
  | _ => .ok s

variable [DecidableEq T]

/-- `send` on another thread than the dispatcher's, up to where the holder is queued. One reference
is that of holdMe, the other one that of the holder. -/
def send (s : AgentSystem T σ μ ρ) (t : T) (a : ℕ) (priority : ℤ) (holder : ℕ) :
    Exec (AgentSystem T σ μ ρ) :=
  match s.agents a with
  | none => .ok s
  | some g =>
    if s.dispatcher.clients t = none ∧ s.dispatcher.Free holder then do
      let s ← s.addRef a
      let s ← s.addRef a
      let d ← s.dispatcher.sendEventSync t a priority holder
      .ok { s with dispatcher := d, history := s.history ++ [.invoke holder g.call] }
    else .ok s

/-- `send` on the dispatcher's thread, where a listener runs. -/
def sendCurrent (s : AgentSystem T σ μ ρ) (a : ℕ) : Exec (AgentSystem T σ μ ρ) :=
  match s.agents a, s.dispatcher.thread with
  | some _, .dispatching ev =>
    if s.asyncAgents ev = none then do
      let s ← s.addRef a
      let s ← s.deliver method a none
      s.release a
    else .ok s
  | _, _ => .ok s

/-- A step inside of `send`. At the end of `sendEventSync` the holder gives up its reference; then
the value is read, and holdMe gives up the other one. -/
def clientStep (s : AgentSystem T σ μ ρ) (t : T) : Exec (AgentSystem T σ μ ρ) := do
  let d ← s.dispatcher.clientStep t
  match s.dispatcher.clients t with
  | some (h,.returning) => do
    let r ← s.dispatcher.holder h
    let s ← { s with dispatcher := d }.release r.mRealEvent
    let g ← s.agent r.mRealEvent
    let s ← s.release r.mRealEvent
    .ok { s with history := s.history ++ [.respond h g.mRetValue] }
  | _ => .ok { s with dispatcher := d }

def threadStep (s : AgentSystem T σ μ ρ) : Exec (AgentSystem T σ μ ρ) := do
  let s ← s.dispatchEvent method
  let d ← s.dispatcher.threadStep
  .ok { s with dispatcher := d }

/-- What is made at an address is an agent of the object, or something else. -/
def create (s : AgentSystem T σ μ ρ) (ev : ℕ) (o : Event) (call : Option μ) :
    AgentSystem T σ μ ρ :=
  if s.dispatcher.Free ev then
    { s with
      dispatcher := s.dispatcher.create ev o
      asyncAgents := Function.update s.asyncAgents ev call }
  else s

def next (s : AgentSystem T σ μ ρ) : AgentAction T μ ρ → Exec (AgentSystem T σ μ ρ)
  | .newAgent a call mRetValue =>
    if (s.agents a).isNone then .ok (s.setAgent a (some ⟨call,mRetValue,0,0⟩)) else .ok s
  | .addRef a => s.ownerAddRef a
  | .release a => s.ownerRelease a
  | .newAsyncAgent ev call priority => .ok (s.create ev ⟨kAgentEventId,priority,0⟩ (some call))
  | .send t a priority holder => s.send t a priority holder
  | .sendCurrent a => s.sendCurrent method a
  | .dispatcher .thread => s.threadStep method
  | .dispatcher (.client t) => s.clientStep t
  | .dispatcher (.create ev o) => .ok (s.create ev o none)
  | .dispatcher (.sendEventSync _ _ _ _) => .ok s
  | .dispatcher x => do
    let d ← s.dispatcher.next x
    .ok { s with dispatcher := d }

def step (s : AgentSystem T σ μ ρ) (x : AgentAction T μ ρ) : Exec (Unit × AgentSystem T σ μ ρ) := do
  let s ← s.next method x
  .ok ((),s)

end AgentSystem

end JhCommon
