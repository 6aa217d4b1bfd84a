import JhCommon.EventDispatcher

/-! The selector of `Selector.cpp`: its pipe, its listeners and the loop of its thread, with the
threads that send events to it, or add and remove listeners. A step is what one thread does between
two points at which another one can be seen. Polled files are known by their descriptors. -/
namespace JhCommon

def kSelectorUpdateEventId : ℤ := -4

def pollIn : BitVec 16 := 0x01
def pollHup : BitVec 16 := 0x10
def pollNval : BitVec 16 := 0x20

structure ListenerNode where
  mFd : ℤ
  mEvents : BitVec 16
  mListener : Option ℕ
  mPrivateData : ℤ
  deriving DecidableEq

/-- The comparison of two nodes: NULL stands for any listener. -/
def ListenerNode.matches (n other : ListenerNode) : Bool :=
  decide (n.mFd = other.mFd ∧
    (n.mListener = none ∨ other.mListener = none ∨ n.mListener = other.mListener))

/-- The node that is looked for. -/
def listenerNode (fd : ℤ) (listener : Option ℕ) : ListenerNode :=
  { mFd := fd, mEvents := 0, mListener := listener, mPrivateData := 0 }

/-- The descriptor of the pipe's reader is none, as it is no client's. -/
structure PollFd where
  fd : Option ℤ
  events : BitVec 16
  revents : BitVec 16
  deriving DecidableEq

def kMaxPollFds : ℕ := 64

/-- The inner loop of `fillPollFds`, over the entries behind the pipe's one. -/
def narrowEvents (listener : ListenerNode) : List PollFd → Option (List PollFd)
  | [] => none
  | p :: fds =>
    if p.fd = some listener.mFd then some ({ p with events := p.events &&& listener.mEvents } :: fds)
    else (narrowEvents listener fds).map (p :: ·)

/-- The outer loop. -/
def fillPollFdsFrom : List PollFd → List ListenerNode → List PollFd
  | fds, [] => fds
  | fds, listener :: rest =>
    match narrowEvents listener fds with
    | some fds => fillPollFdsFrom fds rest
    | none =>
      let fds := fds ++ [⟨some listener.mFd,listener.mEvents,0⟩]
      if fds.length+1 = kMaxPollFds then fds else fillPollFdsFrom fds rest

def fillPollFds (list : List ListenerNode) : List PollFd := ⟨none,pollIn,0⟩ :: fillPollFdsFrom [] list

/-- Where a thread is in `updateListeners`, which it calls with mLock held. -/
inductive CallPhase
  | updating
  | sending
  | sent
  | waiting
  | woken
  deriving DecidableEq

/-- Where the selector's thread is. In `callListeners` it is at entry i of fds and at a node of the
list, and has or has not removed a listener. -/
inductive SelectorPhase
  | filling
  | looping
  | polling
  | scanning (i : ℕ)
  | calling (i : ℕ) (result : Bool) (listener : Option ℕ)
  | listening (i : ℕ) (result : Bool) (listener : Option ℕ)
  | taking
  | dispatching
  | updating
  | broadcasting
  | exited
  deriving DecidableEq

/-- The nodes of mList are known by their addresses. `writing` has the threads that have pushed an
event and not yet written to the pipe. The last three fields record what happened: the number of
changes of the list, the number that the poll set was last built behind, and both numbers for each
call that returned. -/
structure Selector (T : Type) where
  dispatcher : EventDispatcher T
  mPipe : ℕ
  writing : Finset (LockOwner T)
  mList : List (ℕ × ListenerNode)
  made : ℕ
  mLock : Option (LockOwner T)
  mRunning : Bool
  mUpdateFds : Bool
  fds : List PollFd
  gotEvent : Bool
  thread : SelectorPhase
  callers : T → Option (ℕ × CallPhase)
  changes : ℕ
  built : ℕ
  returned : List (ℕ × ℕ)

/-- What happens next. `write` is the write to the pipe behind a push, `client` the next step of a
thread in `sendEventSync`, and `caller` that of one in `updateListeners`. `poll` is its return, with
what it finds for each of the clients' descriptors, unless it fails. -/
inductive SelectorAction (T : Type)
  | create (ev : ℕ) (o : Event)
  | sendEvent (a : LockOwner T) (ev : ℕ)
  | sendEventSync (t : T) (ev : ℕ) (priority : ℤ) (holder : ℕ)
  | write (a : LockOwner T)
  | client (t : T)
  | wakeupClient (t : T)
  | removeId (id : ℤ)
  | removeEvent (ev : ℕ)
  | removeAll
  | addListener (a : LockOwner T) (node : ListenerNode)
  | removeListener (a : LockOwner T) (fd : ℤ) (listener : Option ℕ)
  | caller (t : T) (ev : ℕ)
  | wakeup (t : T)
  | poll (revents : Option (ℕ → BitVec 16))
  | thread

namespace Selector
variable {T : Type} [DecidableEq T]

/-- Behind the constructor. -/
def init : Selector T :=
  { dispatcher := .init, mPipe := 0, writing := ∅, mList := [], made := 0, mLock := none
    mRunning := true, mUpdateFds := false, fds := [], gotEvent := false, thread := .filling
    callers := fun _ => none, changes := 0, built := 0, returned := [] }

def setQueue (s : Selector T) (q : EventQueue) : Selector T :=
  { s with dispatcher := { s.dispatcher with mQueue := q } }

/-- A listener or an agent is running on the selector's thread, and is in none of its calls. -/
def listens (s : Selector T) : Bool :=
  !decide (.dispatcher ∈ s.writing) && match s.thread with
    | .listening _ _ _ => true
    | .dispatching => s.dispatcher.thread.listening
    | _ => false

/-- The thread is in no call to the selector. -/
def free (s : Selector T) : LockOwner T → Bool
  | .dispatcher => s.listens
  | .client t => decide (s.callers t = none ∧ s.dispatcher.clients t = none ∧ .client t ∉ s.writing)

/-- `SendEvent` on the queue. The write of `wakeThread` is still to come. -/
def push (s : Selector T) (a : LockOwner T) (ev : ℕ) : Exec (Selector T) := do
  let q ← s.dispatcher.mQueue.sendEvent ev
  .ok { s.setQueue q with writing := insert a s.writing }

def sendEvent (s : Selector T) (a : LockOwner T) (ev : ℕ) : Exec (Selector T) :=
  if s.free a = true then s.push a ev else .ok s

def sendEventSync (s : Selector T) (t : T) (ev : ℕ) (priority : ℤ) (holder : ℕ) :
    Exec (Selector T) :=
  if s.free (.client t) = true ∧ s.dispatcher.Free holder then do
    let d ← s.dispatcher.sendEventSync t ev priority holder
    .ok { s with dispatcher := d, writing := insert (.client t) s.writing }
  else .ok s

def wakeThread (s : Selector T) (a : LockOwner T) : Selector T :=
  if a ∈ s.writing then { s with mPipe := s.mPipe+1, writing := s.writing.erase a } else s

def client (s : Selector T) (t : T) : Exec (Selector T) :=
  if .client t ∈ s.writing then .ok s
  else do
    let d ← s.dispatcher.clientStep t
    .ok { s with dispatcher := d }

def remove (s : Selector T) (call : EventQueue → Exec EventQueue) : Exec (Selector T) :=
  if s.listens = true then do
    let q ← call s.dispatcher.mQueue
    .ok (s.setQueue q)
  else .ok s

/-- The list has been changed, with the lock held: the selector's own thread notes it, and another
one goes on in `updateListeners`. -/
def changed (s : Selector T) : LockOwner T → Selector T
  | .dispatcher => { s with changes := s.changes+1, mUpdateFds := true }
  | .client t =>
    { s with
      changes := s.changes+1
      mLock := some (.client t)
      callers := Function.update s.callers t (some (s.changes+1,.updating)) }

/-- The thread can have the lock, which is recursive. -/
def locks (s : Selector T) (a : LockOwner T) : Bool := decide (s.mLock = none ∨ s.mLock = some a)

def addListener (s : Selector T) (a : LockOwner T) (node : ListenerNode) : Selector T :=
  if s.free a = true ∧ s.locks a = true then
    { s with mList := s.mList ++ [(s.made,node)], made := s.made+1 }.changed a
  else s

def removeListener (s : Selector T) (a : LockOwner T) (fd : ℤ) (_listener : Option ℕ) :
    Selector T :=
  if s.free a = true ∧ s.locks a = true then
    let n := listenerNode fd none
    if s.mList.any (fun node => node.2.matches n) = true then
      { s with mList := s.mList.filter fun node => !node.2.matches n }.changed a
    else s
  else s

def setCaller (s : Selector T) (t : T) (n : ℕ) (p : CallPhase) : Selector T :=
  { s with callers := Function.update s.callers t (some (n,p)) }

/-- The call returns, and lets go of the lock. -/
def returns (s : Selector T) (t : T) (n : ℕ) : Selector T :=
  { s with
    mLock := none
    callers := Function.update s.callers t none
    returned := s.returned ++ [(n,s.built)] }

/-- The rest of `addListener` or `removeListener`. The event is made at an address where nothing
is. -/
def caller (s : Selector T) (t : T) (ev : ℕ) : Exec (Selector T) :=
  if .client t ∈ s.writing then .ok s
  else
    match s.callers t with
    | none => .ok s
    | some (n,.updating) => .ok (if s.mRunning = true then s.setCaller t n .sending else s.returns t n)
    | some (n,.sending) =>
      if s.dispatcher.Free ev then do
        let o : Event := { mEventId := kSelectorUpdateEventId, mPriority := priorityNormal, mRefCount := 0 }
        let q := s.dispatcher.mQueue
        let s ← (s.setQueue { q with events := Function.update q.events ev (some o) }).push (.client t) ev
        .ok (s.setCaller t n .sent)
      else .ok s
    | some (n,.sent) => .ok { s.setCaller t n .waiting with mLock := none }
    | some (_,.waiting) => .ok s
    | some (n,.woken) => .ok (if s.mLock = none then s.returns t n else s)

def wakeup (s : Selector T) (t : T) : Selector T :=
  match s.callers t with
  | some (n,.waiting) => s.setCaller t n .woken
  | _ => s

/-- `Broadcast`: everyone who waits is woken. -/
def wakeAll (callers : T → Option (ℕ × CallPhase)) (t : T) : Option (ℕ × CallPhase) :=
  (callers t).map fun c => if c.2 = .waiting then (c.1,.woken) else c

/-- What poll finds. There is input on the pipe while it holds bytes. -/
def polled (s : Selector T) (revents : ℕ → BitVec 16) : List PollFd :=
  s.fds.mapIdx fun i p => { p with
    revents := if p.fd = none then if 0 < s.mPipe then pollIn else 0 else revents i }

/-- `poll` returns when it has failed, or found something. -/
def poll (s : Selector T) (revents : Option (ℕ → BitVec 16)) : Selector T :=
  if s.thread = .polling then
    match revents with
    | none => { s with thread := .taking }
    | some revents =>
      if (s.polled revents).any (fun p => p.revents ≠ 0) = true then
        { s with fds := s.polled revents, thread := .scanning 0 }
      else s
  else s

/-- The loop over the entries of fds, at entry i. -/
def scan (s : Selector T) (i : ℕ) : Exec (Selector T) :=
  match s.fds[i]? with
  | none => .ok { s with thread := .taking }
  | some p =>
    match p.fd with
    | none =>
      if p.revents &&& pollIn ≠ 0 then
        -- the read waits for a token
        if s.mPipe = 0 then .ok s
        else .ok { s with mPipe := s.mPipe-1, gotEvent := true, thread := .scanning (i+1) }
      else if p.revents &&& (pollHup ||| pollNval) ≠ 0 then .error .fatal
      else .ok { s with thread := .scanning (i+1) }
    | some _ =>
      if p.revents = 0 then .ok { s with thread := .scanning (i+1) }
      else if s.mLock = none then
        .ok { s with
          mLock := some .dispatcher
          thread := .calling i false (s.mList.head?.map Prod.fst) }
      else .ok s

/-- The iterator behind that of a node. -/
def nextNode (list : List (ℕ × ListenerNode)) (a : ℕ) : Option ℕ :=
  ((list.dropWhile fun node => node.1 ≠ a).tail.head?).map Prod.fst

/-- The loop of `callListeners`, at a node of the list. -/
def callListeners (s : Selector T) (i : ℕ) (result : Bool) : Option ℕ → Exec (Selector T)
  | none =>
    .ok { s with
      mLock := none
      mUpdateFds := s.mUpdateFds || result
      thread := .scanning (i+1) }
  | some a =>
    match s.mList.find? (fun node => node.1 = a), s.fds[i]? with
    | none, _ => .error .useAfterFree
    | some _, none => .error .outOfBounds
    | some (_,node), some p =>
      let next := nextNode s.mList a
      if p.fd.any (fun fd => node.matches (listenerNode fd none)) = true then
        let removes := p.revents &&& (pollHup ||| pollNval) ≠ 0
        let list := if removes then s.mList.filter (fun node => node.1 ≠ a) else s.mList
        let result := result || decide removes
        .ok { s with
          mList := list
          changes := if removes then s.changes+1 else s.changes
          thread := if node.mListener = none then .calling i result next else .listening i result next }
      else .ok { s with thread := .calling i result next }

/-- The event that a token stands for. gotEvent is not looked at again before it is cleared. -/
def takeEvent (s : Selector T) : Exec (Selector T) :=
  if s.gotEvent = true then
    let s := { s with gotEvent := false }
    match s.dispatcher.mQueue.pollEvent with
    | (none,_) => .ok { s with thread := .updating }
    | (some ev,q) => do
      let o ← q.event ev
      if o.mEventId = kSelectorUpdateEventId then do
        let q ← q.release ev
        .ok { s.setQueue q with mUpdateFds := true, thread := .updating }
      else
        .ok { s with
          dispatcher := { s.dispatcher with mQueue := q, thread := .handling ev }
          thread := .dispatching }
  else .ok { s with thread := .updating }

/-- In `handleEvent`, up to its return. -/
def dispatch (s : Selector T) : Exec (Selector T) :=
  match s.dispatcher.thread with
  | .polling => .ok { s with thread := .updating }
  | .stopped => .ok { s with mRunning := false, thread := .updating }
  | _ => do
    let d ← s.dispatcher.threadStep
    .ok { s with dispatcher := d }

/-- `fillPollFds`, which takes the lock. -/
def fill (s : Selector T) (thread : SelectorPhase) : Selector T :=
  if s.mLock = none then
    { s with
      fds := fillPollFds (s.mList.map Prod.snd)
      built := s.changes
      mUpdateFds := false
      thread := thread }
  else s

def threadStep (s : Selector T) : Exec (Selector T) :=
  if .dispatcher ∈ s.writing then .ok s
  else
    match s.thread with
    | .filling => .ok (s.fill .looping)
    | .looping => .ok { s with thread := if s.mRunning = true then .polling else .exited }
    | .polling => .ok s
    | .scanning i => s.scan i
    | .calling i result listener => s.callListeners i result listener
    | .listening i result listener => .ok { s with thread := .calling i result listener }
    | .taking => s.takeEvent
    | .dispatching => s.dispatch
    | .updating =>
      .ok (if s.mUpdateFds = true then s.fill .broadcasting else { s with thread := .broadcasting })
    | .broadcasting => .ok { s with callers := wakeAll s.callers, thread := .looping }
    | .exited => .ok s

def next (s : Selector T) : SelectorAction T → Exec (Selector T)
  | .create ev o => .ok { s with dispatcher := s.dispatcher.create ev o }
  | .sendEvent a ev => s.sendEvent a ev
  | .sendEventSync t ev priority holder => s.sendEventSync t ev priority holder
  | .write a => .ok (s.wakeThread a)
  | .client t => s.client t
  | .wakeupClient t => .ok { s with dispatcher := s.dispatcher.wakeup t }
  | .removeId id => s.remove (·.removeId id)
  | .removeEvent ev => s.remove (·.removeEvent ev)
  | .removeAll => s.remove EventQueue.flush
  | .addListener a node => .ok (s.addListener a node)
  | .removeListener a fd listener => .ok (s.removeListener a fd listener)
  | .caller t ev => s.caller t ev
  | .wakeup t => .ok (s.wakeup t)
  | .poll revents => .ok (s.poll revents)
  | .thread => s.threadStep

def step (s : Selector T) (a : SelectorAction T) : Exec (Unit × Selector T) := do
  let s ← s.next a
  .ok ((),s)

/-- What goes on at the queue and the pipe. -/
def queues : SelectorAction T → Bool
  | .create _ _ | .sendEvent _ _ | .sendEventSync _ _ _ _ | .write _ | .client _ | .wakeupClient _
  | .removeId _ | .removeEvent _ | .removeAll => true
  | _ => false

section Moves
variable {s s' : Selector T}

/-- What a step of the thread comes to, phase by phase. -/
inductive ThreadMoves (s : Selector T) : Selector T → Prop
  | rests : ThreadMoves s s
  | fills (h : s.thread = .filling) : ThreadMoves s (s.fill .looping)
  | loops (h : s.thread = .looping) :
    ThreadMoves s { s with thread := if s.mRunning = true then .polling else .exited }
  | scans {s' : Selector T} {i : ℕ} (h : s.thread = .scanning i) (hscan : s.scan i = .ok s') :
    ThreadMoves s s'
  | calls {s' : Selector T} {i : ℕ} {result : Bool} {listener : Option ℕ}
    (h : s.thread = .calling i result listener) (hcall : s.callListeners i result listener = .ok s') :
    ThreadMoves s s'
  | listens {i : ℕ} {result : Bool} {listener : Option ℕ} (h : s.thread = .listening i result listener) :
    ThreadMoves s { s with thread := .calling i result listener }
  | takes {s' : Selector T} (h : s.thread = .taking) (htake : s.takeEvent = .ok s') : ThreadMoves s s'
  | dispatches {s' : Selector T} (h : s.thread = .dispatching) (hdispatch : s.dispatch = .ok s') :
    ThreadMoves s s'
  | refills (h : s.thread = .updating) : ThreadMoves s (s.fill .broadcasting)
  | keeps (h : s.thread = .updating) : ThreadMoves s { s with thread := .broadcasting }
  | wakes (h : s.thread = .broadcasting) :
    ThreadMoves s { s with callers := wakeAll s.callers, thread := .looping }

theorem threadStep_moves (h : s.threadStep = .ok s') : ThreadMoves s s' := by
  unfold threadStep at h
  split at h
  · rw [← Except.ok.inj h]
    exact .rests
  · cases hthread : s.thread with
    | scanning i =>
      rw [hthread] at h
      exact .scans hthread h
    | calling i result listener =>
      rw [hthread] at h
      exact .calls hthread h
    | taking =>
      rw [hthread] at h
      exact .takes hthread h
    | dispatching =>
      rw [hthread] at h
      exact .dispatches hthread h
    | updating =>
      rw [hthread] at h
      rw [← Except.ok.inj h]
      split
      · exact .refills hthread
      · exact .keeps hthread
    | _ =>
      rw [hthread] at h
      rw [← Except.ok.inj h]
      first
        | exact .fills hthread
        | exact .loops hthread
        | exact .listens hthread
        | exact .wakes hthread
        | exact .rests

/-- What a turn of the loop over the entries of fds comes to. -/
inductive ScanMoves (s : Selector T) (i : ℕ) : Selector T → Prop
  | rests : ScanMoves s i s
  | ends (h : s.fds[i]? = none) : ScanMoves s i { s with thread := .taking }
  | reads {p : PollFd} (h : s.fds[i]? = some p) (hpipe : p.fd = none) (htoken : s.mPipe ≠ 0) :
    ScanMoves s i { s with mPipe := s.mPipe-1, gotEvent := true, thread := .scanning (i+1) }
  | passes (h : s.fds[i]? ≠ none) : ScanMoves s i { s with thread := .scanning (i+1) }
  | enters {p : PollFd} {fd : ℤ} (h : s.fds[i]? = some p) (hfd : p.fd = some fd)
    (hlock : s.mLock = none) :
    ScanMoves s i { s with
      mLock := some .dispatcher
      thread := .calling i false (s.mList.head?.map Prod.fst) }

omit [DecidableEq T] in
theorem scan_moves {i : ℕ} (h : s.scan i = .ok s') : ScanMoves s i s' := by
  unfold scan at h
  split at h
  · rw [← Except.ok.inj h]
    exact .ends ‹_›
  · rename_i p hentry
    have hsome : s.fds[i]? ≠ none := by
      rw [hentry]
      exact Option.some_ne_none p
    -- the pipe is read, any other entry goes to its listeners
    split at h
    · rename_i hpipe
      split_ifs at h with hin hempty herror
      · rw [← Except.ok.inj h]
        exact .rests
      · rw [← Except.ok.inj h]
        exact .reads hentry hpipe hempty
      · rw [← Except.ok.inj h]
        exact .passes hsome
    · rename_i fd hfd
      split_ifs at h with hnothing hlock
      · rw [← Except.ok.inj h]
        exact .passes hsome
      · rw [← Except.ok.inj h]
        exact .enters hentry hfd hlock
      · rw [← Except.ok.inj h]
        exact .rests

/-- What a turn of the loop over the list comes to. The thread stays at the entry i, and goes on to
the next node or is in a callback before that. -/
inductive CallMoves (s : Selector T) (i : ℕ) : Bool → Option ℕ → Selector T → Prop
  | ends (result : Bool) : CallMoves s i result none { s with
      mLock := none
      mUpdateFds := s.mUpdateFds || result
      thread := .scanning (i+1) }
  | passes {result result' : Bool} {a : ℕ} {next : Option ℕ} {thread : SelectorPhase}
    (h : thread = .calling i result' next ∨ thread = .listening i result' next) :
    CallMoves s i result (some a) { s with thread := thread }
  | removes {result result' : Bool} {a : ℕ} {next : Option ℕ} {thread : SelectorPhase}
    (h : thread = .calling i result' next ∨ thread = .listening i result' next) :
    CallMoves s i result (some a) { s with
      mList := s.mList.filter (fun node => node.1 ≠ a)
      changes := s.changes+1
      thread := thread }

omit [DecidableEq T] in
theorem callListeners_moves {i : ℕ} {result : Bool} {listener : Option ℕ}
    (h : s.callListeners i result listener = .ok s') : CallMoves s i result listener s' := by
  unfold callListeners at h
  split at h
  · rw [← Except.ok.inj h]
    exact .ends result
  · split at h
    · cases h
    · cases h
    · dsimp only at h
      split at h
      · rename_i a _ node p _ _ _
        -- a node with no listener is passed with no callback
        have hthread (result' : Bool) (next : Option ℕ) :
            (if node.mListener = none then SelectorPhase.calling i result' next
              else .listening i result' next) = .calling i result' next ∨
            (if node.mListener = none then SelectorPhase.calling i result' next
              else .listening i result' next) = .listening i result' next := by
          split
          · exact .inl rfl
          · exact .inr rfl
        rw [← Except.ok.inj h]
        by_cases hremoves : p.revents &&& (pollHup ||| pollNval) ≠ 0
        · simp only [if_pos hremoves]
          exact .removes (hthread _ _)
        · simp only [if_neg hremoves]
          exact .passes (hthread _ _)
      · rw [← Except.ok.inj h]
        exact .passes (.inl rfl)

/-- What `takeEvent` comes to. -/
inductive TakeMoves (s : Selector T) : Selector T → Prop
  | skips (h : ¬s.gotEvent = true) : TakeMoves s { s with thread := .updating }
  | misses (h : s.gotEvent = true) (hqueue : s.dispatcher.mQueue.mQueue = []) :
    TakeMoves s { s with gotEvent := false, thread := .updating }
  | refreshes {ev : ℕ} {rest : List ℕ} {q : EventQueue} (h : s.gotEvent = true)
    (hqueue : s.dispatcher.mQueue.mQueue = ev :: rest)
    (hrelease : { s.dispatcher.mQueue with mQueue := rest }.release ev = .ok q) :
    TakeMoves s { { s with gotEvent := false }.setQueue q with mUpdateFds := true, thread := .updating }
  | hands {ev : ℕ} {rest : List ℕ} (h : s.gotEvent = true)
    (hqueue : s.dispatcher.mQueue.mQueue = ev :: rest) :
    TakeMoves s { s with
      gotEvent := false
      dispatcher := { s.dispatcher with
        mQueue := { s.dispatcher.mQueue with mQueue := rest }
        thread := .handling ev }
      thread := .dispatching }

omit [DecidableEq T] in
theorem takeEvent_moves (h : s.takeEvent = .ok s') : TakeMoves s s' := by
  unfold takeEvent at h
  by_cases hgot : s.gotEvent = true
  · rw [if_pos hgot] at h
    dsimp only [EventQueue.pollEvent] at h
    cases hqueue : s.dispatcher.mQueue.mQueue with
    | nil =>
      rw [hqueue] at h
      rw [← Except.ok.inj h]
      exact .misses hgot hqueue
    | cons ev rest =>
      rw [hqueue] at h
      obtain ⟨o,-,hrest⟩ := bind_eq_ok.mp h
      split_ifs at hrest
      · obtain ⟨q,hrelease,hs'⟩ := bind_eq_ok.mp hrest
        rw [← Except.ok.inj hs']
        exact .refreshes hgot hqueue hrelease
      · rw [← Except.ok.inj hrest]
        exact .hands hgot hqueue
  · rw [if_neg hgot] at h
    rw [← Except.ok.inj h]
    exact .skips hgot

/-- What a step in `handleEvent` comes to. -/
inductive DispatchMoves (s : Selector T) : Selector T → Prop
  | idles : DispatchMoves s { s with thread := .updating }
  | stops : DispatchMoves s { s with mRunning := false, thread := .updating }
  | handles {d : EventDispatcher T} (hthread : s.dispatcher.thread ≠ .polling)
    (h : s.dispatcher.threadStep = .ok d) : DispatchMoves s { s with dispatcher := d }

omit [DecidableEq T] in
theorem dispatch_moves (h : s.dispatch = .ok s') : DispatchMoves s s' := by
  unfold dispatch at h
  split at h
  · rw [← Except.ok.inj h]
    exact .idles
  · rw [← Except.ok.inj h]
    exact .stops
  · rename_i hthread _
    obtain ⟨d,hstep,hs'⟩ := bind_eq_ok.mp h
    rw [← Except.ok.inj hs']
    exact .handles hthread hstep

/-- What a step of a call comes to. -/
inductive CallerMoves (s : Selector T) (t : T) (ev : ℕ) : Selector T → Prop
  | rests : CallerMoves s t ev s
  | asks {n : ℕ} (h : s.callers t = some (n,.updating)) (hrunning : s.mRunning = true) :
    CallerMoves s t ev (s.setCaller t n .sending)
  | skips {n : ℕ} (h : s.callers t = some (n,.updating)) (hrunning : s.mRunning ≠ true) :
    CallerMoves s t ev (s.returns t n)
  | sends {n : ℕ} {s₁ : Selector T} (h : s.callers t = some (n,.sending))
    (hfree : .client t ∉ s.writing)
    (hpush : (s.setQueue { s.dispatcher.mQueue with
      events := Function.update s.dispatcher.mQueue.events ev (some {
        mEventId := kSelectorUpdateEventId, mPriority := priorityNormal, mRefCount := 0 }) }).push
          (.client t) ev = .ok s₁) : CallerMoves s t ev (s₁.setCaller t n .sent)
  | waits {n : ℕ} (h : s.callers t = some (n,.sent)) :
    CallerMoves s t ev { s.setCaller t n .waiting with mLock := none }
  | ends {n : ℕ} (h : s.callers t = some (n,.woken)) (hlock : s.mLock = none) :
    CallerMoves s t ev (s.returns t n)

theorem caller_moves {t : T} {ev : ℕ} (h : s.caller t ev = .ok s') : CallerMoves s t ev s' := by
  unfold caller at h
  split at h
  · rw [← Except.ok.inj h]
    exact .rests
  · -- each phase of the call has one way on, or waits for the lock
    rename_i hfree
    split at h
    · rw [← Except.ok.inj h]
      exact .rests
    · rename_i n hc
      rw [← Except.ok.inj h]
      split
      · exact .asks hc ‹_›
      · exact .skips hc ‹_›
    · rename_i n hc
      split at h
      · obtain ⟨s₁,hpush,hs'⟩ := bind_eq_ok.mp h
        rw [← Except.ok.inj hs']
        exact .sends hc hfree hpush
      · rw [← Except.ok.inj h]
        exact .rests
    · rename_i n hc
      rw [← Except.ok.inj h]
      exact .waits hc
    · rw [← Except.ok.inj h]
      exact .rests
    · rename_i n hc
      rw [← Except.ok.inj h]
      split
      · exact .ends hc ‹_›
      · exact .rests

end Moves

section Queueing
variable {s s' : Selector T}

theorem push_eq {a : LockOwner T} {ev : ℕ} (h : s.push a ev = .ok s') :
    ∃ d w, s' = { s with dispatcher := d, writing := w } := by
  obtain ⟨q,-,hs'⟩ := bind_eq_ok.mp h
  exact ⟨_,_,(Except.ok.inj hs').symm⟩

theorem remove_eq {call : EventQueue → Exec EventQueue} (h : s.remove call = .ok s') :
    ∃ d, s' = { s with dispatcher := d } := by
  unfold remove at h
  split at h
  · obtain ⟨q,-,hs'⟩ := bind_eq_ok.mp h
    exact ⟨_,(Except.ok.inj hs').symm⟩
  · exact ⟨_,(Except.ok.inj h).symm⟩

/-- There the list, the lock, the poll set and the calls stay as they are. -/
theorem next_of_queues {a : SelectorAction T} (ha : queues a = true) (h : s.next a = .ok s') :
    ∃ d p w, s' = { s with dispatcher := d, mPipe := p, writing := w } := by
  have hremove (call : EventQueue → Exec EventQueue) (h : s.remove call = .ok s') :
      ∃ d p w, s' = { s with dispatcher := d, mPipe := p, writing := w } := by
    obtain ⟨d,rfl⟩ := remove_eq h
    exact ⟨_,_,_,rfl⟩
  cases a with
  | create ev o => exact ⟨_,_,_,(Except.ok.inj h).symm⟩
  | wakeupClient t => exact ⟨_,_,_,(Except.ok.inj h).symm⟩
  | removeId id => exact hremove (·.removeId id) h
  | removeEvent ev => exact hremove (·.removeEvent ev) h
  | removeAll => exact hremove EventQueue.flush h
  | sendEvent a ev =>
    have hsend : s.sendEvent a ev = .ok s' := h
    unfold sendEvent at hsend
    split at hsend
    · obtain ⟨d,w,rfl⟩ := push_eq hsend
      exact ⟨_,_,_,rfl⟩
    · exact ⟨_,_,_,(Except.ok.inj hsend).symm⟩
  | sendEventSync t ev priority holder =>
    have hsend : s.sendEventSync t ev priority holder = .ok s' := h
    unfold sendEventSync at hsend
    split at hsend
    · obtain ⟨d,-,hs'⟩ := bind_eq_ok.mp hsend
      exact ⟨_,_,_,(Except.ok.inj hs').symm⟩
    · exact ⟨_,_,_,(Except.ok.inj hsend).symm⟩
  | write a =>
    rw [← Except.ok.inj h]
    unfold wakeThread
    split <;> exact ⟨_,_,_,rfl⟩
  | client t =>
    have hclient : s.client t = .ok s' := h
    unfold client at hclient
    split at hclient
    · exact ⟨_,_,_,(Except.ok.inj hclient).symm⟩
    · obtain ⟨d,-,hs'⟩ := bind_eq_ok.mp hclient
      exact ⟨_,_,_,(Except.ok.inj hs').symm⟩
  | addListener _ _ | removeListener _ _ _ | caller _ _ | wakeup _ | poll _ | thread => cases ha

end Queueing

end Selector

end JhCommon
