import JhCommon.SelectorListeners

/-! The sockets of `Socket.cpp` and the files of `File.cpp` as the selectors know them. Objects,
listeners and selectors are known by their addresses, and an object's is not used twice. What the
system returns comes with each call, and between the calls of a listener and its return others are
made, while the traversal that the call is part of waits. Reading, writing and addresses are left
out. -/
namespace JhCommon

def pollOut : BitVec 16 := 0x04

namespace Watching

def kNoError : ℤ := 0

def kNotInitialized : ℤ := 12

/-- A socket, and whether it is a ServerSocket. -/
structure Socket where
  mConnectedAsync : Bool
  mListener : Option ℕ
  mFd : ℤ
  mSelector : Option ℕ
  mConnected : Bool
  mSockStream : Bool
  server : Bool

structure File where
  mFd : ℤ
  mSelector : Option ℕ
  mListener : Option ℕ

/-- What listens to a descriptor. -/
inductive Watched
  | socket (k : Socket)
  | file (f : File)

/-- What a listener is told. -/
inductive Callback
  | handleConnected (socket : ℕ) (success : Bool)
  | handleData (obj : ℕ)
  | handleClose (socket : ℕ)
  | handleAccept (server socket : ℕ)

/-- A call whose answer is waited for, and the socket that it decides about. -/
inductive Pending
  | handleClose (socket : ℕ)
  | handleAccept (socket : ℕ)

inductive Outcome
  | none
  | int (res : ℤ)
  | err (code : ℤ)
  | socket (s : Option ℕ)
  | told (listener : ℕ) (callback : Callback)

/-- What the calls of the system return on the way to a connection. A refusal is an error that is
not EINPROGRESS. -/
structure ConnectCalls where
  getFlags : Bool
  setFlags : Bool
  refused : Bool
  restoreFlags : Bool
  select : ℤ
  getsockopt : ℤ
  ret : ℤ

/-- What they return where a file has events. -/
structure EventCalls where
  getsockopt : ℤ
  bytesAvail : ℤ
  accept : Option ℤ
  closeError : Option ℤ

/-- A `callListeners` that has not returned, with the nodes from its iterator on. There are none if the
node that the iterator stands at has been deleted. -/
structure Traversal where
  fd : ℤ
  revents : BitVec 16
  rest : Option (List ListenerNode)

/-- A node is put behind the list. The end stays the end. -/
def Traversal.push (t : Traversal) (node : ListenerNode) : Traversal :=
  match t.rest with
  | some (n :: rest) => { t with rest := some (n :: rest ++ [node]) }
  | _ => t

/-- The nodes that match are deleted. -/
def Traversal.remove (t : Traversal) (n : ListenerNode) : Traversal :=
  { t with
    rest := t.rest.bind fun rest =>
      if rest.head?.any (fun node => node.matches n) then none
      else some (rest.filter fun node => !node.matches n) }

end Watching

/-- The objects, the lists of the selectors with what traverses them, and the calls that have not
returned. The last field has the objects whose nodes a selector has dropped. -/
structure Watching where
  objs : ℕ → Option Watching.Watched
  made : ℕ
  mLists : ℕ → List ListenerNode
  traversals : ℕ → Option Watching.Traversal
  calls : List Watching.Pending
  lost : Finset ℕ

namespace Watching

def start : Watching := ⟨fun _ => none,0,fun _ => [],fun _ => none,[],∅⟩

def put (w : Watching) (a : ℕ) (o : Watched) : Watching :=
  { w with objs := Function.update w.objs a (some o) }

def free (w : Watching) (a : ℕ) : Watching := { w with objs := Function.update w.objs a none }

/-- A new object, behind the next address. -/
def alloc (w : Watching) (o : Watched) : Watching := { w.put w.made o with made := w.made+1 }

def socketAt (w : Watching) (s : ℕ) : Exec Socket :=
  match w.objs s with
  | some (.socket k) => .ok k
  | _ => .error .useAfterFree

def fileAt (w : Watching) (f : ℕ) : Exec File :=
  match w.objs f with
  | some (.file x) => .ok x
  | _ => .error .useAfterFree

/-- `Selector::addListener`. -/
def addListener (w : Watching) (sel : ℕ) (fd : ℤ) (events : BitVec 16) (a : ℕ) (private_data : ℤ) :
    Watching :=
  let node : ListenerNode := ⟨fd,events,some a,private_data⟩
  { w with
    mLists := Function.update w.mLists sel (w.mLists sel ++ [node])
    traversals := Function.update w.traversals sel ((w.traversals sel).map fun t => t.push node)
    lost := w.lost.erase a }

/-- `Selector::removeListener`. -/
def removeListener (w : Watching) (sel : ℕ) (fd : ℤ) : Watching :=
  let n := listenerNode fd none
  { w with
    mLists := Function.update w.mLists sel ((w.mLists sel).filter fun node => !node.matches n)
    traversals := Function.update w.traversals sel ((w.traversals sel).map fun t => t.remove n) }

/-- A selector that is set no longer has the descriptor. -/
def leave (w : Watching) (fd : ℤ) : Option ℕ → Watching
  | some sel => w.removeListener sel fd
  | none => w

/-- `Socket( bool )` and `ServerSocket( bool )`, for the descriptor that the system returns. -/
def newSocket (sock_stream server : Bool) (fd : ℤ) : Socket :=
  { mConnectedAsync := false, mListener := none, mFd := fd, mSelector := none, mConnected := false,
    mSockStream := sock_stream, server := server }

def setConnected (w : Watching) (s : ℕ) (k : Socket) (state : Bool) (flags : BitVec 16) : Watching :=
  -- if it is already in this state nothing is done
  if k.mConnected = state then w
  else
    let w := w.put s (.socket { k with mConnected := state })
    match k.mSelector, k.mListener with
    | some sel, some _ =>
      if state = true then w.addListener sel k.mFd flags s 0 else w.removeListener sel k.mFd
    | _, _ => w

def connect (w : Watching) (s : ℕ) (k : Socket) (res : ℤ) : Outcome × Watching :=
  (.int res,if res = 0 then w.setConnected s k true pollIn else w)

/-- `connect` with a timeout. -/
def connectTimeout (w : Watching) (s : ℕ) (k : Socket) (c : ConnectCalls) : Outcome × Watching :=
  if c.getFlags = false then (.int (-1),w)
  else if c.setFlags = false then (.int (-1),w)
  else if c.restoreFlags = false then (.int (-1),w)
  else if c.refused = true then (.int (-1),w)
  else if c.select < 0 then (.int (-1),w)
  else if c.select = 0 then (.int (-1),w)
  else if c.getsockopt < 0 then (.int (-1),w)
  else if c.ret ≠ 0 then (.int (-1),w)
  else (.int c.getsockopt,if c.getsockopt = 0 then w.setConnected s k true pollIn else w)

def connectAsync (w : Watching) (s : ℕ) (k : Socket) (c : ConnectCalls) : Outcome × Watching :=
  if c.getFlags = false then (.int (-1),w)
  else if c.setFlags = false then (.int (-1),w)
  else if c.refused = true then (.int (-1),w)
  else
    let k := { k with mConnectedAsync := true }
    let w := (w.put s (.socket k)).setConnected s k true (pollIn ||| pollOut)
    (.int (if c.restoreFlags = false then -1 else 0),w)

/-- `setSelector` of a socket. -/
def setSelector (w : Watching) (s : ℕ) (k : Socket) (listener selector : Option ℕ) : Watching :=
  let k' := { k with mListener := listener, mSelector := selector }
  if k.mConnected = true then
    let w := (w.leave k.mFd k.mSelector).put s (.socket k')
    match selector, listener with
    | some sel, some _ => w.addListener sel k.mFd pollIn s 0
    | _, _ => w
  else w.put s (.socket k')

/-- `close` of a socket, with the error of the system's `close`. -/
def close (w : Watching) (s : ℕ) (k : Socket) (error : Option ℤ) : ℤ × Watching :=
  if k.mFd ≠ -1 then
    let w := w.setConnected s k false pollIn
    (error.getD kNoError,w.put s (.socket { k with mConnected := false, mFd := -1 }))
  else (kNotInitialized,w)

/-- `~Socket()`. -/
def delete (w : Watching) (s : ℕ) (k : Socket) (error : Option ℤ) : Watching :=
  (w.close s k error).2.free s

def bind (w : Watching) (s : ℕ) (k : Socket) (res : ℤ) : Outcome × Watching :=
  -- nothing listens on a UDP socket, so it is connected here
  (.int res,if res = 0 ∧ k.mSockStream = false then w.setConnected s k true pollIn else w)

def listen (w : Watching) (s : ℕ) (k : Socket) (res : ℤ) : Outcome × Watching :=
  (.int res,if res = 0 then w.setConnected s k true pollIn else w)

/-- The socket that `accept` makes for a descriptor. -/
def newAccepted (w : Watching) (fd : ℤ) : Watching :=
  w.alloc (.socket { newSocket true false fd with mConnected := true })

def accept (w : Watching) : Option ℤ → Outcome × Watching
  | some fd => (.socket (some w.made),w.newAccepted fd)
  | none => (.socket none,w)

/-- `Socket::processFileEvents`. -/
def socketEvents (w : Watching) (s : ℕ) (k : Socket) (events : BitVec 16) (e : EventCalls) :
    Outcome × Watching :=
  if events &&& pollOut ≠ 0 ∧ k.mConnectedAsync = true then
    let w := w.put s (.socket { k with mConnectedAsync := false })
    let w := match k.mSelector with
      | some sel => (w.removeListener sel k.mFd).addListener sel k.mFd pollIn s 0
      | none => w
    match k.mListener with
    | none => (.none,w)
    | some l => (.told l (.handleConnected s (decide (¬e.getsockopt < 0))),w)
  else
    match if events &&& pollIn ≠ 0 ∧ e.bytesAvail ≠ 0 then k.mListener else none with
    | some l => (.told l (.handleData s),w)
    | none =>
      if (events &&& pollIn ≠ 0 ∧ e.bytesAvail = 0) ∨ events &&& pollHup ≠ 0 then
        match k.mListener with
        | some l => (.told l (.handleClose s),{ w with calls := w.calls ++ [.handleClose s] })
        | none => (.none,(w.close s k e.closeError).2)
      else (.none,w)

/-- `ServerSocket::processFileEvents`. -/
def serverEvents (w : Watching) (s : ℕ) (k : Socket) (events : BitVec 16) (e : EventCalls) :
    Outcome × Watching :=
  if events &&& pollIn ≠ 0 then
    if k.mSockStream = true then
      match e.accept with
      | none => (.none,w)
      | some fd =>
        let new := w.made
        let w := w.newAccepted fd
        match k.mListener with
        | some l => (.told l (.handleAccept s new),{ w with calls := w.calls ++ [.handleAccept new] })
        -- nobody takes the connection
        | none => (.none,w.delete new { newSocket true false fd with mConnected := true } e.closeError)
    else
      match k.mListener with
      | some l => (.told l (.handleData s),w)
      | none => (.none,w)
  else (.none,w)

/-- `setSelector` of a file. -/
def setFileSelector (w : Watching) (a : ℕ) (f : File) (listener selector : Option ℕ) (events : BitVec 16) :
    Watching :=
  if f.mFd ≠ -1 then
    let w := (w.leave f.mFd f.mSelector).put a (.file { f with mSelector := selector, mListener := listener })
    match selector with
    | some sel => w.addListener sel f.mFd events a a
    | none => w
  else w

/-- `open`, with the descriptor or the error of the system's `open`. -/
def openFile (w : Watching) (a : ℕ) (f : File) : Except ℤ ℤ → Outcome × Watching
  | .ok fd => (.err kNoError,w.put a (.file { f with mFd := fd }))
  | .error e => (.err e,w.put a (.file { f with mFd := -1 }))

/-- `close` of a file. The selector is not told. -/
def closeFile (w : Watching) (a : ℕ) (f : File) (error : Option ℤ) : ℤ × Watching :=
  if f.mFd ≠ -1 then (error.getD kNoError,w.put a (.file { f with mFd := -1 }))
  else (kNotInitialized,w)

/-- `File( int fd )`, and `File()` for -1. -/
def newFile (w : Watching) (fd : ℤ) : Watching := w.alloc (.file ⟨fd,none,none⟩)

/-- `callListeners` is called, for the events that a descriptor has. -/
def callListeners (w : Watching) (sel : ℕ) (fd : ℤ) (revents : BitVec 16) : Watching :=
  { w with traversals := Function.update w.traversals sel (some ⟨fd,revents,some (w.mLists sel)⟩) }

/-- The node in front of the rest is dropped before its listener is called. -/
def hangUp (w : Watching) (sel : ℕ) (node : ListenerNode) (rest : List ListenerNode) (revents : BitVec 16) :
    Watching :=
  if revents &&& (pollHup ||| pollNval) ≠ 0 then
    { w with
      mLists := Function.update w.mLists sel
        ((w.mLists sel).take ((w.mLists sel).length - (rest.length+1)) ++ rest)
      lost := w.lost ∪ node.mListener.toFinset }
  else w

/-- `processFileEvents` of the listener that a node had. -/
def processFileEvents (w : Watching) (node : ListenerNode) (revents : BitVec 16) (e : EventCalls) :
    Exec (Outcome × Watching) :=
  match node.mListener with
  | none => .ok (.none,w)
  | some a =>
    match w.objs a with
    | none => .error .useAfterFree
    | some (.socket k) =>
      .ok (if k.server = true then w.serverEvents a k revents e else w.socketEvents a k revents e)
    | some (.file _) => do
      let f ← w.fileAt node.mPrivateData.toNat
      match f.mListener with
      | some l => .ok (.told l (.handleData node.mPrivateData.toNat),w)
      | none => .ok (.none,w)

/-- One turn of the loop of `callListeners`. The iterator goes on before the listener is called. -/
def visit (w : Watching) (sel : ℕ) (e : EventCalls) : Exec (Outcome × Watching) :=
  match w.traversals sel with
  | none => .ok (.none,w)
  | some t =>
    match t.rest with
    | none => .error .useAfterFree
    | some [] => .ok (.none,{ w with traversals := Function.update w.traversals sel none })
    | some (node :: rest) =>
      let w := { w with traversals := Function.update w.traversals sel (some { t with rest := some rest }) }
      if node.matches (listenerNode t.fd none) = true then
        (w.hangUp sel node rest t.revents).processFileEvents node t.revents e
      else .ok (.none,w)

/-- A listener returns its answer from the i-th of the calls. -/
def returned (w : Watching) (i : ℕ) (answer : Bool) (error : Option ℤ) : Exec (Outcome × Watching) :=
  match w.calls[i]? with
  | none => .ok (.none,w)
  | some c =>
    let w := { w with calls := w.calls.eraseIdx i }
    if answer = true then .ok (.none,w)
    else
      match c with
      | .handleClose s => do
        let k ← w.socketAt s
        .ok (.none,(w.close s k error).2)
      | .handleAccept s => do
        let k ← w.socketAt s
        .ok (.none,w.delete s k error)

end Watching

open Watching

inductive WatchingOp
  | newSocket (sock_stream server : Bool) (fd : ℤ)
  | connect (s : ℕ) (res : ℤ)
  | connectTimeout (s : ℕ) (calls : ConnectCalls)
  | connectAsync (s : ℕ) (calls : ConnectCalls)
  | bind (s : ℕ) (res : ℤ)
  | listen (s : ℕ) (res : ℤ)
  | accept (s : ℕ) (fd : Option ℤ)
  | setSelector (s : ℕ) (listener selector : Option ℕ)
  | close (s : ℕ) (error : Option ℤ)
  | delete (s : ℕ) (error : Option ℤ)
  | newFile
  | pipe (fd fd' : ℤ)
  | openFile (f : ℕ) (fd : Except ℤ ℤ)
  | setFileSelector (f : ℕ) (listener selector : Option ℕ) (events : BitVec 16)
  | closeFile (f : ℕ) (error : Option ℤ)
  | deleteFile (f : ℕ) (error : Option ℤ)
  | callListeners (sel : ℕ) (fd : ℤ) (revents : BitVec 16)
  | visit (sel : ℕ) (calls : EventCalls)
  | returned (i : ℕ) (answer : Bool) (error : Option ℤ)

namespace Watching

def step (w : Watching) : WatchingOp → Exec (Outcome × Watching)
  | .newSocket sock_stream server fd =>
    .ok (.socket (some w.made),w.alloc (.socket (newSocket sock_stream server fd)))
  | .connect s res => do .ok (w.connect s (← w.socketAt s) res)
  | .connectTimeout s calls => do .ok (w.connectTimeout s (← w.socketAt s) calls)
  | .connectAsync s calls => do .ok (w.connectAsync s (← w.socketAt s) calls)
  | .bind s res => do .ok (w.bind s (← w.socketAt s) res)
  | .listen s res => do .ok (w.listen s (← w.socketAt s) res)
  | .accept s fd => do
    let _ ← w.socketAt s
    .ok (w.accept fd)
  | .setSelector s listener selector => do
    .ok (.none,w.setSelector s (← w.socketAt s) listener selector)
  | .close s error => do
    let (code,w) := w.close s (← w.socketAt s) error
    .ok (.err code,w)
  | .delete s error => do .ok (.none,w.delete s (← w.socketAt s) error)
  | .newFile => .ok (.none,w.newFile (-1))
  | .pipe fd fd' => .ok (.none,(w.newFile fd).newFile fd')
  | .openFile f fd => do .ok (w.openFile f (← w.fileAt f) fd)
  | .setFileSelector f listener selector events => do
    .ok (.none,w.setFileSelector f (← w.fileAt f) listener selector events)
  | .closeFile f error => do
    let (code,w) := w.closeFile f (← w.fileAt f) error
    .ok (.err code,w)
  | .deleteFile f error => do .ok (.none,(w.closeFile f (← w.fileAt f) error).2.free f)
  | .callListeners sel fd revents => .ok (.none,w.callListeners sel fd revents)
  | .visit sel calls => w.visit sel calls
  | .returned i answer error => w.returned i answer error

end Watching

end JhCommon
