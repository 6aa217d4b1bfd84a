import JhCommon.Exec

/-! The event queue of `EventQueue.cpp`. Events are known by their addresses; the objects there
have a reference count and are gone when it drops to zero. Locking and signalling are left out. -/
namespace JhCommon

structure Event where
  mEventId : ℤ
  mPriority : ℤ
  mRefCount : ℤ

def priorityNormal : ℤ := 0

/-- The list of queued events and the event objects that exist. -/
structure EventQueue where
  mQueue : List ℕ
  events : ℕ → Option Event

namespace EventQueue

def event (q : EventQueue) (ev : ℕ) : Exec Event :=
  match q.events ev with
  | none => .error .useAfterFree
  | some o => .ok o

/-- The count is an int. -/
def addRef (q : EventQueue) (ev : ℕ) : Exec EventQueue := do
  let o ← q.event ev
  if o.mRefCount < 2^31-1 then
    .ok { q with events := Function.update q.events ev (some { o with mRefCount := o.mRefCount+1 }) }
  else .error .overflow

/-- The object deletes itself when its last reference is released. -/
def release (q : EventQueue) (ev : ℕ) : Exec EventQueue := do
  let o ← q.event ev
  let count := o.mRefCount-1
  let left := if count = 0 then none else some { o with mRefCount := count }
  .ok { q with events := Function.update q.events ev left }

/-- The loop of `SendEvent`, with the insertion at the end when it has not inserted. -/
def insertEvent (q : EventQueue) (ev : ℕ) (priority : ℤ) : List ℕ → Exec (List ℕ)
  | [] => .ok [ev]
  | i :: rest => do
    let o ← q.event i
    if priority > o.mPriority then .ok (ev :: i :: rest)
    else do
      let rest ← insertEvent q ev priority rest
      .ok (i :: rest)

def sendEvent (q : EventQueue) (ev : ℕ) : Exec EventQueue := do
  let q ← q.addRef ev
  let o ← q.event ev
  if o.mPriority = priorityNormal then .ok { q with mQueue := q.mQueue ++ [ev] }
  else do
    let queue ← q.insertEvent ev o.mPriority q.mQueue
    .ok { q with mQueue := queue }

def pollEvent (q : EventQueue) : Option ℕ × EventQueue :=
  match q.mQueue with
  | [] => (none,q)
  | ret :: rest => (some ret,{ q with mQueue := rest })

/-- The loop of both `Remove`s from iterator i on. Position 0 is the list's head, before the first
element, and its tail is behind the last one. -/
def removeFrom (test : EventQueue → ℕ → Exec Bool) : ℕ → EventQueue → ℕ → Exec EventQueue
  | 0, _, _ => .error .outOfFuel
  | fuel+1, q, i =>
    if i = q.mQueue.length+1 then .ok q
    else
      match q.mQueue[i-1]? with
      | none => .error .outOfBounds
      | some ev => do
        if ← test q ev then
          let q ← q.release ev
          -- erase returns the iterator to the next element, which is now at i
          let q := { q with mQueue := q.mQueue.eraseIdx (i-1) }
          let i := i-1
          removeFrom test fuel q (i+1)
        else removeFrom test fuel q (i+1)

def removeId (q : EventQueue) (id : ℤ) : Exec EventQueue :=
  removeFrom (fun q ev => do
    let o ← q.event ev
    .ok (decide (o.mEventId = id))) (q.mQueue.length+1) q 1

def removeEvent (q : EventQueue) (ev : ℕ) : Exec EventQueue :=
  removeFrom (fun _ i => .ok (decide (i = ev))) (q.mQueue.length+1) q 1

/-- The loop of `Flush`, over what is left in the queue. -/
def flushFrom (q : EventQueue) : List ℕ → Exec EventQueue
  | [] => .ok { q with mQueue := [] }
  | temp :: rest => do
    let q ← { q with mQueue := rest }.release temp
    flushFrom q rest

def flush (q : EventQueue) : Exec EventQueue := q.flushFrom q.mQueue

end EventQueue

end JhCommon
