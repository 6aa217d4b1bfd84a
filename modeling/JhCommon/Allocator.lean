import JhCommon.Exec
import JhCommon.LinkedPath
import JhCommon.Word32

/-! The first-fit allocator of `Allocator.cpp`, with pointers of eight bytes. Addresses are natural
numbers, NULL is none, and the headers in the managed buffer are read from and written to a memory
of nodes. Loops over the free list take fuel. -/
namespace JhCommon
open LinkedPath Word32

structure Node where
  size : ℕ
  next : Option ℕ

structure Allocator where
  mem : ℕ → Node
  mFreeList : Option ℕ
  mBuffer : ℕ
  mSize : ℕ
  mNumFreeNodes : ℕ
  mDoCoalesceOnFree : Bool

namespace Allocator

def ptrSize : ℕ := 8

def alignSize (size : ℕ) : ℕ := (size+ptrSize-1)/ptrSize*ptrSize

/-- A `node_t` takes sixteen bytes: its size is padded to a pointer. -/
def nodeSize : ℕ := alignSize 16

def smallestBlock : ℕ := alignSize 16

def setSize (s : Allocator) (n size : ℕ) : Allocator :=
  { s with mem := Function.update s.mem n { s.mem n with size := size } }

def setNext (s : Allocator) (n : ℕ) (next : Option ℕ) : Allocator :=
  { s with mem := Function.update s.mem n { s.mem n with next := next } }

def next (s : Allocator) (n : ℕ) : Option ℕ := (s.mem n).next

/-- The constructor, over whatever the buffer holds. -/
def init (mem : ℕ → Node) (buffer size : ℕ) (doCoalesceOnFree : Bool) : Allocator :=
  { mem := Function.update mem buffer { size := size, next := none }
    mFreeList := some buffer
    mBuffer := buffer
    mSize := size
    mNumFreeNodes := 1
    mDoCoalesceOnFree := doCoalesceOnFree }

/-- The loop of `join_free_nodes` from node n on. -/
def joinFrom : ℕ → Allocator → Option ℕ → ℕ → Exec (ℕ × Allocator)
  | _, s, none, joinCount => .ok (joinCount,s)
  | 0, _, some _, _ => .error .outOfFuel
  | fuel+1, s, some n, joinCount =>
    match (s.mem n).next with
    | none => .ok (joinCount,s)
    | some next =>
      if (next : ℤ)-n = int32 (s.mem n).size then
        let s := s.setSize n (add32 (s.mem n).size (s.mem next).size)
        let s := s.setNext n (s.mem next).next
        joinFrom fuel { s with mNumFreeNodes := sub32 s.mNumFreeNodes 1 } (some n) (joinCount+1)
      else joinFrom fuel s (some next) joinCount

def joinFreeNodes (fuel : ℕ) (s : Allocator) : Exec (ℕ × Allocator) :=
  joinFrom fuel s s.mFreeList 0

/-- The bytes a block takes for a request, in 32-bit arithmetic. -/
def blockSize (size : ℕ) : ℕ := (alignSize size % 2^32+nodeSize) % 2^32

/-- The search loop of `alloc`: the previous node and the first one that is large enough. -/
def findFit (fuel : ℕ) (s : Allocator) (size : ℕ) (prev n : Option ℕ) :
    Exec (Option ℕ × Option ℕ) :=
  seek .outOfFuel s.next (fun n => (s.mem n).size < size) fuel prev n

/-- Split the node, or take all of it. The pointer returned is one header behind the node. -/
def takeNode (s : Allocator) (prev : Option ℕ) (n size : ℕ) : Option ℕ × Allocator :=
  if sub32 (s.mem n).size size ≥ nodeSize+smallestBlock then
    let s := s.setSize n (sub32 (s.mem n).size size)
    let n := n+(s.mem n).size
    let s := (s.setSize n size).setNext n none
    (some (n+nodeSize),s)
  else
    let s := { s with mNumFreeNodes := sub32 s.mNumFreeNodes 1 }
    let s := match prev with
      | some prev => s.setNext prev (s.mem n).next
      | none => { s with mFreeList := (s.mem n).next }
    (some (n+nodeSize),s.setNext n none)

/-- `!mDoCoalesceOnFree && (join_free_nodes() > 0)` -/
def joinedSome (fuel : ℕ) (s : Allocator) : Exec (Bool × Allocator) :=
  if s.mDoCoalesceOnFree then .ok (false,s)
  else do
    let (joined,s) ← joinFreeNodes fuel s
    .ok (decide (joined > 0),s)

/-- The body of `alloc` from its retry label on. -/
def retry : ℕ → Allocator → ℕ → Option ℕ → Option ℕ → Exec (Option ℕ × Allocator)
  | 0, _, _, _, _ => .error .outOfFuel
  | fuel+1, s, size, prev, n => do
    match ← findFit (fuel+1) s size prev n with
    | (prev,some n) => .ok (s.takeNode prev n size)
    | (prev,none) =>
      let (again,s) ← s.joinedSome (fuel+1)
      -- n is still NULL when the search is entered again
      if again then retry fuel s size prev none else .ok (none,s)

def alloc (fuel : ℕ) (s : Allocator) (size : ℕ) : Exec (Option ℕ × Allocator) :=
  retry fuel s (blockSize size) none s.mFreeList

/-- The search loop of `free`: the last node below cur_node and the one after it. -/
def findSlot (fuel : ℕ) (s : Allocator) (curNode : ℕ) (prev n : Option ℕ) :
    Exec (Option ℕ × Option ℕ) :=
  seek .outOfFuel s.next (fun n => n < curNode) fuel prev n

/-- Put cur_node behind prev, or join it to prev. The node returned is the one to go on with. -/
def insertNode (s : Allocator) (prev : Option ℕ) (curNode : ℕ) : ℕ × Allocator :=
  match prev with
  | some prev =>
    if s.mDoCoalesceOnFree ∧ prev+(s.mem prev).size = curNode then
      (prev,s.setSize prev (add32 (s.mem prev).size (s.mem curNode).size))
    else
      let s := { s with mNumFreeNodes := add32 s.mNumFreeNodes 1 }
      let s := s.setNext curNode (s.mem prev).next
      (curNode,s.setNext prev (some curNode))
  | none =>
    let s := s.setNext curNode s.mFreeList
    (curNode,{ s with mFreeList := some curNode })

def joinNext (s : Allocator) (curNode : ℕ) : Allocator :=
  match (s.mem curNode).next with
  | none => s
  | some next =>
    if s.mDoCoalesceOnFree ∧ (next : ℤ)-curNode = int32 (s.mem curNode).size then
      let s := s.setSize curNode (add32 (s.mem curNode).size (s.mem next).size)
      let s := s.setNext curNode (s.mem next).next
      { s with mNumFreeNodes := sub32 s.mNumFreeNodes 1 }
    else s

def free (fuel : ℕ) (s : Allocator) (buf : Option ℕ) : Exec Allocator :=
  match buf with
  | none => .ok s
  | some buf =>
    if buf < s.mBuffer ∨ buf ≥ s.mBuffer+s.mSize then .ok s
    else do
      let curNode := buf-nodeSize
      let (prev,_) ← findSlot fuel s curNode none s.mFreeList
      let (curNode,s) := s.insertNode prev curNode
      .ok (s.joinNext curNode)

/-- The summing loop of `getFreeSpace`. -/
def sumFrom : ℕ → Allocator → Option ℕ → ℕ → Exec ℕ
  | _, _, none, size => .ok size
  | 0, _, some _, _ => .error .outOfFuel
  | fuel+1, s, some n, size => sumFrom fuel s (s.mem n).next (add32 size (s.mem n).size)

def getFreeSpace (fuel : ℕ) (s : Allocator) : Exec (ℕ × Allocator) := do
  let n := s.mFreeList
  -- join free nodes so the free space number is accurate
  let (_,s) ← if s.mDoCoalesceOnFree then .ok (0,s) else joinFreeNodes fuel s
  let size ← sumFrom fuel s n 0
  .ok (size,s)

end Allocator

end JhCommon
