import JhCommon.RefCount
import JhCommon.RingMemory
import JhCommon.Word32

/-! The string of `jh_string.h`, over plain chars. A string variable is a smart pointer to its
Rep; one that is not constructed, or destroyed, holds NULL. A memcpy reads its whole source
before it writes. -/
namespace JhCommon
open RingMemory Word32

/-- The fields of a Rep, next to its reference count. -/
structure Rep where
  mCapacity : ℕ
  mLength : ℕ
  mData : ℕ → UInt8

/-- A `const charT*`: a C string of the caller's, or a position in the buffer of a Rep. -/
inductive CharPtr
  | literal (s : List UInt8)
  | inRep (r pos : ℕ)

def npos : ℕ := 4294967295

namespace Rep

/-- How many characters the constructor allocated. -/
def size (p : Rep) : ℕ := if p.mCapacity = 0 then 1 else p.mCapacity

end Rep

namespace CharPtr

/-- The first n characters. Reading none of them reads nothing. -/
def read (heap : RefHeap Rep) (s : CharPtr) (n : ℕ) : Exec (List UInt8) :=
  if n = 0 then .ok []
  else match s with
    | .literal cs => if n ≤ cs.length+1 then .ok ((cs ++ [0]).take n) else .error .outOfBounds
    | .inRep r pos => do
      let c ← heap.deref r
      if pos+n ≤ c.obj.size then .ok (load c.obj.mData pos n) else .error .outOfBounds

def strlen (heap : RefHeap Rep) : CharPtr → Exec ℕ
  | .literal cs => .ok (cs.takeWhile (· ≠ 0)).length
  | .inRep r pos => do
    let c ← heap.deref r
    match (load c.obj.mData pos (c.obj.size-pos)).findIdx? (· = 0) with
    | some n => .ok n
    | none => .error .outOfBounds

/-- `if ( n == npos ) n = strlen( s )`, into a 32-bit n. -/
def lengthOf (heap : RefHeap Rep) (s : CharPtr) (n : ℕ) : Exec ℕ :=
  if n = npos then do
    let k ← s.strlen heap
    .ok (add32 k 0)
  else .ok n

end CharPtr

namespace Rep

/-- `Rep( int capacity )` over what the new storage holds. A capacity that is negative as an int
makes new[] throw. -/
def new (raw : ℕ → UInt8) (capacity : ℕ) : Exec Rep :=
  if int32 capacity < 0 then .error .lengthError
  else .ok { mCapacity := (int32 capacity).toNat, mLength := 0, mData := store raw 0 [0] }

/-- A read through `at( i )`. -/
def getAt (p : Rep) (i : ℕ) : Exec UInt8 :=
  if i < p.size then .ok (p.mData i) else .error .outOfBounds

/-- Write characters from position i on. -/
def setAt (p : Rep) (i : ℕ) (cs : List UInt8) : Exec Rep :=
  if i+cs.length ≤ p.size then .ok { p with mData := store p.mData i cs }
  else .error .outOfBounds

/-- `setLength( n )` with the null character that follows it. -/
def terminate (p : Rep) (n : ℕ) : Exec Rep := setAt { p with mLength := n } n [0]

def assign (p : Rep) (heap : RefHeap Rep) (s : CharPtr) (n : ℕ) : Exec Rep := do
  let n := if n ≥ p.mCapacity then sub32 p.mCapacity 1 else n
  let cs ← s.read heap n
  let p ← p.setAt 0 cs
  p.terminate n

/-- `Rep( const charT *s, size_type n )`. -/
def newFrom (raw : ℕ → UInt8) (heap : RefHeap Rep) (s : CharPtr) (n : ℕ) : Exec Rep :=
  assign { mCapacity := add32 n 1, mLength := 0, mData := raw } heap s n

/-- The loop of insert, which moves the k characters from pos1 on up by n, the last one first. -/
def shiftUp (pos1 n : ℕ) : ℕ → Rep → Exec Rep
  | 0, p => .ok p
  | k+1, p => do
    let c ← p.getAt (pos1+k)
    let p ← p.setAt (add32 (pos1+k) n) [c]
    shiftUp pos1 n k p

/-- The loop of erase, which moves k characters from i on down by n, the first one first. -/
def shiftDown (n : ℕ) : ℕ → ℕ → Rep → Exec Rep
  | 0, _, p => .ok p
  | k+1, i, p => do
    let c ← p.getAt i
    let p ← p.setAt (sub32 i n) [c]
    shiftDown n k (i+1) p

end Rep

/-- The string variables of a program. Next to the heap stands what new storage holds. -/
structure Strings where
  heap : RefHeap Rep
  raw : ℕ → ℕ → UInt8

namespace Strings

/-- n variables, none of them constructed. -/
def init (raw : ℕ → ℕ → UInt8) (n : ℕ) : Strings := { heap := .init n, raw := raw }

def rep (h : Strings) (v : ℕ) : Exec (ℕ × RefCount Rep) :=
  match h.heap.held v with
  | none => .error .nullDeref
  | some r => do
    let c ← h.heap.deref r
    .ok (r,c)

def length (h : Strings) (v : ℕ) : Exec ℕ := do
  let (_,c) ← h.rep v
  .ok c.obj.mLength

def capacity (h : Strings) (v : ℕ) : Exec ℕ :=
  if h.heap.held v = none then .ok 0
  else do
    let (_,c) ← h.rep v
    .ok c.obj.mCapacity

/-- `mData = jh_new Rep( .. )`. -/
def adopt (h : Strings) (v : ℕ) (p : Rep) : Strings := { h with heap := h.heap.adopt v p }

/-- A write to the Rep that the variable holds. -/
def edit (h : Strings) (v : ℕ) (f : Rep → Exec Rep) : Exec Strings := do
  let (r,c) ← h.rep v
  let p ← f c.obj
  .ok { h with heap := h.heap.put r p }

/-- `Rep::copyOnWrite`, and the caller's assignment of the copy, if there is one. -/
def copyOnWrite (h : Strings) (v : ℕ) : Exec Strings := do
  let (r,c) ← h.rep v
  if c.mRefCount > 1 then
    let nr ← Rep.new (h.raw h.heap.fresh) c.obj.mCapacity
    let nr ← nr.assign h.heap (.inRep r 0) c.obj.mLength
    .ok (h.adopt v nr)
  else .ok h

def reserve (h : Strings) (v : ℕ) (res : ℕ) : Exec Strings := do
  let (r,c) ← h.rep v
  let capacity := c.obj.mCapacity
  if res > capacity then
    -- capacity() is a size_type, which is unsigned, and res is a size_t
    let res := if res < add32 capacity capacity then add32 capacity capacity else res
    let nr ← Rep.new (h.raw h.heap.fresh) res
    let nr ← nr.assign h.heap (.inRep r 0) c.obj.mLength
    .ok (h.adopt v nr)
  else .ok h

/-- `assign( const basic_string& )`, and with it operator= and the copy constructor. -/
def assignString (h : Strings) (v w : ℕ) : Exec Strings := do
  let (r,_) ← h.rep w
  let heap ← h.heap.assign v (some r)
  .ok { h with heap := heap }

/-- `assign( const charT*, size_type )`, and with it the constructor. -/
def assignChars (h : Strings) (v : ℕ) (s : CharPtr) (n : ℕ) : Exec Strings := do
  let n ← s.lengthOf h.heap n
  let capacity ← h.capacity v
  if n ≥ capacity then
    let nr ← Rep.newFrom (h.raw h.heap.fresh) h.heap s n
    .ok (h.adopt v nr)
  else h.edit v fun p => p.assign h.heap s n

def assignRange (h : Strings) (v w pos n : ℕ) : Exec Strings := do
  let (r,c) ← h.rep w
  if pos = 0 ∧ n ≥ c.obj.mLength then h.assignString v w
  else h.assignChars v (.inRep r pos) n

/-- A write through the reference that the non-const `operator[]` returns. -/
def setAt (h : Strings) (v i : ℕ) (c : UInt8) : Exec Strings :=
  h.edit v fun p => p.setAt (if p.mLength > i then i else p.mLength) [c]

def appendChars (h : Strings) (v : ℕ) (s : CharPtr) (n : ℕ) : Exec Strings := do
  let n ← s.lengthOf h.heap n
  let length ← h.length v
  let h ← h.reserve v (add32 (add32 length n) 1)
  let cs ← s.read h.heap n
  h.edit v fun p => do
    let p ← p.setAt p.mLength cs
    p.terminate (add32 p.mLength n)

/-- `append( size_type, charT )`. The loop writes one character after the other. -/
def appendFill (h : Strings) (v n : ℕ) (c : UInt8) : Exec Strings := do
  let length ← h.length v
  let h ← h.reserve v (add32 (add32 length n) 1)
  h.edit v fun p => do
    let p ← p.setAt p.mLength (List.replicate n c)
    p.terminate (add32 p.mLength n)

/-- The number of turns of `for( int i = length() - 1; i >= (int)pos1; i-- )`. -/
def turns (length pos1 : ℕ) : ℕ := (int32 (sub32 length 1)-int32 pos1+1).toNat

/-- What the two inserts share: room for n more characters at pos1, in a Rep of one's own. -/
def openGap (h : Strings) (v pos1 n : ℕ) : Exec Strings := do
  let h ← h.copyOnWrite v
  let length ← h.length v
  let h ← h.reserve v (add32 (add32 length n) 1)
  h.edit v fun p => p.shiftUp pos1 n (turns p.mLength pos1)

def insertChars (h : Strings) (v pos1 : ℕ) (s : CharPtr) (n : ℕ) : Exec Strings := do
  let n ← s.lengthOf h.heap n
  let length ← h.length v
  if pos1 ≥ length then .ok h
  else
    let h ← h.openGap v pos1 n
    let cs ← s.read h.heap n
    h.edit v fun p => do
      let p ← p.setAt pos1 cs
      p.terminate (add32 p.mLength n)

def insertFill (h : Strings) (v pos1 n : ℕ) (c : UInt8) : Exec Strings := do
  let length ← h.length v
  if pos1 ≥ length then .ok h
  else
    let h ← h.openGap v pos1 n
    h.edit v fun p => do
      let p ← p.setAt pos1 (List.replicate n c)
      p.terminate (add32 p.mLength n)

def eraseRep (pos n : ℕ) (p : Rep) : Exec Rep :=
  if pos ≥ p.mLength then .ok p
  -- if we erase all the way to the end just truncate
  else if n = npos ∨ add32 pos n = p.mLength then p.terminate pos
  else do
    let n := if add32 pos n > p.mLength then p.mLength-pos else n
    let p ← p.shiftDown n (p.mLength-add32 pos n) (add32 pos n)
    p.terminate (sub32 p.mLength n)

def erase (h : Strings) (v pos n : ℕ) : Exec Strings := do
  let h ← h.copyOnWrite v
  h.edit v (eraseRep pos n)

/-- What the two replaces share, up to the choice between append and insert: new_len is an int,
which reserve takes as a size_t. -/
def cutOut (h : Strings) (v pos1 n1 n2 : ℕ) : Exec Strings := do
  let length ← h.length v
  let newLen := add32 (sub32 length n1) n2
  let h ← h.copyOnWrite v
  let h ← h.reserve v (if newLen < 2^31 then newLen else newLen+(2^64-2^32))
  h.erase v pos1 n1

def replaceChars (h : Strings) (v pos1 n1 : ℕ) (s : CharPtr) (n2 : ℕ) : Exec Strings := do
  let length ← h.length v
  if pos1 ≥ length then .ok h
  else
    let h ← h.cutOut v pos1 n1 n2
    let length ← h.length v
    if pos1 ≥ length then h.appendChars v s n2 else h.insertChars v pos1 s n2

def replaceFill (h : Strings) (v pos1 n1 n2 : ℕ) (c : UInt8) : Exec Strings := do
  let length ← h.length v
  if pos1 ≥ length then .ok h
  else
    let h ← h.cutOut v pos1 n1 n2
    let length ← h.length v
    if pos1 ≥ length then h.appendFill v n2 c else h.insertFill v pos1 n2 c

def resize (h : Strings) (v n : ℕ) (c : UInt8) : Exec Strings := do
  let h ← h.reserve v (add32 n 1)
  h.edit v fun p => do
    let p ← p.setAt p.mLength (List.replicate (n-p.mLength) c)
    p.terminate n

end Strings

/-- The characters a call takes: a pointer and a count, a whole string, or a part of one. -/
inductive CharArg
  | chars (s : List UInt8) (n : ℕ)
  | string (w : ℕ)
  | part (w pos n : ℕ)

/-- The calls on a variable v. The operators = and += are among them, under the functions they
call. -/
inductive StringOp
  | default (v : ℕ)
  | fromChars (v : ℕ) (s : CharArg)
  | copy (v w : ℕ)
  | destroy (v : ℕ)
  | assignString (v w : ℕ)
  | assignRange (v w pos n : ℕ)
  | assignChars (v : ℕ) (s : CharArg)
  | appendChars (v : ℕ) (s : CharArg)
  | appendFill (v n : ℕ) (c : UInt8)
  | insertChars (v pos1 : ℕ) (s : CharArg)
  | insertFill (v pos1 n : ℕ) (c : UInt8)
  | replaceChars (v pos1 n1 : ℕ) (s : CharArg)
  | replaceFill (v pos1 n1 n2 : ℕ) (c : UInt8)
  | erase (v pos n : ℕ)
  | reserve (v res : ℕ)
  | resize (v n : ℕ) (c : UInt8)
  | setAt (v i : ℕ) (c : UInt8)

namespace StringOp

def var : StringOp → ℕ
  | default v | fromChars v _ | copy v _ | destroy v | assignString v _ | assignRange v _ _ _
  | assignChars v _ | appendChars v _ | appendFill v _ _ | insertChars v _ _ | insertFill v _ _ _
  | replaceChars v _ _ _ | replaceFill v _ _ _ _ | erase v _ _ | reserve v _ | resize v _ _
  | setAt v _ _ => v

end StringOp

namespace Strings

def resolve (h : Strings) : CharArg → Exec (CharPtr × ℕ)
  | .chars s n => .ok (.literal s,n)
  | .string w => do
    let (r,c) ← h.rep w
    .ok (.inRep r 0,c.obj.mLength)
  | .part w pos n => do
    let (r,_) ← h.rep w
    .ok (.inRep r pos,n)

/-- A constructor runs on a variable that is not constructed, any other call on one that is. -/
def checked (h : Strings) (v : ℕ) (construct : Bool) : Exec Strings :=
  if v < h.heap.ptrs.length ∧ ((h.heap.held v).isNone ↔ construct) then .ok h
  else .error .nullDeref

def step (h : Strings) : StringOp → Exec Strings
  | .default v => do
    let h ← h.checked v true
    let nr ← Rep.new (h.raw h.heap.fresh) 32
    .ok (h.adopt v nr)
  | .fromChars v s => do
    let h ← h.checked v true
    let (s,n) ← h.resolve s
    h.assignChars v s n
  | .copy v w => do
    let h ← h.checked v true
    h.assignString v w
  | .destroy v => do
    let h ← h.checked v false
    let heap ← h.heap.assign v none
    .ok { h with heap := heap }
  | .assignString v w => do
    let h ← h.checked v false
    h.assignString v w
  | .assignRange v w pos n => do
    let h ← h.checked v false
    h.assignRange v w pos n
  | .assignChars v s => do
    let h ← h.checked v false
    let (s,n) ← h.resolve s
    h.assignChars v s n
  | .appendChars v s => do
    let (s,n) ← h.resolve s
    h.appendChars v s n
  | .appendFill v n c => h.appendFill v n c
  | .insertChars v pos1 s => do
    let (s,n) ← h.resolve s
    h.insertChars v pos1 s n
  | .insertFill v pos1 n c => h.insertFill v pos1 n c
  | .replaceChars v pos1 n1 s => do
    let (s,n) ← h.resolve s
    h.replaceChars v pos1 n1 s n
  | .replaceFill v pos1 n1 n2 c => h.replaceFill v pos1 n1 n2 c
  | .erase v pos n => h.erase v pos n
  | .reserve v res => h.reserve v res
  | .resize v n c => h.resize v n c
  | .setAt v i c => h.setAt v i c

/-- What a variable reads as: its length and its characters, the null character included. -/
def reads (h : Strings) (v : ℕ) : Option (ℕ × List UInt8) :=
  (h.heap.get v).map fun p => (p.mLength,load p.mData 0 (p.mLength+1))

end Strings

end JhCommon
