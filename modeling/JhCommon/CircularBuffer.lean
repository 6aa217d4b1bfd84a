import JhCommon.Exec
import JhCommon.RingMemory

/-! The circular buffer of `CircularBuffer.cpp`. Pointers are offsets from mBuffer, so mEnd is
mBufferSize. The locks and the condition broadcasts do not change the fields and are left out. -/
namespace JhCommon
open RingMemory

structure CircularBuffer where
  mBuffer : ℕ → UInt8
  mBufferSize : ℕ
  mReadPtr : ℕ
  mWritePtr : ℕ
  mLen : ℕ

/-- What `IReaderWriter::read` does: it stores some bytes, or returns the negative -(err+1). -/
inductive ReadResult
  | stored (bytes : List UInt8)
  | failed (err : ℕ)

/-- A reader never stores more bytes than it was asked for. -/
structure Reader where
  read : ℕ → ReadResult
  bounded : ∀ n bytes, read n = .stored bytes → bytes.length ≤ n

/-- A file with nothing but zeros. -/
def Reader.zeros : Reader where
  read n := .stored (List.replicate n 0)
  bounded n bytes h := by
    obtain rfl : List.replicate n 0 = bytes := by simpa using h
    rw [List.length_replicate]

namespace CircularBuffer

/-- The constructor, over whatever bytes the buffer holds. -/
def init (buffer : ℕ → UInt8) (bufSize : ℕ) : CircularBuffer :=
  { mBuffer := buffer, mBufferSize := bufSize, mReadPtr := 0, mWritePtr := 0, mLen := 0 }

abbrev lengthInternal (s : CircularBuffer) : ℕ := s.mLen

def getLength (s : CircularBuffer) : ℕ := s.lengthInternal

def getFreeSpace (s : CircularBuffer) : ℕ := s.mBufferSize - s.lengthInternal

/-- `bufferCopy` towards the buffer: the first size bytes of src go to dest. -/
def copyIn (s : CircularBuffer) (dest : ℕ) (src : List UInt8) (size : ℕ) : Exec CircularBuffer :=
  if size = 0 then .ok s
  else if dest+size ≤ s.mBufferSize ∧ size ≤ src.length then
    .ok { s with mBuffer := store s.mBuffer dest (src.take size) }
  else .error .outOfBounds

/-- `bufferCopy` out of the buffer. A NULL destination makes it return before it reads. -/
def copyOut (s : CircularBuffer) (dest : Bool) (src size : ℕ) : Exec (List UInt8) :=
  if size = 0 ∨ dest = false then .ok []
  else if src+size ≤ s.mBufferSize then .ok (load s.mBuffer src size)
  else .error .outOfBounds

def addLengthInternal (s : CircularBuffer) (size : ℕ) : Exec CircularBuffer :=
  if size > s.mBufferSize - s.mLen then .error .fatal
  else .ok { s with
    mLen := s.mLen+size
    mReadPtr := if s.mReadPtr = s.mBufferSize then 0 else s.mReadPtr }

def subtractLengthInternal (s : CircularBuffer) (size : ℕ) : Exec CircularBuffer :=
  if size > s.mLen then .error .fatal
  else .ok { s with
    mLen := s.mLen-size
    mWritePtr := if s.mWritePtr = s.mBufferSize then 0 else s.mWritePtr }

/-- The part of `write_internal` below its early returns: copy up to the end of the buffer, step
back to its beginning there, copy what remains. -/
def writeSegments (s : CircularBuffer) (src : List UInt8) (size : ℕ) : Exec CircularBuffer := do
  let tailSize := min (s.mBufferSize - s.mWritePtr) size
  let s ← s.copyIn s.mWritePtr src tailSize
  let w := s.mWritePtr+tailSize
  let s := { s with mWritePtr := if w = s.mBufferSize then 0 else w }
  if tailSize < size then
    let headSize := size-tailSize
    let s ← s.copyIn s.mWritePtr (src.drop tailSize) headSize
    .ok { s with mWritePtr := s.mWritePtr+headSize }
  else .ok s

def writeInternal (s : CircularBuffer) (buffer : Option (List UInt8)) (size : ℕ) :
    Exec (ℕ × CircularBuffer) :=
  match buffer with
  | none => .ok (0,s)
  | some src =>
    let size := min size s.getFreeSpace
    if size = 0 then .ok (0,s)
    else do
      let s ← s.writeSegments src size
      let s ← s.addLengthInternal size
      .ok (size,s)

def write (s : CircularBuffer) (buffer : Option (List UInt8)) (size : ℕ) :
    Exec (ℕ × CircularBuffer) :=
  s.writeInternal buffer size

/-- The count returned and the bytes copied out; buffer says whether a destination was given. -/
def read (s : CircularBuffer) (buffer : Bool) (size : ℕ) :
    Exec ((ℕ × List UInt8) × CircularBuffer) :=
  let size := min size s.lengthInternal
  if size = 0 then .ok ((0,[]),s)
  else do
    let tailSize := min (s.mBufferSize - s.mReadPtr) size
    let tail ← s.copyOut buffer s.mReadPtr tailSize
    if tailSize < size then
      let headSize := size-tailSize
      let head ← s.copyOut buffer 0 headSize
      let s ← { s with mReadPtr := headSize }.subtractLengthInternal size
      .ok ((size,tail ++ head),s)
    else
      let s ← { s with mReadPtr := s.mReadPtr+tailSize }.subtractLengthInternal size
      .ok ((size,tail),s)

/-- The overflow mechanism: drop the bytes by which the source exceeds the free space. -/
def dropOldest (s : CircularBuffer) (readSize : ℕ) : Exec CircularBuffer :=
  if readSize > 0 then do
    let (_,s) ← s.read false readSize
    .ok s
  else .ok s

def writeOverflow (s : CircularBuffer) (buffer : Option (List UInt8)) (size : ℕ) :
    Exec (ℕ × CircularBuffer) := do
  let offset := size - s.mBufferSize
  let size := min size s.mBufferSize
  let s ← s.dropOldest (size - s.getFreeSpace)
  let (n,s) ← s.writeInternal (buffer.map (List.drop offset)) size
  .ok (n+offset,s)

/-- Hand the n bytes at mWritePtr to the reader. -/
def readerRead (s : CircularBuffer) (reader : Reader) (n : ℕ) : Exec ReadResult :=
  if s.mWritePtr+n ≤ s.mBufferSize then .ok (reader.read n) else .error .outOfBounds

/-- The part of `fillFromFile` under the lock. Next to the value returned stands the length the
reader was asked for, if it was called. -/
def fillLocked (s : CircularBuffer) (freespace : ℕ) (reader : Reader) (size : ℕ) :
    Exec ((ℤ × Option ℕ) × CircularBuffer) :=
  let size := min size freespace
  if size = 0 then .ok ((0,none),s)
  else
    -- if buffer wraps around
    if s.mReadPtr > s.mWritePtr then do
      match ← s.readerRead reader size with
      | .failed err => .ok ((.negSucc err,some size),s)
      | .stored bytes =>
        let s := { s with
          mBuffer := store s.mBuffer s.mWritePtr bytes
          mWritePtr := s.mWritePtr+bytes.length }
        let s ← s.addLengthInternal bytes.length
        .ok ((bytes.length,some size),s)
    else do
      let readSize := min size (s.mBufferSize - s.mWritePtr)
      match ← s.readerRead reader readSize with
      | .failed err => .ok ((.negSucc err,some readSize),s)
      | .stored bytes =>
        let w := s.mWritePtr+bytes.length
        let s := { s with
          mBuffer := store s.mBuffer s.mWritePtr bytes
          mWritePtr := if w = s.mBufferSize then 0 else w }
        let s ← s.addLengthInternal bytes.length
        .ok ((bytes.length,some readSize),s)

def fillFromFile (s : CircularBuffer) (reader : Reader) (size : ℕ) :
    Exec ((ℤ × Option ℕ) × CircularBuffer) :=
  s.fillLocked s.getFreeSpace reader size

def clear (s : CircularBuffer) : CircularBuffer :=
  { s with mWritePtr := 0, mReadPtr := 0, mLen := 0 }

def writeByte (s : CircularBuffer) (byte : UInt8) : Exec (ℤ × CircularBuffer) :=
  if s.getFreeSpace = 0 then .ok (-1,s)
  else if s.mWritePtr < s.mBufferSize then do
    let s := { s with
      mBuffer := store s.mBuffer s.mWritePtr [byte]
      mWritePtr := s.mWritePtr+1 }
    let s ← s.addLengthInternal 1
    .ok (0,{ s with mWritePtr := if s.mWritePtr = s.mBufferSize then 0 else s.mWritePtr })
  else .error .outOfBounds

/-- The offset of byte i, if there is one, and the number of bytes that follow it without a
wrap. The asserted sign of the size is kept by computing it over the integers. -/
def getBytesInternal (s : CircularBuffer) (i : ℕ) : Option ℕ × ℤ :=
  if i < s.lengthInternal then
    let res := s.mReadPtr+i
    if s.mReadPtr ≥ s.mWritePtr then
      if res ≥ s.mBufferSize then (some (res - s.mBufferSize),(s.mWritePtr : ℤ)-(res - s.mBufferSize : ℕ))
      else (some res,(s.mBufferSize : ℤ)-res)
    else (some res,(s.mWritePtr : ℤ)-res)
  else (none,0)

def getBytes (s : CircularBuffer) (i : ℕ) : Option ℕ × ℤ := s.getBytesInternal i

def byteAt (s : CircularBuffer) (i : ℕ) : ℤ :=
  match (s.getBytes i).1 with
  | none => -1
  | some res => (s.mBuffer res).toNat

/-- The value of a plain char, which is signed. -/
def signedChar (c : UInt8) : ℤ := if c.toNat < 128 then c.toNat else (c.toNat : ℤ)-256

/-- A byte of the buffer is an unsigned char, a character of a C string is a plain one. -/
def sameChar (b c : UInt8) : Prop := (b.toNat : ℤ) = signedChar c

instance : DecidableRel sameChar := fun b c => inferInstanceAs (Decidable ((b.toNat : ℤ) = signedChar c))

/-- The do-while loop of `peekLine`: the position of the last byte of a match, if one is found
before the write pointer comes up. -/
def scanLine (s : CircularBuffer) (terminal : List UInt8) : ℕ → ℕ → ℕ → Exec (Option ℕ)
  | 0, _, _ => .error .outOfFuel
  | fuel+1, ptr, state =>
    if ptr < s.mBufferSize then
      -- one past the last character stands the terminating NUL
      let state := if sameChar (s.mBuffer ptr) (terminal.getD state 0) then state+1 else 0
      if state = terminal.length then .ok (some ptr)
      else
        let ptr := if ptr+1 = s.mBufferSize then 0 else ptr+1
        if ptr ≠ s.mWritePtr then scanLine s terminal fuel ptr state else .ok none
    else .error .outOfBounds

/-- `std::string::assign` and `append` take a size_t, so a negative length is far too long. -/
def stringBytes (s : CircularBuffer) (src : ℕ) (n : ℤ) : Exec (List UInt8) :=
  if n < 0 then .error .lengthError else s.copyOut true src n.toNat

/-- Cut the line out, with ptr one past the terminator's last byte. -/
def cutLine (s : CircularBuffer) (ptr termLen : ℕ) : Exec (List UInt8) :=
  -- if wrap
  if ptr < s.mReadPtr then do
    let line ← s.stringBytes s.mReadPtr ((s.mBufferSize : ℤ) - s.mReadPtr)
    let rest ← s.stringBytes 0 ((ptr : ℤ)-termLen)
    .ok (line ++ rest)
  else s.stringBytes s.mReadPtr ((ptr : ℤ) - s.mReadPtr - termLen)

/-- The value returned and the line, where one is assigned. The buffer is not written to. -/
def peekLine (s : CircularBuffer) (fuel : ℕ) (terminal : List UInt8) :
    Exec (ℕ × Option (List UInt8)) :=
  if s.mLen = 0 then .ok (0,none)
  else do
    match ← s.scanLine terminal fuel s.mReadPtr 0 with
    | none => .ok (0,none)
    | some ptr =>
      let line ← s.cutLine (ptr+1) terminal.length
      .ok (line.length+terminal.length,some line)

def getLine (s : CircularBuffer) (fuel : ℕ) (terminal : List UInt8) :
    Exec ((ℕ × Option (List UInt8)) × CircularBuffer) := do
  let (n,line) ← s.peekLine fuel terminal
  let ((res,_),s) ← s.read false n
  .ok ((res,line),s)

end CircularBuffer

end JhCommon
