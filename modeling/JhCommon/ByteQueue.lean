import JhCommon.CircularBuffer
import JhCommon.Transition

/-! What the circular buffer is for: a queue of at most N bytes, without pointers. -/
namespace JhCommon

/-- The calls of one client. Sources are buffers that exist; the flag of `read` says whether it
is given a destination. -/
inductive BufferOp
  | write (buffer : List UInt8) (size : ℕ)
  | writeOverflow (buffer : List UInt8) (size : ℕ)
  | writeByte (byte : UInt8)
  | read (buffer : Bool) (size : ℕ)
  | fillFromFile (reader : Reader) (size : ℕ)
  | clear

/-- A source buffer holds at least the bytes its size announces. -/
def BufferOp.Valid : BufferOp → Prop
  | .write buffer size => size ≤ buffer.length
  | .writeOverflow buffer size => size ≤ buffer.length
  | _ => True

/-- What a call shows: its return value, the bytes it copied out, and the length it asked the
reader for. -/
structure BufferOutput where
  ret : ℤ
  bytes : List UInt8
  asked : Option ℕ

structure ByteQueue (N : ℕ) where
  bytes : List UInt8
  bound : bytes.length ≤ N

namespace ByteQueue
variable {N : ℕ}

def empty : ByteQueue N := ⟨[],Nat.zero_le N⟩

def free (q : ByteQueue N) : ℕ := N - q.bytes.length

/-- What `fillFromFile` may do when there is room for at least one byte: some request of at least
one byte and at most the room goes to the reader, and what it stores is appended. -/
def Filled (q : ByteQueue N) (reader : Reader) (room : ℕ) (o : BufferOutput)
    (q' : ByteQueue N) : Prop :=
  ∃ n, 0 < n ∧ n ≤ room ∧ o.asked = some n ∧ o.bytes = [] ∧
    match reader.read n with
    | .stored bytes => o.ret = bytes.length ∧ q'.bytes = q.bytes ++ bytes
    | .failed err => o.ret = Int.negSucc err ∧ q' = q

def Step (q : ByteQueue N) (op : BufferOp) (o : BufferOutput) (q' : ByteQueue N) : Prop :=
  match op with
  | .write buffer size =>
    o = ⟨(min size q.free : ℕ),[],none⟩ ∧ q'.bytes = q.bytes ++ buffer.take (min size q.free)
  | .writeOverflow buffer size =>
    o = ⟨size,[],none⟩ ∧
      q'.bytes = (q.bytes ++ buffer.take size).drop ((q.bytes ++ buffer.take size).length - N)
  | .writeByte byte =>
    if q.bytes.length = N then o = ⟨-1,[],none⟩ ∧ q' = q
    else o = ⟨0,[],none⟩ ∧ q'.bytes = q.bytes ++ [byte]
  | .read buffer size =>
    o = ⟨(min size q.bytes.length : ℕ),if buffer then q.bytes.take size else [],none⟩ ∧
      q'.bytes = q.bytes.drop size
  | .fillFromFile reader size =>
    if min size q.free = 0 then o = ⟨0,[],none⟩ ∧ q' = q
    else q.Filled reader (min size q.free) o q'
  | .clear => o = ⟨0,[],none⟩ ∧ q'.bytes = []

end ByteQueue

/-- One call on the code's buffer. -/
def CircularBuffer.step (s : CircularBuffer) : BufferOp → Exec (BufferOutput × CircularBuffer)
  | .write buffer size => do
    let (n,s) ← s.write (some buffer) size
    .ok (⟨n,[],none⟩,s)
  | .writeOverflow buffer size => do
    let (n,s) ← s.writeOverflow (some buffer) size
    .ok (⟨n,[],none⟩,s)
  | .writeByte byte => do
    let (r,s) ← s.writeByte byte
    .ok (⟨r,[],none⟩,s)
  | .read buffer size => do
    let ((n,bytes),s) ← s.read buffer size
    .ok (⟨n,bytes,none⟩,s)
  | .fillFromFile reader size => do
    let ((r,asked),s) ← s.fillFromFile reader size
    .ok (⟨r,[],asked⟩,s)
  | .clear => .ok (⟨0,[],none⟩,s.clear)

end JhCommon
