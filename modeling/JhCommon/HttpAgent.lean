import JhCommon.BufferObservers
import JhCommon.HttpHeader

/-! What `HttpAgent::sendAndGet` does once the request is sent: the header is received, and then the
body, whose bytes go to the handler. Connecting and sending are left out. -/
namespace JhCommon

/-- What the peer has sent, cut as the reads will find it. Behind the last byte a read returns 0
where the connection is closed, and times out where it is not. -/
structure Socket where
  segments : List (List UInt8)
  closed : Bool

namespace Socket

def stream (s : Socket) : List UInt8 := s.segments.flatten

def read (s : Socket) (len : ℕ) : ReadResult :=
  match s.segments with
  | [] => if s.closed = true then .stored [] else .failed 0
  | segment :: _ => .stored (segment.take len)

theorem read_bounded (s : Socket) (n : ℕ) (bytes : List UInt8) (h : s.read n = .stored bytes) :
    bytes.length ≤ n := by
  unfold read at h
  split at h
  · split at h
    · obtain rfl := ReadResult.stored.inj h
      exact Nat.zero_le n
    · cases h
  · obtain rfl := ReadResult.stored.inj h
    exact List.length_take_le n _

def reader (s : Socket) : Reader := ⟨s.read,s.read_bounded⟩

def dropBytes : ℕ → List (List UInt8) → List (List UInt8)
  | 0, segments => segments
  | _+1, [] => []
  | n+1, segment :: segments =>
    if n+1 < segment.length then segment.drop (n+1) :: segments
    else dropBytes (n+1-segment.length) segments

/-- The next n bytes have been read. -/
def consume (s : Socket) (n : ℕ) : Socket := { s with segments := dropBytes n s.segments }

end Socket

/-- A handler that keeps the bytes it is given. What handleSocket returns for n bytes that it has
read, behind the ones received before, is `reports received n`. -/
structure BodyHandler where
  received : List UInt8
  reports : List UInt8 → ℕ → ℤ

/-- Where `sendAndGet` stands in the body, at the head of a loop or behind a chunk. The loop that
waits for a chunk line is there twice, and the one over the bytes of a chunk is run through once. -/
inductive BodyPoint
  | contentLength (length : ℤ)
  | chunkLine
  | chunkData (length : ℤ)
  | chunkEnd
  | returned (err : ErrCode)
  deriving DecidableEq

/-- A call that reads the socket, with the length that it asks for. -/
inductive SocketRead
  | fillFromFile (size : ℕ)
  | handleSocket (len : ℕ)
  deriving DecidableEq

/-- The agent with the local variables of `sendAndGet`. A NULL handler is none. -/
structure HttpAgent where
  mBuffer : CircularBuffer
  mSock : Socket
  handler : Option BodyHandler
  ret : ℤ
  point : BodyPoint

namespace HttpAgent

def kMaxMessageSize : ℕ := 2048
def kLengthStrSize : ℕ := 40

/-- The loop of `parseChunkLine` over length_str, at index i and with n bytes to come: the index
behind its end, the character there, and the string. -/
def lengthStrFrom (buf : CircularBuffer) : ℕ → ℕ → List UInt8 → Exec (Option (ℕ × ℤ × List UInt8))
  | 0, _, _ => .ok none
  | n+1, i, lengthStr =>
    let c := buf.byteAt i
    if c < 0 then .ok none
    else if c = 59 ∨ c = 13 then .ok (some (i+1,c,lengthStr))
    else if lengthStr.length < kLengthStrSize then
      lengthStrFrom buf n (i+1) (lengthStr ++ [buf.charAt i])
    else .error .outOfBounds

/-- The loop of `parseChunkLine` up to the end of the line, behind the character c. -/
def lineEndFrom (buf : CircularBuffer) : ℕ → ℕ → ℤ → Option ℕ
  | 0, i, c => if c = 13 then some i else none
  | n+1, i, c =>
    if c = 13 then some i
    else if buf.byteAt i < 0 then none
    else lineEndFrom buf n (i+1) (buf.byteAt i)

/-- The value returned, and what it leaves in len. -/
def parseChunkLine (buf : CircularBuffer) (len : ℤ) : Exec (ℤ × ℤ) :=
  if buf.getLength = 0 then .ok (-1,len)
  else do
    match ← lengthStrFrom buf buf.getLength 0 [] with
    | none => .ok (-1,len)
    | some (i,c,lengthStr) =>
      -- the terminating NUL
      if kLengthStrSize ≤ lengthStr.length then .error .outOfBounds
      else
        match lineEndFrom buf (buf.getLength-i) i c with
        | none => .ok (-1,len)
        | some i =>
          if buf.byteAt i = 10 then .ok ((i+1 : ℕ),toInt32 (strtolBase 16 (cStr lengthStr)))
          else .ok (-1,len)

def fillFromFile (s : HttpAgent) : Exec (List SocketRead × HttpAgent) := do
  let ((ret,asked),mBuffer) ← s.mBuffer.fillFromFile s.mSock.reader s.mBuffer.getFreeSpace
  .ok (asked.toList.map .fillFromFile,
    { s with mBuffer := mBuffer, mSock := s.mSock.consume ret.toNat, ret := ret })

/-- The loop of `sendAndGet` over the header. No response is returned where a read fails. -/
def receiveHeader : ℕ → HttpResponse → Bool → HttpAgent → Exec (Option HttpResponse × HttpAgent)
  | 0, _, _, _ => .error .outOfFuel
  | fuel+1, res, firstLine, s => do
    let (_,s) ← s.fillFromFile
    if s.ret ≤ 0 then .ok (none,s)
    else do
      let (res,firstLine,mBuffer) ← HttpResponse.readLines fuel res firstLine s.mBuffer
      let s := { s with mBuffer := mBuffer }
      if mBuffer.searchForLine ≠ kEOH ∨ mBuffer.getLength < 2 then
        receiveHeader fuel res firstLine s
      else .ok (some res,s)

/-- Where the body starts: how it is framed is looked up in the header. -/
def bodyPoint (res : HttpResponse) : BodyPoint :=
  let (err,length) := res.getFieldInt kFieldContentLength
  if err = .kNoError then .contentLength length
  else
    match res.getField kFieldTransferEncoding with
    | some encoding => if cStr encoding = text "chunked" then .chunkLine else .returned err
    | none => .returned err

/-- Up to the loops over the body. The empty line is read off. -/
def startBody (res : HttpResponse) (s : HttpAgent) : Exec HttpAgent := do
  let (_,mBuffer) ← s.mBuffer.read false 2
  .ok { s with mBuffer := mBuffer, ret := res.mResponseCode, point := bodyPoint res }

/-- The end of `sendAndGet` behind the loops. The stop flag of the handler is not looked at. -/
def finish (s : HttpAgent) (err : ErrCode) : HttpAgent :=
  { s with point := .returned (if s.ret = 200 ∨ s.ret = 206 then err else .kNotFound) }

def handleData (s : HttpAgent) (buf : Option ℕ) (len : ℕ) : Exec HttpAgent :=
  match s.handler with
  | none => .ok s
  | some handler => do
    let bytes ← s.mBuffer.memcpyFrom buf len
    .ok { s with handler := some { handler with received := handler.received ++ bytes } }

/-- The handler reads the next len bytes of the socket, or fails at its end. -/
def handleSocket (s : HttpAgent) (len : ℕ) : Exec HttpAgent :=
  match s.handler with
  | none => .error .nullDeref
  | some handler =>
    .ok { s with
      handler := some { handler with received := handler.received ++ s.mSock.stream.take len }
      mSock := s.mSock.consume len
      ret := if len ≤ s.mSock.stream.length then handler.reports handler.received len
        else -1 }

/-- One pass of the loop over a body with a length. -/
def contentPass (s : HttpAgent) (length : ℤ) : Exec (List SocketRead × HttpAgent) := do
  let (buffer,bufferLen) := s.mBuffer.getBytes 0
  let bufferLen := (if bufferLen > length then length else bufferLen).toNat
  let s ← s.handleData buffer bufferLen
  let (_,mBuffer) ← s.mBuffer.read false bufferLen
  let length := length-bufferLen
  let s := { s with mBuffer := mBuffer, point := .contentLength length }
  if length ≠ 0 then do
    let s ← s.handleSocket length.toNat
    let point := if s.ret < 0 then .returned .kReadFailed else .contentLength 0
    .ok ([.handleSocket length.toNat],{ s with point := point })
  else .ok ([],s)

/-- The bytes of a chunk that stand in the first segment of the buffer, and the length that is
left. -/
def chunkSegment (s : HttpAgent) (length : ℤ) : Exec (ℤ × HttpAgent) := do
  let (buffer,bufferLen) := s.mBuffer.getBytes 0
  let bufferLen := (if bufferLen > length then length else bufferLen).toNat
  if s.handler.isSome = true ∧ bufferLen ≠ 0 then do
    let s ← s.handleData buffer bufferLen
    let (_,mBuffer) ← s.mBuffer.read false bufferLen
    .ok (length-bufferLen,{ s with mBuffer := mBuffer })
  else .ok (length,s)

/-- The loop over the bytes of a chunk. -/
def chunkPass (s : HttpAgent) (length : ℤ) : Exec (List SocketRead × HttpAgent) := do
  let (length,s) ← s.chunkSegment length
  if length ≠ 0 then do
    let s ← s.handleSocket length.toNat
    let point :=
      if s.ret = 0 then .returned .kNoError
      else if s.ret < 0 then .returned .kReadFailed
      else .chunkEnd
    .ok ([.handleSocket length.toNat],{ s with point := point })
  else .ok ([],{ s with point := .chunkEnd })

def skip (s : HttpAgent) (c : ℤ) : Exec HttpAgent :=
  if s.mBuffer.byteAt 0 = c then do
    let (_,mBuffer) ← s.mBuffer.read false 1
    .ok { s with mBuffer := mBuffer }
  else .ok s

/-- Read the socket, and drop what ends a chunk. -/
def fillAndSkip (s : HttpAgent) : Exec (List SocketRead × HttpAgent) := do
  let (reads,s) ← s.fillFromFile
  if s.ret < 0 then .ok (reads,{ s with point := .returned .kReadFailed })
  else do
    let s ← s.skip 13
    let s ← s.skip 10
    .ok (reads,{ s with point := .chunkLine })

/-- One pass of the loop that waits for a chunk line, or what stands behind it. -/
def chunkLinePass (s : HttpAgent) : Exec (List SocketRead × HttpAgent) := do
  let (readLen,length) ← parseChunkLine s.mBuffer 0
  if readLen ≤ 0 then s.fillAndSkip
  else do
    let (_,mBuffer) ← s.mBuffer.read false readLen.toNat
    .ok ([],{ s with mBuffer := mBuffer, point := .chunkData length })

/-- From one point in the body to the next, with the reads of the socket on the way. -/
def step (s : HttpAgent) (_ : Unit) : Exec (List SocketRead × HttpAgent) :=
  match s.point with
  | .contentLength length =>
    if 0 < length then s.contentPass length else .ok ([],s.finish .kNoError)
  | .chunkLine => s.chunkLinePass
  | .chunkData length =>
    if 0 < length then s.chunkPass length else .ok ([],s.finish .kNoError)
  | .chunkEnd => s.fillAndSkip
  | .returned _ => .ok ([],s)

end HttpAgent

end JhCommon
