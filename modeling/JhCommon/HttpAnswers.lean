import JhCommon.HttpBodyRuns

/-! What the calls that read the socket for a body return to `sendAndGet`, and what they leave in ret,
where the response code has been. -/
namespace JhCommon
open CircularBuffer Transition

/-- What is read are the next bytes. -/
theorem Socket.read_stored {s : Socket} {n : ℕ} {bytes : List UInt8}
    (h : s.read n = .stored bytes) :
    bytes.length ≤ s.stream.length ∧ bytes = s.stream.take bytes.length := by
  obtain ⟨segments,closed⟩ := s
  cases segments with
  | nil =>
    cases closed with
    | false => cases h
    | true =>
      obtain rfl := ReadResult.stored.inj h
      exact ⟨Nat.zero_le _,rfl⟩
  | cons segment segments =>
    obtain rfl := ReadResult.stored.inj h
    have hle : (segment.take n).length ≤ segment.length := List.length_take_le' n segment
    rw [stream, List.flatten_cons]
    refine ⟨hle.trans (by simp),?_⟩
    rw [List.take_append_of_le_length hle, List.length_take, ← List.take_eq_take_min]

/-- What a call that reads the socket for the body returns. -/
inductive Answer
  | fillFromFile (count : ℤ)
  | handleSocket (count : ℤ)
  deriving DecidableEq

def Answer.count : Answer → ℤ
  | .fillFromFile count => count
  | .handleSocket count => count

namespace HttpAgent

/-- The codes of a response with what was asked for. -/
def Found (code : ℤ) : Prop := code = 200 ∨ code = 206

/-- What the next fill of mBuffer returns. -/
def fillCount (s : HttpAgent) : ℤ :=
  match s.mBuffer.fillFromFile s.mSock.reader s.mBuffer.getFreeSpace with
  | .ok ((count,_),_) => count
  | .error _ => 0

/-- What the handler returns for the bytes of the body that are not in the first segment of mBuffer,
if there are any. -/
def socketAnswer (s : HttpAgent) (length : ℤ) : Option Answer :=
  match s.handler with
  | none => none
  | some handler =>
    let len := (length-s.firstSegment).toNat
    if length ≤ s.firstSegment then none
    else if len ≤ s.mSock.stream.length then
      let received := handler.received ++ s.mBuffer.contents.take s.firstSegment.toNat
      some (.handleSocket (handler.reports received len))
    else some (.handleSocket (-1))

/-- What the next step reads of the socket, if it does. -/
def answer (s : HttpAgent) : Option Answer :=
  match s.point with
  | .contentLength length => s.socketAnswer length
  | .chunkLine =>
    match parseChunkLine s.mBuffer 0 with
    | .ok (readLen,_) => if readLen ≤ 0 then some (.fillFromFile s.fillCount) else none
    | .error _ => none
  | .chunkData length => s.socketAnswer length
  | .chunkEnd => some (.fillFromFile s.fillCount)
  | .returned _ => none

/-- The next step meets no error of the socket or the handler. -/
def Answered (s : HttpAgent) (_ : Unit) : Prop := ∀ a ∈ s.answer, 0 ≤ a.count

/-- The wait for a chunk line goes on: there is one in mBuffer, or more is read, or something is
dropped in front of it. -/
def GetsLine (s : HttpAgent) (_ : Unit) : Prop :=
  s.point = .chunkLine → ∃ readLen length, parseChunkLine s.mBuffer 0 = .ok (readLen,length) ∧
    (0 < readLen ∨ s.mBuffer.getFreeSpace ≠ 0 ∧ s.mSock.stream ≠ [] ∨
      s.mBuffer.byteAt 0 = 13 ∨ s.mBuffer.byteAt 0 = 10)

/-- The last answer in n steps, or what was the last before. -/
def lastAnswer : ℕ → Option Answer → HttpAgent → Option Answer
  | 0, last, _ => last
  | n+1, last, s =>
    match s.step () with
    | .ok (_,s') => lastAnswer n (s.answer <|> last) s'
    | .error _ => s.answer <|> last

/-- What a chunked body comes to behind the last answer, or without any. -/
def EndsWell (code : ℤ) : Option Answer → Prop
  | none => Found code
  | some (.fillFromFile count) => Found count
  | some (.handleSocket count) => count = 0

section Fill
variable {N : ℕ} {s s' : HttpAgent} {q : List UInt8} {reads : List SocketRead}

theorem fillCount_eq (h : s.fillFromFile = .ok (reads,s')) : s.fillCount = s'.ret := by
  obtain ⟨⟨⟨ret,asked⟩,mBuffer⟩,hfill,hs'⟩ := bind_eq_ok.mp h
  obtain ⟨-,rfl⟩ := Prod.mk.inj (Except.ok.inj hs')
  rw [fillCount, hfill]

/-- A fill queues as many bytes as it returns. -/
theorem fillFromFile_count (h : s.mBuffer.Holds N q) : ∃ (reads : List SocketRead)
    (mBuffer : CircularBuffer), s.fillFromFile = .ok (reads,{ s with
      mBuffer := mBuffer, mSock := s.mSock.consume s.fillCount.toNat, ret := s.fillCount }) ∧
      mBuffer.Holds N (q ++ s.mSock.stream.take s.fillCount.toNat) ∧
      s.fillCount.toNat ≤ s.mSock.stream.length := by
  by_cases hfull : q.length = N
  · -- a full buffer asks the socket for nothing
    have hfill := fillFromFile_full h hfull
    have hcount : s.fillCount = 0 := fillCount_eq hfill
    refine ⟨[],s.mBuffer,?_,?_,?_⟩
    · rw [hfill, hcount, Int.toNat_zero, Socket.consume_zero]
    · rwa [hcount, Int.toNat_zero, List.take_zero, List.append_nil]
    · rw [hcount]
      exact Nat.zero_le _
  · obtain ⟨n,ret,mBuffer,-,hfill,hfailed,hstored⟩ :=
      fillFromFile_room h (lt_of_le_of_ne h.length_le hfull)
    have hcount : s.fillCount = ret := fillCount_eq hfill
    rw [hcount]
    refine ⟨_,mBuffer,hfill,?_⟩
    cases hread : s.mSock.read n with
    | failed err =>
      obtain ⟨rfl,rfl⟩ := hfailed err hread
      refine ⟨?_,Nat.zero_le _⟩
      have hz : (Int.negSucc err).toNat = 0 := rfl
      rwa [hz, List.take_zero, List.append_nil]
    | stored bytes =>
      obtain ⟨rfl,hholds⟩ := hstored bytes hread
      obtain ⟨hle,hbytes⟩ := Socket.read_stored hread
      rw [Int.toNat_natCast, ← hbytes]
      exact ⟨hholds,hle⟩

/-- A fill brings something where there is room for it and something to come. -/
theorem fillCount_pos (h : s.mBuffer.Holds N q) (hcut : s.mSock.Cut)
    (hroom : s.mBuffer.getFreeSpace ≠ 0) (hmore : s.mSock.stream ≠ []) : 0 < s.fillCount := by
  have hlt : q.length < N := by
    rw [h.free_eq] at hroom
    omega
  obtain ⟨k,asked,mBuffer,hfill,-,hk,-⟩ := fillFromFile_more h hcut fun _ => hmore
  rw [fillCount_eq hfill]
  exact Int.natCast_pos.mpr (hk hlt)

/-- What is left of mBuffer when a fill has been made, and what ends a chunk has been dropped. -/
def filled (s : HttpAgent) (q : List UInt8) : List UInt8 :=
  skipByte 10 (skipByte 13 (q ++ s.mSock.stream.take s.fillCount.toNat))

theorem fillAndSkip_count (h : s.mBuffer.Holds N q) (hcount : 0 ≤ s.fillCount) :
    ∃ (reads : List SocketRead) (mBuffer : CircularBuffer), s.fillAndSkip = .ok (reads,{ s with
      mBuffer := mBuffer, mSock := s.mSock.consume s.fillCount.toNat, ret := s.fillCount,
      point := .chunkLine }) ∧ mBuffer.Holds N (s.filled q) := by
  obtain ⟨reads,mBuffer,hfill,hholds,-⟩ := fillFromFile_count h
  obtain ⟨mBuffer',hskip,hholds'⟩ := fillAndSkip_of_fill hfill hholds hcount
  exact ⟨reads,mBuffer',hskip,hholds'⟩

end Fill

/-- The agent receives a body into mBuffer, and has a handler for it. -/
structure Receiving (N : ℕ) (s : HttpAgent) (q : List UInt8) (handler : BodyHandler) : Prop where
  holds : s.mBuffer.Holds N q
  cut : s.mSock.Cut
  handler_eq : s.handler = some handler

def Receives (N : ℕ) (s : HttpAgent) : Prop := ∃ q handler, s.Receiving N q handler

/-- A chunk line is read off, and it has bytes. -/
theorem chunkLine_read {N : ℕ} {s : HttpAgent} {q : List UInt8} {readLen length : ℤ}
    (h : s.mBuffer.Holds N q) (hpoint : s.point = .chunkLine)
    (hparse : parseChunkLine s.mBuffer 0 = .ok (readLen,length)) (hread : 0 < readLen) :
    ∃ mBuffer, s.step () = .ok ([],{ s with mBuffer := mBuffer, point := .chunkData length }) ∧
      mBuffer.Holds N (q.drop readLen.toNat) ∧ (q.drop readLen.toNat).length < q.length := by
  have hlen : s.mBuffer.getLength = q.length := h.len_eq
  have hne : q.length ≠ 0 := by
    intro hz
    rw [parseChunkLine, hlen, if_pos hz] at hparse
    obtain ⟨hminus,-⟩ := Prod.mk.inj (Except.ok.inj hparse)
    omega
  obtain ⟨mBuffer,hoff,hholds⟩ := read_spec h false readLen.toNat
  refine ⟨mBuffer,?_,hholds,?_⟩
  · simp only [HttpAgent.step, hpoint, chunkLinePass]
    rw [hparse, ok_bind]
    simp only
    rw [if_neg (not_le.mpr hread), hoff]
    rfl
  · rw [List.length_drop]
    omega

/-- What ret holds in a chunked body is what the last answer has left there. -/
def RetOf (code : ℤ) (last : Option Answer) (s : HttpAgent) : Prop :=
  match s.point with
  | .contentLength _ => False
  | .chunkLine => Found s.ret ↔ EndsWell code last
  | .chunkData _ => Found s.ret ↔ EndsWell code last
  | .chunkEnd => True
  | .returned err => err = .kNoError ↔ EndsWell code last

/-- The next step of a chunked body goes on to the end of it. -/
def GoesOn (N : ℕ) (code : ℤ) (last : Option Answer) (s : HttpAgent) : Prop := ∃ reads s',
  s.step () = .ok (reads,s') ∧ s'.Receives N ∧ s'.RetOf code (s.answer <|> last) ∧
    (¬s.Returned → s'.weight < s.weight)

section Chunked
variable {N : ℕ} {s : HttpAgent} {q : List UInt8} {handler : BodyHandler} {code : ℤ}
  {last : Option Answer}

theorem Receiving.getLength (h : s.Receiving N q handler) : s.mBuffer.getLength = q.length :=
  h.holds.len_eq

/-- A step that fills mBuffer goes on where the fill brings something or something is dropped, and
behind a chunk in any case. -/
theorem Receiving.goesOn_fill (h : s.Receiving N q handler) (hstep : s.step () = s.fillAndSkip)
    (hanswer : s.answer = some (.fillFromFile s.fillCount)) (hok : s.Answered ())
    (hless : 0 < s.point.rank ∨ 0 < s.fillCount ∨
      (s.filled q).length < q.length+s.fillCount.toNat) : s.GoesOn N code last := by
  have hcount : 0 ≤ s.fillCount := hok _ hanswer
  obtain ⟨-,-,-,-,hle⟩ := fillFromFile_count h.holds
  obtain ⟨reads,mBuffer,hfill,hholds⟩ := fillAndSkip_count h.holds hcount
  refine ⟨reads,_,hstep.trans hfill,⟨_,handler,hholds,h.cut.consume _,h.handler_eq⟩,?_,?_⟩
  · rw [hanswer]
    exact Iff.rfl
  · intro _
    have hlen : mBuffer.getLength = (s.filled q).length := hholds.len_eq
    have hlf := length_skipByte_le 10 (skipByte 13 (q ++ s.mSock.stream.take s.fillCount.toNat))
    have hcr := length_skipByte_le 13 (q ++ s.mSock.stream.take s.fillCount.toNat)
    rw [List.length_append, List.length_take_of_le hle] at hcr
    have hfilled : (s.filled q).length ≤ q.length+s.fillCount.toNat := hlf.trans hcr
    have hrank : BodyPoint.chunkLine.rank = 0 := rfl
    simp only [weight, Socket.stream_consume, hlen, h.getLength, List.length_drop, hrank]
    omega

/-- The loops over the body end with what ret holds. -/
theorem finish_found (s : HttpAgent) :
    (if s.ret = 200 ∨ s.ret = 206 then ErrCode.kNoError else .kNotFound) = .kNoError ↔
      Found s.ret := by
  have hne : ErrCode.kNotFound ≠ .kNoError := by decide
  by_cases hfound : s.ret = 200 ∨ s.ret = 206
  · rw [if_pos hfound]
    exact iff_of_true rfl hfound
  · rw [if_neg hfound]
    exact iff_of_false hne hfound

theorem finish_retOf (hret : Found s.ret ↔ EndsWell code last) :
    (s.finish .kNoError).RetOf code last := by
  simp only [RetOf, finish]
  exact (finish_found s).trans hret

theorem socketAnswer_none {length : ℤ} (h : length ≤ s.firstSegment) :
    s.socketAnswer length = none := by
  unfold socketAnswer
  split
  · rfl
  · simp only [if_pos h]

theorem Receiving.firstSegment_nonneg (h : s.Receiving N q handler) : 0 ≤ s.firstSegment := by
  obtain ⟨-,n,-,hseg,-⟩ := firstSegment_spec h.holds
  rw [hseg]
  exact Int.natCast_nonneg n

/-- What the handler is asked for is what the first segment does not hold. -/
theorem Receiving.socketAnswer_eq (h : s.Receiving N q handler) (len : ℕ) {n : ℕ}
    (hseg : s.firstSegment = n) (mBuffer : CircularBuffer) (point : ℤ → BodyPoint) :
    s.socketAnswer len = if len ≤ n then none else some (.handleSocket
      (s.socketPart handler mBuffer (q.take n) (len-n) point).ret) := by
  have hleft : ((len : ℤ)-(n : ℕ)).toNat = len-n := by omega
  simp only [socketAnswer, h.handler_eq, hseg, h.holds.contents_eq, Nat.cast_le, Int.toNat_natCast,
    hleft, socketPart]
  split
  · rfl
  · split <;> rfl

theorem chunkPoint_rank (ret : ℤ) : (chunkPoint ret).rank ≤ 1 := by
  unfold chunkPoint
  split
  · exact Nat.zero_le _
  · split <;> decide

/-- The handler ends a body by returning 0, whatever the code is. -/
theorem chunkPoint_retOf {mBuffer : CircularBuffer} {bytes : List UInt8} {len : ℕ}
    (hcount : 0 ≤ (s.socketPart handler mBuffer bytes len chunkPoint).ret) :
    (s.socketPart handler mBuffer bytes len chunkPoint).RetOf code (some (.handleSocket
      (s.socketPart handler mBuffer bytes len chunkPoint).ret)) := by
  have hpoint : (s.socketPart handler mBuffer bytes len chunkPoint).point =
      chunkPoint (s.socketPart handler mBuffer bytes len chunkPoint).ret := rfl
  generalize s.socketPart handler mBuffer bytes len chunkPoint = t at *
  by_cases hz : t.ret = 0
  · rw [chunkPoint, if_pos hz] at hpoint
    simp only [RetOf, hpoint]
    exact iff_of_true trivial hz
  · rw [chunkPoint, if_neg hz, if_neg (Int.not_lt.mpr hcount)] at hpoint
    simp only [RetOf, hpoint]

theorem socketPart_answered {mBuffer : CircularBuffer} {bytes : List UInt8} {len : ℕ}
    {point : ℤ → BodyPoint} (hcount : 0 ≤ (s.socketPart handler mBuffer bytes len point).ret) :
    len ≤ s.mSock.stream.length := by
  by_contra hlong
  rw [socketPart] at hcount
  simp only [if_neg hlong] at hcount
  omega

/-- A chunk is taken from mBuffer, or from the socket for the rest of it. -/
theorem Receiving.goesOn_data (h : s.Receiving N q handler) {len : ℕ} (hlen : 0 < len)
    (hpoint : s.point = .chunkData len) (hok : s.Answered ()) : s.GoesOn N code last := by
  have hstep : s.step () = s.chunkPass len := by
    simp only [HttpAgent.step, hpoint, if_pos (Int.natCast_pos.mpr hlen)]
  have hanswer : s.answer = s.socketAnswer len := by simp only [answer, hpoint]
  have hrank : s.point.rank = 2 := by rw [hpoint]; rfl
  have hend : BodyPoint.chunkEnd.rank = 1 := rfl
  obtain ⟨n,mBuffer,hseg,hn,hholds,hinside,hbeyond⟩ := chunkPass_spec h.holds h.handler_eq len
  have hlen' : mBuffer.getLength = (q.drop (min n len)).length := hholds.len_eq
  have hsocket := h.socketAnswer_eq len hseg mBuffer chunkPoint
  -- the chunk ends in the first segment, or it goes on in the socket
  by_cases hle : len ≤ n
  · rw [if_pos hle] at hsocket
    refine ⟨[],_,hstep.trans (hinside hle),⟨_,_,hholds,h.cut,rfl⟩,trivial,?_⟩
    intro _
    simp only [weight, hlen', h.getLength, List.length_drop, hrank, hend]
    omega
  · rw [if_neg hle] at hsocket
    have hcount := hok _ (hanswer.trans hsocket)
    refine ⟨_,_,hstep.trans (hbeyond (Nat.not_le.mp hle)),⟨_,_,hholds,h.cut.consume _,rfl⟩,?_,?_⟩
    · rw [hanswer, hsocket]
      exact chunkPoint_retOf hcount
    · intro _
      have hmore := socketPart_answered hcount
      have hrank' : (s.socketPart handler mBuffer (q.take n) (len-n) chunkPoint).point.rank ≤ 1 :=
        chunkPoint_rank _
      simp only [weight, hlen', h.getLength, List.length_drop, hrank, socketPart,
        Socket.stream_consume] at hrank' ⊢
      omega

theorem length_skips_lt {l : List UInt8} (h : l.head? = some 13 ∨ l.head? = some 10) :
    (skipByte 10 (skipByte 13 l)).length < l.length := by
  cases l with
  | nil => simp at h
  | cons b l =>
    have hlf := length_skipByte_le 10 (skipByte 13 (b :: l))
    by_cases hcr : (b :: l).head? = some 13
    · rw [skipByte.eq_def 13, if_pos hcr] at hlf ⊢
      exact lt_of_le_of_lt hlf (Nat.lt_succ_self _)
    · rw [skipByte.eq_def 13, if_neg hcr, skipByte, if_pos (h.resolve_left hcr)]
      exact Nat.lt_succ_self _

/-- What GetsLine says of the wait for a chunk line. -/
theorem Receiving.fill_progress (h : s.Receiving N q handler)
    (hgets : s.mBuffer.getFreeSpace ≠ 0 ∧ s.mSock.stream ≠ [] ∨
      s.mBuffer.byteAt 0 = 13 ∨ s.mBuffer.byteAt 0 = 10) :
    0 < s.fillCount ∨ (s.filled q).length < q.length+s.fillCount.toNat := by
  rcases hgets with ⟨hroom,hmore⟩ | hbyte
  · exact .inl (fillCount_pos h.holds h.cut hroom hmore)
  · right
    have hcr := h.holds.byteAt_eq_iff 0 13
    have hlf := h.holds.byteAt_eq_iff 0 10
    rw [List.drop_zero] at hcr hlf
    have hhead : q.head? = some 13 ∨ q.head? = some 10 := hbyte.imp hcr.mp hlf.mp
    have hle := (fillFromFile_count h.holds).choose_spec.choose_spec.2.2
    have hne : q ≠ [] := by
      rintro rfl
      simp at hhead
    have hfront := length_skips_lt (l := q ++ s.mSock.stream.take s.fillCount.toNat)
      (by rwa [List.head?_append_of_ne_nil _ hne])
    rwa [List.length_append, List.length_take_of_le hle] at hfront

/-- A chunk line is read off, or the wait for it goes on. -/
theorem Receiving.goesOn_line (h : s.Receiving N q handler) (hpoint : s.point = .chunkLine)
    (hret : s.RetOf code last) (hok : s.Answered ()) (hline : s.GetsLine ()) :
    s.GoesOn N code last := by
  have hpass : s.step () = s.chunkLinePass := by simp only [HttpAgent.step, hpoint]
  obtain ⟨readLen,length,hparse,hgets⟩ := hline hpoint
  have hanswer : s.answer = if readLen ≤ 0 then some (.fillFromFile s.fillCount) else none := by
    simp only [answer, hpoint, hparse]
  rw [chunkLinePass, hparse, ok_bind] at hpass
  by_cases hread : readLen ≤ 0
  · rw [if_pos hread] at hanswer
    have hprogress := h.fill_progress (hgets.resolve_left (Int.not_lt.mpr hread))
    exact h.goesOn_fill (hpass.trans (if_pos hread)) hanswer hok (.inr hprogress)
  · rw [if_neg hread] at hanswer
    obtain ⟨mBuffer,hstep,hholds,hless⟩ := chunkLine_read h.holds hpoint hparse (not_le.mp hread)
    refine ⟨[],_,hstep,⟨_,handler,hholds,h.cut,h.handler_eq⟩,?_,?_⟩
    · rw [hanswer]
      simp only [RetOf, hpoint] at hret ⊢
      exact hret
    · -- the line has bytes, and they are gone from mBuffer
      intro _
      have hlen : mBuffer.getLength = (q.drop readLen.toNat).length := hholds.len_eq
      have hdata : (BodyPoint.chunkData length).rank = 2 := rfl
      simp only [weight, hlen, h.getLength, hdata]
      omega

/-- Every step of a chunked body goes on. -/
theorem Receives.goesOn (h : s.Receives N) (hret : s.RetOf code last) (hok : s.Answered ())
    (hline : s.GetsLine ()) : s.GoesOn N code last := by
  obtain ⟨q,handler,h⟩ := h
  cases hpoint : s.point with
  | contentLength length =>
    simp only [RetOf, hpoint] at hret
  | chunkLine => exact h.goesOn_line hpoint hret hok hline
  | chunkData length =>
    by_cases hpos : 0 < length
    · obtain ⟨len,rfl⟩ := Int.eq_ofNat_of_zero_le hpos.le
      exact h.goesOn_data (Int.natCast_pos.mp hpos) hpoint hok
    · -- a chunk with no data ends the body
      have hstep : s.step () = .ok ([],s.finish .kNoError) := by
        simp only [HttpAgent.step, hpoint, if_neg hpos]
      have hanswer : s.answer = none := by
        have hsegment := h.firstSegment_nonneg
        simp only [answer, hpoint]
        exact socketAnswer_none (by omega)
      refine ⟨[],_,hstep,⟨q,handler,h.holds,h.cut,h.handler_eq⟩,?_,?_⟩
      · rw [hanswer]
        simp only [RetOf, hpoint] at hret
        exact finish_retOf hret
      · intro _
        simp [weight, finish, hpoint, BodyPoint.rank]
  | chunkEnd =>
    have hstep : s.step () = s.fillAndSkip := by simp only [HttpAgent.step, hpoint]
    have hanswer : s.answer = some (.fillFromFile s.fillCount) := by simp only [answer, hpoint]
    refine h.goesOn_fill hstep hanswer hok (.inl ?_)
    rw [hpoint]
    exact Nat.one_pos
  | returned err =>
    have hstep := step_returned ⟨err,hpoint⟩
    have hanswer : s.answer = none := by simp only [answer, hpoint]
    refine ⟨[],s,hstep,⟨q,handler,h⟩,?_,fun hreturned => absurd ⟨err,hpoint⟩ hreturned⟩
    rw [hanswer]
    exact hret

/-- A run of a chunked body leaves in ret what the last of its answers is. -/
theorem Receives.run_retOf {n : ℕ} {os : List (List SocketRead)} {s' : HttpAgent} (h : s.Receives N)
    (hret : s.RetOf code last)
    (hg : Guarded HttpAgent.step (fun s a => s.Answered a ∧ s.GetsLine a) s (List.replicate n ()))
    (hrun : Transition.run HttpAgent.step s (List.replicate n ()) = .ok (os,s')) :
    s'.RetOf code (lastAnswer n last s) := by
  induction n generalizing s last os with
  | zero =>
    obtain ⟨-,rfl⟩ := Prod.mk.inj (Except.ok.inj hrun)
    exact hret
  | succ n ih =>
    obtain ⟨o,s₁,os₁,hstep,hrest,-⟩ := run_cons hrun
    obtain ⟨reads,s₂,hstep',h₂,hret₂,-⟩ := h.goesOn hret hg.1.1 hg.1.2
    obtain ⟨rfl,rfl⟩ := Prod.mk.inj (Except.ok.inj (hstep'.symm.trans hstep))
    rw [lastAnswer, hstep]
    exact ih h₂ hret₂ (hg.2 _ _ hstep) hrest

/-- A chunked body is received to its end, as long as the wait for a chunk line goes on. -/
theorem Receives.ends (h : s.Receives N) (hret : s.RetOf code last)
    (hg : ∀ n, Guarded HttpAgent.step (fun s a => s.Answered a ∧ s.GetsLine a) s
      (List.replicate n ())) : ∃ n os s', s'.Returned ∧
      Transition.run HttpAgent.step s (List.replicate n ()) = .ok (os,s') := by
  let Inv (s : HttpAgent) : Prop := s.Receives N ∧ ∃ last, s.RetOf code last
  have hnext : ∀ s, Inv s → s.Answered () ∧ s.GetsLine () → ¬s.Returned →
      ∃ reads s', s.step () = .ok (reads,s') ∧ Inv s' ∧ s'.weight < s.weight := by
    rintro s ⟨h,last,hret⟩ ⟨hok,hline⟩ hreturned
    obtain ⟨reads,s',hstep,h',hret',hless⟩ := h.goesOn hret hok hline
    exact ⟨reads,s',hstep,⟨h',_,hret'⟩,hless hreturned⟩
  obtain ⟨n,os,s',hrun,-,-,hend⟩ := run_ends (P := fun _ => True) _ () weight
    (fun _ _ _ => trivial) hnext ⟨h,last,hret⟩ hg
  exact ⟨n,os,s',hend,hrun⟩

end Chunked

section Stuck
variable {N : ℕ} {buf buf' : CircularBuffer} {s s' : HttpAgent} {q : List UInt8}
  {handler : BodyHandler}

theorem byteAt_congr (h : buf.Holds N q) (h' : buf'.Holds N q) (i : ℕ) :
    buf.byteAt i = buf'.byteAt i := by
  simp only [byteAt_eq h.wf, byteAt_eq h'.wf, h.contents_eq, h'.contents_eq]

/-- A chunk line is parsed from the bytes that mBuffer holds. -/
theorem parseChunkLine_congr (h : buf.Holds N q) (h' : buf'.Holds N q) (len : ℤ) :
    parseChunkLine buf len = parseChunkLine buf' len := by
  have hbyte := byteAt_congr h h'
  have hchar (i : ℕ) : buf.charAt i = buf'.charAt i := by
    rw [CircularBuffer.charAt, CircularBuffer.charAt, hbyte]
  have hstr (n i : ℕ) (str : List UInt8) : lengthStrFrom buf n i str = lengthStrFrom buf' n i str := by
    induction n generalizing i str with
    | zero => rfl
    | succ n ih => simp only [lengthStrFrom, hbyte, hchar, ih]
  have hend (n i : ℕ) (c : ℤ) : lineEndFrom buf n i c = lineEndFrom buf' n i c := by
    induction n generalizing i c with
    | zero => rfl
    | succ n ih => simp only [lineEndFrom, hbyte, ih]
  have hlen : buf.getLength = buf'.getLength := h.len_eq.trans h'.len_eq.symm
  simp only [parseChunkLine, hlen, hstr, hend, hbyte]

theorem skips_eq (hcr : q.head? ≠ some 13) (hlf : q.head? ≠ some 10) :
    skipByte 10 (skipByte 13 q) = q := by
  rw [skipByte.eq_def 13, if_neg hcr, skipByte, if_neg hlf]

/-- Where the wait for a chunk line does not go on, it does not end. -/
theorem Receiving.stuck {reads : List SocketRead} (h : s.Receiving N q handler) (hok : s.Answered ())
    (hline : ¬s.GetsLine ()) (hstep : s.step () = .ok (reads,s')) :
    s'.Receiving N q handler ∧ ¬s'.GetsLine () := by
  obtain ⟨hpoint,hno⟩ := Classical.not_imp.mp hline
  have hpass : s.step () = s.chunkLinePass := by simp only [HttpAgent.step, hpoint]
  rw [hpass, chunkLinePass] at hstep
  obtain ⟨⟨readLen,length⟩,hparse,hrest⟩ := bind_eq_ok.mp hstep
  have hwait : ¬(0 < readLen ∨ s.mBuffer.getFreeSpace ≠ 0 ∧ s.mSock.stream ≠ [] ∨
      s.mBuffer.byteAt 0 = 13 ∨ s.mBuffer.byteAt 0 = 10) := fun hgets => hno ⟨_,_,hparse,hgets⟩
  simp only [not_or, not_and_or, not_not, not_lt] at hwait
  obtain ⟨hread,hdry,hcr,hlf⟩ := hwait
  have hcount : 0 ≤ s.fillCount := by
    apply hok (.fillFromFile s.fillCount)
    simp only [answer, hpoint, hparse, if_pos hread]
    rfl
  -- nothing is read: mBuffer is full or the stream is at its end
  have hzero : s.fillCount = 0 := by
    obtain ⟨-,-,-,-,hle⟩ := fillFromFile_count h.holds
    rcases hdry with hfull | hempty
    · rw [h.holds.free_eq] at hfull
      have hlen := h.holds.length_le
      exact fillCount_eq (fillFromFile_full h.holds (by omega))
    · rw [hempty, List.length_nil] at hle
      omega
  obtain ⟨reads',mBuffer,hfill,hholds⟩ := fillAndSkip_count h.holds hcount
  have hcr' := h.holds.byteAt_eq_iff 0 13
  have hlf' := h.holds.byteAt_eq_iff 0 10
  rw [List.drop_zero] at hcr' hlf'
  rw [filled, hzero, Int.toNat_zero, List.take_zero, List.append_nil,
    skips_eq (fun hc => hcr (hcr'.mpr hc)) (fun hc => hlf (hlf'.mpr hc))] at hholds
  rw [hzero, Int.toNat_zero, Socket.consume_zero] at hfill
  simp only [if_pos hread] at hrest
  obtain ⟨-,rfl⟩ := Prod.mk.inj (Except.ok.inj (hfill.symm.trans hrest))
  refine ⟨⟨hholds,h.cut,h.handler_eq⟩,?_⟩
  intro hgets
  obtain ⟨readLen',length',hparse',hwait'⟩ := hgets rfl
  apply hno
  refine ⟨readLen',length',(parseChunkLine_congr h.holds hholds 0).trans hparse',?_⟩
  rwa [h.holds.free_eq, ← hholds.free_eq, byteAt_congr h.holds hholds 0]

end Stuck

end HttpAgent

end JhCommon
