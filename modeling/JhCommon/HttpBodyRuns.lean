import JhCommon.HttpDelivery

/-! `sendAndGet` from the header on: which responses are delivered to the handler, however their
bytes have been cut into reads. -/
namespace JhCommon
open CircularBuffer Transition

namespace HttpAgent

section Header
variable {N : ℕ} {s : HttpAgent} {q : List UInt8}

/-- The lines of a header are read off, and nothing else happens to mBuffer. -/
theorem readLines_keeps {fuel : ℕ} {res res' : HttpResponse} {first first' : Bool}
    {buf buf' : CircularBuffer} (h : buf.Holds N q)
    (hread : HttpResponse.readLines fuel res first buf = .ok (res',first',buf')) :
    ∃ q', buf'.Holds N q' := by
  induction fuel generalizing res first buf q with
  | zero => cases hread
  | succ fuel ih =>
    rw [HttpResponse.readLines] at hread
    split at hread
    · -- a line has been parsed, as the first one or not
      have hline : ∃ (len : ℤ) (res₁ : HttpResponse),
          (if len < 0 then HttpResponse.readLines fuel res₁ false buf
          else buf.read false len.toNat >>= fun out =>
            HttpResponse.readLines fuel res₁ false out.2) = .ok (res',first',buf') := by
        cases first with
        | true => exact ⟨_,_,hread⟩
        | false =>
          obtain ⟨⟨len,res₁⟩,-,hread⟩ := bind_eq_ok.mp hread
          exact ⟨len,res₁,hread⟩
      obtain ⟨len,res₁,hread⟩ := hline
      split at hread
      · exact ih h hread
      · obtain ⟨buf₁,hoff,h₁⟩ := read_spec h false len.toNat
        rw [hoff, ok_bind] at hread
        exact ih h₁ hread
    · obtain ⟨-,hbuf⟩ := Prod.mk.inj (Except.ok.inj hread)
      obtain ⟨-,rfl⟩ := Prod.mk.inj hbuf
      exact ⟨q,h⟩

theorem fillFromFile_keeps {reads : List SocketRead} {s' : HttpAgent} (h : s.mBuffer.Holds N q)
    (hcut : s.mSock.Cut) (hfill : s.fillFromFile = .ok (reads,s')) :
    ∃ q', s'.mBuffer.Holds N q' ∧ s'.mSock.Cut ∧ s'.handler = s.handler := by
  by_cases hfull : q.length = N
  · rw [fillFromFile_full h hfull] at hfill
    obtain ⟨-,rfl⟩ := Prod.mk.inj (Except.ok.inj hfill)
    exact ⟨q,h,hcut,rfl⟩
  · obtain ⟨n,ret,mBuffer,-,hfill',hfailed,hstored⟩ :=
      fillFromFile_room h (lt_of_le_of_ne h.length_le hfull)
    obtain ⟨-,rfl⟩ := Prod.mk.inj (Except.ok.inj (hfill'.symm.trans hfill))
    cases hread : s.mSock.read n with
    | failed err => exact ⟨q,(hfailed err hread).2 ▸ h,hcut.consume _,rfl⟩
    | stored bytes => exact ⟨_,(hstored bytes hread).2,hcut.consume _,rfl⟩

theorem receiveHeader_keeps {fuel : ℕ} {res : HttpResponse} {first : Bool}
    {out : Option HttpResponse} {s' : HttpAgent} (h : s.mBuffer.Holds N q) (hcut : s.mSock.Cut)
    (hheader : receiveHeader fuel res first s = .ok (out,s')) :
    ∃ q', s'.mBuffer.Holds N q' ∧ s'.mSock.Cut ∧ s'.handler = s.handler := by
  induction fuel generalizing res first s q with
  | zero => cases hheader
  | succ fuel ih =>
    rw [receiveHeader] at hheader
    obtain ⟨⟨reads,s₁⟩,hfill,hheader⟩ := bind_eq_ok.mp hheader
    obtain ⟨q₁,h₁,hcut₁,hhandler₁⟩ := fillFromFile_keeps h hcut hfill
    rw [← hhandler₁]
    simp only at hheader
    split at hheader
    · obtain ⟨-,rfl⟩ := Prod.mk.inj (Except.ok.inj hheader)
      exact ⟨q₁,h₁,hcut₁,rfl⟩
    · obtain ⟨⟨res₁,first₁,buf₁⟩,hread,hheader⟩ := bind_eq_ok.mp hheader
      obtain ⟨q₂,h₂⟩ := readLines_keeps h₁ hread
      simp only at hheader
      split at hheader
      · exact ih (s := { s₁ with mBuffer := buf₁ }) h₂ hcut₁ hheader
      · obtain ⟨-,rfl⟩ := Prod.mk.inj (Except.ok.inj hheader)
        exact ⟨q₂,h₂,hcut₁,rfl⟩

end Header

/-- The agent stands in front of the body, after the header has come in whatever pieces. The handler
tells of every read that it read something. -/
def HeadersParsed (res : HttpResponse) (s : HttpAgent) : Prop :=
  ∃ (buf : CircularBuffer) (handler : BodyHandler) (s₀ s₁ : HttpAgent) (res₀ : HttpResponse)
    (fuel : ℕ), buf.Reachable kMaxMessageSize ∧ s₀.mBuffer = buf.clear ∧ s₀.mSock.Cut ∧
      s₀.handler = some handler ∧ handler.received = [] ∧
      (∀ received n, 0 < n → 0 < handler.reports received n) ∧
      receiveHeader fuel res₀ true s₀ = .ok (some res,s₁) ∧ startBody res s₁ = .ok s

/-- The bytes start with a body as the header says, by its length or in chunks whose lines are all
`ok`. -/
inductive Framed (ok : ChunkLine → Prop) (res : HttpResponse) : List UInt8 → List UInt8 → Prop
  | contentLength {value body : List UInt8} (tail : List UInt8)
      (hfield : res.getField kFieldContentLength = some value) (hne : value ≠ [])
      (hdigits : ∀ b ∈ value, isDigit b = true) (hvalue : digitsValue 0 value = body.length) :
      Framed ok res (body ++ tail) body
  | chunked {code body : List UInt8} (hnone : res.getField kFieldContentLength = none)
      (hfield : res.getField kFieldTransferEncoding = some (text "chunked"))
      (hcode : Coding ok code body) : Framed ok res code body

/-- The length that the agent reads from its field is the one that stands there. -/
def LengthRead (res : HttpResponse) : Prop :=
  ∀ value, res.getField kFieldContentLength = some value →
    (res.getFieldInt kFieldContentLength).2 = digitsValue 0 value

/-- The bytes that are still to come. -/
def pending (s : HttpAgent) : List UInt8 := s.mBuffer.contents ++ s.mSock.stream

theorem bodyPoint_contentLength {res : HttpResponse} {value : List UInt8}
    (hfield : res.getField kFieldContentLength = some value) :
    bodyPoint res = .contentLength (res.getFieldInt kFieldContentLength).2 := by
  simp only [bodyPoint, HttpResponse.getFieldInt, hfield, if_true]

theorem bodyPoint_chunked {res : HttpResponse} (hnone : res.getField kFieldContentLength = none)
    (hfield : res.getField kFieldTransferEncoding = some (text "chunked")) :
    bodyPoint res = .chunkLine := by
  have hplain : cStr (text "chunked") = text "chunked" := by decide
  have herr : ¬ErrCode.kNotFound = .kNoError := by decide
  simp only [bodyPoint, HttpResponse.getFieldInt, hnone, hfield, hplain, if_neg herr, if_true]

/-- The body starts with what is in mBuffer behind the header and the line end after it. -/
theorem startBody_holds {buf : CircularBuffer} {s₀ s₁ s : HttpAgent} {res₀ res : HttpResponse}
    {fuel : ℕ} (hbuf : buf.Reachable kMaxMessageSize) (hclear : s₀.mBuffer = buf.clear)
    (hcut : s₀.mSock.Cut) (hheader : receiveHeader fuel res₀ true s₀ = .ok (some res,s₁))
    (hstart : startBody res s₁ = .ok s) :
    ∃ q, s.mBuffer.Holds kMaxMessageSize q ∧ s.mSock.Cut ∧ s.handler = s₀.handler ∧
      s.point = bodyPoint res ∧ s.ret = res.mResponseCode := by
  have hholds := clear_holds (hbuf.holds (by decide))
  rw [← hclear] at hholds
  obtain ⟨q,hq,hcut',hhandler⟩ := receiveHeader_keeps hholds hcut hheader
  obtain ⟨mBuffer,hread,hrest⟩ := read_spec hq false 2
  rw [startBody, hread, ok_bind] at hstart
  obtain rfl := Except.ok.inj hstart
  exact ⟨q.drop 2,hrest,hcut',hhandler,rfl,rfl⟩

/-- What is known of the agent once the header is parsed. -/
theorem HeadersParsed.start {res : HttpResponse} {s : HttpAgent} (h : HeadersParsed res s) :
    ∃ q handler, s.mBuffer.Holds kMaxMessageSize q ∧ s.mSock.Cut ∧ s.handler = some handler ∧
      handler.received = [] ∧ (∀ received n, 0 < n → 0 < handler.reports received n) ∧
      s.point = bodyPoint res := by
  obtain ⟨buf,handler,s₀,s₁,res₀,fuel,hbuf,hclear,hcut,hhandler,hnil,hreports,hheader,hstart⟩ := h
  obtain ⟨q,hholds,hcut',hhandler',hpoint,-⟩ := startBody_holds hbuf hclear hcut hheader hstart
  exact ⟨q,handler,hholds,hcut',hhandler'.trans hhandler,hnil,hreports,hpoint⟩

/-- Once the header is parsed the whole body is still to come. -/
theorem HeadersParsed.delivers {res : HttpResponse} {s : HttpAgent} {body : List UInt8}
    (h : HeadersParsed res s) (hlength : LengthRead res)
    (hframed : Framed (ChunkLine.Readable kMaxMessageSize) res s.pending body) :
    s.Delivers kMaxMessageSize body := by
  obtain ⟨q,handler,hholds,hcut,hhandler,hnil,hreports,hpoint⟩ := h.start
  refine ⟨q,body,handler,hholds,hcut,hhandler,hreports,by rw [hnil, List.nil_append],?_⟩
  rw [hpoint]
  rw [pending, hholds.contents_eq] at hframed
  generalize hcode : q ++ s.mSock.stream = code at hframed
  cases hframed with
  | contentLength tail hfield hne hdigits hvalue =>
    have hlen := hlength _ hfield
    rw [hvalue] at hlen
    refine .content ?_ hcode
    rw [← hlen]
    exact bodyPoint_contentLength hfield
  | chunked hnone hfield hcode' =>
    refine .line ?_ (hcode ▸ hcode')
    exact bodyPoint_chunked hnone hfield

/-- The handler is given no more bytes than the length that was read. -/
def Bounded (length : ℤ) (s : HttpAgent) : Prop := ∃ q handler,
  s.mBuffer.Holds kMaxMessageSize q ∧ s.handler = some handler ∧
    (s.point = .contentLength length ∧ handler.received = [] ∨
      (s.point = .contentLength 0 ∨ s.Returned) ∧ handler.received.length ≤ length.toNat)

theorem contentPoint_cases (ret : ℤ) :
    contentPoint ret = .contentLength 0 ∨ ∃ err, contentPoint ret = .returned err := by
  unfold contentPoint
  split
  · exact .inr ⟨_,rfl⟩
  · exact .inl rfl

theorem Bounded.step {length : ℤ} {s s' : HttpAgent} {reads : List SocketRead}
    (h : s.Bounded length) (hstep : s.step () = .ok (reads,s')) : s'.Bounded length := by
  obtain ⟨q,handler,hholds,hhandler,⟨hpoint,hnil⟩ | ⟨hpoint | hreturned,hlen⟩⟩ := h
  · by_cases hpos : 0 < length
    · obtain ⟨len,rfl⟩ := Int.eq_ofNat_of_zero_le hpos.le
      simp only [HttpAgent.step, hpoint, if_pos hpos] at hstep
      obtain ⟨n,mBuffer,-,hn,hholds',hinside,hbeyond⟩ := contentPass_spec hholds hhandler len
      by_cases hle : len ≤ n
      · rw [hinside hle] at hstep
        obtain ⟨-,rfl⟩ := Prod.mk.inj (Except.ok.inj hstep)
        refine ⟨_,_,hholds',rfl,.inr ⟨.inl rfl,?_⟩⟩
        rw [hnil, List.nil_append, Int.toNat_natCast]
        exact List.length_take_le len q
      · rw [hbeyond (Nat.not_le.mp hle)] at hstep
        obtain ⟨-,rfl⟩ := Prod.mk.inj (Except.ok.inj hstep)
        refine ⟨_,_,hholds',rfl,.inr ⟨contentPoint_cases _,?_⟩⟩
        have htake := List.length_take_le n q
        have hsocket := List.length_take_le (len-n) s.mSock.stream
        rw [hnil, List.nil_append, List.length_append, Int.toNat_natCast]
        omega
    · simp only [HttpAgent.step, hpoint, if_neg hpos] at hstep
      obtain ⟨-,rfl⟩ := Prod.mk.inj (Except.ok.inj hstep)
      exact ⟨q,handler,hholds,hhandler,.inr ⟨.inr ⟨_,rfl⟩,by rw [hnil]; exact Nat.zero_le _⟩⟩
  · simp only [HttpAgent.step, hpoint, lt_irrefl, if_false] at hstep
    obtain ⟨-,rfl⟩ := Prod.mk.inj (Except.ok.inj hstep)
    exact ⟨q,handler,hholds,hhandler,.inr ⟨.inr ⟨_,rfl⟩,hlen⟩⟩
  · rw [step_returned hreturned] at hstep
    obtain ⟨-,rfl⟩ := Prod.mk.inj (Except.ok.inj hstep)
    exact ⟨q,handler,hholds,hhandler,.inr ⟨.inr hreturned,hlen⟩⟩

theorem Bounded.run {length : ℤ} {n : ℕ} {s s' : HttpAgent} {os : List (List SocketRead)}
    (h : s.Bounded length)
    (hrun : Transition.run HttpAgent.step s (List.replicate n ()) = .ok (os,s')) :
    s'.Bounded length := by
  induction n generalizing s os with
  | zero =>
    obtain ⟨-,rfl⟩ := Prod.mk.inj (Except.ok.inj hrun)
    exact h
  | succ n ih =>
    simp only [List.replicate_succ, Transition.run] at hrun
    obtain ⟨⟨reads,s₁⟩,hstep,hrun⟩ := bind_eq_ok.mp hrun
    obtain ⟨rs,hrun₁,hend⟩ := bind_eq_ok.mp hrun
    obtain ⟨-,rfl⟩ := Prod.mk.inj (Except.ok.inj hend)
    exact ih (h.step hstep) hrun₁

/-- A length that is not read as it stands is read as a smaller one, and bytes are left out. -/
theorem DeliversBody.lengthRead {res : HttpResponse} {s : HttpAgent} {body : List UInt8}
    {ok : ChunkLine → Prop} (h : HeadersParsed res s) (hframed : Framed ok res s.pending body)
    (hbody : s.DeliversBody body) : LengthRead res := by
  intro value hfield
  generalize s.pending = code at hframed
  cases hframed with
  | chunked hnone =>
    rw [hnone] at hfield
    cases hfield
  | @contentLength value' _ tail hfield' hne hdigits hvalue =>
    obtain rfl := Option.some_inj.mp (hfield'.symm.trans hfield)
    obtain ⟨q,handler,hholds,-,hhandler,hnil,-,hpoint⟩ := h.start
    rw [bodyPoint_contentLength hfield] at hpoint
    have hplain : cStr value' = value' := by
      apply HttpResponse.cStr_eq_self
      intro hmem
      exact absurd (hdigits 0 hmem) (by decide)
    have hread : (res.getFieldInt kFieldContentLength).2 = toInt32 (strtolBase 0 value') := by
      simp only [HttpResponse.getFieldInt, hfield, hplain]
    obtain ⟨hnonneg,hle⟩ := strtolBase_zero_le hdigits
    have hint := toInt32_le hnonneg
    -- what is received at the end is no longer than the length that was read
    obtain ⟨n,os,s',hrun,⟨err,hend⟩,hreceived,-⟩ := hbody
    obtain ⟨q',handler',-,hhandler',hlast⟩ :=
      Bounded.run ⟨q,handler,hholds,hhandler,.inl ⟨hpoint,hnil⟩⟩ hrun
    rw [hhandler', Option.map_some, Option.some_inj] at hreceived
    rcases hlast with ⟨hlast,-⟩ | ⟨-,hlast⟩
    · rw [hend] at hlast
      cases hlast
    · rw [hreceived, hread, ← hvalue] at hlast
      rw [hread]
      by_cases hzero : digitsValue 0 value' = 0
      · obtain hz : strtolBase 0 value' = 0 := by omega
        rw [hz, hzero]
        rfl
      · omega

/-- Where its chunk lines can be read, a body is delivered, however it has been cut, if and only if
its length is read as it stands and the run over it is undisturbed. -/
theorem deliversBody_iff {res : HttpResponse} {s : HttpAgent} {body : List UInt8}
    (h : HeadersParsed res s)
    (hframed : Framed (ChunkLine.Readable kMaxMessageSize) res s.pending body) :
    s.DeliversBody body ↔
      LengthRead res ∧ ∀ n, Guarded HttpAgent.step Undisturbed s (List.replicate n ()) := by
  constructor
  · intro hbody
    have hlength := DeliversBody.lengthRead h hframed hbody
    exact ⟨hlength,((h.delivers hlength hframed).deliversBody_iff_guarded (by decide)).mp hbody⟩
  · rintro ⟨hlength,hguard⟩
    exact ((h.delivers hlength hframed).deliversBody_iff_guarded (by decide)).mpr hguard

/-- Two chunks of one byte each. -/
def twoChunks : List UInt8 := text "1\r\na\r\n1\r\nb\r\n0\r\n\r\n"

/-- The agent in front of a response that comes in one piece over a connection that stays open. -/
def opened : HttpAgent :=
  { mBuffer := (CircularBuffer.init (fun _ => 0) kMaxMessageSize).clear
    mSock := ⟨[text "HTTP/1.1 200 OK\r\nTransfer-Encoding: chunked\r\n\r\n" ++ twoChunks],false⟩
    handler := some ⟨[],fun _ n => n⟩
    ret := 0
    point := .chunkLine }

/-- The response and the agent in front of the body. -/
def openedBody : Option (HttpResponse × HttpAgent) := do
  let (res,s) ← (receiveHeader 5 .init true opened).toOption
  let res ← res
  let s ← (startBody res s).toOption
  some (res,s)

/-- The framing that is found and the bytes that are still to come, and behind the first chunk where
the agent stands, with what mBuffer has room for and holds. -/
structure BodySeen where
  contentLength : Option (List UInt8)
  transferEncoding : Option (List UInt8)
  pending : List UInt8
  point : BodyPoint
  freeSpace : ℕ
  contents : List UInt8
  deriving DecidableEq

def bodySeen (r : HttpResponse × HttpAgent) : Option BodySeen := do
  let (_,s) ← (Transition.run HttpAgent.step r.2 (List.replicate 2 ())).toOption
  some {
    contentLength := r.1.getField kFieldContentLength
    transferEncoding := r.1.getField kFieldTransferEncoding
    pending := r.2.pending
    point := s.point
    freeSpace := s.mBuffer.getFreeSpace
    contents := s.mBuffer.contents }

/-- What is left in mBuffer behind the first chunk. -/
def behindChunk : List UInt8 := text "\r\n1\r\nb\r\n0\r\n\r\n"

theorem openedBody_seen : openedBody >>= bodySeen = some
    ⟨none,some (text "chunked"),twoChunks,.chunkEnd,2035,behindChunk⟩ := by
  decide +kernel

def sizeLine (digits : List UInt8) (hne : digits ≠ []) (hhex : ∀ b ∈ digits, digitVal b < 16) :
    ChunkLine :=
  { digits := digits
    ext := []
    digits_ne := hne
    digits_hex := hhex
    ext_start := by simp
    ext_cr := List.not_mem_nil }

def oneByte : ChunkLine := sizeLine [49] (by decide) (by decide +kernel)
def noByte : ChunkLine := sizeLine [48] (by decide) (by decide +kernel)

theorem twoChunks_coding : Coding (ChunkLine.Readable kMaxMessageSize) twoChunks [97,98] := by
  have hone : oneByte.Readable kMaxMessageSize := by
    unfold ChunkLine.Readable
    decide
  have hno : noByte.Readable kMaxMessageSize := by
    unfold ChunkLine.Readable
    decide
  have hlast : Coding (ChunkLine.Readable kMaxMessageSize) (noByte.text ++ crlf) [] :=
    .last noByte crlf hno rfl
  have hsecond := Coding.chunk oneByte [98] _ _ hone rfl (by decide) hlast
  have hfirst := Coding.chunk oneByte [97] _ _ hone rfl (by decide) hsecond
  have htext : oneByte.text ++ ([97] ++ crlf ++ (oneByte.text ++ ([98] ++ crlf ++
      (noByte.text ++ crlf)))) = twoChunks := by decide
  rwa [htext] at hfirst

theorem coding_mono {ok ok' : ChunkLine → Prop} (hok : ∀ line, ok line → ok' line)
    {code body : List UInt8} (h : Coding ok code body) : Coding ok' code body := by
  induction h with
  | last line tail hline hsize => exact .last line tail (hok line hline) hsize
  | chunk line data rest body hline hsize hdata _ ih =>
    exact .chunk line data rest body (hok line hline) hsize hdata ih

theorem Framed.mono {ok ok' : ChunkLine → Prop} (hok : ∀ line, ok line → ok' line)
    {res : HttpResponse} {code body : List UInt8} (h : Framed ok res code body) :
    Framed ok' res code body := by
  cases h with
  | contentLength tail hfield hne hdigits hvalue =>
    exact .contentLength tail hfield hne hdigits hvalue
  | chunked hnone hfield hcode => exact .chunked hnone hfield (coding_mono hok hcode)

theorem opened_parsed : ∃ res s, HeadersParsed res s ∧ s.pending = twoChunks ∧
    Framed (ChunkLine.Readable kMaxMessageSize) res s.pending [97,98] ∧
    ∃ os s', Transition.run HttpAgent.step s (List.replicate 2 ()) = .ok (os,s') ∧
      s'.point = .chunkEnd ∧ s'.mBuffer.getFreeSpace ≠ 0 ∧ s'.mBuffer.contents = behindChunk := by
  obtain ⟨⟨res,s⟩,hbody,hseen⟩ := Option.bind_eq_some_iff.mp openedBody_seen
  unfold openedBody at hbody
  obtain ⟨⟨out,s₁⟩,hheader,hout⟩ := Option.bind_eq_some_iff.mp hbody
  obtain ⟨res',rfl,hparsed⟩ := Option.bind_eq_some_iff.mp hout
  obtain ⟨s'',hstart,hpair⟩ := Option.bind_eq_some_iff.mp hparsed
  obtain ⟨rfl,rfl⟩ := Prod.mk.inj (Option.some_inj.mp hpair)
  obtain ⟨⟨os,s'⟩,hrun,hall⟩ := Option.bind_eq_some_iff.mp hseen
  have hfields := BodySeen.mk.inj (Option.some_inj.mp hall)
  obtain ⟨hnone,hfield,hpending,hpoint,hfree,hcontents⟩ := hfields
  simp only at hpending hnone hfield
  refine ⟨res',s'',?_,hpending,?_,os,s',toOption_eq_some.mp hrun,hpoint,?_,hcontents⟩
  · refine ⟨CircularBuffer.init (fun _ => 0) kMaxMessageSize,⟨[],fun _ n => n⟩,opened,s₁,.init,5,
      ⟨fun _ => 0,[],[],by simp,rfl⟩,rfl,?_,rfl,rfl,?_,toOption_eq_some.mp hheader,
      toOption_eq_some.mp hstart⟩
    · intro segment hsegment
      obtain rfl := List.mem_singleton.mp hsegment
      exact List.cons_ne_nil _ _
    · intro _ n hn
      exact Int.natCast_pos.mpr hn
  · rw [hpending]
    exact .chunked hnone hfield twoChunks_coding
  · rw [hfree]
    decide

/-- The body of two chunks is delivered if its run is undisturbed, and only then. -/
theorem deliversBody_iff_opened : ∃ res s, s.pending = twoChunks ∧ (s.DeliversBody [97,98] ↔
    LengthRead res ∧ ∀ n, Guarded HttpAgent.step Undisturbed s (List.replicate n ())) := by
  obtain ⟨res,s,hparsed,hpending,hframed,-⟩ := opened_parsed
  exact ⟨res,s,hpending,deliversBody_iff hparsed hframed⟩

/-- The second chunk is in mBuffer when the socket is read behind the first one. -/
theorem misses_chunk : ¬∀ (res : HttpResponse) (s : HttpAgent) (body : List UInt8),
    HeadersParsed res s → Framed (fun _ => True) res s.pending body → s.DeliversBody body := by
  intro h
  obtain ⟨res,s,hparsed,-,hframed,os,s',hrun,hpoint,hfree,hcontents⟩ := opened_parsed
  have hbody := h res s [97,98] hparsed (hframed.mono (fun _ _ => trivial))
  have hlength := DeliversBody.lengthRead hparsed hframed hbody
  have hguard := ((hparsed.delivers hlength hframed).deliversBody_iff_guarded (by decide)).mp hbody 3
  have hguard' : Guarded HttpAgent.step Undisturbed s (List.replicate 2 () ++ [()]) := hguard
  have hok : s'.Undisturbed () := hguard'.last hrun
  simp only [Undisturbed, hpoint] at hok
  apply hok.resolve_left hfree
  refine ⟨oneByte,text "b\r\n0\r\n\r\n",.inr ?_⟩
  rw [hcontents]
  decide

end HttpAgent

end JhCommon
