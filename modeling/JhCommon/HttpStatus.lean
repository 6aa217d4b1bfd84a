import JhCommon.HttpAnswers

/-! What `sendAndGet` returns, and when it tells the response code. -/
namespace JhCommon
open CircularBuffer Transition

namespace HttpAgent

/-- The agent comes to return, with kNoError for the codes of what was found and for no other. -/
def ReflectsStatus (s : HttpAgent) (code : ℤ) : Prop := ∃ n os s' err,
  Transition.run HttpAgent.step s (List.replicate n ()) = .ok (os,s') ∧ s'.point = .returned err ∧
    (err = .kNoError ↔ Found code)

/-- What is counted last tells what the code does. A body with a length is counted once, where mBuffer
does not hold it in its first segment. In a chunked one the wait for a chunk line goes on, and the
last answer decides. Without either the code is none of what was found. -/
def StatusKept (s : HttpAgent) (code : ℤ) : Prop :=
  match s.point with
  | .contentLength length => ∀ a ∈ s.socketAnswer length, (Found a.count ↔ Found code)
  | .chunkLine => (∀ n, Guarded HttpAgent.step GetsLine s (List.replicate n ())) ∧
      ∀ n os s', Transition.run HttpAgent.step s (List.replicate n ()) = .ok (os,s') → s'.Returned →
        (EndsWell code (lastAnswer n none s) ↔ Found code)
  | _ => ¬Found code

/-- The header of a response has been received, in whatever pieces, and there is a handler for its
body. -/
def HeaderReceived (res : HttpResponse) (s : HttpAgent) : Prop :=
  ∃ (buf : CircularBuffer) (handler : BodyHandler) (s₀ s₁ : HttpAgent) (res₀ : HttpResponse)
    (fuel : ℕ), buf.Reachable kMaxMessageSize ∧ s₀.mBuffer = buf.clear ∧ s₀.mSock.Cut ∧
      s₀.handler = some handler ∧ receiveHeader fuel res₀ true s₀ = .ok (some res,s₁) ∧
      startBody res s₁ = .ok s

section Result
variable {N : ℕ} {res : HttpResponse} {s s' : HttpAgent} {q : List UInt8} {handler : BodyHandler}
  {code : ℤ}

theorem final_returned (h : s.Returned) : Final HttpAgent.step () s := ⟨[],step_returned h⟩

/-- What a run returns is all that is returned. -/
theorem reflectsStatus_iff_run {n : ℕ} {os : List (List SocketRead)} {err : ErrCode}
    (hrun : Transition.run HttpAgent.step s (List.replicate n ()) = .ok (os,s'))
    (hpoint : s'.point = .returned err) :
    s.ReflectsStatus code ↔ (err = .kNoError ↔ Found code) := by
  constructor
  · rintro ⟨m,os',t,err',hrun',hpoint',hiff⟩
    obtain rfl := (final_returned ⟨err,hpoint⟩).unique (final_returned ⟨err',hpoint'⟩) hrun hrun'
    obtain rfl := BodyPoint.returned.inj (hpoint.symm.trans hpoint')
    exact hiff
  · exact fun hiff => ⟨n,os,s',err,hrun,hpoint,hiff⟩

theorem getsLine_returned (h : s.Returned) : s.GetsLine () := by
  intro hpoint
  obtain ⟨err,herr⟩ := h
  rw [hpoint] at herr
  cases herr

/-- A wait for a chunk line that does not go on is never returned from. -/
theorem Receiving.stuck_run {n : ℕ} {os : List (List SocketRead)} (h : s.Receiving N q handler)
    (hok : ∀ n, Guarded HttpAgent.step Answered s (List.replicate n ())) (hline : ¬s.GetsLine ())
    (hrun : Transition.run HttpAgent.step s (List.replicate n ()) = .ok (os,s')) : ¬s'.Returned := by
  induction n generalizing s os with
  | zero =>
    obtain ⟨-,rfl⟩ := Prod.mk.inj (Except.ok.inj hrun)
    exact fun hend => hline (getsLine_returned hend)
  | succ n ih =>
    obtain ⟨o,s₁,os₁,hstep,hrest,-⟩ := run_cons hrun
    obtain ⟨h₁,hline₁⟩ := h.stuck (hok 1).1 hline hstep
    exact ih h₁ (fun k => (hok (k+1)).2 _ _ hstep) hline₁ hrest

/-- A run that returns has gone on with every wait for a chunk line. -/
theorem getsLine_of_run {n : ℕ} {os : List (List SocketRead)} {last : Option Answer}
    (h : s.Receives N) (hret : s.RetOf code last)
    (hok : ∀ n, Guarded HttpAgent.step Answered s (List.replicate n ()))
    (hrun : Transition.run HttpAgent.step s (List.replicate n ()) = .ok (os,s'))
    (hend : s'.Returned) (m : ℕ) : Guarded HttpAgent.step GetsLine s (List.replicate m ()) := by
  induction n generalizing s m os last with
  | zero =>
    obtain ⟨-,rfl⟩ := Prod.mk.inj (Except.ok.inj hrun)
    exact Guarded.forever (n := 0) (final_returned hend) (getsLine_returned hend) trivial rfl m
  | succ n ih =>
    by_cases hline : s.GetsLine ()
    · obtain ⟨o,s₁,os₁,hstep,hrest,-⟩ := run_cons hrun
      obtain ⟨reads,s₂,hstep',h₂,hret₂,-⟩ := h.goesOn hret (hok 1).1 hline
      obtain ⟨rfl,rfl⟩ := Prod.mk.inj (Except.ok.inj (hstep'.symm.trans hstep))
      cases m with
      | zero => trivial
      | succ m =>
        exact .cons hstep hline (ih h₂ hret₂ (fun k => (hok (k+1)).2 _ _ hstep) hrest m)
    · obtain ⟨q,handler,h⟩ := h
      exact absurd hend (h.stuck_run hok hline hrun)

theorem step_content_zero (h : s.point = .contentLength 0) :
    s.step () = .ok ([],s.finish .kNoError) := by
  simp only [HttpAgent.step, h, lt_irrefl, if_false]

/-- The loop over a body with a length leaves in ret what the handler returns, if it is called. -/
theorem Receiving.content_run (h : s.Receiving N q handler) {length : ℤ}
    (hpoint : s.point = .contentLength length) (hok : s.Answered ()) :
    ∃ n os s' err, Transition.run HttpAgent.step s (List.replicate n ()) = .ok (os,s') ∧
      s'.point = .returned err ∧
      (err = .kNoError ↔ Found (((s.socketAnswer length).map Answer.count).getD s.ret)) := by
  have hanswer : s.answer = s.socketAnswer length := by simp only [answer, hpoint]
  by_cases hpos : 0 < length
  · obtain ⟨len,rfl⟩ := Int.eq_ofNat_of_zero_le hpos.le
    have hstep : s.step () = s.contentPass len := by
      simp only [HttpAgent.step, hpoint, if_pos hpos]
    obtain ⟨n,mBuffer,hseg,-,-,hinside,hbeyond⟩ := contentPass_spec h.holds h.handler_eq len
    have hsocket := h.socketAnswer_eq len hseg mBuffer contentPoint
    -- in two passes: the data, and the end of the loop
    by_cases hle : len ≤ n
    · rw [if_pos hle] at hsocket
      rw [hsocket]
      exact ⟨2,_,_,_,run_two (hstep.trans (hinside hle)) (step_content_zero rfl),rfl,finish_found _⟩
    · rw [if_neg hle] at hsocket
      have hcount := hok _ (hanswer.trans hsocket)
      have hzero : (s.socketPart handler mBuffer (q.take n) (len-n) contentPoint).point =
          .contentLength 0 := if_neg (Int.not_lt.mpr hcount)
      rw [hsocket]
      exact ⟨2,_,_,_,run_two (hstep.trans (hbeyond (Nat.not_le.mp hle))) (step_content_zero hzero),
        rfl,finish_found _⟩
  · have hstep : s.step () = .ok ([],s.finish .kNoError) := by
      simp only [HttpAgent.step, hpoint, if_neg hpos]
    have hsegment := h.firstSegment_nonneg
    rw [socketAnswer_none (by omega)]
    exact ⟨1,_,_,_,run_one hstep,rfl,finish_found s⟩

theorem HeaderReceived.start (h : HeaderReceived res s) :
    s.Receives kMaxMessageSize ∧ s.point = bodyPoint res ∧ s.ret = res.mResponseCode := by
  obtain ⟨buf,handler,s₀,s₁,res₀,fuel,hbuf,hclear,hcut,hhandler,hheader,hstart⟩ := h
  obtain ⟨q,hholds,hcut',hhandler',hpoint,hret⟩ := startBody_holds hbuf hclear hcut hheader hstart
  exact ⟨⟨q,handler,hholds,hcut',hhandler'.trans hhandler⟩,hpoint,hret⟩

theorem bodyPoint_cases (res : HttpResponse) : (∃ length, bodyPoint res = .contentLength length) ∨
    bodyPoint res = .chunkLine ∨ bodyPoint res = .returned .kNotFound := by
  unfold bodyPoint HttpResponse.getFieldInt
  cases res.getField kFieldContentLength with
  | some value => exact .inl ⟨_,rfl⟩
  | none =>
    right
    simp only [if_neg (show ¬ErrCode.kNotFound = .kNoError by decide)]
    cases res.getField kFieldTransferEncoding with
    | none => exact .inr rfl
    | some encoding =>
      simp only
      split
      · exact .inl rfl
      · exact .inr rfl

/-- Of what is received without an error, the result tells the code where what is counted last does,
and only there. -/
theorem reflectsStatus_iff (h : HeaderReceived res s)
    (hok : ∀ n, Guarded HttpAgent.step Answered s (List.replicate n ())) :
    s.ReflectsStatus res.mResponseCode ↔ s.StatusKept res.mResponseCode := by
  obtain ⟨hreceives,hpoint,hret⟩ := h.start
  -- a body with a length, one in chunks, and none
  rcases bodyPoint_cases res with ⟨length,hbody⟩ | hbody | hbody
  · have hcontent := hpoint.trans hbody
    obtain ⟨q,handler,hreceiving⟩ := hreceives
    obtain ⟨n,os,s',err,hrun,hend,herr⟩ := hreceiving.content_run hcontent (hok 1).1
    rw [reflectsStatus_iff_run hrun hend, herr, hret]
    simp only [StatusKept, hcontent]
    cases s.socketAnswer length with
    | none => simp
    | some a => simp
  · have hline := hpoint.trans hbody
    have hof : s.RetOf res.mResponseCode none := by
      simp only [RetOf, hline, hret]
      exact Iff.rfl
    have hlast {n : ℕ} {os : List (List SocketRead)} {s' : HttpAgent} {err : ErrCode}
        (hgets : ∀ n, Guarded HttpAgent.step GetsLine s (List.replicate n ()))
        (hrun : Transition.run HttpAgent.step s (List.replicate n ()) = .ok (os,s'))
        (hend : s'.point = .returned err) :
        err = .kNoError ↔ EndsWell res.mResponseCode (lastAnswer n none s) := by
      have hof' := hreceives.run_retOf hof ((hok n).and (hgets n)) hrun
      simpa only [RetOf, hend] using hof'
    simp only [StatusKept, hline]
    constructor
    · rintro ⟨n,os,s',err,hrun,hend,hiff⟩
      have hgets := getsLine_of_run hreceives hof hok hrun ⟨err,hend⟩
      refine ⟨hgets,?_⟩
      intro m os' t hrun' hend'
      -- what has returned stays as it is
      obtain rfl := (final_returned ⟨err,hend⟩).unique (final_returned hend') hrun hrun'
      exact (hlast hgets hrun' hend).symm.trans hiff
    · rintro ⟨hgets,hkept⟩
      obtain ⟨n,os,s',⟨err,hend⟩,hrun⟩ := hreceives.ends hof fun n => (hok n).and (hgets n)
      exact ⟨n,os,s',err,hrun,hend,(hlast hgets hrun hend).trans (hkept n os s' hrun ⟨err,hend⟩)⟩
  · have hreturned := hpoint.trans hbody
    have hne : ErrCode.kNotFound ≠ .kNoError := by decide
    have hrun : Transition.run HttpAgent.step s (List.replicate 0 ()) = .ok ([],s) := rfl
    rw [reflectsStatus_iff_run hrun hreturned]
    simp only [StatusKept, hreturned]
    exact ⟨fun hiff hfound => hne (hiff.mpr hfound),fun hno => iff_of_false hne hno⟩

end Result

/-- The agent in front of a response whose body comes behind its header. -/
def divided : HttpAgent :=
  { mBuffer := (CircularBuffer.init (fun _ => 0) kMaxMessageSize).clear
    mSock := ⟨[text "HTTP/1.1 200 OK\r\nContent-Length: 3\r\n\r\n",text "abc"],false⟩
    handler := some ⟨[],fun _ n => n⟩
    ret := 0
    point := .chunkLine }

/-- The response and the agent in front of the body. -/
def dividedBody : Option (HttpResponse × HttpAgent) := do
  let (res,s) ← (receiveHeader 5 .init true divided).toOption
  let res ← res
  let s ← (startBody res s).toOption
  some (res,s)

/-- The code, the framing and the bytes to come, what the run over the body meets and what it comes
to. -/
structure StatusSeen where
  code : ℤ
  contentLength : Option (List UInt8)
  pending : List UInt8
  answered : Bool
  point : BodyPoint
  deriving DecidableEq

instance (s : HttpAgent) (a : Unit) : Decidable (s.Answered a) :=
  inferInstanceAs (Decidable (∀ a ∈ s.answer, 0 ≤ a.count))

def statusSeen (r : HttpResponse × HttpAgent) : Option StatusSeen := do
  let (_,s) ← (Transition.run HttpAgent.step r.2 (List.replicate 2 ())).toOption
  some {
    code := r.1.mResponseCode
    contentLength := r.1.getField kFieldContentLength
    pending := r.2.pending
    answered := meets HttpAgent.step Answered r.2 (List.replicate 2 ())
    point := s.point }

theorem dividedBody_seen : dividedBody >>= statusSeen =
    some ⟨200,some (text "3"),text "abc",true,.returned .kNotFound⟩ := by
  decide +kernel

theorem divided_received : ∃ res s, HeaderReceived res s ∧ res.mResponseCode = 200 ∧
    Framed (fun _ => True) res s.pending (text "abc") ∧
    (∀ n, Guarded HttpAgent.step Answered s (List.replicate n ())) ∧
    ∃ os s', Transition.run HttpAgent.step s (List.replicate 2 ()) = .ok (os,s') ∧
      s'.point = .returned .kNotFound := by
  obtain ⟨⟨res,s⟩,hbody,hseen⟩ := Option.bind_eq_some_iff.mp dividedBody_seen
  unfold dividedBody at hbody
  obtain ⟨⟨out,s₁⟩,hheader,hout⟩ := Option.bind_eq_some_iff.mp hbody
  obtain ⟨res',rfl,hparsed⟩ := Option.bind_eq_some_iff.mp hout
  obtain ⟨s'',hstart,hpair⟩ := Option.bind_eq_some_iff.mp hparsed
  obtain ⟨rfl,rfl⟩ := Prod.mk.inj (Option.some_inj.mp hpair)
  obtain ⟨⟨os,s'⟩,hrun,hall⟩ := Option.bind_eq_some_iff.mp hseen
  obtain ⟨hcode,hfield,hpending,hanswered,hpoint⟩ := StatusSeen.mk.inj (Option.some_inj.mp hall)
  simp only at hpending hfield hcode hanswered
  have hend := final_returned ⟨_,hpoint⟩
  have hrest : s'.Answered () := by
    intro a ha
    simp only [answer, hpoint] at ha
    cases ha
  refine ⟨res',s'',?_,hcode,?_,?_,os,s',toOption_eq_some.mp hrun,hpoint⟩
  · refine ⟨CircularBuffer.init (fun _ => 0) kMaxMessageSize,_,divided,s₁,.init,5,
      ⟨fun _ => 0,[],[],by simp,rfl⟩,rfl,?_,rfl,toOption_eq_some.mp hheader,
      toOption_eq_some.mp hstart⟩
    intro segment hsegment
    rcases List.mem_pair.mp hsegment with rfl | rfl
    · decide
    · decide
  · rw [hpending]
    have hframed : Framed (fun _ => True) res' (text "abc" ++ []) (text "abc") :=
      .contentLength [] hfield (by decide) (by decide +kernel) (by decide +kernel)
    rwa [List.append_nil] at hframed
  · exact Guarded.forever hend hrest (guarded_of_meets hanswered) (toOption_eq_some.mp hrun)

/-- For the body that comes behind its header the theorem says what is lost. -/
theorem reflectsStatus_iff_divided : ∃ (res : HttpResponse) (s : HttpAgent), res.mResponseCode = 200 ∧
    (s.ReflectsStatus res.mResponseCode ↔ s.StatusKept res.mResponseCode) := by
  obtain ⟨res,s,hreceived,hcode,-,hok,-⟩ := divided_received
  exact ⟨res,s,hcode,reflectsStatus_iff hreceived hok⟩

/-- The three bytes that the handler reads of the socket are taken for the response code. -/
theorem loses_status : ¬∀ (res : HttpResponse) (s : HttpAgent) (body : List UInt8),
    HeaderReceived res s → Framed (fun _ => True) res s.pending body →
    (∀ n, Guarded HttpAgent.step Answered s (List.replicate n ())) →
    s.ReflectsStatus res.mResponseCode := by
  intro h
  obtain ⟨res,s,hreceived,hcode,hframed,hok,os,s',hrun,hpoint⟩ := divided_received
  have hreflects := h res s _ hreceived hframed hok
  rw [reflectsStatus_iff_run hrun hpoint, hcode] at hreflects
  have hlost := hreflects.mpr (.inl rfl)
  cases hlost

end HttpAgent

end JhCommon
