import JhCommon.HttpStatus

/-! What `sendAndGet` does for a caller without a body handler. -/
namespace JhCommon
open CircularBuffer Transition

/-- Both points are passes of one loop. -/
def BodyPoint.SameLoop : BodyPoint → BodyPoint → Prop
  | .contentLength _, .contentLength _ => True
  | .chunkLine, .chunkLine => True
  | .chunkData _, .chunkData _ => True
  | _, _ => False

namespace HttpAgent

/-- Bytes of the body have been taken from the socket or from mBuffer. -/
def Consumes (s s' : HttpAgent) : Prop :=
  s'.mSock.stream.length < s.mSock.stream.length ∨
    s'.mBuffer.contents.length < s.mBuffer.contents.length

/-- The next pass consumes something, or leaves its loop. -/
def GetsOn (s : HttpAgent) (_ : Unit) : Prop :=
  ∃ reads s', s.step () = .ok (reads,s') ∧ (s.point.SameLoop s'.point → s.Consumes s')

/-- The call does not touch the handler, and gets on with every pass. It returns where the peer has
closed the connection. -/
def SafeWithoutHandler (s : HttpAgent) : Prop :=
  (∀ n os s', Transition.run HttpAgent.step s (List.replicate n ()) = .ok (os,s') →
    s'.step () ≠ .error .nullDeref) ∧
  (∀ n, Guarded HttpAgent.step GetsOn s (List.replicate n ())) ∧
  (s.mSock.closed = true → ∃ n os s',
    Transition.run HttpAgent.step s (List.replicate n ()) = .ok (os,s') ∧ s'.Returned)

/-- What the next pass needs to do without a handler. The first segment of mBuffer holds what is left
of a body with a length, and a chunk is the last one. The wait for a chunk line has one in mBuffer,
reads something or fails to, or drops something. -/
def NeedsNoHandler (s : HttpAgent) (_ : Unit) : Prop :=
  match s.point with
  | .contentLength length => 0 < length → length ≤ s.firstSegment
  | .chunkLine => ∃ readLen length, parseChunkLine s.mBuffer 0 = .ok (readLen,length) ∧
      (0 < readLen ∨ s.fillCount ≠ 0 ∨ s.mBuffer.byteAt 0 = 13 ∨ s.mBuffer.byteAt 0 = 10)
  | .chunkData length => length ≤ 0
  | .chunkEnd => True
  | .returned _ => True

/-- The header of a response has been received, in whatever pieces, for a caller without a handler. -/
def ReceivedWithoutHandler (res : HttpResponse) (s : HttpAgent) : Prop :=
  ∃ (buf : CircularBuffer) (s₀ s₁ : HttpAgent) (res₀ : HttpResponse) (fuel : ℕ),
    buf.Reachable kMaxMessageSize ∧ s₀.mBuffer = buf.clear ∧ s₀.mSock.Cut ∧ s₀.handler = none ∧
      receiveHeader fuel res₀ true s₀ = .ok (some res,s₁) ∧ startBody res s₁ = .ok s

/-- The agent has no handler. -/
structure Unattended (N : ℕ) (s : HttpAgent) (q : List UInt8) : Prop where
  holds : s.mBuffer.Holds N q
  handler_eq : s.handler = none

def left (s : HttpAgent) : ℕ :=
  s.weight+match s.point with
    | .returned _ => 0
    | _ => 1

/-- A pass that gets on lowers what is left, up to the return. -/
def Goes (N : ℕ) (s : HttpAgent) : Prop := ∃ reads s' q, s.step () = .ok (reads,s') ∧
  s'.Unattended N q ∧ (s.point.SameLoop s'.point → s.Consumes s') ∧ (¬s.Returned → s'.left < s.left)

section
variable {N : ℕ} {s s' : HttpAgent} {q : List UInt8} {res : HttpResponse}

theorem Goes.getsOn (h : s.Goes N) : s.GetsOn () := by
  obtain ⟨reads,s',-,hstep,-,hconsumes,-⟩ := h
  exact ⟨reads,s',hstep,hconsumes⟩

theorem not_getsOn_of_error {f : Fault} (h : s.step () = .error f) : ¬s.GetsOn () := by
  rintro ⟨reads,s',hstep,-⟩
  rw [h] at hstep
  cases hstep

theorem handleSocket_none (h : s.handler = none) (len : ℕ) :
    s.handleSocket len = .error .nullDeref := by
  simp only [handleSocket, h]

theorem Unattended.getLength (h : s.Unattended N q) : s.mBuffer.getLength = q.length :=
  h.holds.len_eq

/-- Of a body with a length, the bytes in the first segment are dropped, and the handler is called
for the others. -/
theorem Unattended.contentPass_eq (h : s.Unattended N q) (len : ℕ) :
    ((len : ℤ) ≤ s.firstSegment → ∃ mBuffer : CircularBuffer, mBuffer.Holds N (q.drop len) ∧
      len ≤ q.length ∧ s.contentPass len =
        .ok ([],{ s with mBuffer := mBuffer, point := .contentLength 0 })) ∧
    (s.firstSegment < len → s.contentPass len = .error .nullDeref) := by
  obtain ⟨buffer,n,hget,hseg,hn,-⟩ := firstSegment_spec h.holds
  obtain ⟨mBuffer,hread,hholds⟩ := read_spec h.holds false (min n len)
  have hdata : ∀ k, s.handleData buffer k = .ok s := by
    intro k
    simp only [handleData, h.handler_eq]
  rw [hseg, contentPass, hget]
  simp only [min_toNat, hdata, ok_bind, hread]
  constructor
  · intro hle
    have hmin : min n len = len := Nat.min_eq_right (Int.ofNat_le.mp hle)
    rw [hmin] at hholds ⊢
    have hlong : len ≤ q.length := (Int.ofNat_le.mp hle).trans hn
    refine ⟨mBuffer,hholds,hlong,?_⟩
    rw [if_neg (by omega), Int.sub_self]
  · intro hlt
    have hmin : min n len = n := Nat.min_eq_left (Int.ofNat_le.mp hlt.le)
    rw [hmin, if_pos (by omega), handleSocket_none (by exact h.handler_eq)]
    rfl

/-- Nothing is taken off a chunk, and the handler is called for all of it. -/
theorem Unattended.chunkPass_eq (h : s.Unattended N q) {len : ℤ} (hlen : 0 < len) :
    s.chunkPass len = .error .nullDeref := by
  have hsegment : s.chunkSegment len = .ok (len,s) := by
    unfold chunkSegment
    simp only [h.handler_eq, Option.isSome_none, Bool.false_eq_true, false_and, if_false]
  rw [chunkPass, hsegment, ok_bind]
  simp only [if_pos hlen.ne', handleSocket_none h.handler_eq]
  rfl

theorem Unattended.content_iff (h : s.Unattended N q) {length : ℤ}
    (hpoint : s.point = .contentLength length) :
    (s.NeedsNoHandler () → s.Goes N) ∧ (¬s.NeedsNoHandler () → ¬s.GetsOn ()) := by
  have hneeds : s.NeedsNoHandler () ↔ (0 < length → length ≤ s.firstSegment) := by
    simp only [NeedsNoHandler, hpoint]
  rw [hneeds]
  -- with nothing left of the body the handler is not needed
  by_cases hpos : 0 < length
  · obtain ⟨len,rfl⟩ := Int.eq_ofNat_of_zero_le hpos.le
    have hstep : s.step () = s.contentPass len := by
      simp only [HttpAgent.step, hpoint, if_pos hpos]
    obtain ⟨hinside,hbeyond⟩ := h.contentPass_eq len
    rw [imp_iff_right hpos]
    constructor
    · intro hle
      obtain ⟨mBuffer,hholds,hlong,hpass⟩ := hinside hle
      have hlen : mBuffer.getLength = (q.drop len).length := hholds.len_eq
      have hdrop : (q.drop len).length < q.length := by
        rw [List.length_drop]
        omega
      refine ⟨[],_,_,hstep.trans hpass,⟨hholds,h.handler_eq⟩,fun _ => .inr ?_,fun _ => ?_⟩
      · rw [h.holds.contents_eq, hholds.contents_eq]
        exact hdrop
      · simp only [left, weight, hpoint, hlen, h.getLength, BodyPoint.rank]
        omega
    · intro hnot
      exact not_getsOn_of_error (hstep.trans (hbeyond (Int.not_le.mp hnot)))
  · have hstep : s.step () = .ok ([],s.finish .kNoError) := by
      simp only [HttpAgent.step, hpoint, if_neg hpos]
    refine ⟨fun _ => ⟨[],_,q,hstep,⟨h.holds,h.handler_eq⟩,fun hsame => ?_,fun _ => ?_⟩,
      fun hnot => absurd (fun hpos' => absurd hpos' hpos) hnot⟩
    · rw [hpoint] at hsame
      cases hsame
    · simp only [left, weight, hpoint, finish, BodyPoint.rank]
      omega

/-- A fill that fails is returned from. -/
theorem Unattended.fillAndSkip_failed (h : s.Unattended N q) (hcount : s.fillCount < 0) :
    ∃ (reads : List SocketRead) (mBuffer : CircularBuffer), mBuffer.Holds N q ∧
      s.fillAndSkip = .ok (reads,{ s with
        mBuffer := mBuffer, ret := s.fillCount, point := .returned .kReadFailed }) := by
  obtain ⟨reads,mBuffer,hfill,hholds,-⟩ := fillFromFile_count h.holds
  have hzero : s.fillCount.toNat = 0 := by omega
  rw [hzero, Socket.consume_zero] at hfill
  rw [hzero, List.take_zero, List.append_nil] at hholds
  refine ⟨reads,mBuffer,hholds,?_⟩
  rw [fillAndSkip, hfill, ok_bind]
  exact if_pos hcount

theorem length_filled_le (h : s.mBuffer.Holds N q) :
    (s.filled q).length ≤ q.length+s.fillCount.toNat ∧
      s.fillCount.toNat ≤ s.mSock.stream.length := by
  have hle := (fillFromFile_count h).choose_spec.choose_spec.2.2
  have hlf := length_skipByte_le 10 (skipByte 13 (q ++ s.mSock.stream.take s.fillCount.toNat))
  have hcr := length_skipByte_le 13 (q ++ s.mSock.stream.take s.fillCount.toNat)
  rw [List.length_append, List.length_take_of_le hle] at hcr
  exact ⟨hlf.trans hcr,hle⟩

/-- A fill gets on where it leaves the loop, brings something or fails, or drops something. -/
theorem Unattended.goes_fill (h : s.Unattended N q) (hstep : s.step () = s.fillAndSkip)
    (hless : s.point = .chunkEnd ∨
      (s.point = .chunkLine ∧ (s.fillCount ≠ 0 ∨ (s.filled q).length < q.length))) :
    s.Goes N := by
  have hpoint : s.point = .chunkEnd ∨ s.point = .chunkLine := hless.imp id And.left
  obtain ⟨hfilled,hstream⟩ := length_filled_le h.holds
  -- a failed fill ends the loop, any other leaves less in the stream or in mBuffer
  by_cases hcount : s.fillCount < 0
  · obtain ⟨reads,mBuffer,hholds,hpass⟩ := h.fillAndSkip_failed hcount
    have hlen : mBuffer.getLength = q.length := hholds.len_eq
    refine ⟨reads,_,q,hstep.trans hpass,⟨hholds,h.handler_eq⟩,fun hsame => ?_,fun _ => ?_⟩
    · rcases hpoint with hpoint | hpoint <;> rw [hpoint] at hsame <;> cases hsame
    · rcases hpoint with hpoint | hpoint
      · simp only [left, weight, hpoint, hlen, h.getLength, BodyPoint.rank]
        omega
      · simp only [left, weight, hpoint, hlen, h.getLength, BodyPoint.rank]
        omega
  · have hcount := Int.not_lt.mp hcount
    obtain ⟨reads,mBuffer,hpass,hholds⟩ := fillAndSkip_count h.holds hcount
    have hlen : mBuffer.getLength = (s.filled q).length := hholds.len_eq
    refine ⟨reads,_,_,hstep.trans hpass,⟨hholds,h.handler_eq⟩,fun hsame => ?_,fun _ => ?_⟩
    · rcases hless with hend | ⟨-,hless⟩
      · rw [hend] at hsame
        cases hsame
      unfold Consumes
      rw [hholds.contents_eq, h.holds.contents_eq, Socket.stream_consume, List.length_drop]
      by_cases hzero : s.fillCount = 0
      · exact .inr (hless.resolve_left (not_not.mpr hzero))
      · left
        omega
    · simp only [left, weight, Socket.stream_consume, hlen, h.getLength, List.length_drop]
      rcases hless with hend | ⟨hline,hless⟩
      · simp only [hend, BodyPoint.rank]
        omega
      · simp only [hline, BodyPoint.rank]
        omega

/-- The wait for a chunk line. -/
theorem Unattended.line_iff (h : s.Unattended N q) (hpoint : s.point = .chunkLine) :
    (s.NeedsNoHandler () → s.Goes N) ∧ (¬s.NeedsNoHandler () → ¬s.GetsOn ()) := by
  have hneeds : s.NeedsNoHandler () ↔ ∃ readLen length, parseChunkLine s.mBuffer 0 =
      .ok (readLen,length) ∧ (0 < readLen ∨ s.fillCount ≠ 0 ∨
        s.mBuffer.byteAt 0 = 13 ∨ s.mBuffer.byteAt 0 = 10) := by
    simp only [NeedsNoHandler, hpoint]
  have hcr := h.holds.byteAt_eq_iff 0 13
  have hlf := h.holds.byteAt_eq_iff 0 10
  rw [List.drop_zero] at hcr hlf
  have hpass : s.step () = s.chunkLinePass := by simp only [HttpAgent.step, hpoint]
  rw [hneeds]
  cases hparse : parseChunkLine s.mBuffer 0 with
  | error f =>
    rw [chunkLinePass, hparse, error_bind] at hpass
    refine ⟨?_,fun _ => not_getsOn_of_error hpass⟩
    rintro ⟨readLen,length,hline,-⟩
    cases hline
  | ok line =>
    obtain ⟨readLen,length⟩ := line
    rw [chunkLinePass, hparse, ok_bind] at hpass
    by_cases hread : readLen ≤ 0
    · have hstep : s.step () = s.fillAndSkip := hpass.trans (if_pos hread)
      constructor
      · rintro ⟨readLen',length',hline,hgets⟩
        obtain ⟨rfl,-⟩ := Prod.mk.inj (Except.ok.inj hline)
        have hgets := hgets.resolve_left (Int.not_lt.mpr hread)
        apply h.goes_fill hstep
        refine .inr ⟨hpoint,?_⟩
        by_cases hzero : s.fillCount = 0
        · have hhead : q.head? = some 13 ∨ q.head? = some 10 :=
            (hgets.resolve_left (not_not.mpr hzero)).imp hcr.mp hlf.mp
          have hless := length_skips_lt hhead
          right
          rwa [filled, hzero, Int.toNat_zero, List.take_zero, List.append_nil]
        · exact .inl hzero
      · rintro hnot ⟨reads,s',hstep',hconsumes⟩
        -- nothing comes, and nothing is dropped
        have hzero : s.fillCount = 0 := by
          by_contra hne
          exact hnot ⟨_,_,rfl,.inr (.inl hne)⟩
        have hno13 : q.head? ≠ some 13 := fun hc => hnot ⟨_,_,rfl,.inr (.inr (.inl (hcr.mpr hc)))⟩
        have hno10 : q.head? ≠ some 10 := fun hc => hnot ⟨_,_,rfl,.inr (.inr (.inr (hlf.mpr hc)))⟩
        obtain ⟨reads',mBuffer,hfill,hholds⟩ := fillAndSkip_count h.holds (by omega)
        obtain ⟨-,rfl⟩ := Prod.mk.inj (Except.ok.inj ((hstep.trans hfill).symm.trans hstep'))
        rw [filled, hzero, Int.toNat_zero, List.take_zero, List.append_nil,
          skips_eq hno13 hno10] at hholds
        have hless := hconsumes (by rw [hpoint]; trivial)
        rcases hless with hless | hless
        · rw [hzero, Int.toNat_zero, Socket.consume_zero] at hless
          exact absurd hless (lt_irrefl _)
        · rw [h.holds.contents_eq] at hless
          exact absurd (hholds.contents_eq ▸ hless) (lt_irrefl _)
    · obtain ⟨mBuffer,hstep,hholds,hless⟩ := chunkLine_read h.holds hpoint hparse (not_le.mp hread)
      have hlen : mBuffer.getLength = (q.drop readLen.toNat).length := hholds.len_eq
      refine ⟨fun _ => ⟨[],_,_,hstep,⟨hholds,h.handler_eq⟩,fun hsame => ?_,fun _ => ?_⟩,
        fun hnot => absurd ⟨_,_,rfl,.inl (Int.not_le.mp hread)⟩ hnot⟩
      · rw [hpoint] at hsame
        cases hsame
      · simp only [left, weight, hpoint, hlen, h.getLength, BodyPoint.rank]
        omega

/-- Of each pass without a handler. -/
theorem Unattended.pass_iff (h : s.Unattended N q) :
    (s.NeedsNoHandler () → s.Goes N) ∧ (¬s.NeedsNoHandler () → ¬s.GetsOn ()) := by
  cases hpoint : s.point with
  | contentLength length => exact h.content_iff hpoint
  | chunkLine => exact h.line_iff hpoint
  | chunkData length =>
    have hneeds : s.NeedsNoHandler () ↔ length ≤ 0 := by simp only [NeedsNoHandler, hpoint]
    rw [hneeds]
    by_cases hpos : 0 < length
    · have hstep : s.step () = s.chunkPass length := by
        simp only [HttpAgent.step, hpoint, if_pos hpos]
      exact ⟨fun hle => absurd hle (Int.not_le.mpr hpos),
        fun _ => not_getsOn_of_error (hstep.trans (h.chunkPass_eq hpos))⟩
    · have hstep : s.step () = .ok ([],s.finish .kNoError) := by
        simp only [HttpAgent.step, hpoint, if_neg hpos]
      refine ⟨fun _ => ⟨[],_,q,hstep,⟨h.holds,h.handler_eq⟩,fun hsame => ?_,fun _ => ?_⟩,
        fun hnot => absurd (Int.not_lt.mp hpos) hnot⟩
      · rw [hpoint] at hsame
        cases hsame
      · simp only [left, weight, hpoint, finish, BodyPoint.rank]
        omega
  | chunkEnd =>
    have hneeds : s.NeedsNoHandler () := by simp only [NeedsNoHandler, hpoint]
    have hstep : s.step () = s.fillAndSkip := by simp only [HttpAgent.step, hpoint]
    exact ⟨fun _ => h.goes_fill hstep (.inl hpoint),fun hnot => absurd hneeds hnot⟩
  | returned err =>
    have hneeds : s.NeedsNoHandler () := by simp only [NeedsNoHandler, hpoint]
    have hstep := step_returned ⟨err,hpoint⟩
    refine ⟨fun _ => ⟨[],s,q,hstep,h,fun hsame => ?_,fun hnot => absurd ⟨err,hpoint⟩ hnot⟩,
      fun hnot => absurd hneeds hnot⟩
    rw [hpoint] at hsame
    cases hsame

/-- A call without a handler returns, where its passes need none. -/
theorem Unattended.ends (h : s.Unattended N q)
    (hg : ∀ n, Guarded HttpAgent.step NeedsNoHandler s (List.replicate n ())) :
    ∃ n os s', Transition.run HttpAgent.step s (List.replicate n ()) = .ok (os,s') ∧
      s'.Returned := by
  have hnext : ∀ s : HttpAgent, (∃ q, s.Unattended N q) → s.NeedsNoHandler () → ¬s.Returned →
      ∃ reads s', s.step () = .ok (reads,s') ∧ (∃ q, s'.Unattended N q) ∧ s'.left < s.left := by
    rintro s ⟨q,h⟩ hneeds hreturned
    obtain ⟨reads,s',q',hstep,h',-,hless⟩ := h.pass_iff.1 hneeds
    exact ⟨reads,s',hstep,⟨q',h'⟩,hless hreturned⟩
  obtain ⟨n,os,s',hrun,-,-,hend⟩ := run_ends (P := fun _ => True) _ () left
    (fun _ _ _ => trivial) hnext ⟨q,h⟩ hg
  exact ⟨n,os,s',hrun,hend⟩

/-- The guard of a run says of each of its passes whether it gets on. -/
theorem Unattended.guarded_iff (h : s.Unattended N q) (n : ℕ) :
    Guarded HttpAgent.step GetsOn s (List.replicate n ()) ↔
      Guarded HttpAgent.step NeedsNoHandler s (List.replicate n ()) := by
  induction n generalizing s q with
  | zero => exact Iff.rfl
  | succ n ih =>
    obtain ⟨hgoes,hstops⟩ := h.pass_iff
    by_cases hneeds : s.NeedsNoHandler ()
    · obtain ⟨reads,s',q',hstep,h',-⟩ := id (hgoes hneeds)
      constructor
      · intro hg
        exact .cons hstep hneeds ((ih h').mp (hg.2 _ _ hstep))
      · intro hg
        exact .cons hstep (hgoes hneeds).getsOn ((ih h').mpr (hg.2 _ _ hstep))
    · exact iff_of_false (fun hg => hstops hneeds hg.1) (fun hg => hneeds hg.1)

theorem ReceivedWithoutHandler.start (h : ReceivedWithoutHandler res s) :
    ∃ q, s.Unattended kMaxMessageSize q := by
  obtain ⟨buf,s₀,s₁,res₀,fuel,hbuf,hclear,hcut,hhandler,hheader,hstart⟩ := h
  obtain ⟨q,hholds,-,hhandler',-,-⟩ := startBody_holds hbuf hclear hcut hheader hstart
  exact ⟨q,hholds,hhandler'.trans hhandler⟩

/-- A call without a handler is safe exactly if none of its passes needs one. -/
theorem safeWithoutHandler_iff (h : ReceivedWithoutHandler res s) :
    s.SafeWithoutHandler ↔
      ∀ n, Guarded HttpAgent.step NeedsNoHandler s (List.replicate n ()) := by
  obtain ⟨q,hstart⟩ := h.start
  constructor
  · rintro ⟨-,hgets,-⟩ n
    exact (hstart.guarded_iff n).mp (hgets n)
  · intro hneeds
    have hgets : ∀ n, Guarded HttpAgent.step GetsOn s (List.replicate n ()) :=
      fun n => (hstart.guarded_iff n).mpr (hneeds n)
    refine ⟨fun n os s' hrun hnull => ?_,hgets,fun _ => hstart.ends hneeds⟩
    have hall := hgets (n+1)
    rw [List.replicate_succ'] at hall
    exact not_getsOn_of_error hnull (hall.last hrun)

end

/-- The agent in front of a response whose body comes behind its header, for a caller without a
handler. -/
def unattended : HttpAgent := { divided with handler := none }

def unattendedBody : Option (HttpResponse × HttpAgent) := do
  let (res,s) ← (receiveHeader 5 .init true unattended).toOption
  let res ← res
  let s ← (startBody res s).toOption
  some (res,s)

def derefsNull (s : HttpAgent) : Bool :=
  match s.step () with
  | .error .nullDeref => true
  | _ => false

theorem unattendedBody_derefs : unattendedBody.map (fun r => derefsNull r.2) = some true := by
  decide +kernel

theorem step_of_derefsNull {s : HttpAgent} (h : derefsNull s = true) :
    s.step () = .error .nullDeref := by
  unfold derefsNull at h
  split at h
  · assumption
  · cases h

theorem unattended_received : ∃ res s, ReceivedWithoutHandler res s ∧
    s.step () = .error .nullDeref := by
  obtain ⟨⟨res,s⟩,hbody,hderefs⟩ := Option.map_eq_some_iff.mp unattendedBody_derefs
  unfold unattendedBody at hbody
  obtain ⟨⟨out,s₁⟩,hheader,hout⟩ := Option.bind_eq_some_iff.mp hbody
  obtain ⟨res',rfl,hparsed⟩ := Option.bind_eq_some_iff.mp hout
  obtain ⟨s'',hstart,hpair⟩ := Option.bind_eq_some_iff.mp hparsed
  obtain ⟨rfl,rfl⟩ := Prod.mk.inj (Option.some_inj.mp hpair)
  refine ⟨res',s'',?_,step_of_derefsNull hderefs⟩
  refine ⟨CircularBuffer.init (fun _ => 0) kMaxMessageSize,unattended,s₁,.init,5,
    ⟨fun _ => 0,[],[],by simp,rfl⟩,rfl,?_,rfl,toOption_eq_some.mp hheader,
    toOption_eq_some.mp hstart⟩
  intro segment hsegment
  rcases List.mem_pair.mp hsegment with rfl | rfl
  · decide
  · decide

/-- For the body that comes behind its header the theorem says what is not safe. -/
theorem safeWithoutHandler_iff_unattended : ∃ s : HttpAgent, (s.SafeWithoutHandler ↔
    ∀ n, Guarded HttpAgent.step NeedsNoHandler s (List.replicate n ())) := by
  obtain ⟨res,s,hreceived,-⟩ := unattended_received
  exact ⟨s,safeWithoutHandler_iff hreceived⟩

/-- The handler is called for the bytes that are still in the socket. -/
theorem derefs_null : ¬∀ (res : HttpResponse) (s : HttpAgent), ReceivedWithoutHandler res s →
    s.SafeWithoutHandler := by
  intro h
  obtain ⟨res,s,hreceived,hnull⟩ := unattended_received
  exact (h res s hreceived).1 0 [] s rfl hnull

end HttpAgent

end JhCommon
