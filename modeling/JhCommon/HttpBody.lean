import JhCommon.ChunkedCoding
import JhCommon.Transition

/-! The body that `sendAndGet` delivers. Along a run of the agent what the handler has received is
followed by what is still to come, in mBuffer or in the socket. -/
namespace JhCommon
open CircularBuffer Transition

namespace Socket
variable {s : Socket} {n : ℕ}

/-- No read returns 0 before the last byte. -/
def Cut (s : Socket) : Prop := ∀ segment ∈ s.segments, segment ≠ []

theorem flatten_dropBytes (n : ℕ) (segments : List (List UInt8)) :
    (dropBytes n segments).flatten = segments.flatten.drop n := by
  induction segments generalizing n with
  | nil => cases n <;> rfl
  | cons segment segments ih =>
    cases n with
    | zero => rfl
    | succ n =>
      rw [dropBytes, List.flatten_cons]
      split
      · rw [List.flatten_cons, List.drop_append_of_le_length (by omega)]
      · rename_i hlong
        rw [ih, List.drop_append, List.drop_eq_nil_of_le (Nat.not_lt.mp hlong), List.nil_append]

theorem stream_consume (s : Socket) (n : ℕ) : (s.consume n).stream = s.stream.drop n :=
  flatten_dropBytes n s.segments

theorem Cut.consume (hcut : s.Cut) (n : ℕ) : (s.consume n).Cut := by
  obtain ⟨segments,closed⟩ := s
  simp only [Cut, Socket.consume] at hcut ⊢
  induction segments generalizing n with
  | nil =>
    cases n with
    | zero => exact hcut
    | succ n => exact hcut
  | cons segment segments ih =>
    have htail : ∀ t ∈ segments, t ≠ [] := fun t ht => hcut t (List.mem_cons_of_mem _ ht)
    cases n with
    | zero => exact hcut
    | succ n =>
      rw [dropBytes]
      split
      · intro t ht
        rcases List.mem_cons.mp ht with rfl | ht
        · intro hnil
          have hlen := congrArg List.length hnil
          rw [List.length_drop, List.length_nil] at hlen
          omega
        · exact htail t ht
      · exact ih _ htail

theorem consume_zero (s : Socket) : s.consume 0 = s := by
  obtain ⟨segments,closed⟩ := s
  cases segments <;> rfl

/-- As long as there is something to read, a read returns the next bytes. -/
theorem Cut.read (hcut : s.Cut) (hne : s.stream ≠ []) (hn : 0 < n) :
    ∃ k, 0 < k ∧ k ≤ s.stream.length ∧ s.read n = .stored (s.stream.take k) := by
  obtain ⟨segments,closed⟩ := s
  cases segments with
  | nil => exact absurd rfl hne
  | cons segment segments =>
    have hpos := List.length_pos_iff.mpr (hcut segment List.mem_cons_self)
    refine ⟨min n segment.length,by omega,?_,?_⟩
    · rw [stream, List.flatten_cons, List.length_append]
      omega
    · rw [stream, List.flatten_cons, List.take_append_of_le_length (by omega), ← List.take_eq_take_min]
      rfl

end Socket

namespace HttpAgent

section Calls
variable {N : ℕ} {s : HttpAgent} {q : List UInt8}

theorem fillFromFile_full (h : s.mBuffer.Holds N q) (hfull : q.length = N) :
    s.fillFromFile = .ok ([],{ s with ret := 0 }) := by
  have hnone : s.mBuffer.fillFromFile s.mSock.reader s.mBuffer.getFreeSpace =
      .ok ((0,none),s.mBuffer) := by
    rw [CircularBuffer.fillFromFile, h.free_eq, fillLocked]
    simp only [hfull, Nat.sub_self, Nat.min_self, if_true]
  rw [HttpAgent.fillFromFile, hnone, ok_bind]
  simp only [Int.toNat_zero, Socket.consume_zero]
  rfl

/-- With room in mBuffer the socket is read. -/
theorem fillFromFile_room (h : s.mBuffer.Holds N q) (hroom : q.length < N) :
    ∃ n ret mBuffer, 0 < n ∧ s.fillFromFile = .ok ([.fillFromFile n],
      { s with mBuffer := mBuffer, mSock := s.mSock.consume ret.toNat, ret := ret }) ∧
      (∀ err, s.mSock.read n = .failed err → ret = .negSucc err ∧ mBuffer = s.mBuffer) ∧
      (∀ bytes, s.mSock.read n = .stored bytes →
        ret = bytes.length ∧ mBuffer.Holds N (q ++ bytes)) := by
  have hpos : 0 < min s.mBuffer.getFreeSpace s.mBuffer.getFreeSpace := by
    rw [h.free_eq]
    omega
  have hspec := fillLocked_spec h (fillFits_getFreeSpace h.wf s.mSock.reader s.mBuffer.getFreeSpace)
    (Nat.pos_iff_ne_zero.mp hpos)
  have hn := fillRequest_pos h.wf hpos
  generalize s.mBuffer.fillRequest s.mBuffer.getFreeSpace s.mBuffer.getFreeSpace = n at hspec hn
  have hreader : s.mSock.reader.read n = s.mSock.read n := rfl
  rw [hreader] at hspec
  -- the socket fails, or it stores what there is
  cases hread : s.mSock.read n with
  | failed err =>
    simp only [hread] at hspec
    refine ⟨n,.negSucc err,s.mBuffer,hn,?_,?_,?_⟩
    · rw [HttpAgent.fillFromFile, CircularBuffer.fillFromFile, hspec, ok_bind]
      rfl
    · intro err' he
      rw [hread] at he
      exact ⟨congrArg Int.negSucc (ReadResult.failed.inj he),rfl⟩
    · intro bytes hb
      rw [hread] at hb
      cases hb
  | stored bytes =>
    simp only [hread] at hspec
    obtain ⟨mBuffer,hfill,hholds⟩ := hspec
    refine ⟨n,bytes.length,mBuffer,hn,?_,?_,?_⟩
    · rw [HttpAgent.fillFromFile, CircularBuffer.fillFromFile, hfill, ok_bind]
      rfl
    · intro err he
      rw [hread] at he
      cases he
    · intro bytes' hb
      rw [hread] at hb
      obtain rfl := ReadResult.stored.inj hb
      exact ⟨rfl,hholds⟩

/-- As long as the socket has bytes, some of them are queued where there is room. -/
theorem fillFromFile_more (h : s.mBuffer.Holds N q) (hcut : s.mSock.Cut)
    (hmore : q.length < N → s.mSock.stream ≠ []) :
    ∃ (k : ℕ) (asked : Option ℕ) (mBuffer : CircularBuffer),
      s.fillFromFile = .ok (asked.toList.map .fillFromFile,{ s with
        mBuffer := mBuffer, mSock := s.mSock.consume k, ret := (k : ℕ) }) ∧
      mBuffer.Holds N (q ++ s.mSock.stream.take k) ∧ (q.length < N → 0 < k) ∧
      (q.length = N → asked = none) := by
  by_cases hfull : q.length = N
  · refine ⟨0,none,s.mBuffer,?_,?_,fun hlt => absurd hfull hlt.ne,fun _ => rfl⟩
    · rw [fillFromFile_full h hfull, Socket.consume_zero]
      rfl
    · rwa [List.take_zero, List.append_nil]
  · have hroom : q.length < N := lt_of_le_of_ne h.length_le hfull
    obtain ⟨n,ret,mBuffer,hn,hfill,-,hstored⟩ := fillFromFile_room h hroom
    obtain ⟨k,hk,hle,hread⟩ := hcut.read (hmore hroom) hn
    obtain ⟨rfl,hholds⟩ := hstored _ hread
    have hlen : (s.mSock.stream.take k).length = k := List.length_take_of_le hle
    rw [hlen, Int.toNat_natCast] at hfill
    exact ⟨k,some n,mBuffer,hfill,hholds,fun _ => hk,fun heq => absurd heq hfull⟩

def skipByte (c : UInt8) (q : List UInt8) : List UInt8 := if q.head? = some c then q.tail else q

theorem skip_spec (h : s.mBuffer.Holds N q) (c : UInt8) :
    ∃ mBuffer, s.skip c.toNat = .ok { s with mBuffer := mBuffer } ∧
      mBuffer.Holds N (skipByte c q) := by
  have hbyte := h.byteAt_eq_iff 0 c
  rw [List.drop_zero] at hbyte
  unfold HttpAgent.skip skipByte
  by_cases hc : q.head? = some c
  · obtain ⟨mBuffer,hread,hholds⟩ := read_spec h false 1
    rw [List.drop_one] at hholds
    refine ⟨mBuffer,?_,?_⟩
    · rw [if_pos (hbyte.mpr hc), hread]
      rfl
    · rwa [if_pos hc]
  · refine ⟨s.mBuffer,?_,?_⟩
    · rw [if_neg (fun heq => hc (hbyte.mp heq))]
    · rwa [if_neg hc]

/-- Behind a fill, what ends a chunk is dropped. -/
theorem fillAndSkip_of_fill {reads : List SocketRead} {mBuffer : CircularBuffer} {mSock : Socket}
    {ret : ℤ} (hfill : s.fillFromFile = .ok (reads,{ s with
      mBuffer := mBuffer, mSock := mSock, ret := ret })) (hholds : mBuffer.Holds N q)
    (hret : 0 ≤ ret) : ∃ mBuffer' : CircularBuffer, s.fillAndSkip = .ok (reads,{ s with
      mBuffer := mBuffer', mSock := mSock, ret := ret, point := .chunkLine }) ∧
      mBuffer'.Holds N (skipByte 10 (skipByte 13 q)) := by
  let s₁ : HttpAgent := { s with mBuffer := mBuffer, mSock := mSock, ret := ret }
  obtain ⟨mBuffer₁,hskip₁,hholds₁⟩ := skip_spec (s := s₁) hholds 13
  obtain ⟨mBuffer₂,hskip₂,hholds₂⟩ := skip_spec (s := { s₁ with mBuffer := mBuffer₁ }) hholds₁ 10
  refine ⟨mBuffer₂,?_,hholds₂⟩
  have hread : ¬s₁.ret < 0 := Int.not_lt.mpr hret
  rw [fillAndSkip, hfill, ok_bind]
  change (if s₁.ret < 0 then _ else do
    let s ← s₁.skip ((13 : UInt8).toNat : ℕ)
    let s ← s.skip ((10 : UInt8).toNat : ℕ)
    .ok (reads,{ s with point := .chunkLine })) = _
  rw [if_neg hread, hskip₁, ok_bind, hskip₂, ok_bind]

/-- What a fill leaves in mBuffer, less what ends a chunk. -/
theorem fillAndSkip_spec (h : s.mBuffer.Holds N q) (hcut : s.mSock.Cut)
    (hmore : q.length < N → s.mSock.stream ≠ []) :
    ∃ (k : ℕ) (asked : Option ℕ) (mBuffer : CircularBuffer),
      s.fillAndSkip = .ok (asked.toList.map .fillFromFile,{ s with
        mBuffer := mBuffer, mSock := s.mSock.consume k, ret := (k : ℕ), point := .chunkLine }) ∧
      mBuffer.Holds N (skipByte 10 (skipByte 13 (q ++ s.mSock.stream.take k))) ∧
      (q.length < N → 0 < k) ∧ (q.length = N → asked = none) := by
  obtain ⟨k,asked,mBuffer,hfill,hholds,hk,hfull⟩ := fillFromFile_more h hcut hmore
  obtain ⟨mBuffer',hskip,hholds'⟩ := fillAndSkip_of_fill hfill hholds (Int.natCast_nonneg k)
  exact ⟨k,asked,mBuffer',hskip,hholds',hk,hfull⟩

/-- The bytes of mBuffer that one call of the handler can be given. -/
def firstSegment (s : HttpAgent) : ℤ := (s.mBuffer.getBytes 0).2

theorem firstSegment_spec (h : s.mBuffer.Holds N q) : ∃ (buffer : Option ℕ) (n : ℕ),
    s.mBuffer.getBytes 0 = (buffer,(n : ℤ)) ∧ s.firstSegment = n ∧ n ≤ q.length ∧
      ∀ k ≤ n, s.mBuffer.memcpyFrom buffer k = .ok (q.take k) := by
  have hlen := h.len_eq
  rw [firstSegment, CircularBuffer.getBytes]
  by_cases hpos : 0 < s.mBuffer.mLen
  · obtain ⟨res,n,hget,hres,-,hle,hin,-⟩ := getBytesInternal_spec h.wf hpos
    refine ⟨some res,n,hget,congrArg Prod.snd hget,by omega,?_⟩
    intro k hk
    rw [memcpyFrom_spec (by omega), ← h.contents_eq]
    rw [hres] at hin ⊢
    exact congrArg Except.ok (load_slot_eq (i := 0) (by omega) (by omega))
  · rw [getBytesInternal_none hpos]
    refine ⟨none,0,rfl,rfl,Nat.zero_le _,?_⟩
    intro k hk
    obtain rfl := Nat.le_zero.mp hk
    rfl

variable {handler : BodyHandler}

theorem handleData_some (hhandler : s.handler = some handler) {buffer : Option ℕ} {n : ℕ}
    {bytes : List UInt8} (hbytes : s.mBuffer.memcpyFrom buffer n = .ok bytes) :
    s.handleData buffer n = .ok { s with
      handler := some { handler with received := handler.received ++ bytes } } := by
  unfold HttpAgent.handleData
  simp only [hhandler, hbytes, ok_bind]

theorem min_toNat (n len : ℕ) : (if (n : ℤ) > len then (len : ℤ) else n).toNat = min n len := by
  split <;> omega

/-- The handler has been given the bytes that it is to get from mBuffer, and reads the socket for
the rest. -/
def socketPart (s : HttpAgent) (handler : BodyHandler) (mBuffer : CircularBuffer)
    (bytes : List UInt8) (len : ℕ) (point : ℤ → BodyPoint) : HttpAgent :=
  let ret :=
    if len ≤ s.mSock.stream.length then handler.reports (handler.received ++ bytes) len else -1
  { mBuffer := mBuffer
    mSock := s.mSock.consume len
    handler := some { handler with received := handler.received ++ bytes ++ s.mSock.stream.take len }
    ret := ret
    point := point ret }

def contentPoint (ret : ℤ) : BodyPoint :=
  if ret < 0 then .returned .kReadFailed else .contentLength 0

def chunkPoint (ret : ℤ) : BodyPoint :=
  if ret = 0 then .returned .kNoError else if ret < 0 then .returned .kReadFailed else .chunkEnd

/-- A pass over the next len bytes of the body, where the first segment holds them and where it does
not. -/
def Passes (s : HttpAgent) (N : ℕ) (q : List UInt8) (handler : BodyHandler) (len : ℕ)
    (point : ℤ → BodyPoint) (done : BodyPoint) (pass : Exec (List SocketRead × HttpAgent)) : Prop :=
  ∃ (n : ℕ) (mBuffer : CircularBuffer), s.firstSegment = n ∧ n ≤ q.length ∧
    mBuffer.Holds N (q.drop (min n len)) ∧
    (len ≤ n → pass = .ok ([],{ s with
      mBuffer := mBuffer, point := done,
      handler := some { handler with received := handler.received ++ q.take len } })) ∧
    (n < len → pass = .ok ([.handleSocket (len-n)],
      s.socketPart handler mBuffer (q.take n) (len-n) point))

theorem contentPass_spec (h : s.mBuffer.Holds N q) (hhandler : s.handler = some handler) (len : ℕ) :
    s.Passes N q handler len contentPoint (.contentLength 0) (s.contentPass len) := by
  obtain ⟨buffer,n,hget,hseg,hn,hbytes⟩ := firstSegment_spec h
  obtain ⟨mBuffer,hread,hholds⟩ := read_spec h false (min n len)
  have hdata := handleData_some hhandler (hbytes (min n len) (Nat.min_le_left n len))
  refine ⟨n,mBuffer,hseg,hn,hholds,?_,?_⟩
  · intro hle
    rw [Nat.min_eq_right hle] at hdata hread
    rw [contentPass, hget]
    simp only [min_toNat, Nat.min_eq_right hle, hdata, ok_bind, hread]
    rw [if_neg (by omega), Int.sub_self]
  · intro hlt
    have hne : (len : ℤ)-(n : ℕ) ≠ 0 := by omega
    have hleft : ((len : ℤ)-(n : ℕ)).toNat = len-n := by omega
    rw [Nat.min_eq_left hlt.le] at hdata hread
    rw [contentPass, hget]
    simp only [min_toNat, Nat.min_eq_left hlt.le, hdata, ok_bind, hread, if_pos hne, hleft]
    rfl

theorem chunkSegment_spec (h : s.mBuffer.Holds N q) (hhandler : s.handler = some handler)
    (len : ℕ) : ∃ (n : ℕ) (mBuffer : CircularBuffer), s.firstSegment = n ∧ n ≤ q.length ∧
      mBuffer.Holds N (q.drop (min n len)) ∧
      s.chunkSegment len = .ok (((len-min n len : ℕ) : ℤ),{ s with
        mBuffer := mBuffer,
        handler := some { handler with received := handler.received ++ q.take (min n len) } }) := by
  obtain ⟨buffer,n,hget,hseg,hn,hbytes⟩ := firstSegment_spec h
  obtain ⟨mBuffer,hread,hholds⟩ := read_spec h false (min n len)
  have hdata := handleData_some hhandler (hbytes (min n len) (Nat.min_le_left n len))
  rw [chunkSegment, hget]
  simp only [min_toNat, hhandler, Option.isSome_some, true_and]
  by_cases hz : min n len = 0
  · refine ⟨n,s.mBuffer,hseg,hn,?_,?_⟩
    · rwa [hz, List.drop_zero]
    · rw [if_neg (not_not.mpr hz), hz, List.take_zero, List.append_nil, Nat.sub_zero, ← hhandler]
  · refine ⟨n,mBuffer,hseg,hn,hholds,?_⟩
    rw [if_pos hz, hdata, ok_bind]
    simp only [hread, ok_bind]
    rw [Int.ofNat_sub (Nat.min_le_right n len)]

theorem chunkPass_spec (h : s.mBuffer.Holds N q) (hhandler : s.handler = some handler) (len : ℕ) :
    s.Passes N q handler len chunkPoint .chunkEnd (s.chunkPass len) := by
  obtain ⟨n,mBuffer,hseg,hn,hholds,hchunk⟩ := chunkSegment_spec h hhandler len
  refine ⟨n,mBuffer,hseg,hn,hholds,?_,?_⟩
  · intro hle
    rw [Nat.min_eq_right hle, Nat.sub_self] at hchunk
    rw [chunkPass, hchunk, ok_bind]
    rfl
  · intro hlt
    have hne : ((len-n : ℕ) : ℤ) ≠ 0 := by omega
    rw [Nat.min_eq_left hlt.le] at hchunk
    rw [chunkPass, hchunk, ok_bind]
    simp only [if_pos hne, Int.toNat_natCast]
    rfl

/-- Where mBuffer holds nothing behind its first segment, a pass that goes beyond that segment
delivers the next len bytes. -/
theorem Passes.delivers {len : ℕ} {point : ℤ → BodyPoint} {done : BodyPoint}
    {pass : Exec (List SocketRead × HttpAgent)} (hpass : s.Passes N q handler len point done pass)
    (hpoint : ∀ ret, 0 < ret → point ret = done)
    (hreports : ∀ received n, 0 < n → 0 < handler.reports received n)
    (hlen : len ≤ q.length+s.mSock.stream.length)
    (hok : (len : ℤ) ≤ s.firstSegment ∨ (q.length : ℤ) ≤ s.firstSegment) :
    ∃ reads ret mBuffer, pass = .ok (reads,{ s with
        mBuffer := mBuffer, mSock := s.mSock.consume (len-q.length), ret := ret, point := done,
        handler := some { handler with
          received := handler.received ++ (q ++ s.mSock.stream).take len } }) ∧
      mBuffer.Holds N (q.drop len) ∧ (∀ n, .handleSocket n ∈ reads → q.drop len = []) ∧
      ∀ n, .fillFromFile n ∉ reads := by
  obtain ⟨n,mBuffer,hseg,hn,hholds,hinside,hbeyond⟩ := hpass
  rw [hseg] at hok
  by_cases hle : len ≤ n
  · rw [Nat.min_eq_right hle] at hholds
    refine ⟨[],s.ret,mBuffer,?_,hholds,fun _ hmem => absurd hmem List.not_mem_nil,
      fun _ => List.not_mem_nil⟩
    rw [hinside hle, Nat.sub_eq_zero_of_le (hle.trans hn), Socket.consume_zero,
      List.take_append_of_le_length (hle.trans hn)]
  · -- the segment is all there is in mBuffer
    obtain rfl : n = q.length := by omega
    have hlt : q.length < len := Nat.not_le.mp hle
    rw [Nat.min_eq_left hlt.le, List.drop_length] at hholds
    have hpos := hreports (handler.received ++ q) (len-q.length) (by omega)
    have hdrop : q.drop len = [] := List.drop_eq_nil_of_le hlt.le
    refine ⟨[.handleSocket (len-q.length)],handler.reports (handler.received ++ q) (len-q.length),
      mBuffer,?_,
      hdrop ▸ hholds,fun _ _ => hdrop,by simp⟩
    rw [hbeyond hlt, socketPart]
    simp only [if_pos (show len-q.length ≤ s.mSock.stream.length by omega), hpoint _ hpos,
      List.take_length, List.take_append, List.take_of_length_le hlt.le, List.append_assoc]

/-- A pass that goes beyond the first segment with more in mBuffer reads the socket before it. -/
theorem Passes.skips {len : ℕ} {point : ℤ → BodyPoint} {done : BodyPoint}
    {pass : Exec (List SocketRead × HttpAgent)} (hpass : s.Passes N q handler len point done pass)
    (hok : ¬((len : ℤ) ≤ s.firstSegment ∨ (q.length : ℤ) ≤ s.firstSegment)) :
    ∃ n reads s', pass = .ok (reads,s') ∧ .handleSocket n ∈ reads ∧ s'.mBuffer.contents ≠ [] := by
  obtain ⟨n,mBuffer,hseg,hn,hholds,-,hbeyond⟩ := hpass
  rw [hseg, not_or] at hok
  refine ⟨_,_,_,hbeyond (by omega),List.mem_singleton_self _,?_⟩
  rw [socketPart, hholds.contents_eq, Nat.min_eq_left (by omega), ne_eq, List.drop_eq_nil_iff]
  omega

end Calls

end HttpAgent

end JhCommon
