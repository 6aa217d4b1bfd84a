import JhCommon.HttpBody
import JhCommon.ListCuts

/-! Runs of `sendAndGet` over a body: when the handler receives the body, and no socket read is made
for what is in mBuffer already. -/
namespace JhCommon
open CircularBuffer Transition

section Lines
variable {q t rest body : List UInt8} {line : ChunkLine} {ok : ChunkLine → Prop}

theorem Coding.starts {code : List UInt8} (h : Coding ok code body) :
    ∃ line rest, code = line.text ++ rest ∧ ok line := by
  cases h with
  | last line tail hok => exact ⟨line,tail,rfl,hok⟩
  | chunk line data rest body hok => exact ⟨line,_,rfl,hok⟩

theorem ChunkLine.text_eq (line : ChunkLine) : ∃ b bs, line.text = b :: bs ∧ b ≠ 13 ∧ b ≠ 10 := by
  obtain ⟨b,bs,hdigits⟩ := List.exists_cons_of_ne_nil line.digits_ne
  obtain ⟨-,-,-,-,-,-,h10,h13,-⟩ := hex_plain (line.digits_hex b (hdigits ▸ List.mem_cons_self))
  refine ⟨b,bs ++ line.ext ++ crlf,?_,h13,h10⟩
  rw [text, hdigits]
  rfl

theorem ChunkLine.length_pos (line : ChunkLine) : 0 < line.text.length := by
  obtain ⟨b,bs,htext,-⟩ := line.text_eq
  rw [htext]
  exact Nat.succ_pos _

/-- Bytes start with one line only. -/
theorem ChunkLine.text_unique {line' : ChunkLine} {rest' : List UInt8}
    (h : line.text ++ rest = line'.text ++ rest') : line.text = line'.text := by
  have hplain (line : ChunkLine) : 13 ∉ line.digits ++ line.ext := by
    rw [List.mem_append, not_or]
    exact ⟨fun hmem => (hex_plain (line.digits_hex 13 hmem)).2.2.2.2.2.2.2.1 rfl,line.ext_cr⟩
  have hcut (line : ChunkLine) (rest : List UInt8) :
      (line.text ++ rest).takeWhile (· ≠ 13) = line.digits ++ line.ext := by
    rw [text, List.append_assoc]
    exact ListCuts.takeWhile_ne_append (hplain line)
  have hsame := hcut line rest
  rw [h, hcut line' rest'] at hsame
  rw [text, text, hsame]

namespace HttpAgent

/-- The end of a chunk has been seen, or its first byte only. -/
theorem skip_crlf (hne : q ≠ []) (h : q ++ t = crlf ++ rest) :
    skipByte 10 (skipByte 13 q) ++ t = rest ∨ skipByte 10 (skipByte 13 q) = [] ∧ t = 10 :: rest := by
  obtain ⟨b,q,rfl⟩ := List.exists_cons_of_ne_nil hne
  obtain ⟨rfl,hq⟩ := List.cons.inj h
  have hcr : skipByte 13 (13 :: q) = q := rfl
  rw [hcr]
  cases q with
  | nil => exact .inr ⟨rfl,hq⟩
  | cons b q =>
    obtain ⟨rfl,ht⟩ := List.cons.inj hq
    exact .inl ht

theorem skip_lf (hne : q ≠ []) (h : q ++ t = 10 :: rest) :
    skipByte 10 (skipByte 13 q) ++ t = rest := by
  obtain ⟨b,q,rfl⟩ := List.exists_cons_of_ne_nil hne
  obtain ⟨rfl,hq⟩ := List.cons.inj h
  exact hq

theorem skip_line (hne : q ≠ []) (h : q ++ t = line.text ++ rest) :
    skipByte 10 (skipByte 13 q) = q := by
  obtain ⟨c,q,rfl⟩ := List.exists_cons_of_ne_nil hne
  obtain ⟨b,bs,htext,h13,h10⟩ := line.text_eq
  rw [htext] at h
  obtain ⟨rfl,-⟩ := List.cons.inj h
  simp [skipByte, h13, h10]

end HttpAgent

end Lines

/-- What is still to come of the body where the agent stands, with q in mBuffer and t in the
socket. -/
inductive Comes (N : ℕ) (point : BodyPoint) (q t : List UInt8) : List UInt8 → Prop
  | content {data tail : List UInt8} (hpoint : point = .contentLength data.length)
      (hcome : q ++ t = data ++ tail) : Comes N point q t data
  | line {body : List UInt8} (hpoint : point = .chunkLine)
      (hcome : Coding (ChunkLine.Readable N) (q ++ t) body) : Comes N point q t body
  | lineFeed {rest body : List UInt8} (hpoint : point = .chunkLine) (hq : q = [])
      (hcome : t = 10 :: rest) (hrest : Coding (ChunkLine.Readable N) rest body) :
      Comes N point q t body
  | data {data rest body : List UInt8} (hpoint : point = .chunkData data.length)
      (hdata : data ≠ []) (hcome : q ++ t = data ++ (crlf ++ rest))
      (hrest : Coding (ChunkLine.Readable N) rest body) : Comes N point q t (data ++ body)
  | last (hpoint : point = .chunkData 0) : Comes N point q t []
  | chunkEnd {rest body : List UInt8} (hpoint : point = .chunkEnd)
      (hcome : q ++ t = crlf ++ rest) (hrest : Coding (ChunkLine.Readable N) rest body) :
      Comes N point q t body
  | returned {err : ErrCode} (hpoint : point = .returned err) : Comes N point q t []

def BodyPoint.rank : BodyPoint → ℕ
  | .contentLength _ => 1
  | .chunkLine => 0
  | .chunkData _ => 2
  | .chunkEnd => 1
  | .returned _ => 0

namespace HttpAgent

/-- What the handler has received is followed by what is still to come of the body. -/
structure Delivering (N : ℕ) (body : List UInt8) (s : HttpAgent) (q left : List UInt8)
    (handler : BodyHandler) : Prop where
  holds : s.mBuffer.Holds N q
  cut : s.mSock.Cut
  handler_eq : s.handler = some handler
  reports : ∀ received n, 0 < n → 0 < handler.reports received n
  received : handler.received ++ left = body
  comes : Comes N s.point q s.mSock.stream left

def Delivers (N : ℕ) (body : List UInt8) (s : HttpAgent) : Prop :=
  ∃ q left handler, s.Delivering N body q left handler

/-- The steps of a run lower it: they take bytes, or go on to where bytes are taken. -/
def weight (s : HttpAgent) : ℕ :=
  3*(s.mBuffer.getLength+s.mSock.stream.length)+s.mSock.stream.length+s.point.rank

/-- A chunk line can be read from mBuffer, behind what ends a chunk. -/
def HoldsChunkLine (s : HttpAgent) : Prop := ∃ (line : ChunkLine) (rest : List UInt8),
  s.mBuffer.contents = line.text ++ rest ∨ s.mBuffer.contents = crlf ++ (line.text ++ rest)

/-- A step from s to s' that read the socket for nothing that was in mBuffer. -/
def Needed (s : HttpAgent) (reads : List SocketRead) (s' : HttpAgent) : Prop :=
  (∀ n, .handleSocket n ∈ reads → s'.mBuffer.contents = []) ∧
    ∀ n, .fillFromFile n ∈ reads → ¬s.HoldsChunkLine

/-- mBuffer holds nothing behind the first segment where a pass goes beyond it, and no chunk line
where a chunk ends and there is room to read. -/
def Undisturbed (s : HttpAgent) (_ : Unit) : Prop :=
  match s.point with
  | .contentLength length => length ≤ s.firstSegment ∨ (s.mBuffer.contents.length : ℤ) ≤ s.firstSegment
  | .chunkData length => length ≤ s.firstSegment ∨ (s.mBuffer.contents.length : ℤ) ≤ s.firstSegment
  | .chunkEnd => s.mBuffer.getFreeSpace = 0 ∨ ¬s.HoldsChunkLine
  | _ => True

def Returned (s : HttpAgent) : Prop := ∃ err, s.point = .returned err

/-- The next step goes on with the delivery. -/
def Advances (N : ℕ) (body : List UInt8) (s : HttpAgent) : Prop := ∃ reads s',
  s.step () = .ok (reads,s') ∧ s'.Delivers N body ∧ s'.weight < s.weight ∧ s.Needed reads s'

section Steps
variable {N : ℕ} {body : List UInt8} {s : HttpAgent} {q left : List UInt8} {handler : BodyHandler}

theorem Delivering.getLength (h : s.Delivering N body q left handler) :
    s.mBuffer.getLength = q.length := h.holds.len_eq

theorem needed_nil (s s' : HttpAgent) : s.Needed [] s' :=
  ⟨fun _ hmem => absurd hmem List.not_mem_nil,fun _ hmem => absurd hmem List.not_mem_nil⟩

/-- The last pass has been made. -/
theorem Delivering.advances_finish (h : s.Delivering N body q [] handler)
    (hpoint : s.point = .contentLength 0 ∨ s.point = .chunkData 0) : s.Advances N body := by
  have hstep : s.step () = .ok ([],s.finish .kNoError) := by
    rcases hpoint with hpoint | hpoint <;> simp [step, hpoint]
  refine ⟨[],s.finish .kNoError,hstep,?_,?_,needed_nil s _⟩
  · exact ⟨q,[],handler,h.holds,h.cut,h.handler_eq,h.reports,h.received,.returned rfl⟩
  · rcases hpoint with hpoint | hpoint <;> simp [weight, finish, hpoint, BodyPoint.rank]

/-- A pass delivers data and leaves what follows it. -/
theorem Delivering.advances_pass {data rest left' : List UInt8} {point : ℤ → BodyPoint}
    {done : BodyPoint} {pass : Exec (List SocketRead × HttpAgent)}
    (h : s.Delivering N body q (data ++ left') handler) (hdata : data ≠ [])
    (hstep : s.step () = pass) (hpass : s.Passes N q handler data.length point done pass)
    (hpoint : ∀ ret, 0 < ret → point ret = done) (hdone : done = .contentLength 0 ∨ done = .chunkEnd)
    (hcome : q ++ s.mSock.stream = data ++ rest)
    (hcomes : ∀ q' t', q' ++ t' = rest → Comes N done q' t' left')
    (hok : (data.length : ℤ) ≤ s.firstSegment ∨ (q.length : ℤ) ≤ s.firstSegment) :
    s.Advances N body := by
  have hlen := congrArg List.length hcome
  rw [List.length_append, List.length_append] at hlen
  have hpos := List.length_pos_iff.mpr hdata
  have htake : (q ++ s.mSock.stream).take data.length = data := by rw [hcome, List.take_left]
  -- what mBuffer and the socket still hold comes behind the data
  have hrest : q.drop data.length ++ s.mSock.stream.drop (data.length-q.length) = rest := by
    rw [← List.drop_append, hcome, List.drop_left]
  obtain ⟨reads,ret,mBuffer,hresult,hholds,hsocket,hfill⟩ :=
    hpass.delivers hpoint h.reports (by omega) hok
  rw [htake] at hresult
  refine ⟨reads,_,hstep.trans hresult,⟨_,left',_,hholds,h.cut.consume _,rfl,h.reports,?_,?_⟩,?_,?_,?_⟩
  · rw [List.append_assoc]
    exact h.received
  · rw [Socket.stream_consume]
    exact hcomes _ _ hrest
  · have hlen' : mBuffer.getLength = (q.drop data.length).length := hholds.len_eq
    have hrank : done.rank = 1 := by
      rcases hdone with rfl | rfl <;> rfl
    simp only [weight, Socket.stream_consume, hlen', h.getLength, List.length_drop, hrank]
    omega
  · intro n hn
    rw [hholds.contents_eq]
    exact hsocket n hn
  · intro n hn
    exact absurd hn (hfill n)

theorem length_skipByte_le (c : UInt8) (q : List UInt8) : (skipByte c q).length ≤ q.length := by
  unfold skipByte
  split
  · rw [List.length_tail]
    omega
  · exact le_refl _

/-- A fill goes on to the next chunk line, or brings more of it. -/
theorem Delivering.advances_fill (h : s.Delivering N body q left handler)
    (hstep : s.step () = s.fillAndSkip) (hmore : q.length < N → s.mSock.stream ≠ [])
    (hrank : q.length < N ∨ 0 < s.point.rank) (hneeded : q.length < N → ¬s.HoldsChunkLine)
    (hcomes : ∀ k, (q.length < N → 0 < k) → Comes N .chunkLine
      (skipByte 10 (skipByte 13 (q ++ s.mSock.stream.take k))) (s.mSock.stream.drop k) left) :
    s.Advances N body := by
  obtain ⟨k,asked,mBuffer,hresult,hholds,hk,hfull⟩ := fillAndSkip_spec h.holds h.cut hmore
  refine ⟨_,_,hstep.trans hresult,⟨_,left,handler,hholds,h.cut.consume _,h.handler_eq,h.reports,
    h.received,?_⟩,?_,?_,?_⟩
  · rw [Socket.stream_consume]
    exact hcomes k hk
  · have hlen' : mBuffer.getLength =
        (skipByte 10 (skipByte 13 (q ++ s.mSock.stream.take k))).length := hholds.len_eq
    have hlf := length_skipByte_le 10 (skipByte 13 (q ++ s.mSock.stream.take k))
    have hcr := length_skipByte_le 13 (q ++ s.mSock.stream.take k)
    rw [List.length_append, List.length_take] at hcr
    have hline : BodyPoint.chunkLine.rank = 0 := rfl
    simp only [weight, Socket.stream_consume, hlen', h.getLength, List.length_drop, hline]
    -- with room in mBuffer the socket gets shorter, without it the point has moved
    rcases hrank with hroom | hrank
    · have hpos := List.length_pos_iff.mpr (hmore hroom)
      have hkpos := hk hroom
      omega
    · omega
  · intro n hn
    obtain ⟨m,-,hm⟩ := List.mem_map.mp hn
    cases hm
  · intro n hn
    apply hneeded
    -- a full buffer reads nothing
    apply lt_of_le_of_ne h.holds.length_le
    intro hlen
    rw [hfull hlen] at hn
    exact List.not_mem_nil hn

/-- The next chunk line is in mBuffer, or a part of it is. -/
theorem Delivering.advances_line (h : s.Delivering N body q left handler)
    (hpoint : s.point = .chunkLine) {line : ChunkLine} {rest : List UInt8}
    (hread : line.Readable N) (hcome : q ++ s.mSock.stream = line.text ++ rest)
    (hcode : Coding (ChunkLine.Readable N) (q ++ s.mSock.stream) left)
    (hcomes : ∀ q' t', q' ++ t' = rest → Comes N (.chunkData line.value) q' t' left) :
    s.Advances N body := by
  have hlen := congrArg List.length hcome
  rw [List.length_append, List.length_append] at hlen
  have hpass : s.step () = s.chunkLinePass := by simp only [step, hpoint]
  -- a part of the line: the fill brings more of it, as a line that is in mBuffer would be parsed
  by_cases hpart : q.length < line.text.length
  · have hmore : s.mSock.stream ≠ [] := by
      intro hnil
      rw [hnil, List.length_nil] at hlen
      omega
    have hroom : q.length < N := lt_of_lt_of_le hpart hread.1
    have hparse := parseChunkLine_part h.holds hread hcome hpart 0
    apply h.advances_fill
    · rw [hpass, chunkLinePass, hparse, ok_bind]
      rfl
    · exact fun _ => hmore
    · exact .inl hroom
    · rintro - ⟨line',rest',hline | hline⟩
      · rw [h.holds.contents_eq] at hline
        rw [hline, List.append_assoc] at hcome
        rw [← ChunkLine.text_unique hcome, hline, List.length_append] at hpart
        omega
      · obtain ⟨b,bs,htext,h13,-⟩ := line.text_eq
        rw [h.holds.contents_eq] at hline
        rw [hline, htext] at hcome
        exact h13 (List.cons.inj hcome).1.symm
    · intro k hk
      have hne : q ++ s.mSock.stream.take k ≠ [] := by
        intro hnil
        have htake := (List.append_eq_nil_iff.mp hnil).2
        rw [List.take_eq_nil_iff] at htake
        rcases htake with hz | hz
        · exact absurd (hk hroom) (by omega)
        · exact hmore hz
      have hsplit : q ++ s.mSock.stream.take k ++ s.mSock.stream.drop k = q ++ s.mSock.stream := by
        rw [List.append_assoc, List.take_append_drop]
      rw [skip_line hne (hsplit.trans hcome)]
      exact .line rfl (hsplit.symm ▸ hcode)
  · -- the line is read off
    obtain ⟨q',rfl⟩ : ∃ q', q = line.text ++ q' := by
      refine ⟨q.drop line.text.length,?_⟩
      have htake := congrArg (List.take line.text.length) hcome
      rw [List.take_left, List.take_append_of_le_length (by omega)] at htake
      rw [← htake, List.length_take, Nat.min_eq_left (by omega), List.take_append_drop]
    obtain ⟨mBuffer,hoff,hholds⟩ := read_spec h.holds false line.text.length
    rw [List.drop_left] at hholds
    have hparse := parseChunkLine_line h.holds hread rfl 0
    have hpos := line.length_pos
    refine ⟨[],{ s with mBuffer := mBuffer, point := .chunkData line.value },?_,
      ⟨q',left,handler,hholds,h.cut,h.handler_eq,h.reports,h.received,?_⟩,?_,needed_nil s _⟩
    · rw [hpass, chunkLinePass, hparse, ok_bind]
      simp only
      rw [if_neg (by omega), Int.toNat_natCast, hoff]
      rfl
    · rw [List.append_assoc] at hcome
      exact hcomes _ _ (List.append_cancel_left hcome)
    · have hlen' : mBuffer.getLength = q'.length := hholds.len_eq
      have hdata : (BodyPoint.chunkData line.value).rank = 2 := rfl
      simp only [weight, hlen', h.getLength, List.length_append, hdata]
      omega

theorem contentPoint_pos (ret : ℤ) (h : 0 < ret) : contentPoint ret = .contentLength 0 := by
  rw [contentPoint, if_neg (by omega)]

theorem chunkPoint_pos (ret : ℤ) (h : 0 < ret) : chunkPoint ret = .chunkEnd := by
  rw [chunkPoint, if_neg (by omega), if_neg (by omega)]

theorem Delivering.advances_code (h : s.Delivering N body q left handler)
    (hpoint : s.point = .chunkLine) {code : List UInt8} (hcome : q ++ s.mSock.stream = code)
    (hcode : Coding (ChunkLine.Readable N) code left) : s.Advances N body := by
  have hcode' := hcome.symm ▸ hcode
  cases hcode with
  | last line tail hread hsize =>
    apply h.advances_line hpoint hread hcome hcode'
    intro q' t' _
    rw [hsize]
    exact .last rfl
  | chunk line data rest left' hread hsize hdata hrest =>
    apply h.advances_line hpoint hread hcome hcode'
    intro q' t' hcome'
    rw [hsize]
    exact .data rfl hdata (hcome'.trans (List.append_assoc _ _ _)) hrest

/-- The line feed behind a chunk is still to come. -/
theorem Delivering.advances_lineFeed (hN : 0 < N) (h : s.Delivering N body [] left handler)
    (hpoint : s.point = .chunkLine) {rest : List UInt8} (hcome : s.mSock.stream = 10 :: rest)
    (hrest : Coding (ChunkLine.Readable N) rest left) : s.Advances N body := by
  have hmore : s.mSock.stream ≠ [] := by
    rw [hcome]
    exact List.cons_ne_nil 10 rest
  -- with mBuffer empty there is no line to parse
  have hempty : parseChunkLine s.mBuffer 0 = .ok (-1,0) :=
    parseChunkLine_inside h.holds (fun _ hmem => absurd hmem List.not_mem_nil) (by decide) 0
  apply h.advances_fill
  · simp only [step, hpoint]
    rw [chunkLinePass, hempty, ok_bind]
    rfl
  · exact fun _ => hmore
  · exact .inl hN
  · rintro - ⟨line,rest',hline | hline⟩
    · have hpos := line.length_pos
      rw [h.holds.contents_eq, eq_comm, List.append_eq_nil_iff] at hline
      rw [hline.1] at hpos
      exact absurd hpos (lt_irrefl 0)
    · rw [h.holds.contents_eq] at hline
      cases hline
  · intro k hk
    have hne : [] ++ s.mSock.stream.take k ≠ [] := by
      rw [List.nil_append, ne_eq, List.take_eq_nil_iff, not_or]
      exact ⟨(hk hN).ne',hmore⟩
    have hsplit : [] ++ s.mSock.stream.take k ++ s.mSock.stream.drop k = 10 :: rest := by
      rw [List.nil_append, List.take_append_drop, hcome]
    refine .line rfl ?_
    rwa [skip_lf hne hsplit]

/-- Behind a chunk, where no chunk line is in mBuffer or there is no room to read. -/
theorem Delivering.advances_chunkEnd (hN : 0 < N) (h : s.Delivering N body q left handler)
    (hpoint : s.point = .chunkEnd) {rest : List UInt8}
    (hcome : q ++ s.mSock.stream = crlf ++ rest) (hrest : Coding (ChunkLine.Readable N) rest left)
    (hok : s.mBuffer.getFreeSpace = 0 ∨ ¬s.HoldsChunkLine) : s.Advances N body := by
  have hneeded : q.length < N → ¬s.HoldsChunkLine := by
    intro hroom
    rw [h.holds.free_eq] at hok
    exact hok.resolve_left (by omega)
  -- at the end of the stream all that follows the chunk would be in mBuffer
  have hmore : q.length < N → s.mSock.stream ≠ [] := by
    intro hroom hnil
    obtain ⟨line,tail,hline,-⟩ := hrest.starts
    rw [hnil, List.append_nil, hline] at hcome
    exact hneeded hroom ⟨line,tail,.inr (h.holds.contents_eq.trans hcome)⟩
  apply h.advances_fill
  · simp only [step, hpoint]
  · exact hmore
  · rw [hpoint]
    exact .inr Nat.one_pos
  · exact hneeded
  · intro k hk
    have hne : q ++ s.mSock.stream.take k ≠ [] := by
      intro hnil
      obtain ⟨rfl,htake⟩ := List.append_eq_nil_iff.mp hnil
      rw [List.take_eq_nil_iff] at htake
      rcases htake with hz | hz
      · exact absurd (hk hN) (by omega)
      · exact hmore hN hz
    have hsplit : q ++ s.mSock.stream.take k ++ s.mSock.stream.drop k = crlf ++ rest := by
      rw [List.append_assoc, List.take_append_drop, hcome]
    rcases skip_crlf hne hsplit with hline | ⟨hnil,hfeed⟩
    · refine .line rfl ?_
      rwa [hline]
    · exact .lineFeed rfl hnil hfeed hrest

/-- Every undisturbed step goes on with the delivery, until the agent returns. -/
theorem Delivering.advances (hN : 0 < N) (h : s.Delivering N body q left handler)
    (hok : s.Undisturbed ()) (hreturned : ¬s.Returned) : s.Advances N body := by
  have hcontents := h.holds.contents_eq
  cases h.comes with
  | @content data tail hpoint hcome =>
    by_cases hdata : left = []
    · subst hdata
      exact h.advances_finish (.inl hpoint)
    · have hpos : (0 : ℤ) < left.length := by exact_mod_cast List.length_pos_iff.mpr hdata
      have hstep : s.step () = s.contentPass left.length := by
        simp only [step, hpoint, if_pos hpos]
      simp only [Undisturbed, hpoint, hcontents] at hok
      have h' : s.Delivering N body q (left ++ []) handler := by rwa [List.append_nil]
      refine h'.advances_pass hdata hstep (contentPass_spec h.holds h.handler_eq _) contentPoint_pos
        (.inl rfl) hcome ?_ hok
      intro q' t' _
      have hnone : q' ++ t' = [] ++ (q' ++ t') := rfl
      exact .content rfl hnone
  | line hpoint hcode => exact h.advances_code hpoint rfl hcode
  | lineFeed hpoint hq hcome hrest =>
    subst hq
    exact h.advances_lineFeed hN hpoint hcome hrest
  | @data data rest left' hpoint hdata hcome hrest =>
    have hpos : (0 : ℤ) < data.length := by exact_mod_cast List.length_pos_iff.mpr hdata
    have hstep : s.step () = s.chunkPass data.length := by simp only [step, hpoint, if_pos hpos]
    simp only [Undisturbed, hpoint, hcontents] at hok
    refine h.advances_pass hdata hstep (chunkPass_spec h.holds h.handler_eq _) chunkPoint_pos
      (.inr rfl) hcome ?_ hok
    intro q' t' hrest'
    exact .chunkEnd rfl hrest' hrest
  | last hpoint => exact h.advances_finish (.inr hpoint)
  | chunkEnd hpoint hcome hrest =>
    simp only [Undisturbed, hpoint] at hok
    exact h.advances_chunkEnd hN hpoint hcome hrest hok
  | returned hpoint => exact absurd ⟨_,hpoint⟩ hreturned

theorem fillAndSkip_reads (h : s.mBuffer.Holds N q) (hroom : q.length < N) :
    ∃ n s', s.fillAndSkip = .ok ([.fillFromFile n],s') := by
  obtain ⟨n,ret,mBuffer,-,hfill,hfailed,hstored⟩ := fillFromFile_room h hroom
  obtain ⟨q₁,hholds⟩ : ∃ q₁, mBuffer.Holds N q₁ := by
    cases hread : s.mSock.read n with
    | failed err => exact ⟨q,(hfailed err hread).2 ▸ h⟩
    | stored bytes => exact ⟨_,(hstored bytes hread).2⟩
  let s₁ : HttpAgent :=
    { s with mBuffer := mBuffer, mSock := s.mSock.consume ret.toNat, ret := ret }
  obtain ⟨mBuffer₁,hskip₁,hholds₁⟩ := skip_spec (s := s₁) hholds 13
  obtain ⟨mBuffer₂,hskip₂,-⟩ := skip_spec (s := { s₁ with mBuffer := mBuffer₁ }) hholds₁ 10
  rw [fillAndSkip, hfill, ok_bind]
  change ∃ n' s', (if s₁.ret < 0 then _ else do
    let s ← s₁.skip ((13 : UInt8).toNat : ℕ)
    let s ← s.skip ((10 : UInt8).toNat : ℕ)
    .ok ([SocketRead.fillFromFile n],{ s with point := .chunkLine })) = _
  rw [hskip₁, ok_bind, hskip₂, ok_bind]
  split <;> exact ⟨n,_,rfl⟩

def NoNeedlessRead (s : HttpAgent) : Prop :=
  ∀ reads s', s.step () = .ok (reads,s') → s.Needed reads s'

/-- A step that reads the socket for nothing in mBuffer is undisturbed. -/
theorem Delivering.undisturbed (h : s.Delivering N body q left handler) (hneeded : s.NoNeedlessRead) :
    s.Undisturbed () := by
  have hcontents := h.holds.contents_eq
  -- a pass that skips bytes of mBuffer reads the socket in their place
  have hpasses {len : ℕ} {point : ℤ → BodyPoint} {done : BodyPoint}
      (hpass : s.Passes N q handler len point done (s.step ())) :
      (len : ℤ) ≤ s.firstSegment ∨ (q.length : ℤ) ≤ s.firstSegment := by
    by_contra hok
    obtain ⟨n,reads,s',hstep,hmem,hne⟩ := hpass.skips hok
    exact hne ((hneeded reads s' hstep).1 n hmem)
  cases h.comes with
  | content hpoint hcome =>
    simp only [Undisturbed, hpoint, hcontents]
    by_cases hdata : left = []
    · obtain ⟨-,n,-,hseg,-⟩ := firstSegment_spec h.holds
      rw [hseg, hdata]
      exact .inl (Int.natCast_nonneg n)
    · have hpos : (0 : ℤ) < left.length := by exact_mod_cast List.length_pos_iff.mpr hdata
      have hstep : s.step () = s.contentPass left.length := by
        simp only [step, hpoint, if_pos hpos]
      apply hpasses
      rw [hstep]
      exact contentPass_spec h.holds h.handler_eq _
  | @data data rest left' hpoint hdata hcome hrest =>
    have hpos : (0 : ℤ) < data.length := by exact_mod_cast List.length_pos_iff.mpr hdata
    have hstep : s.step () = s.chunkPass data.length := by simp only [step, hpoint, if_pos hpos]
    simp only [Undisturbed, hpoint, hcontents]
    apply hpasses
    rw [hstep]
    exact chunkPass_spec h.holds h.handler_eq _
  | last hpoint =>
    simp only [Undisturbed, hpoint]
    obtain ⟨-,n,-,hseg,-⟩ := firstSegment_spec h.holds
    rw [hseg]
    exact .inl (Int.natCast_nonneg n)
  | chunkEnd hpoint hcome hrest =>
    simp only [Undisturbed, hpoint]
    by_contra hok
    rw [not_or, not_not, h.holds.free_eq] at hok
    -- with the next chunk line in mBuffer and room behind it, the fill reads all the same
    obtain ⟨n,s',hfill⟩ := fillAndSkip_reads h.holds (by omega)
    have hstep : s.step () = .ok ([.fillFromFile n],s') := by simp only [step, hpoint, hfill]
    exact (hneeded _ s' hstep).2 n (List.mem_singleton_self _) hok.2
  | line hpoint => simp only [Undisturbed, hpoint]
  | lineFeed hpoint => simp only [Undisturbed, hpoint]
  | returned hpoint => simp only [Undisturbed, hpoint]

theorem step_returned (h : s.Returned) : s.step () = .ok ([],s) := by
  obtain ⟨err,hpoint⟩ := h
  simp only [step, hpoint]

theorem guarded_returned (h : s.Returned) (n : ℕ) : Guarded step Undisturbed s (List.replicate n ()) := by
  induction n with
  | zero => trivial
  | succ n ih =>
    obtain ⟨err,hpoint⟩ := h
    exact Guarded.cons (step_returned ⟨err,hpoint⟩) (by simp only [Undisturbed, hpoint]) ih

/-- A run ends with the body received, and makes no needless read on the way. -/
def DeliversBody (s : HttpAgent) (body : List UInt8) : Prop :=
  ∃ n os s', run step s (List.replicate n ()) = .ok (os,s') ∧ s'.Returned ∧
    s'.handler.map BodyHandler.received = some body ∧
    Throughout step NoNeedlessRead s (List.replicate n ())

/-- The guard says of each run over a body whether the body is delivered. -/
theorem Delivers.deliversBody_iff_guarded (hN : 0 < N) (h : s.Delivers N body) :
    s.DeliversBody body ↔ ∀ n, Guarded step Undisturbed s (List.replicate n ()) := by
  have hnext {s : HttpAgent} (hs : s.Delivers N body) (hok : s.Undisturbed ())
      (hreturned : ¬s.Returned) : s.Advances N body := by
    obtain ⟨q,left,handler,hs⟩ := hs
    exact hs.advances hN hok hreturned
  constructor
  · rintro ⟨n,os,s',hrun,hend,-,hall⟩
    induction n generalizing s os with
    | zero =>
      obtain ⟨-,rfl⟩ := Prod.mk.inj (Except.ok.inj hrun)
      exact guarded_returned hend
    | succ n ih =>
      obtain ⟨hneeded,reads,s₁,hstep,hrest⟩ := hall
      by_cases hreturned : s.Returned
      · exact guarded_returned hreturned
      · have hok : s.Undisturbed () := by
          obtain ⟨q,left,handler,hs⟩ := h
          exact hs.undisturbed hneeded
        obtain ⟨reads',s₁',hstep',h₁,-⟩ := hnext h hok hreturned
        obtain ⟨-,rfl⟩ := Prod.mk.inj (Except.ok.inj (hstep'.symm.trans hstep))
        simp only [List.replicate_succ, run, hstep, ok_bind] at hrun
        obtain ⟨rs,hrun₁,hend₁⟩ := bind_eq_ok.mp hrun
        obtain ⟨-,hs'⟩ := Prod.mk.inj (Except.ok.inj hend₁)
        rintro (_ | m)
        · trivial
        · exact Guarded.cons hstep hok (ih h₁ rs.1 (by rw [hrun₁, ← hs']) hrest m)
  · intro hg
    have hP : ∀ s : HttpAgent, s.Delivers N body → s.Undisturbed () → s.NoNeedlessRead := by
      intro s hs hok reads s' hstep
      by_cases hreturned : s.Returned
      · obtain ⟨rfl,-⟩ := Prod.mk.inj (Except.ok.inj ((step_returned hreturned).symm.trans hstep))
        exact needed_nil s s'
      · obtain ⟨reads',s₁,hstep',-,-,hneeded⟩ := hnext hs hok hreturned
        obtain ⟨rfl,rfl⟩ := Prod.mk.inj (Except.ok.inj (hstep'.symm.trans hstep))
        exact hneeded
    have hadvance : ∀ s : HttpAgent, s.Delivers N body → s.Undisturbed () → ¬s.Returned →
        ∃ reads s', s.step () = .ok (reads,s') ∧ s'.Delivers N body ∧ s'.weight < s.weight := by
      intro s hs hok hreturned
      obtain ⟨reads,s',hstep,hs',hlt,-⟩ := hnext hs hok hreturned
      exact ⟨reads,s',hstep,hs',hlt⟩
    -- each step comes nearer to the end, where nothing is left to deliver
    obtain ⟨n,os,s',hrun,hall,⟨q,left,handler,hs'⟩,hend⟩ :=
      run_ends Undisturbed () weight hP hadvance h hg
    refine ⟨n,os,s',hrun,hend,?_,hall⟩
    obtain ⟨err,hpoint⟩ := hend
    have hreceived := hs'.received
    cases hs'.comes with
    | returned => rw [hs'.handler_eq, Option.map_some, ← hreceived, List.append_nil]
    | content hp => rw [hpoint] at hp; cases hp
    | line hp => rw [hpoint] at hp; cases hp
    | lineFeed hp => rw [hpoint] at hp; cases hp
    | data hp => rw [hpoint] at hp; cases hp
    | last hp => rw [hpoint] at hp; cases hp
    | chunkEnd hp => rw [hpoint] at hp; cases hp

end Steps

end HttpAgent

end JhCommon
