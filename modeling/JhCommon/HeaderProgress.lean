import JhCommon.FirstLine
import JhCommon.FieldTable

/-! Where the loop of `HttpAgent::sendAndGet` over the lines of a header gets on. -/
namespace JhCommon
open CircularBuffer RingMemory Transition HttpResponse

/-- Where the loop over lines stands. -/
structure LineLoop where
  res : HttpResponse
  firstLine : Bool
  mBuffer : CircularBuffer

namespace LineLoop

/-- A line is parsed as the first one, or as a field. -/
def parse (st : LineLoop) : Exec (ℤ × HttpResponse) :=
  if st.firstLine = true then .ok (st.res.parseFirstLine st.mBuffer) else st.res.parseLine st.mBuffer

/-- One pass of the loop, which ends where no line is found. -/
def pass (st : LineLoop) : Exec LineLoop :=
  if 0 < st.mBuffer.searchForLine then do
    let (len,res) ← st.parse
    if len < 0 then .ok ⟨res,false,st.mBuffer⟩
    else do
      let (_,mBuffer) ← st.mBuffer.read false len.toNat
      .ok ⟨res,false,mBuffer⟩
  else .ok st

/-- The pass ends the loop, or consumes a byte. -/
def Progresses (st : LineLoop) : Prop :=
  0 < st.mBuffer.searchForLine →
    ∃ st', st.pass = .ok st' ∧ st'.mBuffer.contents.length < st.mBuffer.contents.length

/-- What the parser takes for a line is one: the first line has a status code and ends behind it,
and any other one has a colon, ends behind it, and its field fits into the table if it is known. -/
def LineReads (st : LineLoop) : Prop :=
  0 < st.mBuffer.searchForLine →
    if st.firstLine = true then HoldsFirstLine st.mBuffer.contents
    else ∃ name, HoldsField st.mBuffer.contents name ∧
      (getFieldType (cStr name) = kInvalidFieldType ∨ st.res.mFields.length < kMaxFields)

section
variable {N : ℕ} {buf : CircularBuffer} {q : List UInt8} {st st' : LineLoop}

/-- A line is found only where there is more than an empty one. -/
theorem searchForLine_pos (h : buf.Holds N q) (hpos : 0 < buf.searchForLine) :
    1 < q.length ∧ ¬(q.head? = some 13 ∧ q.tail.head? = some 10) := by
  have hlen : buf.getLength = q.length := h.len_eq
  have hneg : ¬(0 : ℤ) < -1 := by decide
  cases q with
  | nil =>
    rw [searchForLine, hlen] at hpos
    exact absurd hpos hneg
  | cons c cs =>
    cases cs with
    | nil =>
      have hd : ([c] : List UInt8).drop 0 = [c] := rfl
      have hsearch : buf.searchForLine = -1 := by
        rw [searchForLine, hlen, List.length_singleton, searchFrom]
        simp only [(h.byteAt_of_drop hd).1, natCast_toNat_ne_neg_one, if_false, searchFrom]
      rw [hsearch] at hpos
      exact absurd hpos hneg
    | cons d rest =>
      constructor
      · rw [List.length_cons, List.length_cons]
        omega
      -- of an empty line the search returns no length
      rintro ⟨hc,hd⟩
      obtain rfl : c = 13 := Option.some.inj hc
      obtain rfl : d = 10 := Option.some.inj hd
      have hd₀ : (13 :: 10 :: rest : List UInt8).drop 0 = 13 :: 10 :: rest := rfl
      have hd₁ : (13 :: 10 :: rest : List UInt8).drop 1 = 10 :: rest := rfl
      rw [searchForLine, hlen, List.length_cons, List.length_cons, searchFrom_cr h hd₀,
        searchFrom_lf h hd₁, if_pos rfl] at hpos
      exact absurd hpos (by decide)

/-- The parser returns the length of a line where it reads one, and nothing to consume elsewhere. -/
theorem parse_pos (h : st.mBuffer.Holds N q) (hpos : 0 < st.mBuffer.searchForLine) :
    (∃ len res, st.parse = .ok (len,res) ∧ 0 < len) ↔ st.LineReads := by
  obtain ⟨hlong,hcrlf⟩ := searchForLine_pos h hpos
  unfold LineReads parse
  rw [h.contents_eq]
  cases st.firstLine with
  | true =>
    simp only [if_true, hpos, true_imp_iff]
    rw [← parseFirstLine_pos (s := st.res) h hlong hcrlf]
    constructor
    · rintro ⟨len,res,hparse,hlen⟩
      rw [Except.ok.inj hparse]
      exact hlen
    · intro hlen
      exact ⟨_,_,rfl,hlen⟩
  | false =>
    simp only [Bool.false_eq_true, if_false, hpos, true_imp_iff]
    constructor
    · rintro ⟨len,res,hparse,hlen⟩
      by_cases hfield : ∃ name, HoldsField q name
      · obtain ⟨name,hname⟩ := hfield
        refine ⟨name,hname,?_⟩
        -- a field that is stored where the table is full is written outside of it
        by_contra hnot
        push Not at hnot
        obtain ⟨n,data,-,-,hfault⟩ := parseLine_field (s := st.res) h hname
        rw [(st.res.storeField_eq name data).2.2 hnot.1 (by omega), error_bind, hparse] at hfault
        cases hfault
      · rw [parseLine_none h hfield] at hparse
        obtain ⟨rfl,-⟩ := Prod.mk.inj (Except.ok.inj hparse)
        exact absurd hlen (by decide)
    · rintro ⟨name,hname,hfits⟩
      obtain ⟨n,data,hn,-,hparse⟩ := parseLine_field (s := st.res) h hname
      obtain ⟨hunknown,hroom,-⟩ := st.res.storeField_eq name data
      have hn : (0 : ℤ) < n := by omega
      by_cases htype : getFieldType (cStr name) = kInvalidFieldType
      · rw [hunknown htype, ok_bind] at hparse
        exact ⟨_,_,hparse,hn⟩
      · rw [hroom htype (hfits.resolve_left htype), ok_bind] at hparse
        exact ⟨_,_,hparse,hn⟩

theorem pass_of_parse (h : st.mBuffer.Holds N q) (hpos : 0 < st.mBuffer.searchForLine) {len : ℤ}
    {res : HttpResponse} (hparse : st.parse = .ok (len,res)) :
    (len < 0 → st.pass = .ok ⟨res,false,st.mBuffer⟩) ∧
    (¬len < 0 → ∃ mBuffer, st.pass = .ok ⟨res,false,mBuffer⟩ ∧ mBuffer.Holds N (q.drop len.toNat)) := by
  unfold pass
  rw [if_pos hpos, hparse, ok_bind]
  constructor
  · intro hlen
    exact if_pos hlen
  · intro hlen
    obtain ⟨mBuffer,hread,hholds⟩ := read_spec h false len.toNat
    refine ⟨mBuffer,?_,hholds⟩
    show (if len < 0 then _ else _) = _
    rw [if_neg hlen, hread, ok_bind]

theorem pass_of_error (hpos : 0 < st.mBuffer.searchForLine) {f : Fault} (hparse : st.parse = .error f) :
    st.pass = .error f := by
  unfold pass
  rw [if_pos hpos, hparse, error_bind]

theorem parse_of_pass (hpos : 0 < st.mBuffer.searchForLine) (hpass : st.pass = .ok st') :
    ∃ len res, st.parse = .ok (len,res) := by
  unfold pass at hpass
  rw [if_pos hpos] at hpass
  obtain ⟨⟨len,res⟩,hparse,-⟩ := bind_eq_ok.mp hpass
  exact ⟨len,res,hparse⟩

theorem pass_keeps (h : st.mBuffer.WellFormed) (hpass : st.pass = .ok st') :
    st'.mBuffer.WellFormed := by
  have hholds : st.mBuffer.Holds st.mBuffer.mBufferSize st.mBuffer.contents := ⟨h,rfl,rfl⟩
  by_cases hpos : 0 < st.mBuffer.searchForLine
  · obtain ⟨len,res,hparse⟩ := parse_of_pass hpos hpass
    obtain ⟨hfails,hreads⟩ := pass_of_parse hholds hpos hparse
    by_cases hlen : len < 0
    · obtain rfl := Except.ok.inj ((hfails hlen).symm.trans hpass)
      exact h
    · obtain ⟨mBuffer,hread,hrest⟩ := hreads hlen
      obtain rfl := Except.ok.inj (hread.symm.trans hpass)
      exact hrest.wf
  · unfold pass at hpass
    rw [if_neg hpos] at hpass
    obtain rfl := Except.ok.inj hpass
    exact h

/-- A pass gets on where the parser reads a line. -/
theorem progresses_iff (h : st.mBuffer.WellFormed) : st.Progresses ↔ st.LineReads := by
  have hholds : st.mBuffer.Holds st.mBuffer.mBufferSize st.mBuffer.contents := ⟨h,rfl,rfl⟩
  by_cases hpos : 0 < st.mBuffer.searchForLine
  · rw [← parse_pos hholds hpos]
    constructor
    · intro hprogress
      obtain ⟨st',hpass,hless⟩ := hprogress hpos
      obtain ⟨len,res,hparse⟩ := parse_of_pass hpos hpass
      -- a pass that reads nothing off leaves the bytes as they are
      obtain ⟨hfails,hreads⟩ := pass_of_parse hholds hpos hparse
      refine ⟨len,res,hparse,?_⟩
      by_contra hnot
      by_cases hlen : len < 0
      · obtain rfl := Except.ok.inj ((hfails hlen).symm.trans hpass)
        exact absurd hless (lt_irrefl _)
      · obtain ⟨mBuffer,hread,hrest⟩ := hreads hlen
        obtain rfl := Except.ok.inj (hread.symm.trans hpass)
        have hzero : len.toNat = 0 := by omega
        rw [hrest.contents_eq, hzero, List.drop_zero] at hless
        exact absurd hless (lt_irrefl _)
    · rintro ⟨len,res,hparse,hlen⟩ -
      obtain ⟨mBuffer,hread,hrest⟩ := (pass_of_parse hholds hpos hparse).2 (by omega)
      have hlong := (searchForLine_pos hholds hpos).1
      refine ⟨_,hread,?_⟩
      show mBuffer.contents.length < _
      rw [hrest.contents_eq, List.length_drop]
      omega
  · exact iff_of_true (fun hpos' => absurd hpos' hpos) (fun hpos' => absurd hpos' hpos)

/-- The loop is a row of passes. -/
theorem readLines_pass (st : LineLoop) (fuel : ℕ) :
    (0 < st.mBuffer.searchForLine → readLines (fuel+1) st.res st.firstLine st.mBuffer =
      (st.pass >>= fun st => readLines fuel st.res st.firstLine st.mBuffer)) ∧
    (¬0 < st.mBuffer.searchForLine → readLines (fuel+1) st.res st.firstLine st.mBuffer =
      .ok (st.res,st.firstLine,st.mBuffer)) := by
  constructor
  · intro hpos
    have hrest : ∀ (len : ℤ) (res : HttpResponse),
        (if len < 0 then readLines fuel res false st.mBuffer
        else st.mBuffer.read false len.toNat >>= fun out => readLines fuel res false out.2) =
        ((if len < 0 then .ok (⟨res,false,st.mBuffer⟩ : LineLoop)
        else st.mBuffer.read false len.toNat >>= fun out => .ok ⟨res,false,out.2⟩) >>=
          fun st => readLines fuel st.res st.firstLine st.mBuffer) := by
      intro len res
      by_cases hlen : len < 0
      · rw [if_pos hlen, if_pos hlen, ok_bind]
      · rw [if_neg hlen, if_neg hlen]
        cases st.mBuffer.read false len.toNat <;> rfl
    unfold pass parse
    rw [readLines, if_pos hpos, if_pos hpos]
    cases st.firstLine with
    | true => exact hrest _ _
    | false =>
      cases st.res.parseLine st.mBuffer with
      | error f => rfl
      | ok out => exact hrest out.1 out.2
  · intro hpos
    rw [readLines, if_neg hpos]

theorem readLines_ends (h : st.mBuffer.WellFormed)
    (hall : ∀ st', Leads pass st st' → st'.Progresses) :
    ∃ fuel out, readLines fuel st.res st.firstLine st.mBuffer = .ok out := by
  obtain ⟨bound,hbound⟩ : ∃ bound, bound = st.mBuffer.contents.length := ⟨_,rfl⟩
  induction bound using Nat.strong_induction_on generalizing st with
  | _ bound ih =>
    by_cases hpos : 0 < st.mBuffer.searchForLine
    · obtain ⟨st₁,hpass,hless⟩ := hall st .refl hpos
      obtain ⟨fuel,out,hloop⟩ := ih _ (hbound ▸ hless) (pass_keeps h hpass)
        (fun st' hst' => hall st' ((Leads.step hpass).trans hst')) rfl
      refine ⟨fuel+1,out,?_⟩
      rw [(readLines_pass st fuel).1 hpos, hpass, ok_bind, hloop]
    · exact ⟨1,_,(readLines_pass st 0).2 hpos⟩

end

/-- The loop over the lines of any bytes gets on with every pass and ends, where every line that is
found in them can be read, and nowhere else. -/
theorem progress_iff_reads (res : HttpResponse) (firstLine : Bool)
    (buffer : { buffer : CircularBuffer // buffer.WellFormed }) :
    ((∃ fuel out, readLines fuel res firstLine buffer = .ok out) ∧
      ∀ st, Leads pass ⟨res,firstLine,buffer⟩ st → st.Progresses) ↔
    ∀ st, Leads pass ⟨res,firstLine,buffer⟩ st → st.LineReads := by
  have hwf : ∀ st, Leads pass ⟨res,firstLine,buffer⟩ st → st.mBuffer.WellFormed := by
    intro st hst
    exact hst.keeps (P := fun st => st.mBuffer.WellFormed) (fun _ _ hs hpass => pass_keeps hs hpass)
      buffer.property
  constructor
  · rintro ⟨-,hall⟩ st hst
    exact (progresses_iff (hwf st hst)).mp (hall st hst)
  · intro hreads
    have hall : ∀ st, Leads pass ⟨res,firstLine,buffer⟩ st → st.Progresses :=
      fun st hst => (progresses_iff (hwf st hst)).mpr (hreads st hst)
    exact ⟨readLines_ends buffer.property hall,hall⟩

/-- A buffer that holds a line without a space and without a colon. -/
def bareLine : { buffer : CircularBuffer // buffer.WellFormed } :=
  ⟨{ mBuffer := store (fun _ => 0) 0 (text "HTTP\r\n")
     mBufferSize := 8
     mReadPtr := 0
     mWritePtr := 6
     mLen := 6 },by constructor <;> decide⟩

/-- The line is found again and again, and never read. -/
theorem bareLine_stuck : ¬((∃ fuel out, readLines fuel init true bareLine = .ok out) ∧
    ∀ st, Leads pass ⟨init,true,bareLine⟩ st → st.Progresses) := by
  rintro ⟨⟨fuel,out,hloop⟩,-⟩
  have hfound : 0 < bareLine.val.searchForLine := by decide
  have hagain : LineLoop.pass ⟨init,false,bareLine⟩ = .ok ⟨init,false,bareLine⟩ := by
    rfl
  have hfirst : LineLoop.pass ⟨init,true,bareLine⟩ = .ok ⟨init,false,bareLine⟩ := by
    rfl
  have hstuck : ∀ fuel, readLines fuel init false bareLine.val = .error .outOfFuel := by
    intro fuel
    induction fuel with
    | zero => rfl
    | succ fuel ih =>
      rw [(readLines_pass ⟨init,false,bareLine⟩ fuel).1 hfound, hagain, ok_bind, ih]
  cases fuel with
  | zero => cases hloop
  | succ fuel =>
    rw [(readLines_pass ⟨init,true,bareLine⟩ fuel).1 hfound, hfirst, ok_bind, hstuck] at hloop
    cases hloop

end LineLoop

end JhCommon
