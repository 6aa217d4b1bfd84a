import JhCommon.HeaderText
import JhCommon.HttpBodyRuns
import JhCommon.ListCuts

/-! A response header comes in pieces: what the loop of `HttpAgent::sendAndGet` over the header makes
of it does not depend on how it was cut. -/
namespace JhCommon
open CircularBuffer HttpResponse Transition

namespace FieldText

/-- The value as it is parsed from the lines. -/
def data (f : FieldText) : List UInt8 :=
  ((fieldLine .parseField [] [] false f.bytes).map FieldLine.data).getD []

variable {N : ℕ} {buf : CircularBuffer} {q rest left : List UInt8}

theorem line_plain (f : FieldText) : 13 ∉ f.line := by
  simp only [line, List.mem_append, List.mem_cons, not_or]
  exact ⟨f.name_plain.2.1,by decide,f.value_plain⟩

theorem line_ne_nil (f : FieldText) : f.line ≠ [] := by
  simp [line]

theorem line_pos (f : FieldText) : 0+f.line.length ≠ 0 := by
  simp [line]

/-- A field that has come whole is found, and its line is read off. -/
theorem arrived (f : FieldText) (h : buf.Holds N (f.bytes ++ rest)) (hrest : NoContinuation rest)
    (s : HttpResponse) : 0 < buf.searchForLine ∧ s.parseLine buf = (do
      let s ← s.storeField f.name f.data
      .ok ((f.bytes.length : ℤ),s)) := by
  constructor
  · rw [searchForLine_eq h]
    exact lineEnd_whole f.line_plain f.more_plain hrest f.line_pos
  · obtain ⟨data,hdata⟩ := f.parsed
    have hnil := hdata [] ⟨by simp,by simp⟩
    rw [List.append_nil] at hnil
    have heq : f.data = data := by
      rw [FieldText.data, hnil]
      rfl
    have hlen : 0+((f.bytes ++ rest).length-rest.length) = f.bytes.length := by
      rw [List.length_append]
      omega
    rw [parseLine_eq h, hdata rest hrest, heq]
    simp only [storeLine, hlen]

/-- A part of a field is left in the buffer. -/
theorem waits (f : FieldText) (h : buf.Holds N q) (hq : f.bytes = q ++ left) (hleft : left ≠ [])
    (hwhole : ¬BrokenOff q left) : buf.searchForLine = -1 := by
  rw [searchForLine_eq h]
  exact lineEnd_part f.line_plain f.more_plain hq hleft hwhole f.line_pos

theorem noContinuation_cons {c : UInt8} (h32 : c ≠ 32) (h9 : c ≠ 9) (rest : List UInt8) :
    NoContinuation (c :: rest) :=
  ⟨fun heq => h32 (Option.some.inj heq),fun heq => h9 (Option.some.inj heq)⟩

theorem noContinuation_of_append (h : NoContinuation (q ++ rest)) : NoContinuation q := by
  cases q with
  | nil => exact ⟨by simp,by simp⟩
  | cons c q => exact h

theorem noContinuation (f : FieldText) (rest : List UInt8) : NoContinuation (f.bytes ++ rest) := by
  have hname := f.name_plain.2.2
  rw [bytes, line, List.append_assoc, List.append_assoc]
  cases hcases : f.name with
  | nil => exact noContinuation_cons (by decide) (by decide) _
  | cons c name =>
    rw [hcases] at hname
    apply noContinuation_cons
    · exact fun heq => hname.1 (by rw [heq]; rfl)
    · exact fun heq => hname.2 (by rw [heq]; rfl)

/-- The fields are stored one behind the other. -/
def storeAll : List FieldText → HttpResponse → Exec HttpResponse
  | [], s => .ok s
  | f :: fields, s => do
    let s ← s.storeField f.name f.data
    storeAll fields s

end FieldText

namespace HeaderText
open FieldText

theorem noContinuation_fieldBytes (fields : List FieldText) (tail : List UInt8) :
    NoContinuation (fieldBytes fields ++ crlf ++ tail) := by
  cases fields with
  | nil => exact noContinuation_cons (by decide) (by decide) _
  | cons f fields =>
    have hsplit : fieldBytes (f :: fields) ++ crlf ++ tail =
        f.bytes ++ (fieldBytes fields ++ crlf ++ tail) := by simp [fieldBytes]
    rw [hsplit]
    exact f.noContinuation _

variable {N : ℕ} {buf : CircularBuffer} {q rest left : List UInt8}

theorem line_plain (h : HeaderText) : 13 ∉ h.line := by
  simp only [line, List.mem_append, List.mem_cons, not_or, List.mem_replicate]
  exact ⟨h.protocol_plain.2,by decide,by simp,h.code_plain.2.2.1,by decide,h.reason_plain.1⟩

theorem line_ne_nil (h : HeaderText) : h.line ≠ [] := by
  simp [line]

theorem line_pos (h : HeaderText) : 0+h.line.length ≠ 0 := by
  simp [line]

/-- The response code that stands in the first line. -/
def codeValue (h : HeaderText) : ℤ := toInt32 (strtol (cStr h.code)).value

theorem codeStart_line (h : HeaderText) (rest : List UInt8) :
    codeStart (h.line ++ rest) = h.code ++ 32 :: (h.reason ++ rest) := by
  have hprotocol := ListCuts.all_ne h.protocol_plain.1
  have hspaces : ∀ b ∈ List.replicate h.spaces (32 : UInt8), decide (b = 32) = true := by
    intro b hb
    rw [decide_eq_true_eq]
    exact List.eq_of_mem_replicate hb
  obtain ⟨hne,hspace,-,-⟩ := h.code_plain
  obtain ⟨c,code,hcode⟩ := List.exists_cons_of_ne_nil hne
  have hc : c ≠ 32 := by
    rintro rfl
    rw [hcode] at hspace
    exact hspace List.mem_cons_self
  rw [codeStart, line, List.append_assoc, List.dropWhile_append_of_pos hprotocol, List.cons_append,
    List.dropWhile_cons_of_neg (by decide), List.dropWhile_cons_of_pos (by decide),
    List.append_assoc, List.dropWhile_append_of_pos hspaces, hcode, List.append_assoc,
    List.cons_append, List.dropWhile_cons_of_neg (by simpa using hc)]
  rfl

/-- The first line that has come whole is found, and read off. -/
theorem arrived (h : HeaderText) (hholds : buf.Holds N (h.line ++ crlf ++ rest))
    (hrest : NoContinuation rest) (h100 : h.codeValue ≠ 100 ∨ rest.head? ≠ some 13)
    (s : HttpResponse) : 0 < buf.searchForLine ∧ s.parseFirstLine buf =
      (((h.line ++ crlf).length : ℤ),{ s with mResponseCode := h.codeValue }) := by
  have hmore : ∀ piece ∈ ([] : List (List UInt8)), Continues piece := by simp
  obtain ⟨hne,hspace,-,hconverted,hrange⟩ := h.code_plain
  have hlong : 1 < (h.line ++ crlf ++ rest).length := by
    have hcrlf : crlf.length = 2 := rfl
    simp only [List.length_append]
    have hpos := h.line_pos
    omega
  have hfirst : ¬((h.line ++ crlf ++ rest).head? = some 13 ∧
      (h.line ++ crlf ++ rest).tail.head? = some 10) := by
    rintro ⟨hhead,-⟩
    obtain ⟨c,line,hline⟩ := List.exists_cons_of_ne_nil h.line_ne_nil
    rw [hline] at hhead
    have hcr := h.line_plain
    rw [hline, Option.some.inj hhead] at hcr
    exact hcr List.mem_cons_self
  have hstart : codeStart (h.line ++ crlf ++ rest) = h.code ++ 32 :: (h.reason ++ (crlf ++ rest)) := by
    rw [List.append_assoc]
    exact h.codeStart_line (crlf ++ rest)
  have hcode : statusCode (h.line ++ crlf ++ rest) = h.code := by
    rw [statusCode, hstart, ListCuts.takeWhile_ne_append hspace]
  have hbehind : behindCode (h.line ++ crlf ++ rest) = 32 :: (h.reason ++ (crlf ++ rest)) := by
    rw [behindCode, hstart, ListCuts.dropWhile_ne_append hspace]
  have hreason : ∀ b ∈ h.reason, decide (b ≠ 13 ∧ b ≠ 10) = true := by
    intro b hb
    rw [decide_eq_true_eq]
    constructor
    · rintro rfl
      exact h.reason_plain.1 hb
    · rintro rfl
      exact h.reason_plain.2 hb
  have htext : textEnd (h.reason ++ (crlf ++ rest)) = 13 :: 10 :: rest := by
    rw [textEnd, List.dropWhile_append_of_pos hreason]
    exact List.dropWhile_cons_of_neg (by decide)
  constructor
  · rw [searchForLine_eq hholds]
    exact lineEnd_whole h.line_plain hmore hrest h.line_pos
  · have hbad : ¬((strtol (cStr h.code)).converted = false ∨
        (strtol (cStr h.code)).outOfRange = true) := by
      rw [hconverted, hrange]
      decide
    rw [parseFirstLine_eq hholds hlong hfirst, hcode, hbehind]
    unfold endCode
    dsimp only
    rw [if_neg hbad, htext, endText]
    -- the line ends behind its LF
    have hindex : (h.line ++ crlf ++ rest).length-(10 :: rest).length = h.line.length+1 := by
      have hcrlf : crlf.length = 2 := rfl
      simp only [List.length_append, List.length_cons]
      omega
    have hdrop : (h.line ++ crlf ++ rest).drop (h.line.length+1) = 10 :: rest := by
      have hsplit : h.line ++ crlf ++ rest = (h.line ++ [13]) ++ 10 :: rest := by simp [crlf]
      rw [hsplit]
      exact List.drop_left' (by simp)
    have hlen : (h.line ++ crlf).length = h.line.length+1+1 := by
      rw [List.length_append]
      rfl
    rw [hindex, endFirstLine_lf hholds hdrop h100, hlen]
    rfl

theorem waits (h : HeaderText) (hholds : buf.Holds N q) (hq : h.line ++ crlf = q ++ left)
    (hleft : left ≠ []) (hwhole : ¬BrokenOff q left) : buf.searchForLine = -1 := by
  have hmore : ∀ piece ∈ ([] : List (List UInt8)), Continues piece := by simp
  rw [searchForLine_eq hholds]
  exact lineEnd_part h.line_plain hmore hq hleft hwhole h.line_pos

/-- What is left of a header while it is read, with the response so far, whether its first line is
still to come, and what will have been parsed in the end. -/
inductive LeftOver (h : HeaderText) (expected : Exec HttpResponse) :
    HttpResponse → Bool → List UInt8 → Prop
  | all (res : HttpResponse)
      (hexpected : storeAll h.fields { res with mResponseCode := h.codeValue } = expected) :
      LeftOver h expected res true h.bytes
  | fields (res : HttpResponse) (consumed : List UInt8) (fields : List FieldText)
      (hbytes : h.bytes = consumed ++ (fieldBytes fields ++ crlf))
      (hexpected : storeAll fields res = expected) :
      LeftOver h expected res false (fieldBytes fields ++ crlf)

/-- The bytes that have come of a header do not end behind a line break within a line. -/
def Unbroken (tail q t : List UInt8) : Prop :=
  ∀ left, left ≠ [] → t = left ++ tail → ¬BrokenOff q left

theorem Unbroken.of_suffix {tail q q' t : List UInt8} (h : Unbroken tail q t) (hq : q' <:+ q) :
    Unbroken tail q' t :=
  fun left hleft ht hbroken => h left hleft ht (hbroken.of_suffix hq)

/-- What the loop over the lines comes to: a fault that was expected, the end of the header, or a
part of a line that has not come whole. -/
def Reads (N : ℕ) (h : HeaderText) (expected : Exec HttpResponse) (t tail : List UInt8)
    (outcome : Exec (HttpResponse × Bool × CircularBuffer)) : Prop :=
  (∃ f, expected = .error f ∧ outcome = .error f) ∨
  ∃ res firstLine buf rem' q, outcome = .ok (res,firstLine,buf) ∧ buf.Holds N q ∧
    h.LeftOver expected res firstLine rem' ∧ q ++ t = rem' ++ tail ∧
    ((expected = .ok res ∧ rem' = crlf ∧ crlf <+: q) ∨
      (q.length < rem'.length ∧ buf.searchForLine = -1))

theorem fieldBytes_cons (f : FieldText) (fields : List FieldText) :
    fieldBytes (f :: fields) ++ crlf = f.bytes ++ (fieldBytes fields ++ crlf) := by
  simp [fieldBytes]

/-- The empty line ends the loop, and the header where it has come whole. -/
theorem searchForLine_empty {t tail : List UInt8} (hholds : buf.Holds N q)
    (hq : q ++ t = crlf ++ tail) :
    (crlf <+: q ∧ buf.searchForLine = kEOH) ∨ (q.length < 2 ∧ buf.searchForLine = -1) := by
  rw [searchForLine_eq hholds]
  cases q with
  | nil => exact .inr ⟨by decide,rfl⟩
  | cons c q =>
    obtain ⟨rfl,hlf⟩ := List.cons.inj hq
    have hlf : q ++ t = 10 :: tail := hlf
    cases q with
    | nil => exact .inr ⟨by decide,rfl⟩
    | cons d q =>
      obtain ⟨rfl,-⟩ := List.cons.inj hlf
      exact .inl ⟨⟨q,rfl⟩,rfl⟩

/-- A line has come whole, or a part of it is still to come. -/
theorem arrived_or_part {t u rest : List UInt8} (hq : q ++ t = u ++ rest) :
    (∃ q₁, q = u ++ q₁ ∧ q₁ ++ t = rest) ∨ ∃ left, left ≠ [] ∧ u = q ++ left ∧ t = left ++ rest := by
  rcases List.append_eq_append_iff.mp hq with ⟨left,hu,ht⟩ | ⟨q₁,hq₁,hrest⟩
  · cases left with
    | nil =>
      rw [List.append_nil] at hu
      exact .inl ⟨[],by rw [hu, List.append_nil],ht⟩
    | cons c left => exact .inr ⟨c :: left,List.cons_ne_nil c left,hu,ht⟩
  · exact .inl ⟨q₁,hq₁,hrest.symm⟩

/-- A part of a line stops the loop. -/
theorem reads_part {h : HeaderText} {expected : Exec HttpResponse} {t tail rem : List UInt8}
    {res : HttpResponse} {firstLine : Bool} (hholds : buf.Holds N q)
    (hleft : h.LeftOver expected res firstLine rem) (hq : q ++ t = rem ++ tail)
    (hshort : q.length < rem.length) (hsearch : buf.searchForLine = -1) (fuel : ℕ) :
    h.Reads N expected t tail (readLines (fuel+1) res firstLine buf) := by
  have hstop : ¬0 < buf.searchForLine := by
    rw [hsearch]
    decide
  exact .inr ⟨res,firstLine,buf,rem,q,readLines_stop hstop,hholds,hleft,hq,.inr ⟨hshort,hsearch⟩⟩

/-- The head of what is left decides whether a line is broken off. -/
theorem Unbroken.part {tail q t left rest : List UInt8} (h : Unbroken tail q t) (hleft : left ≠ [])
    (ht : t = left ++ (rest ++ tail)) : ¬BrokenOff q left := by
  intro hbroken
  apply h (left ++ rest) (by simp [hleft]) (by rw [ht, List.append_assoc])
  refine ⟨hbroken.1,?_⟩
  rw [List.head?_append_of_ne_nil left hleft]
  exact hbroken.2

/-- The loop over the fields that have come. -/
theorem readLines_fieldBytes {h : HeaderText} {expected : Exec HttpResponse}
    {consumed t tail : List UInt8} {fields : List FieldText} {res : HttpResponse}
    (hholds : buf.Holds N q) (hbytes : h.bytes = consumed ++ (fieldBytes fields ++ crlf))
    (hexpected : storeAll fields res = expected) (hq : q ++ t = fieldBytes fields ++ crlf ++ tail)
    (hunbroken : Unbroken tail q t) {fuel : ℕ} (hfuel : fields.length < fuel) :
    h.Reads N expected t tail (readLines fuel res false buf) := by
  -- consumed is what has been read off of the header
  induction fields generalizing res buf q fuel consumed with
  | nil =>
    obtain ⟨fuel,rfl⟩ := Nat.exists_eq_add_of_lt hfuel
    have hleft : h.LeftOver expected res false (fieldBytes [] ++ crlf) :=
      .fields res consumed [] hbytes hexpected
    rcases searchForLine_empty hholds hq with ⟨hend,hsearch⟩ | ⟨hshort,hsearch⟩
    · have hstop : ¬0 < buf.searchForLine := by
        rw [hsearch]
        decide
      exact .inr ⟨res,false,buf,_,q,readLines_stop hstop,hholds,hleft,hq,.inl ⟨hexpected.symm,rfl,hend⟩⟩
    · exact reads_part hholds hleft hq hshort hsearch _
  | cons f fields ih =>
    rw [List.length_cons] at hfuel
    obtain ⟨fuel,rfl⟩ : ∃ fuel', fuel = fuel'+1 := ⟨fuel-1,by omega⟩
    have hleft : h.LeftOver expected res false (f.bytes ++ (fieldBytes fields ++ crlf)) := by
      rw [← fieldBytes_cons]
      exact .fields res consumed (f :: fields) hbytes hexpected
    rw [fieldBytes_cons] at hbytes hq
    have hq' : q ++ t = f.bytes ++ (fieldBytes fields ++ crlf ++ tail) := by rw [hq, List.append_assoc]
    -- the next field has come as a whole, or a part of it
    rcases arrived_or_part hq' with ⟨q₁,rfl,hq₁⟩ | ⟨left,hne,hfield,ht⟩
    · have hcont : NoContinuation q₁ := by
        have hnext := noContinuation_fieldBytes fields tail
        rw [← hq₁] at hnext
        exact noContinuation_of_append hnext
      obtain ⟨hsearch,hparse⟩ := f.arrived hholds hcont res
      rw [(LineLoop.readLines_pass ⟨res,false,buf⟩ _).1 hsearch]
      rw [storeAll] at hexpected
      cases hstore : res.storeField f.name f.data with
      | error fault =>
        rw [hstore, error_bind] at hexpected hparse
        have hpass : LineLoop.pass ⟨res,false,buf⟩ = .error fault := LineLoop.pass_of_error hsearch hparse
        exact .inl ⟨fault,hexpected.symm,by rw [hpass, error_bind]⟩
      | ok res₁ =>
        rw [hstore, ok_bind] at hexpected hparse
        have hloop : (⟨res,false,buf⟩ : LineLoop).mBuffer.Holds N (f.bytes ++ q₁) := hholds
        obtain ⟨buf₁,hpass,hholds₁⟩ := (LineLoop.pass_of_parse hloop hsearch hparse).2 (by omega)
        rw [Int.toNat_natCast, List.drop_left' rfl] at hholds₁
        rw [hpass, ok_bind]
        have hsuffix : q₁ <:+ f.bytes ++ q₁ := List.suffix_append _ _
        have hbytes₁ : h.bytes = (consumed ++ f.bytes) ++ (fieldBytes fields ++ crlf) := by
          rw [hbytes, List.append_assoc]
        exact ih hholds₁ hbytes₁ hexpected hq₁ (hunbroken.of_suffix hsuffix) (by omega)
    · -- a part of the field has come
      have hsearch := f.waits hholds hfield hne (hunbroken.part hne ht)
      apply reads_part hholds hleft hq _ hsearch
      rw [hfield, List.append_assoc, List.length_append, List.length_append]
      have hpos := List.length_pos_iff.mpr hne
      omega

theorem length_le_fieldBytes (fields : List FieldText) :
    fields.length ≤ (fieldBytes fields).length := by
  induction fields with
  | nil => exact Nat.zero_le _
  | cons f fields ih =>
    have hpos := f.line_pos
    simp only [fieldBytes, List.map_cons, List.flatten_cons, List.length_append, List.length_cons,
      FieldText.bytes] at ih ⊢
    omega

theorem head_fieldBytes {fields : List FieldText} (hne : fields ≠ []) {q t tail : List UInt8}
    (hq : q ++ t = fieldBytes fields ++ crlf ++ tail) : q.head? ≠ some 13 := by
  obtain ⟨f,fields,rfl⟩ := List.exists_cons_of_ne_nil hne
  rw [fieldBytes_cons, FieldText.bytes] at hq
  cases q with
  | nil => simp
  | cons c q =>
    rintro heq
    obtain rfl : c = 13 := Option.some.inj heq
    have hcr := f.line_plain
    obtain ⟨d,line,hline⟩ := List.exists_cons_of_ne_nil f.line_ne_nil
    rw [hline] at hq hcr
    obtain ⟨rfl,-⟩ := List.cons.inj hq
    exact hcr List.mem_cons_self

/-- The loop over the lines that have come of what is left of a header. -/
theorem LeftOver.reads {h : HeaderText} {expected : Exec HttpResponse} {t tail rem : List UInt8}
    {res : HttpResponse} {firstLine : Bool} (hleft : h.LeftOver expected res firstLine rem)
    (hholds : buf.Holds N q) (hq : q ++ t = rem ++ tail) (hunbroken : Unbroken tail q t)
    (h100 : h.codeValue ≠ 100 ∨ h.fields ≠ []) {fuel : ℕ} (hfuel : rem.length < fuel) :
    h.Reads N expected t tail (readLines fuel res firstLine buf) := by
  obtain ⟨fuel,rfl⟩ : ∃ fuel', fuel = fuel'+1 := ⟨fuel-1,by omega⟩
  cases hleft with
  | fields consumed fields hbytes hexpected =>
    have hlen := length_le_fieldBytes fields
    rw [List.length_append] at hfuel
    exact readLines_fieldBytes hholds hbytes hexpected hq hunbroken (by omega)
  | all hexpected =>
    have hall : h.LeftOver expected res true h.bytes := .all res hexpected
    have hlen := length_le_fieldBytes h.fields
    have hcrlf : crlf.length = 2 := rfl
    have hlength : h.bytes.length = (h.line ++ crlf).length+((fieldBytes h.fields).length+2) := by
      simp only [bytes, List.length_append, hcrlf]
    have hq' : q ++ t = (h.line ++ crlf) ++ (fieldBytes h.fields ++ crlf ++ tail) := by
      rw [hq, bytes, List.append_assoc]
    -- the first line has come as a whole, or a part of it
    rcases arrived_or_part hq' with ⟨q₁,rfl,hq₁⟩ | ⟨left,hne,hline,ht⟩
    · have hcont : NoContinuation q₁ := by
        have hnext := noContinuation_fieldBytes h.fields tail
        rw [← hq₁] at hnext
        exact noContinuation_of_append hnext
      obtain ⟨hsearch,hparse⟩ := h.arrived hholds hcont
        (h100.imp_right fun hfields => head_fieldBytes hfields hq₁) res
      have hloop : (⟨res,true,buf⟩ : LineLoop).mBuffer.Holds N ((h.line ++ crlf) ++ q₁) := hholds
      have hparse' : (⟨res,true,buf⟩ : LineLoop).parse = .ok (((h.line ++ crlf).length : ℤ),
          { res with mResponseCode := h.codeValue }) := congrArg Except.ok hparse
      obtain ⟨buf₁,hpass,hholds₁⟩ := (LineLoop.pass_of_parse hloop hsearch hparse').2 (by omega)
      rw [Int.toNat_natCast, List.drop_left' rfl] at hholds₁
      rw [(LineLoop.readLines_pass ⟨res,true,buf⟩ _).1 hsearch, hpass, ok_bind]
      have hsuffix : q₁ <:+ (h.line ++ crlf) ++ q₁ := List.suffix_append _ _
      exact readLines_fieldBytes hholds₁ rfl hexpected hq₁ (hunbroken.of_suffix hsuffix) (by omega)
    · -- a part of the first line has come
      have hsearch := h.waits hholds hline hne (hunbroken.part hne ht)
      apply reads_part hholds hall hq _ hsearch
      rw [hlength, hline, List.length_append]
      omega

theorem LeftOver.consumed {h : HeaderText} {expected : Exec HttpResponse} {rem : List UInt8}
    {res : HttpResponse} {firstLine : Bool} (hleft : h.LeftOver expected res firstLine rem) :
    ∃ consumed, h.bytes = consumed ++ rem := by
  cases hleft with
  | all _ => exact ⟨[],rfl⟩
  | fields consumed _ hbytes _ => exact ⟨consumed,hbytes⟩

/-- The reads of the socket have not cut the header behind a line break within a line. -/
def Whole (h : HeaderText) (tail : List UInt8) (s : HttpAgent) : Prop :=
  ∀ got left, h.bytes = got ++ left → s.mSock.stream = left ++ tail → left ≠ [] → ¬BrokenOff got left

/-- None of the reads of the loop over the header cuts it so. -/
def WholeFrom (h : HeaderText) (tail : List UInt8) : ℕ → HttpResponse → Bool → HttpAgent → Prop
  | 0, _, _, _ => True
  | fuel+1, res, firstLine, s => ∀ reads s', s.fillFromFile = .ok (reads,s') → h.Whole tail s' ∧
    ∀ res' firstLine' mBuffer, readLines fuel res firstLine s'.mBuffer = .ok (res',firstLine',mBuffer) →
      mBuffer.searchForLine ≠ kEOH ∨ mBuffer.getLength < 2 →
      WholeFrom h tail fuel res' firstLine' { s' with mBuffer := mBuffer }

instance (got left : List UInt8) : Decidable (BrokenOff got left) := inferInstanceAs (Decidable (_ ∧ _))

/-- What is left in the stream says where the header is cut. -/
theorem whole_iff {h : HeaderText} {tail : List UInt8} {s : HttpAgent} : h.Whole tail s ↔
    (let n := s.mSock.stream.length-tail.length
    let got := h.bytes.take (h.bytes.length-n)
    let left := s.mSock.stream.take n
    h.bytes = got ++ left → s.mSock.stream = left ++ tail → left ≠ [] → ¬BrokenOff got left) := by
  refine ⟨fun hwhole => hwhole _ _,fun hcut got left hbytes hstream => ?_⟩
  have hn : s.mSock.stream.length-tail.length = left.length := by
    rw [hstream, List.length_append, Nat.add_sub_cancel]
  have hgot : h.bytes.take (h.bytes.length-left.length) = got := by
    rw [hbytes, List.length_append, Nat.add_sub_cancel, List.take_left]
  have hleft : s.mSock.stream.take left.length = left := by
    rw [hstream, List.take_left]
  simp only [hn, hgot, hleft] at hcut
  exact hcut hbytes hstream

instance (h : HeaderText) (tail : List UInt8) (s : HttpAgent) : Decidable (h.Whole tail s) :=
  decidable_of_iff' _ whole_iff

theorem wholeFrom_succ {h : HeaderText} {tail : List UInt8} {fuel : ℕ} {res : HttpResponse}
    {firstLine : Bool} {s s' : HttpAgent} {reads : List SocketRead} (hfill : s.fillFromFile = .ok (reads,s')) :
    h.WholeFrom tail (fuel+1) res firstLine s ↔ h.Whole tail s' ∧
      ∀ res' firstLine' mBuffer, readLines fuel res firstLine s'.mBuffer = .ok (res',firstLine',mBuffer) →
        mBuffer.searchForLine ≠ kEOH ∨ mBuffer.getLength < 2 →
        h.WholeFrom tail fuel res' firstLine' { s' with mBuffer := mBuffer } := by
  rw [WholeFrom]
  refine ⟨fun hwhole => hwhole _ _ hfill,fun hwhole reads' s₁ hfill' => ?_⟩
  rw [hfill] at hfill'
  obtain ⟨-,rfl⟩ := Prod.mk.inj (Except.ok.inj hfill')
  exact hwhole

/-- A run can be watched for its cuts. -/
instance decidableWholeFrom (h : HeaderText) (tail : List UInt8) :
    (fuel : ℕ) → (res : HttpResponse) → (firstLine : Bool) → (s : HttpAgent) →
      Decidable (h.WholeFrom tail fuel res firstLine s)
  | 0, _, _, _ => isTrue trivial
  | fuel+1, res, firstLine, s =>
    match hfill : s.fillFromFile with
    | .error _ => isTrue fun _ _ hfill' => by
        rw [hfill] at hfill'
        cases hfill'
    | .ok (_,s') =>
      match hloop : readLines fuel res firstLine s'.mBuffer with
      | .error _ => decidable_of_iff (h.Whole tail s') (by
          rw [wholeFrom_succ hfill, hloop]
          exact (and_iff_left nofun).symm)
      | .ok (res',firstLine',mBuffer) =>
        have := decidableWholeFrom h tail fuel res' firstLine' { s' with mBuffer := mBuffer }
        decidable_of_iff (h.Whole tail s' ∧ (mBuffer.searchForLine ≠ kEOH ∨ mBuffer.getLength < 2 →
          h.WholeFrom tail fuel res' firstLine' { s' with mBuffer := mBuffer })) (by
          rw [wholeFrom_succ hfill, hloop]
          refine and_congr_right fun _ => ⟨?_,fun hnext => hnext _ _ _ rfl⟩
          rintro hnext _ _ _ ⟨⟩
          exact hnext)

/-- The response that is received, and the bytes that come behind it. -/
def seen (out : Option HttpResponse × HttpAgent) : Option HttpResponse × List UInt8 :=
  (out.1,out.2.pending)

theorem LeftOver.length_le {h : HeaderText} {expected : Exec HttpResponse} {rem : List UInt8}
    {res : HttpResponse} {firstLine : Bool} (hleft : h.LeftOver expected res firstLine rem) :
    rem.length ≤ h.bytes.length := by
  obtain ⟨consumed,hbytes⟩ := hleft.consumed
  rw [hbytes, List.length_append]
  omega

theorem LeftOver.unbroken {h : HeaderText} {expected : Exec HttpResponse} {tail rem : List UInt8}
    {res : HttpResponse} {firstLine : Bool} {s : HttpAgent}
    (hleft : h.LeftOver expected res firstLine rem) (hq : q ++ s.mSock.stream = rem ++ tail)
    (hwhole : h.Whole tail s) : Unbroken tail q s.mSock.stream := by
  obtain ⟨consumed,hbytes⟩ := hleft.consumed
  intro left hne hstream hbroken
  rw [hstream, ← List.append_assoc] at hq
  have hrem : rem = q ++ left := (List.append_cancel_right hq).symm
  rw [hrem, ← List.append_assoc] at hbytes
  exact hwhole (consumed ++ q) left hbytes hstream hne (hbroken.of_suffix (List.suffix_append _ _))

/-- The loop over the header ends where the empty line has come. -/
theorem headerEnds (hholds : buf.Holds N (crlf ++ rest)) :
    ¬(buf.searchForLine ≠ kEOH ∨ buf.getLength < 2) := by
  have hlen : buf.getLength = (crlf ++ rest).length := hholds.len_eq
  rw [searchForLine_eq hholds, hlen]
  rintro (hne | hlt)
  · exact hne rfl
  · simp [crlf] at hlt

/-- The loop over the header receives what is left of it. The induction is on the bytes that are
still to be read. -/
theorem LeftOver.received {h : HeaderText} {expected : Exec HttpResponse} {tail rem : List UInt8}
    {res : HttpResponse} {firstLine : Bool} {s : HttpAgent}
    (hleft : h.LeftOver expected res firstLine rem) (hholds : s.mBuffer.Holds N q)
    (hcut : s.mSock.Cut) (hq : q ++ s.mSock.stream = rem ++ tail) (hshort : q.length < rem.length)
    (hfits : h.bytes.length ≤ N) (h100 : h.codeValue ≠ 100 ∨ h.fields ≠ []) {fuel : ℕ}
    (hfuel : h.bytes.length+s.mSock.stream.length < fuel)
    (hwhole : h.WholeFrom tail fuel res firstLine s) :
    (s.receiveHeader fuel res firstLine).map seen =
      expected.map fun res => (some res,crlf ++ tail) := by
  induction fuel generalizing res firstLine s q rem with
  | zero => omega
  | succ fuel ih =>
    have hrem := hleft.length_le
    have hroom : q.length < N := by omega
    have hmore : q.length < N → s.mSock.stream ≠ [] := by
      rintro - hnil
      rw [hnil, List.append_nil] at hq
      rw [hq, List.length_append] at hshort
      omega
    obtain ⟨k,asked,mBuffer,hfill,hholds₁,hk,-⟩ := s.fillFromFile_more hholds hcut hmore
    have hk := hk hroom
    obtain ⟨hclean,hnext⟩ := hwhole _ _ hfill
    -- the agent behind the read
    have hstream : (s.mSock.consume k).stream = s.mSock.stream.drop k := Socket.stream_consume _ _
    have hq₁ : (q ++ s.mSock.stream.take k) ++ (s.mSock.consume k).stream = rem ++ tail := by
      rw [hstream, List.append_assoc, List.take_append_drop, hq]
    have hpos := List.length_pos_iff.mpr (hmore hroom)
    have hlines : rem.length < fuel := by omega
    have hreads := hleft.reads hholds₁ hq₁ (hleft.unbroken hq₁ hclean) h100 hlines
    have hret : ¬(k : ℤ) ≤ 0 := by omega
    rw [HttpAgent.receiveHeader, hfill, ok_bind]
    simp only [if_neg hret]
    rcases hreads with ⟨f,rfl,hfault⟩ | ⟨res',firstLine',buf',rem',q',hloop,hholds',hleft',hq',hcases⟩
    · rw [hfault, error_bind]
      rfl
    · rw [hloop, ok_bind]
      simp only
      rcases hcases with ⟨hdone,hcrlf,hend⟩ | ⟨hshort',hsearch⟩
      · -- the header has come whole
        obtain ⟨rest,rfl⟩ := hend
        rw [if_neg (headerEnds hholds'), hdone]
        have hpending : (crlf ++ rest) ++ (s.mSock.consume k).stream = crlf ++ tail := by rw [hq', hcrlf]
        show Except.ok (some res',buf'.contents ++ (s.mSock.consume k).stream) = _
        rw [hholds'.contents_eq, hpending]
        rfl
      · have hagain : buf'.searchForLine ≠ kEOH ∨ buf'.getLength < 2 := by
          rw [hsearch]
          exact .inl (by decide)
        rw [if_pos hagain]
        have hless : (s.mSock.consume k).stream.length < s.mSock.stream.length := by
          rw [hstream, List.length_drop]
          omega
        have hfuel' : h.bytes.length+(s.mSock.consume k).stream.length < fuel := by omega
        exact ih hleft' hholds' (hcut.consume k) hq' hshort' hfuel' (hnext _ _ _ hloop hagain)

/-- The agent is about to read a stream, with nothing in its buffer. -/
structure Awaits (N : ℕ) (stream : List UInt8) (s : HttpAgent) : Prop where
  empty : s.mBuffer.Holds N []
  cut : s.mSock.Cut
  stream_eq : s.mSock.stream = stream

/-- The first read stores the whole header. -/
def ArrivesWhole (h : HeaderText) (s : HttpAgent) : Prop :=
  ∃ reads s', s.fillFromFile = .ok (reads,s') ∧ h.bytes <+: s'.mBuffer.contents

theorem bytes_pos (h : HeaderText) : 0 < h.bytes.length := by
  simp only [bytes, List.length_append]
  have hcrlf : crlf.length = 2 := rfl
  omega

variable {h : HeaderText} {tail : List UInt8} {s s₁ : HttpAgent}

theorem Awaits.fills (hs : Awaits N (h.bytes ++ tail) s) :
    ∃ reads k mBuffer, s.fillFromFile = .ok (reads,
      { s with mBuffer := mBuffer, mSock := s.mSock.consume k, ret := (k : ℕ) }) ∧
      mBuffer.Holds N ((h.bytes ++ tail).take k) ∧
      (s.mSock.consume k).stream = (h.bytes ++ tail).drop k := by
  have hpos := h.bytes_pos
  have hmore : ([] : List UInt8).length < N → s.mSock.stream ≠ [] := by
    rintro - hnil
    rw [hs.stream_eq] at hnil
    have hlen := congrArg List.length hnil
    rw [List.length_append, List.length_nil] at hlen
    omega
  obtain ⟨k,asked,mBuffer,hfill,hholds,-,-⟩ := s.fillFromFile_more hs.empty hs.cut hmore
  rw [List.nil_append, hs.stream_eq] at hholds
  have hstream : (s.mSock.consume k).stream = (h.bytes ++ tail).drop k := by
    rw [Socket.stream_consume, hs.stream_eq]
  exact ⟨_,k,mBuffer,hfill,hholds,hstream⟩

/-- A header that arrives whole is not cut, and one round of the loop receives it. -/
theorem ArrivesWhole.wholeFrom (harrives : h.ArrivesWhole s) (hs : Awaits N (h.bytes ++ tail) s)
    (h100 : h.codeValue ≠ 100 ∨ h.fields ≠ []) (res : HttpResponse) {fuel : ℕ}
    (hfuel : h.bytes.length < fuel) : h.WholeFrom tail (fuel+1) res true s := by
  intro reads s' hfill
  obtain ⟨reads₀,s₀,hfill₀,hfront⟩ := harrives
  obtain ⟨reads₁,k,mBuffer,hfill₁,hholds,hstream⟩ := hs.fills
  rw [hfill₁] at hfill₀ hfill
  obtain ⟨-,rfl⟩ := Prod.mk.inj (Except.ok.inj hfill₀)
  obtain ⟨-,rfl⟩ := Prod.mk.inj (Except.ok.inj hfill)
  -- nothing of the header is left in the stream
  have hlong : h.bytes.length ≤ k := by
    have hcontents : mBuffer.contents = (h.bytes ++ tail).take k := hholds.contents_eq
    have hle := hfront.length_le
    rw [hcontents, List.length_take] at hle
    omega
  have hclean : h.Whole tail { s with mBuffer := mBuffer, mSock := s.mSock.consume k, ret := (k : ℕ) } := by
    intro got left hbytes hleft hne
    have hlen := congrArg List.length (hstream.symm.trans hleft)
    rw [List.length_drop, List.length_append, List.length_append] at hlen
    have hpos := List.length_pos_iff.mpr hne
    omega
  refine ⟨hclean,?_⟩
  intro res' firstLine' mBuffer' hloop hagain
  have hall : h.LeftOver (storeAll h.fields { res with mResponseCode := h.codeValue }) res true h.bytes :=
    .all res rfl
  have hq : (h.bytes ++ tail).take k ++ (s.mSock.consume k).stream = h.bytes ++ tail := by
    rw [hstream, List.take_append_drop]
  rcases hall.reads hholds hq (hall.unbroken hq hclean) h100 hfuel with
    ⟨f,-,hfault⟩ | ⟨res₁,firstLine₁,buf₁,rem',q',hloop₁,hholds',hleft',hq',hcases⟩
  · rw [hfault] at hloop
    cases hloop
  · obtain ⟨rfl,rfl,rfl⟩ : res₁ = res' ∧ firstLine₁ = firstLine' ∧ buf₁ = mBuffer' := by
      rw [hloop₁] at hloop
      cases hloop
      exact ⟨rfl,rfl,rfl⟩
    rcases hcases with ⟨-,-,hend⟩ | ⟨hshort,-⟩
    · obtain ⟨rest,rfl⟩ := hend
      exact absurd hagain (headerEnds hholds')
    · -- what is left of the header is longer than what has come
      have hlen := congrArg List.length hq'
      rw [hstream, List.length_append, List.length_append, List.length_drop, List.length_append] at hlen
      omega

theorem storeField_ne_outOfFuel (res : HttpResponse) (name data : List UInt8) :
    res.storeField name data ≠ .error .outOfFuel := by
  obtain ⟨hunknown,hroom,hfull⟩ := res.storeField_eq name data
  by_cases hknown : getFieldType (cStr name) = kInvalidFieldType
  · rw [hunknown hknown]
    nofun
  · by_cases hlt : res.mFields.length < kMaxFields
    · rw [hroom hknown hlt]
      nofun
    · rw [hfull hknown (by omega)]
      nofun

theorem storeAll_ne_outOfFuel (fields : List FieldText) (res : HttpResponse) :
    storeAll fields res ≠ .error .outOfFuel := by
  induction fields generalizing res with
  | nil => nofun
  | cons f fields ih =>
    rw [storeAll]
    cases hstore : res.storeField f.name f.data with
    | error fault =>
      rw [error_bind]
      rw [← hstore]
      exact storeField_ne_outOfFuel res f.name f.data
    | ok res => exact ih res

theorem Awaits.received (hs : Awaits N (h.bytes ++ tail) s) (hfits : h.bytes.length ≤ N)
    (res : HttpResponse) {fuel : ℕ} (hfuel : 2*h.bytes.length+tail.length < fuel)
    (h100 : h.codeValue ≠ 100 ∨ h.fields ≠ []) (hwhole : h.WholeFrom tail fuel res true s) :
    (s.receiveHeader fuel res true).map seen =
      (storeAll h.fields { res with mResponseCode := h.codeValue }).map
        fun res => (some res,crlf ++ tail) := by
  have hall : h.LeftOver (storeAll h.fields { res with mResponseCode := h.codeValue }) res true h.bytes :=
    .all res rfl
  have hlen := congrArg List.length hs.stream_eq
  rw [List.length_append] at hlen
  exact hall.received hs.empty hs.cut hs.stream_eq h.bytes_pos hfits h100 (by omega) hwhole

/-- However a header is cut between its lines, it is received as if it came whole. -/
theorem received_alike (hs : Awaits N (h.bytes ++ tail) s) (hs₁ : Awaits N (h.bytes ++ tail) s₁)
    (hfits : h.bytes.length ≤ N) (harrives : h.ArrivesWhole s₁) (res : HttpResponse) {fuel : ℕ}
    (hfuel : 2*h.bytes.length+tail.length < fuel) (h100 : h.codeValue ≠ 100 ∨ h.fields ≠ [])
    (hwhole : h.WholeFrom tail fuel res true s) :
    (s.receiveHeader fuel res true).map seen = (s₁.receiveHeader fuel res true).map seen ∧
      s.receiveHeader fuel res true ≠ .error .outOfFuel := by
  have hreceived := hs.received hfits res hfuel h100 hwhole
  have hwhole₁ : h.WholeFrom tail fuel res true s₁ := by
    obtain ⟨fuel,rfl⟩ : ∃ fuel', fuel = fuel'+1 := ⟨fuel-1,by omega⟩
    have hpos := h.bytes_pos
    exact harrives.wholeFrom hs₁ h100 res (by omega)
  constructor
  · rw [hreceived, hs₁.received hfits res hfuel h100 hwhole₁]
  · intro hfuel'
    rw [hfuel'] at hreceived
    have hstored := storeAll_ne_outOfFuel h.fields { res with mResponseCode := h.codeValue }
    cases hall : storeAll h.fields { res with mResponseCode := h.codeValue } with
    | ok res => rw [hall] at hreceived; cases hreceived
    | error f =>
      rw [hall] at hreceived hstored
      exact hstored (congrArg Except.error (Except.error.inj hreceived).symm)

/-- Nothing of these bytes is broken off, wherever they are cut. -/
def Plain (bytes : List UInt8) : Prop :=
  ∀ got left, bytes = got ++ left → left ≠ [] → ¬BrokenOff got left

theorem plain_crlf : Plain crlf := by
  intro got left hbytes hne hbroken
  have hlen := congrArg List.length hbytes
  have hgot := hbroken.1.length_le
  have hpos := List.length_pos_iff.mpr hne
  rw [List.length_append] at hlen
  omega

/-- A line in front of plain bytes that do not continue it. -/
theorem plain_line {line rest : List UInt8} (hline : 13 ∉ line) (hrest : Plain rest)
    (hcont : NoContinuation rest) : Plain (line ++ crlf ++ rest) := by
  intro got left hbytes hne hbroken
  obtain ⟨⟨front,rfl⟩,hhead⟩ := hbroken
  rcases arrived_or_part hbytes.symm with ⟨got₁,hgot,hrest'⟩ | ⟨left₁,hne₁,hpart,-⟩
  · cases got₁ using List.reverseRecOn with
    | nil =>
      rw [List.nil_append] at hrest'
      rw [hrest'] at hhead
      exact hhead.elim hcont.1 hcont.2
    | append_singleton got₁ c =>
      -- the line break is in the rest, as its LF is
      cases got₁ using List.reverseRecOn with
      | nil =>
        have hlast : front ++ [13,10] = (line ++ [13]) ++ [10,c] := by simpa [crlf] using hgot
        have hpair := (List.append_inj' hlast rfl).2
        simp at hpair
      | append_singleton got₁ d =>
        have hlast : front ++ crlf = (line ++ crlf ++ got₁) ++ [d,c] := by simpa using hgot
        have hpair := (List.append_inj' hlast rfl).2
        apply hrest (got₁ ++ crlf) left _ hne ⟨List.suffix_append _ _,hhead⟩
        rw [← hrest', hpair]
        simp
  · -- the line would have a CR within
    cases left₁ using List.reverseRecOn with
    | nil => exact hne₁ rfl
    | append_singleton left₁ c =>
      have hlast : line ++ [13] ++ [10] = (front ++ crlf ++ left₁) ++ [c] := by simpa [crlf] using hpart
      have hfront := (List.append_inj' hlast rfl).1
      cases left₁ using List.reverseRecOn with
      | nil =>
        have hcr : line ++ [13] = (front ++ [13]) ++ [10] := by simpa [crlf] using hfront
        have hpair := (List.append_inj' hcr rfl).2
        simp at hpair
      | append_singleton left₁ d =>
        have hcr : line ++ [13] = (front ++ crlf ++ left₁) ++ [d] := by simpa using hfront
        apply hline
        rw [(List.append_inj' hcr rfl).1]
        simp [crlf]

theorem plain_fieldBytes {fields : List FieldText} (hfields : ∀ f ∈ fields, f.more = []) :
    Plain (fieldBytes fields ++ crlf) := by
  induction fields with
  | nil => exact plain_crlf
  | cons f fields ih =>
    have hplain := ih fun f' hf' => hfields f' (List.mem_cons_of_mem f hf')
    have hcont := noContinuation_fieldBytes fields []
    rw [List.append_nil] at hcont
    have hbytes : f.bytes = f.line ++ crlf := by
      rw [FieldText.bytes, hfields f List.mem_cons_self]
      rfl
    rw [fieldBytes_cons, hbytes]
    exact plain_line f.line_plain hplain hcont

/-- A header whose fields have no continuation lines is not broken off, however it is cut. -/
theorem plain_bytes (hfields : ∀ f ∈ h.fields, f.more = []) : Plain h.bytes := by
  have hcont := noContinuation_fieldBytes h.fields []
  rw [List.append_nil] at hcont
  exact plain_line h.line_plain (plain_fieldBytes hfields) hcont

/-- Any cuts of such a header are between its lines. -/
theorem wholeFrom_of_unfolded (hfields : ∀ f ∈ h.fields, f.more = []) (res : HttpResponse)
    (firstLine : Bool) (fuel : ℕ) : h.WholeFrom tail fuel res firstLine s := by
  induction fuel generalizing res firstLine s with
  | zero => trivial
  | succ fuel ih =>
    intro reads s' _
    have hclean : h.Whole tail s' := fun got left hbytes _ hne => plain_bytes hfields got left hbytes hne
    exact ⟨hclean,fun res' firstLine' _ _ _ => ih res' firstLine'⟩

/-- The agent in front of a header that comes in these segments. -/
def awaiting (segments : List (List UInt8)) : HttpAgent :=
  { mBuffer := CircularBuffer.init (fun _ => 0) 64
    mSock := ⟨segments,false⟩
    handler := none
    ret := 0
    point := .chunkLine }

theorem awaiting_awaits {segments : List (List UInt8)} {stream : List UInt8}
    (hcut : ∀ segment ∈ segments, segment ≠ []) (hstream : segments.flatten = stream) :
    Awaits 64 stream (awaiting segments) :=
  ⟨init_holds _ (by decide),hcut,hstream⟩

/-- "H 200 OK" with these fields. -/
def okHeader (fields : List FieldText) : HeaderText :=
  { protocol := text "H"
    spaces := 0
    code := text "200"
    reason := text "OK"
    fields := fields
    protocol_plain := by decide
    code_plain := ⟨by decide,by decide,by decide,by decide,by decide⟩
    reason_plain := by decide }

/-- "Age:1" that goes on with " :". -/
def foldedAge : FieldText :=
  { name := text "Age"
    value := text "1"
    more := [text " :"]
    name_plain := ⟨by decide,by decide,by decide,by decide⟩
    value_plain := by decide
    more_plain := by simp [Continues, text, asciiBytes] }

/-- "Content-Length: 2". -/
def shortLength : FieldText :=
  { name := text "Content-Length"
    value := text " 2"
    more := []
    name_plain := ⟨by decide,by decide,by decide,by decide⟩
    value_plain := by decide
    more_plain := by simp }

/-- A header with a continuation line, cut within its lines and their line breaks. -/
def foldedPieces : List (List UInt8) :=
  [text "H 20",text "0 OK\r",text "\nAg",text "e:1\r\n ",text ":\r",text "\nContent-Length: 2\r\n",text "\r",
    text "\n"]

theorem received_alike_folded :
    let h := okHeader [foldedAge,shortLength]
    ((awaiting foldedPieces).receiveHeader 100 .init true).map seen =
        ((awaiting [h.bytes]).receiveHeader 100 .init true).map seen ∧
      (awaiting foldedPieces).receiveHeader 100 .init true ≠ .error .outOfFuel := by
  have hs : Awaits 64 ((okHeader [foldedAge,shortLength]).bytes ++ []) (awaiting foldedPieces) :=
    awaiting_awaits (by decide) (by decide)
  have hs₁ : Awaits 64 ((okHeader [foldedAge,shortLength]).bytes ++ [])
      (awaiting [(okHeader [foldedAge,shortLength]).bytes]) := awaiting_awaits (by decide) (by decide)
  have harrives : (okHeader [foldedAge,shortLength]).ArrivesWhole
      (awaiting [(okHeader [foldedAge,shortLength]).bytes]) := ⟨_,_,rfl,by decide⟩
  have hwhole : (okHeader [foldedAge,shortLength]).WholeFrom [] 100 .init true (awaiting foldedPieces) := by
    decide +kernel
  exact received_alike hs hs₁ (by decide) harrives .init (by decide) (.inl (by decide)) hwhole

/-- A continuation line that comes late is another line. -/
theorem continuation_cut : ¬∀ (h : HeaderText) (tail : List UInt8) (N : ℕ) (s s₁ : HttpAgent),
    Awaits N (h.bytes ++ tail) s → Awaits N (h.bytes ++ tail) s₁ → h.bytes.length ≤ N →
    h.ArrivesWhole s₁ → ∀ fuel, 2*h.bytes.length+tail.length < fuel →
      (s.receiveHeader fuel .init true).map seen = (s₁.receiveHeader fuel .init true).map seen := by
  intro h
  have hs : Awaits 64 ((okHeader [foldedAge]).bytes ++ [])
      (awaiting [text "H 200 OK\r\nAge:1\r\n",text " :\r\n\r\n"]) :=
    awaiting_awaits (by decide) (by decide)
  have hs₁ : Awaits 64 ((okHeader [foldedAge]).bytes ++ []) (awaiting [(okHeader [foldedAge]).bytes]) :=
    awaiting_awaits (by decide) (by decide)
  have harrives : (okHeader [foldedAge]).ArrivesWhole (awaiting [(okHeader [foldedAge]).bytes]) :=
    ⟨_,_,rfl,by decide⟩
  have hsame := h _ _ _ _ _ hs hs₁ (by decide) harrives 64 (by decide)
  have hfields := congrArg (fun out => out.toOption.map fun out => out.1.map mFields) hsame
  revert hfields
  decide +kernel

end HeaderText

end JhCommon
