import JhCommon.HttpRequest
import JhCommon.URIRuns

/-! The header that `getHeader` builds once and keeps. Only `addField` drops what was built; the
setters of the request and the response, `removeField` and `parseLine` leave it as it is. -/
namespace JhCommon
open Transition

/-- An object of one of the two header classes. -/
inductive HttpMessage
  | request (s : HttpRequest)
  | response (s : HttpResponse)

inductive HeaderCall
  | field (call : FieldCall)
  | setMethod (type : MethodType)
  | setURI (uri : URI)
  | setResponseCode (code : Int32)
  | getHeader

inductive HeaderOutput
  | field (o : FieldOutput)
  | header (text : List UInt8)
  | done

def HeaderOutput.shown : HeaderOutput → Option (List UInt8)
  | .header text => some text
  | _ => none

/-- What follows the method in the first line. -/
def URI.target (s : URI) : List UInt8 :=
  asciiBytes s.getPath ++ if s.getQuery.1 ≠ [] then text "?" ++ asciiBytes s.getQuery.1 else []

/-- The lines of the fields, if every field has a name. -/
def fieldLines : List HeaderField → Option (List UInt8)
  | [] => some []
  | f :: fields => do
    let name ← getFieldTypeString f.mType
    let rest ← fieldLines fields
    some (name ++ text ": " ++ f.mData ++ crlf ++ rest)

namespace HttpMessage

def mFields : HttpMessage → List HeaderField
  | .request s => s.mFields
  | .response s => s.mFields

def mHeaderStr : HttpMessage → List UInt8
  | .request s => s.mHeaderStr
  | .response s => s.mHeaderStr

def getHeader : HttpMessage → Exec (List UInt8 × HttpMessage)
  | .request s => do
    let (header,s) ← s.getHeader
    .ok (header,.request s)
  | .response s => do
    let (header,s) ← s.getHeader
    .ok (header,.response s)

/-- The calls of the two classes. A setter of the other class is no call at all. -/
def step : HttpMessage → HeaderCall → Exec (HeaderOutput × HttpMessage)
  | .request s, .field call => do
    let (o,s) ← s.fieldStep call
    .ok (.field o,.request s)
  | .response s, .field call => do
    let (o,s) ← s.fieldStep call
    .ok (.field o,.response s)
  | .request s, .setMethod type => .ok (.done,.request (s.setMethod type))
  | .request s, .setURI uri => .ok (.done,.request (s.setURI uri))
  | .response s, .setResponseCode code => .ok (.done,.response (s.setResponseCode code.toInt))
  | .response s, .setMethod _ => .ok (.done,.response s)
  | .response s, .setURI _ => .ok (.done,.response s)
  | .request s, .setResponseCode _ => .ok (.done,.request s)
  | m, .getHeader => do
    let (header,m) ← m.getHeader
    .ok (.header header,m)

/-- The first line that belongs to the method and the URI, or to the response code. -/
def firstLine : HttpMessage → Option (List UInt8)
  | .request s => do
    let name ← gMethodTypeList[s.mMethod.value]?
    some (name ++ (text " " ++ (s.mUri.target ++ text " HTTP/1.1\r\n")))
  | .response s =>
    some (text "HTTP/1.1 " ++ (decimal s.mResponseCode ++ (text " " ++
      (getResponseString s.mResponseCode ++ crlf))))

/-- The header of a message: the first line, a line for each field and the empty line. -/
def header (m : HttpMessage) : Option (List UInt8) := do
  let line ← m.firstLine
  let fields ← fieldLines m.mFields
  some (line ++ (fields ++ crlf))

/-- `getHeader` returns the header of the message as it is now. -/
def Coherent (m : HttpMessage) : Prop :=
  ∃ bs m', m.header = some bs ∧ m.getHeader = .ok (cStr bs,m') ∧ m'.mHeaderStr = bs

/-- The message has a header: its method is one of the table and its fields have names. -/
def Headed (m : HttpMessage) : Prop :=
  (∀ s, m = .request s → s.mMethod ≠ .kMethodUnknown) ∧
    ∀ f ∈ m.mFields, ∃ name, getFieldTypeString f.mType = some name

/-- Either no header has been built since a field was added, or the call does not change it. -/
def Leaves (m : HttpMessage) (call : HeaderCall) : Prop :=
  m.mHeaderStr = [] ∨
    match m, call with
    | .request s, .setMethod type => type = s.mMethod
    | .request s, .setURI uri => uri.copyValues.target = s.mUri.target
    | .response s, .setResponseCode code => code.toInt = s.mResponseCode
    | m, .field (.removeField type) => ∀ f ∈ m.mFields, f.mType ≠ type
    | _, .field (.parseLine buffer) => ¬HttpResponse.HoldsKnownField buffer.val.contents
    | _, _ => True

/-- The objects that the constructors make. -/
def Constructed (m : HttpMessage) : Prop :=
  m = .request .init ∨ m = .response .init ∨
    ∃ uri type major minor date s, HttpRequest.ofURI uri type major minor date = .ok s ∧ m = .request s

/-- The messages reached by calls that leave the header that is kept, if there is one. -/
def ReachableLeaving (m : HttpMessage) : Prop :=
  Transition.Reachable Constructed (fun m m' => ∃ call o, m.Leaves call ∧ m.step call = .ok (o,m')) m

/-- The part that `HttpHeaderBase` keeps. -/
def base : HttpMessage → HttpResponse
  | .request s => s.base
  | .response s => s

def setBase : HttpMessage → HttpResponse → HttpMessage
  | .request s, b => .request (s.setBase b)
  | .response _, b => .response b

variable {m m' : HttpMessage} {call : HeaderCall} {o : HeaderOutput} {fields fields' : List HeaderField}
  {bs bs' : List UInt8}

theorem step_field (m : HttpMessage) (call : FieldCall) : m.step (.field call) = (do
    let (o,b) ← m.base.fieldStep call
    .ok (.field o,m.setBase b)) := by
  cases m with
  | request s =>
    simp only [step, HttpRequest.fieldStep, base, setBase]
    cases s.base.fieldStep call <;> rfl
  | response s => rfl

theorem firstLine_setBase {b : HttpResponse} (hcode : b.mResponseCode = m.base.mResponseCode) :
    (m.setBase b).firstLine = m.firstLine := by
  cases m with
  | request s => rfl
  | response s =>
    simp only [setBase, firstLine, hcode, base]

@[simp] theorem setBase_mFields (b : HttpResponse) : (m.setBase b).mFields = b.mFields := by
  cases m <;> rfl

@[simp] theorem setBase_mHeaderStr (b : HttpResponse) :
    (m.setBase b).mHeaderStr = b.mHeaderStr := by
  cases m <;> rfl

@[simp] theorem base_mFields (m : HttpMessage) : m.base.mFields = m.mFields := by cases m <;> rfl

@[simp] theorem base_mHeaderStr (m : HttpMessage) : m.base.mHeaderStr = m.mHeaderStr := by
  cases m <;> rfl

theorem fieldLines_append : fieldLines (fields ++ fields') = (do
    let bs ← fieldLines fields
    let bs' ← fieldLines fields'
    some (bs ++ bs')) := by
  induction fields with
  | nil => cases h : fieldLines fields' <;> simp [fieldLines, h]
  | cons f fields ih =>
    rw [List.cons_append, fieldLines, fieldLines, ih]
    cases getFieldTypeString f.mType <;> cases fieldLines fields <;> cases fieldLines fields' <;>
      simp

/-- A field more makes a longer text. -/
theorem fieldLines_insert {f : HeaderField} (h : fieldLines (fields ++ fields') = some bs)
    (h' : fieldLines (fields ++ f :: fields') = some bs') : bs ≠ bs' := by
  simp only [fieldLines_append, fieldLines, Option.bind_eq_bind, Option.bind_eq_some_iff,
    Option.some.injEq] at h h'
  obtain ⟨as,has,cs,hcs,rfl⟩ := h
  obtain ⟨as',has',ds,⟨name,-,cs',hcs',rfl⟩,rfl⟩ := h'
  obtain rfl := Option.some.inj (has.symm.trans has')
  obtain rfl := Option.some.inj (hcs.symm.trans hcs')
  intro heq
  have hlength := congrArg List.length heq
  have hcrlf : crlf.length = 2 := rfl
  simp only [List.length_append] at hlength
  omega

/-- The loop of `buildHeader` makes the lines of the fields, or finds a field without a name. -/
theorem buildFields_eq (fields : List HeaderField) : HttpResponse.buildFields fields =
    (fieldLines fields).elim (.error .nullDeref) .ok := by
  induction fields with
  | nil => rfl
  | cons f fields ih =>
    rw [HttpResponse.buildFields, fieldLines, ih]
    cases hname : getFieldTypeString f.mType with
    | none => rfl
    | some name =>
      cases fieldLines fields with
      | none => rfl
      | some rest => rfl

theorem fieldLines_ne_none : fieldLines fields ≠ none ↔
    ∀ f ∈ fields, ∃ name, getFieldTypeString f.mType = some name := by
  induction fields with
  | nil => simp [fieldLines]
  | cons f fields ih =>
    rw [List.forall_mem_cons, ← ih, fieldLines]
    cases getFieldTypeString f.mType with
    | none => simp
    | some name => cases fieldLines fields <;> simp

theorem method_listed (type : MethodType) :
    gMethodTypeList[type.value]? = none ↔ type = .kMethodUnknown := by
  cases type <;> decide

theorem header_ne_none : m.header ≠ none ↔ m.Headed := by
  unfold header Headed
  rw [← fieldLines_ne_none]
  cases m with
  | request s =>
    have hmethod := method_listed s.mMethod
    simp only [firstLine, mFields, HttpMessage.request.injEq, forall_eq', ne_eq, ← hmethod]
    cases gMethodTypeList[s.mMethod.value]? with
    | none => simp
    | some name => cases fieldLines s.mFields <;> simp
  | response s =>
    simp only [firstLine, mFields, reduceCtorEq, false_imp_iff, implies_true, true_and]
    cases fieldLines s.mFields <;> simp

/-- The response code is an int. -/
def Coded : HttpMessage → Prop
  | .request _ => True
  | .response s => -2^31 ≤ s.mResponseCode ∧ s.mResponseCode < 2^31

/-- Nothing is kept, or the header as it is now. -/
def Fresh (m : HttpMessage) : Prop := m.mHeaderStr = [] ∨ m.header = some m.mHeaderStr

/-- The first line of a request is as long as its text, which is never empty. -/
theorem buildFirstLine_request (s : HttpRequest) : s.buildFirstLine =
    (firstLine (.request s)).elim (.error .outOfBounds) fun line =>
      .ok (line.length,{ s with mUri := s.mUri.getQuery.2, mHeaderStr := line }) := by
  simp only [HttpRequest.buildFirstLine, firstLine]
  cases gMethodTypeList[s.mMethod.value]? with
  | none => rfl
  | some name =>
    have hline : (if s.mUri.getQuery.1 ≠ [] then
          name ++ text " " ++ asciiBytes s.mUri.getPath ++ text "?" ++ asciiBytes s.mUri.getQuery.1
        else name ++ text " " ++ asciiBytes s.mUri.getPath) ++ text " HTTP/1.1\r\n" =
        name ++ (text " " ++ (s.mUri.target ++ text " HTTP/1.1\r\n")) := by
      unfold URI.target
      split <;> simp only [List.append_assoc, List.append_nil]
    simp only [Option.bind_eq_bind, Option.bind_some, Option.elim_some, hline]

theorem firstLine_length {line : List UInt8} (h : m.firstLine = some line) : line.length ≠ 0 := by
  cases m with
  | request s =>
    simp only [firstLine, Option.bind_eq_bind, Option.bind_eq_some_iff, Option.some.injEq] at h
    obtain ⟨name,-,rfl⟩ := h
    have hend : (text " ").length = 1 := rfl
    simp only [List.length_append]
    omega
  | response s =>
    obtain rfl := Option.some.inj h
    have hend : (text " ").length = 1 := rfl
    simp only [List.length_append]
    omega

theorem buildFirstLine_response {s : HttpResponse} (hcode : (HttpMessage.response s).Coded)
    {line : List UInt8} (h : firstLine (.response s) = some line) :
    s.buildFirstLine = .ok (line.length,{ s with mHeaderStr := line }) := by
  have hlength := length_decimal_le hcode.1 hcode.2
  obtain rfl := Option.some.inj h
  unfold HttpResponse.buildFirstLine
  rw [if_neg (by rw [kStatusCodeSize]; omega)]
  have hspace : text " " = [32] := rfl
  simp only [hspace, List.append_assoc]

theorem target_getQuery (uri : URI) : uri.getQuery.2.target = uri.target := by
  have hbuilt : uri.getQuery.2 =
      { uri with mQueryString := uri.getQuery.1, mModifiedQuery := false } := URI.buildQuery_eq uri
  have hpath : uri.getQuery.2.getPath = uri.getPath := by
    rw [hbuilt]
    rfl
  have hquery : uri.getQuery.2.getQuery.1 = uri.getQuery.1 := by
    rw [hbuilt]
    rfl
  rw [URI.target, URI.target, hpath, hquery]

/-- With nothing kept, `getHeader` builds the header and changes no part of it. -/
theorem getHeader_build (hcode : m.Coded) (hnil : m.mHeaderStr = []) :
    (m.header = none → ∀ r, m.getHeader ≠ .ok r) ∧
    ∀ bs, m.header = some bs → ∃ m', m.getHeader = .ok (cStr bs,m') ∧ m'.mHeaderStr = bs ∧
      m'.header = some bs ∧ m'.mFields = m.mFields ∧ m'.Coded := by
  cases m with
  | request s =>
    have hnil' : s.mHeaderStr = [] := hnil
    have hbuild := buildFirstLine_request s
    unfold header
    simp only [getHeader, HttpRequest.getHeader, hnil', if_true, HttpRequest.buildHeader, hbuild]
    cases hline : firstLine (.request s) with
    | none => exact ⟨fun _ r => by simp,fun bs hbs => by cases hbs⟩
    | some line =>
      have hlength := firstLine_length hline
      simp only [Option.elim_some, ok_bind, if_neg hlength, buildFields_eq, mFields]
      cases hfields : fieldLines s.mFields with
      | none => exact ⟨fun _ r => by simp,fun bs hbs => by cases hbs⟩
      | some fields =>
        refine ⟨fun hnone => (by cases hnone),fun bs hbs => ?_⟩
        obtain rfl : line ++ (fields ++ crlf) = bs := Option.some.inj hbs
        rw [← List.append_assoc]
        refine ⟨_,rfl,rfl,?_,rfl,trivial⟩
        -- the URI keeps the query that it has built, and says the same with it
        simp only [firstLine, target_getQuery] at hline ⊢
        simp only [hline, hfields, Option.bind_eq_bind, Option.bind_some, List.append_assoc]
  | response s =>
    have hnil' : s.mHeaderStr = [] := hnil
    obtain ⟨line,hline⟩ : ∃ line, firstLine (.response s) = some line := ⟨_,rfl⟩
    have hlength := firstLine_length hline
    have hbuild := buildFirstLine_response hcode hline
    unfold header
    simp only [getHeader, HttpResponse.getHeader, hnil', if_true, HttpResponse.buildHeader, hbuild,
      ok_bind, if_neg hlength, buildFields_eq, mFields, hline]
    cases hfields : fieldLines s.mFields with
    | none => exact ⟨fun _ r => by simp,fun bs hbs => by cases hbs⟩
    | some fields =>
      refine ⟨fun hnone => (by cases hnone),fun bs hbs => ?_⟩
      obtain rfl : line ++ (fields ++ crlf) = bs := Option.some.inj hbs
      rw [← List.append_assoc]
      refine ⟨_,rfl,rfl,?_,rfl,hcode⟩
      simp only [firstLine] at hline ⊢
      simp only [hline, hfields, Option.bind_eq_bind, Option.bind_some, List.append_assoc]

theorem getHeader_kept (hsome : m.mHeaderStr ≠ []) : m.getHeader = .ok (cStr m.mHeaderStr,m) := by
  cases m with
  | request s =>
    have hsome' : s.mHeaderStr ≠ [] := hsome
    simp only [getHeader, HttpRequest.getHeader, if_neg hsome', ok_bind, mHeaderStr]
  | response s =>
    have hsome' : s.mHeaderStr ≠ [] := hsome
    simp only [getHeader, HttpResponse.getHeader, if_neg hsome', ok_bind, mHeaderStr]

/-- What is kept is returned, so it has to be the header; and what is built is the header. -/
theorem coherent_iff (hcode : m.Coded) : m.Coherent ↔ m.Headed ∧ m.Fresh := by
  rw [← header_ne_none]
  by_cases hnil : m.mHeaderStr = []
  · obtain ⟨hnone,hsome⟩ := getHeader_build hcode hnil
    constructor
    · rintro ⟨bs,m',hbs,-⟩
      exact ⟨by simp [hbs],.inl hnil⟩
    · rintro ⟨hheader,-⟩
      obtain ⟨bs,hbs⟩ := Option.ne_none_iff_exists'.mp hheader
      obtain ⟨m',hget,hstr,-⟩ := hsome bs hbs
      exact ⟨bs,m',hbs,hget,hstr⟩
  · have hget := getHeader_kept hnil
    constructor
    · rintro ⟨bs,m',hbs,hget',hstr⟩
      rw [hget, Except.ok.injEq, Prod.mk.injEq] at hget'
      obtain ⟨-,rfl⟩ := hget'
      exact ⟨by simp [hbs],.inr (by rw [hbs, hstr])⟩
    · rintro ⟨-,hfresh⟩
      have hbs := hfresh.resolve_left hnil
      exact ⟨_,m,hbs,hget,rfl⟩

/-- The part of a header behind the first line changes with its fields. -/
theorem header_inj {line : Option (List UInt8)} (hline : m.firstLine = line) (hline' : m'.firstLine = line)
    (h : m.header = some bs) (h' : m'.header = some bs) :
    ∃ fields, fieldLines m.mFields = some fields ∧ fieldLines m'.mFields = some fields := by
  simp only [header, hline, hline', Option.bind_eq_bind, Option.bind_eq_some_iff,
    Option.some.injEq] at h h'
  obtain ⟨first,hfirst,fields,hfields,rfl⟩ := h
  obtain ⟨first',hfirst',fields',hfields',heq⟩ := h'
  obtain rfl := Option.some.inj (hfirst.symm.trans hfirst')
  obtain rfl := List.append_cancel_right (List.append_cancel_left heq)
  exact ⟨fields',hfields,hfields'⟩

theorem addField_result (b : HttpResponse) (type : ℤ) (data : List UInt8) :
    (b.addField type data).2.mResponseCode = b.mResponseCode ∧
      ((b.addField type data).2.mHeaderStr = [] ∨ (b.addField type data).2 = b) := by
  unfold HttpResponse.addField
  split
  · exact ⟨rfl,.inr rfl⟩
  · exact ⟨rfl,.inl rfl⟩

theorem parseLine_result {b b' : HttpResponse} {buffer : CircularBuffer} (hbuffer : buffer.WellFormed)
    {length : ℤ} (h : b.parseLine buffer = .ok (length,b')) :
    b'.mResponseCode = b.mResponseCode ∧ b'.mHeaderStr = b.mHeaderStr ∧
      (¬HttpResponse.HoldsKnownField buffer.contents → b'.mFields = b.mFields) ∧
      (HttpResponse.HoldsKnownField buffer.contents → ∃ f, b'.mFields = b.mFields ++ [f]) := by
  have hholds : buffer.Holds buffer.mBufferSize buffer.contents := ⟨hbuffer,rfl,rfl⟩
  by_cases hfield : ∃ name, HttpResponse.HoldsField buffer.contents name
  · obtain ⟨name,hname⟩ := hfield
    obtain ⟨n,data,-,-,hparse⟩ := HttpResponse.parseLine_field (s := b) hholds hname
    obtain ⟨hunknown,hroom,hfull⟩ := b.storeField_eq name data
    rw [hparse] at h
    -- a field with an unknown name is dropped
    by_cases htype : getFieldType (cStr name) = kInvalidFieldType
    · rw [hunknown htype, ok_bind, Except.ok.injEq, Prod.mk.injEq] at h
      obtain ⟨-,rfl⟩ := h
      refine ⟨rfl,rfl,fun _ => rfl,?_⟩
      rintro ⟨name',hname',htype'⟩
      rw [hname'.unique hname] at htype'
      exact absurd htype htype'
    · have hknown : HttpResponse.HoldsKnownField buffer.contents := ⟨name,hname,htype⟩
      by_cases hfits : b.mFields.length < kMaxFields
      · rw [hroom htype hfits, ok_bind, Except.ok.injEq, Prod.mk.injEq] at h
        obtain ⟨-,rfl⟩ := h
        exact ⟨rfl,rfl,fun hnot => absurd hknown hnot,fun _ => ⟨_,rfl⟩⟩
      · -- a full table faults
        rw [hfull htype hfits] at h
        cases h
  · rw [HttpResponse.parseLine_none hholds hfield, Except.ok.injEq, Prod.mk.injEq] at h
    obtain ⟨-,rfl⟩ := h
    refine ⟨rfl,rfl,fun _ => rfl,?_⟩
    rintro ⟨name,hname,-⟩
    exact absurd ⟨name,hname⟩ hfield

/-- What a call of the base class does to the fields and to the header that is kept. -/
def FieldResult (b : HttpResponse) (b' : HttpResponse) : FieldCall → Prop
  | .removeField type => b'.mHeaderStr = b.mHeaderStr ∧
      b'.mFields = b.mFields.eraseP (fun f => f.mType = type)
  | .parseLine buffer => b'.mHeaderStr = b.mHeaderStr ∧
      (¬HttpResponse.HoldsKnownField buffer.val.contents → b'.mFields = b.mFields) ∧
      (HttpResponse.HoldsKnownField buffer.val.contents → ∃ f, b'.mFields = b.mFields ++ [f])
  | _ => b'.mHeaderStr = [] ∨ b' = b

theorem fieldStep_result {b b' : HttpResponse} (hb : b.Bounded) {call : FieldCall} {o : FieldOutput}
    (h : b.fieldStep call = .ok (o,b')) :
    b'.mResponseCode = b.mResponseCode ∧ b'.Bounded ∧ FieldResult b b' call := by
  have hbounded : b'.Bounded := by
    obtain ⟨o',b'',h',hb''⟩ := HttpResponse.fieldStep_bounded hb call
      (HttpResponse.fits_of_fieldStep hb h)
    rw [h, Except.ok.injEq, Prod.mk.injEq] at h'
    rw [h'.2]
    exact hb''
  -- a number is written out and added as a text
  cases call with
  | addField type data =>
    obtain ⟨hcode,hresult⟩ := addField_result b type data
    obtain ⟨-,rfl⟩ := Prod.mk.inj (Except.ok.inj h)
    exact ⟨hcode,hbounded,hresult⟩
  | addFieldDecimal type data =>
    obtain ⟨hcode,hresult⟩ := addField_result b type (decimal data.toInt)
    simp only [HttpResponse.fieldStep, HttpResponse.addFieldDecimal_eq, ok_bind] at h
    obtain ⟨-,rfl⟩ := Prod.mk.inj (Except.ok.inj h)
    exact ⟨hcode,hbounded,hresult⟩
  | addFieldHex type data =>
    obtain ⟨hcode,hresult⟩ := addField_result b type (hexadecimal data.toNat)
    simp only [HttpResponse.fieldStep, HttpResponse.addFieldHex_eq, ok_bind] at h
    obtain ⟨-,rfl⟩ := Prod.mk.inj (Except.ok.inj h)
    exact ⟨hcode,hbounded,hresult⟩
  | addFieldDecimal64 type data =>
    obtain ⟨hcode,hresult⟩ := addField_result b type (decimal data.toInt)
    simp only [HttpResponse.fieldStep, HttpResponse.addFieldDecimal64_eq, ok_bind] at h
    obtain ⟨-,rfl⟩ := Prod.mk.inj (Except.ok.inj h)
    exact ⟨hcode,hbounded,hresult⟩
  | removeField type =>
    simp only [HttpResponse.fieldStep, HttpResponse.removeField_eq hb, ok_bind] at h
    split at h
    · obtain ⟨-,rfl⟩ := Prod.mk.inj (Except.ok.inj h)
      exact ⟨rfl,hbounded,rfl,rfl⟩
    · rename_i hnone
      obtain ⟨-,rfl⟩ := Prod.mk.inj (Except.ok.inj h)
      refine ⟨rfl,hbounded,rfl,?_⟩
      rw [List.eraseP_of_forall_not]
      intro f hf hmatch
      exact hnone (List.any_eq_true.mpr ⟨f,hf,hmatch⟩)
  | parseLine buffer =>
    obtain ⟨⟨length,b''⟩,hparse,h⟩ := bind_eq_ok.mp h
    obtain ⟨-,rfl⟩ := Prod.mk.inj (Except.ok.inj h)
    obtain ⟨hcode,hresult⟩ := parseLine_result buffer.property hparse
    exact ⟨hcode,hbounded,hresult⟩

/-- Everything that holds of a message whose calls were such that its header is up to date. -/
structure Kept (m : HttpMessage) : Prop where
  bounded : m.mFields.length ≤ kMaxFields
  coded : m.Coded
  fresh : m.Fresh

theorem coded_setBase {b : HttpResponse} (hm : m.Coded) (hcode : b.mResponseCode = m.base.mResponseCode) :
    (m.setBase b).Coded := by
  cases m with
  | request s => trivial
  | response s =>
    simp only [setBase, Coded, hcode, base]
    exact hm

theorem leaves_removeField {type : ℤ} : m.Leaves (.field (.removeField type)) ↔
    m.mHeaderStr = [] ∨ ∀ f ∈ m.mFields, f.mType ≠ type := by
  cases m <;> exact Iff.rfl

theorem leaves_parseLine {buffer : { buffer : CircularBuffer // buffer.WellFormed }} :
    m.Leaves (.field (.parseLine buffer)) ↔
      m.mHeaderStr = [] ∨ ¬HttpResponse.HoldsKnownField buffer.val.contents := by
  cases m <;> exact Iff.rfl

/-- A call of the base class leaves the header up to date when it drops it, or has no effect. -/
theorem Kept.field (hm : m.Kept) {call : FieldCall} (h : m.step (.field call) = .ok (o,m')) :
    m'.mFields.length ≤ kMaxFields ∧ m'.Coded ∧ (m'.Fresh ↔ m.Leaves (.field call)) := by
  rw [step_field] at h
  obtain ⟨⟨o',b'⟩,hstep,h⟩ := bind_eq_ok.mp h
  obtain ⟨-,rfl⟩ := Prod.mk.inj (Except.ok.inj h)
  obtain ⟨hcode,hbounded,hresult⟩ := fieldStep_result (b := m.base)
    (by rw [HttpResponse.Bounded, base_mFields]; exact hm.bounded) hstep
  have hline := firstLine_setBase hcode
  refine ⟨by rw [setBase_mFields]; exact hbounded,coded_setBase hm.coded hcode,?_⟩
  -- with the header still kept, the fields have to be the same
  have hsame : b'.mHeaderStr = m.mHeaderStr → b'.mFields = m.mFields → (m.setBase b').Fresh := by
    intro hstr hfields
    unfold Fresh header
    rw [setBase_mHeaderStr, setBase_mFields, hline, hstr, hfields]
    exact hm.fresh
  have hlines : b'.mHeaderStr = m.mHeaderStr → m.mHeaderStr ≠ [] → (m.setBase b').Fresh →
      ∃ fields, fieldLines m.mFields = some fields ∧ fieldLines b'.mFields = some fields := by
    intro hstr hne hfresh
    have hold := hm.fresh.resolve_left hne
    have hnew := hfresh.resolve_left (by rw [setBase_mHeaderStr, hstr]; exact hne)
    rw [setBase_mHeaderStr, hstr] at hnew
    obtain ⟨fields,hfields,hfields'⟩ := header_inj rfl hline hold hnew
    rw [setBase_mFields] at hfields'
    exact ⟨fields,hfields,hfields'⟩
  have hadd : b'.mHeaderStr = [] ∨ b' = m.base → (m.setBase b').Fresh := by
    rintro (hnil | rfl)
    · exact .inl (by rw [setBase_mHeaderStr, hnil])
    · exact hsame (base_mHeaderStr m) (base_mFields m)
  cases call with
  | removeField type =>
    obtain ⟨hstr,hfields⟩ := hresult
    rw [base_mHeaderStr] at hstr
    rw [base_mFields] at hfields
    rw [leaves_removeField]
    constructor
    · intro hfresh
      by_contra hleft
      obtain ⟨hne,hthere⟩ := not_or.mp hleft
      obtain ⟨fields,hold,hnew⟩ := hlines hstr hne hfresh
      -- one field of the type is missing from the new text
      obtain ⟨f,hf,htype⟩ : ∃ f ∈ m.mFields, f.mType = type := by
        by_contra hnone
        exact hthere fun f hf htype => hnone ⟨f,hf,htype⟩
      obtain ⟨g,ls,rs,-,-,hsplit,herase⟩ :=
        List.exists_of_eraseP (p := fun f => decide (f.mType = type)) hf (decide_eq_true htype)
      rw [hfields, herase] at hnew
      rw [hsplit] at hold
      exact fieldLines_insert hnew hold rfl
    · rintro (hnil | hnone)
      · exact .inl (by rw [setBase_mHeaderStr, hstr, hnil])
      · refine hsame hstr ?_
        rw [hfields, List.eraseP_of_forall_not]
        intro f hf
        exact fun htype => hnone f hf (of_decide_eq_true htype)
  | parseLine buffer =>
    obtain ⟨hstr,hunknown,hknown⟩ := hresult
    rw [base_mHeaderStr] at hstr
    rw [base_mFields] at hunknown hknown
    rw [leaves_parseLine]
    constructor
    · intro hfresh
      by_contra hleft
      obtain ⟨hne,hholds⟩ := not_or.mp hleft
      obtain ⟨fields,hold,hnew⟩ := hlines hstr hne hfresh
      obtain ⟨f,hf⟩ := hknown (not_not.mp hholds)
      rw [hf] at hnew
      rw [← List.append_nil m.mFields] at hold
      exact fieldLines_insert hold hnew rfl
    · rintro (hnil | hnone)
      · exact .inl (by rw [setBase_mHeaderStr, hstr, hnil])
      · exact hsame hstr (hunknown hnone)
  | addField | addFieldDecimal | addFieldHex | addFieldDecimal64 =>
    -- a field that is added drops the header, or there is no room for it
    refine iff_of_true (hadd hresult) ?_
    cases m <;> exact .inr trivial

/-- A setter keeps the header, which is up to date exactly if the first line is the same. -/
theorem Kept.setter (hm : m.Kept) (hstr : m'.mHeaderStr = m.mHeaderStr) (hfields : m'.mFields = m.mFields) :
    m'.Fresh ↔ m.mHeaderStr = [] ∨ m'.firstLine = m.firstLine := by
  constructor
  · intro hfresh
    by_cases hnil : m.mHeaderStr = []
    · exact .inl hnil
    · have hold := hm.fresh.resolve_left hnil
      have hnew := hfresh.resolve_left (by rw [hstr]; exact hnil)
      rw [hstr] at hnew
      simp only [header, hfields, Option.bind_eq_bind, Option.bind_eq_some_iff, Option.some.injEq]
        at hold hnew
      obtain ⟨line,hline,fields,hlines,heq⟩ := hold
      obtain ⟨line',hline',fields',hlines',heq'⟩ := hnew
      obtain rfl := Option.some.inj (hlines.symm.trans hlines')
      rw [hline, hline', List.append_cancel_right (heq'.trans heq.symm)]
      exact .inr rfl
  · rintro (hnil | hline)
    · exact .inl (hstr.trans hnil)
    · unfold Fresh header
      rw [hstr, hfields, hline]
      exact hm.fresh

/-- The names of the methods are different. -/
theorem method_inj {type type' : MethodType} (hknown : type ≠ .kMethodUnknown)
    (h : gMethodTypeList[type'.value]? = gMethodTypeList[type.value]?) : type' = type := by
  cases type <;> cases type' <;> first | rfl | (exfalso; revert h hknown; decide)

/-- The digits of a number end at the space behind them. -/
theorem decimal_inj {n k : ℤ} (hn : -2^31 ≤ n ∧ n < 2^31) (hk : -2^31 ≤ k ∧ k < 2^31)
    {as bs : List UInt8} (h : decimal n ++ (text " " ++ as) = decimal k ++ (text " " ++ bs)) : n = k := by
  have hdigits : ∀ (i : ℤ) (cs : List UInt8),
      (decimal i ++ (text " " ++ cs)).takeWhile (· ≠ 32) = decimal i := by
    intro i cs
    rw [List.takeWhile_append_of_pos fun b hb => decide_eq_true (HttpResponse.mem_decimal_plain hb).2.2.2]
    have hspace : (text " " ++ cs).takeWhile (· ≠ 32) = [] := rfl
    rw [hspace, List.append_nil]
  have hsame := congrArg (List.takeWhile (· ≠ (32 : UInt8))) h
  rw [hdigits, hdigits] at hsame
  have hvalue := congrArg (fun bs => (strtol bs).value) hsame
  simpa only [strtol_decimal hn.1 hn.2, strtol_decimal hk.1 hk.2] using hvalue

/-- The first line of a request as its method, its target and what is the same in all of them. -/
theorem firstLine_request_inj {s s' : HttpRequest} (hknown : s.mMethod ≠ .kMethodUnknown)
    (h : firstLine (.request s') = firstLine (.request s)) :
    ∃ name name', gMethodTypeList[s.mMethod.value]? = some name ∧
      gMethodTypeList[s'.mMethod.value]? = some name' ∧
      name' ++ (text " " ++ (s'.mUri.target ++ text " HTTP/1.1\r\n")) =
        name ++ (text " " ++ (s.mUri.target ++ text " HTTP/1.1\r\n")) := by
  simp only [firstLine, Option.bind_eq_bind] at h
  cases hname : gMethodTypeList[s.mMethod.value]? with
  | none => exact absurd ((method_listed _).mp hname) hknown
  | some name =>
    rw [hname, Option.bind_some] at h
    obtain ⟨name',hname',heq⟩ := Option.bind_eq_some_iff.mp h
    exact ⟨name,name',rfl,hname',Option.some.inj heq⟩

theorem Kept.step (hm : m.Kept) (h : m.step call = .ok (o,m')) :
    m'.mFields.length ≤ kMaxFields ∧ m'.Coded ∧ (m'.Fresh ↔ m.Leaves call) := by
  -- the method that is in a kept header has a name
  have hknown : m.mHeaderStr ≠ [] → ∀ s, m = .request s → s.mMethod ≠ .kMethodUnknown := by
    intro hne
    have hheader := hm.fresh.resolve_left hne
    exact (header_ne_none.mp (by rw [hheader]; exact Option.some_ne_none _)).1
  cases call with
  | field call => exact hm.field h
  | setMethod type =>
    cases m with
    | request s =>
      obtain ⟨-,rfl⟩ := Prod.mk.inj (Except.ok.inj h)
      have hiff : Fresh (.request (s.setMethod type)) ↔ _ := hm.setter rfl rfl
      refine ⟨hm.bounded,trivial,hiff.trans (or_congr_right' fun hne => ?_)⟩
      constructor
      · intro hline
        obtain ⟨name,name',hname,hname',heq⟩ := firstLine_request_inj (hknown hne s rfl) hline
        apply method_inj (hknown hne s rfl)
        rw [hname]
        exact hname'.trans (congrArg some (List.append_cancel_right heq))
      · rintro rfl
        rfl
    | response s =>
      obtain ⟨-,rfl⟩ := Prod.mk.inj (Except.ok.inj h)
      exact ⟨hm.bounded,hm.coded,fun _ => .inr trivial,fun _ => hm.fresh⟩
  | setURI uri =>
    cases m with
    | request s =>
      obtain ⟨-,rfl⟩ := Prod.mk.inj (Except.ok.inj h)
      have hiff : Fresh (.request (s.setURI uri)) ↔ _ := hm.setter rfl rfl
      refine ⟨hm.bounded,trivial,hiff.trans (or_congr_right' fun hne => ?_)⟩
      constructor
      · intro hline
        obtain ⟨name,name',hname,hname',heq⟩ := firstLine_request_inj (hknown hne s rfl) hline
        obtain rfl : name = name' := Option.some.inj (hname.symm.trans hname')
        exact List.append_cancel_right (List.append_cancel_left (List.append_cancel_left heq))
      · intro htarget
        simp only [firstLine, HttpRequest.setURI, htarget]
    | response s =>
      obtain ⟨-,rfl⟩ := Prod.mk.inj (Except.ok.inj h)
      exact ⟨hm.bounded,hm.coded,fun _ => .inr trivial,fun _ => hm.fresh⟩
  | setResponseCode code =>
    cases m with
    | request s =>
      obtain ⟨-,rfl⟩ := Prod.mk.inj (Except.ok.inj h)
      exact ⟨hm.bounded,hm.coded,fun _ => .inr trivial,fun _ => hm.fresh⟩
    | response s =>
      obtain ⟨-,rfl⟩ := Prod.mk.inj (Except.ok.inj h)
      have hcode : -2^31 ≤ code.toInt ∧ code.toInt < 2^31 := ⟨code.le_toInt,code.toInt_lt⟩
      have hiff : Fresh (.response (s.setResponseCode code.toInt)) ↔ _ := hm.setter rfl rfl
      refine ⟨hm.bounded,hcode,hiff.trans (or_congr_right' fun _ => ?_)⟩
      constructor
      · intro hline
        exact decimal_inj hcode hm.coded (List.append_cancel_left (Option.some.inj hline))
      · intro hsame
        rw [HttpResponse.setResponseCode, hsame]
  | getHeader =>
    have hleaves : m.Leaves .getHeader := by cases m <;> exact .inr trivial
    obtain ⟨⟨bs,m₁⟩,hget,h⟩ : ∃ r, m.getHeader = .ok r ∧
        (.ok (.header r.1,r.2) : Exec (HeaderOutput × HttpMessage)) = .ok (o,m') := by
      cases m <;> exact bind_eq_ok.mp h
    obtain ⟨-,rfl⟩ := Prod.mk.inj (Except.ok.inj h)
    by_cases hnil : m.mHeaderStr = []
    · obtain ⟨hnone,hsome⟩ := getHeader_build hm.coded hnil
      cases hheader : m.header with
      | none => exact absurd hget (hnone hheader _)
      | some text =>
        obtain ⟨m₂,hget₂,hstr,hheader₂,hfields,hcoded⟩ := hsome text hheader
        rw [hget, Except.ok.injEq, Prod.mk.injEq] at hget₂
        obtain ⟨-,rfl⟩ := hget₂
        refine ⟨by rw [hfields]; exact hm.bounded,hcoded,fun _ => hleaves,fun _ => .inr ?_⟩
        rw [hheader₂, hstr]
    · rw [getHeader_kept hnil, Except.ok.injEq, Prod.mk.injEq] at hget
      obtain ⟨-,rfl⟩ := hget
      exact ⟨hm.bounded,hm.coded,fun _ => hleaves,fun _ => hm.fresh⟩

/-- The constructors keep no header. -/
theorem Constructed.kept (h : m.Constructed) : m.Kept := by
  rcases h with rfl | rfl | ⟨uri,type,major,minor,date,s,hs,rfl⟩
  · exact ⟨Nat.zero_le _,trivial,.inl rfl⟩
  · exact ⟨Nat.zero_le _,⟨by decide,by decide⟩,.inl rfl⟩
  · obtain ⟨host,hhost,hs⟩ := bind_eq_ok.mp hs
    obtain rfl := Except.ok.inj hs
    exact ⟨(show 2 ≤ 32 by decide),trivial,.inl rfl⟩

theorem ReachableLeaving.kept (hr : m.ReachableLeaving) : m.Kept := by
  refine Transition.Reachable.invariant Kept (fun m h => h.kept) ?_ hr
  rintro m m' hm ⟨call,o,hleaves,hstep⟩
  obtain ⟨hbounded,hcoded,hfresh⟩ := hm.step hstep
  exact ⟨hbounded,hcoded,hfresh.mpr hleaves⟩

/-- In a run whose calls leave the header that is kept, `getHeader` returns the header of every
message that has one; and after one more call it does exactly if that call leaves the header too. -/
theorem getHeader_coherent_iff (hr : m.ReachableLeaving) : (m.Coherent ↔ m.Headed) ∧
    ∀ call o m', m.step call = .ok (o,m') → (m'.Coherent ↔ m'.Headed ∧ m.Leaves call) := by
  have hm := hr.kept
  constructor
  · rw [coherent_iff hm.coded]
    exact and_iff_left hm.fresh
  · intro call o m' hstep
    obtain ⟨-,hcoded,hfresh⟩ := hm.step hstep
    rw [coherent_iff hcoded, hfresh]

/-- The code is set once the cached header is gone, and set again to what it is. The field whose line
is in the header is not to be removed then. -/
def edits : List HeaderCall :=
  [.getHeader,.field (.addFieldDecimal kFieldContentLength 5),.setResponseCode 404,.getHeader,
    .setResponseCode 404]

theorem getHeader_coherent_iff_edited : ∃ outs m, run step (.response .init) edits = .ok (outs,m) ∧
    outs.map HeaderOutput.shown = [header (.response .init),none,none,m.header,none] ∧
    m.mHeaderStr ≠ [] ∧ m.Coherent ∧
    ∀ o m', m.step (.field (.removeField kFieldContentLength)) = .ok (o,m') → ¬m'.Coherent := by
  have hguard : Guarded step Leaves (.response .init) edits :=
    .cons rfl (.inl rfl) (.cons rfl (.inr trivial) (.cons rfl (.inl rfl) (.cons rfl (.inl rfl)
      (.cons rfl (.inr rfl) trivial))))
  have hshown : (run step (.response .init) edits).map (fun r => decide (
      r.1.map HeaderOutput.shown = [header (.response .init),none,none,r.2.header,none] ∧
      r.2.mHeaderStr ≠ [] ∧ r.2.header ≠ none ∧
      r.2.mFields = [⟨kFieldContentLength,text "5"⟩])) = .ok true := by
    decide +kernel
  cases hrun : run step (.response .init) edits with
  | error e =>
    rw [hrun] at hshown
    cases hshown
  | ok r =>
    rw [hrun] at hshown
    obtain ⟨hshown,hbuilt,hheader,hfields⟩ := of_decide_eq_true (Except.ok.inj hshown)
    have hreached : r.2.ReachableLeaving := Transition.Reachable.run
      (fun _ a o _ hleaves hstep => ⟨a,o,hleaves,hstep⟩) (.start (.inr (.inl rfl))) hguard hrun
    obtain ⟨hnow,hnext⟩ := getHeader_coherent_iff hreached
    refine ⟨r.1,r.2,rfl,hshown,hbuilt,hnow.mpr (header_ne_none.mp hheader),?_⟩
    intro o m' hstep hcoherent
    rcases ((hnext _ o m' hstep).mp hcoherent).2 with hnone | hkept
    · exact hbuilt hnone
    · have hkept : ∀ f ∈ r.2.mFields, f.mType ≠ kFieldContentLength := by
        cases hm : r.2 <;> simpa only [hm] using hkept
      rw [hfields] at hkept
      exact hkept _ List.mem_cons_self rfl

/-- A response whose header is built, and whose code is set to 404 then, still returns the header
with 200. -/
theorem getHeader_stale : ∃ outs m', run step (.response .init)
      [.getHeader,.setResponseCode 404,.getHeader] = .ok (outs,m') ∧
    outs.map HeaderOutput.shown = [header (.response .init),none,header (.response .init)] ∧
    m'.header ≠ header (.response .init) ∧ ¬m'.Coherent := by
  refine ⟨_,_,rfl,?_,?_,?_⟩
  · decide +kernel
  · decide +kernel
  · rw [coherent_iff (by exact ⟨by decide,by decide⟩)]
    rintro ⟨-,hfresh⟩
    revert hfresh
    unfold Fresh
    decide +kernel

end HttpMessage

end JhCommon
