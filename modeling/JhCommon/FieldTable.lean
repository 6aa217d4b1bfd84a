import JhCommon.HeaderLines
import JhCommon.Transition

/-! The table of the fields of a header, to which `addField` and `parseLine` append. -/
namespace JhCommon
open CircularBuffer RingMemory Transition

/-- The size of the buffers that numbers are written to. -/
def kNumberSize : ℕ := 32

/-- What `sprintf` has written, with its terminator, to a buffer of that size. -/
def printed (bs : List UInt8) : Exec (List UInt8) :=
  if bs.length < kNumberSize then .ok bs else .error .outOfBounds

/-- What `%x` writes. -/
def hexadecimal (n : ℕ) : List UInt8 := asciiBytes (Nat.toDigits 16 n)

namespace HttpResponse

def addFieldDecimal (s : HttpResponse) (type : ℤ) (data : Int32) : Exec (Bool × HttpResponse) := do
  let buffer ← printed (decimal data.toInt)
  .ok (s.addField type buffer)

def addFieldHex (s : HttpResponse) (type : ℤ) (data : UInt32) : Exec (Bool × HttpResponse) := do
  let buffer ← printed (hexadecimal data.toNat)
  .ok (s.addField type buffer)

def addFieldDecimal64 (s : HttpResponse) (type : ℤ) (data : Int64) : Exec (Bool × HttpResponse) := do
  let buffer ← printed (decimal data.toInt)
  .ok (s.addField type buffer)

/-- An access to mFields. -/
def fieldAt (s : HttpResponse) (i : ℕ) : Exec HeaderField :=
  if i < kMaxFields then .ok (s.mFields.getD i ⟨0,[]⟩) else .error .outOfBounds

/-- The inner loop of `removeField`, which moves n fields down to index j and behind it. -/
def moveFieldsFrom : ℕ → ℕ → HttpResponse → Exec HttpResponse
  | 0, _, s => .ok s
  | n+1, j, s => do
    let f ← s.fieldAt (j+1)
    moveFieldsFrom n (j+1) { s with mFields := s.mFields.set j f }

/-- The loop of `removeField` at index i, with n fields to come. -/
def removeFieldFrom (type : ℤ) : ℕ → ℕ → HttpResponse → Exec (ErrCode × HttpResponse)
  | 0, _, s => .ok (.kNotFound,s)
  | n+1, i, s => do
    let f ← s.fieldAt i
    if f.mType = type then do
      let s ← moveFieldsFrom n i s
      -- the last one is cleared
      let _ ← s.fieldAt (s.mFields.length-1)
      .ok (.kNoError,{ s with mFields := s.mFields.dropLast })
    else removeFieldFrom type n (i+1) s

def removeField (s : HttpResponse) (type : ℤ) : Exec (ErrCode × HttpResponse) :=
  removeFieldFrom type s.mFields.length 0 s

end HttpResponse

/-- The calls that change the table. -/
inductive FieldCall
  | addField (type : ℤ) (data : List UInt8)
  | addFieldDecimal (type : ℤ) (data : Int32)
  | addFieldHex (type : ℤ) (data : UInt32)
  | addFieldDecimal64 (type : ℤ) (data : Int64)
  | removeField (type : ℤ)
  | parseLine (buffer : { buffer : CircularBuffer // buffer.WellFormed })

inductive FieldOutput
  | added (done : Bool)
  | removed (err : ErrCode)
  | parsed (length : ℤ)

namespace HttpResponse

def fieldStep (s : HttpResponse) : FieldCall → Exec (FieldOutput × HttpResponse)
  | .addField type data =>
    let (done,s) := s.addField type data
    .ok (.added done,s)
  | .addFieldDecimal type data => do
    let (done,s) ← s.addFieldDecimal type data
    .ok (.added done,s)
  | .addFieldHex type data => do
    let (done,s) ← s.addFieldHex type data
    .ok (.added done,s)
  | .addFieldDecimal64 type data => do
    let (done,s) ← s.addFieldDecimal64 type data
    .ok (.added done,s)
  | .removeField type => do
    let (err,s) ← s.removeField type
    .ok (.removed err,s)
  | .parseLine buffer => do
    let (length,s) ← s.parseLine buffer.val
    .ok (.parsed length,s)

variable {s : HttpResponse} {type : ℤ}

theorem printed_decimal {n : ℤ} (hn : n.natAbs < 10^20) : printed (decimal n) = .ok (decimal n) := by
  have hlen := length_decimal_le_of_lt (by decide) hn
  exact if_pos (by rw [kNumberSize]; omega)

theorem printed_hexadecimal {n : ℕ} (hn : n < 16^20) :
    printed (hexadecimal n) = .ok (hexadecimal n) := by
  have hlen : (hexadecimal n).length ≤ 20 := by
    rw [hexadecimal, asciiBytes, List.length_map]
    exact (Nat.length_toDigits_le_iff (by decide) (by decide)).mpr hn
  exact if_pos (by rw [kNumberSize]; omega)

theorem addFieldDecimal_eq (s : HttpResponse) (type : ℤ) (data : Int32) :
    s.addFieldDecimal type data = .ok (s.addField type (decimal data.toInt)) := by
  have hlow := data.le_toInt
  have hhigh := data.toInt_lt
  rw [addFieldDecimal, printed_decimal (by omega), ok_bind]

theorem addFieldHex_eq (s : HttpResponse) (type : ℤ) (data : UInt32) :
    s.addFieldHex type data = .ok (s.addField type (hexadecimal data.toNat)) := by
  have hhigh := data.toNat_lt
  rw [addFieldHex, printed_hexadecimal (by omega), ok_bind]

theorem addFieldDecimal64_eq (s : HttpResponse) (type : ℤ) (data : Int64) :
    s.addFieldDecimal64 type data = .ok (s.addField type (decimal data.toInt)) := by
  have hlow := data.le_toInt
  have hhigh := data.toInt_lt
  rw [addFieldDecimal64, printed_decimal (by omega), ok_bind]

theorem fieldAt_eq {i : ℕ} (hi : i < s.mFields.length) (hmax : s.mFields.length ≤ kMaxFields) :
    s.fieldAt i = .ok s.mFields[i] := by
  rw [fieldAt, if_pos (by omega), List.getD_eq_getElem?_getD, List.getElem?_eq_getElem hi]
  rfl

/-- The fields behind j come one down, and the last one is there twice. -/
theorem moveFieldsFrom_eq {n j : ℕ} (hn : j+n+1 = s.mFields.length)
    (hmax : s.mFields.length ≤ kMaxFields) : ∃ f,
    moveFieldsFrom n j s = .ok { s with mFields := s.mFields.eraseIdx j ++ [f] } := by
  induction n generalizing j s with
  | zero =>
    have hj : j < s.mFields.length := by omega
    have hlast : s.mFields.eraseIdx j ++ [s.mFields[j]] = s.mFields := by
      rw [List.eraseIdx_eq_take_drop_succ, List.drop_of_length_le (by omega), List.append_nil,
        List.take_append_getElem, List.take_of_length_le (by omega)]
    exact ⟨s.mFields[j],by rw [hlast]; rfl⟩
  | succ n ih =>
    have hj : j+1 < s.mFields.length := by omega
    have hset : (s.mFields.set j s.mFields[j+1]).eraseIdx (j+1) = s.mFields.eraseIdx j := by
      have hstart : (s.mFields.take j).length = j := by
        rw [List.length_take]
        omega
      rw [List.eraseIdx_eq_take_drop_succ, List.eraseIdx_eq_take_drop_succ, List.take_set,
        List.drop_set_of_lt (by omega), List.take_succ_eq_append_getElem (by omega),
        List.set_append_right _ _ hstart.le, hstart, Nat.sub_self, List.set_cons_zero,
        List.append_assoc, List.singleton_append, ← List.drop_eq_getElem_cons hj]
    obtain ⟨f,hf⟩ := ih (j := j+1) (s := { s with mFields := s.mFields.set j s.mFields[j+1] })
      (by rw [List.length_set]; omega) (by rw [List.length_set]; exact hmax)
    refine ⟨f,?_⟩
    rw [moveFieldsFrom, fieldAt_eq hj hmax, ok_bind, hf]
    simp only [hset]

/-- The loop removes the first field of the type that it comes to. -/
theorem removeFieldFrom_eq {n i : ℕ} (hn : i+n = s.mFields.length)
    (hmax : s.mFields.length ≤ kMaxFields) : removeFieldFrom type n i s = .ok
      (if (s.mFields.drop i).any (fun f => f.mType = type) = true then
        (.kNoError,{ s with
          mFields := s.mFields.take i ++ (s.mFields.drop i).eraseP (fun f => f.mType = type) })
      else (.kNotFound,s)) := by
  induction n generalizing i with
  | zero =>
    rw [List.drop_of_length_le (by omega)]
    rfl
  | succ n ih =>
    have hi : i < s.mFields.length := by omega
    rw [removeFieldFrom, fieldAt_eq hi hmax, ok_bind, List.drop_eq_getElem_cons hi, List.any_cons]
    by_cases htype : s.mFields[i].mType = type
    · obtain ⟨f,hmove⟩ := moveFieldsFrom_eq (j := i) (n := n) (by omega) hmax
      have hlast : ((s.mFields.eraseIdx i ++ [f]).length-1) < (s.mFields.eraseIdx i ++ [f]).length := by
        simp
      have hmax' : (s.mFields.eraseIdx i ++ [f]).length ≤ kMaxFields := by
        rw [List.length_append, List.length_eraseIdx_of_lt hi, List.length_singleton]
        omega
      rw [if_pos htype, hmove, ok_bind, fieldAt_eq hlast hmax', ok_bind,
        List.eraseP_cons_of_pos (by simpa using htype)]
      simp [htype, List.eraseIdx_eq_take_drop_succ]
    · rw [if_neg htype, ih (by omega), List.eraseP_cons_of_neg (by simpa using htype),
        List.take_succ_eq_append_getElem hi, List.append_assoc, List.singleton_append,
        decide_eq_false htype, Bool.false_or]

/-- The first field of the type is taken out of the table. -/
theorem removeField_eq (hmax : s.mFields.length ≤ kMaxFields) (type : ℤ) :
    s.removeField type = .ok
      (if s.mFields.any (fun f => f.mType = type) = true then
        (.kNoError,{ s with mFields := s.mFields.eraseP (fun f => f.mType = type) })
      else (.kNotFound,s)) := removeFieldFrom_eq (Nat.zero_add _) hmax

/-- No more fields than there is room for. -/
def Bounded (s : HttpResponse) : Prop := s.mFields.length ≤ kMaxFields

/-- The bytes begin with a field that will be stored. -/
def HoldsKnownField (q : List UInt8) : Prop :=
  ∃ name, HoldsField q name ∧ getFieldType (cStr name) ≠ kInvalidFieldType

/-- A line that will be stored comes to a table that is not full. -/
def Fits (s : HttpResponse) : FieldCall → Prop
  | .parseLine buffer => HoldsKnownField buffer.val.contents → s.mFields.length < kMaxFields
  | _ => True

theorem Bounded.addField (hs : s.Bounded) (type : ℤ) (data : List UInt8) :
    (s.addField type data).2.Bounded := by
  unfold HttpResponse.addField
  by_cases hfull : kMaxFields ≤ s.mFields.length
  · rw [if_pos hfull]
    exact hs
  · rw [if_neg hfull]
    show (s.mFields ++ [_]).length ≤ kMaxFields
    rw [List.length_append, List.length_singleton]
    omega

theorem Bounded.removeField (hs : s.Bounded) (type : ℤ) :
    ∃ err s', s.removeField type = .ok (err,s') ∧ s'.Bounded := by
  rw [removeField_eq hs type]
  by_cases hany : s.mFields.any (fun f => f.mType = type) = true
  · rw [if_pos hany]
    exact ⟨_,_,rfl,List.length_eraseP_le.trans hs⟩
  · rw [if_neg hany]
    exact ⟨_,_,rfl,hs⟩

/-- To parse a line keeps the bound where the line fits, and otherwise leaves the table. -/
theorem Bounded.parseLine (hs : s.Bounded) {buffer : CircularBuffer} (hbuffer : buffer.WellFormed) :
    ((HoldsKnownField buffer.contents → s.mFields.length < kMaxFields) →
      ∃ length s', s.parseLine buffer = .ok (length,s') ∧ s'.Bounded) ∧
    (∀ length s', s.parseLine buffer = .ok (length,s') →
      HoldsKnownField buffer.contents → s.mFields.length < kMaxFields) := by
  have hholds : buffer.Holds buffer.mBufferSize buffer.contents := ⟨hbuffer,rfl,rfl⟩
  by_cases hfield : ∃ name, HoldsField buffer.contents name
  · obtain ⟨name,hname⟩ := hfield
    obtain ⟨n,data,-,-,hparse⟩ := parseLine_field (s := s) hholds hname
    obtain ⟨hunknown,hroom,hfull⟩ := s.storeField_eq name data
    rw [hparse]
    -- a field of an unknown name is not stored
    by_cases htype : getFieldType (cStr name) = kInvalidFieldType
    · rw [hunknown htype, ok_bind]
      refine ⟨fun _ => ⟨_,s,rfl,hs⟩,?_⟩
      rintro length s' - ⟨name',hname',htype'⟩
      rw [hname'.unique hname] at htype'
      exact absurd htype htype'
    · have hknown : HoldsKnownField buffer.contents := ⟨name,hname,htype⟩
      constructor
      · intro hfits
        rw [hroom htype (hfits hknown), ok_bind]
        refine ⟨_,_,rfl,?_⟩
        show (s.mFields ++ [_]).length ≤ kMaxFields
        rw [List.length_append, List.length_singleton]
        exact hfits hknown
      · intro length s' hok _
        by_contra hnot
        rw [hfull htype hnot] at hok
        cases hok
  · rw [parseLine_none hholds hfield]
    refine ⟨fun _ => ⟨_,s,rfl,hs⟩,?_⟩
    rintro length s' - ⟨name,hname,-⟩
    exact absurd ⟨name,hname⟩ hfield

theorem fieldStep_bounded (hs : s.Bounded) (call : FieldCall) (hfits : s.Fits call) :
    ∃ o s', s.fieldStep call = .ok (o,s') ∧ s'.Bounded := by
  cases call with
  | addField type data => exact ⟨_,_,rfl,hs.addField type data⟩
  | addFieldDecimal type data =>
    simp only [fieldStep, addFieldDecimal_eq, ok_bind]
    exact ⟨_,_,rfl,hs.addField type (decimal data.toInt)⟩
  | addFieldHex type data =>
    simp only [fieldStep, addFieldHex_eq, ok_bind]
    exact ⟨_,_,rfl,hs.addField type (hexadecimal data.toNat)⟩
  | addFieldDecimal64 type data =>
    simp only [fieldStep, addFieldDecimal64_eq, ok_bind]
    exact ⟨_,_,rfl,hs.addField type (decimal data.toInt)⟩
  | removeField type =>
    obtain ⟨err,s',hremove,hs'⟩ := hs.removeField type
    refine ⟨.removed err,s',?_,hs'⟩
    simp only [fieldStep, hremove, ok_bind]
  | parseLine buffer =>
    obtain ⟨length,s',hparse,hs'⟩ := (hs.parseLine buffer.property).1 hfits
    refine ⟨.parsed length,s',?_,hs'⟩
    simp only [fieldStep, hparse, ok_bind]

theorem fits_of_fieldStep (hs : s.Bounded) {call : FieldCall} {o : FieldOutput} {s' : HttpResponse}
    (h : s.fieldStep call = .ok (o,s')) : s.Fits call := by
  cases call with
  | parseLine buffer =>
    obtain ⟨⟨length,s₁⟩,hparse,-⟩ := bind_eq_ok.mp h
    exact (hs.parseLine buffer.property).2 length s₁ hparse
  | _ => trivial

/-- The table does not overflow in a run where a line that is stored comes to a table with room for
it, and in no other one. -/
theorem bounded_iff_fits (calls : List FieldCall) :
    Throughout fieldStep Bounded init calls ↔ Guarded fieldStep Fits init calls :=
  throughout_iff_guarded_of_ok Fits (fun _ hs => hs)
    (fun _ call hs hfits => fieldStep_bounded hs call hfits)
    (fun _ _ _ _ hs h => fits_of_fieldStep hs h) (Nat.zero_le _) calls

/-- A buffer that holds one line with an age. -/
def ageLine : { buffer : CircularBuffer // buffer.WellFormed } :=
  ⟨{ mBuffer := store (fun _ => 0) 0 (text "Age:\r\n")
     mBufferSize := 8
     mReadPtr := 0
     mWritePtr := 6
     mLen := 6 },by constructor <;> decide⟩

/-- A line is parsed when the table is full of fields that were added. -/
theorem parseLine_overflows : ¬Throughout fieldStep Bounded init
    (List.replicate kMaxFields (.addField kHttpFieldMapStart []) ++ [.parseLine ageLine]) := by
  intro h
  obtain ⟨os,s',hrun⟩ := h.runs
  have hfault : (run fieldStep init (List.replicate kMaxFields
      (.addField kHttpFieldMapStart []) ++ [.parseLine ageLine])).toOption = none := by
    decide +kernel
  rw [hrun] at hfault
  cases hfault

end HttpResponse

end JhCommon
