import JhCommon.HttpRoundTrip

/-! The lines of a header as the parsers find them in the bytes that the buffer holds. -/
namespace JhCommon
open CircularBuffer

/-- A line whose field has been parsed: its name, its value, and the bytes behind the line. -/
structure FieldLine where
  field : List UInt8
  data : List UInt8
  rest : List UInt8

namespace HttpResponse

/-- What the loop of `parseLine` makes of the bytes from its index on. -/
def fieldLine : LineState → List UInt8 → List UInt8 → Bool → List UInt8 → Option FieldLine
  | _, _, _, _, [] => none
  | .parseField, field, data, appendSpace, c :: cs =>
    if c = 58 then fieldLine .skipWS field data false cs
    else fieldLine .parseField (field ++ [c]) data appendSpace cs
  | .parseData, field, data, appendSpace, c :: cs =>
    if c = 13 ∧ cs.head? = some 10 then fieldLine .parseCRLF field data true cs
    else fieldLine .parseData field (data ++ [c]) appendSpace cs
  | .parseCRLF, field, data, appendSpace, c :: cs =>
    if c = 10 then
      if cs.head? = some 32 ∨ cs.head? = some 9 then fieldLine .skipWS field data appendSpace cs
      else some ⟨field,data,cs⟩
    else fieldLine .parseCRLF field data appendSpace cs
  | .skipWS, field, data, appendSpace, c :: cs =>
    if c = 13 ∧ cs.head? = some 10 then fieldLine .parseCRLF field data appendSpace cs
    else if c ≠ 9 ∧ c ≠ 32 then
      fieldLine .parseData field (data ++ (if appendSpace = true then [32] else []) ++ [c]) false cs
    else fieldLine .skipWS field data appendSpace cs

/-- What `parseLine` returns and leaves, where there is room. -/
def storeLine (s : HttpResponse) (i : ℕ) (cs : List UInt8) : Option FieldLine → Exec (ℤ × HttpResponse)
  | none => .ok (-1,s)
  | some line => do
    let s ← s.storeField line.field line.data
    .ok ((i+(cs.length-line.rest.length) : ℕ),s)

section
variable {N : ℕ} {buf : CircularBuffer} {q cs : List UInt8} {i : ℕ} {s : HttpResponse}

theorem fieldLine_rest {state : LineState} {field data : List UInt8} {appendSpace : Bool}
    {line : FieldLine} (h : fieldLine state field data appendSpace cs = some line) :
    line.rest.length < cs.length := by
  induction cs generalizing state field data appendSpace with
  | nil => simp [fieldLine] at h
  | cons c cs ih =>
    rw [List.length_cons]
    cases state with
    | parseField =>
      rw [fieldLine] at h
      split_ifs at h <;> exact (ih h).trans (Nat.lt_succ_self _)
    | parseData =>
      rw [fieldLine] at h
      split_ifs at h <;> exact (ih h).trans (Nat.lt_succ_self _)
    | parseCRLF =>
      rw [fieldLine] at h
      split_ifs at h
      · exact (ih h).trans (Nat.lt_succ_self _)
      · obtain rfl := Option.some.inj h
        exact Nat.lt_succ_self _
      · exact (ih h).trans (Nat.lt_succ_self _)
    | skipWS =>
      rw [fieldLine] at h
      split_ifs at h <;> exact (ih h).trans (Nat.lt_succ_self _)

/-- The next byte is looked at where the loop stands. -/
theorem storeLine_cons (s : HttpResponse) (i : ℕ) (c : UInt8) (cs : List UInt8)
    {found : Option FieldLine} (h : ∀ line ∈ found, line.rest.length ≤ cs.length) :
    s.storeLine (i+1) cs found = s.storeLine i (c :: cs) found := by
  cases found with
  | none => rfl
  | some line =>
    have hle := h line rfl
    have hindex : i+1+(cs.length-line.rest.length) = i+((c :: cs).length-line.rest.length) := by
      rw [List.length_cons]
      omega
    unfold storeLine
    simp only [hindex]

theorem parseLineFrom_eq (h : buf.Holds N q) (hd : q.drop i = cs) (state : LineState)
    (field data : List UInt8) (appendSpace : Bool) :
    s.parseLineFrom buf cs.length i state field data appendSpace =
      s.storeLine i cs (fieldLine state field data appendSpace cs) := by
  induction cs generalizing i state field data appendSpace with
  | nil => simp [parseLineFrom, fieldLine, storeLine]
  | cons c cs ih =>
    obtain ⟨hc,hchar,hd'⟩ := h.byteAt_of_drop hd
    have hbyte : ∀ k : UInt8, (c.toNat : ℤ) = (k.toNat : ℤ) ↔ c = k :=
      fun k => ⟨fun heq => UInt8.toNat_inj.mp (Int.natCast_inj.mp heq),fun heq => by rw [heq]⟩
    have hnext : ∀ k : UInt8, buf.byteAt (i+1) = (k.toNat : ℤ) ↔ cs.head? = some k := by
      intro k
      rw [h.byteAt_eq_iff, hd']
    -- the index that is returned counts from the beginning of the line
    have hback : ∀ st f d sp, s.storeLine (i+1) cs (fieldLine st f d sp cs) =
        s.storeLine i (c :: cs) (fieldLine st f d sp cs) := by
      intro st f d sp
      apply storeLine_cons
      intro line hline
      exact (fieldLine_rest hline).le
    rw [List.length_cons]
    cases state with
    | parseField =>
      have h58 : (c.toNat : ℤ) = 58 ↔ c = 58 := hbyte 58
      rw [parseLineFrom, fieldLine]
      simp only [hc, natCast_toNat_ne_neg_one, if_false, hchar, h58, ih hd', hback]
      split_ifs <;> rfl
    | parseData =>
      have h13 : (c.toNat : ℤ) = 13 ↔ c = 13 := hbyte 13
      have h10 : buf.byteAt (i+1) = 10 ↔ cs.head? = some 10 := hnext 10
      rw [parseLineFrom, fieldLine]
      simp only [hc, natCast_toNat_ne_neg_one, if_false, hchar, h13, h10, ih hd', hback]
      split_ifs <;> rfl
    | parseCRLF =>
      have h10 : (c.toNat : ℤ) = 10 ↔ c = 10 := hbyte 10
      have h32 : buf.byteAt (i+1) = 32 ↔ cs.head? = some 32 := hnext 32
      have h9 : buf.byteAt (i+1) = 9 ↔ cs.head? = some 9 := hnext 9
      rw [parseLineFrom, fieldLine]
      simp only [hc, natCast_toNat_ne_neg_one, if_false, h10, h32, h9, ih hd', hback]
      split_ifs
      · rfl
      · simp [storeLine]
      · rfl
    | skipWS =>
      have h13 : (c.toNat : ℤ) = 13 ↔ c = 13 := hbyte 13
      have h9 : (c.toNat : ℤ) = 9 ↔ c = 9 := hbyte 9
      have h32 : (c.toNat : ℤ) = 32 ↔ c = 32 := hbyte 32
      have h10 : buf.byteAt (i+1) = 10 ↔ cs.head? = some 10 := hnext 10
      rw [parseLineFrom, fieldLine]
      simp only [hc, natCast_toNat_ne_neg_one, if_false, hchar, h13, h10, h9, h32, ne_eq, ih hd',
        hback]
      split_ifs <;> rfl

/-- Some line break is not followed by white space. -/
def EndsLine (cs : List UInt8) : Prop :=
  ∃ line rest, cs = line ++ 13 :: 10 :: rest ∧ NoContinuation rest

theorem endsLine_cons (c : UInt8) (cs : List UInt8) :
    EndsLine (c :: cs) ↔ (c = 13 ∧ ∃ rest, cs = 10 :: rest ∧ NoContinuation rest) ∨ EndsLine cs := by
  constructor
  · rintro ⟨line,rest,heq,hrest⟩
    cases line with
    | nil =>
      obtain ⟨rfl,rfl⟩ := List.cons.inj heq
      exact .inl ⟨rfl,rest,rfl,hrest⟩
    | cons d line =>
      obtain ⟨-,rfl⟩ := List.cons.inj heq
      exact .inr ⟨line,rest,rfl,hrest⟩
  · rintro (⟨rfl,rest,rfl,hrest⟩ | ⟨line,rest,rfl,hrest⟩)
    · exact ⟨[],rest,rfl,hrest⟩
    · exact ⟨c :: line,rest,rfl,hrest⟩

theorem not_endsLine_nil : ¬EndsLine [] := by
  rintro ⟨line,rest,heq,-⟩
  simp at heq

/-- Whether the value of a field ends in the bytes from some state of the loop on. Behind a CR that
has been seen, the LF is the next byte. -/
theorem fieldLine_value (field data : List UInt8) (appendSpace : Bool) (cs : List UInt8) :
    ((∃ line, fieldLine .skipWS field data appendSpace cs = some line) ↔ EndsLine cs) ∧
    ((∃ line, fieldLine .parseData field data appendSpace cs = some line) ↔ EndsLine cs) ∧
    (cs.head? = some 10 → ((∃ line, fieldLine .parseCRLF field data appendSpace cs = some line) ↔
      NoContinuation cs.tail ∨ EndsLine cs.tail)) := by
  induction cs generalizing data appendSpace with
  | nil =>
    refine ⟨iff_of_false (by simp [fieldLine]) not_endsLine_nil,
      iff_of_false (by simp [fieldLine]) not_endsLine_nil,?_⟩
    rintro ⟨⟩
  | cons c cs ih =>
    -- a CR before an LF can end the line, any other byte cannot
    have hcr : ∀ sp, c = 13 ∧ cs.head? = some 10 →
        ((∃ line, fieldLine .parseCRLF field data sp cs = some line) ↔ EndsLine (c :: cs)) := by
      rintro sp ⟨rfl,hhead⟩
      obtain ⟨rest,rfl⟩ : ∃ rest, cs = 10 :: rest := by
        cases cs with
        | nil => cases hhead
        | cons d rest => exact ⟨rest,by rw [Option.some.inj hhead]⟩
      rw [(ih data sp).2.2 rfl, endsLine_cons, endsLine_cons]
      simp
    have hother : ¬(c = 13 ∧ cs.head? = some 10) → (EndsLine (c :: cs) ↔ EndsLine cs) := by
      intro h
      rw [endsLine_cons]
      apply or_iff_right
      rintro ⟨hc,rest,rfl,-⟩
      exact h ⟨hc,rfl⟩
    refine ⟨?_,?_,?_⟩
    · rw [fieldLine]
      by_cases h : c = 13 ∧ cs.head? = some 10
      · rw [if_pos h]
        exact hcr _ h
      rw [if_neg h, hother h]
      by_cases hspace : c ≠ 9 ∧ c ≠ 32
      · rw [if_pos hspace]
        exact (ih _ _).2.1
      · rw [if_neg hspace]
        exact (ih _ _).1
    · rw [fieldLine]
      by_cases h : c = 13 ∧ cs.head? = some 10
      · rw [if_pos h]
        exact hcr _ h
      rw [if_neg h, hother h]
      exact (ih _ _).2.1
    · intro hlf
      obtain rfl : c = 10 := Option.some.inj hlf
      rw [fieldLine, if_pos rfl, List.tail_cons]
      by_cases hcont : cs.head? = some 32 ∨ cs.head? = some 9
      · have hno : ¬NoContinuation cs := fun h => hcont.elim h.1 h.2
        rw [if_pos hcont, (ih _ _).1]
        exact (or_iff_right hno).symm
      · have hno : NoContinuation cs := not_or.mp hcont
        rw [if_neg hcont]
        exact iff_of_true ⟨_,rfl⟩ (.inl hno)

/-- The name of the field does not change behind the colon. -/
theorem fieldLine_name {state : LineState} {field data : List UInt8} {appendSpace : Bool}
    {line : FieldLine} (hstate : state ≠ .parseField)
    (h : fieldLine state field data appendSpace cs = some line) : line.field = field := by
  induction cs generalizing state data appendSpace with
  | nil => simp [fieldLine] at h
  | cons c cs ih =>
    cases state with
    | parseField => exact absurd rfl hstate
    | parseData =>
      rw [fieldLine] at h
      split_ifs at h <;> exact ih (by simp) h
    | parseCRLF =>
      rw [fieldLine] at h
      split_ifs at h
      · exact ih (by simp) h
      · obtain rfl := Option.some.inj h
        rfl
      · exact ih (by simp) h
    | skipWS =>
      rw [fieldLine] at h
      split_ifs at h <;> exact ih (by simp) h

theorem fieldLine_colon {name rest : List UInt8} (hcolon : 58 ∉ name) (field data : List UInt8)
    (appendSpace : Bool) : fieldLine .parseField field data appendSpace (name ++ 58 :: rest) =
      fieldLine .skipWS (field ++ name) data false rest := by
  induction name generalizing field with
  | nil => rw [List.nil_append, List.append_nil, fieldLine, if_pos rfl]
  | cons c name ih =>
    have hne : c ≠ 58 := (List.ne_of_not_mem_cons hcolon).symm
    rw [List.cons_append, fieldLine, if_neg hne, ih (List.not_mem_of_not_mem_cons hcolon),
      List.append_assoc, List.singleton_append]

theorem fieldLine_no_colon (hcolon : 58 ∉ cs) (field data : List UInt8) (appendSpace : Bool) :
    fieldLine .parseField field data appendSpace cs = none := by
  induction cs generalizing field with
  | nil => rfl
  | cons c cs ih =>
    have hne : c ≠ 58 := (List.ne_of_not_mem_cons hcolon).symm
    rw [fieldLine, if_neg hne, ih (List.not_mem_of_not_mem_cons hcolon)]

/-- The bytes begin with a field of that name, and its line ends in them. -/
def HoldsField (q name : List UInt8) : Prop :=
  ∃ rest, q = name ++ 58 :: rest ∧ 58 ∉ name ∧ EndsLine rest

theorem HoldsField.parsed {name : List UInt8} (h : HoldsField q name) :
    ∃ line, fieldLine .parseField [] [] false q = some line ∧ line.field = name := by
  obtain ⟨rest,rfl,hcolon,hends⟩ := h
  obtain ⟨line,hline⟩ := (fieldLine_value name [] false rest).1.mpr hends
  refine ⟨line,?_,fieldLine_name (by simp) hline⟩
  rw [fieldLine_colon hcolon, List.nil_append, hline]

theorem holdsField_of_parsed {line : FieldLine}
    (h : fieldLine .parseField [] [] false q = some line) : HoldsField q line.field := by
  by_cases hcolon : 58 ∈ q
  · obtain ⟨name,rest,rfl,hname⟩ := List.eq_append_cons_of_mem hcolon
    rw [fieldLine_colon hname, List.nil_append] at h
    rw [fieldLine_name (by simp) h]
    exact ⟨rest,rfl,hname,(fieldLine_value name [] false rest).1.mp ⟨line,h⟩⟩
  · rw [fieldLine_no_colon hcolon] at h
    cases h

theorem parseLine_eq (h : buf.Holds N q) :
    s.parseLine buf = s.storeLine 0 q (fieldLine .parseField [] [] false q) := by
  have hlen : buf.getLength = q.length := h.len_eq
  rw [parseLine, hlen]
  exact parseLineFrom_eq h (List.drop_zero) .parseField [] [] false

theorem parseLine_none (h : buf.Holds N q) (hnone : ¬∃ name, HoldsField q name) :
    s.parseLine buf = .ok (-1,s) := by
  rw [parseLine_eq h]
  cases hline : fieldLine .parseField [] [] false q with
  | none => rfl
  | some line => exact absurd ⟨line.field,holdsField_of_parsed hline⟩ hnone

/-- The line of a field is consumed, and the field stored. -/
theorem parseLine_field (h : buf.Holds N q) {name : List UInt8} (hname : HoldsField q name) :
    ∃ (n : ℕ) (data : List UInt8), 0 < n ∧ n ≤ q.length ∧ s.parseLine buf = (do
      let s ← s.storeField name data
      .ok ((n : ℤ),s)) := by
  obtain ⟨line,hline,rfl⟩ := hname.parsed
  have hlt := fieldLine_rest hline
  refine ⟨q.length-line.rest.length,line.data,by omega,by omega,?_⟩
  rw [parseLine_eq h, hline]
  simp only [storeLine, Nat.zero_add]

theorem HoldsField.unique {name name' : List UInt8} (h : HoldsField q name)
    (h' : HoldsField q name') : name = name' := by
  obtain ⟨line,hline,rfl⟩ := h.parsed
  obtain ⟨line',hline',rfl⟩ := h'.parsed
  obtain rfl := Option.some.inj (hline.symm.trans hline')
  rfl

/-- A known field is stored, where there is room for it. -/
theorem storeField_eq (s : HttpResponse) (field data : List UInt8) :
    (getFieldType (cStr field) = kInvalidFieldType → s.storeField field data = .ok s) ∧
    (getFieldType (cStr field) ≠ kInvalidFieldType → s.mFields.length < kMaxFields →
      s.storeField field data = .ok { s with
        mFields := s.mFields ++ [⟨getFieldType (cStr field),cStr data⟩] }) ∧
    (getFieldType (cStr field) ≠ kInvalidFieldType → ¬s.mFields.length < kMaxFields →
      s.storeField field data = .error .outOfBounds) := by
  unfold storeField
  refine ⟨?_,?_,?_⟩
  · intro h
    exact if_neg (not_not.mpr h)
  · intro h hroom
    exact (if_pos h).trans (if_pos hroom)
  · intro h hroom
    exact (if_pos h).trans (if_neg hroom)

end

end HttpResponse

end JhCommon
