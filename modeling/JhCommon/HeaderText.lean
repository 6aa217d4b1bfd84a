import JhCommon.HeaderProgress

/-! Response headers as they are sent, and what the line finder and the parsers make of the bytes
that have come of them. -/
namespace JhCommon
open CircularBuffer HttpResponse

/-- The rest of a line from the end of a piece of it on: further pieces, and the line break behind
the last one. -/
def folded : List (List UInt8) → List UInt8
  | [] => crlf
  | piece :: more => crlf ++ (piece ++ folded more)

/-- A piece that goes on with a line. -/
def Continues (piece : List UInt8) : Prop :=
  13 ∉ piece ∧ (piece.head? = some 32 ∨ piece.head? = some 9)

theorem Continues.head {piece : List UInt8} (h : Continues piece) (rest : List UInt8) :
    (piece ++ rest).head? = some 32 ∨ (piece ++ rest).head? = some 9 := by
  rw [List.head?_append]
  rcases h.2 with hhead | hhead
  · exact .inl (by rw [hhead]; rfl)
  · exact .inr (by rw [hhead]; rfl)

/-- A field as it is sent, with the pieces of its value, one on each line. -/
structure FieldText where
  name : List UInt8
  value : List UInt8
  more : List (List UInt8)
  name_plain : 58 ∉ name ∧ 13 ∉ name ∧ NoContinuation name
  value_plain : 13 ∉ value
  more_plain : ∀ piece ∈ more, Continues piece

namespace FieldText

/-- The first of its lines. -/
def line (f : FieldText) : List UInt8 := f.name ++ 58 :: f.value

def bytes (f : FieldText) : List UInt8 := f.line ++ folded f.more

end FieldText

structure HeaderText where
  protocol : List UInt8
  spaces : ℕ
  code : List UInt8
  reason : List UInt8
  fields : List FieldText
  protocol_plain : 32 ∉ protocol ∧ 13 ∉ protocol
  code_plain : code ≠ [] ∧ 32 ∉ code ∧ 13 ∉ code ∧ Converts code
  reason_plain : 13 ∉ reason ∧ 10 ∉ reason

namespace HeaderText

def line (h : HeaderText) : List UInt8 :=
  h.protocol ++ 32 :: (List.replicate h.spaces 32 ++ (h.code ++ 32 :: h.reason))

def fieldBytes (fields : List FieldText) : List UInt8 := (fields.map FieldText.bytes).flatten

/-- The first line, the lines of the fields, and the empty line. -/
def bytes (h : HeaderText) : List UInt8 := h.line ++ crlf ++ (fieldBytes h.fields ++ crlf)

end HeaderText

/-- What the loop of `searchForLine` makes of the bytes from index i on. -/
def lineEnd : ℕ → SearchState → List UInt8 → ℤ
  | _, _, [] => -1
  | i, .searchCR, c :: cs => lineEnd (i+1) (if c = 13 then .haveCR else .searchCR) cs
  | i, .haveCR, c :: cs =>
    if c = 10 then
      if i+1 = 2 then kEOH
      else if cs.head? = some 32 ∨ cs.head? = some 9 then lineEnd (i+1) .searchCR cs
      else (i+1 : ℕ)
    else lineEnd (i+1) .searchCR cs

section
variable {N : ℕ} {buf : CircularBuffer} {q cs line rest : List UInt8} {i : ℕ}

theorem searchFrom_eq (h : buf.Holds N q) (hd : q.drop i = cs) (state : SearchState) :
    buf.searchFrom cs.length i state = lineEnd i state cs := by
  induction cs generalizing i state with
  | nil => rfl
  | cons c cs ih =>
    obtain ⟨hc,-,hd'⟩ := h.byteAt_of_drop hd
    have hnext : ∀ k : UInt8, buf.byteAt (i+1) = (k.toNat : ℤ) ↔ cs.head? = some k := by
      intro k
      rw [h.byteAt_eq_iff, hd']
    have h13 : (c.toNat : ℤ) = 13 ↔ c = 13 := hc ▸ byteAt_iff h hd 13
    have h10 : (c.toNat : ℤ) = 10 ↔ c = 10 := hc ▸ byteAt_iff h hd 10
    have h32 : buf.byteAt (i+1) = 32 ↔ cs.head? = some 32 := hnext 32
    have h9 : buf.byteAt (i+1) = 9 ↔ cs.head? = some 9 := hnext 9
    rw [List.length_cons]
    cases state with
    | searchCR =>
      rw [searchFrom, lineEnd]
      simp only [hc, natCast_toNat_ne_neg_one, if_false, h13, ih hd']
    | haveCR =>
      rw [searchFrom, lineEnd]
      simp only [hc, natCast_toNat_ne_neg_one, if_false, h10, h32, h9, ih hd']

theorem searchForLine_eq (h : buf.Holds N q) : buf.searchForLine = lineEnd 0 .searchCR q := by
  have hlen : buf.getLength = q.length := h.len_eq
  rw [searchForLine, hlen]
  exact searchFrom_eq h List.drop_zero .searchCR

/-- A piece without a CR is passed over. -/
theorem lineEnd_piece (hcr : 13 ∉ line) (i : ℕ) (rest : List UInt8) :
    lineEnd i .searchCR (line ++ rest) = lineEnd (i+line.length) .searchCR rest := by
  induction line generalizing i with
  | nil => rfl
  | cons c line ih =>
    have hne : c ≠ 13 := (List.ne_of_not_mem_cons hcr).symm
    rw [List.cons_append, lineEnd, if_neg hne, ih (List.not_mem_of_not_mem_cons hcr),
      List.length_cons]
    congr 1
    omega

theorem lineEnd_crlf (hi : i ≠ 0) (rest : List UInt8) :
    lineEnd i .searchCR (13 :: 10 :: rest) =
      if rest.head? = some 32 ∨ rest.head? = some 9 then lineEnd (i+2) .searchCR rest
      else (i+2 : ℕ) := by
  have htwo : ¬i+1+1 = 2 := by omega
  rw [lineEnd, if_pos rfl, lineEnd, if_pos rfl, if_neg htwo]

/-- A line that has come whole is found. -/
theorem lineEnd_whole {more : List (List UInt8)} (hline : 13 ∉ line)
    (hmore : ∀ piece ∈ more, Continues piece) (hrest : NoContinuation rest)
    (hi : i+line.length ≠ 0) : 0 < lineEnd i .searchCR (line ++ folded more ++ rest) := by
  induction more generalizing i line with
  | nil =>
    have hend : ¬(rest.head? = some 32 ∨ rest.head? = some 9) := not_or.mpr hrest
    rw [List.append_assoc, lineEnd_piece hline]
    show 0 < lineEnd (i+line.length) .searchCR (13 :: 10 :: rest)
    rw [lineEnd_crlf hi, if_neg hend]
    omega
  | cons piece more ih =>
    obtain ⟨⟨hcr,hhead⟩,hmore⟩ := List.forall_mem_cons.mp hmore
    have hcont : (piece ++ folded more ++ rest).head? = some 32 ∨
        (piece ++ folded more ++ rest).head? = some 9 := by
      rw [List.append_assoc]
      exact Continues.head ⟨hcr,hhead⟩ _
    rw [List.append_assoc, lineEnd_piece hline]
    show 0 < lineEnd (i+line.length) .searchCR (13 :: 10 :: (piece ++ folded more ++ rest))
    rw [lineEnd_crlf hi, if_pos hcont]
    exact ih hcr hmore (by omega)

/-- The bytes that have come end behind a line break, and what is left goes on with the line. -/
def BrokenOff (q left : List UInt8) : Prop :=
  crlf <:+ q ∧ (left.head? = some 32 ∨ left.head? = some 9)

theorem BrokenOff.of_suffix {q' left : List UInt8} (h : BrokenOff q' left) (hq : q' <:+ q) :
    BrokenOff q left := ⟨h.1.trans hq,h.2⟩

theorem lineEnd_plain (hcr : 13 ∉ q) (i : ℕ) : lineEnd i .searchCR q = -1 := by
  have hpiece := lineEnd_piece hcr i []
  rw [List.append_nil] at hpiece
  rw [hpiece]
  rfl

/-- A part of a line is not found as one, where it is not broken off behind one of its pieces. -/
theorem lineEnd_part {more : List (List UInt8)} {left : List UInt8} (hline : 13 ∉ line)
    (hmore : ∀ piece ∈ more, Continues piece) (hq : line ++ folded more = q ++ left)
    (hleft : left ≠ []) (hwhole : ¬BrokenOff q left) (hi : i+line.length ≠ 0) :
    lineEnd i .searchCR q = -1 := by
  induction more generalizing i line q with
  | nil =>
    rcases List.append_eq_append_iff.mp hq with ⟨t,rfl,ht⟩ | ⟨t,rfl,-⟩
    · rw [lineEnd_piece hline]
      cases t with
      | nil => rfl
      | cons c t =>
        obtain ⟨rfl,hlf⟩ := List.cons.inj ht
        have hlf : [10] = t ++ left := hlf
        cases t with
        | nil => rfl
        | cons d t =>
          have hnil : [] = t ++ left := (List.cons.inj hlf).2
          exact absurd (List.append_eq_nil_iff.mp hnil.symm).2 hleft
    · exact lineEnd_plain (fun hcr => hline (List.mem_append_left t hcr)) i
  | cons piece more ih =>
    obtain ⟨hpiece,hmore⟩ := List.forall_mem_cons.mp hmore
    rcases List.append_eq_append_iff.mp hq with ⟨t,rfl,ht⟩ | ⟨t,rfl,-⟩
    · rw [lineEnd_piece hline]
      cases t with
      | nil => rfl
      | cons c t =>
        obtain ⟨rfl,hlf⟩ := List.cons.inj ht
        have hlf : 10 :: (piece ++ folded more) = t ++ left := hlf
        cases t with
        | nil => rfl
        | cons d t =>
          obtain ⟨rfl,hpieces⟩ := List.cons.inj hlf
          have hpieces : piece ++ folded more = t ++ left := hpieces
          have hsuffix : t <:+ line ++ 13 :: 10 :: t := ⟨line ++ [13,10],by simp⟩
          cases t with
          | nil =>
            -- broken off in front of the piece
            refine absurd ⟨⟨line,rfl⟩,?_⟩ hwhole
            rw [← List.nil_append left, ← hpieces]
            exact hpiece.head _
          | cons e t =>
            have hcont : (e :: t).head? = some 32 ∨ (e :: t).head? = some 9 := by
              have hhead := hpiece.head (folded more)
              rwa [hpieces] at hhead
            rw [lineEnd_crlf hi, if_pos hcont]
            exact ih hpiece.1 hmore hpieces (fun hbroken => hwhole (hbroken.of_suffix hsuffix)) (by omega)
    · exact lineEnd_plain (fun hcr => hline (List.mem_append_left t hcr)) i

/-- What is parsed of some bytes does not depend on the bytes behind the line. -/
theorem fieldLine_append {state : LineState} {field data : List UInt8} {appendSpace : Bool}
    {found : FieldLine} (h : fieldLine state field data appendSpace cs = some found)
    (hrest : found.rest = [] → NoContinuation rest) :
    fieldLine state field data appendSpace (cs ++ rest) =
      some { found with rest := found.rest ++ rest } := by
  induction cs generalizing state field data appendSpace with
  | nil => simp [fieldLine] at h
  | cons c cs ih =>
    rw [List.cons_append]
    by_cases hcs : cs = []
    · subst hcs
      -- only the LF of a line break ends the line here
      cases state with
      | parseCRLF =>
        rw [fieldLine] at h ⊢
        by_cases hlf : c = 10
        · rw [if_pos hlf] at h ⊢
          have hfound : found = ⟨field,data,[]⟩ := by simpa using h.symm
          subst hfound
          rw [List.nil_append, if_neg (not_or.mpr (hrest rfl))]
        · rw [if_neg hlf] at h
          simp [fieldLine] at h
      | parseField =>
        rw [fieldLine] at h
        split_ifs at h <;> simp [fieldLine] at h
      | parseData =>
        rw [fieldLine] at h
        split_ifs at h <;> simp [fieldLine] at h
      | skipWS =>
        rw [fieldLine] at h
        split_ifs at h <;> simp [fieldLine] at h
    · have hhead : (cs ++ rest).head? = cs.head? := List.head?_append_of_ne_nil cs hcs
      cases state with
      | parseField =>
        rw [fieldLine] at h ⊢
        by_cases hc : c = 58
        · rw [if_pos hc] at h ⊢
          exact ih h
        · rw [if_neg hc] at h ⊢
          exact ih h
      | parseData =>
        rw [fieldLine] at h ⊢
        rw [hhead]
        by_cases hc : c = 13 ∧ cs.head? = some 10
        · rw [if_pos hc] at h ⊢
          exact ih h
        · rw [if_neg hc] at h ⊢
          exact ih h
      | parseCRLF =>
        rw [fieldLine] at h ⊢
        rw [hhead]
        by_cases hlf : c = 10
        · rw [if_pos hlf] at h ⊢
          by_cases hcont : cs.head? = some 32 ∨ cs.head? = some 9
          · rw [if_pos hcont] at h ⊢
            exact ih h
          · rw [if_neg hcont] at h ⊢
            obtain rfl := Option.some.inj h
            rfl
        · rw [if_neg hlf] at h ⊢
          exact ih h
      | skipWS =>
        rw [fieldLine] at h ⊢
        rw [hhead]
        by_cases hc : c = 13 ∧ cs.head? = some 10
        · rw [if_pos hc] at h ⊢
          exact ih h
        rw [if_neg hc] at h ⊢
        by_cases hspace : c ≠ 9 ∧ c ≠ 32
        · rw [if_pos hspace] at h ⊢
          exact ih h
        · rw [if_neg hspace] at h ⊢
          exact ih h

/-- A piece of a value is parsed up to its line break. -/
theorem fieldLine_piece {field tail : List UInt8} (hline : 13 ∉ line)
    (hbehind : ∀ data appendSpace, ∃ data',
      fieldLine .parseCRLF field data appendSpace (10 :: tail) = some ⟨field,data',[]⟩)
    (data : List UInt8) (appendSpace : Bool) :
    (∃ data', fieldLine .skipWS field data appendSpace (line ++ 13 :: 10 :: tail) =
      some ⟨field,data',[]⟩) ∧
    ∃ data', fieldLine .parseData field data appendSpace (line ++ 13 :: 10 :: tail) =
      some ⟨field,data',[]⟩ := by
  induction line generalizing data appendSpace with
  | nil => exact ⟨hbehind data appendSpace,hbehind data true⟩
  | cons c line ih =>
    have hne : ¬(c = 13 ∧ (line ++ 13 :: 10 :: tail).head? = some 10) :=
      fun hc => hline (hc.1 ▸ List.mem_cons_self)
    have hrest := ih (List.not_mem_of_not_mem_cons hline)
    constructor
    · rw [List.cons_append, fieldLine, if_neg hne]
      by_cases hspace : c ≠ 9 ∧ c ≠ 32
      · rw [if_pos hspace]
        exact (hrest _ _).2
      · rw [if_neg hspace]
        exact (hrest _ _).1
    · rw [List.cons_append, fieldLine, if_neg hne]
      exact (hrest _ _).2

/-- A value is parsed up to the end of its last line. -/
theorem fieldLine_folded {more : List (List UInt8)} (hline : 13 ∉ line)
    (hmore : ∀ piece ∈ more, Continues piece) (field data : List UInt8) (appendSpace : Bool) :
    ∃ data', fieldLine .skipWS field data appendSpace (line ++ folded more) =
      some ⟨field,data',[]⟩ := by
  induction more generalizing line data appendSpace with
  | nil => exact (fieldLine_piece hline (fun data _ => ⟨data,rfl⟩) data appendSpace).1
  | cons piece more ih =>
    obtain ⟨hpiece,hmore⟩ := List.forall_mem_cons.mp hmore
    have hbehind : ∀ data sp, ∃ data', fieldLine .parseCRLF field data sp
        (10 :: (piece ++ folded more)) = some ⟨field,data',[]⟩ := by
      intro data sp
      rw [fieldLine, if_pos rfl, if_pos (hpiece.head _)]
      exact ih hpiece.1 hmore data sp
    exact (fieldLine_piece hline hbehind data appendSpace).1

/-- The field that is parsed of a line which has come whole, whatever comes behind it. -/
theorem FieldText.parsed (f : FieldText) : ∃ data, ∀ rest, NoContinuation rest →
    fieldLine .parseField [] [] false (f.bytes ++ rest) = some ⟨f.name,data,rest⟩ := by
  obtain ⟨data,hdata⟩ := fieldLine_folded f.value_plain f.more_plain f.name [] false
  have hbytes : fieldLine .parseField [] [] false f.bytes = some ⟨f.name,data,[]⟩ := by
    rw [bytes, line, List.append_assoc, List.cons_append, fieldLine_colon f.name_plain.1,
      List.nil_append, hdata]
  exact ⟨data,fun rest hrest => fieldLine_append hbytes fun _ => hrest⟩

end

end JhCommon
