import JhCommon.LogBuffer
import JhCommon.ObjectSlots
import JhCommon.Word32

/-! `print_buffer2` of `logging.cpp`, with a file to log to: sixteen bytes a line, as hex numbers and as
characters. The lines are put together in an array of 100 characters. -/
namespace JhCommon.PrintBuffer
open LogBuffer Word32

/-- The line that is put together, where in it the next piece goes, and the index of the next byte. -/
structure Line where
  line : Str
  lineOffset : ℕ
  bufferI : ℕ

/-- A byte out of the data. There is nothing to be read behind them. -/
def byteAt (data : List UInt8) (i : ℕ) : Except LogFault UInt8 :=
  match data[i]? with
  | some b => .ok b
  | none => .error .outOfBounds

def hexDigit (n : ℕ) : Char := if n < 10 then Char.ofNat (48+n) else Char.ofNat (55+n)

/-- What `%02X` writes. -/
def hex2 (b : UInt8) : Str := [hexDigit (b.toNat/16),hexDigit (b.toNat % 16)]

namespace Line

/-- `line_offset += sprintf( line + line_offset, .. )`. -/
def sprintf (st : Line) (text : Str) : Except LogFault Line := do
  let line ← storeString st.line st.lineOffset text
  .ok { st with line := line, lineOffset := st.lineOffset+text.length }

/-- The gap in the middle of the columns. -/
def gap (st : Line) (i : ℕ) : Except LogFault Line := if i = 8 then st.sprintf [' '] else .ok st

/-- A turn of the first loop. -/
def hexColumn (data : List UInt8) (cnt i : ℕ) (st : Line) : Except LogFault Line := do
  let st ← st.gap i
  if i < cnt then do
    let b ← byteAt data st.bufferI
    let st ← st.sprintf (hex2 b ++ [' '])
    .ok { st with bufferI := st.bufferI+1 }
  else st.sprintf [' ',' ',' ']

/-- A byte as a character, or a dot. A percent sign is escaped. -/
def character (b : UInt8) (st : Line) : Except LogFault Line :=
  if 32 ≤ b ∧ b < 127 then do
    let st ← st.sprintf [Char.ofNat b.toNat]
    if b = 37 then st.sprintf [Char.ofNat b.toNat] else .ok st
  else st.sprintf ['.']

/-- A turn of the second loop. -/
def textColumn (data : List UInt8) (i : ℕ) (st : Line) : Except LogFault Line := do
  let st ← st.gap i
  let b ← byteAt data st.bufferI
  let st ← st.character b
  .ok { st with bufferI := st.bufferI+1 }

/-- One line of cnt bytes, as it is put together. -/
def fill (data : List UInt8) (cnt : ℕ) (st : Line) : Except LogFault Line := do
  let st ← forRange 0 16 (hexColumn data cnt) st
  let st ← st.sprintf [':',' ']
  -- the same bytes again
  let st ← forRange 0 cnt (textColumn data) { st with bufferI := st.bufferI-cnt }
  st.sprintf ['\n']

end Line

/-- The outer loop: the lines that are printed. -/
def printLines (data : List UInt8) (reset len : ℕ) (st : Line) : Except LogFault (List Str) :=
  if 0 < len then do
    let st ← st.fill data (min len 16)
    let lines ← printLines data reset (len-min len 16) { st with lineOffset := reset }
    .ok (cString st.line :: lines)
  else .ok []
termination_by len

/-- memcpy to the start of the line. The size is a size_t. -/
def memcpyLine (line str : Str) (size : ℤ) : Except LogFault Str :=
  let n := (size % 2^64).toNat
  if n ≤ str.length then store line 0 (str.take n) else .error .outOfBounds

/-- The call. What is in the array before does not matter, nor what is in memory behind the NUL of the
tag. -/
def printBuffer2 (line : Fin 100 → Char) (str : Str) (data : List UInt8) (len : ℤ) :
    Except LogFault (List Str) := do
  let lineOffset := int32 (cString str).length
  let lineOffset := if lineOffset > 9 then 9 else lineOffset
  let line ← memcpyLine (List.ofFn line) (cString str) lineOffset
  let st ← Line.sprintf ⟨line,lineOffset.toNat,0⟩ [':',' ']
  printLines data st.lineOffset len.toNat st

def hexValue (c : Char) : Option ℕ :=
  if '0' ≤ c ∧ c ≤ '9' then some (c.toNat-48)
  else if 'A' ≤ c ∧ c ≤ 'F' then some (c.toNat-55)
  else none

/-- The byte that two hex digits are. -/
def byteOf (a b : Char) : Option UInt8 := do
  let high ← hexValue a
  let low ← hexValue b
  some (UInt8.ofNat (16*high+low))

/-- The bytes in the last k of the sixteen hex columns, which a text starts with. -/
def readColumns : ℕ → Str → List UInt8
  | 0, _ => []
  | k+1, s =>
    match if k+1 = 8 then s.drop 1 else s with
    | a :: b :: _ :: s => (byteOf a b).toList ++ readColumns k s
    | _ => []

/-- As much of the tag as stands in front of each line. -/
def tag (str : Str) : Str := (cString str).take (min 9 (int32 (cString str).length)).toNat

def head (str : Str) : Str := tag str ++ [':',' ']

/-- There is a line for sixteen bytes each and one for the rest, each fits into the array with its NUL, and
behind the tags the hex columns have the data. No call faults. -/
def Prints (line : Fin 100 → Char) (str : Str) (data : List UInt8) : Prop :=
  ∃ lines, printBuffer2 line str data data.length = .ok lines ∧
    lines.length = (data.length+15)/16 ∧
    (∀ l ∈ lines, l.length+1 ≤ 100 ∧ head str <+: l) ∧
    lines.flatMap (fun l => readColumns 16 (l.drop (head str).length)) = data

/-- What stands in the line, up to where the next piece goes. -/
structure Holds (st : Line) (w : Str) : Prop where
  line : ∃ r, st.line = w ++ r
  offset : st.lineOffset = w.length
  size : st.line.length = 100

section Pieces
variable {st st' : Line} {w text : Str} {data : List UInt8} {i n : ℕ}

theorem sprintf_ok (text : Str) (h : Holds st w) (hroom : w.length+text.length < 100) : ∃ st',
    st.sprintf text = .ok st' ∧ Holds st' (w ++ text) ∧ st'.bufferI = st.bufferI := by
  obtain ⟨r,hline⟩ := h.line
  have hsize := h.size
  rw [hline, List.length_append] at hsize
  refine ⟨⟨w ++ text ++ NUL :: r.drop (text.length+1),st.lineOffset+text.length,st.bufferI⟩,?_,?_,rfl⟩
  · rw [Line.sprintf, storeString_ok hline h.offset (by omega), ok_bind]
  · refine ⟨⟨_,rfl⟩,by simp [h.offset],?_⟩
    simp
    omega

/-- A line is printed up to the last piece. -/
theorem sprintf_cString (h : Holds st w) (hroom : w.length+text.length < 100) (hw : NUL ∉ w ++ text)
    (hst : st.sprintf text = .ok st') : cString st'.line = w ++ text := by
  obtain ⟨r,hline⟩ := h.line
  have hsize := h.size
  rw [hline, List.length_append] at hsize
  rw [Line.sprintf, storeString_ok hline h.offset (by omega), ok_bind] at hst
  obtain rfl := Except.ok.inj hst
  exact cString_eq hw _

/-- What a loop does whose turns add a piece to the line each, and move on in the data. -/
theorem forRange_pieces (body : ℕ → Line → Except LogFault Line) (piece : ℕ → Str) (pos : ℕ → ℕ)
    (hbody : ∀ i st w, i < n → Holds st w → st.bufferI = pos i → w.length+(piece i).length < 100 →
      ∃ st', body i st = .ok st' ∧ Holds st' (w ++ piece i) ∧ st'.bufferI = pos (i+1))
    (hi : i ≤ n) (h : Holds st w) (hpos : st.bufferI = pos i)
    (hroom : w.length+((List.range' i (n-i)).flatMap piece).length < 100) : ∃ st',
    forRange i n body st = .ok st' ∧ Holds st' (w ++ (List.range' i (n-i)).flatMap piece) ∧
      st'.bufferI = pos n := by
  -- on the turns that are left; the text and the index are those of turn i
  induction hk : n-i generalizing i st w with
  | zero =>
    obtain rfl : i = n := by omega
    refine ⟨st,forRange_of_le (le_refl i),?_,hpos⟩
    simpa using h
  | succ k ih =>
    have hlt : i < n := by omega
    rw [hk, List.range'_succ, List.flatMap_cons, List.length_append] at hroom
    obtain ⟨st₁,hfirst,h₁,hpos₁⟩ := hbody i st w hlt h hpos (by omega)
    have hk₁ : n-(i+1) = k := by omega
    obtain ⟨st',hrest,h',hpos'⟩ := ih (show i+1 ≤ n from hlt) h₁ hpos₁ (by rw [hk₁, List.length_append]; omega) hk₁
    refine ⟨st',?_,?_,hpos'⟩
    · rw [forRange_step hlt hfirst, hrest]
    · rw [List.range'_succ, List.flatMap_cons, ← List.append_assoc]
      exact h'

/-- A gap in front of the ninth column. -/
def gapText (i : ℕ) : Str := if i = 8 then [' '] else []

theorem gap_ok (h : Holds st w) (hroom : w.length+(gapText i).length < 100) : ∃ st',
    st.gap i = .ok st' ∧ Holds st' (w ++ gapText i) ∧ st'.bufferI = st.bufferI := by
  unfold Line.gap
  unfold gapText at hroom ⊢
  split_ifs at hroom ⊢ with hi
  · exact sprintf_ok _ h hroom
  · exact ⟨st,rfl,by simpa using h,rfl⟩

/-- A hex column, with a byte or empty. -/
def hexText (b : Option UInt8) : Str := b.elim [' ',' ',' '] fun b => hex2 b ++ [' ']

/-- A character column. -/
def charText (b : UInt8) : Str :=
  if 32 ≤ b ∧ b < 127 then
    if b = 37 then [Char.ofNat b.toNat,Char.ofNat b.toNat] else [Char.ofNat b.toNat]
  else ['.']

theorem hexText_length (b : Option UInt8) : (hexText b).length = 3 := by
  cases b <;> rfl

theorem charText_length_le (b : UInt8) : (charText b).length ≤ 2 := by
  unfold charText
  split_ifs <;> simp

theorem character_ok (b : UInt8) (h : Holds st w) (hroom : w.length+(charText b).length < 100) : ∃ st',
    st.character b = .ok st' ∧ Holds st' (w ++ charText b) ∧ st'.bufferI = st.bufferI := by
  unfold Line.character
  unfold charText at hroom ⊢
  split_ifs at hroom ⊢ with hprint hpercent
  · obtain ⟨st₁,hfirst,h₁,hpos₁⟩ := sprintf_ok [Char.ofNat b.toNat] h (by simp at hroom ⊢; omega)
    obtain ⟨st₂,hsecond,h₂,hpos₂⟩ := sprintf_ok [Char.ofNat b.toNat] h₁ (by simp at hroom ⊢; omega)
    refine ⟨st₂,?_,by simpa using h₂,hpos₂.trans hpos₁⟩
    rw [hfirst, ok_bind, hsecond]
  · obtain ⟨st₁,hfirst,h₁,hpos₁⟩ := sprintf_ok [Char.ofNat b.toNat] h hroom
    exact ⟨st₁,by rw [hfirst, ok_bind],h₁,hpos₁⟩
  · exact sprintf_ok _ h hroom

end Pieces

section Columns
variable {st : Line} {w : Str} {done chunk rest : List UInt8} {i : ℕ}

def hexPiece (chunk : List UInt8) (i : ℕ) : Str := gapText i ++ hexText chunk[i]?

def charPiece (chunk : List UInt8) (i : ℕ) : Str := gapText i ++ (chunk[i]?.elim [] charText)

/-- The hex columns of a line. -/
def hexColumns (chunk : List UInt8) : Str := (List.range' 0 16).flatMap (hexPiece chunk)

/-- The characters of a line. -/
def charColumns (chunk : List UInt8) : Str := (List.range' 0 chunk.length).flatMap (charPiece chunk)

theorem byteAt_ok (done rest : List UInt8) (hi : i < chunk.length) :
    byteAt (done ++ chunk ++ rest) (done.length+i) = .ok chunk[i] := by
  have hget : (done ++ chunk ++ rest)[done.length+i]? = some chunk[i] := by
    rw [List.append_assoc, List.getElem?_append_right (by omega), Nat.add_sub_cancel_left,
      List.getElem?_append_left hi, List.getElem?_eq_getElem hi]
  rw [byteAt, hget]

/-- The first loop writes the hex columns, and moves on over the bytes that there are. -/
theorem hexColumn_ok (h : Holds st w) (hpos : st.bufferI = done.length+min i chunk.length)
    (hroom : w.length+(hexPiece chunk i).length < 100) : ∃ st',
    st.hexColumn (done ++ chunk ++ rest) chunk.length i = .ok st' ∧ Holds st' (w ++ hexPiece chunk i) ∧
      st'.bufferI = done.length+min (i+1) chunk.length := by
  rw [hexPiece, List.length_append] at hroom
  obtain ⟨st₁,hgap,h₁,hpos₁⟩ := gap_ok (i := i) h (by omega)
  have hroom₁ : (w ++ gapText i).length+(hexText chunk[i]?).length < 100 := by
    rw [List.length_append]
    omega
  -- behind the last byte of a short line the columns are blank, and the index stays
  by_cases hi : i < chunk.length
  · have hb := byteAt_ok done rest hi
    rw [List.getElem?_eq_getElem hi] at hroom₁
    obtain ⟨st₂,hhex,h₂,hpos₂⟩ := sprintf_ok _ h₁ hroom₁
    have hcur : st₁.bufferI = done.length+i := by omega
    refine ⟨{ st₂ with bufferI := st₂.bufferI+1 },?_,?_,?_⟩
    · rw [Line.hexColumn, hgap, ok_bind, if_pos hi, hcur, hb, ok_bind]
      simp only [hexText, Option.elim] at hhex
      rw [hhex, ok_bind]
    · rw [hexPiece, List.getElem?_eq_getElem hi, ← List.append_assoc]
      exact ⟨h₂.line,h₂.offset,h₂.size⟩
    · show st₂.bufferI+1 = _
      omega
  · rw [List.getElem?_eq_none (not_lt.mp hi)] at hroom₁
    obtain ⟨st₂,hblank,h₂,hpos₂⟩ := sprintf_ok _ h₁ hroom₁
    refine ⟨st₂,?_,?_,by omega⟩
    · rw [Line.hexColumn, hgap, ok_bind, if_neg hi]
      exact hblank
    · rw [hexPiece, List.getElem?_eq_none (not_lt.mp hi), ← List.append_assoc]
      exact h₂

/-- The second loop writes the same bytes as characters. -/
theorem textColumn_ok (hi : i < chunk.length) (h : Holds st w) (hpos : st.bufferI = done.length+i)
    (hroom : w.length+(charPiece chunk i).length < 100) : ∃ st',
    st.textColumn (done ++ chunk ++ rest) i = .ok st' ∧ Holds st' (w ++ charPiece chunk i) ∧
      st'.bufferI = done.length+(i+1) := by
  have hb := byteAt_ok done rest hi
  rw [charPiece, List.getElem?_eq_getElem hi, List.length_append] at hroom
  obtain ⟨st₁,hgap,h₁,hpos₁⟩ := gap_ok (i := i) h (by omega)
  have hroom₁ : (w ++ gapText i).length+(charText chunk[i]).length < 100 := by
    rw [List.length_append]
    simp only [Option.elim] at hroom
    omega
  obtain ⟨st₂,hchar,h₂,hpos₂⟩ := character_ok chunk[i] h₁ hroom₁
  refine ⟨{ st₂ with bufferI := st₂.bufferI+1 },?_,?_,?_⟩
  · rw [Line.textColumn, hgap, ok_bind, hpos₁, hpos, hb, ok_bind, hchar, ok_bind]
  · rw [charPiece, List.getElem?_eq_getElem hi, ← List.append_assoc]
    exact ⟨h₂.line,h₂.offset,h₂.size⟩
  · show st₂.bufferI+1 = _
    omega

theorem hexColumns_length (chunk : List UInt8) : (hexColumns chunk).length = 49 := by
  have hpiece (i : ℕ) : (hexPiece chunk i).length = (gapText i).length+3 := by
    rw [hexPiece, List.length_append, hexText_length]
  rw [hexColumns, List.length_flatMap, List.map_congr_left fun i _ => hpiece i]
  rfl

/-- At most two characters for each byte, and the gap. -/
theorem charColumns_length_le (hle : chunk.length ≤ 16) : (charColumns chunk).length ≤ 33 := by
  have hpiece (i : ℕ) : (charPiece chunk i).length ≤ (gapText i).length+2 := by
    rw [charPiece, List.length_append]
    cases chunk[i]? with
    | none => exact Nat.add_le_add_left (Nat.zero_le 2) _
    | some b => exact Nat.add_le_add_left (charText_length_le b) _
  -- counted from the left, the gap is there from the ninth byte on
  have hsum (n : ℕ) : ((List.range' 0 n).flatMap (charPiece chunk)).length ≤
      2*n+if 8 < n then 1 else 0 := by
    induction n with
    | zero => exact Nat.zero_le _
    | succ n ih =>
      have hn := hpiece n
      rw [List.range'_concat, List.flatMap_append, List.length_append, List.flatMap_singleton]
      unfold gapText at hn
      simp only [Nat.zero_add, Nat.one_mul] at hn ⊢
      split_ifs at hn ih ⊢ <;> simp at hn <;> omega
  have hall := hsum chunk.length
  rw [charColumns]
  split_ifs at hall <;> omega

theorem nul_notMem_gapText (i : ℕ) : NUL ∉ gapText i := by
  unfold gapText
  split_ifs <;> decide

theorem hexDigit_spec : ∀ n < 16, hexDigit n ≠ NUL ∧ hexValue (hexDigit n) = some n := by decide

/-- The two digits of a byte. -/
theorem byte_digits (b : UInt8) : b.toNat/16 < 16 ∧ b.toNat % 16 < 16 ∧
    UInt8.ofNat (16*(b.toNat/16)+b.toNat % 16) = b := by
  refine ⟨?_,Nat.mod_lt _ (by norm_num),?_⟩
  · have := b.toNat_lt
    omega
  · rw [Nat.div_add_mod, UInt8.ofNat_toNat]

theorem nul_notMem_hexColumns (chunk : List UInt8) : NUL ∉ hexColumns chunk := by
  intro hmem
  obtain ⟨i,-,hi⟩ := List.mem_flatMap.mp hmem
  rcases List.mem_append.mp hi with hgap | hhex
  · exact nul_notMem_gapText i hgap
  · cases hb : chunk[i]? with
    | none =>
      rw [hb] at hhex
      exact absurd hhex (by decide)
    | some b =>
      obtain ⟨hhigh,hlow,-⟩ := byte_digits b
      have hhigh' := (hexDigit_spec _ hhigh).1.symm
      have hlow' := (hexDigit_spec _ hlow).1.symm
      rw [hb] at hhex
      simp [hexText, hex2, hhigh', hlow'] at hhex
      exact absurd hhex (by decide)

theorem nul_notMem_charText (b : UInt8) : NUL ∉ charText b := by
  unfold charText
  split_ifs with hprint hpercent
  · subst hpercent
    decide
  · have hne : Char.ofNat b.toNat ≠ NUL := by
      have hlow : 32 ≤ b.toNat := by simpa using UInt8.le_iff_toNat_le.mp hprint.1
      have hhigh : b.toNat < 127 := by simpa using UInt8.lt_iff_toNat_lt.mp hprint.2
      -- one of 95 characters
      generalize b.toNat = n at hlow hhigh
      interval_cases n <;> decide
    simpa using hne.symm
  · decide

theorem nul_notMem_charColumns (chunk : List UInt8) : NUL ∉ charColumns chunk := by
  intro hmem
  obtain ⟨i,-,hi⟩ := List.mem_flatMap.mp hmem
  rcases List.mem_append.mp hi with hgap | hchar
  · exact nul_notMem_gapText i hgap
  · cases hb : chunk[i]? with
    | none =>
      rw [hb] at hchar
      cases hchar
    | some b =>
      rw [hb] at hchar
      exact nul_notMem_charText b hchar

theorem byteOf_hex2 (b : UInt8) : byteOf (hexDigit (b.toNat/16)) (hexDigit (b.toNat % 16)) = some b := by
  obtain ⟨hhigh,hlow,hb⟩ := byte_digits b
  rw [byteOf, (hexDigit_spec _ hhigh).2, (hexDigit_spec _ hlow).2]
  show some _ = some b
  rw [hb]

/-- The last k columns are those of the bytes from 16-k on. -/
theorem readColumns_hexPieces (hle : chunk.length ≤ 16) (t : Str) {k : ℕ} (hk : k ≤ 16) :
    readColumns k ((List.range' (16-k) k).flatMap (hexPiece chunk) ++ t) = chunk.drop (16-k) := by
  induction k with
  | zero =>
    rw [readColumns, List.drop_eq_nil_of_le (by omega)]
  | succ k ih =>
    have hnext : 16-(k+1)+1 = 16-k := by omega
    have hrest := ih (by omega)
    -- the reader drops the gap where the writer put it
    have hgap (s : Str) : (if k+1 = 8 then (gapText (16-(k+1)) ++ s).drop 1 else gapText (16-(k+1)) ++ s) = s := by
      by_cases h8 : k+1 = 8
      · rw [if_pos h8, gapText, if_pos (by omega)]
        rfl
      · rw [if_neg h8, gapText, if_neg (by omega)]
        rfl
    rw [List.range'_succ, hnext, List.flatMap_cons, readColumns, hexPiece, List.append_assoc, List.append_assoc,
      hgap]
    cases hb : chunk[16-(k+1)]? with
    | none =>
      have hend : chunk.length ≤ 16-(k+1) := List.getElem?_eq_none_iff.mp hb
      rw [List.drop_eq_nil_of_le (by omega)] at hrest
      rw [List.drop_eq_nil_of_le hend]
      exact hrest
    | some b =>
      obtain ⟨hlt,rfl⟩ := List.getElem?_eq_some_iff.mp hb
      rw [List.drop_eq_getElem_cons hlt, hnext, ← hrest]
      show (byteOf _ _).toList ++ _ = _
      rw [byteOf_hex2]
      rfl

theorem readColumns_hexColumns (hle : chunk.length ≤ 16) (t : Str) :
    readColumns 16 (hexColumns chunk ++ t) = chunk :=
  readColumns_hexPieces hle t (le_refl 16)

end Columns

section Lines
variable {st : Line} {w : Str} {done chunk rest : List UInt8} {str : Str}

def lineText (chunk : List UInt8) : Str := hexColumns chunk ++ [':',' '] ++ charColumns chunk ++ ['\n']

/-- 11+49+2+33+1 characters at most, and the NUL. -/
theorem fill_ok (rest : List UInt8) (hle : chunk.length ≤ 16) (h : Holds st w) (hw : w.length ≤ 11) (hnul : NUL ∉ w)
    (hpos : st.bufferI = done.length) : ∃ st',
    st.fill (done ++ chunk ++ rest) chunk.length = .ok st' ∧ Holds st' (w ++ lineText chunk) ∧
      cString st'.line = w ++ lineText chunk ∧ (w ++ lineText chunk).length < 100 ∧
      st'.bufferI = (done ++ chunk).length := by
  have hhex := hexColumns_length chunk
  have hchar := charColumns_length_le hle
  -- the hex columns, which are as long in a short line
  obtain ⟨st₁,hloop₁,h₁,hpos₁⟩ := forRange_pieces
    (Line.hexColumn (done ++ chunk ++ rest) chunk.length) (hexPiece chunk)
    (fun i => done.length+min i chunk.length) (fun i st w _ h hpos hroom => hexColumn_ok h hpos hroom)
    (Nat.zero_le 16) h (by simpa using hpos) (show w.length+(hexColumns chunk).length < 100 by omega)
  have hlen₁ : (w ++ hexColumns chunk).length = w.length+49 := by rw [List.length_append, hhex]
  obtain ⟨st₂,hcolon,h₂,hpos₂⟩ := sprintf_ok [':',' '] h₁
    (show (w ++ hexColumns chunk).length+2 < 100 by omega)
  have hlen₂ : (w ++ hexColumns chunk ++ [':',' ']).length = w.length+51 := by
    rw [List.length_append, hlen₁]
    rfl
  -- back to the first byte of the line
  have hback : st₂.bufferI-chunk.length = done.length+0 := by
    rw [hpos₂, hpos₁]
    omega
  have h₂' : Holds { st₂ with bufferI := st₂.bufferI-chunk.length } (w ++ hexColumns chunk ++ [':',' ']) :=
    ⟨h₂.line,h₂.offset,h₂.size⟩
  -- the characters, which end the longest line at 84 behind the tag
  obtain ⟨st₃,hloop₂,h₃,hpos₃⟩ := forRange_pieces (Line.textColumn (done ++ chunk ++ rest))
    (charPiece chunk) (done.length+·) (fun i st w hi h hpos hroom => textColumn_ok hi h hpos hroom)
    (Nat.zero_le _) h₂' hback
    (show (w ++ hexColumns chunk ++ [':',' ']).length+(charColumns chunk).length < 100 by omega)
  have htext : w ++ hexColumns chunk ++ [':',' '] ++ charColumns chunk ++ ['\n'] = w ++ lineText chunk := by
    simp [lineText]
  have hlen₃ : (w ++ hexColumns chunk ++ [':',' '] ++ charColumns chunk).length ≤ w.length+84 := by
    rw [List.length_append, hlen₂]
    omega
  have hroom : (w ++ hexColumns chunk ++ [':',' '] ++ charColumns chunk).length+['\n'].length < 100 := by
    rw [List.length_singleton]
    omega
  have hclean : NUL ∉ w ++ lineText chunk := by
    simp only [lineText, List.mem_append, not_or]
    exact ⟨hnul,⟨⟨nul_notMem_hexColumns chunk,by decide⟩,nul_notMem_charColumns chunk⟩,by decide⟩
  obtain ⟨st',hend,h',hpos'⟩ := sprintf_ok ['\n'] h₃ hroom
  refine ⟨st',?_,htext ▸ h',?_,?_,?_⟩
  · rw [Line.fill, hloop₁, ok_bind, hcolon, ok_bind]
    rw [hloop₂, ok_bind, hend]
  · rw [← htext] at hclean ⊢
    exact sprintf_cString h₃ hroom hclean hend
  · rw [← htext, List.length_append]
    exact hroom
  · rw [hpos', hpos₃, List.length_append]

/-- The lines of what is left of the data. -/
theorem printLines_ok (done rest : List UInt8) (hw : w.length ≤ 11) (hnul : NUL ∉ w) (h : Holds st w)
    (hpos : st.bufferI = done.length) : ∃ lines,
    printLines (done ++ rest) w.length rest.length st = .ok lines ∧ lines.length = (rest.length+15)/16 ∧
      (∀ l ∈ lines, l.length+1 ≤ 100 ∧ w <+: l) ∧
      lines.flatMap (fun l => readColumns 16 (l.drop w.length)) = rest := by
  -- on the bytes that are left, up to sixteen less with each line
  induction hn : rest.length using Nat.strong_induction_on generalizing st done rest with
  | _ n ih =>
    subst hn
    rw [printLines]
    by_cases hlen : 0 < rest.length
    · -- the bytes of one line, and those of the others
      have hsplit : done ++ rest = done ++ rest.take 16 ++ rest.drop 16 := by
        rw [List.append_assoc, List.take_append_drop]
      have hchunk : (rest.take 16).length = min rest.length 16 := by rw [List.length_take, min_comm]
      have hleft : (rest.drop 16).length = rest.length-min rest.length 16 := by
        rw [List.length_drop]
        omega
      obtain ⟨st₁,hfill,h₁,hprinted,hfits,hpos₁⟩ := fill_ok (rest.drop 16)
        (show (rest.take 16).length ≤ 16 by omega) h hw hnul hpos
      have h₁' : Holds { st₁ with lineOffset := w.length } w := by
        obtain ⟨r,hr⟩ := h₁.line
        exact ⟨⟨lineText (rest.take 16) ++ r,by rw [hr, List.append_assoc]⟩,rfl,h₁.size⟩
      obtain ⟨lines,hrest,hcount,hall,hcols⟩ := ih (rest.drop 16).length (by omega) _ _ h₁' hpos₁ rfl
      rw [← hsplit, hchunk] at hfill
      rw [← hsplit, hleft] at hrest
      refine ⟨(w ++ lineText (rest.take 16)) :: lines,?_,?_,?_,?_⟩
      · rw [if_pos hlen, hfill, ok_bind, hrest, ok_bind, hprinted]
      · rw [List.length_cons, hcount]
        omega
      · intro l hl
        rcases List.mem_cons.mp hl with rfl | hl
        · exact ⟨hfits,List.prefix_append _ _⟩
        · exact hall l hl
      · rw [List.flatMap_cons, hcols, List.drop_left, lineText, List.append_assoc, List.append_assoc,
          readColumns_hexColumns (by omega), List.take_append_drop]
    · obtain rfl : rest = [] := List.eq_nil_of_length_eq_zero (by omega)
      exact ⟨[],by rw [if_neg hlen],rfl,fun l hl => absurd hl List.not_mem_nil,rfl⟩

end Lines

section Tags
variable {line : Fin 100 → Char} {s : Str} {n : ℤ}

theorem memcpyLine_ok {k : ℕ} (hk : k ≤ 9) (hle : k ≤ s.length) (line : Fin 100 → Char) :
    memcpyLine (List.ofFn line) s k = .ok (s.take k ++ (List.ofFn line).drop k) := by
  have hsize : ((k : ℤ) % 2^64).toNat = k := by omega
  have hlen : (s.take k).length = k := List.length_take_of_le hle
  have hstore := store_ok (List.nil_append (List.ofFn line)).symm rfl
    (show (s.take k).length ≤ (List.ofFn line).length by rw [hlen, List.length_ofFn]; omega)
  rw [hlen] at hstore
  simp only [memcpyLine, hsize, if_pos hle]
  exact hstore

/-- A negative size is larger than the line when it is a size_t. -/
theorem memcpyLine_error (hneg : n < 0) (hlow : -2^31 ≤ n) :
    memcpyLine (List.ofFn line) s n = .error .outOfBounds := by
  have hsize : 2^63 ≤ (n % 2^64).toNat := by omega
  simp only [memcpyLine]
  split_ifs with hle
  · apply store_error
    rw [List.length_ofFn, List.length_take_of_le hle]
    omega
  · rfl

/-- The length of a tag as an int: it is not more than there is, or it is negative. -/
theorem int32_length (k : ℕ) : (k % 2^32 < 2^31 → 0 ≤ int32 k ∧ int32 k ≤ k) ∧
    (¬k % 2^32 < 2^31 → int32 k < 0 ∧ -2^31 ≤ int32 k) := by
  have := Nat.mod_le k (2^32)
  have := Nat.mod_lt k (Nat.two_pow_pos 32)
  unfold int32
  split_ifs with h
  · exact ⟨fun _ => by omega,fun hneg => absurd h hneg⟩
  · exact ⟨fun hpos => absurd hpos h,fun _ => by omega⟩

theorem nul_notMem_head (str : Str) : NUL ∉ head str := by
  intro hmem
  rcases List.mem_append.mp hmem with htag | hcolon
  · exact nul_notMem_cString str (List.mem_of_mem_take htag)
  · exact absurd hcolon (by decide)

/-- The line with the tag in it. -/
theorem tag_holds {str : Str} {k : ℕ} (htag : tag str = (cString str).take k) (hlen : (tag str).length = k)
    (line : Fin 100 → Char) (hk : k ≤ 9) :
    Holds ⟨(cString str).take k ++ (List.ofFn line).drop k,k,0⟩ (tag str) := by
  refine ⟨⟨_,congrArg (· ++ (List.ofFn line).drop k) htag.symm⟩,hlen.symm,?_⟩
  rw [List.length_append, ← htag, hlen, List.length_drop, List.length_ofFn]
  omega

end Tags

/-- All of the data is printed in lines that fit, if the length of the tag is an int that is not
negative. -/
theorem prints_iff (line : Fin 100 → Char) (str : Str) (data : List UInt8) :
    Prints line str data ↔ (cString str).length % 2^32 < 2^31 := by
  obtain ⟨hsmall,hlarge⟩ := int32_length (cString str).length
  by_cases hlen : (cString str).length % 2^32 < 2^31
  · refine iff_of_true ?_ hlen
    obtain ⟨hpos,hle⟩ := hsmall hlen
    obtain ⟨n,hn⟩ := Int.eq_ofNat_of_zero_le hpos
    -- the tag is cut to nine characters
    have hoffset : (if int32 (cString str).length > 9 then 9 else int32 (cString str).length) =
        ((min 9 n : ℕ) : ℤ) := by
      rw [hn]
      split_ifs <;> omega
    have htag : tag str = (cString str).take (min 9 n) := by
      rw [tag, hn]
      congr 1
      omega
    have htagLen : (tag str).length = min 9 n := by
      rw [htag, List.length_take]
      omega
    have hcopy := memcpyLine_ok (show min 9 n ≤ 9 by omega) (show min 9 n ≤ (cString str).length by omega) line
    obtain ⟨st,hcolon,hst,hfirst⟩ := sprintf_ok [':',' '] (tag_holds htag htagLen line (by omega))
      (show (tag str).length+2 < 100 by omega)
    have hhead : (head str).length ≤ 11 := by
      show (tag str ++ [':',' ']).length ≤ 11
      rw [List.length_append, htagLen]
      show min 9 n+2 ≤ 11
      omega
    obtain ⟨lines,hlines,hcount,hall,hcols⟩ := printLines_ok [] data hhead
      (nul_notMem_head str) hst hfirst
    refine ⟨lines,?_,hcount,hall,hcols⟩
    rw [printBuffer2, hoffset, hcopy, ok_bind, Int.toNat_natCast, hcolon, ok_bind, hst.offset]
    exact hlines
  · refine iff_of_false ?_ hlen
    -- a negative length is not cut, and is a huge size
    obtain ⟨hneg,hlow⟩ := hlarge hlen
    rintro ⟨lines,hprint,-⟩
    rw [printBuffer2, if_neg (by omega), memcpyLine_error hneg hlow] at hprint
    cases hprint

/-- A tag of 2^31 characters. -/
theorem long_tag_not_printed : ¬Prints (fun _ => NUL) (List.replicate (2^31) 'x') [65] := by
  have hclean : NUL ∉ List.replicate (2^31) 'x' := fun h => absurd (List.eq_of_mem_replicate h) (by decide)
  obtain ⟨hneg,hlow⟩ := (int32_length (2^31)).2 (by norm_num)
  rintro ⟨lines,hprint,-⟩
  rw [printBuffer2, cString_self hclean, List.length_replicate, if_neg (by omega),
    memcpyLine_error hneg hlow] at hprint
  cases hprint

end JhCommon.PrintBuffer
