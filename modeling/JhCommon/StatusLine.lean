import JhCommon.LineSearch

/-! What `parseFirstLine` takes off, beside the line that the search has found. -/
namespace JhCommon
open CircularBuffer RingMemory

namespace HttpResponse

/-- The length of a status line, with the empty line behind a 100. -/
def statusLength (n : ℕ) (code : ℤ) (rest : List UInt8) : ℤ :=
  if code = 100 ∧ crlf <+: rest then (n+2 : ℕ) else (n : ℕ)

/-- Of the line that is found in a buffer all bytes are consumed or none, and the code that is stored
is the one of the line when nothing has come behind it. -/
def ConsumesStatusLine (buf : CircularBuffer) : Prop :=
  ¬crlf <+: buf.contents → ∀ n : ℕ, 0 < n → buf.searchForLine = n → ∀ s : HttpResponse,
    ((s.parseFirstLine buf).1 = statusLength n (s.parseFirstLine buf).2.mResponseCode
        (buf.contents.drop n) ∨ (s.parseFirstLine buf).1 = -1) ∧
    ∀ line : CircularBuffer, line.WellFormed → line.contents = buf.contents.take n →
      (s.parseFirstLine line).2.mResponseCode = (s.parseFirstLine buf).2.mResponseCode

/-- The text behind a code has no CR or LF, or it ends in one or two LFs behind a 100: the line break
is then taken for the empty line. -/
def TextEndsLine (code : ℤ) (text rest : List UInt8) : Prop :=
  textEnd text = [] ∨
    (code = 100 ∧ ¬crlf <+: rest ∧ (textEnd text = [10] ∨ textEnd text = [10,10]))

def codeValue (q : List UInt8) : ℤ := toInt32 (strtol (cStr (statusCode q))).value

/-- No space ends a code in the bytes, or one does in the first line: behind it the text goes up to
the end of the line, where the code is a number. -/
def StatusLineReads (buf : CircularBuffer) : Prop :=
  ¬crlf <+: buf.contents → ∀ n : ℕ, 0 < n → buf.searchForLine = n →
    behindCode buf.contents = [] ∨
    ∃ text, behindCode buf.contents = 32 :: (text ++ crlf ++ buf.contents.drop n) ∧
      (Converts (statusCode buf.contents) →
        TextEndsLine (codeValue buf.contents) text (buf.contents.drop n))

section
variable {N n : ℕ} {buf : CircularBuffer} {q line rest read tail text cs : List UInt8}
  {s : HttpResponse}

/-- Bytes are dropped from a list as from its first part, or all of that part is. -/
theorem dropWhile_append_cases (p : UInt8 → Bool) (line rest : List UInt8) :
    (line.dropWhile p = [] ∧ (line ++ rest).dropWhile p = rest.dropWhile p) ∨
    (line.dropWhile p ≠ [] ∧ (line ++ rest).dropWhile p = line.dropWhile p ++ rest) := by
  rw [List.dropWhile_append]
  by_cases hnil : line.dropWhile p = []
  · exact .inl ⟨hnil,if_pos (by rw [hnil]; rfl)⟩
  · exact .inr ⟨hnil,if_neg (by simpa using hnil)⟩

theorem dropWhile_append_of_ne (p : UInt8 → Bool) (h : line.dropWhile p ≠ []) :
    (line ++ rest).dropWhile p = line.dropWhile p ++ rest :=
  (dropWhile_append_cases p line rest).elim (fun hcase => absurd hcase.1 h) And.right

/-- A code that ends in the first part of the bytes is the same in all of them. -/
theorem code_append (h : behindCode line ≠ []) (rest : List UInt8) :
    statusCode (line ++ rest) = statusCode line ∧
      behindCode (line ++ rest) = behindCode line ++ rest := by
  have hstart : codeStart line ≠ [] := by
    intro hnil
    rw [behindCode, hnil] at h
    exact h rfl
  have hprotocol : line.dropWhile (fun c => decide (c ≠ 32)) ≠ [] := by
    intro hnil
    rw [codeStart, hnil] at hstart
    exact hstart rfl
  have hcode : codeStart (line ++ rest) = codeStart line ++ rest := by
    rw [codeStart, dropWhile_append_of_ne _ hprotocol]
    exact dropWhile_append_of_ne _ hstart
  constructor
  · rw [statusCode, hcode, List.takeWhile_append]
    apply if_neg
    intro hlen
    have hsplit : statusCode line ++ behindCode line = codeStart line :=
      List.takeWhile_append_dropWhile
    have hsum := congrArg List.length hsplit
    rw [List.length_append, statusCode, hlen] at hsum
    exact h (List.length_eq_zero_iff.mp (by omega))
  · rw [behindCode, hcode]
    exact dropWhile_append_of_ne _ h

/-- Where no code ends in the first part, it ends in the rest or not at all. -/
theorem behindCode_suffix (h : behindCode line = []) (rest : List UInt8) :
    behindCode (line ++ rest) <:+ rest := by
  have hdrop : ∀ (p : UInt8 → Bool) (cs : List UInt8), cs.dropWhile p <:+ cs :=
    fun p cs => List.dropWhile_suffix p
  unfold behindCode codeStart at h ⊢
  rcases dropWhile_append_cases (fun c => decide (c ≠ 32)) line rest with ⟨-,heq⟩ | ⟨-,heq⟩
  · rw [heq]
    exact (hdrop _ _).trans ((hdrop _ _).trans (hdrop _ _))
  rw [heq]
  rcases dropWhile_append_cases (fun c => decide (c = 32))
    (line.dropWhile fun c => decide (c ≠ 32)) rest with ⟨-,heq⟩ | ⟨-,heq⟩
  · rw [heq]
    exact (hdrop _ _).trans (hdrop _ _)
  rw [heq]
  rcases dropWhile_append_cases (fun c => decide (c ≠ 32))
    ((line.dropWhile fun c => decide (c ≠ 32)).dropWhile fun c => decide (c = 32)) rest
    with ⟨-,heq⟩ | ⟨hne,-⟩
  · rw [heq]
    exact hdrop _ _
  · exact absurd h hne

/-- A line break alone ends no code. -/
theorem behindCode_crlf (h : behindCode line = []) : behindCode (line ++ crlf) = [] := by
  have hsuffix := behindCode_suffix h crlf
  cases hbehind : behindCode (line ++ crlf) with
  | nil => rfl
  | cons c cs =>
    rw [hbehind, behindCode_head hbehind] at hsuffix
    have hmem : (32 : UInt8) ∈ crlf := hsuffix.subset List.mem_cons_self
    exact absurd hmem (by decide)

theorem one_lt_length (hempty : ¬crlf <+: line ++ 13 :: 10 :: rest) :
    1 < (line ++ 13 :: 10 :: rest).length ∧ ¬((line ++ 13 :: 10 :: rest).head? = some 13 ∧
      (line ++ 13 :: 10 :: rest).tail.head? = some 10) := by
  constructor
  · simp only [List.length_append, List.length_cons]
    omega
  · rintro ⟨hhead,hnext⟩
    cases hq : line ++ 13 :: 10 :: rest with
    | nil => simp at hq
    | cons c cs =>
      rw [hq] at hhead hnext hempty
      obtain rfl : c = 13 := Option.some.inj hhead
      cases cs with
      | nil => cases hnext
      | cons d cs =>
        obtain rfl : d = 10 := Option.some.inj hnext
        exact hempty ⟨cs,rfl⟩

/-- What `parseFirstLine` does where no code ends, where it is no number, and where it is one. -/
theorem parseFirstLine_cases (h : buf.Holds N q) (hq : q = line ++ 13 :: 10 :: rest)
    (hempty : ¬crlf <+: q) (s : HttpResponse) :
    (behindCode q = [] → s.parseFirstLine buf = (-1,s)) ∧
    ∀ cs, behindCode q = 32 :: cs →
      (¬Converts (statusCode q) →
        s.parseFirstLine buf = (-1,{ s with mResponseCode := codeValue q })) ∧
      (Converts (statusCode q) → s.parseFirstLine buf =
        endText { s with mResponseCode := codeValue q } buf q (textEnd cs)) := by
  obtain ⟨hlong,hfirst⟩ := one_lt_length (hq ▸ hempty)
  rw [parseFirstLine_eq h (hq ▸ hlong) (hq ▸ hfirst)]
  constructor
  · intro hbehind
    rw [hbehind, endCode]
  · intro cs hbehind
    rw [hbehind, endCode]
    unfold Converts
    constructor
    · intro hbad
      apply if_pos
      by_contra hnot
      push Not at hnot
      exact hbad ⟨by simpa using hnot.1,by simpa using hnot.2⟩
    · rintro ⟨hconverted,hrange⟩
      rw [hconverted, hrange]
      exact if_neg (by decide)

/-- The code that is stored. -/
theorem parseFirstLine_code (h : buf.Holds N q) (hq : q = line ++ 13 :: 10 :: rest)
    (hempty : ¬crlf <+: q) (s : HttpResponse) :
    (behindCode q = [] → (s.parseFirstLine buf).2.mResponseCode = s.mResponseCode) ∧
    (behindCode q ≠ [] → (s.parseFirstLine buf).2.mResponseCode = codeValue q) := by
  obtain ⟨hnone,hsome⟩ := parseFirstLine_cases h hq hempty s
  constructor
  · intro hbehind
    rw [hnone hbehind]
  · intro hbehind
    obtain ⟨c,cs,hcs⟩ := List.exists_cons_of_ne_nil hbehind
    obtain rfl := behindCode_head hcs
    obtain ⟨hbad,hgood⟩ := hsome cs hcs
    by_cases hconverts : Converts (statusCode q)
    · rw [hgood hconverts]
      cases textEnd cs <;> rfl
    · rw [hbad hconverts]

/-- What `endFirstLine` returns, with a LF to come or without. -/
theorem endFirstLine_eq (h : buf.Holds N (read ++ tail)) (s : HttpResponse) :
    (∀ rest, tail = 10 :: rest →
      s.endFirstLine buf read.length = statusLength (read.length+1) s.mResponseCode rest) ∧
    (tail.head? ≠ some 10 →
      s.endFirstLine buf read.length = statusLength read.length s.mResponseCode tail) := by
  have hlen : buf.getLength = (read ++ tail).length := h.len_eq
  have hbyte : ∀ i (k : UInt8), buf.byteAt (read.length+i) = (k.toNat : ℤ) ↔
      (tail.drop i).head? = some k := by
    intro i k
    rw [h.byteAt_eq_iff, ← List.drop_drop, List.drop_left]
  -- the two tests are for a line end in what is not read yet
  have hempty : ∀ i, (read.length+i+1 < buf.getLength ∧ buf.byteAt (read.length+i) = 13 ∧
      buf.byteAt (read.length+i+1) = 10) ↔ crlf <+: tail.drop i := by
    intro i
    have hcr : buf.byteAt (read.length+i) = 13 ↔ (tail.drop i).head? = some 13 := hbyte i 13
    have hlf : buf.byteAt (read.length+i+1) = 10 ↔ (tail.drop (i+1)).head? = some 10 := hbyte (i+1) 10
    rw [hcr, hlf, hlen, List.length_append, ← List.tail_drop]
    have hlong : read.length+i+1 < read.length+tail.length ↔ 1 < (tail.drop i).length := by
      rw [List.length_drop]
      omega
    rw [hlong]
    cases tail.drop i with
    | nil => exact iff_of_false (fun hc => by cases hc.2.1) (by decide)
    | cons c cs =>
      cases cs with
      | nil => exact iff_of_false (fun hc => by cases hc.2.2) (fun hp => by simp [crlf] at hp)
      | cons d cs => simp [crlf, eq_comm]
  constructor
  · rintro rest rfl
    have hlf : read.length < buf.getLength ∧ buf.byteAt read.length = 10 := by
      constructor
      · rw [hlen, List.length_append, List.length_cons]
        omega
      · exact (hbyte 0 10).mpr rfl
    have hbehind := hempty 1
    rw [List.drop_succ_cons, List.drop_zero] at hbehind
    unfold endFirstLine statusLength
    rw [if_pos hlf]
    simp only [hbehind]
  · intro hhead
    have hlf : ¬(read.length < buf.getLength ∧ buf.byteAt read.length = 10) :=
      fun hc => hhead ((hbyte 0 10).mp hc.2)
    have hbehind := hempty 0
    simp only [List.drop_zero, Nat.add_zero] at hbehind
    unfold endFirstLine statusLength
    rw [if_neg hlf]
    simp only [hbehind]

theorem le_statusLength (n : ℕ) (code : ℤ) (rest : List UInt8) :
    (n : ℤ) ≤ statusLength n code rest ∧ statusLength n code rest ≤ n+2 := by
  unfold statusLength
  split_ifs <;> omega

/-- A text that ends too early falls short of the line. -/
theorem statusLength_early {i : ℕ} (hi : i < n) (code : ℤ) (tail rest : List UInt8) :
    ¬(statusLength i code tail = statusLength (n+2) code rest ∨ statusLength i code tail = -1) := by
  have hi' := le_statusLength i code tail
  have hn := (le_statusLength (n+2) code rest).1
  omega

/-- In front of the line break only a 100 comes to the length of the line. -/
theorem statusLength_break (n : ℕ) (code : ℤ) (rest : List UInt8) :
    (statusLength n code (13 :: 10 :: rest) = statusLength (n+2) code rest ∨
      statusLength n code (13 :: 10 :: rest) = -1) ↔ code = 100 ∧ ¬crlf <+: rest := by
  have hcrlf : crlf <+: 13 :: 10 :: rest := ⟨rest,rfl⟩
  have hneg : statusLength n code (13 :: 10 :: rest) ≠ -1 := by
    have hle := (le_statusLength n code (13 :: 10 :: rest)).1
    omega
  rw [or_iff_left hneg]
  unfold statusLength
  by_cases hcode : code = 100
  · by_cases hrest : crlf <+: rest
    · rw [if_pos ⟨hcode,hcrlf⟩, if_pos ⟨hcode,hrest⟩]
      exact iff_of_false (by omega) (fun hc => hc.2 hrest)
    · rw [if_pos ⟨hcode,hcrlf⟩, if_neg (fun hc => hrest hc.2)]
      exact iff_of_true rfl ⟨hcode,hrest⟩
  · rw [if_neg (fun hc => hcode hc.1), if_neg (fun hc => hcode hc.1)]
    exact iff_of_false (by omega) (fun hc => hcode hc.1)

/-- What is returned where the text ends at c. -/
theorem endText_split {c : UInt8} (read tail : List UInt8) (s : HttpResponse) :
    s.endText buf (read ++ c :: tail) (c :: tail) = (s.endFirstLine buf (read ++ [c]).length,s) := by
  have hindex : (read ++ c :: tail).length-tail.length = (read ++ [c]).length := by
    simp only [List.length_append, List.length_cons, List.length_nil]
    omega
  rw [endText, hindex]

/-- The text ends at its first CR or LF, which is the line break where it holds none. -/
theorem textEnd_append (text rest : List UInt8) :
    textEnd (text ++ 13 :: 10 :: rest) =
      if textEnd text = [] then 13 :: 10 :: rest else textEnd text ++ 13 :: 10 :: rest := by
  have hstop : textEnd (13 :: 10 :: rest) = 13 :: 10 :: rest :=
    List.dropWhile_cons_of_neg (by decide)
  rcases dropWhile_append_cases (fun c => decide (c ≠ 13 ∧ c ≠ 10)) text (13 :: 10 :: rest) with
    ⟨hnil,heq⟩ | ⟨hne,heq⟩
  · have hnil : textEnd text = [] := hnil
    rw [if_pos hnil]
    exact heq.trans hstop
  · have hne : textEnd text ≠ [] := hne
    rw [if_neg hne]
    exact heq

/-- Where a text ends, there is a CR or LF. -/
theorem textEnd_head {c : UInt8} (h : textEnd text = c :: tail) : c = 13 ∨ c = 10 := by
  have hhead := List.head?_dropWhile_not (fun b : UInt8 => decide (b ≠ 13 ∧ b ≠ 10)) text
  rw [← textEnd, h] at hhead
  have hstop : ¬(c ≠ 13 ∧ c ≠ 10) := by simpa using hhead
  tauto

/-- In front of the end of a text there is no CR. -/
theorem text_split (text : List UInt8) : ∃ plain, text = plain ++ textEnd text ∧ 13 ∉ plain := by
  refine ⟨text.takeWhile fun c => decide (c ≠ 13 ∧ c ≠ 10),List.takeWhile_append_dropWhile.symm,?_⟩
  intro hmem
  have hne := List.mem_takeWhile_imp hmem
  exact absurd hne (by decide)

/-- A line whose text ends inside of it is split there, behind bytes that end in no CR. -/
theorem line_split {before : List UInt8} {c : UInt8} (hline : line = before ++ 32 :: text)
    (hend : textEnd text = c :: tail) : ∃ read, line = read ++ c :: tail ∧ crRun read = 0 := by
  obtain ⟨plain,htext,hplain⟩ := text_split text
  rw [hend] at htext
  refine ⟨before ++ 32 :: plain,?_,crRun_plain (by decide) hplain before⟩
  rw [hline, htext, List.append_assoc, List.cons_append]

/-- What is returned where the text ends at c: an LF right behind it is taken off too. -/
theorem endText_at {c : UInt8} (h : buf.Holds N (read ++ c :: tail)) (s : HttpResponse) :
    (∀ rest, tail = 10 :: rest → (s.endText buf (read ++ c :: tail) (c :: tail)).1 =
        statusLength (read.length+2) s.mResponseCode rest) ∧
      (tail.head? ≠ some 10 → (s.endText buf (read ++ c :: tail) (c :: tail)).1 =
        statusLength (read.length+1) s.mResponseCode tail) := by
  have hholds : buf.Holds N ((read ++ [c]) ++ tail) := by
    rwa [List.append_assoc, List.singleton_append]
  have hlen : (read ++ [c]).length = read.length+1 := by
    rw [List.length_append, List.length_singleton]
  have hreturns := endFirstLine_eq hholds s
  rw [hlen] at hreturns
  rw [endText_split, hlen]
  exact hreturns

/-- A CR as the last byte of the line would hide the line break. -/
theorem ends_in_lf {c : UInt8} (hend : textEnd text = [c]) (hline : line = read ++ [c])
    (hrun : crRun read = 0) (heven : Even (crRun line)) : c = 10 := by
  refine (textEnd_head hend).resolve_left fun hc => ?_
  rw [hline, hc, crRun_cr, hrun] at heven
  exact absurd heven (by decide)

/-- A line break of its own in the line would have been found first. -/
theorem ends_in_two_lfs {c : UInt8} (hend : textEnd text = [c,10]) (hline : line = read ++ [c,10])
    (hrun : crRun read = 0)
    (hleast : ∀ m, CleanEndAt (line ++ 13 :: 10 :: rest) m → line.length+2 ≤ m) : c = 10 := by
  refine (textEnd_head hend).resolve_left fun hc => ?_
  have hends : CleanEndAt (line ++ 13 :: 10 :: rest) (read.length+2) := by
    constructor
    · exact ⟨read,13 :: 10 :: rest,by rw [hline, hc]; simp,by simp [NoContinuation],rfl⟩
    · rw [hline, Nat.add_sub_cancel, List.append_assoc, List.take_left, hrun]
      exact Even.zero
  have hle := hleast _ hends
  rw [hline, List.length_append, List.length_cons, List.length_singleton] at hle
  omega

/-- The text behind a code ends with the line that is found, or it does not. -/
theorem endText_iff {before : List UInt8} (h : buf.Holds N q)
    (hq : q = line ++ 13 :: 10 :: rest) (hline : line = before ++ 32 :: text)
    (heven : Even (crRun line)) (hleast : ∀ m, CleanEndAt q m → line.length+2 ≤ m)
    (s : HttpResponse) :
    ((s.endText buf q (textEnd (text ++ 13 :: 10 :: rest))).1 =
        statusLength (line.length+2) s.mResponseCode rest ∨
      (s.endText buf q (textEnd (text ++ 13 :: 10 :: rest))).1 = -1) ↔
      TextEndsLine s.mResponseCode text rest := by
  rw [textEnd_append]
  cases hend : textEnd text with
  | nil =>
    subst hq
    rw [if_pos rfl]
    exact iff_of_true (.inl ((endText_at h s).1 rest rfl)) (.inl hend)
  | cons c more =>
    -- the text stops at c, so the rest of the line decides
    obtain ⟨read,hsplit,hrun⟩ := line_split hline hend
    have hlong : line.length = read.length+(more.length+1) := by
      rw [hsplit, List.length_append, List.length_cons]
    have hq' : q = read ++ c :: (more ++ 13 :: 10 :: rest) := by
      rw [hq, hsplit, List.append_assoc, List.cons_append]
    rw [if_neg (List.cons_ne_nil c more), List.cons_append, TextEndsLine, hend]
    rw [hq'] at h ⊢
    obtain ⟨hlf,hother⟩ := endText_at h s
    cases more with
    | nil =>
      -- c is the last byte of the line
      have hc := ends_in_lf hend hsplit hrun heven
      have hone : line.length = read.length+1 := hlong
      rw [hother (by simp), List.nil_append, ← hone, statusLength_break, hc]
      simp
    | cons d more =>
      by_cases hd : d = 10
      · rw [hlf (more ++ 13 :: 10 :: rest) (by rw [hd]; rfl)]
        cases more with
        | nil =>
          rw [hd] at hend hsplit ⊢
          -- c and the line feed behind it are the last ones
          have hc := ends_in_two_lfs hend hsplit hrun (hq ▸ hleast)
          have htwo : line.length = read.length+2 := hlong
          rw [List.nil_append, ← htwo, statusLength_break, hc]
          simp
        | cons e more =>
          -- a line feed in the middle of the line is taken for its end
          have hshort : read.length+2 < line.length := by
            simp only [List.length_cons] at hlong
            omega
          exact iff_of_false (statusLength_early hshort _ _ _) (by simp)
      · rw [hother (by simpa using hd)]
        have hshort : read.length+1 < line.length := by
          simp only [List.length_cons] at hlong
          omega
        exact iff_of_false (statusLength_early hshort _ _ _) (by simp [hd])

/-- The line alone, as a buffer may hold it. -/
theorem line_alone {first : CircularBuffer} (hq : q = line ++ 13 :: 10 :: rest)
    (hempty : ¬crlf <+: q) (hwf : first.WellFormed) (hfirst : first.contents = line ++ crlf) :
    first.Holds first.mBufferSize (line ++ 13 :: 10 :: []) ∧ ¬crlf <+: line ++ 13 :: 10 :: [] := by
  refine ⟨⟨hwf,rfl,hfirst⟩,fun hprefix => hempty ?_⟩
  apply hprefix.trans
  exact ⟨rest,by rw [hq, List.append_assoc]; rfl⟩

/-- A code that ends in the line. -/
theorem consumes_inside (h : buf.Holds N q) (hq : q = line ++ 13 :: 10 :: rest)
    (hempty : ¬crlf <+: q) (heven : Even (crRun line))
    (hleast : ∀ m, CleanEndAt q m → line.length+2 ≤ m) (hbehind : behindCode line = 32 :: text) :
    (∀ s : HttpResponse,
      ((s.parseFirstLine buf).1 = statusLength (line.length+2)
          (s.parseFirstLine buf).2.mResponseCode rest ∨ (s.parseFirstLine buf).1 = -1) ∧
      ∀ first : CircularBuffer, first.WellFormed → first.contents = line ++ crlf →
        (s.parseFirstLine first).2.mResponseCode = (s.parseFirstLine buf).2.mResponseCode) ↔
    (Converts (statusCode q) → TextEndsLine (codeValue q) text rest) := by
  have hends : behindCode line ≠ [] := by
    rw [hbehind]
    exact List.cons_ne_nil 32 text
  have hall : behindCode q = 32 :: (text ++ 13 :: 10 :: rest) := by
    rw [hq, (code_append hends _).2, hbehind, List.cons_append]
  have hne : ∀ tail, behindCode (line ++ tail) ≠ [] := by
    intro tail hnil
    rw [(code_append hends tail).2] at hnil
    exact hends (List.append_eq_nil_iff.mp hnil).1
  have hvalue : codeValue (line ++ 13 :: 10 :: []) = codeValue q := by
    unfold codeValue
    rw [hq, (code_append hends _).1, (code_append hends _).1]
  obtain ⟨before,hbefore⟩ : behindCode line <:+ line :=
    (List.dropWhile_suffix _).trans ((List.dropWhile_suffix _).trans (List.dropWhile_suffix _))
  rw [hbehind] at hbefore
  -- the length that is returned, for one response
  have hreturns : ∀ s : HttpResponse,
      ((s.parseFirstLine buf).1 = statusLength (line.length+2)
          (s.parseFirstLine buf).2.mResponseCode rest ∨ (s.parseFirstLine buf).1 = -1) ↔
      (Converts (statusCode q) → TextEndsLine (codeValue q) text rest) := by
    intro s
    obtain ⟨hbad,hgood⟩ := (parseFirstLine_cases h hq hempty s).2 _ hall
    rw [(parseFirstLine_code h hq hempty s).2 (hq ▸ hne _)]
    by_cases hconverts : Converts (statusCode q)
    · rw [hgood hconverts, imp_iff_right hconverts]
      exact endText_iff h hq hbefore.symm heven hleast
        { s with mResponseCode := codeValue q }
    · rw [hbad hconverts]
      exact iff_of_true (.inr rfl) (fun hc => absurd hc hconverts)
  constructor
  · intro hconsumes
    exact (hreturns init).mp (hconsumes init).1
  · intro hreads s
    refine ⟨(hreturns s).mpr hreads,fun first hwf hfirst => ?_⟩
    obtain ⟨hholds,hempty'⟩ := line_alone hq hempty hwf hfirst
    rw [(parseFirstLine_code hholds rfl hempty' s).2 (hne _),
      (parseFirstLine_code h hq hempty s).2 (hq ▸ hne _), hvalue]

/-- A code that does not end in the line must not end at all. -/
theorem consumes_outside (h : buf.Holds N q) (hq : q = line ++ 13 :: 10 :: rest)
    (hempty : ¬crlf <+: q) (hbehind : behindCode line = []) :
    (∀ s : HttpResponse,
      ((s.parseFirstLine buf).1 = statusLength (line.length+2)
          (s.parseFirstLine buf).2.mResponseCode rest ∨ (s.parseFirstLine buf).1 = -1) ∧
      ∀ first : CircularBuffer, first.WellFormed → first.contents = line ++ crlf →
        (s.parseFirstLine first).2.mResponseCode = (s.parseFirstLine buf).2.mResponseCode) ↔
    behindCode q = [] := by
  have hstored : ∀ (s : HttpResponse) (first : CircularBuffer), first.WellFormed →
      first.contents = line ++ crlf →
      (s.parseFirstLine first).2.mResponseCode = s.mResponseCode := by
    intro s first hwf hfirst
    obtain ⟨hholds,hempty'⟩ := line_alone hq hempty hwf hfirst
    exact (parseFirstLine_code hholds rfl hempty' s).1 (behindCode_crlf hbehind)
  constructor
  · intro hconsumes
    by_contra hne
    -- with any other code stored before, the bytes behind the line show
    obtain ⟨N',first,hfirst⟩ := exists_holds (line ++ crlf)
    have hcode := (hconsumes (init.setResponseCode (codeValue q+1))).2 first hfirst.wf
      hfirst.contents_eq
    rw [hstored _ first hfirst.wf hfirst.contents_eq,
      (parseFirstLine_code h hq hempty _).2 hne] at hcode
    have hcode : codeValue q+1 = codeValue q := hcode
    omega
  · intro hnil s
    obtain ⟨hnone,-⟩ := parseFirstLine_cases h hq hempty s
    refine ⟨.inr (by rw [hnone hnil]),fun first hwf hfirst => ?_⟩
    rw [hstored s first hwf hfirst, hnone hnil]

end

/-- The parser consumes the status line that is found exactly if a space behind the code and nothing
but text behind it stands in that line, or no space ends a code in any of the bytes. -/
theorem consumesStatusLine_iff (buffer : { buffer : CircularBuffer // buffer.WellFormed }) :
    ConsumesStatusLine buffer ↔ StatusLineReads buffer := by
  have hholds : buffer.val.Holds buffer.val.mBufferSize buffer.val.contents :=
    ⟨buffer.property,rfl,rfl⟩
  unfold ConsumesStatusLine StatusLineReads
  refine forall_congr' fun hempty => forall_congr' fun n => forall_congr' fun hpos =>
    forall_congr' fun hn => ?_
  obtain ⟨line,rest,hq,-,rfl,heven,hleast⟩ := searchForLine_found hholds hempty hpos hn
  have hsplit : buffer.val.contents = (line ++ crlf) ++ rest := by
    rw [hq, List.append_assoc]
    rfl
  have hlen : line.length+2 = (line ++ crlf).length := by
    rw [List.length_append]
    rfl
  have hdrop : buffer.val.contents.drop (line.length+2) = rest := by
    rw [hsplit, hlen, List.drop_left]
  have htake : buffer.val.contents.take (line.length+2) = line ++ crlf := by
    rw [hsplit, hlen, List.take_left]
  rw [hdrop, htake]
  -- the code ends in the line, or goes on behind it
  cases hbehind : behindCode line with
  | nil =>
    rw [consumes_outside hholds hq hempty hbehind, or_iff_left]
    rintro ⟨text,hcode,-⟩
    have hsuffix := (behindCode_suffix hbehind (13 :: 10 :: rest)).length_le
    rw [← hq, hcode] at hsuffix
    have hcrlf : crlf.length = 2 := rfl
    simp only [List.length_cons, List.length_append] at hsuffix
    omega
  | cons c text =>
    obtain rfl := behindCode_head hbehind
    have hall : behindCode buffer.val.contents = 32 :: (text ++ crlf ++ rest) := by
      rw [hq, (code_append (by rw [hbehind]; exact List.cons_ne_nil 32 text) _).2, hbehind,
        List.append_assoc]
      rfl
    rw [consumes_inside hholds hq hempty heven hleast hbehind, hall,
      or_iff_right (List.cons_ne_nil 32 _)]
    constructor
    · intro hreads
      exact ⟨text,rfl,hreads⟩
    · rintro ⟨text',htext,hreads⟩
      have heq := List.append_cancel_right (List.append_cancel_right (List.cons.inj htext).2)
      rwa [heq]

/-- A buffer that holds a status line without a reason phrase, and a field behind it. -/
def bareStatus : { buffer : CircularBuffer // buffer.WellFormed } :=
  ⟨{ mBuffer := store (fun _ => 0) 0 (text "HTTP/1.1 200\r\nA: b\r\n")
     mBufferSize := 24
     mReadPtr := 0
     mWritePtr := 20
     mLen := 20 },by constructor <;> decide⟩

/-- The code goes on to the space in the next line, and that line is consumed with the first one. -/
theorem bareStatus_consumed : ¬ConsumesStatusLine bareStatus := by
  intro hconsumes
  have hempty : ¬crlf <+: bareStatus.val.contents := by decide
  have hn : bareStatus.val.searchForLine = (14 : ℕ) := by decide
  have hreturns := (hconsumes hempty 14 (by decide) hn init).1
  revert hreturns
  decide

end HttpResponse

end JhCommon
