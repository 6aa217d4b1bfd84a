import JhCommon.HeaderLines

/-! The first line of a response as `parseFirstLine` finds it in the bytes that the buffer holds. -/
namespace JhCommon
open CircularBuffer

namespace HttpResponse

/-- The bytes from the status code on. -/
def codeStart (q : List UInt8) : List UInt8 := (q.dropWhile (· ≠ 32)).dropWhile (· = 32)

/-- The status code goes to the next space, across line breaks as well. -/
def statusCode (q : List UInt8) : List UInt8 := (codeStart q).takeWhile (· ≠ 32)

def behindCode (q : List UInt8) : List UInt8 := (codeStart q).dropWhile (· ≠ 32)

/-- The bytes from the end of the status text on. -/
def textEnd (cs : List UInt8) : List UInt8 := cs.dropWhile fun c => c ≠ 13 ∧ c ≠ 10

/-- What `parseFirstLine` returns for the bytes from the end of the status text on. -/
def endText (s : HttpResponse) (buf : CircularBuffer) (q : List UInt8) : List UInt8 → ℤ × HttpResponse
  | [] => (-1,s)
  | _ :: rest => (s.endFirstLine buf (q.length-rest.length),s)

/-- What it returns for a status code and the bytes behind it. -/
def endCode (s : HttpResponse) (buf : CircularBuffer) (q code : List UInt8) :
    List UInt8 → ℤ × HttpResponse
  | [] => (-1,s)
  | _ :: cs =>
    let res := strtol (cStr code)
    let s := { s with mResponseCode := toInt32 res.value }
    if res.converted = false ∨ res.outOfRange = true then (-1,s) else s.endText buf q (textEnd cs)

section
variable {N : ℕ} {buf : CircularBuffer} {q cs : List UInt8} {i : ℕ} {s : HttpResponse}

theorem byteAt_iff (h : buf.Holds N q) {c : UInt8} (hd : q.drop i = c :: cs) (k : UInt8) :
    buf.byteAt i = (k.toNat : ℤ) ↔ c = k := by
  rw [h.byteAt_eq_iff, hd]
  exact Option.some_inj

/-- The two loops over the status text end at its first CR or LF. -/
theorem parseFirstLineFrom_status (h : buf.Holds N q) (hd : q.drop i = cs) (str : List UInt8) :
    s.parseFirstLineFrom buf cs.length i .seekStatusText str = s.endText buf q (textEnd cs) ∧
    s.parseFirstLineFrom buf cs.length i .parseStatusText str = s.endText buf q (textEnd cs) := by
  induction cs generalizing i with
  | nil => exact ⟨rfl,rfl⟩
  | cons c cs ih =>
    obtain ⟨-,-,hd'⟩ := h.byteAt_of_drop hd
    have h32 : buf.byteAt i = 32 ↔ c = 32 := byteAt_iff h hd 32
    have h13 : buf.byteAt i = 13 ↔ c = 13 := byteAt_iff h hd 13
    have h10 : buf.byteAt i = 10 ↔ c = 10 := byteAt_iff h hd 10
    have hindex : q.length-cs.length = i+1 := by
      have hlen := congrArg List.length hd
      rw [List.length_drop, List.length_cons] at hlen
      omega
    rw [List.length_cons]
    by_cases hend : c ≠ 13 ∧ c ≠ 10
    · have htext : textEnd (c :: cs) = textEnd cs := List.dropWhile_cons_of_pos (by simpa using hend)
      rw [parseFirstLineFrom, parseFirstLineFrom, htext]
      simp only [ne_eq, h32, h13, h10, if_pos hend, (ih hd').1, (ih hd').2, ite_self, and_self]
    · have htext : textEnd (c :: cs) = c :: cs := List.dropWhile_cons_of_neg (by simpa using hend)
      have hne : c ≠ 32 := by
        rintro rfl
        exact hend (by decide)
      rw [parseFirstLineFrom, parseFirstLineFrom, htext]
      simp only [ne_eq, h32, h13, h10, if_neg hend, if_neg hne, endText, hindex, and_self]

theorem parseFirstLineFrom_code_end (h : buf.Holds N q) (hd : q.drop i = cs) (str : List UInt8) :
    s.parseFirstLineFrom buf cs.length i .parseStatusCode str =
      s.endCode buf q (str ++ cs.takeWhile (· ≠ 32)) (cs.dropWhile (· ≠ 32)) := by
  induction cs generalizing i str with
  | nil => rfl
  | cons c cs ih =>
    obtain ⟨-,hchar,hd'⟩ := h.byteAt_of_drop hd
    have h32 : buf.byteAt i = 32 ↔ c = 32 := byteAt_iff h hd 32
    rw [List.length_cons, parseFirstLineFrom]
    by_cases hc : c = 32
    · rw [List.takeWhile_cons_of_neg (by simpa using hc), List.dropWhile_cons_of_neg (by simpa using hc),
        List.append_nil]
      simp only [ne_eq, h32, hc, not_true, if_false, (parseFirstLineFrom_status h hd' str).1, endCode]
    · rw [List.takeWhile_cons_of_pos (by simpa using hc), List.dropWhile_cons_of_pos (by simpa using hc)]
      simp only [ne_eq, h32, hc, not_false_eq_true, if_true, hchar, ih hd', List.append_assoc,
        List.singleton_append]

theorem parseFirstLineFrom_seek (h : buf.Holds N q) (hd : q.drop i = cs) :
    s.parseFirstLineFrom buf cs.length i .seekStatusCode [] =
      s.endCode buf q ((cs.dropWhile (· = 32)).takeWhile (· ≠ 32))
        ((cs.dropWhile (· = 32)).dropWhile (· ≠ 32)) := by
  induction cs generalizing i with
  | nil => rfl
  | cons c cs ih =>
    obtain ⟨-,hchar,hd'⟩ := h.byteAt_of_drop hd
    have h32 : buf.byteAt i = 32 ↔ c = 32 := byteAt_iff h hd 32
    rw [List.length_cons, parseFirstLineFrom]
    by_cases hc : c = 32
    · rw [List.dropWhile_cons_of_pos (by simpa using hc)]
      simp only [h32, hc, if_true, ih hd']
    · have htake : (c :: cs).takeWhile (· ≠ 32) = c :: cs.takeWhile (· ≠ 32) :=
        List.takeWhile_cons_of_pos (by simpa using hc)
      have hdrop : (c :: cs).dropWhile (· ≠ 32) = cs.dropWhile (· ≠ 32) :=
        List.dropWhile_cons_of_pos (by simpa using hc)
      rw [List.dropWhile_cons_of_neg (by simpa using hc), htake, hdrop]
      simp only [h32, hc, if_false, hchar, List.nil_append, parseFirstLineFrom_code_end h hd',
        List.singleton_append]

/-- The loop of `parseFirstLine` over all of the bytes. -/
theorem parseFirstLineFrom_eq (h : buf.Holds N q) (hd : q.drop i = cs) :
    s.parseFirstLineFrom buf cs.length i .parseProtocol [] =
      s.endCode buf q (statusCode cs) (behindCode cs) := by
  induction cs generalizing i with
  | nil => rfl
  | cons c cs ih =>
    obtain ⟨-,-,hd'⟩ := h.byteAt_of_drop hd
    have h32 : buf.byteAt i = 32 ↔ c = 32 := byteAt_iff h hd 32
    rw [List.length_cons, parseFirstLineFrom]
    by_cases hc : c = 32
    · have hstart : codeStart (c :: cs) = cs.dropWhile (· = 32) := by
        rw [codeStart, List.dropWhile_cons_of_neg (by simpa using hc),
          List.dropWhile_cons_of_pos (by simpa using hc)]
      rw [statusCode, behindCode, hstart]
      simp only [ne_eq, h32, hc, not_true, if_false, parseFirstLineFrom_seek h hd']
    · have hstart : codeStart (c :: cs) = codeStart cs := by
        rw [codeStart, List.dropWhile_cons_of_pos (by simpa using hc), codeStart]
      rw [statusCode, behindCode, hstart]
      simp only [ne_eq, h32, hc, not_false_eq_true, if_true, ih hd']
      rfl

theorem parseFirstLine_eq (h : buf.Holds N q) (hlong : 1 < q.length)
    (hcrlf : ¬(q.head? = some 13 ∧ q.tail.head? = some 10)) :
    s.parseFirstLine buf = s.endCode buf q (statusCode q) (behindCode q) := by
  have hlen : buf.getLength = q.length := h.len_eq
  have h13 : buf.byteAt 0 = 13 ↔ q.head? = some 13 := h.byteAt_eq_iff 0 13
  have h10 : buf.byteAt 1 = 10 ↔ q.tail.head? = some 10 := by
    rw [← List.drop_one]
    exact h.byteAt_eq_iff 1 10
  have hfirst : ¬(buf.byteAt 0 = 13 ∧ buf.byteAt 1 = 10) := fun hc => hcrlf ⟨h13.mp hc.1,h10.mp hc.2⟩
  rw [parseFirstLine, hlen, if_neg (by omega), if_neg hfirst]
  exact parseFirstLineFrom_eq h List.drop_zero

/-- `strtol` makes a number of the status code. -/
def Converts (code : List UInt8) : Prop :=
  (strtol (cStr code)).converted = true ∧ (strtol (cStr code)).outOfRange = false

/-- The bytes hold a status code that is a number, and a CR or LF behind it. -/
def HoldsFirstLine (q : List UInt8) : Prop :=
  Converts (statusCode q) ∧ (13 ∈ behindCode q ∨ 10 ∈ behindCode q)

theorem le_endFirstLine (s : HttpResponse) (buf : CircularBuffer) (i : ℕ) :
    (i : ℤ) ≤ s.endFirstLine buf i := by
  unfold endFirstLine
  dsimp only
  split_ifs <;> push_cast <;> omega

theorem textEnd_ne_nil (cs : List UInt8) : textEnd cs ≠ [] ↔ 13 ∈ cs ∨ 10 ∈ cs := by
  rw [textEnd, ne_eq, List.dropWhile_eq_nil_iff]
  push Not
  constructor
  · rintro ⟨c,hc,hstop⟩
    by_cases h13 : c = 13
    · exact .inl (h13 ▸ hc)
    · have h10 : c = 10 := by simpa [h13] using hstop
      exact .inr (h10 ▸ hc)
  · rintro (hc | hc)
    · exact ⟨13,hc,by decide⟩
    · exact ⟨10,hc,by decide⟩

theorem length_textEnd_le (cs : List UInt8) : (textEnd cs).length ≤ cs.length :=
  (List.dropWhile_suffix _).length_le

/-- It is a space that ends the code. -/
theorem behindCode_head {c : UInt8} (hbehind : behindCode q = c :: cs) : c = 32 := by
  have hhead := List.head?_dropWhile_not (fun b : UInt8 => decide (b ≠ 32)) (codeStart q)
  rw [← behindCode, hbehind] at hhead
  simpa using hhead

/-- The first line is consumed where it is one, and nothing otherwise. -/
theorem parseFirstLine_pos (h : buf.Holds N q) (hlong : 1 < q.length)
    (hcrlf : ¬(q.head? = some 13 ∧ q.tail.head? = some 10)) :
    0 < (s.parseFirstLine buf).1 ↔ HoldsFirstLine q := by
  have hneg : ¬(0 : ℤ) < -1 := by decide
  rw [parseFirstLine_eq h hlong hcrlf, HoldsFirstLine]
  -- there must be a space behind the code
  cases hbehind : behindCode q with
  | nil =>
    apply iff_of_false
    · exact hneg
    · rintro ⟨-,hc | hc⟩ <;> cases hc
  | cons c cs =>
    have hspace : c = 32 := behindCode_head hbehind
    have hend : 13 ∈ c :: cs ∨ 10 ∈ c :: cs ↔ textEnd cs ≠ [] := by
      rw [textEnd_ne_nil, hspace]
      simp
    have hshort : cs.length < q.length := by
      have hle : (behindCode q).length ≤ q.length :=
        ((List.dropWhile_suffix _).trans ((List.dropWhile_suffix _).trans
          (List.dropWhile_suffix _))).length_le
      rw [hbehind, List.length_cons] at hle
      exact hle
    rw [hend]
    unfold endCode Converts
    dsimp only
    by_cases hbad : (strtol (cStr (statusCode q))).converted = false ∨
        (strtol (cStr (statusCode q))).outOfRange = true
    · rw [if_pos hbad]
      apply iff_of_false
      · exact hneg
      · rintro ⟨⟨hconverted,hrange⟩,-⟩
        rcases hbad with hbad | hbad
        · rw [hconverted] at hbad
          cases hbad
        · rw [hrange] at hbad
          cases hbad
    · have hgood : (strtol (cStr (statusCode q))).converted = true ∧
          (strtol (cStr (statusCode q))).outOfRange = false := by
        simpa [not_or] using hbad
      rw [if_neg hbad, and_iff_right hgood]
      -- and an end of the line behind the text
      cases htext : textEnd cs with
      | nil =>
        apply iff_of_false
        · exact hneg
        · exact fun hne => hne rfl
      | cons d rest =>
        have hle := length_textEnd_le cs
        rw [htext, List.length_cons] at hle
        apply iff_of_true _ (List.cons_ne_nil d rest)
        have hindex := le_endFirstLine { s with
          mResponseCode := toInt32 (strtol (cStr (statusCode q))).value } buf (q.length-rest.length)
        exact lt_of_lt_of_le (by omega) hindex

end

end HttpResponse

end JhCommon
