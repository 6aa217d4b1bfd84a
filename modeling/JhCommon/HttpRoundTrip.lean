import JhCommon.BufferObservers
import JhCommon.HttpHeader
import JhCommon.ListCuts

/-! A response header that is written to a ring is read back from it: the lines are found where they
were put, and each of them is parsed as what it was built from. -/
namespace JhCommon
open RingMemory

namespace CircularBuffer

section Bytes
variable {N : ℕ} {buf : CircularBuffer} {q rest : List UInt8} {i n : ℕ} {c : UInt8}

theorem Holds.byteAt_eq_iff (h : buf.Holds N q) (i : ℕ) (k : UInt8) :
    buf.byteAt i = (k.toNat : ℤ) ↔ (q.drop i).head? = some k := by
  rw [CircularBuffer.byteAt_eq h.wf, h.contents_eq, List.head?_drop]
  by_cases hi : i < q.length
  · rw [dif_pos hi, List.getElem?_eq_getElem hi, Option.some_inj, ← UInt8.toNat_inj]
    exact Int.natCast_inj
  · rw [dif_neg hi, List.getElem?_eq_none (by omega)]
    constructor
    · intro hneg
      omega
    · rintro ⟨⟩

theorem Holds.byteAt_of_drop (h : buf.Holds N q) (hd : q.drop i = c :: rest) :
    buf.byteAt i = (c.toNat : ℤ) ∧ buf.charAt i = c ∧ q.drop (i+1) = rest := by
  have hbyte : buf.byteAt i = (c.toNat : ℤ) := by
    rw [h.byteAt_eq_iff, hd]
    rfl
  refine ⟨hbyte,?_,?_⟩
  · rw [charAt, hbyte, Int.toNat_natCast, UInt8.ofNat_toNat]
  · rw [← List.tail_drop, hd]
    rfl

theorem length_of_drop (hd : q.drop i = c :: rest) :
    (q.drop i).length = (q.drop (i+1)).length+1 := by
  rw [← List.tail_drop, hd]
  rfl

theorem toNat_ne {b : UInt8} (hb : c ≠ b) : (c.toNat : ℤ) ≠ (b.toNat : ℤ) := by
  intro heq
  exact hb (UInt8.toNat_inj.mp (Int.natCast_inj.mp heq))

theorem natCast_toNat_ne_neg_one (c : UInt8) : (c.toNat : ℤ) ≠ -1 := by
  omega

/-- The rest of the buffer starts with no white space, so that a line before it ends there. -/
def NoContinuation (rest : List UInt8) : Prop := rest.head? ≠ some 32 ∧ rest.head? ≠ some 9

theorem Holds.no_continuation (h : buf.Holds N q) (hd : q.drop i = rest)
    (hrest : NoContinuation rest) : ¬(buf.byteAt i = 32 ∨ buf.byteAt i = 9) := by
  have h32 := h.byteAt_eq_iff i 32
  have h9 := h.byteAt_eq_iff i 9
  rw [hd] at h32 h9
  rintro (heq | heq)
  · exact hrest.1 (h32.mp heq)
  · exact hrest.2 (h9.mp heq)

theorem searchFrom_cr (h : buf.Holds N q) (hd : q.drop i = 13 :: rest) (n : ℕ) :
    buf.searchFrom (n+1) i .searchCR = buf.searchFrom n (i+1) .haveCR := by
  have hc : buf.byteAt i = 13 := (h.byteAt_of_drop hd).1
  rw [searchFrom]
  simp only [hc]
  rfl

theorem searchFrom_other (h : buf.Holds N q) (hd : q.drop i = c :: rest) (hne : c ≠ 13) (n : ℕ) :
    buf.searchFrom (n+1) i .searchCR = buf.searchFrom n (i+1) .searchCR := by
  have hc := (h.byteAt_of_drop hd).1
  have hc13 : ((c.toNat : ℕ) : ℤ) ≠ 13 := toNat_ne hne
  rw [searchFrom]
  simp only [hc, natCast_toNat_ne_neg_one, if_false, if_neg hc13]

theorem searchFrom_lf (h : buf.Holds N q) (hd : q.drop i = 10 :: rest) (n : ℕ) :
    buf.searchFrom (n+1) i .haveCR =
      if i+1 = 2 then kEOH
      else if buf.byteAt (i+1) = 32 ∨ buf.byteAt (i+1) = 9 then buf.searchFrom n (i+1) .searchCR
      else (i+1 : ℕ) := by
  have hc : buf.byteAt i = 10 := (h.byteAt_of_drop hd).1
  rw [searchFrom]
  simp only [hc]
  rfl

/-- The search goes on to the end of the first line. -/
theorem searchFrom_line (h : buf.Holds N q) {line : List UInt8} (hcr : 13 ∉ line)
    (hrest : NoContinuation rest) (hd : q.drop i = line ++ 13 :: 10 :: rest)
    (hpos : i ≠ 0 ∨ line ≠ []) : buf.searchFrom (q.drop i).length i .searchCR =
      (i+line.length+2 : ℕ) := by
  induction line generalizing i with
  | nil =>
    rw [List.nil_append] at hd
    have hd' := (h.byteAt_of_drop hd).2.2
    have hcont := h.no_continuation (h.byteAt_of_drop hd').2.2 hrest
    have hi : ¬i+1+1 = 2 := by
      rcases hpos with hpos | hpos
      · omega
      · exact absurd rfl hpos
    rw [length_of_drop hd, searchFrom_cr h hd, length_of_drop hd', searchFrom_lf h hd', if_neg hi,
      if_neg hcont]
    rfl
  | cons c line ih =>
    have hne : c ≠ 13 := (List.ne_of_not_mem_cons hcr).symm
    have hd' := (h.byteAt_of_drop hd).2.2
    have hrec := ih (List.not_mem_of_not_mem_cons hcr) hd' (.inl (Nat.succ_ne_zero i))
    rw [length_of_drop hd, searchFrom_other h hd hne, hrec, List.length_cons]
    congr 1
    omega

theorem searchForLine_line (h : buf.Holds N q) {line : List UInt8} (hcr : 13 ∉ line)
    (hrest : NoContinuation rest) (hq : q = line ++ 13 :: 10 :: rest) (hne : line ≠ []) :
    buf.searchForLine = (line.length+2 : ℕ) := by
  have hlen : buf.getLength = (q.drop 0).length := h.len_eq
  rw [searchForLine, hlen, searchFrom_line h hcr hrest (i := 0) hq (.inr hne), Nat.zero_add]

/-- An empty line ends the header. -/
theorem searchForLine_end (h : buf.Holds N crlf) : buf.searchForLine = kEOH := by
  have hd : crlf.drop 0 = 13 :: [10] := rfl
  have hd' := (h.byteAt_of_drop hd).2.2
  have hlen : buf.getLength = 2 := h.len_eq
  rw [searchForLine, hlen, searchFrom_cr h hd, searchFrom_lf h hd', if_pos rfl]

end Bytes

end CircularBuffer

namespace HttpResponse
open CircularBuffer

section Lines
variable {N : ℕ} {buf : CircularBuffer} {q rest : List UInt8} {i : ℕ} {c : UInt8} {s : HttpResponse}
  {name value : List UInt8} {appendSpace : Bool}

/-- The name of a field, up to the colon. -/
theorem parseLineFrom_field (h : buf.Holds N q) (hcolon : 58 ∉ name) (field data : List UInt8)
    (hd : q.drop i = name ++ 58 :: rest) :
    s.parseLineFrom buf (q.drop i).length i .parseField field data appendSpace =
      s.parseLineFrom buf (q.drop (i+name.length+1)).length (i+name.length+1) .skipWS
        (field ++ name) data false := by
  induction name generalizing i field with
  | nil =>
    have hc : buf.byteAt i = 58 := (h.byteAt_of_drop hd).1
    rw [length_of_drop hd, parseLineFrom]
    simp only [hc, List.append_nil, List.length_nil, Nat.add_zero]
    rfl
  | cons c name ih =>
    obtain ⟨hc,hchar,hd'⟩ := h.byteAt_of_drop hd
    have hne : ((c.toNat : ℕ) : ℤ) ≠ 58 := toNat_ne (List.ne_of_not_mem_cons hcolon).symm
    have hrec := ih (List.not_mem_of_not_mem_cons hcolon) (field ++ [c]) hd'
    have hindex : i+1+name.length+1 = i+(c :: name).length+1 := by
      rw [List.length_cons]
      omega
    rw [length_of_drop hd, parseLineFrom]
    simp only [hc, natCast_toNat_ne_neg_one, if_false, if_neg hne, hchar]
    rw [hrec, hindex, List.append_assoc, List.singleton_append]

/-- The end of a line that is not continued. -/
theorem parseLineFrom_lf (h : buf.Holds N q) (field data : List UInt8) (hd : q.drop i = 10 :: rest)
    (hrest : NoContinuation rest) :
    s.parseLineFrom buf (q.drop i).length i .parseCRLF field data appendSpace = (do
      let s ← s.storeField field data
      .ok ((i+1 : ℕ),s)) := by
  have hc : buf.byteAt i = 10 := (h.byteAt_of_drop hd).1
  have hcont := h.no_continuation (h.byteAt_of_drop hd).2.2 hrest
  rw [length_of_drop hd, parseLineFrom]
  simp only [hc, if_neg hcont]
  rfl

/-- The rest of a value, up to the end of its line. -/
theorem parseLineFrom_data (h : buf.Holds N q) (hcr : 13 ∉ value) (field data : List UInt8)
    (appendSpace : Bool) (hd : q.drop i = value ++ 13 :: 10 :: rest) (hrest : NoContinuation rest) :
    s.parseLineFrom buf (q.drop i).length i .parseData field data appendSpace = (do
      let s ← s.storeField field (data ++ value)
      .ok ((i+value.length+2 : ℕ),s)) := by
  induction value generalizing i data with
  | nil =>
    rw [List.nil_append] at hd
    have hc : buf.byteAt i = 13 := (h.byteAt_of_drop hd).1
    have hd' := (h.byteAt_of_drop hd).2.2
    have hlf : buf.byteAt (i+1) = 10 := (h.byteAt_of_drop hd').1
    rw [length_of_drop hd, parseLineFrom]
    simp only [hc, hlf, and_self, if_true]
    rw [if_neg (by decide), parseLineFrom_lf h field data hd' hrest, List.append_nil]
    rfl
  | cons c value ih =>
    obtain ⟨hc,hchar,hd'⟩ := h.byteAt_of_drop hd
    have hne : ((c.toNat : ℕ) : ℤ) ≠ 13 := toNat_ne (List.ne_of_not_mem_cons hcr).symm
    have hrec := ih (List.not_mem_of_not_mem_cons hcr) (data ++ [c]) hd'
    have hindex : i+1+value.length+2 = i+(c :: value).length+2 := by
      rw [List.length_cons]
      omega
    rw [length_of_drop hd, parseLineFrom]
    simp only [hc, natCast_toNat_ne_neg_one, if_false, hne, false_and, hchar]
    rw [hrec, hindex, List.append_assoc, List.singleton_append]

/-- What can stand as a value. -/
def PlainValue (value : List UInt8) : Prop :=
  0 ∉ value ∧ 13 ∉ value ∧ 10 ∉ value ∧ NoContinuation value

/-- The value of a field, from the space on that follows the colon. -/
theorem parseLineFrom_value (h : buf.Holds N q) (hvalue : PlainValue value) (field : List UInt8)
    (hd : q.drop i = 32 :: (value ++ 13 :: 10 :: rest)) (hrest : NoContinuation rest) :
    s.parseLineFrom buf (q.drop i).length i .skipWS field [] false = (do
      let s ← s.storeField field value
      .ok ((i+1+value.length+2 : ℕ),s)) := by
  have hc : buf.byteAt i = 32 := (h.byteAt_of_drop hd).1
  have hd' := (h.byteAt_of_drop hd).2.2
  rw [length_of_drop hd, parseLineFrom]
  simp only [hc]
  rw [if_neg (by decide), if_neg (by simp), if_neg (by decide)]
  cases value with
  | nil =>
    -- the line ends where the value would begin
    rw [List.nil_append] at hd'
    have hcr : buf.byteAt (i+1) = 13 := (h.byteAt_of_drop hd').1
    have hd'' := (h.byteAt_of_drop hd').2.2
    have hlf : buf.byteAt (i+1+1) = 10 := (h.byteAt_of_drop hd'').1
    rw [length_of_drop hd', parseLineFrom]
    simp only [hcr, hlf, and_self, if_true]
    rw [if_neg (by decide), parseLineFrom_lf h field [] hd'' hrest]
    rfl
  | cons c value =>
    obtain ⟨-,hcr,-,h32,h9⟩ := hvalue
    obtain ⟨hc,hchar,hd''⟩ := h.byteAt_of_drop hd'
    have h13 : ((c.toNat : ℕ) : ℤ) ≠ 13 := toNat_ne (List.ne_of_not_mem_cons hcr).symm
    have hspace : ((c.toNat : ℕ) : ℤ) ≠ 9 ∧ ((c.toNat : ℕ) : ℤ) ≠ 32 :=
      ⟨toNat_ne (fun heq => h9 (congrArg some heq)),toNat_ne (fun heq => h32 (congrArg some heq))⟩
    have hdata := parseLineFrom_data (s := s) h (List.not_mem_of_not_mem_cons hcr) field [c] false
      hd'' hrest
    have hindex : i+1+1+value.length+2 = i+1+(c :: value).length+2 := by
      rw [List.length_cons]
      omega
    rw [length_of_drop hd', parseLineFrom]
    simp only [hc, natCast_toNat_ne_neg_one, if_false, h13, false_and, if_pos hspace, hchar,
      Bool.false_eq_true, List.append_nil, List.nil_append]
    rw [hdata, hindex]
    rfl

/-- A line is parsed as the field that it was built from. -/
theorem parseLine_line (h : buf.Holds N q) (hcolon : 58 ∉ name) (hvalue : PlainValue value)
    (hq : q = name ++ [58,32] ++ value ++ crlf ++ rest) (hrest : NoContinuation rest) :
    s.parseLine buf = (do
      let s ← s.storeField name value
      .ok (((name ++ [58,32] ++ value ++ crlf).length : ℕ),s)) := by
  have hd : q.drop 0 = name ++ 58 :: (32 :: (value ++ 13 :: 10 :: rest)) := by
    simp [hq, crlf]
  have hlen : buf.getLength = (q.drop 0).length := h.len_eq
  have hd' : q.drop (0+name.length+1) = 32 :: (value ++ 13 :: 10 :: rest) := by
    rw [List.drop_zero] at hd
    rw [hd, List.append_cons]
    exact List.drop_left' (by simp)
  rw [parseLine, hlen, parseLineFrom_field h hcolon [] [] hd, List.nil_append,
    parseLineFrom_value h hvalue name hd' hrest]
  congr 2
  funext s
  simp only [List.length_append, crlf, List.length_cons, List.length_nil]
  congr 3
  omega

/-- What stands before the first space is passed over. -/
theorem parseFirstLineFrom_protocol (h : buf.Holds N q) {protocol : List UInt8}
    (hspace : 32 ∉ protocol) (str : List UInt8) (hd : q.drop i = protocol ++ 32 :: rest) :
    s.parseFirstLineFrom buf (q.drop i).length i .parseProtocol str =
      s.parseFirstLineFrom buf (q.drop (i+protocol.length+1)).length (i+protocol.length+1)
        .seekStatusCode str := by
  induction protocol generalizing i with
  | nil =>
    have hc : buf.byteAt i = 32 := (h.byteAt_of_drop hd).1
    rw [length_of_drop hd, parseFirstLineFrom]
    simp only [hc]
    rfl
  | cons c protocol ih =>
    obtain ⟨hc,-,hd'⟩ := h.byteAt_of_drop hd
    have hne : ((c.toNat : ℕ) : ℤ) ≠ 32 := toNat_ne (List.ne_of_not_mem_cons hspace).symm
    have hindex : i+1+protocol.length+1 = i+(c :: protocol).length+1 := by
      rw [List.length_cons]
      omega
    rw [length_of_drop hd, parseFirstLineFrom]
    simp only [hc, ne_eq, hne, not_false_eq_true, if_true]
    rw [ih (List.not_mem_of_not_mem_cons hspace) hd', hindex]

/-- The rest of a status code that can be converted. -/
theorem parseFirstLineFrom_code (h : buf.Holds N q) {code : List UInt8} (hspace : 32 ∉ code)
    (str : List UInt8) {v : ℤ} (hv : strtol (cStr (str ++ code)) = ⟨v,true,false⟩)
    (hd : q.drop i = code ++ 32 :: rest) :
    s.parseFirstLineFrom buf (q.drop i).length i .parseStatusCode str =
      { s with mResponseCode := toInt32 v }.parseFirstLineFrom buf
        (q.drop (i+code.length+1)).length (i+code.length+1) .seekStatusText (str ++ code) := by
  induction code generalizing i str with
  | nil =>
    have hc : buf.byteAt i = 32 := (h.byteAt_of_drop hd).1
    rw [length_of_drop hd, parseFirstLineFrom]
    rw [List.append_nil] at hv ⊢
    simp only [hc, hv]
    rfl
  | cons c code ih =>
    obtain ⟨hc,hchar,hd'⟩ := h.byteAt_of_drop hd
    have hne : ((c.toNat : ℕ) : ℤ) ≠ 32 := toNat_ne (List.ne_of_not_mem_cons hspace).symm
    have hindex : i+1+code.length+1 = i+(c :: code).length+1 := by
      rw [List.length_cons]
      omega
    have hrec := ih (List.not_mem_of_not_mem_cons hspace) (str ++ [c])
      (by rwa [List.append_assoc, List.singleton_append]) hd'
    rw [length_of_drop hd, parseFirstLineFrom]
    simp only [hc, ne_eq, hne, not_false_eq_true, if_true, hchar]
    rw [hrec, hindex, List.append_assoc, List.singleton_append]

/-- The rest of a status text. -/
theorem parseFirstLineFrom_text (h : buf.Holds N q) {t : List UInt8} (hcr : 13 ∉ t) (hlf : 10 ∉ t)
    (str : List UInt8) (hd : q.drop i = t ++ 13 :: rest) :
    s.parseFirstLineFrom buf (q.drop i).length i .parseStatusText str =
      (s.endFirstLine buf (i+t.length+1),s) := by
  induction t generalizing i with
  | nil =>
    have hc : buf.byteAt i = 13 := (h.byteAt_of_drop hd).1
    rw [length_of_drop hd, parseFirstLineFrom]
    simp only [hc]
    rfl
  | cons c t ih =>
    obtain ⟨hc,-,hd'⟩ := h.byteAt_of_drop hd
    have hne : ((c.toNat : ℕ) : ℤ) ≠ 13 ∧ ((c.toNat : ℕ) : ℤ) ≠ 10 :=
      ⟨toNat_ne (List.ne_of_not_mem_cons hcr).symm,toNat_ne (List.ne_of_not_mem_cons hlf).symm⟩
    have hindex : i+1+t.length+1 = i+(c :: t).length+1 := by
      rw [List.length_cons]
      omega
    rw [length_of_drop hd, parseFirstLineFrom]
    simp only [hc, if_pos hne]
    rw [ih (List.not_mem_of_not_mem_cons hcr) (List.not_mem_of_not_mem_cons hlf) hd', hindex]

/-- The line ends behind its line feed, unless an empty line follows a 100. -/
theorem endFirstLine_lf (h : buf.Holds N q) (hd : q.drop i = 10 :: rest)
    (hnext : s.mResponseCode ≠ 100 ∨ rest.head? ≠ some 13) : s.endFirstLine buf i = (i+1 : ℕ) := by
  have hlf : buf.byteAt i = 10 := (h.byteAt_of_drop hd).1
  have hd' := (h.byteAt_of_drop hd).2.2
  have hlt : i < buf.getLength := by
    have hlen : buf.getLength = q.length := h.len_eq
    have hpos := congrArg List.length hd
    rw [List.length_drop, List.length_cons] at hpos
    omega
  have hcr : buf.byteAt (i+1) = 13 ↔ rest.head? = some 13 := by
    rw [← hd']
    exact h.byteAt_eq_iff (i+1) 13
  rw [endFirstLine]
  simp only [if_pos (And.intro hlt hlf)]
  rw [if_neg]
  rintro ⟨h100,-,h13,-⟩
  exact hnext.elim (fun hne => hne h100) (fun hne => hne (hcr.mp h13))

/-- Every text for a response code goes onto the first line, and starts with no space. -/
theorem getResponseString_plain (code : ℤ) : ∃ c t, getResponseString code = c :: t ∧
    c ≠ 32 ∧ 13 ∉ c :: t ∧ 10 ∉ c :: t ∧ 0 ∉ c :: t := by
  have hplain : ∀ bs ∈ text "Unknown HTTP error" :: gResponseCodeList.map Prod.snd,
      bs ≠ [] ∧ bs.head? ≠ some 32 ∧ 13 ∉ bs ∧ 10 ∉ bs ∧ 0 ∉ bs := by decide
  have hmem : getResponseString code ∈
      text "Unknown HTTP error" :: gResponseCodeList.map Prod.snd := by
    unfold getResponseString
    cases hfind : gResponseCodeList.find? (fun entry => entry.1 = code) with
    | none => exact List.mem_cons_self
    | some entry => exact List.mem_cons_of_mem _ (List.mem_map_of_mem (List.mem_of_find?_eq_some hfind))
  obtain ⟨hne,hspace,hrest⟩ := hplain _ hmem
  obtain ⟨c,t,heq⟩ := List.exists_cons_of_ne_nil hne
  rw [heq] at hspace hrest ⊢
  exact ⟨c,t,rfl,fun h => hspace (congrArg some h),hrest⟩

theorem mem_decimal_plain {n : ℤ} {b : UInt8} (hb : b ∈ decimal n) : b ≠ 0 ∧ b ≠ 13 ∧ b ≠ 10 ∧ b ≠ 32 := by
  rcases mem_decimal hb with rfl | hdigit
  · decide
  · refine ⟨?_,?_,?_,?_⟩ <;> rintro rfl <;> exact absurd hdigit (by decide)

def firstLine (code : ℤ) : List UInt8 :=
  text "HTTP/1.1 " ++ decimal code ++ [32] ++ getResponseString code

/-- The first line is parsed as the code that it was built from. -/
theorem parseFirstLine_line (h : buf.Holds N q) {code : ℤ} (hlow : -2^31 ≤ code)
    (hhigh : code < 2^31) (hq : q = firstLine code ++ crlf ++ rest)
    (hnext : code ≠ 100 ∨ rest.head? ≠ some 13) :
    s.parseFirstLine buf =
      (((firstLine code ++ crlf).length : ℤ),{ s with mResponseCode := code }) := by
  obtain ⟨c,t,hstr,hspace,hcr,hlf,-⟩ := getResponseString_plain code
  obtain ⟨d,ds,hcode⟩ := List.exists_cons_of_ne_nil (decimal_ne_nil code)
  have hdigits : ∀ b ∈ d :: ds, b ≠ 0 ∧ b ≠ 13 ∧ b ≠ 10 ∧ b ≠ 32 :=
    fun b hb => mem_decimal_plain (hcode ▸ hb)
  have hline : q = text "HTTP/1.1" ++ 32 :: (d :: ds ++ 32 :: (c :: t ++ 13 :: 10 :: rest)) := by
    rw [hq, firstLine, hstr, hcode, show text "HTTP/1.1 " = text "HTTP/1.1" ++ [32] by decide]
    simp [crlf]
  have hlen : buf.getLength = q.length := h.len_eq
  have htext : (text "HTTP/1.1").length = 8 := by decide
  have hlong : 13 < q.length := by
    rw [hline]
    simp only [List.length_append, List.length_cons, htext]
    omega
  -- the pieces of the line, one behind the other
  have hd₀ : q.drop 0 = text "HTTP/1.1" ++ 32 :: (d :: ds ++ 32 :: (c :: t ++ 13 :: 10 :: rest)) := hline
  have hd₁ : q.drop 9 = d :: (ds ++ 32 :: (c :: t ++ 13 :: 10 :: rest)) := by
    rw [hline, List.append_cons]
    exact List.drop_left' (by simp [htext])
  have hd₂ : q.drop 10 = ds ++ 32 :: (c :: t ++ 13 :: 10 :: rest) := (h.byteAt_of_drop hd₁).2.2
  have hd₃ : q.drop (10+ds.length+1) = c :: (t ++ 13 :: 10 :: rest) := by
    rw [Nat.add_assoc, ← List.drop_drop, hd₂, List.append_cons]
    exact List.drop_left' (by simp)
  have hd₄ : q.drop (10+ds.length+1+1) = t ++ 13 :: 10 :: rest := (h.byteAt_of_drop hd₃).2.2
  have hd₅ : q.drop (10+ds.length+1+1+t.length+1) = 10 :: rest := by
    rw [Nat.add_assoc _ t.length, ← List.drop_drop, hd₄, List.append_cons]
    exact List.drop_left' (by simp)
  have hfirst : ¬(buf.byteAt 0 = 13 ∧ buf.byteAt 1 = 10) := by
    have hc := (h.byteAt_of_drop (i := 0) (c := 72) hd₀).1
    rintro ⟨hcr,-⟩
    rw [hc] at hcr
    exact absurd hcr (by decide)
  have hv : strtol (cStr ([d] ++ ds)) = ⟨code,true,false⟩ := by
    rw [List.singleton_append, cStr,
      List.takeWhile_eq_self_iff.mpr (by simpa using fun b hb => (hdigits b hb).1), ← hcode]
    exact strtol_decimal hlow hhigh
  have hspaces : 32 ∉ ds := fun hmem => (hdigits 32 (List.mem_cons_of_mem d hmem)).2.2.2 rfl
  rw [parseFirstLine, if_neg (by omega), if_neg hfirst, hlen]
  have hprotocol := parseFirstLineFrom_protocol (s := s) h (by decide) [] hd₀
  rw [htext] at hprotocol
  have hstart : s.parseFirstLineFrom buf (q.drop 9).length 9 .seekStatusCode [] =
      s.parseFirstLineFrom buf (q.drop 10).length 10 .parseStatusCode [d] := by
    obtain ⟨hc,hchar,-⟩ := h.byteAt_of_drop hd₁
    have hne : ((d.toNat : ℕ) : ℤ) ≠ 32 := toNat_ne (hdigits d List.mem_cons_self).2.2.2
    rw [length_of_drop hd₁, parseFirstLineFrom]
    simp only [hc, if_neg hne, hchar, List.nil_append]
  have hcodes := parseFirstLineFrom_code (s := s) h hspaces [d] hv hd₂
  rw [toInt32_eq hlow hhigh] at hcodes
  have hseek (str : List UInt8) (s : HttpResponse) :
      s.parseFirstLineFrom buf (q.drop (10+ds.length+1)).length (10+ds.length+1) .seekStatusText str =
      s.parseFirstLineFrom buf (q.drop (10+ds.length+1+1)).length (10+ds.length+1+1)
        .parseStatusText str := by
    have hc := (h.byteAt_of_drop hd₃).1
    have hne : ((c.toNat : ℕ) : ℤ) ≠ 32 := toNat_ne hspace
    have hplain : ((c.toNat : ℕ) : ℤ) ≠ 13 ∧ ((c.toNat : ℕ) : ℤ) ≠ 10 :=
      ⟨toNat_ne (List.ne_of_not_mem_cons hcr).symm,toNat_ne (List.ne_of_not_mem_cons hlf).symm⟩
    rw [length_of_drop hd₃, parseFirstLineFrom]
    simp only [hc, if_neg hne, if_pos hplain]
  calc s.parseFirstLineFrom buf q.length 0 .parseProtocol []
      = s.parseFirstLineFrom buf (q.drop 9).length 9 .seekStatusCode [] := hprotocol
    _ = s.parseFirstLineFrom buf (q.drop 10).length 10 .parseStatusCode [d] := hstart
    _ = { s with mResponseCode := code }.parseFirstLineFrom buf (q.drop (10+ds.length+1)).length
          (10+ds.length+1) .seekStatusText ([d] ++ ds) := hcodes
    _ = { s with mResponseCode := code }.parseFirstLineFrom buf (q.drop (10+ds.length+1+1)).length
          (10+ds.length+1+1) .parseStatusText ([d] ++ ds) := hseek _ _
    _ = ({ s with mResponseCode := code }.endFirstLine buf (10+ds.length+1+1+t.length+1),
          { s with mResponseCode := code }) :=
        parseFirstLineFrom_text h (List.not_mem_of_not_mem_cons hcr)
          (List.not_mem_of_not_mem_cons hlf) _ hd₄
    _ = _ := by
      rw [endFirstLine_lf h hd₅ hnext, firstLine, hcode, hstr]
      congr 1
      have hhead : (text "HTTP/1.1 ").length = 9 := by decide
      simp only [List.length_append, List.length_cons, List.length_nil, crlf, hhead]
      push_cast
      ring

/-- What every name of a field is. -/
def PlainName (name : List UInt8) : Prop :=
  name ≠ [] ∧ NoContinuation name ∧ 58 ∉ name ∧ 13 ∉ name ∧ 0 ∉ name

theorem length_gFieldTypeList : gFieldTypeList.length = 47 := by
  decide

theorem gFieldTypeList_plain : ∀ name ∈ gFieldTypeList, PlainName name := by
  unfold PlainName NoContinuation
  decide +kernel

/-- No name of a field comes twice in the list, in any case. -/
theorem getFieldType_gFieldTypeList : ∀ j : Fin 47,
    getFieldType (gFieldTypeList[j.val]?.getD []) = kHttpFieldMapStart+(j.val : ℤ) := by
  decide +kernel

/-- The names of the fields: they go into a line, and each is found again. -/
theorem getFieldTypeString_plain {type : ℤ} (hname : getFieldTypeString type = some name) :
    PlainName name ∧ getFieldType name = type := by
  unfold getFieldTypeString at hname
  split at hname
  case isFalse => cases hname
  case isTrue hstart =>
    obtain ⟨hlt,-⟩ := List.getElem?_eq_some_iff.mp hname
    rw [length_gFieldTypeList] at hlt
    have htype := getFieldType_gFieldTypeList ⟨(type-kHttpFieldMapStart).toNat,hlt⟩
    simp only [hname, Option.getD_some] at htype
    refine ⟨gFieldTypeList_plain name (List.mem_of_getElem? hname),?_⟩
    rw [htype, Int.toNat_of_nonneg (by omega)]
    omega

/-- A field with a name and a value that can be read back. -/
def PlainField (f : HeaderField) : Prop :=
  (∃ name, getFieldTypeString f.mType = some name) ∧ PlainValue f.mData

theorem cStr_eq_self {bs : List UInt8} (hnul : 0 ∉ bs) : cStr bs = bs := ListCuts.takeWhile_ne_self hnul

theorem storeField_plain {type : ℤ} (hname : getFieldTypeString type = some name)
    (hvalue : PlainValue value) (hroom : s.mFields.length < kMaxFields) :
    s.storeField name value = .ok { s with mFields := s.mFields ++ [⟨type,value⟩] } := by
  obtain ⟨⟨-,-,-,-,hnul⟩,htype⟩ := getFieldTypeString_plain hname
  have hknown : type ≠ kInvalidFieldType := by
    rintro rfl
    cases hname
  unfold storeField
  simp only [cStr_eq_self hnul, cStr_eq_self hvalue.1, htype]
  rw [if_pos hknown, if_pos hroom]

/-- Fields that can be read back are written one line each. -/
theorem buildFields_cons {f : HeaderField} {fields : List HeaderField} {bs : List UInt8}
    (hname : getFieldTypeString f.mType = some name) (hbuild : buildFields fields = .ok bs) :
    buildFields (f :: fields) = .ok (name ++ [58,32] ++ f.mData ++ crlf ++ bs) := by
  rw [buildFields]
  simp only [hname, hbuild]
  rfl

/-- What follows a line is the next field or the end of the header. -/
theorem buildFields_plain {fields : List HeaderField} (hfields : ∀ f ∈ fields, PlainField f) :
    ∃ bs, buildFields fields = .ok bs ∧ NoContinuation (bs ++ crlf) ∧ 0 ∉ bs ∧
      (fields ≠ [] → (bs ++ crlf).head? ≠ some 13) := by
  induction fields with
  | nil => exact ⟨[],rfl,⟨by decide,by decide⟩,by decide,fun hne => absurd rfl hne⟩
  | cons f fields ih =>
    obtain ⟨⟨name,hname⟩,hvalue⟩ := hfields f List.mem_cons_self
    obtain ⟨bs,hbuild,-,hnul,-⟩ := ih (fun g hg => hfields g (List.mem_cons_of_mem f hg))
    obtain ⟨⟨hne,hcont,-,hcr,hname0⟩,-⟩ := getFieldTypeString_plain hname
    obtain ⟨c,cs,rfl⟩ := List.exists_cons_of_ne_nil hne
    refine ⟨_,buildFields_cons hname hbuild,hcont,?_,?_⟩
    · simp only [List.mem_append, not_or]
      exact ⟨⟨⟨⟨hname0,by decide⟩,hvalue.1⟩,by decide⟩,hnul⟩
    · intro _ heq
      exact hcr (by rw [Option.some_inj.mp heq]; exact List.mem_cons_self)

theorem readLines_stop {res : HttpResponse} {firstLine : Bool} {fuel : ℕ}
    (hstop : ¬0 < buf.searchForLine) :
    readLines (fuel+1) res firstLine buf = .ok (res,firstLine,buf) := by
  rw [readLines, if_neg hstop]

/-- The loop over the fields that are left: they come behind those that are there already. -/
theorem readLines_fields {fields : List HeaderField} (hfields : ∀ f ∈ fields, PlainField f)
    {bs : List UInt8} (hbuild : buildFields fields = .ok bs) {res : HttpResponse}
    (hroom : res.mFields.length+fields.length ≤ kMaxFields) (h : buf.Holds N (bs ++ crlf))
    {fuel : ℕ} (hfuel : fields.length < fuel) :
    ∃ buf', readLines fuel res false buf =
      .ok ({ res with mFields := res.mFields ++ fields },false,buf') ∧ buf'.Holds N crlf := by
  induction fields generalizing bs res buf fuel with
  | nil =>
    obtain rfl : [] = bs := Except.ok.inj hbuild
    rw [List.nil_append] at h
    obtain ⟨fuel,rfl⟩ := Nat.exists_eq_add_of_lt hfuel
    have hstop : ¬0 < buf.searchForLine := by
      rw [searchForLine_end h]
      decide
    refine ⟨buf,?_,h⟩
    rw [readLines_stop hstop, List.append_nil]
  | cons f fields ih =>
    obtain ⟨⟨name,hname⟩,hvalue⟩ := hfields f List.mem_cons_self
    have hfields' : ∀ g ∈ fields, PlainField g := fun g hg => hfields g (List.mem_cons_of_mem f hg)
    obtain ⟨rest,hrest,hcont,-,-⟩ := buildFields_plain hfields'
    obtain ⟨⟨hne,-,hcolon,hcr,-⟩,-⟩ := getFieldTypeString_plain hname
    rw [buildFields_cons hname hrest] at hbuild
    obtain rfl := Except.ok.inj hbuild
    obtain ⟨fuel,rfl⟩ := Nat.exists_eq_add_of_lt hfuel
    rw [List.length_cons] at hroom
    have hsearch : buf.searchForLine = ((name ++ [58,32] ++ f.mData).length+2 : ℕ) := by
      refine searchForLine_line h ?_ hcont (by simp [crlf]) (by simp)
      simp only [List.mem_append, not_or]
      exact ⟨⟨hcr,by decide⟩,hvalue.2.1⟩
    have hstore := storeField_plain (s := res) hname hvalue (by omega)
    have hline := parseLine_line (s := res) h hcolon hvalue (List.append_assoc _ _ _) hcont
    rw [hstore, ok_bind] at hline
    -- the line is read off, and the loop goes on with the rest
    obtain ⟨buf₁,hread,h₁⟩ := read_spec h false (name ++ [58,32] ++ f.mData ++ crlf).length
    rw [List.append_assoc _ rest, List.drop_left' rfl] at h₁
    -- the response after this line
    let res₁ : HttpResponse := { res with mFields := res.mFields ++ [⟨f.mType,f.mData⟩] }
    have hroom' : res₁.mFields.length+fields.length ≤ kMaxFields := by
      simp only [res₁, List.length_append, List.length_singleton]
      omega
    have hfuel' : fields.length < (f :: fields).length+fuel := by
      rw [List.length_cons]
      omega
    obtain ⟨buf',hloop,h'⟩ := ih hfields' hrest hroom' h₁ hfuel'
    simp only [res₁, List.append_assoc, List.singleton_append] at hloop
    refine ⟨buf',?_,h'⟩
    rw [readLines, if_pos (by rw [hsearch]; omega)]
    simp only [Bool.false_eq_true, if_false, hline, ok_bind]
    rw [if_neg (by omega), Int.toNat_natCast, hread, ok_bind, hloop]

/-- The header that is built: the first line, a line for each field, and the empty line. -/
theorem getHeader_plain {code : ℤ} {fields : List HeaderField} {bs : List UInt8}
    (hlow : -2^31 ≤ code) (hhigh : code < 2^31) (hbuild : buildFields fields = .ok bs)
    (hnul : 0 ∉ bs) :
    let header := firstLine code ++ crlf ++ (bs ++ crlf)
    getHeader ⟨code,fields,[]⟩ = .ok (header,⟨code,fields,header⟩) := by
  intro header
  have hcode : ¬kStatusCodeSize ≤ (decimal code).length := by
    have hlen := length_decimal_le hlow hhigh
    rw [kStatusCodeSize]
    omega
  have hline : (firstLine code ++ crlf).length ≠ 0 := by
    rw [List.length_append]
    exact Nat.succ_ne_zero _
  have hbuilt : buildHeader ⟨code,fields,[]⟩ = .ok ⟨code,fields,header⟩ := by
    have hfirst : buildFirstLine ⟨code,fields,[]⟩ =
        .ok ((firstLine code ++ crlf).length,⟨code,fields,firstLine code ++ crlf⟩) := by
      rw [buildFirstLine]
      simp only
      rw [if_neg hcode]
      rfl
    rw [buildHeader, hfirst, ok_bind]
    simp only
    rw [if_neg hline, hbuild, ok_bind]
    simp only [header, List.append_assoc]
  -- the header has no null character, so c_str gives all of it
  have hplain : cStr header = header := by
    obtain ⟨c,t,hstr,-,-,-,hstr0⟩ := getResponseString_plain code
    have hdigits : (0 : UInt8) ∉ decimal code := fun hmem => (mem_decimal_plain hmem).1 rfl
    apply cStr_eq_self
    simp only [header, firstLine, List.mem_append, not_or, hstr]
    exact ⟨⟨⟨⟨⟨by decide,hdigits⟩,by decide⟩,hstr0⟩,by decide⟩,hnul,by decide⟩
  rw [getHeader]
  simp only [if_true, hbuilt, ok_bind, hplain]

end Lines

/-- A header that is written to an empty buffer, wherever its pointers stand, is read back from it
up to the empty line: with the same code, and the same fields in the same order. -/
theorem readLines_getHeader {N : ℕ} (hN : 0 < N) {buf : CircularBuffer} (hbuf : buf.Reachable N)
    (hempty : buf.contents = []) {code : ℤ} (hlow : -2^31 ≤ code) (hhigh : code < 2^31)
    {fields : List HeaderField} (hmax : fields.length ≤ kMaxFields)
    (hnamed : ∀ f ∈ fields, ∃ name, getFieldTypeString f.mType = some name)
    (hvalues : ∀ f ∈ fields, PlainValue f.mData) (h100 : code ≠ 100 ∨ fields ≠ []) :
    ∃ header s', getHeader ⟨code,fields,[]⟩ = .ok (header,s') ∧
      (header.length ≤ N → ∃ written, buf.write (some header) header.length =
        .ok (header.length,written) ∧ written.contents = header ∧
        ∀ fuel > fields.length+1, ∃ res left,
          readLines fuel init true written = .ok (res,false,left) ∧
          left.searchForLine = kEOH ∧ left.contents = crlf ∧
          res.mResponseCode = code ∧ res.mFields = fields) := by
  have hfields : ∀ f ∈ fields, PlainField f := fun f hf => ⟨hnamed f hf,hvalues f hf⟩
  obtain ⟨bs,hbuild,hcont,hnul,hnocr⟩ := buildFields_plain hfields
  refine ⟨_,_,getHeader_plain hlow hhigh hbuild hnul,?_⟩
  intro hfits
  have hholds : buf.Holds N [] := hempty ▸ hbuf.holds hN
  obtain ⟨written,hwrite,hwritten⟩ := writeInternal_spec hholds (le_refl (firstLine code ++ crlf ++
    (bs ++ crlf)).length)
  rw [List.length_nil, Nat.sub_zero, Nat.min_eq_left hfits] at hwrite hwritten
  rw [List.nil_append, List.take_length] at hwritten
  refine ⟨written,hwrite,hwritten.contents_eq,?_⟩
  intro fuel hfuel
  obtain ⟨fuel,rfl⟩ := Nat.exists_eq_add_of_lt hfuel
  obtain ⟨c,t,hstr,-,hcr,-,-⟩ := getResponseString_plain code
  have hdigits : (13 : UInt8) ∉ decimal code := fun hmem => (mem_decimal_plain hmem).2.1 rfl
  have hcrs : 13 ∉ firstLine code := by
    simp only [firstLine, List.mem_append, not_or, hstr]
    exact ⟨⟨⟨by decide,hdigits⟩,by decide⟩,hcr⟩
  -- the first line is found, parsed and read off, and behind it the loop is over the fields
  have hsearch : written.searchForLine = ((firstLine code).length+2 : ℕ) :=
    searchForLine_line hwritten hcrs hcont (by simp [crlf]) (by simp [firstLine])
  have hfirst := parseFirstLine_line (s := init) hwritten hlow hhigh rfl
    (h100.imp_right hnocr)
  obtain ⟨buf₁,hread,h₁⟩ := read_spec hwritten false (firstLine code ++ crlf).length
  rw [List.drop_left' rfl] at h₁
  have hroom : { init with mResponseCode := code }.mFields.length+fields.length ≤ kMaxFields := by
    rw [init, List.length_nil]
    omega
  have hfuel' : fields.length < fields.length+1+fuel := by
    omega
  obtain ⟨left,hloop,hleft⟩ := readLines_fields hfields hbuild hroom h₁ hfuel'
  refine ⟨⟨code,[] ++ fields,[]⟩,left,?_,searchForLine_end hleft,hleft.contents_eq,rfl,rfl⟩
  rw [readLines, if_pos (by rw [hsearch]; omega)]
  simp only [if_true, hfirst, ok_bind]
  rw [if_neg (by omega), Int.toNat_natCast, hread, ok_bind, hloop]
  rfl

/-- A buffer of 64 bytes that has been written to and read out again. -/
def turned : CircularBuffer :=
  { mBuffer := store (fun _ => 0) 0 (List.replicate 40 0)
    mBufferSize := 64
    mReadPtr := 40
    mWritePtr := 40
    mLen := 0 }

theorem reachable_turned : turned.Reachable 64 :=
  ⟨fun _ => 0,[.write (List.replicate 40 0) 40,.read false 40],[⟨40,[],none⟩,⟨40,[],none⟩],
    by simp [BufferOp.Valid],rfl⟩

def ageAndServer : List HeaderField := [⟨1005,[]⟩,⟨1037,text "a:b"⟩]

theorem ageAndServer_named : ∀ f ∈ ageAndServer, ∃ name, getFieldTypeString f.mType = some name := by
  have hsome : ∀ f ∈ ageAndServer, (getFieldTypeString f.mType).isSome := by decide
  exact fun f hf => Option.isSome_iff_exists.mp (hsome f hf)

/-- The response -1 with an empty Age and the Server "a:b", across the end of the buffer. -/
theorem readLines_getHeader_turned : ∃ header s',
    getHeader ⟨-1,ageAndServer,[]⟩ = .ok (header,s') ∧
      (header.length ≤ 64 → ∃ written, turned.write (some header) header.length =
        .ok (header.length,written) ∧ written.contents = header ∧
        ∀ fuel > 3, ∃ res left, readLines fuel init true written = .ok (res,false,left) ∧
          left.searchForLine = kEOH ∧ left.contents = crlf ∧
          res.mResponseCode = -1 ∧ res.mFields = ageAndServer) := by
  apply readLines_getHeader (by decide) reachable_turned rfl (by decide) (by decide) (by decide)
    ageAndServer_named
  · unfold PlainValue NoContinuation
    decide
  · decide

end HttpResponse

end JhCommon
