import JhCommon.HttpAgent
import JhCommon.HttpRoundTrip

/-! The chunked coding of a body, and what `parseChunkLine` finds in a buffer that holds a chunk line
or a part of one. -/
namespace JhCommon

/-- A line in front of a chunk: the size in hex, and behind it nothing, white space or an
extension. -/
structure ChunkLine where
  digits : List UInt8
  ext : List UInt8
  digits_ne : digits ≠ []
  digits_hex : ∀ b ∈ digits, digitVal b < 16
  ext_start : ∀ b, ext.head? = some b → b = 59 ∨ b = 32 ∨ b = 9
  ext_cr : 13 ∉ ext

namespace ChunkLine

def value (line : ChunkLine) : ℕ := valueIn 16 0 line.digits

def text (line : ChunkLine) : List UInt8 := line.digits ++ line.ext ++ crlf

/-- What comes before the first semicolon. -/
def size (line : ChunkLine) : List UInt8 := (line.digits ++ line.ext).takeWhile (· ≠ 59)

/-- The line goes into a buffer of N bytes, its size into length_str, and the value into an int. -/
def Readable (N : ℕ) (line : ChunkLine) : Prop :=
  line.text.length ≤ N ∧ line.size.length < HttpAgent.kLengthStrSize ∧ line.value < 2^31

end ChunkLine

/-- The text is a chunked coding of the body, with lines that are all `ok`; what follows the last of
them is no part of it. -/
inductive Coding (ok : ChunkLine → Prop) : List UInt8 → List UInt8 → Prop
  | last (line : ChunkLine) (tail : List UInt8) (hok : ok line) (hsize : line.value = 0) :
      Coding ok (line.text ++ tail) []
  | chunk (line : ChunkLine) (data rest body : List UInt8) (hok : ok line)
      (hsize : line.value = data.length) (hdata : data ≠ []) (hrest : Coding ok rest body) :
      Coding ok (line.text ++ (data ++ crlf ++ rest)) (data ++ body)

section Hex
variable {digits rest : List UInt8}

theorem hex_plain {b : UInt8} (hb : digitVal b < 16) :
    isSpace b = false ∧ b ≠ 45 ∧ b ≠ 43 ∧ b ≠ 120 ∧ b ≠ 88 ∧ b ≠ 0 ∧ b ≠ 10 ∧ b ≠ 13 ∧ b ≠ 59 := by
  have hall : ∀ b : Fin 256, digitVal (UInt8.ofNat b.val) < 16 →
      isSpace (UInt8.ofNat b.val) = false ∧ b.val ≠ 45 ∧ b.val ≠ 43 ∧ b.val ≠ 120 ∧ b.val ≠ 88 ∧
        b.val ≠ 0 ∧ b.val ≠ 10 ∧ b.val ≠ 13 ∧ b.val ≠ 59 := by
    decide +kernel
  have hthis := hall ⟨b.toNat,b.toNat_lt⟩
  simp only [UInt8.ofNat_toNat] at hthis
  have hne (k : UInt8) (hk : b.toNat ≠ k.toNat) : b ≠ k := fun heq => hk (congrArg UInt8.toNat heq)
  obtain ⟨hspace,h45,h43,h120,h88,h0,h10,h13,h59⟩ := hthis hb
  exact ⟨hspace,hne 45 h45,hne 43 h43,hne 120 h120,hne 88 h88,hne 0 h0,hne 10 h10,hne 13 h13,
    hne 59 h59⟩

theorem not_hex_of_start {b : UInt8} (hb : b = 59 ∨ b = 32 ∨ b = 9) :
    ¬digitVal b < 16 ∧ b ≠ 120 ∧ b ≠ 88 := by
  rcases hb with rfl | rfl | rfl <;> decide

/-- Hex digits are read up to where the extension starts. -/
theorem strtolBase_hex (hne : digits ≠ []) (hhex : ∀ b ∈ digits, digitVal b < 16)
    (hstart : ∀ b, rest.head? = some b → b = 59 ∨ b = 32 ∨ b = 9)
    (hvalue : valueIn 16 0 digits < 2^31) :
    strtolBase 16 (digits ++ rest) = valueIn 16 0 digits := by
  obtain ⟨d,ds,rfl⟩ := List.exists_cons_of_ne_nil hne
  obtain ⟨hspace,hminus,hplus,-⟩ := hex_plain (hhex d List.mem_cons_self)
  have htake : (d :: ds ++ rest).takeWhile (fun b => digitVal b < 16) = d :: ds := by
    rw [List.takeWhile_append_of_pos (by simpa using hhex)]
    cases rest with
    | nil => simp
    | cons b rest =>
      have hb := (not_hex_of_start (hstart b rfl)).1
      simp [hb]
  -- there is no x behind the first digit
  have hbegin : strtolPrefix 16 (d :: ds ++ rest) = (16,d :: ds ++ rest) := by
    have hx : ¬((d :: ds ++ rest)[1]? = some 120 ∨ (d :: ds ++ rest)[1]? = some 88) := by
      cases ds with
      | nil =>
        rw [List.singleton_append, List.getElem?_cons_succ, ← List.head?_eq_getElem?]
        rintro (hb | hb)
        · exact (not_hex_of_start (hstart _ hb)).2.1 rfl
        · exact (not_hex_of_start (hstart _ hb)).2.2 rfl
      | cons e ds =>
        obtain ⟨-,-,-,h120,h88,-⟩ := hex_plain (hhex e (by simp))
        simp [h120, h88]
    unfold strtolPrefix
    rw [if_neg (fun hc => hx hc.2.2.1), if_neg (by decide)]
  have hdrop : (d :: ds ++ rest).dropWhile isSpace = d :: ds ++ rest := by
    rw [List.cons_append, List.dropWhile_cons_of_neg (by simp [hspace])]
  have hhead : (d :: ds ++ rest).head? = some d := rfl
  have hsign : ¬(some d = some (45 : UInt8) ∨ some d = some 43) := by simp [hminus, hplus]
  unfold strtolBase
  simp only [hdrop, hhead, if_neg hsign, hbegin, htake]
  rw [if_neg (by simpa using hminus)]
  omega

theorem cStr_digits (hhex : ∀ b ∈ digits, digitVal b < 16) :
    cStr (digits ++ rest) = digits ++ cStr rest := by
  apply List.takeWhile_append_of_pos
  intro b hb
  simpa using (hex_plain (hhex b hb)).2.2.2.2.2.1

theorem head?_takeWhile {p : UInt8 → Bool} {bs : List UInt8} {b : UInt8}
    (h : (bs.takeWhile p).head? = some b) : bs.head? = some b := by
  cases bs with
  | nil => exact h
  | cons c bs =>
    rw [List.takeWhile_cons] at h
    split at h
    · exact h
    · cases h

end Hex

namespace HttpAgent
open CircularBuffer

section Parse
variable {N : ℕ} {buf : CircularBuffer} {q rest body : List UInt8} {i : ℕ} {c : UInt8}

/-- Characters that do not end length_str. -/
def Inside (body : List UInt8) : Prop := ∀ b ∈ body, b ≠ 59 ∧ b ≠ 13

theorem Inside.tail {b : UInt8} (h : Inside (b :: body)) : Inside body :=
  fun d hd => h d (List.mem_cons_of_mem b hd)

theorem not_natCast_neg (c : UInt8) : ¬((c.toNat : ℕ) : ℤ) < 0 := by
  omega

theorem byteAt_end (h : buf.Holds N q) (hi : q.length ≤ i) : buf.byteAt i = -1 := by
  rw [byteAt_eq h.wf, dif_neg]
  rw [h.contents_eq]
  omega

/-- Each character in front of the end goes into length_str. -/
theorem lengthStrFrom_cons (h : buf.Holds N q) (hd : q.drop i = c :: rest) (hin : c ≠ 59 ∧ c ≠ 13)
    {str : List UInt8} (hstr : str.length < kLengthStrSize) (n : ℕ) :
    lengthStrFrom buf (n+1) i str = lengthStrFrom buf n (i+1) (str ++ [c]) := by
  obtain ⟨hc,hchar,-⟩ := h.byteAt_of_drop hd
  have hne : ¬(((c.toNat : ℕ) : ℤ) = 59 ∨ ((c.toNat : ℕ) : ℤ) = 13) :=
    not_or.mpr ⟨toNat_ne hin.1,toNat_ne hin.2⟩
  rw [lengthStrFrom]
  simp only [hc, hchar, if_neg (not_natCast_neg c), if_neg hne, if_pos hstr]

theorem lengthStrFrom_stop (h : buf.Holds N q) (hc : c = 59 ∨ c = 13) (str : List UInt8)
    (hd : q.drop i = body ++ c :: rest) (hin : Inside body)
    (hstr : str.length+body.length ≤ kLengthStrSize) :
    lengthStrFrom buf (q.drop i).length i str =
      .ok (some (i+body.length+1,(c.toNat : ℤ),str ++ body)) := by
  induction body generalizing i str with
  | nil =>
    have hbyte := (h.byteAt_of_drop hd).1
    have hend : ((c.toNat : ℕ) : ℤ) = 59 ∨ ((c.toNat : ℕ) : ℤ) = 13 := by
      rcases hc with rfl | rfl
      · exact .inl rfl
      · exact .inr rfl
    rw [length_of_drop hd, lengthStrFrom]
    simp only [hbyte, if_neg (not_natCast_neg c), if_pos hend, List.append_nil]
    rfl
  | cons b body ih =>
    rw [List.length_cons] at hstr
    have hd' := (h.byteAt_of_drop hd).2.2
    have hrec := ih (str ++ [b]) hd' hin.tail (by simp; omega)
    rw [length_of_drop hd, lengthStrFrom_cons h hd (hin b List.mem_cons_self) (by omega), hrec,
      List.length_cons, List.append_assoc, List.singleton_append]
    congr 3
    omega

theorem lengthStrFrom_none (h : buf.Holds N q) (str : List UInt8) (hd : q.drop i = body)
    (hin : Inside body) (hstr : str.length+body.length ≤ kLengthStrSize) :
    lengthStrFrom buf (q.drop i).length i str = .ok none := by
  induction body generalizing i str with
  | nil =>
    rw [hd]
    rfl
  | cons b body ih =>
    rw [List.length_cons] at hstr
    have hd' := (h.byteAt_of_drop hd).2.2
    rw [length_of_drop hd, lengthStrFrom_cons h hd (hin b List.mem_cons_self) (by omega)]
    exact ih (str ++ [b]) hd' hin.tail (by simp; omega)

theorem lineEndFrom_cr (i n : ℕ) : lineEndFrom buf n i (13 : UInt8).toNat = some i := by
  cases n <;> rfl

/-- The search for the end of the line, behind a semicolon. -/
theorem lineEndFrom_line (h : buf.Holds N q) (hc : c ≠ 13) (hd : q.drop i = body ++ 13 :: rest)
    (hcr : 13 ∉ body) :
    lineEndFrom buf (q.drop i).length i c.toNat = some (i+body.length+1) := by
  induction body generalizing i c with
  | nil =>
    have hbyte : buf.byteAt i = 13 := (h.byteAt_of_drop hd).1
    have hc13 : ((c.toNat : ℕ) : ℤ) ≠ 13 := toNat_ne hc
    rw [length_of_drop hd, lineEndFrom]
    simp only [if_neg hc13, hbyte]
    rw [if_neg (by decide)]
    exact lineEndFrom_cr (i+1) _
  | cons b body ih =>
    obtain ⟨hbyte,-,hd'⟩ := h.byteAt_of_drop hd
    have hc13 : ((c.toNat : ℕ) : ℤ) ≠ 13 := toNat_ne hc
    have hrec := ih (List.ne_of_not_mem_cons hcr).symm hd' (List.not_mem_of_not_mem_cons hcr)
    rw [length_of_drop hd, lineEndFrom]
    simp only [if_neg hc13, hbyte, if_neg (not_natCast_neg b), hrec, List.length_cons]
    congr 1
    omega

theorem lineEndFrom_none (h : buf.Holds N q) (hc : c ≠ 13) (hd : q.drop i = body)
    (hcr : 13 ∉ body) : lineEndFrom buf (q.drop i).length i c.toNat = none := by
  have hc13 : ((c.toNat : ℕ) : ℤ) ≠ 13 := toNat_ne hc
  induction body generalizing i c with
  | nil =>
    rw [hd, List.length_nil, lineEndFrom, if_neg hc13]
  | cons b body ih =>
    obtain ⟨hbyte,-,hd'⟩ := h.byteAt_of_drop hd
    have hb := (List.ne_of_not_mem_cons hcr).symm
    have hrec := ih hb hd' (List.not_mem_of_not_mem_cons hcr) (toNat_ne hb)
    rw [length_of_drop hd, lineEndFrom]
    simp only [if_neg hc13, hbyte, if_neg (not_natCast_neg b), hrec]

/-- length_str has been read, and what follows decides. -/
theorem parseChunkLine_of_stop (h : buf.Holds N q) (hc : c = 59 ∨ c = 13) (len : ℤ)
    (hq : q = body ++ c :: rest) (hin : Inside body) (hsize : body.length < kLengthStrSize) :
    let lineEnd := lineEndFrom buf (q.drop (body.length+1)).length (body.length+1) c.toNat
    (∀ i, lineEnd = some i → buf.byteAt i = 10 →
      parseChunkLine buf len = .ok ((i+1 : ℕ),toInt32 (strtolBase 16 (cStr body)))) ∧
    ((∀ i, lineEnd = some i → buf.byteAt i ≠ 10) → parseChunkLine buf len = .ok (-1,len)) := by
  intro lineEnd
  have hlen : buf.getLength = q.length := h.len_eq
  have hne : ¬q.length = 0 := by
    rw [hq, List.length_append, List.length_cons]
    omega
  have hstr := lengthStrFrom_stop (i := 0) h hc [] hq hin (by rw [List.length_nil]; omega)
  rw [List.drop_zero, Nat.zero_add, List.nil_append] at hstr
  have hend : lineEndFrom buf (q.length-(body.length+1)) (body.length+1) c.toNat = lineEnd := by
    simp only [lineEnd, List.length_drop]
  rw [parseChunkLine, hlen, if_neg hne, hstr, ok_bind]
  simp only [if_neg (Nat.not_le.mpr hsize), hend]
  constructor
  · intro i hi hlf
    simp only [hi, if_pos hlf]
  · intro hno
    cases hcase : lineEnd with
    | none => rfl
    | some i => simp only [if_neg (hno i hcase)]

/-- What length_str gets of a line, and what the line has behind that. -/
theorem size_spec (line : ChunkLine) : ∃ more, line.digits ++ line.ext = line.size ++ more ∧
    Inside line.size ∧ (more = [] ∨ ∃ mid, more = 59 :: mid ∧ 13 ∉ mid) := by
  have hcr : 13 ∉ line.digits ++ line.ext := by
    rw [List.mem_append, not_or]
    exact ⟨fun hmem => (hex_plain (line.digits_hex 13 hmem)).2.2.2.2.2.2.2.1 rfl,line.ext_cr⟩
  have hsplit := List.takeWhile_append_dropWhile (p := (· ≠ 59)) (l := line.digits ++ line.ext)
  refine ⟨_,hsplit.symm,?_,?_⟩
  · intro b hb
    have hne := List.mem_takeWhile_imp hb
    refine ⟨of_decide_eq_true hne,?_⟩
    rintro rfl
    exact hcr (List.takeWhile_subset _ hb)
  · cases hmore : (line.digits ++ line.ext).dropWhile (· ≠ 59) with
    | nil => exact .inl rfl
    | cons b mid =>
      have hb : b = 59 := by
        have hhead := List.head?_dropWhile_not (· ≠ 59) (line.digits ++ line.ext)
        rw [hmore] at hhead
        simpa using hhead
      refine .inr ⟨mid,by rw [hb],fun hmem => hcr ?_⟩
      rw [← hsplit, hmore]
      exact List.mem_append_right _ (List.mem_cons_of_mem b hmem)

/-- The value that is read from length_str. -/
theorem strtolBase_size (line : ChunkLine) (hvalue : line.value < 2^31) :
    toInt32 (strtolBase 16 (cStr line.size)) = line.value := by
  have hplain : ∀ b ∈ line.digits, decide (b ≠ 59) = true :=
    fun b hb => by simpa using (hex_plain (line.digits_hex b hb)).2.2.2.2.2.2.2.2
  have hstr : cStr line.size = line.digits ++ cStr (line.ext.takeWhile (· ≠ 59)) := by
    rw [ChunkLine.size, List.takeWhile_append_of_pos hplain, cStr_digits line.digits_hex]
  have hstart : ∀ b, (cStr (line.ext.takeWhile (· ≠ 59))).head? = some b →
      b = 59 ∨ b = 32 ∨ b = 9 :=
    fun b hb => line.ext_start b (head?_takeWhile (head?_takeWhile hb))
  rw [hstr, strtolBase_hex line.digits_ne line.digits_hex hstart hvalue]
  exact toInt32_eq (by omega) (by exact_mod_cast hvalue)

/-- A complete line is read, with its length and its value. -/
theorem parseChunkLine_line (h : buf.Holds N q) {line : ChunkLine} {M : ℕ}
    (hread : line.Readable M) (hq : q = line.text ++ rest) (len : ℤ) :
    parseChunkLine buf len = .ok ((line.text.length : ℕ),(line.value : ℕ)) := by
  obtain ⟨-,hsize,hvalue⟩ := hread
  obtain ⟨more,hsplit,hin,hmore⟩ := size_spec line
  have htext : line.text = line.size ++ more ++ crlf := by rw [ChunkLine.text, hsplit]
  have hvalue' := strtolBase_size line hvalue
  -- without an extension, and with one
  rcases hmore with rfl | ⟨mid,rfl,hmid⟩
  · have hq' : q = line.size ++ 13 :: (10 :: rest) := by
      rw [hq, htext]
      simp [crlf]
    have hd : q.drop (line.size.length+1) = 10 :: rest := by
      rw [hq', List.append_cons]
      exact List.drop_left' (by simp)
    have hlf : buf.byteAt (line.size.length+1) = 10 := (h.byteAt_of_drop hd).1
    have hstop := (parseChunkLine_of_stop h (.inr rfl) len hq' hin hsize).1 _ (lineEndFrom_cr _ _) hlf
    rw [hstop, hvalue', htext, List.append_nil, List.length_append]
    rfl
  · have hq' : q = line.size ++ 59 :: (mid ++ 13 :: (10 :: rest)) := by
      rw [hq, htext]
      simp [crlf]
    have hd : q.drop (line.size.length+1) = mid ++ 13 :: (10 :: rest) := by
      rw [hq', List.append_cons]
      exact List.drop_left' (by simp)
    have hd' : q.drop (line.size.length+1+mid.length+1) = 10 :: rest := by
      rw [Nat.add_assoc _ mid.length, ← List.drop_drop, hd, List.append_cons]
      exact List.drop_left' (by simp)
    have hlf : buf.byteAt (line.size.length+1+mid.length+1) = 10 := (h.byteAt_of_drop hd').1
    have hend := lineEndFrom_line (c := 59) h (by decide) hd hmid
    have hstop := (parseChunkLine_of_stop h (.inl rfl) len hq' hin hsize).1 _ hend hlf
    rw [hstop, hvalue', htext]
    simp only [List.length_append, List.length_cons, List.length_nil, crlf]
    congr 3
    omega

theorem parseChunkLine_inside (h : buf.Holds N q) (hin : Inside q)
    (hsize : q.length ≤ kLengthStrSize) (len : ℤ) : parseChunkLine buf len = .ok (-1,len) := by
  have hlen : buf.getLength = q.length := h.len_eq
  have hnone := lengthStrFrom_none (i := 0) h [] rfl hin
    (by rw [List.length_nil, List.drop_zero]; omega)
  rw [List.drop_zero] at hnone
  rw [parseChunkLine, hlen]
  split
  · rfl
  · rw [hnone]
    rfl

/-- A part of a line is not taken for a line. -/
theorem parseChunkLine_part (h : buf.Holds N q) {line : ChunkLine} {M : ℕ}
    (hread : line.Readable M) {t : List UInt8} (hq : q ++ t = line.text ++ rest)
    (hpart : q.length < line.text.length) (len : ℤ) :
    parseChunkLine buf len = .ok (-1,len) := by
  obtain ⟨-,hsize,-⟩ := hread
  obtain ⟨more,hsplit,hin,hmore⟩ := size_spec line
  have htext : line.text = line.size ++ more ++ crlf := by rw [ChunkLine.text, hsplit]
  rw [htext, List.append_assoc, List.append_assoc] at hq
  rw [htext, List.length_append, List.length_append] at hpart
  rcases List.append_eq_append_iff.mp hq with ⟨p,hp,-⟩ | ⟨p,rfl,hp⟩
  · -- length_str is not complete
    have hin' : Inside q := fun b hb => hin b (by rw [hp]; exact List.mem_append_left p hb)
    apply parseChunkLine_inside h hin'
    rw [hp, List.length_append] at hsize
    omega
  · rw [List.length_append] at hpart
    cases p with
    | nil =>
      rw [List.append_nil] at h
      exact parseChunkLine_inside h hin hsize.le len
    | cons c p =>
      have hend : buf.byteAt (line.size.length+1+p.length) = -1 := byteAt_end h (by simp; omega)
      have hd : (line.size ++ c :: p).drop (line.size.length+1) = p := by
        rw [List.append_cons]
        exact List.drop_left' (by simp)
      rcases hmore with rfl | ⟨mid,rfl,hmid⟩
      · -- the line feed is missing
        obtain ⟨rfl,-⟩ := List.cons.inj hp
        obtain rfl : p = [] := by
          simp only [List.length_nil, List.length_cons, crlf] at hpart
          exact List.length_eq_zero_iff.mp (by omega)
        apply (parseChunkLine_of_stop h (.inr rfl) len rfl hin hsize).2
        intro i hi
        rw [lineEndFrom_cr, Option.some_inj] at hi
        rw [← hi]
        simpa using ne_of_eq_of_ne hend (by decide : (-1 : ℤ) ≠ 10)
      · obtain ⟨rfl,htail⟩ := List.cons.inj hp
        apply (parseChunkLine_of_stop h (.inl rfl) len rfl hin hsize).2
        intro i hi
        by_cases hcr : 13 ∈ p
        · -- all of the line but its line feed is there
          obtain rfl : p = mid ++ [13] := by
            rcases List.append_eq_append_iff.mp htail with ⟨m,rfl,hm⟩ | ⟨m,rfl,-⟩
            · cases m with
              | nil => exact absurd hcr (by rwa [List.append_nil])
              | cons c m =>
                obtain ⟨rfl,-⟩ := List.cons.inj hm
                simp only [List.length_append, List.length_cons, List.length_nil, crlf] at hpart
                rw [List.length_eq_zero_iff.mp (show m.length = 0 by omega)]
            · exact absurd (List.mem_append_left m hcr) hmid
          rw [lineEndFrom_line (c := 59) h (by decide) hd hmid, Option.some_inj] at hi
          rw [List.length_append, List.length_singleton, ← Nat.add_assoc, hi] at hend
          exact ne_of_eq_of_ne hend (by decide)
        · rw [lineEndFrom_none h (by decide) hd hcr] at hi
          cases hi

end Parse

end HttpAgent

end JhCommon
