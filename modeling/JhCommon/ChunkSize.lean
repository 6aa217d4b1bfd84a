import JhCommon.ChunkedCoding
import JhCommon.ListCuts

/-! Where `parseChunkLine` keeps to length_str, and what it takes for a chunk line. -/
namespace JhCommon
namespace HttpAgent
open CircularBuffer RingMemory

/-- The bytes start with a chunk line that has an extension right behind its size, or none. -/
def StartsWith (q : List UInt8) (line : ChunkLine) : Prop :=
  line.text <+: q ∧ (line.ext = [] ∨ line.ext.head? = some 59)

/-- Nothing is written behind length_str. The result is negative where the bytes do not start with a
chunk line, and where they do it is the length of the line, with its size if that is an int. -/
def ReadsChunkLine (buf : CircularBuffer) : Prop :=
  ∀ len : ℤ, ∃ ret len', parseChunkLine buf len = .ok (ret,len') ∧
    ((∀ line, ¬StartsWith buf.contents line) → ret < 0) ∧
    ∀ line, StartsWith buf.contents line → line.value < 2^31 →
      ret = (line.text.length : ℕ) ∧ len' = (line.value : ℕ)

/-- What is copied into length_str. -/
def lengthStr (q : List UInt8) : List UInt8 := q.takeWhile fun c => c ≠ 59 ∧ c ≠ 13

/-- It goes into length_str with its NUL, or it is all of the bytes, and no NUL is written. -/
def Fits (q : List UInt8) : Prop :=
  (lengthStr q).length < kLengthStrSize ∨ (lengthStr q = q ∧ q.length = kLengthStrSize)

/-- The first CR is the one of a line break. -/
def LineBreaks (q : List UInt8) : Prop := crlf <+: q.dropWhile (· ≠ 13)

/-- What is copied fits, and where the line is complete, it is a number in hex. -/
def HoldsChunkSize (q : List UInt8) : Prop :=
  Fits q ∧ (LineBreaks q → lengthStr q ≠ [] ∧ ∀ b ∈ lengthStr q, digitVal b < 16)

section
variable {N : ℕ} {buf : CircularBuffer} {q rest body : List UInt8} {i : ℕ} {c : UInt8}

/-- The bytes from a stop character on start with it. -/
theorem head_dropWhile {p : UInt8 → Bool} {cs : List UInt8} (h : q.dropWhile p = c :: cs) :
    p c = false := by
  have hhead := List.head?_dropWhile_not p q
  rw [h] at hhead
  exact hhead

theorem inside_lengthStr (q : List UInt8) : Inside (lengthStr q) := by
  intro b hb
  have hgoes := List.mem_takeWhile_imp hb
  exact of_decide_eq_true hgoes

/-- What is copied is all of the bytes, or it ends at a semicolon or a CR. -/
theorem lengthStr_cases (q : List UInt8) :
    lengthStr q = q ∨ ∃ c rest, (c = 59 ∨ c = 13) ∧ q = lengthStr q ++ c :: rest := by
  have hsplit : lengthStr q ++ q.dropWhile (fun c => c ≠ 59 ∧ c ≠ 13) = q :=
    List.takeWhile_append_dropWhile
  cases hdrop : q.dropWhile fun c => decide (c ≠ 59 ∧ c ≠ 13) with
  | nil =>
    rw [hdrop, List.append_nil] at hsplit
    exact .inl hsplit
  | cons c rest =>
    have hstop : ¬(c ≠ 59 ∧ c ≠ 13) := of_decide_eq_false (head_dropWhile hdrop)
    rw [hdrop] at hsplit
    exact .inr ⟨c,rest,by tauto,hsplit.symm⟩

/-- A character that does not go into length_str is written behind it. -/
theorem lengthStrFrom_over (h : buf.Holds N q) (str : List UInt8) (hd : q.drop i = body ++ rest)
    (hin : Inside body) (hstr : str.length ≤ kLengthStrSize)
    (hover : kLengthStrSize < str.length+body.length) :
    lengthStrFrom buf (q.drop i).length i str = .error .outOfBounds := by
  induction body generalizing i str with
  | nil =>
    rw [List.length_nil] at hover
    omega
  | cons b body ih =>
    rw [List.cons_append] at hd
    rw [List.length_cons] at hover
    by_cases hfull : str.length < kLengthStrSize
    · have hd' := (h.byteAt_of_drop hd).2.2
      rw [length_of_drop hd, lengthStrFrom_cons h hd (hin b List.mem_cons_self) hfull]
      exact ih (str ++ [b]) hd' hin.tail (by simp; omega) (by simp; omega)
    · obtain ⟨hb,-⟩ := h.byteAt_of_drop hd
      obtain ⟨hb59,hb13⟩ := hin b List.mem_cons_self
      have hne : ¬(((b.toNat : ℕ) : ℤ) = 59 ∨ ((b.toNat : ℕ) : ℤ) = 13) :=
        not_or.mpr ⟨toNat_ne hb59,toNat_ne hb13⟩
      rw [length_of_drop hd, lengthStrFrom]
      simp only [hb, if_neg (not_natCast_neg b), if_neg hne, if_neg hfull]

/-- What does not fit is written behind length_str. -/
theorem parseChunkLine_over (h : buf.Holds N q) (hover : ¬Fits q) (len : ℤ) :
    parseChunkLine buf len = .error .outOfBounds := by
  have hlen : buf.getLength = q.length := h.len_eq
  obtain ⟨hlong,hfull⟩ := not_or.mp hover
  have hpos : 0 < (lengthStr q).length := by
    have hsize : 0 < kLengthStrSize := by decide
    omega
  have hle : (lengthStr q).length ≤ q.length := (List.takeWhile_prefix _).length_le
  have hne : ¬q.length = 0 := by omega
  rw [parseChunkLine, hlen, if_neg hne]
  by_cases hmore : kLengthStrSize < (lengthStr q).length
  · have hsplit : q.drop 0 = lengthStr q ++ q.dropWhile (fun c => c ≠ 59 ∧ c ≠ 13) :=
      List.takeWhile_append_dropWhile.symm
    have hstr := lengthStrFrom_over h [] hsplit (inside_lengthStr q) (Nat.zero_le _) (by simpa using hmore)
    rw [List.drop_zero] at hstr
    rw [hstr, error_bind]
  · -- the NUL alone does not fit
    rcases lengthStr_cases q with heq | ⟨c,rest,hc,hq⟩
    · rw [heq] at hlong hmore
      exact absurd ⟨heq,by omega⟩ hfull
    · have hstr := lengthStrFrom_stop (i := 0) h hc [] hq (inside_lengthStr q)
        (by rw [List.length_nil]; omega)
      rw [List.drop_zero, List.nil_append] at hstr
      rw [hstr, ok_bind]
      simp only [if_pos (Nat.not_lt.mp hlong)]

theorem lineBreaks_append (hcr : 13 ∉ body) :
    LineBreaks (body ++ 13 :: rest) ↔ rest.head? = some 10 := by
  unfold LineBreaks
  rw [ListCuts.dropWhile_ne_append hcr]
  cases rest with
  | nil => exact iff_of_false (fun hp => by simp [crlf] at hp) (fun hc => by cases hc)
  | cons d rest => simp [crlf, eq_comm]

theorem not_lineBreaks (hcr : 13 ∉ q) : ¬LineBreaks q := by
  intro hbreak
  have hmem : (13 : UInt8) ∈ q :=
    (List.dropWhile_suffix _).subset (hbreak.subset List.mem_cons_self)
  exact hcr hmem

/-- From a stop character on the loop goes to the first CR, if there is one. -/
theorem lineEndFrom_stop {str : List UInt8} (h : buf.Holds N q) (hc : c = 59 ∨ c = 13)
    (hq : q = str ++ c :: rest) (hcr : 13 ∉ str) :
    let lineEnd := lineEndFrom buf (q.drop (str.length+1)).length (str.length+1) c.toNat
    (∃ body more, q = body ++ 13 :: more ∧ 13 ∉ body ∧ lineEnd = some (body.length+1)) ∨
      13 ∉ q ∧ lineEnd = none := by
  intro lineEnd
  have hd : q.drop (str.length+1) = rest := by
    rw [hq, List.append_cons]
    exact List.drop_left' (by simp)
  rcases hc with rfl | rfl
  · by_cases hmem : 13 ∈ rest
    · obtain ⟨mid,more,rfl,hmid⟩ := List.eq_append_cons_of_mem hmem
      refine .inl ⟨str ++ 59 :: mid,more,?_,by simp [hcr, hmid],?_⟩
      · rw [hq, List.append_assoc, List.cons_append]
      · have hend := lineEndFrom_line (c := 59) h (by decide) hd hmid
        rw [List.length_append, List.length_cons, ← Nat.add_assoc, Nat.add_right_comm str.length]
        exact hend
    · exact .inr ⟨by rw [hq]; simp [hcr, hmem],lineEndFrom_none h (by decide) hd hmem⟩
  · exact .inl ⟨str,rest,hq,hcr,lineEndFrom_cr _ _⟩

/-- What is read where length_str is large enough. -/
theorem parseChunkLine_fits (h : buf.Holds N q) (hfits : Fits q) (len : ℤ) :
    (LineBreaks q → parseChunkLine buf len = .ok (((q.takeWhile (· ≠ 13)).length+2 : ℕ),
      toInt32 (strtolBase 16 (cStr (lengthStr q))))) ∧
    (¬LineBreaks q → parseChunkLine buf len = .ok (-1,len)) := by
  have hin := inside_lengthStr q
  have hcr : 13 ∉ lengthStr q := fun hmem => (hin 13 hmem).2 rfl
  -- length_str takes all that is queued, or it stops at a semicolon or a carriage return
  rcases lengthStr_cases q with heq | ⟨c,rest,hc,hq⟩
  · rw [heq] at hin hcr
    have hsize : q.length ≤ kLengthStrSize := by
      rcases hfits with hless | ⟨-,hfull⟩
      · rw [heq] at hless
        omega
      · omega
    exact ⟨fun hbreak => absurd hbreak (not_lineBreaks hcr),
      fun _ => parseChunkLine_inside h hin hsize len⟩
  generalize hstr : lengthStr q = str at hin hcr hq
  have hsize : str.length < kLengthStrSize := by
    rcases hfits with hless | ⟨heq,-⟩
    · rwa [hstr] at hless
    · rw [hstr, hq] at heq
      simp at heq
  obtain ⟨hreads,hfails⟩ := parseChunkLine_of_stop h hc len hq hin hsize
  rcases lineEndFrom_stop h hc hq hcr with ⟨body,more,hline,hplain,hend⟩ | ⟨hplain,hnone⟩
  · have hd : q.drop (body.length+1) = more := by
      rw [hline, List.append_cons]
      exact List.drop_left' (by simp)
    have hlf : buf.byteAt (body.length+1) = 10 ↔ more.head? = some 10 := by
      rw [← hd]
      exact h.byteAt_eq_iff _ 10
    have hbreaks : LineBreaks q ↔ more.head? = some 10 := by
      rw [hline]
      exact lineBreaks_append hplain
    have htake : q.takeWhile (· ≠ 13) = body := by
      rw [hline]
      exact ListCuts.takeWhile_ne_append hplain
    rw [hbreaks, htake, ← hlf]
    constructor
    · intro hbyte
      exact hreads _ hend hbyte
    · intro hbyte
      apply hfails
      intro i hi
      obtain rfl := Option.some.inj (hend.symm.trans hi)
      exact hbyte
  · refine ⟨fun hbreak => absurd hbreak (not_lineBreaks hplain),fun _ => hfails fun i hi => ?_⟩
    rw [hnone] at hi
    cases hi

theorem lengthStr_append (hin : Inside body) (hc : c = 59 ∨ c = 13) (rest : List UInt8) :
    lengthStr (body ++ c :: rest) = body := by
  have hbody : ∀ b ∈ body, decide (b ≠ 59 ∧ b ≠ 13) = true :=
    fun b hb => decide_eq_true (hin b hb)
  have hstop : ¬(c ≠ 59 ∧ c ≠ 13) := by tauto
  rw [lengthStr, List.takeWhile_append_of_pos hbody,
    List.takeWhile_cons_of_neg (by simpa using hstop), List.append_nil]

theorem inside_digits (line : ChunkLine) : Inside line.digits := by
  intro b hb
  obtain ⟨-,-,-,-,-,-,-,h13,h59⟩ := hex_plain (line.digits_hex b hb)
  exact ⟨h59,h13⟩

/-- What is copied of a line, and where the line ends. -/
theorem StartsWith.parts {line : ChunkLine} (h : StartsWith q line) :
    lengthStr q = line.size ∧ line.size = line.digits ∧ LineBreaks q ∧
      line.text.length = (q.takeWhile (· ≠ 13)).length+2 := by
  obtain ⟨⟨rest,hq⟩,hext⟩ := h
  have hin := inside_digits line
  have hcr : 13 ∉ line.digits ++ line.ext := by
    rw [List.mem_append, not_or]
    exact ⟨fun hmem => (hin 13 hmem).2 rfl,line.ext_cr⟩
  have hq' : q = (line.digits ++ line.ext) ++ 13 :: (10 :: rest) := by
    rw [← hq, ChunkLine.text, List.append_assoc]
    rfl
  have hplain : ∀ b ∈ line.digits, decide (b ≠ 59) = true :=
    fun b hb => decide_eq_true (hin b hb).1
  have hsize : line.size = line.digits ∧ lengthStr q = line.digits := by
    rw [ChunkLine.size, List.takeWhile_append_of_pos hplain, hq', List.append_assoc]
    -- length_str stops at the semicolon of an extension, or at the line's end
    cases htail : line.ext with
    | nil => exact ⟨List.append_nil _,lengthStr_append hin (.inr rfl) _⟩
    | cons b mid =>
      have hb : b = 59 := by
        rw [htail] at hext
        exact Option.some.inj (hext.resolve_left (List.cons_ne_nil b mid))
      constructor
      · rw [hb, List.takeWhile_cons_of_neg (by decide), List.append_nil]
      · exact lengthStr_append hin (.inl hb) _
  refine ⟨hsize.2.trans hsize.1.symm,hsize.1,?_,?_⟩
  · rw [hq', lineBreaks_append hcr]
    rfl
  · rw [hq', ListCuts.takeWhile_ne_append hcr, ChunkLine.text, List.length_append]
    rfl

/-- A complete line is a chunk line if what is copied of it is a number in hex. -/
theorem startsWith_of_break (hbreak : LineBreaks q) (hne : lengthStr q ≠ [])
    (hhex : ∀ b ∈ lengthStr q, digitVal b < 16) : ∃ line, StartsWith q line := by
  obtain ⟨rest,hdrop⟩ := hbreak
  have hsplit : q.takeWhile (· ≠ 13) ++ (crlf ++ rest) = q := by
    rw [hdrop]
    exact List.takeWhile_append_dropWhile
  have hcr : 13 ∉ q.takeWhile (· ≠ 13) := by
    intro hmem
    have hgoes := List.mem_takeWhile_imp hmem
    exact absurd hgoes (by decide)
  -- the part of the line that is copied, and the extension
  have hline : ∃ ext, q.takeWhile (· ≠ 13) = lengthStr q ++ ext ∧
      (ext = [] ∨ ext.head? = some 59) := by
    have hin := inside_lengthStr q
    have hplain : 13 ∉ lengthStr q := fun hmem => (hin 13 hmem).2 rfl
    rcases lengthStr_cases q with heq | ⟨c,more,rfl | rfl,hq⟩
    · rw [heq] at hplain
      exact absurd ⟨rest,hdrop⟩ (not_lineBreaks hplain)
    · have hgoes : ∀ b ∈ lengthStr q, decide (b ≠ 13) = true :=
        fun b hb => decide_eq_true (hin b hb).2
      refine ⟨59 :: more.takeWhile (· ≠ 13),?_,.inr rfl⟩
      conv_lhs => rw [hq]
      rw [List.takeWhile_append_of_pos hgoes, List.takeWhile_cons_of_pos (by decide)]
    · refine ⟨[],?_,.inl rfl⟩
      conv_lhs => rw [hq]
      rw [ListCuts.takeWhile_ne_append hplain, List.append_nil]
  obtain ⟨ext,htake,hext⟩ := hline
  have hstart : ∀ b, ext.head? = some b → b = 59 ∨ b = 32 ∨ b = 9 := by
    intro b hb
    rcases hext with rfl | hhead
    · cases hb
    · exact .inl (Option.some.inj (hb.symm.trans hhead))
  have hext_cr : 13 ∉ ext := fun hmem => hcr (htake ▸ List.mem_append_right _ hmem)
  refine ⟨⟨lengthStr q,ext,hne,hhex,hstart,hext_cr⟩,⟨rest,?_⟩,hext⟩
  show lengthStr q ++ ext ++ crlf ++ rest = q
  rw [← htake, List.append_assoc, hsplit]

end

/-- `parseChunkLine` is safe and right exactly if what it copies in front of the first semicolon or
CR fits into length_str, and is a number in hex where the line is complete. -/
theorem readsChunkLine_iff (buffer : { buffer : CircularBuffer // buffer.WellFormed }) :
    ReadsChunkLine buffer ↔ HoldsChunkSize buffer.val.contents := by
  have hholds : buffer.val.Holds buffer.val.mBufferSize buffer.val.contents :=
    ⟨buffer.property,rfl,rfl⟩
  constructor
  · intro hreads
    have hfits : Fits buffer.val.contents := by
      by_contra hover
      obtain ⟨ret,len',hparse,-⟩ := hreads 0
      rw [parseChunkLine_over hholds hover] at hparse
      cases hparse
    refine ⟨hfits,fun hbreak => ?_⟩
    by_contra hnot
    obtain ⟨ret,len',hparse,hno,-⟩ := hreads 0
    rw [(parseChunkLine_fits hholds hfits 0).1 hbreak] at hparse
    obtain ⟨rfl,-⟩ := Prod.mk.inj (Except.ok.inj hparse)
    -- a line that is no chunk line is consumed
    have hneg := hno fun line hline => by
      obtain ⟨hsize,hdigits,-⟩ := hline.parts
      rw [hdigits] at hsize
      rw [hsize] at hnot
      exact hnot ⟨line.digits_ne,line.digits_hex⟩
    omega
  · rintro ⟨hfits,hhex⟩ len
    obtain ⟨hcomplete,hpart⟩ := parseChunkLine_fits hholds hfits len
    by_cases hbreak : LineBreaks buffer.val.contents
    · obtain ⟨hne,hdigits⟩ := hhex hbreak
      refine ⟨_,_,hcomplete hbreak,fun hno => ?_,fun line hline hvalue => ?_⟩
      · obtain ⟨line,hline⟩ := startsWith_of_break hbreak hne hdigits
        exact absurd hline (hno line)
      · obtain ⟨hsize,-,-,hlen⟩ := hline.parts
        rw [hlen, hsize, strtolBase_size line hvalue]
        exact ⟨rfl,rfl⟩
    · refine ⟨_,_,hpart hbreak,fun _ => by decide,fun line hline => ?_⟩
      exact absurd hline.parts.2.2.1 hbreak

/-- A buffer that holds a chunk line with forty digits. -/
def longSize : { buffer : CircularBuffer // buffer.WellFormed } :=
  ⟨{ mBuffer := store (fun _ => 0) 0 (List.replicate 40 48 ++ crlf)
     mBufferSize := 48
     mReadPtr := 0
     mWritePtr := 42
     mLen := 42 },by constructor <;> decide⟩

/-- The NUL is written behind length_str. -/
theorem longSize_overflows : ¬ReadsChunkLine longSize := by
  intro hreads
  obtain ⟨ret,len',hparse,-⟩ := hreads 0
  have hfault : parseChunkLine longSize 0 = .error .outOfBounds := by rfl
  rw [hfault] at hparse
  cases hparse

end HttpAgent

end JhCommon
