import JhCommon.HeaderText
import Mathlib.Data.List.DropRight
import Mathlib.Order.Bounds.Defs

/-! Which line `searchForLine` finds in any bytes. -/
namespace JhCommon
open CircularBuffer RingMemory HttpResponse

/-- A line that goes on no further ends behind the first n bytes. -/
def LineEndAt (q : List UInt8) (n : ℕ) : Prop :=
  ∃ line rest, q = line ++ 13 :: 10 :: rest ∧ NoContinuation rest ∧ n = line.length+2

/-- The CRs at the end of some bytes. -/
def crRun (line : List UInt8) : ℕ := (line.rtakeWhile (· = 13)).length

/-- The result of the search names the first line of the bytes, their end, or none. -/
def FindsFirstLine (q : List UInt8) (r : ℤ) : Prop :=
  (r = kEOH ↔ crlf <+: q) ∧
  (¬crlf <+: q → (∀ n : ℕ, IsLeast {n | LineEndAt q n} n → r = n) ∧
    ((∀ n, ¬LineEndAt q n) → r = -1))

/-- The CR of the first line break is not itself behind a CR that the scan has taken for the start
of one. -/
def FirstLineClean (q : List UInt8) : Prop :=
  ∀ n, IsLeast {n | LineEndAt q n} n → Even (crRun (q.take (n-2)))

/-- The ends of lines at which the scan is behind a CR of its own. -/
def CleanEndAt (q : List UInt8) (n : ℕ) : Prop :=
  LineEndAt q n ∧ Even (crRun (q.take (n-2)))

/-- Where the scan stands behind some bytes. -/
def stateBehind (read : List UInt8) : SearchState := if Even (crRun read) then .searchCR else .haveCR

section
variable {read cs q : List UInt8} {c : UInt8} {n : ℕ}

theorem crRun_cr (read : List UInt8) : crRun (read ++ [13]) = crRun read + 1 := by
  unfold crRun
  rw [List.rtakeWhile_concat_pos _ _ _ (by decide), List.length_append, List.length_singleton]

theorem crRun_other (hc : c ≠ 13) (read : List UInt8) : crRun (read ++ [c]) = 0 := by
  unfold crRun
  rw [List.rtakeWhile_concat_neg _ _ _ (by simpa using hc), List.length_nil]

/-- No CR stands at the end of bytes that go on without one. -/
theorem crRun_plain {tail : List UInt8} (hc : c ≠ 13) (htail : 13 ∉ tail) (read : List UInt8) :
    crRun (read ++ c :: tail) = 0 := by
  cases tail using List.reverseRecOn with
  | nil => exact crRun_other hc read
  | append_singleton tail d =>
    have hd : d ≠ 13 := by
      rintro rfl
      exact htail (List.mem_append_right tail List.mem_cons_self)
    rw [← List.cons_append, ← List.append_assoc]
    exact crRun_other hd _

theorem stateBehind_cr (read : List UInt8) :
    stateBehind (read ++ [13]) = if Even (crRun read) then .haveCR else .searchCR := by
  unfold stateBehind
  rw [crRun_cr]
  by_cases heven : Even (crRun read)
  · rw [if_pos heven, if_neg (by rwa [Nat.even_add_one, not_not])]
  · rw [if_neg heven, if_pos (Nat.even_add_one.mpr heven)]

theorem stateBehind_other (hc : c ≠ 13) (read : List UInt8) :
    stateBehind (read ++ [c]) = .searchCR := by
  unfold stateBehind
  rw [crRun_other hc, if_pos Even.zero]

/-- A line ends behind a LF which the scan reads behind a CR of its own. -/
theorem cleanEndAt_iff :
    CleanEndAt (read ++ c :: cs) (read.length+1) ↔
      c = 10 ∧ stateBehind read = .haveCR ∧ NoContinuation cs := by
  have hhave : stateBehind read = .haveCR ↔ ¬Even (crRun read) := by
    unfold stateBehind
    by_cases heven : Even (crRun read)
    · rw [if_pos heven]
      exact iff_of_false (fun h => by cases h) (not_not.mpr heven)
    · rw [if_neg heven]
      exact iff_of_true rfl heven
  rw [hhave]
  constructor
  · rintro ⟨⟨line,rest,hq,hcont,hn⟩,heven⟩
    have hread : read.length = (line ++ [13]).length := by
      rw [List.length_append, List.length_singleton]
      omega
    have hq : read ++ c :: cs = (line ++ [13]) ++ 10 :: rest := by
      rw [hq, List.append_assoc, List.singleton_append]
    obtain ⟨rfl,hcs⟩ := List.append_inj hq hread
    obtain ⟨rfl,rfl⟩ := List.cons.inj hcs
    have htake : ((line ++ [13]) ++ 10 :: cs).take ((line ++ [13]).length+1-2) = line := by
      rw [List.append_assoc]
      exact List.take_left' (by rw [List.length_append, List.length_singleton]; omega)
    rw [htake] at heven
    refine ⟨rfl,?_,hcont⟩
    rw [crRun_cr, Nat.even_add_one, not_not]
    exact heven
  · rintro ⟨rfl,hodd,hcont⟩
    -- the bytes read end in a CR
    have hread : ∃ line, read = line ++ [13] := by
      cases read using List.reverseRecOn with
      | nil => exact absurd Even.zero hodd
      | append_singleton line d =>
        by_cases hd : d = 13
        · exact ⟨line,by rw [hd]⟩
        · rw [crRun_other hd] at hodd
          exact absurd Even.zero hodd
    obtain ⟨line,rfl⟩ := hread
    have hlen : (line ++ [13]).length+1-2 = line.length := by
      rw [List.length_append, List.length_singleton]
      omega
    refine ⟨⟨line,cs,by rw [List.append_assoc, List.singleton_append],hcont,?_⟩,?_⟩
    · rw [List.length_append, List.length_singleton]
    · rw [hlen, List.append_assoc, List.take_left]
      rwa [crRun_cr, Nat.even_add_one, not_not] at hodd

/-- What the rest of the scan finds. -/
def FindsFrom (q : List UInt8) (i : ℕ) (r : ℤ) : Prop :=
  (r = -1 ∧ ∀ n, i < n → ¬CleanEndAt q n) ∨
  ∃ n : ℕ, r = n ∧ i < n ∧ CleanEndAt q n ∧ ∀ m, i < m → CleanEndAt q m → n ≤ m

theorem FindsFrom.later {i : ℕ} {r : ℤ} (h : FindsFrom q (i+1) r) (hnot : ¬CleanEndAt q (i+1)) :
    FindsFrom q i r := by
  have hnext : ∀ m, i < m → CleanEndAt q m → i+1 < m := by
    intro m hm hend
    have hne : i+1 ≠ m := fun heq => hnot (heq ▸ hend)
    omega
  rcases h with ⟨hr,hnone⟩ | ⟨n,hr,hn,hend,hleast⟩
  · exact .inl ⟨hr,fun m hm hend => hnone m (hnext m hm hend) hend⟩
  · exact .inr ⟨n,hr,by omega,hend,fun m hm hend => hleast m (hnext m hm hend) hend⟩

theorem FindsFrom.here {i : ℕ} (hend : CleanEndAt q (i+1)) : FindsFrom q i (i+1 : ℕ) :=
  .inr ⟨i+1,rfl,by omega,hend,fun _ hm _ => hm⟩

/-- The scan stops at the first of the ends it can see. -/
theorem lineEnd_finds (hq : ¬crlf <+: read ++ cs) :
    FindsFrom (read ++ cs) read.length (lineEnd read.length (stateBehind read) cs) := by
  induction cs generalizing read with
  | nil =>
    refine .inl ⟨by rw [lineEnd],?_⟩
    rintro n hn ⟨⟨line,rest,hline,-,rfl⟩,-⟩
    have hlen := congrArg List.length hline
    simp only [List.length_append, List.length_cons, List.length_nil] at hlen
    omega
  | cons c cs ih =>
    have hsplit : read ++ c :: cs = (read ++ [c]) ++ cs := by
      rw [List.append_assoc, List.singleton_append]
    have hlen : (read ++ [c]).length = read.length+1 := by
      rw [List.length_append, List.length_singleton]
    have hrest := ih (hsplit ▸ hq)
    rw [← hsplit, hlen] at hrest
    have hend : CleanEndAt (read ++ c :: cs) (read.length+1) ↔
        c = 10 ∧ stateBehind read = .haveCR ∧ NoContinuation cs := cleanEndAt_iff
    by_cases heven : Even (crRun read)
    · have hstate : stateBehind read = .searchCR := if_pos heven
      have hnext : (if c = 13 then SearchState.haveCR else .searchCR) = stateBehind (read ++ [c]) := by
        by_cases hc : c = 13
        · rw [if_pos hc, hc, stateBehind_cr, if_pos heven]
        · rw [if_neg hc, stateBehind_other hc]
      rw [hstate] at hend ⊢
      rw [lineEnd, hnext]
      exact hrest.later fun h => by cases (hend.mp h).2.1
    · have hstate : stateBehind read = .haveCR := if_neg heven
      have hnext : stateBehind (read ++ [c]) = .searchCR := by
        by_cases hc : c = 13
        · rw [hc, stateBehind_cr, if_neg heven]
        · exact stateBehind_other hc read
      rw [hstate] at hend ⊢
      rw [hnext] at hrest
      rw [lineEnd]
      by_cases hc : c = 10
      · have hlong : ¬read.length+1 = 2 := by
          intro hone
          -- one byte read, and it is a CR: then the bytes start with an empty line
          obtain ⟨d,rfl⟩ := List.length_eq_one_iff.mp (show read.length = 1 by omega)
          by_cases hd : d = 13
          · exact hq ⟨cs,by rw [hd, hc]; rfl⟩
          · rw [← List.nil_append [d], crRun_other hd] at heven
            exact heven Even.zero
        rw [if_pos hc, if_neg hlong]
        by_cases hcont : cs.head? = some 32 ∨ cs.head? = some 9
        · rw [if_pos hcont]
          exact hrest.later fun h => not_or.mpr (hend.mp h).2.2 hcont
        · rw [if_neg hcont]
          exact .here (hend.mpr ⟨hc,rfl,not_or.mp hcont⟩)
      · rw [if_neg hc]
        exact hrest.later fun h => hc (hend.mp h).1

theorem searchForLine_finds {N : ℕ} {buf : CircularBuffer} (h : buf.Holds N q)
    (hempty : ¬crlf <+: q) : FindsFrom q 0 buf.searchForLine := by
  rw [searchForLine_eq h]
  exact @lineEnd_finds [] q hempty

/-- Bytes that start with an empty line are the end of a header. -/
theorem lineEnd_empty (hq : crlf <+: q) : lineEnd 0 .searchCR q = kEOH := by
  obtain ⟨rest,rfl⟩ := hq
  show lineEnd 0 .searchCR (13 :: 10 :: rest) = kEOH
  rw [lineEnd, if_pos rfl, lineEnd, if_pos rfl, if_pos rfl]

theorem LineEndAt.pos (h : LineEndAt q n) : 0 < n := by
  obtain ⟨line,rest,-,-,rfl⟩ := h
  omega

/-- The line that is found is the first one, where the scan is not confused in front of it. -/
theorem finds_iff_clean {r : ℤ} (hfinds : FindsFrom q 0 r) :
    ((∀ n : ℕ, IsLeast {n | LineEndAt q n} n → r = n) ∧ ((∀ n, ¬LineEndAt q n) → r = -1)) ↔
      FirstLineClean q := by
  constructor
  · rintro ⟨hfirst,-⟩ n hn
    have hr := hfirst n hn
    rcases hfinds with ⟨hneg,-⟩ | ⟨m,hm,-,hend,-⟩
    · rw [hneg] at hr
      omega
    · obtain rfl : m = n := by omega
      exact hend.2
  · intro hclean
    constructor
    · intro n hn
      have hend : CleanEndAt q n := ⟨hn.1,hclean n hn⟩
      rcases hfinds with ⟨-,hnone⟩ | ⟨m,hm,-,hend',hleast⟩
      · exact absurd hend (hnone n hn.1.pos)
      · have hle : m ≤ n := hleast n hn.1.pos hend
        have hge : n ≤ m := hn.2 hend'.1
        omega
    · intro hnone
      rcases hfinds with ⟨hr,-⟩ | ⟨m,-,-,hend,-⟩
      · exact hr
      · exact absurd hend.1 (hnone m)

end

/-- A line that is found ends in a line break, behind an even number of CRs, and no such line ends
in front of it. -/
theorem searchForLine_found {N n : ℕ} {buf : CircularBuffer} {q : List UInt8} (h : buf.Holds N q)
    (hempty : ¬crlf <+: q) (hpos : 0 < n) (hn : buf.searchForLine = n) :
    ∃ line rest, q = line ++ 13 :: 10 :: rest ∧ NoContinuation rest ∧ n = line.length+2 ∧
      Even (crRun line) ∧ ∀ m, CleanEndAt q m → n ≤ m := by
  have hfinds := searchForLine_finds h hempty
  rw [hn] at hfinds
  rcases hfinds with ⟨hneg,-⟩ | ⟨m,hm,-,hend,hleast⟩
  · omega
  · obtain rfl : n = m := by omega
    obtain ⟨⟨line,rest,rfl,hcont,rfl⟩,heven⟩ := hend
    rw [Nat.add_sub_cancel, List.take_left] at heven
    exact ⟨line,rest,rfl,hcont,rfl,heven,fun m hm => hleast m hm.1.pos hm⟩

/-- The search finds the first line of any bytes exactly if no odd number of CRs stands in front of
its line break, where the bytes do not start with an empty line. -/
theorem findsFirstLine_iff (buffer : { buffer : CircularBuffer // buffer.WellFormed }) :
    FindsFirstLine buffer.val.contents buffer.val.searchForLine ↔
      (¬crlf <+: buffer.val.contents → FirstLineClean buffer.val.contents) := by
  have hholds : buffer.val.Holds buffer.val.mBufferSize buffer.val.contents :=
    ⟨buffer.property,rfl,rfl⟩
  by_cases hempty : crlf <+: buffer.val.contents
  · have hend : buffer.val.searchForLine = kEOH := by
      rw [searchForLine_eq hholds]
      exact lineEnd_empty hempty
    exact iff_of_true ⟨iff_of_true hend hempty,absurd hempty⟩ (absurd hempty)
  have hfinds := searchForLine_finds hholds hempty
  have hline : buffer.val.searchForLine ≠ kEOH := by
    rcases hfinds with ⟨hr,-⟩ | ⟨n,hr,hn,-,-⟩
    · rw [hr]
      decide
    · rw [hr]
      show (n : ℤ) ≠ 0
      omega
  rw [imp_iff_right hempty, ← finds_iff_clean hfinds]
  constructor
  · intro h
    exact h.2 hempty
  · intro h
    exact ⟨iff_of_false hline hempty,fun _ => h⟩

/-- A buffer that holds a line with two CRs in front of its LF. -/
def doubleReturn : { buffer : CircularBuffer // buffer.WellFormed } :=
  ⟨{ mBuffer := store (fun _ => 0) 0 (text "a\r\r\n")
     mBufferSize := 8
     mReadPtr := 0
     mWritePtr := 4
     mLen := 4 },by constructor <;> decide⟩

/-- The second CR ends what the first one has begun, and the line is not found. -/
theorem doubleReturn_hidden :
    ¬FindsFirstLine doubleReturn.val.contents doubleReturn.val.searchForLine := by
  have hcontents : doubleReturn.val.contents = [97,13] ++ 13 :: 10 :: [] := by decide
  have hempty : ¬crlf <+: doubleReturn.val.contents := by
    rw [hcontents]
    decide
  have hsearch : doubleReturn.val.searchForLine = -1 := by decide
  have hend : LineEndAt doubleReturn.val.contents 4 :=
    ⟨[97,13],[],hcontents,by unfold NoContinuation; decide,rfl⟩
  rintro ⟨-,hfinds⟩
  have hleast : IsLeast {n | LineEndAt doubleReturn.val.contents n} 4 := by
    refine ⟨hend,?_⟩
    rintro n ⟨line,rest,hq,-,rfl⟩
    have hlen := congrArg List.length (hcontents.symm.trans hq)
    simp only [List.length_append, List.length_cons, List.length_nil] at hlen
    -- a shorter line would have its break at other bytes
    rw [hcontents] at hq
    by_contra hless
    rcases Nat.lt_or_ge line.length 1 with hzero | hone
    · obtain rfl := List.length_eq_zero_iff.mp (show line.length = 0 by omega)
      exact absurd (List.cons.inj hq).1 (by decide)
    · obtain ⟨d,rfl⟩ := List.length_eq_one_iff.mp (show line.length = 1 by omega)
      exact absurd (List.cons.inj (List.cons.inj (List.cons.inj hq).2).2).1 (by decide)
  have hfound := (hfinds hempty).1 4 hleast
  rw [hsearch] at hfound
  exact absurd hfound (by decide)

end JhCommon
