import JhCommon.Split
import JhCommon.StringType

/-! What `split` returns: with a size_type as wide as unsigned the pieces of the string, and with a
wider one nothing, since its loop never meets npos. -/
namespace JhCommon
open Word32

section Pieces
variable {α : Type}

/-- p0 r1 p1 r2 p2 and so on. -/
def interleave : List (List α) → List (List α) → List α
  | [], _ => []
  | p :: _, [] => p
  | p :: parts, r :: runs => p ++ (r ++ interleave parts runs)

/-- The string is these parts, with runs of separators between them. -/
structure Decomposes (chars str : List α) (parts : List (List α)) : Prop where
  runs : ∃ runs, runs.length+1 = parts.length ∧ (∀ r ∈ runs, r ≠ [] ∧ ∀ c ∈ r, c ∈ chars) ∧
    str = interleave parts runs
  free : ∀ p ∈ parts, ∀ c ∈ p, c ∉ chars
  inner : ∀ p ∈ parts.tail.dropLast, p ≠ []

variable {chars str : List α}

theorem decomposes_singleton (h : ∀ c ∈ str, c ∉ chars) : Decomposes chars str [str] where
  runs := ⟨[],rfl,by simp,rfl⟩
  free := by simpa using h
  inner := by simp

/-- A first part and a run in front of parts of which only the last may be empty. -/
theorem Decomposes.cons {p r rest : List α} {parts : List (List α)} (h : Decomposes chars rest parts)
    (hp : ∀ c ∈ p, c ∉ chars) (hne : r ≠ []) (hr : ∀ c ∈ r, c ∈ chars)
    (hinner : ∀ q ∈ parts.dropLast, q ≠ []) : Decomposes chars (p ++ (r ++ rest)) (p :: parts) where
  runs := by
    obtain ⟨runs,hlen,hruns,rfl⟩ := h.runs
    refine ⟨r :: runs,by simp [hlen],?_,?_⟩
    · exact List.forall_mem_cons.mpr ⟨⟨hne,hr⟩,hruns⟩
    · cases parts with
      | nil => simp at hlen
      | cons q parts => rfl
  free := List.forall_mem_cons.mpr ⟨hp,h.free⟩
  inner := hinner

/-- Parts and runs both take characters, but for the first part and the last. -/
theorem Decomposes.length_le {parts : List (List α)} (h : Decomposes chars str parts) :
    2*parts.length ≤ str.length+3 := by
  obtain ⟨runs,hlen,hruns,rfl⟩ := h.runs
  have hinner := h.inner
  clear h
  -- all parts but the last two and their runs
  have hlong : ∀ (runs parts : List (List α)), runs.length+1 = parts.length → (∀ r ∈ runs, r ≠ []) →
      (∀ q ∈ parts.dropLast, q ≠ []) → 2*parts.length ≤ (interleave parts runs).length+2 := by
    intro runs
    induction runs with
    | nil =>
      intro parts hlen _ _
      rw [← hlen]
      simp
    | cons r runs ih =>
      intro parts hlen hruns hparts
      obtain ⟨p,q,parts,rfl⟩ : ∃ p q rest, parts = p :: q :: rest := by
        cases parts with
        | nil => simp at hlen
        | cons p parts =>
          cases parts with
          | nil => simp at hlen
          | cons q parts => exact ⟨p,q,parts,rfl⟩
      rw [List.dropLast_cons_cons] at hparts
      have hp := List.length_pos_of_ne_nil (hparts p List.mem_cons_self)
      have hr := List.length_pos_of_ne_nil (hruns r List.mem_cons_self)
      have hrest := ih (q :: parts) (by simpa using hlen)
        (fun r' h => hruns r' (List.mem_cons_of_mem r h)) (fun p' h => hparts p' (List.mem_cons_of_mem p h))
      simp only [interleave, List.length_append, List.length_cons] at hrest ⊢
      omega
  cases runs with
  | nil =>
    rw [← hlen]
    simp
  | cons r runs =>
    cases parts with
    | nil => simp at hlen
    | cons p parts =>
      have hr := List.length_pos_of_ne_nil (hruns r List.mem_cons_self).1
      have hrest := hlong runs parts (by simpa using hlen)
        (fun r' h => (hruns r' (List.mem_cons_of_mem r h)).1) hinner
      simp only [interleave, List.length_append, List.length_cons]
      omega

end Pieces

namespace StringType
variable {α : Type} [DecidableEq α] {T : StringType α} {str chars : List α}

/-- The positions are the first separators, and otherwise the largest unsigned. -/
def Finds (T : StringType α) (str chars : List α) : Prop :=
  ∀ start, T.position str chars start = (firstOf str chars start).getD (2^32-1)

/-- The inner loop ends in front of a character that is no separator, or at the end. -/
theorem skipRun_spec (hfinds : Finds T str chars) (hlen : str.length < 2^32-1) (fuel start : ℕ)
    (hstart : start ≤ str.length) (hfuel : str.length < fuel+start) :
    ∃ next run, T.skipRun str chars fuel start (T.position str chars start) =
        .ok (next,T.position str chars next) ∧ next ≤ str.length ∧
      str.drop start = run ++ str.drop next ∧ (∀ c ∈ run, c ∈ chars) ∧
      firstOf str chars next ≠ some next := by
  induction fuel generalizing start with
  | zero => omega
  | succ fuel ih =>
    rw [skipRun]
    cases hfirst : firstOf str chars start with
    | none =>
      have hpos : T.position str chars start = 2^32-1 := by rw [hfinds, hfirst]; rfl
      refine ⟨start,[],?_,hstart,rfl,by simp,by rw [hfirst]; simp⟩
      rw [if_neg (by omega)]
    | some pos =>
      have hpos : T.position str chars start = pos := by rw [hfinds, hfirst]; rfl
      obtain ⟨hle,hlt,a,c,hdrop,ha,hc,-⟩ := firstOf_eq_some hfirst
      -- the run goes on as long as the next separator is where it is looked for
      by_cases heq : pos = start
      · subst heq
        obtain rfl : a = [] := List.eq_nil_of_length_eq_zero (by omega)
        obtain ⟨next,run,hskip,hnext,hrun,hmem,hstop⟩ := ih (pos+1) hlt (by omega)
        refine ⟨next,c :: run,?_,hnext,?_,List.forall_mem_cons.mpr ⟨hc,hmem⟩,hstop⟩
        · simp only [hpos, if_true]
          rw [add32_of_lt (by omega), hskip]
        · rw [hdrop, hrun]
          rfl
      · refine ⟨start,[],?_,hstart,rfl,by simp,?_⟩
        · rw [if_neg (by omega)]
        · rw [hfirst]
          exact fun h => heq (Option.some.inj h)

/-- A string class with a size_type as wide as unsigned. -/
structure Narrow (T : StringType α) : Prop where
  npos_eq : T.npos = 2^32-1
  finds : ∀ str chars : List α, str.length < 2^32-1 → Finds T str chars
  substr_eq : ∀ (str : List α) start n, str.length < 2^32-1 → start ≤ str.length →
    start+n ≤ str.length ∨ start+n = 2^32-1 → T.substr str start n = .ok ((str.drop start).take n)

/-- The parts from start on, whatever the fuel is that suffices. Behind a run of separators only
the last one can be empty. The induction is on a bound for what is left of the string. -/
theorem splitLoop_spec (chars : List α) (hT : Narrow T) (hlen : str.length < 2^32-1) (bound start : ℕ)
    (hstart : start ≤ str.length) (hbound : str.length < bound+start) :
    ∃ rest, (∀ fuel parts, str.length < fuel+start →
        T.splitLoop str chars fuel start (T.position str chars start) parts = .ok (parts ++ rest)) ∧
      Decomposes chars (str.drop start) rest ∧
      (firstOf str chars start ≠ some start → ∀ p ∈ rest.dropLast, p ≠ []) := by
  have hfinds := hT.finds str chars hlen
  induction bound generalizing start with
  | zero => omega
  | succ bound ih =>
    -- where no separator comes any more, the last part gets the length npos-start
    cases hfirst : firstOf str chars start with
    | none =>
      have hpos : T.position str chars start = 2^32-1 := by rw [hfinds, hfirst]; rfl
      have hn : sub32 (2^32-1) start = 2^32-1-start := sub32_of_le (by omega) (by omega)
      refine ⟨[str.drop start],?_,decomposes_singleton (firstOf_eq_none hfirst),by simp⟩
      intro fuel parts hfuel
      obtain ⟨fuel,rfl⟩ : ∃ n, fuel = n+1 := ⟨fuel-1,by omega⟩
      rw [splitLoop, hT.npos_eq, hpos, if_neg (by simp), hn,
        hT.substr_eq str start _ hlen hstart (.inr (by omega)), ok_bind,
        List.take_of_length_le (by rw [List.length_drop]; omega)]
    | some pos =>
      have hpos : T.position str chars start = pos := by rw [hfinds, hfirst]; rfl
      obtain ⟨hle,hlt,a,c,hdrop,ha,hc,hfree⟩ := firstOf_eq_some hfirst
      have htake : (str.drop start).take (pos-start) = a := by rw [hdrop, ← ha, List.take_left]
      -- the separators behind this one are skipped before the next part
      obtain ⟨next,run,hskip,hnext,hrun,hmem,hstop⟩ := skipRun_spec hfinds hlen (str.length+1) (pos+1)
        hlt (by omega)
      have hafter : pos+1 ≤ next := by
        have hshort := congrArg List.length hrun
        simp only [List.length_append, List.length_drop] at hshort
        omega
      obtain ⟨rest,hloop,hparts,hinner⟩ := ih next hnext (by omega)
      refine ⟨a :: rest,?_,?_,?_⟩
      · intro fuel parts hfuel
        obtain ⟨fuel,rfl⟩ : ∃ n, fuel = n+1 := ⟨fuel-1,by omega⟩
        rw [splitLoop, hT.npos_eq, hpos, if_pos (by omega), sub32_of_le (by omega) hle,
          hT.substr_eq str start _ hlen hstart (.inl (by omega)), ok_bind, htake]
        simp only [add32_of_lt (show pos+1 < 2^32 by omega)]
        rw [hskip, ok_bind]
        simp only
        rw [hloop fuel (parts ++ [a]) (by omega), List.append_assoc]
        rfl
      · rw [hdrop, hrun]
        exact hparts.cons (r := c :: run) hfree (by simp) (List.forall_mem_cons.mpr ⟨hc,hmem⟩)
          (hinner hstop)
      · -- a separator at start would have been an empty first part
        intro hne p hp
        obtain ⟨runs,hruns,-,-⟩ := hparts.runs
        obtain ⟨q,rest,rfl⟩ : ∃ q rest', rest = q :: rest' :=
          List.exists_cons_of_length_pos (by omega)
        rw [List.dropLast_cons_cons] at hp
        rcases List.mem_cons.mp hp with rfl | hp
        · rintro rfl
          apply hne
          rw [List.length_nil] at ha
          exact congrArg some (by omega)
        · exact hinner hstop p hp

/-- `split` returns, with a decomposition of the string, and the number of the parts where an int
holds it. -/
structure SplitsInto (T : StringType α) (str chars : List α) (n : ℤ) (parts : List (List α)) : Prop where
  returns : ∀ fuel, str.length < fuel → T.split str chars fuel = .ok (n,parts)
  decomposes : Decomposes chars str parts
  counts : n = parts.length ↔ parts.length < 2^31
  few : str.length+3 < 2^32 → parts.length < 2^31

theorem splits_of_narrow (hT : Narrow T) (hlen : str.length < 2^32-1) :
    ∃ n parts, SplitsInto T str chars n parts := by
  obtain ⟨parts,hloop,hparts,-⟩ := splitLoop_spec chars hT hlen (str.length+1) 0
    (Nat.zero_le _) (by omega)
  rw [List.drop_zero] at hparts
  have hcount := hparts.length_le
  refine ⟨int32 parts.length,parts,?_,hparts,?_,fun hshort => by omega⟩
  · intro fuel hfuel
    rw [split, hloop fuel [] hfuel, ok_bind, List.nil_append]
  · exact int32_eq_iff (by omega)

/-- What an unsigned keeps of npos is the largest unsigned. -/
theorem std_finds {w : ℕ} (hw : (2^w-1) % 2^32 = 2^32-1) (hlen : str.length < 2^32-1) :
    Finds (std α w) str chars := by
  intro start
  show (firstOf str chars start).getD (2^w-1) % 2^32 = _
  cases hfirst : firstOf str chars start with
  | none => exact hw
  | some pos =>
    obtain ⟨-,hlt,-⟩ := firstOf_eq_some hfirst
    exact Nat.mod_eq_of_lt (show pos < 2^32 by omega)

theorem std_narrow (α : Type) [DecidableEq α] : Narrow (std α 32) where
  npos_eq := rfl
  finds str chars hlen := std_finds (by norm_num) hlen
  substr_eq str start n _ hstart _ := if_neg (Nat.not_lt.mpr hstart)

namespace JetHead

theorem findFirstOf_eq (chars rest : List UInt8) (i : ℕ) :
    findFirstOf chars rest i = ((rest.findIdx? (· ∈ chars)).map (i+·)).getD npos := by
  induction rest generalizing i with
  | nil => rfl
  | cons c rest ih =>
    rw [findFirstOf, List.findIdx?_cons]
    by_cases hc : c ∈ chars
    · simp [hc]
    · rw [if_neg hc, ih]
      cases rest.findIdx? (· ∈ chars) with
      | none => simp [hc]
      | some j =>
        simp [hc]
        omega

/-- A count that goes past the end is cut there, as long as its end is no word's overflow. -/
theorem substr_eq {s : List UInt8} {pos n : ℕ} (hlen : s.length < npos) (hpos : pos ≤ s.length)
    (hn : pos+n ≤ npos) : substr s pos n = .ok ((s.drop pos).take n) := by
  have hnpos : npos = 2^32-1 := rfl
  unfold substr
  by_cases hend : pos = s.length
  · rw [if_pos (by omega), hend, List.drop_length, List.take_nil]
  have hrest : (s.drop pos).length = s.length-pos := List.length_drop
  have hshort {k : ℕ} (hk : k ≤ s.length-pos) : ofChars (s.drop pos) k = .ok ((s.drop pos).take k) := by
    simp only [ofChars, if_neg (show k ≠ npos by omega)]
    rw [if_pos (by omega), List.take_append_of_le_length (by omega)]
  rw [if_neg (by omega), add32_of_lt (by omega)]
  split_ifs with hpast
  · rw [hshort le_rfl, List.take_of_length_le (by omega), List.take_of_length_le (by omega)]
  · exact hshort (by omega)

end JetHead

theorem jetHead_narrow : Narrow jetHead where
  npos_eq := rfl
  finds str chars hlen start := by
    have hnpos : JetHead.npos = 2^32-1 := rfl
    show JetHead.findFirstOf chars (str.drop start) start % 2^32 = _
    rw [JetHead.findFirstOf_eq, hnpos]
    exact std_finds (w := 32) (by norm_num) hlen start
  substr_eq str start n hlen hstart hn := by
    have hnpos : JetHead.npos = 2^32-1 := rfl
    exact JetHead.substr_eq hlen hstart (by omega)

/-- A string is decomposed by `split` where size_type and unsigned have one width, as it is in
JetHead::basic_string, and in std::string with 32 bits. -/
theorem split_decomposes :
    (∀ str chars : List UInt8, str.length < 2^32-1 →
      ∃ n parts, SplitsInto jetHead str chars n parts) ∧
    ∀ (α : Type) [DecidableEq α] (str chars : List α), str.length < 2^32-1 →
      ∃ n parts, SplitsInto (std α 32) str chars n parts :=
  ⟨fun _ _ hlen => splits_of_narrow jetHead_narrow hlen,
    fun α _ _ _ hlen => splits_of_narrow (std_narrow α) hlen⟩

theorem split_decomposes_spaces : ∃ n parts,
    (std Char 32).split [' ','a',' ',' ','b',' '] [' ','\t'] 7 = .ok (n,parts) ∧
    n = 4 ∧ parts = [[],['a'],['b'],[]] ∧
    SplitsInto (std Char 32) [' ','a',' ',' ','b',' '] [' ','\t'] n parts := by
  obtain ⟨n,parts,h⟩ := split_decomposes.2 Char [' ','a',' ',' ','b',' '] [' ','\t'] (by decide)
  have hsplit : (std Char 32).split [' ','a',' ',' ','b',' '] [' ','\t'] 7 =
      .ok (4,[[],['a'],['b'],[]]) := by decide +kernel
  obtain ⟨rfl,rfl⟩ := Prod.mk.inj (Except.ok.inj ((h.returns 7 (by decide)).symm.trans hsplit))
  exact ⟨_,_,hsplit,rfl,rfl,h⟩

section ManyPieces

/-- n+1 commas, with a letter between any two. -/
def commas (n : ℕ) : List UInt8 := 44 :: (List.replicate n [97,44]).flatten

theorem commas_succ (n : ℕ) : commas (n+1) = 44 :: 97 :: commas n := rfl

theorem commas_length (n : ℕ) : (commas n).length = 2*n+1 := by
  induction n with
  | zero => rfl
  | succ n ih =>
    rw [commas_succ, List.length_cons, List.length_cons, ih]
    omega

theorem commas_count (n : ℕ) : (commas n).countP (· ∈ [44]) = n+1 := by
  induction n with
  | zero => rfl
  | succ n ih =>
    rw [commas_succ, List.countP_cons_of_pos (by decide), List.countP_cons_of_neg (by decide), ih]

theorem commas_apart (n : ℕ) : (commas n).IsChain fun c d => ¬(c ∈ [44] ∧ d ∈ [44]) := by
  induction n with
  | zero => exact List.isChain_singleton _
  | succ n ih =>
    rw [commas_succ]
    have hletter : (97 : UInt8) ∉ [44] := by decide
    exact .cons_cons (fun h => hletter h.2) (.cons_cons (fun h => hletter h.1) ih)

/-- Where no two separators are next to each other, a run of them has one at most. -/
theorem countP_interleave_le {α : Type} [DecidableEq α] {chars : List α}
    (runs parts : List (List α)) (hlen : runs.length+1 = parts.length)
    (hfree : ∀ p ∈ parts, ∀ c ∈ p, c ∉ chars) (hruns : ∀ r ∈ runs, ∀ c ∈ r, c ∈ chars)
    (hapart : (interleave parts runs).IsChain fun c d => ¬(c ∈ chars ∧ d ∈ chars)) :
    (interleave parts runs).countP (· ∈ chars) ≤ runs.length := by
  induction runs generalizing parts with
  | nil =>
    obtain ⟨p,rfl⟩ := List.length_eq_one_iff.mp hlen.symm
    have hnone := List.countP_eq_zero.mpr fun c hc =>
      show ¬decide (c ∈ chars) = true by simpa using hfree p List.mem_cons_self c hc
    exact hnone.le
  | cons r runs ih =>
    cases parts with
    | nil => simp at hlen
    | cons p parts =>
      have hrest := List.isChain_append.mp (List.isChain_append.mp hapart).2.1
      have hcount := ih parts (by simpa using hlen) (fun q hq => hfree q (List.mem_cons_of_mem p hq))
        (fun q hq => hruns q (List.mem_cons_of_mem r hq)) hrest.2.1
      have hnone : p.countP (· ∈ chars) = 0 := List.countP_eq_zero.mpr fun c hc =>
        show ¬decide (c ∈ chars) = true by simpa using hfree p List.mem_cons_self c hc
      have hone : r.length ≤ 1 := by
        match r, hrest.1, hruns r List.mem_cons_self with
        | [], _, _ => exact Nat.zero_le _
        | [_], _, _ => exact le_rfl
        | c :: d :: _, hr, hmem => exact absurd ⟨hmem c (by simp),hmem d (by simp)⟩ hr.rel
      have hle := r.countP_le_length (p := (· ∈ chars))
      simp only [interleave, List.countP_append, List.length_cons] at hcount ⊢
      omega

theorem commas_parts {n : ℕ} {parts : List (List UInt8)} (h : Decomposes [44] (commas n) parts) :
    parts.length = n+2 := by
  have hle := h.length_le
  rw [commas_length] at hle
  obtain ⟨runs,hlen,hruns,heq⟩ := h.runs
  have hcount := countP_interleave_le runs parts hlen h.free (fun r hr => (hruns r hr).2)
    (heq ▸ commas_apart n)
  rw [← heq, commas_count] at hcount
  omega

/-- 2^31 pieces are returned as a negative number. -/
theorem split_count_overflows : ¬∀ str chars : List UInt8, str.length < 2^32-1 →
    ∃ parts, (∀ fuel, str.length < fuel →
      jetHead.split str chars fuel = .ok ((parts.length : ℤ),parts)) ∧ Decomposes chars str parts := by
  intro h
  obtain ⟨n,hn⟩ : ∃ n, n+2 = 2^31 := ⟨2^31-2,rfl⟩
  have hlen : (commas n).length < 2^32-1 := by
    rw [commas_length]
    omega
  obtain ⟨parts,hsplit,hparts⟩ := h (commas n) [44] hlen
  obtain ⟨count,parts',hsplits⟩ : ∃ count parts', SplitsInto jetHead (commas n) [44] count parts' :=
    splits_of_narrow jetHead_narrow hlen
  have hreturns := (hsplits.returns _ (Nat.lt_succ_self _)).symm.trans (hsplit _ (Nat.lt_succ_self _))
  obtain ⟨rfl,rfl⟩ := Prod.mk.inj (Except.ok.inj hreturns)
  have hfew := hsplits.counts.mp rfl
  have hmany := commas_parts hparts
  omega

end ManyPieces

section Paths
variable {str chars : Str} (hlen : str.length < 2^32-1)
include hlen

theorem std_position (start : ℕ) : (std Char 32).position str chars start =
    (str.findFirstOf chars start).getD (2^32-1) :=
  std_finds (by norm_num) hlen start

theorem skipRun_std (fuel start : ℕ) (hstart : start ≤ str.length) :
    (std Char 32).skipRun str chars fuel start ((std Char 32).position str chars start) =
      (Str.skipRun str chars fuel start (str.findFirstOf chars start)).map
        fun next => (next.1,next.2.getD (2^32-1)) := by
  induction fuel generalizing start with
  | zero => rfl
  | succ fuel ih =>
    rw [skipRun, Str.skipRun, std_position hlen]
    cases hfirst : str.findFirstOf chars start with
    | none =>
      rw [if_neg (show ¬(none : Option ℕ).getD (2^32-1) = start by rw [Option.getD_none]; omega),
        if_neg (by simp)]
      rfl
    | some pos =>
      obtain ⟨-,hlt,-⟩ := Str.findFirstOf_eq_some hfirst
      by_cases heq : pos = start
      · subst heq
        simp only [Option.getD_some, if_true]
        rw [add32_of_lt (by omega)]
        exact ih (pos+1) hlt
      · rw [if_neg (by simpa using heq), if_neg (by simpa using heq)]
        rfl

theorem splitLoop_std (fuel start : ℕ) (parts : List Str) (hstart : start ≤ str.length) :
    (std Char 32).splitLoop str chars fuel start ((std Char 32).position str chars start) parts =
      Str.splitLoop str chars fuel start (str.findFirstOf chars start) parts := by
  induction fuel generalizing start parts with
  | zero => rfl
  | succ fuel ih =>
    have hT := std_narrow Char
    rw [splitLoop, hT.npos_eq, std_position hlen]
    cases hfirst : str.findFirstOf chars start with
    | none =>
      rw [if_neg (by simp)]
      simp only [Option.getD_none, Str.splitLoop, Str.substr_none hstart, ok_bind]
      rw [sub32_of_le (by omega) (by omega), hT.substr_eq str start _ hlen hstart (.inr (by omega)),
        ok_bind, List.take_of_length_le (by rw [List.length_drop]; omega)]
    | some pos =>
      obtain ⟨hle,hlt,-⟩ := Str.findFirstOf_eq_some hfirst
      rw [if_pos (by simp only [Option.getD_some]; omega)]
      simp only [Option.getD_some, Str.splitLoop, Str.substr_some hstart, ok_bind]
      rw [sub32_of_le (by omega) hle, hT.substr_eq str start _ hlen hstart (.inl (by omega)), ok_bind,
        add32_of_lt (by omega), skipRun_std hlen _ _ hlt]
      obtain ⟨next,hskip,-,hend,-⟩ := Str.skipRun_spec str chars (str.length+1) (pos+1) hlt (by omega)
      rw [hskip, ok_bind, ← ih next _ hend, std_position hlen]
      rfl

/-- The parts that a path is split into, where a position is an option, are these. -/
theorem split_std : (std Char 32).split str chars (str.length+1) =
    (str.split chars).map fun parts => (int32 parts.length,parts) := by
  rw [split, splitLoop_std hlen _ _ _ (Nat.zero_le _), ← Str.split]
  cases str.split chars <;> rfl

end Paths

/-- Where no separator is found the loop goes on at the beginning of the string: the position after
the last unsigned one is 0, and no unsigned one is npos. -/
theorem splitLoop_wide (hlen : str.length < 2^32-1) (fuel start : ℕ) (parts : List (List α))
    (hstart : start ≤ str.length) : (std α 64).splitLoop str chars fuel start
      ((std α 64).position str chars start) parts = .error .outOfFuel := by
  have hfinds : Finds (std α 64) str chars := std_finds (by norm_num) hlen
  induction fuel generalizing start parts with
  | zero => rfl
  | succ fuel ih =>
    have hnpos : (std α 64).position str chars start ≠ (std α 64).npos := by
      have hlt : (std α 64).position str chars start < 2^32 := Nat.mod_lt _ (by norm_num)
      have hwide : (std α 64).npos = 2^64-1 := rfl
      omega
    have hafter : add32 ((std α 64).position str chars start) 1 ≤ str.length := by
      rw [hfinds]
      cases hfirst : firstOf str chars start with
      | none =>
        rw [add32_eq]
        exact Nat.zero_le _
      | some pos =>
        obtain ⟨-,hlt,-⟩ := firstOf_eq_some hfirst
        rw [Option.getD_some, add32_of_lt (by omega)]
        exact hlt
    obtain ⟨next,run,hskip,hnext,-⟩ := skipRun_spec hfinds hlen (str.length+1) _ hafter (by omega)
    have hsub (n : ℕ) : (std α 64).substr str start n = .ok ((str.drop start).take n) :=
      if_neg (Nat.not_lt.mpr hstart)
    rw [splitLoop, if_pos hnpos, hsub, ok_bind]
    simp only
    rw [hskip, ok_bind]
    exact ih next _ hnext

theorem split_wide (hlen : str.length < 2^32-1) (fuel : ℕ) :
    (std α 64).split str chars fuel = .error .outOfFuel := by
  rw [split, splitLoop_wide hlen fuel 0 [] (Nat.zero_le _), error_bind]

/-- With a size_type of 64 bits `split` does not return, whatever the string is. -/
theorem split_wide_never (str chars : List α) (hlen : str.length < 2^32-1) :
    (∀ fuel, (std α 64).split str chars fuel = .error .outOfFuel) ∧
      ¬∃ fuel parts, (std α 64).split str chars fuel = .ok (int32 parts.length,parts) ∧
        Decomposes chars str parts := by
  refine ⟨split_wide hlen,?_⟩
  rintro ⟨fuel,parts,hsplit,-⟩
  cases (split_wide hlen fuel).symm.trans hsplit

theorem split_wide_never_path : (∀ fuel, (std Char 64).split ['a','/','b'] ['/'] fuel = .error .outOfFuel) ∧
    ¬∃ fuel parts, (std Char 64).split ['a','/','b'] ['/'] fuel = .ok (int32 parts.length,parts) ∧
      Decomposes ['/'] ['a','/','b'] parts :=
  split_wide_never ['a','/','b'] ['/'] (by decide)

/-- Not even of the empty string. -/
theorem split_wide_empty : ¬∀ str chars : Str, str.length < 2^32-1 →
    ∃ fuel parts, (std Char 64).split str chars fuel = .ok (int32 parts.length,parts) ∧
      Decomposes chars str parts := by
  intro h
  obtain ⟨fuel,parts,hsplit,-⟩ := h [] ['/'] (by decide)
  cases (split_wide (by decide) fuel).symm.trans hsplit

end StringType

end JhCommon
