import JhCommon.StdString

/-! `split` of `jh_string.h`, with a size_type as wide as unsigned: its loops come to an end, and
its pieces are those between the separators, up to empty ones. -/
namespace JhCommon
namespace Str

/-- The inner loop of `split`: step over separators that follow each other. -/
def skipRun (str chars : Str) : ℕ → ℕ → Option ℕ → Exec (ℕ × Option ℕ)
  | 0, _, _ => .error .outOfFuel
  | fuel+1, start, pos =>
    if pos = some start then skipRun str chars fuel (start+1) (str.findFirstOf chars (start+1))
    else .ok (start,pos)

/-- The outer loop of `split`, and the last piece. -/
def splitLoop (str chars : Str) : ℕ → ℕ → Option ℕ → List Str → Exec (List Str)
  | 0, _, _, _ => .error .outOfFuel
  | fuel+1, start, pos, parts =>
    match pos with
    | none => do
      let part ← str.substr start none
      .ok (parts ++ [part])
    | some pos => do
      let part ← str.substr start (some (pos-start))
      let start := pos+1
      let (start,pos) ← skipRun str chars (str.length+1) start (str.findFirstOf chars start)
      splitLoop str chars fuel start pos (parts ++ [part])

def split (str chars : Str) : Exec (List Str) :=
  splitLoop str chars (str.length+1) 0 (str.findFirstOf chars 0) []

/-- The pieces between single separators, without the empty ones. -/
noncomputable def pieces (chars str : Str) : List Str :=
  (str.splitOnP (· ∈ chars)).filter (· ≠ [])

theorem pieces_append {chars a b : Str} {c : Char} (ha : ∀ d ∈ a, d ∉ chars) (hc : c ∈ chars) :
    pieces chars (a ++ c :: b) = [a].filter (· ≠ []) ++ pieces chars b := by
  rw [pieces, List.splitOnP_append_cons_of_forall_mem (by simpa using ha) c (by simpa using hc),
    ← List.singleton_append, List.filter_append]
  rfl

theorem pieces_of_forall {chars a : Str} (ha : ∀ d ∈ a, d ∉ chars) :
    pieces chars a = [a].filter (· ≠ []) := by
  rw [pieces, List.splitOnP_eq_singleton (by simpa using ha)]

/-- The inner loop stops where no separator stands, and has passed nothing but separators. -/
theorem skipRun_spec (str chars : Str) (fuel start : ℕ) (hstart : start ≤ str.length)
    (hfuel : str.length < fuel+start) :
    ∃ next, skipRun str chars fuel start (str.findFirstOf chars start) =
        .ok (next,str.findFirstOf chars next) ∧ start ≤ next ∧ next ≤ str.length ∧
      pieces chars (str.drop next) = pieces chars (str.drop start) := by
  induction fuel generalizing start with
  | zero => omega
  | succ fuel ih =>
    rw [skipRun]
    by_cases hpos : str.findFirstOf chars start = some start
    · obtain ⟨-,hlt,a,c,hdrop,hlen,hc,-⟩ := findFirstOf_eq_some hpos
      obtain rfl : a = [] := by
        rw [Nat.sub_self] at hlen
        exact List.eq_nil_of_length_eq_zero hlen
      obtain ⟨next,hskip,hle,hend,hpieces⟩ := ih (start+1) (by omega) (by omega)
      refine ⟨next,by rw [if_pos hpos, hskip],by omega,hend,?_⟩
      rw [hpieces, hdrop, pieces_append (by simp) hc]
      rfl
    · exact ⟨start,if_neg hpos,le_rfl,hstart,rfl⟩

theorem splitLoop_spec (str chars : Str) (fuel start : ℕ) (parts : List Str)
    (hstart : start ≤ str.length) (hfuel : str.length < fuel+start) :
    ∃ rest, splitLoop str chars fuel start (str.findFirstOf chars start) parts =
        .ok (parts ++ rest) ∧ rest.filter (· ≠ []) = pieces chars (str.drop start) := by
  induction fuel generalizing start parts with
  | zero => omega
  | succ fuel ih =>
    cases hpos : str.findFirstOf chars start with
    | none =>
      refine ⟨[str.drop start],by simp only [splitLoop, substr_none hstart, ok_bind],?_⟩
      exact (pieces_of_forall (findFirstOf_eq_none hpos)).symm
    | some pos =>
      obtain ⟨hle,hlt,a,c,hdrop,hlen,hc,ha⟩ := findFirstOf_eq_some hpos
      have htake : (str.drop start).take (pos-start) = a := by
        rw [hdrop, ← hlen, List.take_left]
      obtain ⟨next,hskip,hnext,hend,hpieces⟩ := skipRun_spec str chars
        (str.length+1) (pos+1) hlt (by omega)
      obtain ⟨rest,hloop,hrest⟩ := ih next (parts ++ [a]) hend (by omega)
      refine ⟨a :: rest,?_,?_⟩
      · simp only [splitLoop, substr_some hstart, ok_bind, htake, hskip]
        rw [hloop, List.append_assoc]
        rfl
      · rw [hdrop, pieces_append ha hc, ← hpieces, ← hrest, ← List.filter_append]
        rfl

/-- `split` returns on every string, with the pieces between the separators. -/
theorem split_spec (str chars : Str) :
    ∃ parts, split str chars = .ok parts ∧ parts.filter (· ≠ []) = pieces chars str := by
  obtain ⟨rest,hloop,hrest⟩ := splitLoop_spec str chars (str.length+1) 0 []
    (Nat.zero_le _) (by omega)
  exact ⟨rest,hloop,hrest⟩

end Str

end JhCommon
