import JhCommon.Exec

/-! The calls of std::string that the sources make, on the list of a string's characters. The
position npos is none. -/
namespace JhCommon

abbrev Str := List Char

/-- The first place from pos on where one of these characters stands. -/
def firstOf {α : Type} [DecidableEq α] (s chars : List α) (pos : ℕ) : Option ℕ :=
  ((s.drop pos).findIdx? (· ∈ chars)).map (pos+·)

section FirstOf
variable {α : Type} [DecidableEq α] {s chars : List α} {pos : ℕ}

theorem firstOf_eq_none (h : firstOf s chars pos = none) : ∀ c ∈ s.drop pos, c ∉ chars := by
  intro c hc
  have hnone := List.findIdx?_eq_none_iff.mp (Option.map_eq_none_iff.mp h) c hc
  simpa using hnone

/-- What stands before the character that is found, and behind it. -/
theorem firstOf_eq_some {i : ℕ} (h : firstOf s chars pos = some i) :
    pos ≤ i ∧ i < s.length ∧ ∃ a c, s.drop pos = a ++ c :: s.drop (i+1) ∧ a.length = i-pos ∧
      c ∈ chars ∧ ∀ d ∈ a, d ∉ chars := by
  obtain ⟨j,hj,rfl⟩ := Option.map_eq_some_iff.mp h
  obtain ⟨hlt,hc,hbefore⟩ := List.findIdx?_eq_some_iff_getElem.mp hj
  rw [List.length_drop] at hlt
  refine ⟨by omega,by omega,(s.drop pos).take j,(s.drop pos)[j],?_,?_,by simpa using hc,?_⟩
  · rw [show pos+j+1 = pos+(j+1) by omega, ← List.drop_drop, List.getElem_cons_drop,
      List.take_append_drop]
  · rw [List.length_take_of_le (by rw [List.length_drop]; omega)]
    omega
  · intro d hd
    obtain ⟨k,hk,rfl⟩ := List.getElem_of_mem hd
    rw [List.length_take] at hk
    rw [List.getElem_take]
    simpa using hbefore k (by omega)

end FirstOf

namespace Str

/-- The first place where pat stands in s. -/
def indexOf (pat : Str) : Str → Option ℕ
  | [] => if pat.isPrefixOf [] then some 0 else none
  | c :: s => if pat.isPrefixOf (c :: s) then some 0 else (indexOf pat s).map (·+1)

/-- The first place from pos on. -/
def find (s pat : Str) (pos : ℕ) : Option ℕ :=
  if pos ≤ s.length then (indexOf pat (s.drop pos)).map (pos+·) else none

/-- The first place from pos on where one of these characters stands. -/
def findFirstOf (s chars : Str) (pos : ℕ) : Option ℕ :=
  ((s.drop pos).findIdx? (· ∈ chars)).map (pos+·)

/-- At most n characters from pos on; a position behind the end throws. -/
def substr (s : Str) (pos : ℕ) (n : Option ℕ) : Exec Str :=
  if pos > s.length then .error .outOfBounds
  else .ok (match n with
    | none => s.drop pos
    | some n => (s.drop pos).take n)

theorem indexOf_singleton {c : Char} {a b : Str} (ha : c ∉ a) :
    indexOf [c] (a ++ c :: b) = some a.length := by
  induction a with
  | nil => simp [indexOf, List.isPrefixOf]
  | cons d a ih =>
    obtain ⟨hd,ha⟩ := not_or.mp (List.mem_cons.not.mp ha)
    rw [List.cons_append, indexOf, if_neg (by simp [List.isPrefixOf, hd]), ih ha]
    rfl

theorem indexOf_eq_none {c : Char} {s : Str} : indexOf [c] s = none ↔ c ∉ s := by
  induction s with
  | nil => simp [indexOf, List.isPrefixOf]
  | cons d s ih =>
    rw [indexOf, List.mem_cons, not_or, ← ih]
    split_ifs with hd
    · simp [List.isPrefixOf] at hd
      simp [hd]
    · simp [List.isPrefixOf] at hd
      simp [hd]

theorem indexOf_lt {c : Char} {s : Str} {i : ℕ} (h : indexOf [c] s = some i) : i < s.length := by
  induction s generalizing i with
  | nil => simp [indexOf, List.isPrefixOf] at h
  | cons d s ih =>
    rw [indexOf] at h
    split_ifs at h
    · exact (Option.some.inj h) ▸ Nat.succ_pos _
    · obtain ⟨j,hj,rfl⟩ := Option.map_eq_some_iff.mp h
      exact Nat.succ_lt_succ (ih hj)

theorem prefix_of_indexOf {pat s : Str} {i : ℕ} (h : indexOf pat s = some i) :
    pat <+: s.drop i := by
  induction s generalizing i with
  | nil =>
    rw [indexOf] at h
    split_ifs at h with hp
    rw [← Option.some.inj h]
    exact List.isPrefixOf_iff_prefix.mp hp
  | cons c s ih =>
    rw [indexOf] at h
    split_ifs at h with hp
    · rw [← Option.some.inj h]
      exact List.isPrefixOf_iff_prefix.mp hp
    · obtain ⟨j,hj,rfl⟩ := Option.map_eq_some_iff.mp h
      exact ih hj

theorem prefix_of_find {s pat : Str} {pos i : ℕ} (h : find s pat pos = some i) :
    pat <+: s.drop i := by
  rw [find] at h
  split_ifs at h
  obtain ⟨j,hj,rfl⟩ := Option.map_eq_some_iff.mp h
  rw [← List.drop_drop]
  exact prefix_of_indexOf hj

/-- What stands at pos is found at pos. -/
theorem find_prefix {s pat : Str} {pos : ℕ} (hpos : pos ≤ s.length) (h : pat <+: s.drop pos) :
    find s pat pos = some pos := by
  have h' := List.isPrefixOf_iff_prefix.mpr h
  rw [find, if_pos hpos]
  cases hs : s.drop pos with
  | nil =>
    rw [hs] at h'
    rw [indexOf, if_pos h']
    rfl
  | cons c r =>
    rw [hs] at h'
    rw [indexOf, if_pos h']
    rfl

/-- A character is found behind a part without it. -/
theorem find_append {s : Str} {c : Char} {pos : ℕ} {a b : Str} (hpos : pos ≤ s.length)
    (hs : s.drop pos = a ++ c :: b) (ha : c ∉ a) : find s [c] pos = some (pos+a.length) := by
  rw [find, if_pos hpos, hs, indexOf_singleton ha]
  rfl

theorem find_eq_none {s : Str} {c : Char} {pos : ℕ} (hs : c ∉ s.drop pos) :
    find s [c] pos = none := by
  rw [find]
  split_ifs
  · rw [indexOf_eq_none.mpr hs]
    rfl
  · rfl

theorem find_zero_eq_none {s : Str} {c : Char} : find s [c] 0 = none ↔ c ∉ s := by
  rw [find, if_pos (Nat.zero_le _), List.drop_zero, Option.map_eq_none_iff, indexOf_eq_none]

theorem lt_of_find {s : Str} {c : Char} {pos i : ℕ} (h : find s [c] pos = some i) :
    pos ≤ i ∧ i < s.length := by
  rw [find] at h
  split_ifs at h with hpos
  obtain ⟨j,hj,rfl⟩ := Option.map_eq_some_iff.mp h
  have hlt := indexOf_lt hj
  rw [List.length_drop] at hlt
  omega

theorem substr_ok {s : Str} {pos : ℕ} (h : pos ≤ s.length) (n : Option ℕ) :
    ∃ r, substr s pos n = .ok r := ⟨_,if_neg (Nat.not_lt.mpr h)⟩

theorem substr_some {s : Str} {pos n : ℕ} (h : pos ≤ s.length) :
    substr s pos (some n) = .ok ((s.drop pos).take n) := if_neg (Nat.not_lt.mpr h)

theorem substr_none {s : Str} {pos : ℕ} (h : pos ≤ s.length) :
    substr s pos none = .ok (s.drop pos) := if_neg (Nat.not_lt.mpr h)

theorem length_substr {s r : Str} {pos : ℕ} {n : Option ℕ} (h : substr s pos n = .ok r) :
    r.length ≤ s.length-pos := by
  unfold substr at h
  split_ifs at h
  obtain rfl := Except.ok.inj h
  cases n with
  | none => exact (List.length_drop).le
  | some n => exact (List.length_take_le' _ _).trans (List.length_drop).le

theorem findFirstOf_eq_none {s chars : Str} {pos : ℕ} (h : s.findFirstOf chars pos = none) :
    ∀ c ∈ s.drop pos, c ∉ chars := firstOf_eq_none h

theorem findFirstOf_eq_some {s chars : Str} {pos i : ℕ} (h : s.findFirstOf chars pos = some i) :
    pos ≤ i ∧ i < s.length ∧ ∃ a c, s.drop pos = a ++ c :: s.drop (i+1) ∧ a.length = i-pos ∧
      c ∈ chars ∧ ∀ d ∈ a, d ∉ chars := firstOf_eq_some h

theorem find_eq_findFirstOf (s : Str) (c : Char) (pos : ℕ) : find s [c] pos = findFirstOf s [c] pos := by
  have hindex (t : Str) : indexOf [c] t = t.findIdx? (· ∈ [c]) := by
    induction t with
    | nil => rfl
    | cons d t ih =>
      rw [indexOf, List.findIdx?_cons, ih]
      by_cases hd : d = c
      · simp [List.isPrefixOf, hd]
      · simp [List.isPrefixOf, hd, Ne.symm hd]
  rw [find, findFirstOf, hindex]
  split_ifs with hpos
  · rfl
  · rw [List.drop_eq_nil_of_le (by omega)]
    rfl

/-- What stands before the first such character, and behind it. -/
theorem find_eq_some {s : Str} {c : Char} {pos i : ℕ} (h : find s [c] pos = some i) :
    pos ≤ i ∧ i < s.length ∧ ∃ a, s.drop pos = a ++ c :: s.drop (i+1) ∧ a.length = i-pos ∧ c ∉ a := by
  rw [find_eq_findFirstOf] at h
  obtain ⟨hle,hlt,a,d,hdrop,hlen,hd,ha⟩ := findFirstOf_eq_some h
  obtain rfl := List.mem_singleton.mp hd
  exact ⟨hle,hlt,a,hdrop,hlen,fun hmem => ha d hmem (List.mem_singleton_self d)⟩

theorem not_mem_of_find_eq_none {s : Str} {c : Char} {pos : ℕ} (h : find s [c] pos = none) :
    c ∉ s.drop pos := by
  rw [find_eq_findFirstOf] at h
  exact fun hmem => findFirstOf_eq_none h c hmem (List.mem_singleton_self c)

theorem drop_add_of_drop {s a b : Str} {n : ℕ} (h : s.drop n = a ++ b) :
    s.drop (n+a.length) = b := by
  rw [← List.drop_drop, h, List.drop_left]

theorem le_length_of_drop {s a b : Str} {n : ℕ} (h : s.drop n = a ++ b) (hn : n ≤ s.length) :
    n+a.length ≤ s.length := by
  have hlen := congrArg List.length h
  rw [List.length_drop, List.length_append] at hlen
  omega

end Str

end JhCommon
