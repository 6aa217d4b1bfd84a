import JhCommon.PathMeaning

/-! What `normalize` returns is in a normal form, which it does not change again. -/
namespace JhCommon
namespace Path

/-- No "." and no ".." that could be taken away, and separators only where they are needed. -/
structure Canonical (path : Str) : Prop where
  no_dot : dot ∉ path.splitOn '/'
  no_empty : ∀ i, (path.splitOn '/')[i]? = some [] → i = 0 ∧ isRelative path = false
  no_return : ∀ before behind, path.splitOn '/' = before ++ dotdot :: behind →
    ∀ name ∈ before, ¬IsName name
  no_trailing : path.getLast? ≠ some '/'

variable {u : ℕ} {names : List Str}

/-- Names are all kept. -/
theorem normalizeParts_names (hn : ∀ name ∈ names, IsName name) (start : Bool) (v : PartVector) :
    normalizeParts names start v = .ok (v ++ names) := by
  induction names generalizing start v with
  | nil => rw [normalizeParts, List.append_nil]
  | cons name names ih =>
    obtain ⟨⟨hne,hdot⟩,hdd,-⟩ := hn name List.mem_cons_self
    rw [normalizeParts, if_neg hdd, if_pos ⟨hdot,hne⟩,
      ih (fun n h => hn n (List.mem_cons_of_mem name h)), List.append_assoc]
    rfl

theorem normalizeParts_of_stack (hn : ∀ name ∈ names, IsName name) :
    normalizeParts (stack u names) true [] = .ok (stack u names) := by
  have hlead := normalizeParts_leading u 0 names
  rw [Nat.zero_add, normalizeParts_names hn, ← List.append_nil (List.replicate u dotdot)] at hlead
  simpa [stack] using hlead

/-- In a stack the ".."s come before the names. -/
theorem stack_dotdot (hn : ∀ name ∈ names, IsName name) {before behind : List Str}
    (h : stack u names = before ++ dotdot :: behind) : ∀ name ∈ before, ¬IsName name := by
  induction u generalizing before with
  | zero =>
    have hmem : dotdot ∈ names := by
      have hst : names = before ++ dotdot :: behind := h
      rw [hst]
      simp
    exact absurd rfl (hn dotdot hmem).2.1
  | succ u ih =>
    cases before with
    | nil => simp
    | cons part before =>
      obtain ⟨rfl,hrest⟩ := List.cons.inj h
      intro name hname
      rcases List.mem_cons.mp hname with rfl | hname
      · exact fun hdd => hdd.2.1 rfl
      · exact ih hrest name hname

/-- The text of a stack that is not empty. -/
theorem canonical_stack (hn : ∀ name ∈ names, IsName name) (hpos : 0 < u+names.length)
    (absolute : Bool) : Canonical ((if absolute = true then ['/'] else []) ++
      ['/'].intercalate (stack u names)) := by
  have hsplit := splitOn_stack hn hpos absolute
  have hrel := isRelative_stack hn hpos absolute
  generalize (if absolute = true then ['/'] else []) ++ ['/'].intercalate (stack u names) = path at *
  -- only the part before the root's separator is empty
  have hempty : ∀ i, (path.splitOn '/')[i]? = some [] → i = 0 ∧ isRelative path = false := by
    intro i hi
    rw [hsplit] at hi
    have hstack : [] ∉ stack u names := fun h => (stack_mem hn h).1.1 rfl
    cases absolute with
    | false => exact absurd (List.mem_of_getElem? hi) hstack
    | true =>
      cases i with
      | zero => exact ⟨rfl,hrel⟩
      | succ i =>
        have htail : (stack u names)[i]? = some [] := hi
        exact absurd (List.mem_of_getElem? htail) hstack
  refine ⟨?_,hempty,?_,?_⟩
  · rw [hsplit]
    intro h
    rcases List.mem_append.mp h with h | h
    · cases absolute <;> simp [dot] at h
    · exact (stack_mem hn h).1.2 rfl
  · intro before behind h
    rw [hsplit] at h
    cases absolute with
    | false => exact stack_dotdot hn h
    | true =>
      cases before with
      | nil => cases (List.cons.inj h).1
      | cons part before =>
        obtain ⟨rfl,hrest⟩ := List.cons.inj h
        intro name hname
        rcases List.mem_cons.mp hname with rfl | hname
        · exact fun hroot => hroot.1.1 rfl
        · exact stack_dotdot hn hrest name hname
  · -- a separator at the end would leave an empty part behind it
    intro hlast
    obtain ⟨init,rfl⟩ := List.getLast?_eq_some_iff.mp hlast
    have happ := List.splitOn_append_cons_self (a := '/') init []
    have hlen := List.length_pos_of_ne_nil (List.splitOn_ne_nil '/' init)
    have hend := (hempty (init.splitOn '/').length (by rw [happ]; simp)).1
    omega

/-- The result of `normalize` is canonical, and is what `normalize` makes of it. -/
theorem normalize_canonical {path res : Str} (h : normalize path = .ok res) :
    Canonical res ∧ normalize res = .ok res := by
  obtain ⟨u,names,hn,hpos,hst⟩ := stack_of_normalize h
  obtain rfl := Except.ok.inj (h.symm.trans (normalize_of_stack hpos hst))
  refine ⟨canonical_stack hn hpos _,?_⟩
  have hsplit := splitOn_stack hn hpos (!isRelative path)
  have hrel := isRelative_stack hn hpos (!isRelative path)
  have hmoves : moves ((if (!isRelative path) = true then ['/'] else []) ++
      ['/'].intercalate (stack u names)) = stack u names := by
    have hroot : ((if (!isRelative path) = true then [[]] else []) : List Str).filter Moves = [] := by
      cases isRelative path <;> decide
    rw [moves, hsplit, List.filter_append, hroot, List.nil_append, List.filter_eq_self]
    intro part hpart
    exact decide_eq_true (stack_mem hn hpart).1
  have hnorm := normalize_eq ((congrArg (normalizeParts · true []) hmoves).trans
    (normalizeParts_of_stack hn))
  rw [hnorm, if_neg (stack_ne_nil hpos), hrel]
  cases isRelative path <;> rfl

/-- From "/../a/./..//b/" to "/../b". -/
theorem normalize_canonical_dots : Canonical ['/','.','.','/','b'] ∧
    normalize ['/','.','.','/','b'] = .ok ['/','.','.','/','b'] :=
  normalize_canonical (show normalize ['/','.','.','/','a','/','.','/','.','.','/','/','b','/'] =
    .ok ['/','.','.','/','b'] from rfl)

end Path

end JhCommon
