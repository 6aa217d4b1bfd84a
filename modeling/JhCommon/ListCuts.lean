import Mathlib.Data.List.TakeWhile

/-! Lists cut at the first place where an element stands. -/
namespace JhCommon.ListCuts

variable {α : Type*} [DecidableEq α] {c : α} {a b s : List α}

/-- A list without c is walked through to its end. -/
theorem all_ne (hs : c ∉ s) : ∀ d ∈ s, decide (d ≠ c) = true :=
  fun _ hd => decide_eq_true (ne_of_mem_of_not_mem hd hs)

theorem takeWhile_ne_self (hs : c ∉ s) : s.takeWhile (· ≠ c) = s :=
  List.takeWhile_eq_self_iff.mpr (all_ne hs)

theorem dropWhile_ne_self (hs : c ∉ s) : s.dropWhile (· ≠ c) = [] :=
  List.dropWhile_eq_nil_iff.mpr (all_ne hs)

theorem takeWhile_ne_append (ha : c ∉ a) : (a ++ c :: b).takeWhile (· ≠ c) = a := by
  rw [List.takeWhile_append_of_pos (all_ne ha), List.takeWhile_cons_of_neg (by simp), List.append_nil]

theorem dropWhile_ne_append (ha : c ∉ a) : (a ++ c :: b).dropWhile (· ≠ c) = c :: b := by
  rw [List.dropWhile_append_of_pos (all_ne ha), List.dropWhile_cons_of_neg (by simp)]

end JhCommon.ListCuts
