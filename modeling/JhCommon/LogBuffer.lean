import JhCommon.Exec
import JhCommon.ListCuts
import JhCommon.StdString

/-! The character arrays that `logging.cpp` writes its lines and names to. What would be written behind
the end of an array, a NULL pointer that is used and a counter that leaves the range of int do not
return. -/
namespace JhCommon

inductive LogFault
  | outOfBounds
  | nullDeref
  | overflow
  deriving DecidableEq, Repr

namespace LogBuffer

abbrev NUL : Char := '\x00'

/-- The characters of a text are written from place off on. -/
def store (buf : Str) (off : ℕ) (text : Str) : Except LogFault Str :=
  if off+text.length ≤ buf.length then .ok (buf.take off ++ text ++ buf.drop (off+text.length))
  else .error .outOfBounds

/-- What sprintf and strcpy write has its NUL behind it. -/
def storeString (buf : Str) (off : ℕ) (text : Str) : Except LogFault Str := store buf off (text ++ [NUL])

/-- The string in an array, up to its NUL. -/
def cString (buf : Str) : Str := buf.takeWhile (· ≠ NUL)

/-- `++` on an int. -/
def increment (n : ℤ) : Except LogFault ℤ := if n < 2^31-1 then .ok (n+1) else .error .overflow

/-- `--` on an int. -/
def decrement (n : ℤ) : Except LogFault ℤ := if -2^31 < n then .ok (n-1) else .error .overflow

section Stores
variable {buf w r text s : Str} {off : ℕ} {n : ℤ}

/-- What is written stands behind what has been written, if there is room for it. -/
theorem store_ok (hbuf : buf = w ++ r) (hoff : off = w.length) (hroom : text.length ≤ r.length) :
    store buf off text = .ok (w ++ text ++ r.drop text.length) := by
  subst hbuf hoff
  rw [store, if_pos (by rw [List.length_append]; omega), List.take_left, List.drop_append,
    List.drop_eq_nil_of_le (Nat.le_add_right _ _), Nat.add_sub_cancel_left, List.nil_append]

theorem store_error (hroom : buf.length < off+text.length) :
    store buf off text = .error .outOfBounds :=
  if_neg (not_le.mpr hroom)

/-- The next text goes to where the NUL of the one before stands. -/
theorem storeString_ok (hbuf : buf = w ++ r) (hoff : off = w.length)
    (hroom : text.length < r.length) :
    storeString buf off text = .ok (w ++ text ++ NUL :: r.drop (text.length+1)) := by
  rw [storeString, store_ok hbuf hoff (by simpa using hroom)]
  simp

theorem cString_eq (hs : NUL ∉ s) (r : Str) : cString (s ++ NUL :: r) = s :=
  ListCuts.takeWhile_ne_append hs

theorem nul_notMem_cString (s : Str) : NUL ∉ cString s := by
  intro hmem
  have hne : NUL ≠ NUL := by simpa using List.mem_takeWhile_imp hmem
  exact hne rfl

theorem cString_self (hs : NUL ∉ s) : cString s = s := ListCuts.takeWhile_ne_self hs

theorem increment_ok (h : n < 2^31-1) : increment n = .ok (n+1) := if_pos h

theorem decrement_ok (h : -2^31 < n) : decrement n = .ok (n-1) := if_pos h

end Stores

end LogBuffer

end JhCommon
