import Mathlib.Tactic

/-! Unsigned 32-bit arithmetic on natural numbers, and the signed reading of a word. -/
namespace JhCommon.Word32

def add32 (a b : ℕ) : ℕ := (a+b) % 2^32

def sub32 (a b : ℕ) : ℕ := (a+2^32-b % 2^32) % 2^32

def int32 (a : ℕ) : ℤ := if a % 2^32 < 2^31 then (a % 2^32 : ℕ) else (a % 2^32 : ℕ)-2^32

@[simp] theorem add32_of_lt {a b : ℕ} (h : a+b < 2^32) : add32 a b = a+b := Nat.mod_eq_of_lt h

@[simp] theorem sub32_of_le {a b : ℕ} (ha : a < 2^32) (h : b ≤ a) : sub32 a b = a-b := by
  unfold sub32
  omega

/-- A difference below 0 wraps. -/
theorem sub32_of_gt {a b : ℕ} (h : a < b) (hb : b < 2^32) : sub32 a b = 2^32+a-b := by
  unfold sub32
  omega

@[simp] theorem int32_of_lt {a : ℕ} (h : a < 2^31) : int32 a = a := by
  unfold int32
  rw [Nat.mod_eq_of_lt (by omega), if_pos h]

theorem int32_eq_iff {a : ℕ} (h : a < 2^32) : int32 a = a ↔ a < 2^31 := by
  unfold int32
  omega

theorem int32_neg {a : ℕ} (hlt : a < 2^32) (h : 2^31 ≤ a) : int32 a < 0 := by
  unfold int32
  rw [Nat.mod_eq_of_lt hlt, if_neg (by omega)]
  omega

theorem int32_mod (a : ℕ) : int32 (a % 2^32) = int32 a := by
  unfold int32
  rw [Nat.mod_mod]

theorem add32_eq (a b : ℕ) : add32 a b = (a+b) % 2^32 := rfl

theorem sub32_lt (a b : ℕ) : sub32 a b < 2^32 := Nat.mod_lt _ (by norm_num)

theorem add32_mod (x k : ℕ) : add32 (x % 2^32) k = (x+k) % 2^32 := by
  unfold add32
  omega

theorem sub32_add32_one {a b : ℕ} (hpos : 1 ≤ a+b) (hlt : a+b-1 < 2^32) :
    sub32 (add32 a b) 1 = a+b-1 := by
  unfold sub32 add32
  omega

/-- The signed difference of two counters that are less than half the range apart is the true
one, however often they have wrapped. -/
theorem int32_sub32_mod {x y : ℕ} (hlo : -2^31 < (x : ℤ)-y) (hhi : (x : ℤ)-y < 2^31) :
    int32 (sub32 (x % 2^32) (y % 2^32)) = (x : ℤ)-y := by
  unfold int32 sub32
  split <;> omega

theorem sub32_add32_congr {a b c : ℕ} (h : sub32 a c = sub32 b c) (k : ℕ) :
    sub32 (add32 a k) c = sub32 (b+k) c := by
  unfold sub32 add32 at *
  omega

/-- A counter that is behind is ahead once it has passed the other one by less than half the
range. -/
theorem int32_sub32_add {a b d k : ℕ} (h : int32 (sub32 a b) = -d) (hlo : d < k) (hhi : k < d+2^31) :
    int32 (sub32 (a+k) b) = (k : ℤ)-d := by
  unfold int32 sub32 at *
  split at h <;> split <;> omega

theorem neg_int32_le {a d : ℕ} (h : int32 a = -d) : d ≤ 2^31 := by
  unfold int32 at h
  split at h <;> omega

/-- A counter that is behind, and goes back further than half the range, is ahead. -/
theorem int32_sub32_back {a b d k n back : ℕ} (h : int32 (sub32 a b) = -d) (hk : k+back = n*2^32)
    (hlo : 2^31 < d+back) (hhi : d+back < 2^32) : int32 (sub32 (a+k) b) = 2^32-((d : ℤ)+back) := by
  unfold int32 sub32 at *
  split at h <;> split <;> omega

-- no proof about a word should unfold to arithmetic modulo 2^32 by itself
attribute [irreducible] add32 sub32 int32

end JhCommon.Word32
