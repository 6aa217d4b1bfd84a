import Mathlib.Data.List.TakeWhile
import Mathlib.Tactic

/-! Text as bytes, the numbers that `%d` writes, and `strtol`. A long has 64 bits. -/
namespace JhCommon

/-- The bytes of an ASCII text. -/
def asciiBytes (cs : List Char) : List UInt8 := cs.map fun c => UInt8.ofNat c.toNat

def text (s : String) : List UInt8 := asciiBytes s.toList

/-- The C string at a pointer to these bytes. -/
def cStr (bs : List UInt8) : List UInt8 := bs.takeWhile (· ≠ 0)

/-- What `%d` writes. -/
def decimal (n : ℤ) : List UInt8 :=
  if n < 0 then 45 :: asciiBytes (Nat.toDigits 10 n.natAbs)
  else asciiBytes (Nat.toDigits 10 n.natAbs)

def isDigit (b : UInt8) : Bool := 48 ≤ b && b ≤ 57

def isSpace (b : UInt8) : Bool := b = 32 || (9 ≤ b && b ≤ 13)

/-- The value of a row of digits behind ones that are worth n. -/
def digitsValue (n : ℕ) (bs : List UInt8) : ℕ :=
  bs.foldl (fun v b => 10*v+(b.toNat-48)) n

/-- The value, whether there was a number, and whether it was out of range. -/
structure StrtolResult where
  value : ℤ
  converted : Bool
  outOfRange : Bool
  deriving DecidableEq

def strtol (nptr : List UInt8) : StrtolResult :=
  let bs := nptr.dropWhile isSpace
  let negative := bs.head? = some 45
  let bs := if bs.head? = some 45 ∨ bs.head? = some 43 then bs.tail else bs
  let digits := bs.takeWhile isDigit
  let value : ℤ := if negative then -digitsValue 0 digits else digitsValue 0 digits
  if digits = [] then ⟨0,false,false⟩
  else if value < -2^63 then ⟨-2^63,true,true⟩
  else if 2^63-1 < value then ⟨2^63-1,true,true⟩
  else ⟨value,true,false⟩

/-- The digit that a byte is, to the bases up to 36. -/
def digitVal (b : UInt8) : ℕ :=
  if isDigit b then b.toNat-48
  else if 97 ≤ b ∧ b ≤ 122 then b.toNat-87
  else if 65 ≤ b ∧ b ≤ 90 then b.toNat-55
  else 36

def valueIn (base n : ℕ) (bs : List UInt8) : ℕ := bs.foldl (fun v b => base*v+digitVal b) n

/-- The base and the text behind a prefix that tells it. -/
def strtolPrefix (base : ℕ) (bs : List UInt8) : ℕ × List UInt8 :=
  if (base = 0 ∨ base = 16) ∧ bs.head? = some 48 ∧
      (bs[1]? = some 120 ∨ bs[1]? = some 88) ∧ digitVal (bs.getD 2 0) < 16 then (16,bs.drop 2)
  else if base = 0 then (if bs.head? = some 48 then 8 else 10,bs)
  else (base,bs)

/-- The value of `strtol` to a base that is 0 or at least 2. -/
def strtolBase (base : ℕ) (nptr : List UInt8) : ℤ :=
  let bs := nptr.dropWhile isSpace
  let negative := bs.head? = some 45
  let bs := if bs.head? = some 45 ∨ bs.head? = some 43 then bs.tail else bs
  let (base,bs) := strtolPrefix base bs
  let digits := bs.takeWhile (fun b => digitVal b < base)
  let value : ℤ := if negative then -valueIn base 0 digits else valueIn base 0 digits
  max (-2^63) (min (2^63-1) value)

/-- The conversion from long to int. -/
def toInt32 (n : ℤ) : ℤ := n.bmod (2^32)

theorem toInt32_eq {n : ℤ} (hlow : -2^31 ≤ n) (hhigh : n < 2^31) : toInt32 n = n := by
  apply Int.bmod_eq_of_le <;> omega

theorem isDigit_asciiByte {c : Char} (hc : c.isDigit = true) :
    isDigit (UInt8.ofNat c.toNat) = true ∧ (UInt8.ofNat c.toNat).toNat = c.toNat := by
  have hrange : 48 ≤ c.toNat ∧ c.toNat ≤ 57 := by
    simpa [Char.isDigit, UInt32.le_iff_toNat_le] using hc
  have hval : (UInt8.ofNat c.toNat).toNat = c.toNat := by
    rw [UInt8.toNat_ofNat']
    omega
  refine ⟨?_,hval⟩
  simp only [isDigit, Bool.and_eq_true, decide_eq_true_eq, UInt8.le_iff_toNat_le, hval]
  exact hrange

theorem digitsValue_asciiBytes {cs : List Char} (hcs : ∀ c ∈ cs, c.isDigit = true) (n : ℕ) :
    digitsValue n (asciiBytes cs) = Nat.ofDigitChars 10 cs n := by
  induction cs generalizing n with
  | nil => rfl
  | cons c cs ih =>
    rw [Nat.ofDigitChars_cons, ← ih (fun d hd => hcs d (List.mem_cons_of_mem c hd))]
    simp only [asciiBytes, List.map_cons, digitsValue, List.foldl_cons,
      (isDigit_asciiByte (hcs c List.mem_cons_self)).2]
    rfl

/-- The digits that are written for a number. -/
theorem digits_toDigits (n : ℕ) : (∀ b ∈ asciiBytes (Nat.toDigits 10 n), isDigit b = true) ∧
    digitsValue 0 (asciiBytes (Nat.toDigits 10 n)) = n ∧ asciiBytes (Nat.toDigits 10 n) ≠ [] := by
  have hdigit : ∀ c ∈ Nat.toDigits 10 n, c.isDigit = true :=
    fun c hc => Nat.isDigit_of_mem_toDigits (by decide) (by decide) hc
  refine ⟨?_,?_,?_⟩
  · intro b hb
    obtain ⟨c,hc,rfl⟩ := List.mem_map.mp hb
    exact (isDigit_asciiByte (hdigit c hc)).1
  · rw [digitsValue_asciiBytes hdigit]
    exact Nat.ofDigitChars_ten_toDigits
  · simp [asciiBytes]

/-- A number is written with a sign and its digits. -/
theorem length_decimal_le_of_lt {n : ℤ} {k : ℕ} (hk : 0 < k) (hn : n.natAbs < 10^k) :
    (decimal n).length ≤ k+1 := by
  have hlen : (asciiBytes (Nat.toDigits 10 n.natAbs)).length ≤ k := by
    rw [asciiBytes, List.length_map, Nat.length_toDigits_le_iff (by decide) hk]
    exact hn
  unfold decimal
  split
  · rw [List.length_cons]
    omega
  · omega

theorem length_decimal_le {n : ℤ} (hlow : -2^31 ≤ n) (hhigh : n < 2^31) :
    (decimal n).length ≤ 11 := length_decimal_le_of_lt (by decide) (by omega)

theorem mem_decimal {n : ℤ} {b : UInt8} (hb : b ∈ decimal n) : b = 45 ∨ isDigit b = true := by
  have hdigits := (digits_toDigits n.natAbs).1
  unfold decimal at hb
  split at hb
  · exact (List.mem_cons.mp hb).imp id (hdigits b)
  · exact .inr (hdigits b hb)

theorem decimal_ne_nil (n : ℤ) : decimal n ≠ [] := by
  unfold decimal
  split
  · exact List.cons_ne_nil _ _
  · exact (digits_toDigits n.natAbs).2.2

theorem isSpace_of_isDigit {b : UInt8} (hb : isDigit b = true) : isSpace b = false ∧ b ≠ 45 ∧ b ≠ 43 := by
  simp only [isDigit, Bool.and_eq_true, decide_eq_true_eq, UInt8.le_iff_toNat_le] at hb
  have h48 : (48 : UInt8).toNat = 48 := rfl
  refine ⟨?_,?_,?_⟩
  · simp only [isSpace, Bool.or_eq_false_iff, decide_eq_false_iff_not, Bool.and_eq_false_iff]
    refine ⟨?_,.inr ?_⟩
    · rintro rfl
      exact absurd hb.1 (by decide)
    · intro hle
      have hle' : b.toNat ≤ 13 := hle
      omega
  · rintro rfl
    exact absurd hb.1 (by decide)
  · rintro rfl
    exact absurd hb.1 (by decide)

theorem le_digitsValue (n : ℕ) (bs : List UInt8) : n ≤ digitsValue n bs := by
  induction bs generalizing n with
  | nil => exact le_refl n
  | cons b bs ih =>
    have hle : n ≤ 10*n+(b.toNat-48) := by omega
    exact hle.trans (ih _)

/-- Digits that are read to a smaller base, as far as they go, are worth less. -/
theorem valueIn_takeWhile_le {base : ℕ} (hbase : base ≤ 10) (p : UInt8 → Bool) {bs : List UInt8}
    (hbs : ∀ b ∈ bs, isDigit b = true) {n m : ℕ} (hle : n ≤ m) :
    valueIn base n (bs.takeWhile p) ≤ digitsValue m bs := by
  induction bs generalizing n m with
  | nil => exact hle
  | cons b bs ih =>
    have htail : ∀ d ∈ bs, isDigit d = true := fun d hd => hbs d (List.mem_cons_of_mem b hd)
    rw [List.takeWhile_cons]
    split
    · have hdigit : digitVal b = b.toNat-48 := by rw [digitVal, if_pos (hbs b List.mem_cons_self)]
      apply ih htail
      simp only [hdigit]
      exact Nat.add_le_add_right (Nat.mul_le_mul hbase hle) _
    · exact hle.trans (le_digitsValue m (b :: bs))

theorem toInt32_le {n : ℤ} (hn : 0 ≤ n) : toInt32 n ≤ n := by
  unfold toInt32 Int.bmod
  simp only
  split <;> omega

/-- Where digits are read to base 0, a zero in front makes them octal, and worth less. -/
theorem strtolBase_zero_le {bs : List UInt8} (hbs : ∀ b ∈ bs, isDigit b = true) :
    0 ≤ strtolBase 0 bs ∧ strtolBase 0 bs ≤ digitsValue 0 bs := by
  cases bs with
  | nil => decide
  | cons d ds =>
    obtain ⟨hspace,hminus,hplus⟩ := isSpace_of_isDigit (hbs d List.mem_cons_self)
    have hdrop : (d :: ds).dropWhile isSpace = d :: ds := by
      rw [List.dropWhile_cons_of_neg (by simp [hspace])]
    have hsign : ¬(some d = some (45 : UInt8) ∨ some d = some 43) := by simp [hminus, hplus]
    have hneg : ¬(some d = some (45 : UInt8)) := by simpa using hminus
    obtain ⟨base,hbase,hstart⟩ : ∃ base ≤ 10, strtolPrefix 0 (d :: ds) = (base,d :: ds) := by
      have hx : ¬((d :: ds)[1]? = some 120 ∨ (d :: ds)[1]? = some 88) := by
        rintro (hmem | hmem) <;>
          exact absurd (hbs _ (List.mem_of_getElem? hmem)) (by decide)
      rw [strtolPrefix, if_neg (fun h => hx h.2.2.1), if_pos rfl]
      split
      · exact ⟨8,by decide,rfl⟩
      · exact ⟨10,le_refl 10,rfl⟩
    have hvalue := valueIn_takeWhile_le hbase (fun b => digitVal b < base) hbs (le_refl 0)
    rw [strtolBase]
    simp only [hdrop, List.head?_cons, if_neg hsign, hstart]
    rw [if_neg hneg]
    omega

/-- A number that fits into a long is read back from what was written. -/
theorem strtol_decimal {n : ℤ} (hlow : -2^31 ≤ n) (hhigh : n < 2^31) :
    strtol (decimal n) = ⟨n,true,false⟩ := by
  obtain ⟨hdigits,hvalue,hne⟩ := digits_toDigits n.natAbs
  unfold decimal
  generalize asciiBytes (Nat.toDigits 10 n.natAbs) = ds at *
  have htake : ds.takeWhile isDigit = ds := List.takeWhile_eq_self_iff.mpr hdigits
  split
  · rename_i hneg
    have hspace : isSpace 45 = false := by decide
    simp only [strtol, List.dropWhile_cons, hspace, Bool.false_eq_true, if_false, List.head?_cons,
      List.tail_cons, true_or, if_true, htake, if_neg hne, hvalue]
    rw [if_neg (by omega), if_neg (by omega)]
    congr 1
    omega
  · rename_i hpos
    cases ds with
    | nil => exact absurd rfl hne
    | cons d ds =>
      obtain ⟨hspace,h45,h43⟩ := isSpace_of_isDigit (hdigits d List.mem_cons_self)
      simp only [strtol, List.dropWhile_cons, hspace, Bool.false_eq_true, if_false,
        List.head?_cons, Option.some.injEq, h45, h43, or_self, htake, if_neg hne, hvalue]
      rw [if_neg (by omega), if_neg (by omega)]
      congr 1
      omega

end JhCommon
