import Mathlib.Tactic

/-! The clock readings of `TimeUtils.h`. -/
namespace JhCommon

/-- The fields are longs. Here they are counted without bounds, as a clock's seconds are far from
those of a long; `TimeOffsets` has the functions with their overflows. -/
structure Timespec where
  tv_sec : ℤ
  tv_nsec : ℤ
  deriving DecidableEq

namespace Timespec

/-- What a clock says. -/
def Normal (t : Timespec) : Prop := 0 ≤ t.tv_nsec ∧ t.tv_nsec < 1000000000

/-- The reading t is not before s. -/
def NotAfter (s t : Timespec) : Prop :=
  s.tv_sec < t.tv_sec ∨ s.tv_sec = t.tv_sec ∧ s.tv_nsec ≤ t.tv_nsec

theorem NotAfter.refl (t : Timespec) : t.NotAfter t := .inr ⟨rfl,le_rfl⟩

theorem NotAfter.trans {s t u : Timespec} (h : s.NotAfter t) (h' : t.NotAfter u) : s.NotAfter u := by
  unfold NotAfter at *
  omega

end Timespec

namespace TimeUtils

/-- What is stored in an int. -/
def toInt (x : ℤ) : ℤ := x.bmod (2^32)

def getDifference (t1 t2 : Timespec) : ℤ :=
  let ms := toInt ((t1.tv_sec-t2.tv_sec)*1000)
  toInt (ms+(t1.tv_nsec-t2.tv_nsec).tdiv 1000000)

def addOffset (t : Timespec) (msecs : ℤ) : Timespec :=
  let sec := t.tv_sec+msecs.tdiv 1000
  let nsec := t.tv_nsec+msecs.tmod 1000*1000000
  if nsec ≥ 1000000000 then ⟨sec+1,nsec-1000000000⟩
  else if nsec < 0 then ⟨sec-1,nsec+1000000000⟩
  else ⟨sec,nsec⟩

/-- The difference before it is stored in an int. Seconds and nanoseconds are truncated each by
itself. -/
def elapsed (t1 t2 : Timespec) : ℤ :=
  (t1.tv_sec-t2.tv_sec)*1000+(t1.tv_nsec-t2.tv_nsec).tdiv 1000000

section Differences
variable {s t u : Timespec} {T : ℤ}

theorem getDifference_eq (s t : Timespec) : getDifference s t = toInt (elapsed s t) :=
  Int.bmod_add_bmod

theorem toInt_of_lt {x : ℤ} (hlo : -2^31 ≤ x) (hhi : x < 2^31) : toInt x = x := by
  unfold toInt
  rw [Int.bmod_def]
  omega

/-- An int differs from what is stored in it by a multiple of its range. -/
theorem toInt_add (x : ℤ) : ∃ k : ℤ, x = toInt x+k*2^32 := by
  refine ⟨(x-toInt x)/2^32,?_⟩
  unfold toInt
  rw [Int.bmod_def]
  omega

theorem toInt_range (x : ℤ) : -2^31 ≤ toInt x ∧ toInt x < 2^31 := by
  unfold toInt
  rw [Int.bmod_def]
  omega

theorem toInt_sub_mul {x k : ℤ} (hlo : k*2^32 ≤ x) (hhi : x ≤ k*2^32+10000) : toInt x = x-k*2^32 := by
  unfold toInt
  rw [Int.bmod_def]
  omega

/-- Division of an int rounds towards zero. -/
theorem tdiv_million (x : ℤ) :
    0 ≤ x ∧ 1000000*x.tdiv 1000000 ≤ x ∧ x < 1000000*x.tdiv 1000000+1000000 ∨
      x < 0 ∧ x ≤ 1000000*x.tdiv 1000000 ∧ 1000000*x.tdiv 1000000 < x+1000000 := by
  rcases lt_or_ge x 0 with hneg | hpos
  · right
    have htdiv : x.tdiv 1000000 = -((-x)/1000000) := by
      rw [← Int.tdiv_eq_ediv_of_nonneg (by omega), Int.neg_tdiv, Int.neg_neg]
    rw [htdiv]
    omega
  · left
    rw [Int.tdiv_eq_ediv_of_nonneg hpos]
    omega

theorem addOffset_normal (hs : s.Normal) (T : ℤ) : (addOffset s T).Normal := by
  obtain ⟨hlo,hhi⟩ := hs
  have hmodlo : -1000 < T.tmod 1000 := Int.lt_tmod_of_pos T (by omega)
  have hmodhi : T.tmod 1000 < 1000 := Int.tmod_lt_of_pos T (by omega)
  unfold addOffset Timespec.Normal
  simp only
  split
  · dsimp only
    omega
  · split
    · dsimp only
      omega
    · dsimp only
      omega

/-- What an offset does to the two parts of a reading. One carry is enough, in both directions. -/
theorem addOffset_parts (s : Timespec) (T : ℤ) :
    ∃ k, (addOffset s T).tv_sec*1000 = s.tv_sec*1000+T-k ∧
      (addOffset s T).tv_nsec = s.tv_nsec+k*1000000 := by
  have hdiv : T.tmod 1000+T.tdiv 1000*1000 = T := Int.tmod_add_tdiv_mul T 1000
  unfold addOffset
  simp only
  split
  · refine ⟨T.tmod 1000-1000,?_,?_⟩
    · dsimp only
      omega
    · dsimp only
      omega
  · split
    · refine ⟨T.tmod 1000+1000,?_,?_⟩
      · dsimp only
        omega
      · dsimp only
        omega
    · refine ⟨T.tmod 1000,?_,?_⟩
      · dsimp only
        omega
      · dsimp only

/-- An offset takes its milliseconds off, up to one that the truncations make. -/
theorem elapsed_addOffset (s : Timespec) (T : ℤ) (t : Timespec) :
    elapsed t s-T-1 ≤ elapsed t (addOffset s T) ∧ elapsed t (addOffset s T) ≤ elapsed t s-T+1 := by
  obtain ⟨k,hsec,hnsec⟩ := addOffset_parts s T
  have hold := tdiv_million (t.tv_nsec-s.tv_nsec)
  have hnew := tdiv_million (t.tv_nsec-(addOffset s T).tv_nsec)
  unfold elapsed
  rw [hnsec] at hnew ⊢
  omega

/-- A later reading is not nearer. -/
theorem elapsed_mono (hs : s.Normal) (ht : t.Normal) (hu : u.Normal) (h : t.NotAfter u) :
    elapsed t s ≤ elapsed u s := by
  obtain ⟨hslo,hshi⟩ := hs
  obtain ⟨htlo,hthi⟩ := ht
  obtain ⟨hulo,huhi⟩ := hu
  have hold := tdiv_million (t.tv_nsec-s.tv_nsec)
  have hnew := tdiv_million (u.tv_nsec-s.tv_nsec)
  unfold elapsed
  rcases h with hlt | ⟨heq,hle⟩
  · omega
  · rw [heq]
    omega

theorem elapsed_self (s : Timespec) : elapsed s s = 0 := by simp [elapsed]

theorem elapsed_nonneg (hs : s.Normal) (ht : t.Normal) (h : s.NotAfter t) : 0 ≤ elapsed t s := by
  calc 0 = elapsed s s := (elapsed_self s).symm
    _ ≤ elapsed t s := elapsed_mono hs hs ht h

end Differences

end TimeUtils

end JhCommon
