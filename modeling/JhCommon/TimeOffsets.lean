import JhCommon.Exec
import JhCommon.TimeUtils

/-! Offsets and differences of `TimeUtils.h`, for both clock structures, whose fields are longs of 64
bits: where no long overflows each undoes the other. -/
namespace JhCommon
namespace TimeUtils

def IsInt (m : ℤ) : Prop := -2^31 ≤ m ∧ m < 2^31

def IsLong (x : ℤ) : Prop := -2^63 ≤ x ∧ x < 2^63

instance (x : ℤ) : Decidable (IsLong x) := inferInstanceAs (Decidable (_ ∧ _))

/-- The value of an expression in longs. -/
def long (x : ℤ) : Exec ℤ := if IsLong x then .ok x else .error .overflow

/-- `addOffset` on seconds and a fraction that has so many units in a millisecond. -/
def addParts (unit sec fraction msecs : ℤ) : Exec (ℤ × ℤ) := do
  let sec ← long (sec+msecs.tdiv 1000)
  let fraction ← long (fraction+msecs.tmod 1000*unit)
  if fraction ≥ 1000*unit then do
    let sec ← long (sec+1)
    .ok (sec,fraction-1000*unit)
  else if fraction < 0 then do
    let sec ← long (sec-1)
    .ok (sec,fraction+1000*unit)
  else .ok (sec,fraction)

/-- `getDifference` on them. -/
def differenceOfParts (unit sec1 fraction1 sec2 fraction2 : ℤ) : Exec ℤ := do
  let sec ← long (sec1-sec2)
  let ms ← long (sec*1000)
  let fraction ← long (fraction1-fraction2)
  .ok (toInt (toInt ms+fraction.tdiv unit))

end TimeUtils

open TimeUtils

namespace Timespec

def addOffset (t : Timespec) (msecs : ℤ) : Exec Timespec := do
  let (sec,nsec) ← addParts 1000000 t.tv_sec t.tv_nsec msecs
  .ok ⟨sec,nsec⟩

def getDifference (t1 t2 : Timespec) : Exec ℤ :=
  differenceOfParts 1000000 t1.tv_sec t1.tv_nsec t2.tv_sec t2.tv_nsec

/-- The nanoseconds since the epoch. -/
def nanoseconds (t : Timespec) : ℤ := t.tv_sec*1000000000+t.tv_nsec

end Timespec

structure Timeval where
  tv_sec : ℤ
  tv_usec : ℤ
  deriving DecidableEq

namespace Timeval

def addOffset (t : Timeval) (msecs : ℤ) : Exec Timeval := do
  let (sec,usec) ← addParts 1000 t.tv_sec t.tv_usec msecs
  .ok ⟨sec,usec⟩

def getDifference (t1 t2 : Timeval) : Exec ℤ :=
  differenceOfParts 1000 t1.tv_sec t1.tv_usec t2.tv_sec t2.tv_usec

/-- What a clock says. -/
def Normal (t : Timeval) : Prop := 0 ≤ t.tv_usec ∧ t.tv_usec < 1000000

/-- The microseconds since the epoch. -/
def microseconds (t : Timeval) : ℤ := t.tv_sec*1000000+t.tv_usec

end Timeval

namespace TimeUtils

/-- The laws of the two functions on readings of one kind, with so many units in a millisecond. An
offset overflows where the second of the later instant is no time_t, and only there. -/
structure OffsetLaws {α : Type} (Reading : α → Prop) (instant : α → ℤ) (unit : ℤ)
    (addOffset : α → ℤ → Exec α) (getDifference : α → α → Exec ℤ) : Prop where
  later : ∀ t m, Reading t → IsInt m → IsLong ((instant t+m*unit)/(1000*unit)) →
    ∃ t', addOffset t m = .ok t' ∧ Reading t' ∧ instant t' = instant t+m*unit ∧
      getDifference t' t = .ok m
  overflow : ∀ t m, Reading t → IsInt m → ¬IsLong ((instant t+m*unit)/(1000*unit)) →
    addOffset t m = .error .overflow
  offset : ∀ t1 t2 d, Reading t1 → Reading t2 → IsInt d → instant t1-instant t2 = d*unit →
    getDifference t1 t2 = .ok d ∧ addOffset t2 d = .ok t1
  near : ∀ t1 t2, Reading t1 → Reading t2 → -2^32*unit ≤ instant t1-instant t2 →
    instant t1-instant t2 ≤ 2^32*unit → ∃ d, getDifference t1 t2 = .ok d
  antisymm : ∀ t1 t2 d, Reading t1 → Reading t2 → getDifference t1 t2 = .ok d → d ≠ -2^31 →
    getDifference t2 t1 = .ok (-d)

/-- Where the second of two sums is the one that goes further, it decides. -/
theorem long_bind_long {β : Type} {x k : ℤ} (f : ℤ → Exec β) (h : IsLong (x+k) → IsLong x) :
    (long x >>= fun y => long (y+k) >>= f) =
      if IsLong (x+k) then f (x+k) else .error .overflow := by
  unfold long
  by_cases hsum : IsLong (x+k)
  · rw [if_pos (h hsum), ok_bind, if_pos hsum, if_pos hsum, ok_bind]
  · by_cases hx : IsLong x
    · rw [if_pos hx, ok_bind, if_neg hsum, if_neg hsum, error_bind]
    · rw [if_neg hx, if_neg hsum, error_bind]

theorem toInt_neg {x : ℤ} (h : toInt x ≠ -2^31) : toInt (-x) = -toInt x := by
  unfold toInt at h ⊢
  rw [Int.bmod_def] at h ⊢
  rw [Int.bmod_def]
  omega

section Parts
variable {unit sec fraction sec' fraction' m : ℤ}

/-- The quotient and the remainder of an offset have its sign, so that the seconds go one way only. -/
theorem addParts_eq (hunit : unit = 1000 ∨ unit = 1000000) (hsec : IsLong sec) (hlo : 0 ≤ fraction)
    (hhi : fraction < 1000*unit) (m : ℤ) : addParts unit sec fraction m =
      if IsLong ((sec*(1000*unit)+fraction+m*unit)/(1000*unit)) then
        .ok ((sec*(1000*unit)+fraction+m*unit)/(1000*unit),
          (sec*(1000*unit)+fraction+m*unit)%(1000*unit))
      else .error .overflow := by
  have hdiv : m.tmod 1000+m.tdiv 1000*1000 = m := Int.tmod_add_tdiv_mul m 1000
  have hmodlo : -1000 < m.tmod 1000 := Int.lt_tmod_of_pos m (by omega)
  have hmodhi : m.tmod 1000 < 1000 := Int.tmod_lt_of_pos m (by omega)
  have hpos : 0 ≤ m → 0 ≤ m.tmod 1000 := fun h => Int.tmod_nonneg _ h
  have hneg : m ≤ 0 → m.tmod 1000 ≤ 0 := fun h => by
    have hback := Int.tmod_nonneg 1000 (show 0 ≤ -m by omega)
    rw [Int.neg_tmod] at hback
    omega
  unfold IsLong at hsec
  rw [addParts]
  generalize m.tdiv 1000 = q at *
  generalize m.tmod 1000 = r at *
  have hfraction : long (fraction+r*unit) = .ok (fraction+r*unit) := by
    refine if_pos ?_
    unfold IsLong
    rcases hunit with rfl | rfl <;> omega
  simp only [hfraction, ok_bind]
  -- k seconds are carried
  have hcarry (k : ℤ) (hk : 0 ≤ fraction+r*unit-k*(1000*unit))
      (hk' : fraction+r*unit-k*(1000*unit) < 1000*unit) :
      (sec*(1000*unit)+fraction+m*unit)/(1000*unit) = sec+q+k ∧
        (sec*(1000*unit)+fraction+m*unit)%(1000*unit) = fraction+r*unit-k*(1000*unit) := by
    rcases hunit with rfl | rfl <;> omega
  by_cases hup : fraction+r*unit ≥ 1000*unit
  · obtain ⟨hq,hr⟩ := hcarry 1 (by omega) (by rcases hunit with rfl | rfl <;> omega)
    have hforward : 0 < r := by rcases hunit with rfl | rfl <;> omega
    simp only [hq, hr, if_pos hup, one_mul]
    exact long_bind_long _ fun h => ⟨by omega,h.2.trans' (by omega)⟩
  · by_cases hdown : fraction+r*unit < 0
    · obtain ⟨hq,hr⟩ := hcarry (-1) (by rcases hunit with rfl | rfl <;> omega) (by omega)
      have hback : r < 0 := by rcases hunit with rfl | rfl <;> omega
      simp only [hq, hr, if_neg hup, if_pos hdown, Int.sub_eq_add_neg, neg_mul, one_mul, Int.neg_neg]
      exact long_bind_long _ fun h => ⟨h.1.trans (by omega),by omega⟩
    · obtain ⟨hq,hr⟩ := hcarry 0 (by omega) (by omega)
      simp only [hq, hr, if_neg hup, if_neg hdown, zero_mul, add_zero, sub_zero, long]
      split_ifs <;> rfl

theorem differenceOfParts_eq (hunit : unit = 1000 ∨ unit = 1000000) (hlo : 0 ≤ fraction)
    (hhi : fraction < 1000*unit) (hlo' : 0 ≤ fraction') (hhi' : fraction' < 1000*unit) :
    differenceOfParts unit sec fraction sec' fraction' =
      if IsLong ((sec-sec')*1000) then .ok (toInt ((sec-sec')*1000+(fraction-fraction').tdiv unit))
      else .error .overflow := by
  have hfraction : long (fraction-fraction') = .ok (fraction-fraction') := by
    refine if_pos ?_
    unfold IsLong
    rcases hunit with rfl | rfl <;> omega
  have hsum (ms : ℤ) : toInt (toInt ms+(fraction-fraction').tdiv unit) =
      toInt (ms+(fraction-fraction').tdiv unit) := Int.bmod_add_bmod
  simp only [differenceOfParts, hfraction, ok_bind, hsum]
  unfold long
  by_cases hms : IsLong ((sec-sec')*1000)
  · have hsec : IsLong (sec-sec') := by
      unfold IsLong at hms ⊢
      omega
    rw [if_pos hsec, ok_bind, if_pos hms, if_pos hms, ok_bind]
  · by_cases hsec : IsLong (sec-sec')
    · rw [if_pos hsec, ok_bind, if_neg hms, if_neg hms, error_bind]
    · rw [if_neg hsec, if_neg hms, error_bind]

/-- The truncations of seconds and fractions lose nothing of a whole number of milliseconds. -/
theorem differenceOfParts_of_whole (hunit : unit = 1000 ∨ unit = 1000000) (hlo : 0 ≤ fraction)
    (hhi : fraction < 1000*unit) (hlo' : 0 ≤ fraction') (hhi' : fraction' < 1000*unit) (hm : IsInt m)
    (h : sec*(1000*unit)+fraction-(sec'*(1000*unit)+fraction') = m*unit) :
    differenceOfParts unit sec fraction sec' fraction' = .ok m := by
  have hfraction : fraction-fraction' = (m-(sec-sec')*1000)*unit := by linarith
  have hne : unit ≠ 0 := by rcases hunit with rfl | rfl <;> decide
  have hms : IsLong ((sec-sec')*1000) := by
    unfold IsInt at hm
    unfold IsLong
    rcases hunit with rfl | rfl <;> omega
  rw [differenceOfParts_eq hunit hlo hhi hlo' hhi', if_pos hms, hfraction, Int.mul_tdiv_cancel _ hne]
  have hsum : (sec-sec')*1000+(m-(sec-sec')*1000) = m := by ring
  rw [hsum, toInt_of_lt hm.1 hm.2]

/-- The other way round, all summands change their signs. -/
theorem differenceOfParts_swap (hunit : unit = 1000 ∨ unit = 1000000) (hlo : 0 ≤ fraction)
    (hhi : fraction < 1000*unit) (hlo' : 0 ≤ fraction') (hhi' : fraction' < 1000*unit)
    (h : differenceOfParts unit sec fraction sec' fraction' = .ok m) (hm : m ≠ -2^31) :
    differenceOfParts unit sec' fraction' sec fraction = .ok (-m) := by
  rw [differenceOfParts_eq hunit hlo hhi hlo' hhi'] at h
  by_cases hms : IsLong ((sec-sec')*1000)
  · rw [if_pos hms] at h
    obtain rfl := Except.ok.inj h
    have hms' : IsLong ((sec'-sec)*1000) := by
      unfold IsLong at hms ⊢
      omega
    have hsum : (sec'-sec)*1000+(fraction'-fraction).tdiv unit =
        -((sec-sec')*1000+(fraction-fraction').tdiv unit) := by
      rw [← Int.neg_sub fraction fraction', Int.neg_tdiv]
      ring
    rw [differenceOfParts_eq hunit hlo' hhi' hlo hhi, if_pos hms', hsum, toInt_neg hm]
  · rw [if_neg hms] at h
    cases h

end Parts

section Laws
variable {α : Type} {Reading : α → Prop} {instant : α → ℤ} {unit : ℤ} {addOffset : α → ℤ → Exec α}
  {getDifference : α → α → Exec ℤ}

/-- The laws hold of any structure of seconds and a fraction. -/
theorem offsetLaws_of_parts (parts : α ≃ ℤ × ℤ) (hunit : unit = 1000 ∨ unit = 1000000)
    (hreading : ∀ t, Reading t ↔
      IsLong (parts t).1 ∧ 0 ≤ (parts t).2 ∧ (parts t).2 < 1000*unit)
    (hinstant : ∀ t, instant t = (parts t).1*(1000*unit)+(parts t).2)
    (hoffset : ∀ t m, addOffset t m = do
      let r ← addParts unit (parts t).1 (parts t).2 m
      .ok (parts.symm r))
    (hdifference : ∀ t1 t2, getDifference t1 t2 =
      differenceOfParts unit (parts t1).1 (parts t1).2 (parts t2).1 (parts t2).2) :
    OffsetLaws Reading instant unit addOffset getDifference where
  later t m ht hm hfits := by
    obtain ⟨hsec,hlo,hhi⟩ := (hreading t).mp ht
    rw [hinstant] at hfits ⊢
    have hpos : 0 < 1000*unit := by rcases hunit with rfl | rfl <;> decide
    have hmod := Int.emod_nonneg ((parts t).1*(1000*unit)+(parts t).2+m*unit) hpos.ne'
    have hmod' := Int.emod_lt_of_pos ((parts t).1*(1000*unit)+(parts t).2+m*unit) hpos
    have hdiv := Int.ediv_mul_add_emod ((parts t).1*(1000*unit)+(parts t).2+m*unit) (1000*unit)
    rw [hoffset, addParts_eq hunit hsec hlo hhi, if_pos hfits, ok_bind]
    refine ⟨_,rfl,?_,?_,?_⟩
    · rw [hreading, Equiv.apply_symm_apply]
      exact ⟨hfits,hmod,hmod'⟩
    · rw [hinstant, Equiv.apply_symm_apply]
      exact hdiv
    · rw [hdifference, Equiv.apply_symm_apply]
      apply differenceOfParts_of_whole hunit hmod hmod' hlo hhi hm
      rw [hdiv]
      ring
  overflow t m ht _ hfits := by
    obtain ⟨hsec,hlo,hhi⟩ := (hreading t).mp ht
    rw [hinstant] at hfits
    rw [hoffset, addParts_eq hunit hsec hlo hhi, if_neg hfits, error_bind]
  offset t1 t2 d ht1 ht2 hd h := by
    obtain ⟨hsec,hlo,hhi⟩ := (hreading t1).mp ht1
    obtain ⟨hsec',hlo',hhi'⟩ := (hreading t2).mp ht2
    rw [hinstant, hinstant] at h
    have hpos : 0 < 1000*unit := by rcases hunit with rfl | rfl <;> decide
    have htotal : (parts t2).1*(1000*unit)+(parts t2).2+d*unit =
        (parts t1).2+(parts t1).1*(1000*unit) := by linarith
    have hdiv : ((parts t1).2+(parts t1).1*(1000*unit))/(1000*unit) = (parts t1).1 := by
      rw [Int.add_mul_ediv_right _ _ hpos.ne', Int.ediv_eq_zero_of_lt hlo hhi, zero_add]
    have hmod : ((parts t1).2+(parts t1).1*(1000*unit))%(1000*unit) = (parts t1).2 := by
      rw [Int.add_mul_emod_self_right, Int.emod_eq_of_lt hlo hhi]
    constructor
    · rw [hdifference]
      exact differenceOfParts_of_whole hunit hlo hhi hlo' hhi' hd h
    · rw [hoffset, addParts_eq hunit hsec' hlo' hhi', htotal, hdiv, hmod, if_pos hsec, ok_bind]
      exact congrArg Except.ok (parts.symm_apply_apply t1)
  near t1 t2 ht1 ht2 hlow hhigh := by
    obtain ⟨-,hlo,hhi⟩ := (hreading t1).mp ht1
    obtain ⟨-,hlo',hhi'⟩ := (hreading t2).mp ht2
    rw [hinstant, hinstant] at hlow hhigh
    have hms : IsLong (((parts t1).1-(parts t2).1)*1000) := by
      unfold IsLong
      rcases hunit with rfl | rfl <;> omega
    rw [hdifference, differenceOfParts_eq hunit hlo hhi hlo' hhi', if_pos hms]
    exact ⟨_,rfl⟩
  antisymm t1 t2 d ht1 ht2 h hd := by
    obtain ⟨-,hlo,hhi⟩ := (hreading t1).mp ht1
    obtain ⟨-,hlo',hhi'⟩ := (hreading t2).mp ht2
    rw [hdifference] at h ⊢
    exact differenceOfParts_swap hunit hlo hhi hlo' hhi' h hd

end Laws

def timespecParts : Timespec ≃ ℤ × ℤ :=
  ⟨fun t => (t.tv_sec,t.tv_nsec),fun p => ⟨p.1,p.2⟩,fun _ => rfl,fun _ => rfl⟩

def timevalParts : Timeval ≃ ℤ × ℤ :=
  ⟨fun t => (t.tv_sec,t.tv_usec),fun p => ⟨p.1,p.2⟩,fun _ => rfl,fun _ => rfl⟩

/-- On both structures offset and difference are inverse, as far as a time_t holds the seconds. -/
theorem offset_difference :
    OffsetLaws (fun t => IsLong t.tv_sec ∧ t.Normal) Timespec.nanoseconds 1000000
        Timespec.addOffset Timespec.getDifference ∧
      OffsetLaws (fun t => IsLong t.tv_sec ∧ t.Normal) Timeval.microseconds 1000
        Timeval.addOffset Timeval.getDifference :=
  ⟨offsetLaws_of_parts timespecParts (.inr rfl) (fun _ => .rfl) (fun _ => rfl) (fun _ _ => rfl)
      (fun _ _ => rfl),
    offsetLaws_of_parts timevalParts (.inl rfl) (fun _ => .rfl) (fun _ => rfl) (fun _ _ => rfl)
      (fun _ _ => rfl)⟩

/-- A carry backwards: a millisecond and a half after 5 s, three milliseconds earlier. -/
example : (Timespec.mk 5 1500000).addOffset (-3) = .ok ⟨4,998500000⟩ ∧
    (Timespec.mk 4 998500000).getDifference ⟨5,1500000⟩ = .ok (-3) := by decide

/-- A second later than the last one of a time_t. -/
theorem offset_overflows : ¬∀ (t : Timespec) (m : ℤ), IsLong t.tv_sec ∧ t.Normal → IsInt m →
    ∃ t', t.addOffset m = .ok t' ∧ (IsLong t'.tv_sec ∧ t'.Normal) ∧
      t'.nanoseconds = t.nanoseconds+m*1000000 := by
  intro h
  have hlast : IsLong (2^63-1) ∧ (Timespec.mk (2^63-1) 0).Normal := by
    unfold Timespec.Normal
    decide
  obtain ⟨t',hoffset,-⟩ := h ⟨2^63-1,0⟩ 1000 hlast ⟨by decide,by decide⟩
  have hfault : (Timespec.mk (2^63-1) 0).addOffset 1000 = .error .overflow := by decide
  cases hfault.symm.trans hoffset

section Clocks
variable {s t : Timespec} {m : ℤ}

/-- Where no long overflows, the functions are those that count the seconds without bounds. -/
theorem addOffset_of_fits (ht : IsLong t.tv_sec ∧ t.Normal) (hm : IsInt m)
    (hfits : IsLong (addOffset t m).tv_sec) : t.addOffset m = .ok (addOffset t m) := by
  obtain ⟨k,hsec,hnsec⟩ := addOffset_parts t m
  obtain ⟨hlo,hhi⟩ := addOffset_normal ht.2 m
  have htotal : t.nanoseconds+m*1000000 = (addOffset t m).nanoseconds := by
    unfold Timespec.nanoseconds
    omega
  have hquotient : (addOffset t m).nanoseconds/(1000*1000000) = (addOffset t m).tv_sec := by
    unfold Timespec.nanoseconds
    omega
  obtain ⟨t',hoffset,⟨-,hlo',hhi'⟩,hinstant,-⟩ := offset_difference.1.later t m ht hm (by
    rwa [htotal, hquotient])
  rw [hoffset]
  unfold Timespec.nanoseconds at hinstant htotal
  have hsec' : t'.tv_sec = (addOffset t m).tv_sec := by omega
  have hnsec' : t'.tv_nsec = (addOffset t m).tv_nsec := by omega
  exact congrArg Except.ok (congrArg₂ Timespec.mk hsec' hnsec')

theorem getDifference_of_fits (hs : s.Normal) (ht : t.Normal)
    (hfits : IsLong ((s.tv_sec-t.tv_sec)*1000)) : s.getDifference t = .ok (getDifference s t) := by
  rw [Timespec.getDifference, differenceOfParts_eq (.inr rfl) hs.1 hs.2 ht.1 ht.2, if_pos hfits,
    getDifference_eq]
  rfl

end Clocks

end TimeUtils

end JhCommon
