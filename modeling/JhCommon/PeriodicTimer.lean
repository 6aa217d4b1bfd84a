import JhCommon.Timer

/-! The schedule of a periodic timer: which ticks after the call its firings are due at, where the
tick of a node does not wrap. The milliseconds that the re-arm carries are those by which the
periods so far pass a tick. -/
namespace JhCommon
open Word32

namespace Timer

/-- The ticks of an added node, and of a re-armed one. -/
def firstTicks (T period : ℕ) : ℕ := sub32 (add32 period T) 1/T

def newTicks (T period remaining : ℕ) : ℕ := sub32 (sub32 (add32 period T) 1) remaining/T

/-- For the firing number k+1 the tick at which it is due, counted from the call on, and what the
node carries then. -/
def firings (T period : ℕ) : ℕ → ℕ × ℕ
  | 0 => (firstTicks T period,0)
  | k+1 => ((firings T period k).1+newTicks T period (firings T period k).2,
      add32 period (firings T period k).2 % T)

def dueTick (T period k : ℕ) : ℕ := (firings T period (k-1)).1

/-- The node before its firing number k+1, for a call when the counter was at start. -/
def AtFiring (T period start k : ℕ) (timer : TimerNode) : Prop :=
  timer.mTick = (start+(firings T period k).1) % 2^32 ∧ timer.mRepeatMS = period ∧
    timer.mRemainingMS = (firings T period k).2

section Schedule
variable {t t' : Timer} {timer : TimerNode} {T period start k : ℕ}

theorem eq_firstTicks {ticks : ℕ} (h : t.toTicks period = .ok ticks) :
    ticks = firstTicks t.mMsPerTick period := by
  unfold toTicks at h
  split at h
  · cases h
  · exact (Except.ok.inj h).symm

/-- Both calls add a node that is at its first firing. -/
theorem addPeriodicTimer_atFiring {listener privateData : ℕ}
    (h : t.addPeriodicTimer (some listener) period privateData = .ok t') :
    ∃ timer, t' = t.addTimerNode timer ∧ AtFiring t.mMsPerTick period t.mTicks 0 timer := by
  unfold addPeriodicTimer addListener at h
  rw [if_neg (by simp)] at h
  obtain ⟨ticks,hticks,ht'⟩ := bind_eq_ok.mp h
  refine ⟨_,(Except.ok.inj ht').symm,?_,rfl,rfl⟩
  rw [eq_firstTicks hticks]
  exact add32_eq _ _

theorem sendPeriodicEvent_atFiring {event dispatcher : ℕ}
    (h : t.sendPeriodicEvent (some event) (some dispatcher) period = .ok t') :
    ∃ timer, t' = t.addTimerNode timer ∧ AtFiring t.mMsPerTick period t.mTicks 0 timer := by
  obtain ⟨ticks,hticks,ht'⟩ := bind_eq_ok.mp h
  refine ⟨_,(Except.ok.inj ht').symm,?_,rfl,rfl⟩
  rw [eq_firstTicks hticks]
  exact add32_eq _ _

/-- The re-arm takes a node to its next firing. -/
theorem rearm_atFiring (h : AtFiring t.mMsPerTick period start k timer) (hperiod : period ≠ 0)
    (ht : t.rearm timer = .ok t') :
    ∃ timer', t' = t.addTimerNode timer' ∧ AtFiring t.mMsPerTick period start (k+1) timer' := by
  obtain ⟨htick,hrepeat,hremaining⟩ := h
  unfold rearm at ht
  rw [if_neg (by rw [hrepeat]; exact hperiod)] at ht
  split at ht
  · cases ht
  · refine ⟨_,(Except.ok.inj ht).symm,?_,hrepeat,?_⟩
    · rw [htick, hrepeat, hremaining, add32_mod, Nat.add_assoc]
      rfl
    · rw [hrepeat, hremaining]
      rfl

end Schedule

section Arithmetic
variable {T P : ℕ}

theorem firings_remaining_lt (hT : 1 ≤ T) (k : ℕ) : (firings T P k).2 < T := by
  cases k with
  | zero => exact hT
  | succ k => exact Nat.mod_lt _ hT

/-- The carried milliseconds are what the periods pass the last tick by. -/
theorem firings_remaining (hT : 1 ≤ T) (hlt : P+T ≤ 2^32) (k : ℕ) : (firings T P k).2 = k*P % T := by
  induction k with
  | zero => simp [firings]
  | succ k ih =>
    have hrem := firings_remaining_lt (P := P) hT k
    calc (firings T P (k+1)).2 = (P+(firings T P k).2) % T := by
          rw [firings, add32_of_lt (by omega)]
      _ = (P+k*P) % T := by rw [ih, Nat.add_mod_mod]
      _ = (k+1)*P % T := by rw [Nat.add_comm, Nat.succ_mul]

theorem firstTicks_eq (hP : 1 ≤ P) (hlt : P+T ≤ 2^32) : firstTicks T P = (P+T-1)/T := by
  rw [firstTicks, sub32_add32_one (by omega) (by omega)]

theorem newTicks_eq (hP : 1 ≤ P) (hlt : P+T ≤ 2^32) {remaining : ℕ} (hrem : remaining < T) :
    newTicks T P remaining = (P+T-1-remaining)/T := by
  rw [newTicks, sub32_add32_one (by omega) (by omega), sub32_of_le (by omega) (by omega)]

/-- A re-arm adds a tick to the whole ones of the period where the carried milliseconds are fewer
than those that are left of it. -/
theorem newTicks_split (hT : 1 ≤ T) (hP : 1 ≤ P) (hlt : P+T ≤ 2^32) {remaining : ℕ}
    (hrem : remaining < T) :
    newTicks T P remaining = P/T+if remaining < P % T then 1 else 0 := by
  have hmod : P % T < T := Nat.mod_lt P hT
  have hdiv : T*(P/T)+P % T = P := Nat.div_add_mod P T
  rw [newTicks_eq hP hlt hrem]
  split
  · have hsum : P+T-1-remaining = (P % T-1-remaining)+T*(P/T+1) := by
      rw [Nat.mul_add]
      omega
    rw [hsum, Nat.add_mul_div_left _ _ hT, Nat.div_eq_of_lt (by omega), Nat.zero_add]
  · have hsum : P+T-1-remaining = (P % T+T-1-remaining)+T*(P/T) := by omega
    rw [hsum, Nat.add_mul_div_left _ _ hT, Nat.div_eq_of_lt (by omega), Nat.zero_add, Nat.add_zero]

theorem firstTicks_split (hT : 1 ≤ T) (hP : 1 ≤ P) (hlt : P+T ≤ 2^32) :
    firstTicks T P = P/T+if 0 < P % T then 1 else 0 := by
  rw [firstTicks_eq hP hlt, ← newTicks_split hT hP hlt (by omega), newTicks_eq hP hlt (by omega),
    Nat.sub_zero]

/-- Where the ticks divide the period, every firing is at its time. -/
theorem firings_of_dvd (hT : 1 ≤ T) (hP : 1 ≤ P) (hlt : P+T ≤ 2^32) (hmod : P % T = 0) (k : ℕ) :
    (firings T P k).1*T = (k+1)*P := by
  have hticks : P/T*T = P := Nat.div_mul_cancel (Nat.dvd_of_mod_eq_zero hmod)
  induction k with
  | zero =>
    have hfirst : (firings T P 0).1 = P/T := by
      rw [firings, firstTicks_split hT hP hlt, hmod]
      rfl
    rw [hfirst, hticks, Nat.zero_add, Nat.one_mul]
  | succ k ih =>
    have hnew : newTicks T P (firings T P k).2 = P/T := by
      rw [newTicks_split hT hP hlt (firings_remaining_lt hT k), hmod]
      rfl
    calc (firings T P (k+1)).1*T = (firings T P k).1*T+P/T*T := by rw [firings, hnew, Nat.add_mul]
      _ = (k+1)*P+P := by rw [ih, hticks]
      _ = (k+1+1)*P := (Nat.succ_mul (k+1) P).symm

/-- Where they do not, the second and all later firings have an error that what was carried at the
re-arm settles: the first one is rounded up without being carried. -/
theorem firings_of_not_dvd (hT : 1 ≤ T) (hP : 1 ≤ P) (hlt : P+T ≤ 2^32) (hmod : 0 < P % T) (k : ℕ) :
    (firings T P (k+1)).1*T+(firings T P k).2+2*(P % T) = (k+2)*P+2*T := by
  have hdiv : P/T*T+P % T = P := Nat.div_add_mod' P T
  induction k with
  | zero =>
    have hticks : (firings T P 1).1 = P/T+1+(P/T+1) := by
      rw [firings, firings, firstTicks_split hT hP hlt, newTicks_split hT hP hlt hT, if_pos hmod]
    have hcarried : (firings T P 0).2 = 0 := rfl
    rw [hticks, hcarried, Nat.add_mul, Nat.add_mul]
    omega
  | succ k ih =>
    have hrem := firings_remaining_lt (P := P) hT k
    have hcarried : (firings T P (k+1)).2 = (P+(firings T P k).2) % T := by
      rw [firings, add32_of_lt (by omega)]
    have hticks : (firings T P (k+2)).1 = (firings T P (k+1)).1+newTicks T P (firings T P (k+1)).2 := rfl
    have hsum : P+(firings T P k).2 = (P % T+(firings T P k).2)+T*(P/T) := by
      rw [Nat.mul_comm]
      omega
    have hmodT : P % T < T := Nat.mod_lt P hT
    rw [hsum, Nat.add_mul_mod_self_left] at hcarried
    rw [hticks, newTicks_split hT hP hlt (firings_remaining_lt hT (k+1)), Nat.add_mul, Nat.add_mul,
      Nat.add_mul (k+1) 2 P]
    rw [Nat.add_mul k 2 P] at ih
    have hstep : (k+1)*P = k*P+P := Nat.succ_mul k P
    -- the carried milliseconds fall behind the period's exactly where they pass a tick
    by_cases hwrap : P % T+(firings T P k).2 < T
    · rw [Nat.mod_eq_of_lt hwrap] at hcarried
      rw [hcarried, if_neg (by omega)]
      omega
    · rw [Nat.mod_eq_sub_mod (by omega), Nat.mod_eq_of_lt (by omega)] at hcarried
      rw [hcarried, if_pos (by omega)]
      omega

/-- The error of a firing stays below two ticks either way, however many there were before. -/
theorem dueTick_error (hT : 1 ≤ T) (hP : 1 ≤ P) (hlt : P+T ≤ 2^32) {k : ℕ} (hk : 1 ≤ k) :
    |(dueTick T P k*T : ℤ)-k*P| < 2*T := by
  obtain ⟨k,rfl⟩ : ∃ i, k = i+1 := ⟨k-1,by omega⟩
  rw [dueTick, Nat.add_sub_cancel, abs_lt]
  have hmodT : P % T < T := Nat.mod_lt P hT
  -- a period of whole ticks has no error
  by_cases hmod : P % T = 0
  · have hexact := firings_of_dvd hT hP hlt hmod k
    zify at hexact
    constructor
    · push_cast
      linarith
    · push_cast
      linarith
  · cases k with
    | zero =>
      have hfirst : (firings T P 0).1 = P/T+1 := by
        rw [firings, firstTicks_split hT hP hlt, if_pos (by omega)]
      have hdiv : P/T*T+P % T = P := Nat.div_add_mod' P T
      have herror : (firings T P 0).1*T+P % T = P+T := by
        rw [hfirst, Nat.add_mul]
        omega
      zify at herror hmodT
      constructor
      · push_cast
        linarith [Int.emod_nonneg (P : ℤ) (by omega : (T : ℤ) ≠ 0)]
      · push_cast
        linarith [Int.emod_nonneg (P : ℤ) (by omega : (T : ℤ) ≠ 0)]
    | succ k =>
      have hrem := firings_remaining_lt (P := P) hT k
      have hpos : 0 < P % T := Nat.pos_of_ne_zero hmod
      have herror := firings_of_not_dvd hT hP hlt hpos k
      zify at herror hrem hmodT hpos
      constructor
      · push_cast
        linarith
      · push_cast
        linarith [Int.natCast_nonneg (firings T P k).2]

/-- Periods that do not divide into ticks: nine milliseconds with ticks of ten. -/
theorem dueTick_error_nine : |(dueTick 10 9 3*10 : ℤ)-3*9| < 2*10 :=
  dueTick_error (T := 10) (P := 9) (k := 3) (by decide) (by decide) (by decide) (by decide)

/-- The milliseconds that a schedule can carry come up to T-gcd(P,T), and no higher. -/
theorem exists_remaining (hT : 1 ≤ T) (hlt : P+T ≤ 2^32) :
    ∃ k, (firings T P k).2+P.gcd T = T := by
  have hle : P.gcd T ≤ T := Nat.le_of_dvd hT (Nat.gcd_dvd_right P T)
  rcases Nat.lt_or_ge (P.gcd T) T with hgcd | hgcd
  · obtain ⟨m,-,hm⟩ := Nat.exists_mul_mod_eq_gcd hgcd
    obtain ⟨c,hc⟩ := Nat.gcd_dvd_right P T
    have hcpos : 1 ≤ c := by
      by_contra h0
      rw [Nat.eq_zero_of_not_pos h0, Nat.mul_zero] at hc
      omega
    have hpos : 0 < P.gcd T := Nat.gcd_pos_of_pos_right P hT
    have hsub : P.gcd T*(c-1)+P.gcd T = T := by
      calc P.gcd T*(c-1)+P.gcd T = P.gcd T*(c-1+1) := (Nat.mul_succ _ _).symm
        _ = P.gcd T*c := by rw [Nat.sub_add_cancel hcpos]
        _ = T := hc.symm
    refine ⟨m*(c-1),?_⟩
    have hcarried : m*(c-1)*P % T = P.gcd T*(c-1) := by
      calc m*(c-1)*P % T = P*m % T*(c-1) % T := by
            rw [Nat.mod_mul_mod, Nat.mul_comm, Nat.mul_assoc]
        _ = P.gcd T*(c-1) % T := by rw [hm]
        _ = P.gcd T*(c-1) := Nat.mod_eq_of_lt (by omega)
    rw [firings_remaining hT hlt, hcarried, hsub]
  · refine ⟨0,?_⟩
    have hzero : (firings T P 0).2 = 0 := rfl
    omega

theorem remaining_add_gcd_le (hT : 1 ≤ T) (hlt : P+T ≤ 2^32) (k : ℕ) :
    (firings T P k).2+P.gcd T ≤ T := by
  have hrem := firings_remaining_lt (P := P) hT k
  -- all that is carried is a multiple of the gcd, and T is one
  have hdvd : P.gcd T ∣ (firings T P k).2 := by
    rw [firings_remaining hT hlt]
    exact (Nat.dvd_mod_iff (Nat.gcd_dvd_right P T)).mpr
      (Dvd.dvd.mul_left (Nat.gcd_dvd_left P T) k)
  have hsub : P.gcd T ≤ T-(firings T P k).2 :=
    Nat.le_of_dvd (by omega) (Nat.dvd_sub (Nat.gcd_dvd_right P T) hdvd)
  omega

/-- No firing of the schedule is early exactly where the milliseconds that the first one is rounded
up by make up for all that is carried. -/
theorem never_early_iff (hT : 1 ≤ T) (hP : 1 ≤ P) (hlt : P+T ≤ 2^32) :
    (∀ k, 1 ≤ k → k*P ≤ dueTick T P k*T) ↔ 2*(P % T) ≤ T+P.gcd T := by
  have hmodT : P % T < T := Nat.mod_lt P hT
  by_cases hmod : P % T = 0
  · apply iff_of_true
    · intro k hk
      obtain ⟨k,rfl⟩ : ∃ i, k = i+1 := ⟨k-1,by omega⟩
      rw [dueTick, Nat.add_sub_cancel, firings_of_dvd hT hP hlt hmod]
    · omega
  · have hpos : 0 < P % T := Nat.pos_of_ne_zero hmod
    constructor
    · intro h
      -- the firing that carries most decides
      obtain ⟨k,hk⟩ := exists_remaining (P := P) hT hlt
      have herror := firings_of_not_dvd hT hP hlt hpos k
      have hdue := h (k+2) (by omega)
      have hdueTick : dueTick T P (k+2) = (firings T P (k+1)).1 := rfl
      rw [hdueTick] at hdue
      omega
    · intro h k hk
      rcases Nat.lt_or_ge k 2 with hone | htwo
      · obtain rfl : k = 1 := by omega
        have hfirst : dueTick T P 1 = P/T+1 := by
          rw [dueTick, firings, firstTicks_split hT hP hlt, if_pos hpos]
        have hdiv : P/T*T+P % T = P := Nat.div_add_mod' P T
        rw [hfirst, Nat.add_mul]
        omega
      · obtain ⟨k,rfl⟩ : ∃ i, k = i+2 := ⟨k-2,by omega⟩
        have herror := firings_of_not_dvd hT hP hlt hpos k
        have hcarried := remaining_add_gcd_le hT hlt k
        have hdueTick : dueTick T P (k+2) = (firings T P (k+1)).1 := rfl
        rw [hdueTick]
        omega

theorem never_early_iff_fifteen :
    (∀ k, 1 ≤ k → k*15 ≤ dueTick 10 15 k*10) ↔ 2*(15 % 10) ≤ 10+Nat.gcd 15 10 :=
  never_early_iff (T := 10) (P := 15) (by decide) (by decide) (by decide)

/-- The third firing of a period of nine is at twenty. -/
theorem early_nine : ¬∀ T P k, 1 ≤ T → 1 ≤ P → P+T ≤ 2^32 → 1 ≤ k → k*P ≤ dueTick T P k*T := by
  intro h
  have hthird := h 10 9 3 (by decide) (by decide) (by decide) (by decide)
  have hdue : dueTick 10 9 3 = 2 := by decide +kernel
  rw [hdue] at hthird
  exact absurd hthird (by decide)

end Arithmetic

end Timer

end JhCommon
