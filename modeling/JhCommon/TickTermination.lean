import JhCommon.PeriodicLoop

/-! For which periods every tick comes to an end, whatever the timers before it and with it are. -/
namespace JhCommon
open Word32

/-- The calls that add a node. Listeners, events and dispatchers exist. -/
inductive TimerCall
  | addTimer (listener msecs privateData : ℕ)
  | addPeriodicTimer (listener period privateData : ℕ)
  | sendTimedEvent (event dispatcher msecs : ℕ)
  | sendPeriodicEvent (event dispatcher period : ℕ)

/-- A call that is made once repeats after no time. -/
def TimerCall.repeatMS : TimerCall → ℕ
  | .addTimer _ _ _ | .sendTimedEvent _ _ _ => 0
  | .addPeriodicTimer _ period _ | .sendPeriodicEvent _ _ period => period

namespace Timer

def call (t : Timer) : TimerCall → Exec Timer
  | .addTimer listener msecs privateData => t.addTimer (some listener) msecs privateData
  | .addPeriodicTimer listener period privateData =>
    t.addPeriodicTimer (some listener) period privateData
  | .sendTimedEvent event dispatcher msecs => t.sendTimedEvent (some event) (some dispatcher) msecs
  | .sendPeriodicEvent event dispatcher period =>
    t.sendPeriodicEvent (some event) (some dispatcher) period

/-- A client's call, where the periods are some of these, or a tick. -/
inductive Next (periods : Set ℕ) : Timer → Timer → Prop
  | call {t t' : Timer} {c : TimerCall} (hperiod : c.repeatMS = 0 ∨ c.repeatMS ∈ periods)
      (h : t.call c = .ok t') : Next periods t t'
  | tick {t t' : Timer} {fuel : ℕ} {out : List Delivery} (h : t.handleTick fuel = .ok (out,t')) :
      Next periods t t'

def Reachable (T : ℕ) (periods : Set ℕ) : Timer → Prop :=
  Transition.Reachable (fun t => t = init T) (Next periods)

/-- What the nodes of the clients are like. -/
structure Fits (T : ℕ) (periods : Set ℕ) (timer : TimerNode) : Prop where
  delivers : ∃ delivery, deliver timer = .ok delivery
  repeats : timer.mRepeatMS = 0 ∨ timer.mRepeatMS ∈ periods
  carries : timer.mRemainingMS < T

section Reaching
variable {T P now : ℕ} {periods : Set ℕ} {t t' : Timer} {timer : TimerNode}

theorem Fits.rearmed (hT : 1 ≤ T) (h : Fits T periods timer) : Fits T periods (rearmed T timer) where
  delivers := by
    rw [deliver_rearmed]
    exact h.delivers
  repeats := by
    rw [rearmed_mRepeatMS]
    exact h.repeats
  carries := by
    rw [rearmed_mRemainingMS]
    exact Nat.mod_lt _ hT

/-- Each call puts one node in. -/
theorem call_ok (hT : 1 ≤ T) {c : TimerCall} (hperiod : c.repeatMS = 0 ∨ c.repeatMS ∈ periods)
    (h : t.call c = .ok t') : ∃ timer, t' = t.addTimerNode timer ∧ Fits T periods timer := by
  cases c with
  | addTimer listener msecs privateData =>
    simp only [call, addTimer, addListener, reduceCtorEq, if_false] at h
    obtain ⟨ticks,-,ht'⟩ := bind_eq_ok.mp h
    exact ⟨_,(Except.ok.inj ht').symm,⟨_,rfl⟩,hperiod,hT⟩
  | addPeriodicTimer listener period privateData =>
    simp only [call, addPeriodicTimer, addListener, reduceCtorEq, if_false] at h
    obtain ⟨ticks,-,ht'⟩ := bind_eq_ok.mp h
    exact ⟨_,(Except.ok.inj ht').symm,⟨_,rfl⟩,hperiod,hT⟩
  | sendTimedEvent event dispatcher msecs =>
    obtain ⟨ticks,-,ht'⟩ := bind_eq_ok.mp h
    exact ⟨_,(Except.ok.inj ht').symm,⟨_,rfl⟩,hperiod,hT⟩
  | sendPeriodicEvent event dispatcher period =>
    obtain ⟨ticks,-,ht'⟩ := bind_eq_ok.mp h
    exact ⟨_,(Except.ok.inj ht').symm,⟨_,rfl⟩,hperiod,hT⟩

theorem init_mMsPerTick (T : ℕ) : (init T).mMsPerTick = T := by simp [init]

/-- The nodes of a timer that clients and ticks have made what it is. -/
theorem Reachable.fits (hT : 1 ≤ T) (h : Reachable T periods t) :
    t.mMsPerTick = T ∧ ∀ timer ∈ t.mList, Fits T periods timer := by
  apply Transition.Reachable.invariant
    (fun t => t.mMsPerTick = T ∧ ∀ timer ∈ t.mList, Fits T periods timer) _ _ h
  · intro t ht
    rw [ht]
    exact ⟨init_mMsPerTick T,by simp [init]⟩
  · intro t t' ht hnext
    obtain ⟨hms,hlist⟩ := ht
    cases hnext with
    | call hperiod hcall =>
      obtain ⟨timer,rfl,htimer⟩ := call_ok hT hperiod hcall
      refine ⟨hms,?_⟩
      intro node hnode
      rcases List.mem_cons.mp ((insertNode_perm _ _).mem_iff.mp hnode) with rfl | hold
      · exact htimer
      · exact hlist node hold
    | tick htick =>
      have hkeeps : ∀ timer, Fits T periods timer → timer.mRepeatMS ≠ 0 →
          Fits T periods (Timer.rearmed t.mMsPerTick timer) := by
        intro timer htimer _
        rw [hms]
        exact htimer.rearmed hT
      obtain ⟨list',rfl,hlist'⟩ := handleDue_keeps (by omega) hkeeps hlist htick
      exact ⟨hms,hlist'⟩

/-- A node with a period that is not stuck comes to a tick ahead. -/
theorem drains_of_not_stuck (hT : 1 ≤ T) (hint : T < 2^31) (hP : 1 ≤ P) (hword : P < 2^32)
    (hstuck : ¬Stuck T P) (hrepeat : timer.mRepeatMS = P) (hrem : timer.mRemainingMS < T) :
    ∃ n, Drains T now timer n := by
  -- with T = 1 and a long period the tick goes back by 2^32-P at each turn
  by_cases hback : T = 1 ∧ 2^31 < P
  · obtain ⟨rfl,hhalf⟩ := hback
    have hnew : ∀ remaining < 1, newTicks 1 P remaining = P := by
      intro remaining hzero
      rw [newTicks_eq hP (by omega) hzero, Nat.div_one]
      omega
    have hadded : ∀ n, added 1 P timer.mRemainingMS n = n*(2^32-(2^32-P)) := by
      intro n
      induction n with
      | zero => rw [added, Nat.zero_mul]
      | succ n ih =>
        rw [added, ih, hnew _ (carried_lt hT hrem n), Nat.succ_mul]
        omega
    obtain ⟨n,hn⟩ := exists_ahead_back (by omega : 0 < 2^32-P) (by omega) now timer.mTick
    rw [← hadded, ← hrepeat] at hn
    exact drains_of_added hn
  · -- otherwise it goes forward by less than 2^31, and does not stop
    have hstep : ∀ remaining < T, newTicks T P remaining < 2^31 := by
      intro remaining hlt
      rcases Nat.lt_or_ge T 2 with hone | htwo
      · obtain rfl : T = 1 := by omega
        have hne : P ≠ 2^31 := fun heq => hstuck (.inl ⟨rfl,heq⟩)
        rw [newTicks_eq hP (by omega) hlt, Nat.div_one]
        omega
      · exact newTicks_lt htwo remaining
    have htick : ∀ remaining < T, ∃ n, 1 ≤ newTicks T P (carried T P remaining n) := by
      intro remaining hlt
      rcases Nat.lt_or_ge (2^32) (P+T) with hwrap | hle
      · by_contra hnone
        rw [not_exists] at hnone
        apply hstuck
        apply stuck_of_no_tick hint hword hwrap hlt
        intro n
        exact Nat.eq_zero_of_not_pos (hnone n)
      · exact exists_tick hT hP hle hlt
    obtain ⟨n,hn⟩ := exists_ahead (S := added T P timer.mRemainingMS) rfl
      (fun n => Nat.add_lt_add_left (hstep _ (carried_lt hT hrem n)) _)
      (added_unbounded hT htick hrem) now timer.mTick
    rw [← hrepeat] at hn
    exact drains_of_added hn

/-- A node that is due each time it is put back keeps the loop going. -/
theorem handleDue_never (hT : T ≠ 0) (stays : TimerNode → Prop)
    (hstays : ∀ timer, stays timer → ¬0 < int32 (sub32 timer.mTick now) ∧ timer.mRepeatMS ≠ 0 ∧
      stays (Timer.rearmed T timer)) (fuel : ℕ) (htimer : stays timer) (r : List Delivery × Timer) :
    handleDue fuel ⟨T,[timer],now⟩ ≠ .ok r := by
  induction fuel generalizing timer r with
  | zero =>
    intro h
    cases h
  | succ fuel ih =>
    obtain ⟨hdue,hrepeat,hnext⟩ := hstays timer htimer
    intro h
    simp only [handleDue, gt_iff_lt, if_neg hdue] at h
    obtain ⟨delivery,-,hloop⟩ := bind_eq_ok.mp h
    have hback : rearm ⟨T,[],now⟩ timer = .ok ⟨T,[Timer.rearmed T timer],now⟩ :=
      rearm_periodic timer hT hrepeat
    rw [hback, ok_bind] at hloop
    obtain ⟨r',hr',-⟩ := bind_eq_ok.mp hloop
    exact ih hnext r' hr'

/-- A node that a call with a listener adds. -/
def periodicNode (period tick : ℕ) : TimerNode :=
  { mEvent := none
    mDispatcher := none
    mListener := some 0
    mPrivateData := 0
    mTick := tick
    mRepeatMS := period
    mRemainingMS := 0 }

theorem reachable_call (h : Reachable T periods t) {c : TimerCall}
    (hperiod : c.repeatMS = 0 ∨ c.repeatMS ∈ periods) (hcall : t.call c = .ok t') :
    Reachable T periods t' := Transition.Reachable.next h (.call hperiod hcall)

theorem reachable_init : Reachable T periods (init T) := .start rfl

/-- Where the rounding up of the period passes 2^32, the first tick does not come to an end. -/
theorem wrapped_never_ends (hint : T < 2^31) (hword : P < 2^32) (hP : P ∈ periods)
    (hwrap : 2^32 < P+T) (hle : 2^32-P ≤ 2^32 % T)
    (hlt : 2^32-P+2^32 % T < T+(2^32 % T).gcd (2^32-P)) :
    ∃ t, Reachable T periods t ∧ ∀ fuel r, t.handleTick fuel ≠ .ok r := by
  have hT : T ≠ 0 := by omega
  have hc : 0 < 2^32 % T := by omega
  have hgcd : 0 < (2^32 % T).gcd (2^32-P) := Nat.gcd_pos_of_pos_left _ hc
  have hgcdle : (2^32 % T).gcd (2^32-P) ≤ 2^32 % T := Nat.le_of_dvd hc (Nat.gcd_dvd_left _ _)
  have hfirst : firstTicks T P = 0 := by
    have hsum : sub32 (add32 P T) 1 = P+T-1-2^32 := by
      unfold sub32 add32
      omega
    rw [firstTicks, hsum, Nat.div_eq_of_lt (by omega)]
  have hadd : (init T).call (.addPeriodicTimer 0 P 0) = .ok ⟨T,[periodicNode P 0],0⟩ := by
    have hticks : (init T).toTicks P = .ok 0 := by
      rw [toTicks, init_mMsPerTick, if_neg hT]
      exact congrArg Except.ok hfirst
    have hzero : add32 (init T).mTicks 0 = 0 := add32_of_lt (by simp [init])
    simp only [call, addPeriodicTimer, addListener, reduceCtorEq, if_false, hticks, ok_bind, hzero]
    simp only [addTimerNode, init_mMsPerTick]
    rfl
  have hperiod : (TimerCall.addPeriodicTimer 0 P 0).repeatMS ∈ periods := hP
  refine ⟨_,reachable_call reachable_init (.inr hperiod) hadd,?_⟩
  intro fuel r
  have hone : add32 0 1 = 1 := add32_of_lt (by norm_num)
  -- what is carried stays a multiple of the gcd below c
  apply handleDue_never hT (fun timer => timer.mTick = 0 ∧ timer.mRepeatMS = P ∧
    timer.mRemainingMS < 2^32 % T ∧ (2^32 % T).gcd (2^32-P) ∣ timer.mRemainingMS) _ fuel
  · exact ⟨rfl,rfl,hc,dvd_zero _⟩
  · intro timer hstays
    obtain ⟨htick,hrepeat,hrem,hdvd⟩ := hstays
    have hroom : timer.mRemainingMS+(2^32 % T).gcd (2^32-P) ≤ 2^32 % T := by
      have hsub := Nat.le_of_dvd (by omega) (Nat.dvd_sub (Nat.gcd_dvd_left (2^32 % T) (2^32-P)) hdvd)
      omega
    have hlow : timer.mRemainingMS+(2^32-P) < T := by omega
    have hturn := carried_turn hint hword hlow (by omega)
    refine ⟨?_,by rw [hrepeat]; omega,?_,?_,?_,?_⟩
    · rw [htick, hone]
      decide +kernel
    · have hnew : newTicks T P timer.mRemainingMS = 0 :=
        (newTicks_wrapped hint hword hwrap (by omega)).mpr hlow
      rw [rearmed_mTick, htick, hrepeat, hnew]
      exact add32_of_lt (by norm_num)
    · rw [rearmed_mRepeatMS, hrepeat]
    · rw [rearmed_mRemainingMS, hrepeat, hturn]
      exact Rotation.turn_lt (by omega) (by omega) (.inl hrem)
    · rw [rearmed_mRemainingMS, hrepeat, hturn]
      exact Rotation.dvd_turn (Nat.gcd_dvd_left _ _) (Nat.gcd_dvd_right _ _) hdvd

/-- A period of half the range of the tick counter is due again behind it. -/
theorem half_never_ends (hP : 2^31 ∈ periods) :
    ∃ t, Reachable 1 periods t ∧ ∀ fuel r, t.handleTick fuel ≠ .ok r := by
  have hadd : (init 1).call (.addPeriodicTimer 0 (2^31) 0) =
      .ok ⟨1,[periodicNode (2^31) (2^31)],0⟩ := by decide +kernel
  have hperiod : (TimerCall.addPeriodicTimer 0 (2^31) 0).repeatMS ∈ periods := hP
  have hmTick : (periodicNode (2^31) (2^31)).mTick = 2^31 := rfl
  -- the ticks up to the one at which it is due
  have hwait : ∀ n, n < 2^31 → Reachable 1 periods ⟨1,[periodicNode (2^31) (2^31)],n⟩ := by
    intro n
    induction n with
    | zero => exact fun _ => reachable_call reachable_init (.inr hperiod) hadd
    | succ n ih =>
      intro hn
      have htick : handleTick 1 ⟨1,[periodicNode (2^31) (2^31)],n⟩ =
          .ok ([],⟨1,[periodicNode (2^31) (2^31)],n+1⟩) := by
        have hnow : add32 n 1 = n+1 := add32_of_lt (by omega)
        have hahead : int32 (sub32 (2^31) (n+1)) > 0 := by
          rw [sub32_of_le (by decide) (by omega : n+1 ≤ 2^31), int32_of_lt (by omega)]
          omega
        simp only [handleTick, handleDue, hnow, hmTick, if_pos hahead]
      exact Transition.Reachable.next (ih (by omega)) (.tick htick)
  refine ⟨_,hwait (2^31-1) (by norm_num),?_⟩
  intro fuel r
  apply handleDue_never (by decide) (fun timer => (timer.mTick = 2^31 ∨ timer.mTick = 0) ∧
    timer.mRepeatMS = 2^31 ∧ timer.mRemainingMS = 0) _ fuel
  · exact ⟨.inl rfl,rfl,rfl⟩
  · intro timer hstays
    obtain ⟨htick,hrepeat,hrem⟩ := hstays
    have hnew : newTicks 1 (2^31) 0 = 2^31 := by decide +kernel
    refine ⟨?_,by rw [hrepeat]; decide,?_,?_,?_⟩
    · rcases htick with htick | htick
      · rw [htick]
        decide +kernel
      · rw [htick]
        decide +kernel
    · rw [rearmed_mTick, hrepeat, hrem, hnew]
      rcases htick with htick | htick
      · rw [htick]
        exact .inr (by decide +kernel)
      · rw [htick]
        exact .inl (by decide +kernel)
    · rw [rearmed_mRepeatMS, hrepeat]
    · rw [rearmed_mRemainingMS, Nat.mod_one]

/-- Every tick comes to an end, with every list that calls and ticks have led to, exactly where none
of the periods is stuck. -/
theorem handleTick_ends_iff (hT : 1 ≤ T) (hint : T < 2^31)
    (hperiods : ∀ P ∈ periods, 1 ≤ P ∧ P < 2^32) :
    (∀ t, Reachable T periods t → ∃ fuel r, t.handleTick fuel = .ok r) ↔
      ∀ P ∈ periods, ¬Stuck T P := by
  constructor
  · intro h P hP hstuck
    have hword := (hperiods P hP).2
    have hnever : ∃ t, Reachable T periods t ∧ ∀ fuel r, t.handleTick fuel ≠ .ok r := by
      rcases hstuck with ⟨rfl,rfl⟩ | ⟨hwrap,hle,hlt⟩
      · exact half_never_ends hP
      · exact wrapped_never_ends hint hword hP hwrap hle hlt
    obtain ⟨t,hreachable,hnever⟩ := hnever
    obtain ⟨fuel,r,hr⟩ := h t hreachable
    exact hnever fuel r hr
  · intro h t hreachable
    obtain ⟨hms,hlist⟩ := hreachable.fits hT
    apply handleDue_ends (by omega)
    intro timer htimer
    have hfits := hlist timer htimer
    refine ⟨hfits.delivers,?_⟩
    rw [hms]
    rcases hfits.repeats with hzero | hmem
    · exact ⟨1,.once hzero⟩
    · obtain ⟨hP,hword⟩ := hperiods _ hmem
      exact drains_of_not_stuck hT hint hP hword (h _ hmem) rfl hfits.carries

theorem handleTick_ends_iff_minute :
    (∀ t, Reachable 100 {60000} t → ∃ fuel r, t.handleTick fuel = .ok r) ↔
      ∀ P ∈ ({60000} : Set ℕ), ¬Stuck 100 P := by
  apply handleTick_ends_iff (by decide) (by decide)
  intro P hP
  rw [Set.mem_singleton_iff.mp hP]
  decide

/-- The longest period there is, with ticks of 100 milliseconds. -/
theorem longest_never_ends : ¬∀ (T : ℕ) (periods : Set ℕ), 1 ≤ T → T < 2^31 →
    (∀ P ∈ periods, 1 ≤ P ∧ P < 2^32) →
      ∀ t, Reachable T periods t → ∃ fuel r, t.handleTick fuel = .ok r := by
  intro h
  have hperiods : ∀ P ∈ ({2^32-1} : Set ℕ), 1 ≤ P ∧ P < 2^32 := by
    intro P hP
    rw [Set.mem_singleton_iff.mp hP]
    decide
  obtain ⟨t,ht,hnever⟩ := wrapped_never_ends (T := 100) (P := 2^32-1) (by decide) (by decide)
    (Set.mem_singleton _) (by decide) (by decide) (by norm_num)
  obtain ⟨fuel,r,hr⟩ := h 100 _ (by decide) (by decide) hperiods t ht
  exact hnever fuel r hr

end Reaching

end Timer

end JhCommon
