import JhCommon.CatchUp
import JhCommon.Exec
import JhCommon.TimeUtils

/-! The clock thread of a timer, `Timer::clockHandler`: how many ticks it makes of its clock
readings, and how far it is then. -/
namespace JhCommon
open TimeUtils

/-- What the clock says when the wait is over, and when it is asked again for a new start. -/
structure Wakeup where
  cur : Timespec
  again : Timespec

namespace ClockThread

/-- The loop that counts the ticks. -/
def countTicks (mMsPerTick : ℤ) (cur : Timespec) : ℕ → Timespec → Exec (ℕ × Timespec)
  | 0, _ => .error .outOfFuel
  | fuel+1, start =>
    if getDifference cur start > mMsPerTick then do
      let (ticks,start) ← countTicks mMsPerTick cur fuel (addOffset start mMsPerTick)
      .ok (ticks+1,start)
    else .ok (0,start)

/-- The clock was set back, or jumped by more than 10 seconds, or the ticks are counted. -/
def wakeup (mMsPerTick : ℤ) (fuel : ℕ) (start : Timespec) (w : Wakeup) : Exec (ℕ × Timespec) :=
  if getDifference w.cur start < 0 ∨ getDifference w.cur start > 10000 then .ok (1,w.again)
  else countTicks mMsPerTick w.cur fuel start

/-- The wakeups one after the other, with the calls of `handleTick` that they make in all. -/
def clockHandler (mMsPerTick : ℤ) (fuel : ℕ) : Timespec → List Wakeup → Exec (ℕ × Timespec)
  | start, [] => .ok (0,start)
  | start, w :: ws => do
    let (ticks,start) ← wakeup mMsPerTick fuel start w
    let (more,start) ← clockHandler mMsPerTick fuel start ws
    .ok (ticks+more,start)

/-- Readings of a clock that does not go back. -/
def Ordered : Timespec → List Wakeup → Prop
  | _, [] => True
  | t, w :: ws => (t.NotAfter w.cur ∧ w.cur.Normal) ∧ (w.cur.NotAfter w.again ∧ w.again.Normal) ∧
      Ordered w.again ws

/-- Whatever the wakeups are before the one that reads last, they come to the same number of ticks
and the same start, at most a tick behind. -/
def Independent (mMsPerTick : ℤ) (start last : Timespec) : Prop :=
  ∃ ticks final, 0 ≤ getDifference last final ∧ getDifference last final ≤ mMsPerTick ∧
    ∀ earlier w, w.cur = last → Ordered start (earlier ++ [w]) →
      ∃ fuel, clockHandler mMsPerTick fuel start (earlier ++ [w]) = .ok (ticks,final)

/-- The test of the loop. -/
def Late (mMsPerTick : ℤ) (cur start : Timespec) : Prop := getDifference cur start > mMsPerTick

/-- The states of the loop within the ten seconds: the reading is not before the start, and the last
one not too far off. -/
structure Within (cur last start : Timespec) : Prop where
  normal : start.Normal
  past : 0 ≤ elapsed cur start
  near : elapsed last start ≤ 10000

section Loop
variable {T : ℤ} {cur last start final s : Timespec} {n fuel : ℕ}

theorem countTicks_eq (h : CatchesUp (Late T cur) (addOffset · T) start n final) (hfuel : n < fuel) :
    countTicks T cur fuel start = .ok (n,final) := by
  induction h generalizing fuel with
  | stop hstop =>
    obtain ⟨fuel,rfl⟩ : ∃ i, fuel = i+1 := ⟨fuel-1,by omega⟩
    exact if_neg hstop
  | @go s _ _ hgo _ ih =>
    obtain ⟨fuel,rfl⟩ : ∃ i, fuel = i+1 := ⟨fuel-1,by omega⟩
    have hlate : getDifference cur s > T := hgo
    rw [countTicks, if_pos hlate, ih (by omega)]
    rfl

theorem catchesUp_of_countTicks (h : countTicks T cur fuel start = .ok (n,final)) :
    CatchesUp (Late T cur) (addOffset · T) start n final := by
  induction fuel generalizing start n with
  | zero => cases h
  | succ fuel ih =>
    rw [countTicks] at h
    by_cases hlate : getDifference cur start > T
    · rw [if_pos hlate] at h
      obtain ⟨r,hr,heq⟩ := bind_eq_ok.mp h
      obtain ⟨rfl,rfl⟩ := Prod.mk.inj (Except.ok.inj heq)
      exact .go hlate (ih hr)
    · rw [if_neg hlate] at h
      obtain ⟨rfl,rfl⟩ := Prod.mk.inj (Except.ok.inj h)
      exact .stop hlate

theorem Within.getDifference_eq (h : Within last last s) : getDifference last s = elapsed last s := by
  have hpast := h.past
  have hnear := h.near
  rw [TimeUtils.getDifference_eq, toInt_of_lt (by omega) (by omega)]

/-- The test is exact here, for both readings. -/
theorem Within.late_iff (h : Within cur last s) (hle : elapsed cur s ≤ elapsed last s) :
    (Late T cur s ↔ T < elapsed cur s) ∧ (Late T last s ↔ T < elapsed last s) := by
  have hpast := h.past
  have hnear := h.near
  unfold Late
  rw [TimeUtils.getDifference_eq, TimeUtils.getDifference_eq, toInt_of_lt (by omega) (by omega),
    toInt_of_lt (by omega) (by omega)]
  exact ⟨Iff.rfl,Iff.rfl⟩

section Readings
variable (hT : 1 ≤ T) (hcur : cur.Normal) (hlast : last.Normal) (hle : cur.NotAfter last)
include hT hcur hlast hle

/-- A tick leaves the start within. -/
theorem Within.advance (h : Within cur last s) (hlate : Late T cur s) :
    Within cur last (addOffset s T) := by
  have hmono := elapsed_mono h.normal hcur hlast hle
  have hpast := ((h.late_iff hmono).1).mp hlate
  have hbound := (elapsed_addOffset s T cur).1
  have hbound' := (elapsed_addOffset s T last).2
  have hnear := h.near
  exact ⟨addOffset_normal h.normal T,by omega,by omega⟩

/-- The nanoseconds from the start to the reading go down with each tick. -/
theorem exists_catchesUp (h : Within cur last start) :
    ∃ n s', CatchesUp (Late T cur) (addOffset · T) start n s' := by
  apply CatchesUp.exists_of_measure (fun s hs hlate => hs.advance hT hcur hlast hle hlate)
    (fun s => ((cur.tv_sec-s.tv_sec)*1000000000+(cur.tv_nsec-s.tv_nsec)).toNat) _ h
  intro s hs hlate
  have hmono := elapsed_mono hs.normal hcur hlast hle
  have hpast := ((hs.late_iff hmono).1).mp hlate
  have htdiv := tdiv_million (cur.tv_nsec-s.tv_nsec)
  obtain ⟨k,hsec,hnsec⟩ := addOffset_parts s T
  unfold elapsed at hpast
  omega

/-- A wakeup within the ten seconds is one loop, which goes on as the last reading's would. -/
theorem wakeup_within (h : Within cur last start) :
    ∃ n s', CatchesUp (Late T cur) (addOffset · T) start n s' ∧ Within cur last s' ∧
      ∀ again fuel, n < fuel → wakeup T fuel start ⟨cur,again⟩ = .ok (n,s') := by
  obtain ⟨n,s',hloop⟩ := exists_catchesUp hT hcur hlast hle h
  obtain ⟨hwithin,-⟩ := hloop.keeps (fun s hs hlate => hs.advance hT hcur hlast hle hlate) h
  refine ⟨n,s',hloop,hwithin,?_⟩
  intro again fuel hfuel
  have hmono := elapsed_mono h.normal hcur hlast hle
  have hpast := h.past
  have hnear := h.near
  have hdiff : getDifference cur start = elapsed cur start := by
    rw [TimeUtils.getDifference_eq, toInt_of_lt (by omega) (by omega)]
  rw [wakeup, hdiff, if_neg (by omega)]
  exact countTicks_eq hloop hfuel

theorem catchesUp_last (h : Within cur last start) {s' final : Timespec} {m : ℕ}
    (hloop : CatchesUp (Late T cur) (addOffset · T) start n s')
    (hrest : CatchesUp (Late T last) (addOffset · T) s' m final) :
    CatchesUp (Late T last) (addOffset · T) start (n+m) final := by
  apply hloop.trans hrest (fun s hs hlate => hs.advance hT hcur hlast hle hlate) h
  intro s hs hlate
  have hmono := elapsed_mono hs.normal hcur hlast hle
  have hpast := ((hs.late_iff hmono).1).mp hlate
  exact ((hs.late_iff hmono).2).mpr (by omega)

end Readings

section Runs

/-- The last reading is behind all the earlier ones. -/
theorem Ordered.notAfter_last {earlier : List Wakeup} {w : Wakeup} {t : Timespec}
    (h : Ordered t (earlier ++ [w])) : t.NotAfter w.cur ∧ w.cur.Normal := by
  induction earlier generalizing t with
  | nil => exact h.1
  | cons v earlier ih =>
    obtain ⟨⟨hcur,-⟩,⟨hagain,-⟩,hrest⟩ := h
    obtain ⟨hlast,hnormal⟩ := ih hrest
    exact ⟨hcur.trans (hagain.trans hlast),hnormal⟩

theorem clockHandler_nil (T : ℤ) (fuel : ℕ) (start : Timespec) :
    clockHandler T fuel start [] = .ok (0,start) := rfl

theorem clockHandler_cons {w : Wakeup} {ws : List Wakeup} {s' : Timespec} {m : ℕ}
    (h : wakeup T fuel start w = .ok (n,s')) (hrest : clockHandler T fuel s' ws = .ok (m,final)) :
    clockHandler T fuel start (w :: ws) = .ok (n+m,final) := by
  simp only [clockHandler, h, hrest, ok_bind]

/-- All of the wakeups make the ticks that the loop would make for the last one alone. The reading t
is the one before them. -/
theorem clockHandler_within (hT : 1 ≤ T) {earlier : List Wakeup} {w : Wakeup} {t : Timespec}
    (ht : t.Normal) (hordered : Ordered t (earlier ++ [w])) (h : Within t w.cur start) :
    ∃ n final, CatchesUp (Late T w.cur) (addOffset · T) start n final ∧
      ∃ least, ∀ fuel, least ≤ fuel → clockHandler T fuel start (earlier ++ [w]) = .ok (n,final) := by
  induction earlier generalizing t start with
  | nil =>
    obtain ⟨⟨hle,hnormal⟩,-,-⟩ := hordered
    have hpast := h.past
    have hmono := elapsed_mono h.normal ht hnormal hle
    have hwithin : Within w.cur w.cur start := ⟨h.normal,by omega,h.near⟩
    obtain ⟨n,final,hloop,-,hwakeup⟩ := wakeup_within hT hnormal hnormal (.refl _) hwithin
    refine ⟨n,final,hloop,n+1,?_⟩
    intro fuel hfuel
    exact clockHandler_cons (hwakeup w.again fuel hfuel) (clockHandler_nil T fuel final)
  | cons v earlier ih =>
    obtain ⟨⟨hle,hnormal⟩,⟨hagain,hagainNormal⟩,hrest⟩ := hordered
    obtain ⟨hlast,hlastNormal⟩ := Ordered.notAfter_last hrest
    have hpast := h.past
    have hmono := elapsed_mono h.normal ht hnormal hle
    have hwithin : Within v.cur w.cur start := ⟨h.normal,by omega,h.near⟩
    obtain ⟨n,s',hloop,hwithin',hwakeup⟩ :=
      wakeup_within hT hnormal hlastNormal (hagain.trans hlast) hwithin
    -- the reading after this one is further from the start that it leaves
    have hpast' := hwithin'.past
    have hmono' := elapsed_mono hwithin'.normal hnormal hagainNormal hagain
    obtain ⟨m,final,hloop',least,hclock⟩ :=
      ih hagainNormal hrest ⟨hwithin'.normal,by omega,hwithin'.near⟩
    refine ⟨n+m,final,catchesUp_last hT hnormal hlastNormal (hagain.trans hlast) hwithin hloop hloop',
      max least (n+1),?_⟩
    intro fuel hfuel
    exact clockHandler_cons (hwakeup v.again fuel (by omega)) (hclock fuel (by omega))

theorem elapsed_later (start : Timespec) (t : Timespec) :
    elapsed t ⟨start.tv_sec+20,start.tv_nsec⟩ = elapsed t start-20000 := by
  unfold elapsed
  ring

/-- The loop leaves a start that is more than the range of an int away where it is. -/
theorem countTicks_far (hT : 1 ≤ T) (hs : start.Normal) {k : ℤ} (hk : 1 ≤ k)
    (hlo : k*2^32 ≤ elapsed last start) (hhi : elapsed last start ≤ k*2^32+10000)
    (h : countTicks T last fuel start = .ok (n,final)) : final ≠ last := by
  have hstep : ∀ s : Timespec, (s.Normal ∧ k*2^32 ≤ elapsed last s ∧ elapsed last s ≤ k*2^32+10000) →
      Late T last s → (addOffset s T).Normal ∧ k*2^32 ≤ elapsed last (addOffset s T) ∧
        elapsed last (addOffset s T) ≤ k*2^32+10000 := by
    intro s hs hlate
    obtain ⟨hnormal,hlo,hhi⟩ := hs
    have hdiff : getDifference last s = elapsed last s-k*2^32 := by
      rw [TimeUtils.getDifference_eq]
      exact toInt_sub_mul hlo hhi
    have hbound := elapsed_addOffset s T last
    unfold Late at hlate
    rw [hdiff] at hlate
    exact ⟨addOffset_normal hnormal T,by omega,by omega⟩
  obtain ⟨⟨-,hfar,-⟩,-⟩ := (catchesUp_of_countTicks h).keeps hstep ⟨hs,hlo,hhi⟩
  intro heq
  rw [heq, elapsed_self] at hfar
  omega

/-- A reading that only looks near makes one tick when it comes by itself, or leaves the start far
off. Behind one of 20 seconds after the start it is taken for a jump. -/
theorem not_independent (hT : 1 ≤ T) (hstart : start.Normal) (hlast : last.Normal)
    (hle : start.NotAfter last) (hdiff : getDifference last start ≤ 10000)
    (hgt : 10000 < elapsed last start) : ¬Independent T start last := by
  intro hindependent
  obtain ⟨ticks,final,-,-,h⟩ := hindependent
  obtain ⟨k,hk⟩ := toInt_add (elapsed last start)
  have hrange := toInt_range (elapsed last start)
  rw [← TimeUtils.getDifference_eq] at hk hrange
  have hsec : start.tv_sec+20 < last.tv_sec := by
    have htdiv := tdiv_million (last.tv_nsec-start.tv_nsec)
    have hfar : 2^31 ≤ elapsed last start := by omega
    obtain ⟨hlo,hhi⟩ := hstart
    obtain ⟨hlo',hhi'⟩ := hlast
    unfold elapsed at hfar
    omega
  -- with a reading of 20 seconds later between the two, both are jumps of one tick each
  have hbetween : start.NotAfter ⟨start.tv_sec+20,start.tv_nsec⟩ := by
    left
    show start.tv_sec < start.tv_sec+20
    omega
  obtain ⟨fuel,hboth⟩ := h [⟨⟨start.tv_sec+20,start.tv_nsec⟩,⟨start.tv_sec+20,start.tv_nsec⟩⟩]
    ⟨last,last⟩ rfl ⟨⟨hbetween,hstart⟩,⟨.refl _,hstart⟩,⟨.inl hsec,hlast⟩,⟨.refl _,hlast⟩,trivial⟩
  have hfirst : wakeup T fuel start ⟨⟨start.tv_sec+20,start.tv_nsec⟩,⟨start.tv_sec+20,start.tv_nsec⟩⟩ =
      .ok (1,⟨start.tv_sec+20,start.tv_nsec⟩) := by
    have hlater : getDifference ⟨start.tv_sec+20,start.tv_nsec⟩ start = 20000 := by
      have helapsed : elapsed ⟨start.tv_sec+20,start.tv_nsec⟩ start = 20000 := by simp [elapsed]
      rw [TimeUtils.getDifference_eq, helapsed]
      decide
    rw [wakeup, hlater, if_pos (by omega)]
  have hsecond : wakeup T fuel ⟨start.tv_sec+20,start.tv_nsec⟩ ⟨last,last⟩ = .ok (1,last) := by
    obtain ⟨j,hj⟩ := toInt_add (elapsed last start-20000)
    have hjump : getDifference last ⟨start.tv_sec+20,start.tv_nsec⟩ =
        toInt (elapsed last start-20000) := by
      rw [TimeUtils.getDifference_eq, elapsed_later]
    rw [wakeup, hjump, if_pos (by omega)]
  have htwo := clockHandler_cons hfirst (clockHandler_cons hsecond (clockHandler_nil T fuel last))
  obtain ⟨rfl,rfl⟩ := Prod.mk.inj (Except.ok.inj (htwo.symm.trans hboth))
  -- alone the last one makes as many ticks as its wrapped difference says
  obtain ⟨fuel',halone⟩ := h [] ⟨last,last⟩ rfl ⟨⟨hle,hlast⟩,⟨.refl _,hlast⟩,trivial⟩
  obtain ⟨r,hr,hrest⟩ := bind_eq_ok.mp halone
  obtain ⟨hticks,hfinal⟩ := Prod.mk.inj (Except.ok.inj hrest)
  by_cases hback : getDifference last start < 0
  · rw [wakeup, if_pos (.inl hback)] at hr
    have hone : r.1 = 1 := by rw [← Except.ok.inj hr]
    omega
  · have hlo : k*2^32 ≤ elapsed last start := by omega
    have hhi : elapsed last start ≤ k*2^32+10000 := by omega
    rw [wakeup, if_neg (by dsimp only; omega)] at hr
    exact countTicks_far hT hstart (by omega) hlo hhi hr hfinal

/-- Where the last reading is at most ten seconds after the start as an int, the wakeups before it
make no difference exactly if it is that also before it is stored in one. -/
theorem independent_iff (hT : 1 ≤ T) (hstart : start.Normal) (hlast : last.Normal)
    (hle : start.NotAfter last) (hdiff : getDifference last start ≤ 10000) :
    Independent T start last ↔ elapsed last start ≤ 10000 := by
  constructor
  · intro h
    by_contra hgt
    exact not_independent hT hstart hlast hle hdiff (not_le.mp hgt) h
  · intro hnear
    have hwithin : Within last last start := ⟨hstart,elapsed_nonneg hstart hlast hle,hnear⟩
    obtain ⟨n,final,hloop⟩ := exists_catchesUp hT hlast hlast (.refl _) hwithin
    obtain ⟨hend,hnotLate⟩ :=
      hloop.keeps (fun s hs hlate => hs.advance hT hlast hlast (.refl _) hlate) hwithin
    refine ⟨n,final,?_,not_lt.mp hnotLate,?_⟩
    · rw [hend.getDifference_eq]
      exact hend.past
    · intro earlier w hw hordered
      rw [← hw] at hloop hnear
      obtain ⟨m,final',hloop',least,hclock⟩ := clockHandler_within hT hstart hordered
        ⟨hstart,(elapsed_self start).ge,hnear⟩
      obtain ⟨rfl,rfl⟩ := hloop.unique hloop'
      exact ⟨least,hclock least le_rfl⟩

/-- A start half a second behind a second, and a reading a quarter after it. -/
theorem independent_iff_second :
    Independent 10 ⟨7,500000000⟩ ⟨8,250000000⟩ ↔ elapsed ⟨8,250000000⟩ ⟨7,500000000⟩ ≤ 10000 :=
  independent_iff (by decide) ⟨by decide,by decide⟩ ⟨by decide,by decide⟩ (.inl (by decide)) (by decide)

/-- A clock that is set forward by 2^29 seconds. -/
theorem not_independent_set_forward : ¬∀ (T : ℤ) (start last : Timespec), 1 ≤ T → start.Normal →
    last.Normal → start.NotAfter last → getDifference last start ≤ 10000 →
      Independent T start last := by
  intro h
  have hzero : Timespec.Normal ⟨0,0⟩ := ⟨by decide,by decide⟩
  have hlater : Timespec.Normal ⟨536870912,0⟩ := ⟨by decide,by decide⟩
  have hle : Timespec.NotAfter ⟨0,0⟩ ⟨536870912,0⟩ := .inl (by decide)
  have hdiff : getDifference ⟨536870912,0⟩ ⟨0,0⟩ ≤ 10000 := by decide
  apply not_independent (T := 10) (by decide) hzero hlater hle hdiff (by decide)
  exact h 10 _ _ (by decide) hzero hlater hle hdiff

end Runs

end Loop

end ClockThread

end JhCommon
