import JhCommon.PeriodicTimer
import JhCommon.Rotation
import JhCommon.Transition

/-! Whether the loop of `handleTick` ends. A periodic node goes back into the list that the loop
takes nodes from, so that each one has to come to a tick ahead by itself. -/
namespace JhCommon
open Word32

namespace Timer

/-- The node that a re-arm puts back. -/
def rearmed (T : ℕ) (timer : TimerNode) : TimerNode :=
  { timer with
    mTick := add32 timer.mTick (newTicks T timer.mRepeatMS timer.mRemainingMS)
    mRemainingMS := add32 timer.mRepeatMS timer.mRemainingMS % T }

section Fields
variable (T : ℕ) (timer : TimerNode)

theorem rearmed_mTick : (rearmed T timer).mTick =
    add32 timer.mTick (newTicks T timer.mRepeatMS timer.mRemainingMS) := by rw [rearmed]

theorem rearmed_mRepeatMS : (rearmed T timer).mRepeatMS = timer.mRepeatMS := by rw [rearmed]

theorem rearmed_mRemainingMS : (rearmed T timer).mRemainingMS =
    add32 timer.mRepeatMS timer.mRemainingMS % T := by rw [rearmed]

/-- The next call is the same one. -/
theorem deliver_rearmed : deliver (rearmed T timer) = deliver timer := by
  rw [deliver, deliver, rearmed]

theorem rearm_periodic {t : Timer} (hT : t.mMsPerTick ≠ 0) (h : timer.mRepeatMS ≠ 0) :
    t.rearm timer = .ok (t.addTimerNode (rearmed t.mMsPerTick timer)) := by
  rw [rearm, if_neg h, if_neg hT]
  rfl

end Fields

-- the arithmetic of a node that is put back is for the lemmas above only
attribute [irreducible] rearmed

/-- A node is ahead, or will not be put back, or will be put back as such a node. -/
inductive Drains (T now : ℕ) : TimerNode → ℕ → Prop
  | ahead {timer : TimerNode} (h : 0 < int32 (sub32 timer.mTick now)) : Drains T now timer 0
  | once {timer : TimerNode} (h : timer.mRepeatMS = 0) : Drains T now timer 1
  | again {timer : TimerNode} {n : ℕ} (h : Drains T now (rearmed T timer) n) :
      Drains T now timer (n+1)

/-- How often the loop can take a node. -/
noncomputable def rounds (T now : ℕ) (timer : TimerNode) : ℕ := sInf {n | Drains T now timer n}

section Loop
variable {t t' : Timer} {timer : TimerNode} {T now : ℕ}

theorem insertNode_perm (newTimer : TimerNode) (list : List TimerNode) :
    (insertNode newTimer list).Perm (newTimer :: list) := by
  induction list with
  | nil => exact .refl _
  | cons timer rest ih =>
    rw [insertNode]
    split
    · exact .refl _
    · exact (ih.cons timer).trans (.swap newTimer timer rest)

theorem drains_rounds (h : ∃ n, Drains T now timer n) : Drains T now timer (rounds T now timer) :=
  Nat.sInf_mem h

theorem rounds_pos (h : ∃ n, Drains T now timer n) (hdue : ¬0 < int32 (sub32 timer.mTick now)) :
    0 < rounds T now timer := by
  have hdrains := drains_rounds h
  cases hzero : rounds T now timer with
  | zero =>
    rw [hzero] at hdrains
    cases hdrains with
    | ahead hahead => exact absurd hahead hdue
  | succ n => exact Nat.succ_pos n

/-- A due node that is put back has fewer rounds left. -/
theorem rounds_rearmed (h : ∃ n, Drains T now timer n)
    (hdue : ¬0 < int32 (sub32 timer.mTick now)) (hrepeat : timer.mRepeatMS ≠ 0) :
    (∃ n, Drains T now (rearmed T timer) n) ∧
      rounds T now (rearmed T timer) < rounds T now timer := by
  have hdrains := drains_rounds h
  cases hrounds : rounds T now timer with
  | zero => exact absurd (rounds_pos h hdue) (by omega)
  | succ n =>
    rw [hrounds] at hdrains
    cases hdrains with
    | once hzero => exact absurd hzero hrepeat
    | again hnext => exact ⟨⟨n,hnext⟩,Nat.lt_succ_of_le (Nat.sInf_le hnext)⟩

/-- The nodes that the loop meets: their calls can be made, and they come to an end. -/
def Settles (T now : ℕ) (timer : TimerNode) : Prop :=
  (∃ delivery, deliver timer = .ok delivery) ∧ ∃ n, Drains T now timer n

/-- The rounds that are left go down each time around the loop. -/
theorem handleDue_ends (hT : T ≠ 0) {list : List TimerNode}
    (hlist : ∀ timer ∈ list, Settles T now timer) : ∃ fuel r, handleDue fuel ⟨T,list,now⟩ = .ok r := by
  induction hm : (list.map (rounds T now)).sum using Nat.strong_induction_on generalizing list with
  | _ m ih =>
    cases list with
    | nil => exact ⟨1,([],⟨T,[],now⟩),rfl⟩
    | cons timer rest =>
      by_cases hdue : int32 (sub32 timer.mTick now) > 0
      · refine ⟨1,([],⟨T,timer :: rest,now⟩),?_⟩
        simp only [handleDue, if_pos hdue]
      · obtain ⟨⟨delivery,hdelivery⟩,hdrains⟩ := hlist timer List.mem_cons_self
        have hrest : ∀ node ∈ rest, Settles T now node :=
          fun node hnode => hlist node (List.mem_cons_of_mem timer hnode)
        rw [List.map_cons, List.sum_cons] at hm
        -- it is enough that the loop ends on the list that the re-arm leaves
        have hgo : ∀ list', rearm ⟨T,rest,now⟩ timer = .ok ⟨T,list',now⟩ →
            (∃ fuel r, handleDue fuel ⟨T,list',now⟩ = .ok r) →
            ∃ fuel r, handleDue fuel ⟨T,timer :: rest,now⟩ = .ok r := by
          intro list' hlist' hends
          obtain ⟨fuel,r,hr⟩ := hends
          refine ⟨fuel+1,(delivery :: r.1,r.2),?_⟩
          simp only [handleDue, if_neg hdue, hdelivery, hlist', hr, ok_bind]
        by_cases hrepeat : timer.mRepeatMS = 0
        · have hsame : rearm ⟨T,rest,now⟩ timer = .ok ⟨T,rest,now⟩ := by rw [rearm, if_pos hrepeat]
          have hpos := rounds_pos hdrains hdue
          exact hgo rest hsame (ih _ (by omega) hrest rfl)
        · obtain ⟨hdrains',hfewer⟩ := rounds_rearmed hdrains hdue hrepeat
          have hback : rearm ⟨T,rest,now⟩ timer = .ok ⟨T,insertNode (rearmed T timer) rest,now⟩ :=
            rearm_periodic timer hT hrepeat
          have hperm := insertNode_perm (rearmed T timer) rest
          have hsum : ((insertNode (rearmed T timer) rest).map (rounds T now)).sum =
              rounds T now (rearmed T timer)+(rest.map (rounds T now)).sum := by
            rw [(hperm.map _).sum_eq, List.map_cons, List.sum_cons]
          have hlist' : ∀ node ∈ insertNode (rearmed T timer) rest, Settles T now node := by
            intro node hnode
            rcases List.mem_cons.mp (hperm.mem_iff.mp hnode) with rfl | hold
            · exact ⟨⟨delivery,(deliver_rearmed T timer).trans hdelivery⟩,hdrains'⟩
            · exact hrest node hold
          have hless : rounds T now (rearmed T timer)+(rest.map (rounds T now)).sum < m := by
            rw [← hm]
            exact Nat.add_lt_add_right hfewer _
          exact hgo _ hback (ih _ hless hlist' hsum)

/-- What the re-arm keeps of the nodes, the loop keeps. -/
theorem handleDue_keeps {P : TimerNode → Prop} (hT : T ≠ 0)
    (hP : ∀ timer, P timer → timer.mRepeatMS ≠ 0 → P (rearmed T timer)) {fuel : ℕ}
    {list : List TimerNode} {out : List Delivery} (hlist : ∀ timer ∈ list, P timer)
    (h : handleDue fuel ⟨T,list,now⟩ = .ok (out,t')) :
    ∃ list', t' = ⟨T,list',now⟩ ∧ ∀ timer ∈ list', P timer := by
  induction fuel generalizing list out with
  | zero => cases h
  | succ fuel ih =>
    cases list with
    | nil =>
      obtain ⟨-,rfl⟩ := Prod.mk.inj (Except.ok.inj h)
      exact ⟨[],rfl,hlist⟩
    | cons timer rest =>
      simp only [handleDue] at h
      by_cases hdue : int32 (sub32 timer.mTick now) > 0
      · rw [if_pos hdue] at h
        obtain ⟨-,rfl⟩ := Prod.mk.inj (Except.ok.inj h)
        exact ⟨timer :: rest,rfl,hlist⟩
      · rw [if_neg hdue] at h
        have hrest : ∀ node ∈ rest, P node :=
          fun node hnode => hlist node (List.mem_cons_of_mem timer hnode)
        obtain ⟨delivery,-,hloop⟩ := bind_eq_ok.mp h
        obtain ⟨t₁,hrearm,hloop⟩ := bind_eq_ok.mp hloop
        obtain ⟨r,hr,heq⟩ := bind_eq_ok.mp hloop
        obtain ⟨-,rfl⟩ := Prod.mk.inj (Except.ok.inj heq)
        -- a one-shot node is gone, a periodic one is put back
        by_cases hrepeat : timer.mRepeatMS = 0
        · rw [rearm, if_pos hrepeat] at hrearm
          obtain rfl := Except.ok.inj hrearm
          exact ih hrest hr
        · have hback : rearm ⟨T,rest,now⟩ timer = .ok ⟨T,insertNode (rearmed T timer) rest,now⟩ :=
            rearm_periodic timer hT hrepeat
          rw [hback] at hrearm
          obtain rfl := Except.ok.inj hrearm
          apply ih _ hr
          intro node hnode
          rcases List.mem_cons.mp ((insertNode_perm _ _).mem_iff.mp hnode) with rfl | hold
          · exact hP timer (hlist timer List.mem_cons_self) hrepeat
          · exact hrest node hold

end Loop

/-- The periods with which the re-arm can come round to a tick that is due, again and again. A
period of 2^31 ticks looks like a step back; and where the rounding up of the period passes 2^32,
the re-arm adds no tick as long as what is carried stays low. -/
def Stuck (T period : ℕ) : Prop :=
  T = 1 ∧ period = 2^31 ∨
    2^32 < period+T ∧ 2^32-period ≤ 2^32 % T ∧
      2^32-period+2^32 % T < T+(2^32 % T).gcd (2^32-period)

instance (T period : ℕ) : Decidable (Stuck T period) := inferInstanceAs (Decidable (_ ∨ _))

section Chain
variable {T P now : ℕ} {timer : TimerNode}

/-- What a node carries after its re-arms. -/
def carried (T P remaining : ℕ) : ℕ → ℕ
  | 0 => remaining
  | n+1 => add32 P (carried T P remaining n) % T

/-- The ticks that they have added. -/
def added (T P remaining : ℕ) : ℕ → ℕ
  | 0 => 0
  | n+1 => added T P remaining n+newTicks T P (carried T P remaining n)

theorem carried_lt (hT : 1 ≤ T) {remaining : ℕ} (hrem : remaining < T) (n : ℕ) :
    carried T P remaining n < T := by
  cases n with
  | zero => exact hrem
  | succ n => exact Nat.mod_lt _ hT

theorem carried_add (remaining i n : ℕ) :
    carried T P remaining (i+n) = carried T P (carried T P remaining i) n := by
  induction n with
  | zero => rfl
  | succ n ih =>
    calc carried T P remaining (i+n+1) = add32 P (carried T P remaining (i+n)) % T := rfl
      _ = add32 P (carried T P (carried T P remaining i) n) % T := by rw [ih]

/-- The chain of a node's re-arms ends where the ticks that they add bring it ahead. -/
theorem drains_of_added {n : ℕ} (h : 0 < int32 (sub32 (timer.mTick+
    added T timer.mRepeatMS timer.mRemainingMS n) now)) : ∃ n, Drains T now timer n := by
  -- the chain from its node number i on, with the tick known up to wrapping
  have hrest : ∀ (n i : ℕ) (node : TimerNode), node.mRepeatMS = timer.mRepeatMS →
      node.mRemainingMS = carried T timer.mRepeatMS timer.mRemainingMS i →
      sub32 node.mTick now = sub32 (timer.mTick+added T timer.mRepeatMS timer.mRemainingMS i) now →
      0 < int32 (sub32 (timer.mTick+added T timer.mRepeatMS timer.mRemainingMS (i+n)) now) →
      ∃ n, Drains T now node n := by
    intro n
    induction n with
    | zero =>
      intro i node _ _ htick hahead
      rw [Nat.add_zero, ← htick] at hahead
      exact ⟨0,.ahead hahead⟩
    | succ n ih =>
      intro i node hrepeat hremaining htick hahead
      have hnext : sub32 (rearmed T node).mTick now =
          sub32 (timer.mTick+added T timer.mRepeatMS timer.mRemainingMS (i+1)) now := by
        have hmore := sub32_add32_congr htick (newTicks T node.mRepeatMS node.mRemainingMS)
        rw [Nat.add_assoc, hrepeat, hremaining] at hmore
        rw [rearmed_mTick, hrepeat, hremaining, added]
        exact hmore
      have hcarried : (rearmed T node).mRemainingMS =
          carried T timer.mRepeatMS timer.mRemainingMS (i+1) := by
        rw [rearmed_mRemainingMS, hrepeat, hremaining, carried]
      have hi : i+1+n = i+(n+1) := by omega
      obtain ⟨m,hm⟩ := ih (i+1) (rearmed T node)
        ((rearmed_mRepeatMS T node).trans hrepeat) hcarried hnext (by rw [hi]; exact hahead)
      exact ⟨m+1,.again hm⟩
  apply hrest n 0 timer rfl rfl
  · rw [added, Nat.add_zero]
  · rw [Nat.zero_add]
    exact h

/-- Steps of less than half the range that add up come to a tick ahead before they pass it. -/
theorem exists_ahead {S : ℕ → ℕ} (hzero : S 0 = 0) (hstep : ∀ n, S (n+1) < S n+2^31)
    (hunbounded : ∀ N, ∃ n, N ≤ S n) (now x : ℕ) : ∃ n, 0 < int32 (sub32 (x+S n) now) := by
  by_cases hahead : 0 < int32 (sub32 x now)
  · exact ⟨0,by rw [hzero]; exact hahead⟩
  · obtain ⟨D,hD⟩ : ∃ D : ℕ, int32 (sub32 x now) = -D :=
      ⟨(-int32 (sub32 x now)).toNat,by omega⟩
    obtain ⟨n,hn⟩ := hunbounded (D+1)
    have hfirst : ∃ n, D < S n := ⟨n,hn⟩
    -- the first number of re-arms that makes up for the delay
    have hpast := Nat.find_spec hfirst
    cases hfind : Nat.find hfirst with
    | zero =>
      rw [hfind, hzero] at hpast
      omega
    | succ m =>
      have hbefore : ¬D < S m := Nat.find_min hfirst (by omega)
      rw [hfind] at hpast
      have hlt := hstep m
      refine ⟨m+1,?_⟩
      rw [int32_sub32_add hD (by omega) (by omega)]
      omega

theorem added_add (remaining i n : ℕ) : added T P remaining (i+n) =
    added T P remaining i+added T P (carried T P remaining i) n := by
  induction n with
  | zero => rfl
  | succ n ih =>
    calc added T P remaining (i+n+1) =
          added T P remaining (i+n)+newTicks T P (carried T P remaining (i+n)) := rfl
      _ = added T P remaining i+(added T P (carried T P remaining i) n+
          newTicks T P (carried T P (carried T P remaining i) n)) := by
        rw [ih, carried_add, Nat.add_assoc]

/-- Where each re-arm comes before one that adds a tick, any number of ticks is added. -/
theorem added_unbounded (hT : 1 ≤ T)
    (h : ∀ remaining, remaining < T → ∃ n, 1 ≤ newTicks T P (carried T P remaining n))
    {remaining : ℕ} (hrem : remaining < T) (N : ℕ) : ∃ n, N ≤ added T P remaining n := by
  induction N with
  | zero => exact ⟨0,Nat.zero_le _⟩
  | succ N ih =>
    obtain ⟨i,hi⟩ := ih
    obtain ⟨n,hn⟩ := h _ (carried_lt (P := P) hT hrem i)
    refine ⟨i+(n+1),?_⟩
    rw [added_add, added]
    omega

theorem newTicks_lt (hT : 2 ≤ T) (remaining : ℕ) : newTicks T P remaining < 2^31 := by
  have hlt := sub32_lt (sub32 (add32 P T) 1) remaining
  rw [newTicks]
  apply Nat.div_lt_of_lt_mul
  omega

/-- A period of at least a tick adds one each time, a shorter one where it passes a tick. -/
theorem exists_tick (hT : 1 ≤ T) (hP : 1 ≤ P) (hlt : P+T ≤ 2^32) {remaining : ℕ}
    (hrem : remaining < T) : ∃ n, 1 ≤ newTicks T P (carried T P remaining n) := by
  by_contra hnone
  rw [not_exists] at hnone
  have hzero : ∀ n, P/T = 0 ∧ ¬carried T P remaining n < P % T := by
    intro n
    have hn := hnone n
    rw [newTicks_split hT hP hlt (carried_lt hT hrem n)] at hn
    by_cases hless : carried T P remaining n < P % T
    · rw [if_pos hless] at hn
      exact absurd (Nat.le_add_left 1 _) hn
    · rw [if_neg hless, Nat.add_zero] at hn
      exact ⟨Nat.eq_zero_of_not_pos hn,hless⟩
  have hshort : P < T := (Nat.div_eq_zero_iff_lt hT).mp (hzero 0).1
  have hsum : ∀ n, carried T P remaining n = remaining+n*P := by
    intro n
    induction n with
    | zero => rw [carried, Nat.zero_mul, Nat.add_zero]
    | succ n ih =>
      have hn := carried_lt (P := P) hT hrem n
      have hnext := (hzero (n+1)).2
      rw [Nat.mod_eq_of_lt hshort, carried, add32_of_lt (by omega)] at hnext
      by_cases hpass : P+carried T P remaining n < T
      · rw [carried, add32_of_lt (by omega), Nat.mod_eq_of_lt hpass, ih, Nat.succ_mul]
        omega
      · rw [Nat.mod_eq_sub_mod (by omega), Nat.mod_eq_of_lt (by omega)] at hnext
        omega
  have hlast := carried_lt (P := P) hT hrem T
  have hmul : T ≤ T*P := Nat.le_mul_of_pos_right T hP
  rw [hsum] at hlast
  omega

/-- Steps back of less than half the range pass the other end of it. -/
theorem exists_ahead_back {s : ℕ} (hpos : 0 < s) (hlt : s < 2^31) (now x : ℕ) :
    ∃ n, 0 < int32 (sub32 (x+n*(2^32-s)) now) := by
  by_cases hahead : 0 < int32 (sub32 x now)
  · exact ⟨0,by rw [Nat.zero_mul]; exact hahead⟩
  · obtain ⟨D,hD⟩ : ∃ D : ℕ, int32 (sub32 x now) = -D :=
      ⟨(-int32 (sub32 x now)).toNat,by omega⟩
    have hDle : D ≤ 2^31 := neg_int32_le hD
    have hfirst : ∃ n, 2^31 < D+n*s := by
      refine ⟨2^31+1,?_⟩
      have hmul : 2^31+1 ≤ (2^31+1)*s := Nat.le_mul_of_pos_right _ hpos
      omega
    have hpast := Nat.find_spec hfirst
    cases hfind : Nat.find hfirst with
    | zero =>
      rw [hfind, Nat.zero_mul] at hpast
      omega
    | succ m =>
      have hbefore : ¬2^31 < D+m*s := Nat.find_min hfirst (by omega)
      rw [hfind, Nat.succ_mul] at hpast
      refine ⟨m+1,?_⟩
      have hback : (m+1)*(2^32-s)+(m*s+s) = (m+1)*2^32 := by
        rw [← Nat.succ_mul, ← Nat.mul_add, Nat.sub_add_cancel (by omega)]
      rw [int32_sub32_back hD hback (by omega) (by omega)]
      omega

end Chain

section Wrapped
variable {T P remaining : ℕ}

/-- Where the rounding up of the period passes 2^32, no tick is added while what is carried stays
as far below a tick as the period below 2^32. -/
theorem newTicks_wrapped (hint : T < 2^31) (hword : P < 2^32) (hwrap : 2^32 < P+T)
    (hrem : remaining < T) : newTicks T P remaining = 0 ↔ remaining+(2^32-P) < T := by
  have hsum : sub32 (add32 P T) 1 = P+T-1-2^32 := by
    unfold sub32 add32
    omega
  rw [newTicks, hsum]
  have hpos : 0 < T := by omega
  rw [Nat.div_eq_zero_iff_lt hpos]
  unfold sub32
  omega

/-- What is carried then is turned back by that distance. -/
theorem carried_turn (hint : T < 2^31) (hword : P < 2^32) (hrem : remaining+(2^32-P) < T)
    (hle : 2^32-P ≤ remaining+2^32 % T) :
    add32 P remaining % T = Rotation.turn (2^32 % T) (2^32-P) remaining := by
  by_cases hless : 2^32-P ≤ remaining
  · have hadd : add32 P remaining = remaining-(2^32-P) := by
      rw [add32_eq]
      omega
    rw [hadd, Nat.mod_eq_of_lt (by omega), Rotation.turn, if_pos hless]
  · have hdiv : T*(2^32/T)+2^32 % T = 2^32 := Nat.div_add_mod (2^32) T
    have hmod : 2^32 % T < T := Nat.mod_lt _ (by omega)
    have hsplit : P+remaining = (remaining+2^32 % T-(2^32-P))+T*(2^32/T) := by omega
    rw [add32_of_lt (by omega), Rotation.turn, if_neg hless, hsplit, Nat.add_mul_mod_self_left,
      Nat.mod_eq_of_lt (by omega)]

/-- Below zero it would come to just under T, where a tick is added. -/
theorem turned_of_low (hint : T < 2^31) (hword : P < 2^32) (hrem : remaining+(2^32-P) < T)
    (hnext : add32 P remaining % T+(2^32-P) < T) : 2^32-P ≤ remaining+2^32 % T := by
  by_contra hlt
  have hpos : 0 < T := by omega
  have hdiv : T*(2^32/T)+2^32 % T = 2^32 := Nat.div_add_mod (2^32) T
  have hquot : 1 ≤ 2^32/T := Nat.div_pos (by omega) hpos
  obtain ⟨q,hq⟩ : ∃ q, 2^32/T = q+1 := ⟨2^32/T-1,(Nat.sub_add_cancel hquot).symm⟩
  rw [hq, Nat.mul_add, Nat.mul_one] at hdiv
  have hsplit : P+remaining = (T+remaining+2^32 % T-(2^32-P))+T*q := by omega
  rw [add32_of_lt (by omega), hsplit, Nat.add_mul_mod_self_left, Nat.mod_eq_of_lt (by omega)] at hnext
  omega

/-- A period for which no tick is added ever after is one that is stuck. -/
theorem stuck_of_no_tick (hint : T < 2^31) (hword : P < 2^32) (hwrap : 2^32 < P+T)
    (hrem : remaining < T) (hnone : ∀ n, newTicks T P (carried T P remaining n) = 0) : Stuck T P := by
  have hT : 1 ≤ T := by omega
  have hlow : ∀ n, carried T P remaining n+(2^32-P) < T := fun n =>
    (newTicks_wrapped hint hword hwrap (carried_lt hT hrem n)).mp (hnone n)
  have hback := fun n => turned_of_low hint hword (hlow n) (hlow (n+1))
  have hturn : ∀ n, carried T P remaining (n+1) =
      Rotation.turn (2^32 % T) (2^32-P) (carried T P remaining n) := fun n =>
    carried_turn hint hword (hlow n) (hback n)
  have hu : 0 < 2^32-P := by omega
  -- the lowest number that it comes to is turned back, and at the highest one no tick is added
  obtain ⟨low,high,hlowest,hhighest⟩ := Rotation.sequence_extremes hturn hback hu
  have hturned := hback low
  have hfits := hlow high
  refine .inr ⟨hwrap,?_,by omega⟩
  by_contra hlt
  have hle : (2^32 % T).gcd (2^32-P) ≤ 2^32-P-2^32 % T :=
    Nat.le_of_dvd (by omega) (Nat.dvd_sub (Nat.gcd_dvd_right _ _) (Nat.gcd_dvd_left _ _))
  omega

end Wrapped

end Timer

end JhCommon
