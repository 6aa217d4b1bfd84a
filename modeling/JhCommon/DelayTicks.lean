import JhCommon.TickTermination
import JhCommon.TimerDelivery

/-! How long a timer waits with what it has been given: for which delays the ticks that are counted up to
the first firing are enough, and a node stays until then. -/
namespace JhCommon
open Word32

/-- The delay up to the first firing. -/
def TimerCall.msecs : TimerCall → ℕ
  | .addTimer _ msecs _ | .sendTimedEvent _ _ msecs => msecs
  | .addPeriodicTimer _ period _ | .sendPeriodicEvent _ _ period => period

/-- The node that a call adds. -/
def TimerCall.node (tick : ℕ) : TimerCall → TimerNode
  | .addTimer listener _ privateData => ⟨none,none,some listener,privateData,tick,0,0⟩
  | .addPeriodicTimer listener period privateData => ⟨none,none,some listener,privateData,tick,period,0⟩
  | .sendTimedEvent event dispatcher _ => ⟨some event,some dispatcher,none,0,tick,0,0⟩
  | .sendPeriodicEvent event dispatcher period => ⟨some event,some dispatcher,none,0,tick,period,0⟩

/-- What `handleTick` asks of a node: that its tick is not ahead. -/
def TimerNode.Due (timer : TimerNode) (now : ℕ) : Prop := ¬int32 (sub32 timer.mTick now) > 0

namespace Timer

/-- The call returns, and the node that it adds is not due at any tick that comes before its
milliseconds are over. -/
def Waits (t : Timer) (c : TimerCall) : Prop :=
  ∃ timer, t.call c = .ok (t.addTimerNode timer) ∧
    ∀ k, 1 ≤ k → k*t.mMsPerTick < c.msecs → ¬timer.Due (add32 t.mTicks k)

/-- There is a tick time, the rounding up does not wrap, and where each millisecond is a tick there are
not more than half of what can be counted. -/
structure FitsDelay (T msecs : ℕ) : Prop where
  ticks : T ≠ 0
  rounds : msecs+T-1 < 2^32
  half : T = 1 → msecs ≤ 2^31

section Delays
variable {T msecs ticks k : ℕ} {t t' : Timer} {timer : TimerNode} {c : TimerCall}

theorem call_eq (t : Timer) (c : TimerCall) : t.call c = t.toTicks c.msecs >>= fun ticks =>
    .ok (t.addTimerNode (c.node (add32 t.mTicks ticks))) := by
  cases c <;> rfl

theorem node_mTick (c : TimerCall) (tick : ℕ) : (c.node tick).mTick = tick := by
  cases c <;> rfl

theorem sub32_add32_add32 (x a b : ℕ) : sub32 (add32 x a) (add32 x b) = sub32 a b := by
  unfold sub32 add32
  omega

/-- The due test, so many ticks after a node with so many ticks to go has been added. -/
theorem due_after (now : ℕ) (hk : k ≤ ticks) (hticks : ticks < 2^32) :
    (c.node (add32 now ticks)).Due (add32 now k) ↔ ticks = k ∨ 2^31 ≤ ticks-k := by
  rw [TimerNode.Due, node_mTick, sub32_add32_add32, sub32_of_le hticks hk]
  rcases Nat.lt_or_ge (ticks-k) (2^31) with hlt | hge
  · rw [int32_of_lt hlt]
    omega
  · have := int32_neg (by omega) hge
    omega

theorem zero_due_next (now : ℕ) : (c.node (add32 now 0)).Due (add32 now 1) := by
  rw [TimerNode.Due, node_mTick, sub32_add32_add32, sub32_of_gt one_pos (by norm_num)]
  have := int32_neg (show 2^32+0-1 < 2^32 by norm_num) (by norm_num)
  omega

/-- The rounding, where it wraps, leaves no tick at all. -/
theorem toTicks_wrapped (hint : t.mMsPerTick < 2^31) (hword : msecs < 2^32)
    (hwrap : 2^32 ≤ msecs+t.mMsPerTick-1) : t.toTicks msecs = .ok 0 := by
  have hT : t.mMsPerTick ≠ 0 := by omega
  have hrest : sub32 (add32 msecs t.mMsPerTick) 1 < t.mMsPerTick := by
    unfold sub32 add32
    omega
  rw [toTicks, if_neg hT, Nat.div_eq_of_lt hrest]

/-- As long as the ticks are less than the delay, they are fewer than have been counted. -/
theorem lt_delay (hT : T ≠ 0) (hk : k*T < msecs) : k < delay T msecs := by
  rw [delay, Nat.lt_iff_add_one_le, Nat.le_div_iff_mul_le (Nat.pos_of_ne_zero hT), Nat.succ_mul]
  omega

theorem delay_lt (hlt : msecs+T-1 < 2^32) : delay T msecs < 2^32 :=
  (Nat.div_le_self _ T).trans_lt hlt

/-- Ticks of two milliseconds and more are not more than half of what can be counted. -/
theorem delay_le_half (hT : 2 ≤ T) (hint : T < 2^31) (hword : msecs < 2^32) : delay T msecs ≤ 2^31 := by
  rw [delay, Nat.div_le_iff_le_mul (by omega)]
  have hmul : 2^31*2 ≤ 2^31*T := Nat.mul_le_mul_left _ hT
  omega

/-- A call whose delay fits waits for it. -/
theorem FitsDelay.waits (h : FitsDelay t.mMsPerTick c.msecs) (hint : t.mMsPerTick < 2^31)
    (hword : c.msecs < 2^32) : t.Waits c := by
  have hT : 1 ≤ t.mMsPerTick := Nat.pos_of_ne_zero h.ticks
  have hlt := delay_lt h.rounds
  have hhalf : delay t.mMsPerTick c.msecs ≤ 2^31 := by
    rcases Nat.lt_or_ge t.mMsPerTick 2 with hone | htwo
    · obtain hone : t.mMsPerTick = 1 := by omega
      have hle := h.half hone
      rw [hone, delay, Nat.div_one]
      omega
    · exact delay_le_half htwo hint hword
  refine ⟨_,by rw [call_eq, toTicks_eq hT rfl h.rounds, ok_bind],?_⟩
  intro k hk hbefore hdue
  have hahead := lt_delay h.ticks hbefore
  rcases (due_after t.mTicks hahead.le hlt).mp hdue with heq | hpast
  · exact hahead.ne' heq
  · omega

/-- A node is known from the timer that it has been added to. -/
theorem addTimerNode_inj {timer' : TimerNode} (h : t.addTimerNode timer = t.addTimerNode timer') :
    timer = timer' := by
  have hlist : insertNode timer t.mList = insertNode timer' t.mList := congrArg Timer.mList h
  have hperm : (timer :: t.mList).Perm (timer' :: t.mList) := by
    refine (insertNode_perm timer t.mList).symm.trans ?_
    rw [hlist]
    exact insertNode_perm timer' t.mList
  have hcount := hperm.count_eq timer
  by_contra hne
  rw [List.count_cons_self, List.count_cons_of_ne (Ne.symm hne)] at hcount
  omega

/-- A node that is due at the next tick does not wait for a delay that is longer than that. -/
theorem Waits.not_due_next (h : t.Waits c) (hticks : t.toTicks c.msecs = .ok ticks)
    (hlong : t.mMsPerTick < c.msecs) : ¬(c.node (add32 t.mTicks ticks)).Due (add32 t.mTicks 1) := by
  obtain ⟨timer,hcall,hwaits⟩ := h
  rw [call_eq, hticks, ok_bind] at hcall
  obtain rfl := addTimerNode_inj (Except.ok.inj hcall)
  exact hwaits 1 (le_refl 1) (by rwa [Nat.one_mul])

end Delays

section Runs
variable {T now j : ℕ} {t t' : Timer} {timer : TimerNode} {c : TimerCall} {list : List TimerNode}
  {out : List Delivery} {fuel : ℕ}

/-- The loop takes no node off the list that is not due. -/
theorem handleDue_stays (hT : T ≠ 0) (hdue : ¬timer.Due now)
    (h : handleDue fuel ⟨T,list,now⟩ = .ok (out,t')) : list.count timer ≤ t'.mList.count timer := by
  -- on the fuel, one for each node that is taken off
  induction fuel generalizing list out with
  | zero => cases h
  | succ fuel ih =>
    cases list with
    | nil => exact Nat.zero_le _
    | cons node rest =>
      simp only [handleDue] at h
      by_cases hahead : int32 (sub32 node.mTick now) > 0
      · rw [if_pos hahead] at h
        obtain ⟨-,rfl⟩ := Prod.mk.inj (Except.ok.inj h)
        exact le_refl _
      · rw [if_neg hahead] at h
        obtain ⟨delivery,-,hloop⟩ := bind_eq_ok.mp h
        obtain ⟨t₁,hrearm,hloop⟩ := bind_eq_ok.mp hloop
        obtain ⟨r,hr,heq⟩ := bind_eq_ok.mp hloop
        obtain ⟨-,rfl⟩ := Prod.mk.inj (Except.ok.inj heq)
        -- the node that is taken off is another one
        have hne : node ≠ timer := fun hsame => hdue (hsame ▸ hahead)
        rw [List.count_cons_of_ne hne]
        -- a periodic node is put back into the list, which does not take timer off
        by_cases hrepeat : node.mRepeatMS = 0
        · rw [rearm, if_pos hrepeat] at hrearm
          obtain rfl := Except.ok.inj hrearm
          exact ih hr
        · have hback : rearm ⟨T,rest,now⟩ node = .ok ⟨T,insertNode (rearmed T node) rest,now⟩ :=
            rearm_periodic node hT hrepeat
          rw [hback] at hrearm
          obtain rfl := Except.ok.inj hrearm
          refine le_trans ?_ (ih hr)
          rw [(insertNode_perm _ _).count_eq]
          exact List.count_le_count_cons

/-- A call of a client, or a tick with so much fuel. -/
def clientStep (t : Timer) : TimerCall ⊕ ℕ → Exec (List Delivery × Timer)
  | .inl c => do
    let t ← t.call c
    .ok ([],t)
  | .inr fuel => t.handleTick fuel

/-- A timer that still has a node, when so many ticks have gone by. -/
structure Keeps (T now : ℕ) (timer : TimerNode) (j : ℕ) (t : Timer) : Prop where
  ms : t.mMsPerTick = T
  ticks : t.mTicks % 2^32 = (now+j) % 2^32
  mem : 1 ≤ t.mList.count timer

theorem Keeps.call (h : Keeps T now timer j t) (hcall : t.call c = .ok t') : Keeps T now timer j t' := by
  rw [call_eq] at hcall
  obtain ⟨ticks,-,ht'⟩ := bind_eq_ok.mp hcall
  obtain rfl := Except.ok.inj ht'
  refine ⟨h.ms,h.ticks,h.mem.trans ?_⟩
  rw [addTimerNode, (insertNode_perm _ _).count_eq]
  exact List.count_le_count_cons

theorem Keeps.tick (hT : T ≠ 0) (h : Keeps T now timer j t) (hdue : ¬timer.Due (add32 now (j+1)))
    (htick : t.handleTick fuel = .ok (out,t')) : Keeps T now timer (j+1) t' := by
  have hnow : add32 t.mTicks 1 = add32 now (j+1) := by
    have := h.ticks
    unfold add32
    omega
  rw [handleTick, h.ms, hnow] at htick
  obtain ⟨list',rfl,-⟩ := handleDue_keeps (P := fun _ => True) hT (fun _ _ _ => trivial)
    (fun _ _ => trivial) htick
  refine ⟨rfl,?_,h.mem.trans (handleDue_stays hT hdue htick)⟩
  show add32 now (j+1) % 2^32 = _
  rw [add32_eq, Nat.mod_mod]

/-- The ticks of a run. -/
def ticksOf (as : List (TimerCall ⊕ ℕ)) : ℕ := as.countP Sum.isRight

theorem Keeps.run (hT : T ≠ 0) {as : List (TimerCall ⊕ ℕ)} {outs : List (List Delivery)}
    (h : Keeps T now timer j t) (hdue : ∀ k, j < k → k ≤ j+ticksOf as → ¬timer.Due (add32 now k))
    (hrun : Transition.run clientStep t as = .ok (outs,t')) : Keeps T now timer (j+ticksOf as) t' := by
  -- on the run: a call leaves the ticks, and a tick adds one to them
  induction as generalizing t j outs with
  | nil =>
    obtain ⟨-,rfl⟩ := Prod.mk.inj (Except.ok.inj hrun)
    exact h
  | cons a as ih =>
    obtain ⟨o,t₁,os,ha,hrest,-⟩ := Transition.run_cons hrun
    cases a with
    | inl c =>
      obtain ⟨t₂,hcall,heq⟩ := bind_eq_ok.mp ha
      obtain ⟨-,rfl⟩ := Prod.mk.inj (Except.ok.inj heq)
      have hcount : ticksOf (.inl c :: as) = ticksOf as := List.countP_cons_of_neg Bool.false_ne_true
      rw [hcount] at hdue ⊢
      exact ih (h.call hcall) hdue hrest
    | inr fuel =>
      have hcount : ticksOf (.inr fuel :: as) = ticksOf as+1 := List.countP_cons_of_pos rfl
      rw [hcount] at hdue ⊢
      have h₁ := h.tick hT (hdue (j+1) (by omega) (by omega)) ha
      have hnext := ih h₁ (fun k hj hk => hdue k (by omega) (by omega)) hrest
      rwa [Nat.add_assoc, Nat.add_comm 1] at hnext

/-- What a call adds is there until its delay is over, whatever else is called. -/
theorem Waits.stays (hT : t.mMsPerTick ≠ 0) (h : t.Waits c) : ∃ timer, t.call c = .ok (t.addTimerNode timer) ∧
    ∀ as outs t', ticksOf as*t.mMsPerTick < c.msecs →
      Transition.run clientStep (t.addTimerNode timer) as = .ok (outs,t') → timer ∈ t'.mList := by
  obtain ⟨timer,hcall,hwaits⟩ := h
  refine ⟨timer,hcall,?_⟩
  intro as outs t' hbefore hrun
  have hadded : Keeps t.mMsPerTick t.mTicks timer 0 (t.addTimerNode timer) := by
    refine ⟨rfl,rfl,?_⟩
    rw [addTimerNode, (insertNode_perm _ _).count_eq, List.count_cons_self]
    exact Nat.succ_pos _
  -- the ticks of the run are within the delay
  have hdue : ∀ k, 0 < k → k ≤ 0+ticksOf as → ¬timer.Due (add32 t.mTicks k) := by
    intro k hpos hk
    apply hwaits k hpos
    calc k*t.mMsPerTick ≤ ticksOf as*t.mMsPerTick := Nat.mul_le_mul_right _ (by omega)
      _ < c.msecs := hbefore
  exact List.count_pos_iff.mp (hadded.run hT hdue hrun).mem

end Runs

/-- What a timer accepts is safe for the delays that fit, and for no others. -/
theorem waits_iff {tickTimeMs : ℤ} (hint : tickTimeMs < 2^31) {t : Timer}
    (ht : t.mMsPerTick = (init tickTimeMs).mMsPerTick) (c : TimerCall) (hword : c.msecs < 2^32) :
    t.Waits c ↔ FitsDelay (init tickTimeMs).mMsPerTick c.msecs := by
  have hT31 : t.mMsPerTick < 2^31 := by
    rw [ht, init]
    dsimp only
    split_ifs <;> omega
  rw [← ht]
  constructor
  · intro h
    have hT : t.mMsPerTick ≠ 0 := by
      intro hzero
      obtain ⟨timer,hcall,-⟩ := h
      rw [call_eq, toTicks, if_pos hzero] at hcall
      cases hcall
    have hrounds : c.msecs+t.mMsPerTick-1 < 2^32 := by
      by_contra hwrap
      exact h.not_due_next (toTicks_wrapped hT31 hword (not_lt.mp hwrap)) (by omega) (zero_due_next _)
    refine ⟨hT,hrounds,?_⟩
    intro hone
    by_contra hmore
    have hticks : t.toTicks c.msecs = .ok c.msecs := by
      rw [toTicks_eq (Nat.pos_of_ne_zero hT) rfl hrounds, hone, delay, Nat.div_one, Nat.add_sub_cancel]
    apply h.not_due_next hticks (by omega)
    exact (due_after t.mTicks (by omega) hword).mpr (.inr (by omega))
  · exact fun h => h.waits hT31 hword

theorem waits_iff_minute : ((100 : ℤ) < 2^31 ∧ (init 100).mMsPerTick = (init 100).mMsPerTick ∧
    (TimerCall.addTimer 7 60000 1).msecs < 2^32) ∧
    ((init 100).Waits (.addTimer 7 60000 1) ↔
      FitsDelay (init 100).mMsPerTick (TimerCall.addTimer 7 60000 1).msecs) :=
  ⟨⟨by norm_num,rfl,by decide⟩,waits_iff (by norm_num) rfl (.addTimer 7 60000 1) (by decide)⟩

/-- The longest delay wraps in the rounding, and is over at the next tick. -/
theorem longest_delay_not_waited : ¬(init 100).Waits (.addTimer 7 (2^32-1) 1) := by
  intro h
  have hms : (init 100).mMsPerTick = 100 := rfl
  have hticks : (init 100).toTicks (2^32-1) = .ok 0 :=
    toTicks_wrapped (by rw [hms]; norm_num) (by norm_num) (by rw [hms]; norm_num)
  exact h.not_due_next hticks (by rw [hms]; decide) (zero_due_next _)

end Timer

end JhCommon
