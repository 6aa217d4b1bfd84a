import JhCommon.EventQueueContents
import JhCommon.FairTurns
import JhCommon.SyncSendRuns

/-! Synchronous sends come through: as the threads take their turns, each call's event is dispatched
and the call returns. -/
namespace JhCommon
open EventQueue Transition

/-- The steps that the dispatcher's thread is away from its next poll. -/
def LoopPhase.left : LoopPhase → ℕ
  | .handling _ => 6
  | .dispatchingSync _ _ => 5
  | .locking _ => 4
  | .marking _ => 3
  | .dispatching _ | .unlocking => 2
  | .releasing _ _ | .broadcasting => 1
  | .polling | .stopped => 0

/-- The thread has come to a shutdown. -/
def LoopPhase.ending : LoopPhase → Bool
  | .releasing _ done => done
  | .stopped => true
  | _ => false

/-- The steps that a thread can make in its call before it waits, or returns. -/
def ClientPhase.left : ClientPhase → ℕ
  | .sent | .woken => 5
  | .testing => 4
  | .unready => 3
  | .waiting | .ready => 2
  | .returning => 1

namespace EventDispatcher
variable {T : Type}

/-- The lock belongs to somebody who is in its critical section, the dispatcher's thread runs, and
finitely many threads are inside of a call. -/
structure Orderly (s : EventDispatcher T) : Prop where
  owner : ∀ t, s.mSyncLock = some (.client t) → ∃ h p, s.clients t = some (h,p) ∧ p.locks = true
  threadOwner : s.mSyncLock = some .dispatcher → s.thread.locks = true
  running : s.thread.ending = false
  finite : ∃ l : List T, ∀ t, s.clients t ≠ none → t ∈ l

theorem init_orderly : (init : EventDispatcher T).Orderly where
  owner _ hl := nomatch hl
  threadOwner hl := nomatch hl
  running := rfl
  finite := ⟨[],fun _ ht => absurd rfl ht⟩

section Steps
variable {s s' : EventDispatcher T} {t : T} {h : ℕ} {p p' : ClientPhase}

/-- A step of the dispatcher's thread outside of the lock. -/
theorem Orderly.setThread (ho : s.Orderly) (hlocks : s.thread.locks = false)
    (hclients : s'.clients = s.clients) (hlock : s'.mSyncLock = s.mSyncLock)
    (hrunning : s'.thread.ending = false) : s'.Orderly := by
  refine ⟨?_,?_,hrunning,?_⟩
  · rw [hlock, hclients]
    exact ho.owner
  · rw [hlock]
    intro hl
    rw [ho.threadOwner hl] at hlocks
    cases hlocks
  · rw [hclients]
    exact ho.finite

theorem Orderly.threadStep (ho : s.Orderly)
    (hend : ∀ ev, s.thread = .handling ev → idOf s.mQueue.events ev ≠ kShutdownEventId)
    (hstep : s.threadStep = .ok s') : s'.Orderly := by
  have houtside {ph : LoopPhase} (hthread : s.thread = ph) (hph : ph.locks = false) :
      s.thread.locks = false := by rw [hthread, hph]
  cases threadStep_moves hstep with
  | rests _ => exact ho
  | takes hthread _ => exact ho.setThread (houtside hthread rfl) rfl rfl rfl
  | @flushes ev q o hthread _ hev hid =>
    have hsome := event_ok hev
    exact absurd (by rw [idOf, hsome]; exact hid) (hend ev hthread)
  | unpacks hthread _ => exact ho.setThread (houtside hthread rfl) rfl rfl rfl
  | hands hthread => exact ho.setThread (houtside hthread rfl) rfl rfl rfl
  | handled hthread => exact ho.setThread (houtside hthread rfl) rfl rfl rfl
  | @releases ev done q hthread _ =>
    have hdone : done = false := by
      have hrunning := ho.running
      rwa [hthread] at hrunning
    subst hdone
    exact ho.setThread (houtside hthread rfl) rfl rfl rfl
  | delivers hthread => exact ho.setThread (houtside hthread rfl) rfl rfl rfl
  | locks hthread _ =>
    refine ⟨fun _ hl => ?_,fun _ => rfl,rfl,ho.finite⟩
    cases hl
  | marks hthread _ => exact ⟨ho.owner,fun _ => rfl,rfl,ho.finite⟩
  | unlocks hthread =>
    refine ⟨fun _ hl => ?_,fun hl => ?_,rfl,ho.finite⟩
    · cases hl
    · cases hl
  | wakes hthread =>
    have hlocks := houtside hthread rfl
    refine ⟨fun t hl => ?_,fun hl => ?_,rfl,?_⟩
    · obtain ⟨h,p,hc,hp⟩ := ho.owner t hl
      refine ⟨h,p,?_,hp⟩
      have hne : p ≠ .waiting := by
        rintro rfl
        cases hp
      simp only [wake, hc, Option.map_some, if_neg hne]
    · rw [ho.threadOwner hl] at hlocks
      cases hlocks
    · obtain ⟨l,hl⟩ := ho.finite
      exact ⟨l,fun t ht => hl t fun hnone => ht (by simp only [wake, hnone, Option.map_none])⟩

variable [DecidableEq T]

/-- A thread goes on in its call, and the lock is afterwards its own or nobody's, or as it was. -/
theorem Orderly.setClient (ho : s.Orderly) (hc : s.clients t = some (h,p))
    {lock : Option (LockOwner T)}
    (hlock : lock = none ∨ lock = some (.client t) ∧ p'.locks = true ∨
      lock = s.mSyncLock ∧ p.locks = false) : (s.setClient t h p' lock).Orderly := by
  refine ⟨fun t' hl => ?_,fun hl => ?_,ho.running,?_⟩
  · have hl : lock = some (.client t') := hl
    rcases hlock with rfl | ⟨rfl,hp'⟩ | ⟨rfl,hp⟩
    · cases hl
    · obtain rfl := LockOwner.client.inj (Option.some.inj hl)
      exact ⟨h,p',Function.update_self _ _ _,hp'⟩
    · obtain ⟨h',q,hc',hq⟩ := ho.owner t' hl
      refine ⟨h',q,(Function.update_of_ne ?_ _ _).trans hc',hq⟩
      rintro rfl
      obtain ⟨-,rfl⟩ := Prod.mk.inj (Option.some.inj (hc'.symm.trans hc))
      rw [hq] at hp
      cases hp
  · have hl : lock = some .dispatcher := hl
    rcases hlock with rfl | ⟨rfl,-⟩ | ⟨rfl,-⟩
    · cases hl
    · cases hl
    · exact ho.threadOwner hl
  · obtain ⟨l,hl⟩ := ho.finite
    refine ⟨l,fun t' ht' => hl t' fun hnone => ht' ((Function.update_of_ne ?_ _ _).trans hnone)⟩
    rintro rfl
    rw [hc] at hnone
    cases hnone

theorem Orderly.clientStep (ho : s.Orderly) (hs : s.Synced) (t : T) (hstep : s.clientStep t = .ok s') :
    s'.Orderly := by
  have hlock (h : ℕ) (p : ClientPhase) (hc : s.clients t = some (h,p))
      (hstep : (if s.mSyncLock = none then Except.ok (s.setClient t h .testing (some (.client t)))
        else .ok s : Exec (EventDispatcher T)) = .ok s') : s'.Orderly := by
    split at hstep
    · rw [← Except.ok.inj hstep]
      exact ho.setClient hc (.inr (.inl ⟨rfl,rfl⟩))
    · rw [← Except.ok.inj hstep]
      exact ho
  unfold EventDispatcher.clientStep at hstep
  cases hc : s.clients t with
  | none =>
    rw [hc] at hstep
    rw [← Except.ok.inj hstep]
    exact ho
  | some c =>
    obtain ⟨h,p⟩ := c
    rw [hc] at hstep
    cases p with
    | sent => exact hlock h _ hc hstep
    | woken => exact hlock h _ hc hstep
    | testing =>
      obtain ⟨r,-,hstep⟩ := bind_eq_ok.mp hstep
      rw [← Except.ok.inj hstep]
      exact ho.setClient hc (.inr (.inl ⟨hs.locked t h _ hc rfl,by split <;> rfl⟩))
    | unready =>
      rw [← Except.ok.inj hstep]
      exact ho.setClient hc (.inl rfl)
    | waiting =>
      rw [← Except.ok.inj hstep]
      exact ho
    | ready =>
      rw [← Except.ok.inj hstep]
      exact ho.setClient hc (.inl rfl)
    | returning =>
      obtain ⟨o,-,hstep⟩ := bind_eq_ok.mp hstep
      rw [← Except.ok.inj hstep]
      obtain ⟨l,hl⟩ := ho.finite
      refine ⟨fun t' hown => ?_,ho.threadOwner,ho.running,l,fun t' ht' => hl t' fun hnone => ?_⟩
      · obtain ⟨h',q,hc',hq⟩ := ho.owner t' hown
        refine ⟨h',q,(Function.update_of_ne ?_ _ _).trans hc',hq⟩
        rintro rfl
        obtain ⟨-,rfl⟩ := Prod.mk.inj (Option.some.inj (hc'.symm.trans hc))
        cases hq
      · by_cases ht : t' = t
        · subst ht
          exact ht' (Function.update_self _ _ _)
        · exact ht' ((Function.update_of_ne ht _ _).trans hnone)

theorem Orderly.sendEventSync (ho : s.Orderly) {ev : ℕ} {priority : ℤ} {holder : ℕ}
    (hstep : s.sendEventSync t ev priority holder = .ok s') : s'.Orderly := by
  unfold EventDispatcher.sendEventSync at hstep
  split at hstep
  swap
  · rw [← Except.ok.inj hstep]
    exact ho
  · rename_i hidle
    obtain ⟨q,-,hstep⟩ := bind_eq_ok.mp hstep
    rw [← Except.ok.inj hstep]
    obtain ⟨l,hl⟩ := ho.finite
    refine ⟨fun t' hown => ?_,ho.threadOwner,ho.running,t :: l,fun t' ht' => ?_⟩
    · obtain ⟨h',q,hc',hq⟩ := ho.owner t' hown
      refine ⟨h',q,(Function.update_of_ne ?_ _ _).trans hc',hq⟩
      rintro rfl
      cases hidle.1.symm.trans hc'
    · by_cases ht : t' = t
      · exact ht ▸ List.mem_cons_self
      · exact List.mem_cons_of_mem _ (hl t' fun hnone => ht' ((Function.update_of_ne ht _ _).trans hnone))

theorem Orderly.wakeup (ho : s.Orderly) (t : T) : (s.wakeup t).Orderly := by
  unfold EventDispatcher.wakeup
  split
  · rename_i h hc
    exact ho.setClient hc (.inr (.inr ⟨rfl,rfl⟩))
  · exact ho

/-- A step that removes nothing and shuts nothing down leaves the lock and the thread in order. -/
theorem Orderly.step (ho : s.Orderly) (hs : s.Synced) {a : DispatcherAction T} (ha : s.Undisturbed a)
    {o : Unit} (hstep : s.step a = .ok (o,s')) : s'.Orderly := by
  obtain ⟨s₁,hnext,hs'⟩ := bind_eq_ok.mp hstep
  obtain ⟨-,rfl⟩ := Prod.mk.inj (Except.ok.inj hs')
  have hsame {s₁ : EventDispatcher T} (hclients : s₁.clients = s.clients)
      (hlock : s₁.mSyncLock = s.mSyncLock) (hthread : s₁.thread = s.thread) : s₁.Orderly :=
    ⟨by rw [hlock, hclients]; exact ho.owner,by rw [hlock, hthread]; exact ho.threadOwner,
      by rw [hthread]; exact ho.running,by rw [hclients]; exact ho.finite⟩
  cases a with
  | create ev o =>
    rw [← Except.ok.inj hnext, EventDispatcher.create]
    split <;> exact hsame rfl rfl rfl
  | sendEvent ev =>
    have hnext : s.sendEvent ev = .ok s₁ := hnext
    unfold EventDispatcher.sendEvent at hnext
    split at hnext
    · rw [← Except.ok.inj hnext]
      exact ho
    · split at hnext
      · rw [← Except.ok.inj hnext]
        exact ho
      · obtain ⟨q,-,hnext⟩ := bind_eq_ok.mp hnext
        rw [← Except.ok.inj hnext]
        exact hsame rfl rfl rfl
  | sendEventSync t ev priority holder => exact ho.sendEventSync hnext
  | client t => exact ho.clientStep hs t hnext
  | wakeup t =>
    rw [← Except.ok.inj hnext]
    exact ho.wakeup t
  | thread => exact ho.threadStep ha hnext
  | removeId id => exact ha.elim
  | removeEvent ev => exact ha.elim
  | removeAll => exact ha.elim

end Steps

/-- A thread goes on, the dispatcher's or one that may be inside of a call. -/
def Turn (a : DispatcherAction T) : Prop := a = .thread ∨ ∃ t, a = .client t

/-- Those who can have something to do. -/
def Needed (s : EventDispatcher T) (a : DispatcherAction T) : Prop :=
  a = .thread ∨ ∃ t, s.clients t ≠ none ∧ a = .client t

/-- In a round the threads take turns in any order, and all that are inside of a call have one, and
the dispatcher's thread has one. -/
def Round (s : EventDispatcher T) (r : List (DispatcherAction T)) : Prop :=
  (∀ a ∈ r, Turn a) ∧ ∀ a, s.Needed a → a ∈ r

def NoShutdown (s : EventDispatcher T) : Prop :=
  ∀ ev ∈ s.held, idOf s.mQueue.events ev ≠ kShutdownEventId

instance (s : EventDispatcher T) : Decidable s.NoShutdown :=
  inferInstanceAs (Decidable (∀ ev ∈ s.held, _))

/-- The steps of a call that are left until it waits or returns. -/
def callLeft (s : EventDispatcher T) (t : T) : ℕ :=
  match s.clients t with
  | none => 0
  | some (_,p) => p.left

/-- What a broadcast makes the calls in l do again is less than the step of the thread counts. -/
def left (l : List T) (s : EventDispatcher T) : ℕ :=
  (7*s.mQueue.mQueue.length+s.thread.left)*(5*l.length+1)+(l.map s.callLeft).sum

/-- What holds while the threads take turns, from a state with these holders on. -/
structure Going (l : List T) (holders : ℕ → Option SyncEventHolder) (s : EventDispatcher T) : Prop where
  synced : s.Synced
  orderly : s.Orderly
  calls : ∀ t, s.clients t ≠ none → t ∈ l
  noShutdown : s.NoShutdown
  kept : ∀ h r, holders h = some r → ∃ r', s.holders h = some r' ∧ r'.mRealEvent = r.mRealEvent

section Turns
variable {s s' : EventDispatcher T} {l : List T} {holders : ℕ → Option SyncEventHolder} {t : T} {h : ℕ}

theorem NoShutdown.keep (hno : s.NoShutdown) (hheld : ∀ ev ∈ s'.held, ev ∈ s.held)
    (hids : IdsKept s.mQueue s'.mQueue) : s'.NoShutdown := by
  intro ev hev hid
  cases ho' : s'.mQueue.events ev with
  | none =>
    rw [idOf, ho'] at hid
    exact absurd hid (by decide)
  | some o' =>
    obtain ⟨o,ho,hsame⟩ := hids ev o' ho'
    apply hno ev (hheld ev hev)
    rw [idOf, ho', Option.map_some, Option.getD_some] at hid
    rw [idOf, ho, Option.map_some, Option.getD_some, hsame, hid]

theorem callLeft_le (s : EventDispatcher T) (t : T) : s.callLeft t ≤ 5 := by
  unfold callLeft
  split
  · exact Nat.zero_le 5
  · rename_i p _
    cases p <;> decide

theorem sum_callLeft_le (s : EventDispatcher T) (l : List T) : (l.map s.callLeft).sum ≤ 5*l.length := by
  have h := List.sum_le_card_nsmul (l.map s.callLeft) 5 (by
    rintro n hn
    obtain ⟨t,-,rfl⟩ := List.mem_map.mp hn
    exact s.callLeft_le t)
  simpa [mul_comm] using h

/-- A step of the dispatcher's thread is worth more than what the calls can have left. -/
theorem left_lt_of_thread (hwork : 7*s'.mQueue.mQueue.length+s'.thread.left <
    7*s.mQueue.mQueue.length+s.thread.left) : left l s' < left l s := by
  have hsum := s'.sum_callLeft_le l
  have hmul := Nat.mul_le_mul_right (5*l.length+1) (Nat.succ_le_of_lt hwork)
  rw [Nat.succ_mul] at hmul
  unfold left
  omega

theorem left_lt_of_client (ht : t ∈ l) (hqueue : s'.mQueue.mQueue = s.mQueue.mQueue)
    (hthread : s'.thread = s.thread) (hless : s'.callLeft t < s.callLeft t)
    (hothers : ∀ t' ≠ t, s'.callLeft t' = s.callLeft t') : left l s' < left l s := by
  have hle (t' : T) : s'.callLeft t' ≤ s.callLeft t' := by
    by_cases heq : t' = t
    · rw [heq]
      exact hless.le
    · exact (hothers t' heq).le
  have hsum : (l.map s'.callLeft).sum < (l.map s.callLeft).sum :=
    List.sum_lt_sum _ _ (fun t' _ => hle t') ⟨t,ht,hless⟩
  unfold left
  rw [hqueue, hthread]
  omega

theorem Going.threadStep (hg : s.Going l holders) :
    ∃ s', s.threadStep = .ok s' ∧ s'.Going l holders ∧ (s' = s ∨ left l s' < left l s) ∧
      ∀ t, s'.clients t ≠ none → s.clients t ≠ none := by
  have hend : ∀ ev, s.thread = .handling ev → idOf s.mQueue.events ev ≠ kShutdownEventId := by
    intro ev hthread
    apply hg.noShutdown ev
    rw [held, hthread]
    simp [LoopPhase.hand]
  obtain ⟨s',hstep,hsynced,-⟩ := hg.synced.threadStep
  have hs' : s'.Synced := hsynced (spares_thread hend)
  have horderly := hg.orderly.threadStep hend hstep
  refine ⟨s',hstep,?_⟩
  -- where the calls are as they were, it is enough to look at the queue and the hand
  have hkeep (hclients : s'.clients = s.clients) (hholders : s'.holders = s.holders)
      (hheld : ∀ ev ∈ s'.held, ev ∈ s.held) (hids : IdsKept s.mQueue s'.mQueue)
      (hwork : 7*s'.mQueue.mQueue.length+s'.thread.left <
        7*s.mQueue.mQueue.length+s.thread.left) :
      s'.Going l holders ∧ (s' = s ∨ left l s' < left l s) ∧
        ∀ t, s'.clients t ≠ none → s.clients t ≠ none := by
    refine ⟨⟨hs',horderly,?_,hg.noShutdown.keep hheld hids,?_⟩,.inr (left_lt_of_thread hwork),?_⟩
    · rw [hclients]
      exact hg.calls
    · rw [hholders]
      exact hg.kept
    · rw [hclients]
      exact fun _ => id
  cases threadStep_moves hstep with
  | rests _ => exact ⟨hg,.inl rfl,fun _ => id⟩
  | takes hthread hqueue =>
    apply hkeep rfl rfl _ (.of_events rfl)
    · simp only [hqueue, hthread, LoopPhase.left, List.length_cons]
      omega
    · simp [held, hqueue, hthread, LoopPhase.hand, or_comm]
  | @flushes ev q o hthread _ hev hid =>
    have hsome := event_ok hev
    exact absurd (by rw [idOf, hsome]; exact hid) (hend ev hthread)
  | unpacks hthread _ =>
    apply hkeep rfl rfl _ (.of_events rfl)
    · simp [hthread, LoopPhase.left]
    · simp [held, hthread, LoopPhase.hand]
  | hands hthread =>
    apply hkeep rfl rfl _ (.of_events rfl)
    · simp [hthread, LoopPhase.left]
    · simp [held, hthread, LoopPhase.hand]
  | handled hthread =>
    apply hkeep rfl rfl _ (.of_events rfl)
    · simp [hthread, LoopPhase.left]
    · simp [held, hthread, LoopPhase.hand]
  | @releases ev done q hthread hrelease =>
    obtain ⟨hqueue,hids⟩ := release_ok hrelease
    apply hkeep rfl rfl _ hids
    · cases done <;> simp [hqueue, hthread, LoopPhase.left]
    · intro x hx
      have hx : x ∈ s.mQueue.mQueue := by
        cases done <;> simpa [held, hqueue, LoopPhase.hand] using hx
      exact List.mem_append_left _ hx
  | delivers hthread =>
    apply hkeep rfl rfl _ (.of_events rfl)
    · simp [hthread, LoopPhase.left]
    · simp [held, hthread, LoopPhase.hand]
  | locks hthread _ =>
    apply hkeep rfl rfl _ (.of_events rfl)
    · simp [hthread, LoopPhase.left]
    · simp [held, hthread, LoopPhase.hand]
  | @marks holder r hthread hr =>
    have hsub : ∀ ev ∈ s.mQueue.mQueue ++ LoopPhase.unlocking.hand, ev ∈ s.held := by
      simp +contextual [held, LoopPhase.hand]
    have hholder := holder_eq_ok hr
    refine ⟨⟨hs',horderly,hg.calls,hg.noShutdown.keep hsub (.of_events rfl),?_⟩,
      .inr (left_lt_of_thread (by simp [hthread, LoopPhase.left])),fun _ => id⟩
    intro h r₀ hr₀
    obtain ⟨r',hr',hreal⟩ := hg.kept h r₀ hr₀
    by_cases hh : h = holder
    · subst hh
      obtain rfl := Option.some.inj (hr'.symm.trans hholder)
      exact ⟨_,Function.update_self _ _ _,hreal⟩
    · exact ⟨r',(Function.update_of_ne hh _ _).trans hr',hreal⟩
  | unlocks hthread =>
    apply hkeep rfl rfl _ (.of_events rfl)
    · simp [hthread, LoopPhase.left]
    · simp [held, hthread, LoopPhase.hand]
  | wakes hthread =>
    have hback (t : T) (ht : wake s.clients t ≠ none) : s.clients t ≠ none :=
      fun hnone => ht (by simp only [wake, hnone, Option.map_none])
    refine ⟨⟨hs',horderly,fun t ht => hg.calls t (hback t ht),?_,hg.kept⟩,
      .inr (left_lt_of_thread (by simp [hthread, LoopPhase.left])),hback⟩
    exact hg.noShutdown.keep (by simp [held, hthread, LoopPhase.hand]) (.of_events rfl)

/-- The dispatcher's thread rests only where its queue is empty, or another thread has the lock. -/
theorem threadStep_goes_on (hstep : s.threadStep = .ok s') (hrunning : s.thread.ending = false) :
    (s.thread = .polling ∧ s.mQueue.mQueue = []) ∨
      (∃ h, s.thread = .locking h ∧ s.mSyncLock ≠ none) ∨ s'.thread ≠ s.thread := by
  unfold EventDispatcher.threadStep at hstep
  cases hthread : s.thread with
  | polling =>
    rw [hthread] at hstep
    cases hqueue : s.mQueue.mQueue with
    | nil => exact .inl ⟨rfl,rfl⟩
    | cons ev rest =>
      simp only [pollEvent, hqueue] at hstep
      rw [← Except.ok.inj hstep]
      exact .inr (.inr (by simp))
  | handling ev =>
    rw [hthread] at hstep
    refine .inr (.inr ?_)
    cases handleEvent_moves hthread hstep <;> simp_all [LoopPhase.hand]
  | locking h =>
    rw [hthread] at hstep
    by_cases hlock : s.mSyncLock = none
    · simp only [if_pos hlock] at hstep
      rw [← Except.ok.inj hstep]
      exact .inr (.inr (by simp))
    · exact .inr (.inl ⟨h,rfl,hlock⟩)
  | releasing ev done =>
    rw [hthread] at hstep hrunning
    obtain ⟨q,-,hstep⟩ := bind_eq_ok.mp hstep
    rw [← Except.ok.inj hstep]
    refine .inr (.inr ?_)
    rw [show done = false from hrunning]
    simp
  | marking h =>
    rw [hthread] at hstep
    obtain ⟨r,-,hstep⟩ := bind_eq_ok.mp hstep
    rw [← Except.ok.inj hstep]
    exact .inr (.inr (by simp))
  | stopped =>
    rw [hthread] at hrunning
    cases hrunning
  | _ =>
    rw [hthread] at hstep
    rw [← Except.ok.inj hstep]
    exact .inr (.inr (by simp))

variable [DecidableEq T]

theorem callLeft_update (p' : Option (ℕ × ClientPhase)) (t' : T)
    (hclients : s'.clients = Function.update s.clients t p') (hne : t' ≠ t) :
    s'.callLeft t' = s.callLeft t' := by
  unfold callLeft
  rw [hclients, Function.update_of_ne hne]

/-- A thread that gets on with its call has less of it left. -/
theorem Going.setClient (hg : s.Going l holders) {p p' : ClientPhase} {lock : Option (LockOwner T)}
    (hc : s.clients t = some (h,p)) (hs' : (s.setClient t h p' lock).Synced)
    (ho' : (s.setClient t h p' lock).Orderly) (hless : p'.left < p.left) :
    (s.setClient t h p' lock).Going l holders ∧ left l (s.setClient t h p' lock) < left l s ∧
      ∀ t', (s.setClient t h p' lock).clients t' ≠ none → s.clients t' ≠ none := by
  have hback (t' : T) (ht' : (s.setClient t h p' lock).clients t' ≠ none) : s.clients t' ≠ none := by
    by_cases heq : t' = t
    · rw [heq, hc]
      exact Option.some_ne_none _
    · rwa [show (s.setClient t h p' lock).clients t' = s.clients t' from
        Function.update_of_ne heq _ _] at ht'
  refine ⟨⟨hs',ho',fun t' ht' => hg.calls t' (hback t' ht'),?_,hg.kept⟩,?_,hback⟩
  · exact hg.noShutdown.keep (fun _ => id) (.of_events rfl)
  · have hin : t ∈ l := hg.calls t (by rw [hc]; exact Option.some_ne_none _)
    have hcall : (s.setClient t h p' lock).callLeft t < s.callLeft t := by
      simpa [callLeft, EventDispatcher.setClient, hc] using hless
    exact left_lt_of_client hin rfl rfl hcall fun t' hne => callLeft_update _ t' rfl hne

theorem Going.clientStep (hg : s.Going l holders) (t : T) :
    ∃ s', s.clientStep t = .ok s' ∧ s'.Going l holders ∧ (s' = s ∨ left l s' < left l s) ∧
      ∀ t', s'.clients t' ≠ none → s.clients t' ≠ none := by
  obtain ⟨s',hstep,hs'⟩ := hg.synced.clientStep t
  have ho' := hg.orderly.clientStep hg.synced t hstep
  refine ⟨s',hstep,?_⟩
  have hset {p p' : ClientPhase} {h : ℕ} {lock : Option (LockOwner T)}
      (hc : s.clients t = some (h,p)) (hless : p'.left < p.left)
      (hnext : s.setClient t h p' lock = s') :
      s'.Going l holders ∧ (s' = s ∨ left l s' < left l s) ∧
        ∀ t', s'.clients t' ≠ none → s.clients t' ≠ none := by
    subst hnext
    obtain ⟨hgoing,hlt,hback⟩ := hg.setClient hc hs' ho' hless
    exact ⟨hgoing,.inr hlt,hback⟩
  have hrests (hnext : s = s') : s'.Going l holders ∧ (s' = s ∨ left l s' < left l s) ∧
      ∀ t', s'.clients t' ≠ none → s.clients t' ≠ none := by
    subst hnext
    exact ⟨hg,.inl rfl,fun _ => id⟩
  have hlock {h : ℕ} {p : ClientPhase} (hc : s.clients t = some (h,p)) (hp : 4 < p.left)
      (hnext : (if s.mSyncLock = none then Except.ok (s.setClient t h .testing (some (.client t)))
        else .ok s : Exec (EventDispatcher T)) = .ok s') :
      s'.Going l holders ∧ (s' = s ∨ left l s' < left l s) ∧
        ∀ t', s'.clients t' ≠ none → s.clients t' ≠ none := by
    split at hnext
    · exact hset hc (show ClientPhase.testing.left < p.left from hp) (Except.ok.inj hnext)
    · exact hrests (Except.ok.inj hnext)
  unfold EventDispatcher.clientStep at hstep
  cases hc : s.clients t with
  | none =>
    rw [hc] at hstep
    exact hrests (Except.ok.inj hstep)
  | some c =>
    obtain ⟨h,p⟩ := c
    rw [hc] at hstep
    cases p with
    | sent => exact hlock hc (by decide) hstep
    | woken => exact hlock hc (by decide) hstep
    | testing =>
      obtain ⟨r,-,hstep⟩ := bind_eq_ok.mp hstep
      exact hset hc (by split <;> decide) (Except.ok.inj hstep)
    | unready => exact hset hc (by decide) (Except.ok.inj hstep)
    | waiting => exact hrests (Except.ok.inj hstep)
    | ready => exact hset hc (by decide) (Except.ok.inj hstep)
    | returning =>
      obtain ⟨o,ho,hstep⟩ := bind_eq_ok.mp hstep
      have hnext := Except.ok.inj hstep
      subst hnext
      have hback (t' : T) (ht' : Function.update s.clients t none t' ≠ none) : s.clients t' ≠ none := by
        by_cases heq : t' = t
        · rw [heq, Function.update_self] at ht'
          exact absurd rfl ht'
        · rwa [Function.update_of_ne heq] at ht'
      refine ⟨⟨hs',ho',fun t' ht' => hg.calls t' (hback t' ht'),?_,hg.kept⟩,.inr ?_,hback⟩
      · exact hg.noShutdown.keep (fun _ => id) (.update (event_ok ho) fun _ hnone => nomatch hnone)
      · have hin : t ∈ l := hg.calls t (by rw [hc]; exact Option.some_ne_none _)
        refine left_lt_of_client (s := s) hin ?_ ?_ ?_ ?_
        · rfl
        · rfl
        · simp [callLeft, hc, ClientPhase.left]
        · exact fun t' hne => callLeft_update _ t' rfl hne

theorem final_next {a : DispatcherAction T} (hidle : Final step a s) : s.next a = .ok s := by
  obtain ⟨o,hstep⟩ := hidle
  obtain ⟨s',hnext,hs'⟩ := bind_eq_ok.mp hstep
  obtain ⟨-,rfl⟩ := Prod.mk.inj (Except.ok.inj hs')
  exact hnext

/-- A thread inside of its call rests only where it waits, or where another one has the lock. -/
theorem clientStep_goes_on {p : ClientPhase} (hc : s.clients t = some (h,p))
    (hstep : s.clientStep t = .ok s) :
    p = .waiting ∨ (p.locks = false ∧ s.mSyncLock ≠ none) := by
  have hmoved {p' : ClientPhase} {lock : Option (LockOwner T)} (hne : p' ≠ p)
      (hnext : s.setClient t h p' lock = s) : False := by
    have hc' : (s.setClient t h p' lock).clients t = some (h,p') := Function.update_self _ _ _
    rw [hnext, hc] at hc'
    exact hne (Prod.mk.inj (Option.some.inj hc')).2.symm
  unfold EventDispatcher.clientStep at hstep
  rw [hc] at hstep
  cases p with
  | waiting => exact .inl rfl
  | testing =>
    obtain ⟨r,-,hstep⟩ := bind_eq_ok.mp hstep
    exact (hmoved (by split <;> decide) (Except.ok.inj hstep)).elim
  | unready => exact (hmoved (by decide) (Except.ok.inj hstep)).elim
  | ready => exact (hmoved (by decide) (Except.ok.inj hstep)).elim
  | returning =>
    obtain ⟨o,-,hstep⟩ := bind_eq_ok.mp hstep
    have hclients := congrArg EventDispatcher.clients (Except.ok.inj hstep)
    have hnone : s.clients t = none := by
      rw [← hclients]
      exact Function.update_self _ _ _
    cases hc.symm.trans hnone
  | _ =>
    refine .inr ⟨rfl,fun hlock => ?_⟩
    simp only [if_pos hlock] at hstep
    exact (hmoved (by decide) (Except.ok.inj hstep)).elim

/-- Until every call has returned somebody has something to do. The owner of the lock goes on, then
the dispatcher's thread as long as there are events, and then no thread waits. -/
theorem Going.goesOn (hg : s.Going l holders) (hcalls : ¬∀ t, s.clients t = none) :
    ∃ a, s.Needed a ∧ ¬Final step a s := by
  by_contra hnobody
  push Not at hnobody
  have hclient (t : T) (ht : s.clients t ≠ none) : s.clientStep t = .ok s :=
    final_next (hnobody (.client t) (.inr ⟨t,ht,rfl⟩))
  have hthread : s.threadStep = .ok s := final_next (hnobody .thread (.inl rfl))
  have hrests := threadStep_goes_on hthread hg.orderly.running
  have hlock : s.mSyncLock = none := by
    rcases hl : s.mSyncLock with - | (- | t)
    · rfl
    · have hlocks := hg.orderly.threadOwner hl
      rcases hrests with ⟨hpoll,-⟩ | ⟨h,hlocking,-⟩ | hmoved
      · rw [hpoll] at hlocks
        cases hlocks
      · rw [hlocking] at hlocks
        cases hlocks
      · exact absurd rfl hmoved
    · obtain ⟨h,p,hc,hp⟩ := hg.orderly.owner t hl
      have hne : s.clients t ≠ none := by
        rw [hc]
        exact Option.some_ne_none _
      rcases clientStep_goes_on hc (hclient t hne) with rfl | ⟨hno,-⟩
      · cases hp
      · rw [hp] at hno
        cases hno
  obtain ⟨hpolling,hempty⟩ : s.thread = .polling ∧ s.mQueue.mQueue = [] := by
    rcases hrests with hrests | ⟨h,-,hne⟩ | hmoved
    · exact hrests
    · exact absurd hlock hne
    · exact absurd rfl hmoved
  push Not at hcalls
  obtain ⟨t,ht⟩ := hcalls
  obtain ⟨⟨h,p⟩,hc⟩ := Option.ne_none_iff_exists'.mp ht
  obtain rfl | ⟨-,hne⟩ := clientStep_goes_on hc (hclient t ht)
  · -- nothing is left that could wake it, and it would not wait then
    obtain ⟨r,priority,hr,ho,hp⟩ := hg.synced.served t h _ hc
    rcases hp with ⟨-,hheld,-⟩ | ⟨-,hwaking⟩
    · simp [held, hempty, hpolling, LoopPhase.hand] at hheld
    · rw [hpolling] at hwaking
      cases hwaking
  · exact absurd hlock hne

/-- The threads that take their turns run down. -/
theorem runsDown (l : List T) (holders : ℕ → Option SyncEventHolder) :
    RunsDown step (Going l holders) (fun s => ∀ t, s.clients t = none) Turn Needed (left l) := by
  have hturn {s : EventDispatcher T} {a : DispatcherAction T} (hg : s.Going l holders) (ha : Turn a) :
      ∃ s', s.next a = .ok s' ∧ s'.Going l holders ∧ (s' = s ∨ left l s' < left l s) ∧
        ∀ t, s'.clients t ≠ none → s.clients t ≠ none := by
    obtain rfl | ⟨t,rfl⟩ := ha
    · exact hg.threadStep
    · exact hg.clientStep t
  have hback {s s' : EventDispatcher T} {a : DispatcherAction T} {o : Unit} (hg : s.Going l holders)
      (ha : Turn a) (hstep : s.step a = .ok (o,s')) (t : T) (ht : s'.clients t ≠ none) :
      s.clients t ≠ none := by
    obtain ⟨s₁,hnext,-,-,hback⟩ := hturn hg ha
    rw [step, hnext, ok_bind] at hstep
    obtain ⟨-,rfl⟩ := Prod.mk.inj (Except.ok.inj hstep)
    exact hback t ht
  constructor
  case smaller =>
    intro s a hg ha
    obtain ⟨s',hnext,hg',hless,-⟩ := hturn hg ha
    exact ⟨(),s',by rw [step, hnext, ok_bind],hg',hless⟩
  case stays =>
    intro s a o s' hg ha hstep hfinal t
    by_contra ht
    exact hback hg ha hstep t ht (hfinal t)
  case fewer =>
    intro s a o s' b hg ha hstep hb
    exact hb.imp id (Exists.imp fun t h => ⟨hback hg ha hstep t h.1,h.2⟩)
  case admits =>
    intro s a ha
    exact ha.imp id (Exists.imp fun t h => h.2)
  case goesOn =>
    exact fun s hg => hg.goesOn

end Turns

/-- However the threads take turns from here on, after finitely many rounds every call has returned,
those that have begun before as well, and its event was dispatched exactly once. -/
def Finishes [DecidableEq T] (s : EventDispatcher T) : Prop :=
  ∃ n, ∀ rounds : List (List (DispatcherAction T)), n ≤ rounds.length → (∀ r ∈ rounds, s.Round r) →
    ∃ os s', run step s rounds.flatten = .ok (os,s') ∧ (∀ t, s'.clients t = none) ∧
      ∀ h r, s.holders h = some r → h ∈ s'.returned ∧ s'.dispatched h = [r.mRealEvent]

variable [DecidableEq T]

theorem Going.finishes {s : EventDispatcher T} {l : List T} (hg : s.Going l s.holders) : s.Finishes := by
  refine ⟨left l s,fun rounds hlen hfair => ?_⟩
  obtain ⟨os,s',hrun,hg',hfinal⟩ := (runsDown l s.holders).rounds hg hlen hfair
  refine ⟨os,s',hrun,hfinal,fun h r hr => ?_⟩
  obtain ⟨r',hr',hreal⟩ := hg'.kept h r hr
  have hreturned : h ∈ s'.returned := by
    apply (hg'.synced.made h r' hr').resolve_right
    rintro ⟨t,p,hc⟩
    cases (hfinal t).symm.trans hc
  obtain ⟨r'',hr'',-,hdispatched⟩ := (hg'.synced.returned h hreturned).1
  obtain rfl := Option.some.inj (hr''.symm.trans hr')
  exact ⟨hreturned,by rw [hdispatched, hreal]⟩

/-- What a run without removals and shutdowns comes to. -/
theorem run_orderly {as : List (DispatcherAction T)} (h : Guarded step Undisturbed init as) {os : List Unit}
    {s : EventDispatcher T} (hrun : run step init as = .ok (os,s)) : s.Synced ∧ s.Orderly := by
  have hkeeps (s : EventDispatcher T) (a : DispatcherAction T) (o : Unit) (s' : EventDispatcher T)
      (h : s.Synced ∧ s.Orderly) (ha : Undisturbed s a) (hstep : step s a = .ok (o,s')) :
      s'.Synced ∧ s'.Orderly := by
    obtain ⟨o',s₁,hstep',hsynced,-⟩ := step_synced s a h.1
    obtain ⟨-,rfl⟩ := Prod.mk.inj (Except.ok.inj (hstep'.symm.trans hstep))
    exact ⟨hsynced ha.spares,h.2.step h.1 ha hstep⟩
  exact h.keeps hkeeps ⟨init_synced,init_orderly⟩ hrun

/-- Any number of threads send synchronously, in any order with each other and with the
dispatcher's thread, and nobody removes anything. No step faults, each call returns after its own
event was dispatched once, and when the threads go on, each of them does. -/
theorem sends_dispatchedOnce (as : List (DispatcherAction T)) (h : Guarded step Undisturbed init as) :
    Throughout step DispatchedOnce init as ∧
      ∀ os s, run step init as = .ok (os,s) → s.NoShutdown → s.Finishes := by
  refine ⟨dispatchedOnce_of_undisturbed as h,fun os s hrun hno => ?_⟩
  obtain ⟨hs,ho⟩ := run_orderly h hrun
  obtain ⟨l,hl⟩ := ho.finite
  exact Going.finishes ⟨hs,ho,hl,hno,fun h r hr => ⟨r,hr,rfl⟩⟩

/-- Two threads send, the second one an event that goes first, and the first one is woken for nothing.
The broadcast for the second one wakes both of them. -/
def twoSends : List (DispatcherAction Bool) :=
  [.create 1 ⟨5,0,1⟩,.sendEvent 1,.sendEventSync false 7 0 2,.client false,.client false,.client false,
    .sendEventSync true 8 5 3,.thread,.client true,.client true,.client true,.wakeup false,.thread,
    .client false,.thread,.client false,.client false,.thread,.thread,.thread,.thread]

/-- Both of them are at their tests when the broadcast is over, and each comes to its end. -/
theorem sends_dispatchedOnce_two : ∃ os s, run step (init : EventDispatcher Bool) twoSends = .ok (os,s) ∧
    s.clients false = some (2,.woken) ∧ s.clients true = some (3,.woken) ∧ s.dispatched 3 = [8] ∧
    s.dispatched 2 = [] ∧ Throughout step DispatchedOnce init twoSends ∧ s.Finishes := by
  have hguard : Guarded step Undisturbed init twoSends := guarded_of_meets (by decide +kernel)
  obtain ⟨honce,hfinishes⟩ := sends_dispatchedOnce twoSends hguard
  refine ⟨_,_,rfl,rfl,rfl,rfl,rfl,honce,hfinishes _ _ rfl ?_⟩
  decide +kernel

end EventDispatcher

end JhCommon
