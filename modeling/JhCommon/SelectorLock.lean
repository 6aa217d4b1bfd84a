import JhCommon.Selector
import JhCommon.Transition

/-! Who holds the selector's lock, and which nodes its list has, in every state of a run. -/
namespace JhCommon
open Transition

/-- In `callListeners`, which holds mLock. -/
def SelectorPhase.calls : SelectorPhase → Bool
  | .calling _ _ _ | .listening _ _ _ => true
  | _ => false

/-- In `updateListeners` with mLock held: `Wait` lets go of it. -/
def CallPhase.holds : CallPhase → Bool
  | .updating | .sending | .sent => true
  | .waiting | .woken => false

namespace Selector
variable {T : Type} {s s' : Selector T}

/-- The lock is held where the phases say so, and each node of the list has been made once. -/
structure Held (s : Selector T) : Prop where
  thread : s.thread.calls = true → s.mLock = some .dispatcher
  caller : ∀ t c, s.callers t = some c → c.2.holds = true → s.mLock = some (.client t)
  nodup : (s.mList.map Prod.fst).Nodup
  made : ∀ x ∈ s.mList, x.1 < s.made

theorem init_held : (init : Selector T).Held where
  thread := by simp [init, SelectorPhase.calls]
  caller := by simp [init]
  nodup := List.nodup_nil
  made := by simp [init]

/-- What concerns the queue and the pipe alone. -/
structure Aside (s s' : Selector T) : Prop where
  mList : s'.mList = s.mList
  made : s'.made = s.made
  mLock : s'.mLock = s.mLock
  callers : s'.callers = s.callers
  fds : s'.fds = s.fds
  thread : s'.thread = s.thread

theorem Held.aside (hs : s.Held) (h : s.Aside s') : s'.Held where
  thread := by
    rw [h.thread, h.mLock]
    exact hs.thread
  caller := by
    rw [h.callers, h.mLock]
    exact hs.caller
  nodup := by
    rw [h.mList]
    exact hs.nodup
  made := by
    rw [h.mList, h.made]
    exact hs.made

/-- Who could have the lock is in no call that holds it. -/
theorem Held.caller_free (hs : s.Held) (hlock : s.mLock = none) {t : T} {c : ℕ × CallPhase}
    (hc : s.callers t = some c) : c.2.holds = false := by
  cases hholds : c.2.holds with
  | false => rfl
  | true =>
    have hlock' := hs.caller t c hc hholds
    rw [hlock] at hlock'
    cases hlock'

/-- With the lock free, the thread may take it for its calls, or not. -/
theorem Held.takes (hs : s.Held) (hlock : s.mLock = none) (hlist : s'.mList = s.mList)
    (hmade : s'.made = s.made) (hcallers : s'.callers = s.callers)
    (hthread : s'.thread.calls = true → s'.mLock = some .dispatcher) : s'.Held where
  thread := hthread
  caller := by
    intro t c hc hholds
    rw [hcallers] at hc
    rw [hs.caller_free hlock hc] at hholds
    cases hholds
  nodup := by
    rw [hlist]
    exact hs.nodup
  made := by
    rw [hlist, hmade]
    exact hs.made

/-- The thread goes on to where it is in no call. -/
theorem Held.moves (hs : s.Held) (hlist : s'.mList = s.mList) (hmade : s'.made = s.made)
    (hlock : s'.mLock = s.mLock) (hcallers : s'.callers = s.callers)
    (hthread : s'.thread.calls = false) : s'.Held where
  thread := by
    intro hcalls
    rw [hthread] at hcalls
    cases hcalls
  caller := by
    rw [hcallers, hlock]
    exact hs.caller
  nodup := by
    rw [hlist]
    exact hs.nodup
  made := by
    rw [hlist, hmade]
    exact hs.made

theorem Held.filter (hs : s.Held) (keep : ℕ × ListenerNode → Bool) :
    { s with mList := s.mList.filter keep }.Held where
  thread := hs.thread
  caller := hs.caller
  nodup := hs.nodup.sublist (List.filter_sublist.map _)
  made := fun x hx => hs.made x (List.mem_of_mem_filter hx)

theorem wakeAll_holds {callers : T → Option (ℕ × CallPhase)} {t : T} {c : ℕ × CallPhase}
    (hc : wakeAll callers t = some c) (hholds : c.2.holds = true) : callers t = some c := by
  unfold wakeAll at hc
  cases hcaller : callers t with
  | none =>
    rw [hcaller] at hc
    cases hc
  | some c' =>
    rw [hcaller, Option.map_some] at hc
    -- who is woken has no lock yet
    split at hc
    · rw [← Option.some.inj hc] at hholds
      cases hholds
    · exact hc

theorem poll_held (hs : s.Held) (revents : Option (ℕ → BitVec 16)) : (s.poll revents).Held := by
  unfold poll
  split
  · split
    · exact hs.moves rfl rfl rfl rfl rfl
    · split
      · exact hs.moves rfl rfl rfl rfl rfl
      · exact hs
  · exact hs

theorem fill_held (hs : s.Held) {thread : SelectorPhase} (hthread : thread.calls = false) :
    (s.fill thread).Held := by
  unfold fill
  split
  · exact hs.moves rfl rfl rfl rfl hthread
  · exact hs

theorem scan_held (hs : s.Held) {i : ℕ} (h : s.scan i = .ok s') : s'.Held := by
  cases scan_moves h with
  | rests => exact hs
  | ends _ | reads _ _ _ | passes _ => exact hs.moves rfl rfl rfl rfl rfl
  | enters _ _ hlock => exact hs.takes hlock rfl rfl rfl (fun _ => rfl)

/-- The list is left with the lock, and a node is taken out with it held. -/
theorem callListeners_held {i : ℕ} {result : Bool} {listener : Option ℕ} (hs : s.Held)
    (hthread : s.thread.calls = true) (h : s.callListeners i result listener = .ok s') :
    s'.Held := by
  have hlock := hs.thread hthread
  cases callListeners_moves h with
  | ends =>
    refine ⟨?_,?_,hs.nodup,hs.made⟩
    · intro hcalls
      cases hcalls
    · intro t c hc hholds
      rw [hs.caller t c hc hholds] at hlock
      cases hlock
  | passes _ => exact ⟨fun _ => hlock,hs.caller,hs.nodup,hs.made⟩
  | removes _ => exact ⟨fun _ => hlock,hs.caller,(hs.filter _).nodup,(hs.filter _).made⟩

theorem takeEvent_held (hs : s.Held) (h : s.takeEvent = .ok s') : s'.Held := by
  cases takeEvent_moves h with
  | skips _ | misses _ _ | refreshes _ _ _ | hands _ _ => exact hs.moves rfl rfl rfl rfl rfl

theorem dispatch_held (hs : s.Held) (hthread : s.thread.calls = false) (h : s.dispatch = .ok s') :
    s'.Held := by
  cases dispatch_moves h with
  | idles | stops => exact hs.moves rfl rfl rfl rfl rfl
  | handles _ _ => exact hs.moves rfl rfl rfl rfl hthread

section
variable [DecidableEq T]

theorem push_aside {a : LockOwner T} {ev : ℕ} (h : s.push a ev = .ok s') : s.Aside s' := by
  obtain ⟨d,w,rfl⟩ := push_eq h
  exact ⟨rfl,rfl,rfl,rfl,rfl,rfl⟩

theorem next_aside {a : SelectorAction T} (ha : queues a = true) (h : s.next a = .ok s') :
    s.Aside s' := by
  obtain ⟨d,p,w,rfl⟩ := next_of_queues ha h
  exact ⟨rfl,rfl,rfl,rfl,rfl,rfl⟩

/-- The list has been changed by a thread that could have the lock. -/
theorem changed_held (hs : s.Held) (a : LockOwner T) (hfree : s.free a = true)
    (hlocks : s.locks a = true) : (s.changed a).Held := by
  cases a with
  | dispatcher => exact ⟨hs.thread,hs.caller,hs.nodup,hs.made⟩
  | client t =>
    have hlock : s.mLock = none ∨ s.mLock = some (.client t) := of_decide_eq_true hlocks
    refine ⟨?_,?_,hs.nodup,hs.made⟩
    · intro hthread
      have hdispatcher := hs.thread hthread
      rw [hdispatcher] at hlock
      simp at hlock
    · intro t' c hc hholds
      -- the caller's own call begins; another one with the lock would exclude it
      simp only [changed] at hc ⊢
      by_cases ht : t' = t
      · rw [ht]
      · rw [Function.update_of_ne ht] at hc
        have hlock' := hs.caller t' c hc hholds
        rw [hlock'] at hlock
        simp [ht] at hlock

theorem addListener_held (hs : s.Held) (a : LockOwner T) (node : ListenerNode) :
    (s.addListener a node).Held := by
  unfold addListener
  split
  · rename_i h
    -- the node has the next number, which no other one has
    have hpushed : { s with mList := s.mList ++ [(s.made,node)], made := s.made+1 }.Held := by
      refine ⟨hs.thread,hs.caller,?_,?_⟩
      · rw [List.map_append, List.map_singleton]
        apply List.nodup_append.mpr
        refine ⟨hs.nodup,List.nodup_singleton _,?_⟩
        intro a ha b hb
        obtain ⟨x,hx,rfl⟩ := List.mem_map.mp ha
        rw [List.mem_singleton.mp hb]
        exact (hs.made x hx).ne
      · intro x hx
        rcases List.mem_append.mp hx with hx | hx
        · exact (hs.made x hx).trans (Nat.lt_succ_self _)
        · rw [List.mem_singleton.mp hx]
          exact Nat.lt_succ_self _
    exact changed_held hpushed a h.1 h.2
  · exact hs

theorem removeListener_held (hs : s.Held) (a : LockOwner T) (fd : ℤ) (listener : Option ℕ) :
    (s.removeListener a fd listener).Held := by
  unfold removeListener
  split
  · rename_i h
    dsimp only
    split
    · exact changed_held (hs.filter _) a h.1 h.2
    · exact hs
  · exact hs

/-- A thread in one of its calls goes on in it: with the lock it has, or to where it has none. -/
theorem Held.setCaller (hs : s.Held) {t : T} {c : ℕ × CallPhase} (hc : s.callers t = some c)
    (n : ℕ) {p : CallPhase} (hp : p.holds = true → c.2.holds = true) : (s.setCaller t n p).Held where
  thread := hs.thread
  caller := by
    intro t' c' hc' hholds
    simp only [Selector.setCaller] at hc' ⊢
    by_cases ht : t' = t
    · subst ht
      rw [Function.update_self] at hc'
      rw [← Option.some.inj hc'] at hholds
      exact hs.caller t' c hc (hp hholds)
    · rw [Function.update_of_ne ht] at hc'
      exact hs.caller t' c' hc' hholds
  nodup := hs.nodup
  made := hs.made

/-- It lets go of the lock, and it is the only one that had it. -/
theorem Held.unlock (hs : s.Held) {t : T} {c : Option (ℕ × CallPhase)}
    (hlock : s.mLock = none ∨ s.mLock = some (.client t)) (hc : ∀ c' ∈ c, c'.2.holds = false)
    (returned : List (ℕ × ℕ)) :
    { s with mLock := none, callers := Function.update s.callers t c, returned := returned }.Held := by
  refine ⟨?_,?_,hs.nodup,hs.made⟩
  · intro hthread
    rw [hs.thread hthread] at hlock
    simp at hlock
  · intro t' c' hc' hholds
    simp only at hc'
    by_cases ht : t' = t
    · rw [ht, Function.update_self] at hc'
      rw [hc c' hc'] at hholds
      cases hholds
    · rw [Function.update_of_ne ht] at hc'
      rw [hs.caller t' c' hc' hholds] at hlock
      simp [ht] at hlock

theorem caller_held (hs : s.Held) {t : T} {ev : ℕ} (h : s.caller t ev = .ok s') : s'.Held := by
  cases caller_moves h with
  | rests => exact hs
  | asks hc _ => exact hs.setCaller hc _ (fun _ => rfl)
  | skips hc _ => exact hs.unlock (.inr (hs.caller t _ hc rfl)) (by simp) _
  | sends hc _ hpush =>
    -- the event goes into the queue, which the lock has nothing to do with
    have haside := push_aside hpush
    have hc₁ := haside.callers ▸ hc
    exact Held.setCaller (hs.aside ⟨haside.mList,haside.made,haside.mLock,haside.callers,
      haside.fds,haside.thread⟩) hc₁ _ (fun _ => rfl)
  | waits hc => exact hs.unlock (.inr (hs.caller t _ hc rfl)) (by simp [CallPhase.holds]) _
  | ends _ hlock => exact hs.unlock (.inl hlock) (by simp) _

theorem wakeup_held (hs : s.Held) (t : T) : (s.wakeup t).Held := by
  unfold wakeup
  split
  · rename_i n hc
    exact hs.setCaller hc n (by simp [CallPhase.holds])
  · exact hs

theorem threadStep_held (hs : s.Held) (h : s.threadStep = .ok s') : s'.Held := by
  cases threadStep_moves h with
  | rests => exact hs
  | fills _ | refills _ => exact fill_held hs rfl
  | loops _ =>
    refine hs.moves rfl rfl rfl rfl ?_
    dsimp only
    split <;> rfl
  | scans _ hscan => exact scan_held hs hscan
  | calls hthread hcall => exact callListeners_held hs (by rw [hthread]; rfl) hcall
  | listens hthread => exact ⟨fun _ => hs.thread (by rw [hthread]; rfl),hs.caller,hs.nodup,hs.made⟩
  | takes _ htake => exact takeEvent_held hs htake
  | dispatches hthread hdispatch => exact dispatch_held hs (by rw [hthread]; rfl) hdispatch
  | keeps _ => exact hs.moves rfl rfl rfl rfl rfl
  | wakes _ =>
    refine ⟨?_,?_,hs.nodup,hs.made⟩
    · intro hcalls
      cases hcalls
    · intro t c hc hholds
      exact hs.caller t c (wakeAll_holds hc hholds) hholds

theorem next_held {a : SelectorAction T} (hs : s.Held) (h : s.next a = .ok s') : s'.Held := by
  cases a with
  | create _ _ | sendEvent _ _ | sendEventSync _ _ _ _ | write _ | client _ | wakeupClient _
  | removeId _ | removeEvent _ | removeAll => exact hs.aside (next_aside rfl h)
  | addListener a node =>
    rw [← Except.ok.inj h]
    exact addListener_held hs a node
  | removeListener a fd listener =>
    rw [← Except.ok.inj h]
    exact removeListener_held hs a fd listener
  | caller t ev => exact caller_held hs h
  | wakeup t =>
    rw [← Except.ok.inj h]
    exact wakeup_held hs t
  | poll revents =>
    rw [← Except.ok.inj h]
    exact poll_held hs revents
  | thread => exact threadStep_held hs h

/-- In every state of a run the lock is held by one thread at most, and where the phases say so. -/
theorem run_held {as : List (SelectorAction T)} {os : List Unit}
    (hrun : run step init as = .ok (os,s)) : s.Held := by
  -- on the run, one action of any thread after the other
  apply run_keeps _ init_held hrun
  intro s a o s' hs h
  obtain ⟨s₁,hnext,hs'⟩ := bind_eq_ok.mp h
  obtain ⟨-,rfl⟩ := Prod.mk.inj (Except.ok.inj hs')
  exact next_held hs hnext

end

end Selector

end JhCommon
