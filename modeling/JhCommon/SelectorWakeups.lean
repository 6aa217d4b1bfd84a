import JhCommon.EventQueueContents
import JhCommon.Selector
import JhCommon.TokenChannel
import JhCommon.Transition

/-! No event that is sent to a selector goes unnoticed: its pipe is a channel of tokens for the
events in its queue. -/
namespace JhCommon
open TokenChannel

namespace EventDispatcher
variable {T : Type} {d d' : EventDispatcher T}

theorem create_queue (d : EventDispatcher T) (ev : ℕ) (o : Event) :
    (d.create ev o).mQueue.mQueue = d.mQueue.mQueue := by
  unfold create
  split_ifs <;> rfl

theorem sendEventSync_queue [DecidableEq T] {t : T} {ev holder : ℕ} {priority : ℤ}
    (hclient : d.clients t = none) (hfree : d.Free holder)
    (h : d.sendEventSync t ev priority holder = .ok d') :
    d'.mQueue.mQueue.length = d.mQueue.mQueue.length+1 := by
  rw [sendEventSync, if_pos ⟨hclient,hfree⟩] at h
  obtain ⟨q,hsend,hd'⟩ := bind_eq_ok.mp h
  obtain rfl := Except.ok.inj hd'
  exact (EventQueue.sendEvent_ok hsend).1.length_eq

theorem clientStep_queue [DecidableEq T] {t : T} (h : d.clientStep t = .ok d') :
    d'.mQueue.mQueue = d.mQueue.mQueue := by
  unfold clientStep at h
  cases hclient : d.clients t with
  | none =>
    rw [hclient] at h
    rw [Except.ok.inj h]
  | some c =>
    obtain ⟨holder,phase⟩ := c
    rw [hclient] at h
    cases phase with
    | sent | woken =>
      -- the thread gets the lock, or it stays where it is
      dsimp only at h
      split_ifs at h <;> rw [← Except.ok.inj h]
      rfl
    | testing =>
      obtain ⟨r,-,hd'⟩ := bind_eq_ok.mp h
      rw [← Except.ok.inj hd']
      rfl
    | returning =>
      -- the holder ends, which was taken off the queue before
      obtain ⟨o,-,hd'⟩ := bind_eq_ok.mp h
      rw [← Except.ok.inj hd']
    | unready | ready =>
      rw [← Except.ok.inj h]
      rfl
    | waiting => rw [Except.ok.inj h]

theorem wakeup_queue [DecidableEq T] (d : EventDispatcher T) (t : T) : (d.wakeup t).mQueue = d.mQueue := by
  unfold wakeup
  split <;> rfl

/-- A step in `handleEvent` takes nothing off the queue but what a shutdown removes. -/
theorem threadStep_queue (hthread : d.thread ≠ .polling) (h : d.threadStep = .ok d') :
    d'.mQueue.mQueue.length ≤ d.mQueue.mQueue.length := by
  cases threadStep_moves h with
  | takes hpolling _ => exact absurd hpolling hthread
  | flushes _ hflush =>
    rw [(EventQueue.flush_ok hflush).1]
    exact Nat.zero_le _
  | releases _ hrelease => exact (congrArg List.length (EventQueue.release_ok hrelease).1).le
  | rests | unpacks | hands | handled | delivers | locks | marks | unlocks | wakes => exact le_rfl

end EventDispatcher

/-- The thread is behind the entry of the pipe, and has not yet acted on a token. -/
def SelectorPhase.behindPipe : SelectorPhase → Bool
  | .scanning i | .calling i _ _ | .listening i _ _ => decide (0 < i)
  | .taking => true
  | _ => false

/-- None of the entries behind the first one is for the pipe. -/
theorem narrowEvents_fd {listener : ListenerNode} {fds fds' : List PollFd}
    (h : narrowEvents listener fds = some fds') : fds'.map PollFd.fd = fds.map PollFd.fd := by
  induction fds generalizing fds' with
  | nil => cases h
  | cons p fds ih =>
    rw [narrowEvents] at h
    by_cases hfd : p.fd = some listener.mFd
    · rw [if_pos hfd] at h
      rw [← Option.some.inj h]
      rfl
    · rw [if_neg hfd] at h
      obtain ⟨rest,hrest,rfl⟩ := Option.map_eq_some_iff.mp h
      rw [List.map_cons, List.map_cons, ih hrest]

theorem fillPollFdsFrom_fd (list : List ListenerNode) {fds : List PollFd}
    (hfds : none ∉ fds.map PollFd.fd) : none ∉ (fillPollFdsFrom fds list).map PollFd.fd := by
  induction list generalizing fds with
  | nil => exact hfds
  | cons listener list ih =>
    rw [fillPollFdsFrom]
    cases hnarrow : narrowEvents listener fds with
    | some fds' =>
      apply ih
      rw [narrowEvents_fd hnarrow]
      exact hfds
    | none =>
      let p : PollFd := ⟨some listener.mFd,listener.mEvents,0⟩
      have hmore : none ∉ (fds ++ [p]).map PollFd.fd := by
        simpa [p] using hfds
      dsimp only
      split
      · exact hmore
      · exact ih hmore

namespace Selector
variable {T : Type} {s s' : Selector T}

/-- The events that are queued. -/
def queue (s : Selector T) : List ℕ := s.dispatcher.mQueue.mQueue

/-- The token that was read and is not yet acted on. -/
def inHand (s : Selector T) : ℕ := if s.gotEvent = true then 1 else 0

def counts (s : Selector T) : Counts :=
  { queued := s.queue.length, tokens := s.mPipe, inHand := s.inHand, unwritten := s.writing.card }

/-- Events and tokens, where only the first entry of fds is the pipe's. -/
structure Counted (s : Selector T) : Prop where
  covered : s.counts.Covered
  entries : none ∉ s.fds.tail.map PollFd.fd
  hand : s.gotEvent = true → s.thread.behindPipe = true

theorem init_counted : (init : Selector T).Counted where
  covered := le_rfl
  entries := by simp [init]
  hand := by simp [init]

/-- What only other threads do leaves the selector's own variables. -/
theorem Counted.move (hs : s.Counted) (hmoves : Moves s.counts s'.counts) (hfds : s'.fds = s.fds)
    (hgot : s'.gotEvent = s.gotEvent) (hthread : s'.thread = s.thread) : s'.Counted where
  covered := hmoves.covered hs.covered
  entries := by
    rw [hfds]
    exact hs.entries
  hand := by
    rw [hgot, hthread]
    exact hs.hand

theorem push_moves [DecidableEq T] {a : LockOwner T} {ev : ℕ} (ha : a ∉ s.writing)
    (h : s.push a ev = .ok s') :
    Moves s.counts s'.counts ∧ s'.fds = s.fds ∧ s'.gotEvent = s.gotEvent ∧ s'.thread = s.thread := by
  obtain ⟨q,hsend,hs'⟩ := bind_eq_ok.mp h
  obtain rfl := Except.ok.inj hs'
  refine ⟨?_,rfl,rfl,rfl⟩
  have hlen : q.mQueue.length = s.queue.length+1 := (EventQueue.sendEvent_ok hsend).1.length_eq
  -- the sender has not written for an event before
  have hcard := Finset.card_insert_of_notMem ha
  have hcounts : ({ s.setQueue q with writing := insert a s.writing } : Selector T).counts =
      ⟨s.queue.length+1,s.mPipe,s.inHand,s.writing.card+1⟩ := by
    rw [← hlen, ← hcard]
    rfl
  rw [hcounts]
  exact .push _ _ _ _

theorem notMem_writing_of_free [DecidableEq T] {a : LockOwner T} (h : s.free a = true) : a ∉ s.writing := by
  cases a with
  | dispatcher =>
    have hlistens : s.listens = true := h
    unfold listens at hlistens
    rw [Bool.and_eq_true] at hlistens
    simpa using hlistens.1
  | client t => exact (of_decide_eq_true h).2.2

theorem polled_fd (s : Selector T) (revents : ℕ → BitVec 16) :
    (s.polled revents).map PollFd.fd = s.fds.map PollFd.fd := by
  apply List.ext_getElem?
  intro i
  simp only [polled, List.getElem?_map, List.getElem?_mapIdx, Option.map_map]
  rfl

/-- A token in hand has been read at an entry that the thread is behind. -/
theorem Counted.behind (hs : s.Counted) {i : ℕ} (hthread : s.thread.behindPipe = decide (0 < i))
    (hgot : s.gotEvent = true) : 0 < i := by
  have hread := hs.hand hgot
  rw [hthread] at hread
  exact of_decide_eq_true hread

/-- The pipe has the first entry, and no other one. -/
theorem Counted.first (hs : s.Counted) {i : ℕ} {p : PollFd} (hp : s.fds[i]? = some p)
    (hpipe : p.fd = none) : i = 0 := by
  by_contra hne
  obtain ⟨j,rfl⟩ := Nat.exists_eq_succ_of_ne_zero hne
  apply hs.entries
  rw [List.mem_map]
  refine ⟨p,?_,hpipe⟩
  rw [List.mem_iff_getElem?]
  refine ⟨j,?_⟩
  rw [List.getElem?_tail]
  exact hp

/-- The loop over the entries reads at most one token. -/
theorem scan_counted {i : ℕ} (hthread : s.thread = .scanning i) (hs : s.Counted)
    (h : s.scan i = .ok s') : s'.Counted := by
  have hbehind : s.gotEvent = true → 0 < i := hs.behind (by rw [hthread]; rfl)
  cases scan_moves h with
  | rests => exact hs
  | ends _ => exact ⟨hs.covered,hs.entries,fun _ => rfl⟩
  | reads hentry hpipe htoken =>
    have hfirst : i = 0 := hs.first hentry hpipe
    -- at the first entry nothing has been read yet in this round
    have hgot : s.inHand = 0 := by
      rw [inHand, if_neg]
      intro hgot
      have := hbehind hgot
      omega
    obtain ⟨n,hn⟩ : ∃ n, s.mPipe = n+1 := Nat.exists_eq_succ_of_ne_zero htoken
    refine ⟨?_,hs.entries,fun _ => decide_eq_true (Nat.succ_pos i)⟩
    have hcounts : s.counts = ⟨s.queue.length,n+1,0,s.writing.card⟩ := by
      rw [counts, hn, hgot]
    have hmoves : Moves s.counts ⟨s.queue.length,n,1,s.writing.card⟩ := by
      rw [hcounts]
      exact .read _ _ _ _
    have hcovered := hmoves.covered hs.covered
    have hnext : s.mPipe-1 = n := by omega
    simpa only [counts, inHand, queue, hnext, if_true] using hcovered
  | passes _ => exact ⟨hs.covered,hs.entries,fun _ => decide_eq_true (Nat.succ_pos i)⟩
  | enters _ _ _ => exact ⟨hs.covered,hs.entries,fun hgot => decide_eq_true (hbehind hgot)⟩

theorem callListeners_counted {i : ℕ} {result : Bool} {listener : Option ℕ}
    (hthread : s.thread = .calling i result listener) (hs : s.Counted)
    (h : s.callListeners i result listener = .ok s') : s'.Counted := by
  have hbehind : s.gotEvent = true → 0 < i := hs.behind (by rw [hthread]; rfl)
  cases callListeners_moves h with
  | ends => exact ⟨hs.covered,hs.entries,fun _ => decide_eq_true (Nat.succ_pos i)⟩
  | passes hgoes | removes hgoes =>
    refine ⟨hs.covered,hs.entries,fun hgot => ?_⟩
    obtain rfl | rfl := hgoes <;> exact decide_eq_true (hbehind hgot)

/-- The event that a token stands for is taken, if it is still there. -/
theorem takeEvent_counted (hs : s.Counted) (h : s.takeEvent = .ok s') : s'.Counted := by
  -- the token goes with the event that it stands for, or with none
  have htaken (hgot : s.gotEvent = true) :
      (⟨s.queue.length-1,s.mPipe,0,s.writing.card⟩ : Counts).Covered := by
    have hcounts : s.counts = ⟨s.queue.length,s.mPipe,1,s.writing.card⟩ := by
      rw [counts, inHand, if_pos hgot]
    have hmoves : Moves s.counts ⟨s.queue.length-1,s.mPipe,0,s.writing.card⟩ := by
      rw [hcounts]
      exact .take _ _ _ _
    exact hmoves.covered hs.covered
  cases takeEvent_moves h with
  | skips hnot => exact ⟨hs.covered,hs.entries,fun hgot => absurd hgot hnot⟩
  | misses hgot hqueue =>
    have hcovered := htaken hgot
    rw [queue, hqueue] at hcovered
    refine ⟨?_,hs.entries,fun hfalse => absurd hfalse Bool.false_ne_true⟩
    simpa [counts, inHand, queue, hqueue] using hcovered
  | refreshes hgot hqueue hrelease =>
    have hcovered := htaken hgot
    rw [queue, hqueue] at hcovered
    have hleft := (EventQueue.release_ok hrelease).1
    refine ⟨?_,hs.entries,fun hfalse => absurd hfalse Bool.false_ne_true⟩
    simpa [counts, inHand, queue, setQueue, hleft] using hcovered
  | hands hgot hqueue =>
    have hcovered := htaken hgot
    rw [queue, hqueue] at hcovered
    refine ⟨?_,hs.entries,fun hfalse => absurd hfalse Bool.false_ne_true⟩
    simpa [counts, inHand, queue] using hcovered

theorem Counted.notGot (hs : s.Counted) (hthread : s.thread.behindPipe = false) :
    ¬s.gotEvent = true := by
  intro hgot
  rw [hs.hand hgot] at hthread
  cases hthread

/-- Where no token is in hand, the thread can go anywhere. -/
theorem Counted.goes (hs : s.Counted) (hthread : s.thread.behindPipe = false)
    (hqueue : s'.queue.length ≤ s.queue.length) (hpipe : s'.mPipe = s.mPipe)
    (hwriting : s'.writing = s.writing) (hfds : none ∉ s'.fds.tail.map PollFd.fd)
    (hgot : s'.gotEvent = s.gotEvent) : s'.Counted := by
  have hnot := hs.notGot hthread
  refine ⟨?_,hfds,fun hyes => absurd (hgot ▸ hyes) hnot⟩
  -- with the hand empty, less in the queue needs no more tokens
  have hmoves : Moves s.counts s'.counts := by
    have hcounts : s'.counts = ⟨s'.queue.length,s.mPipe,s.inHand,s.writing.card⟩ := by
      rw [counts, inHand, hpipe, hwriting, hgot, ← inHand]
    rw [hcounts]
    exact .remove _ _ _ hqueue
  exact hmoves.covered hs.covered

theorem dispatch_counted [DecidableEq T] (hthread : s.thread = .dispatching) (hs : s.Counted)
    (h : s.dispatch = .ok s') : s'.Counted := by
  have hidle : s.thread.behindPipe = false := by
    rw [hthread]
    rfl
  cases dispatch_moves h with
  | idles | stops => exact hs.goes hidle le_rfl rfl rfl hs.entries rfl
  | handles hpolling hstep =>
    exact hs.goes hidle (EventDispatcher.threadStep_queue hpolling hstep) rfl rfl hs.entries rfl

theorem fill_counted (thread : SelectorPhase) (hthread : s.thread.behindPipe = false)
    (hs : s.Counted) : (s.fill thread).Counted := by
  unfold fill
  split
  · have hentries : none ∉ (fillPollFds (s.mList.map Prod.snd)).tail.map PollFd.fd :=
      fillPollFdsFrom_fd _ (by simp)
    exact hs.goes hthread le_rfl rfl rfl hentries rfl
  · exact hs

theorem threadStep_counted [DecidableEq T] (hs : s.Counted) (h : s.threadStep = .ok s') :
    s'.Counted := by
  cases threadStep_moves h with
  | rests => exact hs
  | fills hthread | refills hthread => exact fill_counted _ (by rw [hthread]; rfl) hs
  | loops hthread | keeps hthread | wakes hthread =>
    exact hs.goes (by rw [hthread]; rfl) le_rfl rfl rfl hs.entries rfl
  | scans hthread hscan => exact scan_counted hthread hs hscan
  | calls hthread hcall => exact callListeners_counted hthread hs hcall
  | listens hthread =>
    refine ⟨hs.covered,hs.entries,fun hgot => ?_⟩
    have hread := hs.hand hgot
    rw [hthread] at hread
    exact hread
  | takes _ htake => exact takeEvent_counted hs htake
  | dispatches hthread hdispatch => exact dispatch_counted hthread hs hdispatch

theorem poll_counted (hs : s.Counted) (revents : Option (ℕ → BitVec 16)) :
    (s.poll revents).Counted := by
  unfold poll
  split
  · rename_i hthread
    have hidle : s.thread.behindPipe = false := by
      rw [hthread]
      rfl
    split
    · exact hs.goes hidle le_rfl rfl rfl hs.entries rfl
    · rename_i revents
      split
      · have hentries : none ∉ (s.polled revents).tail.map PollFd.fd := by
          rw [List.map_tail, polled_fd, ← List.map_tail]
          exact hs.entries
        exact hs.goes hidle le_rfl rfl rfl hentries rfl
      · exact hs
  · exact hs

/-- A change of the dispatcher that adds nothing to its queue. -/
theorem Counted.dispatcher (hs : s.Counted) {d : EventDispatcher T}
    (hqueue : d.mQueue.mQueue.length ≤ s.queue.length) : { s with dispatcher := d }.Counted :=
  hs.move (.remove _ _ _ hqueue) rfl rfl rfl

theorem remove_counted [DecidableEq T] {call : EventQueue → Exec EventQueue}
    (hcall : ∀ q, call s.dispatcher.mQueue = .ok q → q.mQueue.length ≤ s.queue.length) (hs : s.Counted)
    (h : s.remove call = .ok s') : s'.Counted := by
  unfold remove at h
  split at h
  · obtain ⟨q,hq,hs'⟩ := bind_eq_ok.mp h
    rw [← Except.ok.inj hs']
    exact hs.dispatcher (hcall q hq)
  · rwa [← Except.ok.inj h]

/-- What changes neither the queue, nor the pipe, nor the thread's own variables. -/
theorem Counted.frame (hs : s.Counted) (hdispatcher : s'.dispatcher = s.dispatcher)
    (hpipe : s'.mPipe = s.mPipe) (hwriting : s'.writing = s.writing) (hfds : s'.fds = s.fds)
    (hgot : s'.gotEvent = s.gotEvent) (hthread : s'.thread = s.thread) : s'.Counted := by
  have hcounts : s'.counts = s.counts := by
    simp only [counts, queue, inHand, hdispatcher, hpipe, hwriting, hgot]
  apply hs.move _ hfds hgot hthread
  rw [hcounts]
  exact .stay _

theorem changed_counted [DecidableEq T] (hs : s.Counted) (a : LockOwner T) : (s.changed a).Counted := by
  cases a with
  | dispatcher => exact hs.frame rfl rfl rfl rfl rfl rfl
  | client t => exact hs.frame rfl rfl rfl rfl rfl rfl

section
variable [DecidableEq T]

theorem addListener_counted (hs : s.Counted) (a : LockOwner T) (node : ListenerNode) :
    (s.addListener a node).Counted := by
  unfold addListener
  split
  · apply changed_counted
    exact hs.frame rfl rfl rfl rfl rfl rfl
  · exact hs

theorem removeListener_counted (hs : s.Counted) (a : LockOwner T) (fd : ℤ) (listener : Option ℕ) :
    (s.removeListener a fd listener).Counted := by
  unfold removeListener
  split
  · dsimp only
    split
    · apply changed_counted
      exact hs.frame rfl rfl rfl rfl rfl rfl
    · exact hs
  · exact hs

theorem setCaller_counted (hs : s.Counted) (t : T) (n : ℕ) (p : CallPhase) :
    (s.setCaller t n p).Counted := hs.frame rfl rfl rfl rfl rfl rfl

theorem returns_counted (hs : s.Counted) (t : T) (n : ℕ) : (s.returns t n).Counted :=
  hs.frame rfl rfl rfl rfl rfl rfl

theorem push_counted {a : LockOwner T} {ev : ℕ} (hs : s.Counted) (ha : a ∉ s.writing)
    (h : s.push a ev = .ok s') : s'.Counted := by
  obtain ⟨hmoves,hfds,hgot,hthread⟩ := push_moves ha h
  exact hs.move hmoves hfds hgot hthread

theorem wakeThread_counted (hs : s.Counted) (a : LockOwner T) : (s.wakeThread a).Counted := by
  unfold wakeThread
  by_cases ha : a ∈ s.writing
  · rw [if_pos ha]
    have hcounts : s.counts = ⟨s.queue.length,s.mPipe,s.inHand,(s.writing.erase a).card+1⟩ := by
      rw [counts, Finset.card_erase_add_one ha]
    have hmoves : Moves s.counts ⟨s.queue.length,s.mPipe+1,s.inHand,(s.writing.erase a).card⟩ := by
      rw [hcounts]
      exact .write _ _ _ _
    exact hs.move hmoves rfl rfl rfl
  · rwa [if_neg ha]

theorem caller_counted {t : T} {ev : ℕ} (hs : s.Counted) (h : s.caller t ev = .ok s') :
    s'.Counted := by
  cases caller_moves h with
  | rests => exact hs
  | asks _ _ => exact setCaller_counted hs t _ _
  | skips _ _ | ends _ _ => exact returns_counted hs t _
  | sends _ hwriting hpush =>
    apply setCaller_counted
    have hmade := hs.dispatcher (d := { s.dispatcher with mQueue := { s.dispatcher.mQueue with
      events := Function.update s.dispatcher.mQueue.events ev (some {
        mEventId := kSelectorUpdateEventId, mPriority := priorityNormal, mRefCount := 0 }) } }) le_rfl
    exact push_counted hmade hwriting hpush
  | waits _ => exact hs.frame rfl rfl rfl rfl rfl rfl

theorem sendEventSync_counted {t : T} {ev holder : ℕ} {priority : ℤ} (hs : s.Counted)
    (h : s.sendEventSync t ev priority holder = .ok s') : s'.Counted := by
  unfold sendEventSync at h
  by_cases hfree : s.free (.client t) = true ∧ s.dispatcher.Free holder
  · rw [if_pos hfree] at h
    obtain ⟨d,hsend,hs'⟩ := bind_eq_ok.mp h
    obtain ⟨-,hclient,hwriting⟩ := of_decide_eq_true hfree.1
    have hlen := EventDispatcher.sendEventSync_queue hclient hfree.2 hsend
    have hcard := Finset.card_insert_of_notMem hwriting
    have hmoves : Moves s.counts ⟨d.mQueue.mQueue.length,s.mPipe,s.inHand,
        (insert (.client t) s.writing).card⟩ := by
      rw [hlen, hcard]
      exact .push _ _ _ _
    rw [← Except.ok.inj hs']
    exact hs.move hmoves rfl rfl rfl
  · rw [if_neg hfree] at h
    rwa [← Except.ok.inj h]

theorem next_counted {a : SelectorAction T} (hs : s.Counted) (h : s.next a = .ok s') :
    s'.Counted := by
  cases a with
  | create ev o =>
    rw [← Except.ok.inj h]
    apply hs.dispatcher
    rw [EventDispatcher.create_queue]
    exact le_rfl
  | sendEvent a ev =>
    have hsend : s.sendEvent a ev = .ok s' := h
    unfold sendEvent at hsend
    split at hsend
    · rename_i hfree
      exact push_counted hs (notMem_writing_of_free hfree) hsend
    · rwa [← Except.ok.inj hsend]
  | sendEventSync t ev priority holder => exact sendEventSync_counted hs h
  | write a =>
    rw [← Except.ok.inj h]
    exact wakeThread_counted hs a
  | client t =>
    have hclient : s.client t = .ok s' := h
    unfold client at hclient
    split at hclient
    · rwa [← Except.ok.inj hclient]
    · obtain ⟨d,hstep,hs'⟩ := bind_eq_ok.mp hclient
      rw [← Except.ok.inj hs']
      apply hs.dispatcher
      rw [EventDispatcher.clientStep_queue hstep]
      exact le_rfl
  | wakeupClient t =>
    rw [← Except.ok.inj h]
    apply hs.dispatcher
    rw [EventDispatcher.wakeup_queue]
    exact le_rfl
  | removeId id =>
    have hremove : s.remove (·.removeId id) = .ok s' := h
    apply remove_counted _ hs hremove
    intro q hq
    exact (EventQueue.removeId_ok hq).1.length_le
  | removeEvent ev =>
    have hremove : s.remove (·.removeEvent ev) = .ok s' := h
    apply remove_counted _ hs hremove
    intro q hq
    exact (EventQueue.removeEvent_ok hq).1.length_le
  | removeAll =>
    have hremove : s.remove EventQueue.flush = .ok s' := h
    apply remove_counted _ hs hremove
    intro q hq
    rw [(EventQueue.flush_ok hq).1]
    exact Nat.zero_le _
  | addListener a node =>
    rw [← Except.ok.inj h]
    exact addListener_counted hs a node
  | removeListener a fd listener =>
    rw [← Except.ok.inj h]
    exact removeListener_counted hs a fd listener
  | caller t ev => exact caller_counted hs h
  | wakeup t =>
    rw [← Except.ok.inj h]
    unfold wakeup
    split
    · exact setCaller_counted hs t _ _
    · exact hs
  | poll revents =>
    rw [← Except.ok.inj h]
    exact poll_counted hs revents
  | thread => exact threadStep_counted hs h

theorem run_counted {as : List (SelectorAction T)} {os : List Unit}
    (hrun : Transition.run step init as = .ok (os,s)) : s.Counted := by
  -- on the run, one action of any thread after the other
  apply Transition.run_keeps _ init_counted hrun
  intro s a o s' hs h
  obtain ⟨s₁,hnext,hs'⟩ := bind_eq_ok.mp h
  obtain ⟨-,rfl⟩ := Prod.mk.inj (Except.ok.inj hs')
  exact next_counted hs hnext

/-- In every state that the threads come to, there is a token for each queued event: in the pipe, in
the hand of the selector's thread, or still to be written. So the thread does not wait in poll while
an event is queued. -/
theorem wakeups_kept {as : List (SelectorAction T)} {os : List Unit}
    (hrun : Transition.run step init as = .ok (os,s)) :
    s.queue.length ≤ s.mPipe+s.inHand+s.writing.card ∧
      (s.thread = .polling → s.mPipe = 0 → s.writing = ∅ → s.queue = []) := by
  have hs := run_counted hrun
  refine ⟨hs.covered,fun hthread hpipe hwriting => ?_⟩
  -- in poll the thread has no token in hand
  have hidle := hs.notGot (by rw [hthread]; rfl)
  apply List.eq_nil_of_length_eq_zero
  apply hs.covered.empty hpipe
  · exact if_neg hidle
  · exact Finset.card_eq_zero.mpr hwriting

end

/-- An event is sent and its token read, while another one is pushed and not yet written for. -/
def sendTwo : List (SelectorAction Bool) :=
  [.create 1 ⟨5,0,0⟩,.create 2 ⟨6,0,0⟩,.thread,.thread,.sendEvent (.client true) 1,
    .write (.client true),.poll (some fun _ => 0),.thread,.sendEvent (.client false) 2]

theorem wakeups_kept_sendTwo : ∃ os, ∃ s : Selector Bool,
    Transition.run step init sendTwo = .ok (os,s) ∧ s.mPipe = 0 ∧ s.inHand = 1 ∧ s.queue = [1,2] ∧
      s.queue.length ≤ s.mPipe+s.inHand+s.writing.card := by
  have hrun : Transition.run step (init : Selector Bool) sendTwo = .ok (_,_) := rfl
  exact ⟨_,_,hrun,rfl,rfl,rfl,(wakeups_kept hrun).1⟩

end Selector

end JhCommon
