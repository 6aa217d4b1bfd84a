import JhCommon.EventQueue

/-! What the calls on an event queue leave in it, where they return. -/
namespace JhCommon.EventQueue

/-- The objects that are left were there, with the ids they have. -/
def IdsKept (q q' : EventQueue) : Prop :=
  ∀ ev o', q'.events ev = some o' → ∃ o, q.events ev = some o ∧ o.mEventId = o'.mEventId

variable {q q' q'' : EventQueue} {ev : ℕ} {id : ℤ}

theorem IdsKept.refl (q : EventQueue) : IdsKept q q := fun _ o h => ⟨o,h,rfl⟩

theorem IdsKept.trans (h : IdsKept q q') (h' : IdsKept q' q'') : IdsKept q q'' := by
  intro ev o'' ho''
  obtain ⟨o',ho',hid'⟩ := h' ev o'' ho''
  obtain ⟨o,ho,hid⟩ := h ev o' ho'
  exact ⟨o,ho,hid.trans hid'⟩

theorem IdsKept.of_events (h : q'.events = q.events) : IdsKept q q' := by
  intro ev o' ho'
  rw [h] at ho'
  exact ⟨o',ho',rfl⟩

/-- A change of one object that leaves its id. -/
theorem IdsKept.update {o : Event} (hev : q.events ev = some o) {left : Option Event}
    (hleft : ∀ o', left = some o' → o'.mEventId = o.mEventId) :
    IdsKept q { q with events := Function.update q.events ev left } := by
  intro x o' ho'
  have hx : Function.update q.events ev left x = some o' := ho'
  by_cases hne : x = ev
  · subst hne
    rw [Function.update_self] at hx
    exact ⟨o,hev,(hleft o' hx).symm⟩
  · rw [Function.update_of_ne hne] at hx
    exact ⟨o',hx,rfl⟩

theorem event_ok {o : Event} (h : q.event ev = .ok o) : q.events ev = some o := by
  unfold event at h
  split at h
  · cases h
  · rename_i o' ho'
    rw [ho', Except.ok.inj h]

theorem addRef_ok (h : q.addRef ev = .ok q') : q'.mQueue = q.mQueue ∧ IdsKept q q' := by
  obtain ⟨o,ho,hq'⟩ := bind_eq_ok.mp h
  split at hq'
  swap
  · cases hq'
  obtain rfl := Except.ok.inj hq'
  refine ⟨rfl,IdsKept.update (event_ok ho) ?_⟩
  intro o' ho'
  rw [← Option.some.inj ho']

theorem release_ok (h : q.release ev = .ok q') : q'.mQueue = q.mQueue ∧ IdsKept q q' := by
  obtain ⟨o,ho,hq'⟩ := bind_eq_ok.mp h
  obtain rfl := Except.ok.inj hq'
  refine ⟨rfl,IdsKept.update (event_ok ho) ?_⟩
  intro o' ho'
  by_cases hzero : o.mRefCount-1 = 0
  · rw [if_pos hzero] at ho'
    cases ho'
  · rw [if_neg hzero] at ho'
    rw [← Option.some.inj ho']

theorem insertEvent_ok {priority : ℤ} {queue queue' : List ℕ}
    (h : q.insertEvent ev priority queue = .ok queue') : queue'.Perm (ev :: queue) := by
  induction queue generalizing queue' with
  | nil =>
    obtain rfl := Except.ok.inj h
    exact .refl _
  | cons i rest ih =>
    obtain ⟨o,-,hrest⟩ := bind_eq_ok.mp h
    by_cases hlt : priority > o.mPriority
    · rw [if_pos hlt] at hrest
      obtain rfl := Except.ok.inj hrest
      exact .refl _
    · rw [if_neg hlt] at hrest
      obtain ⟨rest',hinsert,hqueue'⟩ := bind_eq_ok.mp hrest
      obtain rfl := Except.ok.inj hqueue'
      exact ((ih hinsert).cons i).trans (.swap ev i rest)

/-- An event that is sent is added to the queue. -/
theorem sendEvent_ok (h : q.sendEvent ev = .ok q') :
    q'.mQueue.Perm (ev :: q.mQueue) ∧ IdsKept q q' := by
  obtain ⟨q₁,hadd,hrest⟩ := bind_eq_ok.mp h
  obtain ⟨o,-,hsend⟩ := bind_eq_ok.mp hrest
  obtain ⟨hqueue,hkept⟩ := addRef_ok hadd
  by_cases hnormal : o.mPriority = priorityNormal
  · rw [if_pos hnormal] at hsend
    obtain rfl := Except.ok.inj hsend
    refine ⟨?_,hkept⟩
    rw [← hqueue]
    exact List.perm_append_singleton ev _
  · rw [if_neg hnormal] at hsend
    obtain ⟨queue,hinsert,hq'⟩ := bind_eq_ok.mp hsend
    obtain rfl := Except.ok.inj hq'
    refine ⟨?_,hkept⟩
    rw [← hqueue]
    exact insertEvent_ok hinsert

/-- Both removal loops leave a part of the queue, of which all was tested. The entries in front of
the iterator are kept. -/
theorem removeFrom_ok {test : EventQueue → ℕ → Exec Bool} {kept : ℕ → Prop}
    (htest : ∀ q' ev, IdsKept q q' → test q' ev = .ok false → kept ev) {fuel : ℕ} {q₀ : EventQueue}
    {passed rest : List ℕ} (hq₀ : IdsKept q q₀) (hqueue : q₀.mQueue = passed ++ rest)
    (hpassed : ∀ ev ∈ passed, kept ev) (h : removeFrom test fuel q₀ (passed.length+1) = .ok q') :
    q'.mQueue.Sublist q₀.mQueue ∧ IdsKept q₀ q' ∧ ∀ ev ∈ q'.mQueue, kept ev := by
  induction fuel generalizing q₀ passed rest with
  | zero => cases h
  | succ fuel ih =>
    rw [removeFrom] at h
    cases rest with
    | nil =>
      rw [List.append_nil] at hqueue
      rw [if_pos (by rw [hqueue])] at h
      obtain rfl := Except.ok.inj h
      rw [hqueue]
      exact ⟨.refl _,.refl q₀,hpassed⟩
    | cons ev rest =>
      have hget : q₀.mQueue[passed.length+1-1]? = some ev := by
        rw [hqueue, Nat.add_sub_cancel, List.getElem?_append_right le_rfl, Nat.sub_self]
        rfl
      rw [if_neg (by simp [hqueue]), hget] at h
      obtain ⟨b,hb,hloop⟩ := bind_eq_ok.mp h
      cases b with
      | true =>
        obtain ⟨q₁,hrelease,hrest⟩ := bind_eq_ok.mp hloop
        obtain ⟨hsame,hq₁⟩ := release_ok hrelease
        -- the entry goes, and the iterator stands at the one behind it
        have herase : q₁.mQueue.eraseIdx passed.length = passed ++ rest := by
          rw [hsame, hqueue, List.eraseIdx_append_of_length_le le_rfl, Nat.sub_self]
          rfl
        simp only [Nat.add_sub_cancel, herase] at hrest
        have hnext : IdsKept q₀ { q₁ with mQueue := passed ++ rest } := hq₁
        obtain ⟨hsub,hkept,hleft⟩ := ih (hq₀.trans hnext) rfl hpassed hrest
        refine ⟨?_,hnext.trans hkept,hleft⟩
        rw [hqueue]
        exact hsub.trans ((List.sublist_cons_self ev rest).append_left passed)
      | false =>
        have hpassed₁ : ∀ x ∈ passed ++ [ev], kept x := by
          intro x hx
          rcases List.mem_append.mp hx with hx | hx
          · exact hpassed x hx
          · rw [List.mem_singleton.mp hx]
            exact htest q₀ ev hq₀ hb
        have hqueue₁ : q₀.mQueue = passed ++ [ev] ++ rest := by
          rw [hqueue, List.append_assoc]
          rfl
        apply ih hq₀ hqueue₁ hpassed₁
        rw [List.length_append, List.length_singleton]
        exact hloop

/-- What is left had another id. -/
theorem removeId_ok (h : q.removeId id = .ok q') :
    q'.mQueue.Sublist q.mQueue ∧ IdsKept q q' ∧
      ∀ ev ∈ q'.mQueue, ∃ o, q.events ev = some o ∧ o.mEventId ≠ id := by
  have htest : ∀ (q' : EventQueue) ev, IdsKept q q' → (do
      let o ← q'.event ev
      .ok (decide (o.mEventId = id)) : Exec Bool) = .ok false →
      ∃ o, q.events ev = some o ∧ o.mEventId ≠ id := by
    intro q' ev hkept htest
    obtain ⟨o',ho',hfalse⟩ := bind_eq_ok.mp htest
    obtain ⟨o,ho,hid⟩ := hkept ev o' (event_ok ho')
    refine ⟨o,ho,?_⟩
    rw [hid]
    exact of_decide_eq_false (Except.ok.inj hfalse)
  exact removeFrom_ok htest (.refl q) (List.nil_append _).symm (by simp) h

theorem removeEvent_ok (h : q.removeEvent ev = .ok q') :
    q'.mQueue.Sublist q.mQueue ∧ IdsKept q q' ∧ ∀ i ∈ q'.mQueue, i ≠ ev := by
  have htest : ∀ (q' : EventQueue) i, IdsKept q q' → (.ok (decide (i = ev)) : Exec Bool) = .ok false →
      i ≠ ev := fun _ _ _ hfalse => of_decide_eq_false (Except.ok.inj hfalse)
  exact removeFrom_ok htest (.refl q) (List.nil_append _).symm (by simp) h

theorem flushFrom_ok {rest : List ℕ} (h : q.flushFrom rest = .ok q') :
    q'.mQueue = [] ∧ IdsKept q q' := by
  induction rest generalizing q with
  | nil =>
    obtain rfl := Except.ok.inj h
    exact ⟨rfl,.of_events rfl⟩
  | cons ev rest ih =>
    obtain ⟨q₁,hrelease,hrest⟩ := bind_eq_ok.mp h
    obtain ⟨hnil,hkept⟩ := ih hrest
    have hfirst : IdsKept q q₁ := (release_ok hrelease).2
    exact ⟨hnil,hfirst.trans hkept⟩

theorem flush_ok (h : q.flush = .ok q') : q'.mQueue = [] ∧ IdsKept q q' := flushFrom_ok h

end JhCommon.EventQueue
