import JhCommon.SelectorLock

/-! When a call that changes the listeners returns, the selector's thread should have built its poll
set behind the change. The call waits for a broadcast, which comes in each round of the loop, and
does not look whether it is the one that it waits for. -/
namespace JhCommon.Selector
open Transition

variable {T : Type} {s s' : Selector T}

/-- Each call returned when the poll set had been built behind its change. -/
def Rebuilt (s : Selector T) : Prop := ∀ r ∈ s.returned, r.1 ≤ r.2

instance (s : Selector T) : Decidable s.Rebuilt := inferInstanceAs (Decidable (∀ r ∈ s.returned, _))

/-- The thread is in `mCondition.Wait`: it has let go of mLock, and has not got it back. -/
def Waits (s : Selector T) (t : T) : Prop := ∃ c ∈ s.callers t, c.2.holds = false

/-- The selector's thread is at its test of mUpdateFds, which is set, or in front of its loop, and can
have the lock for `fillPollFds`. -/
def Refills (s : Selector T) : SelectorAction T → Prop
  | .thread => .dispatcher ∉ s.writing ∧ s.mLock = none ∧
      (s.thread = .filling ∨ s.thread = .updating ∧ s.mUpdateFds = true)
  | _ => False

/-- A call that comes to its test of mRunning finds it set. -/
def FindsRunning (s : Selector T) : SelectorAction T → Prop
  | .caller t _ => .client t ∉ s.writing → ∀ c ∈ s.callers t, c.2 = .updating → s.mRunning = true
  | _ => True

/-- As long as the selector's thread has not refilled, t does not come out of its wait. -/
def RefillsFirst [DecidableEq T] (t : T) : Selector T → List (SelectorAction T) → Prop
  | _, [] => True
  | s, a :: as => s.Refills a ∨ ∀ o s', step s a = .ok (o,s') → s'.Waits t ∧ RefillsFirst t s' as

/-- Each call finds mRunning set, and from where it begins to wait the selector's thread comes to its
test, with mUpdateFds set, before the call has the lock back. -/
def InTime [DecidableEq T] : Selector T → List (SelectorAction T) → Prop
  | _, [] => True
  | s, a :: as => s.FindsRunning a ∧ ∀ o s', step s a = .ok (o,s') →
      (∀ t, s'.Waits t → s.Waits t ∨ RefillsFirst t s' as) ∧ InTime s' as

/-- The change behind which a call in this phase waits. -/
def changeOf (c : ℕ × CallPhase) : Option ℕ := if c.2.holds = true then none else some c.1

def waitsFor (s : Selector T) (t : T) : Option ℕ := (s.callers t).bind changeOf

theorem waits_iff_waitsFor {t : T} : s.Waits t ↔ ∃ n, s.waitsFor t = some n := by
  unfold Waits waitsFor changeOf
  cases s.callers t with
  | none => simp
  | some c => cases hc : c.2.holds <;> simp [hc]

/-- A call that has the lock has changed the list behind the last build. -/
structure Numbered (s : Selector T) : Prop where
  held : s.Held
  unbuilt : ∀ t c, s.callers t = some c → c.2.holds = true → s.built < c.1
  changed : ∀ t c, s.callers t = some c → c.1 ≤ s.changes
  built_le : s.built ≤ s.changes

theorem init_numbered : (init : Selector T).Numbered where
  held := init_held
  unbuilt := nofun
  changed := nofun
  built_le := le_rfl

/-- What concerns neither the calls nor the poll set. -/
structure Apart (s s' : Selector T) : Prop where
  returned : s'.returned = s.returned
  callers : s'.callers = s.callers
  built : s'.built = s.built
  changes : s.changes ≤ s'.changes

theorem Apart.refl (s : Selector T) : s.Apart s := ⟨rfl,rfl,rfl,le_rfl⟩

theorem scan_apart {i : ℕ} (h : s.scan i = .ok s') : s.Apart s' := by
  cases scan_moves h with
  | rests | ends _ | reads _ _ _ | passes _ | enters _ _ _ => exact ⟨rfl,rfl,rfl,le_rfl⟩

theorem callListeners_apart {i : ℕ} {result : Bool} {listener : Option ℕ}
    (h : s.callListeners i result listener = .ok s') : s.Apart s' := by
  cases callListeners_moves h with
  | ends | passes _ => exact ⟨rfl,rfl,rfl,le_rfl⟩
  | removes _ => exact ⟨rfl,rfl,rfl,Nat.le_succ _⟩

theorem takeEvent_apart (h : s.takeEvent = .ok s') : s.Apart s' := by
  cases takeEvent_moves h with
  | skips _ | misses _ _ | refreshes _ _ _ | hands _ _ => exact ⟨rfl,rfl,rfl,le_rfl⟩

theorem dispatch_apart (h : s.dispatch = .ok s') : s.Apart s' := by
  cases dispatch_moves h with
  | idles | stops | handles _ _ => exact ⟨rfl,rfl,rfl,le_rfl⟩

theorem poll_apart (s : Selector T) (revents : Option (ℕ → BitVec 16)) : s.Apart (s.poll revents) := by
  unfold poll
  split
  · split
    · exact ⟨rfl,rfl,rfl,le_rfl⟩
    · split <;> exact ⟨rfl,rfl,rfl,le_rfl⟩
  · exact .refl s


/-- Some of the numbers of a step that does not build the poll set. -/
theorem Numbered.keeps (hs : s.Numbered) (hheld : s'.Held) (hbuilt : s'.built = s.built)
    (hchanges : s.changes ≤ s'.changes)
    (hcallers : ∀ t c, s'.callers t = some c → (∃ p, s.callers t = some (c.1,p) ∧
      (c.2.holds = true → p.holds = true)) ∨ c.1 = s'.changes ∧ s.changes < s'.changes) :
    s'.Numbered where
  held := hheld
  unbuilt := by
    intro t c hc hholds
    rw [hbuilt]
    obtain ⟨p,hp,himp⟩ | ⟨hnew,hlt⟩ := hcallers t c hc
    · exact hs.unbuilt t (c.1,p) hp (himp hholds)
    · rw [hnew]
      exact hs.built_le.trans_lt hlt
  changed := by
    intro t c hc
    obtain ⟨p,hp,-⟩ | ⟨hnew,-⟩ := hcallers t c hc
    · exact (hs.changed t (c.1,p) hp).trans hchanges
    · exact hnew.le
  built_le := by
    rw [hbuilt]
    exact hs.built_le.trans hchanges

theorem Numbered.apart (hs : s.Numbered) (hheld : s'.Held) (h : s.Apart s') : s'.Numbered := by
  apply hs.keeps hheld h.built h.changes
  intro t c hc
  rw [h.callers] at hc
  exact .inl ⟨c.2,hc,id⟩

theorem Apart.waitsFor (h : s.Apart s') : s'.waitsFor = s.waitsFor := by
  unfold Selector.waitsFor
  rw [h.callers]

/-- With the lock free every call waits, so the poll set is built behind all of their changes. -/
theorem Numbered.fill (hs : s.Numbered) (hlock : s.mLock = none) (hheld : s'.Held)
    (hcallers : s'.callers = s.callers) (hbuilt : s'.built = s.changes)
    (hchanges : s'.changes = s.changes) : s'.Numbered where
  held := hheld
  unbuilt := by
    intro t c hc hholds
    rw [hcallers] at hc
    rw [hs.held.caller_free hlock hc] at hholds
    cases hholds
  changed := by
    intro t c hc
    rw [hcallers] at hc
    rw [hchanges]
    exact hs.changed t c hc
  built_le := by rw [hbuilt, hchanges]

theorem Numbered.waitsFor_le (hs : s.Numbered) {t : T} {n : ℕ} (hn : s.waitsFor t = some n) :
    n ≤ s.changes := by
  obtain ⟨c,hc,hn⟩ := Option.bind_eq_some_iff.mp hn
  unfold changeOf at hn
  split_ifs at hn
  rw [← Option.some.inj hn]
  exact hs.changed t c hc

/-- Who is woken by the broadcast still waits for the lock. -/
theorem waitsFor_wakeAll (thread : SelectorPhase) :
    { s with callers := wakeAll s.callers, thread := thread }.waitsFor = s.waitsFor := by
  funext t
  simp only [waitsFor, wakeAll]
  cases s.callers t with
  | none => rfl
  | some c =>
    simp only [Option.map_some, Option.bind_some]
    split
    · rename_i hwaiting
      simp [changeOf, hwaiting, CallPhase.holds]
    · rfl

/-- One return that comes too early. -/
theorem rebuilt_of_append {n : ℕ} (hreturned : s'.returned = s.returned ++ [(n,s.built)])
    (hlate : s.built < n) : ¬s'.Rebuilt := by
  intro hr
  have hle : n ≤ s.built := hr (n,s.built) (by rw [hreturned]; simp)
  omega

section
variable [DecidableEq T]

theorem waitsFor_update {t : T} {c : Option (ℕ × CallPhase)}
    (hcallers : s'.callers = Function.update s.callers t c) :
    s'.waitsFor = Function.update s.waitsFor t (c.bind changeOf) := by
  funext t'
  unfold waitsFor
  rw [hcallers]
  by_cases ht : t' = t
  · rw [ht, Function.update_self, Function.update_self]
  · rw [Function.update_of_ne ht, Function.update_of_ne ht]

/-- A call that goes on, and is in its wait afterwards exactly if it was before. -/
theorem waitsFor_same {t : T} {c : Option (ℕ × CallPhase)}
    (hcallers : s'.callers = Function.update s.callers t c) (hsame : c.bind changeOf = s.waitsFor t) :
    s'.waitsFor = s.waitsFor := by
  rw [waitsFor_update hcallers, hsame, Function.update_eq_self]

/-- What a step does to the calls: the poll set is built, or a call goes into its wait, or out of it,
or is over at once. -/
inductive CallSteps (s : Selector T) (a : SelectorAction T) (s' : Selector T) : Prop
  | quiet (hwaits : s'.waitsFor = s.waitsFor) (hbuilt : s'.built = s.built)
    (hreturned : s'.returned = s.returned) (hrefills : ¬s.Refills a) (hruns : s.FindsRunning a)
  | refills (h : s.Refills a) (hwaits : s'.waitsFor = s.waitsFor)
    (hbuilt : ∀ t n, s.waitsFor t = some n → n ≤ s'.built) (hreturned : s'.returned = s.returned)
    (hruns : s.FindsRunning a)
  | begins {t : T} {n : ℕ} (hout : s.waitsFor t = none)
    (hwaits : s'.waitsFor = Function.update s.waitsFor t (some n)) (hlate : s.built < n)
    (hbuilt : s'.built = s.built) (hreturned : s'.returned = s.returned) (hrefills : ¬s.Refills a)
    (hruns : s.FindsRunning a)
  | ends {t : T} {n : ℕ} (hin : s.waitsFor t = some n)
    (hwaits : s'.waitsFor = Function.update s.waitsFor t none) (hbuilt : s'.built = s.built)
    (hreturned : s'.returned = s.returned ++ [(n,s.built)]) (hrefills : ¬s.Refills a)
    (hruns : s.FindsRunning a)
  | gives {n : ℕ} (hlate : s.built < n) (hreturned : s'.returned = s.returned ++ [(n,s.built)])
    (hruns : ¬s.FindsRunning a)

/-- A step of the selector's thread builds the poll set where it refills, and only there. -/
theorem threadStep_calls (hs : s.Numbered) (h : s.threadStep = .ok s') :
    s.CallSteps .thread s' ∧ s'.Numbered := by
  have hheld := threadStep_held hs.held h
  have hquiet (happart : s.Apart s') (hno : ¬s.Refills .thread) :
      s.CallSteps .thread s' ∧ s'.Numbered :=
    ⟨.quiet happart.waitsFor happart.built happart.returned hno trivial,hs.apart hheld happart⟩
  have hother (hfilling : s.thread ≠ .filling) (hupdating : s.thread ≠ .updating) :
      ¬s.Refills .thread := by
    rintro ⟨-,-,hthread | ⟨hthread,-⟩⟩
    · exact hfilling hthread
    · exact hupdating hthread
  have hrefill (hwriting : .dispatcher ∉ s.writing)
      (hphase : s.thread = .filling ∨ s.thread = .updating ∧ s.mUpdateFds = true)
      (thread : SelectorPhase) (hfill : s.fill thread = s') :
      s.CallSteps .thread s' ∧ s'.Numbered := by
    by_cases hlock : s.mLock = none
    · rw [Selector.fill, if_pos hlock] at hfill
      subst hfill
      refine ⟨.refills ⟨hwriting,hlock,hphase⟩ rfl ?_ rfl trivial,hs.fill hlock hheld rfl rfl rfl⟩
      exact fun t n hn => hs.waitsFor_le hn
    · rw [Selector.fill, if_neg hlock] at hfill
      subst hfill
      exact hquiet (.refl s) fun hre => hlock hre.2.1
  unfold threadStep at h
  split at h
  · rename_i hwriting
    obtain rfl := Except.ok.inj h
    exact hquiet (.refl s) fun hre => hre.1 hwriting
  rename_i hwriting
  cases hthread : s.thread with
  | filling =>
    rw [hthread] at h
    exact hrefill hwriting (.inl hthread) _ (Except.ok.inj h)
  | updating =>
    rw [hthread] at h
    have h := Except.ok.inj h
    by_cases hupdate : s.mUpdateFds = true
    · rw [if_pos hupdate] at h
      exact hrefill hwriting (.inr ⟨hthread,hupdate⟩) _ h
    · rw [if_neg hupdate] at h
      subst h
      apply hquiet ⟨rfl,rfl,rfl,le_rfl⟩
      rintro ⟨-,-,hphase | ⟨-,hset⟩⟩
      · rw [hthread] at hphase
        cases hphase
      · exact hupdate hset
  | broadcasting =>
    rw [hthread] at h
    obtain rfl := Except.ok.inj h
    have hno : ¬s.Refills .thread := hother (by rw [hthread]; nofun) (by rw [hthread]; nofun)
    refine ⟨.quiet (waitsFor_wakeAll _) rfl rfl hno trivial,hs.keeps hheld rfl le_rfl ?_⟩
    intro t c hc
    obtain ⟨c₀,hc₀,hwoken⟩ := Option.map_eq_some_iff.mp hc
    split at hwoken
    · rw [← hwoken]
      exact .inl ⟨_,hc₀,nofun⟩
    · rw [← hwoken]
      exact .inl ⟨_,hc₀,id⟩
  | scanning i =>
    rw [hthread] at h
    exact hquiet (scan_apart h) (hother (by rw [hthread]; nofun) (by rw [hthread]; nofun))
  | calling i result listener =>
    rw [hthread] at h
    exact hquiet (callListeners_apart h) (hother (by rw [hthread]; nofun) (by rw [hthread]; nofun))
  | taking =>
    rw [hthread] at h
    exact hquiet (takeEvent_apart h) (hother (by rw [hthread]; nofun) (by rw [hthread]; nofun))
  | dispatching =>
    rw [hthread] at h
    exact hquiet (dispatch_apart h) (hother (by rw [hthread]; nofun) (by rw [hthread]; nofun))
  | looping | polling | listening _ _ _ | exited =>
    rw [hthread] at h
    obtain rfl := Except.ok.inj h
    exact hquiet ⟨rfl,rfl,rfl,le_rfl⟩ (hother (by rw [hthread]; nofun) (by rw [hthread]; nofun))

/-- A call goes on, or returns. -/
theorem Numbered.goes (hs : s.Numbered) (hheld : s'.Held) {t : T} {c' : Option (ℕ × CallPhase)}
    (hcallers : s'.callers = Function.update s.callers t c') (hbuilt : s'.built = s.built)
    (hchanges : s'.changes = s.changes)
    (hc' : ∀ c, c' = some c → ∃ p, s.callers t = some (c.1,p) ∧ (c.2.holds = true → p.holds = true)) :
    s'.Numbered := by
  apply hs.keeps hheld hbuilt hchanges.ge
  intro t' c hc
  rw [hcallers] at hc
  by_cases ht : t' = t
  · rw [ht, Function.update_self] at hc
    rw [ht]
    exact .inl (hc' c hc)
  · rw [Function.update_of_ne ht] at hc
    exact .inl ⟨c.2,hc,id⟩

theorem caller_calls {t : T} {ev : ℕ} (hs : s.Numbered) (h : s.caller t ev = .ok s') :
    s.CallSteps (.caller t ev) s' ∧ s'.Numbered := by
  have hheld := caller_held hs.held h
  have hrests (hsame : s = s') (hruns : s.FindsRunning (.caller t ev)) :
      s.CallSteps (.caller t ev) s' ∧ s'.Numbered := by
    subst hsame
    exact ⟨.quiet rfl rfl rfl id hruns,hs⟩
  -- the call goes on with the lock
  have hgoes {n : ℕ} {p p' : CallPhase} (hc : s.callers t = some (n,p)) (hp : p.holds = true)
      (hp' : p'.holds = true) (hcallers : s'.callers = Function.update s.callers t (some (n,p')))
      (hbuilt : s'.built = s.built) (hchanges : s'.changes = s.changes)
      (hreturned : s'.returned = s.returned) (hruns : s.FindsRunning (.caller t ev)) :
      s.CallSteps (.caller t ev) s' ∧ s'.Numbered := by
    refine ⟨.quiet (waitsFor_same hcallers ?_) hbuilt hreturned id hruns,
      hs.goes hheld hcallers hbuilt hchanges ?_⟩
    · simp [waitsFor, hc, changeOf, hp, hp']
    · rintro c ⟨⟩
      exact ⟨p,hc,fun _ => hp⟩
  unfold caller at h
  split at h
  · rename_i hwriting
    exact hrests (Except.ok.inj h) fun hfree => absurd hwriting hfree
  rename_i hfree
  have hruns (hno : ∀ n, s.callers t ≠ some (n,.updating)) : s.FindsRunning (.caller t ev) := by
    rintro - ⟨n,p⟩ hc rfl
    exact absurd hc (hno n)
  cases hc : s.callers t with
  | none =>
    rw [hc] at h
    exact hrests (Except.ok.inj h) (hruns (by simp [hc]))
  | some c =>
    obtain ⟨n,p⟩ := c
    rw [hc] at h
    cases p with
    | updating =>
      have h := Except.ok.inj h
      by_cases hrunning : s.mRunning = true
      · rw [if_pos hrunning] at h
        subst h
        exact hgoes hc rfl rfl rfl rfl rfl rfl fun _ _ _ _ => hrunning
      · rw [if_neg hrunning] at h
        subst h
        refine ⟨.gives (hs.unbuilt t _ hc rfl) rfl fun hall => hrunning (hall hfree _ hc rfl),?_⟩
        exact hs.goes hheld rfl rfl rfl (by simp)
    | sending =>
      have hother := hruns (by simp [hc])
      dsimp only at h
      split at h
      · obtain ⟨s₁,hpush,hs'⟩ := bind_eq_ok.mp h
        obtain rfl := Except.ok.inj hs'
        obtain ⟨d,w,rfl⟩ := push_eq hpush
        exact hgoes hc rfl rfl rfl rfl rfl rfl hother
      · exact hrests (Except.ok.inj h) hother
    | sent =>
      obtain rfl := Except.ok.inj h
      have hin : { s.setCaller t n .waiting with mLock := none }.waitsFor =
          Function.update s.waitsFor t (some n) := waitsFor_update (c := some (n,.waiting)) rfl
      refine ⟨.begins ?_ hin (hs.unbuilt t (n,.sent) hc rfl) rfl rfl id (hruns (by simp [hc])),
        hs.goes hheld rfl rfl rfl ?_⟩
      · simp [waitsFor, hc, changeOf, CallPhase.holds]
      · rintro c ⟨⟩
        exact ⟨.sent,hc,fun _ => rfl⟩
    | waiting => exact hrests (Except.ok.inj h) (hruns (by simp [hc]))
    | woken =>
      have hother := hruns (by simp [hc])
      have h := Except.ok.inj h
      by_cases hlock : s.mLock = none
      · rw [if_pos hlock] at h
        subst h
        have hout : (s.returns t n).waitsFor = Function.update s.waitsFor t none :=
          waitsFor_update (c := none) rfl
        refine ⟨.ends ?_ hout rfl rfl id hother,hs.goes hheld rfl rfl rfl (by simp)⟩
        simp [waitsFor, hc, changeOf, CallPhase.holds]
      · rw [if_neg hlock] at h
        exact hrests h hother

/-- The list has been changed by a thread that is in no call. -/
theorem changed_calls {a : SelectorAction T} {b : LockOwner T} (hs : s.Numbered) (hrefills : ¬s.Refills a)
    (hruns : s.FindsRunning a) (hfree : s.free b = true) {list : List (ℕ × ListenerNode)} {made : ℕ}
    (hheld : ({ s with mList := list, made := made }.changed b).Held) :
    s.CallSteps a ({ s with mList := list, made := made }.changed b) ∧
      ({ s with mList := list, made := made }.changed b).Numbered := by
  cases b with
  | dispatcher =>
    exact ⟨.quiet rfl rfl rfl hrefills hruns,hs.apart hheld ⟨rfl,rfl,rfl,Nat.le_succ _⟩⟩
  | client t =>
    have hnone : s.callers t = none := (of_decide_eq_true hfree).1
    refine ⟨.quiet (waitsFor_same rfl ?_) rfl rfl hrefills hruns,?_⟩
    · simp [waitsFor, hnone, changeOf, CallPhase.holds]
    · apply hs.keeps hheld rfl (Nat.le_succ _)
      intro t' c hc
      have hc : Function.update s.callers t (some (s.changes+1,.updating)) t' = some c := hc
      by_cases ht : t' = t
      · rw [ht, Function.update_self] at hc
        rw [← Option.some.inj hc]
        exact .inr ⟨rfl,Nat.lt_succ_self _⟩
      · rw [Function.update_of_ne ht] at hc
        exact .inl ⟨c.2,hc,id⟩

theorem next_calls {a : SelectorAction T} (hs : s.Numbered) (h : s.next a = .ok s') :
    s.CallSteps a s' ∧ s'.Numbered := by
  have hheld := next_held hs.held h
  have hquiet (happart : s.Apart s') (hno : ¬s.Refills a) (hruns : s.FindsRunning a) :
      s.CallSteps a s' ∧ s'.Numbered :=
    ⟨.quiet happart.waitsFor happart.built happart.returned hno hruns,hs.apart hheld happart⟩
  cases a with
  | create _ _ | sendEvent _ _ | sendEventSync _ _ _ _ | write _ | client _ | wakeupClient _
  | removeId _ | removeEvent _ | removeAll =>
    obtain ⟨d,p,w,rfl⟩ := next_of_queues rfl h
    exact hquiet ⟨rfl,rfl,rfl,le_rfl⟩ id trivial
  | addListener b node =>
    have hadd := Except.ok.inj h
    unfold addListener at hadd
    split at hadd
    · rename_i hfree
      subst hadd
      exact changed_calls (a := .addListener b node) hs id trivial hfree.1 hheld
    · subst hadd
      exact hquiet (.refl s) id trivial
  | removeListener b fd listener =>
    have hremove := Except.ok.inj h
    unfold removeListener at hremove
    split at hremove
    · rename_i hfree
      dsimp only at hremove
      split at hremove
      · subst hremove
        exact changed_calls (a := .removeListener b fd listener) hs id trivial hfree.1 hheld
      · subst hremove
        exact hquiet (.refl s) id trivial
    · subst hremove
      exact hquiet (.refl s) id trivial
  | caller t ev => exact caller_calls hs h
  | wakeup t =>
    have hwake := Except.ok.inj h
    unfold wakeup at hwake
    split at hwake
    · rename_i n hc
      subst hwake
      refine ⟨.quiet (waitsFor_same rfl ?_) rfl rfl id trivial,hs.goes hheld rfl rfl rfl ?_⟩
      · simp [waitsFor, hc, changeOf, CallPhase.holds]
      · rintro c ⟨⟩
        exact ⟨.waiting,hc,by simp [CallPhase.holds]⟩
    · subst hwake
      exact hquiet (.refl s) id trivial
  | poll revents =>
    obtain rfl := Except.ok.inj h
    exact hquiet (poll_apart s revents) id trivial
  | thread => exact threadStep_calls hs h

theorem CallSteps.returned {a : SelectorAction T} (h : s.CallSteps a s') :
    ∃ rs, s'.returned = s.returned ++ rs := by
  cases h with
  | quiet _ _ hreturned _ _ => exact ⟨[],by rw [hreturned, List.append_nil]⟩
  | refills _ _ _ hreturned _ => exact ⟨[],by rw [hreturned, List.append_nil]⟩
  | begins _ _ _ _ hreturned _ _ => exact ⟨[],by rw [hreturned, List.append_nil]⟩
  | ends _ _ _ hreturned _ _ => exact ⟨_,hreturned⟩
  | gives _ hreturned _ => exact ⟨_,hreturned⟩

theorem rebuilt_of_run {as : List (SelectorAction T)} {os : List Unit} (hs : s.Numbered)
    (hrun : run step s as = .ok (os,s')) (hr : s'.Rebuilt) : s.Rebuilt := by
  induction as generalizing s os with
  | nil =>
    obtain ⟨-,rfl⟩ := Prod.mk.inj (Except.ok.inj hrun)
    exact hr
  | cons a as ih =>
    obtain ⟨o,s₁,os₁,hstep,hrest,-⟩ := run_cons hrun
    obtain ⟨s₂,hnext,hs₂⟩ := bind_eq_ok.mp hstep
    obtain ⟨-,rfl⟩ := Prod.mk.inj (Except.ok.inj hs₂)
    obtain ⟨hcalls,hs'⟩ := next_calls hs hnext
    obtain ⟨rs,hreturned⟩ := hcalls.returned
    intro r hmem
    apply ih hs' hrest r
    rw [hreturned]
    exact List.mem_append_left rs hmem

/-- What is left of the run is in time, for the calls that are in their wait already too. -/
def Left (s : Selector T) (as : List (SelectorAction T)) : Prop :=
  s.InTime as ∧ ∀ t n, s.waitsFor t = some n → s.built < n → RefillsFirst t s as

/-- One step in front of a run. -/
theorem left_cons {a : SelectorAction T} {as : List (SelectorAction T)} {o : Unit}
    (hstep : step s a = .ok (o,s')) (hcalls : s.CallSteps a s') (hr : s'.Rebuilt) :
    s.Left (a :: as) ↔ s'.Left as := by
  have hnext {P : Selector T → Prop} : (∀ o s₁, step s a = .ok (o,s₁) → P s₁) ↔ P s' := by
    constructor
    · exact fun h => h o s' hstep
    · intro h o₁ s₁ hstep₁
      obtain ⟨-,rfl⟩ := Prod.mk.inj (Except.ok.inj (hstep.symm.trans hstep₁))
      exact h
  have hintime : s.InTime (a :: as) ↔ s.FindsRunning a ∧
      (∀ t, s'.Waits t → s.Waits t ∨ RefillsFirst t s' as) ∧ s'.InTime as := and_congr_right fun _ => hnext
  have hfirst (t : T) : RefillsFirst t s (a :: as) ↔ s.Refills a ∨ s'.Waits t ∧ RefillsFirst t s' as :=
    or_congr_right hnext
  unfold Left
  rw [hintime]
  simp only [hfirst]
  have hwaits (t : T) (n : ℕ) (hn : s.waitsFor t = some n) : s.Waits t := waits_iff_waitsFor.mpr ⟨n,hn⟩
  cases hcalls with
  | quiet hwaits' hbuilt _ hrefills hruns =>
    -- the same calls are in their wait
    have hsame (t : T) : s'.Waits t ↔ s.Waits t := by rw [waits_iff_waitsFor, waits_iff_waitsFor, hwaits']
    rw [hwaits', hbuilt]
    constructor
    · rintro ⟨⟨-,-,hrest⟩,hleft⟩
      exact ⟨hrest,fun t n hn hlt => ((hleft t n hn hlt).resolve_left hrefills).2⟩
    · rintro ⟨hrest,hleft⟩
      refine ⟨⟨hruns,fun t ht => .inl ((hsame t).mp ht),hrest⟩,fun t n hn hlt => .inr ⟨?_,hleft t n hn hlt⟩⟩
      exact (hsame t).mpr (hwaits t n hn)
  | refills h hwaits' hbuilt _ hruns =>
    -- nobody who waits is behind any more
    have hsame (t : T) : s'.Waits t ↔ s.Waits t := by rw [waits_iff_waitsFor, waits_iff_waitsFor, hwaits']
    rw [hwaits']
    constructor
    · rintro ⟨⟨-,-,hrest⟩,-⟩
      exact ⟨hrest,fun t n hn hlt => absurd (hbuilt t n hn) (Nat.not_le.mpr hlt)⟩
    · rintro ⟨hrest,-⟩
      exact ⟨⟨hruns,fun t ht => .inl ((hsame t).mp ht),hrest⟩,fun t n _ _ => .inl h⟩
  | @begins u m hout hwaits' hlate hbuilt _ hrefills hruns =>
    have hnew : s'.waitsFor u = some m := by rw [hwaits', Function.update_self]
    have hold (t : T) (ht : t ≠ u) : s'.waitsFor t = s.waitsFor t := by
      rw [hwaits', Function.update_of_ne ht]
    have hnot : ¬s.Waits u := by
      rw [waits_iff_waitsFor, hout]
      rintro ⟨n,⟨⟩⟩
    constructor
    · rintro ⟨⟨-,hbegun,hrest⟩,hleft⟩
      refine ⟨hrest,fun t n hn hlt => ?_⟩
      by_cases ht : t = u
      · subst ht
        exact (hbegun t (waits_iff_waitsFor.mpr ⟨m,hnew⟩)).resolve_left hnot
      · rw [hold t ht] at hn
        rw [hbuilt] at hlt
        exact ((hleft t n hn hlt).resolve_left hrefills).2
    · rintro ⟨hrest,hleft⟩
      refine ⟨⟨hruns,fun t ht => ?_,hrest⟩,fun t n hn hlt => ?_⟩
      · by_cases htu : t = u
        · subst htu
          exact .inr (hleft t m hnew (by rwa [hbuilt]))
        · rw [waits_iff_waitsFor, hold t htu, ← waits_iff_waitsFor] at ht
          exact .inl ht
      · have htu : t ≠ u := by
          rintro rfl
          cases hout.symm.trans hn
        have hn' : s'.waitsFor t = some n := (hold t htu).trans hn
        exact .inr ⟨waits_iff_waitsFor.mpr ⟨n,hn'⟩,hleft t n hn' (by rwa [hbuilt])⟩
  | @ends u m hin hwaits' hbuilt hreturned hrefills hruns =>
    -- who is back was not behind, as its return is in time
    have hle : m ≤ s.built := hr (m,s.built) (by rw [hreturned]; simp)
    have hgone : s'.waitsFor u = none := by rw [hwaits', Function.update_self]
    have hold (t : T) (ht : t ≠ u) : s'.waitsFor t = s.waitsFor t := by
      rw [hwaits', Function.update_of_ne ht]
    constructor
    · rintro ⟨⟨-,-,hrest⟩,hleft⟩
      refine ⟨hrest,fun t n hn hlt => ?_⟩
      have htu : t ≠ u := by
        rintro rfl
        cases hgone.symm.trans hn
      rw [hold t htu] at hn
      rw [hbuilt] at hlt
      exact ((hleft t n hn hlt).resolve_left hrefills).2
    · rintro ⟨hrest,hleft⟩
      refine ⟨⟨hruns,fun t ht => .inl ?_,hrest⟩,fun t n hn hlt => ?_⟩
      · by_cases htu : t = u
        · subst htu
          exact hwaits t m hin
        · rwa [waits_iff_waitsFor, hold t htu, ← waits_iff_waitsFor] at ht
      · have htu : t ≠ u := by
          rintro rfl
          obtain rfl := Option.some.inj (hin.symm.trans hn)
          omega
        have hn' : s'.waitsFor t = some n := (hold t htu).trans hn
        exact .inr ⟨waits_iff_waitsFor.mpr ⟨n,hn'⟩,hleft t n hn' (by rwa [hbuilt])⟩
  | gives hlate hreturned _ => exact absurd hr (rebuilt_of_append hreturned hlate)

/-- A step behind which a call has returned too early. -/
theorem not_left_cons {a : SelectorAction T} {as : List (SelectorAction T)} {o : Unit}
    (hstep : step s a = .ok (o,s')) (hcalls : s.CallSteps a s') (hs : s.Rebuilt) (hr : ¬s'.Rebuilt) :
    ¬s.Left (a :: as) := by
  have hkept (hreturned : s'.returned = s.returned) : False := hr (by rw [Rebuilt, hreturned]; exact hs)
  rintro ⟨⟨hruns,-⟩,hleft⟩
  cases hcalls with
  | quiet _ _ hreturned _ _ => exact hkept hreturned
  | refills _ _ _ hreturned _ => exact hkept hreturned
  | begins _ _ _ _ hreturned _ _ => exact hkept hreturned
  | @ends u m hin hwaits' _ hreturned hrefills _ =>
    by_cases hle : m ≤ s.built
    · -- the return is in time after all
      apply hr
      intro r hmem
      rw [hreturned] at hmem
      rcases List.mem_append.mp hmem with hmem | hmem
      · exact hs r hmem
      · rw [List.mem_singleton.mp hmem]
        exact hle
    · have hstays := (hleft u m hin (Nat.lt_of_not_le hle)).resolve_left hrefills
      obtain ⟨n,hn⟩ := waits_iff_waitsFor.mp (hstays o s' hstep).1
      rw [hwaits', Function.update_self] at hn
      cases hn
  | gives _ _ hno => exact hno hruns

theorem rebuilt_iff_left {as : List (SelectorAction T)} {os : List Unit} (hs : s.Numbered)
    (hr : s.Rebuilt) (hrun : run step s as = .ok (os,s')) : s'.Rebuilt ↔ s.Left as := by
  induction as generalizing s os with
  | nil =>
    obtain ⟨-,rfl⟩ := Prod.mk.inj (Except.ok.inj hrun)
    exact ⟨fun _ => ⟨trivial,fun _ _ _ _ => trivial⟩,fun _ => hr⟩
  | cons a as ih =>
    obtain ⟨o,s₁,os₁,hstep,hrest,-⟩ := run_cons hrun
    obtain ⟨s₂,hnext,hs₂⟩ := bind_eq_ok.mp hstep
    obtain ⟨-,rfl⟩ := Prod.mk.inj (Except.ok.inj hs₂)
    obtain ⟨hcalls,hs₂⟩ := next_calls hs hnext
    by_cases hr₂ : s₂.Rebuilt
    · rw [left_cons hstep hcalls hr₂]
      exact ih hs₂ hr₂ hrest
    · refine iff_of_false ?_ (not_left_cons hstep hcalls hr hr₂)
      exact fun hr' => hr₂ (rebuilt_of_run hs₂ hrest hr')

/-- Whatever the threads do, all calls have returned behind a poll set that was built with their
change exactly if the selector's thread came to its test in time for each of them. -/
theorem rebuilt_iff_inTime (as : List (SelectorAction T)) (os : List Unit)
    (hrun : run step init as = .ok (os,s)) : s.Rebuilt ↔ init.InTime as := by
  rw [rebuilt_iff_left init_numbered nofun hrun]
  constructor
  · exact fun h => h.1
  · exact fun h => ⟨h,nofun⟩

end

/-- A call to `addListener` or `removeListener`, up to where it waits. -/
def callAndWait {T : Type} (t : T) (call : SelectorAction T) (ev : ℕ) : List (SelectorAction T) :=
  [call,.caller t ev,.caller t ev,.write (.client t),.caller t ev]

/-- One thread adds a listener in front of poll, and is woken for nothing. While the selector's thread
takes its event another one removes the listener. Both return behind the next builds. -/
def wokenEarly : List (SelectorAction Bool) :=
  [.thread,.thread] ++ callAndWait true (.addListener (.client true) ⟨3,pollIn,some 1,0⟩) 9 ++
    [.wakeup true,.poll (some fun _ => 0)] ++ List.replicate 2 .thread ++
    callAndWait false (.removeListener (.client false) 3 none) 10 ++ List.replicate 3 .thread ++
    [.caller true 9] ++ [.caller false 10]

theorem rebuilt_iff_inTime_early : ∃ os s, run step init wokenEarly = .ok (os,s) ∧
    s.returned = [(1,2),(2,2)] ∧ init.InTime wokenEarly := by
  have hrun : run step init wokenEarly = .ok (_,_) := rfl
  exact ⟨_,_,hrun,rfl,(rebuilt_iff_inTime _ _ hrun).mp (by decide +kernel)⟩

/-- Poll has been interrupted, and the thread is about to broadcast when the call begins. -/
def addTooLate : List (SelectorAction Unit) :=
  [.thread,.thread,.poll none,.thread,.thread] ++
    callAndWait () (.addListener (.client ()) ⟨3,pollIn,some 1,0⟩) 9 ++ [.thread,.caller () 9]

theorem addTooLate_returns : ¬∀ (as : List (SelectorAction Unit)) (os : List Unit)
    (s : Selector Unit), run step init as = .ok (os,s) → s.Rebuilt := by
  intro h
  have hrun : run step init addTooLate = .ok (_,_) := rfl
  have hlate : (1 : ℕ) ≤ 0 := h addTooLate _ _ hrun (1,0) (by decide)
  omega

end JhCommon.Selector
