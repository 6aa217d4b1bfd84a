import JhCommon.Exec
import JhCommon.Transition

/-! The owner that `Mutex.cpp` writes down beside a pthread mutex, and `Condition.cpp`, which does
not know about it. Threads are known by what `Thread::GetCurrent` returns for them, which is never
NULL and different for each. The file and the line of the last lock are for messages only. -/
namespace JhCommon
open Transition

/-- A mutex of pthreads: the thread that holds it, and how many times more than once. -/
structure PthreadMutex (Θ : Type) where
  recursive : Bool
  held : Option (Θ × ℕ)
  deriving DecidableEq

/-- The errors that a pthread function returns. -/
inductive PthreadError
  | EDEADLK
  | EPERM
  deriving DecidableEq

/-- Why a call does not come back: it waits for another thread, it runs a fatal log statement, or
nothing is said about what it does. -/
inductive MutexStop
  | blocked
  | fatal
  | undefined
  deriving DecidableEq

namespace PthreadMutex
variable {Θ : Type} [DecidableEq Θ]

def lock (m : PthreadMutex Θ) (t : Θ) : Except MutexStop (Option PthreadError × PthreadMutex Θ) :=
  match m.held with
  | none => .ok (none,{ m with held := some (t,0) })
  | some (u,n) =>
    if u ≠ t then .error .blocked
    else if m.recursive then .ok (none,{ m with held := some (t,n+1) })
    else .ok (some .EDEADLK,m)

def unlock (m : PthreadMutex Θ) (t : Θ) : Option PthreadError × PthreadMutex Θ :=
  match m.held with
  | none => (some .EPERM,m)
  | some (u,n) =>
    if u ≠ t then (some .EPERM,m)
    else match n with
      | 0 => (none,{ m with held := none })
      | n+1 => (none,{ m with held := some (t,n) })

/-- `pthread_cond_wait` up to the point where the mutex has been given back. -/
def condRelease (m : PthreadMutex Θ) (t : Θ) : Except MutexStop (PthreadMutex Θ) :=
  if m.held = some (t,0) then .ok { m with held := none } else .error .undefined

/-- `pthread_cond_wait` from where the thread has been woken up. -/
def condReacquire (m : PthreadMutex Θ) (t : Θ) : Except MutexStop (PthreadMutex Θ) :=
  match m.held with
  | none => .ok { m with held := some (t,0) }
  | some _ => .error .blocked

def holder (m : PthreadMutex Θ) : Option Θ := m.held.map Prod.fst

end PthreadMutex

structure Mutex (Θ : Type) where
  mMutex : PthreadMutex Θ
  mLockedBy : Option Θ
  deriving DecidableEq

namespace Mutex
variable {Θ : Type} [DecidableEq Θ]

def create (recursive : Bool) : Mutex Θ := ⟨⟨recursive,none⟩,none⟩

/-- `TraceLock` as the thread t calls it. -/
def traceLock (m : Mutex Θ) (t : Θ) : Except MutexStop (Mutex Θ) := do
  let (res,mMutex) ← m.mMutex.lock t
  -- the owner is written down before the result is looked at
  let m : Mutex Θ := ⟨mMutex,some t⟩
  match res with
  | some _ => .error .fatal
  | none => .ok m

/-- `TraceUnlock` as the thread t calls it. -/
def traceUnlock (m : Mutex Θ) (t : Θ) : Except MutexStop (Mutex Θ) :=
  let (res,mMutex) := m.mMutex.unlock t
  -- also by an unlock that leaves the mutex locked
  let m : Mutex Θ := ⟨mMutex,none⟩
  match res with
  | some _ => .error .fatal
  | none => .ok m

def isLocked (m : Mutex Θ) (t : Θ) : Bool := m.mLockedBy = some t

end Mutex

/-- A mutex with the threads that wait for a condition with it. -/
structure MutexThreads (Θ : Type) where
  mutex : Mutex Θ
  waiting : List Θ

/-- What a thread does: `Condition::Wait` gives the mutex back, and takes it again later. -/
inductive MutexAct (Θ : Type)
  | lock (t : Θ)
  | unlock (t : Θ)
  | waitRelease (t : Θ)
  | waitReacquire (t : Θ)

namespace MutexThreads
variable {Θ : Type} [DecidableEq Θ]

def start (recursive : Bool) : MutexThreads Θ := ⟨.create recursive,[]⟩

def step (s : MutexThreads Θ) : MutexAct Θ → Except MutexStop (Unit × MutexThreads Θ)
  | .lock t => do
    let mutex ← s.mutex.traceLock t
    .ok ((),{ s with mutex := mutex })
  | .unlock t => do
    let mutex ← s.mutex.traceUnlock t
    .ok ((),{ s with mutex := mutex })
  | .waitRelease t => do
    let mMutex ← s.mutex.mMutex.condRelease t
    -- mLockedBy stays as it is
    .ok ((),⟨{ s.mutex with mMutex := mMutex },t :: s.waiting⟩)
  | .waitReacquire t => do
    let mMutex ← s.mutex.mMutex.condReacquire t
    .ok ((),⟨{ s.mutex with mMutex := mMutex },s.waiting.erase t⟩)

/-- What can happen next where every thread unlocks what it has locked, locks again only a recursive
mutex, and waits with a mutex that it holds once: a thread that waits does nothing else, and nobody
takes a mutex that another one holds. -/
def Admits (s : MutexThreads Θ) : MutexAct Θ → Prop
  | .lock t => t ∉ s.waiting ∧ (s.mutex.mMutex.held = none ∨
      s.mutex.mMutex.recursive = true ∧ s.mutex.mMutex.holder = some t)
  | .unlock t => t ∉ s.waiting ∧ s.mutex.mMutex.holder = some t
  | .waitRelease t => t ∉ s.waiting ∧ s.mutex.mMutex.held = some (t,0)
  | .waitReacquire t => t ∈ s.waiting ∧ s.mutex.mMutex.held = none

/-- The mutex knows its holder, and tells it to nobody else. -/
structure Knows (s : MutexThreads Θ) : Prop where
  owner : s.mutex.mLockedBy = s.mutex.mMutex.holder
  isLocked : ∀ t, s.mutex.isLocked t = true ↔ s.mutex.mMutex.holder = some t

/-- A mutex is unlocked by a thread that holds it once, and nobody waits with it. -/
def Plain (s : MutexThreads Θ) : MutexAct Θ → Prop
  | .lock _ => True
  | .unlock t => s.mutex.mMutex.held = some (t,0)
  | .waitRelease _ | .waitReacquire _ => False

end MutexThreads

namespace PthreadMutex
variable {Θ : Type} [DecidableEq Θ] {m : PthreadMutex Θ} {t : Θ}

omit [DecidableEq Θ] in
theorem exists_held (h : m.holder = some t) : ∃ n, m.held = some (t,n) := by
  obtain ⟨⟨u,n⟩,hheld,rfl⟩ := Option.map_eq_some_iff.mp h
  exact ⟨n,hheld⟩

/-- A lock that does not have to wait, and that is not taken twice if it cannot be. -/
theorem lock_ok (h : m.held = none ∨ m.recursive = true ∧ m.holder = some t) :
    ∃ m', m.lock t = .ok (none,m') ∧ m'.holder = some t := by
  rcases h with hfree | ⟨hrec,hholder⟩
  · exact ⟨{ m with held := some (t,0) },by rw [lock, hfree],rfl⟩
  · obtain ⟨n,hheld⟩ := exists_held hholder
    refine ⟨{ m with held := some (t,n+1) },?_,rfl⟩
    rw [lock, hheld]
    simp [hrec]

theorem unlock_ok {n : ℕ} (h : m.held = some (t,n)) :
    ∃ m', m.unlock t = (none,m') ∧ (m'.holder = none ↔ n = 0) := by
  cases n with
  | zero => exact ⟨{ m with held := none },by rw [unlock, h]; simp,by simp [holder]⟩
  | succ n => exact ⟨{ m with held := some (t,n) },by rw [unlock, h]; simp,by simp [holder]⟩

end PthreadMutex

namespace MutexThreads
open PthreadMutex
variable {Θ : Type} [DecidableEq Θ] {s s' : MutexThreads Θ} {t : Θ} {a : MutexAct Θ}

/-- Who asks finds out, where the owner is the holder. -/
theorem Knows.of_owner (h : s.mutex.mLockedBy = s.mutex.mMutex.holder) : s.Knows := by
  refine ⟨h,?_⟩
  intro t
  rw [Mutex.isLocked, decide_eq_true_iff, h]

/-- After a lock the owner is the thread that holds the mutex. -/
theorem lock_knows (ha : s.Admits (.lock t)) : ∃ s', s.step (.lock t) = .ok ((),s') ∧ s'.Knows := by
  obtain ⟨m',hlock,hholder⟩ := lock_ok ha.2
  refine ⟨⟨⟨m',some t⟩,s.waiting⟩,?_,.of_owner hholder.symm⟩
  rw [step, Mutex.traceLock, hlock]
  rfl

/-- After an unlock there is no owner, and a holder if it was not the last one. -/
theorem unlock_knows {n : ℕ} (hheld : s.mutex.mMutex.held = some (t,n)) :
    ∃ s', s.step (.unlock t) = .ok ((),s') ∧ (s'.Knows ↔ n = 0) := by
  obtain ⟨m',hunlock,hlast⟩ := unlock_ok hheld
  refine ⟨⟨⟨m',none⟩,s.waiting⟩,?_,?_⟩
  · rw [step, Mutex.traceUnlock, hunlock]
    rfl
  · rw [← hlast]
    exact ⟨fun h => h.owner.symm,fun h => .of_owner h.symm⟩

/-- The owner is not told when a thread begins to wait, nor when it has the mutex again. -/
theorem wait_not_knows (hs : s.Knows) (ha : a = .waitRelease t ∨ a = .waitReacquire t) {o : Unit}
    (hstep : s.step a = .ok (o,s')) : ¬s'.Knows := by
  intro hs'
  rcases ha with rfl | rfl
  · obtain ⟨m',hrelease,hok⟩ := bind_eq_ok.mp hstep
    obtain ⟨-,rfl⟩ := Prod.mk.inj (Except.ok.inj hok)
    unfold condRelease at hrelease
    split at hrelease
    · rename_i hheld
      obtain rfl := Except.ok.inj hrelease
      -- the thread was the owner, and is still written down
      have howner : s.mutex.mLockedBy = some t := by rw [hs.owner, holder, hheld]; rfl
      have hnone : s.mutex.mLockedBy = none := hs'.owner
      exact absurd (howner.symm.trans hnone) (Option.some_ne_none t)
    · cases hrelease
  · obtain ⟨m',hacquire,hok⟩ := bind_eq_ok.mp hstep
    obtain ⟨-,rfl⟩ := Prod.mk.inj (Except.ok.inj hok)
    unfold condReacquire at hacquire
    split at hacquire
    · rename_i hheld
      obtain rfl := Except.ok.inj hacquire
      -- nobody was the owner, and nobody is written down yet
      have hnone : s.mutex.mLockedBy = none := by rw [hs.owner, holder, hheld]; rfl
      have howner : s.mutex.mLockedBy = some t := hs'.owner
      exact absurd (howner.symm.trans hnone) (Option.some_ne_none t)
    · cases hacquire

/-- The mutex knows its holder in every state of the runs in which it is unlocked by threads that
hold it once and nobody waits with it, and not in any other. -/
theorem knows_iff_plain (recursive : Bool) (acts : List (MutexAct Θ))
    (ha : Guarded step Admits (start recursive) acts) :
    Throughout step Knows (start recursive : MutexThreads Θ) acts ↔
      Guarded step Plain (start recursive) acts := by
  apply throughout_iff_of_admitted Admits Plain (fun _ h => h) _ _ (.of_owner rfl) acts ha
  -- a plain action keeps what the mutex knows
  · intro s a hs hadmits hplain
    cases a with
    | lock t =>
      obtain ⟨s',hstep,hs'⟩ := lock_knows hadmits
      exact ⟨(),s',hstep,hs'⟩
    | unlock t =>
      obtain ⟨s',hstep,hs'⟩ := unlock_knows hplain
      exact ⟨(),s',hstep,hs'.mpr rfl⟩
    | waitRelease t => exact absurd hplain id
    | waitReacquire t => exact absurd hplain id
  -- and one after which the mutex knows its holder was plain
  · intro s a o s' hs hadmits hstep hs'
    cases a with
    | lock t => trivial
    | unlock t =>
      obtain ⟨n,hheld⟩ := exists_held hadmits.2
      obtain ⟨s₁,hstep₁,hiff⟩ := unlock_knows hheld
      obtain ⟨-,rfl⟩ := Prod.mk.inj (Except.ok.inj (hstep₁.symm.trans hstep))
      rw [Plain, hheld, hiff.mp hs']
    | waitRelease t => exact absurd hs' (wait_not_knows hs (.inl rfl) hstep)
    | waitReacquire t => exact absurd hs' (wait_not_knows hs (.inr rfl) hstep)

/-- Two threads lock a mutex, one after the other. -/
theorem knows_iff_plain_two :
    Throughout step Knows (start false : MutexThreads ℕ) [.lock 1,.unlock 1,.lock 2] ↔
      Guarded step Plain (start false) [.lock 1,.unlock 1,.lock 2] := by
  apply knows_iff_plain
  exact .cons rfl ⟨by decide,.inl rfl⟩ (.cons rfl ⟨by decide,rfl⟩ (.cons rfl ⟨by decide,.inl rfl⟩ trivial))

/-- After a nested lock has been unlocked once the thread still holds the mutex, and the owner is
NULL; and while a thread waits, it is still the owner. -/
theorem nested_unlock_not_known :
    (Guarded step Admits (start true : MutexThreads ℕ) [.lock 1,.lock 1,.unlock 1] ∧
      ¬Throughout step Knows (start true : MutexThreads ℕ) [.lock 1,.lock 1,.unlock 1]) ∧
    (Guarded step Admits (start false : MutexThreads ℕ) [.lock 1,.waitRelease 1] ∧
      ¬Throughout step Knows (start false : MutexThreads ℕ) [.lock 1,.waitRelease 1]) := by
  refine ⟨⟨?_,?_⟩,?_,?_⟩
  · exact .cons rfl ⟨by decide,.inl rfl⟩ (.cons rfl ⟨by decide,.inr ⟨rfl,rfl⟩⟩
      (.cons rfl ⟨by decide,rfl⟩ trivial))
  · rintro ⟨-,_,_,hlock,-,_,_,hagain,-,_,_,hunlock,hknows⟩
    obtain ⟨-,rfl⟩ := Prod.mk.inj (Except.ok.inj hlock)
    obtain ⟨-,rfl⟩ := Prod.mk.inj (Except.ok.inj hagain)
    obtain ⟨-,rfl⟩ := Prod.mk.inj (Except.ok.inj hunlock)
    exact absurd hknows.owner (by decide)
  · exact .cons rfl ⟨by decide,.inl rfl⟩ (.cons rfl ⟨by decide,rfl⟩ trivial)
  · rintro ⟨-,_,_,hlock,-,_,_,hwait,hknows⟩
    obtain ⟨-,rfl⟩ := Prod.mk.inj (Except.ok.inj hlock)
    obtain ⟨-,rfl⟩ := Prod.mk.inj (Except.ok.inj hwait)
    exact absurd hknows.owner (by decide)

end MutexThreads

end JhCommon
