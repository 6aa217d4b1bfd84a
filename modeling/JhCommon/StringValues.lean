import JhCommon.StringReturns
import JhCommon.Transition

/-! Value semantics of the shared strings: insert, erase and replace detach a shared Rep before
they write; assign, append, resize and `operator[]` write to it unless they need a larger one. -/
namespace JhCommon
open RingMemory Word32

namespace Strings

/-- The characters that a call takes from its argument, and how many. -/
def taken (h : Strings) (a : CharArg) : Exec (ℕ × List UInt8) := do
  let (s,n) ← h.resolve a
  let k ← s.lengthOf h.heap n
  let cs ← s.read h.heap k
  .ok (k,cs)

/-- A variable other than v holds the Rep of the argument, if it is a string. -/
def ArgElsewhere (h : Strings) (v : ℕ) : CharArg → Prop
  | .chars _ _ => True
  | .string w | .part w _ _ => ∃ u, u ≠ v ∧ h.heap.held u = h.heap.held w

def Explicit : CharArg → Prop
  | .chars _ _ | .string _ => True
  | .part _ _ n => n ≠ npos

/-- The call is on variables that are constructed (not constructed, for a constructor), its
characters can be read, its sizes fit an int, as does the number of holders of a Rep that it shares,
and its own characters are not moved away under it. -/
def Fits (h : Strings) : StringOp → Prop
  | .default v => v < h.heap.ptrs.length ∧ h.heap.held v = none
  | .fromChars v a => v < h.heap.ptrs.length ∧ h.heap.held v = none ∧
      ∃ k cs, h.taken a = .ok (k,cs) ∧ k+1 < 2^31
  | .copy v w => v < h.heap.ptrs.length ∧ h.heap.held v = none ∧ (∃ q, h.heap.get w = some q) ∧
      h.holders w < 2^31-1
  | .destroy v => ∃ p, h.heap.get v = some p
  | .assignString v w => (∃ p q, h.heap.get v = some p ∧ h.heap.get w = some q) ∧
      h.holders w < 2^31-1
  | .assignRange v w pos n => ∃ p q, h.heap.get v = some p ∧ h.heap.get w = some q ∧
      if pos = 0 ∧ q.mLength ≤ n then h.holders w < 2^31-1
      else ∃ k cs, h.taken (.part w pos n) = .ok (k,cs) ∧ k+1 < 2^31
  | .assignChars v a => ∃ p k cs, h.heap.get v = some p ∧ h.taken a = .ok (k,cs) ∧ k+1 < 2^31
  | .appendChars v a => ∃ p k cs, h.heap.get v = some p ∧ h.taken a = .ok (k,cs) ∧
      Room p (p.mLength+k+1) ∧ (h.ArgElsewhere v a ∨ p.mLength+k+1 ≤ p.mCapacity)
  | .appendFill v n _ => ∃ p, h.heap.get v = some p ∧ Room p (p.mLength+n+1)
  | .insertChars v pos1 a => ∃ p k cs, h.heap.get v = some p ∧ h.taken a = .ok (k,cs) ∧
      (p.mLength ≤ pos1 ∨ Room p (p.mLength+k+1) ∧
        (h.ArgElsewhere v a ∨ p.mLength+k+1 ≤ p.mCapacity))
  | .insertFill v pos1 n _ => ∃ p, h.heap.get v = some p ∧
      (p.mLength ≤ pos1 ∨ Room p (p.mLength+n+1))
  | .replaceChars v pos1 n1 a => ∃ p s n2 k cs, h.heap.get v = some p ∧ Explicit a ∧
      h.resolve a = .ok (s,n2) ∧ h.taken a = .ok (k,cs) ∧
      (p.mLength ≤ pos1 ∨ (n1 = npos ∨ pos1+n1 < 2^32) ∧ Room p (replacedLength p n1 n2) ∧
        newCapacity (newCapacity p.mCapacity (replacedLength p n1 n2))
          (Rep.erasedLength p.mLength pos1 n1+k+1) < 2^31 ∧
        (h.ArgElsewhere v a ∨ replacedLength p n1 n2 ≤ p.mCapacity ∧
          Rep.erasedLength p.mLength pos1 n1+k+1 ≤ p.mCapacity))
  | .replaceFill v pos1 n1 n2 _ => ∃ p, h.heap.get v = some p ∧
      (p.mLength ≤ pos1 ∨ (n1 = npos ∨ pos1+n1 < 2^32) ∧ Room p (replacedLength p n1 n2) ∧
        newCapacity (newCapacity p.mCapacity (replacedLength p n1 n2))
          (Rep.erasedLength p.mLength pos1 n1+n2+1) < 2^31)
  | .erase v pos n => ∃ p, h.heap.get v = some p ∧
      (p.mLength ≤ pos ∨ n = npos ∨ pos+n < 2^32)
  | .reserve v res => ∃ p, h.heap.get v = some p ∧ Room p res
  | .resize v n _ => ∃ p, h.heap.get v = some p ∧ Room p (n+1)
  | .setAt v _ _ => ∃ p, h.heap.get v = some p

/-- Nobody else holds the Rep of v, or it is as P says. -/
def UnlessShared (h : Strings) (v : ℕ) (P : Rep → Prop) : Prop :=
  h.heap.Alone v ∨ ∀ p, h.heap.get v = some p → P p

/-- An assign of these characters to a shared Rep takes a new one, or changes nothing. -/
def AssignSeparate (h : Strings) (v : ℕ) (a : CharArg) : Prop :=
  h.UnlessShared v fun p => ∀ k cs, h.taken a = .ok (k,cs) →
    p.mCapacity ≤ k ∨ p.view = (p.mCapacity,k,cs ++ [0])

/-- The call does not write to a Rep that another variable holds, unless it writes what is
there. -/
def Separate (h : Strings) : StringOp → Prop
  | .assignChars v a => h.AssignSeparate v a
  | .assignRange v w pos n => (pos = 0 ∧ ∀ q, h.heap.get w = some q → q.mLength ≤ n) ∨
      h.AssignSeparate v (.part w pos n)
  | .appendChars v a => h.UnlessShared v fun p => ∀ k cs, h.taken a = .ok (k,cs) →
      p.mCapacity < p.mLength+k+1 ∨ k = 0 ∧ p.mData p.mLength = 0
  | .appendFill v n _ => h.UnlessShared v fun p =>
      p.mCapacity < p.mLength+n+1 ∨ n = 0 ∧ p.mData p.mLength = 0
  | .resize v n _ => h.UnlessShared v fun p =>
      p.mCapacity < n+1 ∨ n = p.mLength ∧ p.mData p.mLength = 0
  | .setAt v i c => h.UnlessShared v fun p => p.mData (min i p.mLength) = c
  | .default _ | .fromChars _ _ | .copy _ _ | .destroy _ | .assignString _ _ | .insertChars _ _ _
  | .insertFill _ _ _ _ | .replaceChars _ _ _ _ | .replaceFill _ _ _ _ _ | .erase _ _ _
  | .reserve _ _ => True

variable {h h' : Strings} {v : ℕ}

/-- The three parts of taking characters. -/
theorem taken_eq_ok {a : CharArg} {k : ℕ} {cs : List UInt8} (ht : h.taken a = .ok (k,cs)) :
    ∃ s n, h.resolve a = .ok (s,n) ∧ s.lengthOf h.heap n = .ok k ∧ s.read h.heap k = .ok cs := by
  obtain ⟨⟨s,n⟩,hr,ht⟩ := bind_eq_ok.mp ht
  obtain ⟨k',hk,ht⟩ := bind_eq_ok.mp ht
  obtain ⟨cs',hcs,ht⟩ := bind_eq_ok.mp ht
  obtain ⟨rfl,rfl⟩ := Prod.mk.inj (Except.ok.inj ht)
  exact ⟨s,n,hr,hk,hcs⟩

theorem taken_eq {a : CharArg} {s : CharPtr} {n k : ℕ} {cs : List UInt8}
    (hr : h.resolve a = .ok (s,n)) (hk : s.lengthOf h.heap n = .ok k)
    (hcs : s.read h.heap k = .ok cs) : h.taken a = .ok (k,cs) := by
  simp only [taken, hr, hk, hcs, ok_bind]

/-- An argument elsewhere is a source that another variable holds. -/
theorem ArgElsewhere.source {a : CharArg} {s : CharPtr} {n : ℕ} (ha : h.ArgElsewhere v a)
    (hr : h.resolve a = .ok (s,n)) : HeldElsewhere s h v := by
  have hpart : ∀ w pos (m : RefCount Rep → ℕ), (h.rep w >>= fun rc =>
      Except.ok (CharPtr.inRep rc.1 pos,m rc.2)) = Except.ok (s,n) →
      (∃ u, u ≠ v ∧ h.heap.held u = h.heap.held w) → HeldElsewhere s h v := by
    intro w pos m hr hu
    obtain ⟨⟨r,c⟩,hrep,hr⟩ := bind_eq_ok.mp hr
    obtain ⟨rfl,-⟩ := Prod.mk.inj (Except.ok.inj hr)
    obtain ⟨u,hne,hu⟩ := hu
    intro r' pos' hs
    obtain ⟨rfl,-⟩ := CharPtr.inRep.inj hs
    exact ⟨u,hne,hu.trans (rep_eq_ok.mp hrep).1⟩
  cases a with
  | chars cs m =>
    intro r pos hs
    obtain ⟨rfl,-⟩ := Prod.mk.inj (Except.ok.inj hr)
    cases hs
  | string w => exact hpart w 0 (fun c => c.obj.mLength) hr ha
  | part w pos m => exact hpart w pos (fun _ => m) hr ha

theorem Explicit.count {a : CharArg} {s : CharPtr} {n : ℕ} (hok : h.Ok) (ha : Explicit a)
    (hr : h.resolve a = .ok (s,n)) : n ≠ npos ∨ ∃ cs, s = .literal cs := by
  cases a with
  | chars cs m =>
    obtain ⟨rfl,-⟩ := Prod.mk.inj (Except.ok.inj hr)
    exact .inr ⟨cs,rfl⟩
  | string w =>
    obtain ⟨⟨r,c⟩,hrep,hr⟩ := bind_eq_ok.mp hr
    obtain ⟨-,rfl⟩ := Prod.mk.inj (Except.ok.inj hr)
    have hc := hok.rep w _ (get_of_rep hrep)
    have hlt := hc.length_lt
    have hcap := hc.capacity_lt
    apply Or.inl
    show c.obj.mLength ≠ 4294967295
    omega
  | part w pos m =>
    obtain ⟨⟨r,c⟩,hrep,hr⟩ := bind_eq_ok.mp hr
    obtain ⟨-,rfl⟩ := Prod.mk.inj (Except.ok.inj hr)
    exact .inl ha

theorem checked_construct (hv : v < h.heap.ptrs.length) (hnone : h.heap.held v = none) :
    h.checked v true = .ok h := by
  simp [checked, hv, hnone]

theorem checked_of_get {p : Rep} (hp : h.heap.get v = some p) : h.checked v false = .ok h := by
  obtain ⟨r,c,hr,-⟩ := exists_rep hp
  simp [checked, lt_of_get hp, (rep_eq_ok.mp hr).1]

/-- What a call that fits and is separate does. -/
def Done (h : Strings) (v : ℕ) (x : Exec Strings) : Prop := ∃ h', x = .ok h' ∧ h'.Ok ∧ Keeps v h h'

theorem Yields.done {x : Exec Strings} {l c : ℕ} (hx : Yields x v l c)
    (hk : ∀ h', x = .ok h' → Keeps v h h') : Done h v x := by
  obtain ⟨h',-,hx,hok,-⟩ := hx
  exact ⟨h',hx,hok,hk h' hx⟩

section Done
variable (hok : h.Ok)
include hok

theorem assignChars_done (hv : v < h.heap.ptrs.length) {a : CharArg} {k : ℕ} {cs : List UInt8}
    (ht : h.taken a = .ok (k,cs)) (hk : k+1 < 2^31) (hsep : h.AssignSeparate v a) :
    Done h v (do
      let (s,n) ← h.resolve a
      h.assignChars v s n) := by
  obtain ⟨s,n,hr,hlen,hcs⟩ := taken_eq_ok ht
  obtain ⟨h',he,hok'⟩ := assignChars_returns hok hv hlen hcs hk
  simp only [hr, ok_bind]
  refine ⟨h',he,hok',?_⟩
  apply assignChars_keeps hok.sound hv he hlen
  refine hsep.imp_right fun hP p cs' hp hcs' => ?_
  exact hP p hp k cs' (taken_eq hr hlen hcs')

theorem appendChars_done {p : Rep} (hp : h.heap.get v = some p) {a : CharArg} {k : ℕ}
    {cs : List UInt8} (ht : h.taken a = .ok (k,cs)) (hroom : Room p (p.mLength+k+1))
    (hsrc : h.ArgElsewhere v a ∨ p.mLength+k+1 ≤ p.mCapacity)
    (hsep : h.Separate (.appendChars v a)) : Done h v (do
      let (s,n) ← h.resolve a
      h.appendChars v s n) := by
  obtain ⟨s,n,hr,hlen,hcs⟩ := taken_eq_ok ht
  obtain ⟨l,c,hy⟩ := appendChars_returns hok hp hlen hcs hroom (hsrc.imp_left (·.source hr))
  simp only [hr, ok_bind]
  apply hy.done
  intro h' he
  apply appendChars_keeps hok.sound he hlen
  refine hsep.imp_right fun hP q hq => ?_
  obtain rfl : q = p := Option.some.inj (hq.symm.trans hp)
  have hq' := hok.rep v q hq
  rw [add32_room hroom]
  refine (hP q hq k cs ht).imp_right fun ⟨hk,h0⟩ => ⟨hk,h0,?_⟩
  have hlt := hq'.length_lt
  have hcap := hq'.capacity_lt
  omega

theorem appendFill_done {p : Rep} (hp : h.heap.get v = some p) {n : ℕ} {c : UInt8}
    (hroom : Room p (p.mLength+n+1)) (hsep : h.Separate (.appendFill v n c)) :
    Done h v (h.appendFill v n c) := by
  obtain ⟨l,c',hy⟩ := appendFill_returns (c := c) hok hp hroom
  apply hy.done
  intro h' he
  apply appendFill_keeps hok.sound he
  refine hsep.imp_right fun hP q hq => ?_
  obtain rfl : q = p := Option.some.inj (hq.symm.trans hp)
  have hq' := hok.rep v q hq
  rw [add32_room hroom]
  refine (hP q hq).imp_right fun ⟨hn,h0⟩ => ⟨hn,h0,?_⟩
  have hlt := hq'.length_lt
  have hcap := hq'.capacity_lt
  omega

theorem resize_done {p : Rep} (hp : h.heap.get v = some p) {n : ℕ} {c : UInt8}
    (hroom : Room p (n+1)) (hsep : h.Separate (.resize v n c)) : Done h v (h.resize v n c) := by
  obtain ⟨l,c',hy⟩ := resize_returns (c := c) hok hp hroom
  have hle := le_newCapacity p.mCapacity (n+1)
  apply hy.done
  intro h' he
  apply resize_keeps hok.sound he
  rw [add32_of_lt (show n+1 < 2^32 by omega)]
  exact hsep

theorem assignString_done {w : ℕ} (hv : v < h.heap.ptrs.length) {q : Rep}
    (hq : h.heap.get w = some q) (hroom : h.holders w < 2^31-1) :
    Done h v (h.assignString v w) := by
  obtain ⟨h',he,hok'⟩ := assignString_returns hok hv hq hroom
  exact ⟨h',he,hok',assignString_keeps hok.sound hv he⟩

theorem assignRange_done {w pos n : ℕ} {p q : Rep} (hp : h.heap.get v = some p)
    (hq : h.heap.get w = some q)
    (hfit : if pos = 0 ∧ q.mLength ≤ n then h.holders w < 2^31-1
      else ∃ k cs, h.taken (.part w pos n) = .ok (k,cs) ∧ k+1 < 2^31)
    (hsep : h.Separate (.assignRange v w pos n)) : Done h v (h.assignRange v w pos n) := by
  obtain ⟨r,c,hr,rfl⟩ := exists_rep hq
  simp only [assignRange, hr, ok_bind, ge_iff_le]
  by_cases hall : pos = 0 ∧ c.obj.mLength ≤ n
  · rw [if_pos hall] at hfit ⊢
    exact assignString_done hok (lt_of_get hp) hq hfit
  · rw [if_neg hall] at hfit ⊢
    obtain ⟨k,cs,ht,hk⟩ := hfit
    have hsep := hsep.resolve_left fun hshare => hall ⟨hshare.1,hshare.2 _ hq⟩
    have hdone := assignChars_done hok (lt_of_get hp) ht hk hsep
    simp only [resolve, hr, ok_bind] at hdone
    exact hdone

end Done

/-- One call: it returns and keeps every other variable, if it fits and is separate. -/
theorem step_spec (hok : h.Ok) {op : StringOp} (hfit : h.Fits op) (hsep : h.Separate op) :
    Done h op.var (h.step op) := by
  have hs := hok.sound
  cases op with
  | default v =>
    obtain ⟨hv,hnone⟩ := hfit
    simp only [step, checked_construct hv hnone, ok_bind,
      Rep.new_returns _ (show 32 < 2^31 by norm_num)]
    obtain ⟨h',-,he,hok',-⟩ := adopt_yields hok hv
      (p := { mCapacity := 32, mLength := 0, mData := store (h.raw h.heap.fresh) 0 [0] })
      ⟨by norm_num,by norm_num⟩
    refine ⟨h',he,hok',?_⟩
    rw [← Except.ok.inj he]
    exact adopt_keeps hs hv _
  | fromChars v a =>
    obtain ⟨hv,hnone,k,cs,ht,hk⟩ := hfit
    simp only [step, checked_construct hv hnone, ok_bind]
    apply assignChars_done hok hv ht hk
    -- nobody shares what is not there yet
    apply Or.inl
    intro w _ r hr
    cases hnone.symm.trans hr
  | copy v w =>
    obtain ⟨hv,hnone,⟨q,hq⟩,hroom⟩ := hfit
    simp only [step, checked_construct hv hnone, ok_bind]
    exact assignString_done hok hv hq hroom
  | destroy v =>
    obtain ⟨p,hp⟩ := hfit
    simp only [step, checked_of_get hp, ok_bind]
    have hv := lt_of_get hp
    rw [RefHeap.assign_none, ok_bind]
    refine ⟨_, rfl, get_ok_of_assigned hok hv ?_, assigned_keeps hs hv ?_⟩
    · intro r hr
      cases hr
    · intro r hr
      cases hr
  | assignString v w =>
    obtain ⟨⟨p,q,hp,hq⟩,hroom⟩ := hfit
    simp only [step, checked_of_get hp, ok_bind]
    exact assignString_done hok (lt_of_get hp) hq hroom
  | assignRange v w pos n =>
    obtain ⟨p,q,hp,hq,hfit⟩ := hfit
    simp only [step, checked_of_get hp, ok_bind]
    exact assignRange_done hok hp hq hfit hsep
  | assignChars v a =>
    obtain ⟨p,k,cs,hp,ht,hk⟩ := hfit
    simp only [step, checked_of_get hp, ok_bind]
    exact assignChars_done hok (lt_of_get hp) ht hk hsep
  | appendChars v a =>
    obtain ⟨p,k,cs,hp,ht,hroom,hsrc⟩ := hfit
    exact appendChars_done hok hp ht hroom hsrc hsep
  | appendFill v n c =>
    obtain ⟨p,hp,hroom⟩ := hfit
    exact appendFill_done hok hp hroom hsep
  | insertChars v pos1 a =>
    obtain ⟨p,k,cs,hp,ht,hroom⟩ := hfit
    obtain ⟨s,n,hr,hlen,hcs⟩ := taken_eq_ok ht
    have hroom' := hroom.imp_right fun hf => hf.imp_right fun hsrc => hsrc.imp_left (·.source hr)
    obtain ⟨l,c,hy⟩ := insertChars_returns hok hp hlen hcs hroom'
    simp only [step, hr, ok_bind]
    exact hy.done fun h' he => insertChars_keeps hs he
  | insertFill v pos1 n c =>
    obtain ⟨p,hp,hroom⟩ := hfit
    obtain ⟨l,c',hy⟩ := insertFill_returns (c := c) hok hp hroom
    exact hy.done fun h' he => insertFill_keeps hs he
  | replaceChars v pos1 n1 a =>
    obtain ⟨p,s,n2,k,cs,hp,hexp,hr,ht,hroom⟩ := hfit
    obtain ⟨s',n',hr',hlen,hcs⟩ := taken_eq_ok ht
    obtain ⟨rfl,rfl⟩ := Prod.mk.inj (Except.ok.inj (hr.symm.trans hr'))
    have hroom' := hroom.imp_right fun hf => hf.imp_right fun hf => hf.imp_right fun hf =>
      hf.imp_right fun hsrc => hsrc.imp_left (·.source hr)
    obtain ⟨l,c,hy⟩ := replaceChars_returns hok hp hlen hcs (hexp.count hok hr) hroom'
    simp only [step, hr, ok_bind]
    exact hy.done fun h' he => replaceChars_keeps hs he
  | replaceFill v pos1 n1 n2 c =>
    obtain ⟨p,hp,hroom⟩ := hfit
    obtain ⟨l,c',hy⟩ := replaceFill_returns (c := c) hok hp hroom
    exact hy.done fun h' he => replaceFill_keeps hs he
  | erase v pos n =>
    obtain ⟨p,hp,hn⟩ := hfit
    exact (erase_yields hok hp hn).done fun h' he => (erase_keeps hs he).1
  | reserve v res =>
    obtain ⟨p,hp,hroom⟩ := hfit
    exact (reserve_yields hok hp hroom).done fun h' he => (reserve_keeps hs he).1
  | resize v n c =>
    obtain ⟨p,hp,hroom⟩ := hfit
    exact resize_done hok hp hroom hsep
  | setAt v i c =>
    obtain ⟨p,hp⟩ := hfit
    obtain ⟨l,c',hy⟩ := setAt_returns (i := i) (c := c) hok hp
    exact hy.done fun h' he => setAt_keeps hs he hsep

/-- A call of a program whose calls all fit and are separate. -/
def Calls (h h' : Strings) : Prop := ∃ op, h.Fits op ∧ h.Separate op ∧ h.step op = .ok h'

theorem init_ok (raw : ℕ → ℕ → UInt8) (n : ℕ) : (init raw n).Ok := by
  apply Ok.mk (RefHeap.init_sound n)
  intro v p hp
  obtain ⟨r,c,-,hc,-⟩ := RefHeap.get_eq_some.mp hp
  cases hc

theorem reachable_ok {raw : ℕ → ℕ → UInt8} {n : ℕ}
    (hr : Transition.Reachable (· = init raw n) Calls h) : h.Ok := by
  apply hr.invariant
  · rintro _ rfl
    exact init_ok raw n
  · rintro h h' hok ⟨op,hfit,hsep,hstep⟩
    obtain ⟨h'',hstep',hok',-⟩ := step_spec hok hfit hsep
    rw [Except.ok.inj (hstep.symm.trans hstep')]
    exact hok'

/-- In every run of calls that fit and are separate, each further one returns and leaves what
every other variable reads as, and the Reps that exist are always the ones that are held. -/
theorem reachable_values {raw : ℕ → ℕ → UInt8} {n : ℕ}
    (hr : Transition.Reachable (· = init raw n) Calls h) :
    (∀ r, (h.heap.objs r).isSome ↔ some r ∈ h.heap.ptrs) ∧
    ∀ op, h.Fits op → h.Separate op → ∃ h', h.step op = .ok h' ∧
      (∀ w, w ≠ op.var → h'.reads w = h.reads w) ∧
      ∀ r, (h'.heap.objs r).isSome ↔ some r ∈ h'.heap.ptrs := by
  have hok := reachable_ok hr
  apply And.intro hok.sound.isSome_iff
  intro op hfit hsep
  obtain ⟨h',hstep,hok',hk⟩ := step_spec hok hfit hsep
  exact ⟨h',hstep,fun w hw => hk.reads hw,hok'.sound.isSome_iff⟩

/-- Three strings share a Rep, and then one of them has erased a character. -/
def sharedStrings : Exec Strings := do
  let h ← (init (fun _ _ => 0) 3).step (.fromChars 0 (.chars [97,98] 2))
  let h ← h.step (.copy 1 0)
  let h ← h.step (.copy 2 1)
  h.step (.erase 1 0 1)

theorem sharedStrings_reachable {h : Strings} (hrun : sharedStrings = .ok h) :
    Transition.Reachable (· = init (fun _ _ => 0) 3) Calls h := by
  obtain ⟨h₁,hfirst,hrun⟩ := bind_eq_ok.mp hrun
  obtain ⟨h₂,hsecond,hrun⟩ := bind_eq_ok.mp hrun
  obtain ⟨h₃,hthird,hfourth⟩ := bind_eq_ok.mp hrun
  have hfacts : (do
      let h₁ ← (init (fun _ _ => 0) 3).step (.fromChars 0 (.chars [97,98] 2))
      let h₂ ← h₁.step (.copy 1 0)
      let h₃ ← h₂.step (.copy 2 1)
      .ok ((h₁.heap.ptrs,(h₁.heap.get 0).isSome),(h₂.heap.ptrs,(h₂.heap.get 1).isSome),
        (h₃.heap.get 1).isSome) : Exec _) =
      .ok (([some 0,none,none],true),([some 0,some 0,none],true),true) := by
    decide +kernel
  simp only [hfirst, hsecond, hthird, ok_bind, Except.ok.injEq, Prod.mk.injEq] at hfacts
  obtain ⟨⟨hptrs₁,hget₁⟩,⟨hptrs₂,hget₂⟩,hget₃⟩ := hfacts
  have hstart : Transition.Reachable (· = init (fun _ _ => 0) 3) Calls (init (fun _ _ => 0) 3) :=
    .start rfl
  have hmade := hstart.next ⟨.fromChars 0 (.chars [97,98] 2),
    ⟨by decide,rfl,2,[97,98],rfl,by decide⟩,trivial,hfirst⟩
  have hcopied := hmade.next ⟨.copy 1 0,⟨by simp [hptrs₁],by simp [RefHeap.held, hptrs₁],
    Option.isSome_iff_exists.mp hget₁,by simp [holders, RefHeap.held, hptrs₁]⟩,trivial,hsecond⟩
  have hshared := hcopied.next ⟨.copy 2 1,⟨by simp [hptrs₂],by simp [RefHeap.held, hptrs₂],
    Option.isSome_iff_exists.mp hget₂,by simp [holders, RefHeap.held, hptrs₂]⟩,trivial,hthird⟩
  obtain ⟨p,hp⟩ := Option.isSome_iff_exists.mp hget₃
  exact hshared.next ⟨.erase 1 0 1,⟨p,hp,.inr (.inr (by norm_num))⟩,trivial,hfourth⟩

/-- One of the two that still share is changed and detaches, and the one that has detached is written
to in place: the others read what they did. -/
theorem reachable_values_shared : ∃ h, sharedStrings = .ok h ∧ h.heap.ptrs = [some 0,some 1,some 0] ∧
    (∃ h', h.step (.insertFill 2 0 3 121) = .ok h' ∧ (∀ w, w ≠ 2 → h'.reads w = h.reads w) ∧
      ∀ r, (h'.heap.objs r).isSome ↔ some r ∈ h'.heap.ptrs) ∧
    ∃ h', h.step (.setAt 1 0 120) = .ok h' ∧ (∀ w, w ≠ 1 → h'.reads w = h.reads w) ∧
      ∀ r, (h'.heap.objs r).isSome ↔ some r ∈ h'.heap.ptrs := by
  have hfacts : (sharedStrings.map fun h => (h.heap.ptrs,
      (h.heap.get 1).isSome,(h.heap.get 2).map fun p => (p.mLength,p.mCapacity))) =
      .ok ([some 0,some 1,some 0],true,some (2,3)) := by
    decide +kernel
  cases hrun : sharedStrings with
  | error e =>
    rw [hrun] at hfacts
    cases hfacts
  | ok h =>
    simp only [hrun, Except.map, Except.ok.injEq, Prod.mk.injEq] at hfacts
    obtain ⟨hptrs,hget₁,hget₂⟩ := hfacts
    obtain ⟨p,hp⟩ := Option.isSome_iff_exists.mp hget₁
    obtain ⟨q,hq,hsizes⟩ := Option.map_eq_some_iff.mp hget₂
    obtain ⟨hlen,hcap⟩ := Prod.mk.inj hsizes
    have hreach := sharedStrings_reachable hrun
    refine ⟨h,rfl,hptrs,?_,?_⟩
    · apply (reachable_values hreach).2 (.insertFill 2 0 3 121) _ trivial
      refine ⟨q,hq,.inr ?_⟩
      rw [Room, hlen, hcap]
      decide
    · apply (reachable_values hreach).2 (.setAt 1 0 120) ⟨p,hp⟩ (.inl _)
      intro w hw r hr
      rw [RefHeap.held, hptrs] at hr ⊢
      obtain rfl : 1 = r := Option.some.inj hr
      rcases w with _ | _ | _ | w
      · simp
      · exact absurd rfl hw
      · simp
      · simp

/-- A character written to a copy shows in the string it was copied from. -/
theorem copy_writes_through :
    (do
      let h ← (init (fun _ _ => 0) 2).step (.fromChars 0 (.chars [97,98] 2))
      let h ← h.step (.copy 1 0)
      let h' ← h.step (.setAt 1 0 120)
      .ok (h.reads 0,h'.reads 0) : Exec (Option (ℕ × List UInt8) × Option (ℕ × List UInt8))) =
      .ok (some (2,[97,98,0]),some (2,[120,98,0])) := by
  decide +kernel

end Strings

end JhCommon
