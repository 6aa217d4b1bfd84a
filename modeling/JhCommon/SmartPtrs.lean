import JhCommon.Exec
import JhCommon.Transition

/-! The counts of `RefCount.h` as what they are, numbers of type int, with smart pointers that come
and go, and with the references that are taken and given back by hand. The critical section around
a count is left out. -/
namespace JhCommon
open Transition

inductive RefFault
  | deleted
  | destroyed
  | overflow
  deriving DecidableEq

/-- The mRefCount of every object that has been made. A deleted one is none. -/
abbrev RefCounts := List (Option ℤ)

namespace RefCounts

/-- What is done to the count of an object, if it is there. -/
def touch (objs : RefCounts) (k : ℕ) (f : ℤ → Except RefFault (Option ℤ)) : Except RefFault RefCounts :=
  match objs[k]? with
  | some (some mRefCount) => do
    let obj ← f mRefCount
    .ok (objs.set k obj)
  | _ => .error .deleted

/-- `AddRef`, behind the NULL check of its callers. -/
def addRef (objs : RefCounts) : Option ℕ → Except RefFault RefCounts
  | none => .ok objs
  | some k => objs.touch k fun mRefCount =>
    if mRefCount = 2^31-1 then .error .overflow else .ok (some (mRefCount+1))

/-- `Release`, behind the NULL check of its callers. At zero the object deletes itself. -/
def release (objs : RefCounts) : Option ℕ → Except RefFault RefCounts
  | none => .ok objs
  | some k => objs.touch k fun mRefCount =>
    if mRefCount = -2^31 then .error .overflow
    else if mRefCount-1 = 0 then .ok none
    else .ok (some (mRefCount-1))

end RefCounts

/-- The objects, the mObj of every SmartPtr, none for one that has been destroyed, and a record of the
references that are held without a SmartPtr. -/
structure SmartPtrs where
  objs : RefCounts
  ptrs : List (Option (Option ℕ))
  taken : List ℕ

inductive SmartPtrOp
  | new
  | construct (obj : Option ℕ)
  | copy (w : ℕ)
  | assignObj (v : ℕ) (obj : Option ℕ)
  | assign (v w : ℕ)
  | destroy (v : ℕ)
  | addRef (k : ℕ)
  | release (k : ℕ)

namespace SmartPtrs

def start : SmartPtrs := ⟨[],[],[]⟩

def mObj (s : SmartPtrs) (v : ℕ) : Except RefFault (Option ℕ) :=
  match s.ptrs[v]? with
  | some (some obj) => .ok obj
  | _ => .error .destroyed

/-- `SmartPtr( T *obj )`. -/
def construct (s : SmartPtrs) (obj : Option ℕ) : Except RefFault SmartPtrs := do
  let objs ← s.objs.addRef obj
  .ok { s with objs := objs, ptrs := s.ptrs ++ [some obj] }

/-- `operator=( T *obj )`. -/
def assignObj (s : SmartPtrs) (v : ℕ) (obj : Option ℕ) : Except RefFault SmartPtrs := do
  -- the new reference first: an object that is assigned again is not deleted in between
  let objs ← s.objs.addRef obj
  let old ← s.mObj v
  let objs ← objs.release old
  .ok { s with objs := objs, ptrs := s.ptrs.set v (some obj) }

def step (s : SmartPtrs) : SmartPtrOp → Except RefFault (Unit × SmartPtrs)
  | .new => .ok ((),{ s with objs := s.objs ++ [some 0] })
  | .construct obj => ((),·) <$> s.construct obj
  | .copy w => do
    let obj ← s.mObj w
    ((),·) <$> s.construct obj
  | .assignObj v obj => ((),·) <$> s.assignObj v obj
  | .assign v w => do
    let obj ← s.mObj w
    ((),·) <$> s.assignObj v obj
  | .destroy v => do
    let obj ← s.mObj v
    let objs ← s.objs.release obj
    .ok ((),{ s with objs := objs, ptrs := s.ptrs.set v none })
  | .addRef k => do
    let objs ← s.objs.addRef (some k)
    .ok ((),{ s with objs := objs, taken := k :: s.taken })
  | .release k => do
    let objs ← s.objs.release (some k)
    .ok ((),{ s with objs := objs, taken := s.taken.erase k })

/-- A pointer to nothing, or to an object that is there. -/
def Valid (s : SmartPtrs) (obj : Option ℕ) : Prop := ∀ k, obj = some k → ∃ c, s.objs[k]? = some (some c)

/-- A caller has pointers to objects that are there and SmartPtrs that have not been destroyed, and
gives no more references back than it has taken. -/
def Admits (s : SmartPtrs) : SmartPtrOp → Prop
  | .new => True
  | .construct obj => s.Valid obj
  | .copy w => ∃ obj, s.mObj w = .ok obj
  | .assignObj v obj => s.Valid obj ∧ ∃ old, s.mObj v = .ok old
  | .assign v w => (∃ old, s.mObj v = .ok old) ∧ ∃ obj, s.mObj w = .ok obj
  | .destroy v => ∃ obj, s.mObj v = .ok obj
  | .addRef k => s.Valid (some k)
  | .release k => k ∈ s.taken

/-- The object that a call adds a reference to. -/
def added (s : SmartPtrs) : SmartPtrOp → Option ℕ
  | .construct obj | .assignObj _ obj => obj
  | .copy w | .assign _ w => (s.ptrs[w]?).join.join
  | .addRef k => some k
  | .new | .destroy _ | .release _ => none

/-- That object has fewer references than an int can count. -/
def Countable (s : SmartPtrs) (op : SmartPtrOp) : Prop :=
  ∀ k, s.added op = some k → s.objs[k]? ≠ some (some (2^31-1))

end SmartPtrs

/-- What the counts are for: who holds which object, and which objects are there. -/
structure Holders where
  alive : List Bool
  ptrs : List (Option (Option ℕ))
  taken : List ℕ

namespace Holders

/-- The SmartPtrs that point to an object, and the references without one. -/
def count (t : Holders) (k : ℕ) : ℕ := t.ptrs.count (some (some k))+t.taken.count k

def mObj (t : Holders) (v : ℕ) : Option ℕ := (t.ptrs[v]?).join.join

/-- Who holds what after a call. -/
def hold (t : Holders) : SmartPtrOp → Holders
  | .new => { t with alive := t.alive ++ [true] }
  | .construct obj => { t with ptrs := t.ptrs ++ [some obj] }
  | .copy w => { t with ptrs := t.ptrs ++ [some (t.mObj w)] }
  | .assignObj v obj => { t with ptrs := t.ptrs.set v (some obj) }
  | .assign v w => { t with ptrs := t.ptrs.set v (some (t.mObj w)) }
  | .destroy v => { t with ptrs := t.ptrs.set v none }
  | .addRef k => { t with taken := k :: t.taken }
  | .release k => { t with taken := t.taken.erase k }

/-- A call deletes the objects that it takes the last holder from, and no others. -/
def Means (t : Holders) (op : SmartPtrOp) (_ : Unit) (t' : Holders) : Prop :=
  t'.ptrs = (t.hold op).ptrs ∧ t'.taken = (t.hold op).taken ∧
    ∀ k, t'.alive[k]? = ((t.hold op).alive[k]?).map fun b =>
      b && !(decide (t.count k = 1) && decide ((t.hold op).count k = 0))

end Holders

namespace SmartPtrs

/-- Every object that has not been deleted counts its holders, and none holds another one. -/
structure Refines (s : SmartPtrs) (t : Holders) : Prop where
  ptrs : s.ptrs = t.ptrs
  taken : s.taken = t.taken
  counts : ∀ k : ℕ, s.objs[k]? = (t.alive[k]?).map fun b => if b then some (t.count k : ℤ) else none
  alive : ∀ k, 0 < t.count k → t.alive[k]? = some true

end SmartPtrs

namespace RefCounts
variable {objs objs' : RefCounts} {alive : List Bool} {f : ℕ → ℕ} {p : Option ℕ} {k : ℕ}

/-- The objects that are there have the counts f. -/
def Agrees (objs : RefCounts) (alive : List Bool) (f : ℕ → ℕ) : Prop :=
  ∀ k : ℕ, objs[k]? = (alive[k]?).map fun b => if b then some (f k : ℤ) else none

/-- The objects that are left when the counts f become g. -/
def bury (alive : List Bool) (f g : ℕ → ℕ) : List Bool :=
  alive.mapIdx fun k b => b && !(decide (f k = 1) && decide (g k = 0))

theorem getElem?_bury (alive : List Bool) (f g : ℕ → ℕ) (k : ℕ) :
    (bury alive f g)[k]? = (alive[k]?).map fun b => b && !(decide (f k = 1) && decide (g k = 0)) := by
  rw [bury, List.getElem?_mapIdx]

theorem touch_ok {f : ℤ → Except RefFault (Option ℤ)} {c : ℤ} {o : Option ℤ}
    (hk : objs[k]? = some (some c)) (hf : f c = .ok o) : objs.touch k f = .ok (objs.set k o) := by
  rw [touch, hk]
  simp only [hf, ok_bind]

theorem Agrees.live (h : Agrees objs alive f) (hk : alive[k]? = some true) :
    objs[k]? = some (some (f k : ℤ)) := by
  rw [h k, hk]
  rfl

theorem getElem?_set_obj {c : ℤ} (hk : objs[k]? = some (some c)) (o : Option ℤ) (j : ℕ) :
    (objs.set k o)[j]? = if j = k then some o else objs[j]? := by
  have hlt : k < objs.length := (List.getElem?_eq_some_iff.mp hk).1
  by_cases hj : j = k
  · rw [hj, List.getElem?_set_self hlt, if_pos rfl]
  · rw [List.getElem?_set_ne (Ne.symm hj), if_neg hj]

theorem addRef_ok (h : Agrees objs alive f) (hlive : ∀ k, p = some k → alive[k]? = some true)
    (hfits : ∀ k, p = some k → objs[k]? ≠ some (some (2^31-1))) :
    ∃ objs', objs.addRef p = .ok objs' ∧ Agrees objs' alive fun k => f k+if p = some k then 1 else 0 := by
  cases p with
  | none => exact ⟨objs,rfl,by simpa [Agrees] using h⟩
  | some k =>
    have hk := h.live (hlive k rfl)
    have hlt : (f k : ℤ) ≠ 2^31-1 := by
      intro heq
      exact hfits k rfl (heq ▸ hk)
    refine ⟨_,touch_ok hk (if_neg hlt),?_⟩
    intro j
    rw [getElem?_set_obj hk]
    by_cases hj : j = k
    · subst hj
      simp [hlive j rfl]
    · have hne : (some k = some j) = False := by simp [Ne.symm hj]
      rw [if_neg hj, h j]
      simp only [hne, if_false, Nat.add_zero]

theorem addRef_fits (h : objs.addRef (some k) = .ok objs') : objs[k]? ≠ some (some (2^31-1)) := by
  intro hk
  rw [addRef, touch, hk] at h
  simp at h

theorem release_ok (h : Agrees objs alive f) (hlive : ∀ k, p = some k → alive[k]? = some true)
    (hpos : ∀ k, p = some k → 0 < f k) {g : ℕ → ℕ} (hg : ∀ k, g k+(if p = some k then 1 else 0) = f k) :
    ∃ objs', objs.release p = .ok objs' ∧ Agrees objs' (bury alive f g) g := by
  cases p with
  | none =>
    refine ⟨objs,rfl,?_⟩
    obtain rfl : g = f := funext fun k => by simpa using hg k
    intro k
    have hnot : ¬(g k = 1 ∧ g k = 0) := by omega
    rw [getElem?_bury, h k]
    cases alive[k]? with
    | none => rfl
    | some b => simp [← Bool.decide_and, hnot]
  | some k =>
    have hk := h.live (hlive k rfl)
    have hkpos := hpos k rfl
    have hgk : g k+1 = f k := by simpa using hg k
    have hmin : (f k : ℤ) ≠ -2^31 := by omega
    -- at zero the object is gone, and else one less
    let o : Option ℤ := if (f k : ℤ)-1 = 0 then none else some ((f k : ℤ)-1)
    have hrelease : objs.release (some k) = .ok (objs.set k o) := by
      apply touch_ok hk
      rw [if_neg hmin]
      by_cases hzero : (f k : ℤ)-1 = 0
      · rw [if_pos hzero, show o = none from if_pos hzero]
      · rw [if_neg hzero, show o = some ((f k : ℤ)-1) from if_neg hzero]
    refine ⟨_,hrelease,?_⟩
    intro j
    rw [getElem?_set_obj hk, getElem?_bury]
    by_cases hj : j = k
    · subst hj
      rw [if_pos rfl, hlive j rfl]
      by_cases hzero : f j = 1
      · have hg0 : g j = 0 := by omega
        simp [o, hzero, hg0]
      · have hsub : (f j : ℤ)-1 = g j := by omega
        have hg0 : g j ≠ 0 := by omega
        simp [o, hsub, hg0]
    · have hgj : g j = f j := by simpa [Ne.symm hj] using hg j
      have hnot : ¬(f j = 1 ∧ f j = 0) := by omega
      rw [if_neg hj, h j, hgj]
      cases alive[j]? with
      | none => rfl
      | some b => simp [← Bool.decide_and, hnot]

end RefCounts

namespace SmartPtrs
open RefCounts
variable {s s' : SmartPtrs} {t : Holders} {p q : Option ℕ} {v w k : ℕ}

theorem start_refines : start.Refines ⟨[],[],[]⟩ := by
  refine ⟨rfl,rfl,fun _ => rfl,?_⟩
  intro k hk
  exact absurd hk (Nat.lt_irrefl 0)

theorem mObj_eq_ok : s.mObj v = .ok p ↔ s.ptrs[v]? = some (some p) := by
  rw [mObj]
  split <;> simp_all

theorem Refines.mObj_eq (hr : s.Refines t) (hv : s.mObj v = .ok p) : t.mObj v = p := by
  rw [Holders.mObj, ← hr.ptrs, mObj_eq_ok.mp hv]
  rfl

/-- What a SmartPtr points to has a holder. -/
theorem Refines.count_pos (hr : s.Refines t) (hv : s.mObj v = .ok (some k)) : 0 < t.count k := by
  have hmem : some (some k) ∈ t.ptrs := hr.ptrs ▸ List.mem_of_getElem? (mObj_eq_ok.mp hv)
  exact Nat.add_pos_left (List.count_pos_iff.mpr hmem) _

theorem Refines.live_of_valid (hr : s.Refines t) (hvalid : s.Valid (some k)) :
    t.alive[k]? = some true := by
  obtain ⟨c,hc⟩ := hvalid k rfl
  rw [hr.counts k] at hc
  obtain ⟨b,hb,hbc⟩ := Option.map_eq_some_iff.mp hc
  cases b with
  | true => exact hb
  | false => cases hbc

/-- One reference is taken, then one is given back: only that can take the last holder away. -/
theorem Refines.exchange (hr : s.Refines t) (ptrs : List (Option (Option ℕ))) (taken : List ℕ)
    (hcount : ∀ k, Holders.count ⟨t.alive,ptrs,taken⟩ k+(if q = some k then 1 else 0) =
      t.count k+if p = some k then 1 else 0)
    (hp : ∀ k, p = some k → t.alive[k]? = some true) (hq : ∀ k, q = some k → 0 < t.count k)
    (hfits : ∀ k, p = some k → s.objs[k]? ≠ some (some (2^31-1))) :
    ∃ objs₁ objs₂, s.objs.addRef p = .ok objs₁ ∧ objs₁.release q = .ok objs₂ ∧
      Refines ⟨objs₂,ptrs,taken⟩
        ⟨bury t.alive t.count (Holders.count ⟨t.alive,ptrs,taken⟩),ptrs,taken⟩ := by
  let after : ℕ → ℕ := Holders.count ⟨t.alive,ptrs,taken⟩
  have hagrees : Agrees s.objs t.alive t.count := hr.counts
  obtain ⟨objs₁,hadd,hagrees₁⟩ := addRef_ok hagrees hp hfits
  obtain ⟨objs₂,hrelease,hagrees₂⟩ := release_ok (p := q) (g := after) hagrees₁
    (fun k hk => hr.alive k (hq k hk)) (fun k hk => Nat.add_pos_left (hq k hk) _) hcount
  -- an object that is taken and given back was held before
  have hbury : bury t.alive (fun k => t.count k+if p = some k then 1 else 0) after =
      bury t.alive t.count after := by
    apply List.ext_getElem?
    intro k
    have hiff : (t.count k+(if p = some k then 1 else 0) = 1 ∧ after k = 0) ↔
        (t.count k = 1 ∧ after k = 0) := by
      have hk : after k+(if q = some k then 1 else 0) = t.count k+if p = some k then 1 else 0 := hcount k
      have hle : (if q = some k then 1 else 0) ≤ t.count k := by
        split_ifs with hqk
        · exact hq k hqk
        · exact Nat.zero_le _
      -- only the two summands matter, not what they say about p and q
      generalize (if p = some k then 1 else 0) = a at hk ⊢
      generalize (if q = some k then 1 else 0) = b at hk hle
      omega
    rw [getElem?_bury, getElem?_bury]
    simp only [← Bool.decide_and, hiff]
  rw [hbury] at hagrees₂
  refine ⟨objs₁,objs₂,hadd,hrelease,rfl,rfl,hagrees₂,?_⟩
  intro k hk
  have hlive : t.alive[k]? = some true := by
    by_cases hpk : p = some k
    · exact hp k hpk
    · have hle := hcount k
      rw [if_neg hpk] at hle
      have hk' : 0 < Holders.count ⟨t.alive,ptrs,taken⟩ k := hk
      exact hr.alive k (by omega)
  have hne : Holders.count ⟨t.alive,ptrs,taken⟩ k ≠ 0 := hk.ne'
  show (bury t.alive t.count _)[k]? = some true
  rw [getElem?_bury, hlive]
  simp [hne]

theorem means_bury (t : Holders) (op : SmartPtrOp) (halive : (t.hold op).alive = t.alive) :
    t.Means op () ⟨bury t.alive t.count (t.hold op).count,(t.hold op).ptrs,(t.hold op).taken⟩ := by
  refine ⟨rfl,rfl,?_⟩
  intro k
  rw [halive]
  exact getElem?_bury _ _ _ k

/-- A SmartPtr that is changed or destroyed stops holding what it held. -/
theorem count_set {ptrs : List (Option (Option ℕ))} (hv : ptrs[v]? = some (some q)) (alive : List Bool)
    (o : Option (Option ℕ)) (taken : List ℕ) (k : ℕ) :
    Holders.count ⟨alive,ptrs.set v o,taken⟩ k+(if q = some k then 1 else 0) =
      Holders.count ⟨alive,ptrs,taken⟩ k+if o = some (some k) then 1 else 0 := by
  obtain ⟨hlt,hget⟩ := List.getElem?_eq_some_iff.mp hv
  have hmem : (if q = some k then 1 else 0) ≤ ptrs.count (some (some k)) := by
    split_ifs with hqk
    · exact List.count_pos_iff.mpr (List.mem_of_getElem? (hqk ▸ hv))
    · exact Nat.zero_le _
  have hcount := List.count_set (b := some (some k)) (a := o) hlt
  simp only [hget, beq_iff_eq, Option.some.injEq] at hcount
  simp only [Holders.count, hcount]
  omega

theorem count_append (alive : List Bool) (ptrs : List (Option (Option ℕ))) (taken : List ℕ) (p : Option ℕ)
    (k : ℕ) : Holders.count ⟨alive,ptrs ++ [some p],taken⟩ k =
      Holders.count ⟨alive,ptrs,taken⟩ k+if p = some k then 1 else 0 := by
  simp only [Holders.count, List.count_append, List.count_singleton, beq_iff_eq, Option.some.injEq]
  omega

theorem count_cons (t : Holders) (j k : ℕ) :
    Holders.count ⟨t.alive,t.ptrs,j :: t.taken⟩ k+(if none = some k then 1 else 0) =
      t.count k+if some j = some k then 1 else 0 := by
  simp only [Holders.count, List.count_cons, beq_iff_eq, Option.some.injEq, reduceCtorEq, if_false]
  omega

theorem count_erase {j : ℕ} (hj : j ∈ t.taken) (k : ℕ) :
    Holders.count ⟨t.alive,t.ptrs,t.taken.erase j⟩ k+(if some j = some k then 1 else 0) =
      t.count k+if none = some k then 1 else 0 := by
  have hpos := List.count_pos_iff.mpr hj
  simp only [Holders.count, List.count_erase, beq_iff_eq, Option.some.injEq, reduceCtorEq, if_false]
  split_ifs with hjk
  · subst hjk
    omega
  · omega

/-- An object that has just been made is there, and has no holder. -/
theorem Refines.new (hr : s.Refines t) :
    t.Means .new () ⟨t.alive ++ [true],t.ptrs,t.taken⟩ ∧
      Refines { s with objs := s.objs ++ [some 0] } ⟨t.alive ++ [true],t.ptrs,t.taken⟩ := by
  have hobjs : s.objs = t.alive.mapIdx fun k b => if b then some (t.count k : ℤ) else none := by
    apply List.ext_getElem?
    intro k
    rw [hr.counts k, List.getElem?_mapIdx]
  have hnone : t.count t.alive.length = 0 := by
    by_contra hne
    have hlast := hr.alive _ (Nat.pos_of_ne_zero hne)
    simp at hlast
  refine ⟨⟨rfl,rfl,?_⟩,⟨hr.ptrs,hr.taken,?_,?_⟩⟩
  · intro k
    -- the call changes no count
    have hnot : ¬(t.count k = 1 ∧ (t.hold .new).count k = 0) := by
      rintro ⟨hone,hzero⟩
      exact absurd (hone.symm.trans hzero) Nat.one_ne_zero
    show (t.alive ++ [true])[k]? = ((t.alive ++ [true])[k]?).map _
    simp only [← Bool.decide_and, hnot, decide_false, Bool.not_false, Bool.and_true, Option.map_id']
  · intro k
    have happend : s.objs ++ [some 0] =
        (t.alive ++ [true]).mapIdx fun k b => if b then some (t.count k : ℤ) else none := by
      rw [List.mapIdx_concat, ← hobjs, hnone]
      rfl
    show (s.objs ++ [some 0])[k]? = _
    rw [happend, List.getElem?_mapIdx]
    rfl
  · intro k hk
    have hold := hr.alive k hk
    show (t.alive ++ [true])[k]? = some true
    rwa [List.getElem?_append_left (List.getElem?_eq_some_iff.mp hold).1]

/-- A new SmartPtr. -/
theorem Refines.construct (hr : s.Refines t) (hp : ∀ k, p = some k → t.alive[k]? = some true)
    (hfits : ∀ k, p = some k → s.objs[k]? ≠ some (some (2^31-1))) :
    ∃ s', s.construct p = .ok s' ∧ s'.Refines
      ⟨bury t.alive t.count (t.hold (.construct p)).count,t.ptrs ++ [some p],t.taken⟩ := by
  obtain ⟨objs₁,objs₂,hadd,hrelease,hr'⟩ := hr.exchange (p := p) (q := none)
    (t.ptrs ++ [some p]) t.taken (count_append t.alive t.ptrs t.taken p) hp (fun _ hk => by cases hk) hfits
  obtain rfl : objs₁ = objs₂ := Except.ok.inj hrelease
  refine ⟨⟨objs₁,s.ptrs ++ [some p],s.taken⟩,?_,?_⟩
  · rw [SmartPtrs.construct, hadd, ok_bind]
  · rw [hr.ptrs, hr.taken]
    exact hr'

/-- A SmartPtr is assigned to. -/
theorem Refines.assignObj (hr : s.Refines t) (hv : s.mObj v = .ok q)
    (hp : ∀ k, p = some k → t.alive[k]? = some true)
    (hfits : ∀ k, p = some k → s.objs[k]? ≠ some (some (2^31-1))) :
    ∃ s', s.assignObj v p = .ok s' ∧ s'.Refines
      ⟨bury t.alive t.count (t.hold (.assignObj v p)).count,t.ptrs.set v (some p),t.taken⟩ := by
  have hcount := count_set (hr.ptrs ▸ mObj_eq_ok.mp hv) t.alive (some p) t.taken
  simp only [Option.some.injEq] at hcount
  obtain ⟨objs₁,objs₂,hadd,hrelease,hr'⟩ := hr.exchange _ _ hcount hp
    (fun k hk => hr.count_pos (hk ▸ hv)) hfits
  refine ⟨⟨objs₂,s.ptrs.set v (some p),s.taken⟩,?_,?_⟩
  · rw [SmartPtrs.assignObj, hadd, ok_bind, hv, ok_bind, hrelease, ok_bind]
  · rw [hr.ptrs, hr.taken]
    exact hr'

/-- One call does what it means, if the count that it raises can be raised. -/
theorem Refines.step (hr : s.Refines t) {op : SmartPtrOp} (ha : s.Admits op) (hfits : s.Countable op) :
    ∃ s' t', s.step op = .ok ((),s') ∧ t.Means op () t' ∧ s'.Refines t' := by
  cases op with
  | new => exact ⟨_,_,rfl,hr.new⟩
  | construct obj =>
    obtain ⟨s',hstep,hr'⟩ := hr.construct (fun k hk => hr.live_of_valid (hk ▸ ha)) hfits
    exact ⟨s',_,by rw [SmartPtrs.step, hstep]; rfl,means_bury t (.construct obj) rfl,hr'⟩
  | copy w =>
    obtain ⟨obj,hw⟩ := ha
    have hobj := hr.mObj_eq hw
    obtain ⟨s',hstep,hr'⟩ := hr.construct (p := obj) (fun k hk => hr.alive k (hr.count_pos (hk ▸ hw)))
      (fun k hk => hfits k (by rw [added, mObj_eq_ok.mp hw, ← hk]; rfl))
    subst hobj
    exact ⟨s',_,by rw [SmartPtrs.step, hw, ok_bind, hstep]; rfl,means_bury t (.copy w) rfl,hr'⟩
  | assignObj v obj =>
    obtain ⟨hvalid,old,hv⟩ := ha
    obtain ⟨s',hstep,hr'⟩ := hr.assignObj hv (fun k hk => hr.live_of_valid (hk ▸ hvalid)) hfits
    exact ⟨s',_,by rw [SmartPtrs.step, hstep]; rfl,means_bury t (.assignObj v obj) rfl,hr'⟩
  | assign v w =>
    obtain ⟨⟨old,hv⟩,obj,hw⟩ := ha
    have hobj := hr.mObj_eq hw
    obtain ⟨s',hstep,hr'⟩ := hr.assignObj (p := obj) hv
      (fun k hk => hr.alive k (hr.count_pos (hk ▸ hw)))
      (fun k hk => hfits k (by rw [added, mObj_eq_ok.mp hw, ← hk]; rfl))
    subst hobj
    exact ⟨s',_,by rw [SmartPtrs.step, hw, ok_bind, hstep]; rfl,means_bury t (.assign v w) rfl,hr'⟩
  | destroy v =>
    obtain ⟨obj,hv⟩ := ha
    have hcount := count_set (hr.ptrs ▸ mObj_eq_ok.mp hv) t.alive none t.taken
    -- the pointer is exchanged for NULL
    obtain ⟨objs₁,objs₂,hadd,hrelease,hr'⟩ := hr.exchange (p := none) _ _ hcount (fun _ hk => by cases hk)
      (fun k hk => hr.count_pos (hk ▸ hv)) (fun _ hk => by cases hk)
    obtain rfl : s.objs = objs₁ := Except.ok.inj hadd
    refine ⟨⟨objs₂,s.ptrs.set v none,s.taken⟩,_,?_,means_bury t (.destroy v) rfl,?_⟩
    · rw [SmartPtrs.step, hv, ok_bind, hrelease, ok_bind]
    · rw [hr.ptrs, hr.taken]
      exact hr'
  | addRef k =>
    obtain ⟨objs₁,objs₂,hadd,hrelease,hr'⟩ := hr.exchange (p := some k) (q := none) t.ptrs
      (k :: t.taken) (count_cons t k) (fun j hj => hr.live_of_valid (hj ▸ ha))
      (fun _ hj => by cases hj) hfits
    obtain rfl : objs₁ = objs₂ := Except.ok.inj hrelease
    refine ⟨⟨objs₁,s.ptrs,k :: s.taken⟩,_,?_,means_bury t (.addRef k) rfl,?_⟩
    · rw [SmartPtrs.step, hadd, ok_bind]
    · rw [hr.ptrs, hr.taken]
      exact hr'
  | release k =>
    have hk : k ∈ t.taken := hr.taken ▸ ha
    obtain ⟨objs₁,objs₂,hadd,hrelease,hr'⟩ := hr.exchange (p := none) (q := some k) t.ptrs
      (t.taken.erase k) (count_erase hk) (fun _ hj => by cases hj)
      (fun j hj => by
        cases hj
        exact Nat.add_pos_right _ (List.count_pos_iff.mpr hk))
      (fun _ hj => by cases hj)
    obtain rfl : s.objs = objs₁ := Except.ok.inj hadd
    refine ⟨⟨objs₂,s.ptrs,s.taken.erase k⟩,_,?_,means_bury t (.release k) rfl,?_⟩
    · rw [SmartPtrs.step, hrelease, ok_bind]
    · rw [hr.ptrs, hr.taken]
      exact hr'

theorem added_eq (hw : s.mObj w = .ok p) : (s.ptrs[w]?).join.join = p := by
  rw [mObj_eq_ok.mp hw]
  rfl

/-- A call that returns has raised the count that it has to raise. -/
theorem exists_addRef {op : SmartPtrOp} {o : Unit} (hstep : s.step op = .ok (o,s')) :
    ∃ objs', s.objs.addRef (s.added op) = .ok objs' := by
  -- every call that adds a reference goes through one of two functions, which add it first
  have hconstruct {p : Option ℕ} (h : (((),·) <$> s.construct p) = .ok (o,s')) :
      ∃ objs', s.objs.addRef p = .ok objs' := by
    obtain ⟨_,hcall,-⟩ := bind_eq_ok.mp h
    obtain ⟨objs',hadd,-⟩ := bind_eq_ok.mp hcall
    exact ⟨objs',hadd⟩
  have hassign {v : ℕ} {p : Option ℕ} (h : (((),·) <$> s.assignObj v p) = .ok (o,s')) :
      ∃ objs', s.objs.addRef p = .ok objs' := by
    obtain ⟨_,hcall,-⟩ := bind_eq_ok.mp h
    obtain ⟨objs',hadd,-⟩ := bind_eq_ok.mp hcall
    exact ⟨objs',hadd⟩
  cases op with
  | new | destroy | release => exact ⟨s.objs,rfl⟩
  | construct obj => exact hconstruct hstep
  | copy w =>
    obtain ⟨obj,hw,hcall⟩ := bind_eq_ok.mp hstep
    rw [added, added_eq hw]
    exact hconstruct hcall
  | assignObj v obj => exact hassign hstep
  | assign v w =>
    obtain ⟨obj,hw,hcall⟩ := bind_eq_ok.mp hstep
    rw [added, added_eq hw]
    exact hassign hcall
  | addRef j =>
    obtain ⟨objs',hadd,-⟩ := bind_eq_ok.mp hstep
    exact ⟨objs',hadd⟩

theorem countable_of_step {op : SmartPtrOp} {o : Unit} (hstep : s.step op = .ok (o,s')) :
    s.Countable op := by
  intro k hk
  obtain ⟨objs',hadd⟩ := exists_addRef hstep
  exact addRef_fits (hk ▸ hadd)

/-- The counts are the numbers of holders, every object is deleted by the call that takes its last
holder away, and no deleted one is touched, in the runs that add no reference to the 2³¹-1 of one
object, and in no others. -/
theorem counts_iff_countable (ops : List SmartPtrOp) (ha : Guarded step Admits start ops) :
    Simulated step Holders.Means Refines start ⟨[],[],[]⟩ ops ↔ Guarded step Countable start ops := by
  apply simulated_iff_of_admitted Admits Countable (fun _ _ h => h) _ _ start_refines ops ha
  · intro s t op hr hadmits hfits
    obtain ⟨s',t',hstep,hmeans,hr'⟩ := hr.step hadmits hfits
    exact ⟨(),s',t',hstep,hmeans,hr'⟩
  · exact fun _ _ _ _ _ _ _ _ hstep _ hr' => ⟨countable_of_step hstep,hr'⟩

/-- Two SmartPtrs share an object, one is assigned to itself, and both let go. -/
theorem counts_iff_countable_two :
    Simulated step Holders.Means Refines start ⟨[],[],[]⟩
        [.new,.construct (some 0),.copy 0,.assign 0 0,.assignObj 0 none,.destroy 1] ↔
      Guarded step Countable start
        [.new,.construct (some 0),.copy 0,.assign 0 0,.assignObj 0 none,.destroy 1] := by
  apply counts_iff_countable
  refine .cons rfl trivial (.cons rfl ?_ (.cons rfl ⟨_,rfl⟩ (.cons rfl ⟨⟨_,rfl⟩,_,rfl⟩
    (.cons rfl ⟨?_,_,rfl⟩ (.cons rfl ⟨_,rfl⟩ trivial)))))
  · rintro _ ⟨⟩
    exact ⟨0,rfl⟩
  · rintro _ ⟨⟩

/-- An `AddRef` that returns has counted one more. -/
theorem step_addRef {c : ℕ} {o : Unit} (hk : s.objs[k]? = some (some (c : ℤ)))
    (hstep : s.step (.addRef k) = .ok (o,s')) :
    c ≠ 2^31-1 ∧ s'.objs[k]? = some (some ((c+1 : ℕ) : ℤ)) := by
  obtain ⟨objs',hadd,hs'⟩ := bind_eq_ok.mp hstep
  obtain ⟨-,rfl⟩ := Prod.mk.inj (Except.ok.inj hs')
  rw [RefCounts.addRef, touch, hk] at hadd
  obtain ⟨obj,hobj,hset⟩ := bind_eq_ok.mp hadd
  obtain rfl := Except.ok.inj hset
  split at hobj
  · cases hobj
  · rename_i hne
    obtain rfl := Except.ok.inj hobj
    refine ⟨by omega,?_⟩
    show (s.objs.set k (some ((c : ℤ)+1)))[k]? = _
    rw [getElem?_set_obj hk, if_pos rfl, Nat.cast_add, Nat.cast_one]

theorem addRefs_admitted {c n : ℕ} (hk : s.objs[k]? = some (some (c : ℤ))) :
    Guarded step Admits s (List.replicate n (.addRef k)) := by
  induction n generalizing s c with
  | zero => trivial
  | succ n ih =>
    refine ⟨?_,fun o s' hstep => ih (step_addRef hk hstep).2⟩
    rintro j ⟨⟩
    exact ⟨c,hk⟩

/-- A run of calls that takes n references more has the room for them. -/
theorem addRefs_fit {c n : ℕ} (hk : s.objs[k]? = some (some (c : ℤ))) (hc : c < 2^31)
    (hrun : Simulated step Holders.Means Refines s t (List.replicate n (.addRef k))) : c+n < 2^31 := by
  induction n generalizing s t c with
  | zero => exact hc
  | succ n ih =>
    obtain ⟨-,o,s',t',hstep,-,hrest⟩ := hrun
    obtain ⟨hne,hk'⟩ := step_addRef hk hstep
    have hfit := ih hk' (by omega) hrest
    omega

/-- The 2³¹st reference to one object. -/
theorem addRefs_not_counted :
    Guarded step Admits start (.new :: List.replicate (2^31) (.addRef 0)) ∧
      ¬Simulated step Holders.Means Refines start ⟨[],[],[]⟩
        (.new :: List.replicate (2^31) (.addRef 0)) := by
  have hnew : (SmartPtrs.objs ⟨[some 0],[],[]⟩)[0]? = some (some ((0 : ℕ) : ℤ)) := rfl
  constructor
  · exact .cons rfl trivial (addRefs_admitted hnew)
  · rintro ⟨-,o,s',t',hstep,-,hrest⟩
    obtain ⟨-,rfl⟩ := Prod.mk.inj (Except.ok.inj hstep)
    have hfit := addRefs_fit hnew (by decide) hrest
    omega

end SmartPtrs

end JhCommon
