import JhCommon.Exec

/-! The reference counts of `RefCount.h`: objects of some type behind addresses, and smart
pointers to them, a NULL pointer being none. An address is never used twice, and the critical section around
the counts is left out. -/
namespace JhCommon

universe u

structure RefCount (β : Type u) where
  mRefCount : ℤ
  obj : β

structure RefHeap (β : Type u) where
  objs : ℕ → Option (RefCount β)
  fresh : ℕ
  ptrs : List (Option ℕ)

namespace RefHeap
variable {β : Type u}

/-- No object, and n pointers that are NULL. -/
def init (n : ℕ) : RefHeap β := { objs := fun _ => none, fresh := 0, ptrs := List.replicate n none }

/-- The heap when x has a reference more. -/
def counted (h : RefHeap β) : Option ℕ → RefHeap β
  | none => h
  | some r =>
    let obj := (h.objs r).map fun c => { c with mRefCount := c.mRefCount+1 }
    { h with objs := Function.update h.objs r obj }

def deref (h : RefHeap β) (r : ℕ) : Exec (RefCount β) :=
  match h.objs r with
  | none => .error .useAfterFree
  | some c => .ok c

/-- `AddRef`, behind the caller's NULL check. The count is an int. -/
def addRef (h : RefHeap β) : Option ℕ → Exec (RefHeap β)
  | none => .ok h
  | some r => do
    let c ← h.deref r
    if c.mRefCount < 2^31-1 then .ok (h.counted (some r)) else .error .overflow

/-- `Release`, behind the caller's NULL check. The last reference deletes the object. -/
def release (h : RefHeap β) : Option ℕ → RefHeap β
  | none => h
  | some r =>
    let obj := (h.objs r).bind fun c =>
      if c.mRefCount-1 = 0 then none else some { c with mRefCount := c.mRefCount-1 }
    { h with objs := Function.update h.objs r obj }

/-- The object that pointer v holds. -/
def held (h : RefHeap β) (v : ℕ) : Option ℕ := (h.ptrs[v]?).join

/-- The heap when pointer v goes over to obj, which has its reference before the old one is given up. -/
def assigned (h : RefHeap β) (v : ℕ) (obj : Option ℕ) : RefHeap β :=
  let h' := (h.counted obj).release (h.held v)
  { h' with ptrs := h'.ptrs.set v obj }

/-- `SmartPtr::operator=( T *obj )` on pointer v. -/
def assign (h : RefHeap β) (v : ℕ) (obj : Option ℕ) : Exec (RefHeap β) := do
  let h' ← h.addRef obj
  let h' := h'.release (h'.held v)
  .ok { h' with ptrs := h'.ptrs.set v obj }

/-- A new object, which nothing holds yet. -/
def alloc (h : RefHeap β) (b : β) : RefHeap β :=
  let obj : RefCount β := { mRefCount := 0, obj := b }
  { h with objs := Function.update h.objs h.fresh (some obj), fresh := h.fresh+1 }

/-- Let pointer v hold a new object, whose count goes from nothing to one. -/
def adopt (h : RefHeap β) (v : ℕ) (b : β) : RefHeap β := (h.alloc b).assigned v (some h.fresh)

/-- Write to the object in place. -/
def put (h : RefHeap β) (r : ℕ) (b : β) : RefHeap β :=
  let obj := (h.objs r).map fun c => { c with obj := b }
  { h with objs := Function.update h.objs r obj }

/-- What pointer v points at, where it is not NULL. -/
def get (h : RefHeap β) (v : ℕ) : Option β := (h.held v).bind fun r => (h.objs r).map RefCount.obj

/-- Every count is the number of holders, and an object exists just as long as it has one, the
object x apart, which may not have been handed over yet. -/
structure SoundBut (h : RefHeap β) (x : Option ℕ) : Prop where
  counts : ∀ r c, h.objs r = some c → c.mRefCount = h.ptrs.count (some r)
  lives : ∀ r, some r ∈ h.ptrs → (h.objs r).isSome
  held : ∀ r, (h.objs r).isSome → some r ≠ x → some r ∈ h.ptrs
  old : ∀ r, (h.objs r).isSome → r < h.fresh

def Sound (h : RefHeap β) : Prop := h.SoundBut none

/-- The objects that exist are the held ones. -/
theorem Sound.isSome_iff {h : RefHeap β} (hs : h.Sound) (r : ℕ) :
    (h.objs r).isSome ↔ some r ∈ h.ptrs := by
  constructor
  · intro hr
    exact hs.held r hr (by simp)
  · exact hs.lives r

theorem Sound.but {h : RefHeap β} (hs : h.Sound) (x : Option ℕ) : h.SoundBut x :=
  ⟨hs.counts, hs.lives, fun r hr _ => hs.held r hr (by simp), hs.old⟩

theorem init_sound (n : ℕ) : (init n : RefHeap β).Sound := by
  constructor <;> simp [init]

theorem held_eq_some {h : RefHeap β} {v r : ℕ} : h.held v = some r ↔ h.ptrs[v]? = some (some r) := by
  simp [held, Option.join_eq_some_iff]

theorem mem_of_held {h : RefHeap β} {v r : ℕ} (hv : h.held v = some r) : some r ∈ h.ptrs :=
  List.mem_of_getElem? (held_eq_some.mp hv)

/-- A held object exists, and its count is positive. -/
theorem SoundBut.exists_obj {h : RefHeap β} {x : Option ℕ} (hs : h.SoundBut x) {v r : ℕ}
    (hv : h.held v = some r) : ∃ c, h.objs r = some c ∧ 1 ≤ c.mRefCount := by
  have hm := mem_of_held hv
  obtain ⟨c,hc⟩ := Option.isSome_iff_exists.mp (hs.lives r hm)
  have hpos := List.count_pos_iff.mpr hm
  refine ⟨c,hc,?_⟩
  rw [hs.counts r c hc]
  omega

theorem ptrs_counted (h : RefHeap β) (x : Option ℕ) : (h.counted x).ptrs = h.ptrs := by
  cases x <;> rfl

theorem ptrs_release (h : RefHeap β) (x : Option ℕ) : (h.release x).ptrs = h.ptrs := by
  cases x <;> rfl

theorem ptrs_assigned (h : RefHeap β) (v : ℕ) (x : Option ℕ) :
    (h.assigned v x).ptrs = h.ptrs.set v x := by
  simp only [assigned, ptrs_release, ptrs_counted]

theorem fresh_assigned (h : RefHeap β) (v : ℕ) (x : Option ℕ) : (h.assigned v x).fresh = h.fresh := by
  simp only [assigned]
  cases h.held v <;> cases x <;> rfl

theorem assign_none (h : RefHeap β) (v : ℕ) : h.assign v none = .ok (h.assigned v none) := rfl

/-- An object whose count has room for a reference is assigned. -/
theorem assign_some {h : RefHeap β} {r : ℕ} {c : RefCount β} (hc : h.objs r = some c)
    (hroom : c.mRefCount < 2^31-1) (v : ℕ) : h.assign v (some r) = .ok (h.assigned v (some r)) := by
  simp only [assign, addRef, deref, hc, ok_bind, if_pos hroom]
  rfl

theorem assign_eq_ok {h h' : RefHeap β} {v : ℕ} {x : Option ℕ} (ha : h.assign v x = .ok h') :
    h' = h.assigned v x ∧ ∀ r, x = some r → (h.objs r).isSome := by
  cases x with
  | none => exact ⟨(Except.ok.inj ha).symm,nofun⟩
  | some r =>
    cases hc : h.objs r with
    | none =>
      simp only [assign, addRef, deref, hc, error_bind] at ha
      cases ha
    | some c =>
      by_cases hroom : c.mRefCount < 2^31-1
      · rw [assign_some hc hroom] at ha
        refine ⟨(Except.ok.inj ha).symm,?_⟩
        rintro r' ⟨⟩
        rw [hc]
        rfl
      · simp only [assign, addRef, deref, hc, ok_bind, if_neg hroom, error_bind] at ha
        cases ha

theorem held_assigned (h : RefHeap β) {v : ℕ} (hv : v < h.ptrs.length) (x : Option ℕ) :
    (h.assigned v x).held v = x := by
  rw [held, ptrs_assigned, List.getElem?_set_self hv, Option.join_some]

theorem held_assigned_of_ne (h : RefHeap β) {v w : ℕ} (hw : w ≠ v) (x : Option ℕ) :
    (h.assigned v x).held w = h.held w := by
  rw [held, ptrs_assigned, List.getElem?_set_ne hw.symm, held]

theorem objs_counted (h : RefHeap β) (x : Option ℕ) (r : ℕ) :
    (h.counted x).objs r = (h.objs r).map fun c =>
      { c with mRefCount := c.mRefCount+(if x = some r then 1 else 0) } := by
  cases x with
  | none => simp [counted]
  | some y =>
    by_cases hy : y = r
    · subst hy
      simp [counted]
    · simp [counted, hy, Function.update_of_ne (Ne.symm hy)]

theorem objs_release (h : RefHeap β) (x : Option ℕ) (r : ℕ) :
    (h.release x).objs r = (h.objs r).bind fun c =>
      if x = some r ∧ c.mRefCount-1 = 0 then none
      else some { c with mRefCount := c.mRefCount-(if x = some r then 1 else 0) } := by
  cases x with
  | none => cases hr : h.objs r <;> simp [release, hr]
  | some y =>
    by_cases hy : y = r
    · subst hy
      simp [release]
    · cases hr : h.objs r <;> simp [release, hy, hr, Function.update_of_ne (Ne.symm hy)]

/-- An object gains a reference when it is assigned and loses one when it is assigned over; it
goes away when it loses the last. -/
theorem objs_assigned (h : RefHeap β) (v : ℕ) (x : Option ℕ) (r : ℕ) :
    (h.assigned v x).objs r = (h.objs r).bind fun c =>
      let n := c.mRefCount+(if x = some r then 1 else 0)
      if h.held v = some r ∧ n-1 = 0 then none
      else some { c with mRefCount := n-(if h.held v = some r then 1 else 0) } := by
  simp only [assigned, objs_release, objs_counted, Option.bind_map, Function.comp_def]

/-- How the holders of r change when pointer v goes over to x. -/
theorem count_assigned (h : RefHeap β) {v : ℕ} (hv : v < h.ptrs.length) (x : Option ℕ) (r : ℕ) :
    ((h.assigned v x).ptrs.count (some r) : ℤ) =
      h.ptrs.count (some r)+(if x = some r then 1 else 0)-(if h.held v = some r then 1 else 0) := by
  have hget : h.held v = h.ptrs[v] := by
    rw [held, List.getElem?_eq_getElem hv, Option.join_some]
  rw [ptrs_assigned, List.count_set hv, hget]
  by_cases ho : h.ptrs[v] = some r
  · have hpos : 0 < h.ptrs.count (some r) := List.count_pos_iff.mpr (ho ▸ List.getElem_mem hv)
    simp only [ho, beq_self_eq_true, if_true, beq_iff_eq]
    push_cast [hpos]
    ring
  · simp only [beq_iff_eq, ho, if_false, Nat.sub_zero, sub_zero]
    push_cast
    rfl

/-- After an assignment the counts are the holders again. -/
theorem SoundBut.objs_assigned {h : RefHeap β} {y : Option ℕ} (hs : h.SoundBut y) {v : ℕ}
    (hv : v < h.ptrs.length) (x : Option ℕ) (r : ℕ) :
    (h.assigned v x).objs r = (h.objs r).bind fun c =>
      if h.held v = some r ∧ ((h.assigned v x).ptrs.count (some r) : ℤ) = 0 then none
      else some { c with mRefCount := (h.assigned v x).ptrs.count (some r) } := by
  rw [RefHeap.objs_assigned, count_assigned h hv]
  cases hr : h.objs r with
  | none => rfl
  | some c =>
    simp only [Option.bind_some, hs.counts r c hr]
    by_cases ho : h.held v = some r
    · simp only [ho, true_and, if_true]
    · simp only [ho, false_and, if_false]

/-- Assigning a pointer hands a pending object over and keeps the counts. -/
theorem SoundBut.assigned {h : RefHeap β} {x : Option ℕ} (hs : h.SoundBut x) {v : ℕ}
    (hv : v < h.ptrs.length) (hx : ∀ r, x = some r → (h.objs r).isSome) : (h.assigned v x).Sound := by
  constructor
  · intro r c hc
    rw [hs.objs_assigned hv] at hc
    obtain ⟨c₀,-,hc⟩ := Option.bind_eq_some_iff.mp hc
    split_ifs at hc
    rw [← Option.some.inj hc]
  · intro r hr
    have hpos := List.count_pos_iff.mpr hr
    have hobj : (h.objs r).isSome := by
      rw [ptrs_assigned] at hr
      rcases List.mem_or_eq_of_mem_set hr with hr | hr
      · exact hs.lives r hr
      · exact hx r hr.symm
    obtain ⟨c,hc⟩ := Option.isSome_iff_exists.mp hobj
    rw [hs.objs_assigned hv, hc, Option.bind_some, if_neg (by omega)]
    rfl
  · intro r hr _
    obtain ⟨c,hc⟩ := Option.isSome_iff_exists.mp hr
    rw [hs.objs_assigned hv] at hc
    obtain ⟨c₀,hc₀,hc⟩ := Option.bind_eq_some_iff.mp hc
    apply List.count_pos_iff.mp
    by_contra hpos
    have hzero : ((h.assigned v x).ptrs.count (some r) : ℤ) = 0 := by omega
    -- It was not assigned over, so without a holder now it neither had one nor gained one.
    have ho : h.held v ≠ some r := by
      intro ho
      rw [if_pos ⟨ho,hzero⟩] at hc
      cases hc
    rw [count_assigned h hv, if_neg ho] at hzero
    by_cases hx' : some r = x
    · rw [if_pos hx'.symm] at hzero
      omega
    · have := List.count_pos_iff.mpr (hs.held r (by rw [hc₀]; rfl) hx')
      rw [if_neg (Ne.symm hx')] at hzero
      omega
  · intro r hr
    rw [fresh_assigned]
    apply hs.old
    obtain ⟨c,hc⟩ := Option.isSome_iff_exists.mp hr
    rw [hs.objs_assigned hv] at hc
    obtain ⟨c₀,hc₀,-⟩ := Option.bind_eq_some_iff.mp hc
    rw [hc₀]
    rfl

theorem get_eq_some {h : RefHeap β} {v : ℕ} {b : β} :
    h.get v = some b ↔ ∃ r c, h.held v = some r ∧ h.objs r = some c ∧ c.obj = b := by
  simp [get, Option.bind_eq_some_iff]

/-- No other pointer sees an assignment. -/
theorem SoundBut.get_assigned_of_ne {h : RefHeap β} {x : Option ℕ} (hs : h.SoundBut x) {v w : ℕ}
    (hv : v < h.ptrs.length) (hx : ∀ r, x = some r → (h.objs r).isSome) (hw : w ≠ v) :
    (h.assigned v x).get w = h.get w := by
  rw [get, held_assigned_of_ne h hw, get]
  cases hr : h.held w with
  | none => rfl
  | some r =>
    -- w still holds its object, so the object is still there
    have hr' := hr
    rw [← held_assigned_of_ne h hw x] at hr'
    obtain ⟨c,hc,-⟩ := (hs.assigned hv hx).exists_obj hr'
    obtain ⟨c₀,hc₀,hc'⟩ := Option.bind_eq_some_iff.mp ((hs.objs_assigned hv x r).symm.trans hc)
    split_ifs at hc'
    rw [Option.bind_some, Option.bind_some, hc, hc₀, ← Option.some.inj hc']
    rfl

/-- Two pointers share their object after an assignment. -/
theorem Sound.get_assigned {h : RefHeap β} (hs : h.Sound) {v w : ℕ} (hv : v < h.ptrs.length)
    {r : ℕ} (hw : h.held w = some r) : (h.assigned v (some r)).get v = h.get w := by
  obtain ⟨c,hc,-⟩ := hs.exists_obj hw
  rw [get, held_assigned h hv, get, hw, Option.bind_some, Option.bind_some]
  have hpos := count_assigned h hv (some r) r
  have hold := List.count_pos_iff.mpr (mem_of_held hw)
  rw [if_pos rfl] at hpos
  rw [(hs.but none).objs_assigned hv, hc, Option.bind_some, if_neg]
  · rfl
  · intro hz
    rw [if_pos hz.1] at hpos
    omega

@[simp] theorem objs_alloc_self (h : RefHeap β) (b : β) :
    (h.alloc b).objs h.fresh = some { mRefCount := 0, obj := b } := by
  simp [alloc]

theorem objs_alloc_of_ne (h : RefHeap β) (b : β) {r : ℕ} (hr : r ≠ h.fresh) :
    (h.alloc b).objs r = h.objs r := by
  simp [alloc, Function.update_of_ne hr]

theorem held_lt {h : RefHeap β} {v r : ℕ} (hv : h.held v = some r) : v < h.ptrs.length :=
  (List.getElem?_eq_some_iff.mp (held_eq_some.mp hv)).1

theorem Sound.held_lt_fresh {h : RefHeap β} (hs : h.Sound) {v r : ℕ} (hv : h.held v = some r) :
    r < h.fresh :=
  hs.old r (hs.lives r (mem_of_held hv))

theorem Sound.alloc {h : RefHeap β} (hs : h.Sound) (b : β) : (h.alloc b).SoundBut (some h.fresh) := by
  have hnot : some h.fresh ∉ h.ptrs := fun hm => Nat.lt_irrefl _ (hs.old _ (hs.lives _ hm))
  constructor
  · intro r c hc
    by_cases hr : r = h.fresh
    · subst hr
      rw [objs_alloc_self] at hc
      rw [← Option.some.inj hc]
      show (0 : ℤ) = (h.ptrs.count (some h.fresh) : ℕ)
      rw [List.count_eq_zero_of_not_mem hnot]
      rfl
    · rw [objs_alloc_of_ne h b hr] at hc
      exact hs.counts r c hc
  · intro r hr
    have hr' : r ≠ h.fresh := fun he => hnot (he ▸ hr)
    rw [objs_alloc_of_ne h b hr']
    exact hs.lives r hr
  · intro r hr hne
    have hr' : r ≠ h.fresh := fun he => hne (by rw [he])
    rw [objs_alloc_of_ne h b hr'] at hr
    exact hs.held r hr (by simp)
  · intro r hr
    by_cases hr' : r = h.fresh
    · subst hr'
      exact Nat.lt_succ_self _
    · rw [objs_alloc_of_ne h b hr'] at hr
      exact Nat.lt_succ_of_lt (hs.old r hr)

section Adopt
variable {h : RefHeap β} {v : ℕ}

/-- To adopt an object is to make it and to assign it. -/
theorem assign_alloc (b : β) : (h.alloc b).assign v (some h.fresh) = .ok (h.adopt v b) :=
  assign_some (objs_alloc_self h b) (by norm_num) v

theorem Sound.adopt (hs : h.Sound) (hv : v < h.ptrs.length) (b : β) : (h.adopt v b).Sound := by
  apply (hs.alloc b).assigned hv
  intro r hr
  rw [← Option.some.inj hr, objs_alloc_self]
  rfl

theorem held_adopt (hv : v < h.ptrs.length) (b : β) : (h.adopt v b).held v = some h.fresh :=
  held_assigned (h.alloc b) hv _

theorem held_adopt_of_ne {w : ℕ} (hw : w ≠ v) (b : β) : (h.adopt v b).held w = h.held w :=
  held_assigned_of_ne (h.alloc b) hw _

/-- An object that the pointer did not hold stays as it is. -/
theorem objs_adopt_of_ne {r : ℕ} (hr : r ≠ h.fresh) (hheld : h.held v ≠ some r) (b : β) :
    (h.adopt v b).objs r = h.objs r := by
  have hheld' : (h.alloc b).held v ≠ some r := hheld
  have hne : some h.fresh ≠ some r := fun he => hr (Option.some.inj he).symm
  rw [RefHeap.adopt, RefHeap.objs_assigned, objs_alloc_of_ne h b hr]
  cases h.objs r <;> simp [hheld', hne]

theorem length_adopt (b : β) : (h.adopt v b).ptrs.length = h.ptrs.length := by
  rw [RefHeap.adopt, ptrs_assigned, List.length_set]
  rfl

theorem Sound.get_adopt_of_ne (hs : h.Sound) (hv : v < h.ptrs.length) {w : ℕ} (hw : w ≠ v) (b : β) :
    (h.adopt v b).get w = h.get w := by
  have hget : (h.alloc b).get w = h.get w := by
    rw [get, get]
    cases hr : h.held w with
    | none =>
      have hr' : (h.alloc b).held w = none := hr
      rw [hr', Option.bind_none, Option.bind_none]
    | some r =>
      have hr' : (h.alloc b).held w = some r := hr
      rw [hr', Option.bind_some, Option.bind_some,
        objs_alloc_of_ne h b (Nat.ne_of_lt (hs.held_lt_fresh hr))]
  rw [← hget]
  apply (hs.alloc b).get_assigned_of_ne hv _ hw
  intro r hr
  rw [← Option.some.inj hr, objs_alloc_self]
  rfl

theorem Sound.get_adopt (hs : h.Sound) (hv : v < h.ptrs.length) (b : β) :
    (h.adopt v b).get v = some b := by
  have hheld : h.held v ≠ some h.fresh := fun he => Nat.lt_irrefl _ (hs.held_lt_fresh he)
  have hheld' : (h.alloc b).held v ≠ some h.fresh := hheld
  rw [get, held_adopt hv, Option.bind_some, RefHeap.adopt, RefHeap.objs_assigned, objs_alloc_self]
  simp [hheld']

end Adopt

section Put
variable {h : RefHeap β} {r : ℕ}

theorem objs_put_of_ne (b : β) {r' : ℕ} (hr : r' ≠ r) : (h.put r b).objs r' = h.objs r' := by
  simp [put, Function.update_of_ne hr]

theorem objs_put_self (b : β) :
    (h.put r b).objs r = (h.objs r).map fun c => { c with obj := b } := by
  simp [put]

theorem isSome_objs_put (b : β) (r' : ℕ) : ((h.put r b).objs r').isSome = (h.objs r').isSome := by
  by_cases hr : r' = r
  · subst hr
    rw [objs_put_self, Option.isSome_map]
  · rw [objs_put_of_ne b hr]

theorem Sound.put (hs : h.Sound) (b : β) : (h.put r b).Sound := by
  constructor
  · intro r' c hc
    by_cases hr : r' = r
    · subst hr
      rw [objs_put_self] at hc
      obtain ⟨c₀,hc₀,rfl⟩ := Option.map_eq_some_iff.mp hc
      exact hs.counts r' c₀ hc₀
    · rw [objs_put_of_ne b hr] at hc
      exact hs.counts r' c hc
  · intro r' hr
    rw [isSome_objs_put]
    exact hs.lives r' hr
  · intro r' hr hne
    rw [isSome_objs_put] at hr
    exact hs.held r' hr hne
  · intro r' hr
    rw [isSome_objs_put] at hr
    exact hs.old r' hr

theorem get_put_of_held_ne {w : ℕ} (hw : h.held w ≠ some r) (b : β) :
    (h.put r b).get w = h.get w := by
  rw [get, get]
  cases hr : h.held w with
  | none =>
    have hr' : (h.put r b).held w = none := hr
    rw [hr', Option.bind_none, Option.bind_none]
  | some r' =>
    have hr' : (h.put r b).held w = some r' := hr
    have hne : r' ≠ r := by
      intro he
      exact hw (he ▸ hr)
    rw [hr', Option.bind_some, Option.bind_some, objs_put_of_ne b hne]

theorem Sound.get_put (hs : h.Sound) {w : ℕ} (hw : h.held w = some r) (b : β) :
    (h.put r b).get w = some b := by
  obtain ⟨c,hc,-⟩ := hs.exists_obj hw
  have hw' : (h.put r b).held w = some r := hw
  rw [get, hw', Option.bind_some, objs_put_self, hc]
  rfl

end Put

/-- No other pointer holds the object of pointer v. -/
def Alone (h : RefHeap β) (v : ℕ) : Prop := ∀ w, w ≠ v → ∀ r, h.held v = some r → h.held w ≠ some r

/-- The test that a writer makes: with a count of one, no other pointer holds the object. -/
theorem Sound.alone {h : RefHeap β} (hs : h.Sound) {v r : ℕ} (hv : h.held v = some r) {c : RefCount β}
    (hc : h.objs r = some c) (hone : c.mRefCount ≤ 1) : h.Alone v := by
  intro w hw r' hr' hwr
  rw [hv] at hr'
  rw [← Option.some.inj hr'] at hwr
  have hcount := count_assigned h (held_lt hv) none r
  rw [if_pos hv, ← hs.counts r c hc] at hcount
  have hstill : (h.assigned v none).held w = some r := by rw [held_assigned_of_ne h hw, hwr]
  have hpos := List.count_pos_iff.mpr (mem_of_held hstill)
  simp only [reduceCtorEq, if_false] at hcount
  omega

/-- With a count above one, another pointer holds the object too. -/
theorem Sound.exists_other {h : RefHeap β} (hs : h.Sound) {v r : ℕ} (hv : h.held v = some r)
    {c : RefCount β} (hc : h.objs r = some c) (htwo : 1 < c.mRefCount) :
    ∃ w, w ≠ v ∧ h.held w = some r := by
  have hcount := count_assigned h (held_lt hv) none r
  rw [if_pos hv, ← hs.counts r c hc] at hcount
  simp only [reduceCtorEq, if_false] at hcount
  have hpos : 0 < (h.assigned v none).ptrs.count (some r) := by omega
  obtain ⟨w,hw⟩ := List.getElem?_of_mem (List.count_pos_iff.mp hpos)
  have hw := held_eq_some.mpr hw
  by_cases hwv : w = v
  · rw [hwv, held_assigned h (held_lt hv)] at hw
    cases hw
  · rw [held_assigned_of_ne h hwv] at hw
    exact ⟨w,hwv,hw⟩

theorem Sound.alone_adopt {h : RefHeap β} (hs : h.Sound) {v : ℕ} (hv : v < h.ptrs.length) (b : β) :
    (h.adopt v b).Alone v := by
  intro w hw r hr hwr
  rw [held_adopt hv] at hr
  rw [held_adopt_of_ne hw, ← Option.some.inj hr] at hwr
  exact Nat.lt_irrefl _ (hs.held_lt_fresh hwr)

end RefHeap

end JhCommon
