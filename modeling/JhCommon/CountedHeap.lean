import JhCommon.Exec

/-! Objects that have their reference count in them, and are deleted with their last reference. To their
users they are just shared: an object is there for as long as anyone refers to it. -/
namespace JhCommon

structure Counted (β : Type) where
  mRefCnt : ℤ
  obj : β

/-- Objects behind addresses, none of which is used twice. -/
structure CountedHeap (β : Type) where
  objs : ℕ → Option (Counted β)
  made : ℕ

namespace CountedHeap
variable {β : Type}

def empty : CountedHeap β := ⟨fun _ => none,0⟩

def set (h : CountedHeap β) (a : ℕ) (c : Option (Counted β)) : CountedHeap β :=
  { h with objs := Function.update h.objs a c }

/-- A new object, with no reference to it. -/
def alloc (h : CountedHeap β) (b : β) : CountedHeap β := { h.set h.made (some ⟨0,b⟩) with made := h.made+1 }

def get (h : CountedHeap β) (a : ℕ) : Exec β :=
  match h.objs a with
  | none => .error .useAfterFree
  | some c => .ok c.obj

/-- The count is an int. -/
def addRef (h : CountedHeap β) (a : ℕ) : Exec (ℤ × CountedHeap β) :=
  match h.objs a with
  | none => .error .useAfterFree
  | some c =>
    if c.mRefCnt < 2^31-1 then .ok (c.mRefCnt+1,h.set a (some { c with mRefCnt := c.mRefCnt+1 }))
    else .error .overflow

def release (h : CountedHeap β) (a : ℕ) : Exec (ℤ × CountedHeap β) :=
  match h.objs a with
  | none => .error .useAfterFree
  | some c =>
    .ok (c.mRefCnt-1,h.set a (if c.mRefCnt-1 = 0 then none else some { c with mRefCnt := c.mRefCnt-1 }))

/-- One more reference to the object can be counted. -/
def RoomFor (h : CountedHeap β) (a : ℕ) : Prop := ∀ c, h.objs a = some c → c.mRefCnt < 2^31-1

/-- The objects ever made are in a list. Those that are there are the ones that are referred to, and the
raw ones, which nobody has referred to yet. -/
structure Shares (h : CountedHeap β) (all : List β) (refs : Multiset ℕ) (raw : Finset ℕ) : Prop where
  made : h.made = all.length
  obj : ∀ a c, h.objs a = some c → all[a]? = some c.obj
  count : ∀ a c, h.objs a = some c → c.mRefCnt = refs.count a
  lives : ∀ a, (h.objs a).isSome ↔ a ∈ refs ∨ a ∈ raw
  unused : ∀ a ∈ raw, a ∉ refs

variable {h : CountedHeap β} {all : List β} {refs : Multiset ℕ} {raw : Finset ℕ} {a : ℕ} {b : β}

theorem empty_shares : (empty : CountedHeap β).Shares [] 0 ∅ where
  made := rfl
  obj a c hc := by cases hc
  count a c hc := by cases hc
  lives a := by simp [empty]
  unused a ha := absurd ha (Finset.notMem_empty a)

@[simp] theorem objs_set (h : CountedHeap β) (a : ℕ) (c : Option (Counted β)) : (h.set a c).objs a = c :=
  Function.update_self ..

theorem objs_set_of_ne (c : Option (Counted β)) {b : ℕ} (hb : b ≠ a) : (h.set a c).objs b = h.objs b :=
  Function.update_of_ne hb ..

namespace Shares

theorem exists_obj (hs : h.Shares all refs raw) (ha : a ∈ refs ∨ a ∈ raw) :
    ∃ c, h.objs a = some c ∧ all[a]? = some c.obj ∧ c.mRefCnt = refs.count a := by
  obtain ⟨c,hc⟩ := Option.isSome_iff_exists.mp ((hs.lives a).mpr ha)
  exact ⟨c,hc,hs.obj a c hc,hs.count a c hc⟩

theorem get (hs : h.Shares all refs raw) (ha : a ∈ refs ∨ a ∈ raw) :
    ∃ b, h.get a = .ok b ∧ all[a]? = some b := by
  obtain ⟨c,hc,hobj,-⟩ := hs.exists_obj ha
  exact ⟨c.obj,by rw [CountedHeap.get, hc],hobj⟩

theorem roomFor (hs : h.Shares all refs raw) (hroom : refs.count a < 2^31-1) : h.RoomFor a := by
  intro c hc
  rw [hs.count a c hc]
  omega

/-- A reference to an object that is there. -/
theorem addRef (hs : h.Shares all refs raw) (ha : a ∈ refs ∨ a ∈ raw) (hroom : h.RoomFor a) :
    ∃ h', h.addRef a = .ok (refs.count a+1,h') ∧ h'.Shares all (a ::ₘ refs) (raw.erase a) := by
  obtain ⟨c,hc,hobj,hcount⟩ := hs.exists_obj ha
  refine ⟨h.set a (some ⟨refs.count a+1,c.obj⟩),?_,?_⟩
  · have hless := hroom c hc
    rw [hcount] at hless
    simp only [CountedHeap.addRef, hc, hcount, if_pos hless]
  constructor
  case made => exact hs.made
  case obj =>
    intro b d hd
    by_cases hb : b = a
    · subst hb
      obtain rfl := Option.some.inj ((objs_set ..).symm.trans hd)
      exact hobj
    · exact hs.obj b d ((objs_set_of_ne _ hb).symm.trans hd)
  case count =>
    intro b d hd
    by_cases hb : b = a
    · subst hb
      obtain rfl := Option.some.inj ((objs_set ..).symm.trans hd)
      simp
    · rw [Multiset.count_cons_of_ne hb]
      exact hs.count b d ((objs_set_of_ne _ hb).symm.trans hd)
  case lives =>
    intro b
    by_cases hb : b = a
    · subst hb
      simp
    · rw [objs_set_of_ne _ hb, hs.lives b]
      simp [hb]
  case unused =>
    intro b hb
    obtain ⟨hne,hmem⟩ := Finset.mem_erase.mp hb
    simpa [hne] using hs.unused b hmem

/-- The last reference takes the object with it. -/
theorem release (hs : h.Shares all refs raw) (ha : a ∈ refs) :
    ∃ h', h.release a = .ok ((refs.erase a).count a,h') ∧ h'.Shares all (refs.erase a) raw := by
  obtain ⟨c,hc,hobj,hcount⟩ := hs.exists_obj (.inl ha)
  have hraw : a ∉ raw := fun hmem => hs.unused a hmem ha
  have hpos := Multiset.count_pos.mpr ha
  have hless : c.mRefCnt-1 = (refs.erase a).count a := by
    rw [hcount, Multiset.count_erase_self]
    omega
  let left : ℤ := (refs.erase a).count a
  refine ⟨h.set a (if left = 0 then none else some ⟨left,c.obj⟩),by
    rw [CountedHeap.release, hc]; simp only [hless, left],?_⟩
  constructor
  case made => exact hs.made
  case obj =>
    intro b d hd
    by_cases hb : b = a
    · subst hb
      rw [objs_set] at hd
      split at hd
      · cases hd
      · obtain rfl := Option.some.inj hd
        exact hobj
    · exact hs.obj b d ((objs_set_of_ne _ hb).symm.trans hd)
  case count =>
    intro b d hd
    by_cases hb : b = a
    · subst hb
      rw [objs_set] at hd
      split at hd
      · cases hd
      · obtain rfl := Option.some.inj hd
        rfl
    · rw [Multiset.count_erase_of_ne hb]
      exact hs.count b d ((objs_set_of_ne _ hb).symm.trans hd)
  case lives =>
    intro b
    by_cases hb : b = a
    · subst hb
      have hleft : left = 0 ↔ b ∉ refs.erase b := by
        rw [← Multiset.count_eq_zero]
        exact Nat.cast_eq_zero
      rw [objs_set]
      split <;> simp_all
    · rw [objs_set_of_ne _ hb, hs.lives b, Multiset.mem_erase_of_ne hb]
  case unused => exact fun b hb hmem => hs.unused b hb (Multiset.mem_of_mem_erase hmem)

/-- A new object is raw, and has an address of its own. -/
theorem alloc (hs : h.Shares all refs raw) (b : β) :
    (h.alloc b).Shares (all ++ [b]) refs (insert all.length raw) := by
  have hold {d : ℕ} (hd : d ∈ refs ∨ d ∈ raw) : d ≠ all.length := by
    obtain ⟨c,-,hobj,-⟩ := hs.exists_obj hd
    exact (List.getElem?_eq_some_iff.mp hobj).1.ne
  have hnew : (h.alloc b).objs all.length = some ⟨0,b⟩ := by
    rw [← hs.made]
    exact objs_set ..
  have hother {d : ℕ} (hd : d ≠ all.length) : (h.alloc b).objs d = h.objs d :=
    objs_set_of_ne _ (hs.made.symm ▸ hd)
  constructor
  case made =>
    rw [List.length_append, List.length_singleton, ← hs.made]
    rfl
  case obj =>
    intro d c hc
    by_cases hd : d = all.length
    · subst hd
      obtain rfl := Option.some.inj (hnew.symm.trans hc)
      simp
    · have hobj := hs.obj d c ((hother hd).symm.trans hc)
      rw [List.getElem?_append_left (List.getElem?_eq_some_iff.mp hobj).1]
      exact hobj
  case count =>
    intro d c hc
    by_cases hd : d = all.length
    · subst hd
      obtain rfl := Option.some.inj (hnew.symm.trans hc)
      have hnone : all.length ∉ refs := fun hmem => hold (.inl hmem) rfl
      rw [Multiset.count_eq_zero_of_notMem hnone]
      rfl
    · exact hs.count d c ((hother hd).symm.trans hc)
  case lives =>
    intro d
    by_cases hd : d = all.length
    · subst hd
      simp [hnew]
    · rw [hother hd, hs.lives d]
      simp [hd]
  case unused =>
    intro d hd hmem
    rcases Finset.mem_insert.mp hd with hnew | hraw
    · exact hold (.inl hmem) hnew
    · exact hs.unused d hraw hmem

end Shares

end CountedHeap

end JhCommon
