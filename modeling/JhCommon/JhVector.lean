import JhCommon.Holdings
import JhCommon.ObjectSlots

/-! The vector of `jh_vector.h`. Its objects stand in a buffer of raw bytes, one slot for each that
there is room for, and are constructed and destroyed by hand. A NULL pointer is none, and what the
default constructor of an element makes is `default`. Allocation does not fail. -/
namespace JhCommon
open ObjectSlots

structure JhVector where
  mAllocated : ℕ
  mData : Option ℕ
  mSize : ℕ
  deriving DecidableEq

namespace JhVector
variable {T : Type}

abbrev DEFAULT_ALLOCATION : ℕ := 32

/-- The buffer that a pointer points at. -/
def ptr : Option ℕ → Except SlotFault ℕ
  | none => .error .noBuffer
  | some p => .ok p

/-- `vector( unsigned allocated )`. -/
def createSized (h : ObjectSlots T) (allocated : ℕ) : JhVector × ObjectSlots T :=
  let (p,h) := h.newBuf allocated
  (⟨allocated,some p,0⟩,h)

/-- The default constructor. -/
def create (h : ObjectSlots T) : JhVector × ObjectSlots T := createSized h DEFAULT_ALLOCATION

/-- `operator[]`. Behind the end it is a reference to NULL. -/
def get (v : JhVector) (h : ObjectSlots T) (ind : ℕ) : Except SlotFault T :=
  if ind ≥ v.mSize then .error .noBuffer
  else do
    let p ← ptr v.mData
    h.read p ind

/-- Move to a buffer of newSize slots, or of twice as many if that is 0. -/
def sizeup (v : JhVector) (h : ObjectSlots T) (newSize : ℕ) :
    Except SlotFault (JhVector × ObjectSlots T) := do
  -- no size was given: twice what there is, in 32 bits, or the default
  let newSize :=
    if newSize = 0 then if v.mAllocated ≠ 0 then v.mAllocated*2 % 2^32 else DEFAULT_ALLOCATION
    else newSize
  let (temp,h) := h.newBuf newSize
  let h ← match v.mData with
    | none => .ok h
    | some p => do
      -- copy, then destroy: an object is never moved as bytes
      let h ← forRange 0 v.mSize (fun i h => do
        let val ← h.read p i
        let h ← h.construct temp i val
        h.destroy p i) h
      h.deleteBuf p
  .ok ({ v with mData := some temp, mAllocated := newSize },h)

/-- `sizeup` behind an if. -/
def sizeupIf (v : JhVector) (h : ObjectSlots T) (full : Prop) [Decidable full] (newSize : ℕ) :
    Except SlotFault (JhVector × ObjectSlots T) :=
  if full then v.sizeup h newSize else .ok (v,h)

def clear (v : JhVector) (h : ObjectSlots T) : Except SlotFault (JhVector × ObjectSlots T) := do
  let h ← forRange 0 v.mSize (fun i h => do
    let p ← ptr v.mData
    h.destroy p i) h
  .ok ({ v with mSize := 0 },h)

/-- `operator=`. -/
def assign (v : JhVector) (h : ObjectSlots T) (rhs : JhVector) :
    Except SlotFault (JhVector × ObjectSlots T) := do
  let (v,h) ← v.clear h
  -- nothing is in use any more, so that a growing buffer has nothing to copy
  let (v,h) ← v.sizeupIf h (v.mAllocated < rhs.mSize) rhs.mSize
  let h ← forRange 0 rhs.mSize (fun i h => do
    let q ← ptr rhs.mData
    let val ← h.read q i
    let p ← ptr v.mData
    h.construct p i val) h
  .ok ({ v with mSize := rhs.mSize },h)

/-- The copy constructor. -/
def copy (h : ObjectSlots T) (rhs : JhVector) : Except SlotFault (JhVector × ObjectSlots T) :=
  assign ⟨0,none,0⟩ h rhs

/-- The destructor. -/
def destroy (v : JhVector) (h : ObjectSlots T) : Except SlotFault (ObjectSlots T) :=
  match v.mData with
  | none => .ok h
  | some p => do
    let (_,h) ← v.clear h
    h.deleteBuf p

def pushBack (v : JhVector) (h : ObjectSlots T) (val : T) :
    Except SlotFault (JhVector × ObjectSlots T) := do
  let (v,h) ← v.sizeupIf h (v.mSize = v.mAllocated) 0
  let p ← ptr v.mData
  let h ← h.construct p v.mSize val
  .ok ({ v with mSize := (v.mSize+1) % 2^32 },h)

def erase (v : JhVector) (h : ObjectSlots T) (ind : ℕ) :
    Except SlotFault (JhVector × ObjectSlots T) :=
  if ind ≥ v.mSize then .error .abort
  else do
    let p ← ptr v.mData
    -- the objects stay where they are, and their values move down by one
    let h ← forRange ind (v.mSize-1) (fun i h => do
      let val ← h.read p (i+1)
      h.assign p i val) h
    -- the last value stands there twice now
    let h ← h.destroy p (v.mSize-1)
    .ok ({ v with mSize := v.mSize-1 },h)

def reserve (v : JhVector) (h : ObjectSlots T) (size : ℕ) :
    Except SlotFault (JhVector × ObjectSlots T) :=
  v.sizeupIf h (v.mAllocated < size) size

def resize [Inhabited T] (v : JhVector) (h : ObjectSlots T) (newSize : ℕ) :
    Except SlotFault (JhVector × ObjectSlots T) := do
  let (v,h) ← v.sizeupIf h (v.mAllocated < newSize)
    (if newSize < v.mAllocated*2 % 2^32 then 0 else newSize)
  -- one of the two loops has nothing to do
  let h ← forRange newSize v.mSize (fun i h => do
    let p ← ptr v.mData
    h.destroy p i) h
  let h ← forRange v.mSize newSize (fun i h => do
    let p ← ptr v.mData
    h.construct p i default) h
  .ok ({ v with mSize := newSize },h)

def size (v : JhVector) : ℕ := v.mSize

def isEmpty (v : JhVector) : Bool := v.mSize = 0

/-- The slots that the vector has. -/
def slots (v : JhVector) (h : ObjectSlots T) : List (Option (ℕ × T)) :=
  (v.mData.bind h.bufs.cells).getD []

/-- The vector has these objects, in the first slots of its buffer; the others are raw. -/
structure Has (v : JhVector) (h : ObjectSlots T) (xs : List (ℕ × T)) : Prop where
  size : v.mSize = xs.length
  le : v.mSize ≤ v.mAllocated
  slots : v.slots h = xs.map some ++ List.replicate (v.mAllocated-v.mSize) none
  there : ∀ p, v.mData = some p → (h.bufs.cells p).isSome
  small : v.mSize < 2^31
  room : v.mAllocated < 2^32

/-- What a call has done: the vector has objects ys for xs now, in its own buffer or in a new one,
and no other buffer has changed. Together with the objects that have been destroyed they are the old
ones and those that have been constructed. -/
structure Becomes (v : JhVector) (h : ObjectSlots T) (xs : List (ℕ × T)) (v' : JhVector)
    (h' : ObjectSlots T) (ys : List (ℕ × T)) : Prop where
  has : v'.Has h' ys
  frame : ∀ q < h.bufs.made, some q ≠ v.mData → h'.bufs.cells q = h.bufs.cells q
  data : ∀ q, v'.mData = some q → v.mData = some q ∨ h.bufs.made ≤ q
  made : h.bufs.made ≤ h'.bufs.made
  once : ∃ k ds, h'.born = h.born+k ∧ h'.dead = h.dead ++ ds ∧
    (ys.map Prod.fst ++ ds).Perm (xs.map Prod.fst ++ List.range' h.born k)

section Calls
variable {v v' v'' w : JhVector} {h h' h'' : ObjectSlots T} {xs ys zs : List (ℕ × T)} {p q i : ℕ}

theorem Has.mData_eq_none (hv : v.Has h xs) (hp : v.mData = none) : xs = [] ∧ v.mAllocated = 0 := by
  have hslots := hv.slots
  have hsize := hv.size
  have hle := hv.le
  rw [JhVector.slots, hp] at hslots
  obtain ⟨hxs,hrest⟩ := List.append_eq_nil_iff.mp hslots.symm
  obtain rfl := List.map_eq_nil_iff.mp hxs
  have hcount := congrArg List.length hrest
  simp at hcount hsize
  exact ⟨rfl,by omega⟩

theorem Has.cells (hv : v.Has h xs) (hp : v.mData = some p) :
    h.bufs.cells p = some (xs.map some ++ List.replicate (v.mAllocated-v.mSize) none) := by
  have hslots := hv.slots
  obtain ⟨b,hb⟩ := Option.isSome_iff_exists.mp (hv.there p hp)
  rw [JhVector.slots, hp, Option.bind_some, hb, Option.getD_some] at hslots
  rw [hb, hslots]

theorem Has.lt_made (hv : v.Has h xs) (hp : v.mData = some p) : p < h.bufs.made :=
  CellHeap.lt_made (hv.cells hp)

/-- A vector whose buffer holds the objects. -/
theorem Has.of_cells (hdata : v.mData = some p) (hsize : v.mSize = xs.length)
    (hle : v.mSize ≤ v.mAllocated) (hsmall : v.mSize < 2^31) (hroom : v.mAllocated < 2^32)
    (hp : h.bufs.cells p = some (xs.map some ++ List.replicate (v.mAllocated-v.mSize) none)) :
    v.Has h xs := by
  refine ⟨hsize,hle,?_,?_,hsmall,hroom⟩
  · rw [JhVector.slots, hdata, Option.bind_some, hp, Option.getD_some]
  · intro q hq
    obtain rfl := Option.some.inj (hdata.symm.trans hq)
    rw [hp]
    rfl

/-- What happens to other buffers does not matter to a vector. -/
theorem Has.keep (hv : v.Has h xs) (hframe : ∀ p, v.mData = some p → h'.bufs.cells p = h.bufs.cells p) :
    v.Has h' xs := by
  have hbind : v.mData.bind h'.bufs.cells = v.mData.bind h.bufs.cells := by
    cases hp : v.mData with
    | none => rfl
    | some p => exact hframe p hp
  refine ⟨hv.size,hv.le,?_,?_,hv.small,hv.room⟩
  · rw [JhVector.slots, hbind]
    exact hv.slots
  · intro p hp
    rw [hframe p hp]
    exact hv.there p hp

theorem Becomes.refl (hv : v.Has h xs) : Becomes v h xs v h xs := by
  refine ⟨hv,fun _ _ _ => rfl,fun _ hq => .inl hq,le_refl _,0,[],rfl,(List.append_nil _).symm,?_⟩
  simp

theorem Becomes.trans (hb : Becomes v h xs v' h' ys) (hb' : Becomes v' h' ys v'' h'' zs) :
    Becomes v h xs v'' h'' zs := by
  obtain ⟨k,ds,hborn,hdead,hperm⟩ := hb.once
  obtain ⟨j,es,hborn',hdead',hperm'⟩ := hb'.once
  refine ⟨hb'.has,?_,?_,hb.made.trans hb'.made,k+j,ds ++ es,?_,?_,?_⟩
  · intro q hq hne
    rw [hb'.frame q (hq.trans_le hb.made), hb.frame q hq hne]
    intro hq'
    rcases hb.data q hq'.symm with hold | hnew
    · exact hne hold.symm
    · omega
  · intro q hq
    rcases hb'.data q hq with hold | hnew
    · exact hb.data q hold
    · exact .inr (hb.made.trans hnew)
  · rw [hborn', hborn, Nat.add_assoc]
  · rw [hdead', hdead, List.append_assoc]
  · -- what was destroyed in either call, and what is left
    calc (zs.map Prod.fst ++ (ds ++ es)).Perm ((zs.map Prod.fst ++ es) ++ ds) := by
          rw [← List.append_assoc]
          exact perm_swap_right _ ds es
      _ |>.Perm ((ys.map Prod.fst ++ List.range' h'.born j) ++ ds) := hperm'.append_right ds
      _ |>.Perm ((ys.map Prod.fst ++ ds) ++ List.range' h'.born j) := perm_swap_right _ _ ds
      _ |>.Perm ((xs.map Prod.fst ++ List.range' h.born k) ++ List.range' h'.born j) :=
          hperm.append_right _
      _ = xs.map Prod.fst ++ List.range' h.born (k+j) := by
          rw [List.append_assoc, hborn, List.range'_append_1]

/-- A call that works in the vector's own buffer. -/
theorem Becomes.of_changes {k : ℕ} {ds : List ℕ} (hdata : v.mData = some p) (hdata' : v'.mData = some p)
    (hv' : v'.Has h' ys) (hc : Changes h h' {p} k ds)
    (hperm : (ys.map Prod.fst ++ ds).Perm (xs.map Prod.fst ++ List.range' h.born k)) :
    Becomes v h xs v' h' ys := by
  refine ⟨hv',?_,?_,hc.made.ge,k,ds,hc.born,hc.dead,hperm⟩
  · intro q _ hne
    exact hc.frame q fun hq => hne (hdata ▸ congrArg some hq)
  · exact fun q hq => .inl (hdata.trans (hdata'.symm.trans hq))

/-- What stands for a vector before it is constructed and behind its destruction. -/
def blank : JhVector := ⟨0,none,0⟩

theorem blank_has (h : ObjectSlots T) : blank.Has h [] :=
  ⟨rfl,le_refl _,rfl,fun _ hp => absurd hp (Option.some_ne_none _).symm,Nat.two_pow_pos 31,
    Nat.two_pow_pos 32⟩

/-- A vector in a buffer that has just been made. -/
theorem newBuf_becomes (v : JhVector) (h : ObjectSlots T) {n : ℕ} (hn : n < 2^32) :
    Becomes v h [] ⟨n,some (h.newBuf n).1,0⟩ (h.newBuf n).2 [] := by
  refine ⟨.of_cells rfl rfl (Nat.zero_le n) (Nat.two_pow_pos 31) hn ?_,?_,?_,Nat.le_succ _,0,[],rfl,?_,?_⟩
  · simp [newBuf]
  · intro q hq _
    exact Function.update_of_ne hq.ne _ _
  · intro q hq
    exact .inr (Option.some.inj hq).le
  · exact (List.append_nil _).symm
  · simp

theorem createSized_becomes (h : ObjectSlots T) {n : ℕ} (hn : n < 2^32) :
    Becomes blank h [] (createSized h n).1 (createSized h n).2 [] :=
  newBuf_becomes blank h hn

/-- All objects are destroyed, and the room stays. -/
theorem clear_becomes (hv : v.Has h xs) : ∃ h', v.clear h = .ok ({ v with mSize := 0 },h') ∧
    Becomes v h xs { v with mSize := 0 } h' [] := by
  rcases Option.eq_none_or_eq_some v.mData with hp | ⟨p,hp⟩
  · obtain ⟨rfl,halloc⟩ := hv.mData_eq_none hp
    have hv₀ : Has { v with mSize := 0 } h [] := by
      refine ⟨rfl,Nat.zero_le _,?_,hv.there,Nat.two_pow_pos 31,hv.room⟩
      simp [JhVector.slots, hp, halloc]
    have hloop : v.clear h = .ok ({ v with mSize := 0 },h) := by
      rw [clear, forRange_of_le (by rw [hv.size]; rfl), ok_bind]
    refine ⟨h,hloop,hv₀,fun _ _ _ => rfl,fun _ hq => .inl hq,le_refl _,0,[],rfl,?_,?_⟩
    · exact (List.append_nil _).symm
    · simp
  · obtain ⟨h',hloop,hp',hc⟩ := destroy_range (l := []) (i := 0) (by simpa using hv.cells hp) rfl
      (show v.mSize = 0+xs.length by rw [hv.size, Nat.zero_add])
    have hslots : xs.length+(v.mAllocated-v.mSize) = v.mAllocated-0 := by
      have := hv.le
      have := hv.size
      omega
    refine ⟨h',?_,.of_changes hp hp (.of_cells hp rfl (Nat.zero_le _) (Nat.two_pow_pos 31) hv.room ?_) hc ?_⟩
    · simp only [clear, hp, ptr, ok_bind, hloop]
    · rw [hp', List.nil_append, List.replicate_append_replicate, hslots]
      rfl
    · simp

/-- The objects are moved to a buffer with room for n. -/
theorem sizeup_becomes {newSize n : ℕ} (hv : v.Has h xs)
    (hn : (if newSize = 0 then if v.mAllocated ≠ 0 then v.mAllocated*2 % 2^32 else DEFAULT_ALLOCATION
      else newSize) = n) (hle : v.mSize ≤ n) (hroom : n < 2^32) :
    ∃ v' h' ys, v.sizeup h newSize = .ok (v',h') ∧ Becomes v h xs v' h' ys ∧
      ys.map Prod.snd = xs.map Prod.snd ∧ v'.mSize = v.mSize ∧ v'.mAllocated = n ∧
      v'.mData = some h.bufs.made := by
  rcases Option.eq_none_or_eq_some v.mData with hp | ⟨q,hp⟩
  · obtain ⟨rfl,-⟩ := hv.mData_eq_none hp
    have hsize : v.mSize = 0 := hv.size
    refine ⟨⟨n,some h.bufs.made,0⟩,(h.newBuf n).2,[],?_,newBuf_becomes v h hroom,rfl,hsize.symm,
      rfl,rfl⟩
    simp only [sizeup, hn, hp, ok_bind, hsize]
    rfl
    -- the new buffer is made before the old one is read
  · have hlt := hv.lt_made hp
    have hsize := hv.size
    let h₀ := (h.newBuf n).2
    have hq₀ : h₀.bufs.cells q = h.bufs.cells q := Function.update_of_ne hlt.ne _ _
    have hp₀ : h₀.bufs.cells h.bufs.made =
        some (([] : List (ℕ × T)).map some ++ List.replicate (xs.length+(n-xs.length)) none) := by
      rw [Nat.add_sub_of_le (by omega)]
      exact Function.update_self _ _ _
    obtain ⟨h₁,hloop,hq₁,hp₁,hc⟩ := move_range [] (l := []) (i := 0) hlt.ne'
      (by simpa using hq₀.trans (hv.cells hp)) hp₀ rfl rfl
      (show v.mSize = 0+xs.length by rw [hsize, Nat.zero_add])
    let h' : ObjectSlots T := { h₁ with bufs := h₁.bufs.clear q }
    have hdelete : h₁.deleteBuf q = .ok h' := by rw [deleteBuf, hq₁]
    have hp' : h'.bufs.cells h.bufs.made = h₁.bufs.cells h.bufs.made := Function.update_of_ne hlt.ne' _ _
    refine ⟨⟨n,some h.bufs.made,v.mSize⟩,h',bear h.born (xs.map Prod.snd),?_,?_,by simp,rfl,rfl,rfl⟩
    · simp only [sizeup, hn, hp]
      rw [show (h.newBuf n).1 = h.bufs.made from rfl, hloop, ok_bind, hdelete]
      rfl
    · refine ⟨.of_cells rfl (by simp [hsize]) hle hv.small hroom ?_,?_,?_,?_,xs.length,
        xs.map Prod.fst,hc.born,hc.dead,?_⟩
      · rw [hp', hp₁, hsize]
        rfl
      · intro r hr hne
        have hrq : r ≠ q := fun heq => hne (by rw [heq, hp])
        have hframe : h'.bufs.cells r = h₁.bufs.cells r := Function.update_of_ne hrq _ _
        rw [hframe, hc.frame r (by simp [hr.ne, hrq])]
        exact Function.update_of_ne hr.ne _ _
      · exact fun r hr => .inr (Option.some.inj hr).le
      · rw [show h'.bufs.made = h₁.bufs.made from rfl, hc.made]
        exact Nat.le_succ _
      · rw [bear_fst, List.length_map]
        exact List.perm_append_comm

/-- The room doubled, or the default, where fewer than 2^31 objects are in use. -/
theorem doubled_fits {m : ℕ} (hle : v.mSize ≤ v.mAllocated) (hlt : v.mAllocated < 2^31)
    (hm : m ≤ max 32 (v.mAllocated*2)) (hzero : v.mAllocated ≠ 0 → m ≤ v.mAllocated*2) :
    ∃ n, (if (0 : ℕ) = 0 then if v.mAllocated ≠ 0 then v.mAllocated*2 % 2^32 else DEFAULT_ALLOCATION
      else 0) = n ∧ v.mSize ≤ n ∧ m ≤ n ∧ n < 2^32 := by
  by_cases hnone : v.mAllocated = 0
  · refine ⟨32,by rw [if_pos rfl, if_neg (not_not_intro hnone)],?_,?_,by norm_num⟩ <;> omega
  · have hwrap : v.mAllocated*2 % 2^32 = v.mAllocated*2 := Nat.mod_eq_of_lt (by omega)
    have hmore := hzero hnone
    refine ⟨v.mAllocated*2,by rw [if_pos rfl, if_pos hnone, hwrap],?_,hmore,?_⟩ <;> omega

/-- There is room for m objects then, where the buffer is full without it. -/
theorem sizeupIf_becomes (hv : v.Has h xs) (full : Prop) [Decidable full] (newSize m : ℕ)
    (hfits : full → ∃ n, (if newSize = 0 then if v.mAllocated ≠ 0 then v.mAllocated*2 % 2^32
      else DEFAULT_ALLOCATION else newSize) = n ∧ v.mSize ≤ n ∧ m ≤ n ∧ n < 2^32)
    (hroom : ¬full → m ≤ v.mAllocated) :
    ∃ v' h' ys, v.sizeupIf h full newSize = .ok (v',h') ∧ Becomes v h xs v' h' ys ∧
      ys.map Prod.snd = xs.map Prod.snd ∧ v'.mSize = v.mSize ∧ m ≤ v'.mAllocated := by
  by_cases hfull : full
  · obtain ⟨n,hn,hle,hm,hlt⟩ := hfits hfull
    obtain ⟨v',h',ys,hup,hb,hvals,hsize,halloc,-⟩ := sizeup_becomes hv hn hle hlt
    exact ⟨v',h',ys,by rw [sizeupIf, if_pos hfull, hup],hb,hvals,hsize,halloc ▸ hm⟩
  · exact ⟨v,h,xs,if_neg hfull,.refl hv,rfl,rfl,hroom hfull⟩

/-- A buffer that has room for an object is there. -/
theorem Has.exists_ptr (hv : v.Has h xs) (hpos : 0 < v.mAllocated) : ∃ p, v.mData = some p := by
  rcases Option.eq_none_or_eq_some v.mData with hp | hp
  · exact absurd (hv.mData_eq_none hp).2 hpos.ne'
  · exact hp

theorem pushBack_becomes (hv : v.Has h xs) (hsmall : v.mSize+1 < 2^31) (val : T) :
    ∃ v' h' ys, v.pushBack h val = .ok (v',h') ∧ Becomes v h xs v' h' ys ∧
      ys.map Prod.snd = xs.map Prod.snd ++ [val] := by
  obtain ⟨v₁,h₁,ys,hup,hb,hvals,hsize,hlt⟩ := sizeupIf_becomes hv (v.mSize = v.mAllocated) 0
    (v.mSize+1) (fun hfull => doubled_fits hv.le (by omega) (by omega) (by omega))
    (fun hfull => lt_of_le_of_ne hv.le hfull)
  rw [← hsize] at hlt
  have hv₁ := hb.has
  have hlen := hv₁.size
  obtain ⟨p,hp⟩ := hv₁.exists_ptr (by omega)
  have hrest : v₁.mAllocated-v₁.mSize = (v₁.mAllocated-(v₁.mSize+1))+1 := by omega
  have hcells := hv₁.cells hp
  rw [hrest, List.replicate_succ] at hcells
  obtain ⟨h',hcons,hp',hc⟩ := construct_ok hcells val
  rw [List.length_map, ← hlen] at hcons
  have hmod : (v₁.mSize+1) % 2^32 = v₁.mSize+1 := Nat.mod_eq_of_lt (by omega)
  refine ⟨{ v₁ with mSize := v₁.mSize+1 },h',ys ++ [(h₁.born,val)],?_,?_,?_⟩
  · rw [pushBack, hup, ok_bind]
    simp only [hp, ptr, ok_bind, hcons, hmod]
  · refine hb.trans (.of_changes hp hp (.of_cells hp ?_ hlt ?_ hv₁.room ?_) hc ?_)
    · simp [hlen]
    · show v₁.mSize+1 < 2^31
      omega
    · rw [hp']
      simp
    · simp
  · rw [List.map_append, hvals]
    rfl

theorem erase_becomes (hv : v.Has h xs) {ind : ℕ} (hind : ind < v.mSize) :
    ∃ v' h' ys, v.erase h ind = .ok (v',h') ∧ Becomes v h xs v' h' ys ∧
      ys.map Prod.snd = (xs.map Prod.snd).eraseIdx ind := by
  have hsize := hv.size
  obtain ⟨p,hp⟩ := hv.exists_ptr (by have := hv.le; omega)
  -- the object at ind, those in front of it and those behind it
  have hlt : ind < xs.length := hsize ▸ hind
  obtain ⟨ls,x,rs,rfl,hls⟩ : ∃ ls x rs, xs = ls ++ x :: rs ∧ ls.length = ind := by
    refine ⟨xs.take ind,xs[ind],xs.drop (ind+1),?_,?_⟩
    · rw [List.cons_getElem_drop_succ, List.take_append_drop]
    · rw [List.length_take, min_eq_left hlt.le]
  have hlen : v.mSize = ind+rs.length+1 := by
    rw [hsize, List.length_append, List.length_cons, hls, Nat.add_assoc]
  have hcells := hv.cells hp
  rw [List.map_append] at hcells
  obtain ⟨h₁,h',ys,y,hloop,hlast,hp',hc,hnumbers,hvals⟩ := erase_range hcells
    (by rw [List.length_map, hls]) (show v.mSize-1 = ind+rs.length by omega)
  have hcount : ys.length = rs.length := by
    have := congrArg List.length hvals
    rwa [List.length_map, List.length_map] at this
  refine ⟨{ v with mSize := v.mSize-1 },h',ls ++ ys,?_,?_,?_⟩
  · rw [erase, if_neg (by omega)]
    simp only [hp, ptr, ok_bind, hloop, hlast]
  · refine .of_changes hp hp (.of_cells hp ?_ ?_ ?_ hv.room ?_) hc ?_
    · show v.mSize-1 = (ls ++ ys).length
      rw [List.length_append, hls, hcount, hlen, Nat.add_sub_cancel]
    · have := hv.le
      show v.mSize-1 ≤ v.mAllocated
      omega
    · have := hv.small
      show v.mSize-1 < 2^31
      omega
    · have hmore : v.mAllocated-(v.mSize-1) = (v.mAllocated-v.mSize)+1 := by
        have := hv.le
        omega
      rw [hp', hmore, List.replicate_succ, List.map_append]
    · simp [hnumbers]
  · rw [List.map_append, hvals, List.map_append, List.map_cons, List.eraseIdx_append_of_length_le]
    · rw [List.length_map, hls, Nat.sub_self, List.eraseIdx_cons_zero]
    · rw [List.length_map, hls]

theorem reserve_becomes (hv : v.Has h xs) {size : ℕ} (hsize : size < 2^32) :
    ∃ v' h' ys, v.reserve h size = .ok (v',h') ∧ Becomes v h xs v' h' ys ∧
      ys.map Prod.snd = xs.map Prod.snd := by
  obtain ⟨v',h',ys,hup,hb,hvals,-⟩ := sizeupIf_becomes hv (v.mAllocated < size) size 0
    (fun hroom => ⟨size,if_neg (by omega),hv.le.trans hroom.le,Nat.zero_le _,hsize⟩)
    (fun _ => Nat.zero_le _)
  exact ⟨v',h',ys,hup,hb,hvals⟩

/-- The objects from n on are destroyed, if there are any. -/
theorem Has.shrink (hv : v.Has h xs) (hp : v.mData = some p) (n : ℕ) :
    ∃ h', forRange n v.mSize (fun k h => h.destroy p k) h = .ok h' ∧
      h'.bufs.cells p = some ((xs.take n).map some ++
        List.replicate (v.mAllocated-(xs.take n).length) none) ∧
      Changes h h' {p} 0 ((xs.drop n).map Prod.fst) := by
  have hcells := hv.cells hp
  have hsize := hv.size
  have hle := hv.le
  by_cases hshrink : n ≤ v.mSize
  · have hsplit : xs.map some = (xs.take n).map some ++ (xs.drop n).map some := by
      rw [← List.map_append, List.take_append_drop]
    have htake : (xs.take n).length = n := by
      rw [List.length_take]
      omega
    have hraw : (xs.drop n).length+(v.mAllocated-v.mSize) = v.mAllocated-(xs.take n).length := by
      rw [List.length_drop, htake]
      omega
    rw [hsplit] at hcells
    obtain ⟨h',hloop,hp',hc⟩ := destroy_range (i := n) (n := v.mSize) hcells
      (by rw [List.length_map, htake]) (by rw [List.length_drop]; omega)
    refine ⟨h',hloop,?_,hc⟩
    rw [hp', List.append_assoc, List.replicate_append_replicate, hraw]
  · refine ⟨h,forRange_of_le (by omega),?_,?_⟩
    · rw [List.take_of_length_le (by omega), hcells, hsize]
    · rw [List.drop_of_length_le (by omega)]
      exact .refl h _

/-- New objects are constructed up to n, if there are fewer. -/
theorem grow_range [Inhabited T] {m n : ℕ} (hle : n ≤ m) (hp : h.bufs.cells p = some ((xs.take n).map some ++
      List.replicate (m-(xs.take n).length) none)) :
    ∃ h', forRange xs.length n (fun k h => h.construct p k default) h = .ok h' ∧
      h'.bufs.cells p = some ((xs.take n ++
        bear h.born (List.replicate (n-xs.length) default)).map some ++ List.replicate (m-n) none) ∧
      Changes h h' {p} (n-xs.length) [] := by
  by_cases hgrow : xs.length ≤ n
  · have htake : xs.take n = xs := List.take_of_length_le hgrow
    have hraw : m-(xs.take n).length = (n-xs.length)+(m-n) := by
      rw [htake]
      omega
    rw [hraw, ← List.replicate_append_replicate, ← List.append_assoc] at hp
    obtain ⟨h',hloop,hp',hc⟩ := construct_range (i := xs.length) (n := n)
      (List.replicate (n-xs.length) default) (fun _ _ => .ok default)
      (by rw [List.length_replicate]; exact hp) (by rw [htake, List.length_map])
      (by rw [List.length_replicate]; omega) (by
        intro k w _ hw _
        rw [List.getElem?_replicate] at hw
        split at hw
        · exact congrArg Except.ok (Option.some.inj hw)
        · cases hw)
    rw [List.length_replicate] at hc
    refine ⟨h',hloop,?_,hc⟩
    rw [hp', List.map_append]
  · have hnone : n-xs.length = 0 := by omega
    refine ⟨h,forRange_of_le (by omega),?_,?_⟩
    · rw [hp, hnone, List.length_take, min_eq_left (by omega)]
      simp [bear]
    · rw [hnone]
      exact .refl h _

theorem resize_becomes [Inhabited T] (hv : v.Has h xs) {newSize : ℕ} (hsmall : newSize < 2^31) :
    ∃ v' h' ys, v.resize h newSize = .ok (v',h') ∧ Becomes v h xs v' h' ys ∧
      ys.map Prod.snd =
        (xs.map Prod.snd).take newSize ++ List.replicate (newSize-xs.length) default := by
  obtain ⟨v₁,h₁,ys,hup,hb,hvals,hsize,hlt⟩ := sizeupIf_becomes hv (v.mAllocated < newSize)
    (if newSize < v.mAllocated*2 % 2^32 then 0 else newSize) newSize (by
      intro hfull
      have hwrap : v.mAllocated*2 % 2^32 = v.mAllocated*2 := Nat.mod_eq_of_lt (by omega)
      by_cases hdouble : newSize < v.mAllocated*2 % 2^32
      · rw [if_pos hdouble]
        exact doubled_fits hv.le (by omega) (by omega) (by omega)
      · rw [if_neg hdouble]
        exact ⟨newSize,if_neg (by omega),by have := hv.le; omega,le_refl _,by omega⟩)
    (fun hfull => Nat.not_lt.mp hfull)
  have hv₁ := hb.has
  have hlen : ys.length = xs.length := by simpa using congrArg List.length hvals
  have hys := hv₁.size
  rcases Option.eq_none_or_eq_some v₁.mData with hp | ⟨p,hp⟩
  · -- without a buffer there is nothing to do, as nothing is asked for
    obtain ⟨rfl,halloc⟩ := hv₁.mData_eq_none hp
    have hzero : newSize = 0 := by omega
    have hv₁size : v₁.mSize = 0 := hys
    subst hzero
    refine ⟨v₁,h₁,[],?_,hb,?_⟩
    · simp only [resize, hup, ok_bind]
      rw [hv₁size, forRange_of_le (le_refl _), ok_bind, forRange_of_le (le_refl _), ok_bind, ← hv₁size]
    · simp
  obtain ⟨h₂,hdown,hp₂,hc₂⟩ := hv₁.shrink hp newSize
  obtain ⟨h',hgrow,hp',hc'⟩ := grow_range hlt hp₂
  rw [← hys] at hgrow
  refine ⟨{ v₁ with mSize := newSize },h',_,?_,hb.trans (.of_changes hp hp
    (.of_cells hp ?_ hlt hsmall hv₁.room hp') (hc₂.trans hc') ?_),?_⟩
  · rw [resize, hup, ok_bind]
    simp only [hp, ptr, ok_bind, hdown, hgrow]
  · rw [List.length_append, bear_length, List.length_replicate, List.length_take]
    show newSize = _
    omega
  · have hnumbers : ys.map Prod.fst = (ys.take newSize).map Prod.fst ++ (ys.drop newSize).map Prod.fst := by
      rw [← List.map_append, List.take_append_drop]
    rw [List.map_append, bear_fst, List.length_replicate, hc₂.born, hnumbers, List.append_nil,
      Nat.zero_add, Nat.add_zero, List.append_assoc, List.append_assoc]
    exact List.perm_append_comm.append_left _
  · rw [List.map_append, bear_snd, List.map_take, hvals, hlen]

/-- The value of an object of the vector. -/
theorem Has.read (hv : v.Has h xs) (hp : v.mData = some p) {x : ℕ × T} (hx : xs[i]? = some x) :
    h.read p i = .ok x.2 := by
  have hlt := (List.getElem?_eq_some_iff.mp hx).1
  have hslot : h.slot p i = some (some x) := by
    rw [slot, hv.cells hp, Option.bind_some, List.getElem?_append_left (by rwa [List.length_map]),
      List.getElem?_map, hx]
    rfl
  rw [ObjectSlots.read, hslot]

theorem Has.get (hv : v.Has h xs) {x : ℕ × T} (hx : xs[i]? = some x) : v.get h i = .ok x.2 := by
  have hlt := (List.getElem?_eq_some_iff.mp hx).1
  have hsize := hv.size
  obtain ⟨p,hp⟩ := hv.exists_ptr (by have := hv.le; omega)
  rw [JhVector.get, if_neg (by omega), hp, ptr, ok_bind, hv.read hp hx]

/-- Another vector's objects are copied over the vector's own ones. -/
theorem assign_becomes (hv : v.Has h xs) (hw : w.Has h zs)
    (hne : ∀ p, w.mData = some p → v.mData ≠ some p) :
    ∃ v' h' ys, v.assign h w = .ok (v',h') ∧ Becomes v h xs v' h' ys ∧
      ys.map Prod.snd = zs.map Prod.snd := by
  obtain ⟨h₁,hclear,hb₁⟩ := clear_becomes hv
  obtain ⟨v₂,h₂,ys,hup,hb₂,hvals,-,hlt⟩ := sizeupIf_becomes hb₁.has
    (v.mAllocated < w.mSize) w.mSize w.mSize
    (fun hfull => ⟨w.mSize,if_neg (by omega),Nat.zero_le _,le_refl _,by have := hw.small; omega⟩)
    (fun hfull => Nat.not_lt.mp hfull)
  have hb := hb₁.trans hb₂
  obtain rfl : ys = [] := List.map_eq_nil_iff.mp hvals
  have hv₂ := hb.has
  have hv₂size : v₂.mSize = 0 := hv₂.size
  have hwsize := hw.size
  -- the other vector has not been touched
  have hw₂ : w.Has h₂ zs := hw.keep fun p hp => hb.frame p (hw.lt_made hp) (hne p hp).symm
  rcases Option.eq_none_or_eq_some v₂.mData with hp | ⟨p,hp⟩
  · have hzero : w.mSize = 0 := by
      have := (hv₂.mData_eq_none hp).2
      omega
    obtain rfl : zs = [] := List.eq_nil_of_length_eq_zero (by omega)
    refine ⟨v₂,h₂,[],?_,hb,rfl⟩
    rw [assign, hclear, ok_bind]
    simp only [hup, ok_bind]
    rw [hzero, forRange_of_le (le_refl _), ok_bind, ← hv₂size]
  have hcells := hv₂.cells hp
  -- the buffer is raw from the first slot on, with room for zs
  have hraw : v₂.mAllocated-v₂.mSize = zs.length+(v₂.mAllocated-zs.length) := by omega
  rw [hraw, ← List.replicate_append_replicate] at hcells
  obtain ⟨h',hloop,hp',hc⟩ := construct_range (l := []) (i := 0) (n := w.mSize)
    (zs.map Prod.snd) (fun i h => do let q ← ptr w.mData; h.read q i)
    (by rw [List.length_map]; exact hcells) rfl (by simp [hwsize]) (by
      intro k x h₃ hx hsame
      rw [List.getElem?_map] at hx
      obtain ⟨z,hz,rfl⟩ := Option.map_eq_some_iff.mp hx
      obtain ⟨q,hq⟩ := hw₂.exists_ptr (by
        have := (List.getElem?_eq_some_iff.mp hz).1
        have := hw.le
        omega)
      -- the other vector's buffer is not written to while it is read
      have hqp : q ≠ p := by
        rintro rfl
        rcases hb.data q hp with hold | hnew
        · exact hne q hq hold
        · have := hw.lt_made hq
          omega
      have hw₃ : w.Has h₃ zs := hw₂.keep fun r hr => by
        obtain rfl := Option.some.inj (hq.symm.trans hr)
        exact hsame q hqp
      rw [hq, ptr, ok_bind, Nat.zero_add, hw₃.read hq hz])
  refine ⟨{ v₂ with mSize := w.mSize },h',bear h₂.born (zs.map Prod.snd),?_,hb.trans (.of_changes hp hp
    (.of_cells hp (by simp [hwsize]) hlt hw.small hv₂.room ?_) hc ?_),bear_snd _ _⟩
  · rw [assign, hclear, ok_bind]
    have hptr : ptr v₂.mData = .ok p := by rw [hp, ptr]
    simp only [bind_assoc] at hloop
    simp only [hup, hptr, ok_bind, hloop]
  · rw [hp', hwsize]
    simp
  · simp

/-- The objects are destroyed and the buffer is given back. -/
theorem destroy_becomes (hv : v.Has h xs) :
    ∃ h', v.destroy h = .ok h' ∧ Becomes v h xs blank h' [] := by
  rcases Option.eq_none_or_eq_some v.mData with hp | ⟨p,hp⟩
  · obtain ⟨rfl,-⟩ := hv.mData_eq_none hp
    refine ⟨h,by simp only [destroy, hp],blank_has h,fun _ _ _ => rfl,fun _ hq => ?_,le_refl _,0,[],
      rfl,(List.append_nil _).symm,by simp⟩
    cases hq
  · obtain ⟨h₁,hclear,hb⟩ := clear_becomes hv
    have hcells := hb.has.cells hp
    obtain ⟨k,ds,hborn,hdead,hperm⟩ := hb.once
    let h' : ObjectSlots T := { h₁ with bufs := h₁.bufs.clear p }
    have hdelete : h₁.deleteBuf p = .ok h' := by rw [deleteBuf, hcells]
    refine ⟨h',?_,blank_has h',?_,fun _ hq => ?_,hb.made,k,ds,hborn,hdead,hperm⟩
    · simp only [destroy, hp, hclear, ok_bind, hdelete]
    · intro q hq hne
      have hqp : q ≠ p := fun heq => hne (by rw [heq, hp])
      have hframe : h'.bufs.cells q = h₁.bufs.cells q := Function.update_of_ne hqp _ _
      rw [hframe, hb.frame q hq hne]
    · cases hq

end Calls

end JhVector

end JhCommon
