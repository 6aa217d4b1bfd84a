import JhCommon.JhVector
import JhCommon.StdString
import JhCommon.Transition

/-! `Directory` of `File.cpp`: the names in a directory, read in pages as they are asked for. What opendir
returns is NULL or a stream, and the stream gives its names one after the other and then its end; where
readdir_r reports an error instead of a name, there is none. A path is the string that it is made of. -/
namespace JhCommon
open ObjectSlots Transition

abbrev DirStream := List (Option Str)

structure Directory where
  mData : JhVector
  mNumberEntries : ℤ
  mDirHandle : Option DirStream
  slots : ObjectSlots Str

namespace Directory

abbrev gNumberEntries : ℕ := 50

/-- The constructor. -/
def create : Directory :=
  let (v,h) := JhVector.create ObjectSlots.empty
  ⟨v,-1,none,h⟩

/-- `mData.reserve`. -/
def reserve (d : Directory) (size : ℕ) : Except SlotFault Directory := do
  let (v,h) ← d.mData.reserve d.slots size
  .ok { d with mData := v, slots := h }

/-- An assignment to `mData[ ind ]`. Behind the end it goes to NULL. -/
def setEntry (d : Directory) (ind : ℕ) (name : Str) : Except SlotFault Directory :=
  if ind ≥ d.mData.mSize then .error .noBuffer
  else do
    let p ← JhVector.ptr d.mData.mData
    let h ← d.slots.assign p ind name
    .ok { d with slots := h }

/-- The loop that both calls have, with so many turns left and j names read: how many it has read, and
whether it has met the end. It is none when readdir_r reports an error. -/
def readEntries (start : ℕ) : ℕ → ℕ → Directory → Except SlotFault (Option (ℕ × Bool) × Directory)
  | 0, j, d => .ok (some (j,false),d)
  | turns+1, j, d =>
    match d.mDirHandle with
    | none => .error .noBuffer
    | some [] => .ok (some (j,true),d)
    | some (none :: left) => .ok (none,{ d with mDirHandle := some left })
    | some (some name :: left) => do
      let d ← { d with mDirHandle := some left }.setEntry (start+j) name
      readEntries start turns (j+1) d

/-- `open`, with what opendir returns. -/
def openDir (d : Directory) (opened : Option DirStream) : Except SlotFault (Bool × Directory) :=
  if d.mDirHandle.isSome then .ok (false,d)
  else do
    let d ← { d with mDirHandle := opened }.reserve gNumberEntries
    let (page,d) ← d.readEntries 0 gNumberEntries 0
    match page with
    | none => .ok (false,d)
    | some (i,ended) => .ok (true,if ended then { d with mNumberEntries := i+1 } else d)

/-- The end of `getEntry`. The pointer to an element stands for what is in it. -/
def entry (d : Directory) (i : ℤ) : Except SlotFault (Option Str × Directory) :=
  if i ≥ d.mData.mSize then .ok (none,d)
  else do
    -- the index is unsigned
    let path ← d.mData.get d.slots (i % 2^32).toNat
    .ok (some path,d)

def getEntry (d : Directory) (i : ℤ) : Except SlotFault (Option Str × Directory) :=
  if d.mNumberEntries ≠ -1 ∧ i ≥ d.mNumberEntries then .ok (none,d)
  else if i ≥ d.mData.mSize then do
    let start := d.mData.mSize
    let readSize := max (i-start).toNat gNumberEntries
    let d ← d.reserve (start+readSize)
    let (page,d) ← d.readEntries start readSize 0
    match page with
    | none => .ok (none,d)
    | some (j,ended) => (if ended then { d with mNumberEntries := j+1 } else d).entry i
  else d.entry i

/-- A directory with this listing is opened, and a sequence of calls returns what is in the listing, or
NULL behind its end. No call faults. -/
def Pages (listing : List Str) (is : List ℤ) : Prop :=
  ∃ d d', create.openDir (some (listing.map some)) = .ok (true,d) ∧
    run getEntry d is = .ok (is.map fun i => listing[i.toNat]?,d')

section Calls
variable {d : Directory} {size : ℕ} {i : ℤ}

/-- Room is made, and nothing is in it. -/
theorem reserve_empty (hd : d.mData.Has d.slots []) (hsize : size < 2^32) :
    ∃ v h, d.reserve size = .ok { d with mData := v, slots := h } ∧ v.Has h [] := by
  obtain ⟨v,h,ys,hup,hb,hvals⟩ := JhVector.reserve_becomes hd hsize
  obtain rfl := List.map_eq_nil_iff.mp hvals
  refine ⟨v,h,?_,hb.has⟩
  rw [reserve, hup, ok_bind]

theorem create_has : create.mData.Has create.slots [] :=
  (JhVector.createSized_becomes ObjectSlots.empty (by norm_num)).has

theorem create_reserve (opened : Option DirStream) : ∃ v h,
    { create with mDirHandle := opened }.reserve gNumberEntries = .ok ⟨v,-1,opened,h⟩ ∧ v.Has h [] :=
  reserve_empty (d := { create with mDirHandle := opened }) create_has (by norm_num)

/-- What is read behind the elements that there are has no element to be assigned to, however much room
has been made. -/
theorem readEntries_faults {name : Str} {left : DirStream} {start j : ℕ} (turns : ℕ)
    (hleft : d.mDirHandle = some (some name :: left)) (hsize : d.mData.mSize ≤ start+j) :
    readEntries start (turns+1) j d = .error .noBuffer := by
  -- reserve leaves the size as it was, and an element is looked for by the size
  have hset : { d with mDirHandle := some left }.setEntry (start+j) name = .error .noBuffer :=
    if_pos hsize
  simp only [readEntries, hleft, hset, error_bind]

theorem openDir_faults (name : Str) (left : DirStream) :
    create.openDir (some (some name :: left)) = .error .noBuffer := by
  obtain ⟨v,h,hreserve,hv⟩ := create_reserve (some (some name :: left))
  rw [openDir, if_neg (by simp [create]), hreserve, ok_bind, readEntries_faults _ rfl hv.size.le]
  rfl

/-- What a directory is like once its listing has been found empty. -/
structure Exhausted (d : Directory) : Prop where
  has : d.mData.Has d.slots []
  handle : d.mDirHandle = some []
  number : d.mNumberEntries = 1

theorem openDir_empty : ∃ d, create.openDir (some []) = .ok (true,d) ∧ d.Exhausted := by
  obtain ⟨v,h,hreserve,hv⟩ := create_reserve (some [])
  refine ⟨⟨v,1,some [],h⟩,?_,hv,rfl,rfl⟩
  rw [openDir, if_neg (by simp [create]), hreserve]
  rfl

theorem Exhausted.getEntry (hd : d.Exhausted) (hi : 0 ≤ i) :
    ∃ d', d.getEntry i = .ok (none,d') ∧ d'.Exhausted := by
  have hsize : d.mData.mSize = 0 := hd.has.size
  by_cases hlast : 1 ≤ i
  · refine ⟨d,?_,hd⟩
    -- the number has been recorded, one more than there are
    rw [Directory.getEntry, if_pos]
    rw [hd.number]
    exact ⟨by norm_num,hlast⟩
  · -- the first entry is asked for, and the end is met again
    obtain rfl : i = 0 := by omega
    obtain ⟨v,h,hreserve,hv⟩ := reserve_empty hd.has (show 50 < 2^32 by norm_num)
    refine ⟨⟨v,1,some [],h⟩,?_,hv,rfl,rfl⟩
    have hmax : max ((0 : ℤ)-(0 : ℕ)).toNat gNumberEntries = 50 := rfl
    rw [Directory.getEntry, if_neg (by rw [hd.number]; omega), if_pos (by rw [hsize]; rfl)]
    simp only [hsize, hmax, Nat.zero_add, hreserve, ok_bind, readEntries, hd.handle]
    simp [entry, hv.size]

theorem Exhausted.run (hd : d.Exhausted) {is : List ℤ} (his : ∀ i ∈ is, 0 ≤ i) :
    ∃ d', Transition.run Directory.getEntry d is = .ok (is.map fun _ => none,d') := by
  -- each call leaves the directory as one whose end has been met
  induction is generalizing d with
  | nil => exact ⟨d,rfl⟩
  | cons i is ih =>
    obtain ⟨d₁,hget,hd₁⟩ := hd.getEntry (his i List.mem_cons_self)
    obtain ⟨d',hrest⟩ := ih hd₁ fun j hj => his j (List.mem_cons_of_mem i hj)
    refine ⟨d',?_⟩
    simp only [Transition.run, hget, hrest, ok_bind, List.map_cons]

end Calls

/-- Paging works for an empty directory, and for no other one. -/
theorem pages_iff_empty (listing : List Str) {is : List ℤ} (his : ∀ i ∈ is, 0 ≤ i) :
    Pages listing is ↔ listing = [] := by
  constructor
  · rintro ⟨d,-,hopen,-⟩
    cases listing with
    | nil => rfl
    | cons name listing =>
      rw [List.map_cons, openDir_faults] at hopen
      cases hopen
  · rintro rfl
    obtain ⟨d,hopen,hd⟩ := openDir_empty
    obtain ⟨d',hrun⟩ := hd.run his
    exact ⟨d,d',hopen,by simpa using hrun⟩

theorem pages_none_twice : (∀ i ∈ [(0 : ℤ),7], 0 ≤ i) ∧ (Pages [] [0,7] ↔ ([] : List Str) = []) :=
  ⟨by decide,pages_iff_empty [] (by decide)⟩

theorem one_entry_not_paged : ¬Pages [['a']] [0] := by
  rintro ⟨d,-,hopen,-⟩
  rw [List.map_cons, openDir_faults] at hopen
  cases hopen

end Directory

end JhCommon
