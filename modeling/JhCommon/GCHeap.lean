import JhCommon.ListPlus
import JhCommon.NumberText
import JhCommon.Transition

/-! The `GCHeap` of `jh_memory.cpp`, with which the operators new and delete keep account of the memory
that they give out: an ObjInfo in front of each object, in a list, and four counters. -/
namespace JhCommon
open Transition

def MAGIC_ALLOCED : ℕ := 0xfeedbeef

/-- The size of an ObjInfo, which is one of pointers. -/
def NODE_SIZE : ℕ := 72

/-- What is in an ObjInfo beside the links. -/
structure ObjInfo where
  magic : ℕ
  refCnt : ℤ
  ptr : ℕ
  size : ℕ
  file : String
  line : ℤ

/-- The heap, and the ObjInfos in the memory that malloc has given out. The last field counts what was
allocated, which the int does only up to its end. -/
structure GCHeap where
  mObjects : ListPlus
  infos : ℕ → Option ObjInfo
  mCurrentSize : ℤ
  mMaxSize : ℤ
  mNumTotalAllocations : ℤ
  mNumCurrentAllocations : ℤ
  made : ℕ

/-- What is printed for an object that is still in the list. -/
inductive DumpLine
  | allocated (file : String) (line size : ℤ)
  | corrupted (file : String) (line : ℤ)
  deriving DecidableEq

/-- What the destructor prints: of the leaks, if there are any, the number, the size and the dump. -/
structure HeapReport where
  total : ℤ
  maxSize : ℤ
  leaked : Option (ℤ × ℤ × List DumpLine × ℤ)

/-- What is done to the heap. The last argument of `alloc` is what malloc returns. -/
inductive GCHeapOp
  | alloc (size : ℕ) (file : String) (line : ℤ) (ptr : ℕ)
  | delete (p : ℕ)
  | find (ptr : ℕ)
  | addRef (a : ℕ)
  | release (a : ℕ)
  | dumpList
  | report

inductive GCHeapResult
  | done
  | pointer (p : ℕ)
  | found (a : Option ℕ)
  | dumped (lines : List DumpLine) (items : ℤ)
  | report (r : HeapReport)

namespace GCHeap

def create : GCHeap := ⟨ListPlus.create,fun _ => none,0,0,0,0,0⟩

def info (s : GCHeap) (a : ℕ) : Exec ObjInfo :=
  match s.infos a with
  | none => .error .useAfterFree
  | some i => .ok i

def setInfo (s : GCHeap) (a : ℕ) (i : Option ObjInfo) : GCHeap :=
  { s with infos := fun b => if b = a then i else s.infos b }

/-- `alloc`. A size near the end of size_t leaves no room for the ObjInfo in what malloc is asked for. -/
def alloc (s : GCHeap) (size : ℕ) (file : String) (line : ℤ) (ptr : ℕ) : Exec GCHeap :=
  if ptr = 0 then .error .nullDeref
  else if (size+NODE_SIZE)%2^64 < NODE_SIZE then .error .outOfBounds
  else do
    let s := s.setInfo ptr (some ⟨MAGIC_ALLOCED,0,ptr+NODE_SIZE,size%2^32,file,line⟩)
    let objects ← s.mObjects.pushFront (.obj ptr)
    let mCurrentSize := toInt32 (s.mCurrentSize+size)
    .ok { s with
      mObjects := objects
      mCurrentSize := mCurrentSize
      mMaxSize := if mCurrentSize > s.mMaxSize then mCurrentSize else s.mMaxSize
      mNumTotalAllocations := toInt32 (s.mNumTotalAllocations+1)
      mNumCurrentAllocations := toInt32 (s.mNumCurrentAllocations+1)
      made := s.made+1 }

/-- `free`. The ObjInfo goes back to malloc with the memory of its object. -/
def free (s : GCHeap) (a : ℕ) : Exec GCHeap := do
  let i ← s.info a
  if i.magic ≠ MAGIC_ALLOCED then .error .fatal
  else if i.refCnt ≠ 0 then .error .fatal
  else do
    let objects ← s.mObjects.remove (.obj a)
    let s := s.setInfo a none
    .ok { s with
      mObjects := objects.setLinks (.obj a) none
      mCurrentSize := toInt32 (s.mCurrentSize-i.size)
      mNumCurrentAllocations := toInt32 (s.mNumCurrentAllocations-1) }

def quickFind (ptr : ℕ) : ℕ := ptr-NODE_SIZE

/-- `operator delete`. -/
def delete (s : GCHeap) (p : ℕ) : Exec GCHeap :=
  if p = 0 then .ok s else s.free (quickFind p)

/-- The object of a node. The loops over the list have an ObjInfo for each node they see. -/
def objOf (s : GCHeap) : ListPlusNode → Exec (ℕ × ObjInfo)
  | .mHead => .error .outOfBounds
  | .mTail => .error .outOfBounds
  | .obj a => do
    let i ← s.info a
    .ok (a,i)

/-- The loop of `find`. -/
def findFrom (s : GCHeap) (ptr : ℕ) : ℕ → Option ListPlusNode → Exec (Option ℕ)
  | _, none => .ok none
  | 0, some _ => .error .outOfFuel
  | fuel+1, some n => do
    let (a,i) ← s.objOf n
    if ptr ≥ i.ptr ∧ ptr < i.ptr+i.size then .ok (some a)
    else do
      let n ← s.mObjects.next n
      findFrom s ptr fuel n

def find (s : GCHeap) (ptr : ℕ) : Exec (Option ℕ) := do
  let n ← s.mObjects.getHead
  s.findFrom ptr s.made n

def dumpLine (i : ObjInfo) : DumpLine :=
  if i.magic = MAGIC_ALLOCED then .allocated i.file i.line (toInt32 i.size)
  else .corrupted i.file i.line

/-- The loop of `dumpList`. -/
def dumpFrom (s : GCHeap) : ℕ → Option ListPlusNode → Exec (List DumpLine)
  | _, none => .ok []
  | 0, some _ => .error .outOfFuel
  | fuel+1, some n => do
    let (_,i) ← s.objOf n
    let n ← s.mObjects.next n
    let lines ← dumpFrom s fuel n
    .ok (dumpLine i :: lines)

def dumpList (s : GCHeap) : Exec (List DumpLine × ℤ) := do
  let n ← s.mObjects.getHead
  let lines ← s.dumpFrom s.made n
  .ok (lines,s.mNumCurrentAllocations)

/-- What the destructor prints. -/
def report (s : GCHeap) : Exec HeapReport := do
  if ← s.mObjects.empty then .ok ⟨s.mNumTotalAllocations,s.mMaxSize,none⟩
  else do
    let (lines,items) ← s.dumpList
    .ok ⟨s.mNumTotalAllocations,s.mMaxSize,
      some (s.mNumCurrentAllocations,s.mCurrentSize,lines,items)⟩

def addRef (s : GCHeap) (a : ℕ) : Exec GCHeap := do
  let i ← s.info a
  .ok (s.setInfo a (some { i with refCnt := toInt32 (i.refCnt+1) }))

/-- `Release`, which asserts that there was a reference. -/
def release (s : GCHeap) (a : ℕ) : Exec GCHeap := do
  let i ← s.info a
  let refCnt := toInt32 (i.refCnt-1)
  if refCnt ≥ 0 then .ok (s.setInfo a (some { i with refCnt := refCnt }))
  else .error .fatal

def step (s : GCHeap) : GCHeapOp → Exec (GCHeapResult × GCHeap)
  | .alloc size file line ptr => do
    let s ← s.alloc size file line ptr
    .ok (.pointer (ptr+NODE_SIZE),s)
  | .delete p => do
    let s ← s.delete p
    .ok (.done,s)
  | .find ptr => do
    let a ← s.find ptr
    .ok (.found a,s)
  | .addRef a => do
    let s ← s.addRef a
    .ok (.done,s)
  | .release a => do
    let s ← s.release a
    .ok (.done,s)
  | .dumpList => do
    let (lines,items) ← s.dumpList
    .ok (.dumped lines items,s)
  | .report => do
    let r ← s.report
    .ok (.report r,s)

/-- What malloc promises: what it gives out is apart from what it has given out before. An object does
not have more references than an int can count. -/
def Promised (s : GCHeap) : GCHeapOp → Prop
  | .alloc size _ _ ptr => size < 2^64 ∧
      ∀ a i, s.infos a = some i → ptr+NODE_SIZE+size ≤ a ∨ a+NODE_SIZE+i.size ≤ ptr
  | .addRef a => ∀ i, s.infos a = some i → i.refCnt+1 < 2^31
  | _ => True

/-- What a program has to keep to: it deletes what it has and nothing else, without references to it,
and gives back no reference that it does not have. Malloc has the memory. -/
def Allowed (s : GCHeap) : GCHeapOp → Prop
  | .alloc size _ _ ptr => ptr ≠ 0 ∧ size+NODE_SIZE < 2^64
  | .delete p => p = 0 ∨ ∃ i, s.infos (quickFind p) = some i ∧ i.refCnt = 0
  | .addRef a => ∃ i, s.infos a = some i
  | .release a => ∃ i, s.infos a = some i ∧ 0 < i.refCnt
  | _ => True

end GCHeap

/-- What there is to know of an object that was allocated and is not deleted. -/
structure HeapBlock where
  start : ℕ
  size : ℕ
  file : String
  line : ℤ
  refs : ℕ

/-- The objects that there are, the newest one first, how many there ever were, and how much memory they
took when they took most of it. -/
structure HeapLog where
  blocks : List HeapBlock
  made : ℕ
  peak : ℤ

namespace HeapLog

def size (t : HeapLog) : ℕ := (t.blocks.map HeapBlock.size).sum

/-- A pointer into an object, of which 32 bits of the size are known. -/
def Inside (ptr : ℕ) (b : HeapBlock) : Prop :=
  b.start+NODE_SIZE ≤ ptr ∧ ptr < b.start+NODE_SIZE+b.size%2^32

def line (b : HeapBlock) : DumpLine := .allocated b.file b.line (toInt32 b.size)

def refer (t : HeapLog) (a : ℕ) (f : ℕ → ℕ) : HeapLog :=
  { t with blocks := t.blocks.map fun b => if b.start = a then { b with refs := f b.refs } else b }

def next (t : HeapLog) : GCHeapOp → HeapLog
  | .alloc size file line ptr =>
      let t' : HeapLog := ⟨⟨ptr,size,file,line,0⟩ :: t.blocks,t.made+1,t.peak⟩
      { t' with peak := max t.peak (toInt32 t'.size) }
  | .delete p => { t with blocks := t.blocks.filter fun b => b.start+NODE_SIZE ≠ p }
  | .addRef a => t.refer a (· + 1)
  | .release a => t.refer a (· - 1)
  | _ => t

/-- What each operation has to return. A pointer is found in the only object that it points into. -/
def Returns (t : HeapLog) : GCHeapOp → GCHeapResult → Prop
  | .alloc _ _ _ ptr, .pointer p => p = ptr+NODE_SIZE
  | .find ptr, .found a => ∀ b, a = some b ↔ ∃ c ∈ t.blocks, c.start = b ∧ Inside ptr c
  | .dumpList, .dumped lines items => lines = t.blocks.map line ∧ items = toInt32 t.blocks.length
  | .report, .report r => r.total = toInt32 t.made ∧ r.maxSize = t.peak ∧
      r.leaked = if t.blocks = [] then none else
        some (toInt32 t.blocks.length,toInt32 t.size,t.blocks.map line,toInt32 t.blocks.length)
  | .delete _, .done | .addRef _, .done | .release _, .done => True
  | _, _ => False

def Spec (t : HeapLog) (op : GCHeapOp) (r : GCHeapResult) (t' : HeapLog) : Prop :=
  t.Returns op r ∧ t' = t.next op

end HeapLog

/-- What the ObjInfo of an object says of it. -/
def HeapBlock.info (b : HeapBlock) : ObjInfo :=
  ⟨MAGIC_ALLOCED,b.refs,b.start+NODE_SIZE,b.size%2^32,b.file,b.line⟩

namespace GCHeap

/-- The heap has the objects of a log in its list, in memories that are apart, and what the counters
count is counted to 32 bits. -/
structure Models (s : GCHeap) (t : HeapLog) : Prop where
  list : s.mObjects.Holds (t.blocks.map HeapBlock.start)
  infos : ∀ a i, s.infos a = some i ↔ ∃ b ∈ t.blocks, b.start = a ∧ i = b.info
  nonzero : ∀ b ∈ t.blocks, b.start ≠ 0
  refs : ∀ b ∈ t.blocks, b.refs < 2^31
  apart : ∀ b ∈ t.blocks, ∀ c ∈ t.blocks, b ≠ c →
    b.start+NODE_SIZE+b.size%2^32 ≤ c.start ∨ c.start+NODE_SIZE+c.size%2^32 ≤ b.start
  current : s.mCurrentSize = toInt32 t.size
  items : s.mNumCurrentAllocations = toInt32 t.blocks.length
  total : s.mNumTotalAllocations = toInt32 t.made
  peak : s.mMaxSize = t.peak
  made : s.made = t.made
  fuel : t.blocks.length ≤ t.made

variable {s : GCHeap} {t : HeapLog} {a ptr : ℕ} {b c : HeapBlock}

theorem models_create : create.Models ⟨[],0,0⟩ where
  list := ListPlus.holds_create
  infos a i := by simp [create]
  nonzero := by simp
  refs := by simp
  apart := by simp
  current := rfl
  items := rfl
  total := rfl
  peak := rfl
  made := rfl
  fuel := le_rfl

theorem toInt32_add (n m : ℤ) : toInt32 (toInt32 n+m) = toInt32 (n+m) := Int.bmod_add_bmod

theorem toInt32_sub_mod (n : ℤ) (m : ℕ) : toInt32 (toInt32 n-(m%2^32 : ℕ)) = toInt32 (n-m) := by
  unfold toInt32
  rw [Int.bmod_sub_bmod, Int.natCast_emod, Int.sub_emod_bmod]

theorem dumpLine_info (b : HeapBlock) : dumpLine b.info = HeapLog.line b := by
  unfold dumpLine HeapLog.line HeapBlock.info toInt32
  rw [if_pos rfl, Int.natCast_emod, Int.emod_bmod]

theorem info_eq_ok {i : ObjInfo} : s.info a = .ok i ↔ s.infos a = some i := by
  unfold info
  split
  · simp_all
  · simp_all

namespace Models

theorem info_eq (h : s.Models t) (hb : b ∈ t.blocks) : s.info b.start = .ok b.info := by
  have hinfo : s.infos b.start = some b.info := (h.infos _ _).mpr ⟨b,hb,rfl,rfl⟩
  rw [info, hinfo]

theorem start_inj (h : s.Models t) (hb : b ∈ t.blocks) (hc : c ∈ t.blocks)
    (hbc : b.start = c.start) : b = c :=
  List.inj_on_of_nodup_map h.list.nodup hb hc hbc

/-- What the loops do with an object that they are at. -/
theorem objOf_eq (h : s.Models t) (hb : b ∈ t.blocks) :
    s.objOf (.obj b.start) = .ok (b.start,b.info) := by
  rw [objOf, h.info_eq hb, ok_bind]

theorem next_eq (h : s.Models t) {l r : List HeapBlock} (hblocks : t.blocks = l ++ b :: r) :
    s.mObjects.next (.obj b.start) = .ok (r.head?.map fun c => .obj c.start) := by
  have hlist : s.mObjects.Holds (l.map HeapBlock.start ++ b.start :: r.map HeapBlock.start) := by
    simpa [hblocks] using h.list
  rw [hlist.next, List.head?_map, Option.map_map]
  rfl

theorem getHead_eq (h : s.Models t) :
    s.mObjects.getHead = .ok (t.blocks.head?.map fun c => .obj c.start) := by
  rw [h.list.getHead, List.head?_map, Option.map_map]
  rfl

instance (ptr : ℕ) (b : HeapBlock) : Decidable (HeapLog.Inside ptr b) := instDecidableAnd

theorem findFrom_eq (h : s.Models t) (ptr : ℕ) {l r : List HeapBlock} (hblocks : t.blocks = l ++ r)
    {fuel : ℕ} (hfuel : r.length ≤ fuel) :
    s.findFrom ptr fuel (r.head?.map fun c => .obj c.start) =
      .ok ((r.find? fun c => HeapLog.Inside ptr c).map HeapBlock.start) := by
  induction r generalizing l fuel with
  | nil => rw [List.head?_nil, Option.map_none, findFrom]; rfl
  | cons b r ih =>
    obtain ⟨fuel,rfl⟩ : ∃ k, fuel = k+1 := Nat.exists_eq_add_of_le' (Nat.le_of_add_left_le hfuel)
    have hb : b ∈ t.blocks := by simp [hblocks]
    have hinside : (ptr ≥ b.info.ptr ∧ ptr < b.info.ptr+b.info.size) ↔ HeapLog.Inside ptr b := .rfl
    simp only [List.head?_cons, Option.map_some, findFrom, h.objOf_eq hb, ok_bind, hinside]
    by_cases hptr : HeapLog.Inside ptr b
    · rw [if_pos hptr, List.find?_cons_of_pos (by simpa using hptr)]
      rfl
    · rw [if_neg hptr, List.find?_cons_of_neg (by simpa using hptr), h.next_eq hblocks, ok_bind]
      apply ih (l := l ++ [b])
      · simpa using hblocks
      · simpa using hfuel

theorem dumpFrom_eq (h : s.Models t) {l r : List HeapBlock} (hblocks : t.blocks = l ++ r)
    {fuel : ℕ} (hfuel : r.length ≤ fuel) :
    s.dumpFrom fuel (r.head?.map fun c => .obj c.start) = .ok (r.map HeapLog.line) := by
  induction r generalizing l fuel with
  | nil => rw [List.head?_nil, Option.map_none, dumpFrom]; rfl
  | cons b r ih =>
    obtain ⟨fuel,rfl⟩ : ∃ k, fuel = k+1 := Nat.exists_eq_add_of_le' (Nat.le_of_add_left_le hfuel)
    have hb : b ∈ t.blocks := by simp [hblocks]
    have hrest : s.dumpFrom fuel (r.head?.map fun c => .obj c.start) = .ok (r.map HeapLog.line) :=
      ih (l := l ++ [b]) (by simpa using hblocks) (by simpa using hfuel)
    simp only [List.head?_cons, Option.map_some, dumpFrom, h.objOf_eq hb, ok_bind,
      h.next_eq hblocks, hrest, dumpLine_info, List.map_cons]

/-- A pointer is in no two objects. -/
theorem find_eq_some (h : s.Models t) (ptr a : ℕ) :
    (t.blocks.find? fun c => HeapLog.Inside ptr c).map HeapBlock.start = some a ↔
      ∃ c ∈ t.blocks, c.start = a ∧ HeapLog.Inside ptr c := by
  rw [Option.map_eq_some_iff]
  constructor
  · rintro ⟨b,hfind,rfl⟩
    exact ⟨b,List.mem_of_find?_eq_some hfind,rfl,by simpa using List.find?_some hfind⟩
  · rintro ⟨c,hc,rfl,hptr⟩
    have hsome : (t.blocks.find? fun c => HeapLog.Inside ptr c).isSome := by
      rw [List.find?_isSome]
      exact ⟨c,hc,by simpa using hptr⟩
    obtain ⟨b,hfind⟩ := Option.isSome_iff_exists.mp hsome
    have hb := List.mem_of_find?_eq_some hfind
    have hinside : HeapLog.Inside ptr b := by simpa using List.find?_some hfind
    refine ⟨b,hfind,?_⟩
    by_contra hne
    have hbc : b ≠ c := by
      rintro rfl
      exact hne rfl
    have := h.apart b hb c hc hbc
    unfold HeapLog.Inside at hptr hinside
    omega

theorem find_eq (h : s.Models t) (ptr : ℕ) : ∃ a, s.find ptr = .ok a ∧
    t.Returns (.find ptr) (.found a) := by
  refine ⟨_,?_,h.find_eq_some ptr⟩
  rw [find, h.getHead_eq, ok_bind, h.made]
  exact h.findFrom_eq ptr (List.nil_append _).symm h.fuel

theorem dumpList_eq (h : s.Models t) :
    s.dumpList = .ok (t.blocks.map HeapLog.line,toInt32 t.blocks.length) := by
  rw [dumpList, h.getHead_eq, ok_bind, h.made, h.dumpFrom_eq (List.nil_append _).symm h.fuel,
    ok_bind, h.items]

theorem report_eq (h : s.Models t) : ∃ r, s.report = .ok r ∧ t.Returns .report (.report r) := by
  unfold report
  rw [h.list.empty, ok_bind]
  by_cases hempty : t.blocks = []
  · simp [hempty, HeapLog.Returns, h.total, h.peak]
  · simp [hempty, h.dumpList_eq, HeapLog.Returns, h.total, h.peak, h.items, h.current]

theorem alloc_step (h : s.Models t) {size : ℕ} {file : String} {line : ℤ}
    (hpromised : s.Promised (.alloc size file line ptr))
    (hallowed : s.Allowed (.alloc size file line ptr)) :
    ∃ s', s.alloc size file line ptr = .ok s' ∧ s'.Models (t.next (.alloc size file line ptr)) := by
  obtain ⟨hnull,hroom⟩ := hallowed
  have hfar : ∀ b ∈ t.blocks, ptr+NODE_SIZE+size ≤ b.start ∨
      b.start+NODE_SIZE+b.size%2^32 ≤ ptr := by
    intro b hb
    exact hpromised.2 b.start b.info ((h.infos _ _).mpr ⟨b,hb,rfl,rfl⟩)
  have hsize : size%2^32 ≤ size := Nat.mod_le _ _
  have hnode : 0 < NODE_SIZE := by decide
  have hnew : ptr ∉ t.blocks.map HeapBlock.start := by
    intro hptr
    obtain ⟨b,hb,rfl⟩ := List.mem_map.mp hptr
    have := hfar b hb
    omega
  obtain ⟨objects,hpush,hlist⟩ := h.list.pushFront hnew
  have hroom' : ¬(size+NODE_SIZE)%2^64 < NODE_SIZE := by
    rw [Nat.mod_eq_of_lt hroom]
    omega
  rw [alloc, if_neg hnull, if_neg hroom']
  simp only [setInfo, hpush, ok_bind]
  refine ⟨_,rfl,hlist,?_,?_,?_,?_,?_,?_,?_,?_,?_,?_⟩
  · intro a i
    by_cases ha : a = ptr
    · simp only [HeapLog.next, List.mem_cons, if_pos ha, Option.some.injEq]
      constructor
      · rintro rfl
        exact ⟨_,.inl rfl,ha.symm,rfl⟩
      · rintro ⟨b,rfl | hb,rfl,rfl⟩
        · rfl
        · exact absurd (List.mem_map_of_mem hb) (ha ▸ hnew)
    · simp only [HeapLog.next, List.mem_cons, if_neg ha, h.infos a i]
      constructor
      · rintro ⟨b,hb,rest⟩
        exact ⟨b,.inr hb,rest⟩
      · rintro ⟨b,rfl | hb,hba,rest⟩
        · exact absurd hba.symm ha
        · exact ⟨b,hb,hba,rest⟩
  · intro b hb
    rcases List.mem_cons.mp hb with rfl | hb
    · exact hnull
    · exact h.nonzero b hb
  · intro b hb
    rcases List.mem_cons.mp hb with rfl | hb
    · exact Nat.two_pow_pos 31
    · exact h.refs b hb
  · intro b hb c hc hne
    rcases List.mem_cons.mp hb with rfl | hb <;> rcases List.mem_cons.mp hc with rfl | hc
    · exact absurd rfl hne
    · have := hfar c hc
      dsimp only
      omega
    · have := hfar b hb
      dsimp only
      omega
    · exact h.apart b hb c hc hne
  · simp only [h.current, toInt32_add, HeapLog.next, HeapLog.size, List.map_cons, List.sum_cons]
    push_cast
    rw [add_comm]
  · simp only [h.items, toInt32_add, HeapLog.next, List.length_cons]
    push_cast
    rfl
  · simp only [h.total, toInt32_add, HeapLog.next]
    push_cast
    rfl
  · simp only [h.current, h.peak, toInt32_add, HeapLog.next, HeapLog.size, List.map_cons,
      List.sum_cons]
    push_cast
    rw [add_comm]
    split <;> omega
  · simp only [h.made, HeapLog.next]
  · simp only [HeapLog.next, List.length_cons]
    exact Nat.succ_le_succ h.fuel

theorem next_delete_null (h : s.Models t) : t.next (.delete 0) = t := by
  have hall : t.blocks.filter (fun b => b.start+NODE_SIZE ≠ 0) = t.blocks := by
    apply List.filter_eq_self.mpr
    intro b hb
    simp [h.nonzero b hb]
  rw [HeapLog.next, hall]

theorem free_step (h : s.Models t) (hb : b ∈ t.blocks) (hrefs : b.refs = 0) :
    ∃ s', s.free b.start = .ok s' ∧ s'.Models (t.next (.delete (b.start+NODE_SIZE))) := by
  obtain ⟨l,r,hblocks⟩ := List.append_of_mem hb
  have hlist : s.mObjects.Holds (l.map HeapBlock.start ++ b.start :: r.map HeapBlock.start) := by
    simpa [hblocks] using h.list
  have hother : ∀ c ∈ l ++ r, c.start ≠ b.start := by
    have hnodup := List.nodup_middle.mp hlist.nodup
    intro c hc hcb
    have hmem : c.start ∈ l.map HeapBlock.start ++ r.map HeapBlock.start := by
      rw [← List.map_append]
      exact List.mem_map_of_mem hc
    exact (List.nodup_cons.mp hnodup).1 (hcb ▸ hmem)
  have hrest : t.blocks.filter (fun c => c.start+NODE_SIZE ≠ b.start+NODE_SIZE) = l ++ r := by
    have hkeep : (l ++ r).filter (fun c => c.start+NODE_SIZE ≠ b.start+NODE_SIZE) = l ++ r :=
      List.filter_eq_self.mpr fun c hc => by simpa using hother c hc
    rw [← hkeep, hblocks, List.filter_append, List.filter_append, List.filter_cons_of_neg (by simp)]
  have hsub : ∀ c ∈ l ++ r, c ∈ t.blocks := by
    intro c hc
    rw [hblocks]
    exact List.mem_append.mpr ((List.mem_append.mp hc).imp_right (List.mem_cons_of_mem b))
  obtain ⟨objects,hremove,hlist'⟩ := hlist.remove
  have hmagic : ¬b.info.magic ≠ MAGIC_ALLOCED := fun h => h rfl
  have hcount : ¬b.info.refCnt ≠ 0 := by simp [HeapBlock.info, hrefs]
  rw [free, h.info_eq hb]
  simp only [ok_bind, if_neg hmagic, if_neg hcount, hremove]
  rw [HeapLog.next, hrest]
  refine ⟨_,rfl,?_,?_,?_,?_,?_,?_,?_,h.total,h.peak,h.made,?_⟩
  · have hout : b.start ∉ (l ++ r).map HeapBlock.start := by
      rintro hmem
      obtain ⟨c,hc,hcb⟩ := List.mem_map.mp hmem
      exact hother c hc hcb
    rw [← List.map_append] at hlist'
    exact hlist'.setLinks_obj hout none
  · intro a i
    by_cases ha : a = b.start
    · simp only [setInfo, if_pos ha]
      refine iff_of_false (by simp) ?_
      rintro ⟨c,hc,hca,-⟩
      exact hother c hc (hca.trans ha)
    · simp only [setInfo, if_neg ha, h.infos a i]
      constructor
      · rintro ⟨c,hc,rfl,rfl⟩
        have hcb : c ≠ b := fun hcb => ha (hcb ▸ rfl)
        refine ⟨c,?_,rfl,rfl⟩
        rw [hblocks, List.mem_append, List.mem_cons] at hc
        simpa [hcb] using hc
      · rintro ⟨c,hc,rest⟩
        exact ⟨c,hsub c hc,rest⟩
  · exact fun c hc => h.nonzero c (hsub c hc)
  · exact fun c hc => h.refs c (hsub c hc)
  · exact fun c hc d hd => h.apart c (hsub c hc) d (hsub d hd)
  · have hsize : (t.size : ℤ)-b.size = (((l ++ r).map HeapBlock.size).sum : ℕ) := by
      simp only [HeapLog.size, hblocks, List.map_append, List.map_cons, List.sum_append,
        List.sum_cons]
      push_cast
      ring
    calc toInt32 (s.mCurrentSize-(b.size%2^32 : ℕ))
      _ = toInt32 (t.size-b.size) := by rw [h.current, toInt32_sub_mod]
      _ = _ := by rw [hsize]; rfl
  · have hlength : (t.blocks.length : ℤ)+(-1) = (l ++ r).length := by
      rw [hblocks]
      simp
      ring
    calc toInt32 (s.mNumCurrentAllocations-1)
      _ = toInt32 (t.blocks.length+(-1)) := by rw [h.items, sub_eq_add_neg, toInt32_add]
      _ = toInt32 (l ++ r).length := by rw [hlength]
  · have hfuel := h.fuel
    rw [hblocks] at hfuel
    simp only [List.length_append, List.length_cons] at hfuel ⊢
    omega

theorem delete_step (h : s.Models t) {p : ℕ} (hallowed : s.Allowed (.delete p)) :
    ∃ s', s.delete p = .ok s' ∧ s'.Models (t.next (.delete p)) := by
  unfold delete
  rcases hallowed with rfl | ⟨i,hi,hcount⟩
  · exact ⟨s,rfl,h.next_delete_null.symm ▸ h⟩
  · obtain ⟨b,hb,hstart,rfl⟩ := (h.infos _ _).mp hi
    have hp : p = b.start+NODE_SIZE := by
      have := h.nonzero b hb
      unfold quickFind at hstart
      omega
    have hrefs : b.refs = 0 := by simpa [HeapBlock.info] using hcount
    have hnull : p ≠ 0 := by
      have := h.nonzero b hb
      omega
    rw [if_neg hnull, ← hstart, hp]
    exact h.free_step hb hrefs

/-- The count of an object's references changes, and nothing else does. -/
theorem refer_step (h : s.Models t) (hb : b ∈ t.blocks) {f : ℕ → ℕ} (hf : f b.refs < 2^31) :
    (s.setInfo b.start (some { b.info with refCnt := f b.refs })).Models (t.refer b.start f) := by
  let g : HeapBlock → HeapBlock := fun c => if c.start = b.start then { c with refs := f c.refs } else c
  have hstart : ∀ c, (g c).start = c.start := fun c => by unfold g; split <;> rfl
  have hsize : ∀ c, (g c).size = c.size := fun c => by unfold g; split <;> rfl
  have hsame : ∀ c ∈ t.blocks, c.start = b.start → c = b := fun c hc => h.start_inj hc hb
  have hblocks : (t.refer b.start f).blocks = t.blocks.map g := rfl
  have hmem : ∀ c, c ∈ (t.refer b.start f).blocks ↔ ∃ d ∈ t.blocks, g d = c := by
    intro c
    rw [hblocks, List.mem_map]
  have hstarts : (t.refer b.start f).blocks.map HeapBlock.start = t.blocks.map HeapBlock.start := by
    simp only [hblocks, List.map_map, Function.comp_def, hstart]
  have hsizes : (t.refer b.start f).size = t.size := by
    simp only [HeapLog.size, hblocks, List.map_map, Function.comp_def, hsize]
  have hlength : (t.refer b.start f).blocks.length = t.blocks.length := by
    rw [hblocks, List.length_map]
  refine ⟨hstarts ▸ h.list,?_,?_,?_,?_,hsizes ▸ h.current,hlength ▸ h.items,h.total,h.peak,h.made,
    hlength ▸ h.fuel⟩
  · intro a i
    by_cases ha : a = b.start
    · simp only [setInfo, if_pos ha, Option.some.injEq, hmem]
      constructor
      · rintro rfl
        refine ⟨g b,⟨b,hb,rfl⟩,(hstart b).trans ha.symm,?_⟩
        simp [g, HeapBlock.info]
      · rintro ⟨_,⟨c,hc,rfl⟩,hca,rfl⟩
        obtain rfl := hsame c hc ((hstart c).symm.trans (hca.trans ha))
        simp [g, HeapBlock.info]
    · simp only [setInfo, if_neg ha, h.infos a i, hmem]
      constructor
      · rintro ⟨c,hc,rfl,rfl⟩
        have hgc : g c = c := if_neg ha
        exact ⟨c,⟨c,hc,hgc⟩,rfl,rfl⟩
      · rintro ⟨_,⟨c,hc,rfl⟩,rfl,rfl⟩
        rw [hstart] at ha
        have hgc : g c = c := if_neg ha
        exact ⟨c,hc,(hstart c).symm,by rw [hgc]⟩
  · intro c hc
    obtain ⟨d,hd,rfl⟩ := (hmem c).mp hc
    rw [hstart]
    exact h.nonzero d hd
  · intro c hc
    obtain ⟨d,hd,rfl⟩ := (hmem c).mp hc
    by_cases hdb : d.start = b.start
    · obtain rfl := hsame d hd hdb
      simpa [g] using hf
    · simpa [g, hdb] using h.refs d hd
  · intro c₁ hc₁ d₁ hd₁ hne
    obtain ⟨c,hc,rfl⟩ := (hmem c₁).mp hc₁
    obtain ⟨d,hd,rfl⟩ := (hmem d₁).mp hd₁
    simp only [hstart, hsize]
    exact h.apart c hc d hd fun hcd => hne (hcd ▸ rfl)

theorem addRef_step (h : s.Models t) (hpromised : s.Promised (.addRef a))
    (hallowed : s.Allowed (.addRef a)) :
    ∃ s', s.addRef a = .ok s' ∧ s'.Models (t.next (.addRef a)) := by
  obtain ⟨i,hi⟩ := hallowed
  have hmost := hpromised i hi
  obtain ⟨b,hb,rfl,rfl⟩ := (h.infos _ _).mp hi
  have hcount : toInt32 (b.info.refCnt+1) = ((b.refs+1 : ℕ) : ℤ) := by
    rw [toInt32_eq] <;> simp only [HeapBlock.info] at hmost ⊢ <;> omega
  rw [addRef, h.info_eq hb, ok_bind, hcount]
  refine ⟨_,rfl,h.refer_step hb (f := (· + 1)) ?_⟩
  simp only [HeapBlock.info] at hmost
  omega

theorem release_step (h : s.Models t) (hallowed : s.Allowed (.release a)) :
    ∃ s', s.release a = .ok s' ∧ s'.Models (t.next (.release a)) := by
  obtain ⟨i,hi,hpos⟩ := hallowed
  obtain ⟨b,hb,rfl,rfl⟩ := (h.infos _ _).mp hi
  have hrefs := h.refs b hb
  have hcount : toInt32 (b.info.refCnt-1) = ((b.refs-1 : ℕ) : ℤ) := by
    rw [toInt32_eq] <;> simp only [HeapBlock.info] at hpos ⊢ <;> omega
  rw [release, h.info_eq hb, ok_bind, hcount, if_pos (by omega)]
  exact ⟨_,rfl,h.refer_step hb (f := (· - 1)) (by omega)⟩

/-- A step that malloc and the program agree with does what the log says. -/
theorem step_eq (h : s.Models t) {op : GCHeapOp} (hpromised : s.Promised op)
    (hallowed : s.Allowed op) :
    ∃ r s' t', s.step op = .ok (r,s') ∧ t.Spec op r t' ∧ s'.Models t' := by
  cases op with
  | alloc size file line ptr =>
    obtain ⟨s',hstep,hmodels⟩ := h.alloc_step hpromised hallowed
    exact ⟨.pointer (ptr+NODE_SIZE),s',_,by rw [step, hstep]; rfl,⟨rfl,rfl⟩,hmodels⟩
  | delete p =>
    obtain ⟨s',hstep,hmodels⟩ := h.delete_step hallowed
    exact ⟨.done,s',_,by rw [step, hstep]; rfl,⟨trivial,rfl⟩,hmodels⟩
  | find ptr =>
    obtain ⟨a,hstep,hreturns⟩ := h.find_eq ptr
    exact ⟨.found a,s,t,by rw [step, hstep]; rfl,⟨hreturns,rfl⟩,h⟩
  | addRef a =>
    obtain ⟨s',hstep,hmodels⟩ := h.addRef_step hpromised hallowed
    exact ⟨.done,s',_,by rw [step, hstep]; rfl,⟨trivial,rfl⟩,hmodels⟩
  | release a =>
    obtain ⟨s',hstep,hmodels⟩ := h.release_step hallowed
    exact ⟨.done,s',_,by rw [step, hstep]; rfl,⟨trivial,rfl⟩,hmodels⟩
  | dumpList => exact ⟨.dumped _ _,s,t,by rw [step, h.dumpList_eq]; rfl,⟨⟨rfl,rfl⟩,rfl⟩,h⟩
  | report =>
    obtain ⟨r,hstep,hreturns⟩ := h.report_eq
    exact ⟨.report r,s,t,by rw [step, hstep]; rfl,⟨hreturns,rfl⟩,h⟩

/-- Any other step does not return: it is stopped, or in memory that is not there. -/
theorem allowed_of_step (h : s.Models t) {op : GCHeapOp} (hpromised : s.Promised op)
    {r : GCHeapResult} {s' : GCHeap} (hstep : s.step op = .ok (r,s')) : s.Allowed op := by
  cases op with
  | alloc size file line ptr =>
    obtain ⟨s₁,halloc,-⟩ := bind_eq_ok.mp hstep
    unfold alloc at halloc
    split_ifs at halloc with hnull hroom
    refine ⟨hnull,?_⟩
    have hsize := hpromised.1
    unfold NODE_SIZE at hroom ⊢
    omega
  | delete p =>
    obtain ⟨s₁,hdelete,-⟩ := bind_eq_ok.mp hstep
    unfold delete at hdelete
    split_ifs at hdelete with hnull
    · exact .inl hnull
    · obtain ⟨i,hi,hfree⟩ := bind_eq_ok.mp hdelete
      split_ifs at hfree with hmagic hcount
      exact .inr ⟨i,info_eq_ok.mp hi,not_not.mp hcount⟩
  | find | dumpList | report => trivial
  | addRef a =>
    obtain ⟨s₁,hadd,-⟩ := bind_eq_ok.mp hstep
    obtain ⟨i,hi,-⟩ := bind_eq_ok.mp hadd
    exact ⟨i,info_eq_ok.mp hi⟩
  | release a =>
    obtain ⟨s₁,hrelease,-⟩ := bind_eq_ok.mp hstep
    obtain ⟨i,hi,hassert⟩ := bind_eq_ok.mp hrelease
    have hinfo := info_eq_ok.mp hi
    refine ⟨i,hinfo,?_⟩
    obtain ⟨b,-,-,rfl⟩ := (h.infos a i).mp hinfo
    by_contra hnone
    have hcount : b.info.refCnt = 0 := by
      simp only [HeapBlock.info] at hnone ⊢
      omega
    rw [hcount, if_neg (by decide)] at hassert
    cases hassert

end Models

/-- The counters are those of a log. -/
def Counts (s : GCHeap) (t : HeapLog) : Prop :=
  s.mCurrentSize = toInt32 t.size ∧ s.mMaxSize = t.peak ∧
    s.mNumTotalAllocations = toInt32 t.made ∧ s.mNumCurrentAllocations = toInt32 t.blocks.length

/-- In every run of the allocations, deletions and references of a program that malloc's promise holds in,
the heap's list, counters and dumps are those of the objects that there are, and a pointer is found in
the one object that it points into, if and only if the program deletes only what it has, without
references to it, and gives back only references that it has. -/
theorem run_iff_allowed (ops : List GCHeapOp) (hpromised : Guarded step Promised create ops) :
    Simulated step HeapLog.Spec Counts create ⟨[],0,0⟩ ops ↔
      Guarded step Allowed create ops := by
  apply simulated_iff_of_admitted Promised Allowed (R := Models)
    (fun s t h => ⟨h.current,h.peak,h.total,h.items⟩) _ _ models_create ops hpromised
  · intro s t op h hpromised hallowed
    exact h.step_eq hpromised hallowed
  · intro s t op r s' t' h hpromised hstep hspec _
    have hallowed := h.allowed_of_step hpromised hstep
    obtain ⟨r₁,s₁,t₁,hstep₁,hspec₁,hmodels⟩ := h.step_eq hpromised hallowed
    obtain ⟨-,rfl⟩ := Prod.mk.inj (Except.ok.inj (hstep₁.symm.trans hstep))
    refine ⟨hallowed,?_⟩
    rw [hspec.2, ← hspec₁.2]
    exact hmodels

theorem run_iff_allowed_leak :
    Simulated step HeapLog.Spec Counts create ⟨[],0,0⟩
      [.alloc 16 "a.cpp" 1 1000,.alloc 8 "b.cpp" 2 2000,.find 2075,.delete 1072,.report] := by
  apply (run_iff_allowed _ _).mpr
  · refine .cons rfl ⟨by decide,by decide⟩ (.cons rfl ⟨by decide,by decide⟩ (.cons rfl trivial
      (.cons rfl (.inr ⟨_,rfl,rfl⟩) (.cons rfl trivial trivial))))
  · refine .cons rfl ⟨by decide,?_⟩ (.cons rfl ⟨by decide,?_⟩ (.cons rfl trivial
      (.cons rfl trivial (.cons rfl trivial trivial))))
    · intro a i h
      cases h
    · intro a i h
      by_cases ha : a = 1000
      · obtain rfl : _ = i := Option.some.inj ((if_pos ha).symm.trans h)
        subst ha
        exact .inr (by decide)
      · cases (if_neg ha).symm.trans h

end GCHeap

end JhCommon
