import JhCommon.AllocatorHeap

/-! Requests of every size. The rounding and the header are added in 32 bits, so the largest sizes
wrap to a block of at most one header; and a block for no bytes may end where the buffer does, with
a pointer that `free` does not take back. -/
namespace JhCommon
open LinkedPath Word32 Tiling

namespace Allocator

/-- The free list describes the byte at a. -/
def FreeByte (s : Allocator) (a : ℕ) : Prop :=
  ∃ free, Path s.next s.mFreeList free none ∧ ∃ n ∈ free, n ≤ a ∧ a < n+(s.mem n).size

variable {s : Allocator} {ts : List Tile}

theorem Lays.freeByte_iff (h : s.Lays ts) {a : ℕ} : s.FreeByte a ↔ FreeAt ts a := by
  constructor
  · rintro ⟨free,hpath,n,hn,hlow,hhigh⟩
    rw [hpath.unique h.linked] at hn
    obtain ⟨t,ht,hfree,rfl⟩ := mem_frees.mp hn
    rw [h.header t ht] at hhigh
    exact ⟨t,ht,hfree,hlow,hhigh⟩
  · rintro ⟨t,ht,hfree,hlow,hhigh⟩
    refine ⟨frees ts,h.linked,t.addr,mem_frees.mpr ⟨t,ht,hfree,rfl⟩,hlow,?_⟩
    rwa [h.header t ht]

/-- Two tilings of a buffer with the same live tiles have the same free bytes. -/
theorem Lays.freeByte_congr {s' : Allocator} {ts' : List Tile} (h : s.Lays ts) (h' : s'.Lays ts')
    (hsame : s.SameBuffer s') (hlives : lives ts' = lives ts) (a : ℕ) :
    s'.FreeByte a ↔ s.FreeByte a := by
  rw [h.freeByte_iff, h'.freeByte_iff, h.tiles.freeAt_iff, h'.tiles.freeAt_iff, hlives, hsame.1,
    hsame.2.1]

/-- Cutting less than a header off a node leaves a block that is small or the whole node. -/
theorem takeNode_small (s : Allocator) (prev : Option ℕ) (n : ℕ) {size : ℕ} (hsize : size ≤ 16)
    (hfit : size ≤ (s.mem n).size) (hlt : (s.mem n).size < 2^32) :
    ∃ a s', s.takeNode prev n size = (some (a+nodeSize),s') ∧ (s'.mem a).size < 48 := by
  unfold takeNode
  rw [sub32_of_le hlt hfit, nodeSize_eq, smallestBlock_eq]
  split
  · refine ⟨_,_,rfl,?_⟩
    rw [mem_setNext_size, mem_setSize_size, if_pos rfl]
    omega
  · refine ⟨_,_,rfl,?_⟩
    rw [mem_setNext_size]
    cases prev with
    | none =>
      dsimp only
      omega
    | some prev =>
      dsimp only
      rw [mem_setNext_size]
      dsimp only
      omega

/-- A size whose rounding wraps makes a block of at most sixteen bytes. -/
theorem blockSize_le {size : ℕ} (hlt : size < 2^32) (hwrap : 2^32 ≤ alignSize size+nodeSize) :
    blockSize size ≤ 16 ∧ 48 ≤ size := by
  unfold blockSize
  rw [nodeSize_eq] at hwrap ⊢
  unfold alignSize ptrSize at *
  omega

end Allocator

namespace Heap
open Allocator

/-- What is wanted of a pointer returned for size bytes: the block at its header is large enough,
comes out of one free block, meets no other block, and is free again once the pointer is freed. -/
structure Grants (h : Heap) (size p : ℕ) (h' : Heap) : Prop where
  inside : h.allocator.mBuffer+nodeSize ≤ p ∧ p+size ≤ h.allocator.mBuffer+h.allocator.mSize
  large : nodeSize+size ≤ h'.size p
  within : ∃ free, Path h.allocator.next h.allocator.mFreeList free none ∧
    ∃ n ∈ free, n+nodeSize ≤ p ∧ p-nodeSize+h'.size p ≤ n+(h.allocator.mem n).size
  apart : ∀ q ∈ h.live, q-nodeSize+h.size q ≤ p-nodeSize ∨ p-nodeSize+h'.size p ≤ q-nodeSize
  taken : ∀ a, h'.allocator.FreeByte a ↔
    h.allocator.FreeByte a ∧ (a < p-nodeSize ∨ p-nodeSize+h'.size p ≤ a)
  freed : ∃ out h'', h'.step (.free p) = .ok (out,h'') ∧
    ∀ a, p-nodeSize ≤ a → a < p-nodeSize+h'.size p → h''.allocator.FreeByte a

/-- A request returns NULL and the same bytes are free, or a pointer as it is wanted. -/
def AllocSound (h : Heap) (size : ℕ) : Prop :=
  ∃ out h', h.step (.alloc size) = .ok (out,h') ∧
    ((out = .pointer none ∧ ∀ a, h'.allocator.FreeByte a ↔ h.allocator.FreeByte a) ∨
      ∃ p, out = .pointer (some p) ∧ h.Grants size p h')

/-- The rounded size and the header do not overflow, unless nothing is free; and for no bytes the
first free block is not one whose last header alone is taken, at the end of the buffer. -/
structure Fitting (h : Heap) (size : ℕ) : Prop where
  rounded : alignSize size+nodeSize < 2^32 ∨ h.allocator.mFreeList = none
  payload : size = 0 → ∀ n ∈ h.allocator.mFreeList,
    n+(h.allocator.mem n).size = h.allocator.mBuffer+h.allocator.mSize →
      nodeSize < (h.allocator.mem n).size ∧ (h.allocator.mem n).size < 2*nodeSize+smallestBlock

def AllowedFitting (h : Heap) : HeapOp → Prop
  | .alloc size => size < 2^32 ∧ h.Fitting size
  | op => h.Allowed op

def ReachableFitting (mem : ℕ → Node) (buffer size : ℕ) (doCoalesceOnFree : Bool) : Heap → Prop :=
  Transition.Reachable (· = init mem buffer size doCoalesceOnFree)
    (fun h h' => ∃ op out, h.AllowedFitting op ∧ h.step op = .ok (out,h'))

/-- Every live block has its pointer inside the buffer. -/
structure Frees (h : Heap) (ts : List Tile) : Prop where
  owns : h.Owns ts
  room : ∀ t ∈ lives ts, t.addr+nodeSize < h.allocator.mBuffer+h.allocator.mSize

variable {h h' : Heap} {ts ts' : List Tile}

/-- The client gives a block back, and its bytes are free. -/
theorem Frees.free (hf : h.Frees ts) {t : Tile} (ht : t ∈ lives ts) :
    ∃ s' ts', h.step (.free (t.addr+nodeSize)) = .ok (.done,⟨s',h.live.erase (t.addr+nodeSize)⟩) ∧
      Frees ⟨s',h.live.erase (t.addr+nodeSize)⟩ ts' ∧ h.allocator.SameBuffer s' ∧
      ∀ a, t.addr ≤ a → a < t.addr+t.size → s'.FreeByte a := by
  obtain ⟨htmem,hlive⟩ := mem_lives.mp ht
  have hlays := hf.owns.lays
  have h16 := hf.owns.positive
  have hroom := hf.room t ht
  have hbounds := hlays.tiles.bounds htmem
  obtain ⟨ls,rs,rfl⟩ := List.append_of_mem htmem
  rw [nodeSize_eq] at hroom
  obtain ⟨s',ts',hfree,hsame,hlays',hlives⟩ := free_lives hlays hlive hroom
    (le_of_lt (hlays.length_lt (by omega)))
  have ho' := hf.owns.erase hlive hlays' (hsame.2.1 ▸ h16) hlives
  simp only [step]
  rw [hfree]
  refine ⟨s',ts',rfl,⟨ho',?_⟩,hsame,?_⟩
  · intro u hu
    rw [hlives, List.mem_append] at hu
    dsimp only
    rw [hsame.1, hsame.2.1]
    apply hf.room u
    simp only [lives_append, lives_cons, hlive, List.mem_append, List.mem_cons, Bool.false_eq_true,
      if_false]
    tauto
  · -- no other live block has a byte of it
    intro a hlow hhigh
    rw [hlays'.freeByte_iff, hlays'.tiles.freeAt_iff, hsame.1, hsame.2.1]
    refine ⟨by omega,fun u hu => ?_⟩
    rw [hlives, List.mem_append] at hu
    have haround := hlays.tiles.around
    rcases hu with hu | hu
    · have := haround.1 u (mem_lives.mp hu).1
      omega
    · have := haround.2 u (mem_lives.mp hu).1
      omega

/-- A block cut out of a free tile is a pointer as it is wanted, if that pointer is inside the
buffer. -/
theorem Frees.grants {ls rs : List Tile} {t : Tile} {n size : ℕ} {s' : Allocator}
    (hf : h.Frees (ls ++ t :: rs)) (hfree : t.free) (hfit : n ≤ t.size) (hsize : nodeSize+size ≤ n)
    (ho' : Owns ⟨s',((carved 32 t n).addr+nodeSize) :: h.live⟩ (carve 32 ls t rs n))
    (hsame : h.allocator.SameBuffer s')
    (hroom : (carved 32 t n).addr+nodeSize < h.allocator.mBuffer+h.allocator.mSize) :
    Frees ⟨s',((carved 32 t n).addr+nodeSize) :: h.live⟩ (carve 32 ls t rs n) ∧
      h.Grants size ((carved 32 t n).addr+nodeSize)
        ⟨s',((carved 32 t n).addr+nodeSize) :: h.live⟩ := by
  have hlays := hf.owns.lays
  have hbounds := hlays.tiles.bounds (t := t) (by simp)
  have hwithin : t.addr ≤ (carved 32 t n).addr ∧
      (carved 32 t n).addr+(carved 32 t n).size ≤ t.addr+t.size := carved_within hfit
  have hcarved : n ≤ (carved 32 t n).size := le_size_carved hfit
  have hmem : carved 32 t n ∈ lives (carve 32 ls t rs n) := by simp [lives_carve]
  have hf' : Frees ⟨s',((carved 32 t n).addr+nodeSize) :: h.live⟩ (carve 32 ls t rs n) := by
    refine ⟨ho',fun u hu => ?_⟩
    dsimp only
    rw [hsame.1, hsame.2.1]
    rw [lives_carve, List.mem_append, List.mem_cons] at hu
    rcases hu with hu | rfl | hu
    · exact hf.room u (by simp [hu])
    · exact hroom
    · exact hf.room u (by simp [hu, hfree])
  have hheader := hf'.owns.size_eq hmem
  obtain ⟨s'',ts'',hstep,-,-,hbytes⟩ := hf'.free hmem
  refine ⟨hf',⟨?_,?_,?_,?_,?_,_,_,hstep,?_⟩⟩
  · omega
  · omega
  · refine ⟨_,hlays.linked,t.addr,mem_frees.mpr ⟨t,by simp,hfree,rfl⟩,by omega,?_⟩
    rw [hheader, Nat.add_sub_cancel, hlays.header t (by simp)]
    exact hwithin.2
  · -- the other live blocks are other tiles
    intro q hq
    obtain ⟨u,hu,rfl⟩ := hf.owns.mem_live.mp hq
    rw [hheader, hf.owns.size_eq hu, Nat.add_sub_cancel, Nat.add_sub_cancel]
    obtain ⟨hu,hlive⟩ := mem_lives.mp hu
    rcases hlays.tiles.apart (t := t) (by simp) hu with rfl | hbefore | hbehind
    · exact absurd hfree (by simp [hlive])
    · omega
    · omega
  · intro a
    rw [hheader, Nat.add_sub_cancel, hlays.freeByte_iff, ho'.lays.freeByte_iff,
      hlays.tiles.freeAt_iff, ho'.lays.tiles.freeAt_iff, hsame.1, hsame.2.1, lives_carve]
    simp only [lives_append, lives_cons, hfree, if_true, List.forall_mem_append, List.forall_mem_cons]
    tauto
  · rw [hheader, Nat.add_sub_cancel]
    exact hbytes

/-- With nothing free every request returns NULL. -/
theorem Owns.alloc_empty (ho : h.Owns ts) (hnone : h.allocator.mFreeList = none) (size : ℕ) :
    ∃ s' ts', h.step (.alloc size) = .ok (.pointer none,⟨s',h.live⟩) ∧ Owns ⟨s',h.live⟩ ts' ∧
      lives ts' = lives ts ∧ h.allocator.SameBuffer s' := by
  have h16 := ho.positive
  obtain ⟨s',ts',hretry,hlays,hlives,hsame,-⟩ := retry_none ho.lays (ho.lays.length_lt (by omega))
    (blockSize size) none
  simp only [step, Allocator.alloc]
  rw [hnone, hretry]
  refine ⟨s',ts',rfl,⟨hlays,hsame.2.1 ▸ h16,?_⟩,hlives,hsame⟩
  rw [hlives]
  exact ho.owned

/-- The first free tile is the head of the free list when none in front of it is free. -/
theorem Owns.head_eq {ls rs : List Tile} {t : Tile} (ho : h.Owns (ls ++ t :: rs)) (hfree : t.free)
    (hfirst : ∀ u ∈ ls, u.free → u.size < 16) :
    h.allocator.mFreeList = some t.addr ∧ (h.allocator.mem t.addr).size = t.size := by
  refine ⟨?_,ho.lays.header t (by simp)⟩
  have hnil : frees ls = [] := by
    rw [List.eq_nil_iff_forall_not_mem]
    intro a ha
    obtain ⟨u,hu,hfree',-⟩ := mem_frees.mp ha
    have := ho.lays.large u (by simp [hu])
    have := hfirst u hu hfree'
    omega
  rw [ho.lays.linked.start_eq, frees_append, hnil, frees_cons, if_pos hfree]
  rfl

/-- A heap whose pointers are inside the buffer serves a fitting request, and is such a heap again. -/
theorem Frees.alloc (hf : h.Frees ts) {size : ℕ} (hfitting : h.Fitting size) :
    h.AllocSound size ∧ ∃ out h' ts', h.step (.alloc size) = .ok (out,h') ∧ h'.Frees ts' ∧
      h.allocator.SameBuffer h'.allocator := by
  have hrefused : ∀ s' ts', h.step (.alloc size) = .ok (.pointer none,⟨s',h.live⟩) →
      Owns ⟨s',h.live⟩ ts' → lives ts' = lives ts → h.allocator.SameBuffer s' →
      h.AllocSound size ∧ ∃ out h' ts', h.step (.alloc size) = .ok (out,h') ∧ h'.Frees ts' ∧
        h.allocator.SameBuffer h'.allocator := by
    intro s' ts' hstep ho' hlives hsame
    refine ⟨⟨_,_,hstep,.inl ⟨rfl,hf.owns.lays.freeByte_congr ho'.lays hsame hlives⟩⟩,
      _,_,ts',hstep,⟨ho',?_⟩,hsame⟩
    dsimp only
    rw [hlives, hsame.1, hsame.2.1]
    exact hf.room
  -- the sizes that wrap when they are rounded are refused only by an empty free list
  rcases hfitting.rounded with hlt | hnone
  · have hblock := blockSize_eq hlt
    have hle := le_alignSize size
    rcases hf.owns.alloc (show 16 ≤ blockSize size by rw [hblock, nodeSize_eq]; omega) with
      ⟨ls,t,rs,s',rfl,hfree,hfit,hfirst,hstep,ho',hsame⟩ | ⟨-,s',ts',hstep,ho',hlives,hsame,-⟩
    · rw [hblock] at hfit hfirst hstep ho'
      have hbounds := hf.owns.lays.tiles.bounds (t := t) (by simp)
      have hcarved : alignSize size+nodeSize ≤ (carved 32 t (alignSize size+nodeSize)).size :=
        le_size_carved hfit
      have hwithin : t.addr ≤ (carved 32 t (alignSize size+nodeSize)).addr ∧
          (carved 32 t (alignSize size+nodeSize)).addr+
            (carved 32 t (alignSize size+nodeSize)).size ≤ t.addr+t.size := carved_within hfit
      have hroom : (carved 32 t (alignSize size+nodeSize)).addr+nodeSize <
          h.allocator.mBuffer+h.allocator.mSize := by
        rcases Nat.eq_zero_or_pos size with rfl | hpos
        · -- the header of a block for no bytes must not be the last of the buffer
          have hzero : alignSize 0+nodeSize = 16 := rfl
          rw [hzero] at hfirst hwithin ⊢
          obtain ⟨hhead,hheader⟩ := hf.owns.head_eq hfree hfirst
          have hpayload := hfitting.payload rfl t.addr hhead
          rw [hheader, nodeSize_eq, smallestBlock_eq] at hpayload
          have hlarge := hf.owns.lays.large t (by simp)
          unfold carved
          rw [nodeSize_eq]
          split
          · dsimp only
            omega
          · dsimp only
            omega
        · have := nodeSize_eq
          omega
      have hneeds : nodeSize+size ≤ alignSize size+nodeSize := by omega
      obtain ⟨hf',hgrants⟩ := hf.grants hfree hfit hneeds ho' hsame hroom
      exact ⟨⟨_,_,hstep,.inr ⟨_,rfl,hgrants⟩⟩,_,_,_,hstep,hf',hsame⟩
    · exact hrefused s' ts' hstep ho' hlives hsame
  · obtain ⟨s',ts',hstep,ho',hlives,hsame⟩ := hf.owns.alloc_empty hnone size
    exact hrefused s' ts' hstep ho' hlives hsame

/-- A request whose size wraps gets a block of a few bytes from any free block. -/
theorem Owns.not_sound_wrapped (ho : h.Owns ts) {size : ℕ} (hlt : size < 2^32)
    (hwrap : 2^32 ≤ alignSize size+nodeSize) (hsome : h.allocator.mFreeList ≠ none) :
    ¬h.AllocSound size := by
  have h16 := ho.positive
  have hlength := ho.lays.length_lt (by omega)
  obtain ⟨hblock,hlarge⟩ := blockSize_le hlt hwrap
  rcases findFit_eq ho.lays (le_of_lt hlength) (blockSize size) none with
    ⟨ls,t,rs,rfl,hfree,hfit,-,hfind⟩ | ⟨hsmall,-⟩
  · have hheader := ho.lays.header t (by simp)
    obtain ⟨a,s',htake,hsize⟩ := takeNode_small h.allocator (frees ls).getLast? t.addr hblock
      (by rw [hheader]; exact hfit) (by rw [hheader]; exact ho.lays.size_lt (by simp))
    have hstep : h.step (.alloc size) =
        .ok (.pointer (some (a+nodeSize)),⟨s',(a+nodeSize) :: h.live⟩) := by
      obtain ⟨fuel,hfuel⟩ : ∃ f, h.allocator.mSize = f+1 := ⟨h.allocator.mSize-1,by omega⟩
      rw [Option.or_none, hfuel] at hfind
      simp only [step, Allocator.alloc]
      rw [hfuel, retry, hfind]
      simp only [ok_bind, htake]
      rfl
    rintro ⟨out,h',hstep',hcase⟩
    rw [hstep, Except.ok.injEq, Prod.mk.injEq] at hstep'
    obtain ⟨rfl,rfl⟩ := hstep'
    rcases hcase with ⟨hout,-⟩ | ⟨p,hout,hgrants⟩
    · cases hout
    · obtain rfl : a+nodeSize = p := by simpa using hout
      -- the header at the pointer is too small for the size
      have := hgrants.large
      rw [Heap.size, Nat.add_sub_cancel] at this
      dsimp only at this
      omega
  · apply absurd ho.lays.linked.start_eq
    intro hhead
    obtain ⟨n,hn⟩ := Option.ne_none_iff_exists'.mp hsome
    rw [hn] at hhead
    obtain ⟨t,ht,hfree,-⟩ := mem_frees.mp (List.mem_of_head? hhead.symm)
    have := hsmall t ht hfree
    have := ho.lays.large t ht
    omega

/-- A block for no bytes at the end of the buffer is never free again. -/
theorem Owns.not_sound_end (ho : h.Owns ts) {n : ℕ} (hhead : h.allocator.mFreeList = some n)
    (hend : n+(h.allocator.mem n).size = h.allocator.mBuffer+h.allocator.mSize)
    (hsize : (h.allocator.mem n).size ≤ nodeSize ∨
      2*nodeSize+smallestBlock ≤ (h.allocator.mem n).size) : ¬h.AllocSound 0 := by
  have hzero : blockSize 0 = 16 := rfl
  have hblock : 16 ≤ blockSize 0 := le_of_eq hzero.symm
  rcases ho.alloc hblock with
    ⟨ls,t,rs,s',rfl,hfree,hfit,hfirst,hstep,ho',hsame⟩ | ⟨hsmall,-⟩
  · rw [hzero] at hfit hfirst hstep ho'
    obtain ⟨hhead',hheader⟩ := ho.head_eq hfree hfirst
    obtain rfl : t.addr = n := Option.some.inj (hhead'.symm.trans hhead)
    rw [hheader] at hend hsize
    rw [nodeSize_eq, smallestBlock_eq] at hsize
    have hlast : (carved 32 t 16).addr+nodeSize = h.allocator.mBuffer+h.allocator.mSize ∧
        (carved 32 t 16).size = 16 := by
      unfold carved
      rw [nodeSize_eq]
      split
      · dsimp only
        omega
      · dsimp only
        omega
    have hmem : carved 32 t 16 ∈ lives (carve 32 ls t rs 16) := by simp [lives_carve]
    have hheader' := ho'.size_eq hmem
    rintro ⟨out,h',hstep',hcase⟩
    rw [hstep, Except.ok.injEq, Prod.mk.injEq] at hstep'
    obtain ⟨rfl,rfl⟩ := hstep'
    rcases hcase with ⟨hout,-⟩ | ⟨p,hout,hgrants⟩
    · cases hout
    · obtain rfl : (carved 32 t 16).addr+nodeSize = p := by simpa using hout
      obtain ⟨out',h'',hfreed,hbytes⟩ := hgrants.freed
      have hignored : s'.free s'.mSize (some ((carved 32 t 16).addr+nodeSize)) = .ok s' := by
        have hout' : (carved 32 t 16).addr+nodeSize ≥ s'.mBuffer+s'.mSize := by
          rw [hsame.1, hsame.2.1, hlast.1]
        simp only [Allocator.free, if_pos (Or.inr hout')]
      simp only [step] at hfreed
      rw [hignored, ok_bind, Except.ok.injEq, Prod.mk.injEq] at hfreed
      obtain ⟨-,rfl⟩ := hfreed
      -- the bytes of the block are still not on the free list
      have hbyte := hbytes (carved 32 t 16).addr (by omega) (by rw [hheader']; omega)
      rw [ho'.lays.freeByte_iff, ho'.lays.tiles.freeAt_iff] at hbyte
      have := hbyte.2 _ hmem
      omega
  · rw [hzero] at hsmall
    obtain ⟨t,ht,hfree,-⟩ := mem_frees.mp (List.mem_of_head? (ho.lays.linked.start_eq.symm.trans hhead))
    have := hsmall t ht hfree
    have := ho.lays.large t ht
    omega

theorem Frees.sound_iff (hf : h.Frees ts) {size : ℕ} (hlt : size < 2^32) :
    h.AllocSound size ↔ h.Fitting size := by
  refine ⟨fun hsound => ⟨?_,?_⟩,fun hfitting => (hf.alloc hfitting).1⟩
  · by_contra hwrong
    rw [not_or, Nat.not_lt] at hwrong
    exact hf.owns.not_sound_wrapped hlt hwrong.1 hwrong.2 hsound
  · rintro rfl n hhead hend
    by_contra hwrong
    rw [Classical.not_and_iff_not_or_not, Nat.not_lt, Nat.not_lt] at hwrong
    exact hf.owns.not_sound_end hhead hend hwrong hsound

theorem Frees.step (hf : h.Frees ts) {op : HeapOp} (hop : h.AllowedFitting op) :
    ∃ out h' ts', h.step op = .ok (out,h') ∧ h'.Frees ts' ∧
      h.allocator.SameBuffer h'.allocator := by
  cases op with
  | alloc size => exact (hf.alloc hop.2).2
  | free p =>
    obtain ⟨t,ht,rfl⟩ := hf.owns.mem_live.mp hop
    obtain ⟨s',ts',hstep,hf',hsame,-⟩ := hf.free ht
    exact ⟨_,_,ts',hstep,hf',hsame⟩
  | getFreeSpace =>
    obtain ⟨n,s',ts',hstep,ho',hlives,hsame,-⟩ := hf.owns.getFreeSpace
    refine ⟨_,_,ts',hstep,⟨ho',?_⟩,hsame⟩
    dsimp only
    rw [hlives, hsame.1, hsame.2.1]
    exact hf.room
  | store mem => exact ⟨_,_,ts,rfl,⟨hf.owns.store hop,hf.room⟩,⟨rfl,rfl,rfl⟩⟩

section Runs
variable {mem : ℕ → Node} {buffer size : ℕ} {doCoalesceOnFree : Bool}

theorem init_frees (mem : ℕ → Node) (buffer : ℕ) (doCoalesceOnFree : Bool) (h16 : 16 ≤ size)
    (h32 : size < 2^32) :
    (init mem buffer size doCoalesceOnFree).Frees [⟨buffer,size,true⟩] :=
  ⟨init_owns mem doCoalesceOnFree h16 h32,by simp⟩

theorem ReachableFitting.frees (h16 : 16 ≤ size) (h32 : size < 2^32)
    (hr : ReachableFitting mem buffer size doCoalesceOnFree h) : ∃ ts, h.Frees ts := by
  apply Transition.Reachable.invariant (fun h => ∃ ts, h.Frees ts) _ _ hr
  · rintro h rfl
    exact ⟨_,init_frees mem buffer doCoalesceOnFree h16 h32⟩
  · rintro h h' ⟨ts,hf⟩ ⟨op,out,hop,hstep⟩
    obtain ⟨out',h'',ts',hstep',hf',-⟩ := hf.step hop
    rw [hstep, Except.ok.injEq, Prod.mk.injEq] at hstep'
    rw [hstep'.2]
    exact ⟨ts',hf'⟩

/-- In a run of fitting requests a request of any size is served as it is wanted exactly when it
fits too. -/
theorem alloc_sound_iff (h16 : 16 ≤ size) (h32 : size < 2^32)
    (hr : ReachableFitting mem buffer size doCoalesceOnFree h) {n : ℕ} (hn : n < 2^32) :
    h.AllocSound n ↔ h.Fitting n := by
  obtain ⟨ts,hf⟩ := hr.frees h16 h32
  exact hf.sound_iff hn

/-- A first request for the largest size that does not wrap. -/
theorem alloc_sound_iff_largest : (init (fun _ => ⟨0,none⟩) 1000 256 false).AllocSound (2^32-24) := by
  have hstart : ReachableFitting (fun _ => ⟨0,none⟩) 1000 256 false
    (init (fun _ => ⟨0,none⟩) 1000 256 false) := .start rfl
  refine (alloc_sound_iff (by norm_num) (by norm_num) hstart (by norm_num)).mpr ⟨.inl ?_,?_⟩
  · decide +kernel
  · intro hzero
    norm_num at hzero

/-- In a fresh heap of 256 bytes a request for nearly 2^32 bytes gets a block without any, and one
for no bytes gets a pointer behind the buffer. -/
theorem alloc_unsound : ¬(init (fun _ => ⟨0,none⟩) 1000 256 false).AllocSound (2^32-1) ∧
    ¬(init (fun _ => ⟨0,none⟩) 1000 256 false).AllocSound 0 := by
  have ho := (init_frees (fun _ => ⟨0,none⟩) 1000 false (show 16 ≤ 256 by norm_num)
    (by norm_num)).owns
  constructor
  · apply ho.not_sound_wrapped (by norm_num)
    · decide +kernel
    · exact Option.some_ne_none 1000
  · apply ho.not_sound_end (n := 1000) rfl
    · rfl
    · exact .inr (by decide)

end Runs

end Heap

end JhCommon
