import JhCommon.AllocatorHeap

/-! Requests without coalescing on free. After a search in vain `alloc` joins the free blocks and
goes back to its search, but the search goes on where it ended, so it finds nothing new. -/
namespace JhCommon
open LinkedPath Word32 Tiling

namespace Heap
open Allocator

/-- As `Allowed`, with requests for no bytes among the calls. -/
def AllowedAny (h : Heap) : HeapOp → Prop
  | .alloc size => alignSize size+nodeSize < 2^32
  | .free p => h.Allowed (.free p)
  | .getFreeSpace => True
  | .store mem => h.Allowed (.store mem)

theorem Allowed.any {h : Heap} {op : HeapOp} (hop : h.Allowed op) : h.AllowedAny op := by
  cases op with
  | alloc size => exact hop.2
  | _ => exact hop

def ReachableAny (mem : ℕ → Node) (buffer size : ℕ) (doCoalesceOnFree : Bool) : Heap → Prop :=
  Transition.Reachable (· = init mem buffer size doCoalesceOnFree)
    (fun h h' => ∃ op out, h.AllowedAny op ∧ h.step op = .ok (out,h'))

/-- Free blocks in a row, each starting where the one before it ends. -/
def FreeRun (h : Heap) (free run : List ℕ) : Prop :=
  run ≠ [] ∧ (∀ a ∈ run, a ∈ free) ∧ run.IsChain (fun a b => a+(h.allocator.mem a).size = b)

/-- A run at which no other free block ends or starts. -/
def MaximalRun (h : Heap) (free run : List ℕ) : Prop :=
  h.FreeRun free run ∧ (∀ a ∈ free, some (a+(h.allocator.mem a).size) ≠ run.head?) ∧
    ∀ a ∈ run.getLast?, a+(h.allocator.mem a).size ∉ free

def total (h : Heap) (run : List ℕ) : ℕ := (run.map fun a => (h.allocator.mem a).size).sum

/-- The tiles of a heap, with the client's blocks among the live ones. -/
structure Backs (h : Heap) (ts : List Tile) : Prop where
  lays : h.allocator.Lays ts
  positive : 16 ≤ h.allocator.mSize
  distinct : h.live.Nodup
  owned : ∀ p ∈ h.live, ∃ t ∈ lives ts, t.addr+nodeSize = p

/-- The tiles of a heap without coalescing. A block for no bytes at the end of the buffer stays
live when the client frees it, since its pointer is behind the buffer. -/
structure Covers (h : Heap) (ts : List Tile) : Prop where
  lays : h.allocator.Lays ts
  positive : 16 ≤ h.allocator.mSize
  mode : h.allocator.mDoCoalesceOnFree = false
  distinct : h.live.Nodup
  owned : ∀ p ∈ h.live, ∃ t ∈ lives ts, t.addr+nodeSize = p

variable {h h' : Heap} {ts ts' : List Tile}

theorem init_backs (mem : ℕ → Node) {buffer size : ℕ} (doCoalesceOnFree : Bool) (h16 : 16 ≤ size)
    (h32 : size < 2^32) : (init mem buffer size doCoalesceOnFree).Backs [⟨buffer,size,true⟩] := by
  refine ⟨⟨⟨rfl,?_,rfl⟩,h32,?_,?_,?_⟩,h16,.nil,?_⟩
  · show 0 < size
    omega
  · simp [h16]
  · simp [init, Allocator.init]
  · simp [init, Allocator.init, Allocator.next]
  · simp [init]

/-- A search for a block, on a heap cut into tiles: with room for it in one tile it is found, and
otherwise only the tiling of the free bytes changes. -/
theorem Backs.alloc (hb : h.Backs ts) {size : ℕ} (hlt : alignSize size+nodeSize < 2^32) :
    ∃ out h' ts', h.step (.alloc size) = .ok (out,h') ∧ h'.Backs ts' ∧
      h.allocator.SameBuffer h'.allocator ∧
      (out = .pointer none ↔ ∀ t ∈ ts, t.free → t.size < alignSize size+nodeSize) := by
  have hblock := blockSize_eq hlt
  have h16 := hb.positive
  simp only [step]
  rcases alloc_spec hb.lays (hb.lays.length_lt (by omega))
      (show 16 ≤ blockSize size by rw [hblock, nodeSize_eq]; omega) with
    ⟨ls,t,rs,s',rfl,hfree,hfit,-,halloc,hlays,hsame⟩ | ⟨hsmall,s',ts',halloc,hlays,hlives,hsame,-⟩
  · rw [hblock] at hfit halloc hlays
    generalize alignSize size+nodeSize = n at *
    have hlives : lives (ls ++ t :: rs) = lives ls ++ lives rs := by simp [hfree]
    have hnodup : ((lives (carve 32 ls t rs n)).map Tile.addr).Nodup :=
      (hlays.tiles.addr_lt.imp Nat.ne_of_lt).sublist (List.filter_sublist.map _)
    rw [lives_carve, List.map_append, List.map_cons, List.nodup_middle, List.nodup_cons,
      ← List.map_append, ← hlives] at hnodup
    rw [halloc]
    refine ⟨_,_,carve 32 ls t rs n,rfl,⟨hlays,hsame.2.1 ▸ h16,?_,?_⟩,hsame,?_⟩
    · -- the new pointer is none of the live ones, whose tiles were not free
      apply List.nodup_cons.mpr ⟨_,hb.distinct⟩
      intro hp
      obtain ⟨u,hu,hup⟩ := hb.owned _ hp
      exact hnodup.1 (List.mem_map.mpr ⟨u,hu,Nat.add_right_cancel hup⟩)
    · intro p hp
      rw [lives_carve]
      rcases List.mem_cons.mp hp with rfl | hp
      · exact ⟨_,by simp,rfl⟩
      · obtain ⟨u,hu,hup⟩ := hb.owned p hp
        rw [hlives, List.mem_append] at hu
        refine ⟨u,?_,hup⟩
        rw [List.mem_append, List.mem_cons]
        tauto
    · constructor
      · intro hnone
        cases hnone
      · intro hsmall
        exact absurd hfit (Nat.not_le.mpr (hsmall t (by simp) hfree))
  · rw [hblock] at hsmall
    rw [halloc]
    refine ⟨_,_,ts',rfl,⟨hlays,hsame.2.1 ▸ h16,hb.distinct,?_⟩,hsame,?_⟩
    · rw [hlives]
      exact hb.owned
    · exact ⟨fun _ => hsmall,fun _ => rfl⟩

theorem Backs.free (hb : h.Backs ts) {p : ℕ} (hp : p ∈ h.live) :
    ∃ out h' ts', h.step (.free p) = .ok (out,h') ∧ h'.Backs ts' ∧
      h.allocator.SameBuffer h'.allocator := by
  obtain ⟨t,ht,rfl⟩ := hb.owned p hp
  obtain ⟨htmem,hfree⟩ := mem_lives.mp ht
  obtain ⟨ls,rs,rfl⟩ := List.append_of_mem htmem
  have h16 := hb.positive
  have hlarge := hb.lays.large t htmem
  have hbounds := hb.lays.tiles.bounds htmem
  have hother : ∀ q ∈ h.live.erase (t.addr+nodeSize), q ∈ h.live ∧ q ≠ t.addr+nodeSize := by
    intro q hq
    exact (List.Nodup.mem_erase_iff hb.distinct).mp hq |>.symm
  simp only [step]
  by_cases hend : t.addr+16 < h.allocator.mBuffer+h.allocator.mSize
  · obtain ⟨s',ts',hs',hsame,hlays,hlives⟩ := free_lives hb.lays hfree hend
      (le_of_lt (hb.lays.length_lt (by omega)))
    rw [hs']
    refine ⟨_,_,_,rfl,⟨hlays,hsame.2.1 ▸ h16,hb.distinct.erase _,?_⟩,hsame⟩
    intro q hq
    obtain ⟨hq,hne⟩ := hother q hq
    obtain ⟨u,hu,rfl⟩ := hb.owned q hq
    refine ⟨u,?_,rfl⟩
    rw [hlives, List.mem_append]
    simp only [lives_append, lives_cons, hfree, List.mem_append] at hu
    rcases hu with hu | hu
    · exact .inl hu
    · rcases List.mem_cons.mp hu with rfl | hu
      · exact absurd rfl hne
      · exact .inr hu
  · -- the pointer is not inside the buffer, and is left alone
    have hignored : h.allocator.free h.allocator.mSize (some (t.addr+nodeSize)) = .ok h.allocator := by
      have hout : t.addr+nodeSize < h.allocator.mBuffer ∨
          t.addr+nodeSize ≥ h.allocator.mBuffer+h.allocator.mSize := by
        rw [nodeSize_eq]
        omega
      simp only [Allocator.free, if_pos hout]
    rw [hignored]
    refine ⟨_,_,_,rfl,⟨hb.lays,h16,hb.distinct.erase _,?_⟩,⟨rfl,rfl,rfl⟩⟩
    intro q hq
    exact hb.owned q (hother q hq).1

theorem Backs.getFreeSpace (hb : h.Backs ts) :
    ∃ out h' ts', h.step .getFreeSpace = .ok (out,h') ∧ h'.Backs ts' ∧
      h.allocator.SameBuffer h'.allocator := by
  have h16 := hb.positive
  obtain ⟨s',ts',hs',hlays,hlives,hsame,-⟩ := getFreeSpace_spec hb.lays
    (le_of_lt (hb.lays.length_lt (by omega)))
  simp only [step]
  rw [hs']
  refine ⟨_,_,ts',rfl,⟨hlays,hsame.2.1 ▸ h16,hb.distinct,?_⟩,hsame⟩
  rw [hlives]
  exact hb.owned

/-- No payload of the client's reaches a header. -/
theorem Backs.header_outside (hb : h.Backs ts) {t : Tile} (ht : t ∈ ts) {p : ℕ} (hp : p ∈ h.live) :
    t.addr+nodeSize ≤ p ∨ p-nodeSize+h.size p ≤ t.addr := by
  obtain ⟨u,hu,rfl⟩ := hb.owned p hp
  have hmem := (mem_lives.mp hu).1
  rw [size, nodeSize_eq, Nat.add_sub_cancel, hb.lays.header u hmem]
  have hlarge := hb.lays.large t ht
  rcases hb.lays.tiles.apart hmem ht with rfl | hbefore | hbehind <;> omega

theorem Backs.store (hb : h.Backs ts) {mem : ℕ → Node} (hmem : h.Allowed (.store mem)) :
    ∃ out h', h.step (.store mem) = .ok (out,h') ∧ h'.Backs ts ∧
      h.allocator.SameBuffer h'.allocator := by
  have hsame : ∀ t ∈ ts, mem t.addr = h.allocator.mem t.addr :=
    fun t ht => hmem t.addr (fun p hp => hb.header_outside ht hp)
  refine ⟨_,_,rfl,⟨⟨hb.lays.tiles,hb.lays.small,hb.lays.large,?_,?_⟩,hb.positive,hb.distinct,
    hb.owned⟩,⟨rfl,rfl,rfl⟩⟩
  · intro t ht
    exact (congrArg Node.size (hsame t ht)).trans (hb.lays.header t ht)
  · apply hb.lays.linked.congr
    intro a ha
    obtain ⟨t,ht,-,rfl⟩ := mem_frees.mp ha
    exact congrArg Node.next (hsame t ht)

theorem Backs.step (hb : h.Backs ts) {op : HeapOp} (hop : h.AllowedAny op) :
    ∃ out h' ts', h.step op = .ok (out,h') ∧ h'.Backs ts' ∧ h.allocator.SameBuffer h'.allocator := by
  cases op with
  | alloc size =>
    obtain ⟨out,h',ts',hstep,hb',hsame,-⟩ := hb.alloc hop
    exact ⟨out,h',ts',hstep,hb',hsame⟩
  | free p => exact hb.free hop
  | getFreeSpace => exact hb.getFreeSpace
  | store mem =>
    obtain ⟨out,h',hstep,hb',hsame⟩ := hb.store hop
    exact ⟨out,h',ts,hstep,hb',hsame⟩

theorem Covers.backs (hc : h.Covers ts) : h.Backs ts := ⟨hc.lays,hc.positive,hc.distinct,hc.owned⟩

theorem Backs.covers (hb : h.Backs ts) (hmode : h.allocator.mDoCoalesceOnFree = false) : h.Covers ts :=
  ⟨hb.lays,hb.positive,hmode,hb.distinct,hb.owned⟩

theorem Covers.step (hc : h.Covers ts) {op : HeapOp} (hop : h.AllowedAny op) :
    ∃ out h' ts', h.step op = .ok (out,h') ∧ h'.Covers ts' := by
  obtain ⟨out,h',ts',hstep,hb',hsame⟩ := hc.backs.step hop
  exact ⟨out,h',ts',hstep,hb'.covers (hsame.2.2.trans hc.mode)⟩

section Runs
variable {mem : ℕ → Node} {buffer size : ℕ}

theorem ReachableAny.covers (h16 : 16 ≤ size) (h32 : size < 2^32)
    (hr : ReachableAny mem buffer size false h) : ∃ ts, h.Covers ts := by
  apply Transition.Reachable.invariant (fun h => ∃ ts, h.Covers ts) _ _ hr
  · rintro h rfl
    exact ⟨_,(init_backs mem false h16 h32).covers rfl⟩
  · rintro h h' ⟨ts,hc⟩ ⟨op,out,hop,hstep⟩
    obtain ⟨out',h'',ts',hstep',hc'⟩ := hc.step hop
    rw [hstep, Except.ok.injEq, Prod.mk.injEq] at hstep'
    rw [hstep'.2]
    exact ⟨ts',hc'⟩

/-- In every reachable state a request returns, and it is refused although a run of adjacent free
blocks is large enough exactly when no single free block is. -/
theorem reachable_refuses (h16 : 16 ≤ size) (h32 : size < 2^32)
    (hr : ReachableAny mem buffer size false h) {n : ℕ} (hn : alignSize n+nodeSize < 2^32) :
    ∃ free out h', Path h.allocator.next h.allocator.mFreeList free none ∧
      h.step (.alloc n) = .ok (out,h') ∧
      ((out = .pointer none →
          ∀ run, h.MaximalRun free run → h.total run < alignSize n+nodeSize) ↔
        ((∃ run, h.MaximalRun free run ∧ alignSize n+nodeSize ≤ h.total run) →
          ∃ a ∈ free, alignSize n+nodeSize ≤ (h.allocator.mem a).size)) := by
  obtain ⟨ts,hc⟩ := hr.covers h16 h32
  obtain ⟨out,h',ts',hstep,-,-,hnone⟩ := hc.backs.alloc hn
  refine ⟨frees ts,out,h',hc.lays.linked,hstep,?_⟩
  -- a request is refused when every block of the free list is too small
  have hblocks : out = .pointer none ↔
      ¬∃ a ∈ frees ts, alignSize n+nodeSize ≤ (h.allocator.mem a).size := by
    rw [hnone]
    constructor
    · rintro hsmall ⟨a,ha,hfit⟩
      obtain ⟨t,ht,hfree,rfl⟩ := mem_frees.mp ha
      rw [hc.lays.header t ht] at hfit
      exact absurd hfit (Nat.not_le.mpr (hsmall t ht hfree))
    · intro hno t ht hfree
      by_contra hfit
      apply hno
      refine ⟨t.addr,mem_frees.mpr ⟨t,ht,hfree,rfl⟩,?_⟩
      rw [hc.lays.header t ht]
      exact Nat.not_lt.mp hfit
  rw [hblocks]
  constructor
  · rintro hruns ⟨run,hrun,hfit⟩
    by_contra hno
    exact absurd hfit (Nat.not_le.mpr (hruns hno run hrun))
  · intro hruns hno run hrun
    by_contra hfit
    exact hno (hruns ⟨run,hrun,Nat.not_lt.mp hfit⟩)

/-- The heap after three requests for eight bytes in a buffer of 96, all of them freed. -/
def threeFreed : Exec (List HeapResult × Heap) :=
  Transition.run step (init (fun _ => ⟨0,none⟩) 1000 96 false)
    [.alloc 8,.alloc 8,.alloc 8,.free 1016,.free 1064,.free 1088]

/-- What the theorem says of three blocks in a row, for a request that one of them is large enough
for, one that all of them are together, and one that is too large. -/
theorem reachable_refuses_three : ∃ outs h, threeFreed = .ok (outs,h) ∧ ∀ n ∈ [24,64,96],
    ∃ free out h', Path h.allocator.next h.allocator.mFreeList free none ∧
      h.step (.alloc n) = .ok (out,h') ∧
      ((out = .pointer none →
          ∀ run, h.MaximalRun free run → h.total run < alignSize n+nodeSize) ↔
        ((∃ run, h.MaximalRun free run ∧ alignSize n+nodeSize ≤ h.total run) →
          ∃ a ∈ free, alignSize n+nodeSize ≤ (h.allocator.mem a).size)) := by
  have hok : (threeFreed.map fun _ => ()) = .ok () := by decide +kernel
  have hguard : Transition.Guarded step Called (init (fun _ => ⟨0,none⟩) 1000 96 false)
      [.alloc 8,.alloc 8,.alloc 8,.free 1016,.free 1064,.free 1088] :=
    Transition.guarded_of_meets (by decide +kernel)
  cases hrun : threeFreed with
  | error e =>
    rw [hrun] at hok
    cases hok
  | ok r =>
    obtain ⟨outs,h⟩ := r
    have hreach : ReachableAny (fun _ => ⟨0,none⟩) 1000 96 false h :=
      Transition.Reachable.run (fun _ op out _ hop hstep => ⟨op,out,hop.allowed.any,hstep⟩)
        (.start rfl) hguard hrun
    refine ⟨outs,h,rfl,fun n hn => ?_⟩
    apply reachable_refuses (by decide) (by decide) hreach
    revert n
    decide

/-- Three adjacent free blocks of 96 bytes in all, and 64 bytes are refused. -/
theorem refuses_joined_run : ∃ outs h, threeFreed = .ok (outs,h) ∧
    Path h.allocator.next h.allocator.mFreeList [1000,1048,1072] none ∧
    h.MaximalRun [1000,1048,1072] [1000,1048,1072] ∧
    alignSize 64+nodeSize ≤ h.total [1000,1048,1072] ∧
    ∃ h', h.step (.alloc 64) = .ok (.pointer none,h') := by
  have hfacts : (threeFreed.map fun r => (r.2.allocator.mFreeList,
      [1000,1048,1072].map r.2.allocator.next,
      [1000,1048,1072].map (fun a => (r.2.allocator.mem a).size),
      (r.2.step (.alloc 64)).map Prod.fst)) =
      .ok (some 1000,[some 1048,some 1072,none],[48,24,24],.ok (.pointer none)) := by
    decide +kernel
  -- the states of the run are computed once, and what the statement needs of them is read off
  cases hrun : threeFreed with
  | error e =>
    rw [hrun] at hfacts
    cases hfacts
  | ok r =>
    obtain ⟨outs,h⟩ := r
    rw [hrun] at hfacts
    simp only [Except.map, Except.ok.injEq, Prod.mk.injEq, List.map_cons, List.map_nil,
      List.cons.injEq, and_true] at hfacts
    obtain ⟨hlist,⟨hn₁,hn₂,hn₃⟩,⟨hs₁,hs₂,hs₃⟩,halloc⟩ := hfacts
    refine ⟨outs,h,rfl,?_,⟨⟨?_,?_,?_⟩,?_,?_⟩,?_,?_⟩
    · simp [hlist, hn₁, hn₂, hn₃]
    · simp
    · simp
    · simp [hs₁, hs₂]
    · simp [hs₁, hs₂, hs₃]
    · simp [hs₃]
    · rw [total]
      simp only [List.map_cons, List.map_nil, hs₁, hs₂, hs₃]
      decide
    · cases hstep : h.step (.alloc 64) with
      | error e =>
        rw [hstep] at halloc
        cases halloc
      | ok r =>
        rw [hstep] at halloc
        obtain ⟨out,h'⟩ := r
        obtain rfl : out = .pointer none := Except.ok.inj halloc
        exact ⟨h',rfl⟩

end Runs

end Heap

end JhCommon
