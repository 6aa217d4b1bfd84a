import JhCommon.AllocatorRetry

/-! The count that the allocator keeps of its free nodes, against the length of its free list. A node that
is put in front of all others is not counted. -/
namespace JhCommon
open LinkedPath Word32 Tiling

namespace Allocator

/-- The count is the length of the free list. -/
def CountsNodes (s : Allocator) : Prop :=
  ∃ l, Path s.next s.mFreeList l none ∧ s.mNumFreeNodes = l.length

/-- The count is by k less than the number of free tiles. -/
structure Misses (s : Allocator) (ts : List Tile) (k : ℕ) : Prop where
  lays : s.Lays ts
  positive : 0 < s.mSize
  count : s.mNumFreeNodes+k = (frees ts).length

section Counting
variable {s s' : Allocator} {ls rs ts ts' : List Tile} {t u : Tile} {fuel k size c : ℕ}
  {n p : Option ℕ}

theorem Misses.length_lt (h : s.Misses ts k) : (frees ts).length < 2^32 :=
  (h.lays.length_lt h.positive).trans h.lays.small

theorem Misses.countsNodes_iff (h : s.Misses ts k) : s.CountsNodes ↔ k = 0 := by
  have hcount := h.count
  constructor
  · rintro ⟨l,hl,heq⟩
    rw [hl.unique h.lays.linked] at heq
    omega
  · rintro rfl
    exact ⟨frees ts,h.lays.linked,hcount⟩

@[simp] theorem setSize_mNumFreeNodes (s : Allocator) (n size : ℕ) :
    (s.setSize n size).mNumFreeNodes = s.mNumFreeNodes := rfl

@[simp] theorem setNext_mNumFreeNodes (s : Allocator) (n : ℕ) (p : Option ℕ) :
    (s.setNext n p).mNumFreeNodes = s.mNumFreeNodes := rfl

/-- A counter that has counted a node gets down by one. -/
theorem sub32_one {m : ℕ} (hpos : 1 ≤ m) (hlt : m < 2^32) : sub32 m 1 = m-1 := sub32_of_le hlt hpos

/-- What `join_free_nodes` returns has been taken off the count, as long as that lasts. -/
theorem joinFrom_count {joinCount r : ℕ} (hjoin : joinFrom fuel s n joinCount = .ok (r,s'))
    (hlt : s.mNumFreeNodes < 2^32) :
    joinCount ≤ r ∧ (r ≤ joinCount+s.mNumFreeNodes → s'.mNumFreeNodes+r = s.mNumFreeNodes+joinCount) := by
  -- on the fuel; the count is taken down by one for each node that is joined
  induction fuel generalizing s n joinCount with
  | zero =>
    cases n with
    | none =>
      obtain ⟨rfl,rfl⟩ := Prod.mk.inj (Except.ok.inj hjoin)
      exact ⟨le_refl _,fun _ => rfl⟩
    | some n => cases hjoin
  | succ fuel ih =>
    cases n with
    | none =>
      obtain ⟨rfl,rfl⟩ := Prod.mk.inj (Except.ok.inj hjoin)
      exact ⟨le_refl _,fun _ => rfl⟩
    | some n =>
      rw [joinFrom] at hjoin
      cases hnext : (s.mem n).next with
      | none =>
        rw [hnext] at hjoin
        obtain ⟨rfl,rfl⟩ := Prod.mk.inj (Except.ok.inj hjoin)
        exact ⟨le_refl _,fun _ => rfl⟩
      | some next =>
        simp only [hnext] at hjoin
        split_ifs at hjoin with hadj
        · obtain ⟨hle,hcount⟩ := ih hjoin (sub32_lt _ _)
          refine ⟨by omega,?_⟩
          intro hr
          simp only [setNext_mNumFreeNodes, setSize_mNumFreeNodes,
            sub32_one (show 1 ≤ s.mNumFreeNodes by omega) hlt] at hcount
          have := hcount (by omega)
          omega
        · exact ih hjoin hlt

/-- Joining free nodes keeps the count right. -/
theorem Misses.joinFreeNodes (h : s.Misses ts 0) (hfuel : (frees ts).length ≤ fuel) :
    ∃ c s', joinFreeNodes fuel s = .ok (c,s') ∧ s'.Misses (joinAll (2^31) ts) 0 ∧
      (frees (joinAll (2^31) ts)).length+c = (frees ts).length ∧ s.SameBuffer s' := by
  obtain ⟨s',c,hjoin,hs',hsame,-,hlen⟩ := joinFreeNodes_spec h.lays hfuel
  have hlt := h.length_lt
  have hold := h.count
  obtain ⟨-,hcount⟩ := joinFrom_count hjoin (by omega)
  refine ⟨c,s',hjoin,⟨hs',hsame.2.1 ▸ h.positive,?_⟩,hlen,hsame⟩
  have := hcount (by omega)
  omega

theorem takeNode_count (s : Allocator) (prev : Option ℕ) (n size : ℕ) :
    (s.takeNode prev n size).2.mNumFreeNodes = if sub32 (s.mem n).size size ≥ nodeSize+smallestBlock
      then s.mNumFreeNodes else sub32 s.mNumFreeNodes 1 := by
  unfold takeNode
  split_ifs with hsplit
  · rfl
  · cases prev <;> rfl

/-- A node that is split stays in the list, and one that is taken leaves it and the count. -/
theorem Misses.takeNode (h : s.Misses (ls ++ t :: rs) 0) (ht : t.free) (hsize : 16 ≤ size)
    (hle : size ≤ t.size) : ∃ out s', s.takeNode (frees ls).getLast? t.addr size = (out,s') ∧
      s'.Misses (carve 32 ls t rs size) 0 := by
  obtain ⟨s',htake,hs',hsame⟩ := takeNode_spec h.lays ht hsize hle
  have hs : (s.takeNode (frees ls).getLast? t.addr size).2 = s' := by rw [htake]
  have hcount := takeNode_count s (frees ls).getLast? t.addr size
  have hlt := h.length_lt
  have hold := h.count
  have htlt := h.lays.size_lt (t := t) (by simp)
  rw [frees_append, frees_cons, if_pos ht, List.length_append, List.length_cons] at hold hlt
  rw [h.lays.header t (by simp), sub32_of_le (by omega) hle, nodeSize_eq, smallestBlock_eq, hs] at hcount
  refine ⟨_,s',htake,hs',hsame.2.1 ▸ h.positive,?_⟩
  rw [hcount]
  unfold carve carved
  by_cases hsplit : 32 ≤ t.size-size
  · simp [hsplit, hold]
  · have hless := sub32_one (show 1 ≤ s.mNumFreeNodes by omega) (by omega)
    simp [hsplit, hless]
    omega

/-- A search in vain joins nodes for as long as there are any to be joined. -/
theorem Misses.retry (h : s.Misses ts 0) (hfuel : (frees ts).length < fuel) (size : ℕ) (p : Option ℕ) :
    ∃ s' ts', Allocator.retry fuel s size p none = .ok (none,s') ∧ s'.Misses ts' 0 := by
  -- each round joins a node at least, or it is the last one
  induction fuel generalizing s ts with
  | zero => omega
  | succ fuel ih =>
    have hfind : findFit (fuel+1) s size p none = .ok (p,none) := rfl
    simp only [Allocator.retry, hfind, ok_bind, joinedSome]
    by_cases hmode : s.mDoCoalesceOnFree = true
    · -- in the coalescing mode there is nothing to be joined
      refine ⟨s,ts,?_,h⟩
      simp only [if_pos hmode, ok_bind, Bool.false_eq_true, if_false]
    · obtain ⟨c,s₁,hjoin,h₁,hlen,-⟩ := h.joinFreeNodes (show (frees ts).length ≤ fuel+1 by omega)
      simp only [if_neg hmode, hjoin, ok_bind, decide_eq_true_eq]
      by_cases hc : c > 0
      · obtain ⟨s₂,ts₂,hretry,h₂⟩ := ih h₁ (by omega)
        rw [if_pos hc]
        exact ⟨s₂,ts₂,hretry,h₂⟩
      · rw [if_neg hc]
        exact ⟨s₁,_,rfl,h₁⟩

theorem Misses.alloc (h : s.Misses ts 0) (hfuel : (frees ts).length < fuel)
    (hsize : 16 ≤ blockSize size) : ∃ out s' ts', s.alloc fuel size = .ok (out,s') ∧ s'.Misses ts' 0 := by
  unfold Allocator.alloc
  obtain ⟨fuel,rfl⟩ : ∃ f, fuel = f+1 := ⟨fuel-1,by omega⟩
  rcases findFit_eq h.lays (show (frees ts).length ≤ fuel+1 by omega) (blockSize size) none with
    ⟨ls,t,rs,rfl,hfree,hle,-,hfind⟩ | ⟨-,prev,hfind⟩
  · obtain ⟨out,s',htake,h'⟩ := h.takeNode hfree hsize hle
    rw [Option.or_none] at hfind
    refine ⟨out,s',_,?_,h'⟩
    simp only [Allocator.retry, hfind, ok_bind, htake]
  · obtain ⟨s',ts',hretry,h'⟩ := h.retry hfuel (blockSize size) prev
    refine ⟨none,s',ts',?_,h'⟩
    rw [← hretry]
    have hfind' : findFit (fuel+1) s (blockSize size) prev none = .ok (prev,none) := rfl
    simp only [Allocator.retry, hfind, hfind']

theorem Misses.getFreeSpace (h : s.Misses ts 0) (hfuel : (frees ts).length ≤ fuel) {r : ℕ}
    (hspace : s.getFreeSpace fuel = .ok (r,s')) : ∃ ts', s'.Misses ts' 0 := by
  unfold Allocator.getFreeSpace at hspace
  by_cases hmode : s.mDoCoalesceOnFree = true
  · simp only [if_pos hmode, ok_bind] at hspace
    obtain ⟨size,-,heq⟩ := bind_eq_ok.mp hspace
    obtain ⟨-,rfl⟩ := Prod.mk.inj (Except.ok.inj heq)
    exact ⟨ts,h⟩
  · obtain ⟨c,s₁,hjoin,h₁,-,-⟩ := h.joinFreeNodes hfuel
    simp only [if_neg hmode, hjoin, ok_bind] at hspace
    obtain ⟨size,-,heq⟩ := bind_eq_ok.mp hspace
    obtain ⟨-,rfl⟩ := Prod.mk.inj (Except.ok.inj heq)
    exact ⟨_,h₁⟩

/-- The join behind a node that has been put back takes a node off the list and the count. -/
theorem Misses.joinNext (h : s.Misses (ls ++ t :: rs) k) (ht : t.free) (hk : k ≤ 1) :
    ∃ ts', (s.joinNext t.addr).Misses ts' k := by
  cases hn : s.next t.addr with
  | none =>
    have hsame : s.joinNext t.addr = s := by simp only [Allocator.joinNext, mem_next, hn]
    exact ⟨_,hsame ▸ h⟩
  | some next =>
    by_cases hjoin : s.mDoCoalesceOnFree ∧ (next : ℤ)-t.addr = int32 (s.mem t.addr).size
    · cases rs with
      | nil =>
        have hlast := h.lays.next_eq ht
        rw [hn, frees_nil] at hlast
        cases hlast
      | cons u rs =>
        -- the next node is the tile right behind it, which leaves the list
        obtain ⟨-,hu,rfl⟩ := (h.lays.adjacent_iff ht hn).mp hjoin.2
        have hlt := h.length_lt
        have hcount := h.count
        rw [frees_append, frees_cons, if_pos ht, frees_cons, if_pos hu, List.length_append, List.length_cons,
          List.length_cons] at hcount hlt
        have hless := sub32_one (show 1 ≤ s.mNumFreeNodes by omega) (by omega)
        have hlays := h.lays.join ht hu (sub32 s.mNumFreeNodes 1)
        rw [h.lays.header t (by simp)] at hjoin
        have heq : s.joinNext t.addr = { ((s.setSize t.addr (t.size+u.size)).setNext t.addr
            (s.next u.addr)) with mNumFreeNodes := sub32 s.mNumFreeNodes 1 } := by
          simp only [Allocator.joinNext, mem_next, hn, h.lays.header t (by simp), if_pos hjoin, setSize_next,
            h.lays.header u (by simp), add32_of_lt h.lays.add_size_lt]
          rfl
        rw [heq]
        refine ⟨_,hlays,h.positive,?_⟩
        show sub32 s.mNumFreeNodes 1+k = _
        rw [hless, frees_append, frees_cons, if_pos rfl, List.length_append, List.length_cons]
        omega
    · have hsame : s.joinNext t.addr = s := by simp only [Allocator.joinNext, mem_next, hn, if_neg hjoin]
      exact ⟨_,hsame ▸ h⟩

/-- The count when a node is put back: it goes up, unless the node is joined with the one in front or is
the first one. -/
theorem insertNode_count (s : Allocator) (prev : Option ℕ) (curNode : ℕ) :
    (s.insertNode prev curNode).2.mNumFreeNodes = if prev.isNone ∨ s.mDoCoalesceOnFree ∧
        ∃ p ∈ prev, p+(s.mem p).size = curNode then s.mNumFreeNodes
      else add32 s.mNumFreeNodes 1 := by
  cases prev with
  | none => rfl
  | some p =>
    simp only [insertNode, Option.isNone_some, Bool.false_eq_true, false_or, Option.mem_some_iff,
      exists_eq_left']
    split_ifs <;> rfl

/-- A node that is joined with the free one in front of it is not counted. -/
theorem Misses.absorb (h : s.Misses (ls ++ u :: t :: rs) 0) (hu : u.free) (ht : t.free = false)
    (hmode : s.mDoCoalesceOnFree = true) : ∃ t', t'.free ∧
      (s.insertNode (some u.addr) t.addr).1 = t'.addr ∧
      (s.insertNode (some u.addr) t.addr).2.Misses (ls ++ t' :: rs) 0 := by
  obtain ⟨s₁,hinsert,h₁,hsame₁⟩ := absorb_spec h.lays hu ht hmode
  have hcount := insertNode_count s (some u.addr) t.addr
  have hold := h.count
  have hadj : u.addr+(s.mem u.addr).size = t.addr := by
    rw [h.lays.header u (by simp)]
    exact h.lays.tiles.addr_eq.symm
  rw [hinsert] at hcount ⊢
  refine ⟨⟨u.addr,u.size+t.size,true⟩,rfl,rfl,h₁,hsame₁.2.1 ▸ h.positive,?_⟩
  simp [hmode, hadj] at hcount
  simp [ht, hu] at hold ⊢
  omega

/-- A node that is linked behind another one is counted, and one in front of all others is not. -/
theorem Misses.link (h : s.Misses (ls ++ t :: rs) 0) (ht : t.free = false)
    (halone : s.mDoCoalesceOnFree = true → ∀ u ∈ ls.getLast?, u.free = false) : ∃ t', t'.free ∧
      (s.insertNode (frees ls).getLast? t.addr).1 = t'.addr ∧
      (s.insertNode (frees ls).getLast? t.addr).2.Misses (ls ++ t' :: rs) (if frees ls = [] then 1 else 0) := by
  obtain ⟨s₁,hinsert,h₁,hsame₁⟩ := link_spec h.lays ht halone
  have hcount := insertNode_count s (frees ls).getLast? t.addr
  have hold := h.count
  rw [hinsert] at hcount ⊢
  have hpos₁ : 0 < s₁.mSize := hsame₁.2.1 ▸ h.positive
  have hlt := (h₁.length_lt hpos₁).trans h₁.small
  refine ⟨⟨t.addr,t.size,true⟩,rfl,rfl,h₁,hpos₁,?_⟩
  rw [frees_append, frees_cons, ht, if_neg (by simp), List.length_append] at hold
  rw [frees_append, frees_cons, if_pos rfl, List.length_append, List.length_cons] at hlt
  rw [frees_append, frees_cons, if_pos rfl, List.length_append, List.length_cons]
  by_cases hnil : frees ls = []
  · simp [hnil] at hcount hold ⊢
    omega
  · -- the free tile in front of it does not reach up to it, or they would be joined
    have hapart : ¬((frees ls).getLast?.isNone = true ∨ s.mDoCoalesceOnFree = true ∧
        ∃ p ∈ (frees ls).getLast?, p+(s.mem p).size = t.addr) := by
      rintro (hnone | ⟨hmode,p,hp,hadj⟩)
      · exact hnil (by simpa using hnone)
      · obtain ⟨u,hu,hfree,rfl⟩ := mem_frees.mp (List.mem_of_getLast? hp)
        rw [h.lays.header u (by simp [hu])] at hadj
        have := halone hmode u (h.lays.getLast?_of_adjacent hu hadj)
        rw [hfree] at this
        cases this
    rw [if_neg hapart] at hcount
    rw [add32_of_lt (by omega)] at hcount
    rw [if_neg hnil]
    simp only at hcount ⊢
    omega

/-- A node that is put back is missed by the count if it comes in front of all others. -/
theorem Misses.insertNode (h : s.Misses (ls ++ t :: rs) 0) (ht : t.free = false) :
    ∃ ls' t', (s.insertNode (frees ls).getLast? t.addr).1 = t'.addr ∧ t'.free ∧
      (s.insertNode (frees ls).getLast? t.addr).2.Misses (ls' ++ t' :: rs) (if frees ls = [] then 1 else 0) := by
  by_cases hjoin : s.mDoCoalesceOnFree = true ∧ ∃ u ∈ ls.getLast?, u.free = true
  · obtain ⟨hmode,u,hu,hfree⟩ := hjoin
    obtain ⟨ls,rfl⟩ := List.getLast?_eq_some_iff.mp hu
    have h' : s.Misses (ls ++ u :: t :: rs) 0 := by simpa using h
    obtain ⟨t',ht',hcur,hmisses⟩ := h'.absorb hfree ht hmode
    have hlast : (frees (ls ++ [u])).getLast? = some u.addr := by simp [hfree]
    have hne : frees (ls ++ [u]) ≠ [] := by simp [hfree]
    rw [hlast, if_neg hne]
    exact ⟨ls,t',hcur,ht',hmisses⟩
  · have halone : s.mDoCoalesceOnFree = true → ∀ u ∈ ls.getLast?, u.free = false := by
      intro hmode u hu
      by_contra hfree
      exact hjoin ⟨hmode,u,hu,by simpa using hfree⟩
    obtain ⟨t',ht',hcur,hmisses⟩ := h.link ht halone
    exact ⟨ls,t',hcur,ht',hmisses⟩

theorem Misses.free (h : s.Misses (ls ++ t :: rs) 0) (ht : t.free = false)
    (hroom : t.addr+16 < s.mBuffer+s.mSize) (hfuel : (frees (ls ++ t :: rs)).length ≤ fuel) :
    ∃ s' ts', s.free fuel (some (t.addr+nodeSize)) = .ok s' ∧
      s'.Misses ts' (if frees ls = [] then 1 else 0) := by
  obtain ⟨ls',t',hcur,hfree,h₁⟩ := h.insertNode ht
  obtain ⟨ts',h₂⟩ := h₁.joinNext hfree (by split <;> omega)
  refine ⟨_,ts',free_eq h.lays ht hroom hfuel,?_⟩
  rw [hcur]
  exact h₂

/-- The free list is the same however the buffer is cut. -/
theorem Misses.retile (h : s.Misses ts k) (hlays : s.Lays ts') : s.Misses ts' k := by
  refine ⟨hlays,h.positive,?_⟩
  rw [hlays.linked.unique h.lays.linked]
  exact h.count

/-- The first free node is below a live tile when there is any free tile in front of it. -/
theorem Lays.below_iff (h : s.Lays (ls ++ t :: rs)) (ht : t.free = false) :
    (∃ n ∈ s.mFreeList, n < t.addr) ↔ frees ls ≠ [] := by
  have hhead := h.linked.start_eq
  rw [frees_append, frees_cons, ht, if_neg (by simp)] at hhead
  constructor
  · rintro ⟨n,hn,hlt⟩ hnil
    rw [hhead, hnil, List.nil_append] at hn
    obtain ⟨u,hu,-,rfl⟩ := mem_frees.mp (List.mem_of_head? hn)
    have := h.tiles.around.2 u hu
    omega
  · intro hne
    obtain ⟨n,l,hl⟩ := List.exists_cons_of_ne_nil hne
    obtain ⟨u,hu,-,rfl⟩ := mem_frees.mp (show n ∈ frees ls by simp [hl])
    have := h.tiles.around.1 u hu
    have := h.large u (by simp [hu])
    refine ⟨u.addr,?_,by omega⟩
    rw [hhead, hl]
    rfl

end Counting

end Allocator

namespace Heap
open Allocator

/-- The node that is taken back has a free node below it. A pointer behind the buffer is left alone. -/
def FreesBehind (h : Heap) : HeapOp → Prop
  | .free p => p ≥ h.allocator.mBuffer+h.allocator.mSize ∨ ∃ n ∈ h.allocator.mFreeList, n+nodeSize < p
  | _ => True

/-- A heap whose allocator has counted all of its free nodes. -/
def Counted (h : Heap) : Prop := ∃ ts, h.Backs ts ∧ h.allocator.Misses ts 0

section Counting
variable {h : Heap} {ts : List Tile} {op : HeapOp}

theorem Backs.free_misses (hb : h.Backs ts) (hm : h.allocator.Misses ts 0) {p : ℕ} (hp : p ∈ h.live) :
    ∃ out h' ts' k, h.step (.free p) = .ok (out,h') ∧ h'.allocator.Misses ts' k ∧
      (k = 0 ↔ h.FreesBehind (.free p)) := by
  obtain ⟨t,ht,rfl⟩ := hb.owned p hp
  obtain ⟨htmem,hfree⟩ := mem_lives.mp ht
  obtain ⟨ls,rs,rfl⟩ := List.append_of_mem htmem
  have hbounds := hb.lays.tiles.bounds htmem
  have hbelow := hb.lays.below_iff hfree
  simp only [Heap.step, FreesBehind]
  by_cases hend : t.addr+16 < h.allocator.mBuffer+h.allocator.mSize
  · obtain ⟨s',ts',hs',h'⟩ := hm.free hfree hend (le_of_lt (hb.lays.length_lt hm.positive))
    rw [hs']
    refine ⟨_,_,ts',_,rfl,h',?_⟩
    rw [or_iff_right (by rw [nodeSize_eq]; omega)]
    simp only [Nat.add_lt_add_iff_right, hbelow]
    split_ifs with hnil <;> simp [hnil]
  · -- the last header of the buffer has no room behind it, and its block is not taken back
    have hout : t.addr+nodeSize ≥ h.allocator.mBuffer+h.allocator.mSize := by
      rw [nodeSize_eq]
      omega
    have hignored : h.allocator.free h.allocator.mSize (some (t.addr+nodeSize)) = .ok h.allocator := by
      simp only [Allocator.free, if_pos (Or.inr hout)]
    rw [hignored]
    exact ⟨_,_,_,0,rfl,hm,iff_of_true rfl (.inl hout)⟩

theorem Backs.step_misses (hb : h.Backs ts) (hm : h.allocator.Misses ts 0) (hop : h.AllowedAny op) :
    ∃ out h' ts' k, h.step op = .ok (out,h') ∧ h'.Backs ts' ∧ h'.allocator.Misses ts' k ∧
      (k = 0 ↔ h.FreesBehind op) := by
  obtain ⟨out,h',ts',hstep,hb',-⟩ := hb.step hop
  have hlt := hb.lays.length_lt hm.positive
  have hmisses : ∃ out h' ts' k, h.step op = .ok (out,h') ∧ h'.allocator.Misses ts' k ∧
      (k = 0 ↔ h.FreesBehind op) := by
    cases op with
    | alloc size =>
      have hblock := blockSize_eq hop
      obtain ⟨p,s',ts',halloc,h'⟩ := hm.alloc hlt
        (show 16 ≤ blockSize size by rw [hblock, nodeSize_eq]; omega)
      simp only [Heap.step]
      rw [halloc]
      exact ⟨_,_,ts',0,rfl,h',iff_of_true rfl trivial⟩
    | free p => exact hb.free_misses hm hop
    | getFreeSpace =>
      obtain ⟨s',ts₀,hspace,-⟩ := getFreeSpace_spec hb.lays (le_of_lt hlt)
      obtain ⟨ts',h'⟩ := hm.getFreeSpace (le_of_lt hlt) hspace
      simp only [Heap.step]
      rw [hspace]
      exact ⟨_,_,ts',0,rfl,h',iff_of_true rfl trivial⟩
    | store mem =>
      obtain ⟨out,h',hstep,hb',-⟩ := hb.store hop
      obtain ⟨rfl,rfl⟩ := Prod.mk.inj (Except.ok.inj hstep)
      exact ⟨_,_,ts,0,hstep,⟨hb'.lays,hm.positive,hm.count⟩,iff_of_true rfl trivial⟩
  obtain ⟨out',h'',ts'',k,hstep',hm',hk⟩ := hmisses
  obtain ⟨rfl,rfl⟩ := Prod.mk.inj (Except.ok.inj (hstep.symm.trans hstep'))
  exact ⟨out,h',ts',k,hstep,hb',hm'.retile hb'.lays,hk⟩

/-- The count of free nodes is the length of the free list in every state of a run when no `free` of the
run puts its node in front of all free nodes, and only then. -/
theorem counts_iff {mem : ℕ → Node} {buffer size : ℕ} (doCoalesceOnFree : Bool) (h16 : 16 ≤ size)
    (h32 : size < 2^32) {ops : List HeapOp}
    (hops : Transition.Guarded step AllowedAny (init mem buffer size doCoalesceOnFree) ops) :
    Transition.Throughout step (fun h => h.allocator.CountsNodes)
        (init mem buffer size doCoalesceOnFree) ops ↔
      Transition.Guarded step FreesBehind (init mem buffer size doCoalesceOnFree) ops := by
  have hinit : (init mem buffer size doCoalesceOnFree).Counted := by
    have hb : Backs (init mem buffer size doCoalesceOnFree) _ := init_backs mem doCoalesceOnFree h16 h32
    refine ⟨_,hb,hb.lays,?_,rfl⟩
    show 0 < size
    omega
  refine Transition.throughout_iff_of_admitted AllowedAny FreesBehind ?_ ?_ ?_ hinit ops hops
  · rintro h ⟨ts,-,hm⟩
    exact hm.countsNodes_iff.mpr rfl
  · rintro h op ⟨ts,hb,hm⟩ hop hbehind
    obtain ⟨out,h',ts',k,hstep,hb',hm',hk⟩ := hb.step_misses hm hop
    obtain rfl := hk.mpr hbehind
    exact ⟨out,h',hstep,ts',hb',hm'⟩
  · -- a node that was put in front is missing from the count right behind that step
    rintro h op out h' ⟨ts,hb,hm⟩ hop hstep hcounts
    obtain ⟨out',h'',ts',k,hstep',-,hm',hk⟩ := hb.step_misses hm hop
    obtain ⟨rfl,rfl⟩ := Prod.mk.inj (Except.ok.inj (hstep.symm.trans hstep'))
    exact hk.mp (hm'.countsNodes_iff.mp hcounts)

/-- A buffer of 96 bytes in the coalescing mode. -/
def fresh96 : Heap := init (fun _ => ⟨0,none⟩) 1000 96 true

theorem fresh96_alloc_8 : (fresh96.step (.alloc 8)).map (fun r => (r.2.live,r.2.allocator.mFreeList)) =
    .ok ([1088],some 1000) := by decide +kernel

theorem fresh96_alloc_72 : (fresh96.step (.alloc 72)).map (fun r => r.2.live) = .ok [1016] := by
  decide +kernel

/-- A block from the end of the buffer is counted when it comes back. -/
theorem counts_block_at_end :
    Transition.Throughout step (fun h => h.allocator.CountsNodes) fresh96 [.alloc 8,.free 1088] := by
  have hfirst : ∀ o h, fresh96.step (.alloc 8) = .ok (o,h) → h.live = [1088] ∧
      h.allocator.mFreeList = some 1000 := by
    intro o h hstep
    have hfacts := fresh96_alloc_8
    rw [hstep] at hfacts
    exact Prod.mk.inj (Except.ok.inj hfacts)
  refine (counts_iff true (show 16 ≤ 96 by norm_num) (show 96 < 2^32 by norm_num) ?_).mpr ?_
  · refine ⟨show alignSize 8+nodeSize < 2^32 by decide,?_⟩
    intro o h hstep
    refine ⟨?_,fun _ _ _ => trivial⟩
    show 1088 ∈ h.live
    rw [(hfirst o h hstep).1]
    exact List.mem_singleton_self _
  · refine ⟨trivial,?_⟩
    intro o h hstep
    refine ⟨.inr ⟨1000,(hfirst o h hstep).2,?_⟩,fun _ _ _ => trivial⟩
    decide

/-- The buffer is taken as a whole and given back. Its node is free, and none is counted. -/
theorem whole_buffer_not_counted :
    Transition.Guarded step AllowedAny fresh96 [.alloc 72,.free 1016] ∧
      ¬Transition.Throughout step (fun h => h.allocator.CountsNodes) fresh96 [.alloc 72,.free 1016] := by
  have hfacts : (Transition.run step fresh96 [.alloc 72,.free 1016]).map (fun r =>
      (r.2.allocator.mFreeList,r.2.allocator.next 1000,r.2.allocator.mNumFreeNodes)) =
        .ok (some 1000,none,0) := by
    decide +kernel
  constructor
  · refine ⟨show alignSize 72+nodeSize < 2^32 by decide,?_⟩
    intro o h hstep
    have hlive := fresh96_alloc_72
    rw [hstep] at hlive
    refine ⟨?_,fun _ _ _ => trivial⟩
    show 1016 ∈ h.live
    rw [show h.live = [1016] from Except.ok.inj hlive]
    exact List.mem_singleton_self _
  · rintro ⟨-,o,h,hstep,-,o',h',hstep',l,hl,hcount⟩
    simp only [Transition.run, hstep, hstep', ok_bind, Except.map, Except.ok.injEq, Prod.mk.injEq] at hfacts
    obtain ⟨hlist,hnext,hnum⟩ := hfacts
    rw [hlist] at hl
    have hone : Path h'.allocator.next (some 1000) [1000] none := ⟨rfl,hnext⟩
    rw [hl.unique hone, hnum] at hcount
    cases hcount

end Counting

end Heap

end JhCommon
