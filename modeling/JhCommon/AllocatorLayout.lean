import JhCommon.Allocator
import JhCommon.Tiling
import Mathlib.Data.List.TakeWhile

/-! The free list of the allocator as the free tiles of its buffer, and what each call does to the
tiling. -/
namespace JhCommon
open LinkedPath Word32 Tiling

namespace Allocator

@[simp] theorem nodeSize_eq : nodeSize = 16 := rfl

@[simp] theorem smallestBlock_eq : smallestBlock = 16 := rfl

section Fields
variable (s : Allocator) (n a : ℕ) (size : ℕ) (p : Option ℕ)

@[simp] theorem setSize_next : (s.setSize n size).next = s.next := by
  funext a
  rcases eq_or_ne a n with rfl | h <;> simp [next, setSize, *]

@[simp] theorem setNext_next : (s.setNext n p).next = Function.update s.next n p := by
  funext a
  rcases eq_or_ne a n with rfl | h <;> simp [next, setNext, *]

theorem mem_setSize_size :
    ((s.setSize n size).mem a).size = if a = n then size else (s.mem a).size := by
  rcases eq_or_ne a n with rfl | h <;> simp [setSize, *]

@[simp] theorem mem_setNext_size : ((s.setNext n p).mem a).size = (s.mem a).size := by
  rcases eq_or_ne a n with rfl | h <;> simp [setNext, *]

theorem setNumFreeNodes_next (k : ℕ) : { s with mNumFreeNodes := k }.next = s.next := rfl

@[simp] theorem mem_next : (s.mem n).next = s.next n := rfl

end Fields

/-- The fields that no call changes. -/
def SameBuffer (s s' : Allocator) : Prop :=
  s'.mBuffer = s.mBuffer ∧ s'.mSize = s.mSize ∧ s'.mDoCoalesceOnFree = s.mDoCoalesceOnFree

theorem SameBuffer.trans {s s' s'' : Allocator} (h : s.SameBuffer s') (h' : s'.SameBuffer s'') :
    s.SameBuffer s'' :=
  ⟨h'.1.trans h.1,h'.2.1.trans h.2.1,h'.2.2.trans h.2.2⟩

/-- The tiling ts is what the headers and the free list say. -/
structure Lays (s : Allocator) (ts : List Tile) : Prop where
  tiles : Tiles s.mBuffer ts (s.mBuffer+s.mSize)
  small : s.mSize < 2^32
  large : ∀ t ∈ ts, 16 ≤ t.size
  header : ∀ t ∈ ts, (s.mem t.addr).size = t.size
  linked : Path s.next s.mFreeList (frees ts) none

section Layouts
variable {s : Allocator} {ls rs : List Tile} {t u : Tile}

theorem Lays.size_lt {ts : List Tile} (h : s.Lays ts) (ht : t ∈ ts) : t.size < 2^32 := by
  have := h.tiles.bounds ht
  have := h.small
  omega

theorem Lays.addr_notMem_left (h : s.Lays (ls ++ t :: rs)) : t.addr ∉ frees ls := by
  intro hmem
  obtain ⟨u,hu,-,heq⟩ := mem_frees.mp hmem
  have := h.tiles.around.1 u hu
  have := h.large u (by simp [hu])
  omega

theorem Lays.addr_notMem_right (h : s.Lays (ls ++ t :: rs)) : t.addr ∉ frees rs := by
  intro hmem
  obtain ⟨u,hu,-,heq⟩ := mem_frees.mp hmem
  have := h.tiles.around.2 u hu
  have := h.large t (by simp)
  omega

theorem Lays.addr_ne_left (h : s.Lays (ls ++ t :: rs)) (hu : u ∈ ls) : u.addr ≠ t.addr := by
  have := h.tiles.around.1 u hu
  have := h.large u (by simp [hu])
  omega

theorem Lays.addr_ne_right (h : s.Lays (ls ++ t :: rs)) (hu : u ∈ rs) : u.addr ≠ t.addr := by
  have := h.tiles.around.2 u hu
  have := h.large t (by simp)
  omega

/-- The node behind a free tile. -/
theorem Lays.next_eq (h : s.Lays (ls ++ t :: rs)) (ht : t.free) :
    s.next t.addr = (frees rs).head? := by
  have hlinked := h.linked
  rw [frees_append, frees_cons, if_pos ht] at hlinked
  obtain ⟨m,-,-,hrs⟩ := path_append.mp hlinked
  exact hrs.start_eq

/-- The header and the link of a tile that takes the place of t and of all that is dropped behind
it. -/
theorem Lays.setSize {s' : Allocator} (h : s.Lays (ls ++ t :: rs)) {us : List Tile}
    (hus : ∀ u ∈ us, u ∈ rs) {size : ℕ} (hlarge : 16 ≤ size) {free : Bool}
    (htiles : Tiles s.mBuffer (ls ++ ⟨t.addr,size,free⟩ :: us) (s.mBuffer+s.mSize))
    (hsame : s.SameBuffer s')
    (hsize : ∀ a, (s'.mem a).size = if a = t.addr then size else (s.mem a).size)
    (hlinked : Path s'.next s'.mFreeList (frees (ls ++ ⟨t.addr,size,free⟩ :: us)) none) :
    s'.Lays (ls ++ ⟨t.addr,size,free⟩ :: us) := by
  obtain ⟨hbuf,hsz,-⟩ := hsame
  refine ⟨by rwa [hbuf, hsz],by rw [hsz]; exact h.small,?_,?_,hlinked⟩
  · intro u hu
    rcases List.mem_append.mp hu with hu | hu
    · exact h.large u (by simp [hu])
    · rcases List.mem_cons.mp hu with rfl | hu
      · exact hlarge
      · exact h.large u (by simp [hus u hu])
  · intro u hu
    rw [hsize]
    rcases List.mem_append.mp hu with hu | hu
    · rw [if_neg (h.addr_ne_left hu), h.header u (by simp [hu])]
    · rcases List.mem_cons.mp hu with rfl | hu
      · rw [if_pos rfl]
      · rw [if_neg (h.addr_ne_right (hus u hu)), h.header u (by simp [hus u hu])]

/-- Joining a free tile with the free one behind it, whatever becomes of the node count. -/
theorem Lays.join (h : s.Lays (ls ++ t :: u :: rs)) (ht : t.free) (hu : u.free) (k : ℕ) :
    Lays { ((s.setSize t.addr (t.size+u.size)).setNext t.addr (s.next u.addr)) with
      mNumFreeNodes := k } (ls ++ ⟨t.addr,t.size+u.size,true⟩ :: rs) := by
  have hlinked := h.linked
  have hl := h.addr_notMem_left
  have hr := h.addr_notMem_right
  rw [frees_append, frees_cons, if_pos ht, frees_cons, if_pos hu] at hlinked
  rw [frees_cons, if_pos hu, List.mem_cons, not_or] at hr
  have hlarge := h.large t (by simp)
  refine h.setSize (fun v hv => by simp [hv]) (by omega) (h.tiles.join true) ⟨rfl,rfl,rfl⟩ ?_ ?_
  · intro a
    exact (mem_setNext_size _ _ _ _).trans (mem_setSize_size _ _ _ _)
  · have hpath := hlinked.unlink hl hr.2
    rw [frees_append, frees_cons, if_pos rfl]
    change Path ((s.setSize t.addr (t.size+u.size)).setNext t.addr (s.next u.addr)).next _ _ _
    rwa [setNext_next, setSize_next]

/-- Two tiles in a row take no more than the buffer. -/
theorem Lays.add_size_lt (h : s.Lays (ls ++ t :: u :: rs)) : t.size+u.size < 2^32 := by
  have hbounds := (h.tiles.join true).bounds (List.mem_append_right ls List.mem_cons_self)
  have hsmall := h.small
  simp only at hbounds
  omega

/-- Whether the node behind a free tile is its neighbour: exactly when that neighbour is free. A
size that is negative as an int has no neighbour. -/
theorem Lays.adjacent_iff (h : s.Lays (ls ++ t :: u :: rs)) (ht : t.free) {next : ℕ}
    (hnext : s.next t.addr = some next) :
    (next : ℤ)-t.addr = int32 (s.mem t.addr).size ↔ t.size < 2^31 ∧ u.free ∧ next = u.addr := by
  have hu := h.tiles.addr_eq
  have hpos := h.tiles.around.2 u (by simp)
  have htlt := h.size_lt (t := t) (by simp)
  rw [h.header t (by simp)]
  by_cases hneg : t.size < 2^31
  swap
  · have hbehind : t.addr+t.size ≤ next := by
      rw [h.next_eq ht] at hnext
      obtain ⟨v,hv,-,rfl⟩ := mem_frees.mp (List.mem_of_head? hnext)
      exact h.tiles.around.2 v hv
    have hint : int32 t.size < 0 := int32_neg htlt (by omega)
    simp only [hneg, false_and, iff_false]
    omega
  rw [int32_of_lt hneg]
  simp only [hneg, true_and]
  rw [h.next_eq ht, frees_cons] at hnext
  -- the next free tile is u, or it is behind u
  cases hfree : u.free with
  | true =>
    rw [hfree, if_pos rfl, List.head?_cons, Option.some_inj] at hnext
    simp only [true_and]
    omega
  | false =>
    rw [hfree, if_neg (by simp)] at hnext
    obtain ⟨v,hv,-,rfl⟩ := mem_frees.mp (List.mem_of_head? hnext)
    have hbehind : u.addr+u.size ≤ v.addr := by
      have h' := h.tiles
      rw [← List.singleton_append, ← List.append_assoc] at h'
      exact h'.around.2 v hv
    have := h.large u (by simp)
    simp only [Bool.false_eq_true, false_and, iff_false]
    omega

/-- A pass that joins u to t stays at t. -/
theorem joinFrom_joins (h : s.Lays (ls ++ t :: u :: rs)) (ht : t.free) (hu : u.free)
    (hneg : t.size < 2^31) (fuel joinCount : ℕ) :
    joinFrom (fuel+1) s (some t.addr) joinCount =
      joinFrom fuel { ((s.setSize t.addr (t.size+u.size)).setNext t.addr (s.next u.addr)) with
        mNumFreeNodes := sub32 s.mNumFreeNodes 1 } (some t.addr) (joinCount+1) := by
  have hnext : s.next t.addr = some u.addr := by
    rw [h.next_eq ht, frees_cons, if_pos hu]
    rfl
  have hadj := (h.adjacent_iff ht hnext).mpr ⟨hneg,hu,rfl⟩
  have hsum : add32 (s.mem t.addr).size (s.mem u.addr).size = t.size+u.size := by
    rw [h.header t (by simp), h.header u (by simp), add32_of_lt h.add_size_lt]
  rw [joinFrom]
  simp only [mem_next, hnext, if_pos hadj, hsum, setSize_next]
  rfl

/-- A pass that joins nothing goes on to the next free tile, if there is one. -/
theorem joinFrom_passes (h : s.Lays (ls ++ t :: u :: rs)) (ht : t.free)
    (hapart : ¬(t.size < 2^31 ∧ u.free = true)) (fuel joinCount : ℕ) :
    joinFrom (fuel+1) s (some t.addr) joinCount =
      joinFrom fuel s (frees (u :: rs)).head? joinCount := by
  have hnext := h.next_eq ht
  rw [joinFrom]
  cases hhead : (frees (u :: rs)).head? with
  | none =>
    simp only [mem_next, hnext, hhead]
    cases fuel <;> rfl
  | some next =>
    have hadj := h.adjacent_iff ht (show s.next t.addr = some next by rw [hnext, hhead])
    have hno : ¬(next : ℤ)-t.addr = int32 (s.mem t.addr).size := fun hc =>
      hapart ⟨(hadj.mp hc).1,(hadj.mp hc).2.1⟩
    simp only [mem_next, hnext, hhead, if_neg hno]

/-- `join_free_nodes` from the first free tile at or behind t on joins every run of free tiles. The
induction is on the tiles behind t. -/
theorem joinFrom_spec (h : s.Lays (ls ++ t :: rs)) {fuel : ℕ}
    (hfuel : (frees (t :: rs)).length ≤ fuel) (joinCount : ℕ) :
    ∃ s' c, joinFrom fuel s (frees (t :: rs)).head? joinCount = .ok (joinCount+c,s') ∧
      s'.Lays (ls ++ joinRuns (2^31) t rs) ∧ s.SameBuffer s' ∧ s'.mFreeList = s.mFreeList ∧
      (frees (joinRuns (2^31) t rs)).length+c = (frees (t :: rs)).length := by
  induction rs generalizing ls t s fuel joinCount with
  | nil =>
    refine ⟨s,0,?_,h,⟨rfl,rfl,rfl⟩,rfl,rfl⟩
    cases ht : t.free with
    | false =>
      rw [frees_cons, ht]
      cases fuel <;> rfl
    | true =>
      -- the last free tile has no next one
      rw [frees_cons, ht] at hfuel ⊢
      obtain ⟨fuel,rfl⟩ : ∃ f, fuel = f+1 := ⟨fuel-1,by simp at hfuel; omega⟩
      have hnext := h.next_eq ht
      simp only [frees_nil, List.head?_nil] at hnext
      simp only [if_true, List.head?_cons, joinFrom, mem_next, hnext, add_zero]
  | cons u rs ih =>
    have h' : s.Lays ((ls ++ [t]) ++ u :: rs) := by simpa using h
    cases ht : t.free with
    | false =>
      -- the loop does not see t
      have hfrees : frees (t :: u :: rs) = frees (u :: rs) := by rw [frees_cons, ht]; rfl
      rw [hfrees] at hfuel ⊢
      obtain ⟨s',c,hjoin,hs',hsame,hlist,hlen⟩ := ih h' hfuel joinCount
      refine ⟨s',c,hjoin,?_,hsame,hlist,?_⟩
      · rw [joinRuns, if_neg (by simp [ht])]
        simpa using hs'
      · rw [joinRuns, if_neg (by simp [ht]), frees_cons, ht]
        exact hlen
    | true =>
      have hfrees : frees (t :: u :: rs) = t.addr :: frees (u :: rs) := by rw [frees_cons, ht]; rfl
      rw [hfrees] at hfuel ⊢
      obtain ⟨fuel,rfl⟩ : ∃ f, fuel = f+1 := ⟨fuel-1,by simp at hfuel; omega⟩
      rw [List.length_cons, Nat.add_le_add_iff_right] at hfuel
      rw [List.head?_cons]
      by_cases hboth : t.size < 2^31 ∧ u.free = true
      · obtain ⟨hneg,hu⟩ := hboth
        rw [joinFrom_joins h ht hu hneg]
        -- the joined tile is free again, so the induction goes on at its address
        have hjoined := h.join ht hu (sub32 s.mNumFreeNodes 1)
        have hhead : frees (⟨t.addr,t.size+u.size,true⟩ :: rs) = t.addr :: frees rs := rfl
        obtain ⟨s',c,hjoin,hs',hsame,hlist,hlen⟩ := ih hjoined
          (show (frees (⟨t.addr,t.size+u.size,true⟩ :: rs)).length ≤ fuel by
            rw [hhead]; simpa [frees_cons, hu] using hfuel) (joinCount+1)
        rw [hhead, List.head?_cons] at hjoin
        refine ⟨s',c+1,?_,?_,hsame,hlist,?_⟩
        · rw [show joinCount+(c+1) = joinCount+1+c by omega]
          exact hjoin
        · rwa [joinRuns, if_pos ⟨hneg,ht,hu⟩]
        · rw [hhead] at hlen
          rw [joinRuns, if_pos ⟨hneg,ht,hu⟩]
          simp only [frees_cons, hu, if_true, List.length_cons] at hlen ⊢
          omega
      · rw [joinFrom_passes h ht hboth]
        obtain ⟨s',c,hjoin,hs',hsame,hlist,hlen⟩ := ih h' hfuel joinCount
        have hapart : ¬(t.size < 2^31 ∧ t.free = true ∧ u.free = true) := fun hc =>
          hboth ⟨hc.1,hc.2.2⟩
        refine ⟨s',c,hjoin,?_,hsame,hlist,?_⟩
        · rw [joinRuns, if_neg hapart]
          simpa using hs'
        · rw [joinRuns, if_neg hapart, frees_cons, if_pos ht]
          simp only [List.length_cons]
          omega

theorem joinFreeNodes_spec {ts : List Tile} (h : s.Lays ts) {fuel : ℕ}
    (hfuel : (frees ts).length ≤ fuel) :
    ∃ s' c, joinFreeNodes fuel s = .ok (c,s') ∧ s'.Lays (joinAll (2^31) ts) ∧ s.SameBuffer s' ∧
      s'.mFreeList = s.mFreeList ∧ (frees (joinAll (2^31) ts)).length+c = (frees ts).length := by
  have hhead : s.mFreeList = (frees ts).head? := h.linked.start_eq
  cases ts with
  | nil =>
    refine ⟨s,0,?_,h,⟨rfl,rfl,rfl⟩,rfl,rfl⟩
    rw [joinFreeNodes, hhead]
    cases fuel <;> rfl
  | cons t ts =>
    obtain ⟨s',c,hjoin,hs',hsame,hlist,hlen⟩ := joinFrom_spec (show s.Lays ([] ++ t :: ts) from h) hfuel 0
    rw [zero_add] at hjoin
    exact ⟨s',c,by rw [joinFreeNodes, hhead, hjoin],hs',hsame,hlist,hlen⟩

/-- The end of a free tile becomes a tile that is not free. -/
theorem Lays.split (h : s.Lays (ls ++ t :: rs)) (ht : t.free) {rest size : ℕ} (hrest : 16 ≤ rest)
    (hsize : 16 ≤ size) (hsum : rest+size = t.size)
    (htiles : Tiles s.mBuffer (ls ++ ⟨t.addr,rest,true⟩ :: ⟨t.addr+rest,size,false⟩ :: rs)
      (s.mBuffer+s.mSize)) :
    (((s.setSize t.addr rest).setSize (t.addr+rest) size).setNext (t.addr+rest) none).Lays
      (ls ++ ⟨t.addr,rest,true⟩ :: ⟨t.addr+rest,size,false⟩ :: rs) := by
  refine ⟨htiles,h.small,?_,?_,?_⟩
  · intro u hu
    simp only [List.mem_append, List.mem_cons] at hu
    rcases hu with hu | rfl | rfl | hu
    · exact h.large u (by simp [hu])
    · exact hrest
    · exact hsize
    · exact h.large u (by simp [hu])
  · intro u hu
    rw [mem_setNext_size, mem_setSize_size, mem_setSize_size]
    simp only [List.mem_append, List.mem_cons] at hu
    rcases hu with hu | rfl | rfl | hu
    · have := h.tiles.around.1 u hu
      have := h.large u (by simp [hu])
      rw [if_neg (by omega), if_neg (by omega), h.header u (by simp [hu])]
    · rw [if_neg (by dsimp only; omega), if_pos rfl]
    · rw [if_pos rfl]
    · have := h.tiles.around.2 u hu
      rw [if_neg (by omega), if_neg (by omega), h.header u (by simp [hu])]
  · have hlinked := h.linked
    rw [setNext_next, setSize_next, setSize_next]
    simp only [frees_append, frees_cons, if_pos ht, if_true, Bool.false_eq_true, if_false] at hlinked ⊢
    refine hlinked.update_of_notMem ?_ none
    -- the new header is at the address of no free tile
    have hnl : t.addr+rest ∉ frees ls := by
      intro hmem
      obtain ⟨u,hu,-,heq⟩ := mem_frees.mp hmem
      have := h.tiles.around.1 u hu
      omega
    have hnr : t.addr+rest ∉ frees rs := by
      intro hmem
      obtain ⟨u,hu,-,heq⟩ := mem_frees.mp hmem
      have := h.tiles.around.2 u hu
      omega
    simp only [List.mem_append, List.mem_cons, not_or]
    exact ⟨hnl,by omega,hnr⟩

/-- The first free tile is taken out of the list. -/
theorem Lays.unlink_first (h : s.Lays (ls ++ t :: rs)) (ht : t.free) (hfirst : frees ls = []) :
    Path (Function.update s.next t.addr none) (s.next t.addr) (frees rs) none := by
  have hlinked := h.linked
  rw [frees_append, frees_cons, if_pos ht, hfirst, List.nil_append] at hlinked
  exact hlinked.2.update_of_notMem h.addr_notMem_right none

/-- A free tile behind prev is taken out of the list. -/
theorem Lays.unlink_behind (h : s.Lays (ls ++ t :: rs)) (ht : t.free) {l : List ℕ} {prev : ℕ}
    (hlast : frees ls = l ++ [prev]) :
    Path (Function.update (Function.update s.next prev (s.next t.addr)) t.addr none) s.mFreeList
      (l ++ prev :: frees rs) none := by
  have hlinked := h.linked
  have hnd := h.tiles.frees_nodup
  simp only [frees_append, frees_cons, if_pos ht, hlast, List.append_assoc,
    List.singleton_append] at hlinked hnd
  have hl : prev ∉ l ∧ prev ∉ frees rs ∧ t.addr ∉ l ++ prev :: frees rs := by
    simp only [List.nodup_append, List.nodup_cons, List.mem_cons, List.mem_append] at hnd ⊢
    grind
  exact (hlinked.unlink hl.1 hl.2.1).update_of_notMem hl.2.2 none

/-- Splitting a free tile, or taking all of it out of the free list. -/
theorem takeNode_spec (h : s.Lays (ls ++ t :: rs)) (ht : t.free) {size : ℕ} (hsize : 16 ≤ size)
    (hle : size ≤ t.size) :
    ∃ s', s.takeNode (frees ls).getLast? t.addr size =
        (some ((carved 32 t size).addr+nodeSize),s') ∧
      s'.Lays (carve 32 ls t rs size) ∧ s.SameBuffer s' := by
  have hlt := h.size_lt (t := t) (by simp)
  have hheader := h.header t (by simp)
  have htiles : Tiles s.mBuffer (carve 32 ls t rs size) (s.mBuffer+s.mSize) :=
    h.tiles.carve (by norm_num) (by omega) hle
  unfold takeNode
  rw [hheader, sub32_of_le (by omega) hle, nodeSize_eq, smallestBlock_eq]
  unfold carve carved at *
  -- what would be left must have room for a node
  by_cases hsplit : 32 ≤ t.size-size
  · simp only [if_pos hsplit, ge_iff_le, Nat.reduceAdd] at htiles ⊢
    have hrest : (((s.setSize t.addr (t.size-size)).mem t.addr).size) = t.size-size := by
      rw [mem_setSize_size, if_pos rfl]
    rw [hrest]
    exact ⟨_,rfl,h.split ht (by omega) hsize (by omega) htiles,⟨rfl,rfl,rfl⟩⟩
  · simp only [if_neg hsplit, ge_iff_le, Nat.reduceAdd] at htiles ⊢
    refine ⟨_,rfl,?_,?_⟩
    · refine h.setSize (fun u hu => hu) (h.large t (by simp)) htiles ?_ ?_ ?_
      · cases (frees ls).getLast? <;> exact ⟨rfl,rfl,rfl⟩
      · intro a
        have hkeep : (s.mem a).size = if a = t.addr then t.size else (s.mem a).size := by
          split
          · rename_i ha
            rw [ha, hheader]
          · rfl
        rw [← hkeep, mem_setNext_size]
        cases (frees ls).getLast? with
        | none => rfl
        | some prev => exact mem_setNext_size _ _ _ _
      · -- what was linked to t is linked to what follows t
        rw [frees_append, frees_cons, if_neg (by simp), setNext_next]
        rcases List.eq_nil_or_concat' (frees ls) with hnil | ⟨l,prev,hlast⟩
        · rw [hnil, List.nil_append]
          exact h.unlink_first ht hnil
        · rw [hlast, List.append_assoc, List.singleton_append, List.getLast?_concat]
          simp only [setNext_next, mem_next]
          rw [setNumFreeNodes_next s]
          exact h.unlink_behind ht hlast
    · cases (frees ls).getLast? <;> exact ⟨rfl,rfl,rfl⟩

theorem findFit_eq {ts : List Tile} (h : s.Lays ts) {fuel : ℕ} (hfuel : (frees ts).length ≤ fuel)
    (size : ℕ) (prev : Option ℕ) :
    (∃ ls t rs, ts = ls ++ t :: rs ∧ t.free ∧ size ≤ t.size ∧ (∀ u ∈ ls, u.free → u.size < size) ∧
      findFit fuel s size prev s.mFreeList = .ok ((frees ls).getLast?.or prev,some t.addr)) ∨
    (∀ t ∈ ts, t.free → t.size < size) ∧
      ∃ prev', findFit fuel s size prev s.mFreeList = .ok (prev',none) := by
  have hseek : findFit fuel s size prev s.mFreeList =
      .ok (((frees ts).takeWhile (fun n => decide ((s.mem n).size < size))).getLast?.or prev,
        ((frees ts).dropWhile (fun n => decide ((s.mem n).size < size))).head?) :=
    seek_eq h.linked hfuel prev
  have hsplit := List.takeWhile_append_dropWhile (p := fun n => decide ((s.mem n).size < size))
    (l := frees ts)
  have hsmall : ∀ t ∈ ts, t.free →
      t.addr ∈ (frees ts).takeWhile (fun n => decide ((s.mem n).size < size)) → t.size < size := by
    intro t ht _ hmem
    have := List.mem_takeWhile_imp hmem
    rwa [decide_eq_true_eq, h.header t ht] at this
  -- the search stops at the first free tile that is large enough, or at the end
  cases hdrop : (frees ts).dropWhile (fun n => decide ((s.mem n).size < size)) with
  | nil =>
    rw [hdrop] at hseek
    rw [hdrop, List.append_nil] at hsplit
    refine Or.inr ⟨fun t ht hfree => hsmall t ht hfree ?_,_,hseek⟩
    rw [hsplit]
    exact mem_frees.mpr ⟨t,ht,hfree,rfl⟩
  | cons a r =>
    rw [hdrop] at hsplit hseek
    obtain ⟨ls,t,rs,rfl,hfree,rfl,hls,-⟩ := exists_of_frees_eq hsplit.symm
    refine Or.inl ⟨ls,t,rs,rfl,hfree,?_,fun u hu hfree' => ?_,by rw [hls]; exact hseek⟩
    · have hstop := List.head?_dropWhile_not (fun n => decide ((s.mem n).size < size))
        (frees (ls ++ t :: rs))
      rw [hdrop] at hstop
      simp only [List.head?_cons, decide_eq_false_iff_not] at hstop
      rw [h.header t (by simp)] at hstop
      omega
    · refine hsmall u (by simp [hu]) hfree' ?_
      rw [← hls]
      exact mem_frees.mpr ⟨u,hu,hfree',rfl⟩

/-- Once the search has come to its end, `alloc` joins free nodes for as long as there are any, and
gives up. -/
theorem retry_none {ts : List Tile} (h : s.Lays ts) {fuel : ℕ} (hfuel : (frees ts).length < fuel)
    (size : ℕ) (prev : Option ℕ) :
    ∃ s' ts', retry fuel s size prev none = .ok (none,s') ∧ s'.Lays ts' ∧ lives ts' = lives ts ∧
      s.SameBuffer s' ∧ (s.mDoCoalesceOnFree → ts' = ts) := by
  induction fuel generalizing s ts with
  | zero => omega
  | succ fuel ih =>
    have hfind : findFit (fuel+1) s size prev none = .ok (prev,none) := rfl
    simp only [retry, hfind, ok_bind, joinedSome]
    by_cases hmode : s.mDoCoalesceOnFree = true
    · refine ⟨s,ts,?_,h,rfl,⟨rfl,rfl,rfl⟩,fun _ => rfl⟩
      simp only [if_pos hmode, ok_bind, Bool.false_eq_true, if_false]
    · obtain ⟨s₁,c,hjoin,h₁,hsame,-,hlen⟩ := joinFreeNodes_spec h
        (show (frees ts).length ≤ fuel+1 by omega)
      simp only [if_neg hmode, hjoin, ok_bind, decide_eq_true_eq]
      by_cases hc : c > 0
      · obtain ⟨s₂,ts₂,hretry,h₂,hlives,hsame₂,-⟩ := ih h₁ (by omega)
        rw [if_pos hc]
        exact ⟨s₂,ts₂,hretry,h₂,by rw [hlives, lives_joinAll],hsame.trans hsame₂,
          fun hm => absurd hm hmode⟩
      · rw [if_neg hc]
        exact ⟨s₁,_,rfl,h₁,lives_joinAll _ ts,hsame,fun hm => absurd hm hmode⟩

/-- `alloc` takes the first free tile that is large enough, or finds all of them too small. -/
theorem alloc_spec {ts : List Tile} (h : s.Lays ts) {fuel : ℕ} (hfuel : (frees ts).length < fuel)
    {size : ℕ} (hsize : 16 ≤ blockSize size) :
    (∃ ls t rs s', ts = ls ++ t :: rs ∧ t.free ∧ blockSize size ≤ t.size ∧
      (∀ u ∈ ls, u.free → u.size < blockSize size) ∧
      s.alloc fuel size = .ok (some ((carved 32 t (blockSize size)).addr+nodeSize),s') ∧
      s'.Lays (carve 32 ls t rs (blockSize size)) ∧ s.SameBuffer s') ∨
    (∀ t ∈ ts, t.free → t.size < blockSize size) ∧
      ∃ s' ts', s.alloc fuel size = .ok (none,s') ∧ s'.Lays ts' ∧ lives ts' = lives ts ∧
        s.SameBuffer s' ∧ (s.mDoCoalesceOnFree → ts' = ts) := by
  unfold alloc
  obtain ⟨fuel,rfl⟩ : ∃ f, fuel = f+1 := ⟨fuel-1,by omega⟩
  rcases findFit_eq h (show (frees ts).length ≤ fuel+1 by omega) (blockSize size) none with
    ⟨ls,t,rs,rfl,hfree,hle,hfirst,hfind⟩ | ⟨hsmall,prev,hfind⟩
  · obtain ⟨s',htake,hs',hsame⟩ := takeNode_spec h hfree hsize hle
    refine Or.inl ⟨ls,t,rs,s',rfl,hfree,hle,hfirst,?_,hs',hsame⟩
    rw [Option.or_none] at hfind
    simp only [retry, hfind, ok_bind, htake]
  · obtain ⟨s',ts',hretry,hs',hlives,hsame,hmode⟩ := retry_none h hfuel (blockSize size) prev
    refine Or.inr ⟨hsmall,s',ts',?_,hs',hlives,hsame,hmode⟩
    rw [← hretry]
    have hfind' : findFit (fuel+1) s (blockSize size) prev none = .ok (prev,none) := rfl
    simp only [retry, hfind, hfind']

theorem findSlot_eq (h : s.Lays (ls ++ t :: rs)) (ht : t.free = false) {fuel : ℕ}
    (hfuel : (frees (ls ++ t :: rs)).length ≤ fuel) :
    findSlot fuel s t.addr none s.mFreeList = .ok ((frees ls).getLast?,(frees rs).head?) := by
  have hfrees : frees (ls ++ t :: rs) = frees ls ++ frees rs := by simp [ht]
  have hlow : ∀ a ∈ frees ls, decide (a < t.addr) = true := by
    intro a ha
    obtain ⟨u,hu,-,rfl⟩ := mem_frees.mp ha
    have := h.tiles.around.1 u hu
    have := h.large u (by simp [hu])
    simp only [decide_eq_true_eq]
    omega
  have hhigh : ∀ a ∈ frees rs, ¬decide (a < t.addr) = true := by
    intro a ha
    obtain ⟨u,hu,-,rfl⟩ := mem_frees.mp ha
    have := h.tiles.around.2 u hu
    simp only [decide_eq_true_eq]
    omega
  -- the free tiles are in the order of their addresses, and t stands between ls and rs
  have hstop : (frees rs).takeWhile (fun a => decide (a < t.addr)) = [] ∧
      (frees rs).dropWhile (fun a => decide (a < t.addr)) = frees rs := by
    cases hrs : frees rs with
    | nil => exact ⟨rfl,rfl⟩
    | cons a l =>
      have := hhigh a (by simp [hrs])
      exact ⟨List.takeWhile_cons_of_neg this,List.dropWhile_cons_of_neg this⟩
  have hlinked := h.linked
  rw [hfrees] at hlinked hfuel
  rw [findSlot, seek_eq hlinked hfuel, List.takeWhile_append_of_pos hlow,
    List.dropWhile_append_of_pos hlow, hstop.1, hstop.2, List.append_nil, Option.or_none]

/-- A tile that ends where t begins is the one in front of it. -/
theorem Lays.getLast?_of_adjacent (h : s.Lays (ls ++ t :: rs)) (hu : u ∈ ls)
    (hadj : u.addr+u.size = t.addr) : ls.getLast? = some u := by
  obtain ⟨as,bs,rfl⟩ := List.append_of_mem hu
  rcases List.eq_nil_or_concat' bs with rfl | ⟨bs,v,rfl⟩
  · simp
  · have h' := h.tiles
    have hv : v.addr+v.size ≤ t.addr := h'.around.1 v (by simp)
    rw [List.append_assoc, List.cons_append] at h'
    have := h'.around.2 v (by simp)
    have := h.large v (by simp)
    omega

/-- Putting a tile back into the free list, not joined with anything. -/
theorem link_spec (h : s.Lays (ls ++ t :: rs)) (ht : t.free = false)
    (halone : s.mDoCoalesceOnFree → ∀ u ∈ ls.getLast?, u.free = false) :
    ∃ s', s.insertNode (frees ls).getLast? t.addr = (t.addr,s') ∧
      s'.Lays (ls ++ ⟨t.addr,t.size,true⟩ :: rs) ∧ s.SameBuffer s' := by
  have hlinked := h.linked
  have hl := h.addr_notMem_left
  have hr := h.addr_notMem_right
  have hheader := h.header t (by simp)
  have htiles := h.tiles.set_free true
  rw [frees_append, frees_cons, ht, if_neg (by simp)] at hlinked
  have hkeep : ∀ a, (s.mem a).size = if a = t.addr then t.size else (s.mem a).size := by
    intro a
    split
    · rename_i ha
      rw [ha, hheader]
    · rfl
  -- in front of all free tiles, or behind one that it is not joined with
  rcases List.eq_nil_or_concat' (frees ls) with hnil | ⟨l,prev,hlast⟩
  · rw [hnil, List.nil_append] at hlinked
    rw [hnil, List.getLast?_nil]
    refine ⟨_,rfl,?_,⟨rfl,rfl,rfl⟩⟩
    refine h.setSize (fun u hu => hu) (h.large t (by simp)) htiles ⟨rfl,rfl,rfl⟩ ?_ ?_
    · intro a
      rw [← hkeep]
      exact mem_setNext_size _ _ _ _
    · rw [frees_append, frees_cons, if_pos rfl, hnil, List.nil_append]
      change Path (s.setNext t.addr s.mFreeList).next _ _ _
      rw [setNext_next]
      exact hlinked.push hr
  · have hnd : (l ++ prev :: frees rs).Nodup := by
      have := h.tiles.frees_nodup
      simpa [frees_append, frees_cons, ht, hlast] using this
    have hprev : prev ∉ l ∧ prev ∉ frees rs := by
      simp only [List.nodup_append, List.nodup_cons, List.mem_cons] at hnd
      grind
    have hmem : prev ∈ frees ls := by simp [hlast]
    obtain ⟨u,hu,hfree,rfl⟩ := mem_frees.mp hmem
    have hapart : ¬(s.mDoCoalesceOnFree = true ∧ u.addr+(s.mem u.addr).size = t.addr) := by
      rintro ⟨hmode,hadj⟩
      rw [h.header u (by simp [hu])] at hadj
      have := halone hmode u (h.getLast?_of_adjacent hu hadj)
      rw [hfree] at this
      exact absurd this (by simp)
    rw [hlast, List.append_assoc, List.singleton_append] at hlinked
    rw [hlast, List.mem_append, List.mem_singleton, not_or] at hl
    rw [hlast, List.getLast?_concat]
    simp only [insertNode, if_neg hapart]
    refine ⟨_,rfl,?_,⟨rfl,rfl,rfl⟩⟩
    refine h.setSize (fun u hu => hu) (h.large t (by simp)) htiles ⟨rfl,rfl,rfl⟩ ?_ ?_
    · intro a
      rw [← hkeep, mem_setNext_size, mem_setNext_size]
    · rw [frees_append, frees_cons, if_pos rfl, hlast, List.append_assoc, List.singleton_append,
        setNext_next, setNext_next, setNumFreeNodes_next s, mem_next, setNumFreeNodes_next s]
      exact hlinked.link hprev.1 hprev.2 (Ne.symm hl.2) hl.1 hr

/-- Joining a tile with the free one in front of it. -/
theorem absorb_spec (h : s.Lays (ls ++ u :: t :: rs)) (hu : u.free) (ht : t.free = false)
    (hmode : s.mDoCoalesceOnFree) :
    ∃ s', s.insertNode (some u.addr) t.addr = (u.addr,s') ∧
      s'.Lays (ls ++ ⟨u.addr,u.size+t.size,true⟩ :: rs) ∧ s.SameBuffer s' := by
  have hadj := h.tiles.addr_eq
  have hlinked := h.linked
  rw [frees_append, frees_cons, if_pos hu, frees_cons, ht, if_neg (by simp)] at hlinked
  simp only [insertNode, h.header u (by simp), h.header t (by simp), ← hadj, and_true, if_pos hmode]
  rw [add32_of_lt h.add_size_lt]
  refine ⟨_,rfl,?_,⟨rfl,rfl,rfl⟩⟩
  refine h.setSize (fun v hv => by simp [hv]) (by have := h.large u (by simp); omega)
    (h.tiles.join true) ⟨rfl,rfl,rfl⟩ (fun a => mem_setSize_size _ _ _ _) ?_
  rw [frees_append, frees_cons, if_pos rfl, setSize_next]
  exact hlinked

/-- Joining a free tile with the one behind it, when that is free. A tile whose size is negative as
an int is not joined. -/
theorem joinNext_spec (h : s.Lays (ls ++ t :: rs)) (ht : t.free) :
    (s.joinNext t.addr).Lays (if s.mDoCoalesceOnFree ∧ t.size < 2^31 then ls ++ push t rs
      else ls ++ t :: rs) ∧ s.SameBuffer (s.joinNext t.addr) := by
  have hnext := h.next_eq ht
  cases rs with
  | nil =>
    have hjoin : s.joinNext t.addr = s := by simp only [joinNext, mem_next, hnext, frees_nil, List.head?_nil]
    rw [hjoin]
    refine ⟨?_,rfl,rfl,rfl⟩
    split <;> exact h
  | cons u rs =>
    -- the node that follows t in the free list need not be its neighbour
    cases hn : s.next t.addr with
    | none =>
      have hjoin : s.joinNext t.addr = s := by simp only [joinNext, mem_next, hn]
      have hu : u.free = false := by
        by_contra hu
        rw [hn, frees_cons, if_pos (by simpa using hu)] at hnext
        simp at hnext
      rw [hjoin]
      refine ⟨?_,rfl,rfl,rfl⟩
      simp only [push, hu, Bool.false_eq_true, if_false, ite_self]
      exact h
    | some next =>
      have hadj := h.adjacent_iff ht hn
      simp only [joinNext, mem_next, hn, hadj]
      by_cases hboth : s.mDoCoalesceOnFree = true ∧ t.size < 2^31 ∧ u.free = true ∧ next = u.addr
      · obtain ⟨hmode,hneg,hu,rfl⟩ := hboth
        rw [if_pos ⟨hmode,hneg,hu,rfl⟩, if_pos ⟨hmode,hneg⟩, push, if_pos hu, h.header t (by simp),
          h.header u (by simp), add32_of_lt h.add_size_lt, setSize_next]
        exact ⟨h.join ht hu _,rfl,rfl,rfl⟩
      · rw [if_neg hboth]
        refine ⟨?_,rfl,rfl,rfl⟩
        split
        · rename_i hmode
          have hu : u.free = false := by
            by_contra hu
            rw [hn, frees_cons, if_pos (by simpa using hu), List.head?_cons, Option.some_inj] at hnext
            exact hboth ⟨hmode.1,hmode.2,by simpa using hu,hnext⟩
          rw [push, if_neg (by simp [hu])]
          exact h
        · exact h

/-- Putting a tile back, joined with the free one in front of it in the coalescing mode. -/
theorem insertNode_spec (h : s.Lays (ls ++ t :: rs)) (ht : t.free = false) :
    ∃ ls' t' s', s.insertNode (frees ls).getLast? t.addr = (t'.addr,s') ∧
      s'.Lays (ls' ++ t' :: rs) ∧ s.SameBuffer s' ∧ t'.free ∧ lives ls' = lives ls ∧
      if s.mDoCoalesceOnFree then ls' ++ push t' rs = release ls t rs
      else ls' ++ t' :: rs = ls ++ ⟨t.addr,t.size,true⟩ :: rs := by
  -- the tile right in front can be free, and then it takes this one in
  by_cases hjoin : s.mDoCoalesceOnFree = true ∧ ∃ u ∈ ls.getLast?, u.free = true
  · obtain ⟨hmode,u,hu,hfree⟩ := hjoin
    obtain ⟨ls,rfl⟩ := List.getLast?_eq_some_iff.mp hu
    have h' : s.Lays (ls ++ u :: t :: rs) := by simpa using h
    obtain ⟨s₁,hinsert,h₁,hsame₁⟩ := absorb_spec h' hfree ht hmode
    have hlast : (frees (ls ++ [u])).getLast? = some u.addr := by simp [hfree]
    refine ⟨ls,_,s₁,?_,h₁,hsame₁,rfl,by simp [hfree],?_⟩
    · rw [hlast, hinsert]
    · rw [if_pos hmode, release_concat, if_pos hfree]
  · have halone : s.mDoCoalesceOnFree = true → ∀ u ∈ ls.getLast?, u.free = false := by
      intro hmode u hu
      by_contra hfree
      exact hjoin ⟨hmode,u,hu,by simpa using hfree⟩
    obtain ⟨s₁,hinsert,h₁,hsame₁⟩ := link_spec h ht halone
    refine ⟨ls,⟨t.addr,t.size,true⟩,s₁,hinsert,h₁,hsame₁,rfl,rfl,?_⟩
    split
    · rename_i hmode
      rcases List.eq_nil_or_concat' ls with rfl | ⟨ls,u,rfl⟩
      · rfl
      · have hu := halone hmode u (by simp)
        rw [release_concat, if_neg (by simp [hu])]
        simp
    · rfl

/-- A pointer into the buffer is taken back by inserting its node and joining what follows. -/
theorem free_eq (h : s.Lays (ls ++ t :: rs)) (ht : t.free = false)
    (hroom : t.addr+16 < s.mBuffer+s.mSize) {fuel : ℕ}
    (hfuel : (frees (ls ++ t :: rs)).length ≤ fuel) :
    s.free fuel (some (t.addr+nodeSize)) =
      .ok ((s.insertNode (frees ls).getLast? t.addr).2.joinNext
        (s.insertNode (frees ls).getLast? t.addr).1) := by
  have hin := h.tiles.bounds (t := t) (by simp)
  simp only [free, nodeSize_eq, Nat.add_sub_cancel]
  rw [if_neg (by omega), findSlot_eq h ht hfuel]
  rfl

/-- `free` gives the tile of a live block back, and joins it with its neighbours in the coalescing
mode. -/
theorem free_spec (h : s.Lays (ls ++ t :: rs)) (ht : t.free = false)
    (hroom : t.addr+16 < s.mBuffer+s.mSize) (hint : s.mDoCoalesceOnFree → s.mSize < 2^31)
    {fuel : ℕ} (hfuel : (frees (ls ++ t :: rs)).length ≤ fuel) :
    ∃ s', s.free fuel (some (t.addr+nodeSize)) = .ok s' ∧ s.SameBuffer s' ∧
      s'.Lays (if s.mDoCoalesceOnFree then release ls t rs else ls ++ ⟨t.addr,t.size,true⟩ :: rs) := by
  obtain ⟨ls',t',s₁,hinsert,h₁,hsame₁,hfree,-,hcase⟩ := insertNode_spec h ht
  obtain ⟨h₂,hsame₂⟩ := joinNext_spec h₁ hfree
  have heq := free_eq h ht hroom hfuel
  rw [hinsert] at heq
  refine ⟨_,heq,hsame₁.trans hsame₂,?_⟩
  rw [hsame₁.2.2] at h₂
  by_cases hmode : s.mDoCoalesceOnFree = true
  · have hsmall := hint hmode
    have hbounds := h₁.tiles.bounds (t := t') (by simp)
    rw [hsame₁.1, hsame₁.2.1] at hbounds
    rw [if_pos hmode] at hcase ⊢
    rw [if_pos ⟨hmode,by omega⟩, hcase] at h₂
    exact h₂
  · rw [if_neg hmode] at hcase ⊢
    rw [if_neg (fun hm => hmode hm.1), hcase] at h₂
    exact h₂

/-- Whatever the size of the buffer, the tile given back is all that changes hands. -/
theorem free_lives (h : s.Lays (ls ++ t :: rs)) (ht : t.free = false)
    (hroom : t.addr+16 < s.mBuffer+s.mSize) {fuel : ℕ}
    (hfuel : (frees (ls ++ t :: rs)).length ≤ fuel) :
    ∃ s' ts', s.free fuel (some (t.addr+nodeSize)) = .ok s' ∧ s.SameBuffer s' ∧ s'.Lays ts' ∧
      lives ts' = lives ls ++ lives rs := by
  obtain ⟨ls',t',s₁,hinsert,h₁,hsame₁,hfree,hlives,-⟩ := insertNode_spec h ht
  obtain ⟨h₂,hsame₂⟩ := joinNext_spec h₁ hfree
  have heq := free_eq h ht hroom hfuel
  rw [hinsert] at heq
  refine ⟨_,_,heq,hsame₁.trans hsame₂,h₂,?_⟩
  split
  · rw [lives_append, lives_push hfree, hlives]
  · simp [hfree, hlives]

theorem sumFrom_eq {n : Option ℕ} {l : List ℕ} (h : Path s.next n l none) {fuel : ℕ}
    (hfuel : l.length ≤ fuel) {size : ℕ}
    (hlt : size+(l.map (fun a => (s.mem a).size)).sum < 2^32) :
    sumFrom fuel s n size = .ok (size+(l.map (fun a => (s.mem a).size)).sum) := by
  induction l generalizing n fuel size with
  | nil =>
    obtain rfl : n = none := h
    cases fuel <;> rfl
  | cons a l ih =>
    obtain ⟨rfl,hl⟩ := h
    obtain ⟨fuel,rfl⟩ : ∃ f, fuel = f+1 := ⟨fuel-1,by simp only [List.length_cons] at hfuel; omega⟩
    rw [List.map_cons, List.sum_cons] at hlt ⊢
    rw [sumFrom, mem_next, add32_of_lt (by omega), ih hl (by simpa using hfuel) (by omega), add_assoc]

/-- `getFreeSpace` returns the number of bytes in free tiles. -/
theorem getFreeSpace_spec {ts : List Tile} (h : s.Lays ts) {fuel : ℕ}
    (hfuel : (frees ts).length ≤ fuel) :
    ∃ s' ts', s.getFreeSpace fuel = .ok (freeBytes ts',s') ∧ s'.Lays ts' ∧ lives ts' = lives ts ∧
      s.SameBuffer s' ∧ (s.mDoCoalesceOnFree → ts' = ts) := by
  have hsum : ∀ (s : Allocator) (ts : List Tile), s.Lays ts → (frees ts).length ≤ fuel →
      sumFrom fuel s s.mFreeList 0 = .ok (freeBytes ts) := by
    intro s ts h hfuel
    have hsizes : (frees ts).map (fun a => (s.mem a).size) = (ts.filter Tile.free).map Tile.size := by
      rw [frees, List.map_map]
      exact List.map_congr_left (fun t ht => h.header t (List.mem_filter.mp ht).1)
    have hle := h.tiles.freeBytes_le
    have hsmall := h.small
    rw [sumFrom_eq h.linked hfuel (by rw [hsizes]; unfold freeBytes at hle; omega), hsizes, zero_add,
      freeBytes]
  unfold getFreeSpace
  by_cases hmode : s.mDoCoalesceOnFree = true
  · refine ⟨s,ts,?_,h,rfl,⟨rfl,rfl,rfl⟩,fun _ => rfl⟩
    simp only [if_pos hmode, ok_bind, hsum s ts h hfuel]
  · obtain ⟨s',c,hjoin,hs',hsame,hlist,hlen⟩ := joinFreeNodes_spec h hfuel
    refine ⟨s',joinAll (2^31) ts,?_,hs',lives_joinAll _ ts,hsame,fun hm => absurd hm hmode⟩
    rw [← hlist]
    simp only [if_neg hmode, hjoin, ok_bind, hsum s' _ hs' (by omega)]

/-- There are fewer tiles than bytes. -/
theorem Lays.length_lt {ts : List Tile} (h : s.Lays ts) (hsize : 0 < s.mSize) :
    (frees ts).length < s.mSize := by
  have hsum := h.tiles.sum_size
  have hmany : ts.length*16 ≤ (ts.map Tile.size).sum := by
    have := List.card_nsmul_le_sum (ts.map Tile.size) 16 (by
      intro n hn
      obtain ⟨t,ht,rfl⟩ := List.mem_map.mp hn
      exact h.large t ht)
    simpa using this
  have hle : (frees ts).length ≤ ts.length := by
    rw [frees, List.length_map]
    exact List.length_filter_le _ _
  omega

end Layouts

end Allocator

end JhCommon
