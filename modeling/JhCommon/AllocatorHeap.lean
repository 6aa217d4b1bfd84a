import JhCommon.AllocatorLayout
import JhCommon.Transition

/-! The allocator and its client: the pointers handed out, the calls the client may make, and the
heap in every state the two can reach. -/
namespace JhCommon
open LinkedPath Word32 Tiling

/-- The allocator with the pointers that were returned and not freed. -/
structure Heap where
  allocator : Allocator
  live : List ℕ

/-- A client calls the allocator or stores into its own payloads, which leaves some other memory. -/
inductive HeapOp
  | alloc (size : ℕ)
  | free (p : ℕ)
  | getFreeSpace
  | store (mem : ℕ → Node)

inductive HeapResult
  | pointer (p : Option ℕ)
  | space (size : ℕ)
  | done
  deriving DecidableEq

namespace Heap
open Allocator

def init (mem : ℕ → Node) (buffer size : ℕ) (doCoalesceOnFree : Bool) : Heap :=
  { allocator := Allocator.init mem buffer size doCoalesceOnFree, live := [] }

/-- The size in the header in front of a pointer. -/
def size (h : Heap) (p : ℕ) : ℕ := (h.allocator.mem (p-nodeSize)).size

/-- Requests whose rounding does not overflow, pointers that are allocated, and stores that leave
every header outside of the payloads alone. -/
def Allowed (h : Heap) : HeapOp → Prop
  | .alloc size => 1 ≤ size ∧ alignSize size+nodeSize < 2^32
  | .free p => p ∈ h.live
  | .getFreeSpace => True
  | .store mem => ∀ a, (∀ p ∈ h.live, a+nodeSize ≤ p ∨ p-nodeSize+h.size p ≤ a) →
      mem a = h.allocator.mem a

/-- A list in the buffer has fewer nodes than the buffer has bytes, which is fuel enough. -/
def step (h : Heap) : HeapOp → Exec (HeapResult × Heap)
  | .alloc size => do
    let (p,s) ← h.allocator.alloc h.allocator.mSize size
    .ok (.pointer p,{ allocator := s, live := p.toList ++ h.live })
  | .free p => do
    let s ← h.allocator.free h.allocator.mSize (some p)
    .ok (.done,{ allocator := s, live := h.live.erase p })
  | .getFreeSpace => do
    let (n,s) ← h.allocator.getFreeSpace h.allocator.mSize
    .ok (.space n,{ h with allocator := s })
  | .store mem => .ok (.done,{ h with allocator := { h.allocator with mem := mem } })

def Reachable (mem : ℕ → Node) (buffer size : ℕ) (doCoalesceOnFree : Bool) : Heap → Prop :=
  Transition.Reachable (· = init mem buffer size doCoalesceOnFree)
    (fun h h' => ∃ op out, h.Allowed op ∧ h.step op = .ok (out,h'))

/-- A call of the allocator itself. Whether the client may make it can be checked. -/
def Called (h : Heap) : HeapOp → Prop
  | .store _ => False
  | op => h.Allowed op

instance (h : Heap) (op : HeapOp) : Decidable (h.Called op) :=
  match op with
  | .alloc _ => inferInstanceAs (Decidable (_ ∧ _))
  | .free p => inferInstanceAs (Decidable (p ∈ h.live))
  | .getFreeSpace => isTrue trivial
  | .store _ => isFalse id

theorem Called.allowed {h : Heap} {op : HeapOp} (hop : h.Called op) : h.Allowed op := by
  cases op with
  | store mem => exact hop.elim
  | _ => exact hop

/-- The live tiles of the buffer are the client's. -/
structure Owns (h : Heap) (ts : List Tile) : Prop where
  lays : h.allocator.Lays ts
  positive : 16 ≤ h.allocator.mSize
  owned : h.live.Perm ((lives ts).map (fun t => t.addr+nodeSize))

section Owning
variable {h h' : Heap} {ts ts' : List Tile}

theorem init_owns (mem : ℕ → Node) {buffer size : ℕ} (doCoalesceOnFree : Bool) (h16 : 16 ≤ size)
    (h32 : size < 2^32) :
    (init mem buffer size doCoalesceOnFree).Owns [⟨buffer,size,true⟩] := by
  refine ⟨⟨⟨rfl,by dsimp only; omega,rfl⟩,h32,?_,?_,?_⟩,h16,by simp [init]⟩
  · simp [h16]
  · simp [init, Allocator.init]
  · simp [init, Allocator.init, Allocator.next]

theorem Owns.mem_live (ho : h.Owns ts) {p : ℕ} :
    p ∈ h.live ↔ ∃ t ∈ lives ts, t.addr+nodeSize = p := by
  rw [ho.owned.mem_iff, List.mem_map]

theorem Owns.size_eq (ho : h.Owns ts) {t : Tile} (ht : t ∈ lives ts) :
    h.size (t.addr+nodeSize) = t.size := by
  rw [size, nodeSize_eq, Nat.add_sub_cancel]
  exact ho.lays.header t (mem_lives.mp ht).1

theorem Owns.nodup (ho : h.Owns ts) : h.live.Nodup := by
  rw [ho.owned.nodup_iff, show (lives ts).map (fun t => t.addr+nodeSize) =
    ((lives ts).map Tile.addr).map (· + nodeSize) by rw [List.map_map]; rfl]
  refine List.Nodup.map (add_left_injective nodeSize) ?_
  exact (ho.lays.tiles.addr_lt.imp (fun hab => Nat.ne_of_lt hab)).sublist (List.filter_sublist.map _)

/-- Pointers that are live before and after keep their size when their tiles stay. -/
theorem Owns.size_congr (ho : h.Owns ts) (ho' : h'.Owns ts') {p : ℕ}
    (hp : ∃ t ∈ lives ts, t ∈ lives ts' ∧ t.addr+nodeSize = p) : h'.size p = h.size p := by
  obtain ⟨t,ht,ht',rfl⟩ := hp
  rw [ho.size_eq ht, ho'.size_eq ht']

/-- A store of the client does not reach a header. -/
theorem Owns.header_outside (ho : h.Owns ts) {t : Tile} (ht : t ∈ ts) {p : ℕ} (hp : p ∈ h.live) :
    t.addr+nodeSize ≤ p ∨ p-nodeSize+h.size p ≤ t.addr := by
  obtain ⟨u,hu,rfl⟩ := ho.mem_live.mp hp
  rw [ho.size_eq hu, nodeSize_eq, Nat.add_sub_cancel]
  have hlarge := ho.lays.large t ht
  rcases ho.lays.tiles.apart (mem_lives.mp hu).1 ht with rfl | hbefore | hbehind <;> omega

/-- `alloc` takes the first free tile that is large enough and gives it to the client, or finds all
of them too small. -/
theorem Owns.alloc (ho : h.Owns ts) {size : ℕ} (hblock : 16 ≤ blockSize size) :
    (∃ ls t rs s', ts = ls ++ t :: rs ∧ t.free ∧ blockSize size ≤ t.size ∧
      (∀ u ∈ ls, u.free → u.size < blockSize size) ∧
      h.step (.alloc size) = .ok (.pointer (some ((carved 32 t (blockSize size)).addr+nodeSize)),
        ⟨s',((carved 32 t (blockSize size)).addr+nodeSize) :: h.live⟩) ∧
      Owns ⟨s',((carved 32 t (blockSize size)).addr+nodeSize) :: h.live⟩
        (carve 32 ls t rs (blockSize size)) ∧ h.allocator.SameBuffer s') ∨
    (∀ t ∈ ts, t.free → t.size < blockSize size) ∧
      ∃ s' ts', h.step (.alloc size) = .ok (.pointer none,⟨s',h.live⟩) ∧ Owns ⟨s',h.live⟩ ts' ∧
        lives ts' = lives ts ∧ h.allocator.SameBuffer s' ∧
        (h.allocator.mDoCoalesceOnFree → ts' = ts) := by
  have h16 := ho.positive
  simp only [step]
  rcases alloc_spec ho.lays (ho.lays.length_lt (by omega)) hblock with
    ⟨ls,t,rs,s',rfl,hfree,hfit,hfirst,halloc,hlays,hsame⟩ |
      ⟨hsmall,s',ts',halloc,hlays,hlives,hsame,hmode⟩
  · rw [halloc]
    refine .inl ⟨ls,t,rs,s',rfl,hfree,hfit,hfirst,rfl,⟨hlays,hsame.2.1 ▸ h16,?_⟩,hsame⟩
    have howned := ho.owned
    rw [show lives (ls ++ t :: rs) = lives ls ++ lives rs by simp [hfree], List.map_append] at howned
    rw [lives_carve, List.map_append, List.map_cons]
    exact .trans (.cons _ howned) List.perm_middle.symm
  · rw [halloc]
    refine .inr ⟨hsmall,s',ts',rfl,⟨hlays,hsame.2.1 ▸ h16,?_⟩,hlives,hsame,hmode⟩
    rw [hlives]
    exact ho.owned

/-- What becomes of the client's pointers when the tile of one of them is given back. -/
theorem Owns.erase {t : Tile} (ho : h.Owns (ts ++ t :: ts')) (hlive : t.free = false) {s' : Allocator}
    {us : List Tile} (hlays : s'.Lays us) (hsize : 16 ≤ s'.mSize)
    (hlives : lives us = lives ts ++ lives ts') :
    Owns ⟨s',h.live.erase (t.addr+nodeSize)⟩ us := by
  refine ⟨hlays,hsize,?_⟩
  have howned := ho.owned
  rw [show lives (ts ++ t :: ts') = lives ts ++ t :: lives ts' by simp [hlive], List.map_append,
    List.map_cons] at howned
  have := (howned.trans List.perm_middle).erase (t.addr+nodeSize)
  rwa [List.erase_cons_head, ← List.map_append, ← hlives] at this

theorem Owns.getFreeSpace (ho : h.Owns ts) :
    ∃ n s' ts', h.step .getFreeSpace = .ok (.space n,⟨s',h.live⟩) ∧ Owns ⟨s',h.live⟩ ts' ∧
      lives ts' = lives ts ∧ h.allocator.SameBuffer s' ∧
      (h.allocator.mDoCoalesceOnFree → ts' = ts) := by
  have h16 := ho.positive
  obtain ⟨s',ts',hs',hlays,hlives,hsame,hmode⟩ := getFreeSpace_spec ho.lays
    (le_of_lt (ho.lays.length_lt (by omega)))
  simp only [step]
  rw [hs']
  refine ⟨_,s',ts',rfl,⟨hlays,hsame.2.1 ▸ h16,?_⟩,hlives,hsame,hmode⟩
  rw [hlives]
  exact ho.owned

/-- The headers, and so the free list, are where a store of the client cannot reach. -/
theorem Owns.store (ho : h.Owns ts) {mem : ℕ → Node} (hmem : h.Allowed (.store mem)) :
    Owns { h with allocator := { h.allocator with mem := mem } } ts := by
  have hsame : ∀ t ∈ ts, mem t.addr = h.allocator.mem t.addr :=
    fun t ht => hmem t.addr (fun p hp => ho.header_outside ht hp)
  refine ⟨⟨ho.lays.tiles,ho.lays.small,ho.lays.large,?_,?_⟩,ho.positive,ho.owned⟩
  · intro t ht
    exact (congrArg Node.size (hsame t ht)).trans (ho.lays.header t ht)
  · refine ho.lays.linked.congr (fun a ha => ?_)
    obtain ⟨t,ht,-,rfl⟩ := mem_frees.mp ha
    exact congrArg Node.next (hsame t ht)

end Owning

/-- The heap is cut into the tiles ts: the live ones are the client's. -/
structure Cut (h : Heap) (ts : List Tile) : Prop where
  lays : h.allocator.Lays ts
  positive : 16 ≤ h.allocator.mSize
  room : ∀ t ∈ lives ts, 16 < t.size
  owned : h.live.Perm ((lives ts).map (fun t => t.addr+nodeSize))
  coalesced : h.allocator.mDoCoalesceOnFree → Coalesced ts

section Cuts
variable {h h' : Heap} {ts ts' : List Tile}

theorem Cut.owns (hc : h.Cut ts) : h.Owns ts := ⟨hc.lays,hc.positive,hc.owned⟩

theorem Owns.cut (ho : h.Owns ts) (hroom : ∀ t ∈ lives ts, 16 < t.size)
    (hcoalesced : h.allocator.mDoCoalesceOnFree → Coalesced ts) : h.Cut ts :=
  ⟨ho.lays,ho.positive,hroom,ho.owned,hcoalesced⟩

/-- Only the free tiles are others, and not where freed tiles are joined at once. -/
theorem Cut.stays {s' : Allocator} (hc : h.Cut ts) (ho' : Owns ⟨s',h.live⟩ ts')
    (hlives : lives ts' = lives ts) (hsame : h.allocator.SameBuffer s')
    (hmode : h.allocator.mDoCoalesceOnFree → ts' = ts) : Cut ⟨s',h.live⟩ ts' := by
  refine ho'.cut (by rw [hlives]; exact hc.room) (fun hm => ?_)
  have hm' : h.allocator.mDoCoalesceOnFree = true := hsame.2.2 ▸ hm
  rw [hmode hm']
  exact hc.coalesced hm'

theorem init_cut (mem : ℕ → Node) {buffer size : ℕ} (doCoalesceOnFree : Bool) (h16 : 16 ≤ size)
    (h31 : size < 2^31) :
    (init mem buffer size doCoalesceOnFree).Cut [⟨buffer,size,true⟩] :=
  (init_owns mem doCoalesceOnFree h16 (by omega)).cut (by simp) (fun _ => .singleton _)

theorem blockSize_eq {size : ℕ} (hlt : alignSize size+nodeSize < 2^32) :
    blockSize size = alignSize size+nodeSize := by
  unfold blockSize
  rw [Nat.mod_eq_of_lt (show alignSize size < 2^32 by omega), Nat.mod_eq_of_lt hlt]

theorem le_alignSize (size : ℕ) : size ≤ alignSize size := by
  unfold alignSize ptrSize
  omega

/-- What a call promises: the block it hands out is new and large enough, the one it takes back
is gone, and every other block stays as it is. -/
def Keeps (h : Heap) (op : HeapOp) (out : HeapResult) (h' : Heap) : Prop :=
  (match op with
    | .alloc size => (out = .pointer none ∧ h'.live = h.live) ∨
        ∃ p, out = .pointer (some p) ∧ p ∉ h.live ∧ h'.live = p :: h.live ∧ nodeSize+size ≤ h'.size p
    | .free p => h'.live = h.live.erase p
    | _ => h'.live = h.live) ∧
  ∀ p ∈ h.live, p ∈ h'.live → h'.size p = h.size p

/-- `alloc` on a heap that is cut into tiles, with the exact condition under which it succeeds. -/
theorem Cut.alloc (hc : h.Cut ts) {size : ℕ} (hpos : 1 ≤ size)
    (hlt : alignSize size+nodeSize < 2^32) :
    ∃ out h' ts', h.step (.alloc size) = .ok (out,h') ∧ h'.Cut ts' ∧
      h.allocator.SameBuffer h'.allocator ∧ h.Keeps (.alloc size) out h' ∧
      ((∃ p, out = .pointer (some p)) ↔ ∃ t ∈ ts, t.free ∧ alignSize size+nodeSize ≤ t.size) := by
  have hblock := blockSize_eq hlt
  have hle := le_alignSize size
  rcases hc.owns.alloc (show 16 ≤ blockSize size by rw [hblock, nodeSize_eq]; omega) with
    ⟨ls,t,rs,s',rfl,hfree,hfit,-,hstep,ho',hsame⟩ | ⟨hsmall,s',ts',hstep,ho',hlives,hsame,hmode⟩
  · -- the carved tile is behind what is left of its free one, and the rest of the list stays
    rw [hblock] at hfit hstep ho'
    obtain ⟨n,hn⟩ : ∃ n, n = alignSize size+nodeSize := ⟨_,rfl⟩
    rw [← hn] at hfit hstep ho' ⊢
    have hcarved : n ≤ (carved 32 t n).size := le_size_carved hfit
    have hlives : lives (ls ++ t :: rs) = lives ls ++ lives rs := by simp [hfree]
    have hroom := hc.room
    rw [hlives] at hroom
    have hc' : Cut ⟨s',((carved 32 t n).addr+nodeSize) :: h.live⟩ (carve 32 ls t rs n) := by
      refine ho'.cut ?_ (fun hmode => (hc.coalesced (hsame.2.2 ▸ hmode)).carve hfree)
      intro u hu
      rw [lives_carve, List.mem_append, List.mem_cons] at hu
      rcases hu with hu | rfl | hu
      · exact hroom u (by simp [hu])
      · rw [nodeSize_eq] at hn
        omega
      · exact hroom u (by simp [hu])
    refine ⟨_,_,_,hstep,hc',hsame,⟨Or.inr ⟨_,rfl,?_,rfl,?_⟩,?_⟩,?_⟩
    · have := hc'.owns.nodup
      exact (List.nodup_cons.mp this).1
    · have hmem : carved 32 t n ∈ lives (carve 32 ls t rs n) := by simp [lives_carve]
      rw [← hc'.owns.size_eq hmem] at hcarved
      rw [nodeSize_eq] at hn hcarved ⊢
      omega
    · intro p hp _
      obtain ⟨u,hu,hup⟩ := hc.owns.mem_live.mp hp
      refine hc.owns.size_congr hc'.owns ⟨u,hu,?_,hup⟩
      rw [hlives, List.mem_append] at hu
      rw [lives_carve, List.mem_append, List.mem_cons]
      tauto
    · exact ⟨fun _ => ⟨t,by simp,hfree,hfit⟩,fun _ => ⟨_,rfl⟩⟩
  · -- every free tile is too small, also those that the retry has joined
    rw [hblock] at hsmall
    have hc' := hc.stays ho' hlives hsame hmode
    refine ⟨_,_,_,hstep,hc',hsame,⟨Or.inl ⟨rfl,rfl⟩,?_⟩,?_⟩
    · intro p hp _
      obtain ⟨u,hu,hup⟩ := hc.owns.mem_live.mp hp
      exact hc.owns.size_congr hc'.owns ⟨u,hu,hlives ▸ hu,hup⟩
    · constructor
      · rintro ⟨p,hp⟩
        exact absurd hp (by simp)
      · rintro ⟨t,ht,hfree,hfit⟩
        exact absurd hfit (not_le.mpr (hsmall t ht hfree))

theorem Cut.free (hc : h.Cut ts) (hsmall : h.allocator.mSize < 2^31) {p : ℕ} (hp : p ∈ h.live) :
    ∃ out h' ts', h.step (.free p) = .ok (out,h') ∧ h'.Cut ts' ∧
      h.allocator.SameBuffer h'.allocator ∧ h.Keeps (.free p) out h' := by
  obtain ⟨t,ht,rfl⟩ := hc.owns.mem_live.mp hp
  have hroom := hc.room t ht
  obtain ⟨htmem,hfree⟩ := mem_lives.mp ht
  obtain ⟨ls,rs,rfl⟩ := List.append_of_mem htmem
  have h16 := hc.positive
  have hbounds := hc.lays.tiles.bounds htmem
  obtain ⟨s',hs',hsame,hlays⟩ := free_spec hc.lays hfree (by omega) (fun _ => hsmall)
    (le_of_lt (hc.lays.length_lt (by omega)))
  obtain ⟨ts',hts'⟩ : ∃ ts', ts' = if h.allocator.mDoCoalesceOnFree = true then release ls t rs
    else ls ++ ⟨t.addr,t.size,true⟩ :: rs := ⟨_,rfl⟩
  rw [← hts'] at hlays
  -- in both modes the other live tiles are as they were
  have hlives : lives ts' = lives ls ++ lives rs := by
    rw [hts']
    split
    · exact lives_release
    · simp
  have hsub : ∀ u ∈ lives ts', u ∈ lives (ls ++ t :: rs) := by
    intro u hu
    rw [hlives, List.mem_append] at hu
    simp only [lives_append, lives_cons, hfree, List.mem_append, Bool.false_eq_true, if_false,
      List.mem_cons]
    tauto
  have hc' : Cut ⟨s',h.live.erase (t.addr+nodeSize)⟩ ts' := by
    refine (hc.owns.erase hfree hlays (hsame.2.1 ▸ h16) hlives).cut
      (fun u hu => hc.room u (hsub u hu)) (fun hmode => ?_)
    have hmode' : h.allocator.mDoCoalesceOnFree = true := hsame.2.2 ▸ hmode
    rw [hts', if_pos hmode']
    exact coalesced_release (hc.coalesced hmode')
  simp only [step]
  rw [hs']
  refine ⟨_,_,_,rfl,hc',hsame,rfl,?_⟩
  intro p _ hp'
  obtain ⟨u,hu,hup⟩ := hc'.owns.mem_live.mp hp'
  exact hc.owns.size_congr hc'.owns ⟨u,hsub u hu,hu,hup⟩

theorem Cut.getFreeSpace (hc : h.Cut ts) :
    ∃ out h' ts', h.step .getFreeSpace = .ok (out,h') ∧ h'.Cut ts' ∧
      h.allocator.SameBuffer h'.allocator ∧ h.Keeps .getFreeSpace out h' := by
  obtain ⟨n,s',ts',hstep,ho',hlives,hsame,hmode⟩ := hc.owns.getFreeSpace
  have hc' := hc.stays ho' hlives hsame hmode
  refine ⟨_,_,_,hstep,hc',hsame,rfl,?_⟩
  intro p hp _
  obtain ⟨u,hu,hup⟩ := hc.owns.mem_live.mp hp
  exact hc.owns.size_congr hc'.owns ⟨u,hu,hlives ▸ hu,hup⟩

theorem Cut.store (hc : h.Cut ts) {mem : ℕ → Node} (hmem : h.Allowed (.store mem)) :
    ∃ out h', h.step (.store mem) = .ok (out,h') ∧ h'.Cut ts ∧
      h.allocator.SameBuffer h'.allocator ∧ h.Keeps (.store mem) out h' := by
  have hc' := (hc.owns.store hmem).cut hc.room hc.coalesced
  refine ⟨_,_,rfl,hc',⟨rfl,rfl,rfl⟩,rfl,?_⟩
  intro p hp _
  obtain ⟨u,hu,hup⟩ := hc.owns.mem_live.mp hp
  exact hc.owns.size_congr hc'.owns ⟨u,hu,hu,hup⟩

/-- Every allowed call returns, cuts the heap anew and keeps the other blocks. -/
theorem Cut.step (hc : h.Cut ts) (hsmall : h.allocator.mSize < 2^31) {op : HeapOp}
    (hop : h.Allowed op) :
    ∃ out h' ts', h.step op = .ok (out,h') ∧ h'.Cut ts' ∧ h.allocator.SameBuffer h'.allocator ∧
      h.Keeps op out h' := by
  cases op with
  | alloc size =>
    obtain ⟨out,h',ts',hstep,hc',hsame,hkeeps,-⟩ := hc.alloc hop.1 hop.2
    exact ⟨out,h',ts',hstep,hc',hsame,hkeeps⟩
  | free p => exact hc.free hsmall hop
  | getFreeSpace => exact hc.getFreeSpace
  | store mem =>
    obtain ⟨out,h',hstep,hc',hsame,hkeeps⟩ := hc.store hop
    exact ⟨out,h',ts,hstep,hc',hsame,hkeeps⟩

end Cuts

/-- Addresses of the buffer that no live block takes. -/
def FreeRange (h : Heap) (lo hi : ℕ) : Prop :=
  h.allocator.mBuffer ≤ lo ∧ lo < hi ∧ hi ≤ h.allocator.mBuffer+h.allocator.mSize ∧
    ∀ p ∈ h.live, p-nodeSize+h.size p ≤ lo ∨ hi ≤ p-nodeSize

/-- A free range that is contained in no other. -/
def MaximalFree (h : Heap) (lo hi : ℕ) : Prop :=
  h.FreeRange lo hi ∧ ∀ lo' hi', h.FreeRange lo' hi' → lo' ≤ lo → hi ≤ hi' → lo' = lo ∧ hi' = hi

section Coalescing
variable {h h' : Heap} {ts ts' : List Tile} {lo hi : ℕ}

theorem Cut.freeRange_iff (hc : h.Cut ts) : h.FreeRange lo hi ↔
    h.allocator.mBuffer ≤ lo ∧ lo < hi ∧ hi ≤ h.allocator.mBuffer+h.allocator.mSize ∧
      ∀ t ∈ ts, t.free = false → t.addr+t.size ≤ lo ∨ hi ≤ t.addr := by
  have hblock : ∀ t ∈ lives ts, t.addr+nodeSize-nodeSize+h.size (t.addr+nodeSize) = t.addr+t.size := by
    intro t ht
    rw [hc.owns.size_eq ht, Nat.add_sub_cancel]
  unfold FreeRange
  refine and_congr_right fun _ => and_congr_right fun _ => and_congr_right fun _ => ⟨?_,?_⟩
  · intro hlive t ht hfree
    have hmem := mem_lives.mpr ⟨ht,hfree⟩
    have := hlive (t.addr+nodeSize) (hc.owns.mem_live.mpr ⟨t,hmem,rfl⟩)
    rwa [hblock t hmem, Nat.add_sub_cancel] at this
  · intro hlive p hp
    obtain ⟨t,ht,rfl⟩ := hc.owns.mem_live.mp hp
    rw [hblock t ht, Nat.add_sub_cancel]
    exact hlive t (mem_lives.mp ht).1 (mem_lives.mp ht).2

theorem Cut.freeRange_tile (hc : h.Cut ts) {t : Tile} (ht : t ∈ ts) (hfree : t.free) :
    h.FreeRange t.addr (t.addr+t.size) := by
  have hbounds := hc.lays.tiles.bounds ht
  refine hc.freeRange_iff.mpr ⟨hbounds.1,by omega,hbounds.2.2,fun u hu hlive => ?_⟩
  obtain ⟨ls,rs,rfl⟩ := List.append_of_mem ht
  have haround := hc.lays.tiles.around
  rcases List.mem_append.mp hu with hu | hu
  · exact Or.inl (haround.1 u hu)
  · rcases List.mem_cons.mp hu with rfl | hu
    · rw [hfree] at hlive
      exact absurd hlive (by simp)
    · exact Or.inr (haround.2 u hu)

/-- In the coalescing mode every free range lies in one block of the free list. -/
theorem Cut.exists_tile (hc : h.Cut ts) (hmode : h.allocator.mDoCoalesceOnFree)
    (hrange : h.FreeRange lo hi) : ∃ t ∈ ts, t.free ∧ t.addr ≤ lo ∧ hi ≤ t.addr+t.size := by
  obtain ⟨hlo,hlt,hhi,hlive⟩ := hc.freeRange_iff.mp hrange
  exact (hc.coalesced hmode).exists_free hc.lays.tiles hlt hlo hhi hlive

theorem Cut.maximalFree_tile (hc : h.Cut ts) (hmode : h.allocator.mDoCoalesceOnFree) {t : Tile}
    (ht : t ∈ ts) (hfree : t.free) : h.MaximalFree t.addr (t.addr+t.size) := by
  refine ⟨hc.freeRange_tile ht hfree,fun lo hi hrange hlo hhi => ?_⟩
  obtain ⟨u,hu,-,hulo,huhi⟩ := hc.exists_tile hmode hrange
  have htpos := (hc.lays.tiles.bounds ht).2.1
  -- u contains t, and tiles do not overlap
  obtain ⟨ls,rs,rfl⟩ := List.append_of_mem ht
  have haround := hc.lays.tiles.around
  rcases List.mem_append.mp hu with hu | hu
  · have := haround.1 u hu
    omega
  · rcases List.mem_cons.mp hu with rfl | hu
    · omega
    · have := haround.2 u hu
      omega

/-- Freeing everything, in any order, leaves nothing live. -/
theorem Cut.freeAll (hc : h.Cut ts) (hsmall : h.allocator.mSize < 2^31) {order : List ℕ}
    (horder : order.Perm h.live) :
    ∃ outs h' ts', Transition.run Heap.step h (order.map .free) = .ok (outs,h') ∧ h'.Cut ts' ∧
      h.allocator.SameBuffer h'.allocator ∧ h'.live = [] := by
  induction order generalizing h ts with
  | nil => exact ⟨[],h,ts,rfl,hc,⟨rfl,rfl,rfl⟩,horder.symm.eq_nil⟩
  | cons p order ih =>
    obtain ⟨out,h₁,ts₁,hstep,hc₁,hsame₁,hlive,-⟩ :=
      hc.free hsmall (horder.mem_iff.mp List.mem_cons_self)
    have horder₁ : order.Perm h₁.live := by
      have := horder.erase p
      rwa [List.erase_cons_head, ← hlive] at this
    obtain ⟨outs,h₂,ts₂,hrun,hc₂,hsame₂,hnil⟩ := ih hc₁ (hsame₁.2.1.trans_lt hsmall) horder₁
    refine ⟨out :: outs,h₂,ts₂,?_,hc₂,hsame₁.trans hsame₂,hnil⟩
    simp only [List.map_cons, Transition.run, hstep, hrun, ok_bind]

end Coalescing

section Runs
variable {mem : ℕ → Node} {buffer size : ℕ} {doCoalesceOnFree : Bool} {h : Heap}

theorem Reachable.cut (h16 : 16 ≤ size) (h31 : size < 2^31)
    (hr : Reachable mem buffer size doCoalesceOnFree h) :
    (∃ ts, h.Cut ts) ∧ h.allocator.mBuffer = buffer ∧ h.allocator.mSize = size ∧
      h.allocator.mDoCoalesceOnFree = doCoalesceOnFree := by
  refine Transition.Reachable.invariant (fun h => (∃ ts, h.Cut ts) ∧
    h.allocator.mBuffer = buffer ∧ h.allocator.mSize = size ∧
    h.allocator.mDoCoalesceOnFree = doCoalesceOnFree) ?_ ?_ hr
  · rintro h rfl
    exact ⟨⟨_,init_cut mem doCoalesceOnFree h16 h31⟩,rfl,rfl,rfl⟩
  · rintro h h' ⟨⟨ts,hc⟩,hbuf,hsize,hmode⟩ ⟨op,out,hop,hstep⟩
    obtain ⟨out',h'',ts',hstep',hc',hsame,-⟩ := hc.step (by rw [hsize]; exact h31) hop
    rw [hstep, Except.ok.injEq, Prod.mk.injEq] at hstep'
    obtain ⟨-,rfl⟩ := hstep'
    exact ⟨⟨ts',hc'⟩,hsame.1.trans hbuf,hsame.2.1.trans hsize,hsame.2.2.trans hmode⟩

/-- The managed buffer, cut without gaps into the free blocks, which are the free list in
increasing order, and the live ones. -/
def Tiled (h : Heap) (buffer size : ℕ) : Prop :=
  ∃ ts : List Tile, Tiles buffer ts (buffer+size) ∧ (ts.map Tile.size).sum = size ∧
    ts.Pairwise (fun t u => t.addr+t.size ≤ u.addr) ∧
    (∀ t ∈ ts, (h.allocator.mem t.addr).size = t.size) ∧
    Path h.allocator.next h.allocator.mFreeList (frees ts) none ∧ (frees ts).Pairwise (· < ·) ∧
    h.live.Perm ((lives ts).map (fun t => t.addr+nodeSize))

/-- In every reachable state the blocks tile the buffer, and every allowed call returns and leaves
the blocks of others alone. -/
theorem reachable_tiled (h16 : 16 ≤ size) (h31 : size < 2^31)
    (hr : Reachable mem buffer size doCoalesceOnFree h) :
    h.Tiled buffer size ∧
      ∀ op, h.Allowed op → ∃ out h', h.step op = .ok (out,h') ∧ h.Keeps op out h' := by
  obtain ⟨⟨ts,hc⟩,hbuf,hsize,-⟩ := hr.cut h16 h31
  have htiles := hc.lays.tiles
  rw [hbuf, hsize] at htiles
  refine ⟨⟨ts,htiles,?_,htiles.pairwise,hc.lays.header,hc.lays.linked,htiles.frees_lt,hc.owned⟩,?_⟩
  · have := htiles.sum_size
    omega
  · intro op hop
    obtain ⟨out,h',_,hstep,-,-,hkeeps⟩ := hc.step (by rw [hsize]; exact h31) hop
    exact ⟨out,h',hstep,hkeeps⟩

/-- The heap after a first request for eight bytes. -/
theorem reachable_tiled_first : ∃ out h, (init (fun _ => ⟨0,none⟩) 1000 256 false).step (.alloc 8) =
    .ok (out,h) ∧ h.Tiled 1000 256 := by
  have hstart : Reachable (fun _ => ⟨0,none⟩) 1000 256 false (init (fun _ => ⟨0,none⟩) 1000 256 false) :=
    .start rfl
  have hop : (init (fun _ => ⟨0,none⟩) 1000 256 false).Allowed (.alloc 8) := by
    refine ⟨?_,?_⟩ <;> decide
  obtain ⟨out,h,hstep,-⟩ := (reachable_tiled (by decide) (by decide) hstart).2 _ hop
  exact ⟨out,h,hstep,(reachable_tiled (by decide) (by decide) (hstart.next ⟨_,out,hop,hstep⟩)).1⟩

/-- In the coalescing mode no free block ends where another begins, a request succeeds exactly when
it fits into a maximal free range, and freeing all that is live leaves one block. -/
theorem reachable_coalesced (h16 : 16 ≤ size) (h31 : size < 2^31)
    (hr : Reachable mem buffer size true h) :
    (∃ free, Path h.allocator.next h.allocator.mFreeList free none ∧
      ∀ a ∈ free, ∀ b ∈ free, a+(h.allocator.mem a).size ≠ b) ∧
    (∀ n, 1 ≤ n → alignSize n+nodeSize < 2^32 → ∃ out h', h.step (.alloc n) = .ok (out,h') ∧
      ((∃ p, out = .pointer (some p)) ↔
        ∃ lo hi, h.MaximalFree lo hi ∧ alignSize n+nodeSize ≤ hi-lo)) ∧
    ∀ order : List ℕ, order.Perm h.live →
      ∃ outs h', Transition.run step h (order.map .free) = .ok (outs,h') ∧ h'.live = [] ∧
        h'.allocator.mFreeList = some buffer ∧ h'.allocator.mem buffer = ⟨size,none⟩ := by
  obtain ⟨⟨ts,hc⟩,hbuf,hsize,hmode⟩ := hr.cut h16 h31
  have hcoalesced := hc.coalesced hmode
  refine ⟨⟨frees ts,hc.lays.linked,?_⟩,?_,?_⟩
  · intro a ha b hb
    obtain ⟨t,ht,htf,rfl⟩ := mem_frees.mp ha
    obtain ⟨u,hu,huf,rfl⟩ := mem_frees.mp hb
    rw [hc.lays.header t ht]
    exact hcoalesced.not_adjacent hc.lays.tiles ht hu htf huf
  · -- a maximal free range is one tile, as no two free ones are neighbours
    intro n hpos hlt
    obtain ⟨out,h',_,hstep,-,-,-,hiff⟩ := hc.alloc hpos hlt
    refine ⟨out,h',hstep,hiff.trans ⟨?_,?_⟩⟩
    · rintro ⟨t,ht,hfree,hfit⟩
      exact ⟨_,_,hc.maximalFree_tile hmode ht hfree,by omega⟩
    · rintro ⟨lo,hi,⟨hrange,-⟩,hfit⟩
      obtain ⟨t,ht,hfree,hlo,hhi⟩ := hc.exists_tile hmode hrange
      exact ⟨t,ht,hfree,by omega⟩
  · intro order horder
    obtain ⟨outs,h',ts',hrun,hc',hsame,hnil⟩ := hc.freeAll (by rw [hsize]; exact h31) horder
    have hlives : lives ts' = [] := by
      have := hc'.owned
      rw [hnil] at this
      exact List.map_eq_nil_iff.mp this.symm.eq_nil
    -- nothing live and nothing to join leaves one tile over all of the buffer
    have hcoalesced' := hc'.coalesced (by rw [hsame.2.2, hmode])
    have hts' := hcoalesced'.eq_singleton hc'.lays.tiles (by have := hc'.positive; omega) hlives
    rw [Nat.add_sub_cancel_left, hsame.1, hsame.2.1, hbuf, hsize] at hts'
    subst hts'
    have hlinked := hc'.lays.linked
    have hheader : (h'.allocator.mem buffer).size = size :=
      hc'.lays.header ⟨buffer,size,true⟩ (by simp)
    simp only [frees_cons, if_true, frees_nil] at hlinked
    obtain ⟨hlist,hnext⟩ := hlinked
    have hnext' : (h'.allocator.mem buffer).next = none := hnext
    refine ⟨outs,h',hrun,hnil,hlist,?_⟩
    rw [← hheader, ← hnext']

/-- Five blocks of which three in a row are freed, the middle one last. -/
def middleFreed : Exec (List HeapResult × Heap) :=
  Transition.run step (init (fun _ => ⟨0,none⟩) 1000 176 true)
    [.alloc 8,.alloc 8,.alloc 8,.alloc 8,.alloc 8,.free 1144,.free 1096,.free 1120]

/-- The last block joins the one before it and the one behind it. Nothing else is large enough for 48
bytes, and when the other two are freed as well the buffer is one block again. -/
theorem reachable_coalesced_middle : ∃ outs h, middleFreed = .ok (outs,h) ∧
    (∃ free, Path h.allocator.next h.allocator.mFreeList free none ∧
      ∀ a ∈ free, ∀ b ∈ free, a+(h.allocator.mem a).size ≠ b) ∧
    (∃ lo hi, h.MaximalFree lo hi ∧ 64 ≤ hi-lo) ∧
    ∃ outs' h', Transition.run step h [.free 1072,.free 1168] = .ok (outs',h') ∧
      h'.allocator.mem 1000 = ⟨176,none⟩ := by
  have hfacts : middleFreed.map (fun r => (r.2.live,(r.2.step (.alloc 48)).map Prod.fst)) =
      .ok ([1072,1168],.ok (.pointer (some 1096))) := by
    decide +kernel
  have hguard : Transition.Guarded step Called (init (fun _ => ⟨0,none⟩) 1000 176 true)
      [.alloc 8,.alloc 8,.alloc 8,.alloc 8,.alloc 8,.free 1144,.free 1096,.free 1120] :=
    Transition.guarded_of_meets (by decide +kernel)
  cases hrun : middleFreed with
  | error e =>
    rw [hrun] at hfacts
    cases hfacts
  | ok r =>
    obtain ⟨outs,h⟩ := r
    rw [hrun] at hfacts
    obtain ⟨hlive,halloc⟩ := Prod.mk.inj (Except.ok.inj hfacts)
    have hreach : Reachable (fun _ => ⟨0,none⟩) 1000 176 true h :=
      Transition.Reachable.run (fun _ op out _ hop hstep => ⟨op,out,hop.allowed,hstep⟩) (.start rfl)
        hguard hrun
    obtain ⟨hcoalesced,hrequest,hfree⟩ := reachable_coalesced (by decide) (by decide) hreach
    refine ⟨outs,h,rfl,hcoalesced,?_,?_⟩
    · obtain ⟨out,h',hstep,hiff⟩ := hrequest 48 (by decide) (by decide)
      rw [hstep] at halloc
      have hout : out = .pointer (some 1096) := Except.ok.inj halloc
      exact hiff.mp ⟨_,hout⟩
    · obtain ⟨outs',h',hrun',-,-,hmem⟩ := hfree [1072,1168] (by rw [hlive])
      exact ⟨outs',h',hrun',hmem⟩

end Runs

end Heap

end JhCommon
