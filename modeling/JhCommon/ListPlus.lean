import JhCommon.DoublyLinked
import JhCommon.Exec

/-! The lists of `List++.h`, whose nodes are parts of the objects in the list: a list has a node of its
own at each end, and every other node is where its object is. -/
namespace JhCommon
open DoublyLinked

/-- A node: the two that the list has in itself, or the one of the object at an address. -/
inductive ListPlusNode
  | mHead
  | mTail
  | obj (a : ℕ)
  deriving DecidableEq

structure NodeLinks where
  mNext : Option ListPlusNode
  mPrev : Option ListPlusNode

/-- The links of each node that there is. -/
abbrev ListPlus : Type := ListPlusNode → Option NodeLinks

namespace ListPlus

/-- The constructor. -/
def create : ListPlus
  | .mHead => some ⟨some .mTail,none⟩
  | .mTail => some ⟨none,some .mHead⟩
  | .obj _ => none

def links (s : ListPlus) (n : ListPlusNode) : Exec NodeLinks :=
  match s n with
  | none => .error .useAfterFree
  | some l => .ok l

def follow (p : Option ListPlusNode) : Exec ListPlusNode :=
  match p with
  | none => .error .nullDeref
  | some n => .ok n

def setLinks (s : ListPlus) (n : ListPlusNode) (l : Option NodeLinks) : ListPlus :=
  fun m => if m = n then l else s m

/-- `insertAfter`. The node is a new one, so its links are there from its constructor on. -/
def insertAfter (s : ListPlus) (this node : ListPlusNode) : Exec ListPlus := do
  let l ← s.links this
  let next ← follow l.mNext
  let s := s.setLinks node (some ⟨some next,some this⟩)
  let n ← s.links next
  let s := s.setLinks next (some { n with mPrev := some node })
  let l ← s.links this
  .ok (s.setLinks this (some { l with mNext := some node }))

def pushFront (s : ListPlus) (node : ListPlusNode) : Exec ListPlus :=
  s.insertAfter .mHead node

/-- `remove` of a node, which keeps its own links. -/
def remove (s : ListPlus) (this : ListPlusNode) : Exec ListPlus := do
  let l ← s.links this
  let next ← follow l.mNext
  let prev ← follow l.mPrev
  let n ← s.links next
  let s := s.setLinks next (some { n with mPrev := some prev })
  let p ← s.links prev
  .ok (s.setLinks prev (some { p with mNext := some next }))

def getHead (s : ListPlus) : Exec (Option ListPlusNode) := do
  let l ← s.links .mHead
  .ok (if l.mNext ≠ some .mTail then l.mNext else none)

/-- `next`. The list ends with the node that nothing is behind, and this one is not an object. -/
def next (s : ListPlus) (this : ListPlusNode) : Exec (Option ListPlusNode) := do
  let l ← s.links this
  let n ← follow l.mNext
  let behind ← s.links n
  .ok (if behind.mNext ≠ none then some n else none)

def empty (s : ListPlus) : Exec Bool := do
  let head ← s.getHead
  .ok (head = none)

def nextOf (s : ListPlus) (n : ListPlusNode) : Option ListPlusNode := (s n).bind NodeLinks.mNext
def prevOf (s : ListPlus) (n : ListPlusNode) : Option ListPlusNode := (s n).bind NodeLinks.mPrev

/-- The nodes of a list of the objects at these addresses. -/
def nodes (as : List ℕ) : List ListPlusNode := .mHead :: (as.map .obj ++ [.mTail])

/-- The objects in a list: their nodes are linked with both ends, they are different, and nothing is
behind the last node. -/
structure Holds (s : ListPlus) (as : List ℕ) : Prop where
  linked : Linked s.nextOf s.prevOf (nodes as)
  nodup : as.Nodup
  last : s.nextOf .mTail = none

variable {s : ListPlus} {as l r : List ℕ} {a : ℕ}

theorem links_of_next {n b : ListPlusNode} (h : s.nextOf n = some b) :
    s.links n = .ok ⟨some b,s.prevOf n⟩ := by
  unfold nextOf at h
  unfold links prevOf
  cases hn : s n with
  | none => simp [hn] at h
  | some l =>
    obtain ⟨next,prev⟩ := l
    obtain rfl : next = some b := by simpa [hn] using h
    rfl

theorem links_of_prev {n b : ListPlusNode} (h : s.prevOf n = some b) :
    s.links n = .ok ⟨s.nextOf n,some b⟩ := by
  unfold prevOf at h
  unfold links nextOf
  cases hn : s n with
  | none => simp [hn] at h
  | some l =>
    obtain ⟨next,prev⟩ := l
    obtain rfl : prev = some b := by simpa [hn] using h
    rfl

theorem nextOf_setLinks (s : ListPlus) (n m : ListPlusNode) (l : NodeLinks) :
    (s.setLinks n (some l)).nextOf m = if m = n then l.mNext else s.nextOf m := by
  unfold nextOf setLinks
  split <;> rfl

theorem prevOf_setLinks (s : ListPlus) (n m : ListPlusNode) (l : NodeLinks) :
    (s.setLinks n (some l)).prevOf m = if m = n then l.mPrev else s.prevOf m := by
  unfold prevOf setLinks
  split <;> rfl

theorem nodes_nodup (h : as.Nodup) : (nodes as).Nodup := by
  have hobj : (as.map ListPlusNode.obj).Nodup := h.map fun a b hab => by injection hab
  simp [nodes, List.nodup_append, hobj]

/-- There is a node before and one behind every object, whichever they are. -/
theorem exists_neighbours (l r : List ℕ) :
    ∃ l' p n r', .mHead :: l.map ListPlusNode.obj = l' ++ [p] ∧
      r.map ListPlusNode.obj ++ [.mTail] = n :: r' := by
  have hl : .mHead :: l.map ListPlusNode.obj ≠ [] := List.cons_ne_nil _ _
  have hr : r.map ListPlusNode.obj ++ [.mTail] ≠ [] := by simp
  obtain ⟨l',p,hl'⟩ := List.eq_nil_or_concat _ |>.resolve_left hl
  obtain ⟨n,r',hr'⟩ := List.exists_cons_of_ne_nil hr
  exact ⟨l',p,n,r',by simpa using hl',hr'⟩

theorem holds_create : create.Holds [] where
  linked := List.isChain_cons_cons.mpr ⟨⟨rfl,rfl⟩,List.isChain_singleton _⟩
  nodup := List.nodup_nil
  last := rfl

/-- The links of an object that is no longer in the list, or not yet, do not matter. -/
theorem Holds.setLinks_obj (h : s.Holds as) (ha : a ∉ as) (l : Option NodeLinks) :
    (s.setLinks (.obj a) l).Holds as := by
  have hout : ∀ c ∈ nodes as, c ≠ .obj a := by
    rintro c hc rfl
    simp [nodes, ha] at hc
  refine ⟨h.linked.congr ?_ ?_,h.nodup,h.last⟩
  · intro c hc
    simp only [nextOf, setLinks, if_neg (hout c (List.mem_of_mem_dropLast hc))]
  · intro c hc
    simp only [prevOf, setLinks, if_neg (hout c (List.mem_of_mem_tail hc))]

/-- An object that is pushed in front is in front of the others. -/
theorem Holds.pushFront (h : s.Holds as) (ha : a ∉ as) :
    ∃ s', s.pushFront (.obj a) = .ok s' ∧ s'.Holds (a :: as) := by
  have hnew : (a :: as).Nodup := List.nodup_cons.mpr ⟨ha,h.nodup⟩
  obtain ⟨-,-,n,r',-,hr⟩ := exists_neighbours [] as
  have hnodes : nodes as = [] ++ .mHead :: n :: r' := by rw [nodes, hr]; rfl
  have hnodup : ([] ++ ListPlusNode.mHead :: n :: r').Nodup := hnodes ▸ nodes_nodup h.nodup
  have hobj : .obj a ∉ ListPlusNode.mHead :: n :: r' := by
    rw [← List.nil_append (ListPlusNode.mHead :: n :: r'), ← hnodes]
    simp [nodes, ha]
  have hlinked : Linked s.nextOf s.prevOf ([] ++ .mHead :: n :: r') := hnodes ▸ h.linked
  have hhead := hlinked.next_eq
  have hback := hlinked.prev_eq
  have hout : ListPlusNode.mHead ≠ n ∧ ListPlusNode.mHead ≠ .obj a ∧ n ≠ .obj a := by
    simp only [List.nil_append, List.nodup_cons, List.mem_cons, not_or] at hnodup hobj
    exact ⟨hnodup.1.1,hobj.1 ∘ Eq.symm,hobj.2.1 ∘ Eq.symm⟩
  obtain ⟨hheadn,hheada,hna⟩ := hout
  -- each of the three nodes is read with the links that it has by then
  let s₁ := s.setLinks (.obj a) (some ⟨some n,some .mHead⟩)
  have hn₁ : s₁.links n = .ok ⟨s₁.nextOf n,some .mHead⟩ :=
    links_of_prev (by rw [prevOf_setLinks, if_neg hna, hback])
  let s₂ := s₁.setLinks n (some ⟨s₁.nextOf n,some (.obj a)⟩)
  have hhead₂ : s₂.links .mHead = .ok ⟨some n,s₂.prevOf .mHead⟩ :=
    links_of_next (by rw [nextOf_setLinks, if_neg hheadn, nextOf_setLinks, if_neg hheada, hhead])
  refine ⟨s₂.setLinks .mHead (some ⟨some (.obj a),s₂.prevOf .mHead⟩),?_,?_,hnew,?_⟩
  · unfold ListPlus.pushFront insertAfter
    rw [links_of_next hhead]
    simp only [ok_bind, follow]
    rw [show (s.setLinks (.obj a) (some ⟨some n,some .mHead⟩)).links n = _ from hn₁, ok_bind]
    rw [show ((s.setLinks (.obj a) _).setLinks n _).links .mHead = _ from hhead₂, ok_bind]
  · have hnodes' : nodes (a :: as) = [] ++ .mHead :: .obj a :: n :: r' := by
      rw [nodes, List.map_cons, List.cons_append, hr]
      rfl
    rw [hnodes']
    apply hlinked.link hnodup
    all_goals simp only [s₂, s₁, nextOf_setLinks, prevOf_setLinks]
    · simp
    · simp [hheada.symm, hna.symm]
    · simp [hheada.symm, hna.symm]
    · simp [hheadn.symm]
    · intro c hc hchead
      have hca : c ≠ .obj a := ne_of_mem_of_not_mem hc (hobj ∘ List.mem_cons_of_mem _)
      by_cases hcn : c = n <;> simp [hchead, hca, hcn, hna, hheadn.symm]
    · intro c hc hcn
      have hca : c ≠ .obj a := by
        apply ne_of_mem_of_not_mem _ hobj
        exact List.mem_cons.mpr ((List.mem_cons.mp hc).imp_right (List.mem_cons_of_mem _))
      by_cases hchead : c = .mHead <;> simp [hchead, hca, hcn, hheadn, hheada]
  · have hlast := h.last
    by_cases htail : ListPlusNode.mTail = n <;> simp [s₂, s₁, nextOf_setLinks, htail, hna, hheadn.symm, ← hlast]

/-- An object that is removed leaves the others as they were. -/
theorem Holds.remove (h : s.Holds (l ++ a :: r)) :
    ∃ s', s.remove (.obj a) = .ok s' ∧ s'.Holds (l ++ r) := by
  obtain ⟨l',p,n,r',hl,hr⟩ := exists_neighbours l r
  have hwith : nodes (l ++ a :: r) = l' ++ p :: .obj a :: n :: r' := by
    calc nodes (l ++ a :: r)
      _ = (.mHead :: l.map .obj) ++ .obj a :: (r.map .obj ++ [.mTail]) := by simp [nodes]
      _ = l' ++ p :: .obj a :: n :: r' := by rw [hl, hr]; simp
  have hwithout : nodes (l ++ r) = l' ++ p :: n :: r' := by
    calc nodes (l ++ r)
      _ = (.mHead :: l.map .obj) ++ (r.map .obj ++ [.mTail]) := by simp [nodes]
      _ = l' ++ p :: n :: r' := by rw [hl, hr]; simp
  have hrest : (l ++ r).Nodup := h.nodup.sublist (List.Sublist.append_left (List.sublist_cons_self a r) l)
  have hnodup : (l' ++ p :: n :: r').Nodup := hwithout ▸ nodes_nodup hrest
  have hlinked : Linked s.nextOf s.prevOf (l' ++ p :: .obj a :: n :: r') := hwith ▸ h.linked
  have hlinked' : Linked s.nextOf s.prevOf ((l' ++ [p]) ++ .obj a :: n :: r') := by
    simpa using hlinked
  have hpn : p ≠ n := by
    simp only [List.nodup_append, List.nodup_cons, List.mem_cons, not_or] at hnodup
    exact hnodup.2.1.1.1
  let s₁ := s.setLinks n (some ⟨s.nextOf n,some p⟩)
  have hp₁ : s₁.links p = .ok ⟨some (.obj a),s₁.prevOf p⟩ :=
    links_of_next (by rw [nextOf_setLinks, if_neg hpn, hlinked.next_eq])
  refine ⟨s₁.setLinks p (some ⟨some n,s₁.prevOf p⟩),?_,?_,hrest,?_⟩
  · unfold ListPlus.remove
    rw [links_of_next hlinked'.next_eq, hlinked.prev_eq]
    simp only [ok_bind, follow]
    rw [links_of_prev hlinked'.prev_eq, ok_bind]
    rw [show (s.setLinks n _).links p = _ from hp₁, ok_bind]
  · rw [hwithout]
    apply hlinked.unlink hnodup
    all_goals simp only [s₁, nextOf_setLinks, prevOf_setLinks]
    · simp
    · simp [hpn.symm]
    · intro c hc hcp
      by_cases hcn : c = n <;> simp [hcp, hcn, hpn.symm]
    · intro c hc hcn
      by_cases hcp : c = p <;> simp [hcp, hcn, hpn]
  · have hlast := h.last
    have htail : ListPlusNode.mTail ≠ p := by
      rintro rfl
      have := hlinked.next_eq
      rw [hlast] at this
      cases this
    by_cases hn : ListPlusNode.mTail = n <;> simp [s₁, nextOf_setLinks, htail, hn, hpn.symm, ← hlast]

theorem Holds.getHead (h : s.Holds as) : s.getHead = .ok (as.head?.map .obj) := by
  unfold ListPlus.getHead
  cases as with
  | nil =>
    have hhead : s.nextOf .mHead = some .mTail := Linked.next_eq (l := []) h.linked
    rw [links_of_next hhead]
    rfl
  | cons a as =>
    have hhead : s.nextOf .mHead = some (.obj a) := Linked.next_eq (l := []) h.linked
    rw [links_of_next hhead]
    rfl

theorem Holds.empty (h : s.Holds as) : s.empty = .ok (as = []) := by
  unfold ListPlus.empty
  rw [h.getHead, ok_bind]
  cases as <;> simp

/-- Behind an object is the next one of the list. -/
theorem Holds.next (h : s.Holds (l ++ a :: r)) :
    s.next (.obj a) = .ok (r.head?.map .obj) := by
  have hlinked : Linked s.nextOf s.prevOf
      ((.mHead :: l.map .obj) ++ .obj a :: (r.map .obj ++ [.mTail])) := by
    simpa [nodes] using h.linked
  unfold ListPlus.next
  cases r with
  | nil =>
    rw [links_of_next hlinked.next_eq, ok_bind, follow, ok_bind, links_of_prev hlinked.prev_eq,
      ok_bind, h.last]
    rfl
  | cons b r =>
    have hb : s.nextOf (.obj b) ≠ none := by
      obtain ⟨-,-,n,r',-,hr⟩ := exists_neighbours [] r
      have hlinked' : Linked s.nextOf s.prevOf
          ((.mHead :: (l ++ [a]).map .obj) ++ .obj b :: n :: r') := by
        rw [← hr]
        simpa using hlinked
      simp [hlinked'.next_eq]
    rw [links_of_next hlinked.next_eq, ok_bind, follow, ok_bind, links_of_prev hlinked.prev_eq,
      ok_bind, if_pos hb]
    rfl

end ListPlus

end JhCommon
