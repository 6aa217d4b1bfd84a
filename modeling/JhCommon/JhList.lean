import JhCommon.CellHeap
import JhCommon.DoublyLinked

/-! The list of `jh_list.h`: nodes between two placeholders, and iterators that stand at a node. The
nodes of all lists of one type are in one heap. A NULL pointer is none. -/
namespace JhCommon
open DoublyLinked

/-- The value of a placeholder is never set. -/
structure ListNode (V : Type) where
  val : Option V
  next : Option ℕ
  prev : Option ℕ

abbrev ListHeap (V : Type) := CellHeap (ListNode V)

structure JhList where
  mHead : ℕ
  mTail : ℕ
  deriving DecidableEq

namespace JhList
variable {V : Type}

/-- The constructor. -/
def create (h : ListHeap V) : JhList × ListHeap V :=
  let (mHead,h) := h.alloc ⟨none,none,none⟩
  let (mTail,h) := h.alloc ⟨none,none,some mHead⟩
  (⟨mHead,mTail⟩,h.modify mHead fun n => { n with next := some mTail })

/-- What a pointer points at. -/
def follow (h : ListHeap V) : Option ℕ → Exec (ListNode V)
  | none => .error .nullDeref
  | some a => h.read a

def assign (h : ListHeap V) (p : Option ℕ) (f : ListNode V → ListNode V) : Exec (ListHeap V) :=
  match p with
  | none => .error .nullDeref
  | some a => h.write a f

def pushBack (s : JhList) (h : ListHeap V) (val : V) : Exec (ListHeap V) := do
  let tail ← h.read s.mTail
  let (newTail,h) := h.alloc ⟨some val,some s.mTail,tail.prev⟩
  let h ← assign h tail.prev fun n => { n with next := some newTail }
  h.write s.mTail fun n => { n with prev := some newTail }

def iterBegin (s : JhList) (h : ListHeap V) : Exec (Option ℕ) := do
  let head ← h.read s.mHead
  .ok head.next

def iterEnd (s : JhList) : Option ℕ := some s.mTail

/-- `operator*`. The value of a placeholder is no value of the list. -/
def deref (h : ListHeap V) (i : Option ℕ) : Exec V := do
  let n ← follow h i
  match n.val with
  | some v => .ok v
  | none => .error .outOfBounds

/-- `operator++`, which leaves NULL as it is. -/
def forward (h : ListHeap V) : Option ℕ → Exec (Option ℕ)
  | none => .ok none
  | some a => do
    let n ← h.read a
    .ok n.next

/-- `operator--`. -/
def backward (h : ListHeap V) : Option ℕ → Exec (Option ℕ)
  | none => .ok none
  | some a => do
    let n ← h.read a
    .ok n.prev

/-- The iterator that is returned stands at the next node, and at the same one for a placeholder. -/
def erase (h : ListHeap V) (i : Option ℕ) : Exec (ListHeap V × Option ℕ) :=
  match i with
  | none => .ok (h,i)
  | some a => do
    let n ← h.read a
    match n.next, n.prev with
    | some next, some prev => do
      let h ← h.write prev fun n => { n with next := some next }
      let h ← h.write next fun n => { n with prev := some prev }
      let h ← h.free a
      .ok (h,some next)
    | _, _ => .ok (h,i)

end JhList

namespace JhList
variable {V : Type} {s : JhList} {h h' : ListHeap V} {xs ys zs : List (ℕ × V)} {x : ℕ × V}

/-- The nodes of a list with its placeholders, in order. -/
def nodes (s : JhList) (xs : List (ℕ × V)) : List ℕ := s.mHead :: (xs.map Prod.fst ++ [s.mTail])

/-- The first node of what is left of a list, or the end. -/
def first (s : JhList) (xs : List (ℕ × V)) : ℕ := (xs.head?.map Prod.fst).getD s.mTail

/-- The last node of what has been passed, or the placeholder in front. -/
def last (s : JhList) (xs : List (ℕ × V)) : ℕ := (xs.getLast?.map Prod.fst).getD s.mHead

/-- The heap has the list, with these nodes and values. -/
structure Holds (s : JhList) (h : ListHeap V) (xs : List (ℕ × V)) : Prop where
  linked : Linked (h.get ListNode.next) (h.get ListNode.prev) (s.nodes xs)
  nodup : (s.nodes xs).Nodup
  front : h.get ListNode.prev s.mHead = none
  back : h.get ListNode.next s.mTail = none
  vals : ∀ x ∈ xs, h.get ListNode.val x.1 = some x.2

theorem Holds.nodup_vals (hs : s.Holds h xs) : (xs.map Prod.fst).Nodup :=
  hs.nodup.sublist ((List.sublist_append_left _ _).trans (List.sublist_cons_self _ _))

theorem front_eq (s : JhList) (ys : List (ℕ × V)) :
    ∃ l, s.mHead :: ys.map Prod.fst = l ++ [s.last ys] := by
  cases ys using List.reverseRecOn with
  | nil => exact ⟨[],rfl⟩
  | append_singleton ys y => exact ⟨s.mHead :: ys.map Prod.fst,by simp [last]⟩

theorem back_eq (s : JhList) (zs : List (ℕ × V)) :
    ∃ r, zs.map Prod.fst ++ [s.mTail] = s.first zs :: r := by
  cases zs with
  | nil => exact ⟨[],rfl⟩
  | cons z zs => exact ⟨zs.map Prod.fst ++ [s.mTail],rfl⟩

/-- Where a list is cut the two sides are next to each other, or a node stands between them. -/
theorem nodes_append (s : JhList) (ys zs : List (ℕ × V)) :
    ∃ l r, s.nodes (ys ++ zs) = l ++ s.last ys :: s.first zs :: r ∧
      ∀ x : ℕ × V, s.nodes (ys ++ x :: zs) = l ++ s.last ys :: x.1 :: s.first zs :: r := by
  obtain ⟨l,hl⟩ := front_eq s ys
  obtain ⟨r,hr⟩ := back_eq s zs
  refine ⟨l,r,?_,?_⟩
  · calc s.nodes (ys ++ zs)
        = (s.mHead :: ys.map Prod.fst) ++ (zs.map Prod.fst ++ [s.mTail]) := by simp [nodes]
      _ = l ++ s.last ys :: s.first zs :: r := by rw [hl, hr, List.append_assoc]; rfl
  · intro x
    calc s.nodes (ys ++ x :: zs)
        = (s.mHead :: ys.map Prod.fst) ++ x.1 :: (zs.map Prod.fst ++ [s.mTail]) := by simp [nodes]
      _ = l ++ s.last ys :: x.1 :: s.first zs :: r := by rw [hl, hr, List.append_assoc]; rfl

theorem Holds.next_last (hs : s.Holds h (ys ++ zs)) :
    h.get ListNode.next (s.last ys) = some (s.first zs) := by
  obtain ⟨l,r,hnodes,-⟩ := nodes_append s ys zs
  exact (hnodes ▸ hs.linked).next_eq

theorem Holds.prev_first (hs : s.Holds h (ys ++ zs)) :
    h.get ListNode.prev (s.first zs) = some (s.last ys) := by
  obtain ⟨l,r,hnodes,-⟩ := nodes_append s ys zs
  exact (hnodes ▸ hs.linked).prev_eq

theorem last_concat (s : JhList) (ys : List (ℕ × V)) (x : ℕ × V) : s.last (ys ++ [x]) = x.1 := by
  simp [last]

theorem iterBegin_ok (hs : s.Holds h xs) : s.iterBegin h = .ok (some (s.first xs)) := by
  have hs' : s.Holds h ([] ++ xs) := hs
  have hnext : h.get ListNode.next s.mHead = some (s.first xs) := hs'.next_last
  obtain ⟨n,hn,hfirst⟩ := CellHeap.exists_of_get hnext
  rw [iterBegin, CellHeap.read_eq_ok.mpr hn, ok_bind, hfirst]

theorem forward_last (hs : s.Holds h (ys ++ zs)) :
    forward h (some (s.last ys)) = .ok (some (s.first zs)) := by
  obtain ⟨n,hn,hfirst⟩ := CellHeap.exists_of_get hs.next_last
  rw [forward, CellHeap.read_eq_ok.mpr hn, ok_bind, hfirst]

theorem backward_first (hs : s.Holds h (ys ++ zs)) :
    backward h (some (s.first zs)) = .ok (some (s.last ys)) := by
  obtain ⟨n,hn,hlast⟩ := CellHeap.exists_of_get hs.prev_first
  rw [backward, CellHeap.read_eq_ok.mpr hn, ok_bind, hlast]

theorem deref_ok (hs : s.Holds h xs) (hx : x ∈ xs) : deref h (some x.1) = .ok x.2 := by
  obtain ⟨n,hn,hval⟩ := CellHeap.exists_of_get (hs.vals x hx)
  rw [deref, follow, CellHeap.read_eq_ok.mpr hn, ok_bind, hval]

theorem Holds.next_eq (hs : s.Holds h (ys ++ x :: zs)) :
    h.get ListNode.next x.1 = some (s.first zs) := by
  have hs' : s.Holds h ((ys ++ [x]) ++ zs) := by rwa [List.append_assoc]
  rw [← last_concat s ys x]
  exact hs'.next_last

/-- What is left of a list when a node of it has been linked out. -/
theorem Holds.linkOut (hs : s.Holds h (ys ++ x :: zs))
    (hnext : ∀ c, c ≠ x.1 → h'.get ListNode.next c =
      Function.update (h.get ListNode.next) (s.last ys) (some (s.first zs)) c)
    (hprev : ∀ c, c ≠ x.1 → h'.get ListNode.prev c =
      Function.update (h.get ListNode.prev) (s.first zs) (some (s.last ys)) c)
    (hval : ∀ c, c ≠ x.1 → h'.get ListNode.val c = h.get ListNode.val c) :
    s.Holds h' (ys ++ zs) := by
  obtain ⟨l,r,hnodes,hbetween⟩ := nodes_append s ys zs
  have hlinked := hs.linked
  have hnodup := hs.nodup
  rw [hbetween] at hlinked hnodup
  -- the node stands once among the others, so that it is none of the two that are written
  have hout : x.1 ∉ l ∧ s.last ys ≠ x.1 ∧ s.first zs ≠ x.1 ∧ x.1 ∉ r := by
    simp only [List.nodup_append, List.nodup_cons, List.mem_cons] at hnodup
    grind
  obtain ⟨hxl,hlast,hfirst,hxr⟩ := hout
  have hsub : (l ++ s.last ys :: s.first zs :: r).Nodup :=
    hnodup.sublist ((List.Sublist.refl l).append ((List.sublist_cons_self _ _).cons_cons _))
  have hxprev : h.get ListNode.prev x.1 = some (s.last ys) := hs.prev_first
  have hs' : s.Holds h ((ys ++ [x]) ++ zs) := by rwa [List.append_assoc]
  constructor
  case linked =>
    rw [hnodes]
    apply hlinked.unlink hsub
    · rw [hnext _ hlast, Function.update_self]
    · rw [hprev _ hfirst, Function.update_self]
    · intro c hc hcp
      have hcx : c ≠ x.1 := by
        rintro rfl
        simp [hxl, hxr, hfirst.symm] at hc
      rw [hnext c hcx, Function.update_of_ne hcp]
    · intro c hc hcq
      have hcx : c ≠ x.1 := by
        rintro rfl
        simp [hxl, hxr, hlast.symm] at hc
      rw [hprev c hcx, Function.update_of_ne hcq]
  case nodup =>
    rw [hnodes]
    exact hsub
  case front =>
    have hne : s.mHead ≠ x.1 := fun heq => by simp [← heq, hs.front] at hxprev
    have hne' : s.mHead ≠ s.first zs := by
      intro heq
      have hfront := hs'.prev_first
      rw [← heq, hs.front] at hfront
      cases hfront
    rw [hprev _ hne, Function.update_of_ne hne']
    exact hs.front
  case back =>
    have hxnext := hs.next_eq
    have hne : s.mTail ≠ x.1 := fun heq => by simp [← heq, hs.back] at hxnext
    have hne' : s.mTail ≠ s.last ys := by
      intro heq
      have hback := hs.next_last
      rw [← heq, hs.back] at hback
      cases hback
    rw [hnext _ hne, Function.update_of_ne hne']
    exact hs.back
  case vals =>
    intro y hy
    have hyx : y.1 ≠ x.1 := by
      have hmiddle := hs.nodup_vals
      rw [List.map_append, List.map_cons, List.nodup_middle, ← List.map_append] at hmiddle
      exact ne_of_mem_of_not_mem (List.mem_map_of_mem hy) (List.nodup_cons.mp hmiddle).1
    rw [hval _ hyx]
    exact hs.vals y (List.perm_middle.symm.subset (List.mem_cons_of_mem x hy))

/-- Where the node of x is, the nodes next to it are others. -/
theorem Holds.apart (hs : s.Holds h (ys ++ x :: zs)) : x.1 ∉ s.nodes (ys ++ zs) := by
  obtain ⟨l,r,hnodes,hbetween⟩ := nodes_append s ys zs
  have hnodup := hs.nodup
  rw [hbetween x] at hnodup
  rw [hnodes]
  simp only [List.nodup_append, List.nodup_cons, List.mem_cons, List.mem_append] at hnodup ⊢
  grind

/-- The heap in which a and b have been linked, and the node between them has been given back. -/
def unlinked (h : ListHeap V) (a c b : ℕ) : ListHeap V :=
  ((h.modify a fun n => { n with next := some b }).modify b fun n => { n with prev := some a }).clear c

theorem last_mem (s : JhList) (ys zs : List (ℕ × V)) : s.last ys ∈ s.nodes (ys ++ zs) := by
  obtain ⟨l,r,hnodes,-⟩ := nodes_append s ys zs
  rw [hnodes]
  simp

theorem first_mem (s : JhList) (ys zs : List (ℕ × V)) : s.first zs ∈ s.nodes (ys ++ zs) := by
  obtain ⟨l,r,hnodes,-⟩ := nodes_append s ys zs
  rw [hnodes]
  simp

theorem Holds.last_ne (hs : s.Holds h (ys ++ x :: zs)) : s.last ys ≠ x.1 :=
  ne_of_mem_of_not_mem (last_mem s ys zs) hs.apart

theorem Holds.first_ne (hs : s.Holds h (ys ++ x :: zs)) : s.first zs ≠ x.1 :=
  ne_of_mem_of_not_mem (first_mem s ys zs) hs.apart

theorem unlinked_holds (hs : s.Holds h (ys ++ x :: zs)) :
    s.Holds (unlinked h (s.last ys) x.1 (s.first zs)) (ys ++ zs) := by
  have hs' : s.Holds h ((ys ++ [x]) ++ zs) := by rwa [List.append_assoc]
  let h₁ := h.modify (s.last ys) fun n => { n with next := some (s.first zs) }
  let h₂ := h₁.modify (s.first zs) fun n => { n with prev := some (s.last ys) }
  obtain ⟨m,hm,-⟩ := CellHeap.exists_of_get hs.next_last
  have hnext₁ : h₁.get ListNode.next =
      Function.update (h.get ListNode.next) (s.last ys) (some (s.first zs)) := CellHeap.get_modify hm
  have hprev₁ : h₁.get ListNode.prev = h.get ListNode.prev := CellHeap.get_modify_same fun _ => rfl
  have hval₁ : h₁.get ListNode.val = h.get ListNode.val := CellHeap.get_modify_same fun _ => rfl
  obtain ⟨k,hk,-⟩ := CellHeap.exists_of_get (hprev₁ ▸ hs'.prev_first)
  have hnext₂ : h₂.get ListNode.next = h₁.get ListNode.next := CellHeap.get_modify_same fun _ => rfl
  have hprev₂ : h₂.get ListNode.prev =
      Function.update (h₁.get ListNode.prev) (s.first zs) (some (s.last ys)) := CellHeap.get_modify hk
  have hval₂ : h₂.get ListNode.val = h₁.get ListNode.val := CellHeap.get_modify_same fun _ => rfl
  apply hs.linkOut
  · intro c hc
    rw [unlinked, CellHeap.get_clear, Function.update_of_ne hc, hnext₂, hnext₁]
  · intro c hc
    rw [unlinked, CellHeap.get_clear, Function.update_of_ne hc, hprev₂, hprev₁]
  · intro c hc
    rw [unlinked, CellHeap.get_clear, Function.update_of_ne hc, hval₂, hval₁]

/-- The node is linked out and given back. -/
theorem erase_eq (hs : s.Holds h (ys ++ x :: zs)) :
    erase h (some x.1) = .ok (unlinked h (s.last ys) x.1 (s.first zs),some (s.first zs)) := by
  have hs' : s.Holds h ((ys ++ [x]) ++ zs) := by rwa [List.append_assoc]
  have hxprev : h.get ListNode.prev x.1 = some (s.last ys) := hs.prev_first
  obtain ⟨n,hn,hnnext⟩ := CellHeap.exists_of_get hs.next_eq
  have hnprev : n.prev = some (s.last ys) := by
    rw [CellHeap.get, hn, Option.bind_some] at hxprev
    exact hxprev
  -- the three nodes are there when they are written to, and when the middle one is given back
  let h₁ := h.modify (s.last ys) fun n => { n with next := some (s.first zs) }
  let h₂ := h₁.modify (s.first zs) fun n => { n with prev := some (s.last ys) }
  obtain ⟨m,hm,-⟩ := CellHeap.exists_of_get hs.next_last
  have hprev₁ : h₁.get ListNode.prev = h.get ListNode.prev := CellHeap.get_modify_same fun _ => rfl
  obtain ⟨k,hk,-⟩ := CellHeap.exists_of_get (hprev₁ ▸ hs'.prev_first)
  have hn₂ : h₂.cells x.1 = some n := by
    rw [CellHeap.modify_cells_of_ne hs.first_ne.symm, CellHeap.modify_cells_of_ne hs.last_ne.symm, hn]
  rw [erase, CellHeap.read_eq_ok.mpr hn, ok_bind]
  simp only [hnnext, hnprev]
  rw [CellHeap.write_ok hm, ok_bind, CellHeap.write_ok hk, ok_bind, CellHeap.free_ok hn₂, ok_bind]
  rfl

theorem Holds.lt_made (hs : s.Holds h xs) {c : ℕ} (hc : c ∈ s.nodes xs) : c < h.made := by
  have hfront : s.Holds h ([] ++ xs) := hs
  have hback : s.Holds h (xs ++ []) := by rwa [List.append_nil]
  have hlive {f : ListNode V → Option ℕ} {b : ℕ} (hb : h.get f c = some b) : c < h.made := by
    obtain ⟨n,hn,-⟩ := CellHeap.exists_of_get hb
    exact CellHeap.lt_made hn
  rcases List.mem_cons.mp hc with rfl | hc
  · exact hlive hfront.next_last
  · rcases List.mem_append.mp hc with hc | hc
    · obtain ⟨x,hx,rfl⟩ := List.mem_map.mp hc
      obtain ⟨n,hn,-⟩ := CellHeap.exists_of_get (hs.vals x hx)
      exact CellHeap.lt_made hn
    · obtain rfl := List.mem_singleton.mp hc
      exact hlive hback.prev_first

/-- A list into which a new node has been linked. -/
theorem Holds.linkIn (hs : s.Holds h (ys ++ zs)) (hnew : x.1 ∉ s.nodes (ys ++ zs))
    (hnext : h'.get ListNode.next = Function.update (Function.update (h.get ListNode.next) x.1
      (some (s.first zs))) (s.last ys) (some x.1))
    (hprev : h'.get ListNode.prev = Function.update (Function.update (h.get ListNode.prev) x.1
      (some (s.last ys))) (s.first zs) (some x.1))
    (hval : h'.get ListNode.val = Function.update (h.get ListNode.val) x.1 (some x.2)) :
    s.Holds h' (ys ++ x :: zs) := by
  obtain ⟨l,r,hnodes,hbetween⟩ := nodes_append s ys zs
  -- no node of the list is the new one
  have hout (c : ℕ) (hc : c ∈ s.nodes (ys ++ zs)) : c ≠ x.1 := ne_of_mem_of_not_mem hc hnew
  have hlast : s.last ys ≠ x.1 := hout _ (by simp [hnodes])
  have hfirst : s.first zs ≠ x.1 := hout _ (by simp [hnodes])
  constructor
  case linked =>
    rw [hbetween]
    apply (hnodes ▸ hs.linked).link (hnodes ▸ hs.nodup)
    · rw [hnext, Function.update_self]
    · rw [hprev, Function.update_of_ne hfirst.symm, Function.update_self]
    · rw [hnext, Function.update_of_ne hlast.symm, Function.update_self]
    · rw [hprev, Function.update_self]
    · intro c hc hcp
      have hcx := hout c (by rw [hnodes]; simp at hc ⊢; tauto)
      rw [hnext, Function.update_of_ne hcp, Function.update_of_ne hcx]
    · intro c hc hcq
      have hcx := hout c (by rw [hnodes]; simp at hc ⊢; tauto)
      rw [hprev, Function.update_of_ne hcq, Function.update_of_ne hcx]
  case nodup =>
    have hsplit : s.nodes (ys ++ x :: zs) = (l ++ [s.last ys]) ++ x.1 :: s.first zs :: r := by
      rw [hbetween, List.append_assoc]
      rfl
    have hnodes' : s.nodes (ys ++ zs) = l ++ ([s.last ys] ++ s.first zs :: r) := hnodes
    rw [hsplit, List.nodup_middle, List.append_assoc, ← hnodes']
    exact List.nodup_cons.mpr ⟨hnew,hs.nodup⟩
  case front =>
    have hne : s.mHead ≠ s.first zs := by
      intro heq
      have hfront := hs.prev_first
      rw [← heq, hs.front] at hfront
      cases hfront
    rw [hprev, Function.update_of_ne hne, Function.update_of_ne (hout _ (by simp [nodes]))]
    exact hs.front
  case back =>
    have hne : s.mTail ≠ s.last ys := by
      intro heq
      have hback := hs.next_last
      rw [← heq, hs.back] at hback
      cases hback
    rw [hnext, Function.update_of_ne hne, Function.update_of_ne (hout _ (by simp [nodes]))]
    exact hs.back
  case vals =>
    intro y hy
    rw [hval]
    rcases List.mem_cons.mp (List.perm_middle.subset hy) with rfl | hy
    · rw [Function.update_self]
    · have hyx : y.1 ≠ x.1 := by
        apply hout
        exact List.mem_cons_of_mem _ (List.mem_append_left _ (List.mem_map_of_mem hy))
      rw [Function.update_of_ne hyx]
      exact hs.vals y hy

/-- The new node is linked in behind the last one. -/
theorem pushBack_ok (hs : s.Holds h xs) (v : V) : ∃ h', s.pushBack h v = .ok h' ∧
    s.Holds h' (xs ++ [(h.made,v)]) ∧ h'.made = h.made+1 := by
  have hs' : s.Holds h (xs ++ []) := by rwa [List.append_nil]
  have hnext : h.get ListNode.next (s.last xs) = some s.mTail := hs'.next_last
  have hprev : h.get ListNode.prev s.mTail = some (s.last xs) := hs'.prev_first
  obtain ⟨n,hn,hnprev⟩ := CellHeap.exists_of_get hprev
  obtain ⟨p,hp,-⟩ := CellHeap.exists_of_get hnext
  have hlast : s.last xs ≠ h.made := (CellHeap.lt_made hp).ne
  have htail : s.mTail ≠ h.made := (CellHeap.lt_made hn).ne
  -- the node is made, then the last one points to it, then the placeholder behind points back
  let h₁ := (h.alloc ⟨some v,some s.mTail,n.prev⟩).2
  let h₂ := h₁.modify (s.last xs) fun n => { n with next := some h.made }
  let h₃ := h₂.modify s.mTail fun n => { n with prev := some h.made }
  have hlive₁ : h₁.cells (s.last xs) = some p := by
    rw [CellHeap.alloc_cells, Function.update_of_ne hlast]
    exact hp
  have hnext₁ : h₁.get ListNode.next =
      Function.update (h.get ListNode.next) h.made (some s.mTail) := CellHeap.get_alloc _ _
  have hprev₁ : h₁.get ListNode.prev = Function.update (h.get ListNode.prev) h.made n.prev :=
    CellHeap.get_alloc _ _
  have hval₁ : h₁.get ListNode.val = Function.update (h.get ListNode.val) h.made (some v) :=
    CellHeap.get_alloc _ _
  have hnext₂ : h₂.get ListNode.next =
      Function.update (h₁.get ListNode.next) (s.last xs) (some h.made) := CellHeap.get_modify hlive₁
  have hprev₂ : h₂.get ListNode.prev = h₁.get ListNode.prev := CellHeap.get_modify_same fun _ => rfl
  have hval₂ : h₂.get ListNode.val = h₁.get ListNode.val := CellHeap.get_modify_same fun _ => rfl
  have hlive₂ : h₂.get ListNode.prev s.mTail = some (s.last xs) := by
    rw [hprev₂, hprev₁, Function.update_of_ne htail]
    exact hprev
  obtain ⟨k,hk,-⟩ := CellHeap.exists_of_get hlive₂
  have hnext₃ : h₃.get ListNode.next = h₂.get ListNode.next := CellHeap.get_modify_same fun _ => rfl
  have hprev₃ : h₃.get ListNode.prev =
      Function.update (h₂.get ListNode.prev) s.mTail (some h.made) := CellHeap.get_modify hk
  have hval₃ : h₃.get ListNode.val = h₂.get ListNode.val := CellHeap.get_modify_same fun _ => rfl
  have hassign : assign h₁ n.prev (fun n => { n with next := some h.made }) = .ok h₂ := by
    rw [hnprev]
    exact CellHeap.write_ok hlive₁ _
  refine ⟨h₃,?_,?_,rfl⟩
  · rw [pushBack, CellHeap.read_eq_ok.mpr hn, ok_bind]
    calc (assign h₁ n.prev (fun n => { n with next := some h.made }) >>= fun h' =>
          h'.write s.mTail fun n => { n with prev := some h.made })
        = h₂.write s.mTail fun n => { n with prev := some h.made } := by rw [hassign, ok_bind]
      _ = .ok h₃ := CellHeap.write_ok hk _
  · apply hs'.linkIn
    · exact fun hmem => (hs'.lt_made hmem).ne rfl
    · rw [hnext₃, hnext₂, hnext₁]
      rfl
    · rw [hprev₃, hprev₂, hprev₁, hnprev]
      rfl
    · rw [hval₃, hval₂, hval₁]

theorem create_holds (h : ListHeap V) : (create h).1.Holds (create h).2 [] := by
  let h₂ := ((h.alloc ⟨none,none,none⟩).2.alloc ⟨none,none,some h.made⟩).2
  let h₃ := h₂.modify h.made fun n => { n with next := some (h.made+1) }
  have hhead : h₂.cells h.made = some ⟨none,none,none⟩ := by simp [h₂]
  have hnext : h₃.get ListNode.next = Function.update (h₂.get ListNode.next) h.made (some (h.made+1)) :=
    CellHeap.get_modify hhead
  have hprev : h₃.get ListNode.prev = h₂.get ListNode.prev := CellHeap.get_modify_same fun _ => rfl
  have hne : h.made+1 ≠ h.made := Nat.succ_ne_self _
  constructor
  case linked =>
    apply List.isChain_pair.mpr
    constructor
    · exact congrFun hnext h.made |>.trans (Function.update_self _ _ _)
    · refine (congrFun hprev (h.made+1)).trans ?_
      simp [h₂, CellHeap.get]
      rfl
  case nodup =>
    simp [nodes, create]
  case front =>
    refine (congrFun hprev h.made).trans ?_
    simp [h₂, CellHeap.get]
  case back =>
    refine (congrFun hnext (h.made+1)).trans ?_
    simp [h₂, CellHeap.get]
  case vals =>
    exact fun x hx => absurd hx List.not_mem_nil

end JhList

end JhCommon
