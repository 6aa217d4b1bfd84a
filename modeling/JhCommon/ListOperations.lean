import JhCommon.JhList
import JhCommon.Word32

/-! The other operations of `jh_list.h`: both ends, the iterators that stand at a node, and the loops
over the whole list, which take fuel. -/
namespace JhCommon
open DoublyLinked LinkedPath Word32

namespace JhList
variable {V : Type}

def pushFront (s : JhList) (h : ListHeap V) (val : V) : Exec (ListHeap V) := do
  let head ← h.read s.mHead
  -- the new node points at both neighbours, and they do not point at it yet
  let (newHead,h) := h.alloc ⟨some val,head.next,some s.mHead⟩
  let h ← assign h head.next fun n => { n with prev := some newHead }
  h.write s.mHead fun n => { n with next := some newHead }

def popFront (s : JhList) (h : ListHeap V) : Exec (ListHeap V) := do
  let head ← h.read s.mHead
  if head.next = some s.mTail then .ok h
  else
    match head.next with
    | none => .error .nullDeref
    | some temp => do
      -- the node's link is read before it is given back, and the head is read again after
      let n ← h.read temp
      let h ← h.write s.mHead fun m => { m with next := n.next }
      let h ← h.free temp
      let head ← h.read s.mHead
      assign h head.next fun m => { m with prev := some s.mHead }

def popBack (s : JhList) (h : ListHeap V) : Exec (ListHeap V) := do
  let tail ← h.read s.mTail
  if tail.prev = some s.mHead then .ok h
  else
    match tail.prev with
    | none => .error .nullDeref
    | some temp => do
      let n ← h.read temp
      let h ← h.write s.mTail fun m => { m with prev := n.prev }
      let h ← h.free temp
      let tail ← h.read s.mTail
      assign h tail.prev fun m => { m with next := some s.mTail }

/-- `iterator::insertAfter`. -/
def insertAfter (h : ListHeap V) (i : Option ℕ) (val : V) : Exec (ListHeap V) := do
  let n ← follow h i
  let (newNode,h) := h.alloc ⟨some val,n.next,i⟩
  let h ← assign h n.next fun m => { m with prev := some newNode }
  assign h i fun m => { m with next := some newNode }

/-- `iterator::insertBefore`. -/
def insertBefore (h : ListHeap V) (i : Option ℕ) (val : V) : Exec (ListHeap V) := do
  let n ← follow h i
  insertAfter h n.prev val

def rbegin (s : JhList) : Option ℕ := some s.mHead

def rend (s : JhList) (h : ListHeap V) : Exec (Option ℕ) := do
  let tail ← h.read s.mTail
  .ok tail.prev

def isEmpty (s : JhList) (h : ListHeap V) : Exec Bool := do
  let head ← h.read s.mHead
  .ok (head.next = some s.mTail)

/-- The loop of `size`, with the count in 32 bits. -/
def countFrom (h : ListHeap V) : ℕ → Option ℕ → ℕ → Exec ℕ
  | _, none, ret => .ok ret
  | 0, some _, _ => .error .outOfFuel
  | fuel+1, some temp, ret => do
    let n ← h.read temp
    countFrom h fuel n.next (add32 ret 1)

def size (fuel : ℕ) (s : JhList) (h : ListHeap V) : Exec ℕ := do
  let ret ← countFrom h fuel (some s.mHead) 0
  .ok (sub32 ret 2)

def clear (s : JhList) : ℕ → ListHeap V → Exec (ListHeap V)
  | 0, _ => .error .outOfFuel
  | fuel+1, h => do
    if ← s.isEmpty h then .ok h
    else do
      let i ← s.iterBegin h
      let (h,_) ← erase h i
      clear s fuel h

/-- The values that an iterator meets on its way to another one. -/
def walk (h : ListHeap V) (move : Option ℕ → Exec (Option ℕ)) (stop : Option ℕ) :
    ℕ → Option ℕ → Exec (List V)
  | fuel, i =>
    if i = stop then .ok []
    else match fuel with
      | 0 => .error .outOfFuel
      | fuel+1 => do
        let val ← deref h i
        let i ← move i
        let vals ← walk h move stop fuel i
        .ok (val :: vals)

/-- From `begin()` to `end()`. -/
def forwards (fuel : ℕ) (s : JhList) (h : ListHeap V) : Exec (List V) := do
  let i ← s.iterBegin h
  walk h (forward h) s.iterEnd fuel i

/-- From `rend()` to `rbegin()`. -/
def backwards (fuel : ℕ) (s : JhList) (h : ListHeap V) : Exec (List V) := do
  let i ← s.rend h
  walk h (backward h) s.rbegin fuel i

/-- The loop of the copy constructor, which copies up to the end of the other list. -/
def copyFrom (s : JhList) (stop : Option ℕ) : ℕ → Option ℕ → ListHeap V → Exec (ListHeap V)
  | fuel, i, h =>
    if i = stop then .ok h
    else match fuel with
      | 0 => .error .outOfFuel
      | fuel+1 => do
        let val ← deref h i
        let h ← s.pushBack h val
        let i ← forward h i
        copyFrom s stop fuel i h

/-- The copy constructor. -/
def copy (fuel : ℕ) (rhs : JhList) (h : ListHeap V) : Exec (JhList × ListHeap V) := do
  let (s,h) := create h
  let i ← rhs.iterBegin h
  let h ← copyFrom s rhs.iterEnd fuel i h
  .ok (s,h)

/-- The loop of the destructor. -/
def destroyFrom : ℕ → Option ℕ → ListHeap V → Exec (ListHeap V)
  | _, none, h => .ok h
  | 0, some _, _ => .error .outOfFuel
  | fuel+1, some mHead, h => do
    let n ← h.read mHead
    let h ← h.free mHead
    destroyFrom fuel n.next h

def destroy (fuel : ℕ) (s : JhList) (h : ListHeap V) : Exec (ListHeap V) :=
  destroyFrom fuel (some s.mHead) h

end JhList

namespace JhList
variable {V : Type} {s : JhList} {h h' h'' : ListHeap V} {xs ys zs : List (ℕ × V)} {x : ℕ × V} {a b : ℕ}

/-- What a call on one list does to the heap that it shares with others: it has nodes ys for xs
now. A node that has left it has been given back, and one that is not the list's is as before. -/
structure Edits (s : JhList) (h : ListHeap V) (xs : List (ℕ × V)) (h' : ListHeap V)
    (ys : List (ℕ × V)) : Prop where
  holds : s.Holds h' ys
  made : h.made ≤ h'.made
  frame : ∀ b < h.made, b ∉ s.nodes xs → h'.cells b = h.cells b
  gone : ∀ b ∈ s.nodes xs, b ∉ s.nodes ys → h'.cells b = none
  fresh : ∀ b, h.made ≤ b → (h'.cells b).isSome → b ∈ s.nodes ys
  nodes : ∀ b ∈ s.nodes ys, b ∈ s.nodes xs ∨ h.made ≤ b

theorem Edits.refl (hs : s.Holds h xs) : Edits s h xs h xs := by
  refine ⟨hs,le_refl _,fun _ _ _ => rfl,fun b hb hb' => absurd hb hb',?_,fun b hb => .inl hb⟩
  intro b hb hlive
  rw [h.fresh b hb] at hlive
  cases hlive

theorem Edits.trans (hs : s.Holds h xs) (he : Edits s h xs h' ys) (he' : Edits s h' ys h'' zs) :
    Edits s h xs h'' zs := by
  have hout (b : ℕ) (hb : b < h.made) (hbx : b ∉ s.nodes xs) : b ∉ s.nodes ys := by
    intro hby
    rcases he.nodes b hby with hold | hnew
    · exact hbx hold
    · omega
  constructor
  case holds => exact he'.holds
  case made => exact he.made.trans he'.made
  case frame =>
    intro b hb hbx
    rw [he'.frame b (hb.trans_le he.made) (hout b hb hbx), he.frame b hb hbx]
  case gone =>
    intro b hbx hbz
    by_cases hby : b ∈ s.nodes ys
    · exact he'.gone b hby hbz
    · rw [he'.frame b ((hs.lt_made hbx).trans_le he.made) hby, he.gone b hbx hby]
  case fresh =>
    intro b hb hlive
    by_cases hb' : h'.made ≤ b
    · exact he'.fresh b hb' hlive
    · by_cases hby : b ∈ s.nodes ys
      · by_contra hbz
        rw [he'.gone b hby hbz] at hlive
        cases hlive
      · rw [he'.frame b (by omega) hby] at hlive
        exact absurd (he.fresh b hb hlive) hby
  case nodes =>
    intro b hbz
    rcases he'.nodes b hbz with hby | hnew
    · exact he.nodes b hby
    · exact .inr (he.made.trans hnew)

theorem mem_nodes : b ∈ s.nodes xs ↔ b = s.mHead ∨ b ∈ xs.map Prod.fst ∨ b = s.mTail := by
  simp [nodes]

theorem mem_nodes_middle : b ∈ s.nodes (ys ++ x :: zs) ↔ b = x.1 ∨ b ∈ s.nodes (ys ++ zs) := by
  simp only [mem_nodes, List.map_append, List.map_cons, List.mem_append, List.mem_cons]
  tauto

/-- Only the neighbours of the node have been written to. -/
theorem unlinked_edits (hs : s.Holds h (ys ++ x :: zs)) :
    Edits s h (ys ++ x :: zs) (unlinked h (s.last ys) x.1 (s.first zs)) (ys ++ zs) := by
  let h' := unlinked h (s.last ys) x.1 (s.first zs)
  have hsame (b : ℕ) (hb : b ∉ s.nodes (ys ++ x :: zs)) : h'.cells b = h.cells b := by
    rw [mem_nodes_middle, not_or] at hb
    have hlast : b ≠ s.last ys := fun he => hb.2 (he ▸ last_mem s ys zs)
    have hfirst : b ≠ s.first zs := fun he => hb.2 (he ▸ first_mem s ys zs)
    exact (CellHeap.clear_cells_of_ne hb.1).trans
      ((CellHeap.modify_cells_of_ne hfirst).trans (CellHeap.modify_cells_of_ne hlast))
  have hgone : h'.cells x.1 = none := Function.update_self _ _ _
  refine ⟨unlinked_holds hs,le_refl _,fun b _ hb => hsame b hb,?_,?_,?_⟩
  · intro b hb hb'
    rw [mem_nodes_middle] at hb
    rw [hb.resolve_right hb']
    exact hgone
  · intro b hb hlive
    exact absurd (CellHeap.lt_made (Option.some_get hlive).symm) (not_lt.mpr hb)
  · exact fun b hb => .inl (mem_nodes_middle.mpr (.inr hb))

/-- A call that has written to two neighbours, and made one node between them. -/
theorem Edits.of_inserted {val : V} (hs' : s.Holds h' (ys ++ (h.made,val) :: zs)) (hmade : h'.made = h.made+1)
    (hframe : ∀ b, b ≠ h.made → b ≠ s.last ys → b ≠ s.first zs → h'.cells b = h.cells b) :
    Edits s h (ys ++ zs) h' (ys ++ (h.made,val) :: zs) := by
  refine ⟨hs',by omega,?_,?_,?_,?_⟩
  · intro b hb hbn
    exact hframe b hb.ne (fun he => hbn (he ▸ last_mem s ys zs)) (fun he => hbn (he ▸ first_mem s ys zs))
  · exact fun b hb hb' => absurd (mem_nodes_middle.mpr (.inr hb)) hb'
  · intro b hb hlive
    have hlt := CellHeap.lt_made (Option.some_get hlive).symm
    have hbmade : b = h.made := by omega
    exact mem_nodes_middle.mpr (.inl hbmade)
  · intro b hb
    rcases mem_nodes_middle.mp hb with rfl | hb
    · exact .inr (le_refl _)
    · exact .inl hb

/-- `insertAfter` at the node in front of zs: a placeholder or an element. -/
theorem insertAfter_edits (hs : s.Holds h (ys ++ zs)) (val : V) :
    ∃ h', insertAfter h (some (s.last ys)) val = .ok h' ∧
      Edits s h (ys ++ zs) h' (ys ++ (h.made,val) :: zs) := by
  obtain ⟨n,hn,hnnext⟩ := CellHeap.exists_of_get hs.next_last
  obtain ⟨m,hm,-⟩ := CellHeap.exists_of_get hs.prev_first
  have hlast : s.last ys ≠ h.made := (CellHeap.lt_made hn).ne
  have hfirst : s.first zs ≠ h.made := (CellHeap.lt_made hm).ne
  -- the node is made, then the next one points back to it, then the iterator's node points to it
  let h₁ := (h.alloc ⟨some val,n.next,some (s.last ys)⟩).2
  let h₂ := h₁.modify (s.first zs) fun m => { m with prev := some h.made }
  let h₃ := h₂.modify (s.last ys) fun m => { m with next := some h.made }
  have hlive₁ : h₁.cells (s.first zs) = some m := by
    rw [CellHeap.alloc_cells, Function.update_of_ne hfirst, hm]
  -- field by field, what each of the three has done
  have hnext₁ : h₁.get ListNode.next = Function.update (h.get ListNode.next) h.made n.next :=
    CellHeap.get_alloc _ _
  have hprev₁ : h₁.get ListNode.prev =
      Function.update (h.get ListNode.prev) h.made (some (s.last ys)) := CellHeap.get_alloc _ _
  have hval₁ : h₁.get ListNode.val = Function.update (h.get ListNode.val) h.made (some val) :=
    CellHeap.get_alloc _ _
  have hnext₂ : h₂.get ListNode.next = h₁.get ListNode.next := CellHeap.get_modify_same fun _ => rfl
  have hprev₂ : h₂.get ListNode.prev =
      Function.update (h₁.get ListNode.prev) (s.first zs) (some h.made) := CellHeap.get_modify hlive₁
  have hval₂ : h₂.get ListNode.val = h₁.get ListNode.val := CellHeap.get_modify_same fun _ => rfl
  have hlive₂ : h₂.get ListNode.next (s.last ys) = some (s.first zs) := by
    rw [hnext₂, hnext₁, Function.update_of_ne hlast, hs.next_last]
  obtain ⟨k,hk,-⟩ := CellHeap.exists_of_get hlive₂
  have hnext₃ : h₃.get ListNode.next =
      Function.update (h₂.get ListNode.next) (s.last ys) (some h.made) := CellHeap.get_modify hk
  have hprev₃ : h₃.get ListNode.prev = h₂.get ListNode.prev := CellHeap.get_modify_same fun _ => rfl
  have hval₃ : h₃.get ListNode.val = h₂.get ListNode.val := CellHeap.get_modify_same fun _ => rfl
  have hfirstWrite : assign h₁ n.next (fun m => { m with prev := some h.made }) = .ok h₂ := by
    rw [hnnext]
    exact CellHeap.write_ok hlive₁ _
  refine ⟨h₃,?_,Edits.of_inserted ?_ rfl ?_⟩
  · rw [insertAfter, follow, CellHeap.read_eq_ok.mpr hn, ok_bind]
    calc (assign h₁ n.next (fun m => { m with prev := some h.made }) >>= fun h' =>
          assign h' (some (s.last ys)) fun m => { m with next := some h.made })
        = assign h₂ (some (s.last ys)) fun m => { m with next := some h.made } := by
          rw [hfirstWrite, ok_bind]
      _ = .ok h₃ := CellHeap.write_ok hk _
  · apply hs.linkIn
    · exact fun hmem => (hs.lt_made hmem).ne rfl
    · rw [hnext₃, hnext₂, hnext₁, hnnext]
    · rw [hprev₃, hprev₂, hprev₁]
    · rw [hval₃, hval₂, hval₁]
  · intro b hb hblast hbfirst
    rw [CellHeap.modify_cells_of_ne hblast, CellHeap.modify_cells_of_ne hbfirst, CellHeap.alloc_cells,
      Function.update_of_ne hb]

/-- `insertBefore` at the first node of zs, or at the end. -/
theorem insertBefore_edits (hs : s.Holds h (ys ++ zs)) (val : V) :
    ∃ h', insertBefore h (some (s.first zs)) val = .ok h' ∧
      Edits s h (ys ++ zs) h' (ys ++ (h.made,val) :: zs) := by
  obtain ⟨n,hn,hprev⟩ := CellHeap.exists_of_get hs.prev_first
  obtain ⟨h',hinsert,he⟩ := insertAfter_edits hs val
  refine ⟨h',?_,he⟩
  rw [insertBefore, follow, CellHeap.read_eq_ok.mpr hn, ok_bind, hprev, hinsert]

/-- Pushing to the front is inserting behind the placeholder. -/
theorem pushFront_edits (hs : s.Holds h xs) (val : V) :
    ∃ h', s.pushFront h val = .ok h' ∧ Edits s h xs h' ((h.made,val) :: xs) := by
  have hs' : s.Holds h ([] ++ xs) := hs
  exact insertAfter_edits hs' val

/-- A push to the back writes to the last node and to the placeholder. -/
theorem pushBack_frame {val : V} (hpush : s.pushBack h val = .ok h')
    (hprev : h.get ListNode.prev s.mTail = some a) (hmade : b ≠ h.made) (hlast : b ≠ a)
    (htail : b ≠ s.mTail) : h'.cells b = h.cells b := by
  obtain ⟨n,hn,hnprev⟩ := CellHeap.exists_of_get hprev
  rw [pushBack, CellHeap.read_eq_ok.mpr hn, ok_bind] at hpush
  obtain ⟨h₁,hassign,hwrite⟩ := bind_eq_ok.mp hpush
  rw [hnprev] at hassign
  rw [CellHeap.write_inv hwrite, CellHeap.modify_cells_of_ne htail, CellHeap.write_inv hassign,
    CellHeap.modify_cells_of_ne hlast]
  exact Function.update_of_ne hmade _ _

theorem pushBack_edits (hs : s.Holds h xs) (val : V) :
    ∃ h', s.pushBack h val = .ok h' ∧ Edits s h xs h' (xs ++ [(h.made,val)]) := by
  obtain ⟨h',hpush,hs',hmade⟩ := pushBack_ok hs val
  have hback : s.Holds h (xs ++ []) := by rwa [List.append_nil]
  have he : Edits s h (xs ++ []) h' (xs ++ (h.made,val) :: []) :=
    .of_inserted hs' hmade fun b hb hlast hfirst => pushBack_frame hpush hback.prev_first hb hlast hfirst
  rw [List.append_nil] at he
  exact ⟨h',hpush,he⟩

/-- A node is linked out and given back. -/
theorem erase_edits (hs : s.Holds h (ys ++ x :: zs)) :
    ∃ h', erase h (some x.1) = .ok (h',some (s.first zs)) ∧
      Edits s h (ys ++ x :: zs) h' (ys ++ zs) :=
  ⟨_,erase_eq hs,unlinked_edits hs⟩

/-- Erasing does nothing where there is no element: at NULL or at a placeholder. -/
theorem erase_placeholder (hs : s.Holds h xs) (ha : a = s.mHead ∨ a = s.mTail) :
    erase h (some a) = .ok (h,some a) := by
  have hlive : ∃ n, h.cells a = some n ∧ (n.next = none ∨ n.prev = none) := by
    rcases ha with rfl | rfl
    · have hfront : s.Holds h ([] ++ xs) := hs
      have hnext : h.get ListNode.next s.mHead = some (s.first xs) := hfront.next_last
      obtain ⟨n,hn,-⟩ := CellHeap.exists_of_get hnext
      have hprev := hs.front
      rw [CellHeap.get, hn, Option.bind_some] at hprev
      exact ⟨n,hn,.inr hprev⟩
    · have hback : s.Holds h (xs ++ []) := by rwa [List.append_nil]
      have hprev : h.get ListNode.prev s.mTail = some (s.last xs) := hback.prev_first
      obtain ⟨n,hn,-⟩ := CellHeap.exists_of_get hprev
      have hnext := hs.back
      rw [CellHeap.get, hn, Option.bind_some] at hnext
      exact ⟨n,hn,.inl hnext⟩
  obtain ⟨n,hn,hnone⟩ := hlive
  rw [erase, CellHeap.read_eq_ok.mpr hn, ok_bind]
  rcases hnone with hnone | hnone
  · simp only [hnone]
  · cases n.next <;> simp only [hnone]

/-- The ends of an empty list point at each other, and only those. -/
theorem next_head_eq (hs : s.Holds h xs) :
    ∃ n, h.cells s.mHead = some n ∧ n.next = some (s.first xs) ∧
      (n.next = some s.mTail ↔ xs = []) := by
  have hfront : s.Holds h ([] ++ xs) := hs
  have hnext : h.get ListNode.next s.mHead = some (s.first xs) := hfront.next_last
  obtain ⟨n,hn,hfirst⟩ := CellHeap.exists_of_get hnext
  refine ⟨n,hn,hfirst,?_⟩
  rw [hfirst, Option.some_inj]
  cases xs with
  | nil => exact iff_of_true rfl rfl
  | cons x xs =>
    refine iff_of_false ?_ (List.cons_ne_nil x xs)
    intro heq
    have hfirst' : s.Holds h ([] ++ x :: xs) := hs
    apply hfirst'.apart
    rw [mem_nodes]
    exact .inr (.inr heq)

theorem prev_tail_eq (hs : s.Holds h xs) :
    ∃ n, h.cells s.mTail = some n ∧ n.prev = some (s.last xs) ∧
      (n.prev = some s.mHead ↔ xs = []) := by
  have hback : s.Holds h (xs ++ []) := by rwa [List.append_nil]
  have hprev : h.get ListNode.prev s.mTail = some (s.last xs) := hback.prev_first
  obtain ⟨n,hn,hlast⟩ := CellHeap.exists_of_get hprev
  refine ⟨n,hn,hlast,?_⟩
  rw [hlast, Option.some_inj]
  cases xs using List.reverseRecOn with
  | nil => exact iff_of_true rfl rfl
  | append_singleton xs x =>
    refine iff_of_false ?_ (by simp)
    intro heq
    rw [last_concat] at heq
    apply Holds.apart hs
    rw [mem_nodes]
    exact .inl heq

theorem Holds.first_ne_head (hs : s.Holds h (ys ++ zs)) : s.first zs ≠ s.mHead := by
  intro heq
  have hprev := hs.prev_first
  rw [heq, hs.front] at hprev
  cases hprev

theorem Holds.last_ne_tail (hs : s.Holds h (ys ++ zs)) : s.last ys ≠ s.mTail := by
  intro heq
  have hnext := hs.next_last
  rw [heq, hs.back] at hnext
  cases hnext

/-- `pop_front` is linking out and giving back, in an order of its own. -/
theorem popFront_edits (hs : s.Holds h (x :: zs)) :
    ∃ h', s.popFront h = .ok h' ∧ Edits s h (x :: zs) h' zs := by
  have hs' : s.Holds h ([] ++ x :: zs) := hs
  have hback : s.Holds h (([] ++ [x]) ++ zs) := hs
  obtain ⟨n,hn,hnfirst,hnil⟩ := next_head_eq hs
  have hntail : n.next ≠ some s.mTail := fun he => List.cons_ne_nil x zs (hnil.mp he)
  obtain ⟨t,ht,htnext⟩ := CellHeap.exists_of_get hs'.next_eq
  obtain ⟨m,hm,-⟩ := CellHeap.exists_of_get hback.prev_first
  have hhead : s.mHead ≠ x.1 := hs'.last_ne
  let h₁ := h.modify s.mHead fun m => { m with next := some (s.first zs) }
  have ht₁ : h₁.cells x.1 = some t := by rw [CellHeap.modify_cells_of_ne hhead.symm, ht]
  have hn₂ : (h₁.clear x.1).cells s.mHead = some { n with next := some (s.first zs) } := by
    rw [CellHeap.clear_cells_of_ne hhead, CellHeap.modify_cells, Function.update_self, hn, Option.map_some]
  have hm₂ : (h₁.clear x.1).cells (s.first zs) = some m := by
    rw [CellHeap.clear_cells_of_ne hs'.first_ne, CellHeap.modify_cells_of_ne hback.first_ne_head, hm]
  refine ⟨_,?_,unlinked_edits hs'⟩
  rw [popFront, CellHeap.read_eq_ok.mpr hn, ok_bind, if_neg hntail]
  simp only [hnfirst]
  rw [show s.first (x :: zs) = x.1 from rfl, CellHeap.read_eq_ok.mpr ht, ok_bind, htnext,
    CellHeap.write_ok hn, ok_bind, CellHeap.free_ok ht₁, ok_bind, CellHeap.read_eq_ok.mpr hn₂, ok_bind]
  exact (CellHeap.write_ok hm₂ _).trans (congrArg _ (CellHeap.modify_clear hs'.first_ne.symm))

theorem popBack_edits (hs : s.Holds h (ys ++ [x])) :
    ∃ h', s.popBack h = .ok h' ∧ Edits s h (ys ++ [x]) h' ys := by
  obtain ⟨n,hn,hnlast,hnil⟩ := prev_tail_eq hs
  have hnhead : n.prev ≠ some s.mHead := by
    intro he
    have := hnil.mp he
    simp at this
  have hxprev : h.get ListNode.prev x.1 = some (s.last ys) := hs.prev_first
  obtain ⟨t,ht,htprev⟩ := CellHeap.exists_of_get hxprev
  obtain ⟨m,hm,-⟩ := CellHeap.exists_of_get hs.next_last
  have htail : s.mTail ≠ x.1 := hs.first_ne
  let h₁ := h.modify s.mTail fun m => { m with prev := some (s.last ys) }
  have ht₁ : h₁.cells x.1 = some t := by rw [CellHeap.modify_cells_of_ne htail.symm, ht]
  have hn₂ : (h₁.clear x.1).cells s.mTail = some { n with prev := some (s.last ys) } := by
    rw [CellHeap.clear_cells_of_ne htail, CellHeap.modify_cells, Function.update_self, hn, Option.map_some]
  have hm₂ : (h₁.clear x.1).cells (s.last ys) = some m := by
    rw [CellHeap.clear_cells_of_ne hs.last_ne, CellHeap.modify_cells_of_ne hs.last_ne_tail, hm]
  -- the same three changes as in erase, in another order
  have hsame : (h₁.clear x.1).modify (s.last ys) (fun m => { m with next := some s.mTail }) =
      unlinked h (s.last ys) x.1 s.mTail := by
    rw [CellHeap.modify_clear hs.last_ne.symm, CellHeap.modify_modify hs.last_ne_tail.symm]
    rfl
  have he := unlinked_edits hs
  rw [List.append_nil] at he
  refine ⟨_,?_,he⟩
  rw [popBack, CellHeap.read_eq_ok.mpr hn, ok_bind, if_neg hnhead]
  simp only [hnlast]
  rw [last_concat, CellHeap.read_eq_ok.mpr ht, ok_bind, htprev, CellHeap.write_ok hn, ok_bind,
    CellHeap.free_ok ht₁, ok_bind, CellHeap.read_eq_ok.mpr hn₂, ok_bind]
  exact (CellHeap.write_ok hm₂ _).trans (congrArg _ hsame)

/-- Nothing is popped from an empty list. -/
theorem popFront_nil (hs : s.Holds h []) : s.popFront h = .ok h := by
  obtain ⟨n,hn,-,hnil⟩ := next_head_eq hs
  rw [popFront, CellHeap.read_eq_ok.mpr hn, ok_bind, if_pos (hnil.mpr rfl)]

theorem popBack_nil (hs : s.Holds h []) : s.popBack h = .ok h := by
  obtain ⟨n,hn,-,hnil⟩ := prev_tail_eq hs
  rw [popBack, CellHeap.read_eq_ok.mpr hn, ok_bind, if_pos (hnil.mpr rfl)]

theorem isEmpty_eq (hs : s.Holds h xs) : s.isEmpty h = .ok xs.isEmpty := by
  obtain ⟨n,hn,-,hnil⟩ := next_head_eq hs
  have hflag : decide (n.next = some s.mTail) = xs.isEmpty := by
    rw [Bool.eq_iff_iff, decide_eq_true_iff, hnil, List.isEmpty_iff]
  rw [isEmpty, CellHeap.read_eq_ok.mpr hn, ok_bind, hflag]

theorem clear_edits (hs : s.Holds h xs) {fuel : ℕ} (hfuel : xs.length < fuel) :
    ∃ h', s.clear fuel h = .ok h' ∧ Edits s h xs h' [] := by
  induction xs generalizing h fuel with
  | nil =>
    obtain ⟨fuel,rfl⟩ := Nat.exists_eq_add_one_of_ne_zero hfuel.ne'
    refine ⟨h,?_,.refl hs⟩
    rw [clear, isEmpty_eq hs]
    rfl
  | cons x xs ih =>
    obtain ⟨fuel,rfl⟩ := Nat.exists_eq_add_one_of_ne_zero (Nat.ne_zero_of_lt hfuel)
    have hs' : s.Holds h ([] ++ x :: xs) := hs
    obtain ⟨h₁,herase,he⟩ := erase_edits hs'
    obtain ⟨h',hclear,he'⟩ := ih he.holds (Nat.lt_of_succ_lt_succ hfuel)
    refine ⟨h',?_,he.trans hs he'⟩
    rw [clear, isEmpty_eq hs, ok_bind, iterBegin_ok hs, ok_bind]
    rw [show s.first (x :: xs) = x.1 from rfl, herase]
    exact hclear

theorem countFrom_eq {p : Option ℕ} {l : List ℕ} (hpath : Path (h.get ListNode.next) p l none)
    (hlive : ∀ b ∈ l, (h.cells b).isSome) {fuel : ℕ} (hfuel : l.length ≤ fuel) (ret : ℕ) :
    countFrom h fuel p (ret % 2^32) = .ok ((ret+l.length) % 2^32) := by
  induction l generalizing p fuel ret with
  | nil =>
    obtain rfl : p = none := hpath
    cases fuel <;> rfl
  | cons b l ih =>
    obtain ⟨rfl,hrest⟩ := hpath
    obtain ⟨fuel,rfl⟩ := Nat.exists_eq_add_one_of_ne_zero (Nat.ne_zero_of_lt hfuel)
    obtain ⟨n,hn⟩ := Option.isSome_iff_exists.mp (hlive b List.mem_cons_self)
    have hnext : h.get ListNode.next b = n.next := by rw [CellHeap.get, hn, Option.bind_some]
    rw [hnext] at hrest
    rw [countFrom, CellHeap.read_eq_ok.mpr hn, ok_bind, add32_mod,
      ih hrest (fun c hc => hlive c (List.mem_cons_of_mem b hc)) (Nat.le_of_succ_le_succ hfuel),
      List.length_cons, Nat.add_assoc, Nat.add_comm 1]

/-- Following the links from a placeholder visits all nodes, up to the other one. -/
theorem Holds.forward_path (hs : s.Holds h xs) :
    Path (h.get ListNode.next) (some s.mHead) (s.nodes xs) none := by
  have hlinked : Linked (h.get ListNode.next) (h.get ListNode.prev)
      ((s.mHead :: xs.map Prod.fst) ++ [s.mTail]) := hs.linked
  exact hlinked.path hs.back

theorem Holds.backward_path (hs : s.Holds h xs) :
    Path (h.get ListNode.prev) (some s.mTail) (s.nodes xs).reverse none := by
  have hnodes : (s.nodes xs).reverse = (s.mTail :: (xs.map Prod.fst).reverse) ++ [s.mHead] := by
    simp [nodes]
  have hlinked := hs.linked.reverse
  rw [hnodes] at hlinked ⊢
  exact hlinked.path hs.front

theorem Holds.live (hs : s.Holds h xs) (hb : b ∈ s.nodes xs) : (h.cells b).isSome := by
  rcases mem_nodes.mp hb with rfl | hb | rfl
  · obtain ⟨n,hn,-⟩ := next_head_eq hs
    rw [hn]
    rfl
  · obtain ⟨x,hx,rfl⟩ := List.mem_map.mp hb
    obtain ⟨n,hn,-⟩ := CellHeap.exists_of_get (hs.vals x hx)
    rw [hn]
    rfl
  · obtain ⟨n,hn,-⟩ := prev_tail_eq hs
    rw [hn]
    rfl

theorem nodes_length (s : JhList) (xs : List (ℕ × V)) : (s.nodes xs).length = xs.length+2 := by
  simp [nodes]

/-- The count is that of the elements, in 32 bits. -/
theorem size_eq (hs : s.Holds h xs) {fuel : ℕ} (hfuel : xs.length+2 ≤ fuel) :
    s.size fuel h = .ok (xs.length % 2^32) := by
  have hnodes : (s.nodes xs).length ≤ fuel := by rwa [nodes_length]
  have hcount := countFrom_eq hs.forward_path (fun b hb => hs.live hb) hnodes 0
  rw [Nat.zero_mod, Nat.zero_add, nodes_length] at hcount
  have hsub : sub32 ((xs.length+2) % 2^32) 2 = xs.length % 2^32 := by
    unfold sub32
    omega
  rw [size, hcount, ok_bind, hsub]

section Walks
variable {move : Option ℕ → Exec (Option ℕ)} {stop i : Option ℕ} {fuel : ℕ}

theorem walk_stop : walk h move stop fuel stop = .ok [] := by
  cases fuel <;> rw [walk, if_pos rfl]

theorem walk_step (hi : i ≠ stop) : walk h move stop (fuel+1) i = (do
    let val ← deref h i
    let i ← move i
    let vals ← walk h move stop fuel i
    .ok (val :: vals)) := by
  rw [walk, if_neg hi]

theorem copyFrom_stop : copyFrom s stop fuel stop h = .ok h := by
  cases fuel <;> rw [copyFrom, if_pos rfl]

theorem copyFrom_step (hi : i ≠ stop) : copyFrom s stop (fuel+1) i h = (do
    let val ← deref h i
    let h ← s.pushBack h val
    let i ← forward h i
    copyFrom s stop fuel i h) := by
  rw [copyFrom, if_neg hi]

end Walks

theorem Holds.walk_forward (hs : s.Holds h (ys ++ zs)) {fuel : ℕ} (hfuel : zs.length ≤ fuel) :
    walk h (forward h) s.iterEnd fuel (some (s.first zs)) = .ok (zs.map Prod.snd) := by
  induction zs generalizing ys fuel with
  | nil => exact walk_stop
  | cons z zs ih =>
    obtain ⟨fuel,rfl⟩ := Nat.exists_eq_add_one_of_ne_zero (Nat.ne_zero_of_lt hfuel)
    have hs' : s.Holds h ((ys ++ [z]) ++ zs) := by rwa [List.append_assoc]
    have hstop : some (s.first (z :: zs)) ≠ s.iterEnd := by
      intro heq
      exact hs.apart (mem_nodes.mpr (.inr (.inr (Option.some.inj heq))))
    have hmove := forward_last hs'
    rw [last_concat] at hmove
    rw [walk_step hstop, show s.first (z :: zs) = z.1 from rfl, deref_ok hs (by simp), ok_bind, hmove,
      ok_bind, ih hs' (Nat.le_of_succ_le_succ hfuel), ok_bind]
    rfl

theorem Holds.walk_backward (hs : s.Holds h (ys ++ zs)) {fuel : ℕ} (hfuel : ys.length ≤ fuel) :
    walk h (backward h) s.rbegin fuel (some (s.last ys)) = .ok (ys.map Prod.snd).reverse := by
  induction ys using List.reverseRecOn generalizing zs fuel with
  | nil => exact walk_stop
  | append_singleton ys y ih =>
    rw [List.length_append, List.length_singleton] at hfuel
    obtain ⟨fuel,rfl⟩ := Nat.exists_eq_add_one_of_ne_zero (Nat.ne_zero_of_lt hfuel)
    have hs' : s.Holds h (ys ++ y :: zs) := by rwa [List.append_assoc] at hs
    have hstop : some (s.last (ys ++ [y])) ≠ s.rbegin := by
      rw [last_concat]
      intro heq
      exact hs'.apart (mem_nodes.mpr (.inl (Option.some.inj heq)))
    have hmove : backward h (some y.1) = .ok (some (s.last ys)) := backward_first hs'
    rw [walk_step hstop, last_concat, deref_ok hs (by simp), ok_bind, hmove, ok_bind,
      ih hs' (Nat.le_of_succ_le_succ hfuel), ok_bind]
    simp

/-- The two traversals show the values in order and in the opposite order. -/
theorem forwards_eq (hs : s.Holds h xs) {fuel : ℕ} (hfuel : xs.length ≤ fuel) :
    s.forwards fuel h = .ok (xs.map Prod.snd) := by
  have hs' : s.Holds h ([] ++ xs) := hs
  rw [forwards, iterBegin_ok hs, ok_bind, hs'.walk_forward hfuel]

theorem backwards_eq (hs : s.Holds h xs) {fuel : ℕ} (hfuel : xs.length ≤ fuel) :
    s.backwards fuel h = .ok (xs.map Prod.snd).reverse := by
  have hs' : s.Holds h (xs ++ []) := by rwa [List.append_nil]
  obtain ⟨n,hn,hlast,-⟩ := prev_tail_eq hs
  rw [backwards, rend, CellHeap.read_eq_ok.mpr hn, ok_bind, ok_bind, hlast, hs'.walk_backward hfuel]

/-- A list does not mind what happens to nodes of others. -/
theorem Holds.keep (hs : s.Holds h xs) (hsame : ∀ b ∈ s.nodes xs, h'.cells b = h.cells b) :
    s.Holds h' xs := by
  have hget {f : ListNode V → Option ℕ} (b : ℕ) (hb : b ∈ s.nodes xs) : h'.get f b = h.get f b := by
    rw [CellHeap.get, hsame b hb, CellHeap.get]
  constructor
  case linked =>
    apply hs.linked.congr
    · exact fun c hc => hget c (List.mem_of_mem_dropLast hc)
    · exact fun c hc => hget c (List.mem_of_mem_tail hc)
  case nodup => exact hs.nodup
  case front => rw [hget _ (mem_nodes.mpr (.inl rfl)), hs.front]
  case back => rw [hget _ (mem_nodes.mpr (.inr (.inr rfl))), hs.back]
  case vals =>
    intro x hx
    rw [CellHeap.get, hsame x.1 (mem_nodes.mpr (.inr (.inl (List.mem_map_of_mem hx))))]
    exact hs.vals x hx

/-- What is left of the other list is pushed, value by value. -/
theorem copyFrom_edits {r : JhList} {ws : List (ℕ × V)} (hr : r.Holds h (ys ++ zs))
    (hs : s.Holds h ws) (hapart : ∀ b ∈ r.nodes (ys ++ zs), b ∉ s.nodes ws) {fuel : ℕ}
    (hfuel : zs.length ≤ fuel) :
    ∃ h' vs, copyFrom s r.iterEnd fuel (some (r.first zs)) h = .ok h' ∧ Edits s h ws h' (ws ++ vs) ∧
      vs.map Prod.snd = zs.map Prod.snd := by
  induction zs generalizing h ys ws fuel with
  | nil =>
    refine ⟨h,[],?_,?_,rfl⟩
    · exact copyFrom_stop
    · rw [List.append_nil]
      exact .refl hs
  | cons z zs ih =>
    obtain ⟨fuel,rfl⟩ := Nat.exists_eq_add_one_of_ne_zero (Nat.ne_zero_of_lt hfuel)
    obtain ⟨h₁,hpush,he⟩ := pushBack_edits hs z.2
    have hr₁ : r.Holds h₁ ((ys ++ [z]) ++ zs) := by
      rw [List.append_assoc]
      exact hr.keep fun b hb => he.frame b (hr.lt_made hb) (hapart b hb)
    have hapart₁ (b : ℕ) (hb : b ∈ r.nodes ((ys ++ [z]) ++ zs)) : b ∉ s.nodes (ws ++ [(h.made,z.2)]) := by
      rw [List.append_assoc] at hb
      intro hbs
      rcases he.nodes b hbs with hold | hnew
      · exact hapart b hb hold
      · have := hr.lt_made hb
        omega
    obtain ⟨h',vs,hcopy,he',hvals⟩ := ih hr₁ he.holds hapart₁ (Nat.le_of_succ_le_succ hfuel)
    have hstop : some (r.first (z :: zs)) ≠ r.iterEnd := by
      intro heq
      exact hr.apart (mem_nodes.mpr (.inr (.inr (Option.some.inj heq))))
    have hmove := forward_last hr₁
    rw [last_concat] at hmove
    refine ⟨h',(h.made,z.2) :: vs,?_,?_,?_⟩
    · rw [copyFrom_step hstop, show r.first (z :: zs) = z.1 from rfl, deref_ok hr (by simp), ok_bind,
        hpush, ok_bind, hmove, ok_bind, hcopy]
    · have he₂ := he.trans hs he'
      rwa [List.append_assoc] at he₂
    · rw [List.map_cons, hvals, List.map_cons]

/-- All nodes are given back. -/
theorem destroyFrom_ok {p : Option ℕ} {l : List ℕ} (hpath : Path (h.get ListNode.next) p l none)
    (hnodup : l.Nodup) (hlive : ∀ b ∈ l, (h.cells b).isSome) {fuel : ℕ} (hfuel : l.length ≤ fuel) :
    ∃ h', destroyFrom fuel p h = .ok h' ∧ h'.made = h.made ∧ (∀ b ∈ l, h'.cells b = none) ∧
      ∀ b ∉ l, h'.cells b = h.cells b := by
  induction l generalizing h p fuel with
  | nil =>
    obtain rfl : p = none := hpath
    refine ⟨h,?_,rfl,?_,fun _ _ => rfl⟩
    · cases fuel <;> rfl
    · exact fun b hb => absurd hb List.not_mem_nil
  | cons c l ih =>
    obtain ⟨rfl,hrest⟩ := hpath
    obtain ⟨fuel,rfl⟩ := Nat.exists_eq_add_one_of_ne_zero (Nat.ne_zero_of_lt hfuel)
    obtain ⟨n,hn⟩ := Option.isSome_iff_exists.mp (hlive c List.mem_cons_self)
    obtain ⟨hcl,hl⟩ := List.nodup_cons.mp hnodup
    have hnext : h.get ListNode.next c = n.next := by rw [CellHeap.get, hn, Option.bind_some]
    rw [hnext] at hrest
    have hpath₁ : Path ((h.clear c).get ListNode.next) n.next l none := by
      rw [CellHeap.get_clear]
      exact hrest.update_of_notMem hcl none
    have hlive₁ (b : ℕ) (hb : b ∈ l) : ((h.clear c).cells b).isSome := by
      rw [CellHeap.clear_cells_of_ne (ne_of_mem_of_not_mem hb hcl)]
      exact hlive b (List.mem_cons_of_mem c hb)
    obtain ⟨h',hdestroy,hmade,hgone,hsame⟩ := ih hpath₁ hl hlive₁ (Nat.le_of_succ_le_succ hfuel)
    refine ⟨h',?_,hmade,?_,?_⟩
    · rw [destroyFrom, CellHeap.read_eq_ok.mpr hn, ok_bind, CellHeap.free_ok hn, ok_bind, hdestroy]
    · intro b hb
      rcases List.mem_cons.mp hb with rfl | hb
      · rw [hsame b hcl, CellHeap.clear_cells, Function.update_self]
      · exact hgone b hb
    · intro b hb
      rw [List.mem_cons, not_or] at hb
      rw [hsame b hb.2, CellHeap.clear_cells_of_ne hb.1]

end JhList

end JhCommon
