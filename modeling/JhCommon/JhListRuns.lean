import JhCommon.ListOperations
import JhCommon.Transition

/-! Sequences of calls on one list against the same sequences on a list of values. An iterator
stands at a node, and an element of the list is known by its node. -/
namespace JhCommon
open LinkedPath Transition

inductive ListOp (V : Type)
  | pushFront (val : V)
  | pushBack (val : V)
  | popFront
  | popBack
  | insertAfter (i : Option ℕ) (val : V)
  | insertBefore (i : Option ℕ) (val : V)
  | erase (i : Option ℕ)
  | clear
  | size
  | isEmpty
  | forwards
  | backwards

/-- What a call returns. -/
inductive ListOut (V : Type)
  | done
  | iter (i : Option ℕ)
  | count (n : ℕ)
  | flag (b : Bool)
  | values (l : List V)

namespace ListOp
variable {V : Type}

/-- No list has more nodes than there have ever been, which is fuel enough. -/
def step (s : JhList) (h : ListHeap V) : ListOp V → Exec (ListOut V × ListHeap V)
  | pushFront val => (.done,·) <$> s.pushFront h val
  | pushBack val => (.done,·) <$> s.pushBack h val
  | popFront => (.done,·) <$> s.popFront h
  | popBack => (.done,·) <$> s.popBack h
  | insertAfter i val => (.done,·) <$> JhList.insertAfter h i val
  | insertBefore i val => (.done,·) <$> JhList.insertBefore h i val
  | erase i => (fun r => (.iter r.2,r.1)) <$> JhList.erase h i
  | clear => (.done,·) <$> s.clear (h.made+1) h
  | size => (fun n => (.count n,h)) <$> s.size (h.made+1) h
  | isEmpty => (fun b => (.flag b,h)) <$> s.isEmpty h
  | forwards => (fun l => (.values l,h)) <$> s.forwards (h.made+1) h
  | backwards => (fun l => (.values l,h)) <$> s.backwards (h.made+1) h

/-- What the operation does to a list of values, next to the nodes that they are in, and what it
returns. The size of a list of n elements is returned as count n. -/
def Means (count : ℕ → ℕ) (s : JhList) (xs : List (ℕ × V)) (op : ListOp V) (o : ListOut V)
    (xs' : List (ℕ × V)) : Prop :=
  match op with
  | pushFront val => o = .done ∧ ∃ a, xs' = (a,val) :: xs
  | pushBack val => o = .done ∧ ∃ a, xs' = xs ++ [(a,val)]
  | popFront => o = .done ∧ xs' = xs.tail
  | popBack => o = .done ∧ xs' = xs.dropLast
  | insertAfter i val => o = .done ∧ ∃ ys x zs a, xs = ys ++ x :: zs ∧ i = some x.1 ∧
      xs' = ys ++ x :: (a,val) :: zs
  | insertBefore i val => o = .done ∧ ∃ ys zs a, xs = ys ++ zs ∧ i = some (s.first zs) ∧
      xs' = ys ++ (a,val) :: zs
  | erase i => (∃ ys x zs, xs = ys ++ x :: zs ∧ i = some x.1 ∧ xs' = ys ++ zs ∧
      o = .iter (some (s.first zs))) ∨ (∀ x ∈ xs, i ≠ some x.1) ∧ xs' = xs ∧ o = .iter i
  | clear => o = .done ∧ xs' = []
  | size => o = .count (count xs.length) ∧ xs' = xs
  | isEmpty => o = .flag xs.isEmpty ∧ xs' = xs
  | forwards => o = .values (xs.map Prod.snd) ∧ xs' = xs
  | backwards => o = .values (xs.map Prod.snd).reverse ∧ xs' = xs

/-- What a size of 32 bits says. -/
def count32 (n : ℕ) : ℕ := n % 2^32

/-- Where the iterators may stand: at an element, before the end too for an insertion in front of it,
and at a placeholder or nowhere for an erasure. -/
def Admits (s : JhList) (xs : List (ℕ × V)) : ListOp V → Prop
  | insertAfter i _ => ∃ x ∈ xs, i = some x.1
  | insertBefore i _ => (∃ x ∈ xs, i = some x.1) ∨ i = s.iterEnd
  | erase i => (∃ x ∈ xs, i = some x.1) ∨ i = s.rbegin ∨ i = s.iterEnd ∨ i = none
  | pushFront _ | pushBack _ | popFront | popBack | clear | size | isEmpty | forwards | backwards => True

def Admitted (s : JhList) (h : ListHeap V) (op : ListOp V) : Prop :=
  ∀ xs, s.Holds h xs → op.Admits s xs

end ListOp

namespace JhList
variable {V : Type} {s : JhList} {h h' : ListHeap V} {xs ys zs : List (ℕ × V)}

theorem Holds.length_le (hs : s.Holds h xs) : xs.length+2 ≤ h.made := by
  have hsub : s.nodes xs ⊆ List.range h.made := fun b hb => List.mem_range.mpr (hs.lt_made hb)
  have hle := (hs.nodup.subperm hsub).length_le
  rwa [nodes_length, List.length_range] at hle

/-- What the heap says about a list that was made after the heap h₀: both ways from one placeholder
to the other the same nodes are met, they have the values, and of the nodes that have been made since
those are left and no others. What was there before has not been touched. -/
structure Refines (s : JhList) (h₀ h : ListHeap V) (xs : List (ℕ × V)) : Prop where
  holds : s.Holds h xs
  forward : Path (h.get ListNode.next) (some s.mHead) (s.nodes xs) none
  backward : Path (h.get ListNode.prev) (some s.mTail) (s.nodes xs).reverse none
  before : ∀ b < h₀.made, b ∉ s.nodes xs ∧ h.cells b = h₀.cells b
  since : ∀ b, h₀.made ≤ b → ((h.cells b).isSome ↔ b ∈ s.nodes xs)

end JhList

namespace ListOp
variable {V : Type} {s : JhList} {h h₀ : ListHeap V} {xs : List (ℕ × V)} {op : ListOp V}

/-- One call does to the list what the operation means, and nothing to what is not the list's. -/
theorem step_edits (hs : s.Holds h xs) (ha : op.Admits s xs) :
    ∃ o h' xs', op.step s h = .ok (o,h') ∧ op.Means count32 s xs o xs' ∧ s.Edits h xs h' xs' := by
  -- the walks have fuel for all nodes that have been made
  have hlen := hs.length_le
  cases op with
  | pushFront val =>
    obtain ⟨h',hpush,he⟩ := JhList.pushFront_edits hs val
    exact ⟨.done,h',_,by rw [step, hpush]; rfl,⟨rfl,_,rfl⟩,he⟩
  | pushBack val =>
    obtain ⟨h',hpush,he⟩ := JhList.pushBack_edits hs val
    exact ⟨.done,h',_,by rw [step, hpush]; rfl,⟨rfl,_,rfl⟩,he⟩
  | popFront =>
    cases xs with
    | nil => exact ⟨.done,h,[],by rw [step, JhList.popFront_nil hs]; rfl,⟨rfl,rfl⟩,.refl hs⟩
    | cons x xs =>
      obtain ⟨h',hpop,he⟩ := JhList.popFront_edits hs
      exact ⟨.done,h',xs,by rw [step, hpop]; rfl,⟨rfl,rfl⟩,he⟩
  | popBack =>
    cases xs using List.reverseRecOn with
    | nil => exact ⟨.done,h,[],by rw [step, JhList.popBack_nil hs]; rfl,⟨rfl,rfl⟩,.refl hs⟩
    | append_singleton xs x =>
      obtain ⟨h',hpop,he⟩ := JhList.popBack_edits hs
      exact ⟨.done,h',xs,by rw [step, hpop]; rfl,⟨rfl,List.dropLast_concat.symm⟩,he⟩
  | insertAfter i val =>
    obtain ⟨x,hx,rfl⟩ := ha
    obtain ⟨ys,zs,rfl⟩ := List.append_of_mem hx
    -- behind x is between what ends with it and the rest
    have hs' : s.Holds h ((ys ++ [x]) ++ zs) := by rwa [List.append_assoc]
    obtain ⟨h',hinsert,he⟩ := JhList.insertAfter_edits hs' val
    rw [JhList.last_concat] at hinsert
    rw [List.append_assoc, List.append_assoc] at he
    exact ⟨.done,h',_,by rw [step, hinsert]; rfl,⟨rfl,ys,x,zs,_,rfl,rfl,rfl⟩,he⟩
  | insertBefore i val =>
    obtain ⟨ys,zs,rfl,rfl⟩ : ∃ ys zs, xs = ys ++ zs ∧ i = some (s.first zs) := by
      rcases ha with ⟨x,hx,rfl⟩ | rfl
      · obtain ⟨ys,zs,rfl⟩ := List.append_of_mem hx
        exact ⟨ys,x :: zs,rfl,rfl⟩
      · exact ⟨xs,[],(List.append_nil xs).symm,rfl⟩
    obtain ⟨h',hinsert,he⟩ := JhList.insertBefore_edits hs val
    exact ⟨.done,h',_,by rw [step, hinsert]; rfl,⟨rfl,ys,zs,_,rfl,rfl,rfl⟩,he⟩
  | erase i =>
    by_cases hi : ∃ x ∈ xs, i = some x.1
    · obtain ⟨x,hx,rfl⟩ := hi
      obtain ⟨ys,zs,rfl⟩ := List.append_of_mem hx
      obtain ⟨h',herase,he⟩ := JhList.erase_edits hs
      exact ⟨_,h',_,by rw [step, herase]; rfl,.inl ⟨ys,x,zs,rfl,rfl,rfl,rfl⟩,he⟩
    · -- at a placeholder, or nowhere
      have hsame : JhList.erase h i = .ok (h,i) := by
        rcases ha.resolve_left hi with rfl | rfl | rfl
        · exact JhList.erase_placeholder hs (.inl rfl)
        · exact JhList.erase_placeholder hs (.inr rfl)
        · rfl
      have hout : ∀ x ∈ xs, i ≠ some x.1 := fun x hx he => hi ⟨x,hx,he⟩
      exact ⟨.iter i,h,xs,by rw [step, hsame]; rfl,.inr ⟨hout,rfl,rfl⟩,.refl hs⟩
  | clear =>
    obtain ⟨h',hclear,he⟩ := JhList.clear_edits hs (show xs.length < h.made+1 by omega)
    exact ⟨.done,h',[],by rw [step, hclear]; rfl,⟨rfl,rfl⟩,he⟩
  | size =>
    have hsize := JhList.size_eq hs (show xs.length+2 ≤ h.made+1 by omega)
    exact ⟨_,h,xs,by rw [step, hsize]; rfl,⟨rfl,rfl⟩,.refl hs⟩
  | isEmpty => exact ⟨_,h,xs,by rw [step, JhList.isEmpty_eq hs]; rfl,⟨rfl,rfl⟩,.refl hs⟩
  | forwards =>
    have hwalk := JhList.forwards_eq hs (show xs.length ≤ h.made+1 by omega)
    exact ⟨_,h,xs,by rw [step, hwalk]; rfl,⟨rfl,rfl⟩,.refl hs⟩
  | backwards =>
    have hwalk := JhList.backwards_eq hs (show xs.length ≤ h.made+1 by omega)
    exact ⟨_,h,xs,by rw [step, hwalk]; rfl,⟨rfl,rfl⟩,.refl hs⟩

end ListOp

namespace JhList
variable {V : Type} {s : JhList} {h h' h₀ : ListHeap V} {xs ys : List (ℕ × V)} {b : ℕ}

theorem Refines.of_holds (hs : s.Holds h xs)
    (hbefore : ∀ b < h₀.made, b ∉ s.nodes xs ∧ h.cells b = h₀.cells b)
    (hsince : ∀ b, h₀.made ≤ b → (h.cells b).isSome → b ∈ s.nodes xs) : s.Refines h₀ h xs :=
  ⟨hs,hs.forward_path,hs.backward_path,hbefore,fun b hb => ⟨hsince b hb,hs.live⟩⟩

theorem create_refines (h₀ : ListHeap V) : (create h₀).1.Refines h₀ (create h₀).2 [] := by
  apply Refines.of_holds (create_holds h₀)
  · intro b hb
    have hhead : b ≠ h₀.made := hb.ne
    have htail : b ≠ h₀.made+1 := by omega
    constructor
    · simp [mem_nodes, create, hhead, htail]
    · simp [create, hhead, htail]
  · intro b hb hlive
    have hlt : b < h₀.made+2 := CellHeap.lt_made (Option.some_get hlive).symm
    have hnode : b = h₀.made ∨ b = h₀.made+1 := by omega
    simpa [mem_nodes, create] using hnode

theorem Refines.edits (hr : s.Refines h₀ h xs) (he : s.Edits h xs h' ys) : s.Refines h₀ h' ys := by
  have hmade : h₀.made ≤ h.made := by
    by_contra hlt
    have hhead : s.mHead < h.made := hr.holds.lt_made (mem_nodes.mpr (.inl rfl))
    exact (hr.before s.mHead (by omega)).1 (mem_nodes.mpr (.inl rfl))
  apply Refines.of_holds he.holds
  · intro b hb
    obtain ⟨hout,hsame⟩ := hr.before b hb
    refine ⟨?_,?_⟩
    · intro hin
      rcases he.nodes b hin with hold | hnew
      · exact hout hold
      · omega
    · rw [he.frame b (hb.trans_le hmade) hout, hsame]
  · intro b hb hlive
    by_cases hnew : h.made ≤ b
    · exact he.fresh b hnew hlive
    · by_contra hgone
      by_cases hin : b ∈ s.nodes xs
      · rw [he.gone b hin hgone] at hlive
        cases hlive
      · rw [he.frame b (by omega) hin] at hlive
        exact hin ((hr.since b hb).mp hlive)

/-- An iterator at the first element may be passed on. -/
theorem Holds.first_element {a : ℕ} (hs : s.Holds h xs) (hnext : h.get ListNode.next s.mHead = some a)
    (htail : a ≠ s.mTail) : ∃ x ∈ xs, some a = some x.1 := by
  have hs' : s.Holds h ([] ++ xs) := hs
  have hfirst : s.first xs = a := Option.some.inj (hs'.next_last.symm.trans hnext)
  cases xs with
  | nil => exact absurd hfirst.symm htail
  | cons x xs => exact ⟨x,List.mem_cons_self,congrArg some hfirst.symm⟩

/-- Every run of calls on a list does what the same operations do on a list of values, up to the 32
bits of a size, and gives each removed node back once. -/
theorem list_refines (h₀ : ListHeap V) (ops : List (ListOp V))
    (hops : Guarded (ListOp.step (create h₀).1) (ListOp.Admitted (create h₀).1) (create h₀).2 ops) :
    Simulated (ListOp.step (create h₀).1) (ListOp.Means ListOp.count32 (create h₀).1)
      ((create h₀).1.Refines h₀) (create h₀).2 [] ops := by
  apply simulated_of_guarded (ListOp.Admitted (create h₀).1) _ (create_refines h₀) ops hops
  intro h xs op hr hadmitted
  obtain ⟨o,h',xs',hstep,hmeans,he⟩ := ListOp.step_edits hr.holds (hadmitted xs hr.holds)
  exact ⟨o,h',xs',hstep,hmeans,hr.edits he⟩

theorem list_refines_three :
    Simulated (ListOp.step (create (CellHeap.empty : ListHeap ℕ)).1)
      (ListOp.Means ListOp.count32 (create (CellHeap.empty : ListHeap ℕ)).1)
      ((create (CellHeap.empty : ListHeap ℕ)).1.Refines CellHeap.empty) (create CellHeap.empty).2 []
      [.insertBefore (some 1) 7,.pushBack 8,.erase (some 2)] := by
  apply list_refines
  refine .cons rfl (fun xs hs => .inr rfl) (.cons rfl (fun xs hs => trivial) (.cons rfl ?_ trivial))
  exact fun xs hs => .inl (hs.first_element rfl (by decide))

/-- A size that is always right has no more pushes in front of it than 32 bits can count. -/
theorem count_fits {val : V} {n : ℕ}
    (hrun : Simulated (ListOp.step s) (ListOp.Means id s) (s.Refines h₀) h xs
      (List.replicate n (.pushBack val) ++ [.size])) : (xs.length+n) % 2^32 = xs.length+n := by
  -- on the pushes that are left: each makes the list longer, and the last list is counted
  induction n generalizing h xs with
  | zero =>
    obtain ⟨hr,o,h',xs',hstep,⟨ho,-⟩,-⟩ := hrun
    have hlen := hr.holds.length_le
    rw [ListOp.step, size_eq hr.holds (by omega)] at hstep
    obtain ⟨rfl,-⟩ := Prod.mk.inj (Except.ok.inj hstep)
    exact ListOut.count.inj ho
  | succ n ih =>
    rw [List.replicate_succ, List.cons_append] at hrun
    obtain ⟨-,o,h',xs',-,⟨-,a,rfl⟩,hrest⟩ := hrun
    have hfits := ih hrest
    rw [List.length_append, List.length_singleton] at hfits
    rwa [Nat.add_assoc, Nat.add_comm 1] at hfits

/-- After 2³² pushes the size says that there is nothing. -/
theorem size_not_refines :
    Guarded (ListOp.step (create (CellHeap.empty : ListHeap ℕ)).1)
      (ListOp.Admitted (create (CellHeap.empty : ListHeap ℕ)).1) (create CellHeap.empty).2
      (List.replicate (2^32) (.pushBack 0) ++ [.size]) ∧
    ¬Simulated (ListOp.step (create (CellHeap.empty : ListHeap ℕ)).1)
      (ListOp.Means id (create (CellHeap.empty : ListHeap ℕ)).1)
      ((create (CellHeap.empty : ListHeap ℕ)).1.Refines CellHeap.empty) (create CellHeap.empty).2 []
      (List.replicate (2^32) (.pushBack 0) ++ [.size]) := by
  constructor
  · apply guarded_of_all
    intro op hop h xs hs
    rcases List.mem_append.mp hop with hpush | hsize
    · rw [List.eq_of_mem_replicate hpush]
      trivial
    · rw [List.mem_singleton.mp hsize]
      trivial
  · intro h
    have hfits := count_fits h
    rw [List.length_nil, Nat.zero_add, Nat.mod_self] at hfits
    exact absurd hfits (by norm_num)

end JhList

end JhCommon
