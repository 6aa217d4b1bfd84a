import JhCommon.Holdings
import JhCommon.JhListRuns

/-! Variables that hold lists, with their copies and assignments. All nodes are in one heap, and each
list gives back what it holds when it is destroyed. -/
namespace JhCommon
open Transition

/-- A variable whose list has been destroyed is none. -/
structure Lists (V : Type) where
  lists : List (Option JhList)
  heap : ListHeap V

inductive ListsOp (V : Type)
  | create
  | copy (j : ℕ)
  | assign (i j : ℕ)
  | edit (i : ℕ) (op : ListOp V)
  | destroy (i : ℕ)

namespace Lists
variable {V : Type}

def start : Lists V := ⟨[],CellHeap.empty⟩

def get (l : Lists V) (i : ℕ) : Exec JhList :=
  match l.lists[i]? with
  | some (some s) => .ok s
  | _ => .error .useAfterFree

/-- The class has no `operator=`: an assignment copies the two pointers. -/
def step (l : Lists V) : ListsOp V → Exec (ListOut V × Lists V)
  | .create =>
    let (s,heap) := JhList.create l.heap
    .ok (.done,⟨l.lists ++ [some s],heap⟩)
  | .copy j => do
    let rhs ← l.get j
    let (s,heap) ← rhs.copy (l.heap.made+1) l.heap
    .ok (.done,⟨l.lists ++ [some s],heap⟩)
  | .assign i j => do
    let _ ← l.get i
    let rhs ← l.get j
    .ok (.done,{ l with lists := l.lists.set i (some rhs) })
  | .edit i op => do
    let s ← l.get i
    let (o,heap) ← op.step s l.heap
    .ok (o,{ l with heap := heap })
  | .destroy i => do
    let s ← l.get i
    let heap ← s.destroy (l.heap.made+1) l.heap
    .ok (.done,⟨l.lists.set i none,heap⟩)

/-- The variables are those of lists, and the iterators stand where they may. -/
def Admits (l : Lists V) : ListsOp V → Prop
  | .create => True
  | .copy j => ∃ s, l.get j = .ok s
  | .assign i j => (∃ s, l.get i = .ok s) ∧ ∃ s, l.get j = .ok s
  | .edit i op => ∃ s, l.get i = .ok s ∧ op.Admitted s l.heap
  | .destroy i => ∃ s, l.get i = .ok s

end Lists

/-- A variable as a value: a list's elements, next to the nodes that they are in. -/
abbrev ListValue (V : Type) := Option (JhList × List (ℕ × V))

/-- A copy and an assignment make the values equal, and every operation changes the one list that it
is called on. -/
def ListsOp.Means {V : Type} (ts : List (ListValue V)) (op : ListsOp V) (o : ListOut V) (ts' : List (ListValue V)) :
    Prop :=
  match op with
  | create => o = .done ∧ ∃ s, ts' = ts ++ [some (s,[])]
  | copy j => o = .done ∧ ∃ s xs s' xs', ts[j]? = some (some (s,xs)) ∧ ts' = ts ++ [some (s',xs')] ∧
      xs'.map Prod.snd = xs.map Prod.snd
  | assign i j => o = .done ∧ ∃ s xs s' xs', ts[j]? = some (some (s,xs)) ∧
      ts' = ts.set i (some (s',xs')) ∧ xs'.map Prod.snd = xs.map Prod.snd
  | edit i op => ∃ s xs xs', ts[i]? = some (some (s,xs)) ∧ op.Means ListOp.count32 s xs o xs' ∧
      ts' = ts.set i (some (s,xs'))
  | destroy i => o = .done ∧ ts' = ts.set i none

namespace Lists
variable {V : Type} {l l' : Lists V} {ts ts' : List (ListValue V)} {i j : ℕ} {s : JhList}
  {xs : List (ℕ × V)} {t t' : ListValue V}

/-- The nodes of the list that a variable holds. -/
def nodesOf : ListValue V → List ℕ
  | none => []
  | some (s,xs) => s.nodes xs

/-- Every variable holds its list, no node is in two of them, and the nodes that have not been given
back are those of the lists: when all lists have been destroyed, none is left. -/
structure Refines (l : Lists V) (ts : List (ListValue V)) : Prop where
  lists : l.lists = ts.map (Option.map Prod.fst)
  holds : ∀ s xs, some (s,xs) ∈ ts → s.Holds l.heap xs
  apart : ∀ (i j : ℕ) (t u : ListValue V), i ≠ j → ts[i]? = some t → ts[j]? = some u →
    ∀ b ∈ nodesOf t, b ∉ nodesOf u
  live : ∀ b, (l.heap.cells b).isSome ↔ ∃ t ∈ ts, b ∈ nodesOf t

/-- No list is assigned to another one. -/
def Unassigned (_ : Lists V) : ListsOp V → Prop
  | .assign i j => i = j
  | .create | .copy _ | .edit _ _ | .destroy _ => True

theorem start_refines : (start : Lists V).Refines [] := by
  refine ⟨rfl,?_,?_,?_⟩
  · intro s xs hin
    cases hin
  · intro i j t u _ hi
    cases hi
  · intro b
    simp [start, CellHeap.empty]

theorem get_eq_ok : l.get i = .ok s ↔ l.lists[i]? = some (some s) := by
  rw [get]
  split <;> simp_all

/-- What is in a variable, as a list and as a value. -/
theorem Refines.value (hr : l.Refines ts) (hget : l.get i = .ok s) :
    ∃ xs, ts[i]? = some (some (s,xs)) ∧ s.Holds l.heap xs := by
  have hi := get_eq_ok.mp hget
  rw [hr.lists, List.getElem?_map, Option.map_eq_some_iff] at hi
  obtain ⟨t,ht,hfst⟩ := hi
  obtain ⟨⟨s',xs⟩,rfl,rfl⟩ := Option.map_eq_some_iff.mp hfst
  exact ⟨xs,ht,hr.holds _ _ (List.mem_of_getElem? ht)⟩

theorem Refines.lt_made (hr : l.Refines ts) (ht : t ∈ ts) {b : ℕ} (hb : b ∈ nodesOf t) :
    b < l.heap.made :=
  CellHeap.lt_made (Option.some_get ((hr.live b).mpr ⟨t,ht,hb⟩)).symm

/-- A call that has to do with the nodes of one variable only, and with new ones. -/
theorem Refines.change (hr : l.Refines ts) (hi : ts[i]? = some t) (t' : ListValue V) {heap : ListHeap V}
    (hholds : ∀ s xs, t' = some (s,xs) → s.Holds heap xs)
    (hframe : ∀ b < l.heap.made, b ∉ nodesOf t → heap.cells b = l.heap.cells b)
    (hnodes : ∀ b ∈ nodesOf t', b ∈ nodesOf t ∨ l.heap.made ≤ b)
    (hlive : ∀ b, b ∈ nodesOf t ∨ l.heap.made ≤ b → (heap.cells b).isSome → b ∈ nodesOf t') :
    Refines ⟨l.lists.set i (t'.map Prod.fst),heap⟩ (ts.set i t') := by
  have hlt : i < ts.length := (List.getElem?_eq_some_iff.mp hi).1
  -- the other variables do not see it
  have hother (k : ℕ) (u : ListValue V) (hki : k ≠ i) (hk : ts[k]? = some u) (b : ℕ)
      (hb : b ∈ nodesOf u) : b < l.heap.made ∧ b ∉ nodesOf t :=
    ⟨hr.lt_made (List.mem_of_getElem? hk) hb,hr.apart k i u t hki hk hi b hb⟩
  have hnew (k : ℕ) (u : ListValue V) (hki : k ≠ i) (hk : ts[k]? = some u) (b : ℕ)
      (hb : b ∈ nodesOf u) : b ∉ nodesOf t' := by
    intro hb'
    have hout := hother k u hki hk b hb
    rcases hnodes b hb' with hold | hmade
    · exact hout.2 hold
    · omega
  have hkept (s : JhList) (xs : List (ℕ × V)) (hin : some (s,xs) ∈ ts.set i t') : s.Holds heap xs := by
    obtain ⟨k,hk⟩ := List.mem_iff_getElem?.mp hin
    rcases of_getElem?_set hlt hk with ⟨-,he⟩ | ⟨hki,hk⟩
    · exact hholds s xs he.symm
    · apply (hr.holds s xs (List.mem_of_getElem? hk)).keep
      intro b hb
      have hout := hother k _ hki hk b hb
      exact hframe b hout.1 hout.2
  constructor
  case lists =>
    show l.lists.set i (t'.map Prod.fst) = (ts.set i t').map (Option.map Prod.fst)
    rw [List.map_set, hr.lists]
  case holds => exact hkept
  case apart =>
    exact apart_set (R := fun u v => ∀ b ∈ nodesOf u, b ∉ nodesOf v) hlt hr.apart fun k u hki hk =>
      ⟨fun b hb => hnew k u hki hk b hb,fun b hb hb' => hnew k u hki hk b hb' hb⟩
  case live =>
    intro b
    constructor
    · intro hb
      by_cases hown : b ∈ nodesOf t ∨ l.heap.made ≤ b
      · exact ⟨t',List.mem_set hlt t',hlive b hown hb⟩
      · rw [not_or, not_le] at hown
        rw [hframe b hown.2 hown.1] at hb
        obtain ⟨u,hu,hbu⟩ := (hr.live b).mp hb
        obtain ⟨k,hk⟩ := List.mem_iff_getElem?.mp hu
        have hki : k ≠ i := by
          rintro rfl
          obtain rfl : t = u := Option.some.inj (hi.symm.trans hk)
          exact hown.1 hbu
        have hk' : (ts.set i t')[k]? = some u := by rw [List.getElem?_set_ne hki.symm, hk]
        exact ⟨u,List.mem_of_getElem? hk',hbu⟩
    · rintro ⟨u,hu,hbu⟩
      cases u with
      | none => cases hbu
      | some u => exact (hkept u.1 u.2 hu).live hbu

/-- A call on one list. -/
theorem Refines.edit (hr : l.Refines ts) (hi : ts[i]? = some (some (s,xs))) {heap : ListHeap V}
    {ys : List (ℕ × V)} (he : s.Edits l.heap xs heap ys) :
    Refines ⟨l.lists.set i (some s),heap⟩ (ts.set i (some (s,ys))) := by
  apply hr.change hi (some (s,ys)) _ he.frame he.nodes
  · rintro b (hold | hnew) hlive
    · by_contra hgone
      rw [he.gone b hold hgone] at hlive
      cases hlive
    · exact he.fresh b hnew hlive
  · intro _ _ heq
    cases heq
    exact he.holds

/-- A variable that holds nothing yet. -/
theorem Refines.declare (hr : l.Refines ts) : Refines ⟨l.lists ++ [none],l.heap⟩ (ts ++ [none]) := by
  constructor
  case lists =>
    show l.lists ++ [none] = (ts ++ [none]).map (Option.map Prod.fst)
    rw [List.map_append, hr.lists]
    rfl
  case holds =>
    intro s xs hin
    exact hr.holds s xs (by simpa using hin)
  case apart =>
    intro k m u v hkm hk hm b hb
    cases u with
    | none => cases hb
    | some u =>
      cases v with
      | none => exact List.not_mem_nil
      | some v => exact hr.apart k m (some u) (some v) hkm (by grind) (by grind) b hb
  case live =>
    intro b
    rw [hr.live b]
    simp [or_and_right, exists_or, nodesOf]

/-- A list that has been made next to the others. -/
theorem Refines.add (hr : l.Refines ts) {heap : ListHeap V} (hs : s.Refines l.heap heap xs) :
    Refines ⟨l.lists ++ [some s],heap⟩ (ts ++ [some (s,xs)]) := by
  have hlast : (ts ++ [none])[ts.length]? = some none := by simp
  have hchange := hr.declare.change hlast (some (s,xs))
    (fun _ _ he => by
      cases he
      exact hs.holds)
    (fun b hb _ => (hs.before b hb).2)
    (fun b hb => .inr (not_lt.mp fun hlt => (hs.before b hlt).1 hb))
    (fun b hb hlive => (hs.since b (hb.resolve_left List.not_mem_nil)).mp hlive)
  have hlen : l.lists.length = ts.length := by rw [hr.lists, List.length_map]
  have hlists : (l.lists ++ [none]).set ts.length (some s) = l.lists ++ [some s] := by simp [← hlen]
  have hvals : (ts ++ [none]).set ts.length (some (s,xs)) = ts ++ [some (s,xs)] := by simp
  rw [hvals] at hchange
  simpa only [Option.map_some, hlists] using hchange

/-- The copy constructor makes a list of its own nodes, with the same values. -/
theorem copy_refines {r : JhList} {heap : ListHeap V} (hr : r.Holds heap xs) {fuel : ℕ}
    (hfuel : xs.length ≤ fuel) :
    ∃ s heap' ys, r.copy fuel heap = .ok (s,heap') ∧ s.Refines heap heap' ys ∧
      ys.map Prod.snd = xs.map Prod.snd := by
  have hnew := JhList.create_refines heap
  have hr₁ : r.Holds (JhList.create heap).2 ([] ++ xs) :=
    hr.keep fun b hb => (hnew.before b (hr.lt_made hb)).2
  have hapart (b : ℕ) (hb : b ∈ r.nodes ([] ++ xs)) : b ∉ (JhList.create heap).1.nodes [] :=
    (hnew.before b (hr.lt_made hb)).1
  obtain ⟨heap',ys,hcopy,he,hvals⟩ := JhList.copyFrom_edits hr₁ hnew.holds hapart hfuel
  refine ⟨_,heap',ys,?_,hnew.edits he,hvals⟩
  show (r.iterBegin (JhList.create heap).2 >>= _) = _
  rw [JhList.iterBegin_ok hr₁, ok_bind]
  exact (congrArg (· >>= _) hcopy).trans rfl

/-- The destructor gives all nodes of the list back, and no others. -/
theorem destroy_ok {heap : ListHeap V} (hs : s.Holds heap xs) {fuel : ℕ} (hfuel : xs.length+2 ≤ fuel) :
    ∃ heap', s.destroy fuel heap = .ok heap' ∧ heap'.made = heap.made ∧
      (∀ b ∈ s.nodes xs, heap'.cells b = none) ∧ ∀ b ∉ s.nodes xs, heap'.cells b = heap.cells b :=
  JhList.destroyFrom_ok hs.forward_path hs.nodup (fun _ hb => hs.live hb) (by rwa [JhList.nodes_length])

/-- One call does what it means, if it does not assign one list to another. -/
theorem Refines.step (hr : l.Refines ts) {op : ListsOp V} (ha : l.Admits op) (hok : l.Unassigned op) :
    ∃ o l' ts', l.step op = .ok (o,l') ∧ op.Means ts o ts' ∧ l'.Refines ts' := by
  cases op with
  | create => exact ⟨.done,_,_,rfl,⟨rfl,_,rfl⟩,hr.add (JhList.create_refines l.heap)⟩
  | copy j =>
    obtain ⟨s,hget⟩ := ha
    obtain ⟨xs,hj,hs⟩ := hr.value hget
    have hlen := hs.length_le
    obtain ⟨s',heap',ys,hcopy,hnew,hvals⟩ := copy_refines hs (show xs.length ≤ l.heap.made+1 by omega)
    refine ⟨.done,_,_,?_,⟨rfl,s,xs,s',ys,hj,rfl,hvals⟩,hr.add hnew⟩
    rw [Lists.step, hget, ok_bind, hcopy, ok_bind]
  | assign i j =>
    obtain rfl : i = j := hok
    obtain ⟨s,hget⟩ := ha.1
    obtain ⟨xs,hi,hs⟩ := hr.value hget
    -- the members are copied to where they are
    have hlists : l.lists.set i (some s) = l.lists := set_same (get_eq_ok.mp hget)
    refine ⟨.done,l,ts,?_,⟨rfl,s,xs,s,xs,hi,(set_same hi).symm,rfl⟩,hr⟩
    rw [Lists.step, hget, ok_bind, ok_bind, hlists]
  | edit i op =>
    obtain ⟨s,hget,hadmitted⟩ := ha
    obtain ⟨xs,hi,hs⟩ := hr.value hget
    obtain ⟨o,heap',ys,hstep,hmeans,he⟩ := ListOp.step_edits hs (hadmitted xs hs)
    have hchange := hr.edit hi he
    rw [set_same (get_eq_ok.mp hget)] at hchange
    refine ⟨o,_,_,?_,⟨s,xs,ys,hi,hmeans,rfl⟩,hchange⟩
    rw [Lists.step, hget, ok_bind, hstep, ok_bind]
  | destroy i =>
    obtain ⟨s,hget⟩ := ha
    obtain ⟨xs,hi,hs⟩ := hr.value hget
    have hlen := hs.length_le
    obtain ⟨heap',hdestroy,hmade,hgone,hsame⟩ := destroy_ok hs (show xs.length+2 ≤ l.heap.made+1 by omega)
    have hnone : Refines ⟨l.lists.set i none,heap'⟩ (ts.set i none) := by
      apply hr.change hi none (fun _ _ he => by cases he) (fun b _ hb => hsame b hb)
        (fun b hb => absurd hb List.not_mem_nil)
      -- every node of the list is gone, and no new one was made
      rintro b (hold | hnew) hlive
      · rw [hgone b hold] at hlive
        cases hlive
      · rw [heap'.fresh b (hmade ▸ hnew)] at hlive
        cases hlive
    refine ⟨.done,_,_,?_,⟨rfl,rfl⟩,hnone⟩
    rw [Lists.step, hget, ok_bind, hdestroy, ok_bind]

/-- Two variables with the same nodes. -/
theorem assign_shares (hr' : l'.Refines ts') {o : ListOut V}
    (hstep : l.step (.assign i j) = .ok (o,l')) : i = j := by
  by_contra hij
  obtain ⟨s,hi,hrest⟩ := bind_eq_ok.mp hstep
  obtain ⟨r,hj,hl'⟩ := bind_eq_ok.mp hrest
  obtain ⟨-,rfl⟩ := Prod.mk.inj (Except.ok.inj hl')
  have hlt : i < l.lists.length := (List.getElem?_eq_some_iff.mp (get_eq_ok.mp hi)).1
  have hi' : get { l with lists := l.lists.set i (some r) } i = .ok r :=
    get_eq_ok.mpr (List.getElem?_set_self hlt)
  have hj' : get { l with lists := l.lists.set i (some r) } j = .ok r := by
    rw [get_eq_ok, List.getElem?_set_ne hij]
    exact get_eq_ok.mp hj
  obtain ⟨xs,hxs,-⟩ := hr'.value hi'
  obtain ⟨ys,hys,-⟩ := hr'.value hj'
  exact hr'.apart i j _ _ hij hxs hys r.mHead (JhList.mem_nodes.mpr (.inl rfl))
    (JhList.mem_nodes.mpr (.inl rfl))

/-- The copies are independent, and every node is given back once, in the runs that assign no list to
another one, and in no others. -/
theorem copies_refine_iff_unassigned (ops : List (ListsOp V)) (ha : Guarded step Admits start ops) :
    Simulated step ListsOp.Means Refines (start : Lists V) [] ops ↔ Guarded step Unassigned start ops := by
  apply simulated_iff_of_admitted Admits Unassigned (fun _ _ h => h) _ _ start_refines ops ha
  · exact fun l ts op hr hadmits hok => hr.step hadmits hok
  · intro l ts op o l' ts' _ _ hstep _ hr'
    refine ⟨?_,hr'⟩
    cases op with
    | assign i j => exact assign_shares hr' hstep
    | create | copy | edit | destroy => trivial

/-- A list and its copy are edited, and one of them is destroyed. -/
theorem copies_refine_iff_unassigned_two :
    Simulated step ListsOp.Means Refines (start : Lists ℕ) []
        [.create,.edit 0 (.pushBack 7),.copy 0,.edit 1 .popFront,.destroy 0] ↔
      Guarded step Unassigned (start : Lists ℕ)
        [.create,.edit 0 (.pushBack 7),.copy 0,.edit 1 .popFront,.destroy 0] := by
  apply copies_refine_iff_unassigned
  exact .cons rfl trivial (.cons rfl ⟨_,rfl,fun _ _ => trivial⟩ (.cons rfl ⟨_,rfl⟩
    (.cons rfl ⟨_,rfl,fun _ _ => trivial⟩ (.cons rfl ⟨_,rfl⟩ trivial))))

/-- After an assignment between two lists both have the same nodes. -/
theorem assigned_not_independent :
    Guarded step Admits (start : Lists ℕ) [.create,.create,.assign 1 0] ∧
      ¬Simulated step ListsOp.Means Refines (start : Lists ℕ) [] [.create,.create,.assign 1 0] := by
  constructor
  · exact .cons rfl trivial (.cons rfl trivial (.cons rfl ⟨⟨_,rfl⟩,_,rfl⟩ trivial))
  · rintro ⟨-,_,_,_,-,-,-,_,_,_,-,-,-,_,_,_,hstep,-,hr'⟩
    exact absurd (assign_shares hr' hstep) (by decide)

end Lists

end JhCommon
