import JhCommon.JhList
import JhCommon.TimerRemoval

/-! The listeners of `EventDispatcherHelper`, with the changes that they can make to their list. A
removal only takes the listener out of its node. -/
namespace JhCommon

structure EventListenerNode where
  mListener : Option ℕ
  mEventId : ℤ
  deriving DecidableEq

/-- The nodes of mEventList are in cells, and what they point at in nodes. -/
structure EventDispatcherHelper where
  mEventList : JhList
  cells : ListHeap ℕ
  nodes : CellHeap EventListenerNode

/-- An entry of mEventList: its node, and the listener node that this points at. -/
structure Registration where
  cell : ℕ
  node : ℕ
  val : EventListenerNode
  deriving DecidableEq

/-- Where a thread is in `dispatchEvent`: at an entry of the list, or in a listener or an agent that it
has called. It has the id of the event, which an event is made with. -/
inductive LookupPhase
  | outside
  | atNode (event_id : ℤ) (i : Option ℕ)
  | inListener (event_id : ℤ) (i : Option ℕ)
  | inAgent
  deriving DecidableEq

/-- The listener of the node is there, and is one for events of this id. -/
def EventListenerNode.isFor (n : EventListenerNode) (event_id : ℤ) : Prop :=
  n.mListener ≠ none ∧ (n.mEventId = event_id ∨ n.mEventId = kInvalidEventId)

instance (n : EventListenerNode) (event_id : ℤ) : Decidable (n.isFor event_id) :=
  inferInstanceAs (Decidable (_ ∧ _))

namespace EventDispatcherHelper

def init : EventDispatcherHelper :=
  let (mEventList,cells) := JhList.create CellHeap.empty
  { mEventList := mEventList, cells := cells, nodes := .empty }

def addEventListener (s : EventDispatcherHelper) (listener : Option ℕ) (event_id : ℤ) :
    Exec (ℤ × EventDispatcherHelper) := do
  let (node,nodes) := s.nodes.alloc ⟨listener,event_id⟩
  let cells ← s.mEventList.pushBack s.cells node
  .ok (0,{ s with cells := cells, nodes := nodes })

/-- The loop of `removeEventListener`, up to the node that it looks for. -/
def findListener (s : EventDispatcherHelper) (listener : Option ℕ) (event_id : ℤ) :
    ℕ → Option ℕ → Exec (Option ℕ)
  | 0, _ => .error .outOfFuel
  | fuel+1, i =>
    if i = s.mEventList.iterEnd then .ok none
    else do
      let lnode ← JhList.deref s.cells i
      let node ← s.nodes.read lnode
      if node.mEventId = event_id ∧ node.mListener = listener then .ok (some lnode)
      else do
        let i ← JhList.forward s.cells i
        s.findListener listener event_id fuel i

/-- What a removal finds. The list has fewer entries than nodes have been made. -/
def lookupListener (s : EventDispatcherHelper) (listener : Option ℕ) (event_id : ℤ) :
    Exec (Option ℕ) := do
  let i ← s.mEventList.iterBegin s.cells
  s.findListener listener event_id s.cells.made i

def removeEventListener (s : EventDispatcherHelper) (listener : Option ℕ) (event_id : ℤ) :
    Exec (ℤ × EventDispatcherHelper) := do
  match ← s.lookupListener listener event_id with
  | none => .ok (-1,s)
  | some lnode => do
    let nodes ← s.nodes.write lnode fun n => { n with mListener := none }
    .ok (0,{ s with nodes := nodes })

/-- A node whose listener has been removed is deleted, and the iterator goes back and on to the next. -/
def prune (s : EventDispatcherHelper) (i : Option ℕ) (a : ℕ) : Exec (Option ℕ × EventDispatcherHelper) := do
  let nodes ← s.nodes.free a
  let (cells,i) ← JhList.erase s.cells i
  let i ← JhList.backward cells i
  let i ← JhList.forward cells i
  .ok (i,{ s with cells := cells, nodes := nodes })

/-- A turn of the loop of `lookupListeners`, up to the call of a listener. -/
def visit (s : EventDispatcherHelper) (event_id : ℤ) (i : Option ℕ) :
    Exec (LookupPhase × EventDispatcherHelper) :=
  if i = s.mEventList.iterEnd then .ok (.outside,s)
  else do
    let a ← JhList.deref s.cells i
    let node ← s.nodes.read a
    match node.mListener with
    | none => do
      let (i,s) ← s.prune i a
      .ok (.atNode event_id i,s)
    | some _ =>
      if node.mEventId = event_id ∨ node.mEventId = kInvalidEventId then .ok (.inListener event_id i,s)
      else do
        let i ← JhList.forward s.cells i
        .ok (.atNode event_id i,s)

/-- The nodes from an iterator on. -/
def nodesFrom (s : EventDispatcherHelper) : ℕ → Option ℕ → Exec (List EventListenerNode)
  | 0, _ => .error .outOfFuel
  | fuel+1, i =>
    if i = s.mEventList.iterEnd then .ok []
    else do
      let a ← JhList.deref s.cells i
      let node ← s.nodes.read a
      let i ← JhList.forward s.cells i
      let rest ← s.nodesFrom fuel i
      .ok (node :: rest)

/-- The nodes behind the one that an iterator is at. -/
def nodesBehind (s : EventDispatcherHelper) (i : Option ℕ) : Exec (List EventListenerNode) := do
  let i ← JhList.forward s.cells i
  s.nodesFrom s.cells.made i

/-- The place of an entry in the list. -/
def places (regs : List Registration) : List (ℕ × ℕ) := regs.map fun r => (r.cell,r.node)

/-- The list has these entries. -/
structure Lists (s : EventDispatcherHelper) (regs : List Registration) : Prop where
  holds : s.mEventList.Holds s.cells (places regs)
  vals : ∀ r ∈ regs, s.nodes.cells r.node = some r.val
  nodup : (regs.map Registration.node).Nodup

/-- The listener of a node is taken away. -/
def kill (a : ℕ) (regs : List Registration) : List Registration :=
  regs.map fun r => if r.node = a then { r with val := { r.val with mListener := none } } else r

/-- The entry is the one that a removal looks for. -/
def names (listener : Option ℕ) (event_id : ℤ) (r : Registration) : Bool :=
  decide (r.val.mEventId = event_id ∧ r.val.mListener = listener)

/-- The iterator that stands at the first of these entries, or at the end. -/
def iterAt (s : EventDispatcherHelper) (regs : List Registration) : Option ℕ :=
  some (s.mEventList.first (places regs))

section Lists
variable {s : EventDispatcherHelper} {regs ys zs : List Registration} {r : Registration}

theorem places_append (ys zs : List Registration) : places (ys ++ zs) = places ys ++ places zs :=
  List.map_append

theorem init_lists : init.Lists [] where
  holds := JhList.create_holds _
  vals := by simp
  nodup := List.nodup_nil

theorem begin_ok (hs : s.Lists regs) : s.mEventList.iterBegin s.cells = .ok (s.iterAt regs) :=
  JhList.iterBegin_ok hs.holds

/-- The iterator is at the end where no entry is left. -/
theorem iterAt_eq_end (hs : s.Lists (ys ++ zs)) :
    s.iterAt zs = s.mEventList.iterEnd ↔ zs = [] := by
  cases zs with
  | nil => exact iff_of_true rfl rfl
  | cons z zs =>
    apply iff_of_false _ (List.cons_ne_nil z zs)
    intro heq
    have hcell : z.cell = s.mEventList.mTail := Option.some.inj heq
    have hnodup := hs.holds.nodup
    rw [JhList.nodes, List.nodup_cons, List.nodup_append] at hnodup
    refine hnodup.2.2.2 z.cell ?_ _ (List.mem_singleton_self _) hcell
    rw [places_append, List.map_append]
    exact List.mem_append_right _ List.mem_cons_self

theorem deref_ok (hs : s.Lists (ys ++ r :: zs)) :
    JhList.deref s.cells (s.iterAt (r :: zs)) = .ok r.node ∧
      s.nodes.read r.node = .ok r.val := by
  have hmem : r ∈ ys ++ r :: zs := List.mem_append_right ys List.mem_cons_self
  constructor
  · exact JhList.deref_ok hs.holds (List.mem_map.mpr ⟨r,hmem,rfl⟩)
  · exact CellHeap.read_eq_ok.mpr (hs.vals r hmem)

theorem forward_ok (hs : s.Lists (ys ++ r :: zs)) :
    JhList.forward s.cells (some r.cell) = .ok (s.iterAt zs) := by
  have hholds : s.mEventList.Holds s.cells ((places ys ++ [(r.cell,r.node)]) ++ places zs) := by
    have hsplit : places (ys ++ r :: zs) = (places ys ++ [(r.cell,r.node)]) ++ places zs := by
      rw [places_append, List.append_assoc]
      rfl
    rw [← hsplit]
    exact hs.holds
  have hnext := JhList.forward_last hholds
  rwa [JhList.last_concat] at hnext

theorem findListener_ok (listener : Option ℕ) (event_id : ℤ) {fuel : ℕ} (hfuel : zs.length < fuel)
    (hs : s.Lists (ys ++ zs)) : s.findListener listener event_id fuel (s.iterAt zs) =
      .ok ((zs.find? (names listener event_id)).map Registration.node) := by
  induction zs generalizing ys fuel with
  | nil =>
    obtain ⟨fuel,rfl⟩ : ∃ n, fuel = n+1 := ⟨fuel-1,by simp at hfuel; omega⟩
    rw [findListener, if_pos ((iterAt_eq_end hs).mpr rfl)]
    rfl
  | cons z zs ih =>
    obtain ⟨fuel,rfl⟩ : ∃ n, fuel = n+1 := ⟨fuel-1,by simp at hfuel; omega⟩
    have hnotend : s.iterAt (z :: zs) ≠ s.mEventList.iterEnd :=
      fun heq => absurd ((iterAt_eq_end hs).mp heq) (List.cons_ne_nil z zs)
    rw [findListener, if_neg hnotend, (deref_ok hs).1, ok_bind, (deref_ok hs).2, ok_bind]
    split
    · rename_i hmatch
      have hnames : names listener event_id z = true := decide_eq_true hmatch
      rw [List.find?_cons_of_pos hnames]
      rfl
    · rename_i hmatch
      have hnames : ¬names listener event_id z = true := fun h => hmatch (of_decide_eq_true h)
      have hs' : s.Lists ((ys ++ [z]) ++ zs) := by rwa [List.append_assoc]
      have hiter : s.iterAt (z :: zs) = some z.cell := rfl
      rw [hiter, forward_ok hs, ok_bind, ih (by simpa using hfuel) hs', List.find?_cons_of_neg hnames]

/-- The list has fewer entries than nodes have been made. -/
theorem length_lt_made (hs : s.Lists regs) : regs.length < s.cells.made := by
  have hlength : (s.mEventList.nodes (places regs)).length ≤ s.cells.made := by
    have hle : s.mEventList.nodes (places regs) ⊆ List.range s.cells.made :=
      fun c hc => List.mem_range.mpr (hs.holds.lt_made hc)
    have hlen := hs.holds.nodup.length_le_of_subset hle
    rwa [List.length_range] at hlen
  simp only [JhList.nodes, places, List.length_cons, List.length_append, List.length_map,
    List.length_nil] at hlength
  omega

theorem lookupListener_ok (hs : s.Lists regs) (listener : Option ℕ) (event_id : ℤ) :
    s.lookupListener listener event_id =
      .ok ((regs.find? (names listener event_id)).map Registration.node) := by
  have hfuel := length_lt_made hs
  have hs' : s.Lists ([] ++ regs) := hs
  rw [lookupListener, begin_ok hs, ok_bind, findListener_ok listener event_id hfuel hs']

theorem nodesFrom_ok {fuel : ℕ} (hfuel : zs.length < fuel) (hs : s.Lists (ys ++ zs)) :
    s.nodesFrom fuel (s.iterAt zs) = .ok (zs.map Registration.val) := by
  induction zs generalizing ys fuel with
  | nil =>
    obtain ⟨fuel,rfl⟩ : ∃ n, fuel = n+1 := ⟨fuel-1,by simp at hfuel; omega⟩
    rw [nodesFrom, if_pos ((iterAt_eq_end hs).mpr rfl)]
    rfl
  | cons z zs ih =>
    obtain ⟨fuel,rfl⟩ : ∃ n, fuel = n+1 := ⟨fuel-1,by simp at hfuel; omega⟩
    have hnotend : s.iterAt (z :: zs) ≠ s.mEventList.iterEnd :=
      fun heq => absurd ((iterAt_eq_end hs).mp heq) (List.cons_ne_nil z zs)
    have hs' : s.Lists ((ys ++ [z]) ++ zs) := by rwa [List.append_assoc]
    have hiter : s.iterAt (z :: zs) = some z.cell := rfl
    rw [nodesFrom, if_neg hnotend, (deref_ok hs).1, ok_bind, (deref_ok hs).2, ok_bind, hiter,
      forward_ok hs, ok_bind, ih (by simpa using hfuel) hs', ok_bind, List.map_cons]

theorem nodesBehind_ok (hs : s.Lists (ys ++ r :: zs)) :
    s.nodesBehind (some r.cell) = .ok (zs.map Registration.val) := by
  have hs' : s.Lists ((ys ++ [r]) ++ zs) := by rwa [List.append_assoc]
  have hfuel : zs.length < s.cells.made := by
    have hlength := length_lt_made hs'
    rw [List.length_append] at hlength
    omega
  rw [nodesBehind, forward_ok hs, ok_bind, nodesFrom_ok hfuel hs']

/-- The entry goes, and the iterator is at the one behind it. -/
theorem prune_ok (hs : s.Lists (ys ++ r :: zs)) :
    ∃ s', s.prune (some r.cell) r.node = .ok (s'.iterAt zs,s') ∧ s'.Lists (ys ++ zs) ∧
      s'.nodes = s.nodes.clear r.node ∧ s'.mEventList = s.mEventList := by
  have hplaces : places (ys ++ r :: zs) = places ys ++ (r.cell,r.node) :: places zs := by
    rw [places_append]
    rfl
  have hheld := hplaces ▸ hs.holds
  have herase := JhList.erase_eq hheld
  have hholds := JhList.unlinked_holds hheld
  generalize JhList.unlinked _ _ _ _ = cells at herase hholds
  have hmiddle := hs.nodup
  rw [List.map_append, List.map_cons, List.nodup_middle, ← List.map_append] at hmiddle
  obtain ⟨hout,hnodup⟩ := List.nodup_cons.mp hmiddle
  refine ⟨{ s with cells := cells, nodes := s.nodes.clear r.node },?_,⟨?_,?_,hnodup⟩,rfl,rfl⟩
  · have hback := JhList.backward_first hholds
    have hforward := JhList.forward_last hholds
    have hfree := CellHeap.free_ok (CellHeap.read_eq_ok.mp (deref_ok hs).2)
    simp only [prune, hfree, herase, hback, hforward, ok_bind]
    rfl
  · rw [places_append]
    exact hholds
  · intro q hq
    have hne : q.node ≠ r.node := ne_of_mem_of_not_mem (List.mem_map_of_mem hq) hout
    rw [CellHeap.clear_cells, Function.update_of_ne hne]
    exact hs.vals q (List.perm_middle.symm.subset (List.mem_cons_of_mem r hq))

/-- What a turn of the loop comes to: its end, a listener for the event, or the next entry. -/
theorem visit_ok (event_id : ℤ) (hs : s.Lists (ys ++ zs)) : ∃ phase s',
    s.visit event_id (s.iterAt zs) = .ok (phase,s') ∧
      (phase = .outside ∧ s' = s ∨
        (∃ r zs', zs = r :: zs' ∧ phase = .inListener event_id (some r.cell) ∧ s' = s ∧
          r.val.isFor event_id) ∨
        ∃ r ys' zs', zs = r :: zs' ∧ phase = .atNode event_id (s'.iterAt zs') ∧ s'.Lists (ys' ++ zs')) := by
  cases zs with
  | nil =>
    refine ⟨.outside,s,?_,.inl ⟨rfl,rfl⟩⟩
    rw [visit, if_pos ((iterAt_eq_end hs).mpr rfl)]
  | cons r zs =>
    have hnotend : s.iterAt (r :: zs) ≠ s.mEventList.iterEnd :=
      fun heq => absurd ((iterAt_eq_end hs).mp heq) (List.cons_ne_nil r zs)
    have hiter : s.iterAt (r :: zs) = some r.cell := rfl
    obtain ⟨hderef,hread⟩ := deref_ok hs
    rw [visit, if_neg hnotend, hderef, ok_bind, hread, ok_bind, hiter]
    cases hlistener : r.val.mListener with
    | none =>
      obtain ⟨s',hprune,hs',-⟩ := prune_ok hs
      exact ⟨.atNode event_id (s'.iterAt zs),s',by simp only [hprune, ok_bind],
        .inr (.inr ⟨r,ys,zs,rfl,rfl,hs'⟩)⟩
    | some listener =>
      by_cases hmatch : r.val.mEventId = event_id ∨ r.val.mEventId = kInvalidEventId
      · refine ⟨.inListener event_id (some r.cell),s,if_pos hmatch,.inr (.inl ⟨r,zs,rfl,rfl,rfl,?_⟩)⟩
        exact ⟨by rw [hlistener]; exact Option.some_ne_none _,hmatch⟩
      · have hs' : s.Lists ((ys ++ [r]) ++ zs) := by rwa [List.append_assoc]
        refine ⟨.atNode event_id (s.iterAt zs),s,?_,.inr (.inr ⟨r,ys ++ [r],zs,rfl,rfl,hs'⟩)⟩
        simp only [if_neg hmatch, forward_ok hs, ok_bind]

theorem kill_append (a : ℕ) (ys zs : List Registration) : kill a (ys ++ zs) = kill a ys ++ kill a zs :=
  List.map_append

/-- An entry keeps its place, whether or not it is the one that loses its listener. -/
theorem kill_cons (a : ℕ) (r : Registration) (zs : List Registration) :
    ∃ r', kill a (r :: zs) = r' :: kill a zs ∧ r'.cell = r.cell := by
  refine ⟨_,List.map_cons,?_⟩
  split <;> rfl

theorem places_kill (a : ℕ) (regs : List Registration) : places (kill a regs) = places regs := by
  rw [places, kill, List.map_map]
  apply List.map_congr_left
  intro r _
  simp only [Function.comp_apply]
  split <;> rfl

theorem nodes_kill (a : ℕ) (regs : List Registration) :
    (kill a regs).map Registration.node = regs.map Registration.node := by
  rw [kill, List.map_map]
  apply List.map_congr_left
  intro r _
  simp only [Function.comp_apply]
  split <;> rfl

/-- A registration is put behind the others. -/
theorem addEventListener_ok (hs : s.Lists regs) (listener : Option ℕ) (event_id : ℤ) :
    ∃ s', s.addEventListener listener event_id = .ok (0,s') ∧
      s'.Lists (regs ++ [⟨s.cells.made,s.nodes.made,⟨listener,event_id⟩⟩]) ∧
      s'.mEventList = s.mEventList ∧ s'.nodes.made = s.nodes.made+1 := by
  obtain ⟨cells,hpush,hholds,-⟩ := JhList.pushBack_ok hs.holds s.nodes.made
  refine ⟨{ s with cells := cells, nodes := (s.nodes.alloc ⟨listener,event_id⟩).2 },?_,?_,rfl,rfl⟩
  · have hpush' : s.mEventList.pushBack s.cells (s.nodes.alloc ⟨listener,event_id⟩).1 = .ok cells :=
      hpush
    simp only [addEventListener, hpush', ok_bind]
  · have hold (r : Registration) (hr : r ∈ regs) : r.node ≠ s.nodes.made :=
      (CellHeap.lt_made (hs.vals r hr)).ne
    constructor
    · rw [places_append]
      exact hholds
    · intro r hr
      rw [CellHeap.alloc_cells]
      rcases List.mem_append.mp hr with hr | hr
      · rw [Function.update_of_ne (hold r hr)]
        exact hs.vals r hr
      · rw [List.mem_singleton.mp hr, Function.update_self]
    · rw [List.map_append, List.map_singleton]
      apply List.nodup_append.mpr
      refine ⟨hs.nodup,List.nodup_singleton _,?_⟩
      intro a ha b hb
      obtain ⟨r,hr,rfl⟩ := List.mem_map.mp ha
      rw [List.mem_singleton.mp hb]
      exact hold r hr

/-- A removal takes the listener out of the first registration that it looks for. -/
theorem removeEventListener_ok (hs : s.Lists regs) (listener : Option ℕ) (event_id : ℤ) :
    ∃ res s', s.removeEventListener listener event_id = .ok (res,s') ∧
      s'.Lists (((regs.find? (names listener event_id)).map Registration.node).elim regs fun a =>
        kill a regs) ∧ s'.mEventList = s.mEventList ∧ s'.nodes.made = s.nodes.made := by
  have hlookup := lookupListener_ok hs listener event_id
  cases hfind : regs.find? (names listener event_id) with
  | none =>
    rw [hfind] at hlookup
    exact ⟨-1,s,by rw [removeEventListener, hlookup]; rfl,hs,rfl,rfl⟩
  | some r =>
    have hr := hs.vals r (List.mem_of_find?_eq_some hfind)
    let nodes := s.nodes.modify r.node fun n => { n with mListener := none }
    rw [hfind] at hlookup
    refine ⟨0,{ s with nodes := nodes },?_,?_,rfl,rfl⟩
    · rw [removeEventListener, hlookup, ok_bind]
      simp only [Option.map_some, CellHeap.write_ok hr, ok_bind]
      rfl
    · refine ⟨?_,?_,?_⟩
      · rw [Option.map_some, Option.elim_some, places_kill]
        exact hs.holds
      · intro q hq
        obtain ⟨q',hq',rfl⟩ := List.mem_map.mp hq
        simp only [nodes, CellHeap.modify_cells]
        split
        · rename_i heq
          rw [heq, Function.update_self, hr]
          -- an entry with the same node has the same value, so that the write is what kill says
          have hsame : q'.val = r.val := by
            have hval := hs.vals q' hq'
            rw [heq, hr] at hval
            exact (Option.some.inj hval).symm
          rw [hsame]
          rfl
        · rename_i hne
          rw [Function.update_of_ne hne]
          exact hs.vals q' hq'
      · rw [Option.map_some, Option.elim_some, nodes_kill]
        exact hs.nodup

end Lists

end EventDispatcherHelper

end JhCommon
