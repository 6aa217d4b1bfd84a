import JhCommon.EventListeners
import JhCommon.Transition

/-! The dispatch of an event to the listeners of `EventDispatcherHelper`, each of which may add and
remove listeners while it runs. The nodes of those that were removed are pruned on the way. -/
namespace JhCommon
open Transition

/-- What a listener does to the list in a call. -/
inductive ListenerOp
  | add (listener : Option ℕ) (event_id : ℤ)
  | remove (listener : Option ℕ) (event_id : ℤ)
  deriving DecidableEq

/-- What happens to the listener nodes: the traversal calls, passes or deletes the one that it has
come to, and a call adds some and takes the listener out of others. -/
inductive DispatchEvent
  | called (node listener : ℕ)
  | passed (node : ℕ)
  | deleted (node : ℕ)
  | added (r : Registration)
  | removed (node : ℕ)
  deriving DecidableEq

namespace DispatchEvent

/-- The node that the traversal has come to. -/
def visited : DispatchEvent → Option ℕ
  | called node _ | passed node | deleted node => some node
  | added _ | removed _ => none

/-- What has been put into the list. -/
def addition : DispatchEvent → Option Registration
  | added r => some r
  | called _ _ | passed _ | deleted _ | removed _ => none

end DispatchEvent

namespace EventDispatcherHelper

/-- One change that a listener makes, with what it does to the nodes. -/
def change (s : EventDispatcherHelper) : ListenerOp → Exec (List DispatchEvent × EventDispatcherHelper)
  | .add listener event_id => do
    let (_,s') ← s.addEventListener listener event_id
    .ok ([.added ⟨s.cells.made,s.nodes.made,⟨listener,event_id⟩⟩],s')
  | .remove listener event_id => do
    let found ← s.lookupListener listener event_id
    let (_,s') ← s.removeEventListener listener event_id
    .ok (found.toList.map .removed,s')

end EventDispatcherHelper

/-- `lookupListeners` on its way: its iterator, the number of calls it has made, and what it has done
so far. -/
structure Lookup where
  helper : EventDispatcherHelper
  i : Option ℕ
  calls : ℕ
  log : List DispatchEvent

namespace Lookup

def start (s : EventDispatcherHelper) : Exec Lookup := do
  let i ← s.mEventList.iterBegin s.cells
  .ok ⟨s,i,0,[]⟩

/-- The condition of the loop does not hold. -/
def ended (c : Lookup) : Prop := c.i = c.helper.mEventList.iterEnd

instance (c : Lookup) : Decidable c.ended := inferInstanceAs (Decidable (_ = _))

/-- The loop of `lookupListeners`: listener number k makes the changes of react k. -/
def step (event_id : ℤ) (react : ℕ → List ListenerOp) (c : Lookup) : Exec Lookup :=
  if c.ended then .ok c
  else do
    let s := c.helper
    let a ← JhList.deref s.cells c.i
    let node ← s.nodes.read a
    match node.mListener with
    | none => do
      let nodes ← s.nodes.free a
      let (cells,i) ← JhList.erase s.cells c.i
      let i ← JhList.backward cells i
      let i ← JhList.forward cells i
      .ok { c with
        helper := { s with cells := cells, nodes := nodes }
        i := i
        log := c.log ++ [.deleted a] }
    | some listener =>
      if node.mEventId = event_id ∨ node.mEventId = kInvalidEventId then do
        let (events,s) ← run EventDispatcherHelper.change s (react c.calls)
        let i ← JhList.forward s.cells c.i
        .ok ⟨s,i,c.calls+1,c.log ++ .called a listener :: events.flatten⟩
      else do
        let i ← JhList.forward s.cells c.i
        .ok { c with i := i, log := c.log ++ [.passed a] }

end Lookup

/-- What an event does to the registrations: a new one is put behind the others. -/
def record (regs : List Registration) : DispatchEvent → List Registration
  | .added r => regs ++ [r]
  | .removed a => EventDispatcherHelper.kill a regs
  | .called _ _ | .passed _ | .deleted _ => regs

/-- The registrations that there have been, in order, with the listeners that are still there. -/
def registered (regs : List Registration) (log : List DispatchEvent) : List Registration :=
  log.foldl record regs

/-- The nodes that the traversal has come to, in order. -/
def visits (log : List DispatchEvent) : List ℕ := log.filterMap DispatchEvent.visited

/-- What calls have put into the list, in order. -/
def additions (log : List DispatchEvent) : List Registration := log.filterMap DispatchEvent.addition

/-- What is to be done with a registration: a dead node is deleted, a listener for the event is
called. -/
def verdict (event_id : ℤ) (r : Registration) : DispatchEvent :=
  match r.val.mListener with
  | none => .deleted r.node
  | some listener =>
    if r.val.mEventId = event_id ∨ r.val.mEventId = kInvalidEventId then .called r.node listener
    else .passed r.node

/-- The traversal comes to one registration after the other, and does with each what is to be done
with it as it is then. What is added is new, and what is removed has been there. -/
inductive Orderly (regs : List Registration) (event_id : ℤ) : List DispatchEvent → Prop
  | nil : Orderly regs event_id []
  | visit {log : List DispatchEvent} {r : Registration} (h : Orderly regs event_id log)
      (hr : (registered regs log)[(visits log).length]? = some r) :
      Orderly regs event_id (log ++ [verdict event_id r])
  | added {log : List DispatchEvent} {r : Registration} (h : Orderly regs event_id log)
      (hr : r.node ∉ (registered regs log).map Registration.node) :
      Orderly regs event_id (log ++ [.added r])
  | removed {log : List DispatchEvent} {a : ℕ} (h : Orderly regs event_id log)
      (ha : a ∈ (registered regs log).map Registration.node) :
      Orderly regs event_id (log ++ [.removed a])

/-- The registrations that are still before the traversal. -/
def ahead (regs : List Registration) (log : List DispatchEvent) : List Registration :=
  (registered regs log).drop (visits log).length

/-- Those that it has left in the list. -/
def kept (regs : List Registration) (log : List DispatchEvent) : List Registration :=
  ((registered regs log).take (visits log).length).filter fun r => .deleted r.node ∉ log

section Logs
variable {regs : List Registration} {log : List DispatchEvent} {e : DispatchEvent}
  {x r : Registration} {tail : List Registration}

theorem registered_snoc (regs : List Registration) (log : List DispatchEvent) (e : DispatchEvent) :
    registered regs (log ++ [e]) = record (registered regs log) e := by
  rw [registered, List.foldl_append]
  rfl

theorem additions_snoc (log : List DispatchEvent) (e : DispatchEvent) :
    additions (log ++ [e]) = additions log ++ e.addition.toList := by
  rw [additions, List.filterMap_append]
  cases hv : e.addition <;> simp [hv, additions]

/-- Nothing is lost from what there has been. -/
theorem nodes_registered (regs : List Registration) (log : List DispatchEvent) :
    (registered regs log).map Registration.node = (regs ++ additions log).map Registration.node := by
  induction log using List.reverseRecOn with
  | nil => rw [additions, List.filterMap_nil, List.append_nil]; rfl
  | append_singleton log e ih =>
    rw [registered_snoc, additions_snoc, ← List.append_assoc, List.map_append, ← ih]
    cases e with
    | added r => rw [record, List.map_append]; rfl
    | removed a => rw [record, EventDispatcherHelper.nodes_kill]; exact (List.append_nil _).symm
    | called a listener => exact (List.append_nil _).symm
    | passed a => exact (List.append_nil _).symm
    | deleted a => exact (List.append_nil _).symm

theorem length_registered (regs : List Registration) (log : List DispatchEvent) :
    (registered regs log).length = regs.length+(additions log).length := by
  have hlength := congrArg List.length (nodes_registered regs log)
  rwa [List.length_map, List.length_map, List.length_append] at hlength

theorem visits_snoc (log : List DispatchEvent) (e : DispatchEvent) :
    visits (log ++ [e]) = visits log ++ e.visited.toList := by
  rw [visits, List.filterMap_append]
  cases hv : e.visited <;> simp [hv, visits]

theorem getElem?_of_ahead (h : ahead regs log = x :: tail) :
    (registered regs log)[(visits log).length]? = some x := by
  rw [← List.head?_drop]
  exact congrArg List.head? h

theorem registered_visit {a : ℕ} (he : e.visited = some a) :
    registered regs (log ++ [e]) = registered regs log := by
  rw [registered_snoc]
  cases e <;> first | rfl | cases he

theorem length_visits_visit {a : ℕ} (he : e.visited = some a) :
    (visits (log ++ [e])).length = (visits log).length+1 := by
  rw [visits_snoc, he, List.length_append]
  rfl

/-- The traversal comes to the first registration before it. -/
theorem ahead_visit (h : ahead regs log = x :: tail) (he : e.visited = some x.node) :
    ahead regs (log ++ [e]) = tail := by
  rw [ahead, registered_visit he, length_visits_visit he, ← List.drop_drop]
  exact congrArg (List.drop 1) h

theorem take_visit (h : ahead regs log = x :: tail) (he : e.visited = some x.node) :
    (registered regs (log ++ [e])).take (visits (log ++ [e])).length =
      (registered regs log).take (visits log).length ++ [x] := by
  rw [registered_visit he, length_visits_visit he, List.take_add_one, getElem?_of_ahead h]
  rfl

theorem kept_added (h : (visits log).length ≤ (registered regs log).length) (r : Registration) :
    kept regs (log ++ [.added r]) = kept regs log := by
  rw [kept, kept, registered_snoc, visits_snoc]
  simp [record, DispatchEvent.visited, List.take_append_of_le_length h]

theorem ahead_added (h : (visits log).length ≤ (registered regs log).length) (r : Registration) :
    ahead regs (log ++ [.added r]) = ahead regs log ++ [r] := by
  rw [ahead, ahead, registered_snoc, visits_snoc]
  simp [record, DispatchEvent.visited, List.drop_append_of_le_length h]

theorem kept_removed (regs : List Registration) (log : List DispatchEvent) (a : ℕ) :
    kept regs (log ++ [.removed a]) = EventDispatcherHelper.kill a (kept regs log) := by
  rw [kept, kept, registered_snoc, visits_snoc]
  simp only [record, DispatchEvent.visited, Option.toList_none, List.append_nil,
    EventDispatcherHelper.kill, ← List.map_take, List.filter_map, Function.comp_def]
  congr 1
  apply List.filter_congr
  intro r _
  split <;> simp

theorem ahead_removed (regs : List Registration) (log : List DispatchEvent) (a : ℕ) :
    ahead regs (log ++ [.removed a]) = EventDispatcherHelper.kill a (ahead regs log) := by
  rw [ahead, ahead, registered_snoc, visits_snoc]
  simp [record, DispatchEvent.visited, EventDispatcherHelper.kill, List.map_drop]

end Logs

section Order
variable {regs : List Registration} {event_id : ℤ} {log l : List DispatchEvent} {e : DispatchEvent}
  {r : Registration} {a listener : ℕ}

@[simp] theorem visited_verdict (event_id : ℤ) (r : Registration) :
    (verdict event_id r).visited = some r.node := by
  unfold verdict
  split
  · rfl
  · split <;> rfl

theorem listener_of_called (h : verdict event_id r = .called a listener) :
    r.val.mListener = some listener := by
  unfold verdict at h
  split at h
  · cases h
  · rename_i live hlive
    split at h
    · rw [hlive, (DispatchEvent.called.inj h).2]
    · cases h

/-- The last event of a log, and what was there before it. -/
theorem orderly_snoc (h : Orderly regs event_id (l ++ [e])) : Orderly regs event_id l ∧
    ∀ a, e.visited = some a → ∃ r ∈ registered regs l, r.node = a ∧ e = verdict event_id r := by
  generalize hlog : l ++ [e] = log at h
  cases h with
  | nil => simp at hlog
  | visit h hr =>
    obtain ⟨rfl,hlast⟩ := List.append_inj' hlog rfl
    obtain rfl := List.singleton_inj.mp hlast
    refine ⟨h,?_⟩
    intro a ha
    rw [visited_verdict] at ha
    exact ⟨_,List.mem_of_getElem? hr,Option.some.inj ha,rfl⟩
  | added h _ =>
    obtain ⟨rfl,hlast⟩ := List.append_inj' hlog rfl
    obtain rfl := List.singleton_inj.mp hlast
    exact ⟨h,fun _ ha => by cases ha⟩
  | removed h _ =>
    obtain ⟨rfl,hlast⟩ := List.append_inj' hlog rfl
    obtain rfl := List.singleton_inj.mp hlast
    exact ⟨h,fun _ ha => by cases ha⟩

theorem orderly_append {t : List DispatchEvent} (h : Orderly regs event_id (l ++ t)) :
    Orderly regs event_id l := by
  induction t using List.reverseRecOn with
  | nil => rwa [List.append_nil] at h
  | append_singleton t e ih =>
    rw [← List.append_assoc] at h
    exact ih (orderly_snoc h).1

/-- A node is come to for what is to be done with it then. -/
theorem Orderly.reached (h : Orderly regs event_id log) (hl : l ++ [e] <+: log)
    (he : e.visited = some a) : ∃ r ∈ registered regs l, r.node = a ∧ e = verdict event_id r := by
  obtain ⟨t,rfl⟩ := hl
  exact (orderly_snoc (orderly_append h)).2 a he

/-- The traversal goes along the registrations in their order. -/
theorem Orderly.order (h : Orderly regs event_id log) :
    visits log <+: (registered regs log).map Registration.node := by
  induction h with
  | nil => exact List.nil_prefix
  | @visit log r _ hr ih =>
    rw [registered_visit (visited_verdict event_id r), visits_snoc, visited_verdict]
    obtain ⟨t,ht⟩ := ih
    have hnode : t.head? = some r.node := by
      have hmap : ((registered regs log).map Registration.node)[(visits log).length]? = some r.node := by
        rw [List.getElem?_map, hr, Option.map_some]
      rwa [← ht, List.getElem?_append_right le_rfl, Nat.sub_self, ← List.head?_eq_getElem?] at hmap
    obtain ⟨t',rfl⟩ : ∃ t', t = r.node :: t' := ⟨t.tail,List.eq_cons_of_mem_head? hnode⟩
    rw [← ht, List.append_cons]
    exact List.prefix_append _ _
  | added _ _ ih =>
    rw [registered_snoc, record, visits_snoc, List.map_append]
    refine List.IsPrefix.trans ?_ (List.prefix_append _ _)
    rwa [DispatchEvent.visited, Option.toList_none, List.append_nil]
  | removed _ _ ih =>
    rw [registered_snoc, record, visits_snoc, EventDispatcherHelper.nodes_kill]
    rwa [DispatchEvent.visited, Option.toList_none, List.append_nil]

/-- Where a listener has been removed its node stays dead. -/
theorem Orderly.dead (h : Orderly regs event_id log) (ha : .removed a ∈ log) :
    a ∈ (registered regs log).map Registration.node ∧
      ∀ r ∈ registered regs log, r.node = a → r.val.mListener = none := by
  induction h with
  | nil => exact absurd ha List.not_mem_nil
  | @visit log r _ _ ih =>
    have hlast : .removed a ≠ verdict event_id r := by
      intro heq
      have hvisited := visited_verdict event_id r
      rw [← heq] at hvisited
      cases hvisited
    rw [registered_visit (visited_verdict event_id r)]
    exact ih (by simpa [hlast] using ha)
  | @added log q _ hq ih =>
    obtain ⟨hmem,hdead⟩ := ih (by simpa using ha)
    rw [registered_snoc, record]
    constructor
    · rw [List.map_append]
      exact List.mem_append_left _ hmem
    · intro r hr hnode
      rcases List.mem_append.mp hr with hr | hr
      · exact hdead r hr hnode
      · -- a new node is none that was there
        rw [List.mem_singleton.mp hr] at hnode
        exact absurd (hnode ▸ hmem) hq
  | @removed log b _ hb ih =>
    rw [registered_snoc, record, EventDispatcherHelper.nodes_kill]
    have hkill (r : Registration) (hr : r ∈ EventDispatcherHelper.kill b (registered regs log)) :
        ∃ q ∈ registered regs log, r.node = q.node ∧
          (r.val.mListener = none ∨ r = q ∧ q.node ≠ b) := by
      obtain ⟨q,hq,rfl⟩ := List.mem_map.mp hr
      refine ⟨q,hq,?_⟩
      split
      · exact ⟨rfl,.inl rfl⟩
      · rename_i hne
        exact ⟨rfl,.inr ⟨rfl,hne⟩⟩
    -- the node that is removed now, or one that was dead before
    by_cases hab : a = b
    · subst hab
      refine ⟨hb,?_⟩
      intro r hr hnode
      obtain ⟨q,-,hsame,hnone | ⟨-,hne⟩⟩ := hkill r hr
      · exact hnone
      · exact absurd (hsame.symm.trans hnode) hne
    · obtain ⟨hmem,hdead⟩ := ih (by simpa [hab] using ha)
      refine ⟨hmem,?_⟩
      intro r hr hnode
      obtain ⟨q,hq,hsame,hnone | ⟨rfl,-⟩⟩ := hkill r hr
      · exact hnone
      · exact hdead r hq hnode

/-- No listener is called once it has been removed. -/
theorem Orderly.not_removed (h : Orderly regs event_id log) (hl : l ++ [.called a listener] <+: log) :
    .removed a ∉ l := by
  intro hremoved
  obtain ⟨r,hr,hnode,hverdict⟩ := h.reached hl rfl
  obtain ⟨t,rfl⟩ := hl
  have hnone := ((orderly_snoc (orderly_append h)).1.dead hremoved).2 r hr hnode
  rw [listener_of_called hverdict.symm] at hnone
  cases hnone

end Order

/-- What the log tells of the list. -/
structure Tracks (regs : List Registration) (log : List DispatchEvent) (s : EventDispatcherHelper) :
    Prop where
  count : (visits log).length ≤ (registered regs log).length
  lists : s.Lists (kept regs log ++ ahead regs log)
  nodup : ((registered regs log).map Registration.node).Nodup
  below : ∀ r ∈ registered regs log, r.node < s.nodes.made
  deleted : ∀ a, .deleted a ∈ log →
    a ∈ ((registered regs log).take (visits log).length).map Registration.node

section Changes
variable {regs : List Registration} {log : List DispatchEvent} {s : EventDispatcherHelper}
  {event_id : ℤ} {x : Registration} {tail : List Registration}

theorem tracks_start (hs : s.Lists regs) : Tracks regs [] s where
  count := Nat.zero_le _
  lists := hs
  nodup := hs.nodup
  below := fun r hr => CellHeap.lt_made (hs.vals r hr)
  deleted := fun _ ha => absurd ha List.not_mem_nil

theorem Tracks.added (h : Tracks regs log s) {s' : EventDispatcherHelper} {r : Registration}
    (hlists : s'.Lists (kept regs log ++ ahead regs log ++ [r])) (hnode : r.node = s.nodes.made)
    (hmade : s'.nodes.made = s.nodes.made+1) : Tracks regs (log ++ [.added r]) s' where
  count := by
    rw [registered_snoc, visits_snoc]
    simp only [DispatchEvent.visited, Option.toList_none, List.append_nil, record,
      List.length_append]
    exact h.count.trans (Nat.le_add_right _ _)
  lists := by
    rw [kept_added h.count, ahead_added h.count, ← List.append_assoc]
    exact hlists
  nodup := by
    rw [registered_snoc, record, List.map_append, List.map_singleton]
    apply List.nodup_append.mpr
    refine ⟨h.nodup,List.nodup_singleton _,?_⟩
    intro a ha b hb
    obtain ⟨q,hq,rfl⟩ := List.mem_map.mp ha
    rw [List.mem_singleton.mp hb, hnode]
    -- the new node is above all others
    exact (h.below q hq).ne
  below := by
    intro q hq
    rw [registered_snoc, record] at hq
    rw [hmade]
    rcases List.mem_append.mp hq with hq | hq
    · exact (h.below q hq).trans (Nat.lt_succ_self _)
    · rw [List.mem_singleton.mp hq, hnode]
      exact Nat.lt_succ_self _
  deleted := by
    intro a ha
    rw [registered_snoc, visits_snoc]
    simp only [DispatchEvent.visited, Option.toList_none, List.append_nil, record]
    rw [List.take_append_of_le_length h.count]
    apply h.deleted a
    simpa using ha

theorem Tracks.removed (h : Tracks regs log s) {s' : EventDispatcherHelper} {a : ℕ}
    (hlists : s'.Lists (EventDispatcherHelper.kill a (kept regs log ++ ahead regs log)))
    (hmade : s'.nodes.made = s.nodes.made) : Tracks regs (log ++ [.removed a]) s' where
  count := by
    rw [registered_snoc, visits_snoc]
    simp only [DispatchEvent.visited, Option.toList_none, List.append_nil, record,
      EventDispatcherHelper.kill, List.length_map]
    exact h.count
  lists := by
    rw [kept_removed, ahead_removed, ← EventDispatcherHelper.kill_append]
    exact hlists
  nodup := by
    rw [registered_snoc, record, EventDispatcherHelper.nodes_kill]
    exact h.nodup
  below := by
    intro q hq
    have hnode : q.node ∈ (registered regs log).map Registration.node := by
      rw [registered_snoc, record] at hq
      rw [← EventDispatcherHelper.nodes_kill a]
      exact List.mem_map_of_mem hq
    obtain ⟨r,hr,hqr⟩ := List.mem_map.mp hnode
    rw [hmade, ← hqr]
    exact h.below r hr
  deleted := by
    intro b hb
    rw [registered_snoc, visits_snoc]
    simp only [DispatchEvent.visited, Option.toList_none, List.append_nil, record]
    rw [List.map_take, EventDispatcherHelper.nodes_kill, ← List.map_take]
    apply h.deleted b
    simpa using hb

/-- The first registration before the traversal is none of those behind it. -/
theorem Tracks.not_visited (h : Tracks regs log s) (hx : ahead regs log = x :: tail) :
    x.node ∉ ((registered regs log).take (visits log).length).map Registration.node := by
  have hnodup := h.nodup
  rw [← List.take_append_drop (visits log).length (registered regs log)] at hnodup
  have hdrop : (registered regs log).drop (visits log).length = x :: tail := hx
  rw [hdrop, List.map_append, List.map_cons, List.nodup_middle, List.nodup_cons] at hnodup
  exact fun hmem => hnodup.1 (List.mem_append_left _ hmem)

theorem count_visit (hx : ahead regs log = x :: tail) {e : DispatchEvent} {a : ℕ}
    (he : e.visited = some a) :
    (visits (log ++ [e])).length ≤ (registered regs (log ++ [e])).length := by
  rw [registered_visit he, length_visits_visit he]
  obtain ⟨hlt,-⟩ := List.getElem?_eq_some_iff.mp (getElem?_of_ahead hx)
  exact hlt

/-- The traversal leaves a registration in the list. -/
theorem Tracks.leave (h : Tracks regs log s) (hx : ahead regs log = x :: tail) {e : DispatchEvent}
    (he : e.visited = some x.node) (hdeleted : ∀ a, .deleted a ≠ e) :
    Tracks regs (log ++ [e]) s ∧ kept regs (log ++ [e]) = kept regs log ++ [x] := by
  have hmem (a : ℕ) : .deleted a ∈ log ++ [e] ↔ .deleted a ∈ log := by
    rw [List.mem_append, List.mem_singleton, or_iff_left (hdeleted a)]
  have hx' : .deleted x.node ∉ log := fun hlog => h.not_visited hx (h.deleted _ hlog)
  have hkept : kept regs (log ++ [e]) = kept regs log ++ [x] := by
    rw [kept, take_visit hx he, List.filter_append]
    simp only [hmem, kept, List.filter_singleton, hx', not_false_eq_true, decide_true, cond_true]
  refine ⟨⟨count_visit hx he,?_,?_,?_,?_⟩,hkept⟩
  · rw [hkept, ahead_visit hx he, List.append_assoc]
    have hlists := h.lists
    rw [hx] at hlists
    exact hlists
  · rw [registered_visit he]
    exact h.nodup
  · rw [registered_visit he]
    exact h.below
  · intro a ha
    rw [take_visit hx he, List.map_append]
    exact List.mem_append_left _ (h.deleted a ((hmem a).mp ha))

/-- The traversal takes a registration out. -/
theorem Tracks.delete (h : Tracks regs log s) (hx : ahead regs log = x :: tail)
    {s' : EventDispatcherHelper} (hlists : s'.Lists (kept regs log ++ tail))
    (hmade : s'.nodes.made = s.nodes.made) :
    Tracks regs (log ++ [.deleted x.node]) s' ∧
      kept regs (log ++ [.deleted x.node]) = kept regs log := by
  have he : (DispatchEvent.deleted x.node).visited = some x.node := rfl
  have hkept : kept regs (log ++ [.deleted x.node]) = kept regs log := by
    rw [kept, take_visit hx he, List.filter_append, kept, List.filter_singleton]
    simp only [List.mem_append, List.mem_singleton, or_true, not_true_eq_false, decide_false,
      cond_false, List.append_nil]
    apply List.filter_congr
    intro r hr
    -- x is the first one that has not been visited, so it is none of those kept
    have hne : r.node ≠ x.node := by
      intro heq
      exact h.not_visited hx (heq ▸ List.mem_map_of_mem hr)
    simp [hne]
  refine ⟨⟨count_visit hx he,?_,?_,?_,?_⟩,hkept⟩
  · rw [hkept, ahead_visit hx he]
    exact hlists
  · rw [registered_visit he]
    exact h.nodup
  · rw [registered_visit he, hmade]
    exact h.below
  · intro a ha
    rw [take_visit hx he, List.map_append]
    rcases List.mem_append.mp ha with ha | ha
    · exact List.mem_append_left _ (h.deleted a ha)
    · rw [DispatchEvent.deleted.inj (List.mem_singleton.mp ha)]
      exact List.mem_append_right _ (List.mem_singleton_self _)

theorem mem_registered {r : Registration} (hr : r ∈ kept regs log ++ ahead regs log) :
    r ∈ registered regs log := by
  rcases List.mem_append.mp hr with hr | hr
  · exact List.mem_of_mem_take (List.mem_filter.mp hr).1
  · exact List.mem_of_mem_drop hr

/-- What the changes of a call leave as it is: the traversal has come no further, and the entries
that it has left in the list are where they were. -/
structure Changed (regs : List Registration) (log events : List DispatchEvent)
    (s' : EventDispatcherHelper) : Prop where
  tracks : Tracks regs (log ++ events) s'
  orderly : ∀ event_id, Orderly regs event_id log → Orderly regs event_id (log ++ events)
  visits : visits (log ++ events) = visits log
  cells : (kept regs (log ++ events)).map Registration.cell = (kept regs log).map Registration.cell

/-- Nothing has changed. -/
theorem Changed.nothing (h : Tracks regs log s) : Changed regs log [] s := by
  have hsame : log ++ [] = log := List.append_nil log
  constructor
  · rwa [hsame]
  · rw [hsame]
    exact fun _ horderly => horderly
  · rw [hsame]
  · rw [hsame]

/-- One change after another. -/
theorem Changed.trans {events events' : List DispatchEvent} {s₁ s' : EventDispatcherHelper}
    (h : Changed regs log events s₁) (h' : Changed regs (log ++ events) events' s') :
    Changed regs log (events ++ events') s' := by
  constructor
  · rw [← List.append_assoc]
    exact h'.tracks
  · intro event_id horderly
    rw [← List.append_assoc]
    exact h'.orderly event_id (h.orderly event_id horderly)
  · rw [← List.append_assoc, h'.visits, h.visits]
  · rw [← List.append_assoc, h'.cells, h.cells]

theorem change_ok (h : Tracks regs log s) (op : ListenerOp) :
    ∃ events s', s.change op = .ok (events,s') ∧ Changed regs log events s' := by
  cases op with
  | add listener event_id =>
    obtain ⟨s',hadd,hlists,-,hmade⟩ :=
      EventDispatcherHelper.addEventListener_ok h.lists listener event_id
    have hchange : s.change (.add listener event_id) =
        .ok ([.added ⟨s.cells.made,s.nodes.made,⟨listener,event_id⟩⟩],s') := by
      rw [EventDispatcherHelper.change, hadd]
      rfl
    refine ⟨_,s',hchange,h.added hlists rfl hmade,?_,?_,?_⟩
    · -- the node is made by the call
      intro _ horderly
      apply horderly.added
      intro hmem
      obtain ⟨r,hr,hnode⟩ := List.mem_map.mp hmem
      exact (h.below r hr).ne hnode
    · rw [visits_snoc]
      exact List.append_nil _
    · rw [kept_added h.count]
  | remove listener event_id =>
    obtain ⟨res,s',hremove,hlists,-,hmade⟩ :=
      EventDispatcherHelper.removeEventListener_ok h.lists listener event_id
    have hlookup := EventDispatcherHelper.lookupListener_ok h.lists listener event_id
    have hchange : s.change (.remove listener event_id) = .ok
        ((((kept regs log ++ ahead regs log).find? (EventDispatcherHelper.names listener event_id)).map
          Registration.node).toList.map .removed,s') := by
      rw [EventDispatcherHelper.change, hlookup, ok_bind, hremove]
      rfl
    refine ⟨_,s',hchange,?_⟩
    cases hfind : (kept regs log ++ ahead regs log).find?
        (EventDispatcherHelper.names listener event_id) with
    | none =>
      rw [hfind] at hlists
      simp only [Option.map_none, Option.toList_none, List.map_nil]
      -- the listener is not registered, so the list stays as it is
      exact .nothing ⟨h.count,hlists,h.nodup,fun r hr => hmade ▸ h.below r hr,h.deleted⟩
    | some r =>
      rw [hfind] at hlists
      simp only [Option.map_some, Option.toList_some, List.map_singleton]
      refine ⟨h.removed hlists hmade,?_,?_,?_⟩
      · intro _ horderly
        have hr := mem_registered (List.mem_of_find?_eq_some hfind)
        exact horderly.removed (List.mem_map_of_mem hr)
      · rw [visits_snoc]
        exact List.append_nil _
      · rw [kept_removed]
        have hcells := congrArg (List.map Prod.fst)
          (EventDispatcherHelper.places_kill r.node (kept regs log))
        simpa [EventDispatcherHelper.places, Function.comp_def] using hcells

/-- All changes of a call. -/
theorem changes_ok (h : Tracks regs log s) (ops : List ListenerOp) :
    ∃ events s', run EventDispatcherHelper.change s ops = .ok (events,s') ∧
      Changed regs log events.flatten s' := by
  induction ops generalizing log s with
  | nil => exact ⟨[],s,rfl,.nothing h⟩
  | cons op ops ih =>
    obtain ⟨events,s₁,hchange,hs₁⟩ := change_ok h op
    obtain ⟨rest,s',hrest,hs'⟩ := ih hs₁.tracks
    exact ⟨events :: rest,s',by simp only [run, hchange, hrest, ok_bind],hs₁.trans hs'⟩

end Changes

namespace Lookup

/-- What holds all along a traversal: the iterator stands at what is still before it. -/
structure Follows (regs : List Registration) (event_id : ℤ) (c : Lookup) : Prop where
  tracks : Tracks regs c.log c.helper
  iter : c.i = c.helper.iterAt (ahead regs c.log)
  orderly : Orderly regs event_id c.log

section Steps
variable {regs tail : List Registration} {event_id : ℤ} {react : ℕ → List ListenerOp} {c : Lookup}
  {x : Registration}

theorem start_follows {s : EventDispatcherHelper} (hs : s.Lists regs) :
    ∃ c, start s = .ok c ∧ Follows regs event_id c := by
  refine ⟨⟨s,s.iterAt regs,0,[]⟩,?_,tracks_start hs,rfl,.nil⟩
  rw [start, EventDispatcherHelper.begin_ok hs, ok_bind]

theorem Follows.ended_iff (h : Follows regs event_id c) : c.ended ↔ ahead regs c.log = [] := by
  rw [ended, h.iter]
  exact EventDispatcherHelper.iterAt_eq_end h.tracks.lists

/-- What the loop reads at a registration. -/
theorem Follows.reads (h : Follows regs event_id c) (hx : ahead regs c.log = x :: tail) :
    JhList.deref c.helper.cells c.i = .ok x.node ∧ c.helper.nodes.read x.node = .ok x.val ∧
      c.i = some x.cell := by
  have hlists := h.tracks.lists
  have hiter := h.iter
  rw [hx] at hlists hiter
  obtain ⟨hderef,hread⟩ := EventDispatcherHelper.deref_ok hlists
  exact ⟨hiter ▸ hderef,hread,hiter⟩

/-- What a step of the loop at a registration does: one more has been come to. -/
structure Moves (regs : List Registration) (event_id : ℤ) (c c' : Lookup) : Prop where
  follows : Follows regs event_id c'
  log : c.log <+: c'.log
  visits : (visits c'.log).length = (visits c.log).length+1

theorem Follows.not_ended (h : Follows regs event_id c) (hx : ahead regs c.log = x :: tail) :
    ¬c.ended := by
  rw [h.ended_iff, hx]
  exact List.cons_ne_nil x tail

/-- The body of the loop with the pruning by its name. -/
theorem step_eq (event_id : ℤ) (react : ℕ → List ListenerOp) (c : Lookup) : step event_id react c =
    (if c.ended then .ok c
    else do
      let a ← JhList.deref c.helper.cells c.i
      let node ← c.helper.nodes.read a
      match node.mListener with
      | none => do
        let (i,s) ← c.helper.prune c.i a
        .ok { c with helper := s, i := i, log := c.log ++ [.deleted a] }
      | some listener =>
        if node.mEventId = event_id ∨ node.mEventId = kInvalidEventId then do
          let (events,s) ← run EventDispatcherHelper.change c.helper (react c.calls)
          let i ← JhList.forward s.cells c.i
          .ok ⟨s,i,c.calls+1,c.log ++ .called a listener :: events.flatten⟩
        else do
          let i ← JhList.forward c.helper.cells c.i
          .ok { c with i := i, log := c.log ++ [.passed a] }) := by
  rw [step]
  simp only [EventDispatcherHelper.prune, bind_assoc, ok_bind]

/-- A turn of the loop in two parts, with the listener running in between. -/
theorem step_visit (event_id : ℤ) (react : ℕ → List ListenerOp) (c : Lookup) :
    (step event_id react c).map (fun c => (c.i,c.helper)) = (do
      let (phase,s) ← c.helper.visit event_id c.i
      match phase with
      | .outside | .inAgent => .ok (c.i,s)
      | .atNode _ i => .ok (i,s)
      | .inListener _ i => do
        let (_,s) ← run EventDispatcherHelper.change s (react c.calls)
        let i ← JhList.forward s.cells i
        .ok (i,s)) := by
  rw [step_eq, EventDispatcherHelper.visit]
  by_cases hend : c.ended
  · rw [if_pos hend, if_pos (show c.i = c.helper.mEventList.iterEnd from hend)]
    rfl
  rw [if_neg hend, if_neg (show ¬c.i = c.helper.mEventList.iterEnd from hend)]
  cases JhList.deref c.helper.cells c.i with
  | error e => rfl
  | ok a =>
    cases hread : c.helper.nodes.read a with
    | error e =>
      simp only [hread, ok_bind]
      rfl
    | ok node =>
      simp only [hread, ok_bind]
      cases node.mListener with
      | none => cases c.helper.prune c.i a <;> rfl
      | some listener =>
        by_cases hmatch : node.mEventId = event_id ∨ node.mEventId = kInvalidEventId
        · simp only [if_pos hmatch, ok_bind]
          cases hrun : run EventDispatcherHelper.change c.helper (react c.calls) with
          | error e => rfl
          | ok r =>
            simp only [ok_bind]
            cases JhList.forward r.2.cells c.i <;> rfl
        · simp only [if_neg hmatch]
          cases JhList.forward c.helper.cells c.i <;> rfl

/-- A dead node is taken out, and the iterator goes back and on to the next one. -/
theorem delete_step (h : Follows regs event_id c) (hx : ahead regs c.log = x :: tail)
    (hdead : x.val.mListener = none) :
    ∃ c', step event_id react c = .ok c' ∧ Moves regs event_id c c' := by
  obtain ⟨hderef,hread,hi⟩ := h.reads hx
  have hlists := h.tracks.lists
  rw [hx] at hlists
  obtain ⟨s',hprune,hlists',hnodes,-⟩ := EventDispatcherHelper.prune_ok hlists
  have hmade : s'.nodes.made = c.helper.nodes.made := by rw [hnodes]; rfl
  obtain ⟨htracks,-⟩ := h.tracks.delete hx hlists' hmade
  have he : (DispatchEvent.deleted x.node).visited = some x.node := rfl
  have hverdict : verdict event_id x = .deleted x.node := by rw [verdict, hdead]
  refine ⟨⟨s',s'.iterAt tail,c.calls,c.log ++ [.deleted x.node]⟩,?_,⟨htracks,?_,?_⟩,
    List.prefix_append _ _,length_visits_visit he⟩
  · rw [step_eq, if_neg (h.not_ended hx)]
    rw [hi] at hderef
    simp only [hi, hderef, hread, hdead, hprune, ok_bind]
  · rw [ahead_visit hx he]
  · rw [← hverdict]
    exact h.orderly.visit (getElem?_of_ahead hx)

/-- A node for another event is left as it is. -/
theorem pass_step (h : Follows regs event_id c) (hx : ahead regs c.log = x :: tail) {listener : ℕ}
    (hlive : x.val.mListener = some listener)
    (hother : ¬(x.val.mEventId = event_id ∨ x.val.mEventId = kInvalidEventId)) :
    ∃ c', step event_id react c = .ok c' ∧ Moves regs event_id c c' := by
  obtain ⟨hderef,hread,hi⟩ := h.reads hx
  have hlists := h.tracks.lists
  rw [hx] at hlists
  have hforward := EventDispatcherHelper.forward_ok hlists
  have he : (DispatchEvent.passed x.node).visited = some x.node := rfl
  obtain ⟨htracks,-⟩ := h.tracks.leave hx he (by simp)
  have hverdict : verdict event_id x = .passed x.node := by
    rw [verdict, hlive]
    exact if_neg hother
  refine ⟨⟨c.helper,c.helper.iterAt tail,c.calls,c.log ++ [.passed x.node]⟩,?_,⟨htracks,?_,?_⟩,
    List.prefix_append _ _,length_visits_visit he⟩
  · rw [step, if_neg (h.not_ended hx)]
    simp only [hderef, hread, hlive, hother, ok_bind, if_false]
    simp only [hi, hforward, ok_bind]
  · rw [ahead_visit hx he]
  · rw [← hverdict]
    exact h.orderly.visit (getElem?_of_ahead hx)

/-- A listener for the event is called. The entry is in the list whatever it changes there, so the
iterator goes on from it. -/
theorem call_step (h : Follows regs event_id c) (hx : ahead regs c.log = x :: tail) {listener : ℕ}
    (hlive : x.val.mListener = some listener)
    (hmatch : x.val.mEventId = event_id ∨ x.val.mEventId = kInvalidEventId) :
    ∃ c', step event_id react c = .ok c' ∧ Moves regs event_id c c' := by
  obtain ⟨hderef,hread,hi⟩ := h.reads hx
  let e : DispatchEvent := .called x.node listener
  have he : e.visited = some x.node := rfl
  obtain ⟨htracks,hkept⟩ := h.tracks.leave hx he (by simp [e])
  obtain ⟨events,s',hrun,hchanged⟩ := changes_ok htracks (react c.calls)
  let log' := (c.log ++ [e]) ++ events.flatten
  have hverdict : verdict event_id x = e := by
    rw [verdict, hlive]
    exact if_pos hmatch
  have horderly : Orderly regs event_id (c.log ++ [e]) := by
    rw [← hverdict]
    exact h.orderly.visit (getElem?_of_ahead hx)
  -- the last entry that has been left in the list is the one whose listener has been called
  obtain ⟨left,y,hleft,hy⟩ : ∃ left y, kept regs log' = left ++ [y] ∧ y.cell = x.cell := by
    have hcells := hchanged.cells
    rw [hkept, List.map_append, List.map_singleton] at hcells
    obtain ⟨left,last,hsplit,-,hlast⟩ := List.map_eq_append_iff.mp hcells
    obtain ⟨y,rfl,hy⟩ := List.map_eq_singleton_iff.mp hlast
    exact ⟨left,y,hsplit,hy⟩
  have hlists : s'.Lists (left ++ y :: ahead regs log') := by
    have hall := hchanged.tracks.lists
    rwa [hleft, List.append_assoc] at hall
  have hforward := EventDispatcherHelper.forward_ok hlists
  rw [hy] at hforward
  have hlog : c.log ++ e :: events.flatten = log' := List.append_cons _ _ _
  refine ⟨⟨s',s'.iterAt (ahead regs log'),c.calls+1,log'⟩,?_,⟨hchanged.tracks,rfl,?_⟩,?_,?_⟩
  · rw [step, if_neg (h.not_ended hx)]
    simp only [hderef, hread, hlive, hmatch, ok_bind, if_true, hrun]
    simp only [hi, hforward, ok_bind]
    rw [← hlog]
  · exact hchanged.orderly event_id horderly
  · exact (List.prefix_append _ _).trans (List.prefix_append _ _)
  · rw [hchanged.visits]
    exact length_visits_visit he

theorem step_moves (react : ℕ → List ListenerOp) (h : Follows regs event_id c) (hgoes : ¬c.ended) :
    ∃ c', step event_id react c = .ok c' ∧ Moves regs event_id c c' := by
  rw [h.ended_iff] at hgoes
  obtain ⟨x,tail,hx⟩ := List.exists_cons_of_ne_nil hgoes
  cases hlistener : x.val.mListener with
  | none => exact delete_step h hx hlistener
  | some listener =>
    by_cases hmatch : x.val.mEventId = event_id ∨ x.val.mEventId = kInvalidEventId
    · exact call_step h hx hlistener hmatch
    · exact pass_step h hx hlistener hmatch

theorem step_of_ended (h : c.ended) : step event_id react c = .ok c := if_pos h

/-- A step keeps what holds all along, also where the loop has ended. -/
theorem step_keeps (react : ℕ → List ListenerOp) (h : Follows regs event_id c) :
    ∃ c', step event_id react c = .ok c' ∧ Follows regs event_id c' ∧ c.log <+: c'.log := by
  by_cases hend : c.ended
  · exact ⟨c,step_of_ended hend,h,List.prefix_rfl⟩
  · obtain ⟨c',hstep,hmoves⟩ := step_moves react h hend
    exact ⟨c',hstep,hmoves.follows,hmoves.log⟩

theorem iterate_follows (react : ℕ → List ListenerOp) (h : Follows regs event_id c) (n : ℕ) :
    ∃ c', iterate (step event_id react) n c = .ok c' ∧ Follows regs event_id c' ∧
      c.log <+: c'.log := by
  let Inv (c' : Lookup) : Prop := Follows regs event_id c' ∧ c.log <+: c'.log
  have hnext (c₁ : Lookup) (hc₁ : Inv c₁) : ∃ c', step event_id react c₁ = .ok c' ∧ Inv c' := by
    obtain ⟨c',hstep,h',hlog⟩ := step_keeps react hc₁.1
    exact ⟨c',hstep,h',hc₁.2.trans hlog⟩
  exact iterate_keeps hnext n ⟨h,List.prefix_rfl⟩

/-- The traversal comes to an end where no more and more listeners are added. -/
theorem ends_iff (h : Follows regs event_id c) :
    (∃ n c', iterate (step event_id react) n c = .ok c' ∧ c'.ended) ↔
      ∃ B, ∀ n c', iterate (step event_id react) n c = .ok c' → (additions c'.log).length ≤ B := by
  constructor
  · -- what has been added at some time is in the log at the end
    rintro ⟨n,c',hrun,hend⟩
    refine ⟨(additions c'.log).length,?_⟩
    intro m c₁ hrun₁
    obtain ⟨c₀,hrun₀,h₀,-⟩ := iterate_follows react h m
    obtain rfl := Except.ok.inj (hrun₀.symm.trans hrun₁)
    obtain ⟨d,hrest,-,hlog⟩ := iterate_follows react h₀ n
    have hsame : Except.ok d = (.ok c' : Exec Lookup) :=
      calc (.ok d : Exec Lookup)
          = iterate (step event_id react) (m+n) c := by rw [iterate_add, hrun₀, ok_bind, hrest]
        _ = iterate (step event_id react) (n+m) c := by rw [Nat.add_comm]
        _ = .ok c' := by rw [iterate_add, hrun, ok_bind, iterate_halted (step_of_ended hend)]
    rw [← Except.ok.inj hsame]
    exact (hlog.filterMap DispatchEvent.addition).length_le
  · -- each step comes to one more registration, and there is an end of these
    rintro ⟨B,hB⟩
    let Inv (c' : Lookup) : Prop :=
      Follows regs event_id c' ∧ ∃ n, iterate (step event_id react) n c = .ok c'
    have hcount (c' : Lookup) (hc' : Inv c') : (visits c'.log).length ≤ regs.length+B := by
      obtain ⟨h',n,hrun⟩ := hc'
      calc (visits c'.log).length
          ≤ (registered regs c'.log).length := h'.tracks.count
        _ = regs.length+(additions c'.log).length := length_registered regs c'.log
        _ ≤ regs.length+B := Nat.add_le_add_left (hB n c' hrun) _
    let left (c' : Lookup) : ℕ := regs.length+B-(visits c'.log).length
    have hnext (c₁ : Lookup) (hc₁ : Inv c₁) (hgoes : ¬c₁.ended) :
        ∃ c₂, step event_id react c₁ = .ok c₂ ∧ Inv c₂ ∧ left c₂ < left c₁ := by
      obtain ⟨h₁,n,hrun⟩ := hc₁
      obtain ⟨c₂,hstep,hmoves⟩ := step_moves react h₁ hgoes
      have hc₂ : Inv c₂ := by
        refine ⟨hmoves.follows,n+1,?_⟩
        rw [iterate_add, hrun, ok_bind, iterate, hstep]
        rfl
      have hless := hcount c₂ hc₂
      have hmore := hmoves.visits
      refine ⟨c₂,hstep,hc₂,?_⟩
      simp only [left]
      omega
    obtain ⟨n,c',hrun,-,hend⟩ := iterate_ends Nat.lt_wfRel.wf left hnext ⟨h,0,rfl⟩
    exact ⟨n,c',hrun,hend⟩

end Steps

/-- What can be said of a traversal on its way. The nodes come in the order of their registration and
each once, and what is done with one is decided by what it is then. -/
structure Dispatched (regs : List Registration) (event_id : ℤ) (c : Lookup) : Prop where
  order : visits c.log <+: (regs ++ additions c.log).map Registration.node
  once : (visits c.log).Nodup
  reached : ∀ l e a, l ++ [e] <+: c.log → e.visited = some a →
    ∃ r ∈ registered regs l, r.node = a ∧ e = verdict event_id r
  removed : ∀ l a listener, l ++ [.called a listener] <+: c.log → .removed a ∉ l
  lists : c.helper.Lists (kept regs c.log ++ ahead regs c.log)
  ended : c.ended → visits c.log = (regs ++ additions c.log).map Registration.node

theorem Follows.dispatched {regs : List Registration} {event_id : ℤ} {c : Lookup}
    (h : Follows regs event_id c) : Dispatched regs event_id c := by
  have horder := h.orderly.order
  constructor
  case order =>
    rw [← nodes_registered]
    exact horder
  case once =>
    exact h.tracks.nodup.sublist horder.sublist
  case reached =>
    exact fun l e a hl he => h.orderly.reached hl he
  case removed =>
    exact fun l a listener hl => h.orderly.not_removed hl
  case lists =>
    exact h.tracks.lists
  case ended =>
    intro hend
    have hall : (registered regs c.log).length ≤ (visits c.log).length :=
      List.drop_eq_nil_iff.mp (h.ended_iff.mp hend)
    rw [← nodes_registered]
    apply horder.eq_of_length_le
    rwa [List.length_map]

/-- A dispatch goes well whatever the listeners change, and it comes to an end unless they add more
and more. -/
theorem dispatch_tolerates {s : EventDispatcherHelper} {regs : List Registration} (hs : s.Lists regs)
    (event_id : ℤ) (react : ℕ → List ListenerOp) :
    ∃ c₀, start s = .ok c₀ ∧
      (∀ n, ∃ c, iterate (step event_id react) n c₀ = .ok c ∧ Dispatched regs event_id c) ∧
      ((∃ n c, iterate (step event_id react) n c₀ = .ok c ∧ c.ended) ↔
        ∃ B, ∀ n c, iterate (step event_id react) n c₀ = .ok c → (additions c.log).length ≤ B) := by
  obtain ⟨c₀,hstart,h₀⟩ := start_follows hs
  refine ⟨c₀,hstart,?_,ends_iff h₀⟩
  intro n
  obtain ⟨c,hrun,hc,-⟩ := iterate_follows react h₀ n
  exact ⟨c,hrun,hc.dispatched⟩

/-- A list with one listener, which takes itself out and puts another one in. -/
theorem dispatch_tolerates_replacement : ∃ s c₀,
    s.Lists [⟨2,0,⟨some 1,5⟩⟩] ∧ start s = .ok c₀ ∧
      ∀ n, ∃ c, iterate (step 5 fun k => if k = 0 then [.remove (some 1) 5,.add (some 2) 5] else [])
        n c₀ = .ok c ∧ Dispatched [⟨2,0,⟨some 1,5⟩⟩] 5 c := by
  obtain ⟨s,-,hs,-,-⟩ :=
    EventDispatcherHelper.addEventListener_ok EventDispatcherHelper.init_lists (some 1) 5
  obtain ⟨c₀,hstart,hall,-⟩ := dispatch_tolerates hs 5
    fun k => if k = 0 then [.remove (some 1) 5,.add (some 2) 5] else []
  exact ⟨s,c₀,hs,hstart,hall⟩

end Lookup

end JhCommon
