import JhCommon.SelectorListeners
import JhCommon.SelectorLock

/-! The traversal of `callListeners` with the changes that its callbacks make: when the iterator
stays in the list, and whom it calls. -/
namespace JhCommon
open Transition

/-- What a traversal does with the nodes: it calls their listeners, and a callback removes some. -/
inductive NodeEvent
  | called (a : ℕ) (node : ListenerNode)
  | removed (a : ℕ)
  deriving DecidableEq

def NodeEvent.address : NodeEvent → ℕ
  | .called a _ => a
  | .removed a => a

/-- The node at which the iterator of `callListeners` stands, if it is not at the end. -/
def SelectorPhase.iterator : SelectorPhase → Option ℕ
  | .calling _ _ listener | .listening _ _ listener => listener
  | _ => none

namespace Selector

section Steps
variable {T : Type} [DecidableEq T]

/-- What a step has to do with the nodes. -/
def nodeEvents (s : Selector T) : SelectorAction T → List NodeEvent
  | .thread =>
    match s.thread with
    | .calling i _ (some a) =>
      match s.mList.find? (fun node => node.1 = a), s.fds[i]? with
      | some (_,node), some p =>
        if .dispatcher ∉ s.writing ∧ node.mListener ≠ none ∧
          p.fd.any (fun fd => node.matches (listenerNode fd none)) = true
        then [.called a node] else []
      | _, _ => []
    | _ => []
  | .removeListener a fd _ =>
    if s.free a = true ∧ s.locks a = true then
      (s.mList.filter fun node => node.2.matches (listenerNode fd none)).map fun node =>
        .removed node.1
    else []
  | _ => []

/-- The steps of all threads up to the return of `callListeners`. -/
def traversalStep (s : Selector T) (a : SelectorAction T) : Exec (List NodeEvent × Selector T) :=
  if s.thread.calls = true then do
    let s' ← s.next a
    .ok (s.nodeEvents a,s')
  else .ok ([],s)

/-- The thread enters `callListeners` for the entry i of fds, with what has been found for it. -/
structure Starts (s : Selector T) (i : ℕ) (fd : ℤ) (p : PollFd) : Prop where
  held : s.Held
  entry : s.fds[i]? = some p
  named : p.fd = some fd
  thread : s.thread = .calling i false (s.mList.head?.map Prod.fst)

/-- What is asked of the traversal that began in s, wherever it is: the iterator stands at a node of
the list or at the end, no listener is called behind a call or a removal of its node, all were
called or removed when it is over, and with a hang-up those that were called are gone. -/
structure Served (s : Selector T) (fd : ℤ) (revents : BitVec 16) (log : List NodeEvent)
    (t : Selector T) : Prop where
  live : ∀ a ∈ t.thread.iterator, a ∈ t.mList.map Prod.fst
  once : log.Pairwise fun e e' => ∀ node, e' ≠ .called e.address node
  matched : ∀ a node, .called a node ∈ log → node.mFd = fd ∧ node.mListener ≠ none
  all : t.thread.calls = false → ∀ x ∈ s.mList, x.2.mFd = fd → x.2.mListener ≠ none →
    .called x.1 x.2 ∈ log ∨ .removed x.1 ∈ log
  hangup : revents &&& (pollHup ||| pollNval) ≠ 0 → ∀ a node, .called a node ∈ log →
    a ∉ t.mList.map Prod.fst

/-- A callback does not remove the descriptor of the node at which the iterator stands, which is the
one behind the node that is called. -/
def Harmless (s : Selector T) : SelectorAction T → Prop
  | .removeListener .dispatcher fd _ => s.listens = true →
      ∀ a ∈ s.thread.iterator, ∀ node, (a,node) ∈ s.mList → node.mFd ≠ fd
  | _ => True

end Steps

section Nodes
variable {start list rest tail : List (ℕ × ListenerNode)} {made : ℕ} {fd : ℤ} {hup : Prop}
  {log : List NodeEvent}

/-- How far a traversal of a list has come: rest is still before it. -/
structure Visited (start list rest : List (ℕ × ListenerNode)) (made : ℕ) (fd : ℤ) (hup : Prop)
    (log : List NodeEvent) : Prop where
  suffix : rest <:+ list
  logged : ∀ e ∈ log, e.address < made
  ahead : ∀ e ∈ log, ∀ x ∈ rest, x.1 ≠ e.address
  once : log.Pairwise fun e e' => ∀ node, e' ≠ .called e.address node
  matched : ∀ a node, .called a node ∈ log → node.mFd = fd ∧ node.mListener ≠ none
  all : ∀ x ∈ start, x.2.mFd = fd → x.2.mListener ≠ none →
    .called x.1 x.2 ∈ log ∨ .removed x.1 ∈ log ∨ x ∈ rest
  gone : hup → ∀ a node, .called a node ∈ log → a ∉ list.map Prod.fst

theorem visited_start (list : List (ℕ × ListenerNode)) (made : ℕ) (fd : ℤ) (hup : Prop) :
    Visited list list list made fd hup [] where
  suffix := List.suffix_rfl
  logged := by simp
  ahead := by simp
  once := List.Pairwise.nil
  matched := by simp
  all := fun _ hx _ _ => .inr (.inr hx)
  gone := by simp

/-- A node that has just been made is put behind the list: the end stays the end. -/
theorem Visited.push (h : Visited start list rest made fd hup log) (node : ListenerNode) :
    ∃ rest', Visited start (list ++ [(made,node)]) rest' (made+1) fd hup log ∧
      rest'.head?.map Prod.fst = rest.head?.map Prod.fst := by
  obtain ⟨pre,hpre⟩ := h.suffix
  have hlogged (e : NodeEvent) (he : e ∈ log) : e.address < made+1 :=
    (h.logged e he).trans (Nat.lt_succ_self _)
  have hgone (hh : hup) (a : ℕ) (n : ListenerNode) (ha : .called a n ∈ log) :
      a ∉ (list ++ [(made,node)]).map Prod.fst := by
    rw [List.map_append, List.mem_append, not_or]
    refine ⟨h.gone hh a n ha,?_⟩
    -- a node that has been called is older
    have hlt : a < made := h.logged _ ha
    simp only [List.map_singleton, List.mem_singleton]
    exact hlt.ne
  cases rest with
  | nil => exact ⟨[],⟨List.nil_suffix,hlogged,by simp,h.once,h.matched,h.all,hgone⟩,rfl⟩
  | cons x tail =>
    refine ⟨x :: tail ++ [(made,node)],⟨⟨pre,?_⟩,hlogged,?_,h.once,h.matched,?_,hgone⟩,rfl⟩
    · rw [← List.append_assoc, hpre]
    · intro e he y hy
      rcases List.mem_append.mp hy with hy | hy
      · exact h.ahead e he y hy
      · rw [List.mem_singleton.mp hy]
        exact (h.logged e he).ne'
    · intro y hy hfd hlistener
      rcases h.all y hy hfd hlistener with hcalled | hremoved | hrest
      · exact .inl hcalled
      · exact .inr (.inl hremoved)
      · exact .inr (.inr (List.mem_append_left _ hrest))

/-- A callback removes some nodes, but not the one at which the iterator stands. -/
theorem Visited.remove (h : Visited start list rest made fd hup log)
    (hnodup : (list.map Prod.fst).Nodup) (hmade : ∀ x ∈ list, x.1 < made)
    {gone : ℕ × ListenerNode → Bool} (hhead : ∀ x ∈ rest.head?, gone x = false) :
    Visited start (list.filter fun x => !gone x) (rest.filter fun x => !gone x) made fd hup
        (log ++ (list.filter gone).map fun x => .removed x.1) ∧
      (rest.filter fun x => !gone x).head?.map Prod.fst = rest.head?.map Prod.fst := by
  have hremoved (e : NodeEvent) (he : e ∈ (list.filter gone).map fun x => NodeEvent.removed x.1) :
      ∃ y ∈ list, gone y = true ∧ e = .removed y.1 := by
    obtain ⟨y,hy,rfl⟩ := List.mem_map.mp he
    exact ⟨y,List.mem_of_mem_filter hy,List.of_mem_filter hy,rfl⟩
  -- a removal is no call
  have hcalled (a : ℕ) (node : ListenerNode)
      (ha : .called a node ∈ log ++ (list.filter gone).map fun x => NodeEvent.removed x.1) :
      .called a node ∈ log := by
    rcases List.mem_append.mp ha with ha | ha
    · exact ha
    · obtain ⟨y,-,-,hy⟩ := hremoved _ ha
      cases hy
  refine ⟨⟨h.suffix.filter _,?_,?_,?_,?_,?_,?_⟩,?_⟩
  · intro e he
    rcases List.mem_append.mp he with he | he
    · exact h.logged e he
    · obtain ⟨y,hy,-,rfl⟩ := hremoved e he
      exact hmade y hy
  · intro e he x hx
    obtain ⟨hx,hkeep⟩ := List.mem_filter.mp hx
    rcases List.mem_append.mp he with he | he
    · exact h.ahead e he x hx
    · obtain ⟨y,hy,hgone,rfl⟩ := hremoved e he
      intro heq
      obtain rfl := List.inj_on_of_nodup_map hnodup (h.suffix.subset hx) hy heq
      rw [hgone] at hkeep
      cases hkeep
  · apply List.pairwise_append.mpr
    refine ⟨h.once,?_,?_⟩
    · refine List.Pairwise.imp_of_mem (fun {e e'} _ he' _ node heq => ?_)
        (List.pairwise_of_forall fun _ _ => trivial)
      obtain ⟨y,-,-,rfl⟩ := hremoved e' he'
      cases heq
    · intro e _ e' he' node heq
      obtain ⟨y,-,-,rfl⟩ := hremoved e' he'
      cases heq
  · intro a node ha
    exact h.matched a node (hcalled a node ha)
  · intro x hx hfd hlistener
    rcases h.all x hx hfd hlistener with hlog | hlog | hrest
    · exact .inl (List.mem_append_left _ hlog)
    · exact .inr (.inl (List.mem_append_left _ hlog))
    · cases hgone : gone x with
      | true =>
        have hmem := List.mem_map_of_mem (f := fun x : ℕ × ListenerNode => NodeEvent.removed x.1)
          (List.mem_filter.mpr ⟨h.suffix.subset hrest,hgone⟩)
        exact .inr (.inl (List.mem_append_right _ hmem))
      | false => exact .inr (.inr (List.mem_filter.mpr ⟨hrest,by rw [hgone]; rfl⟩))
  · intro hh a node ha hmem
    obtain ⟨x,hx,rfl⟩ := List.mem_map.mp hmem
    exact h.gone hh _ node (hcalled _ node ha) (List.mem_map_of_mem (List.mem_of_mem_filter hx))
  · cases rest with
    | nil => rfl
    | cons x tail =>
      have hx : gone x = false := hhead x rfl
      simp [hx]

/-- The iterator passes a node whose listener is not to be called. -/
theorem Visited.pass {x : ℕ × ListenerNode} {list' : List (ℕ × ListenerNode)}
    (h : Visited start list (x :: tail) made fd hup log) (hsuffix : tail <:+ list')
    (hsub : ∀ y ∈ list', y ∈ list) (hx : x.2.mFd = fd → x.2.mListener = none) :
    Visited start list' tail made fd hup log where
  suffix := hsuffix
  logged := h.logged
  ahead := fun e he y hy => h.ahead e he y (List.mem_cons_of_mem x hy)
  once := h.once
  matched := h.matched
  all := by
    intro y hy hfd hlistener
    rcases h.all y hy hfd hlistener with hlog | hlog | hrest
    · exact .inl hlog
    · exact .inr (.inl hlog)
    · rcases List.mem_cons.mp hrest with rfl | hrest
      · exact absurd (hx hfd) hlistener
      · exact .inr (.inr hrest)
  gone := by
    intro hh a node ha hmem
    obtain ⟨y,hy,rfl⟩ := List.mem_map.mp hmem
    exact h.gone hh _ node ha (List.mem_map_of_mem (hsub y hy))

/-- The iterator passes a node and its listener is called. -/
theorem Visited.call {x : ℕ × ListenerNode} {list' : List (ℕ × ListenerNode)}
    (h : Visited start list (x :: tail) made fd hup log) (hnodup : (list.map Prod.fst).Nodup)
    (hmade : x.1 < made) (hsuffix : tail <:+ list') (hsub : ∀ y ∈ list', y ∈ list)
    (hx : x.2.mFd = fd ∧ x.2.mListener ≠ none) (hgone : hup → x.1 ∉ list'.map Prod.fst) :
    Visited start list' tail made fd hup (log ++ [.called x.1 x.2]) where
  suffix := hsuffix
  logged := by
    intro e he
    rcases List.mem_append.mp he with he | he
    · exact h.logged e he
    · rw [List.mem_singleton.mp he]
      exact hmade
  ahead := by
    intro e he y hy
    rcases List.mem_append.mp he with he | he
    · exact h.ahead e he y (List.mem_cons_of_mem x hy)
    · rw [List.mem_singleton.mp he]
      -- the address of x occurs once in the list
      have hnd := hnodup.sublist (h.suffix.sublist.map Prod.fst)
      rw [List.map_cons, List.nodup_cons] at hnd
      exact fun heq => hnd.1 (List.mem_map.mpr ⟨y,hy,heq⟩)
  once := by
    apply List.pairwise_append.mpr
    refine ⟨h.once,List.pairwise_singleton _ _,?_⟩
    intro e he e' he' node heq
    rw [List.mem_singleton.mp he'] at heq
    -- x was ahead, so it has not been called before
    exact h.ahead e he x List.mem_cons_self (NodeEvent.called.inj heq).1
  matched := by
    intro a node ha
    rcases List.mem_append.mp ha with ha | ha
    · exact h.matched a node ha
    · obtain ⟨-,rfl⟩ := NodeEvent.called.inj (List.mem_singleton.mp ha)
      exact hx
  all := by
    intro y hy hfd hlistener
    rcases h.all y hy hfd hlistener with hlog | hlog | hrest
    · exact .inl (List.mem_append_left _ hlog)
    · exact .inr (.inl (List.mem_append_left _ hlog))
    · rcases List.mem_cons.mp hrest with rfl | hrest
      · exact .inl (List.mem_append_right _ (List.mem_singleton_self _))
      · exact .inr (.inr hrest)
  gone := by
    intro hh a node ha hmem
    rcases List.mem_append.mp ha with ha | ha
    · obtain ⟨y,hy,rfl⟩ := List.mem_map.mp hmem
      exact h.gone hh _ node ha (List.mem_map_of_mem (hsub y hy))
    · obtain ⟨rfl,-⟩ := NodeEvent.called.inj (List.mem_singleton.mp ha)
      exact hgone hh hmem

/-- The nodes of a list have addresses of their own. -/
theorem others_of_nodup {pre : List (ℕ × ListenerNode)} {x : ℕ × ListenerNode}
    (hnodup : ((pre ++ x :: tail).map Prod.fst).Nodup) :
    (∀ y ∈ pre, y.1 ≠ x.1) ∧ ∀ y ∈ tail, y.1 ≠ x.1 := by
  rw [List.map_append, List.map_cons, List.nodup_append, List.nodup_cons] at hnodup
  obtain ⟨-,⟨htail,-⟩,hpre⟩ := hnodup
  constructor
  · intro y hy
    exact hpre y.1 (List.mem_map_of_mem hy) x.1 List.mem_cons_self
  · intro y hy heq
    exact htail (heq ▸ List.mem_map_of_mem hy)

theorem find_node {pre : List (ℕ × ListenerNode)} {x : ℕ × ListenerNode}
    (hnodup : ((pre ++ x :: tail).map Prod.fst).Nodup) :
    (pre ++ x :: tail).find? (fun node => node.1 = x.1) = some x := by
  have hpre : pre.find? (fun node => node.1 = x.1) = none := by
    rw [List.find?_eq_none]
    intro y hy
    rw [decide_eq_true_eq]
    exact (others_of_nodup hnodup).1 y hy
  rw [List.find?_append, hpre, Option.none_or]
  exact List.find?_cons_of_pos (by simp)

theorem nextNode_eq {pre : List (ℕ × ListenerNode)} {x : ℕ × ListenerNode}
    (hnodup : ((pre ++ x :: tail).map Prod.fst).Nodup) :
    nextNode (pre ++ x :: tail) x.1 = tail.head?.map Prod.fst := by
  have hpre : ∀ y ∈ pre, decide (y.1 ≠ x.1) = true := by
    intro y hy
    rw [decide_eq_true_eq]
    exact (others_of_nodup hnodup).1 y hy
  rw [nextNode, List.dropWhile_append_of_pos hpre, List.dropWhile_cons_of_neg (by simp),
    List.tail_cons]

theorem filter_node {pre : List (ℕ × ListenerNode)} {x : ℕ × ListenerNode}
    (hnodup : ((pre ++ x :: tail).map Prod.fst).Nodup) :
    (pre ++ x :: tail).filter (fun node => node.1 ≠ x.1) = pre ++ tail := by
  obtain ⟨hpre,htail⟩ := others_of_nodup hnodup
  rw [List.filter_append, List.filter_cons_of_neg (by simp), List.filter_eq_self.mpr,
    List.filter_eq_self.mpr]
  · exact fun y hy => decide_eq_true (htail y hy)
  · exact fun y hy => decide_eq_true (hpre y hy)

end Nodes

section Traversal
variable {T : Type} {s t t' : Selector T} {i : ℕ} {fd : ℤ} {p : PollFd} {log : List NodeEvent}

/-- The thread is at the first node of rest, between two calls or in one, or has left the list. -/
def At (t : Selector T) (i : ℕ) (rest : List (ℕ × ListenerNode)) : Prop :=
  (∃ result, t.thread = .calling i result (rest.head?.map Prod.fst) ∨
    t.thread = .listening i result (rest.head?.map Prod.fst)) ∨ t.thread.calls = false ∧ rest = []

/-- What holds all along the traversal that began in s. -/
structure Passing (s : Selector T) (i : ℕ) (fd : ℤ) (p : PollFd) (log : List NodeEvent)
    (t : Selector T) : Prop where
  held : t.Held
  entry : t.fds[i]? = some p
  named : p.fd = some fd
  visited : ∃ rest, Visited s.mList t.mList rest t.made fd
    (p.revents &&& (pollHup ||| pollNval) ≠ 0) log ∧ t.At i rest

theorem passing_start (hs : s.Starts i fd p) : Passing s i fd p [] s where
  held := hs.held
  entry := hs.entry
  named := hs.named
  visited := ⟨s.mList,visited_start s.mList s.made fd _,.inl ⟨false,.inl hs.thread⟩⟩

theorem iterator_of_at {rest : List (ℕ × ListenerNode)} (h : t.At i rest) :
    t.thread.iterator = rest.head?.map Prod.fst := by
  rcases h with ⟨result,h | h⟩ | ⟨h,rfl⟩
  · rw [h]
    rfl
  · rw [h]
    rfl
  · cases hthread : t.thread <;> rw [hthread] at h <;> first | rfl | cases h

theorem Passing.served (h : Passing s i fd p log t) : s.Served fd p.revents log t := by
  obtain ⟨rest,hv,hat⟩ := h.visited
  refine ⟨?_,hv.once,hv.matched,?_,hv.gone⟩
  · intro a ha
    rw [iterator_of_at hat] at ha
    obtain ⟨x,hx,rfl⟩ := Option.map_eq_some_iff.mp ha
    exact List.mem_map_of_mem (hv.suffix.subset (List.mem_of_mem_head? hx))
  · intro hcalls x hx hfd hlistener
    rcases hat with ⟨result,hat | hat⟩ | ⟨-,rfl⟩
    · rw [hat] at hcalls
      cases hcalls
    · rw [hat] at hcalls
      cases hcalls
    · rcases hv.all x hx hfd hlistener with hlog | hlog | hrest
      · exact .inl hlog
      · exact .inr hlog
      · cases hrest

/-- A step of another thread changes nothing that the traversal looks at. -/
theorem Passing.quiet (h : Passing s i fd p log t) (hheld : t'.Held) (hlist : t'.mList = t.mList)
    (hmade : t'.made = t.made) (hfds : t'.fds = t.fds) (hthread : t'.thread = t.thread) :
    Passing s i fd p log t' where
  held := hheld
  entry := by
    rw [hfds]
    exact h.entry
  named := h.named
  visited := by
    unfold At
    rw [hlist, hmade, hthread]
    exact h.visited

theorem Passing.aside (h : Passing s i fd p log t) (ht : t.Aside t') : Passing s i fd p log t' :=
  h.quiet (h.held.aside ht) ht.mList ht.made ht.fds ht.thread

/-- The iterator can be read exactly if it stands at a node of the list. -/
theorem callListeners_ok_iff (hentry : t.fds[i]? = some p) (result : Bool) (a : ℕ) :
    (∃ t', t.callListeners i result (some a) = .ok t') ↔ a ∈ t.mList.map Prod.fst := by
  cases hfind : t.mList.find? (fun node => node.1 = a) with
  | none =>
    have hout : a ∉ t.mList.map Prod.fst := by
      rw [List.find?_eq_none] at hfind
      intro ha
      obtain ⟨x,hx,hxa⟩ := List.mem_map.mp ha
      exact hfind x hx (decide_eq_true hxa)
    apply iff_of_false _ hout
    rintro ⟨t',h⟩
    rw [callListeners, hfind] at h
    cases h
  | some x =>
    have hx : x.1 = a := by simpa using List.find?_some hfind
    apply iff_of_true _ (List.mem_map.mpr ⟨x,List.mem_of_find?_eq_some hfind,hx⟩)
    rw [callListeners, hfind, hentry]
    dsimp only
    split <;> exact ⟨_,rfl⟩

/-- The body of the loop, at the first node of what is left of the list. -/
theorem callListeners_cons {x : ℕ × ListenerNode} {pre tail : List (ℕ × ListenerNode)}
    (hlist : t.mList = pre ++ x :: tail) (hnodup : (t.mList.map Prod.fst).Nodup)
    (hentry : t.fds[i]? = some p) (hnamed : p.fd = some fd) (result : Bool) :
    t.callListeners i result (some x.1) = .ok (
      if x.2.mFd = fd then
        let removes := p.revents &&& (pollHup ||| pollNval) ≠ 0
        let result := result || decide removes
        { t with
          mList := if removes then pre ++ tail else t.mList
          changes := if removes then t.changes+1 else t.changes
          thread :=
            if x.2.mListener = none then .calling i result (tail.head?.map Prod.fst)
            else .listening i result (tail.head?.map Prod.fst) }
      else { t with thread := .calling i result (tail.head?.map Prod.fst) }) := by
  rw [hlist] at hnodup
  have hfind := find_node hnodup
  have hfilter := filter_node hnodup
  have hmatch : (p.fd.any fun fd => x.2.matches (listenerNode fd none)) = decide (x.2.mFd = fd) := by
    rw [hnamed, Option.any_some, matches_any]
  rw [callListeners, hlist, hfind, hentry]
  simp only [hfilter, nextNode_eq hnodup, hmatch, decide_eq_true_eq]
  split <;> rfl

section
variable [DecidableEq T]

theorem caller_quiet {c : T} {ev : ℕ} (h : t.caller c ev = .ok t') :
    t'.mList = t.mList ∧ t'.made = t.made ∧ t'.fds = t.fds ∧ t'.thread = t.thread := by
  cases caller_moves h with
  | rests | asks _ _ | skips _ _ | waits _ | ends _ _ => exact ⟨rfl,rfl,rfl,rfl⟩
  | sends _ _ hpush =>
    have haside := push_aside hpush
    exact ⟨haside.mList,haside.made,haside.fds,haside.thread⟩

/-- With the traversal under way only its own callbacks can change the list. -/
theorem Passing.listening (h : Passing s i fd p log t) (hcalls : t.thread.calls = true)
    {a : LockOwner T} (hfree : t.free a = true) (hlocks : t.locks a = true) :
    a = .dispatcher ∧ ∃ rest result, t.thread = .listening i result (rest.head?.map Prod.fst) ∧
      Visited s.mList t.mList rest t.made fd (p.revents &&& (pollHup ||| pollNval) ≠ 0) log := by
  have hlock := h.held.thread hcalls
  obtain ⟨rest,hv,hat⟩ := h.visited
  have ha : a = .dispatcher := by
    have hor : t.mLock = none ∨ t.mLock = some a := of_decide_eq_true hlocks
    rw [hlock] at hor
    simpa [eq_comm] using hor
  subst ha
  refine ⟨rfl,rest,?_⟩
  rcases hat with ⟨result,hat | hat⟩ | ⟨hnone,-⟩
  · have hlistens : t.listens = true := hfree
    simp [listens, hat] at hlistens
  · exact ⟨result,hat,hv⟩
  · rw [hnone] at hcalls
    cases hcalls

theorem Passing.addListener (h : Passing s i fd p log t) (hcalls : t.thread.calls = true)
    (a : LockOwner T) (node : ListenerNode) : Passing s i fd p log (t.addListener a node) := by
  have hheld := addListener_held h.held a node
  unfold Selector.addListener at hheld ⊢
  split_ifs at hheld ⊢ with hcan
  · obtain ⟨rfl,rest,result,hthread,hv⟩ := h.listening hcalls hcan.1 hcan.2
    obtain ⟨rest',hv',hhead⟩ := hv.push node
    refine ⟨hheld,h.entry,h.named,rest',hv',.inl ⟨result,.inr ?_⟩⟩
    rw [hhead]
    exact hthread
  · exact h

theorem nodeEvents_removeListener (t : Selector T) (a : LockOwner T) (fd : ℤ)
    (listener : Option ℕ) : t.nodeEvents (.removeListener a fd listener) =
      if t.free a = true ∧ t.locks a = true then
        (t.mList.filter fun node => node.2.matches (listenerNode fd none)).map fun node =>
          .removed node.1
      else [] := rfl

theorem Passing.removeListener (h : Passing s i fd p log t) (hcalls : t.thread.calls = true)
    (a : LockOwner T) (fd' : ℤ) (listener : Option ℕ)
    (hok : t.Harmless (.removeListener a fd' listener)) :
    Passing s i fd p (log ++ t.nodeEvents (.removeListener a fd' listener))
      (t.removeListener a fd' listener) := by
  have hheld := removeListener_held h.held a fd' listener
  rw [nodeEvents_removeListener]
  unfold Selector.removeListener at hheld ⊢
  split_ifs at hheld ⊢ with hcan
  · obtain ⟨rfl,rest,result,hthread,hv⟩ := h.listening hcalls hcan.1 hcan.2
    dsimp only at hheld ⊢
    split_ifs at hheld ⊢ with hany
    · -- the node at which the iterator stands is another descriptor's
      have hhead : ∀ x ∈ rest.head?, x.2.matches (listenerNode fd' none) = false := by
        intro x hx
        have hiter : x.1 ∈ t.thread.iterator := by
          rw [hthread]
          exact Option.mem_map.mpr ⟨x,hx,rfl⟩
        have hne := hok hcan.1 x.1 hiter x.2 (hv.suffix.subset (List.mem_of_mem_head? hx))
        rw [matches_any, decide_eq_false_iff_not]
        exact hne
      obtain ⟨hv',hsame⟩ := hv.remove h.held.nodup h.held.made hhead
      refine ⟨hheld,h.entry,h.named,_,hv',.inl ⟨result,.inr ?_⟩⟩
      rw [hsame]
      exact hthread
    · have hnone : (t.mList.filter fun node => node.2.matches (listenerNode fd' none)) = [] := by
        rw [List.filter_eq_nil_iff]
        exact fun x hx hm => hany (List.any_eq_true.mpr ⟨x,hx,hm⟩)
      rw [hnone, List.map_nil, List.append_nil]
      exact h
  · rw [List.append_nil]
    exact h

theorem nodeEvents_cons {x : ℕ × ListenerNode} {pre tail : List (ℕ × ListenerNode)} {result : Bool}
    (hlist : t.mList = pre ++ x :: tail) (hnodup : (t.mList.map Prod.fst).Nodup)
    (hentry : t.fds[i]? = some p) (hnamed : p.fd = some fd) (hwriting : .dispatcher ∉ t.writing)
    (hthread : t.thread = .calling i result (some x.1)) :
    t.nodeEvents .thread =
      if x.2.mListener ≠ none ∧ x.2.mFd = fd then [.called x.1 x.2] else [] := by
  rw [hlist] at hnodup
  have hmatch : (p.fd.any fun fd => x.2.matches (listenerNode fd none)) = decide (x.2.mFd = fd) := by
    rw [hnamed, Option.any_some, matches_any]
  simp only [nodeEvents, hthread, hlist, find_node hnodup, hentry, hmatch, hwriting,
    not_false_eq_true, true_and, decide_eq_true_eq]

theorem nodeEvents_writing (h : .dispatcher ∈ t.writing) : t.nodeEvents .thread = [] := by
  unfold nodeEvents
  simp only [h, not_true_eq_false, false_and, if_false]
  split
  · split <;> rfl
  · rfl

/-- The traversal goes on at its iterator. -/
theorem Passing.callListeners (h : Passing s i fd p log t) (hheld : t'.Held)
    (hwriting : .dispatcher ∉ t.writing) {rest : List (ℕ × ListenerNode)}
    (hv : Visited s.mList t.mList rest t.made fd (p.revents &&& (pollHup ||| pollNval) ≠ 0) log)
    {result : Bool} (hthread : t.thread = .calling i result (rest.head?.map Prod.fst))
    (hstep : t.callListeners i result (rest.head?.map Prod.fst) = .ok t') :
    Passing s i fd p (log ++ t.nodeEvents .thread) t' := by
  cases rest with
  | nil =>
    have hevents : t.nodeEvents .thread = [] := by simp [nodeEvents, hthread]
    rw [hevents, List.append_nil]
    rw [← Except.ok.inj hstep] at hheld ⊢
    exact ⟨hheld,h.entry,h.named,[],hv,.inr ⟨rfl,rfl⟩⟩
  | cons x tail =>
    obtain ⟨pre,hpre⟩ := hv.suffix
    have hstep' := callListeners_cons hpre.symm h.held.nodup h.entry h.named result
    rw [List.head?_cons, Option.map_some] at hstep hthread
    rw [nodeEvents_cons hpre.symm h.held.nodup h.entry h.named hwriting hthread]
    obtain rfl := Except.ok.inj (hstep.symm.trans hstep')
    have hsub : ∀ y ∈ pre ++ tail, y ∈ t.mList := by
      intro y hy
      rw [← hpre]
      rcases List.mem_append.mp hy with hy | hy
      · exact List.mem_append_left _ hy
      · exact List.mem_append_right _ (List.mem_cons_of_mem x hy)
    have htail : tail <:+ t.mList := (List.suffix_cons x tail).trans hv.suffix
    by_cases hfd : x.2.mFd = fd
    · rw [if_pos hfd] at hheld ⊢
      -- with a hang-up the node is taken out before its listener is called
      let list' := if p.revents &&& (pollHup ||| pollNval) ≠ 0 then pre ++ tail else t.mList
      have htail' : tail <:+ list' := by
        unfold list'
        split
        · exact List.suffix_append pre tail
        · exact htail
      have hsub' : ∀ y ∈ list', y ∈ t.mList := by
        unfold list'
        split
        · exact hsub
        · exact fun _ hy => hy
      have hgone : p.revents &&& (pollHup ||| pollNval) ≠ 0 → x.1 ∉ list'.map Prod.fst := by
        intro hup
        obtain ⟨hbefore,hbehind⟩ := others_of_nodup (hpre ▸ h.held.nodup)
        unfold list'
        rw [if_pos hup, List.mem_map]
        rintro ⟨y,hy,heq⟩
        exact (List.mem_append.mp hy).elim (fun hy => hbefore y hy heq) fun hy => hbehind y hy heq
      let result' := result || decide (p.revents &&& (pollHup ||| pollNval) ≠ 0)
      by_cases hlistener : x.2.mListener = none
      · rw [if_neg (fun hc => hc.1 hlistener), List.append_nil]
        exact ⟨hheld,h.entry,h.named,tail,hv.pass htail' hsub' (fun _ => hlistener),
          .inl ⟨result',.inl (if_pos hlistener)⟩⟩
      · rw [if_pos ⟨hlistener,hfd⟩]
        have hmade := h.held.made x (hv.suffix.subset List.mem_cons_self)
        exact ⟨hheld,h.entry,h.named,tail,
          hv.call h.held.nodup hmade htail' hsub' ⟨hfd,hlistener⟩ hgone,
          .inl ⟨result',.inr (if_neg hlistener)⟩⟩
    · rw [if_neg hfd] at hheld ⊢
      rw [if_neg (fun hc => hfd hc.2), List.append_nil]
      exact ⟨hheld,h.entry,h.named,tail,hv.pass htail (fun _ hy => hy) (fun hc => absurd hc hfd),
        .inl ⟨result,.inl rfl⟩⟩

/-- The callback of the thread returns, or the traversal goes on. -/
theorem Passing.threadStep (h : Passing s i fd p log t) (hcalls : t.thread.calls = true)
    (hstep : t.threadStep = .ok t') : Passing s i fd p (log ++ t.nodeEvents .thread) t' := by
  have hheld := threadStep_held h.held hstep
  unfold Selector.threadStep at hstep
  split at hstep
  · rename_i hwriting
    rw [nodeEvents_writing hwriting, List.append_nil, ← Except.ok.inj hstep]
    exact h
  · rename_i hwriting
    obtain ⟨rest,hv,hat⟩ := h.visited
    rcases hat with ⟨result,hat | hat⟩ | ⟨hnone,-⟩
    · rw [hat] at hstep
      exact h.callListeners hheld hwriting hv hat hstep
    · have hevents : t.nodeEvents .thread = [] := by simp [nodeEvents, hat]
      rw [hat] at hstep
      rw [hevents, List.append_nil]
      rw [← Except.ok.inj hstep] at hheld ⊢
      exact ⟨hheld,h.entry,h.named,rest,hv,.inl ⟨result,.inl rfl⟩⟩
    · rw [hnone] at hcalls
      cases hcalls

theorem Passing.next {a : SelectorAction T} (h : Passing s i fd p log t)
    (hcalls : t.thread.calls = true) (hok : t.Harmless a) (hnext : t.next a = .ok t') :
    Passing s i fd p (log ++ t.nodeEvents a) t' := by
  have hquiet (hevents : t.nodeEvents a = []) (ht' : Passing s i fd p log t') :
      Passing s i fd p (log ++ t.nodeEvents a) t' := by
    rw [hevents, List.append_nil]
    exact ht'
  cases a with
  | create _ _ | sendEvent _ _ | sendEventSync _ _ _ _ | write _ | client _ | wakeupClient _
  | removeId _ | removeEvent _ | removeAll => exact hquiet rfl (h.aside (next_aside rfl hnext))
  | addListener a node =>
    rw [← Except.ok.inj hnext] at hquiet ⊢
    exact hquiet rfl (h.addListener hcalls a node)
  | removeListener a fd' listener =>
    rw [← Except.ok.inj hnext]
    exact h.removeListener hcalls a fd' listener hok
  | caller c ev =>
    obtain ⟨hlist,hmade,hfds,hthread⟩ := caller_quiet (show t.caller c ev = .ok t' from hnext)
    exact hquiet rfl (h.quiet (next_held h.held hnext) hlist hmade hfds hthread)
  | wakeup c =>
    have hheld := next_held h.held hnext
    rw [← Except.ok.inj hnext] at hquiet hheld ⊢
    apply hquiet rfl
    unfold wakeup at hheld ⊢
    split at hheld <;> exact h.quiet hheld rfl rfl rfl rfl
  | poll revents =>
    -- the thread is not in poll
    have hstays : t.poll revents = t := by
      unfold Selector.poll
      rw [if_neg]
      intro hthread
      rw [hthread] at hcalls
      cases hcalls
    rw [← Except.ok.inj hnext] at hquiet ⊢
    exact hquiet rfl (hstays.symm ▸ h)
  | thread => exact h.threadStep hcalls hnext

/-- A harmless step of the traversal keeps the iterator in the list. -/
theorem Passing.traversalStep {a : SelectorAction T} {o : List NodeEvent}
    (h : Passing s i fd p log t) (hok : t.Harmless a) (hstep : t.traversalStep a = .ok (o,t')) :
    Passing s i fd p (log ++ o) t' := by
  unfold Selector.traversalStep at hstep
  split at hstep
  · rename_i hcalls
    obtain ⟨t₁,hnext,ht'⟩ := bind_eq_ok.mp hstep
    obtain ⟨rfl,rfl⟩ := Prod.mk.inj (Except.ok.inj ht')
    exact h.next hcalls hok hnext
  · obtain ⟨rfl,rfl⟩ := Prod.mk.inj (Except.ok.inj hstep)
    rw [List.append_nil]
    exact h

/-- A removal that is not harmless leaves the iterator at a node that is gone. -/
theorem not_served_of_harmful {a : SelectorAction T} (h : Passing s i fd p log t)
    (hbad : ¬t.Harmless a) : ∃ o t', t.traversalStep a = .ok (o,t') ∧
      ∀ log, ¬s.Served fd p.revents log t' := by
  cases a with
  | removeListener b fd' listener =>
    cases b with
    | client c => exact absurd trivial hbad
    | dispatcher =>
      simp only [Harmless, not_forall, not_not] at hbad
      obtain ⟨hlistens,a,ha,node,hmem,hfd⟩ := hbad
      have hcalls : t.thread.calls = true := by
        cases hthread : t.thread <;> rw [hthread] at ha <;> first | rfl | cases ha
      have hcan : t.free .dispatcher = true ∧ t.locks .dispatcher = true :=
        ⟨hlistens,decide_eq_true (.inr (h.held.thread hcalls))⟩
      have hmatch : node.matches (listenerNode fd' none) = true := by
        rw [matches_any]
        exact decide_eq_true hfd
      have hany : (t.mList.any fun node => node.2.matches (listenerNode fd' none)) = true :=
        List.any_eq_true.mpr ⟨_,hmem,hmatch⟩
      let t' := t.removeListener .dispatcher fd' listener
      have hstep : t.traversalStep (.removeListener .dispatcher fd' listener) =
          .ok (t.nodeEvents (.removeListener .dispatcher fd' listener),t') := by
        rw [traversalStep, if_pos hcalls]
        rfl
      have hlist : t'.mList = t.mList.filter fun node => !node.2.matches (listenerNode fd' none) := by
        unfold t' removeListener
        rw [if_pos hcan]
        simp only [hany, if_true]
        rfl
      have hthread : t'.thread = t.thread := by
        unfold t' removeListener
        rw [if_pos hcan]
        simp only [hany, if_true]
        rfl
      refine ⟨_,t',hstep,?_⟩
      -- the node at which the iterator stands would have to be in the list still
      intro log hserved
      have hlive := hserved.live a (hthread.symm ▸ ha)
      rw [hlist] at hlive
      obtain ⟨x,hx,hxa⟩ := List.mem_map.mp hlive
      obtain ⟨hx,hkeep⟩ := List.mem_filter.mp hx
      obtain rfl := List.inj_on_of_nodup_map h.held.nodup hx hmem hxa
      rw [hmatch] at hkeep
      cases hkeep
  | _ => exact absurd trivial hbad

/-- The induction is over the steps that are still to come, from any state on the way. -/
theorem served_iff_of_passing {as : List (SelectorAction T)} (h : Passing s i fd p log t) :
    (∀ pre os t', pre <+: as → run traversalStep t pre = .ok (os,t') →
      s.Served fd p.revents (log ++ os.flatten) t') ↔ Guarded traversalStep Harmless t as := by
  induction as generalizing t log with
  | nil =>
    apply iff_of_true _ trivial
    intro pre os t' hpre hrun
    obtain rfl := List.prefix_nil.mp hpre
    obtain ⟨rfl,rfl⟩ := Prod.mk.inj (Except.ok.inj hrun)
    rw [List.flatten_nil, List.append_nil]
    exact h.served
  | cons a as ih =>
    constructor
    · intro hall
      have hok : t.Harmless a := by
        -- a step that is not harmless is the last one of a run that shows it
        by_contra hbad
        obtain ⟨o,t',hstep,hno⟩ := not_served_of_harmful h hbad
        exact hno _ (hall [a] [o] t' ⟨as,rfl⟩ (run_one hstep))
      refine ⟨hok,?_⟩
      intro o t' hstep
      apply (ih (h.traversalStep hok hstep)).mp
      intro pre os t'' hpre hrun
      have hserved := hall (a :: pre) (o :: os) t'' (List.cons_prefix_cons.mpr ⟨rfl,hpre⟩)
        (by simp only [run, hstep, hrun, ok_bind])
      rwa [List.flatten_cons, ← List.append_assoc] at hserved
    · rintro ⟨hok,hrest⟩ pre os t'' hpre hrun
      cases pre with
      | nil =>
        obtain ⟨rfl,rfl⟩ := Prod.mk.inj (Except.ok.inj hrun)
        rw [List.flatten_nil, List.append_nil]
        exact h.served
      | cons b pre =>
        obtain ⟨rfl,hpre'⟩ := List.cons_prefix_cons.mp hpre
        obtain ⟨o,t',os',hstep,hrun',rfl⟩ := run_cons hrun
        have hserved := (ih (h.traversalStep hok hstep)).mpr (hrest o t' hstep) pre os' t'' hpre' hrun'
        rwa [List.flatten_cons, ← List.append_assoc]

/-- The traversal is as it should be in every state that it comes to, exactly if no callback removes
the node behind the one that is called. -/
theorem served_iff_harmless (hs : s.Starts i fd p) (as : List (SelectorAction T)) :
    (∀ pre os t, pre <+: as → run traversalStep s pre = .ok (os,t) →
      s.Served fd p.revents os.flatten t) ↔ Guarded traversalStep Harmless s as :=
  served_iff_of_passing (passing_start hs)

/-- A run of the selector comes to each traversal in a state from which it starts. -/
theorem starts_of_run {as : List (SelectorAction T)} {os : List Unit}
    (hrun : run step init as = .ok (os,s)) (hthread : s.thread = .scanning i)
    (hstep : s.threadStep = .ok t) (hcalls : t.thread.calls = true) : ∃ fd p, t.Starts i fd p := by
  have hheld := threadStep_held (run_held hrun) hstep
  have hscan (hmoves : ScanMoves s i t) : ∃ fd p, t.Starts i fd p := by
    cases hmoves with
    | rests =>
      rw [hthread] at hcalls
      cases hcalls
    | ends _ | reads _ _ _ | passes _ => cases hcalls
    | enters hentry hfd _ => exact ⟨_,_,hheld,hentry,hfd,rfl⟩
  cases threadStep_moves hstep with
  | rests => exact hscan .rests
  | scans hat hs =>
    rw [hthread] at hat
    cases hat
    exact hscan (scan_moves hs)
  | fills hat | loops hat | calls hat _ | listens hat | takes hat _ | dispatches hat _ | refills hat
  | keeps hat | wakes hat =>
    rw [hthread] at hat
    cases hat

end

/-- Three threads add a listener each, the last one for descriptor 6, and there is input on 5. -/
def threeAdded : List (SelectorAction (Fin 3)) :=
  [0,1,2].flatMap (fun c => [.addListener (.client c) ⟨if c = 2 then 6 else 5,pollIn,some (c.val+1),0⟩,
    .caller c (c.val+7),.caller c (c.val+7),.write (.client c),.caller c (c.val+7)]) ++
  [.thread,.thread,.poll (some fun i => if i = 2 then 0 else pollIn),.thread,.thread]

/-- The first listener removes the third one's node while the iterator stands at the second one's. -/
def removesThird : List (SelectorAction (Fin 3)) :=
  [.thread,.removeListener .dispatcher 6 (some 3),.thread,.thread,.thread,.thread,.thread]

/-- Both listeners of the descriptor are called. -/
theorem removesThird_served : ∃ (os : List Unit) (s : Selector (Fin 3)) (os' : List (List NodeEvent))
    (t : Selector (Fin 3)), run step init threeAdded = .ok (os,s) ∧
      run traversalStep s removesThird = .ok (os',t) ∧ t.thread.calls = false ∧
      os'.flatten.map NodeEvent.address = [0,2,1] ∧ s.Served 5 pollIn os'.flatten t := by
  have hrun : ∃ os s os' t, run step init threeAdded = .ok (os,s) ∧
      s.fds[1]? = some ⟨some 5,pollIn,pollIn⟩ ∧
      s.thread = .calling 1 false (s.mList.head?.map Prod.fst) ∧
      run traversalStep s removesThird = .ok (os',t) ∧ t.thread.calls = false ∧
      os'.flatten.map NodeEvent.address = [0,2,1] ∧ Guarded traversalStep Harmless s removesThird := by
    have hremoves {s : Selector (Fin 3)} (hiterator : s.thread.iterator = some 1)
        (hlist : s.mList.map (fun x => (x.1,x.2.mFd)) = [(0,5),(1,5),(2,6)]) :
        s.Harmless (.removeListener .dispatcher 6 (some 3)) := by
      rintro - a ha node hmem hfd
      obtain rfl := Option.some.inj (hiterator.symm.trans ha)
      have hnode := List.mem_map_of_mem (f := fun x : ℕ × ListenerNode => (x.1,x.2.mFd)) hmem
      simp [hlist, hfd] at hnode
    refine ⟨_,_,_,_,rfl,rfl,rfl,rfl,rfl,rfl,.cons rfl trivial (.cons rfl (hremoves rfl rfl) ?_)⟩
    apply guarded_of_all
    intro a ha s
    rw [List.eq_of_mem_replicate (show a ∈ List.replicate 5 .thread from ha)]
    trivial
  obtain ⟨os,s,os',t,hrun,hentry,hthread,hrun',hcalls,hcalled,hguarded⟩ := hrun
  have hserved := (served_iff_harmless ⟨run_held hrun,hentry,rfl,hthread⟩ _).mpr hguarded _ os' t
    List.prefix_rfl hrun'
  exact ⟨os,s,os',t,hrun,hrun',hcalls,hcalled,hserved⟩

/-- Two threads add a listener each for descriptor 5, and there is input on it. -/
def bothAdded : List (SelectorAction Bool) :=
  [false,true].flatMap (fun c => [.addListener (.client c) ⟨5,pollIn,some (if c then 2 else 1),0⟩,
    .caller c (if c then 8 else 9),.caller c (if c then 8 else 9),.write (.client c),
    .caller c (if c then 8 else 9)]) ++
  [.thread,.thread,.poll (some fun _ => pollIn),.thread,.thread]

/-- The first listener removes its descriptor, and the second one's node goes with its own. -/
theorem removes_itself_derefs : ¬∀ (before as : List (SelectorAction Bool)) (os : List Unit)
    (s : Selector Bool) (i : ℕ) (fd : ℤ) (p : PollFd), run step init before = .ok (os,s) →
      s.Starts i fd p → run traversalStep s as ≠ .error .useAfterFree := by
  intro h
  have hrun : ∃ os s, run step init bothAdded = .ok (os,s) ∧
      s.fds[1]? = some ⟨some 5,pollIn,pollIn⟩ ∧
      s.thread = .calling 1 false (s.mList.head?.map Prod.fst) ∧
      run traversalStep s [.thread,.removeListener .dispatcher 5 (some 1),.thread,.thread] =
        .error .useAfterFree := ⟨_,_,rfl,rfl,rfl,rfl⟩
  obtain ⟨os,s,hrun,hentry,hthread,hderef⟩ := hrun
  exact h _ _ os s 1 5 _ hrun ⟨run_held hrun,hentry,rfl,hthread⟩ hderef

end Traversal

end Selector

end JhCommon
