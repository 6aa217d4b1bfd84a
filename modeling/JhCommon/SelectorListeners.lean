import JhCommon.Selector

/-! The listeners of a selector: what is polled for them, and which of them a removal takes out. -/
namespace JhCommon

namespace Selector

section PollSet
variable {list rest : List ListenerNode} {n : ListenerNode} {fds : List ℤ}

/-- The descriptors that the listeners name, in the order in which each was first named. -/
def namedFds (list : List ListenerNode) : List ℤ := (list.map ListenerNode.mFd).reverse.dedup.reverse

theorem mem_namedFds {fd : ℤ} : fd ∈ namedFds list ↔ ∃ n ∈ list, n.mFd = fd := by
  rw [namedFds, List.mem_reverse, List.mem_dedup, List.mem_reverse, List.mem_map]

theorem nodup_namedFds (list : List ListenerNode) : (namedFds list).Nodup :=
  List.nodup_reverse.mpr (List.nodup_dedup _)

/-- A listener names a new descriptor behind the others, or one of them. -/
theorem namedFds_snoc (list : List ListenerNode) (n : ListenerNode) : namedFds (list ++ [n]) =
    if n.mFd ∈ namedFds list then namedFds list else namedFds list ++ [n.mFd] := by
  have hmem : n.mFd ∈ namedFds list ↔ n.mFd ∈ (list.map ListenerNode.mFd).reverse := by
    rw [mem_namedFds, List.mem_reverse, List.mem_map]
  rw [namedFds, List.map_append, List.map_singleton, List.reverse_append, List.reverse_singleton,
    List.singleton_append]
  split
  · rename_i h
    rw [List.dedup_cons_of_mem (hmem.mp h), namedFds]
  · rename_i h
    rw [List.dedup_cons_of_notMem (fun hm => h (hmem.mpr hm)), List.reverse_cons, namedFds]

/-- The masks of the listeners for a descriptor. -/
def masksOf (fd : ℤ) (list : List ListenerNode) : List (BitVec 16) :=
  (list.filter fun n => n.mFd = fd).map ListenerNode.mEvents

/-- The events that some listener for the descriptor asks for. -/
def interests (list : List ListenerNode) (fd : ℤ) : BitVec 16 := (masksOf fd list).foldr (· ||| ·) 0

/-- The events that all listeners for the descriptor ask for. -/
def shared (list : List ListenerNode) (fd : ℤ) : BitVec 16 :=
  (masksOf fd list).foldl (· &&& ·) (BitVec.allOnes 16)

/-- What is to be polled: the pipe, and each descriptor for what its listeners ask for. -/
def pollSet (list : List ListenerNode) : List PollFd :=
  ⟨none,pollIn,0⟩ :: (namedFds list).map fun fd => ⟨some fd,interests list fd,0⟩

/-- Listeners for the same descriptor ask for the same events. -/
def Agreeing (list : List ListenerNode) : Prop :=
  ∀ n ∈ list, ∀ n' ∈ list, n.mFd = n'.mFd → n.mEvents = n'.mEvents

theorem narrowEvents_map (f : ℤ → BitVec 16) (hnodup : fds.Nodup) :
    narrowEvents n (fds.map fun fd => ⟨some fd,f fd,0⟩) =
      if n.mFd ∈ fds then some (fds.map fun fd =>
        ⟨some fd,if fd = n.mFd then f fd &&& n.mEvents else f fd,0⟩)
      else none := by
  -- the descriptors differ, so that only the first match is narrowed
  induction fds with
  | nil => rfl
  | cons fd fds ih =>
    obtain ⟨hfd,hnodup⟩ := List.nodup_cons.mp hnodup
    rw [List.map_cons, narrowEvents, ih hnodup]
    by_cases heq : fd = n.mFd
    · subst heq
      have hrest : fds.map (fun fd =>
          (⟨some fd,if fd = n.mFd then f fd &&& n.mEvents else f fd,0⟩ : PollFd)) =
          fds.map fun fd => ⟨some fd,f fd,0⟩ := by
        apply List.map_congr_left
        intro fd hmem
        rw [if_neg (ne_of_mem_of_not_mem hmem hfd)]
      simp only [if_true, List.mem_cons, true_or, List.map_cons, hrest]
    · have hne : ¬(some fd : Option ℤ) = some n.mFd := fun h => heq (Option.some.inj h)
      simp only [if_neg hne, List.mem_cons, heq, Ne.symm heq, false_or, List.map_cons, if_false]
      split <;> rfl

theorem masksOf_snoc (fd : ℤ) (list : List ListenerNode) (n : ListenerNode) :
    masksOf fd (list ++ [n]) =
      if fd = n.mFd then masksOf fd list ++ [n.mEvents] else masksOf fd list := by
  unfold masksOf
  rw [List.filter_append, List.map_append]
  split
  · rename_i h
    simp [h]
  · rename_i h
    simp [Ne.symm h]

theorem shared_snoc (list : List ListenerNode) (n : ListenerNode) (fd : ℤ) :
    shared (list ++ [n]) fd =
      if fd = n.mFd then shared list fd &&& n.mEvents else shared list fd := by
  unfold shared
  rw [masksOf_snoc]
  split
  · rw [List.foldl_append]
    rfl
  · rfl

theorem shared_of_notMem {fd : ℤ} (h : fd ∉ namedFds list) : shared list fd = BitVec.allOnes 16 := by
  have hnone : masksOf fd list = [] := by
    rw [masksOf, List.map_eq_nil_iff, List.filter_eq_nil_iff]
    intro n hn
    rw [decide_eq_true_eq]
    exact fun heq => h (mem_namedFds.mpr ⟨n,hn,heq⟩)
  rw [shared, hnone]
  rfl

/-- The entries that the loop has made of the listeners so far. -/
def entries (list : List ListenerNode) : List PollFd :=
  (namedFds list).map fun fd => ⟨some fd,shared list fd,0⟩

/-- The loop makes of the next listener an entry, or narrows the one of its descriptor. -/
theorem entries_snoc (list : List ListenerNode) (n : ListenerNode) :
    entries (list ++ [n]) = (narrowEvents n (entries list)).getD
      (entries list ++ [⟨some n.mFd,n.mEvents,0⟩]) := by
  rw [entries, entries, narrowEvents_map _ (nodup_namedFds list), namedFds_snoc]
  simp only [shared_snoc]
  split
  · rfl
  · rename_i h
    rw [Option.getD_none, List.map_append, List.map_singleton, if_pos rfl, shared_of_notMem h,
      BitVec.allOnes_and]
    congr 1
    apply List.map_congr_left
    intro fd hfd
    rw [if_neg (ne_of_mem_of_not_mem hfd h)]

theorem length_namedFds_le (list rest : List ListenerNode) :
    (namedFds list).length ≤ (namedFds (list ++ rest)).length := by
  apply (nodup_namedFds list).length_le_of_subset
  intro fd hfd
  obtain ⟨n,hn,heq⟩ := mem_namedFds.mp hfd
  exact mem_namedFds.mpr ⟨n,List.mem_append_left rest hn,heq⟩

theorem fillPollFdsFrom_eq (hfew : (namedFds (list ++ rest)).length+1 < kMaxPollFds) :
    fillPollFdsFrom (entries list) rest = entries (list ++ rest) := by
  -- on what is left of the list; the entries are those of what has been passed
  induction rest generalizing list with
  | nil => rw [fillPollFdsFrom, List.append_nil]
  | cons n rest ih =>
    have hsplit : list ++ n :: rest = list ++ [n] ++ rest := List.append_cons list n rest
    rw [hsplit] at hfew ⊢
    have hnext := entries_snoc list n
    rw [fillPollFdsFrom]
    cases hnarrow : narrowEvents n (entries list) with
    | some fds =>
      rw [hnarrow, Option.getD_some] at hnext
      rw [← ih hfew, hnext]
    | none =>
      rw [hnarrow, Option.getD_none] at hnext
      have hlen : (entries (list ++ [n])).length = (namedFds (list ++ [n])).length := List.length_map _
      have hle := length_namedFds_le (list ++ [n]) rest
      simp only
      rw [← hnext, if_neg (by omega)]
      exact ih hfew

/-- Few descriptors are polled for what all of their listeners ask for. -/
theorem fillPollFds_eq (hfew : (namedFds list).length ≤ 62) :
    fillPollFds list = ⟨none,pollIn,0⟩ :: entries list := by
  have hlt : (namedFds ([] ++ list)).length+1 < kMaxPollFds := by
    rw [List.nil_append, kMaxPollFds]
    omega
  have hfill := fillPollFdsFrom_eq hlt
  rw [fillPollFds]
  exact congrArg _ hfill

theorem getLsbD_foldl_and (ms : List (BitVec 16)) (x : BitVec 16) (i : ℕ) :
    (ms.foldl (· &&& ·) x).getLsbD i = (x.getLsbD i && ms.all (·.getLsbD i)) := by
  induction ms generalizing x with
  | nil => simp
  | cons m ms ih =>
    rw [List.foldl_cons, ih, BitVec.getLsbD_and, List.all_cons, Bool.and_assoc]

theorem getLsbD_foldr_or (ms : List (BitVec 16)) (i : ℕ) :
    (ms.foldr (· ||| ·) 0).getLsbD i = ms.any (·.getLsbD i) := by
  induction ms with
  | nil => simp
  | cons m ms ih => rw [List.foldr_cons, BitVec.getLsbD_or, ih, List.any_cons]

/-- Masks have the same bits in common as in all where there is one mask only. -/
theorem and_eq_or_iff {ms : List (BitVec 16)} (hne : ms ≠ []) :
    ms.foldl (· &&& ·) (BitVec.allOnes 16) = ms.foldr (· ||| ·) 0 ↔
      ∀ m ∈ ms, ∀ m' ∈ ms, m = m' := by
  have hand (i : ℕ) (hi : i < 16) : (ms.foldl (· &&& ·) (BitVec.allOnes 16)).getLsbD i =
      ms.all (·.getLsbD i) := by
    rw [getLsbD_foldl_and, BitVec.getLsbD_allOnes, decide_eq_true hi, Bool.true_and]
  have hor := getLsbD_foldr_or ms
  constructor
  · intro heq
    -- each bit of a mask is in all of them or in none
    have hall : ∀ m ∈ ms, m = ms.foldl (· &&& ·) (BitVec.allOnes 16) := by
      intro m hm
      apply BitVec.eq_of_getLsbD_eq
      intro i hi
      have hbit := congrArg (·.getLsbD i) heq
      simp only [hand i hi, hor i] at hbit
      rw [hand i hi]
      cases hmi : m.getLsbD i with
      | true =>
        rw [hbit]
        exact (List.any_eq_true.mpr ⟨m,hm,hmi⟩).symm
      | false =>
        symm
        rw [List.all_eq_false]
        exact ⟨m,hm,by rw [hmi]; exact Bool.false_ne_true⟩
    intro m hm m' hm'
    exact (hall m hm).trans (hall m' hm').symm
  · intro hsame
    obtain ⟨m,hm⟩ := List.exists_mem_of_ne_nil ms hne
    apply BitVec.eq_of_getLsbD_eq
    intro i hi
    rw [hand i hi, hor i, Bool.eq_iff_iff, List.all_eq_true, List.any_eq_true]
    constructor
    · exact fun hall => ⟨m,hm,hall m hm⟩
    · rintro ⟨m',hm',hbit⟩ m'' hm''
      rwa [hsame m'' hm'' m' hm']

theorem mem_masksOf {fd : ℤ} {m : BitVec 16} :
    m ∈ masksOf fd list ↔ ∃ n ∈ list, n.mFd = fd ∧ n.mEvents = m := by
  simp only [masksOf, List.mem_map, List.mem_filter, decide_eq_true_eq, and_assoc]

/-- What is polled is what the listeners ask for where no two of them disagree about a descriptor,
and only there. -/
theorem fillPollFds_pollSet_iff (hfew : (namedFds list).length ≤ 62) :
    fillPollFds list = pollSet list ↔ Agreeing list := by
  -- entry by entry, since both have one for each descriptor
  have hmaps : entries list = (namedFds list).map (fun fd => ⟨some fd,interests list fd,0⟩) ↔
      ∀ fd ∈ namedFds list, shared list fd = interests list fd := by
    rw [entries, List.map_inj_left]
    simp
  rw [fillPollFds_eq hfew, pollSet, List.cons.injEq, eq_self, true_and, hmaps]
  constructor
  · intro hshared n hn n' hn' heq
    have hfd : n.mFd ∈ namedFds list := mem_namedFds.mpr ⟨n,hn,rfl⟩
    have hmem : n.mEvents ∈ masksOf n.mFd list := mem_masksOf.mpr ⟨n,hn,rfl,rfl⟩
    have hsame := (and_eq_or_iff (List.ne_nil_of_mem hmem)).mp (hshared _ hfd)
    exact hsame _ hmem _ (mem_masksOf.mpr ⟨n',hn',heq.symm,rfl⟩)
  · intro hagree fd hfd
    obtain ⟨n,hn,rfl⟩ := mem_namedFds.mp hfd
    have hmem : n.mEvents ∈ masksOf n.mFd list := mem_masksOf.mpr ⟨n,hn,rfl,rfl⟩
    apply (and_eq_or_iff (List.ne_nil_of_mem hmem)).mpr
    intro m hm m' hm'
    obtain ⟨k,hk,hkfd,rfl⟩ := mem_masksOf.mp hm
    obtain ⟨k',hk',hkfd',rfl⟩ := mem_masksOf.mp hm'
    exact hagree k hk k' hk' (hkfd.trans hkfd'.symm)

/-- A listener for one descriptor that waits for input, and one that waits for the end. -/
def disagreeing : List ListenerNode := [⟨3,pollIn,some 0,0⟩,⟨3,pollHup,some 1,0⟩]

/-- Two listeners for one descriptor that ask for the same, one of another descriptor between them. -/
def agreeing : List ListenerNode :=
  [⟨3,pollIn ||| pollHup,some 0,0⟩,⟨4,pollHup,some 1,0⟩,⟨3,pollIn ||| pollHup,some 2,0⟩]

/-- Where two listeners share an entry: they have it together, or lose it to each other. -/
theorem fillPollFds_pollSet_iff_merged :
    fillPollFds agreeing =
      [⟨none,pollIn,0⟩,⟨some 3,pollIn ||| pollHup,0⟩,⟨some 4,pollHup,0⟩] ∧
    fillPollFds agreeing = pollSet agreeing ∧ fillPollFds disagreeing ≠ pollSet disagreeing := by
  refine ⟨by decide,(fillPollFds_pollSet_iff (by decide)).mpr ?_,?_⟩
  · unfold Agreeing
    decide
  · rw [ne_eq, fillPollFds_pollSet_iff (by decide)]
    unfold Agreeing
    decide

/-- Of two listeners neither is polled for. -/
theorem loses_interests : ¬∀ list : List ListenerNode, (namedFds list).length ≤ 62 →
    fillPollFds list = pollSet list := by
  intro h
  have hset := h disagreeing (by decide)
  revert hset
  decide

end PollSet

section Removal
variable {T : Type} [DecidableEq T]

/-- A node for the descriptor and the listener. -/
def Named (fd : ℤ) (listener : ℕ) (node : ℕ × ListenerNode) : Prop :=
  node.2.mFd = fd ∧ node.2.mListener = some listener

instance (fd : ℤ) (listener : ℕ) (node : ℕ × ListenerNode) : Decidable (Named fd listener node) :=
  inferInstanceAs (Decidable (_ ∧ _))

/-- The call leaves the nodes that it does not name, as they were, and no other. -/
def RemovesNamed (s : Selector T) (a : LockOwner T) (fd : ℤ) (listener : ℕ) : Prop :=
  (s.removeListener a fd (some listener)).mList = s.mList.filter fun node => ¬Named fd listener node

theorem matches_any (node : ListenerNode) (fd : ℤ) :
    node.matches (listenerNode fd none) = decide (node.mFd = fd) := by
  simp [ListenerNode.matches, listenerNode]

@[simp] theorem changed_mList (s : Selector T) (a : LockOwner T) : (s.changed a).mList = s.mList := by
  cases a <;> rfl

/-- A call that can be made takes out the nodes of the descriptor, whoever listens. -/
theorem removeListener_mList {s : Selector T} {a : LockOwner T} (hfree : s.free a = true)
    (hlocks : s.locks a = true) (fd : ℤ) (listener : Option ℕ) :
    (s.removeListener a fd listener).mList = s.mList.filter fun node => node.2.mFd ≠ fd := by
  have hfilter : (s.mList.filter fun node => !node.2.matches (listenerNode fd none)) =
      s.mList.filter fun node => node.2.mFd ≠ fd := by
    apply List.filter_congr
    intro node _
    rw [matches_any, decide_not]
  -- the node that is looked for has the descriptor alone, and no listener
  rw [removeListener, if_pos ⟨hfree,hlocks⟩]
  simp only
  split
  · rw [changed_mList]
    exact hfilter
  · rename_i hnone
    rw [← hfilter, eq_comm, List.filter_eq_self]
    intro node hnode
    rw [Bool.not_eq_true, List.any_eq_false] at hnone
    simpa using hnone node hnode

/-- A removal takes out what it names where nobody else listens to the descriptor, and only
there. -/
theorem removesNamed_iff {s : Selector T} {a : LockOwner T} (hfree : s.free a = true)
    (hlocks : s.locks a = true) (fd : ℤ) (listener : ℕ) : s.RemovesNamed a fd listener ↔
      ∀ node ∈ s.mList, node.2.mFd = fd → node.2.mListener = some listener := by
  rw [RemovesNamed, removeListener_mList hfree hlocks]
  constructor
  · intro heq node hnode hfd
    -- a node of another listener would have to stay, and does not
    by_contra hother
    have hmem : node ∈ s.mList.filter fun node => ¬Named fd listener node :=
      List.mem_filter.mpr ⟨hnode,decide_eq_true fun h => hother h.2⟩
    rw [← heq] at hmem
    exact of_decide_eq_true (List.mem_filter.mp hmem).2 hfd
  · intro hall
    apply List.filter_congr
    intro node hnode
    apply decide_eq_decide.mpr
    exact ⟨fun hfd h => hfd h.1,fun h hfd => h ⟨hfd,hall node hnode hfd⟩⟩

/-- Two listeners for one descriptor. -/
def twoListeners : Selector Unit :=
  { (init : Selector Unit) with mList := [(0,⟨3,pollIn,some 0,0⟩),(1,⟨3,pollIn,some 1,0⟩)] }

theorem removesNamed_iff_two : twoListeners.RemovesNamed (.client ()) 3 0 ↔
    ∀ node ∈ twoListeners.mList, node.2.mFd = 3 → node.2.mListener = some 0 :=
  removesNamed_iff rfl rfl 3 0

/-- The removal of one listener takes out both. -/
theorem removes_other : ¬∀ (s : Selector Unit) (a : LockOwner Unit) (fd : ℤ) (listener : ℕ),
    s.free a = true → s.locks a = true → s.RemovesNamed a fd listener := by
  intro h
  have hremoves := h twoListeners (.client ()) 3 0 rfl rfl
  rw [RemovesNamed, removeListener_mList rfl rfl] at hremoves
  revert hremoves
  decide

end Removal

end Selector

end JhCommon
