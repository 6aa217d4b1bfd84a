import JhCommon.Watching

/-! The nodes that sockets and files have in the lists of their selectors, where traversals stand in
them, and what adding, removing and dropping a node does. -/
namespace JhCommon

namespace Watching

def Watched.mFd : Watched → ℤ
  | .socket k => k.mFd
  | .file f => f.mFd

def Watched.mSelector : Watched → Option ℕ
  | .socket k => k.mSelector
  | .file f => f.mSelector

/-- A node that the object at a has in the list of a selector. A socket is asked about its output for
as long only as it waits for its connection. -/
structure Listens (a : ℕ) (o : Watched) (sel : ℕ) (n : ListenerNode) : Prop where
  listener : n.mListener = some a
  fd : n.mFd = o.mFd
  opened : o.mFd ≠ -1
  selector : o.mSelector = some sel
  socket : ∀ k, o = .socket k → k.mConnected = true ∧ k.mListener ≠ none ∧
    (n.mEvents = pollIn ∨ n.mEvents = pollIn ||| pollOut ∧ k.mConnectedAsync = true)
  file : ∀ f, o = .file f → n.mPrivateData = a

/-- A socket that is connected, and has a listener and a selector. -/
def Watched.Wants (o : Watched) (sel : ℕ) : Prop :=
  ∃ k, o = .socket k ∧ k.mConnected = true ∧ k.mSelector = some sel ∧ k.mListener ≠ none

/-- Every node belongs to an object that has the descriptor of the node, and its selector. No
descriptor has two nodes, and a socket that has to be listened to has one, if it is not x and the
selector has not dropped it. The iterator of a traversal stands in the list. -/
structure SoundBut (w : Watching) (x : Option ℕ) : Prop where
  old : ∀ a o, w.objs a = some o → a < w.made
  apart : ∀ a b o o', w.objs a = some o → w.objs b = some o' → o.mFd = o'.mFd → o.mFd ≠ -1 → a = b
  connected : ∀ a k, w.objs a = some (.socket k) → k.mConnected = true → k.mFd ≠ -1
  listed : ∀ sel, ∀ n ∈ w.mLists sel, ∃ a o, w.objs a = some o ∧ Listens a o sel n
  once : ∀ sel, ((w.mLists sel).map ListenerNode.mFd).Nodup
  heard : ∀ a o sel, w.objs a = some o → some a ≠ x → o.Wants sel →
    a ∈ w.lost ∨ ∃ n ∈ w.mLists sel, n.mListener = some a
  walked : ∀ sel, ∀ t ∈ w.traversals sel, ∃ rest, t.rest = some rest ∧ rest <:+ w.mLists sel

def Sound (w : Watching) : Prop := w.SoundBut none

/-- No selector has a node for the object. -/
def Quiet (w : Watching) (a : ℕ) : Prop := ∀ sel, ∀ n ∈ w.mLists sel, n.mListener ≠ some a

/-- The iterator of a traversal stands at a node of the object. -/
def Ahead (w : Watching) (a : ℕ) : Prop :=
  ∃ sel, ∃ t ∈ w.traversals sel, ∃ n rest, t.rest = some (n :: rest) ∧ n.mListener = some a

/-- The system has not given the descriptor to anyone. -/
def Fresh (w : Watching) (fd : ℤ) : Prop := fd ≠ -1 ∧ ∀ a o, w.objs a = some o → o.mFd ≠ fd

def Pending.socket : Pending → ℕ
  | .handleClose s | .handleAccept s => s

/-- What is called is there, new descriptors are fresh, and calls of the system fail for the
descriptor -1. A listener that leaves a socket to its caller has not deleted it, and a selector is in
one traversal at a time. -/
def Admits (w : Watching) : WatchingOp → Prop
  | .newSocket _ _ fd => w.Fresh fd
  | .connect s res | .bind s res | .listen s res =>
    ∃ k, w.objs s = some (.socket k) ∧ (k.mFd = -1 → res ≠ 0)
  | .connectTimeout s calls | .connectAsync s calls =>
    ∃ k, w.objs s = some (.socket k) ∧ (k.mFd = -1 → calls.getFlags = false)
  | .accept s fd => (∃ k, w.objs s = some (.socket k)) ∧ ∀ fd' ∈ fd, w.Fresh fd'
  | .setSelector s _ _ | .close s _ | .delete s _ => ∃ k, w.objs s = some (.socket k)
  | .newFile => True
  | .pipe fd fd' => fd ≠ fd' ∧ w.Fresh fd ∧ w.Fresh fd'
  | .openFile f fd => (∃ x, w.objs f = some (.file x)) ∧ ∀ fd', fd = .ok fd' → w.Fresh fd'
  | .setFileSelector f _ _ _ | .closeFile f _ | .deleteFile f _ => ∃ x, w.objs f = some (.file x)
  | .callListeners sel _ _ => w.traversals sel = none
  | .visit _ calls => ∀ fd ∈ calls.accept, w.Fresh fd
  | .returned i answer _ =>
    ∀ c, w.calls[i]? = some c → answer = false → ∃ k, w.objs c.socket = some (.socket k)

/-- A file is not opened, closed or deleted while a selector has it, and nothing is taken out of its
selector where a traversal goes on to it. -/
def Careful (w : Watching) : WatchingOp → Prop
  | .openFile f _ | .closeFile f _ | .deleteFile f _ => w.Quiet f
  | .setSelector a _ _ | .close a _ | .delete a _ | .setFileSelector a _ _ _ => ¬w.Ahead a
  | .returned i answer _ => answer = false → ∀ c, w.calls[i]? = some c → ¬w.Ahead c.socket
  | _ => True

variable {w : Watching} {a s sel : ℕ} {o p : Watched} {k : Socket} {f : File} {x : Option ℕ}
  {n : ListenerNode} {fd : ℤ}

theorem Sound.but (h : w.Sound) (x : Option ℕ) : w.SoundBut x where
  old := h.old
  apart := h.apart
  connected := h.connected
  listed := h.listed
  once := h.once
  heard a o sel ho _ hwants := h.heard a o sel ho (Option.some_ne_none a) hwants
  walked := h.walked

theorem start_sound : start.Sound where
  old a o ho := by cases ho
  apart a b o o' ho := by cases ho
  connected a k ho := by cases ho
  listed sel n hn := by cases hn
  once sel := List.nodup_nil
  heard a o sel ho := by cases ho
  walked sel t ht := by cases ht

/-- Nothing is said of the calls that have not returned. -/
theorem Sound.waiting (h : w.Sound) (cs : List Pending) : Sound { w with calls := cs } :=
  ⟨h.old,h.apart,h.connected,h.listed,h.once,h.heard,h.walked⟩

theorem mem_removeListener {sel' : ℕ} : n ∈ (w.removeListener sel fd).mLists sel' ↔
    n ∈ w.mLists sel' ∧ (sel' = sel → n.mFd ≠ fd) := by
  by_cases hsel : sel' = sel
  · subst hsel
    simp [removeListener, Selector.matches_any]
  · simp [removeListener, hsel]

theorem mem_addListener {sel' : ℕ} {events : BitVec 16} {pd : ℤ} :
    n ∈ (w.addListener sel fd events a pd).mLists sel' ↔
      n ∈ w.mLists sel' ∨ sel' = sel ∧ n = ⟨fd,events,some a,pd⟩ := by
  by_cases hsel : sel' = sel
  · subst hsel
    simp [addListener]
  · simp [addListener, hsel]

theorem objs_put (w : Watching) (a : ℕ) (o : Watched) : (w.put a o).objs a = some o := Function.update_self ..

theorem objs_put_of_ne (o : Watched) {b : ℕ} (hb : b ≠ a) : (w.put a o).objs b = w.objs b :=
  Function.update_of_ne hb ..

theorem objs_free (w : Watching) (a : ℕ) : (w.free a).objs a = none := Function.update_self ..

theorem objs_free_of_ne {b : ℕ} (hb : b ≠ a) : (w.free a).objs b = w.objs b := Function.update_of_ne hb ..

theorem objs_alloc (w : Watching) (o : Watched) : (w.alloc o).objs w.made = some o := objs_put ..

theorem objs_alloc_of_ne (o : Watched) {b : ℕ} (hb : b ≠ w.made) : (w.alloc o).objs b = w.objs b :=
  objs_put_of_ne o hb

theorem put_put (o p : Watched) : (w.put a o).put a p = w.put a p := by
  simp [put]

/-- A node belongs to its listener. -/
theorem SoundBut.owner (h : w.SoundBut x) (hn : n ∈ w.mLists sel) (hl : n.mListener = some a) :
    ∃ o, w.objs a = some o ∧ Listens a o sel n := by
  obtain ⟨b,o,ho,hb⟩ := h.listed sel n hn
  obtain rfl := Option.some.inj (hl.symm.trans hb.listener)
  exact ⟨o,ho,hb⟩

/-- Who has the descriptor of a node is its listener. -/
theorem SoundBut.mine (h : w.SoundBut x) (hn : n ∈ w.mLists sel) (ho : w.objs a = some o)
    (hfd : n.mFd = o.mFd) : n.mListener = some a := by
  obtain ⟨b,o',ho',hb⟩ := h.listed sel n hn
  obtain rfl := h.apart b a o' o ho' ho (hb.fd.symm.trans hfd) hb.opened
  exact hb.listener

theorem SoundBut.quiet (h : w.SoundBut x) (ho : w.objs a = some o)
    (hnone : ∀ sel n, ¬Listens a o sel n) : w.Quiet a := by
  intro sel n hn hl
  obtain ⟨o',ho',hlistens⟩ := h.owner hn hl
  obtain rfl := Option.some.inj (ho.symm.trans ho')
  exact hnone sel n hlistens

theorem SoundBut.quiet_closed (h : w.SoundBut x) (ho : w.objs a = some o) (hfd : o.mFd = -1) : w.Quiet a :=
  h.quiet ho fun _ _ hlistens => hlistens.opened hfd

theorem SoundBut.not_ahead (h : w.SoundBut x) (hquiet : w.Quiet a) : ¬w.Ahead a := by
  rintro ⟨sel,t,ht,n,rest,hrest,hl⟩
  obtain ⟨rest',hrest',hsuffix⟩ := h.walked sel t ht
  obtain rfl := Option.some.inj (hrest.symm.trans hrest')
  exact hquiet sel n (hsuffix.subset List.mem_cons_self) hl

/-- An iterator that stands in a list stands in it behind a node that is added. -/
theorem Traversal.push_rest {t : Traversal} {rest list : List ListenerNode} (hrest : t.rest = some rest)
    (hsuffix : rest <:+ list) (node : ListenerNode) :
    ∃ rest', (t.push node).rest = some rest' ∧ rest' <:+ list ++ [node] := by
  cases rest with
  | nil =>
    refine ⟨[],?_,List.nil_suffix⟩
    rw [Traversal.push, hrest]
    exact hrest
  | cons n rest =>
    obtain ⟨pre,rfl⟩ := hsuffix
    refine ⟨n :: rest ++ [node],?_,pre,(List.append_assoc ..).symm⟩
    rw [Traversal.push, hrest]

/-- An iterator stays in its list while the node that it stands at does. -/
theorem Traversal.remove_rest {t : Traversal} {rest list : List ListenerNode} (hrest : t.rest = some rest)
    (hsuffix : rest <:+ list) (hhead : ∀ m ∈ rest.head?, m.matches n = false) :
    ∃ rest', (t.remove n).rest = some rest' ∧ rest' <:+ list.filter fun node => !node.matches n := by
  have hstays : rest.head?.any (fun node => node.matches n) = false := by
    cases rest with
    | nil => rfl
    | cons m rest => exact hhead m rfl
  refine ⟨_,?_,hsuffix.filter _⟩
  simp only [Traversal.remove, hrest, Option.bind_some, hstays, Bool.false_eq_true, if_false]

/-- The object that has a descriptor leaves the list of its selector. -/
theorem Sound.remove (h : w.Sound) (ho : w.objs a = some o) (hsel : o.mSelector = some sel)
    (hahead : ¬w.Ahead a) :
    (w.removeListener sel o.mFd).SoundBut (some a) ∧ (w.removeListener sel o.mFd).Quiet a := by
  constructor
  · constructor
    case old => exact h.old
    case apart => exact h.apart
    case connected => exact h.connected
    case listed => exact fun sel' n hn => h.listed sel' n (mem_removeListener.mp hn).1
    case once =>
      intro sel'
      by_cases hsel' : sel' = sel
      · subst hsel'
        rw [removeListener]
        simp only [Function.update_self]
        exact (h.once sel').sublist (List.filter_sublist.map _)
      · simpa [removeListener, Function.update_of_ne hsel'] using h.once sel'
    case heard =>
      intro b o' sel' ho' hb hwants
      apply (h.heard b o' sel' ho' (Option.some_ne_none b) hwants).imp_right
      rintro ⟨n,hn,hl⟩
      refine ⟨n,mem_removeListener.mpr ⟨hn,?_⟩,hl⟩
      -- the node would be the object's that leaves
      intro _ hfd
      exact hb (hl.symm.trans (h.mine hn ho hfd))
    case walked =>
      intro sel' t ht
      by_cases hsel' : sel' = sel
      · subst hsel'
        rw [removeListener] at ht ⊢
        simp only [Function.update_self] at ht ⊢
        obtain ⟨t,hwalks,rfl⟩ := Option.map_eq_some_iff.mp ht
        obtain ⟨rest,hrest,hsuffix⟩ := h.walked sel' t hwalks
        apply Traversal.remove_rest hrest hsuffix
        -- a node of the descriptor would be the object's own
        intro m hm
        rw [Selector.matches_any, decide_eq_false_iff_not]
        intro hfd
        cases rest with
        | nil => cases hm
        | cons n rest =>
          obtain rfl := Option.some.inj hm
          have hl := h.mine (hsuffix.subset List.mem_cons_self) ho hfd
          exact hahead ⟨sel',t,hwalks,n,rest,hrest,hl⟩
      · have hkeep : (w.removeListener sel o.mFd).mLists sel' = w.mLists sel' :=
          Function.update_of_ne hsel' ..
        have hwalks : (w.removeListener sel o.mFd).traversals sel' = w.traversals sel' :=
          Function.update_of_ne hsel' ..
        rw [hwalks] at ht
        rw [hkeep]
        exact h.walked sel' t ht
  · intro sel' n hn hl
    obtain ⟨hmem,hfd⟩ := mem_removeListener.mp hn
    obtain ⟨o',ho',hlistens⟩ := h.owner hmem hl
    obtain rfl := Option.some.inj (ho.symm.trans ho')
    exact hfd (Option.some.inj (hlistens.selector.symm.trans hsel)) hlistens.fd

theorem Sound.leave (h : w.Sound) (ho : w.objs a = some o) (hahead : ¬w.Ahead a) :
    (w.leave o.mFd o.mSelector).SoundBut (some a) ∧ (w.leave o.mFd o.mSelector).Quiet a := by
  cases hsel : o.mSelector with
  | some sel => exact h.remove ho hsel hahead
  | none =>
    refine ⟨h.but (some a),h.quiet ho ?_⟩
    intro sel n hlistens
    exact Option.some_ne_none sel (hlistens.selector.symm.trans hsel)

/-- An object is written to. Its nodes remain its own, and if it has to be listened to it had to be
before. -/
theorem SoundBut.write (h : w.SoundBut x) (ho : w.objs a = some o)
    (hlistens : ∀ sel, ∀ n ∈ w.mLists sel, Listens a o sel n → Listens a p sel n)
    (hfd : ∀ b o₁, w.objs b = some o₁ → o₁.mFd = p.mFd → p.mFd ≠ -1 → b = a)
    (hk : ∀ k, p = .socket k → k.mConnected = true → k.mFd ≠ -1)
    (hwants : some a ≠ x → ∀ sel, p.Wants sel → o.Wants sel) : (w.put a p).SoundBut x := by
  have hother {b : ℕ} {o₁ : Watched} (hb : b ≠ a) : (w.put a p).objs b = some o₁ ↔ w.objs b = some o₁ := by
    rw [objs_put_of_ne p hb]
  have hself {o₁ : Watched} (ho₁ : (w.put a p).objs a = some o₁) : p = o₁ := by
    rw [objs_put] at ho₁
    exact Option.some.inj ho₁
  constructor
  case old =>
    intro b o₁ ho₁
    by_cases hb : b = a
    · exact hb ▸ h.old a o ho
    · exact h.old b o₁ ((hother hb).mp ho₁)
  case apart =>
    intro b c o₁ o₂ ho₁ ho₂ heq hopen
    by_cases hb : b = a
    · subst hb
      by_cases hc : c = b
      · exact hc.symm
      · obtain rfl := hself ho₁
        exact (hfd c o₂ ((hother hc).mp ho₂) heq.symm hopen).symm
    · by_cases hc : c = a
      · subst hc
        obtain rfl := hself ho₂
        exact hfd b o₁ ((hother hb).mp ho₁) heq (heq ▸ hopen)
      · exact h.apart b c o₁ o₂ ((hother hb).mp ho₁) ((hother hc).mp ho₂) heq hopen
  case connected =>
    intro b k₁ ho₁
    by_cases hb : b = a
    · subst hb
      exact hk k₁ (hself ho₁)
    · exact h.connected b k₁ ((hother hb).mp ho₁)
  case listed =>
    intro sel n hn
    obtain ⟨b,o₁,ho₁,hb⟩ := h.listed sel n hn
    by_cases hba : b = a
    · subst hba
      obtain rfl := Option.some.inj (ho.symm.trans ho₁)
      exact ⟨b,p,objs_put ..,hlistens sel n hn hb⟩
    · exact ⟨b,o₁,(hother hba).mpr ho₁,hb⟩
  case once => exact h.once
  case heard =>
    intro b o₁ sel ho₁ hb hwants₁
    by_cases hba : b = a
    · subst hba
      obtain rfl := hself ho₁
      exact h.heard b o sel ho hb (hwants hb sel hwants₁)
    · exact h.heard b o₁ sel ((hother hba).mp ho₁) hb hwants₁
  case walked => exact h.walked

/-- An object that no selector has is written to. -/
theorem SoundBut.put (h : w.SoundBut (some a)) (hquiet : w.Quiet a) (ho : w.objs a = some o)
    (hfd : ∀ b o₁, w.objs b = some o₁ → o₁.mFd = p.mFd → p.mFd ≠ -1 → b = a)
    (hk : ∀ k, p = .socket k → k.mConnected = true → k.mFd ≠ -1) :
    (w.put a p).SoundBut (some a) ∧ (w.put a p).Quiet a := by
  refine ⟨h.write ho ?_ hfd hk fun hne => absurd rfl hne,hquiet⟩
  exact fun sel n hn hlistens => absurd hlistens.listener (hquiet sel n hn)

/-- What is written has the descriptor that was there before. -/
theorem SoundBut.put_same (h : w.SoundBut (some a)) (hquiet : w.Quiet a) (ho : w.objs a = some o)
    (hfd : p.mFd = o.mFd) (hk : ∀ k, p = .socket k → k.mConnected = true → k.mFd ≠ -1) :
    (w.put a p).SoundBut (some a) ∧ (w.put a p).Quiet a := by
  apply h.put hquiet ho _ hk
  intro b o₁ ho₁ heq hopen
  exact h.apart b a o₁ o ho₁ ho (heq.trans hfd) (heq ▸ hopen)

theorem SoundBut.put_closed (h : w.SoundBut (some a)) (hquiet : w.Quiet a) (ho : w.objs a = some o)
    (hfd : p.mFd = -1) (hk : ∀ k, p = .socket k → k.mConnected = false) :
    (w.put a p).SoundBut (some a) ∧ (w.put a p).Quiet a := by
  apply h.put hquiet ho
  · exact fun b o₁ _ _ hopen => absurd hfd hopen
  · intro k hk' hconnected
    exact absurd ((hk k hk').symm.trans hconnected) Bool.false_ne_true

/-- An object that need not be listened to. -/
theorem SoundBut.settle (h : w.SoundBut (some a)) (ho : w.objs a = some o) (hno : ∀ sel, ¬o.Wants sel) :
    w.Sound where
  old := h.old
  apart := h.apart
  connected := h.connected
  listed := h.listed
  once := h.once
  heard b o' sel ho' _ hwants := by
    by_cases hb : b = a
    · subst hb
      obtain rfl := Option.some.inj (ho.symm.trans ho')
      exact absurd hwants (hno sel)
    · exact h.heard b o' sel ho' (fun he => hb (Option.some.inj he)) hwants
  walked := h.walked

/-- An object that no selector has goes into the list of its own. -/
theorem SoundBut.add (h : w.SoundBut (some a)) (hquiet : w.Quiet a) (ho : w.objs a = some o)
    {events : BitVec 16} {pd : ℤ} (hlistens : Listens a o sel ⟨fd,events,some a,pd⟩) :
    (w.addListener sel fd events a pd).Sound where
  old := h.old
  apart := h.apart
  connected := h.connected
  listed sel' n hn := by
    rcases mem_addListener.mp hn with hold | ⟨hsel,hnew⟩
    · exact h.listed sel' n hold
    · exact ⟨a,o,ho,by rw [hsel, hnew]; exact hlistens⟩
  once sel' := by
    by_cases hsel : sel' = sel
    · subst hsel
      simp only [addListener, Function.update_self, List.map_append, List.map_cons, List.map_nil]
      refine (h.once sel').append (List.nodup_singleton fd) ?_
      -- another node of the descriptor would be the object's own
      intro fd' hmem hfd'
      obtain ⟨n,hn,rfl⟩ := List.mem_map.mp hmem
      exact hquiet sel' n hn (h.mine hn ho ((List.mem_singleton.mp hfd').trans hlistens.fd))
    · simpa [addListener, Function.update_of_ne hsel] using h.once sel'
  heard b o' sel' ho' _ hwants := by
    by_cases hb : b = a
    · subst hb
      obtain rfl := Option.some.inj (ho.symm.trans ho')
      obtain ⟨k,rfl,-,hsel,-⟩ := hwants
      have hsame : sel' = sel := Option.some.inj (hsel.symm.trans hlistens.selector)
      exact .inr ⟨_,mem_addListener.mpr (.inr ⟨hsame,rfl⟩),rfl⟩
    · rcases h.heard b o' sel' ho' (fun he => hb (Option.some.inj he)) hwants with hlost | ⟨n,hn,hl⟩
      · exact .inl (Finset.mem_erase.mpr ⟨hb,hlost⟩)
      · exact .inr ⟨n,mem_addListener.mpr (.inl hn),hl⟩
  walked sel' t ht := by
    by_cases hsel : sel' = sel
    · subst hsel
      simp only [addListener, Function.update_self] at ht ⊢
      obtain ⟨t,hwalks,rfl⟩ := Option.map_eq_some_iff.mp ht
      obtain ⟨rest,hrest,hsuffix⟩ := h.walked sel' t hwalks
      exact Traversal.push_rest hrest hsuffix _
    · simp only [addListener, Function.update_of_ne hsel] at ht ⊢
      exact h.walked sel' t ht

/-- An object without a descriptor can be deleted. -/
theorem Sound.free (h : w.Sound) (hquiet : w.Quiet a) : (w.free a).Sound := by
  have hother {b : ℕ} {o : Watched} (ho : (w.free a).objs b = some o) : b ≠ a ∧ w.objs b = some o := by
    by_cases hb : b = a
    · subst hb
      rw [objs_free] at ho
      cases ho
    · rw [objs_free_of_ne hb] at ho
      exact ⟨hb,ho⟩
  constructor
  case old => exact fun b o ho => h.old b o (hother ho).2
  case apart => exact fun b c o o' ho ho' => h.apart b c o o' (hother ho).2 (hother ho').2
  case connected => exact fun b k ho => h.connected b k (hother ho).2
  case listed =>
    intro sel n hn
    obtain ⟨b,o,ho,hlistens⟩ := h.listed sel n hn
    have hb : b ≠ a := fun hb => hquiet sel n hn (hb ▸ hlistens.listener)
    refine ⟨b,o,?_,hlistens⟩
    rw [objs_free_of_ne hb]
    exact ho
  case once => exact h.once
  case heard => exact fun b o sel ho => h.heard b o sel (hother ho).2
  case walked => exact h.walked

/-- A new object has a fresh descriptor, or none. -/
theorem Sound.alloc (h : w.Sound) (hfd : w.Fresh o.mFd ∨ o.mFd = -1) (hno : ∀ sel, ¬o.Wants sel)
    (hk : ∀ k, o = .socket k → k.mConnected = true → k.mFd ≠ -1) : (w.alloc o).Sound := by
  have hmade {b : ℕ} {o₁ : Watched} (ho₁ : (w.alloc o).objs b = some o₁) :
      b = w.made ∧ o = o₁ ∨ b ≠ w.made ∧ w.objs b = some o₁ := by
    by_cases hb : b = w.made
    · subst hb
      rw [objs_alloc] at ho₁
      exact .inl ⟨rfl,Option.some.inj ho₁⟩
    · rw [objs_alloc_of_ne o hb] at ho₁
      exact .inr ⟨hb,ho₁⟩
  have hfresh {b : ℕ} {o₁ : Watched} (ho₁ : w.objs b = some o₁) (heq : o₁.mFd = o.mFd) : o.mFd = -1 := by
    rcases hfd with hfresh | hnone
    · exact absurd heq (hfresh.2 b o₁ ho₁)
    · exact hnone
  constructor
  case old =>
    intro b o₁ ho₁
    rcases hmade ho₁ with ⟨hb,-⟩ | ⟨-,hold⟩
    · exact hb ▸ Nat.lt_succ_self w.made
    · exact (h.old b o₁ hold).trans (Nat.lt_succ_self w.made)
  case apart =>
    intro b c o₁ o₂ ho₁ ho₂ heq hopen
    rcases hmade ho₁ with ⟨hb,rfl⟩ | ⟨hb,hold₁⟩ <;> rcases hmade ho₂ with ⟨hc,rfl⟩ | ⟨hc,hold₂⟩
    · exact hb.trans hc.symm
    · exact absurd (hfresh hold₂ heq.symm) hopen
    · exact absurd (heq.trans (hfresh hold₁ heq)) hopen
    · exact h.apart b c o₁ o₂ hold₁ hold₂ heq hopen
  case connected =>
    intro b k ho₁
    rcases hmade ho₁ with ⟨-,hk'⟩ | ⟨-,hold⟩
    · exact hk k hk'
    · exact h.connected b k hold
  case listed =>
    intro sel n hn
    obtain ⟨b,o₁,ho₁,hlistens⟩ := h.listed sel n hn
    have hb : b ≠ w.made := (h.old b o₁ ho₁).ne
    refine ⟨b,o₁,?_,hlistens⟩
    rw [objs_alloc_of_ne o hb]
    exact ho₁
  case once => exact h.once
  case heard =>
    intro b o₁ sel ho₁ hb hwants
    rcases hmade ho₁ with ⟨-,rfl⟩ | ⟨-,hold⟩
    · exact absurd hwants (hno sel)
    · exact h.heard b o₁ sel hold hb hwants
  case walked => exact h.walked

/-- The iterator of a traversal goes on. -/
theorem Sound.advance (h : w.Sound) {t : Traversal} {rest : List ListenerNode}
    (ht : w.traversals sel = some t) (hrest : t.rest = some (n :: rest)) :
    Sound { w with traversals := Function.update w.traversals sel (some { t with rest := some rest }) } where
  old := h.old
  apart := h.apart
  connected := h.connected
  listed := h.listed
  once := h.once
  heard := h.heard
  walked sel' t' ht' := by
    by_cases hsel : sel' = sel
    · subst hsel
      obtain ⟨rest',hrest',hsuffix⟩ := h.walked sel' t ht
      obtain rfl := Option.some.inj (hrest.symm.trans hrest')
      simp only [Function.update_self, Option.mem_some_iff] at ht'
      subst ht'
      exact ⟨rest,rfl,(List.suffix_cons n rest).trans hsuffix⟩
    · exact h.walked sel' t' ((Function.update_of_ne hsel ..).symm.trans ht')

/-- A node that its selector drops is one of an object that is lost. -/
theorem Sound.hangUp (h : w.Sound) {t : Traversal} {pre rest : List ListenerNode}
    (hlist : w.mLists sel = pre ++ n :: rest) (ht : w.traversals sel = some t) (hrest : t.rest = some rest)
    (revents : BitVec 16) : (w.hangUp sel n rest revents).Sound := by
  rw [Watching.hangUp]
  split
  case isFalse => exact h
  case isTrue =>
    have hfront : (w.mLists sel).take ((w.mLists sel).length - (rest.length+1)) ++ rest = pre ++ rest := by
      rw [hlist]
      simp
    rw [hfront]
    have hsub {sel' : ℕ} : (Function.update w.mLists sel (pre ++ rest) sel').Sublist (w.mLists sel') := by
      by_cases hsel : sel' = sel
      · subst hsel
        rw [Function.update_self, hlist]
        exact List.Sublist.append (List.Sublist.refl pre) (List.sublist_cons_self n rest)
      · rw [Function.update_of_ne hsel]
    have hmem {n' : ListenerNode} {sel' : ℕ} (hn' : n' ∈ w.mLists sel') (hne : n' ≠ n) :
        n' ∈ Function.update w.mLists sel (pre ++ rest) sel' := by
      by_cases hsel : sel' = sel
      · subst hsel
        rw [hlist, List.mem_append, List.mem_cons] at hn'
        rw [Function.update_self, List.mem_append]
        exact hn'.imp_right fun hn' => hn'.resolve_left hne
      · rw [Function.update_of_ne hsel]
        exact hn'
    constructor
    case old => exact h.old
    case apart => exact h.apart
    case connected => exact h.connected
    case listed => exact fun sel' n' hn => h.listed sel' n' (hsub.mem hn)
    case once => exact fun sel' => (h.once sel').sublist (hsub.map _)
    case heard =>
      intro b o sel' ho hb hwants
      rcases h.heard b o sel' ho hb hwants with hlost | ⟨n',hn',hl⟩
      · exact .inl (Finset.mem_union_left _ hlost)
      · by_cases hne : n' = n
        -- it is the node that is dropped
        · refine .inl (Finset.mem_union_right _ ?_)
          rw [← hne, hl]
          simp
        · exact .inr ⟨n',hmem hn' hne,hl⟩
    case walked =>
      intro sel' t' ht'
      by_cases hsel : sel' = sel
      · subst hsel
        obtain rfl := Option.some.inj (ht.symm.trans ht')
        refine ⟨rest,hrest,?_⟩
        simp only [Function.update_self]
        exact List.suffix_append pre rest
      · simp only [Function.update_of_ne hsel]
        exact h.walked sel' t' ht'

theorem objs_leave (w : Watching) (fd : ℤ) (x : Option ℕ) : (w.leave fd x).objs = w.objs := by
  cases x <;> rfl

theorem objs_hangUp (w : Watching) (sel : ℕ) (n : ListenerNode) (rest : List ListenerNode)
    (revents : BitVec 16) : (w.hangUp sel n rest revents).objs = w.objs := by
  rw [Watching.hangUp]
  split <;> rfl

theorem traversals_hangUp (w : Watching) (sel : ℕ) (n : ListenerNode) (rest : List ListenerNode)
    (revents : BitVec 16) : (w.hangUp sel n rest revents).traversals = w.traversals := by
  rw [Watching.hangUp]
  split <;> rfl

end Watching

end JhCommon
