import JhCommon.RegexWalk

/-! A matching without a wrong turn finds a prefix of its subject in the language of the regex, where
there is one. The induction is on the syntax of the regex. -/
namespace JhCommon
open Transition

namespace Matching

/-- The matching is at position c. The positions that are allowed for what comes next are among
those where what stands in front can end; and it can end nowhere further on. -/
structure Comes (m₀ : Matching) (starts : Set ℕ) (allowed : ℤ → Prop) (c : ℕ) (m : Matching) :
    Prop where
  leads : Leads step m₀ m
  pos : m.data.curPos = c
  sound : ∀ p : ℕ, allowed p → p ≤ c → p ∈ starts
  some : ∃ p : ℕ, allowed p ∧ p ≤ c
  furthest : m₀.Branched m ∨ ∀ p ∈ starts, p ≤ c

/-- What an element begins with is taken from positions that are allowed. -/
def Admits (m₀ : Matching) (allowed : ℤ → Prop) (c : ℕ) (a : ElementAddr) : Prop :=
  ∀ b (q : ℕ), Element.Begins a b → m₀.LeftFrom b q → q ≤ c → allowed q

/-- The call returns, and says whether a word of the language begins at one of the positions. -/
def Answers (m₀ : Matching) (s : List UInt8) (starts : Set ℕ) (l : Language UInt8)
    (ends : ElementAddr → Prop) (calls : List ParseCall) (m : Matching) : Prop :=
  ∃ m', Leads step m m' ∧ m'.calls = calls ∧
    (m'.point = .returned true ∧ (∃ x e q c, ends x ∧ m₀.LeftFrom x q ∧ m₀.mRoot.get x = some e ∧
      m₀.Comes (endsFrom s l starts) (e.Reaches q) c m') ∨
    m'.point = .returned false ∧ endsFrom s l starts = ∅)

section
variable {k : ℕ} {root e : Element} {s : List UInt8} {m₀ m m' : Matching} {a : ElementAddr}
  {starts : Set ℕ} {allowed : ℤ → Prop} {c : ℕ} {l : Language UInt8} {ends : ElementAddr → Prop}
  {calls : List ParseCall}

theorem Comes.of_same (h : m₀.Comes starts allowed c m) (hleads : Leads step m m')
    (hdata : m'.data = m.data) : m₀.Comes starts allowed c m' := by
  refine ⟨h.leads.trans hleads,by rw [hdata, h.pos],h.sound,h.some,?_⟩
  exact h.furthest.imp_left fun hbranched => hbranched.leads hleads

theorem Answers.of_leads (hleads : Leads step m m') (h : m₀.Answers s starts l ends calls m') :
    m₀.Answers s starts l ends calls m := by
  obtain ⟨n,hn,hcalls,hends⟩ := h
  exact ⟨n,hleads.trans hn,hcalls,hends⟩

/-- Nothing that is allowed reaches further. -/
theorem LeftAt.furthest {chars : Set UInt8} {mark : RepeatMark} {top q n q' j : ℕ}
    (h : LeftAt m₀ s a chars mark top q n m) (hle : q' ≤ top) (hj : j ∈ mark.counts)
    (hletters : LettersAt s chars q' j) : q'+j ≤ q+n := by
  obtain ⟨hmin,hmax⟩ := hj
  by_contra hfurther
  rcases Nat.lt_or_ge q q' with hlt | hge
  · exact h.later q' hlt hle (hletters.sub le_rfl (by omega))
  · rcases h.most with hnot | hfull
    · exact hnot (hletters.sub hge (by omega))
    · omega

theorem LeftAt.sound {chars : Set UInt8} {mark : RepeatMark} {top q n p : ℕ}
    (h : LeftAt m₀ s a chars mark top q n m) (hfor : e.StandsFor chars mark) (hq : q ∈ starts)
    (hreaches : e.Reaches q p) (hp : p ≤ q+n) :
    p ∈ endsFrom s (mark.repeats (letters chars)) starts := by
  obtain ⟨hmin,hmax⟩ := hreaches
  rw [hfor.least] at hmin
  rw [hfor.most] at hmax
  have hnonneg := mark.min_nonneg
  rw [RepeatMark.repeats_eq, mem_endsFrom_letters]
  refine ⟨q,hq,p-q,⟨by omega,by omega⟩,h.taken.sub le_rfl (by omega),by omega⟩

theorem Missing.endsFrom_eq {chars : Set UInt8} {mark : RepeatMark} {least top : ℕ}
    (h : Missing s chars mark least top) (hleast : ∀ p ∈ starts, least ≤ p)
    (hfurthest : ∀ p ∈ starts, p ≤ top) : endsFrom s (mark.repeats (letters chars)) starts = ∅ := by
  rw [RepeatMark.repeats_eq, Set.eq_empty_iff_forall_notMem]
  intro p hp
  obtain ⟨q,hq,j,⟨hmin,hmax⟩,hletters,-⟩ := mem_endsFrom_letters.mp hp
  rcases h with hlimits | hnone
  · omega
  · exact hnone q (hleast q hq) (hfurthest q hq) (hletters.sub le_rfl (by omega))

/-- A terminal or a class. -/
theorem Straight.single (ho : m₀.Straight) (hin : Inside k root s m₀) {chars : Set UInt8}
    {mark : RepeatMark} (he : root.get a = some e) (hfor : e.StandsFor chars mark)
    (hcomes : m₀.Comes starts allowed c m) (hadmits : m₀.Admits allowed c a)
    (hleast : ∀ p ∈ starts, root.leastBefore a ≤ p) (hpoint : m.point = .element a) :
    m₀.Answers s starts (mark.repeats (letters chars)) (root.Ends a) m.calls m := by
  have hm := ho.steady hin hcomes.leads
  obtain ⟨m₁,h₁,-⟩ := hm.toInside.step (hm.ready m .refl)
  have henter : m.enterLoops a = .ok m₁ := by
    rw [← processElement_loops (by rwa [hm.tree]) hfor.kind, ← step_element hpoint]
    exact h₁
  obtain rfl := enterLoops_inv henter
  have hloops : Looping m₀ s a chars mark c c 0 _ :=
    ⟨hcomes.leads.tail h₁,by rw [hcomes.pos],by simpa using hcomes.pos,rfl,lettersAt_zero s chars c,
      by have := mark.max_nonneg; omega,le_rfl,fun q' hlt hle => absurd hle (by omega)⟩
  obtain ⟨m₂,hleads₂,hcalls₂,hends⟩ := ho.loops hin he hfor hloops
  have hto₂ : Leads step m m₂ := (Leads.step h₁).trans hleads₂
  refine ⟨m₂,hto₂,hcalls₂,?_⟩
  rcases hends with ⟨hpoint₂,q,n,hleft⟩ | ⟨hpoint₂,hmissing,u,hu,hgives⟩
  · have hq : q ∈ starts := hcomes.sound q (hadmits a q (.self a) hleft.left hleft.le) hleft.le
    have htree := hin.tree
    refine .inl ⟨hpoint₂,a,e,q,q+n,.self a,hleft.left,by rwa [htree],?_⟩
    refine ⟨hcomes.leads.trans hto₂,hleft.pos,?_,?_,?_⟩
    · intro p hreaches hp
      exact hleft.sound hfor hq hreaches hp
    · have henough := hleft.enough
      have hlimits := hleft.limits
      have hnonneg := mark.min_nonneg
      refine ⟨q+mark.min.toNat,?_,by omega⟩
      unfold Element.Reaches
      rw [hfor.least, hfor.most]
      push_cast
      omega
    · rcases hcomes.furthest with hbranched | hfurthest
      · exact .inl (hbranched.leads hto₂)
      · right
        intro p hp
        rw [RepeatMark.repeats_eq] at hp
        obtain ⟨q',hq',j,hj,hletters,rfl⟩ := mem_endsFrom_letters.mp hp
        exact hleft.furthest (hfurthest q' hq') hj hletters
  · -- it gives up, and so no group is left with alternatives
    right
    refine ⟨hpoint₂,hmissing.endsFrom_eq hleast ?_⟩
    rcases hcomes.furthest with ⟨v,hv,hvm,hcommits⟩ | hfurthest
    · exact absurd hgives (ho.commits v u hv ((hvm.tail h₁).trans hu) hcommits)
    · exact hfurthest

/-- The walk goes on to the first element of a sequence. -/
theorem Straight.enter (ho : m₀.Straight) (hin : Inside k root s m₀) {t : ElementAddr} {p : Element}
    (hp : root.get t = some p) (htype : p.data.mType = .typeSequence) (hleads : Leads step m₀ m)
    (hpoint : m.point = .element t) (hcalls : m.calls = .subTree t t :: calls) :
    p.children ≠ [] ∧ ∃ m', Leads step m m' ∧ m'.point = .element (0 :: t) ∧
      m'.calls = .subTree t (0 :: t) :: calls ∧ m'.data = m.data := by
  have hm := ho.steady hin hleads
  have hp' : m.mRoot.get t = some p := by rwa [hm.tree]
  have hproper := ho.proper m hleads
  unfold Proper at hproper
  simp only [hpoint] at hproper
  have hne := (hproper p hp').2 htype
  -- the sequence itself returns at once, and its first element is next
  have hstep : m.step = .ok (m.returns true) := by
    rw [step_element hpoint, processElement_sequence hp' htype]
  have hsome : (m.mRoot.get (0 :: t)).isSome = true := by
    obtain ⟨e,es,hcons⟩ := List.exists_cons_of_ne_nil hne
    rw [Element.get, hp', Option.bind_some, hcons]
    rfl
  have hchild : m.mRoot.mChild t = some (0 :: t) := if_pos hsome
  have hnext : nextNode m.mRoot t t p.data.mType = .ok (some (0 :: t)) := by
    rw [nextNode, htype, if_pos (by decide), hchild]
  have hstep₂ : (m.returns true).step = .ok { m.returns true with
      calls := .subTree t (0 :: t) :: calls, point := .element (0 :: t) } := by
    have hcalls' : (m.returns true).calls = .subTree t t :: calls := hcalls
    have he : (m.returns true).elementAt t = .ok p := elementAt_eq hp'
    have hnext' : nextNode (m.returns true).mRoot t t p.data.mType = .ok (some (0 :: t)) := hnext
    rw [step_subTree rfl hcalls', continueSubTree, if_neg (by decide), he, ok_bind, hnext', ok_bind]
  exact ⟨hne,_,(Leads.step hstep).tail hstep₂,rfl,rfl,rfl⟩

/-- Behind an element of a sequence the walk goes on to the next one, or it is through. -/
theorem step_behind (htree : m.mRoot = root) {t : ElementAddr} {i : ℕ} (he : root.get (i :: t) = some e)
    (hchildless : e.data.mType ≠ .typeClass ∧ e.data.mType ≠ .typeOr → e.children = [])
    (hpoint : m.point = .returned true) (hcalls : m.calls = .subTree t (i :: t) :: calls) :
    m.step = match root.mNext (i :: t) with
      | none => .ok ({ m with calls := calls }.returns true)
      | some a => .ok { m with calls := .subTree t a :: calls, point := .element a } := by
  have he' : m.mRoot.get (i :: t) = some e := by rwa [htree]
  have hnone : (if e.data.mType ≠ .typeClass ∧ e.data.mType ≠ .typeOr then root.mChild (i :: t)
      else none) = none := by
    by_cases htype : e.data.mType ≠ .typeClass ∧ e.data.mType ≠ .typeOr
    · rw [if_pos htype, Element.mChild, Element.get, he, Option.bind_some, hchildless htype]
      rfl
    · rw [if_neg htype]
  rw [step_subTree hpoint hcalls, continueSubTree, if_neg (by decide), elementAt_eq he', ok_bind, htree]
  unfold nextNode
  rw [hnone]
  cases hnext : root.mNext (i :: t) with
  | some a => rfl
  | none =>
    simp only
    rw [climb, if_pos rfl]
    rfl

theorem step_failed {t b : ElementAddr} (hpoint : m.point = .returned false)
    (hcalls : m.calls = .subTree t b :: calls) :
    m.step = .ok ({ m with calls := calls }.returns false) := by
  rw [step_subTree hpoint hcalls, continueSubTree, if_pos rfl]

theorem leastBefore_succ {t : ElementAddr} {p : Element} {i : ℕ} (hp : root.get t = some p)
    (htype : p.data.mType = .typeSequence) (he : p.children[i]? = some e) :
    root.leastBefore ((i+1) :: t) = root.leastBefore (i :: t)+e.least := by
  have htake : Element.leastOfAll (p.children.take (i+1)) =
      Element.leastOfAll (p.children.take i)+e.least := by
    obtain ⟨hlt,rfl⟩ := List.getElem?_eq_some_iff.mp he
    rw [List.take_succ_eq_append_getElem hlt, Element.leastOfAll_append, Element.leastOfAll,
      Element.leastOfAll, Nat.add_zero]
  simp only [Element.leastBefore, hp, if_pos htype]
  rw [htake, Nat.add_assoc]

theorem Answers.mul {l' : Language UInt8} (h : m₀.Answers s (endsFrom s l starts) l' ends calls m) :
    m₀.Answers s starts (l*l') ends calls m := by
  unfold Answers at *
  rwa [endsFrom_mul]

/-- The group is left by the alternative that has matched. -/
theorem Straight.chosen (ho : m₀.Straight) (hin : Inside k root s m₀) {group child : ElementAddr}
    (hleads : Leads step m₀ m) (hpoint : m.point = .returned true)
    (hcalls : m.calls = .group group child :: calls) :
    ∃ m', m.step = .ok m' ∧ m'.point = .returned true ∧ m'.calls = calls ∧ m'.data = m.data := by
  have hm := ho.steady hin hleads
  obtain ⟨m',hstep,-⟩ := hm.toInside.step (hm.ready m .refl)
  refine ⟨m',hstep,?_⟩
  rw [step_group hpoint hcalls, continueGroup, if_pos rfl] at hstep
  obtain ⟨g,-,hstep⟩ := bind_eq_ok.mp hstep
  obtain ⟨text,-,hstep⟩ := bind_eq_ok.mp hstep
  cases hstep
  exact ⟨rfl,rfl,rfl⟩

theorem step_rejected {group child : ElementAddr} (hpoint : m.point = .returned false)
    (hcalls : m.calls = .group group child :: calls) :
    m.step = .ok (m.tryChild group (m.mRoot.mNext child) calls) := by
  rw [step_group hpoint hcalls, continueGroup, if_neg (by decide)]

/-- What a match of a sequence ends with. -/
def EndsLast (root : Element) (t x : ElementAddr) : Prop :=
  ∃ j, root.mNext (j :: t) = none ∧ root.Ends (j :: t) x

theorem get_child {t : ElementAddr} {p : Element} {i : ℕ} (hp : root.get t = some p) :
    root.get (i :: t) = p.children[i]? := by
  rw [Element.get, hp, Option.bind_some]

theorem getElem_of_drop {p : Element} {i : ℕ} {es : List Element}
    (hdrop : p.children.drop i = e :: es) : p.children[i]? = some e := by
  rw [← List.head?_drop, hdrop, List.head?_cons]

theorem drop_succ {p : Element} {i : ℕ} {es : List Element} (hdrop : p.children.drop i = e :: es) :
    p.children.drop (i+1) = es := by
  rw [← List.drop_drop, hdrop, List.drop_one, List.tail_cons]

theorem mNext_eq {t : ElementAddr} {p : Element} {i : ℕ} {es : List Element}
    (hp : root.get t = some p) (hdrop : p.children.drop i = e :: es) :
    root.mNext (i :: t) = if es = [] then none else some ((i+1) :: t) := by
  have hhead : p.children[i+1]? = es.head? := by rw [← drop_succ hdrop, List.head?_drop]
  rw [Element.mNext, get_child hp, hhead]
  cases es <;> rfl

/-- An alternative begins where its group does, with the first element of its sequence. -/
theorem Straight.alternative (ho : m₀.Straight) (hin : Inside k root s m₀) {group : ElementAddr}
    {i : ℕ} {o : Element} {seq : RegexSequence} {trees : List Element} (hgroup : root.get group = some o)
    (htype : o.data.mType = .typeOr) (halts : Element.writtenAll (o.children.drop i) =
      .mk (elementData .typeSequence .once false) seq.trees :: trees)
    (hcomes : m₀.Comes starts allowed c m) (hadmits : m₀.Admits allowed c group)
    (hleast : ∀ q ∈ starts, root.leastBefore group ≤ q) (hpoint : m.point = .element (i :: group))
    (hcalls : m.calls = .subTree (i :: group) (i :: group) :: calls) :
    ∃ p es m', o.children.drop i = p :: es ∧ Element.writtenAll es = trees ∧
      root.get (i :: group) = some p ∧ p.data.mType = .typeSequence ∧
      Element.writtenAll p.children = seq.trees ∧ seq ≠ .nil ∧ Leads step m m' ∧
      m'.point = .element (0 :: i :: group) ∧
      m'.calls = .subTree (i :: group) (0 :: i :: group) :: calls ∧ m₀.Comes starts allowed c m' ∧
      m₀.Admits allowed c (0 :: i :: group) ∧
      ∀ q ∈ starts, root.leastBefore (0 :: i :: group) ≤ q := by
  obtain ⟨p,es,hdrop,hwritten,hes⟩ := Element.writtenAll_eq_cons.mp halts
  obtain ⟨hdata,hchildren⟩ := Element.written_eq.mp hwritten
  have hseq : p.data.mType = .typeSequence := by
    rw [← ElementData.written_mType, hdata]
    rfl
  have hp : root.get (i :: group) = some p := by rw [get_child hgroup, getElem_of_drop hdrop]
  obtain ⟨hne,m',hleads,hpoint',hcalls',hdata⟩ := ho.enter hin hp hseq hcomes.leads hpoint hcalls
  have hseq_ne : seq ≠ .nil := by
    rintro rfl
    exact hne (Element.writtenAll_eq_nil.mp hchildren)
  refine ⟨p,es,m',hdrop,hes,hp,hseq,hchildren,hseq_ne,hleads,hpoint',hcalls',hcomes.of_same hleads hdata,?_,?_⟩
  · intro b q hb
    exact hadmits b q (.alternative i hb)
  · intro q hq
    have hor : o.data.mType ≠ .typeSequence := by
      rw [htype]
      decide
    -- neither the group nor the sequence has anything before its first element
    have hleast' : root.leastBefore (0 :: i :: group) = root.leastBefore group := by
      simp only [Element.leastBefore, hp, hgroup, if_pos hseq, if_neg hor, List.take_zero,
        Element.leastOfAll, Nat.add_zero]
    rw [hleast']
    exact hleast q hq

/-- The next alternative is tried from where the group was entered. -/
theorem Straight.tries_next (ho : m₀.Straight) (hin : Inside k root s m₀) {group child next : ElementAddr}
    {m₁ : Matching} (hnext : root.mNext child = some next)
    (hentered : ∃ n, Leads step m₀ n ∧ n.point = .element group ∧ n.data.curPos = c)
    (hcomes : m₀.Comes starts allowed c m) (hto : Leads step m m₁) (hpoint : m₁.point = .returned false)
    (hcalls : m₁.calls = .group group child :: calls) :
    m₁.step = .ok (m₁.tryChild group (some next) calls) ∧
      m₀.Comes starts allowed c (m₁.tryChild group (some next) calls) := by
  have hleads := hcomes.leads.trans hto
  have hstep := step_rejected hpoint hcalls
  rw [(ho.steady hin hleads).tree, hnext] at hstep
  obtain ⟨n,hn,hentry,hpos⟩ := hentered
  have hback : m₁.data.curPos = c := by
    rw [← hpos]
    exact ho.restarts n m₁ group child calls hn hleads hentry hpoint hcalls (by rw [hin.tree, hnext]; rfl)
  refine ⟨hstep,hleads.tail hstep,hback,hcomes.sound,hcomes.some,?_⟩
  exact hcomes.furthest.imp_left fun h => h.leads (hto.tail hstep)

end

mutual

/-- An item answers for its language. -/
theorem Straight.item {k : ℕ} {root : Element} {s : List UInt8} {m₀ : Matching} (ho : m₀.Straight)
    (hin : Inside k root s m₀) : ∀ (item : RegexItem) {m : Matching} {a : ElementAddr} {e : Element}
      {starts : Set ℕ} {allowed : ℤ → Prop} {c : ℕ}, root.get a = some e → e.written = item.tree →
      m₀.Comes starts allowed c m → m₀.Admits allowed c a → (∀ p ∈ starts, root.leastBefore a ≤ p) →
      m.point = .element a → m₀.Answers s starts item.language (root.Ends a) m.calls m
  | .literal _ _, _, _, _, _, _, _, he, htree, hcomes, hadmits, hleast, hpoint =>
    ho.single hin he (RegexItem.standsFor_literal htree) hcomes hadmits hleast hpoint
  | .any _, _, _, _, _, _, _, he, htree, hcomes, hadmits, hleast, hpoint =>
    ho.single hin he (RegexItem.standsFor_any htree) hcomes hadmits hleast hpoint
  | .charClass _ _ _, _, _, _, _, _, _, he, htree, hcomes, hadmits, hleast, hpoint =>
    ho.single hin he (RegexItem.standsFor_charClass htree) hcomes hadmits hleast hpoint
  | .group alternatives mark, m, a, e, starts, allowed, c, he, htree, hcomes, hadmits, hleast,
      hpoint => by
    obtain ⟨hdata,hchildren⟩ := Element.written_eq.mp htree
    have htype : e.data.mType = .typeOr := by
      rw [← ElementData.written_mType, hdata]
      rfl
    have hm := ho.steady hin hcomes.leads
    have he' : m.mRoot.get a = some e := by rwa [hm.tree]
    -- the group has no limits, and so it is taken once
    have honce := ho.proper m hcomes.leads
    unfold Proper at honce
    simp only [hpoint] at honce
    obtain ⟨hmin,hmax⟩ := (honce e he').1 htype
    rw [← ElementData.written_mRepeatMin, hdata] at hmin
    rw [← ElementData.written_mRepeatMax, hdata] at hmax
    rw [RegexItem.language, RepeatMark.repeats_once hmin hmax]
    have hsome : (m.mRoot.get (0 :: a)).isSome = true := by
      rw [get_child he']
      cases hcs : e.children with
      | nil =>
        rw [hcs] at hchildren
        exact absurd hchildren.symm alternatives.trees_ne_nil
      | cons f fs => rfl
    have hchild : m.mRoot.mChild a = some (0 :: a) := if_pos hsome
    have hnumbers : m.NumbersGroup := by
      have hready := ho.ready m hcomes.leads
      unfold Ready at hready
      simp only [hpoint] at hready
      exact (hready e he').2 htype
    have hstep : m.step = .ok ((m.groupOpened a).tryChild a (m.mRoot.mChild a) m.calls) := by
      rw [step_element hpoint, processElement_group he' htype, openGroup, if_pos hnumbers]
    rw [hchild] at hstep
    apply Answers.of_leads (.step hstep)
    exact Straight.alternatives ho hin alternatives (i := 0) he htype (by rwa [List.drop_zero])
      ⟨m,hcomes.leads,hpoint,hcomes.pos⟩ (hcomes.of_same (.step hstep) rfl) hadmits hleast rfl rfl

/-- The rest of a sequence answers for its language. -/
theorem Straight.sequence {k : ℕ} {root : Element} {s : List UInt8} {m₀ : Matching}
    (ho : m₀.Straight) (hin : Inside k root s m₀) : ∀ (seq : RegexSequence) {m : Matching}
      {t : ElementAddr} {i : ℕ} {p : Element} {starts : Set ℕ} {allowed : ℤ → Prop} {c : ℕ}
      {calls : List ParseCall}, seq ≠ .nil → root.get t = some p →
      p.data.mType = .typeSequence → Element.writtenAll (p.children.drop i) = seq.trees →
      m₀.Comes starts allowed c m → m₀.Admits allowed c (i :: t) →
      (∀ q ∈ starts, root.leastBefore (i :: t) ≤ q) → m.point = .element (i :: t) →
      m.calls = .subTree t (i :: t) :: calls →
      m₀.Answers s starts seq.language (EndsLast root t) calls m
  | .nil, _, _, _, _, _, _, _, _, hne, _, _, _, _, _, _, _, _ => absurd rfl hne
  | .cons item rest, m, t, i, p, starts, allowed, c, calls, _, hp, htype, hitems, hcomes, hadmits,
      hleast, hpoint, hcalls => by
    obtain ⟨e,es,hdrop,he,hes⟩ := Element.writtenAll_eq_cons.mp hitems
    have hget := getElem_of_drop hdrop
    have hpe : root.get (i :: t) = some e := by rw [get_child hp, hget]
    obtain ⟨m₁,hleads₁,hcalls₁,hends⟩ :=
      Straight.item ho hin item hpe he hcomes hadmits hleast hpoint
    rw [hcalls] at hcalls₁
    rw [RegexSequence.language]
    apply Answers.mul
    -- the item has found an end, or the sequence fails with it
    rcases hends with ⟨hpoint₁,x,f,q,c₁,hx,hleft,hf,hcomes₁⟩ | ⟨hpoint₁,hnone⟩
    · have hstep := step_behind (ho.steady hin hcomes₁.leads).tree hpe (item.childless he) hpoint₁ hcalls₁
      rw [mNext_eq hp hdrop] at hstep
      by_cases hnil : rest = .nil
      · -- it was the last one
        subst hnil
        obtain rfl := Element.writtenAll_eq_nil.mp hes
        rw [if_pos rfl] at hstep
        have hlast : root.mNext (i :: t) = none := by rw [mNext_eq hp hdrop, if_pos rfl]
        refine ⟨_,hleads₁.tail hstep,rfl,.inl ⟨rfl,x,f,q,c₁,⟨i,hlast,hx⟩,hleft,hf,?_⟩⟩
        rw [RegexSequence.language, endsFrom_one]
        exact hcomes₁.of_same (.step hstep) rfl
      · have hes_ne : es ≠ [] := by
          rintro rfl
          cases rest with
          | nil => exact hnil rfl
          | cons item' rest' => cases hes
        rw [if_neg hes_ne] at hstep
        apply Answers.of_leads (hleads₁.tail hstep)
        refine Straight.sequence ho hin rest hnil hp htype (by rw [drop_succ hdrop, hes])
          (hcomes₁.of_same (.step hstep) rfl) ?_ ?_ rfl rfl
        · intro b q' hb hleft' _
          exact ho.spaced x b q q' f hleft hleft' ⟨i,t,by rwa [hin.tree],hb⟩ hf
        · intro q' hq'
          rw [leastBefore_succ hp htype hget]
          exact le_of_mem_endsFrom (item.least_le he) hleast hq'
    · have hstep := step_failed hpoint₁ hcalls₁
      refine ⟨_,hleads₁.tail hstep,rfl,.inr ⟨rfl,?_⟩⟩
      rw [hnone, endsFrom_empty]

/-- The rest of the alternatives of a group answer for their language. -/
theorem Straight.alternatives {k : ℕ} {root : Element} {s : List UInt8} {m₀ : Matching}
    (ho : m₀.Straight) (hin : Inside k root s m₀) : ∀ (alternatives : RegexAlternatives)
      {m : Matching} {group : ElementAddr} {i : ℕ} {o : Element} {starts : Set ℕ}
      {allowed : ℤ → Prop} {c : ℕ} {calls : List ParseCall}, root.get group = some o →
      o.data.mType = .typeOr → Element.writtenAll (o.children.drop i) = alternatives.trees →
      (∃ n, Leads step m₀ n ∧ n.point = .element group ∧ n.data.curPos = c) →
      m₀.Comes starts allowed c m → m₀.Admits allowed c group →
      (∀ q ∈ starts, root.leastBefore group ≤ q) → m.point = .element (i :: group) →
      m.calls = .subTree (i :: group) (i :: group) :: .group group (i :: group) :: calls →
      m₀.Answers s starts alternatives.language (root.Ends group) calls m
  | .one seq, m, group, i, o, starts, allowed, c, calls, hgroup, htype, halts, hentered, hcomes,
      hadmits, hleast, hpoint, hcalls => by
    obtain ⟨p,es,m₁,hdrop,hes,hpe,hseq,hchildren,hseq_ne,hleads₁,hpoint₁,hcalls₁,hcomes₁,hadmits₁,hleast₁⟩ :=
      ho.alternative hin hgroup htype halts hcomes hadmits hleast hpoint hcalls
    obtain rfl := Element.writtenAll_eq_nil.mp hes
    obtain ⟨m₂,hleads₂,hcalls₂,hends⟩ := Straight.sequence ho hin seq hseq_ne hpe hseq
      (by rwa [List.drop_zero]) hcomes₁ hadmits₁ hleast₁ hpoint₁ hcalls₁
    have hto₂ := hleads₁.trans hleads₂
    -- the last alternative answers for the group
    rcases hends with ⟨hpoint₂,x,f,q,c₂,⟨j,hlast,hx⟩,hleft,hf,hcomes₂⟩ | ⟨hpoint₂,hnone⟩
    · obtain ⟨m₃,hstep,hpoint₃,hcalls₃,hdata₃⟩ := ho.chosen hin hcomes₂.leads hpoint₂ hcalls₂
      exact ⟨m₃,hto₂.tail hstep,hcalls₃,.inl ⟨hpoint₃,x,f,q,c₂,.alternative i j hlast hx,hleft,hf,
        hcomes₂.of_same (.step hstep) hdata₃⟩⟩
    · have hstep := step_rejected hpoint₂ hcalls₂
      have htree := (ho.steady hin (hcomes.leads.trans hto₂)).tree
      rw [htree, mNext_eq hgroup hdrop, if_pos rfl] at hstep
      exact ⟨_,hto₂.tail hstep,rfl,.inr ⟨rfl,hnone⟩⟩
  | .more seq rest, m, group, i, o, starts, allowed, c, calls, hgroup, htype, halts, hentered,
      hcomes, hadmits, hleast, hpoint, hcalls => by
    obtain ⟨p,es,m₁,hdrop,hes,hpe,hseq,hchildren,hseq_ne,hleads₁,hpoint₁,hcalls₁,hcomes₁,hadmits₁,hleast₁⟩ :=
      ho.alternative hin hgroup htype halts hcomes hadmits hleast hpoint hcalls
    have hes_ne : es ≠ [] := by
      rintro rfl
      exact rest.trees_ne_nil hes.symm
    have hnext : root.mNext (i :: group) = some ((i+1) :: group) := by
      rw [mNext_eq hgroup hdrop, if_neg hes_ne]
    obtain ⟨m₂,hleads₂,hcalls₂,hends⟩ := Straight.sequence ho hin seq hseq_ne hpe hseq
      (by rwa [List.drop_zero]) hcomes₁ hadmits₁ hleast₁ hpoint₁ hcalls₁
    have hto₂ := hleads₁.trans hleads₂
    have hleads₀ := hcomes.leads.trans hto₂
    have htree := (ho.steady hin hleads₀).tree
    rw [RegexAlternatives.language]
    rcases hends with ⟨hpoint₂,x,f,q,c₂,⟨j,hlast,hx⟩,hleft,hf,hcomes₂⟩ | ⟨hpoint₂,hnone⟩
    · -- the group is left with the rest of its alternatives
      obtain ⟨m₃,hstep,hpoint₃,hcalls₃,hdata₃⟩ := ho.chosen hin hcomes₂.leads hpoint₂ hcalls₂
      have hcommits : m₂.Commits := ⟨group,i :: group,calls,hpoint₂,hcalls₂,by rw [htree, hnext]; rfl⟩
      refine ⟨m₃,hto₂.tail hstep,hcalls₃,.inl ⟨hpoint₃,x,f,q,c₂,.alternative i j hlast hx,hleft,hf,?_⟩⟩
      refine ⟨hleads₀.tail hstep,by rw [hdata₃, hcomes₂.pos],?_,hcomes₂.some,
        .inl ⟨m₂,hleads₀,.step hstep,hcommits⟩⟩
      intro r hr hle
      rw [endsFrom_add]
      exact .inl (hcomes₂.sound r hr hle)
    · obtain ⟨hstep,hcomes₃⟩ := ho.tries_next hin hnext hentered hcomes hto₂ hpoint₂ hcalls₂
      have hrest := Straight.alternatives ho hin rest hgroup htype (by rw [drop_succ hdrop, hes])
        hentered hcomes₃ hadmits hleast rfl rfl
      apply Answers.of_leads (hto₂.tail hstep)
      unfold Answers at *
      rwa [endsFrom_add, hnone, Set.empty_union]

end

end Matching

end JhCommon
