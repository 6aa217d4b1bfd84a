import JhCommon.RegexMatching
import JhCommon.Transition

/-! Where the matching of a regex stays inside of its subject and ends. -/
namespace JhCommon
open Transition

mutual

/-- The number of elements of a tree. -/
def Element.size : Element → ℕ
  | .mk _ cs => Element.sizeAll cs+1

def Element.sizeAll : List Element → ℕ
  | [] => 0
  | e :: es => e.size+Element.sizeAll es

end

namespace Element
variable {root e : Element} {a b : ElementAddr} {i : ℕ}

theorem size_eq (e : Element) : e.size = sizeAll e.children+1 := by
  cases e
  rfl

/-- The elements behind an address in the order of the walk, without its children. -/
def behind (root : Element) : ElementAddr → ℕ
  | [] => 0
  | i :: parent =>
    behind root parent+(match root.get parent with
      | none => 0
      | some e => sizeAll (e.children.drop (i+1)))

/-- The elements that the walk has not come to. -/
def ahead (root : Element) (a : ElementAddr) : ℕ :=
  behind root a+(match root.get a with
    | none => 0
    | some e => sizeAll e.children)

theorem get_cons (h : (root.get (i :: a)).isSome = true) :
    ∃ e c, root.get a = some e ∧ e.children[i]? = some c ∧ root.get (i :: a) = some c := by
  obtain ⟨c,hc⟩ := Option.isSome_iff_exists.mp h
  obtain ⟨e,he,hchild⟩ := Option.bind_eq_some_iff.mp hc
  exact ⟨e,c,he,hchild,hc⟩

theorem sizeAll_drop {es : List Element} {c : Element} (h : es[i]? = some c) :
    sizeAll (es.drop i) = sizeAll c.children+1+sizeAll (es.drop (i+1)) := by
  obtain ⟨hlt,hget⟩ := List.getElem?_eq_some_iff.mp h
  rw [List.drop_eq_getElem_cons hlt, sizeAll, hget, size_eq]

theorem ahead_eq (h : root.get a = some e) : ahead root a = behind root a+sizeAll e.children := by
  rw [ahead, h]

theorem behind_cons (h : root.get a = some e) :
    behind root (i :: a) = behind root a+sizeAll (e.children.drop (i+1)) := by
  rw [behind, h]

/-- A child comes next in the walk. -/
theorem ahead_mChild (h : root.mChild a = some b) :
    (root.get b).isSome = true ∧ ahead root b < ahead root a := by
  unfold mChild at h
  split_ifs at h with hsome
  obtain rfl := Option.some.inj h
  obtain ⟨e,c,he,hchild,hget⟩ := get_cons hsome
  refine ⟨hsome,?_⟩
  have hsize := sizeAll_drop hchild
  rw [List.drop_zero] at hsize
  rw [ahead_eq hget, behind_cons he, ahead_eq he]
  omega

theorem ahead_mNext (h : root.mNext a = some b) :
    (root.get b).isSome = true ∧ ahead root b < behind root a := by
  cases a with
  | nil => simp [mNext] at h
  | cons i parent =>
    simp only [mNext] at h
    split_ifs at h with hsome
    obtain rfl := Option.some.inj h
    obtain ⟨e,c,he,hchild,hget⟩ := get_cons hsome
    refine ⟨hsome,?_⟩
    have hsize := sizeAll_drop hchild
    rw [ahead_eq hget, behind_cons he, behind_cons he]
    omega

theorem behind_parent (root : Element) (i : ℕ) (a : ElementAddr) :
    behind root a ≤ behind root (i :: a) := Nat.le_add_right _ _

theorem behind_le_ahead (root : Element) (a : ElementAddr) : behind root a ≤ ahead root a :=
  Nat.le_add_right _ _

/-- The characters that a terminal or a class takes. -/
def accepts (e : Element) (c : UInt8) : Bool :=
  match e.data.mType with
  | .typeTerminal => e.data.holds c
  | .typeClass => e.children.any (fun child => child.data.holds c) != e.data.mClassInvert
  | _ => false

end Element

theorem ParseData.processTerminal_eq {data : ParseData} (e : Element) (hlow : 0 ≤ data.curPos)
    (hhigh : data.curPos ≤ data.string.length) :
    data.processTerminal e = .ok (e.accepts (data.string.getD data.curPos.toNat 0)) := by
  have hchar : data.curChar = .ok (data.string.getD data.curPos.toNat 0) := if_pos ⟨hlow,hhigh⟩
  have hany : ∀ es, data.anyHolds es =
      .ok (es.any fun child => child.data.holds (data.string.getD data.curPos.toNat 0)) := by
    intro es
    induction es with
    | nil => rfl
    | cons child es ih =>
      rw [anyHolds, hchar, ok_bind, ih, List.any_cons]
      cases child.data.holds (data.string.getD data.curPos.toNat 0) <;> rfl
  unfold processTerminal Element.accepts
  cases e.data.mType with
  | typeTerminal =>
    simp only [hchar]
    rfl
  | typeClass =>
    simp only [hany]
    rfl
  | typeUnknown => rfl
  | typeSequence => rfl
  | typeOr => rfl

theorem GroupData.cutTo_startPos (g : GroupData) (pos : ℤ) :
    (g.cutTo pos).startPos = g.startPos := by
  unfold GroupData.cutTo
  split_ifs <;> rfl

/-- Going back cuts every group, or throws at one that begins behind the position. -/
theorem backtrackGroups_eq (pos : ℤ) (groups : List GroupData) :
    ((∀ g ∈ groups, g.endPos-pos ≤ g.string.length) →
      backtrackGroups pos groups = .ok (groups.map (·.cutTo pos))) ∧
    (¬(∀ g ∈ groups, g.endPos-pos ≤ g.string.length) →
      ∃ f, backtrackGroups pos groups = .error f) := by
  induction groups with
  | nil => simp [backtrackGroups]
  | cons g groups ih =>
    rw [backtrackGroups, List.forall_mem_cons]
    by_cases hg : g.endPos-pos ≤ g.string.length
    · rw [if_neg (by omega)]
      constructor
      · rintro ⟨-,h⟩
        rw [ih.1 h, ok_bind, List.map_cons]
      · intro h
        obtain ⟨f,hf⟩ := ih.2 fun hall => h ⟨hg,hall⟩
        exact ⟨f,by rw [hf, error_bind]⟩
    · rw [if_pos (by omega)]
      exact ⟨fun h => absurd h.1 hg,fun _ => ⟨_,rfl⟩⟩

namespace Matching

/-- The climb comes to an element that has one behind it, or to a child of the top. -/
def Climbs (root : Element) (topNode curNode : ElementAddr) : Prop :=
  ∃ i parent, (i :: parent) <:+ curNode ∧
    (parent = topNode ∨ (root.mNext parent).isSome = true)

theorem climb_ok {root : Element} {topNode curNode : ElementAddr} :
    (∃ next, climb root topNode curNode = .ok next) ↔ Climbs root topNode curNode := by
  induction curNode with
  | nil =>
    apply iff_of_false
    · rintro ⟨next,h⟩
      cases h
    · -- the root has no parent, so the walk up falls off the tree
      rintro ⟨i,parent,h,-⟩
      simp at h
  | cons i parent ih =>
    rw [climb]
    by_cases htop : parent = topNode
    · rw [if_pos htop]
      exact iff_of_true ⟨none,rfl⟩ ⟨i,parent,List.suffix_refl _,.inl htop⟩
    rw [if_neg htop]
    cases hnext : root.mNext parent with
    | some a =>
      exact iff_of_true ⟨some a,rfl⟩ ⟨i,parent,List.suffix_refl _,.inr (by rw [hnext]; rfl)⟩
    | none =>
      simp only
      rw [ih]
      constructor
      · rintro ⟨j,p,hsuffix,h⟩
        exact ⟨j,p,hsuffix.trans (List.suffix_cons i parent),h⟩
      · rintro ⟨j,p,hsuffix,h⟩
        -- this parent is no end, so the one that is lies above it
        rcases List.suffix_cons_iff.mp hsuffix with heq | hsuffix
        · obtain ⟨rfl,rfl⟩ := List.cons.inj heq
          rcases h with h | h
          · exact absurd h htop
          · rw [hnext] at h
            cases h
        · exact ⟨j,p,hsuffix,h⟩

theorem climb_ahead {root : Element} {topNode curNode a : ElementAddr}
    (h : climb root topNode curNode = .ok (some a)) :
    (root.get a).isSome = true ∧ root.ahead a < root.behind curNode := by
  induction curNode with
  | nil => cases h
  | cons i parent ih =>
    rw [climb] at h
    have hparent := Element.behind_parent root i parent
    by_cases htop : parent = topNode
    · rw [if_pos htop] at h
      cases h
    rw [if_neg htop] at h
    cases hnext : root.mNext parent with
    | some b =>
      simp only [hnext] at h
      obtain rfl : b = a := Option.some.inj (Except.ok.inj h)
      obtain ⟨hsome,hlt⟩ := Element.ahead_mNext hnext
      exact ⟨hsome,hlt.trans_le hparent⟩
    | none =>
      simp only [hnext] at h
      obtain ⟨hsome,hlt⟩ := ih h
      exact ⟨hsome,hlt.trans_le hparent⟩

theorem nextNode_ahead {root : Element} {topNode curNode a : ElementAddr} {type : ElementType}
    (h : nextNode root topNode curNode type = .ok (some a)) :
    (root.get a).isSome = true ∧ root.ahead a < root.ahead curNode := by
  unfold nextNode at h
  have hbehind := Element.behind_le_ahead root curNode
  cases hchild : (if type ≠ .typeClass ∧ type ≠ .typeOr then root.mChild curNode else none) with
  | some b =>
    simp only [hchild] at h
    obtain rfl : b = a := Option.some.inj (Except.ok.inj h)
    split_ifs at hchild
    exact Element.ahead_mChild hchild
  | none =>
    simp only [hchild] at h
    cases hnext : root.mNext curNode with
    | some b =>
      simp only [hnext] at h
      obtain rfl : b = a := Option.some.inj (Except.ok.inj h)
      obtain ⟨hsome,hlt⟩ := Element.ahead_mNext hnext
      exact ⟨hsome,hlt.trans_le hbehind⟩
    | none =>
      simp only [hnext] at h
      obtain ⟨hsome,hlt⟩ := climb_ahead h
      exact ⟨hsome,hlt.trans_le hbehind⟩

/-- What a call relies on when it is returned to. The groups of this parse begin at index k. -/
def Known (k : ℕ) (m : Matching) : ParseCall → Prop
  | .subTree _ curNode => (m.mRoot.get curNode).isSome = true
  | .group curNode _ => (k : ℤ) ≤ m.mGroupNum curNode ∧ m.mGroupNum curNode < m.mGroups.length

/-- The terminal can take no more, and has not taken enough. -/
def Spent (m : Matching) (e : Element) : Prop :=
  ¬m.hasRoom e ∧ m.data.matchCount < e.data.mRepeatMin

/-- The terminator is not about to be taken. -/
def Placed (m : Matching) : ParsePoint → Prop
  | .element a => (m.mRoot.get a).isSome = true
  | .testing a startPos =>
    (m.mRoot.get a).isSome = true ∧ 0 ≤ startPos ∧ startPos ≤ m.data.string.length
  | .tested a startPos res =>
    (0 ≤ startPos ∧ startPos ≤ m.data.string.length) ∧
      ∃ e, m.mRoot.get a = some e ∧
        (res = true → m.data.curPos = m.data.string.length → m.Spent e)
  | .returned _ => True

/-- The matching and its groups are inside of the subject. -/
structure Around (k : ℕ) (root : Element) (s : List UInt8) (m : Matching) : Prop where
  tree : m.mRoot = root
  subject : m.data.string = s
  low : 0 ≤ m.data.curPos
  high : m.data.curPos ≤ m.data.string.length
  held : k ≤ m.mGroups.length
  groups : ∀ i g, k ≤ i → m.mGroups[i]? = some g →
    0 ≤ g.startPos ∧ g.startPos ≤ m.data.string.length

structure Inside (k : ℕ) (root : Element) (s : List UInt8) (m : Matching) : Prop
    extends Around k root s m where
  calls : ∀ call ∈ m.calls, m.Known k call
  point : m.Placed m.point

/-- An element can be processed: a terminal or a class is in a sequence, and a group has a number. -/
def Enters (m : Matching) (a : ElementAddr) (e : Element) : Prop :=
  (e.data.mType = .typeTerminal ∨ e.data.mType = .typeClass →
    ∃ i parent p, a = i :: parent ∧ m.mRoot.get parent = some p ∧ p.data.mType = .typeSequence) ∧
  (e.data.mType = .typeOr → m.NumbersGroup)

/-- What comes behind a test can be done: to take the character or to look ahead does not overflow,
and going back does not leave the subject, and cuts no group before its beginning. -/
def GoesOn (m : Matching) (e : Element) (startPos : ℤ) (res : Bool) : Prop :=
  (res = true → ¬m.Spent e → Counts m.data) ∧
  (res = false → m.data.matchCount < e.data.mRepeatMin → m.data.backtrackPos < startPos →
    0 < startPos ∧ ∀ g ∈ m.mGroups, g.endPos-(startPos-1) ≤ g.string.length)

/-- What the next step needs. At the end of the subject a terminal or a class must not take the
terminator, and from an element without any behind it the climb must come to the top of its walk,
or to an element that has one. -/
def Ready (m : Matching) : Prop :=
  match m.point with
  | .element a => ∀ e, m.mRoot.get a = some e → m.Enters a e
  | .testing a _ => ∀ e, m.mRoot.get a = some e → m.data.curPos = m.data.string.length →
      e.accepts 0 = true → m.Spent e
  | .tested a startPos res => ∀ e, m.mRoot.get a = some e → m.GoesOn e startPos res
  | .returned res => ∀ topNode curNode calls e, m.calls = .subTree topNode curNode :: calls →
      res = true → m.mRoot.get curNode = some e →
      (e.data.mType ≠ .typeClass ∧ e.data.mType ≠ .typeOr → m.mRoot.mChild curNode = none) →
      m.mRoot.mNext curNode = none → Climbs m.mRoot topNode curNode

section
variable {k : ℕ} {root : Element} {s : List UInt8} {m m' : Matching}

theorem Around.congr (hm : Around k root s m) (htree : m'.mRoot = m.mRoot)
    (hsubject : m'.data.string = m.data.string) (hpos : m'.data.curPos = m.data.curPos)
    (hgroups : m'.mGroups = m.mGroups) : Around k root s m' := by
  constructor
  · rw [htree, hm.tree]
  · rw [hsubject, hm.subject]
  · rw [hpos]
    exact hm.low
  · rw [hpos, hsubject]
    exact hm.high
  · rw [hgroups]
    exact hm.held
  · rw [hgroups, hsubject]
    exact hm.groups

theorem Around.returns (hm : Around k root s m) (hcalls : ∀ call ∈ m.calls, m.Known k call)
    (res : Bool) : Inside k root s (m.returns res) :=
  ⟨hm.congr rfl rfl rfl rfl,hcalls,trivial⟩

theorem Around.tryChild (hm : Around k root s m) {calls : List ParseCall} (curNode : ElementAddr)
    {childNode : Option ElementAddr} (hcalls : ∀ call ∈ calls, m.Known k call)
    (hcur : m.Known k (.group curNode []))
    (hchild : ∀ c ∈ childNode, (m.mRoot.get c).isSome = true) :
    Inside k root s (m.tryChild curNode childNode calls) := by
  cases childNode with
  | none => exact ⟨hm.congr rfl rfl rfl rfl,hcalls,trivial⟩
  | some c =>
    refine ⟨hm.congr rfl rfl rfl rfl,?_,hchild c rfl⟩
    intro call hcall
    rcases List.mem_cons.mp hcall with rfl | hcall
    · exact hchild c rfl
    rcases List.mem_cons.mp hcall with rfl | hcall
    · exact hcur
    · exact hcalls call hcall

theorem Inside.enterLoops (hm : Inside k root s m) {a : ElementAddr} {e : Element}
    (he : m.mRoot.get a = some e)
    (hready : ∃ i parent p, a = i :: parent ∧ m.mRoot.get parent = some p ∧
      p.data.mType = .typeSequence) : ∃ m', m.enterLoops a = .ok m' ∧ Inside k root s m' := by
  obtain ⟨i,parent,p,rfl,hparent,hseq⟩ := hready
  rw [Matching.enterLoops, elementAt_eq hparent, ok_bind, if_pos hseq]
  exact ⟨_,rfl,hm.toAround.congr rfl rfl rfl rfl,hm.calls,by rw [he]; rfl,hm.low,hm.high⟩

/-- The new group has the next number, and begins where the matching is. -/
theorem Inside.openGroup (hm : Inside k root s m) (a : ElementAddr) (hnumbers : m.NumbersGroup) :
    ∃ m', m.openGroup a = .ok m' ∧ Inside k root s m' := by
  have hheld := hm.held
  -- with one more group all numbers given out before are still in range
  have hnumber : ∀ b, (k : ℤ) ≤ m.mGroupNum b ∧ m.mGroupNum b < m.mGroups.length ∨ b = a →
      (k : ℤ) ≤ Function.update m.mGroupNum a (m.mGroups.length : ℤ) b ∧
        Function.update m.mGroupNum a (m.mGroups.length : ℤ) b < (m.mGroups.length+1 : ℕ) := by
    intro b hb
    by_cases hba : b = a
    · subst hba
      rw [Function.update_self]
      omega
    · rw [Function.update_of_ne hba]
      have := hb.resolve_right hba
      omega
  have haround : Around k root s (m.groupOpened a) := by
    refine ⟨hm.tree,hm.subject,hm.low,hm.high,by simp only [groupOpened, List.length_append]; omega,?_⟩
    intro i g hi hg
    dsimp only [groupOpened] at hg
    -- an old group is as it was, and the new one begins here
    rcases lt_or_ge i m.mGroups.length with hlt | hge
    · rw [List.getElem?_append_left hlt] at hg
      exact hm.groups i g hi hg
    · rw [List.getElem?_append_right hge] at hg
      obtain rfl := List.mem_singleton.mp (List.mem_of_getElem? hg)
      exact ⟨hm.low,hm.high⟩
  refine ⟨_,if_pos hnumbers,haround.tryChild a ?_ ?_ ?_⟩
  · intro call hcall
    have hknown := hm.calls call hcall
    cases call with
    | subTree topNode curNode => exact hknown
    | group curNode childNode =>
      simpa only [Known, groupOpened, List.length_append, List.length_singleton] using
        hnumber curNode (.inl hknown)
  · simpa only [Known, groupOpened, List.length_append, List.length_singleton] using
      hnumber a (.inr rfl)
  · intro c hc
    exact (Element.ahead_mChild hc).1

theorem Inside.processElement (hm : Inside k root s m) {a : ElementAddr} (hready : m.Ready)
    (hpoint : m.point = .element a) : ∃ m', m.processElement a = .ok m' ∧ Inside k root s m' := by
  have hplaced := hm.point
  rw [hpoint] at hplaced
  obtain ⟨e,he⟩ := Option.isSome_iff_exists.mp hplaced
  unfold Ready at hready
  rw [hpoint] at hready
  cases htype : e.data.mType with
  | typeUnknown => exact ⟨_,processElement_unknown he htype,hm.returns hm.calls false⟩
  | typeSequence => exact ⟨_,processElement_sequence he htype,hm.returns hm.calls true⟩
  | typeTerminal =>
    rw [processElement_loops he (.inl htype)]
    exact hm.enterLoops he ((hready e he).1 (.inl htype))
  | typeClass =>
    rw [processElement_loops he (.inr htype)]
    exact hm.enterLoops he ((hready e he).1 (.inr htype))
  | typeOr =>
    rw [processElement_group he htype]
    exact hm.openGroup a ((hready e he).2 htype)

theorem Inside.afterTest (hm : Inside k root s m) {a : ElementAddr} {startPos : ℤ} {res : Bool}
    (hready : m.Ready) (hpoint : m.point = .tested a startPos res) :
    ∃ m', m.afterTest a startPos res = .ok m' ∧ Inside k root s m' := by
  have hplaced := hm.point
  rw [hpoint] at hplaced
  obtain ⟨⟨hstart,hstop⟩,e,he,hend⟩ := hplaced
  unfold Ready at hready
  rw [hpoint] at hready
  have hsome : (m.mRoot.get a).isSome = true := by
    rw [he]
    rfl
  have hlow := hm.low
  have hhigh := hm.high
  -- where a character is taken, it is not the terminator
  have htaken : res = true → ¬m.Spent e → m.data.curPos < m.data.string.length := by
    intro hres hspent
    by_contra hnot
    exact hspent (hend hres (by omega))
  unfold Matching.afterTest
  rw [elementAt_eq he, ok_bind]
  by_cases htake : m.hasRoom e ∧ res = true
  · have hspent : ¬m.Spent e := fun h => h.1 htake.1
    have hlt := htaken htake.2 hspent
    rw [if_pos htake, count_ok ((hready e he).1 htake.2 hspent), ok_bind]
    exact ⟨_,rfl,⟨hm.tree,hm.subject,by simp only [counted]; omega,by simp only [counted]; omega,
      hm.held,hm.groups⟩,hm.calls,hsome,hstart,hstop⟩
  rw [if_neg htake]
  by_cases hres : res = true
  · rw [if_pos hres]
    have hroom : ¬m.hasRoom e := fun h => htake ⟨h,hres⟩
    by_cases hmin : e.data.mRepeatMin ≤ m.data.matchCount
    · have hspent : ¬m.Spent e := fun h => absurd h.2 (by omega)
      have hlt := htaken hres hspent
      rw [if_pos hmin, count_ok ((hready e he).1 hres hspent), ok_bind]
      exact ⟨_,rfl,⟨hm.tree,hm.subject,by simp only [Matching.returns, counted]; omega,
        by simp only [Matching.returns, counted]; omega,hm.held,hm.groups⟩,hm.calls,trivial⟩
    · rw [if_neg hmin]
      exact ⟨_,rfl,hm.returns hm.calls false⟩
  rw [if_neg hres]
  by_cases hmin : e.data.mRepeatMin ≤ m.data.matchCount
  · rw [if_pos hmin]
    exact ⟨_,rfl,hm.returns hm.calls true⟩
  rw [if_neg hmin]
  by_cases hback : m.data.backtrackPos < startPos
  · obtain ⟨hpos,hcut⟩ := (hready e he).2 (by simpa using hres) (by omega) hback
    rw [if_pos hback, (backtrackGroups_eq _ _).1 hcut, ok_bind]
    refine ⟨_,rfl,⟨hm.tree,hm.subject,?_,?_,?_,?_⟩,?_,hsome,?_,?_⟩
    · dsimp only
      omega
    · dsimp only
      omega
    · rw [List.length_map]
      exact hm.held
    · intro i g hi hg
      rw [List.getElem?_map] at hg
      obtain ⟨g',hg',rfl⟩ := Option.map_eq_some_iff.mp hg
      rw [g'.cutTo_startPos]
      exact hm.groups i g' hi hg'
    · intro call hcall
      have hknown := hm.calls call hcall
      cases call with
      | subTree topNode curNode => exact hknown
      | group curNode childNode => simpa only [Known, List.length_map] using hknown
    · omega
    · dsimp only
      omega
  · rw [if_neg hback]
    exact ⟨_,rfl,hm.returns hm.calls false⟩

theorem nextNode_ok {root : Element} {topNode curNode : ElementAddr} {type : ElementType}
    (h : (type ≠ .typeClass ∧ type ≠ .typeOr → root.mChild curNode = none) →
      root.mNext curNode = none → Climbs root topNode curNode) :
    ∃ next, nextNode root topNode curNode type = .ok next := by
  unfold nextNode
  cases hchild : (if type ≠ .typeClass ∧ type ≠ .typeOr then root.mChild curNode else none) with
  | some a => exact ⟨some a,rfl⟩
  | none =>
    cases hnext : root.mNext curNode with
    | some a => exact ⟨some a,rfl⟩
    | none =>
      apply climb_ok.mpr
      apply h _ hnext
      intro htype
      rwa [if_pos htype] at hchild

theorem Inside.continueSubTree (hm : Inside k root s m) {topNode curNode : ElementAddr}
    {calls : List ParseCall} {res : Bool} (hready : m.Ready) (hpoint : m.point = .returned res)
    (hcalls : m.calls = .subTree topNode curNode :: calls) :
    ∃ m', m.continueSubTree topNode curNode res calls = .ok m' ∧ Inside k root s m' := by
  have hknown := hm.calls
  rw [hcalls, List.forall_mem_cons] at hknown
  obtain ⟨e,he⟩ := Option.isSome_iff_exists.mp hknown.1
  unfold Ready at hready
  rw [hpoint] at hready
  have haround : Around k root s m := hm.toAround
  cases res with
  | false => exact ⟨_,rfl,⟨hm.toAround.congr rfl rfl rfl rfl,hknown.2,trivial⟩⟩
  | true =>
    obtain ⟨next,hnext⟩ := nextNode_ok (hready topNode curNode calls e hcalls rfl he)
    unfold Matching.continueSubTree
    rw [if_neg (by decide), elementAt_eq he, ok_bind, hnext, ok_bind]
    cases next with
    | none => exact ⟨_,rfl,hm.toAround.congr rfl rfl rfl rfl,hknown.2,trivial⟩
    | some a =>
      have ha := (nextNode_ahead hnext).1
      refine ⟨_,rfl,hm.toAround.congr rfl rfl rfl rfl,?_,ha⟩
      exact List.forall_mem_cons.mpr ⟨ha,hknown.2⟩

theorem Inside.continueGroup (hm : Inside k root s m) {curNode childNode : ElementAddr}
    {calls : List ParseCall} (res : Bool) (hcalls : m.calls = .group curNode childNode :: calls) :
    ∃ m', m.continueGroup curNode childNode res calls = .ok m' ∧ Inside k root s m' := by
  have hknown := hm.calls
  rw [hcalls, List.forall_mem_cons] at hknown
  obtain ⟨⟨hlow,hhigh⟩,hrest⟩ := hknown
  unfold Matching.continueGroup
  by_cases hres : res = true
  · have hlt : (m.mGroupNum curNode).toNat < m.mGroups.length := by omega
    have hgroup : groupAt m.mGroups (m.mGroupNum curNode) =
        .ok m.mGroups[(m.mGroupNum curNode).toNat] := by
      rw [groupAt, if_pos (by omega), List.getElem?_eq_getElem hlt]
    -- the text of the group lies in the subject
    obtain ⟨hstart,hstop⟩ := hm.groups _ _ (by omega) (List.getElem?_eq_getElem hlt)
    rw [if_pos hres]
    dsimp only
    rw [hgroup, ok_bind, assignText, if_pos ⟨hstart,hstop⟩, ok_bind]
    refine ⟨_,rfl,⟨hm.tree,hm.subject,hm.low,hm.high,?_,?_⟩,?_,trivial⟩
    · simpa only [Matching.returns, List.length_set] using hm.held
    · intro i g hi hg
      simp only [Matching.returns, List.getElem?_set] at hg
      by_cases hi' : (m.mGroupNum curNode).toNat = i
      · rw [if_pos hi', if_pos hlt] at hg
        obtain rfl := Option.some.inj hg
        exact ⟨hstart,hstop⟩
      · rw [if_neg hi'] at hg
        exact hm.groups i g hi hg
    · intro call hcall
      have hcall := hrest call hcall
      cases call with
      | subTree topNode cur => exact hcall
      | group cur child => simpa only [Known, Matching.returns, List.length_set] using hcall
  · rw [if_neg hres]
    refine ⟨_,rfl,hm.toAround.tryChild curNode hrest ⟨hlow,hhigh⟩ ?_⟩
    intro c hc
    exact (Element.ahead_mNext hc).1

theorem Inside.step_testing (hm : Inside k root s m) {a : ElementAddr} {startPos : ℤ} {e : Element}
    (hpoint : m.point = .testing a startPos) (he : root.get a = some e) : m.step =
      .ok { m with point := .tested a startPos (e.accepts (s.getD m.data.curPos.toNat 0)) } := by
  unfold Matching.step
  simp only [hpoint]
  rw [elementAt_eq (by rwa [hm.tree]), ok_bind, ParseData.processTerminal_eq e hm.low hm.high, ok_bind,
    hm.subject]

/-- At the end of the subject it is the terminator that is tested. -/
theorem Inside.getD_end (hm : Inside k root s m) (hend : m.data.curPos = m.data.string.length) :
    s.getD m.data.curPos.toNat 0 = 0 := by
  rw [hend, hm.subject, Int.toNat_natCast, List.getD_eq_getElem?_getD, List.getElem?_eq_none le_rfl,
    Option.getD_none]

/-- A step that finds what it needs stays inside of the subject. -/
theorem Inside.step (hm : Inside k root s m) (hready : m.Ready) :
    ∃ m', m.step = .ok m' ∧ Inside k root s m' := by
  cases hpoint : m.point with
  | element a =>
    rw [step_element hpoint]
    exact hm.processElement hready hpoint
  | testing a startPos =>
    have hplaced := hm.point
    rw [hpoint] at hplaced
    obtain ⟨hsome,hstart,hstop⟩ := hplaced
    obtain ⟨e,he⟩ := Option.isSome_iff_exists.mp hsome
    unfold Ready at hready
    rw [hpoint] at hready
    refine ⟨_,hm.step_testing hpoint (by rwa [← hm.tree]),hm.toAround.congr rfl rfl rfl rfl,hm.calls,
      ⟨hstart,hstop⟩,e,he,?_⟩
    intro htrue hend
    apply hready e he hend
    rwa [hm.getD_end hend] at htrue
  | tested a startPos res =>
    rw [step_tested hpoint]
    exact hm.afterTest hready hpoint
  | returned res =>
    cases hcalls : m.calls with
    | nil => exact ⟨m,by simp only [Matching.step, hpoint, hcalls],hm⟩
    | cons call calls =>
      cases call with
      | subTree topNode curNode =>
        rw [step_subTree hpoint hcalls]
        exact hm.continueSubTree hready hpoint hcalls
      | group curNode childNode =>
        rw [step_group hpoint hcalls]
        exact hm.continueGroup res hcalls

/-- The position is one of the subject, or its end. -/
def InSubject (m : Matching) : Prop := 0 ≤ m.data.curPos ∧ m.data.curPos ≤ m.data.string.length

/-- From here the matching gets stuck or leaves the subject. -/
def Lost (m : Matching) : Prop :=
  ∃ m', Leads step m m' ∧ ((∃ f, m'.step = .error f) ∨ ¬m'.InSubject)

theorem Lost.of_error {f : Fault} (h : m.step = .error f) : m.Lost := ⟨m,.refl,.inl ⟨f,h⟩⟩

theorem Lost.of_step (h : m.step = .ok m') (hlost : m'.Lost) : m.Lost := by
  obtain ⟨n,hn,hfails⟩ := hlost
  exact ⟨n,(Leads.step h).trans hn,hfails⟩

theorem Lost.of_outside (h : ¬m.InSubject) : m.Lost := ⟨m,.refl,.inr h⟩

theorem lost_of_element {a : ElementAddr} {e : Element} (hpoint : m.point = .element a)
    (he : m.mRoot.get a = some e) (htype : e.data.mType = .typeTerminal ∨ e.data.mType = .typeClass)
    (hnot : ¬∃ i parent p, a = i :: parent ∧ m.mRoot.get parent = some p ∧
      p.data.mType = .typeSequence) : m.Lost := by
  have hloops : m.step = m.enterLoops a := by
    rw [step_element hpoint, processElement_loops he htype]
  cases a with
  | nil => exact .of_error hloops
  | cons i parent =>
    have hsome : (m.mRoot.get (i :: parent)).isSome = true := by
      rw [he]
      rfl
    obtain ⟨p,c,hp,-,-⟩ := Element.get_cons hsome
    have hseq : p.data.mType ≠ .typeSequence := fun h => hnot ⟨i,parent,p,rfl,hp,h⟩
    apply Lost.of_error (f := .fatal)
    rw [hloops, Matching.enterLoops, elementAt_eq hp, ok_bind, if_neg hseq]

theorem lost_of_numbers {a : ElementAddr} {e : Element} (hpoint : m.point = .element a)
    (he : m.mRoot.get a = some e) (htype : e.data.mType = .typeOr) (hnot : ¬m.NumbersGroup) :
    m.Lost := by
  apply Lost.of_error (f := .overflow)
  rw [step_element hpoint, processElement_group he htype, Matching.openGroup, if_neg hnot]

/-- A character that is taken or looked at is counted, or the count overflows. -/
theorem step_counts {a : ElementAddr} {startPos : ℤ} {e : Element}
    (hpoint : m.point = .tested a startPos true) (he : m.mRoot.get a = some e)
    (hspent : ¬m.Spent e) : (¬Counts m.data → m.step = .error .overflow) ∧
      (Counts m.data → ∃ m', m.step = .ok m' ∧ m'.data.curPos = m.data.curPos+1 ∧
        m'.data.string = m.data.string) := by
  rw [step_tested hpoint, Matching.afterTest, elementAt_eq he, ok_bind]
  by_cases hroom : m.hasRoom e
  · rw [if_pos ⟨hroom,rfl⟩, count]
    constructor
    · intro hnot
      rw [if_neg hnot, error_bind]
    · intro hcounts
      rw [if_pos hcounts, ok_bind]
      exact ⟨_,rfl,rfl,rfl⟩
  · have hmin : e.data.mRepeatMin ≤ m.data.matchCount := by
      by_contra hlt
      exact hspent ⟨hroom,by omega⟩
    rw [if_neg fun h => hroom h.1, if_pos rfl, if_pos hmin, count]
    constructor
    · intro hnot
      rw [if_neg hnot, error_bind]
    · intro hcounts
      rw [if_pos hcounts, ok_bind]
      exact ⟨_,rfl,rfl,rfl⟩

/-- The terminator is taken, or counted behind the inner loop. -/
theorem Inside.lost_of_testing (hm : Inside k root s m) {a : ElementAddr} {startPos : ℤ}
    {e : Element} (hpoint : m.point = .testing a startPos) (he : m.mRoot.get a = some e)
    (hend : m.data.curPos = m.data.string.length) (haccepts : e.accepts 0 = true)
    (hspent : ¬m.Spent e) : m.Lost := by
  have hstep : m.step = .ok { m with point := .tested a startPos true } := by
    rw [hm.step_testing hpoint (by rwa [← hm.tree]), hm.getD_end hend, haccepts]
  apply Lost.of_step hstep
  -- taken or counted, the position goes behind the end
  obtain ⟨hoverflow,hnext⟩ :=
    step_counts (m := { m with point := .tested a startPos true }) rfl he hspent
  by_cases hcounts : Counts m.data
  · obtain ⟨n,hn,hpos,hstring⟩ := hnext hcounts
    apply Lost.of_step hn
    apply Lost.of_outside
    rintro ⟨-,h⟩
    rw [hpos, hstring] at h
    dsimp only at h
    omega
  · exact .of_error (hoverflow hcounts)

theorem Inside.lost_of_tested (hm : Inside k root s m) {a : ElementAddr} {startPos : ℤ}
    {e : Element} (hpoint : m.point = .tested a startPos false) (he : m.mRoot.get a = some e)
    (hmin : m.data.matchCount < e.data.mRepeatMin) (hback : m.data.backtrackPos < startPos)
    (hnot : ¬(0 < startPos ∧ ∀ g ∈ m.mGroups, g.endPos-(startPos-1) ≤ g.string.length)) :
    m.Lost := by
  have hplaced := hm.point
  rw [hpoint] at hplaced
  have hstart : 0 ≤ startPos := hplaced.1.1
  have hstep : m.step = (backtrackGroups (startPos-1) m.mGroups >>= fun groups =>
      .ok { m with
        mGroups := groups
        data := { m.data with curPos := startPos-1, matchCount := 0 }
        point := .testing a (startPos-1) }) := by
    rw [step_tested hpoint, Matching.afterTest, elementAt_eq he, ok_bind, if_neg (by simp),
      if_neg (by decide), if_neg (by omega), if_pos hback]
  by_cases hcut : ∀ g ∈ m.mGroups, g.endPos-(startPos-1) ≤ g.string.length
  · rw [(backtrackGroups_eq _ _).1 hcut, ok_bind] at hstep
    apply Lost.of_step hstep
    apply Lost.of_outside
    rintro ⟨h,-⟩
    have hlow : 0 ≤ startPos-1 := h
    exact hnot ⟨by omega,hcut⟩
  · obtain ⟨f,hf⟩ := (backtrackGroups_eq _ _).2 hcut
    rw [hf, error_bind] at hstep
    exact .of_error hstep

theorem lost_of_returned {topNode curNode : ElementAddr} {calls : List ParseCall} {e : Element}
    (hpoint : m.point = .returned true) (hcalls : m.calls = .subTree topNode curNode :: calls)
    (he : m.mRoot.get curNode = some e)
    (hchild : e.data.mType ≠ .typeClass ∧ e.data.mType ≠ .typeOr → m.mRoot.mChild curNode = none)
    (hnext : m.mRoot.mNext curNode = none) (hnot : ¬Climbs m.mRoot topNode curNode) : m.Lost := by
  have hstuck : ∃ f, nextNode m.mRoot topNode curNode e.data.mType = .error f := by
    have hnone : (if e.data.mType ≠ .typeClass ∧ e.data.mType ≠ .typeOr then
        m.mRoot.mChild curNode else none) = none := by
      by_cases htype : e.data.mType ≠ .typeClass ∧ e.data.mType ≠ .typeOr
      · rw [if_pos htype, hchild htype]
      · rw [if_neg htype]
    unfold nextNode
    simp only [hnone, hnext]
    cases hclimb : climb m.mRoot topNode curNode with
    | error f => exact ⟨f,rfl⟩
    | ok next => exact absurd (climb_ok.mp ⟨next,hclimb⟩) hnot
  obtain ⟨f,hf⟩ := hstuck
  apply Lost.of_error (f := f)
  rw [step_subTree hpoint hcalls, Matching.continueSubTree, if_neg (by decide), elementAt_eq he, ok_bind,
    hf, error_bind]

/-- A step that does not find what it needs is the last one in the subject. -/
theorem Inside.lost (hm : Inside k root s m) (hnot : ¬m.Ready) : m.Lost := by
  unfold Ready at hnot
  cases hpoint : m.point with
  | element a =>
    simp only [hpoint, not_forall] at hnot
    obtain ⟨e,he,hnot⟩ := hnot
    rcases not_and_or.mp hnot with hseq | hnumbers
    · obtain ⟨htype,hseq⟩ := Classical.not_imp.mp hseq
      exact lost_of_element hpoint he htype hseq
    · obtain ⟨htype,hnumbers⟩ := Classical.not_imp.mp hnumbers
      exact lost_of_numbers hpoint he htype hnumbers
  | testing a startPos =>
    simp only [hpoint, not_forall] at hnot
    obtain ⟨e,he,hend,haccepts,hspent⟩ := hnot
    exact hm.lost_of_testing hpoint he hend haccepts hspent
  | tested a startPos res =>
    simp only [hpoint, not_forall] at hnot
    obtain ⟨e,he,hnot⟩ := hnot
    rcases not_and_or.mp hnot with hcounts | hcut
    · simp only [not_forall] at hcounts
      obtain ⟨rfl,hspent,hcounts⟩ := hcounts
      exact .of_error ((step_counts hpoint he hspent).1 hcounts)
    · simp only [not_forall] at hcut
      obtain ⟨rfl,hmin,hback,hcut⟩ := hcut
      exact hm.lost_of_tested hpoint he hmin hback hcut
  | returned res =>
    simp only [hpoint, not_forall] at hnot
    obtain ⟨topNode,curNode,calls,e,hcalls,rfl,he,hchild,hnext,hclimbs⟩ := hnot
    exact lost_of_returned hpoint hcalls he hchild hnext hclimbs

end

end Matching

end JhCommon
