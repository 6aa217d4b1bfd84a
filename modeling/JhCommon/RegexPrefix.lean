import JhCommon.RegexAnswers
import JhCommon.RegexReplacing

/-! What the documentation of `parse` says, and when it does it. -/
namespace JhCommon
open Transition

namespace Matching
variable {m n n' : Matching}

theorem Over.unique {res res' : Bool} (hn : Leads Matching.step m n) (hover : n.Over res)
    (hn' : Leads Matching.step m n') (hover' : n'.Over res') : res = res' := by
  obtain ⟨u,hu⟩ := Leads.goes_on hover.step hn hn'
  have hsame : n' = n := by
    have hunique : Relator.RightUnique fun s s' : Matching => s.step = .ok s' :=
      fun _ _ _ h h' => Except.ok.inj (h.symm.trans h')
    rcases Relation.ReflTransGen.total_of_right_unique hunique hn hn' with h | h
    · exact Leads.eq_of_halted hover.step h
    · exact (Leads.eq_of_halted hover'.step h).symm
  have hpoint := hover'.1
  rw [hsame, hover.1] at hpoint
  exact ParsePoint.returned.inj hpoint

end Matching

namespace Regex
open Matching

/-- A parse of a regex that is prepared from a fresh object returns, and says whether the subject
begins with a word of the language; where nothing was prepared it does not return true. -/
def Promised (memory : ℕ → UInt8 × UInt8) (r : Regex) (s : List UInt8) : Prop :=
  (∀ (regex : List UInt8) (pattern : RegexSequence),
    (init memory).prepare memory regex = .ok (.kNoError,r) →
    r.mRoot.written = .mk (elementData .typeSequence .once false) pattern.trees →
    ∃ fuel res r', r.parse fuel s = .ok (res,r') ∧
      (res = true ↔ ∃ w ∈ pattern.language, w <+: s)) ∧
  (r.mState = .stateInit → ∀ fuel r', r.parse fuel s ≠ .ok (true,r'))

/-- Without a wrong turn on the way, the walk over a tree finds a prefix in the language of it. -/
theorem parse_prefix {r : Regex} {s : List UInt8} {pattern : RegexSequence}
    (hr : r.mState ≠ .stateInit) (hstraight : (r.startParse s).Straight)
    (htree : r.mRoot.written = .mk (elementData .typeSequence .once false) pattern.trees) :
    ∃ fuel res r', r.parse fuel s = .ok (res,r') ∧
      (res = true ↔ ∃ w ∈ pattern.language, w <+: s) := by
  have hin := r.inside_startParse s
  obtain ⟨hdata,hchildren⟩ := Element.written_eq.mp htree
  have htype : r.mRoot.data.mType = .typeSequence := by
    rw [← ElementData.written_mType, hdata]
    rfl
  obtain ⟨hne,m,hleads,hpoint,hcalls,hsame⟩ :=
    hstraight.enter hin (t := []) rfl htype .refl rfl rfl
  have hpattern : pattern ≠ .nil := by
    rintro rfl
    exact hne (Element.writtenAll_eq_nil.mp hchildren)
  -- the walk begins at position 0, and at no other one
  have hcomes : (r.startParse s).Comes {0} (fun q => q = 0) 0 m := by
    refine ⟨hleads,by rw [hsame]; rfl,?_,⟨0,rfl,le_rfl⟩,.inr ?_⟩
    · intro p hp _
      exact Int.natCast_eq_zero.mp hp
    · rintro p rfl
      exact le_rfl
  have hadmits : (r.startParse s).Admits (fun q => q = 0) 0 [0] := by
    intro b q _ _ hq
    exact Int.natCast_eq_zero.mpr (Nat.le_zero.mp hq)
  obtain ⟨m',hleads',hcalls',hends⟩ := Straight.sequence hstraight hin pattern (i := 0) hpattern rfl
    htype (by rwa [List.drop_zero]) hcomes hadmits
    (by
      rintro q rfl
      simp [Element.leastBefore, Element.get, htype, Element.leastOfAll]) hpoint hcalls
  have hto : Leads Matching.step (r.startParse s) m' := hleads.trans hleads'
  have hparse : ∀ res, m'.point = .returned res → ∃ fuel r', r.parse fuel s = .ok (res,r') := by
    intro res hres
    obtain ⟨fuel,hrun⟩ := runFor_of_leads hto ⟨hres,hcalls'⟩
    exact ⟨fuel,_,by rw [parse, if_neg hr, hrun, ok_bind]⟩
  rcases hends with ⟨hpoint',x,e,q,c,-,-,-,hcomes'⟩ | ⟨hpoint',hnone⟩
  · obtain ⟨fuel,r',hok⟩ := hparse true hpoint'
    obtain ⟨p,hallowed,hp⟩ := hcomes'.some
    exact ⟨fuel,true,r',hok,iff_of_true rfl
      (endsFrom_nonempty.mp ⟨p,hcomes'.sound p hallowed hp⟩)⟩
  · obtain ⟨fuel,r',hok⟩ := hparse false hpoint'
    refine ⟨fuel,false,r',hok,iff_of_false (by decide) ?_⟩
    intro hword
    exact (endsFrom_nonempty.mpr hword).ne_empty hnone

theorem parse_unique {r r' r'' : Regex} {s : List UInt8} {fuel fuel' : ℕ} {res res' : Bool}
    (hr : r.mState ≠ .stateInit) (h : r.parse fuel s = .ok (res,r'))
    (h' : r.parse fuel' s = .ok (res',r'')) : res = res' := by
  rw [parse, if_neg hr] at h h'
  obtain ⟨⟨b,n⟩,hrun,h⟩ := bind_eq_ok.mp h
  obtain ⟨⟨b',n'⟩,hrun',h'⟩ := bind_eq_ok.mp h'
  obtain ⟨rfl,-⟩ := Prod.mk.inj (Except.ok.inj h)
  obtain ⟨rfl,-⟩ := Prod.mk.inj (Except.ok.inj h')
  obtain ⟨hn,hover⟩ := leads_of_runFor hrun
  obtain ⟨hn',hover'⟩ := leads_of_runFor hrun'
  exact hover.unique hn hn' hover'

/-- Where the matching takes no wrong turn, `parse` keeps the promise exactly if the regex was
prepared. -/
theorem promised_iff_prepared {memory : ℕ → UInt8 × UInt8} {r : Regex} {s : List UInt8}
    (hstraight : (r.startParse s).Straight) : Promised memory r s ↔ r.mState ≠ .stateInit := by
  constructor
  · rintro ⟨-,hinit⟩ hstate
    exact hinit hstate 0 r (by rw [parse, if_pos hstate])
  · intro hr
    refine ⟨?_,fun hstate => absurd hstate hr⟩
    intro regex pattern _ htree
    exact parse_prefix hr hstraight htree

end Regex

namespace Matching
variable {k : ℕ} {root : Element} {s : List UInt8} {m m' : Matching}

instance : DecidablePred InSubject := fun _ => inferInstanceAs (Decidable (_ ∧ _))

instance (e : Element) : Decidable e.IsDot := inferInstanceAs (Decidable (_ ∧ _))

instance (e : Element) (p q : ℤ) : Decidable (e.Reaches p q) := inferInstanceAs (Decidable (_ ∧ _))

instance : DecidablePred Proper := fun m =>
  match h : m.point with
  | .element a => decidable_of_iff (∀ e ∈ m.mRoot.get a,
      (e.data.mType = .typeOr → e.data.mRepeatMin = 1 ∧ e.data.mRepeatMax = 1) ∧
      (e.data.mType = .typeSequence → e.children ≠ [])) (by simp only [Proper, h]; rfl)
  | .testing a _ => decidable_of_iff (∀ e ∈ m.mRoot.get a,
      ¬(e.IsDot ∧ 128 ≤ m.data.string.getD m.data.curPos.toNat 0)) (by simp only [Proper, h]; rfl)
  | .tested a startPos res => decidable_of_iff (∀ e ∈ m.mRoot.get a, res = false →
      m.data.matchCount < e.data.mRepeatMin → ¬m.data.backtrackPos < startPos →
      m.data.backtrackPos ≤ m.mRoot.leastBefore a) (by simp only [Proper, h]; rfl)
  | .returned _ => isTrue (by simp only [Proper, h])

/-- The element that is left here, with the position that it is taken from. -/
def leaves (m : Matching) : Option (ElementAddr × ℤ) :=
  match m.point, m.step with
  | .tested a p _, .ok m' => if m'.point = .returned true then some (a,p) else none
  | _, _ => none

/-- The element that is entered here, with the position. -/
def enters (m : Matching) : Option (ElementAddr × ℤ) :=
  match m.point with
  | .element a => some (a,m.data.curPos)
  | _ => none

/-- The group whose alternative returns here, where it has another one, with the position. -/
def alternates (m : Matching) (res : Bool) : Option (ElementAddr × ℤ) :=
  match m.calls with
  | .group group child :: _ =>
    if m.point = .returned res ∧ (m.mRoot.mNext child).isSome = true then some (group,m.data.curPos)
    else none
  | _ => none

end Matching

namespace Element

/-- An element of the one walk and the next element are on the ways to these. -/
def mayFollow (a b : ElementAddr) : Bool :=
  a.tails.any fun t => match t with
    | i :: parent => decide ((i+1) :: parent ∈ b.tails)
    | [] => false

theorem Begins.suffix {a b : ElementAddr} (h : Begins a b) : a <:+ b := by
  induction h with
  | self a => exact List.suffix_rfl
  | @alternative group a i h ih =>
    exact ((List.suffix_cons i group).trans (List.suffix_cons 0 _)).trans ih

theorem Ends.suffix {root : Element} {a b : ElementAddr} (h : root.Ends a b) : a <:+ b := by
  induction h with
  | self a => exact List.suffix_rfl
  | @alternative group a i j hlast h ih =>
    exact ((List.suffix_cons i group).trans (List.suffix_cons j _)).trans ih

theorem Follows.mayFollow {root : Element} {a b : ElementAddr} (h : root.Follows a b) :
    mayFollow a b = true := by
  obtain ⟨i,parent,hends,hbegins⟩ := h
  apply List.any_eq_true.mpr
  refine ⟨i :: parent,(List.mem_tails _ _).mpr hends.suffix,?_⟩
  exact decide_eq_true ((List.mem_tails _ _).mpr hbegins.suffix)

end Element

namespace Matching
variable {k : ℕ} {root : Element} {s : List UInt8} {m m' : Matching}

/-- What a run has to be looked at for, once its states are listed. -/
structure Listed (root : Element) (ms : List Matching) : Prop where
  proper : ∀ n ∈ ms, n.InSubject ∧ n.Proper
  spaced : ∀ l ∈ ms.filterMap leaves, ∀ l' ∈ ms.filterMap leaves, Element.mayFollow l.1 l'.1 = true →
    ∀ e ∈ root.get l.1, e.Reaches l.2 l'.2
  restarts : ∀ l ∈ ms.filterMap enters, ∀ l' ∈ ms.filterMap (alternates · false), l.1 = l'.1 →
    l'.2 = l.2
  commits : ms.filterMap (alternates · true) = []

/-- A run that ends takes no wrong turn, where none of its states does. -/
theorem straight_of_listed {res : Bool} {n : ℕ} (hm : Inside k root s m)
    (hrun : iterate Matching.step n m = .ok m') (hover : m'.Over res)
    (h : Listed m.mRoot (states Matching.step n m)) : m.Straight := by
  have hmem (u : Matching) (hu : Leads Matching.step m u) : u ∈ states Matching.step n m :=
    Leads.mem_states hrun hover.step hu
  have hfound (u : Matching) (hu : Leads Matching.step m u) : u.Inside k root s ∧ u.Ready :=
    hm.ready_of_over (Leads.of_iterate hrun) hover (fun u hu => (h.proper u (hmem u hu)).1) hu
  have hleft {a : ElementAddr} {p : ℤ} (hleft : m.LeftFrom a p) :
      (a,p) ∈ (states Matching.step n m).filterMap leaves := by
    obtain ⟨u,u',res,hu,hpoint,hstep,hpoint'⟩ := hleft
    refine List.mem_filterMap.mpr ⟨u,hmem u hu,?_⟩
    simp only [leaves, hpoint, hstep, hpoint', if_true]
  constructor
  · exact fun u hu => (hfound u hu).2
  · exact fun u hu => (h.proper u (hmem u hu)).2
  · intro a b p q e ha hb hfollows he
    exact h.spaced (a,p) (hleft ha) (b,q) (hleft hb) hfollows.mayFollow e he
  · intro u u' group child calls hu hu' hpoint hpoint' hcalls hnext
    have htree : u'.mRoot = m.mRoot := (hfound u' hu').1.tree.trans hm.tree.symm
    have henters : (group,u.data.curPos) ∈ (states Matching.step n m).filterMap enters := by
      refine List.mem_filterMap.mpr ⟨u,hmem u hu,?_⟩
      simp only [enters, hpoint]
    have halternates : (group,u'.data.curPos) ∈
        (states Matching.step n m).filterMap (alternates · false) := by
      refine List.mem_filterMap.mpr ⟨u',hmem u' hu',?_⟩
      rw [← htree] at hnext
      simp only [alternates, hcalls, hpoint', hnext, and_self, if_true]
    exact h.restarts _ henters _ halternates rfl
  · intro u u' hu _ hcommits
    obtain ⟨group,child,calls,hpoint,hcalls,hnext⟩ := hcommits
    have halternates : (group,u.data.curPos) ∈
        (states Matching.step n m).filterMap (alternates · true) := by
      refine List.mem_filterMap.mpr ⟨u,hmem u hu,?_⟩
      simp only [alternates, hcalls, hpoint, hnext, and_self, if_true]
    rw [h.commits] at halternates
    cases halternates

end Matching

namespace Regex
open Matching

/-- What `prepare` makes of the regex "(c|a+)ab". -/
def plusGroup : Regex :=
  let sequence : ElementData := { ElementData.init (0,0) with mType := .typeSequence }
  let letter (c : Char) : ElementData := { ElementData.init (0,0) with
    mType := .typeTerminal, mTermStartChar := ch c, mTermEndChar := ch c }
  { mState := .statePrepared
    mRoot := .mk sequence
      [.mk { ElementData.init (0,0) with mType := .typeOr }
        [.mk sequence [.mk (letter 'c') []],.mk sequence [.mk { letter 'a' with mRepeatMax := -1 } []]],
        .mk (letter 'a') [],.mk (letter 'b') []]
    mGroups := []
    mGroupNum := fun _ => -1
    mErrorString := "" }

/-- In "aab" the group takes both letters, and gives one back for the "a" behind it. -/
theorem plusGroup_straight : (plusGroup.startParse [ch 'a',ch 'a',ch 'b']).Straight := by
  obtain ⟨m',hrun,hover⟩ : ∃ m',
      iterate Matching.step 36 (plusGroup.startParse [ch 'a',ch 'a',ch 'b']) = .ok m' ∧ m'.Over true :=
    ⟨_,rfl,rfl,rfl⟩
  apply straight_of_listed (inside_startParse _ _) hrun hover
  constructor
  · decide +kernel
  · decide +kernel
  · decide +kernel
  · decide +kernel

theorem plusGroup_promised :
    (Regex.init fun _ => (0,0)).prepare (fun _ => (0,0))
      [ch '(',ch 'c',ch '|',ch 'a',ch '+',ch ')',ch 'a',ch 'b'] = .ok (.kNoError,plusGroup) ∧
    (Promised (fun _ => (0,0)) plusGroup [ch 'a',ch 'a',ch 'b'] ↔ plusGroup.mState ≠ .stateInit) :=
  ⟨rfl,promised_iff_prepared plusGroup_straight⟩

/-- The first "a" of "aab" is taken together with the one behind it, which is only looked at: "ab"
is found at the beginning. -/
theorem ab_in_aab : ¬∀ (memory : ℕ → UInt8 × UInt8) (r : Regex) (s : List UInt8), 0 ∉ s →
    Promised memory r s := by
  intro h
  have hnul : (0 : UInt8) ∉ [ch 'a',ch 'a',ch 'b'] := by decide
  have ha : 1 ≤ ch 'a' ∧ ch 'a' ≤ 127 := by decide
  have hb : 1 ≤ ch 'b' ∧ ch 'b' ≤ 127 := by decide
  have hprepare : (Regex.init fun _ => (0,0)).prepare (fun _ => (0,0)) [ch 'a',ch 'b'] =
      .ok (.kNoError,letters [ch 'a',ch 'b']) := rfl
  obtain ⟨fuel,res,r',hparse,hres⟩ := (h (fun _ => (0,0)) (letters [ch 'a',ch 'b']) _ hnul).1 _
    (.cons (.literal ⟨ch 'a',ha⟩ .once) (.cons (.literal ⟨ch 'b',hb⟩ .once) .nil)) hprepare rfl
  obtain ⟨r'',hyes⟩ : ∃ r'', (letters [ch 'a',ch 'b']).parse 40 [ch 'a',ch 'a',ch 'b'] =
      .ok (true,r'') := ⟨_,rfl⟩
  obtain ⟨w,hw,hbegin⟩ := hres.mp (parse_unique (by decide) hparse hyes)
  obtain ⟨-,⟨c,hc,rfl⟩,u,hu,rfl⟩ := Language.mem_mul.mp hw
  obtain ⟨-,⟨d,hd,rfl⟩,v,hv,rfl⟩ := Language.mem_mul.mp hu
  obtain rfl : c = ch 'a' := hc
  obtain rfl : d = ch 'b' := hd
  obtain rfl : v = [] := hv
  exact absurd hbegin (by decide)

end Regex

end JhCommon
