import JhCommon.RegexRuns

/-! A matching that finds at every step what it needs comes to its end. -/
namespace JhCommon
open Transition

namespace Matching

/-- No step on the way lacks what it needs. -/
structure Steady (k : ℕ) (root : Element) (s : List UInt8) (m : Matching) : Prop
    extends Inside k root s m where
  ready : ∀ m', Leads step m m' → m'.Ready

/-- The call that runs comes to its return. -/
def Returns (m : Matching) (calls : List ParseCall) : Prop :=
  ∃ m' res, Leads step m m' ∧ m'.point = .returned res ∧ m'.calls = calls

/-- What can come behind a test: the character is taken, or it is one too many; and where it does
not match, there is enough, or the start goes back by one, or nothing is left to try. -/
inductive AfterTest (m : Matching) (e : Element) (a : ElementAddr) (p : ℤ) : Bool → Matching → Prop
  | takes (hroom : m.hasRoom e) :
    AfterTest m e a p true { m with data := counted m.data, point := .testing a p }
  | looksAhead {m' : Matching} (hroom : ¬m.hasRoom e) (hmin : e.data.mRepeatMin ≤ m.data.matchCount)
    (hpoint : m'.point = .returned true) (hcalls : m'.calls = m.calls)
    (hpos : m'.data.curPos = m.data.curPos+1) : AfterTest m e a p true m'
  | tooFew (hroom : ¬m.hasRoom e) (hmin : m.data.matchCount < e.data.mRepeatMin) :
    AfterTest m e a p true (m.returns false)
  | enough (hmin : e.data.mRepeatMin ≤ m.data.matchCount) : AfterTest m e a p false (m.returns true)
  | goesBack {m' : Matching} (hmin : m.data.matchCount < e.data.mRepeatMin)
    (hback : m.data.backtrackPos < p) (hpoint : m'.point = .testing a (p-1))
    (hcalls : m'.calls = m.calls) (hpos : m'.data.curPos = p-1) (hcount : m'.data.matchCount = 0) :
    AfterTest m e a p false m'
  | givesUp (hmin : m.data.matchCount < e.data.mRepeatMin) (hback : ¬m.data.backtrackPos < p) :
    AfterTest m e a p false (m.returns false)

section
variable {k : ℕ} {root : Element} {s : List UInt8} {m m' : Matching} {calls : List ParseCall}

theorem Steady.next (hm : Steady k root s m) (h : m.step = .ok m') : Steady k root s m' := by
  obtain ⟨n,hn,hinside⟩ := hm.toInside.step (hm.ready m .refl)
  obtain rfl : n = m' := Except.ok.inj (hn.symm.trans h)
  exact ⟨hinside,fun u hu => hm.ready u ((Leads.step h).trans hu)⟩

theorem Steady.leads (hm : Steady k root s m) (h : Leads step m m') : Steady k root s m' :=
  h.keeps (fun _ _ hs hstep => hs.next hstep) hm

theorem Returns.of_leads (h : Leads step m m') (hm : Returns m' calls) : Returns m calls := by
  obtain ⟨u,res,hu,hpoint,hcalls⟩ := hm
  exact ⟨u,res,h.trans hu,hpoint,hcalls⟩

theorem Returns.of_step (h : m.step = .ok m') (hm : Returns m' calls) : Returns m calls :=
  hm.of_leads (Leads.step h)

theorem Returns.of_returned {res : Bool} (hpoint : m.point = .returned res)
    (hcalls : m.calls = calls) : Returns m calls := ⟨m,res,.refl,hpoint,hcalls⟩

theorem afterTest_inv {a : ElementAddr} {p : ℤ} {e : Element} {res : Bool}
    (he : m.mRoot.get a = some e)
    (h : m.afterTest a p res = .ok m') : AfterTest m e a p res m' := by
  rw [afterTest, elementAt_eq he, ok_bind] at h
  by_cases htake : m.hasRoom e ∧ res = true
  · rw [if_pos htake] at h
    obtain ⟨hroom,rfl⟩ := htake
    obtain ⟨data,hcount,h⟩ := bind_eq_ok.mp h
    rw [count_eq_ok hcount] at h
    cases h
    exact .takes hroom
  rw [if_neg htake] at h
  cases res with
  | true =>
    -- the character fits, and there is no room for it
    have hroom : ¬m.hasRoom e := fun h => htake ⟨h,rfl⟩
    rw [if_pos rfl] at h
    by_cases hmin : e.data.mRepeatMin ≤ m.data.matchCount
    · rw [if_pos hmin] at h
      obtain ⟨data,hcount,h⟩ := bind_eq_ok.mp h
      rw [count_eq_ok hcount] at h
      cases h
      exact .looksAhead hroom hmin rfl rfl rfl
    · rw [if_neg hmin] at h
      cases h
      exact .tooFew hroom (not_le.mp hmin)
  | false =>
    rw [if_neg (by decide)] at h
    by_cases hmin : e.data.mRepeatMin ≤ m.data.matchCount
    · rw [if_pos hmin] at h
      cases h
      exact .enough hmin
    rw [if_neg hmin] at h
    -- too few have been taken, and the walk goes back by one if it can
    by_cases hback : m.data.backtrackPos < p
    · rw [if_pos hback] at h
      obtain ⟨groups,-,h⟩ := bind_eq_ok.mp h
      cases h
      exact .goesBack (not_le.mp hmin) hback rfl rfl rfl rfl
    · rw [if_neg hback] at h
      cases h
      exact .givesUp (not_le.mp hmin) hback

theorem enterLoops_inv {a : ElementAddr} (h : m.enterLoops a = .ok m') :
    m' = { m with data := { m.data with matchCount := 0 }, point := .testing a m.data.curPos } := by
  cases a with
  | nil => cases h
  | cons i parent =>
    unfold Matching.enterLoops at h
    obtain ⟨p,-,h⟩ := bind_eq_ok.mp h
    by_cases hseq : p.data.mType = .typeSequence
    · rw [if_pos hseq] at h
      exact (Except.ok.inj h).symm
    · rw [if_neg hseq] at h
      cases h

/-- Behind a test the loops are through, or take a character, or go back by one. -/
theorem AfterTest.cases {a : ElementAddr} {startPos : ℤ} {e : Element} {res : Bool}
    (h : AfterTest m e a startPos res m') :
    m'.calls = m.calls ∧ ((∃ res', m'.point = .returned res') ∨
      (m'.point = .testing a startPos ∧ m'.data.curPos = m.data.curPos+1) ∨
      (m'.point = .testing a (startPos-1) ∧ m'.data.curPos = startPos-1)) := by
  cases h with
  | takes _ => exact ⟨rfl,.inr (.inl ⟨rfl,rfl⟩)⟩
  | looksAhead _ _ hpoint hcalls _ => exact ⟨hcalls,.inl ⟨_,hpoint⟩⟩
  | tooFew _ _ | enough _ | givesUp _ _ => exact ⟨rfl,.inl ⟨_,rfl⟩⟩
  | goesBack _ _ hpoint hcalls hpos _ => exact ⟨hcalls,.inr (.inr ⟨hpoint,hpos⟩)⟩

/-- The loops of a terminal end: the position rises to the end of the subject at most, and then the
start falls. -/
theorem Steady.loops (hm : Steady k root s m) {a : ElementAddr} {startPos : ℤ}
    (hpoint : m.point = .testing a startPos) : Returns m m.calls := by
  obtain ⟨bound,hbound⟩ : ∃ bound, bound =
      startPos.toNat*(s.length+2)+(s.length+1-m.data.curPos).toNat := ⟨_,rfl⟩
  induction bound using Nat.strong_induction_on generalizing m startPos with
  | _ bound ih =>
    have hlow := hm.low
    have hplaced := hm.point
    rw [hpoint] at hplaced
    obtain ⟨hsome,hstart,-⟩ := hplaced
    obtain ⟨e,he⟩ := Option.isSome_iff_exists.mp hsome
    -- the test, and what comes behind it
    have h₁ := hm.toInside.step_testing hpoint (by rwa [← hm.tree])
    have hm₁ := hm.next h₁
    generalize e.accepts (s.getD m.data.curPos.toNat 0) = res at h₁ hm₁
    obtain ⟨m₂,h₂,-⟩ := hm₁.toInside.step (hm₁.ready _ .refl)
    have hm₂ := hm₁.next h₂
    have hhigh := hm₂.high
    rw [hm₂.subject] at hhigh
    have hafter : AfterTest { m with point := .tested a startPos res } e a startPos res m₂ :=
      afterTest_inv (m := { m with point := .tested a startPos res }) he h₂
    obtain ⟨hcalls,hcases⟩ := hafter.cases
    have hcalls : m₂.calls = m.calls := hcalls
    apply Returns.of_step h₁
    apply Returns.of_step h₂
    rw [← hcalls]
    rcases hcases with ⟨res',hreturned⟩ | ⟨hagain,hpos⟩ | ⟨hback,hpos⟩
    · exact .of_returned hreturned rfl
    · have hpos : m₂.data.curPos = m.data.curPos+1 := hpos
      exact ih _ (by rw [hbound]; omega) hm₂ hagain rfl
    · have hplaced := hm₂.point
      rw [hback] at hplaced
      obtain ⟨-,hstart',-⟩ := hplaced
      have hfewer : startPos.toNat = (startPos-1).toNat+1 := by omega
      have hmul : startPos.toNat*(s.length+2) =
          (startPos-1).toNat*(s.length+2)+(s.length+2) := by rw [hfewer, Nat.succ_mul]
      exact ih _ (by omega) hm₂ hback rfl

/-- What an element does with its alternatives ends, where the walks from behind it do. -/
theorem Steady.alternatives (hm : Steady k root s m) {a child : ElementAddr}
    (hwalks : ∀ m t b calls, Steady k root s m → m.point = .element b →
      m.calls = .subTree t b :: calls → root.ahead b < root.ahead a → Returns m calls)
    (hchild : root.ahead child < root.ahead a) (hpoint : m.point = .element child)
    (hcalls : m.calls = .subTree child child :: .group a child :: calls) : Returns m calls := by
  obtain ⟨bound,hbound⟩ : ∃ bound, bound = root.ahead child := ⟨_,rfl⟩
  induction bound using Nat.strong_induction_on generalizing m child with
  | _ bound ih =>
    obtain ⟨m₁,res,hleads,hpoint₁,hcalls₁⟩ := hwalks m child child _ hm hpoint hcalls hchild
    have hm₁ := hm.leads hleads
    obtain ⟨m₂,h₂,-⟩ := hm₁.toInside.step (hm₁.ready _ .refl)
    have hm₂ := hm₁.next h₂
    apply Returns.of_leads hleads
    apply Returns.of_step h₂
    rw [step_group hpoint₁ hcalls₁, Matching.continueGroup] at h₂
    by_cases hres : res = true
    · rw [if_pos hres] at h₂
      -- the group keeps its text and returns
      obtain ⟨g,-,h₂⟩ := bind_eq_ok.mp h₂
      obtain ⟨text,-,h₂⟩ := bind_eq_ok.mp h₂
      cases h₂
      exact .of_returned rfl rfl
    · rw [if_neg hres, hm₁.tree] at h₂
      cases hnext : root.mNext child with
      | none =>
        rw [hnext] at h₂
        cases h₂
        exact .of_returned rfl rfl
      | some b =>
        rw [hnext] at h₂
        cases h₂
        -- the next alternative has fewer elements still to come
        have hlt := (Element.ahead_mNext hnext).2.trans_le (Element.behind_le_ahead root child)
        exact ih _ (hbound ▸ hlt) hm₂ (hlt.trans hchild) rfl rfl rfl

/-- An element ends, where the walks from behind it do. -/
theorem Steady.element (hm : Steady k root s m) {a : ElementAddr}
    (hwalks : ∀ m t b calls, Steady k root s m → m.point = .element b →
      m.calls = .subTree t b :: calls → root.ahead b < root.ahead a → Returns m calls)
    (hpoint : m.point = .element a) : Returns m m.calls := by
  obtain ⟨m₁,h₁,-⟩ := hm.toInside.step (hm.ready m .refl)
  have hm₁ := hm.next h₁
  apply Returns.of_step h₁
  have hplaced := hm.point
  rw [hpoint] at hplaced
  obtain ⟨e,he⟩ := Option.isSome_iff_exists.mp hplaced
  rw [step_element hpoint] at h₁
  have hloops (htype : e.data.mType = .typeTerminal ∨ e.data.mType = .typeClass) :
      Returns m₁ m.calls := by
    rw [processElement_loops he htype] at h₁
    have h := enterLoops_inv h₁
    subst h
    exact hm₁.loops rfl
  cases htype : e.data.mType with
  | typeUnknown =>
    rw [processElement_unknown he htype] at h₁
    cases h₁
    exact .of_returned rfl rfl
  | typeSequence =>
    rw [processElement_sequence he htype] at h₁
    cases h₁
    exact .of_returned rfl rfl
  | typeTerminal => exact hloops (.inl htype)
  | typeClass => exact hloops (.inr htype)
  | typeOr =>
    rw [processElement_group he htype] at h₁
    have h₁ := openGroup_eq_ok h₁
    rw [hm.tree] at h₁
    cases hchild : root.mChild a with
    | none =>
      rw [hchild] at h₁
      subst h₁
      exact .of_returned rfl rfl
    | some child =>
      rw [hchild] at h₁
      subst h₁
      exact hm₁.alternatives hwalks (Element.ahead_mChild hchild).2 rfl rfl

/-- Every walk ends. The induction is on the number of elements that it has not come to. -/
theorem Steady.walk (hm : Steady k root s m) {t a : ElementAddr} (hpoint : m.point = .element a)
    (hcalls : m.calls = .subTree t a :: calls) : Returns m calls := by
  obtain ⟨bound,hbound⟩ : ∃ bound, bound = root.ahead a := ⟨_,rfl⟩
  induction bound using Nat.strong_induction_on generalizing m t a calls with
  | _ bound ih =>
    have helement : Returns m m.calls := by
      apply hm.element _ hpoint
      intro n t' b calls' hn hpoint' hcalls' hlt
      exact ih _ (hbound ▸ hlt) hn hpoint' hcalls' rfl
    obtain ⟨m₁,res,hleads,hpoint₁,hcalls₁⟩ := helement
    have hm₁ := hm.leads hleads
    rw [hcalls] at hcalls₁
    obtain ⟨m₂,h₂,-⟩ := hm₁.toInside.step (hm₁.ready _ .refl)
    have hm₂ := hm₁.next h₂
    apply Returns.of_leads hleads
    apply Returns.of_step h₂
    -- and what comes behind it
    rw [step_subTree hpoint₁ hcalls₁, Matching.continueSubTree] at h₂
    by_cases hres : res = false
    · rw [if_pos hres] at h₂
      cases h₂
      exact .of_returned rfl rfl
    rw [if_neg hres] at h₂
    obtain ⟨e,-,h₂⟩ := bind_eq_ok.mp h₂
    obtain ⟨next,hnext,h₂⟩ := bind_eq_ok.mp h₂
    cases next with
    | none =>
      cases h₂
      exact .of_returned rfl rfl
    | some b =>
      rw [hm₁.tree] at hnext
      cases h₂
      exact ih _ (hbound ▸ (nextNode_ahead hnext).2) hm₂ rfl rfl rfl

/-- The matching has returned to `parse`. -/
def Over (m : Matching) (res : Bool) : Prop := m.point = .returned res ∧ m.calls = []

theorem Over.step {res : Bool} (h : m.Over res) : m.step = .ok m := by
  unfold Matching.step
  simp only [h.1, h.2]

theorem runFor_of_over {res : Bool} (h : m.Over res) (fuel : ℕ) :
    runFor (fuel+1) m = .ok (res,m) := by
  unfold runFor
  simp only [h.1, h.2]

theorem runFor_of_step (h : ¬∃ res, m.Over res) (fuel : ℕ) :
    runFor (fuel+1) m = (m.step >>= fun m' => runFor fuel m') := by
  cases hpoint : m.point with
  | element a => simp only [runFor, hpoint]
  | testing a startPos => simp only [runFor, hpoint]
  | tested a startPos res => simp only [runFor, hpoint]
  | returned res =>
    cases hcalls : m.calls with
    | nil => exact absurd ⟨res,hpoint,hcalls⟩ h
    | cons call calls => simp only [runFor, hpoint, hcalls]

theorem runFor_of_leads {res : Bool} (h : Leads step m m') (hover : m'.Over res) :
    ∃ fuel, runFor fuel m = .ok (res,m') := by
  induction h using Relation.ReflTransGen.head_induction_on with
  | refl => exact ⟨1,runFor_of_over hover 0⟩
  | head hstep _ ih =>
    rename_i m n _
    obtain ⟨fuel,hfuel⟩ := ih
    by_cases hm : ∃ res', m.Over res'
    · obtain ⟨res',hm⟩ := hm
      obtain rfl : n = m := Except.ok.inj (hstep.symm.trans hm.step)
      exact ⟨fuel,hfuel⟩
    · refine ⟨fuel+1,?_⟩
      rw [runFor_of_step hm, hstep, ok_bind, hfuel]

theorem leads_of_runFor {res : Bool} {fuel : ℕ} (h : runFor fuel m = .ok (res,m')) :
    Leads step m m' ∧ m'.Over res := by
  induction fuel generalizing m with
  | zero => cases h
  | succ fuel ih =>
    by_cases hm : ∃ res', m.Over res'
    · obtain ⟨res',hm⟩ := hm
      rw [runFor_of_over hm] at h
      cases h
      exact ⟨.refl,hm⟩
    · rw [runFor_of_step hm] at h
      obtain ⟨n,hstep,h⟩ := bind_eq_ok.mp h
      obtain ⟨hleads,hover⟩ := ih h
      exact ⟨(Leads.step hstep).trans hleads,hover⟩

/-- A matching that comes to its end inside of the subject has found at every step what it needs. -/
theorem Inside.ready_of_over {res : Bool} (hm : Inside k root s m) (hleads : Leads Matching.step m m')
    (hover : m'.Over res) (hall : ∀ n, Leads Matching.step m n → n.InSubject) {n : Matching}
    (hn : Leads Matching.step m n) : n.Inside k root s ∧ n.Ready := by
  have hfound : ∀ n, Leads Matching.step m n → n.Inside k root s → n.Ready := by
    intro n hn hinside
    by_contra hnot
    obtain ⟨u,hu,hfails⟩ := hinside.lost hnot
    rcases hfails with ⟨f,hf⟩ | houtside
    · obtain ⟨u',hu'⟩ := Leads.goes_on hover.step hleads (hn.trans hu)
      rw [hf] at hu'
      cases hu'
    · exact houtside (hall u (hn.trans hu))
  have hinside : n.Inside k root s := by
    induction hn with
    | refl => exact hm
    | tail hn hstep ih =>
      obtain ⟨u,hu,hinside⟩ := ih.step (hfound _ hn ih)
      obtain rfl := Except.ok.inj (hu.symm.trans hstep)
      exact hinside
  exact ⟨hinside,hfound n hn hinside⟩

end

end Matching

namespace Regex
open Matching

theorem inside_startParse (r : Regex) (s : List UInt8) :
    Inside r.mGroups.length r.mRoot s (r.startParse s) := by
  refine ⟨⟨rfl,rfl,le_rfl,Int.natCast_nonneg _,le_rfl,?_⟩,?_,rfl⟩
  · intro i g hi hg
    have hg : r.mGroups[i]? = some g := hg
    rw [List.getElem?_eq_none hi] at hg
    cases hg
  · intro call hcall
    obtain rfl := List.mem_singleton.mp hcall
    exact rfl

/-- A match of a prepared regex ends and stays inside of its subject where it finds at every step
what that step needs, and nowhere else. -/
theorem parse_ends_iff {r : Regex} (hr : r.mState ≠ .stateInit) (s : List UInt8) :
    ((∃ fuel out, r.parse fuel s = .ok out) ∧
      ∀ m, Leads step (r.startParse s) m → m.InSubject) ↔
    ∀ m, Leads step (r.startParse s) m → m.Ready := by
  have hstart := r.inside_startParse s
  constructor
  · rintro ⟨⟨fuel,out,hparse⟩,hall⟩ m hm
    unfold parse at hparse
    rw [if_neg hr] at hparse
    obtain ⟨⟨res,n⟩,hrun,-⟩ := bind_eq_ok.mp hparse
    obtain ⟨hleads,hover⟩ := leads_of_runFor hrun
    exact (hstart.ready_of_over hleads hover hall hm).2
  · intro hready
    have hsteady : Steady r.mGroups.length r.mRoot s (r.startParse s) := ⟨hstart,hready⟩
    constructor
    · -- the walk from the root returns with no call open, so the run is over
      obtain ⟨n,res,hleads,hpoint,hcalls⟩ := hsteady.walk rfl rfl
      obtain ⟨fuel,hrun⟩ := runFor_of_leads hleads ⟨hpoint,hcalls⟩
      have hparse : r.parse fuel s = .ok (res,{ r with
          mState := if res = true then .stateParsed else r.mState
          mGroups := n.mGroups
          mGroupNum := n.mGroupNum }) := by
        unfold parse
        rw [if_neg hr, hrun, ok_bind]
      exact ⟨fuel,_,hparse⟩
    · intro m hm
      have hinside := hsteady.leads hm
      exact ⟨hinside.low,hinside.high⟩

/-- What `prepare` makes of the regex ".". -/
def dot : Regex :=
  { mState := .statePrepared
    mRoot := .mk { ElementData.init (0,0) with mType := .typeSequence }
      [.mk { ElementData.init (0,0) with
        mType := .typeTerminal, mTermStartChar := 0, mTermEndChar := 127 } []]
    mGroups := []
    mGroupNum := fun _ => -1
    mErrorString := "" }

/-- It takes the terminator behind the only character of "a". -/
theorem dot_leaves_subject :
    (Regex.init fun _ => (0,0)).prepare (fun _ => (0,0)) [ch '.'] = .ok (.kNoError,dot) ∧
      ¬((∃ fuel out, dot.parse fuel [ch 'a'] = .ok out) ∧
        ∀ m, Leads step (dot.startParse [ch 'a']) m → m.InSubject) := by
  refine ⟨rfl,?_⟩
  rintro ⟨-,hall⟩
  have hpos : ((iterate step 7 (dot.startParse [ch 'a'])).toOption.map fun m =>
      (m.data.curPos,m.data.string.length)) = some (2,1) := by decide +kernel
  obtain ⟨m,hm,hpos⟩ := Option.map_eq_some_iff.mp hpos
  obtain ⟨hcur,hlength⟩ := Prod.mk.inj hpos
  have hin := (hall m (Leads.of_iterate (toOption_eq_some.mp hm))).2
  rw [hcur, hlength] at hin
  omega

theorem dot_ends_iff : ((∃ fuel out, dot.parse fuel [ch 'a'] = .ok out) ∧
      ∀ m, Leads step (dot.startParse [ch 'a']) m → m.InSubject) ↔
    ∀ m, Leads step (dot.startParse [ch 'a']) m → m.Ready := parse_ends_iff (by decide) [ch 'a']

end Regex

end JhCommon
