import JhCommon.RegexTermination

/-! What a Regex keeps from one match to the next one. -/
namespace JhCommon
open Transition

/-- The regex has no group. -/
def Element.Groupless (root : Element) : Prop :=
  ∀ a e, root.get a = some e → e.data.mType ≠ .typeOr

namespace Matching

/-- The numbers are those that the open groups have. -/
def NumbersOpen (m : Matching) (num : ElementAddr → ℤ) (calls : List ParseCall) : Prop :=
  ∀ a child, ParseCall.group a child ∈ calls → num a = m.mGroupNum a

/-- No group is kept of a regex that has none. -/
def NoneKept (root : Element) (m : Matching) : Prop :=
  m.mRoot = root ∧ (root.Groupless → m.mGroups = [])

/-- The same matching, where only the numbers of groups that are not open can be others. -/
def Renumbered (root : Element) (m m' : Matching) : Prop :=
  ∃ num, m' = { m with mGroupNum := num } ∧ m.NumbersOpen num m.calls ∧ m.NoneKept root

section
variable {root : Element} {m m' : Matching}

theorem NumbersOpen.tail {num : ElementAddr → ℤ} {call : ParseCall} {calls : List ParseCall}
    (h : m.NumbersOpen num m.calls) (hcalls : m.calls = call :: calls) : m.NumbersOpen num calls := by
  intro a child hcall
  apply h a child
  rw [hcalls]
  exact List.mem_cons_of_mem call hcall

theorem tryChild_renumbered (num : ElementAddr → ℤ) (a : ElementAddr) (child : Option ElementAddr)
    (calls : List ParseCall) (hopen : num a = m.mGroupNum a)
    (hnum : m.NumbersOpen num calls) (hnone : m.NoneKept root) :
    Renumbered root (m.tryChild a child calls)
      ({ m with mGroupNum := num }.tryChild a child calls) := by
  cases child with
  | none => exact ⟨num,rfl,hnum,hnone⟩
  | some c =>
    refine ⟨num,rfl,?_,hnone⟩
    intro b d hcall
    rcases List.mem_cons.mp hcall with heq | hcall
    · cases heq
    rcases List.mem_cons.mp hcall with heq | hcall
    · cases heq
      exact hopen
    · exact hnum b d hcall

theorem openGroup_renumbered (num : ElementAddr → ℤ) (a : ElementAddr)
    (hnum : m.NumbersOpen num m.calls) (hroot : m.mRoot = root)
    (hgroup : ¬root.Groupless) :
    Lockstep (Renumbered root) (m.openGroup a) ({ m with mGroupNum := num }.openGroup a) := by
  apply Lockstep.ite <;> intro _
  swap
  · exact .error _
  apply Lockstep.ok
  apply tryChild_renumbered (Function.update num a m.mGroups.length)
  · exact (Function.update_self a _ num).trans (Function.update_self a _ m.mGroupNum).symm
  · intro b c hcall
    by_cases hb : b = a
    · subst hb
      exact (Function.update_self b _ num).trans (Function.update_self b _ m.mGroupNum).symm
    · simp only [groupOpened, Function.update_of_ne hb]
      exact hnum b c hcall
  · exact ⟨hroot,fun h => absurd h hgroup⟩

theorem enterLoops_renumbered (num : ElementAddr → ℤ) (a : ElementAddr)
    (hnum : m.NumbersOpen num m.calls) (hnone : m.NoneKept root) :
    Lockstep (Renumbered root) (m.enterLoops a) ({ m with mGroupNum := num }.enterLoops a) := by
  cases a with
  | nil => exact .error _
  | cons i parent =>
    apply Lockstep.bind_same
    intro p _
    apply Lockstep.ite
    · intro _
      exact .ok ⟨num,rfl,hnum,hnone⟩
    · intro _
      exact .error _

theorem afterTest_renumbered (num : ElementAddr → ℤ) (a : ElementAddr) (startPos : ℤ) (res : Bool)
    (hnum : m.NumbersOpen num m.calls) (hnone : m.NoneKept root) :
    Lockstep (Renumbered root) (m.afterTest a startPos res)
      ({ m with mGroupNum := num }.afterTest a startPos res) := by
  have hsame : ∀ res', Lockstep (ε := Fault) (Renumbered root) (.ok (m.returns res'))
      (.ok ({ m with mGroupNum := num }.returns res')) := fun res' => .ok ⟨num,rfl,hnum,hnone⟩
  apply Lockstep.bind_same
  intro e he
  apply Lockstep.ite <;> intro _
  · apply Lockstep.bind_same
    intro data _
    exact .ok ⟨num,rfl,hnum,hnone⟩
  apply Lockstep.ite <;> intro _
  · apply Lockstep.ite <;> intro _
    · apply Lockstep.bind_same
      intro data _
      exact .ok ⟨num,rfl,hnum,hnone⟩
    · exact hsame false
  apply Lockstep.ite <;> intro _
  · exact hsame true
  apply Lockstep.ite <;> intro _
  · apply Lockstep.bind_same
    intro groups hgroups
    refine .ok ⟨num,rfl,hnum,hnone.1,?_⟩
    intro hgroupless
    rw [hnone.2 hgroupless] at hgroups
    exact (Except.ok.inj hgroups).symm
  · exact hsame false

theorem continueSubTree_renumbered (num : ElementAddr → ℤ) (topNode curNode : ElementAddr)
    (res : Bool) {calls : List ParseCall} (hcalls : m.calls = .subTree topNode curNode :: calls)
    (hnum : m.NumbersOpen num m.calls) (hnone : m.NoneKept root) :
    Lockstep (Renumbered root) (m.continueSubTree topNode curNode res calls)
      ({ m with mGroupNum := num }.continueSubTree topNode curNode res calls) := by
  have hrest := hnum.tail hcalls
  apply Lockstep.ite <;> intro _
  · exact .ok ⟨num,rfl,hrest,hnone⟩
  apply Lockstep.bind_same
  intro e he
  apply Lockstep.bind_same
  intro next _
  cases next with
  | none => exact .ok ⟨num,rfl,hrest,hnone⟩
  | some a =>
    refine .ok ⟨num,rfl,?_,hnone⟩
    intro b c hcall
    rcases List.mem_cons.mp hcall with heq | hcall
    · cases heq
    · exact hrest b c hcall

theorem continueGroup_renumbered (num : ElementAddr → ℤ) (curNode childNode : ElementAddr)
    (res : Bool) {calls : List ParseCall} (hcalls : m.calls = .group curNode childNode :: calls)
    (hnum : m.NumbersOpen num m.calls) (hnone : m.NoneKept root) :
    Lockstep (Renumbered root) (m.continueGroup curNode childNode res calls)
      ({ m with mGroupNum := num }.continueGroup curNode childNode res calls) := by
  have hrest := hnum.tail hcalls
  -- the group is open, and so its number is the same
  have hopen : num curNode = m.mGroupNum curNode := by
    apply hnum curNode childNode
    rw [hcalls]
    exact List.mem_cons_self
  apply Lockstep.ite <;> intro _
  · dsimp only
    rw [hopen]
    apply Lockstep.bind_same
    intro g _
    apply Lockstep.bind_same
    intro text _
    refine .ok ⟨num,rfl,hrest,hnone.1,?_⟩
    intro hgroupless
    show m.mGroups.set _ _ = []
    rw [hnone.2 hgroupless, List.set_nil]
  · exact .ok (tryChild_renumbered num curNode _ calls hopen hrest hnone)

/-- A step gives a number to a group before it uses the number. -/
theorem Renumbered.step (h : Renumbered root m m') : Lockstep (Renumbered root) m.step m'.step := by
  obtain ⟨num,rfl,hnum,hnone⟩ := h
  unfold Matching.step
  cases hpoint : m.point with
  | element a =>
    apply Lockstep.bind_same
    intro e he
    cases htype : e.data.mType with
    | typeUnknown => exact .ok ⟨num,rfl,hnum,hnone⟩
    | typeSequence => exact .ok ⟨num,rfl,hnum,hnone⟩
    | typeTerminal => exact enterLoops_renumbered num a hnum hnone
    | typeClass => exact enterLoops_renumbered num a hnum hnone
    | typeOr =>
      have hget := get_of_elementAt he
      rw [hnone.1] at hget
      have hgroup : ¬root.Groupless := fun h => h a e hget htype
      exact openGroup_renumbered num a hnum hnone.1 hgroup
  | testing a startPos =>
    apply Lockstep.bind_same
    intro e he
    apply Lockstep.bind_same
    intro res _
    exact .ok ⟨num,rfl,hnum,hnone⟩
  | tested a startPos res => exact afterTest_renumbered num a startPos res hnum hnone
  | returned res =>
    cases hcalls : m.calls with
    | nil =>
      refine .ok ⟨num,?_,hnum,hnone⟩
      simp only [hcalls, hpoint]
    | cons call calls =>
      cases call with
      | subTree topNode curNode =>
        exact continueSubTree_renumbered num topNode curNode res hcalls hnum hnone
      | group curNode childNode =>
        exact continueGroup_renumbered num curNode childNode res hcalls hnum hnone

theorem Renumbered.runFor (h : Renumbered root m m') (fuel : ℕ) :
    Lockstep (fun out out' => out.1 = out'.1 ∧ Renumbered root out.2 out'.2)
      (runFor fuel m) (runFor fuel m') := by
  induction fuel generalizing m m' with
  | zero => exact .error _
  | succ fuel ih =>
    obtain ⟨num,hm',-,-⟩ := id h
    by_cases hover : ∃ res, m.Over res
    · obtain ⟨res,hover⟩ := hover
      have hover' : m'.Over res := by
        rw [hm']
        exact hover
      rw [runFor_of_over hover, runFor_of_over hover']
      exact .ok ⟨rfl,h⟩
    · have hover' : ¬∃ res, m'.Over res := by
        rw [hm']
        exact hover
      rw [runFor_of_step hover, runFor_of_step hover']
      apply h.step.bind
      intro n n' hn
      exact ih hn

end

end Matching

namespace Regex
open Matching

/-- What a history of matches makes of an object. -/
def Earlier : Regex → Regex → Prop :=
  Relation.ReflTransGen fun r r' => ∃ fuel s res, r.parse fuel s = .ok (res,r')

/-- The matches that were before have kept no group, and none succeeded if there are groups. -/
def Unused (r : Regex) : Prop :=
  r.mGroups = [] ∧ (r.mState = .statePrepared ∨ r.mRoot.Groupless)

theorem Earlier.keeps {r r' : Regex} (h : Earlier r r') (hr : r.mState ≠ .stateInit) :
    r'.mRoot = r.mRoot ∧ r'.mState ≠ .stateInit := by
  induction h with
  | refl => exact ⟨rfl,hr⟩
  | tail _ hparse ih =>
    obtain ⟨fuel,s,res,hparse⟩ := hparse
    unfold parse at hparse
    rw [if_neg ih.2] at hparse
    obtain ⟨⟨res',n⟩,-,hparse⟩ := bind_eq_ok.mp hparse
    obtain ⟨-,rfl⟩ := Prod.mk.inj (Except.ok.inj hparse)
    refine ⟨ih.1,?_⟩
    show (if res' = true then RegexState.stateParsed else _) ≠ _
    by_cases hres : res' = true
    · rw [if_pos hres]
      decide
    · rw [if_neg hres]
      exact ih.2

theorem prepare_fresh {memory : ℕ → UInt8 × UInt8} {regex : List UInt8} {r : Regex}
    (h : (Regex.init memory).prepare memory regex = .ok (.kNoError,r)) :
    r.mState = .statePrepared ∧ r.mGroups = [] := by
  unfold prepare at h
  cases hloop : PrepareState.prepareFrom memory regex (regex.length+2) 0
      (Regex.init memory).prepareState with
  | ok st =>
    simp only [hloop, Except.ok.injEq, Prod.mk.injEq, true_and] at h
    subst h
    exact ⟨rfl,rfl⟩
  | error stop =>
    cases stop with
    | fault f => simp [hloop] at h
    | parseError str st => simp [hloop] at h

theorem getData_of_empty {r : Regex} (h : r.mState ≠ .stateParsed ∨ r.mGroups = []) (i : ℕ) :
    r.getData i = .ok [] := by
  unfold getData
  by_cases hstate : r.mState ≠ .stateParsed
  · rw [if_pos hstate]
  · have hnil : r.mGroups = [] := h.resolve_left hstate
    have hlength : (([] : List GroupData).length : ℤ) ≤ i := Int.natCast_nonneg i
    rw [if_neg hstate, hnil, if_pos hlength]

/-- Where no earlier match has kept anything, a match does and leaves what the first one would. -/
theorem parse_again {memory : ℕ → UInt8 × UInt8} {regex : List UInt8} {r r' : Regex}
    (hprepare : (Regex.init memory).prepare memory regex = .ok (.kNoError,r)) (h : Earlier r r')
    (hunused : r'.Unused) (fuel : ℕ) (s : List UInt8) :
    Lockstep (fun out out' => out.1 = out'.1 ∧ ∀ i : ℕ, out.2.getData i = out'.2.getData i)
      (r'.parse fuel s) (r.parse fuel s) := by
  obtain ⟨hstate,hgroups⟩ := prepare_fresh hprepare
  have hinit : r.mState ≠ .stateInit := by
    rw [hstate]
    decide
  obtain ⟨hroot,hinit'⟩ := h.keeps hinit
  -- the walks begin alike but for the numbers that groups have had before
  have hstart : Renumbered r'.mRoot (r'.startParse s) (r.startParse s) := by
    refine ⟨r.mGroupNum,?_,?_,rfl,fun _ => hunused.1⟩
    · unfold startParse callSubTree
      simp only [hroot, hgroups, hunused.1]
    · intro a child hcall
      rcases List.mem_cons.mp hcall with heq | hcall
      · cases heq
      · cases hcall
  unfold parse
  rw [if_neg hinit, if_neg hinit']
  apply (hstart.runFor fuel).bind
  rintro ⟨res,n⟩ ⟨res',n'⟩ ⟨hres,num,hn,-,-,hnone⟩
  obtain rfl : res = res' := hres
  obtain rfl := hn
  refine .ok ⟨rfl,?_⟩
  intro i
  cases res with
  | true => rfl
  | false =>
    -- no match, so both answer with nothing
    have hfresh : ({ r with mGroups := n.mGroups, mGroupNum := num } : Regex).getData i = .ok [] := by
      apply getData_of_empty
      left
      show r.mState ≠ .stateParsed
      rw [hstate]
      decide
    have hagain : ({ r' with mGroups := n.mGroups, mGroupNum := n.mGroupNum } : Regex).getData i =
        .ok [] := by
      apply getData_of_empty
      rcases hunused.2 with hprepared | hgroupless
      · left
        show r'.mState ≠ .stateParsed
        rw [hprepared]
        decide
      · right
        exact hnone hgroupless
    exact hagain.trans hfresh.symm

/-- What `prepare` makes of the regex "([ab])". -/
def letterGroup : Regex :=
  { mState := .statePrepared
    mRoot := .mk { ElementData.init (0,0) with mType := .typeSequence }
      [.mk { ElementData.init (0,0) with mType := .typeOr }
        [.mk { ElementData.init (0,0) with mType := .typeSequence }
          [.mk { ElementData.init (0,0) with mType := .typeClass }
            [.mk { ElementData.init (0,0) with
                mType := .typeTerminal, mTermStartChar := ch 'a', mTermEndChar := ch 'a' } [],
              .mk { ElementData.init (0,0) with
                mType := .typeTerminal, mTermStartChar := ch 'b', mTermEndChar := ch 'b' } []]]]]
    mGroups := []
    mGroupNum := fun _ => -1
    mErrorString := "" }

theorem group_prepared : (Regex.init fun _ => (0,0)).prepare (fun _ => (0,0))
    [ch '(', ch '[', ch 'a', ch 'b', ch ']', ch ')'] = .ok (.kNoError,letterGroup) := rfl

/-- Behind a match of "a", the group of a match of "b" is still the "a". -/
theorem group_of_earlier_match :
    (Regex.init fun _ => (0,0)).prepare (fun _ => (0,0))
      [ch '(', ch '[', ch 'a', ch 'b', ch ']', ch ')'] = .ok (.kNoError,letterGroup) ∧
    ∃ r₁ r₂ r₃, letterGroup.parse 40 [ch 'a'] = .ok (true,r₁) ∧
      r₁.parse 40 [ch 'b'] = .ok (true,r₂) ∧ letterGroup.parse 40 [ch 'b'] = .ok (true,r₃) ∧
      r₂.getData 0 = .ok [ch 'a'] ∧ r₃.getData 0 = .ok [ch 'b'] :=
  ⟨group_prepared,_,_,_,rfl,rfl,rfl,rfl,rfl⟩

/-- What `prepare` makes of the regex "x+([ab]+)c". -/
def repeatGroup : Regex :=
  { mState := .statePrepared
    mRoot := .mk { ElementData.init (0,0) with mType := .typeSequence }
      [.mk { ElementData.init (0,0) with
          mType := .typeTerminal, mTermStartChar := ch 'x', mTermEndChar := ch 'x'
          mRepeatMin := 1, mRepeatMax := -1 } [],
        .mk { ElementData.init (0,0) with mType := .typeOr }
          [.mk { ElementData.init (0,0) with mType := .typeSequence }
            [.mk { ElementData.init (0,0) with
                mType := .typeClass, mRepeatMin := 1, mRepeatMax := -1 }
              [.mk { ElementData.init (0,0) with
                  mType := .typeTerminal, mTermStartChar := ch 'a', mTermEndChar := ch 'a' } [],
                .mk { ElementData.init (0,0) with
                  mType := .typeTerminal, mTermStartChar := ch 'b', mTermEndChar := ch 'b' } []]]],
        .mk { ElementData.init (0,0) with
            mType := .typeTerminal, mTermStartChar := ch 'c', mTermEndChar := ch 'c' } []]
    mGroups := []
    mGroupNum := fun _ => -1
    mErrorString := "" }

/-- Behind matches that failed in front of the group, it is opened as in the first match. -/
theorem parse_again_failed :
    (Regex.init fun _ => (0,0)).prepare (fun _ => (0,0)) (text "x+([ab]+)c") =
      .ok (.kNoError,repeatGroup) ∧
    ∃ r₁ r₂ out, repeatGroup.parse 40 (text "b") = .ok (false,r₁) ∧
      r₁.parse 40 [] = .ok (false,r₂) ∧
      r₂.parse 100 (text "xxabc") = .ok (true,out) ∧ out.getData 0 = .ok (text "ab") ∧
      Lockstep (fun out out' => out.1 = out'.1 ∧ ∀ i : ℕ, out.2.getData i = out'.2.getData i)
        (r₂.parse 100 (text "xxabc")) (repeatGroup.parse 100 (text "xxabc")) := by
  have hprepare : (Regex.init fun _ => (0,0)).prepare (fun _ => (0,0)) (text "x+([ab]+)c") =
      .ok (.kNoError,repeatGroup) := rfl
  refine ⟨hprepare,_,_,_,rfl,rfl,rfl,rfl,parse_again hprepare ?_ ⟨rfl,.inl rfl⟩ 100 _⟩
  exact .tail (.single ⟨40,text "b",false,rfl⟩) ⟨40,[],false,rfl⟩

end Regex

end JhCommon
