import JhCommon.RegexPrepare
import JhCommon.RegexReuse

/-! When `prepare` replaces what a Regex was, and when a failed call leaves it as it was. -/
namespace JhCommon
open Transition

namespace Preparing
variable {α β : Type}

/-- What has the property is left behind by a PARSE_ERROR as well. -/
def Leaves (get : α → PrepareState) (P : PrepareState → Prop) : Preparing α → Prop
  | .ok a => P (get a)
  | .error (.parseError _ st) => P st
  | .error (.fault _) => True

section
variable {get : α → PrepareState} {get' : β → PrepareState} {P : PrepareState → Prop}

theorem Leaves.bind {x : Preparing α} {f : α → Preparing β} (hx : Leaves get P x)
    (hf : ∀ a, P (get a) → Leaves get' P (f a)) : Leaves get' P (x >>= f) := by
  cases x with
  | ok a => exact hf a hx
  | error e =>
    cases e with
    | parseError str st => exact hx
    | fault g => trivial

theorem leaves_ite {p : Prop} [Decidable p] {x y : Preparing α} (hx : Leaves get P x)
    (hy : Leaves get P y) : Leaves get P (if p then x else y) := by
  split_ifs
  · exact hx
  · exact hy

/-- A character that is read changes nothing. -/
theorem leaves_charAt {regex : List UInt8} {i : ℕ} {f : UInt8 → Preparing β}
    (hf : ∀ c, Leaves get' P (f c)) : Leaves get' P (PrepareState.charAt regex i >>= f) := by
  unfold PrepareState.charAt
  split_ifs
  · exact hf _
  · trivial

theorem leaves_nextIndex {i : ℕ} {f : ℕ → Preparing β} (hf : ∀ i, Leaves get' P (f i)) :
    Leaves get' P (PrepareState.nextIndex i >>= f) := by
  unfold PrepareState.nextIndex
  split_ifs
  · exact hf _
  · trivial

theorem leaves_getLastChild {st : PrepareState} {f : Element → Preparing β}
    (hf : ∀ e, Leaves get' P (f e)) : Leaves get' P (st.getLastChild >>= f) := by
  unfold PrepareState.getLastChild
  cases st.curNode.children with
  | nil => trivial
  | cons e es => exact hf e

end

end Preparing

namespace PrepareState
open Preparing

/-- The fields of the root, from an element and its ancestors. -/
def rootData : OpenElement → List OpenElement → ElementData
  | e, [] => e.data
  | _, parent :: above => rootData parent above

/-- The root has these fields, and children if it had some. -/
structure Rooted (d : ElementData) (had : Prop) (st : PrepareState) : Prop where
  data : rootData st.curNode st.above = d
  has : had → st.above ≠ [] ∨ st.curNode.children ≠ []

/-- A call leaves the root as it was, with all of its children. -/
abbrev Roots (d : ElementData) (had : Prop) : Preparing PrepareState → Prop := Leaves id (Rooted d had)

abbrev RootsAt (d : ElementData) (had : Prop) : Preparing (ℕ × PrepareState) → Prop :=
  Leaves Prod.snd (Rooted d had)

section
variable {memory : ℕ → UInt8 × UInt8} {st : PrepareState} {d : ElementData} {had : Prop}
  {regex : List UInt8}

theorem rootData_children (e : OpenElement) (es : List Element) (above : List OpenElement) :
    rootData { e with children := es } above = rootData e above := by
  cases above <;> rfl

/-- The last child is another one. -/
theorem Rooted.setChildren (h : st.Rooted d had) (e : Element) (es : List Element) :
    { st with curNode := { st.curNode with children := e :: es } }.Rooted d had :=
  ⟨(rootData_children st.curNode (e :: es) st.above).trans h.data,
    fun _ => .inr (List.cons_ne_nil e es)⟩

theorem Rooted.insertChild (h : st.Rooted d had) (data : ElementData) :
    (st.insertChild data).Rooted d had := h.setChildren _ _

theorem Rooted.descend (h : st.Rooted d had) (data : ElementData) :
    (st.descend data).Rooted d had := ⟨h.data,fun _ => .inl (List.cons_ne_nil _ _)⟩

theorem Rooted.ascend (h : st.Rooted d had) : Roots d had st.ascend := by
  unfold PrepareState.ascend
  have hdata := h.data
  cases habove : st.above with
  | nil => trivial
  | cons p above =>
    rw [habove] at hdata
    exact ⟨(rootData_children p (st.curNode.close :: p.children) above).trans hdata,
      fun _ => .inr (List.cons_ne_nil _ _)⟩

theorem Rooted.setLastChild (h : st.Rooted d had) (f : ElementData → ElementData) :
    Roots d had (st.setLastChild f) := by
  unfold PrepareState.setLastChild
  cases st.curNode.children with
  | nil => trivial
  | cons e es => exact h.setChildren _ _

theorem Rooted.made (h : st.Rooted d had) :
    ({ st with made := st.made+1 } : PrepareState).Rooted d had := ⟨h.data,h.has⟩

theorem Rooted.addTerminal (h : st.Rooted d had) (start fin : UInt8) :
    Roots d had (st.addTerminal memory start fin) := by
  have hclass : ({ st with state := .inClass } : PrepareState).Rooted d had := ⟨h.data,h.has⟩
  unfold PrepareState.addTerminal
  split_ifs
  · exact h
  · exact hclass.setLastChild _
  · exact h.made.insertChild _

theorem Rooted.addTerminals (h : st.Rooted d had) (ts : List (UInt8 × UInt8)) :
    Roots d had (PrepareState.addTerminals memory ts st) := by
  induction ts generalizing st with
  | nil => exact h
  | cons t ts ih => exact (h.addTerminal t.1 t.2).bind fun st hst => ih hst

/-- Only a class is inverted, which the root is not. -/
theorem Rooted.invert (h : st.Rooted d had) (hd : d.mType = .typeSequence)
    (hclass : st.curNode.data.mType = .typeClass) (data : ElementData) :
    ({ st with curNode := { st.curNode with data := data } } : PrepareState).Rooted d had := by
  have hdata := h.data
  refine ⟨?_,h.has⟩
  cases habove : st.above with
  | nil =>
    rw [habove] at hdata
    have hroot : st.curNode.data = d := hdata
    rw [hroot, hd] at hclass
    cases hclass
  | cons p above =>
    rw [habove] at hdata
    exact hdata

theorem Rooted.addClass (h : st.Rooted d had) (hd : d.mType = .typeSequence) (invert : Bool)
    (terminals : List (UInt8 × UInt8)) : Roots d had (st.addClass memory invert terminals) := by
  unfold PrepareState.addClass
  dsimp only
  by_cases hclass : st.curNode.data.mType ≠ .typeClass
  · have hnew := h.made.descend (st.newElement memory .typeClass)
    simp only [if_pos hclass]
    cases invert with
    | true =>
      rw [if_pos rfl]
      exact ((hnew.invert hd rfl _).addTerminals terminals).bind fun _ hst => hst.ascend
    | false =>
      rw [if_neg (by decide)]
      exact (hnew.addTerminals terminals).bind fun _ hst => hst.ascend
  · simp only [if_neg hclass]
    cases invert with
    | true =>
      rw [if_pos rfl]
      exact ((h.invert hd (not_not.mp hclass) _).addTerminals terminals).bind fun _ hst => hst
    | false =>
      rw [if_neg (by decide)]
      exact (h.addTerminals terminals).bind fun _ hst => hst

theorem Rooted.escape (h : st.Rooted d had) (hd : d.mType = .typeSequence) (c : UInt8) :
    Roots d had (st.escape memory c) := by
  have hclass : ∀ invert terminals, Roots d had (st.addClass memory invert terminals) :=
    fun invert terminals => h.addClass hd invert terminals
  have hterminal : ∀ c, Roots d had (st.addTerminal memory c c) := fun c => h.addTerminal c c
  unfold PrepareState.escape
  apply leaves_ite (hclass _ _)
  apply leaves_ite (hclass _ _)
  apply leaves_ite (hclass _ _)
  apply leaves_ite (hclass _ _)
  apply leaves_ite (hclass _ _)
  apply leaves_ite (hclass _ _)
  apply leaves_ite (hterminal _)
  apply leaves_ite (hterminal _)
  apply leaves_ite (hterminal _)
  apply leaves_ite (hterminal _)
  exact leaves_ite h (hterminal c)

theorem Rooted.setRepeat (h : st.Rooted d had) (min max : ℤ) :
    Roots d had (st.setRepeat min max) := by
  unfold PrepareState.setRepeat
  refine (h.setLastChild _).bind fun st hst => leaves_getLastChild fun e => ?_
  split_ifs
  · exact hst
  · trivial

theorem Rooted.repeatChar (h : st.Rooted d had) (str : String) (min max : ℤ) :
    Roots d had (st.repeatChar str min max) := by
  unfold PrepareState.repeatChar
  split_ifs
  · exact h
  · exact h.setRepeat min max

theorem Rooted.rangeFrom (h : st.Rooted d had) (fuel i : ℕ) (rangeState : PrepareMode)
    (min max : ℤ) : RootsAt d had (PrepareState.rangeFrom regex fuel i rangeState min max st) := by
  -- the limits are set in the last child, at the end or in front of an error
  induction fuel generalizing i rangeState min max with
  | zero => trivial
  | succ fuel ih =>
    have herror : ∀ str : String, RootsAt d had (st.setLimits min max >>= fun st =>
        .error (.parseError str st)) := fun str => (h.setLastChild _).bind fun _ hst => hst
    rw [PrepareState.rangeFrom]
    refine leaves_charAt fun c => ?_
    split_ifs
    all_goals first
      | exact leaves_nextIndex fun i => ih _ _ _ _
      | exact herror _
      | exact (h.setLastChild _).bind fun _ hst => hst

theorem Rooted.repeatRange (h : st.Rooted d had) (i : ℕ) :
    RootsAt d had (st.repeatRange regex i) := by
  unfold PrepareState.repeatRange
  split_ifs
  · exact h
  · exact leaves_nextIndex fun i => (h.setRepeat 0 0).bind fun st hst => hst.rangeFrom _ _ _ _ _

theorem Rooted.openClass (h : st.Rooted d had) (i : ℕ) :
    RootsAt d had (st.openClass memory regex i) := by
  have hclass : ({ st with state := .inClass, made := st.made+1 } : PrepareState).Rooted d had :=
    ⟨h.data,h.has⟩
  unfold PrepareState.openClass
  split_ifs
  · exact h
  · refine leaves_charAt fun c => ?_
    split_ifs
    · exact leaves_nextIndex fun i => hclass.descend _
    · exact hclass.descend _

theorem Rooted.closeClass (h : st.Rooted d had) (c : UInt8) :
    Roots d had (st.closeClass memory c) := by
  unfold PrepareState.closeClass
  split_ifs
  · exact h.ascend.bind fun st hst => ⟨hst.data,hst.has⟩
  · exact h
  · exact h.addTerminal c c

theorem Rooted.dash (h : st.Rooted d had) (c : UInt8) : Roots d had (st.dash memory c) := by
  unfold PrepareState.dash
  split_ifs
  · refine leaves_getLastChild fun e => ?_
    split_ifs
    · exact h
    · exact ⟨h.data,h.has⟩
  · exact h.addTerminal c c

theorem Rooted.openGroup (h : st.Rooted d had) (c : UInt8) :
    Roots d had (st.openGroup memory c) := by
  have hgroup : ({ st with inGroup := st.inGroup+1, made := st.made+1 } : PrepareState).Rooted d had :=
    ⟨h.data,h.has⟩
  unfold PrepareState.openGroup
  split_ifs
  · exact h.addTerminal c c
  · have hor := hgroup.descend (st.newElement memory .typeOr)
    have hmade := Rooted.made hor
    exact hmade.descend _

theorem Rooted.nextAlternative (h : st.Rooted d had) (c : UInt8) :
    Roots d had (st.nextAlternative memory c) := by
  unfold PrepareState.nextAlternative
  split_ifs
  · exact h.ascend.bind fun st hst => (Rooted.made hst).descend _
  · exact h.addTerminal c c

theorem Rooted.closeGroup (h : st.Rooted d had) (c : UInt8) :
    Roots d had (st.closeGroup memory c) := by
  have hgroup : ({ st with inGroup := st.inGroup-1 } : PrepareState).Rooted d had := ⟨h.data,h.has⟩
  unfold PrepareState.closeGroup
  split_ifs
  · exact hgroup.ascend.bind fun st hst => hst.ascend
  · exact h.addTerminal c c

theorem Rooted.plainChar (h : st.Rooted d had) (c : UInt8) :
    Roots d had (st.plainChar memory c) := by
  unfold PrepareState.plainChar
  apply leaves_ite (h.addTerminal _ _)
  apply leaves_ite (h.repeatChar _ _ _)
  apply leaves_ite (h.repeatChar _ _ _)
  apply leaves_ite (h.repeatChar _ _ _)
  apply leaves_ite (h.closeClass c)
  apply leaves_ite (h.dash c)
  apply leaves_ite (h.openGroup c)
  apply leaves_ite (h.nextAlternative c)
  exact leaves_ite (h.closeGroup c) (h.addTerminal c c)

theorem Rooted.prepareChar (h : st.Rooted d had) (hd : d.mType = .typeSequence) (i : ℕ) :
    RootsAt d had (PrepareState.prepareChar memory regex i st) := by
  unfold PrepareState.prepareChar
  refine leaves_charAt fun c => ?_
  split_ifs
  · exact leaves_nextIndex fun i => leaves_charAt fun c => (h.escape hd c).bind fun _ hst => hst
  · exact h.repeatRange i
  · exact h.openClass i
  · exact (h.plainChar c).bind fun _ hst => hst

theorem Rooted.prepareFrom (h : st.Rooted d had) (hd : d.mType = .typeSequence) (fuel i : ℕ) :
    Roots d had (PrepareState.prepareFrom memory regex fuel i st) := by
  -- on the fuel, with any state that has the root as it was
  induction fuel generalizing i st with
  | zero => trivial
  | succ fuel ih =>
    rw [PrepareState.prepareFrom]
    split_ifs
    · exact (h.prepareChar hd i).bind fun next hnext => leaves_nextIndex fun i => ih hnext _
    · exact h

/-- The tree as it is from the root. -/
theorem root_eq (st : PrepareState) : st.root.data = rootData st.curNode st.above ∧
    (st.root.children = [] ↔ st.above = [] ∧ st.curNode.children = []) := by
  have hfold : ∀ (above : List OpenElement) (cur : OpenElement) (e : Element), e.data = cur.data →
      let root := above.foldl (fun e parent => Element.mk parent.data (e :: parent.children).reverse) e
      root.data = rootData cur above ∧ (root.children = [] ↔ above = [] ∧ e.children = []) := by
    -- on the ancestors: closing one adds a child to the next
    intro above
    induction above with
    | nil =>
      intro cur e he
      exact ⟨he,by simp⟩
    | cons p above ih =>
      intro cur e he
      obtain ⟨hdata,hchildren⟩ := ih p (.mk p.data (e :: p.children).reverse) rfl
      refine ⟨hdata,hchildren.trans ?_⟩
      simp
  obtain ⟨hdata,hchildren⟩ := hfold st.above st.curNode st.curNode.close rfl
  refine ⟨hdata,hchildren.trans ?_⟩
  simp [OpenElement.close]

end

end PrepareState

namespace Regex

/-- A call of a Regex, with what the memory held where elements are made. -/
inductive Call
  | prepare (memory : ℕ → UInt8 × UInt8) (regex : List UInt8)
  | parse (fuel : ℕ) (string : List UInt8)
  | getData (i : ℤ)

inductive Answer
  | code (err : ErrCode)
  | matched (res : Bool)
  | data (string : List UInt8)
  deriving DecidableEq

def step (r : Regex) : Call → Exec (Answer × Regex)
  | .prepare memory regex => do
    let (err,r) ← r.prepare memory regex
    .ok (.code err,r)
  | .parse fuel string => do
    let (res,r) ← r.parse fuel string
    .ok (.matched res,r)
  | .getData i => do
    let string ← r.getData i
    .ok (.data string,r)

@[simp] theorem step_parse (r : Regex) (fuel : ℕ) (string : List UInt8) :
    r.step (.parse fuel string) =
      (r.parse fuel string >>= fun out => .ok (.matched out.1,out.2)) := rfl

@[simp] theorem step_getData (r : Regex) (i : ℤ) :
    r.step (.getData i) = (r.getData i >>= fun string => .ok (.data string,r)) := rfl

def Call.Observes : Call → Prop
  | .prepare _ _ => False
  | .parse _ _ => True
  | .getData _ => True

/-- Whatever is parsed and read of them, both return the same. -/
def Behaves (r r' : Regex) : Prop := ∀ calls : List Call, (∀ call ∈ calls, call.Observes) →
  Lockstep (fun out out' => out.1 = out'.1) (Transition.run step r calls) (Transition.run step r' calls)

/-- The states that any calls lead to, of an object made where the memory held these bytes. -/
def Reached (memory : ℕ → UInt8 × UInt8) (r : Regex) : Prop :=
  ∃ calls os, Transition.run step (Regex.init memory) calls = .ok (os,r)

/-- A call of `prepare` that succeeds makes the object what it makes of a fresh one, and a call that
fails leaves it what it was. -/
def PreparesCleanly (memory : ℕ → UInt8 × UInt8) (r : Regex) (memory' : ℕ → UInt8 × UInt8)
    (regex : List UInt8) : Prop :=
  ∀ r', (r.prepare memory' regex = .ok (.kNoError,r') → ∃ fresh,
      (Regex.init memory).prepare memory' regex = .ok (.kNoError,fresh) ∧ Behaves r' fresh) ∧
    (r.prepare memory' regex = .ok (.kInvalidRequest,r') → Behaves r' r)

/-- No element has been made in front of a call that succeeds, and no call has succeeded in front of
one that fails. -/
def Untouched (r : Regex) (memory : ℕ → UInt8 × UInt8) (regex : List UInt8) : Prop :=
  ∀ r', (r.prepare memory regex = .ok (.kNoError,r') → r.mRoot.children = []) ∧
    (r.prepare memory regex = .ok (.kInvalidRequest,r') → r.mState = .stateInit)

/-- The fields of a root that has been prepared. -/
def rootFields (memory : ℕ → UInt8 × UInt8) : ElementData :=
  { ElementData.init (memory 0) with mType := .typeSequence }

/-- What the calls leave of an object that has no elements. -/
structure Kept (memory : ℕ → UInt8 × UInt8) (r : Regex) : Prop where
  data : { r.mRoot.data with mType := .typeSequence } = rootFields memory
  type : r.mState ≠ .stateInit → r.mRoot.data.mType = .typeSequence
  empty : r.mRoot.children = [] → r.mGroups = [] ∧ r.mGroupNum = fun _ => -1

section
variable {memory memory' : ℕ → UInt8 × UInt8} {r r' : Regex} {regex : List UInt8} {err : ErrCode}

/-- The loop of `prepare` leaves the root, whatever it returns. -/
theorem prepare_root (h : r.prepare memory' regex = .ok (err,r')) : ∃ st : PrepareState,
    st.Rooted { r.mRoot.data with mType := .typeSequence } (r.mRoot.children ≠ []) ∧
      r'.mRoot = st.root ∧ r'.mGroups = r.mGroups ∧ r'.mGroupNum = r.mGroupNum := by
  have hstart : r.prepareState.Rooted { r.mRoot.data with mType := .typeSequence }
      (r.mRoot.children ≠ []) := by
    refine ⟨rfl,fun hne => .inr ?_⟩
    intro hnil
    exact hne (List.reverse_eq_nil_iff.mp hnil)
  have hloop : PrepareState.Roots _ _
      (PrepareState.prepareFrom memory' regex (regex.length+2) 0 r.prepareState) :=
    hstart.prepareFrom rfl (regex.length+2) 0
  unfold prepare at h
  generalize PrepareState.prepareFrom memory' regex (regex.length+2) 0 r.prepareState = x at h hloop
  cases x with
  | ok st =>
    obtain ⟨-,rfl⟩ := Prod.mk.inj (Except.ok.inj h)
    exact ⟨st,hloop,rfl,rfl,rfl⟩
  | error stop =>
    cases stop with
    | parseError str st =>
      obtain ⟨-,rfl⟩ := Prod.mk.inj (Except.ok.inj h)
      exact ⟨st,hloop,rfl,rfl,rfl⟩
    | fault f => cases h

theorem Kept.prepare (hr : r.Kept memory) (h : r.prepare memory' regex = .ok (err,r')) :
    r'.Kept memory := by
  obtain ⟨st,hst,hroot,hgroups,hnum⟩ := prepare_root h
  obtain ⟨hdata,hchildren⟩ := st.root_eq
  have hfields : r'.mRoot.data = rootFields memory := by
    rw [hroot, hdata, hst.data, hr.data]
  refine ⟨?_,fun _ => ?_,fun hnil => ?_⟩
  · rw [hfields]
    rfl
  · rw [hfields]
    rfl
  · rw [hgroups, hnum]
    -- no children now, and so none before
    apply hr.empty
    by_contra hne
    rw [hroot] at hnil
    obtain ⟨habove,hcur⟩ := hchildren.mp hnil
    exact (hst.has hne).elim (fun hno => hno habove) (fun hno => hno hcur)

/-- A tree without elements is not walked through. -/
theorem parse_empty (htype : r.mRoot.data.mType = .typeSequence) (hnil : r.mRoot.children = [])
    (hstate : r.mState ≠ .stateInit) (fuel : ℕ) (s : List UInt8) :
    ∃ f, r.parse fuel s = .error f := by
  have hroot : r.mRoot.get [] = some r.mRoot := rfl
  have hchild : r.mRoot.mChild [] = none := by
    simp [Element.mChild, Element.get, hnil]
  -- the sequence is entered, and its first child is taken without a look whether there is one
  have hfirst : (r.startParse s).step = .ok ((r.startParse s).returns true) :=
    (Matching.step_element rfl).trans (Matching.processElement_sequence hroot htype)
  have hsecond : ((r.startParse s).returns true).step = .error .nullDeref := by
    have he : ((r.startParse s).returns true).elementAt [] = .ok r.mRoot := Matching.elementAt_eq hroot
    rw [Matching.step_subTree rfl rfl, Matching.continueSubTree, if_neg (by decide), he, ok_bind]
    simp only [startParse, Matching.callSubTree, Matching.returns, htype, Matching.nextNode, hchild]
    rfl
  have hover : ¬∃ res, (r.startParse s).Over res := by
    rintro ⟨res,hpoint,-⟩
    cases hpoint
  have hover' : ¬∃ res, ((r.startParse s).returns true).Over res := by
    rintro ⟨res,-,hcalls⟩
    cases hcalls
  unfold Regex.parse
  rw [if_neg hstate]
  -- out of fuel in front of that, or at the missing child
  cases fuel with
  | zero => exact ⟨_,rfl⟩
  | succ fuel =>
    rw [Matching.runFor_of_step hover, hfirst, ok_bind]
    cases fuel with
    | zero => exact ⟨_,rfl⟩
    | succ fuel =>
      refine ⟨.nullDeref,?_⟩
      rw [Matching.runFor_of_step hover', hsecond, error_bind, error_bind]

theorem parse_keeps {fuel : ℕ} {s : List UInt8} {res : Bool} (h : r.parse fuel s = .ok (res,r')) :
    r'.mRoot = r.mRoot ∧ (r.mState = .stateInit → r' = r) ∧
      (r'.mState ≠ .stateInit → r.mState ≠ .stateInit) := by
  by_cases hstate : r.mState = .stateInit
  · unfold Regex.parse at h
    rw [if_pos hstate] at h
    obtain ⟨-,rfl⟩ := Prod.mk.inj (Except.ok.inj h)
    exact ⟨rfl,fun _ => rfl,id⟩
  · have hkeeps := Earlier.keeps (.single ⟨fuel,s,res,h⟩) hstate
    exact ⟨hkeeps.1,fun hinit => absurd hinit hstate,fun _ => hstate⟩

theorem Kept.parse (hr : r.Kept memory) {fuel : ℕ} {s : List UInt8} {res : Bool}
    (h : r.parse fuel s = .ok (res,r')) : r'.Kept memory := by
  obtain ⟨hroot,hsame,hstate⟩ := parse_keeps h
  refine ⟨by rw [hroot]; exact hr.data,fun hne => ?_,fun hnil => ?_⟩
  · rw [hroot]
    exact hr.type (hstate hne)
  · rw [hroot] at hnil
    by_cases hinit : r.mState = .stateInit
    · rw [hsame hinit]
      exact hr.empty hnil
    · -- a parse that returns has had a tree to walk through
      obtain ⟨f,hfault⟩ := parse_empty (hr.type hinit) hnil hinit fuel s
      rw [hfault] at h
      cases h

theorem Reached.kept (h : Reached memory r) : r.Kept memory := by
  obtain ⟨calls,os,hrun⟩ := h
  have hinit : (Regex.init memory).Kept memory := ⟨rfl,fun hne => absurd rfl hne,fun _ => ⟨rfl,rfl⟩⟩
  have hstep : ∀ (r : Regex) (call : Call) (o : Answer) (r' : Regex), r.Kept memory → True →
      r.step call = .ok (o,r') → r'.Kept memory := by
    intro r call o r' hr _ hcall
    cases call with
    | prepare memory' regex =>
      obtain ⟨⟨err,r₁⟩,hprepare,hout⟩ := bind_eq_ok.mp hcall
      obtain ⟨-,rfl⟩ := Prod.mk.inj (Except.ok.inj hout)
      exact hr.prepare hprepare
    | parse fuel s =>
      obtain ⟨⟨res,r₁⟩,hparse,hout⟩ := bind_eq_ok.mp hcall
      obtain ⟨-,rfl⟩ := Prod.mk.inj (Except.ok.inj hout)
      exact hr.parse hparse
    | getData i =>
      obtain ⟨string,-,hout⟩ := bind_eq_ok.mp hcall
      obtain ⟨-,rfl⟩ := Prod.mk.inj (Except.ok.inj hout)
      exact hr
  exact Guarded.keeps hstep (guarded_of_all fun _ _ _ => trivial) hinit hrun

/-- Related objects behave the same, where each call keeps them related. -/
theorem behaves_of (P : Regex → Regex → Prop)
    (hstep : ∀ r r' call, P r r' → call.Observes →
      Lockstep (fun out out' => out.1 = out'.1 ∧ P out.2 out'.2) (r.step call) (r'.step call))
    (h : P r r') : Behaves r r' := by
  intro calls hcalls
  -- the relation holds up to the end; what is left of it are the outputs
  have hrun := Lockstep.run Call.Observes hstep h calls hcalls
  generalize Transition.run step r calls = x at hrun ⊢
  generalize Transition.run step r' calls = y at hrun ⊢
  cases hrun with
  | ok hout => exact .ok hout.1
  | error f => exact .error f

/-- Nothing that is parsed or read depends on the text of an earlier error. -/
theorem behaves_errorString (r : Regex) (str : String) :
    Behaves { r with mErrorString := str } r := by
  apply behaves_of fun r r' => ∃ str, r = { r' with mErrorString := str }
  · rintro _ r call ⟨str,rfl⟩ hcall
    cases call with
    | prepare memory regex => cases hcall
    | parse fuel s =>
      have hstart : ({ r with mErrorString := str } : Regex).startParse s = r.startParse s := rfl
      rw [step_parse, step_parse]
      unfold Regex.parse
      rw [hstart]
      by_cases hstate : r.mState = .stateInit
      · simp only [if_pos hstate]
        exact .ok ⟨rfl,str,rfl⟩
      · simp only [if_neg hstate]
        generalize Matching.runFor fuel (r.startParse s) = x
        cases x with
        | error f => exact .error f
        | ok out => exact .ok ⟨rfl,str,rfl⟩
    | getData i =>
      have hdata : ({ r with mErrorString := str } : Regex).getData i = r.getData i := rfl
      rw [step_getData, step_getData, hdata]
      generalize r.getData i = x
      cases x with
      | error f => exact .error f
      | ok string => exact .ok ⟨rfl,str,rfl⟩
  · exact ⟨str,rfl⟩

/-- What has not been prepared returns the same whatever its tree is. -/
theorem behaves_init (hr : r.mState = .stateInit) (hr' : r'.mState = .stateInit) :
    Behaves r r' := by
  apply behaves_of fun r r' => r.mState = .stateInit ∧ r'.mState = .stateInit
  · rintro r r' call ⟨hr,hr'⟩ hcall
    cases call with
    | prepare memory regex => cases hcall
    | parse fuel s =>
      rw [step_parse, step_parse]
      unfold Regex.parse
      rw [if_pos hr, if_pos hr']
      exact .ok ⟨rfl,hr,hr'⟩
    | getData i =>
      have hne : r.mState ≠ .stateParsed := by
        rw [hr]
        decide
      have hne' : r'.mState ≠ .stateParsed := by
        rw [hr']
        decide
      rw [step_getData, step_getData]
      unfold Regex.getData
      rw [if_pos hne, if_pos hne']
      exact .ok ⟨rfl,hr,hr'⟩
  · exact ⟨hr,hr'⟩

/-- An object without elements is prepared as a fresh one is. -/
theorem Kept.prepares (hr : r.Kept memory) (hnil : r.mRoot.children = [])
    (h : r.prepare memory' regex = .ok (.kNoError,r')) : ∃ fresh,
      (Regex.init memory).prepare memory' regex = .ok (.kNoError,fresh) ∧
        r' = { fresh with mErrorString := r.mErrorString } := by
  -- both calls begin in one state, and the loop does not see the rest
  have hstart : r.prepareState = (Regex.init memory).prepareState := by
    unfold prepareState
    rw [hnil, hr.data]
    rfl
  obtain ⟨hgroups,hnum⟩ := hr.empty hnil
  unfold Regex.prepare at h ⊢
  rw [hstart] at h
  generalize PrepareState.prepareFrom memory' regex (regex.length+2) 0
    (Regex.init memory).prepareState = x at h ⊢
  cases x with
  | ok st =>
    obtain ⟨-,rfl⟩ := Prod.mk.inj (Except.ok.inj h)
    refine ⟨_,rfl,?_⟩
    simp only [hgroups, hnum, init]
  | error stop =>
    cases stop with
    | parseError str st => cases h
    | fault f => cases h

/-- A call that fails changes the tree and the text of the error. -/
theorem prepare_state (h : r.prepare memory' regex = .ok (.kInvalidRequest,r')) :
    r'.mState = r.mState := by
  unfold prepare at h
  generalize PrepareState.prepareFrom memory' regex (regex.length+2) 0 r.prepareState = x at h
  cases x with
  | ok st => cases h
  | error stop =>
    cases stop with
    | parseError str st =>
      obtain ⟨-,rfl⟩ := Prod.mk.inj (Except.ok.inj h)
      rfl
    | fault f => cases h

/-- In any state that calls lead to, `prepare` replaces what was before, or leaves it, where nothing
of it is in the tree. -/
theorem preparesCleanly (h : Reached memory r) (huntouched : r.Untouched memory' regex) :
    PreparesCleanly memory r memory' regex := by
  intro r'
  obtain ⟨hempty,hinit⟩ := huntouched r'
  constructor
  · intro hprepare
    obtain ⟨fresh,hfresh,rfl⟩ := h.kept.prepares (hempty hprepare) hprepare
    exact ⟨fresh,hfresh,behaves_errorString fresh _⟩
  · intro hprepare
    have hstate := hinit hprepare
    exact behaves_init ((prepare_state hprepare).trans hstate) hstate

end

/-- What `prepare` makes of letters. -/
def letters (cs : List UInt8) : Regex :=
  { mState := .statePrepared
    mRoot := .mk { ElementData.init (0,0) with mType := .typeSequence }
      (cs.map fun c => .mk (PrepareState.terminalData c c) [])
    mGroups := []
    mGroupNum := fun _ => -1
    mErrorString := "" }

/-- An object with the rest of a regex that failed, where another one fails; and one that was parsed
with and prepared with an empty regex, where another one is prepared. -/
theorem preparesCleanly_earlier : ∃ r r₁ r₂,
    Transition.run step (Regex.init fun _ => (0,0)) [.parse 1 (text "x"),
      .prepare (fun _ => (0,0)) (text "a[*")] =
        .ok ([.matched true,.code .kInvalidRequest],r) ∧
    r.prepare (fun _ => (0,0)) (text "b[+") = .ok (.kInvalidRequest,r₁) ∧
    PreparesCleanly (fun _ => (0,0)) r (fun _ => (0,0)) (text "b[+") ∧
    Transition.run step (Regex.init fun _ => (0,0)) [.parse 1 (text "x"),
      .prepare (fun _ => (0,0)) []] = .ok ([.matched true,.code .kNoError],letters []) ∧
    (letters []).prepare (fun _ => (0,0)) (text "(a|b)+") = .ok (.kNoError,r₂) ∧
    PreparesCleanly (fun _ => (0,0)) (letters []) (fun _ => (0,0)) (text "(a|b)+") := by
  have hfailed : ∃ r, Transition.run step (Regex.init fun _ => (0,0)) [.parse 1 (text "x"),
      .prepare (fun _ => (0,0)) (text "a[*")] =
        .ok ([.matched true,.code .kInvalidRequest],r) ∧ r.mState = .stateInit ∧
      ∃ r₁, r.prepare (fun _ => (0,0)) (text "b[+") = .ok (.kInvalidRequest,r₁) :=
    ⟨_,rfl,rfl,_,rfl⟩
  have hempty : Transition.run step (Regex.init fun _ => (0,0)) [.parse 1 (text "x"),
      .prepare (fun _ => (0,0)) []] = .ok ([.matched true,.code .kNoError],letters []) := rfl
  obtain ⟨r,hrun,hstate,r₁,hprepare⟩ := hfailed
  refine ⟨r,r₁,_,hrun,hprepare,preparesCleanly ⟨_,_,hrun⟩ ?_,hempty,rfl,
    preparesCleanly ⟨_,_,hempty⟩ ?_⟩
  · intro r'
    constructor
    · intro h
      rw [hprepare] at h
      cases h
    · intro _
      exact hstate
  · intro r'
    refine ⟨fun _ => rfl,fun h => ?_⟩
    obtain ⟨hcode,-⟩ := Prod.mk.inj (Except.ok.inj h)
    cases hcode

/-- A second regex comes behind the first one, and is not matched without it. -/
theorem keeps_earlier : ¬∀ (memory memory' : ℕ → UInt8 × UInt8) (r : Regex) (regex : List UInt8),
    Reached memory r → PreparesCleanly memory r memory' regex := by
  intro h
  have hreached : Reached (fun _ => (0,0)) (letters [ch 'a']) :=
    ⟨[.prepare (fun _ => (0,0)) [ch 'a']],[.code .kNoError],rfl⟩
  -- the element of the second regex is added behind that of the first
  have hsecond : (letters [ch 'a']).prepare (fun _ => (0,0)) [ch 'b'] =
      .ok (.kNoError,letters [ch 'a',ch 'b']) := rfl
  have hfirst : (Regex.init fun _ => (0,0)).prepare (fun _ => (0,0)) [ch 'b'] =
      .ok (.kNoError,letters [ch 'b']) := rfl
  obtain ⟨fresh,hfresh,hbehaves⟩ := (h _ _ _ _ hreached _).1 hsecond
  obtain ⟨-,rfl⟩ := Prod.mk.inj (Except.ok.inj (hfirst.symm.trans hfresh))
  have hall : ∀ call ∈ [Call.parse 40 [ch 'b']], call.Observes := by
    intro call hcall
    obtain rfl := List.mem_singleton.mp hcall
    trivial
  obtain ⟨r₁,hno⟩ : ∃ r₁, Transition.run step (letters [ch 'a',ch 'b']) [.parse 40 [ch 'b']] =
      .ok ([.matched false],r₁) := ⟨_,rfl⟩
  obtain ⟨r₂,hyes⟩ : ∃ r₂, Transition.run step (letters [ch 'b']) [.parse 40 [ch 'b']] =
      .ok ([.matched true],r₂) := ⟨_,rfl⟩
  have hout := hbehaves _ hall
  rw [hno, hyes] at hout
  cases hout with
  | ok hsame =>
    have hsame : [Answer.matched false] = [Answer.matched true] := hsame
    exact absurd hsame (by decide)

end Regex

end JhCommon
