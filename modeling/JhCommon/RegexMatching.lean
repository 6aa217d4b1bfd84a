import JhCommon.Regex

/-! What `Regex::parse` does with a prepared regex. Its functions call each other, and so a step
goes from one point in them to the next one, with the calls that wait for a result on a stack.
Logging is left out. -/
namespace JhCommon
open CircularBuffer (signedChar)

namespace Element

def get (root : Element) : ElementAddr → Option Element
  | [] => some root
  | i :: parent => (root.get parent).bind fun e => e.children[i]?

/-- `mChild`, where none is NULL. -/
def mChild (root : Element) (a : ElementAddr) : Option ElementAddr :=
  if (root.get (0 :: a)).isSome = true then some (0 :: a) else none

def mNext (root : Element) : ElementAddr → Option ElementAddr
  | [] => none
  | i :: parent =>
    if (root.get ((i+1) :: parent)).isSome = true then some ((i+1) :: parent) else none

end Element

/-- The comparisons are of plain chars. -/
def ElementData.holds (d : ElementData) (c : UInt8) : Bool :=
  decide (signedChar d.mTermStartChar ≤ signedChar c ∧ signedChar c ≤ signedChar d.mTermEndChar)

/-- The position and the count are ints: to add one to the greatest of them overflows. -/
structure ParseData where
  string : List UInt8
  curPos : ℤ
  backtrackPos : ℤ
  matchCount : ℤ

/-- A call that has not returned yet, with its local variables: `processSubTree` where it calls
`processElement`, or `processElement` of a group where it calls `processSubTree`. -/
inductive ParseCall
  | subTree (topNode curNode : ElementAddr)
  | group (curNode childNode : ElementAddr)
  deriving DecidableEq

/-- Where the call is that runs: at the beginning of `processElement`, at a call of
`processTerminal` in its loops, behind it, or at a return. -/
inductive ParsePoint
  | element (curNode : ElementAddr)
  | testing (curNode : ElementAddr) (startPos : ℤ)
  | tested (curNode : ElementAddr) (startPos : ℤ) (res : Bool)
  | returned (res : Bool)
  deriving DecidableEq

structure Matching where
  mRoot : Element
  mGroups : List GroupData
  mGroupNum : ElementAddr → ℤ
  data : ParseData
  calls : List ParseCall
  point : ParsePoint

namespace ParseData

/-- The character at the current position. The terminator can be read as well. -/
def curChar (data : ParseData) : Exec UInt8 :=
  if 0 ≤ data.curPos ∧ data.curPos ≤ data.string.length then
    .ok (data.string.getD data.curPos.toNat 0)
  else .error .outOfBounds

/-- The loop of `processTerminal` over the children of a class. -/
def anyHolds (data : ParseData) : List Element → Exec Bool
  | [] => .ok false
  | e :: es => do
    let c ← data.curChar
    if e.data.holds c = true then .ok true else data.anyHolds es

def processTerminal (data : ParseData) (curNode : Element) : Exec Bool :=
  match curNode.data.mType with
  | .typeTerminal => do
    let c ← data.curChar
    .ok (curNode.data.holds c)
  | .typeClass => do
    let found ← data.anyHolds curNode.children
    .ok (found != curNode.data.mClassInvert)
  | _ => .ok false

end ParseData

/-- The access to a group, where an index outside of the vector is a reference to NULL. -/
def groupAt (groups : List GroupData) (i : ℤ) : Exec GroupData :=
  if 0 ≤ i then
    match groups[i.toNat]? with
    | none => .error .nullDeref
    | some g => .ok g
  else .error .nullDeref

/-- The end of a group goes back to a position, where it is behind it. -/
def GroupData.cutTo (g : GroupData) (pos : ℤ) : GroupData :=
  if pos < g.endPos then
    { g with string := g.string.take (g.string.length-(g.endPos-pos)).toNat, endPos := pos }
  else g

/-- To erase from before the beginning of the text throws. -/
def backtrackGroups (pos : ℤ) : List GroupData → Exec (List GroupData)
  | [] => .ok []
  | g :: groups =>
    if pos < g.endPos ∧ g.string.length < g.endPos-pos then .error .outOfBounds
    else do
      let groups ← backtrackGroups pos groups
      .ok (g.cutTo pos :: groups)

/-- The len characters from pos on, all that there are where len is negative. -/
def assignText (s : List UInt8) (pos len : ℤ) : Exec (List UInt8) :=
  if 0 ≤ pos ∧ pos ≤ s.length then
    .ok (if 0 ≤ len then (s.drop pos.toNat).take len.toNat else s.drop pos.toNat)
  else .error .outOfBounds

namespace Matching

def elementAt (m : Matching) (a : ElementAddr) : Exec Element :=
  match m.mRoot.get a with
  | none => .error .nullDeref
  | some e => .ok e

/-- `processSubTree` begins. -/
def callSubTree (m : Matching) (topNode : ElementAddr) (calls : List ParseCall) : Matching :=
  { m with calls := .subTree topNode topNode :: calls, point := .element topNode }

def returns (m : Matching) (res : Bool) : Matching := { m with point := .returned res }

/-- The next alternative of a group is tried. -/
def tryChild (m : Matching) (curNode : ElementAddr) (childNode : Option ElementAddr)
    (calls : List ParseCall) : Matching :=
  match childNode with
  | none => { m with calls := calls }.returns false
  | some child => m.callSubTree child (.group curNode child :: calls)

/-- The groups are counted in an int, and their numbers are ints. -/
def NumbersGroup (m : Matching) : Prop := m.mGroups.length < 2^31-1

instance (m : Matching) : Decidable m.NumbersGroup := inferInstanceAs (Decidable (_ < _))

/-- The group has a number, and none of its text. -/
def groupOpened (m : Matching) (curNode : ElementAddr) : Matching :=
  let group : GroupData := { startPos := m.data.curPos, endPos := 0, string := [] }
  { m with
    mGroupNum := Function.update m.mGroupNum curNode m.mGroups.length
    mGroups := m.mGroups ++ [group] }

/-- `processElement` of a group, up to the first of its alternatives. -/
def openGroup (m : Matching) (curNode : ElementAddr) : Exec Matching :=
  if m.NumbersGroup then
    .ok ((m.groupOpened curNode).tryChild curNode (m.mRoot.mChild curNode) m.calls)
  else .error .overflow

/-- `processElement` of a terminal or a class, up to its loops. -/
def enterLoops (m : Matching) (curNode : ElementAddr) : Exec Matching :=
  match curNode with
  | [] => .error .nullDeref
  | _ :: parent => do
    let p ← m.elementAt parent
    if p.data.mType = .typeSequence then
      .ok { m with
        data := { m.data with matchCount := 0 }, point := .testing curNode m.data.curPos }
    else .error .fatal

def processElement (m : Matching) (curNode : ElementAddr) : Exec Matching := do
  let e ← m.elementAt curNode
  match e.data.mType with
  | .typeOr => m.openGroup curNode
  | .typeSequence => .ok (m.returns true)
  | .typeTerminal | .typeClass => m.enterLoops curNode
  | .typeUnknown => .ok (m.returns false)

/-- The terminal has room for another character. -/
def hasRoom (m : Matching) (e : Element) : Prop :=
  e.data.mRepeatMax = -1 ∨ m.data.matchCount < e.data.mRepeatMax

instance (m : Matching) (e : Element) : Decidable (m.hasRoom e) :=
  inferInstanceAs (Decidable (_ ∨ _))

/-- One more character is counted, with room for it in both ints. -/
def Counts (data : ParseData) : Prop := data.curPos < 2^31-1 ∧ data.matchCount < 2^31-1

instance (data : ParseData) : Decidable (Counts data) := inferInstanceAs (Decidable (_ ∧ _))

def counted (data : ParseData) : ParseData :=
  { data with curPos := data.curPos+1, matchCount := data.matchCount+1 }

def count (data : ParseData) : Exec ParseData :=
  if Counts data then .ok (counted data) else .error .overflow

theorem count_eq_ok {data data' : ParseData} (h : count data = .ok data') : data' = counted data := by
  unfold count at h
  split at h
  · exact (Except.ok.inj h).symm
  · cases h

theorem count_ok {data : ParseData} (h : Counts data) : count data = .ok (counted data) := if_pos h

/-- The inner loop of `processElement`, and where it has ended the rest of the outer one, and what
comes behind it. -/
def afterTest (m : Matching) (curNode : ElementAddr) (startPos : ℤ) (res : Bool) : Exec Matching := do
  let e ← m.elementAt curNode
  if m.hasRoom e ∧ res = true then do
    let data ← count m.data
    .ok { m with data := data, point := .testing curNode startPos }
  else if res = true then
    if e.data.mRepeatMin ≤ m.data.matchCount then do
      let data ← count m.data
      -- int arithmetic, where the limit can be any int
      let backtrackPos := toInt32 (data.curPos-toInt32 (data.matchCount-e.data.mRepeatMin))
      .ok ({ m with data := { data with backtrackPos := backtrackPos } }.returns true)
    else .ok (m.returns false)
  else if e.data.mRepeatMin ≤ m.data.matchCount then .ok (m.returns true)
  else if m.data.backtrackPos < startPos then do
    let groups ← backtrackGroups (startPos-1) m.mGroups
    .ok { m with
      mGroups := groups
      data := { m.data with curPos := startPos-1, matchCount := 0 }
      point := .testing curNode (startPos-1) }
  else .ok (m.returns false)

/-- The loop that climbs from cur_node: where `processSubTree` goes on, or that it is through. -/
def climb (root : Element) (topNode : ElementAddr) : ElementAddr → Exec (Option ElementAddr)
  | [] => .error .nullDeref
  | _ :: parent =>
    if parent = topNode then .ok none
    else
      match root.mNext parent with
      | some a => .ok (some a)
      | none => climb root topNode parent

/-- The element that follows cur_node in the walk of `processSubTree`. -/
def nextNode (root : Element) (topNode curNode : ElementAddr) (type : ElementType) :
    Exec (Option ElementAddr) :=
  match if type ≠ .typeClass ∧ type ≠ .typeOr then root.mChild curNode else none with
  | some a => .ok (some a)
  | none =>
    match root.mNext curNode with
    | some a => .ok (some a)
    | none => climb root topNode curNode

/-- `processSubTree` behind a call of `processElement`. -/
def continueSubTree (m : Matching) (topNode curNode : ElementAddr) (res : Bool)
    (calls : List ParseCall) : Exec Matching :=
  if res = false then .ok ({ m with calls := calls }.returns false)
  else do
    let e ← m.elementAt curNode
    match ← nextNode m.mRoot topNode curNode e.data.mType with
    | none => .ok ({ m with calls := calls }.returns true)
    | some a => .ok { m with calls := .subTree topNode a :: calls, point := .element a }

/-- `processElement` of a group behind a call of `processSubTree`. -/
def continueGroup (m : Matching) (curNode childNode : ElementAddr) (res : Bool)
    (calls : List ParseCall) : Exec Matching :=
  if res = true then do
    let groupNum := m.mGroupNum curNode
    let g ← groupAt m.mGroups groupNum
    let string ← assignText m.data.string g.startPos (m.data.curPos-g.startPos)
    let g := { g with endPos := m.data.curPos, string := string }
    .ok ({ m with mGroups := m.mGroups.set groupNum.toNat g, calls := calls }.returns true)
  else .ok (m.tryChild curNode (m.mRoot.mNext childNode) calls)

def step (m : Matching) : Exec Matching :=
  match m.point with
  | .element curNode => m.processElement curNode
  | .testing curNode startPos => do
    let e ← m.elementAt curNode
    let res ← m.data.processTerminal e
    .ok { m with point := .tested curNode startPos res }
  | .tested curNode startPos res => m.afterTest curNode startPos res
  | .returned res =>
    match m.calls with
    | [] => .ok m
    | .subTree topNode curNode :: calls => m.continueSubTree topNode curNode res calls
    | .group curNode childNode :: calls => m.continueGroup curNode childNode res calls

section
variable {m : Matching}

theorem step_element {a : ElementAddr} (h : m.point = .element a) : m.step = m.processElement a := by
  simp only [step, h]

theorem step_tested {a : ElementAddr} {startPos : ℤ} {res : Bool}
    (h : m.point = .tested a startPos res) : m.step = m.afterTest a startPos res := by
  simp only [step, h]

theorem step_subTree {res : Bool} {topNode curNode : ElementAddr} {calls : List ParseCall}
    (hpoint : m.point = .returned res) (hcalls : m.calls = .subTree topNode curNode :: calls) :
    m.step = m.continueSubTree topNode curNode res calls := by
  simp only [step, hpoint, hcalls]

theorem step_group {res : Bool} {curNode childNode : ElementAddr} {calls : List ParseCall}
    (hpoint : m.point = .returned res) (hcalls : m.calls = .group curNode childNode :: calls) :
    m.step = m.continueGroup curNode childNode res calls := by
  simp only [step, hpoint, hcalls]

theorem elementAt_eq {a : ElementAddr} {e : Element} (h : m.mRoot.get a = some e) :
    m.elementAt a = .ok e := by
  rw [elementAt, h]

theorem get_of_elementAt {a : ElementAddr} {e : Element} (h : m.elementAt a = .ok e) :
    m.mRoot.get a = some e := by
  unfold elementAt at h
  cases hget : m.mRoot.get a with
  | none => simp [hget] at h
  | some e' =>
    simp only [hget, Except.ok.injEq] at h
    rw [h]

theorem processElement_sequence {a : ElementAddr} {e : Element} (he : m.mRoot.get a = some e)
    (htype : e.data.mType = .typeSequence) : m.processElement a = .ok (m.returns true) := by
  simp only [processElement, elementAt_eq he, ok_bind, htype]

theorem processElement_group {a : ElementAddr} {e : Element} (he : m.mRoot.get a = some e)
    (htype : e.data.mType = .typeOr) : m.processElement a = m.openGroup a := by
  simp only [processElement, elementAt_eq he, ok_bind, htype]

theorem openGroup_eq_ok {m' : Matching} {a : ElementAddr} (h : m.openGroup a = .ok m') :
    (m.groupOpened a).tryChild a (m.mRoot.mChild a) m.calls = m' := by
  unfold openGroup at h
  split at h
  · exact Except.ok.inj h
  · cases h

theorem processElement_loops {a : ElementAddr} {e : Element} (he : m.mRoot.get a = some e)
    (htype : e.data.mType = .typeTerminal ∨ e.data.mType = .typeClass) :
    m.processElement a = m.enterLoops a := by
  rcases htype with htype | htype <;> simp only [processElement, elementAt_eq he, ok_bind, htype]

theorem processElement_unknown {a : ElementAddr} {e : Element} (he : m.mRoot.get a = some e)
    (htype : e.data.mType = .typeUnknown) : m.processElement a = .ok (m.returns false) := by
  simp only [processElement, elementAt_eq he, ok_bind, htype]

end

def runFor : ℕ → Matching → Exec (Bool × Matching)
  | 0, _ => .error .outOfFuel
  | fuel+1, m =>
    match m.point, m.calls with
    | .returned res, [] => .ok (res,m)
    | _, _ => do
      let m ← m.step
      runFor fuel m

end Matching

namespace Regex

/-- `parse` where it calls `processSubTree`. -/
def startParse (r : Regex) (string : List UInt8) : Matching :=
  Matching.callSubTree
    { mRoot := r.mRoot
      mGroups := r.mGroups
      mGroupNum := r.mGroupNum
      data := { string := string, curPos := 0, backtrackPos := 0, matchCount := 0 }
      calls := []
      point := .returned false } [] []

/-- The error code of a Regex that is not prepared becomes true. -/
def parse (fuel : ℕ) (r : Regex) (string : List UInt8) : Exec (Bool × Regex) :=
  if r.mState = .stateInit then .ok (true,r)
  else do
    let (res,m) ← Matching.runFor fuel (r.startParse string)
    .ok (res,{ r with
      mState := if res = true then .stateParsed else r.mState
      mGroups := m.mGroups
      mGroupNum := m.mGroupNum })

def getData (r : Regex) (i : ℤ) : Exec (List UInt8) :=
  if r.mState ≠ .stateParsed then .ok []
  else if r.mGroups.length ≤ i then .ok []
  else do
    let g ← groupAt r.mGroups i
    .ok g.string

end Regex

end JhCommon
