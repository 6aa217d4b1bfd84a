import JhCommon.CircularBuffer
import JhCommon.NumberText

/-! The regular expressions of `Regex.cpp`: the tree of elements, and `prepare`, which builds it.
Logging is left out. -/
namespace JhCommon

inductive ElementType
  | typeUnknown
  | typeSequence
  | typeOr
  | typeTerminal
  | typeClass
  deriving DecidableEq, Repr

/-- What an Element has beside its links and its group number. -/
structure ElementData where
  mType : ElementType
  mTermStartChar : UInt8
  mTermEndChar : UInt8
  mRepeatMin : ℤ
  mRepeatMax : ℤ
  mClassInvert : Bool
  deriving DecidableEq, Repr

/-- The constructor. The two characters are not set, and are what the memory held. -/
def ElementData.init (memory : UInt8 × UInt8) : ElementData :=
  { mType := .typeUnknown
    mTermStartChar := memory.1
    mTermEndChar := memory.2
    mRepeatMin := 1
    mRepeatMax := 1
    mClassInvert := false }

/-- An element with the list of its children, which mChild and their mNext make up. -/
inductive Element
  | mk (data : ElementData) (children : List Element)

namespace Element

def data : Element → ElementData
  | .mk data _ => data

def children : Element → List Element
  | .mk _ children => children

def setData (f : ElementData → ElementData) (e : Element) : Element := .mk (f e.data) e.children

@[simp] theorem data_mk (d : ElementData) (cs : List Element) : (Element.mk d cs).data = d := rfl

@[simp] theorem children_mk (d : ElementData) (cs : List Element) :
    (Element.mk d cs).children = cs := rfl

end Element

/-- An element whose children are not complete, with the last one of them first. -/
structure OpenElement where
  data : ElementData
  children : List Element

def OpenElement.close (e : OpenElement) : Element := .mk e.data e.children.reverse

/-- The states of `prepare`, of which the last two are for the loop over a repetition range. -/
inductive PrepareMode
  | inUnknown
  | inClass
  | inClassThru
  | inRangeMax
  | inRangeMin
  deriving DecidableEq, Repr

/-- The local variables of `prepare`. Its cur_node is always the last child of its parent, and its
ancestors are there from the parent to the root, each without the child that is on the way. The
last field counts the elements that were made. -/
structure PrepareState where
  curNode : OpenElement
  above : List OpenElement
  state : PrepareMode
  inGroup : ℕ
  made : ℕ

/-- What ends `prepare` before the end of the regex. A PARSE_ERROR comes with what is built. -/
inductive PrepareStop
  | fault (f : Fault)
  | parseError (str : String) (st : PrepareState)

abbrev Preparing (α : Type) := Except PrepareStop α

/-- The code of a character that stands in the source. -/
def ch (c : Char) : UInt8 := UInt8.ofNat c.toNat

namespace PrepareState

/-- `insertChild`, of an element that has no children. -/
def insertChild (st : PrepareState) (data : ElementData) : PrepareState :=
  { st with curNode := { st.curNode with children := .mk data [] :: st.curNode.children } }

/-- Insert a child and go on with it. -/
def descend (st : PrepareState) (data : ElementData) : PrepareState :=
  { st with curNode := ⟨data,[]⟩, above := st.curNode :: st.above }

/-- The parent of cur_node becomes cur_node. -/
def ascend (st : PrepareState) : Preparing PrepareState :=
  match st.above with
  | [] => .error (.fault .nullDeref)
  | parent :: above =>
    .ok { st with
      curNode := { parent with children := st.curNode.close :: parent.children }, above := above }

/-- What `getLastChild` returns, which must not be NULL. -/
def getLastChild (st : PrepareState) : Preparing Element :=
  match st.curNode.children with
  | [] => .error (.fault .nullDeref)
  | e :: _ => .ok e

/-- Write to what `getLastChild` returns. -/
def setLastChild (st : PrepareState) (f : ElementData → ElementData) : Preparing PrepareState :=
  match st.curNode.children with
  | [] => .error (.fault .nullDeref)
  | e :: es => .ok { st with curNode := { st.curNode with children := e.setData f :: es } }

section
variable (memory : ℕ → UInt8 × UInt8)

/-- The fields of the next element, when its type is set. -/
def newElement (st : PrepareState) (type : ElementType) : ElementData :=
  { ElementData.init (memory st.made) with mType := type }

def addTerminal (st : PrepareState) (start fin : UInt8) : Preparing PrepareState :=
  if st.state = .inClassThru then
    if start ≠ fin then .error (.parseError "Invalid range definition" st)
    else { st with state := .inClass }.setLastChild fun d => { d with mTermEndChar := start }
  else
    .ok ({ st with made := st.made+1 }.insertChild
      { st.newElement memory .typeTerminal with mTermStartChar := start, mTermEndChar := fin })

def addTerminals : List (UInt8 × UInt8) → PrepareState → Preparing PrepareState
  | [], st => .ok st
  | t :: ts, st => do
    let st ← st.addTerminal memory t.1 t.2
    addTerminals ts st

/-- What stands between CHECK_CLASS and END_CLASS. -/
def addClass (st : PrepareState) (invert : Bool) (terminals : List (UInt8 × UInt8)) :
    Preparing PrepareState := do
  let classCreated := st.curNode.data.mType ≠ .typeClass
  let st := if classCreated then
      { st with made := st.made+1 }.descend (st.newElement memory .typeClass)
    else st
  let st := if invert = true then
      { st with curNode := { st.curNode with data := { st.curNode.data with mClassInvert := true } } }
    else st
  let st ← addTerminals memory terminals st
  if classCreated then st.ascend else .ok st

def wordTerminals : List (UInt8 × UInt8) :=
  [(ch 'a',ch 'z'),(ch 'A',ch 'Z'),(ch '0',ch '9'),(ch '_',ch '_')]

def spaceTerminals : List (UInt8 × UInt8) :=
  [(ch ' ',ch ' '),(ch '\t',ch '\t'),(ch '\n',ch '\n'),(ch '\r',ch '\r'),(12,12)]

def digitTerminals : List (UInt8 × UInt8) := [(ch '0',ch '9')]

/-- The character behind a backslash. -/
def escape (st : PrepareState) (c : UInt8) : Preparing PrepareState :=
  if c = ch 'w' then st.addClass memory false wordTerminals
  else if c = ch 'W' then st.addClass memory true wordTerminals
  else if c = ch 's' then st.addClass memory false spaceTerminals
  else if c = ch 'S' then st.addClass memory true spaceTerminals
  else if c = ch 'd' then st.addClass memory false digitTerminals
  else if c = ch 'D' then st.addClass memory true digitTerminals
  else if c = ch 't' then st.addTerminal memory (ch '\t') (ch '\t')
  else if c = ch 'n' then st.addTerminal memory (ch '\n') (ch '\n')
  else if c = ch 'r' then st.addTerminal memory (ch '\r') (ch '\r')
  else if c = ch 'f' then st.addTerminal memory 12 12
  else if c = ch '0' ∨ c = ch 'x' then .ok st
  else st.addTerminal memory c c

/-- The last child gets repeat limits. -/
def setLimits (st : PrepareState) (min max : ℤ) : Preparing PrepareState :=
  st.setLastChild fun d => { d with mRepeatMin := min, mRepeatMax := max }

/-- The last child gets repeat limits, and must be something that can be repeated. -/
def setRepeat (st : PrepareState) (min max : ℤ) : Preparing PrepareState := do
  let st ← st.setLimits min max
  let newElement ← st.getLastChild
  if newElement.data.mType = .typeClass ∨ newElement.data.mType = .typeOr ∨
      newElement.data.mType = .typeTerminal then .ok st
  else .error (.fault .fatal)

/-- The cases of the repeat characters, which differ in the limits and the error. -/
def repeatChar (st : PrepareState) (str : String) (min max : ℤ) : Preparing PrepareState :=
  if st.state = .inClass then .error (.parseError str st) else st.setRepeat min max

/-- The length is read into an int. -/
def rlen (regex : List UInt8) : ℤ := (BitVec.ofNat 32 regex.length).toInt

/-- The index is an int, and one more than the greatest of them overflows. -/
def nextIndex (i : ℕ) : Preparing ℕ :=
  if i < 2^31-1 then .ok (i+1) else .error (.fault .overflow)

/-- A character of the regex, up to the terminator. -/
def charAt (regex : List UInt8) (i : ℕ) : Preparing UInt8 :=
  if i ≤ regex.length then .ok (regex.getD i 0) else .error (.fault .outOfBounds)

def addDigit (n : ℤ) (c : UInt8) : ℤ := toInt32 (toInt32 (n*10)+(c.toNat-48))

/-- The loop over a repetition range at index i: the index of its end, and the last child with its
limits. -/
def rangeFrom (regex : List UInt8) : ℕ → ℕ → PrepareMode → ℤ → ℤ → PrepareState →
    Preparing (ℕ × PrepareState)
  | 0, _, _, _, _, _ => .error (.fault .outOfFuel)
  | fuel+1, i, rangeState, min, max, st => do
    let c ← charAt regex i
    if c = ch '}' then do
      let st ← st.setLimits min (if rangeState = .inRangeMin then min else max)
      .ok (i,st)
    else if c = ch ',' then
      if rangeState = .inRangeMin then do
        let i ← nextIndex i
        rangeFrom regex fuel i .inRangeMax min max st
      else do
        let st ← st.setLimits min max
        .error (.parseError "Too many commons in repetition range" st)
    else if isDigit c = true then
      if rangeState = .inRangeMin then do
        let i ← nextIndex i
        rangeFrom regex fuel i rangeState (addDigit min c) max st
      else if rangeState = .inRangeMax then do
        let i ← nextIndex i
        rangeFrom regex fuel i rangeState min (addDigit max c) st
      else do
        let st ← st.setLimits min max
        .error (.parseError "Internal Error" st)
    else do
      let st ← st.setLimits min max
      .error (.parseError "Non-numeric value in repetition range" st)

def repeatRange (st : PrepareState) (regex : List UInt8) (i : ℕ) : Preparing (ℕ × PrepareState) :=
  if st.state = .inClass then
    .error (.parseError "Non-excaped \x7b in charater class" st)
  else do
    let i ← nextIndex i
    let st ← st.setRepeat 0 0
    rangeFrom regex (regex.length+1) i .inRangeMin 0 0 st

def openClass (st : PrepareState) (regex : List UInt8) (i : ℕ) : Preparing (ℕ × PrepareState) :=
  if st.state = .inClass then .error (.parseError "Non-excaped [ in charater class" st)
  else do
    let c ← charAt regex (i+1)
    let newElement :=
      { st.newElement memory .typeClass with mClassInvert := decide (c = ch '^') }
    let i ← if c = ch '^' then nextIndex i else .ok i
    .ok (i,{ st with state := .inClass, made := st.made+1 }.descend newElement)

def closeClass (st : PrepareState) (c : UInt8) : Preparing PrepareState :=
  if st.state = .inClass then do
    let st ← st.ascend
    .ok { st with state := .inUnknown }
  else if st.state = .inClassThru then
    .error (.parseError "Non-escaped square bracket at end of charater range" st)
  else st.addTerminal memory c c

def dash (st : PrepareState) (c : UInt8) : Preparing PrepareState :=
  if st.state = .inClass then do
    let newElement ← st.getLastChild
    if newElement.data.mTermStartChar ≠ newElement.data.mTermEndChar then
      .error (.parseError "Invalid terminal for start of charater range" st)
    else .ok { st with state := .inClassThru }
  else st.addTerminal memory c c

def openGroup (st : PrepareState) (c : UInt8) : Preparing PrepareState :=
  if st.state = .inClass then st.addTerminal memory c c
  else
    let st := { st with inGroup := st.inGroup+1, made := st.made+1 }.descend
      (st.newElement memory .typeOr)
    .ok ({ st with made := st.made+1 }.descend (st.newElement memory .typeSequence))

def nextAlternative (st : PrepareState) (c : UInt8) : Preparing PrepareState :=
  if 0 < st.inGroup then do
    let newElement := st.newElement memory .typeSequence
    let st ← st.ascend
    .ok ({ st with made := st.made+1 }.descend newElement)
  else st.addTerminal memory c c

def closeGroup (st : PrepareState) (c : UInt8) : Preparing PrepareState :=
  if 0 < st.inGroup then do
    let st ← { st with inGroup := st.inGroup-1 }.ascend
    st.ascend
  else st.addTerminal memory c c

/-- The cases that look at no other character. -/
def plainChar (st : PrepareState) (c : UInt8) : Preparing PrepareState :=
  if c = ch '.' then st.addTerminal memory 0 127
  else if c = ch '*' then st.repeatChar "Non-excaped * in charater class" 0 (-1)
  else if c = ch '+' then st.repeatChar "Non-excaped + in charater class" 1 (-1)
  else if c = ch '?' then st.repeatChar "Non-excaped ? in charater class" 0 1
  else if c = ch ']' then st.closeClass memory c
  else if c = ch '-' then st.dash memory c
  else if c = ch '(' then st.openGroup memory c
  else if c = ch '|' then st.nextAlternative memory c
  else if c = ch ')' then st.closeGroup memory c
  else st.addTerminal memory c c

/-- The switch of `prepare`, with the index of the last character that it looked at. -/
def prepareChar (regex : List UInt8) (i : ℕ) (st : PrepareState) : Preparing (ℕ × PrepareState) := do
  let c ← charAt regex i
  if c = ch '\\' then do
    let i ← nextIndex i
    let c ← charAt regex i
    let st ← st.escape memory c
    .ok (i,st)
  else if c = ch '\x7b' then st.repeatRange regex i
  else if c = ch '[' then st.openClass memory regex i
  else do
    let st ← st.plainChar memory c
    .ok (i,st)

/-- The loop of `prepare` at index i. -/
def prepareFrom (regex : List UInt8) : ℕ → ℕ → PrepareState → Preparing PrepareState
  | 0, _, _ => .error (.fault .outOfFuel)
  | fuel+1, i, st =>
    if (i : ℤ) < rlen regex then do
      let (i,st) ← prepareChar memory regex i st
      let i ← nextIndex i
      prepareFrom regex fuel i st
    else .ok st

end

/-- The tree, from any place in it. -/
def root (st : PrepareState) : Element :=
  st.above.foldl (fun e parent => .mk parent.data (e :: parent.children).reverse) st.curNode.close

end PrepareState

/-- The path from the root to an element, the last step first. A step is the index of a child. -/
abbrev ElementAddr := List ℕ

structure GroupData where
  startPos : ℤ
  endPos : ℤ
  string : List UInt8
  deriving DecidableEq, Repr

inductive RegexState
  | stateInit
  | statePrepared
  | stateParsed
  deriving DecidableEq, Repr

/-- The group numbers of the elements are kept beside the tree. -/
structure Regex where
  mState : RegexState
  mRoot : Element
  mGroups : List GroupData
  mGroupNum : ElementAddr → ℤ
  mErrorString : String

namespace Regex

/-- The error codes that `prepare` returns. -/
inductive ErrCode
  | kNoError
  | kInvalidRequest
  deriving DecidableEq, Repr

def init (memory : ℕ → UInt8 × UInt8) : Regex :=
  { mState := .stateInit
    mRoot := .mk (ElementData.init (memory 0)) []
    mGroups := []
    mGroupNum := fun _ => -1
    mErrorString := "" }

/-- At the root, which keeps the children that it has. -/
def prepareState (r : Regex) : PrepareState :=
  { curNode := ⟨{ r.mRoot.data with mType := .typeSequence },r.mRoot.children.reverse⟩
    above := []
    state := .inUnknown
    inGroup := 0
    made := 1 }

/-- What the memory of the elements held before them is a parameter. -/
def prepare (memory : ℕ → UInt8 × UInt8) (r : Regex) (regex : List UInt8) : Exec (ErrCode × Regex) :=
  match PrepareState.prepareFrom memory regex (regex.length+2) 0 r.prepareState with
  | .ok st => .ok (.kNoError,{ r with mState := .statePrepared, mRoot := st.root })
  | .error (.parseError str st) =>
    .ok (.kInvalidRequest,{ r with mRoot := st.root, mErrorString := str })
  | .error (.fault f) => .error f

end Regex

end JhCommon
