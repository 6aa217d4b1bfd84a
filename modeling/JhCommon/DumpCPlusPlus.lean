import JhCommon.DumpXML

/-! The stubs and the invoker that `DumpCPlusPlus.cpp` writes for the methods of an interface: their
text, and the statements that it consists of. -/
namespace JhCommon

/-- What a TypeInfo says of a number. -/
structure NumberInfo where
  mBitWidth : ℕ
  mSigned : Bool

structure DumpCPlusPlus where
  mTypes : TypeManager
  number : ℕ → NumberInfo

def TypeInfo.isInterface (t : TypeInfo) : Bool :=
  match t.mType with
  | .TYPE_INTERFACE _ => true
  | _ => false

def TypeInfo.isStruct (t : TypeInfo) : Bool :=
  match t.mType with
  | .TYPE_STRUCT _ => true
  | _ => false

def TypeInfo.isString (t : TypeInfo) : Bool :=
  match t.mType with
  | .TYPE_STRING => true
  | _ => false

def TypeInfo.isNumber (t : TypeInfo) : Bool :=
  match t.mType with
  | .TYPE_BOOL | .TYPE_INTEGER | .TYPE_FLOAT => true
  | _ => false

def TypeInfo.isPrimitive (t : TypeInfo) : Bool := t.isNumber || t.isString

/-- `getParamType() & PARAM_OUT`. -/
def ParamType.out : ParamType → Bool
  | .PARAM_IN => false
  | .PARAM_OUT | .PARAM_INOUT => true

/-- How `dumpMethod` declares a parameter. -/
inductive ParamForm
  | pointer
  | constRef
  | value
  | ref
  deriving DecidableEq

/-- The statements of a stub. -/
inductive StubStatement
  | reset
  | push (connector param : Str)
  | call (method_num : ℕ)
  | getParam (param connector : Str) (param_num : ℕ)
  | ret (connector : Str)

/-- An argument that the invoker takes from a Variant, by value or by a `Ref` getter. -/
structure InvokerArg where
  variantName : Str
  ref : Bool

/-- The statement of one case of the invoker. -/
structure InvokerCase where
  ret : Option Str
  method : Str
  args : List InvokerArg

/-- The characters of a text that stands in the source. -/
def lit (s : String) : Str := s.toList

def numberText (n : ℕ) : Str := Nat.toDigits 10 n

def StubStatement.text : StubStatement → Str
  | .reset => lit "mConn->reset();"
  | .push connector param => lit "mConn->push" ++ connector ++ lit "( " ++ param ++ lit " );"
  | .call method_num => lit "mConn->call( " ++ numberText method_num ++ lit " );"
  | .getParam param connector param_num => param ++ lit " = mConn->getParam" ++ connector ++
      lit "( " ++ numberText param_num ++ lit " );"
  | .ret connector => lit "return mConn->getParam" ++ connector ++ lit "( -1 );"

def InvokerArg.text (k : ℕ) (a : InvokerArg) : Str :=
  lit " in_params[ " ++ numberText k ++ lit " ].get" ++ a.variantName ++
    if a.ref then lit "Ref()" else lit "()"

def InvokerCase.text (c : InvokerCase) : Str :=
  let args := c.args.zipIdx.flatMap fun a => (if a.2 ≠ 0 then [','] else []) ++ a.1.text a.2
  let opening := match c.ret with
    | some name => lit "ret_value->set" ++ name ++ lit "( "
    | none => []
  opening ++ lit "mObj->" ++ c.method ++ ['('] ++ args ++
    (if 0 < c.args.length then lit " )" else [')']) ++
    (if c.ret.isSome then lit " )" else []) ++ [';']

namespace DumpCPlusPlus

def typeInfo (d : DumpCPlusPlus) (t : ℕ) : TypeInfo := d.mTypes.typeInfo t

def getVariantName (d : DumpCPlusPlus) (t : ℕ) : Str :=
  match (d.typeInfo t).mType with
  | .TYPE_STRING => lit "String"
  | .TYPE_INTEGER =>
    if (d.number t).mBitWidth = 8 then lit "Char"
    else if (d.number t).mSigned then lit "Int" ++ numberText (d.number t).mBitWidth
    else lit "UInt" ++ numberText (d.number t).mBitWidth
  | .TYPE_FLOAT => if (d.number t).mBitWidth = 64 then lit "Double" else lit "Float"
  | .TYPE_INTERFACE _ => lit "Object"
  | _ => (d.typeInfo t).mName

def getConnectorName (d : DumpCPlusPlus) (t : ℕ) : Str := d.getVariantName t

def getTypeName (d : DumpCPlusPlus) (t : ℕ) : Str :=
  match (d.typeInfo t).mType with
  | .TYPE_ANY => lit "void *"
  | .TYPE_STRING => lit "std::string"
  | _ => (d.typeInfo t).mName

def paramForm (d : DumpCPlusPlus) (p : ParamInfo) : ParamForm :=
  let type := d.typeInfo p.mType
  if p.mParamType = .PARAM_IN then
    if type.isInterface || type.isStruct then .pointer
    else if type.isString then .constRef
    else .value
  else if type.isPrimitive then .ref
  else .pointer

/-- What `dumpMethod` writes for a parameter. -/
def dumpParam (d : DumpCPlusPlus) (p : ParamInfo) : Str :=
  match d.paramForm p with
  | .pointer => d.getTypeName p.mType ++ lit " *" ++ p.mName
  | .constRef => lit "const " ++ d.getTypeName p.mType ++ lit " &" ++ p.mName
  | .value => d.getTypeName p.mType ++ [' '] ++ p.mName
  | .ref => d.getTypeName p.mType ++ lit " &" ++ p.mName

/-- The declaration of a method, behind the name of a class or without one. -/
def dumpMethod (d : DumpCPlusPlus) (m : Method) (type : Option TypeInfo) : Str :=
  let ret := match m.mRetType with
    | none => lit "void "
    | some t =>
      if (d.typeInfo t).isInterface then d.getTypeName t ++ lit " *" else d.getTypeName t ++ [' ']
  let scope := match type with
    | some t => t.mName ++ lit "::"
    | none => []
  let params := m.mParamTypes.zipIdx.flatMap fun p =>
    (if p.2 ≠ 0 then lit ", " else [' ']) ++ d.dumpParam p.1
  ret ++ scope ++ m.mName ++ ['('] ++ params ++ (if 0 < m.mParamTypes.length then [' '] else []) ++ [')']

open DumpXML (line)

def dumpStubBody (d : DumpCPlusPlus) (indent : ℕ) (m : Method) (method_num : ℕ) : Str :=
  let ret := match m.mRetType with
    | some t => line indent (lit "return mConn->getParam" ++ d.getConnectorName t ++ lit "( -1 );")
    | none => []
  line indent (lit "mConn->reset();") ++
    (m.mParamTypes.flatMap fun p => line indent (lit "mConn->push" ++ d.getConnectorName p.mType ++
      lit "( " ++ p.mName ++ lit " );")) ++
    line indent (lit "mConn->call( " ++ numberText method_num ++ lit " );") ++
    (m.mParamTypes.zipIdx.flatMap fun p =>
      if p.1.mParamType.out then
        line indent (p.1.mName ++ lit " = mConn->getParam" ++ d.getConnectorName p.1.mType ++
          lit "( " ++ numberText p.2 ++ lit " );")
      else []) ++ ret

/-- The lines of `dumpInvokerClass` for a method. -/
def dumpCase (d : DumpCPlusPlus) (indent : ℕ) (m : Method) (j : ℕ) : Str :=
  let opening := match m.mRetType with
    | some t => lit "ret_value->set" ++ d.getVariantName t ++ lit "( "
    | none => []
  let args := m.mParamTypes.zipIdx.flatMap fun p => (if p.2 ≠ 0 then [','] else []) ++
    (lit " in_params[ " ++ numberText p.2 ++ lit " ].get" ++ d.getVariantName p.1.mType ++
      if p.1.mParamType.out && (d.typeInfo p.1.mType).isNumber then lit "Ref()" else lit "()")
  line indent (lit "case " ++ numberText j ++ [':']) ++
    line (indent+1) (opening ++ lit "mObj->" ++ m.mName ++ ['('] ++ args ++
      (if 0 < m.mParamTypes.length then lit " )" else [')']) ++
      (if m.mRetType.isSome then lit " )" else []) ++ [';']) ++
    line (indent+1) (lit "break;")

/-- The statements of `dumpStubBody`. -/
def stubBody (d : DumpCPlusPlus) (m : Method) (method_num : ℕ) : List StubStatement :=
  .reset :: (m.mParamTypes.map fun p => .push (d.getConnectorName p.mType) p.mName) ++
    .call method_num ::
    (m.mParamTypes.zipIdx.flatMap fun p =>
      if p.1.mParamType.out then [.getParam p.1.mName (d.getConnectorName p.1.mType) p.2] else []) ++
    (m.mRetType.map fun t => .ret (d.getConnectorName t)).toList

/-- The case of the invoker that `dumpCase` writes. -/
def invokerCase (d : DumpCPlusPlus) (m : Method) : InvokerCase where
  ret := m.mRetType.map d.getVariantName
  method := m.mName
  args := m.mParamTypes.map fun p =>
    ⟨d.getVariantName p.mType,p.mParamType.out && (d.typeInfo p.mType).isNumber⟩

/-- The statements print as the text that is written. -/
theorem dumpStubBody_eq (d : DumpCPlusPlus) (indent : ℕ) (m : Method) (method_num : ℕ) :
    d.dumpStubBody indent m method_num =
      (d.stubBody m method_num).flatMap fun s => line indent s.text := by
  have hparam (p : ParamInfo × ℕ) : (if p.1.mParamType.out then
        [StubStatement.getParam p.1.mName (d.getConnectorName p.1.mType) p.2] else []).flatMap
          (fun s => line indent s.text) =
      if p.1.mParamType.out then
        line indent (p.1.mName ++ lit " = mConn->getParam" ++ d.getConnectorName p.1.mType ++
          lit "( " ++ numberText p.2 ++ lit " );")
      else [] := by
    split
    · simp only [List.flatMap_cons, List.flatMap_nil, List.append_nil, StubStatement.text]
    · rfl
  simp only [dumpStubBody, stubBody, List.cons_append, List.flatMap_cons, List.flatMap_append,
    List.flatMap_map, List.flatMap_assoc, hparam]
  simp only [StubStatement.text, List.append_assoc]
  cases m.mRetType with
  | none => simp only [Option.map_none, Option.toList_none, List.flatMap_nil]
  | some t =>
    simp only [Option.map_some, Option.toList_some, List.flatMap_cons, List.flatMap_nil,
      List.append_nil]

theorem dumpCase_eq (d : DumpCPlusPlus) (indent : ℕ) (m : Method) (j : ℕ) :
    d.dumpCase indent m j = line indent (lit "case " ++ numberText j ++ [':']) ++
      line (indent+1) (d.invokerCase m).text ++ line (indent+1) (lit "break;") := by
  simp only [dumpCase, InvokerCase.text, invokerCase, ← List.map_zipIdx, List.flatMap_map, Prod.map,
    InvokerArg.text, List.length_map, Option.isSome_map, id]
  cases m.mRetType with
  | none => simp only [Option.map_none]
  | some t => simp only [Option.map_some]

end DumpCPlusPlus

end JhCommon
