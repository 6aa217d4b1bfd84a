import JhCommon.DumpCPlusPlus
import JhCommon.TypeStore

/-! The walk of `jhidl.cpp` over the tree that libIDL has for an IDL file, which fills the table of types.
What the tree has for a node's kind is a constructor here, and a NULL tree is none. -/
namespace JhCommon

inductive IdlInteger
  | IDL_INTEGER_TYPE_SHORT
  | IDL_INTEGER_TYPE_LONG
  | IDL_INTEGER_TYPE_LONGLONG

inductive IdlFloat
  | IDL_FLOAT_TYPE_FLOAT
  | IDL_FLOAT_TYPE_DOUBLE
  | IDL_FLOAT_TYPE_LONGDOUBLE

/-- The nodes that `getType` is called with. The last one is of any other kind, which has a name. -/
inductive IdlType
  | IDLN_TYPE_INTEGER (f_type : IdlInteger) (f_signed : Bool)
  | IDLN_TYPE_FLOAT (f_type : IdlFloat)
  | IDLN_TYPE_CHAR
  | IDLN_TYPE_STRING
  | IDLN_TYPE_BOOLEAN
  | IDLN_TYPE_ANY
  | IDLN_IDENT (str : Str)
  | unsupported (name : Str)

/-- What a member or a typedef declares. -/
inductive IdlDeclarator
  | IDLN_IDENT (str file : Str)
  | IDLN_TYPE_ARRAY

/-- A member of a structure. Declarators that are not in a list are a list of one. -/
inductive IdlMember
  | IDLN_MEMBER (type_spec : Option IdlType) (dcls : List IdlDeclarator)
  | unhandled

/-- The nodes that `processTree` is called with. A list is its cells, each with the next one. -/
inductive IdlTree
  | null
  | IDLN_LIST (data next : IdlTree)
  | IDLN_INTERFACE (file ident : Str) (inheritance_spec : List Str) (body : IdlTree) (iid : Option Str)
  | IDLN_OP_DCL (ident : Str) (op_type_spec : Option IdlType) (parameter_dcls : IdlTree) (async : Bool)
  | IDLN_PARAM_DCL (attr : ParamType) (simple_declarator : Str) (param_type_spec : Option IdlType)
  | IDLN_TYPE_STRUCT (file ident : Str) (member_list : List IdlMember)
  | IDLN_TYPE_ENUM (file ident : Str) (enumerator_list : List Str)
  | IDLN_TYPE_DCL (type_spec : Option IdlType) (dcls : List IdlDeclarator)
  | unhandled

/-- What the walk has at hand. What it says of names that are not types is in the last field. -/
structure WalkData where
  filename : Str
  mTypes : TypeStore
  mCurrentClass : Option ℕ
  mCurrentMethod : Option MethodDecl
  errors : List Str

/-- The types that the constructor of TypeManager adds, with their widths. -/
def builtins : List (TypeInfo × NumberInfo) :=
  [(⟨lit "bool",.TYPE_BOOL,[],[]⟩,⟨1,false⟩),
   (⟨lit "char",.TYPE_INTEGER,[],[]⟩,⟨8,true⟩),
   (⟨lit "int8_t",.TYPE_INTEGER,[],[]⟩,⟨8,true⟩),
   (⟨lit "uint8_t",.TYPE_INTEGER,[],[]⟩,⟨8,false⟩),
   (⟨lit "int16_t",.TYPE_INTEGER,[],[]⟩,⟨16,true⟩),
   (⟨lit "uint16_t",.TYPE_INTEGER,[],[]⟩,⟨16,false⟩),
   (⟨lit "int32_t",.TYPE_INTEGER,[],[]⟩,⟨32,true⟩),
   (⟨lit "uint32_t",.TYPE_INTEGER,[],[]⟩,⟨32,false⟩),
   (⟨lit "int64_t",.TYPE_INTEGER,[],[]⟩,⟨64,true⟩),
   (⟨lit "uint64_t",.TYPE_INTEGER,[],[]⟩,⟨64,false⟩),
   (⟨lit "float",.TYPE_FLOAT,[],[]⟩,⟨32,true⟩),
   (⟨lit "double",.TYPE_FLOAT,[],[]⟩,⟨64,true⟩),
   (⟨lit "long double",.TYPE_FLOAT,[],[]⟩,⟨128,true⟩),
   (⟨lit "string",.TYPE_STRING,[],[]⟩,⟨0,true⟩),
   (⟨lit "any",.TYPE_ANY,[],[]⟩,⟨0,true⟩)]

/-- `TypeManager()`. -/
def TypeStore.create : TypeStore :=
  ⟨List.range builtins.length,builtins.map Prod.fst,[]⟩

def MethodDecl.addParam (m : MethodDecl) (p : ParamDecl) : MethodDecl :=
  { m with mParamTypes := m.mParamTypes ++ [p] }

/-- `getClass` of a TypeInfo, NULL for one that has none. -/
def TypeInfo.getClass (t : TypeInfo) : Option ℕ :=
  match t.mType with
  | .TYPE_INTERFACE c | .TYPE_STRUCT c => some c
  | _ => none

/-- `addElement` of an enumeration. -/
def TypeInfo.addElement (t : TypeInfo) (element : Str) : TypeInfo :=
  match t.mType with
  | .TYPE_ENUM elements => { t with mType := .TYPE_ENUM (elements ++ [element]) }
  | _ => t

/-- The name of the type of an integer. -/
def integerName (f_signed : Bool) : IdlInteger → Str
  | .IDL_INTEGER_TYPE_SHORT => if f_signed then lit "int16_t" else lit "uint16_t"
  | .IDL_INTEGER_TYPE_LONG => if f_signed then lit "int32_t" else lit "uint32_t"
  | .IDL_INTEGER_TYPE_LONGLONG => if f_signed then lit "int64_t" else lit "uint64_t"

def floatName : IdlFloat → Str
  | .IDL_FLOAT_TYPE_FLOAT => lit "float"
  | .IDL_FLOAT_TYPE_DOUBLE => lit "double"
  | .IDL_FLOAT_TYPE_LONGDOUBLE => lit "long double"

namespace WalkData

def create (filename : Str) : WalkData := ⟨filename,TypeStore.create,none,none,[]⟩

def className (w : WalkData) (c : ℕ) : Str :=
  match w.mTypes.classes[c]? with
  | some d => d.mName
  | none => []

def error (w : WalkData) (name : Str) : WalkData := { w with errors := w.errors ++ [name] }

/-- `getType`. -/
def getType (w : WalkData) : Option IdlType → Option ℕ × WalkData
  | none => (none,w)
  | some (.IDLN_TYPE_INTEGER f_type f_signed) => (w.mTypes.findType (integerName f_signed f_type) [],w)
  | some (.IDLN_TYPE_FLOAT f_type) => (w.mTypes.findType (floatName f_type) [],w)
  | some .IDLN_TYPE_CHAR => (w.mTypes.findType (lit "char") [],w)
  | some .IDLN_TYPE_STRING => (w.mTypes.findType (lit "string") [],w)
  | some .IDLN_TYPE_BOOLEAN => (w.mTypes.findType (lit "bool") [],w)
  | some .IDLN_TYPE_ANY => (w.mTypes.findType (lit "any") [],w)
  | some (.IDLN_IDENT str) =>
    let ns := match w.mCurrentClass with
      | some c => w.className c
      | none => []
    match w.mTypes.findType str ns with
    | some t => (some t,w)
    | none => (none,w.error str)
  | some (.unsupported name) => (none,w.error name)

/-- A TypeInfo that is made, added to the table, and given its file. -/
def declare (w : WalkData) (name : Str) (mType : TypeKind) (file : Str) : ℕ × WalkData :=
  let (t,s) := w.mTypes.newType name mType
  let s := (s.addType t).setType t fun i => { i with mFilename := file }
  (t,{ w with mTypes := s })

/-- The namespace of a type that is declared in an interface. -/
def setScope (w : WalkData) (t : ℕ) : WalkData :=
  match w.mCurrentClass with
  | some c =>
    { w with mTypes := w.mTypes.setType t fun i => { i with mNamespace := w.className c } }
  | none => w

def handleInheritance (w : WalkData) (ident : Str) : Exec WalkData :=
  match w.mTypes.findType ident [] with
  | none => .error .fatal
  | some t =>
    match w.mCurrentClass with
    | none => .error .nullDeref
    | some c =>
      .ok { w with mTypes := w.mTypes.setClass c (·.addParent (w.mTypes.typeInfo t).getClass) }

/-- `structMemberDcl`, for the structure at c and the type of the member. -/
def structMemberDcl (c : ℕ) (mType : Option ℕ) (w : WalkData) : IdlDeclarator → WalkData
  | .IDLN_IDENT str _ => { w with mTypes := w.mTypes.setClass c (·.addField ⟨str,mType⟩) }
  | .IDLN_TYPE_ARRAY => w

def structMember (c : ℕ) (w : WalkData) : IdlMember → WalkData
  | .IDLN_MEMBER type_spec dcls =>
    let (mType,w) := w.getType type_spec
    dcls.foldl (structMemberDcl c mType) w
  | .unhandled => w

/-- `typedefDcl`, for the type that is given a name. -/
def typedefDcl (mType : ℕ) (w : WalkData) : IdlDeclarator → WalkData
  | .IDLN_IDENT str file => (w.declare str (.TYPE_ALIAS mType) file).2
  | .IDLN_TYPE_ARRAY => w

/-- What is called for the class that the walk is in. -/
def inClass (w : WalkData) (f : ClassDecl → ClassDecl) : Exec WalkData :=
  match w.mCurrentClass with
  | none => .error .nullDeref
  | some c => .ok { w with mTypes := w.mTypes.setClass c f }

/-- The property of an interface that has its identifier. -/
def setIID (w : WalkData) : Option Str → Exec WalkData
  | some v => w.inClass fun c => { c with mIID := v }
  | none => .ok w

end WalkData

open WalkData

def processTree : IdlTree → WalkData → Exec WalkData
  | .null, w => .ok w
  | .IDLN_LIST data next, w => do
    let w ← processTree data w
    processTree next w
  | .IDLN_INTERFACE file ident inheritance_spec body iid, w => do
    let (c,s) := w.mTypes.newClass ident
    let w : WalkData := { w with mTypes := s, mCurrentClass := some c }
    let w := (w.declare ident (.TYPE_INTERFACE c) file).2
    -- an interface of another file is only a name
    if file = w.filename then do
      let w ← inheritance_spec.foldlM handleInheritance w
      let w ← processTree body w
      let w ← w.setIID iid
      let w ← w.inClass fun c => { c with mConcrete := true }
      .ok { w with mCurrentClass := none }
    else .ok { w with mCurrentClass := none }
  | .IDLN_OP_DCL ident op_type_spec parameter_dcls async, w => do
    let (ret,w) := w.getType op_type_spec
    let w ← processTree parameter_dcls { w with mCurrentMethod := some ⟨ident,ret,[],false⟩ }
    match w.mCurrentMethod with
    | none => .error .nullDeref
    | some m => do
      let w ← w.inClass (·.addMethod { m with mAsync := async })
      .ok { w with mCurrentMethod := none }
  | .IDLN_PARAM_DCL attr simple_declarator param_type_spec, w =>
    let (type,w) := w.getType param_type_spec
    match w.mCurrentMethod with
    | none => .error .nullDeref
    | some m => .ok { w with mCurrentMethod := some (m.addParam ⟨simple_declarator,attr,type⟩) }
  | .IDLN_TYPE_STRUCT file ident member_list, w =>
    let (c,s) := w.mTypes.newClass ident
    let w : WalkData := { w with mTypes := s }
    let (t,w) := w.declare ident (.TYPE_STRUCT c) file
    let w := member_list.foldl (structMember c) (w.setScope t)
    .ok { w with mTypes := w.mTypes.setClass c fun c => { c with mConcrete := true } }
  | .IDLN_TYPE_ENUM file ident enumerator_list, w =>
    let (t,w) := w.declare ident (.TYPE_ENUM []) file
    let w := w.setScope t
    .ok { w with mTypes := enumerator_list.foldl (fun s e => s.setType t (·.addElement e)) w.mTypes }
  | .IDLN_TYPE_DCL type_spec dcls, w =>
    match w.getType type_spec with
    -- the name of the type is logged
    | (none,_) => .error .nullDeref
    | (some mType,w) => .ok (dcls.foldl (typedefDcl mType) w)
  | .unhandled, w => .ok w

end JhCommon
