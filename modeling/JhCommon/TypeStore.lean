import JhCommon.Exec
import JhCommon.Reflect

/-! The table of types while it is made: the TypeInfos and ClassInfos that there are by now, with types
that can be NULL where a name has not been found. -/
namespace JhCommon

structure ParamDecl where
  mName : Str
  mParamType : ParamType
  mType : Option ℕ

structure MethodDecl where
  mName : Str
  mRetType : Option ℕ
  mParamTypes : List ParamDecl
  mAsync : Bool

structure FieldDecl where
  mName : Str
  mType : Option ℕ

/-- A ClassInfo. A parent is NULL if its type has no class. -/
structure ClassDecl where
  mName : Str
  mConcrete : Bool
  mParents : List (Option ℕ)
  mMethods : List MethodDecl
  mFields : List FieldDecl
  mIID : Str

/-- The TypeManager, with the TypeInfos and the ClassInfos in the order in which they were made. -/
structure TypeStore where
  mTypes : List ℕ
  types : List TypeInfo
  classes : List ClassDecl

namespace TypeStore

/-- The TypeInfo at an address. -/
def typeInfo (s : TypeStore) (t : ℕ) : TypeInfo := s.types.getD t ⟨[],.TYPE_ANY,[],[]⟩

/-- The table as a TypeManager, whose types have these classes. -/
def manager (s : TypeStore) (classInfo : ℕ → ClassInfo) : TypeManager :=
  ⟨s.mTypes,s.typeInfo,classInfo⟩

/-- `findType`, which does not look at the classes. -/
def findType (s : TypeStore) (name ns : Str) : Option ℕ :=
  (s.manager fun _ => ⟨[],[],[],[],[]⟩).findType name ns

/-- `new ClassInfo( name )`. -/
def newClass (s : TypeStore) (name : Str) : ℕ × TypeStore :=
  (s.classes.length,{ s with classes := s.classes ++ [⟨name,false,[],[],[],[]⟩] })

/-- `new TypeInfo`, with what a constructor of it sets. -/
def newType (s : TypeStore) (name : Str) (mType : TypeKind) : ℕ × TypeStore :=
  (s.types.length,{ s with types := s.types ++ [⟨name,mType,[],[]⟩] })

def addType (s : TypeStore) (t : ℕ) : TypeStore := { s with mTypes := s.mTypes ++ [t] }

def setType (s : TypeStore) (t : ℕ) (f : TypeInfo → TypeInfo) : TypeStore :=
  { s with types := s.types.modify t f }

def setClass (s : TypeStore) (c : ℕ) (f : ClassDecl → ClassDecl) : TypeStore :=
  { s with classes := s.classes.modify c f }

end TypeStore

/-- The element behind a list, which has just been added. -/
theorem modify_concat {α : Type*} (l : List α) (a : α) (f : α → α) :
    (l ++ [a]).modify l.length f = l ++ [f a] := by
  rw [List.modify_eq_take_cons_drop (by simp)]
  simp

namespace ClassDecl

def addMethod (c : ClassDecl) (m : MethodDecl) : ClassDecl := { c with mMethods := c.mMethods ++ [m] }

def addField (c : ClassDecl) (f : FieldDecl) : ClassDecl := { c with mFields := c.mFields ++ [f] }

def addParent (c : ClassDecl) (p : Option ℕ) : ClassDecl := { c with mParents := c.mParents ++ [p] }

end ClassDecl

end JhCommon
