import JhCommon.CellHeap
import JhCommon.Holdings
import JhCommon.Transition

/-! The `Variant` of `JHCOM_IDL.h`, and the `VariantConnector` that stores Variants by value. The smart
pointers that object values are put in are in a heap of their own; the objects are known by their
addresses, and a NULL pointer is none. -/
namespace JhCommon
open Transition

inductive VariantType
  | TYPE_NONE
  | TYPE_CHAR
  | TYPE_INT16
  | TYPE_UINT16
  | TYPE_INT32
  | TYPE_UINT32
  | TYPE_INT64
  | TYPE_UINT64
  | TYPE_FLOAT
  | TYPE_DOUBLE
  | TYPE_STRING
  | TYPE_OBJECT
  deriving DecidableEq

/-- The member of the union that has been written last. -/
inductive VariantData
  | unset
  | obj (holder : ℕ)
  | mChar (v : Int8)
  | mNum16 (v : Int16)
  | mUNum16 (v : UInt16)
  | mNum32 (v : Int32)
  | mUNum32 (v : UInt32)
  | mNum64 (v : Int64)
  | mUNum64 (v : UInt64)
  | mFloat (v : Float32)
  | mDouble (v : Float)

/-- A Variant that says that it is an object has the pointer to one. -/
structure Variant where
  mType : VariantType
  mIID : Option String
  mStr : String
  mData : VariantData
  wf : mType = .TYPE_OBJECT → ∃ a, mData = .obj a

/-- What can be stored in a Variant. -/
inductive VariantValue
  | char (v : Int8)
  | int16 (v : Int16)
  | uint16 (v : UInt16)
  | int32 (v : Int32)
  | uint32 (v : UInt32)
  | int64 (v : Int64)
  | uint64 (v : UInt64)
  | float (v : Float32)
  | double (v : Float)
  | string (v : String)
  | object (iid : String) (v : Option ℕ)

/-- The smart pointers that have been made for objects. -/
abbrev HolderHeap := CellHeap (Option ℕ)

namespace Variant

/-- `Variant()`. -/
def create : Variant := ⟨.TYPE_NONE,none,"",.unset,by simp⟩

/-- The constructors from a value. -/
def construct (h : HolderHeap) : VariantValue → Variant × HolderHeap
  | .char v => (⟨.TYPE_CHAR,none,"",.mChar v,by simp⟩,h)
  | .int16 v => (⟨.TYPE_INT16,none,"",.mNum16 v,by simp⟩,h)
  | .uint16 v => (⟨.TYPE_UINT16,none,"",.mUNum16 v,by simp⟩,h)
  | .int32 v => (⟨.TYPE_INT32,none,"",.mNum32 v,by simp⟩,h)
  | .uint32 v => (⟨.TYPE_UINT32,none,"",.mUNum32 v,by simp⟩,h)
  | .int64 v => (⟨.TYPE_INT64,none,"",.mNum64 v,by simp⟩,h)
  | .uint64 v => (⟨.TYPE_UINT64,none,"",.mUNum64 v,by simp⟩,h)
  | .float v => (⟨.TYPE_FLOAT,none,"",.mFloat v,by simp⟩,h)
  | .double v => (⟨.TYPE_DOUBLE,none,"",.mDouble v,by simp⟩,h)
  | .object iid v =>
    let (a,h) := h.alloc v
    (⟨.TYPE_OBJECT,some iid,"",.obj a,by simp⟩,h)
  | .string v => (⟨.TYPE_STRING,.none,v,.unset,by simp⟩,h)

/-- `setChar` and the other setters, up to `setObject`. -/
def set (x : Variant) (h : HolderHeap) : VariantValue → Variant × HolderHeap
  | .char v => (⟨.TYPE_CHAR,x.mIID,x.mStr,.mChar v,by simp⟩,h)
  | .int16 v => (⟨.TYPE_INT16,x.mIID,x.mStr,.mNum16 v,by simp⟩,h)
  | .uint16 v => (⟨.TYPE_UINT16,x.mIID,x.mStr,.mUNum16 v,by simp⟩,h)
  | .int32 v => (⟨.TYPE_INT32,x.mIID,x.mStr,.mNum32 v,by simp⟩,h)
  | .uint32 v => (⟨.TYPE_UINT32,x.mIID,x.mStr,.mUNum32 v,by simp⟩,h)
  | .int64 v => (⟨.TYPE_INT64,x.mIID,x.mStr,.mNum64 v,by simp⟩,h)
  | .uint64 v => (⟨.TYPE_UINT64,x.mIID,x.mStr,.mUNum64 v,by simp⟩,h)
  -- the setters of these three say that the value is a char
  | .float v => (⟨.TYPE_CHAR,x.mIID,x.mStr,.mFloat v,by simp⟩,h)
  | .double v => (⟨.TYPE_CHAR,x.mIID,x.mStr,.mDouble v,by simp⟩,h)
  | .string v => (⟨.TYPE_CHAR,x.mIID,v,x.mData,by simp⟩,h)
  -- an object that was there before is not deleted
  | .object iid v =>
    let (a,h) := h.alloc v
    (⟨.TYPE_OBJECT,some iid,x.mStr,.obj a,by simp⟩,h)

/-- The smart pointer that the destructor deletes, if the Variant is an object. -/
def holder (x : Variant) : Option ℕ :=
  match x.mType, x.mData with
  | .TYPE_OBJECT, .obj a => some a
  | _, _ => none

/-- The destructor. -/
def destroy (x : Variant) (h : HolderHeap) : Exec HolderHeap :=
  match x.holder with
  | some a => h.free a
  | none => .ok h

def destroyAll : List Variant → HolderHeap → Exec HolderHeap
  | [], h => .ok h
  | x :: xs, h => do
    let h ← x.destroy h
    destroyAll xs h

end Variant

structure VariantConnector where
  mParams : List Variant
  mReturnValue : Variant

namespace VariantConnector
open Variant

def create : VariantConnector := ⟨[],Variant.create⟩

/-- A push copies a temporary Variant to the end of the vector, member by member. Where the vector has
to move, its elements are copied to the new place in the same way, and the old ones destroyed. -/
def push (c : VariantConnector) (h : HolderHeap) (v : VariantValue) (moves : Bool) :
    Exec (VariantConnector × HolderHeap) := do
  let (temp,h) := construct h v
  -- the copies share what the old elements delete
  let h ← if moves then destroyAll c.mParams h else .ok h
  -- and so does the element that the temporary has been copied to
  let h ← temp.destroy h
  .ok ({ c with mParams := c.mParams ++ [temp] },h)

def reset (c : VariantConnector) (h : HolderHeap) : Exec (VariantConnector × HolderHeap) := do
  let h ← destroyAll c.mParams h
  .ok ({ c with mParams := [] },h)

/-- The destructor. -/
def destroy (c : VariantConnector) (h : HolderHeap) : Exec HolderHeap := do
  let h ← c.mReturnValue.destroy h
  destroyAll c.mParams h

end VariantConnector

/-- The Variants and VariantConnectors of a program. A destroyed one is none. -/
structure Variants where
  vars : List (Option Variant)
  connectors : List (Option VariantConnector)
  holders : HolderHeap

/-- What a program does to them. The vector behind a push moves or does not. -/
inductive VariantOp
  | create
  | construct (x : VariantValue)
  | copy (w : ℕ)
  | assign (v w : ℕ)
  | set (v : ℕ) (x : VariantValue)
  | destroy (v : ℕ)
  | connector
  | push (c : ℕ) (x : VariantValue) (moves : Bool)
  | reset (c : ℕ)
  | disconnect (c : ℕ)

namespace Variants

def start : Variants := ⟨[],[],.empty⟩

def var (s : Variants) (v : ℕ) : Exec Variant :=
  match s.vars[v]? with
  | some (some x) => .ok x
  | _ => .error .useAfterFree

def conn (s : Variants) (c : ℕ) : Exec VariantConnector :=
  match s.connectors[c]? with
  | some (some x) => .ok x
  | _ => .error .useAfterFree

/-- The class declares neither a copy constructor nor an `operator=`: both copy all members. -/
def step (s : Variants) : VariantOp → Exec (Unit × Variants)
  | .create => .ok ((),{ s with vars := s.vars ++ [some Variant.create] })
  | .construct v =>
    let (x,h) := Variant.construct s.holders v
    .ok ((),{ s with vars := s.vars ++ [some x], holders := h })
  | .copy w => do
    let x ← s.var w
    .ok ((),{ s with vars := s.vars ++ [some x] })
  | .assign v w => do
    let _ ← s.var v
    let x ← s.var w
    .ok ((),{ s with vars := s.vars.set v (some x) })
  | .set v val => do
    let x ← s.var v
    let (x,h) := x.set s.holders val
    .ok ((),{ s with vars := s.vars.set v (some x), holders := h })
  | .destroy v => do
    let x ← s.var v
    let h ← x.destroy s.holders
    .ok ((),{ s with vars := s.vars.set v none, holders := h })
  | .connector => .ok ((),{ s with connectors := s.connectors ++ [some .create] })
  | .push c val moves => do
    let conn ← s.conn c
    let (conn,h) ← conn.push s.holders val moves
    .ok ((),{ s with connectors := s.connectors.set c (some conn), holders := h })
  | .reset c => do
    let conn ← s.conn c
    let (conn,h) ← conn.reset s.holders
    .ok ((),{ s with connectors := s.connectors.set c (some conn), holders := h })
  | .disconnect c => do
    let conn ← s.conn c
    let h ← conn.destroy s.holders
    .ok ((),{ s with connectors := s.connectors.set c none, holders := h })

/-- Nothing is done to what has been destroyed. -/
def Admits (s : Variants) : VariantOp → Prop
  | .create | .construct _ | .connector => True
  | .copy w => ∃ x, s.var w = .ok x
  | .assign v w => (∃ x, s.var v = .ok x) ∧ ∃ x, s.var w = .ok x
  | .set v _ | .destroy v => ∃ x, s.var v = .ok x
  | .push c _ _ | .reset c | .disconnect c => ∃ x, s.conn c = .ok x

end Variants

end JhCommon
