import JhCommon.DumpCPlusPlus
import JhCommon.References
import JhCommon.VariantRuns

/-! Calls of an object's methods through the stubs and the invoker that are written for them, over a
connector like the one of `jhidl/test`, and what they come to. -/
namespace JhCommon
open Transition

namespace VariantValue

/-- The member of the union that is written for a value. -/
def data : VariantValue → VariantData
  | .char v => .mChar v
  | .int16 v => .mNum16 v
  | .uint16 v => .mUNum16 v
  | .int32 v => .mNum32 v
  | .uint32 v => .mUNum32 v
  | .int64 v => .mNum64 v
  | .uint64 v => .mUNum64 v
  | .float v => .mFloat v
  | .double v => .mDouble v
  | .string _ | .object _ _ => .unset

end VariantValue

namespace VariantData

/-- The number that has been written last. -/
def value : VariantData → Option VariantValue
  | .mChar v => some (.char v)
  | .mNum16 v => some (.int16 v)
  | .mUNum16 v => some (.uint16 v)
  | .mNum32 v => some (.int32 v)
  | .mUNum32 v => some (.uint32 v)
  | .mNum64 v => some (.int64 v)
  | .mUNum64 v => some (.uint64 v)
  | .mFloat v => some (.float v)
  | .mDouble v => some (.double v)
  | .unset | .obj _ => none

end VariantData

namespace Variant

/-- `getChar` and the other getters but `getObject`. A member that was not the last one to be written
is not read. -/
def get (x : Variant) (k : VariantType) : Exec VariantValue :=
  if k = .TYPE_STRING then .ok (.string x.mStr)
  else
    match x.mData.value with
    | some v => if v.kind = k then .ok v else .error .outOfBounds
    | none => .error .outOfBounds

/-- An assignment to what `getString` or a `Ref` getter returned. -/
def assign (x : Variant) (v : VariantValue) : Exec Variant :=
  match v with
  | .string s => .ok { x with mStr := s }
  | v =>
    if h : ∃ old, x.mData.value = some old ∧ old.kind = v.kind then
      .ok { x with
        mData := v.data
        wf := fun ht => by
          obtain ⟨a,ha⟩ := x.wf ht
          obtain ⟨old,hold,-⟩ := h
          rw [ha] at hold
          cases hold }
    else .error .outOfBounds

end Variant

/-- The calls of a connector and of a Variant that have a type in their names, and what they take or
return. That of objects takes an IID too, and is not among them. -/
def connectorTypes : List (String × VariantType) :=
  [("Char",.TYPE_CHAR),("Int16",.TYPE_INT16),("UInt16",.TYPE_UINT16),("Int32",.TYPE_INT32),
    ("UInt32",.TYPE_UINT32),("Int64",.TYPE_INT64),("UInt64",.TYPE_UINT64),("Float",.TYPE_FLOAT),
    ("Double",.TYPE_DOUBLE),("String",.TYPE_STRING)]

/-- The types of the C++ language that these are. -/
def cppTypes : List (String × VariantType) :=
  [("char",.TYPE_CHAR),("int16_t",.TYPE_INT16),("uint16_t",.TYPE_UINT16),("int32_t",.TYPE_INT32),
    ("uint32_t",.TYPE_UINT32),("int64_t",.TYPE_INT64),("uint64_t",.TYPE_UINT64),
    ("float",.TYPE_FLOAT),("double",.TYPE_DOUBLE),("std::string",.TYPE_STRING)]

def typeNamed (types : List (String × VariantType)) (name : Str) : Option VariantType :=
  (types.find? fun e => e.1.toList = name).map Prod.snd

namespace DumpCPlusPlus

def connectorType (d : DumpCPlusPlus) (t : ℕ) : Option VariantType :=
  typeNamed connectorTypes (d.getConnectorName t)

def cppType (d : DumpCPlusPlus) (t : ℕ) : Option VariantType := typeNamed cppTypes (d.getTypeName t)

/-- The connector takes the type as it is declared. -/
def Marshalled (d : DumpCPlusPlus) (t : ℕ) : Prop :=
  d.connectorType t ≠ none ∧ d.connectorType t = d.cppType t

/-- The arguments have the types of the parameters. -/
def Fits (d : DumpCPlusPlus) (m : Method) (args : List VariantValue) : Prop :=
  args.map (fun v => some v.kind) = m.mParamTypes.map fun p => d.cppType p.mType

/-- A method writes values of the declared types to those of its parameters that are references. -/
def MayWrite (d : DumpCPlusPlus) (m : Method) (i : Fin m.mParamTypes.length) (v : VariantValue) : Prop :=
  d.paramForm m.mParamTypes[i] = .ref ∧ d.cppType m.mParamTypes[i].mType = some v.kind

end DumpCPlusPlus

/-- What a method does to its parameters, the value of the declared type that it returns, and what it
leaves of the object. -/
abbrev MethodBody (d : DumpCPlusPlus) (m : Method) (σ : Type) : Type :=
  RefProgram m.mParamTypes.length VariantValue
    ({ ret : Option VariantValue // ret.map VariantValue.kind = m.mRetType.bind d.cppType } × σ)
    (d.MayWrite m)

/-- An object whose class implements the methods. -/
structure Service (d : DumpCPlusPlus) (methods : List Method) (σ : Type) where
  body : ∀ m ∈ methods, σ → MethodBody d m σ

/-- A call with these values behind parameters that are apart: what is behind them then, and what is
returned. -/
def Service.invoke {d : DumpCPlusPlus} {methods : List Method} {σ : Type} (service : Service d methods σ)
    (m : Method) (hm : m ∈ methods) (vs : List VariantValue) (o : σ) :
    List VariantValue × Option VariantValue × σ :=
  let out := (service.body m hm o).run id fun i => vs.getD i (.string "")
  (List.ofFn out.2,out.1.1.1,out.1.2)

/-- A connector with its invoker's object. -/
structure Remote (σ : Type) where
  conn : VariantConnector
  holders : HolderHeap
  object : σ

/-- A variable of the caller, or a parameter's own copy of one. -/
abbrev Place := ℕ ⊕ ℕ

/-- Inside of a stub its parameters have their places. -/
structure StubState (σ : Type) extends Remote σ where
  places : Str → Option Place
  mem : Place → VariantValue
  returned : Option VariantValue

def StubState.var {σ : Type} (s : StubState σ) (name : Str) : Option VariantValue := (s.places name).map s.mem

section Execution
variable {σ : Type} (d : DumpCPlusPlus) {methods : List Method} (service : Service d methods σ)

/-- What a reference is bound to is no temporary. -/
def binds (form : ParamForm) (a : InvokerArg) : Bool :=
  match form with
  | .ref => a.ref || a.variantName == "String".toList
  | .value | .constRef => true
  | .pointer => false

/-- One argument of the invoker's call. What does not compile is a fault. -/
def readArg (p : ParamInfo) (a : InvokerArg) (x : Variant) : Exec VariantValue :=
  match typeNamed connectorTypes a.variantName with
  | none => .error .fatal
  | some k =>
    if d.cppType p.mType = some k ∧ binds (d.paramForm p) a = true then x.get k else .error .fatal

def readArgs : List ParamInfo → List InvokerArg → List Variant → Exec (List VariantValue)
  | [], [], _ => .ok []
  | p :: ps, a :: as, x :: xs => do
    let v ← readArg d p a x
    let vs ← readArgs ps as xs
    .ok (v :: vs)
  | _, _, _ => .error .outOfBounds

/-- What a method writes to its references is written to the Variants. -/
def writeArgs : List ParamInfo → List VariantValue → List Variant → Exec (List Variant)
  | p :: ps, v :: vs, x :: xs => do
    let x ← if d.paramForm p = .ref then x.assign v else .ok x
    let xs ← writeArgs ps vs xs
    .ok (x :: xs)
  | _, _, xs => .ok xs

/-- One case of the invoker. The method is the one that the class declares under the name; its
parameters are in Variants of their own. -/
def InvokerCase.exec (c : InvokerCase) (r : Remote σ) : Exec (Remote σ) :=
  match methods.attach.find? fun m => m.1.mName = c.method with
  | none => .error .fatal
  | some ⟨m,hm⟩ => do
    let args ← readArgs d m.mParamTypes c.args r.conn.mParams
    let (results,ret,object) := service.invoke m hm args r.object
    let params ← writeArgs d m.mParamTypes results r.conn.mParams
    match c.ret, ret with
    | none, _ => .ok { r with conn := { r.conn with mParams := params }, object := object }
    | some name, some v =>
      if typeNamed connectorTypes name = some v.kind then
        let (x,holders) := r.conn.mReturnValue.set r.holders v
        .ok ⟨⟨params,x⟩,holders,object⟩
      else .error .fatal
    | some _, none => .error .fatal

/-- The switch of the invoker has no default. A synchronous call gives it the parameters of the
connector, and its return value. -/
def Remote.call (r : Remote σ) (method_num : ℕ) : Exec (Remote σ) :=
  match methods[method_num]? with
  | none => .ok r
  | some m => (d.invokerCase m).exec d service r

/-- A vector that a value is pushed to moves or does not. -/
def StubStatement.exec (moves : VariantConnector → Bool) (s : StubState σ) :
    StubStatement → Exec (StubState σ)
  | .reset => do
    let (conn,holders) ← s.conn.reset s.holders
    .ok { s with conn := conn, holders := holders }
  | .push connector param =>
    match s.var param with
    | none => .error .fatal
    | some v =>
      if typeNamed connectorTypes connector = some v.kind then do
        let (conn,holders) ← s.conn.push s.holders v (moves s.conn)
        .ok { s with conn := conn, holders := holders }
      else .error .fatal
  | .call method_num => do
    let r ← s.toRemote.call d service method_num
    .ok { s with toRemote := r }
  | .getParam param connector param_num =>
    match s.places param, s.conn.mParams[param_num]? with
    | some q, some x =>
      if typeNamed connectorTypes connector = some (s.mem q).kind then do
        let v ← x.get (s.mem q).kind
        .ok { s with mem := Function.update s.mem q v }
      else .error .fatal
    | some _, none => .error .outOfBounds
    | none, _ => .error .fatal
  | .ret connector =>
    match typeNamed connectorTypes connector with
    | none => .error .fatal
    | some k => do
      let v ← s.conn.mReturnValue.get k
      .ok { s with returned := some v }

def execAll (moves : VariantConnector → Bool) : List StubStatement → StubState σ → Exec (StubState σ)
  | [], s => .ok s
  | x :: xs, s => do
    let s ← x.exec d service moves s
    execAll moves xs s

/-- What stands in the parameters behind a call: the references have been written. -/
def written : List ParamInfo → List VariantValue → List VariantValue → List VariantValue
  | p :: ps, v :: vs, w :: ws => (if d.paramForm p = .ref then w else v) :: written ps vs ws
  | _, vs, _ => vs

/-- Where parameter i is in a call with these variables: one that is passed by value is a copy. -/
def placeOf (ps : List ParamInfo) (args : List ℕ) (i : ℕ) : Place :=
  if ps[i]?.map d.paramForm = some .value then .inr i else .inl (args.getD i 0)

/-- The memory when a call begins. -/
def entryMem (vars : ℕ → VariantValue) (args : List ℕ) : Place → VariantValue
  | .inl x => vars x
  | .inr i => vars (args.getD i 0)

def stubPlaces (ps : List ParamInfo) (args : List ℕ) (name : Str) : Option Place :=
  (ps.findIdx? fun p => p.mName = name).map (placeOf d ps args)

/-- A call of the stub for method j with variables of the caller. A parameter of the name mConn would
hide the connector. -/
def Remote.stubCall (moves : VariantConnector → Bool) (s : (ℕ → VariantValue) × Remote σ)
    (call : ℕ × List ℕ) : Exec (Option VariantValue × ((ℕ → VariantValue) × Remote σ)) :=
  match methods[call.1]? with
  | none => .error .fatal
  | some m =>
    if ∀ p ∈ m.mParamTypes, p.mName ≠ "mConn".toList then do
      let out ← execAll d service moves (d.stubBody m call.1)
        { s.2 with
          places := stubPlaces d m.mParamTypes call.2
          mem := entryMem s.1 call.2
          returned := none }
      .ok (out.returned,(fun x => out.mem (.inl x),out.toRemote))
    else .error .fatal

/-- A call of the object's method j itself. -/
def directCall (s : (ℕ → VariantValue) × σ) (call : ℕ × List ℕ) :
    Exec (Option VariantValue × ((ℕ → VariantValue) × σ)) :=
  match methods.attach[call.1]? with
  | none => .error .fatal
  | some ⟨m,hm⟩ =>
    let out := (service.body m hm s.2).run (fun i => placeOf d m.mParamTypes call.2 i)
      (entryMem s.1 call.2)
    .ok (out.1.1.1,(fun x => out.2 (.inl x),out.1.2))

end Execution

namespace Variant
variable {x : Variant} {h : HolderHeap} {v old : VariantValue}

/-- The getter for the value's type returns it, and there is nothing to delete. -/
def Holds (x : Variant) (v : VariantValue) : Prop := x.get v.kind = .ok v ∧ x.mType ≠ .TYPE_OBJECT

theorem construct_holds (h : HolderHeap) (hv : v.kind ≠ .TYPE_OBJECT) :
    (construct h v).2 = h ∧ (construct h v).1.Holds v := by
  cases v with
  | object iid o => exact absurd rfl hv
  | _ => exact ⟨rfl,rfl,by rintro ⟨⟩⟩

theorem set_holds (x : Variant) (h : HolderHeap) (hv : v.kind ≠ .TYPE_OBJECT) :
    (x.set h v).2 = h ∧ (x.set h v).1.Holds v := by
  cases v with
  | object iid o => exact absurd rfl hv
  | _ => exact ⟨rfl,rfl,by rintro ⟨⟩⟩

/-- A reference to a value takes another one of its type. -/
theorem Holds.assign (hx : x.Holds old) (hkind : old.kind = v.kind) (hv : v.kind ≠ .TYPE_OBJECT) :
    ∃ x', x.assign v = .ok x' ∧ x'.Holds v := by
  by_cases hstring : v.kind = .TYPE_STRING
  · cases v with
    | string s => exact ⟨_,rfl,rfl,hx.2⟩
    | _ => cases hstring
  · have hold : x.mData.value = some old := by
      have hget := hx.1
      rw [get, if_neg (by rwa [hkind])] at hget
      cases hvalue : x.mData.value with
      | none => simp [hvalue] at hget
      | some w =>
        simp only [hvalue] at hget
        split at hget
        · rw [Except.ok.inj hget]
        · cases hget
    have hex : ∃ old, x.mData.value = some old ∧ old.kind = v.kind := ⟨old,hold,hkind⟩
    cases v with
    | string s => exact absurd rfl hstring
    | object iid o => exact absurd rfl hv
    | _ => exact ⟨_,dif_pos hex,rfl,hx.2⟩

end Variant

namespace VariantConnector
variable {c : VariantConnector} {v : VariantValue}

/-- Nothing in the vector is an object. -/
def Plain (c : VariantConnector) : Prop := ∀ x ∈ c.mParams, x.holder = none

theorem Plain.push (hc : c.Plain) (h : HolderHeap) (hv : v.kind ≠ .TYPE_OBJECT) (moves : Bool) :
    ∃ x, x.Holds v ∧ c.push h v moves = .ok ({ c with mParams := c.mParams ++ [x] },h) := by
  obtain ⟨hheap,hholds⟩ := Variant.construct_holds h hv
  refine ⟨(Variant.construct h v).1,hholds,?_⟩
  have htemp : (Variant.construct h v).1.destroy h = .ok h := by
    rw [Variant.destroy, Variants.holder_eq_none hholds.2]
  have hmoved := Variants.destroyAll_bare hc h
  cases moves <;> simp only [VariantConnector.push, hheap, hmoved, ok_bind, htemp] <;> rfl

theorem Plain.reset (hc : c.Plain) (h : HolderHeap) : c.reset h = .ok ({ c with mParams := [] },h) := by
  simp only [VariantConnector.reset, Variants.destroyAll_bare hc, ok_bind]

end VariantConnector

theorem typeNamed_mem {types : List (String × VariantType)} {name : Str} {k : VariantType}
    (h : typeNamed types name = some k) : ∃ e ∈ types, e.1.toList = name ∧ e.2 = k := by
  obtain ⟨e,he,rfl⟩ := Option.map_eq_some_iff.mp h
  exact ⟨e,List.mem_of_find?_eq_some he,by simpa using List.find?_some he,rfl⟩

namespace DumpCPlusPlus
variable {d : DumpCPlusPlus} {t : ℕ} {p : ParamInfo}

/-- No type of the C++ language has the name that a connector has for one. -/
theorem names_differ : ∀ e ∈ connectorTypes, ∀ e' ∈ cppTypes, e.1.toList ≠ e'.1.toList := by decide

theorem Marshalled.kind (ht : d.Marshalled t) : ∃ k, d.connectorType t = some k ∧
    d.cppType t = some k ∧ k ≠ .TYPE_OBJECT := by
  obtain ⟨k,hk⟩ := Option.ne_none_iff_exists'.mp ht.1
  refine ⟨k,hk,ht.2 ▸ hk,?_⟩
  obtain ⟨e,he,-,rfl⟩ := typeNamed_mem hk
  have hno : ∀ e ∈ connectorTypes, e.2 ≠ .TYPE_OBJECT := by decide
  exact hno e he

/-- A type that is marshalled is a number or a string. -/
theorem Marshalled.primitive (ht : d.Marshalled t) :
    (d.typeInfo t).isNumber = true ∧ (d.typeInfo t).isString = false ∨
      (d.typeInfo t).isNumber = false ∧ (d.typeInfo t).isString = true ∧
        d.getVariantName t = "String".toList := by
  obtain ⟨k,hconn,hcpp,-⟩ := ht.kind
  obtain ⟨e,he,hname,-⟩ := typeNamed_mem hconn
  obtain ⟨e',he',hname',-⟩ := typeNamed_mem hcpp
  have hdiffer : d.getConnectorName t ≠ d.getTypeName t := by
    rw [← hname, ← hname']
    exact names_differ e he e' he'
  cases hkind : (d.typeInfo t).mType with
  | TYPE_INTEGER => exact .inl ⟨by rw [TypeInfo.isNumber, hkind],by rw [TypeInfo.isString, hkind]⟩
  | TYPE_FLOAT => exact .inl ⟨by rw [TypeInfo.isNumber, hkind],by rw [TypeInfo.isString, hkind]⟩
  | TYPE_STRING =>
    refine .inr ⟨by rw [TypeInfo.isNumber, hkind],by rw [TypeInfo.isString, hkind],?_⟩
    rw [getVariantName, hkind]
    rfl
  | TYPE_ANY =>
    rw [getTypeName, hkind] at hname'
    have hno : ∀ e ∈ cppTypes, e.1.toList ≠ lit "void *" := by decide
    exact absurd hname' (hno e' he')
  | TYPE_INTERFACE c =>
    rw [getConnectorName, getVariantName, hkind] at hname
    have hno : ∀ e ∈ connectorTypes, e.1.toList ≠ lit "Object" := by decide
    exact absurd hname (hno e he)
  | _ => exact absurd (by rw [getConnectorName, getVariantName, getTypeName, hkind]) hdiffer

/-- Behind the call the caller sees what was written to the parameters that are declared as
references, which are those that the stub reads back. -/
theorem Marshalled.form (ht : d.Marshalled p.mType) : (d.paramForm p = .ref ↔ p.mParamType.out = true) ∧
    binds (d.paramForm p) ⟨d.getVariantName p.mType,
      p.mParamType.out && (d.typeInfo p.mType).isNumber⟩ = true := by
  have hstruct : (d.typeInfo p.mType).isInterface = false ∧ (d.typeInfo p.mType).isStruct = false := by
    rcases ht.primitive with ⟨hnumber,-⟩ | ⟨-,hstring,-⟩
    · unfold TypeInfo.isNumber at hnumber
      unfold TypeInfo.isInterface TypeInfo.isStruct
      cases hkind : (d.typeInfo p.mType).mType <;> simp_all
    · unfold TypeInfo.isString at hstring
      unfold TypeInfo.isInterface TypeInfo.isStruct
      cases hkind : (d.typeInfo p.mType).mType <;> simp_all
  unfold paramForm
  cases hdir : p.mParamType <;>
    rcases ht.primitive with ⟨hnumber,hstring⟩ | ⟨hnumber,hstring,hname⟩ <;>
      simp_all [ParamType.out, TypeInfo.isPrimitive, binds]

end DumpCPlusPlus

section Calls
variable {σ : Type} {d : DumpCPlusPlus} {methods : List Method} {service : Service d methods σ}
  {ps : List ParamInfo} {vs ws us : List VariantValue} {xs : List Variant}

/-- The parameters and the values of a call: the types are marshalled as they are. -/
def Typed (d : DumpCPlusPlus) (ps : List ParamInfo) (vs : List VariantValue) : Prop :=
  List.Forall₂ (fun p v => d.Marshalled p.mType ∧ d.cppType p.mType = some v.kind) ps vs

theorem typed_of_fits {m : Method} (hm : ∀ p ∈ m.mParamTypes, d.Marshalled p.mType)
    (hfits : d.Fits m vs) : Typed d m.mParamTypes vs := by
  unfold DumpCPlusPlus.Fits at hfits
  rw [Typed, List.forall₂_iff_get]
  have hlen : vs.length = m.mParamTypes.length := by simpa using congrArg List.length hfits
  refine ⟨hlen.symm,fun i hi hi' => ⟨hm _ (List.get_mem _ _),?_⟩⟩
  have hget := congrArg (·[i]?) hfits
  simp only [List.getElem?_map, List.getElem?_eq_getElem hi, List.getElem?_eq_getElem hi',
    Option.map_some, Option.some.injEq] at hget
  exact hget.symm

theorem Marshalled.connector {d : DumpCPlusPlus} {t : ℕ} {v : VariantValue} (ht : d.Marshalled t)
    (hv : d.cppType t = some v.kind) :
    typeNamed connectorTypes (d.getConnectorName t) = some v.kind ∧ v.kind ≠ .TYPE_OBJECT := by
  obtain ⟨k,hconn,hcpp,hk⟩ := ht.kind
  obtain rfl := Option.some.inj (hv.symm.trans hcpp)
  exact ⟨hconn,hk⟩

/-- The pushes put the arguments into the connector. -/
theorem exec_pushes (service : Service d methods σ) (moves : VariantConnector → Bool)
    (htyped : Typed d ps vs) (s : StubState σ)
    (hvars : List.Forall₂ (fun p v => s.var p.mName = some v) ps vs) (hplain : s.conn.Plain) :
    ∃ xs, List.Forall₂ Variant.Holds xs vs ∧
      execAll d service moves (ps.map fun p => .push (d.getConnectorName p.mType) p.mName) s =
        .ok { s with conn := { s.conn with mParams := s.conn.mParams ++ xs } } := by
  induction htyped generalizing s with
  | nil => exact ⟨[],.nil,by simp only [List.map_nil, execAll, List.append_nil]⟩
  | @cons p v ps vs hp _ ih =>
    cases hvars with
    | cons hvar hvars =>
    obtain ⟨hconn,hobject⟩ := Marshalled.connector hp.1 hp.2
    obtain ⟨x,hx,hpush⟩ := hplain.push s.holders hobject (moves s.conn)
    have hplain' : VariantConnector.Plain { s.conn with mParams := s.conn.mParams ++ [x] } := by
      intro y hy
      rcases List.mem_append.mp hy with hy | hy
      · exact hplain y hy
      · rw [List.mem_singleton.mp hy]
        exact Variants.holder_eq_none hx.2
    obtain ⟨xs,hxs,hrest⟩ := ih { s with
      conn := { s.conn with mParams := s.conn.mParams ++ [x] } } hvars hplain'
    refine ⟨x :: xs,.cons hx hxs,?_⟩
    simp only [List.map_cons, execAll, StubStatement.exec, hvar, if_pos hconn, hpush, ok_bind, hrest,
      List.append_assoc, List.singleton_append]

/-- The invoker's arguments of a method. -/
def argsOf (d : DumpCPlusPlus) (ps : List ParamInfo) : List InvokerArg :=
  ps.map fun p => ⟨d.getVariantName p.mType,p.mParamType.out && (d.typeInfo p.mType).isNumber⟩

theorem readArgs_eq (htyped : Typed d ps vs) (hxs : List.Forall₂ Variant.Holds xs vs) :
    readArgs d ps (argsOf d ps) xs = .ok vs := by
  induction htyped generalizing xs with
  | nil => rfl
  | @cons p v ps vs hp _ ih =>
    cases hxs with
    | @cons x _ xs _ hx hxs =>
    obtain ⟨hconn,-⟩ := Marshalled.connector hp.1 hp.2
    have hread : readArg d p ⟨d.getVariantName p.mType,
        p.mParamType.out && (d.typeInfo p.mType).isNumber⟩ x = .ok v := by
      rw [readArg, show typeNamed connectorTypes (d.getVariantName p.mType) = some v.kind from hconn]
      simp only [hp.2, hp.1.form.2, and_self, if_true]
      exact hx.1
    rw [argsOf, List.map_cons, readArgs, hread, ok_bind]
    have hrest := ih hxs
    rw [argsOf] at hrest
    rw [hrest, ok_bind]

/-- Behind the call the Variants of the parameters that are references have what was written. -/
theorem writeArgs_eq (htyped : Typed d ps vs) (hresults : Typed d ps ws)
    (hxs : List.Forall₂ Variant.Holds xs vs) :
    ∃ xs', writeArgs d ps ws xs = .ok xs' ∧ List.Forall₂ Variant.Holds xs' (written d ps vs ws) := by
  induction htyped generalizing xs ws with
  | nil =>
    cases hresults
    cases hxs
    exact ⟨[],rfl,.nil⟩
  | @cons p v ps vs hp _ ih =>
    cases hresults with
    | @cons _ w _ ws hw hws =>
    cases hxs with
    | @cons x _ xs _ hx hxs =>
    obtain ⟨xs',hwrite,hholds⟩ := ih hws hxs
    by_cases hform : d.paramForm p = .ref
    · have hkind : v.kind = w.kind := Option.some.inj (hp.2.symm.trans hw.2)
      obtain ⟨x',hassign,hx'⟩ := hx.assign hkind (Marshalled.connector hw.1 hw.2).2
      refine ⟨x' :: xs',?_,?_⟩
      · simp only [writeArgs, if_pos hform, hassign, ok_bind, hwrite]
      · simp only [written, if_pos hform]
        exact .cons hx' hholds
    · refine ⟨x :: xs',?_,?_⟩
      · simp only [writeArgs, if_neg hform, ok_bind, hwrite]
      · simp only [written, if_neg hform]
        exact .cons hx hholds

theorem execAll_append (moves : VariantConnector → Bool) (as bs : List StubStatement) (s : StubState σ) :
    execAll d service moves (as ++ bs) s =
      execAll d service moves as s >>= execAll d service moves bs := by
  induction as generalizing s with
  | nil => rfl
  | cons a as ih =>
    simp only [List.cons_append, execAll, bind_assoc]
    congr 1
    funext s'
    exact ih s'

/-- A parameter that is written has its place for itself. -/
def Separate (d : DumpCPlusPlus) (ps : List ParamInfo) (qs : List Place) : Prop :=
  ∀ (i j : ℕ) p q, ps[i]? = some p → d.paramForm p = .ref → qs[i]? = some q → qs[j]? = some q → i = j

/-- The references are read back one after the other, from parameter n on. -/
theorem exec_reads (service : Service d methods σ) (moves : VariantConnector → Bool)
    (hargs : Typed d ps vs) (hresults : Typed d ps ws) (s : StubState σ) (n : ℕ)
    (hxs : List.Forall₂ Variant.Holds (s.conn.mParams.drop n) (written d ps vs ws)) {qs : List Place}
    (hplaces : List.Forall₂ (fun p q => s.places p.mName = some q) ps qs) (hsep : Separate d ps qs)
    (hmem : qs.map s.mem = vs) :
    ∃ mem, execAll d service moves ((ps.zipIdx n).flatMap fun p =>
        if p.1.mParamType.out then [.getParam p.1.mName (d.getConnectorName p.1.mType) p.2] else []) s =
          .ok { s with mem := mem } ∧ qs.map mem = written d ps vs ws ∧
      ∀ q, (∀ (i : ℕ) p, ps[i]? = some p → d.paramForm p = .ref → qs[i]? ≠ some q) →
        mem q = s.mem q := by
  induction hargs generalizing ws s n qs with
  | nil =>
    cases hresults
    cases hplaces
    exact ⟨s.mem,rfl,rfl,fun _ _ => rfl⟩
  | @cons p v ps vs hp _ ih =>
    cases hresults with
    | @cons _ w _ ws hw hws =>
    cases hplaces with
    | @cons _ q _ qs hplace hplaces =>
    obtain ⟨hv,hvs⟩ := List.cons.inj hmem
    rw [written] at hxs ⊢
    obtain ⟨x,xs,hx,hrest,hdrop⟩ := List.forall₂_cons_right_iff.mp hxs
    have hnext : s.conn.mParams.drop (n+1) = xs := by
      rw [← List.drop_drop, hdrop, List.drop_one, List.tail_cons]
    have hat : s.conn.mParams[n]? = some x := by
      rw [← List.head?_drop, hdrop, List.head?_cons]
    have hkind : w.kind = (s.mem q).kind := by
      rw [hv]
      exact Option.some.inj (hw.2.symm.trans hp.2)
    have hseprest : Separate d ps qs := fun i j p' q' hi hform hq hq' =>
      Nat.succ.inj (hsep (i+1) (j+1) p' q' hi hform hq hq')
    -- the places of the other parameters that are written are not the first one's
    have hfirst (i : ℕ) (p' : ParamInfo) (hi : ps[i]? = some p') (hform : d.paramForm p' = .ref) :
        qs[i]? ≠ some q := fun hq =>
      absurd (hsep (i+1) 0 p' q hi hform hq rfl) (Nat.succ_ne_zero i)
    rw [List.zipIdx_cons, List.flatMap_cons]
    by_cases hout : p.mParamType.out = true
    · have hform := hp.1.form.1.mpr hout
      have hother : ∀ q' ∈ qs, q' ≠ q := by
        rintro q' hq' rfl
        obtain ⟨j,hj,hget⟩ := List.getElem_of_mem hq'
        exact absurd (hsep 0 (j+1) p q' rfl hform rfl ((List.getElem?_eq_getElem hj).trans
          (congrArg some hget))) (Nat.succ_ne_zero j).symm
      have hkept : qs.map (Function.update s.mem q w) = vs := by
        rw [← hvs]
        exact List.map_congr_left fun q' hq' => Function.update_of_ne (hother q' hq') _ _
      rw [if_pos hform] at hx
      obtain ⟨mem,hexec,hwritten,hframe⟩ := ih hws { s with mem := Function.update s.mem q w } (n+1)
        (by rwa [hnext]) hplaces hseprest hkept
      refine ⟨mem,?_,?_,?_⟩
      · obtain ⟨hconn,-⟩ := Marshalled.connector hp.1 hp.2
        rw [← hv] at hconn
        have hget := hx.1
        rw [hkind] at hget
        simp only [if_pos hout, List.singleton_append, execAll, StubStatement.exec, hplace, hat,
          if_pos hconn, hget, ok_bind]
        exact hexec
      · rw [List.map_cons, hwritten, hframe q hfirst, if_pos hform]
        exact congrArg (· :: written d ps vs ws) (Function.update_self q w s.mem)
      · intro q' hq'
        have hne : q' ≠ q := fun heq => hq' 0 p rfl hform (congrArg some heq.symm)
        rw [hframe q' fun i p' hi => hq' (i+1) p' hi]
        exact Function.update_of_ne hne _ _
    · have hform : d.paramForm p ≠ .ref := fun hform => hout (hp.1.form.1.mp hform)
      obtain ⟨mem,hexec,hwritten,hframe⟩ := ih hws s (n+1) (by rwa [hnext]) hplaces hseprest hvs
      refine ⟨mem,?_,?_,?_⟩
      · rw [if_neg hout, List.nil_append]
        exact hexec
      · rw [List.map_cons, hwritten, hframe q hfirst, if_neg hform, hv]
      · exact fun q' hq' => hframe q' fun i p' hi => hq' (i+1) p' hi

theorem written_getElem? (htyped : Typed d ps vs) (hresults : Typed d ps ws) {i : ℕ} {p : ParamInfo}
    (hp : ps[i]? = some p) (hform : d.paramForm p = .ref) : (written d ps vs ws)[i]? = ws[i]? := by
  induction htyped generalizing ws i with
  | nil => cases hp
  | cons _ _ ih =>
    cases hresults with
    | cons _ hws =>
    cases i with
    | zero =>
      obtain rfl := Option.some.inj hp
      rw [written, if_pos hform]
      rfl
    | succ i => exact ih hws hp

/-- The names of a stub's parameters lead to their places. -/
theorem stubPlaces_eq (args : List ℕ) (hnames : (ps.map ParamInfo.mName).Nodup) :
    List.Forall₂ (fun p q => stubPlaces d ps args p.mName = some q) ps
      (List.ofFn fun i : Fin ps.length => placeOf d ps args i) := by
  refine List.forall₂_iff_get.mpr ⟨by simp,fun i hi hi' => ?_⟩
  have hfind : (ps.findIdx? fun p => p.mName = ps[i].mName) = some i := by
    refine List.findIdx?_eq_some_iff_getElem.mpr ⟨hi,by simp,fun j hj => ?_⟩
    have hjlt : j < (ps.map ParamInfo.mName).length := by
      rw [List.length_map]
      omega
    have hilt : i < (ps.map ParamInfo.mName).length := by rwa [List.length_map]
    have hne := @List.Nodup.getElem_inj_iff _ _ hnames j hjlt i hilt
    simp only [List.getElem_map] at hne
    simp only [decide_eq_true_eq, hne]
    omega
  simp only [List.get_eq_getElem, List.getElem_ofFn, stubPlaces, hfind, Option.map_some]

theorem entryMem_placeOf (vars : ℕ → VariantValue) (args : List ℕ) (i : ℕ) :
    entryMem vars args (placeOf d ps args i) = vars (args.getD i 0) := by
  unfold placeOf
  split <;> rfl

theorem cppType_of_fits {m : Method} (hfits : d.Fits m vs) (i : Fin m.mParamTypes.length) :
    d.cppType m.mParamTypes[i].mType = some (vs.getD i (.string "")).kind := by
  have hlen : vs.length = m.mParamTypes.length := by simpa using congrArg List.length hfits
  have hget := congrArg (·[(i : ℕ)]?) hfits
  have hi : (i : ℕ) < vs.length := i.isLt.trans_eq hlen.symm
  symm
  simpa [List.getElem?_eq_getElem hi, List.getElem?_eq_getElem i.isLt,
    List.getD_eq_getElem?_getD] using hget

/-- What a method leaves behind its parameters, and what it returns, has the declared types. -/
theorem invoke_typed (service : Service d methods σ) {m : Method} (hm : m ∈ methods) (o : σ)
    (hfits : d.Fits m vs) : d.Fits m (service.invoke m hm vs o).1 ∧
      (service.invoke m hm vs o).2.1.map VariantValue.kind = m.mRetType.bind d.cppType := by
  have hkeeps := RefProgram.run_keeps
    (fun (i : Fin m.mParamTypes.length) v => d.cppType m.mParamTypes[i].mType = some v.kind)
    (fun i v hmay => hmay.2) (service.body m hm o) (cppType_of_fits hfits)
  refine ⟨?_,((service.body m hm o).run _ _).1.1.2⟩
  refine List.ext_getElem (by simp [Service.invoke]) fun i hi hi' => ?_
  simp only [Service.invoke, List.getElem_map, List.getElem_ofFn]
  exact (hkeeps ⟨i,by simpa using hi'⟩).symm

/-- A method that can be called through stubs: what it takes and returns is marshalled, and each of its
parameters can be named in the stub. -/
structure Remotable (d : DumpCPlusPlus) (m : Method) : Prop where
  params : ∀ p ∈ m.mParamTypes, d.Marshalled p.mType
  ret : ∀ t ∈ m.mRetType, d.Marshalled t
  names : (m.mParamTypes.map ParamInfo.mName).Nodup
  visible : ∀ p ∈ m.mParamTypes, p.mName ≠ "mConn".toList

/-- A variable that is given for a parameter that is written is given for no other reference. -/
def Unaliased (d : DumpCPlusPlus) (m : Method) (args : List ℕ) : Prop :=
  ∀ i j : Fin m.mParamTypes.length, d.paramForm m.mParamTypes[i] = .ref →
    placeOf d m.mParamTypes args i = placeOf d m.mParamTypes args j → i = j

theorem find_method {m : Method} (hnames : (methods.map Method.mName).Nodup) (hm : m ∈ methods) :
    (methods.attach.find? fun x => x.1.mName = m.mName) = some ⟨m,hm⟩ := by
  cases hfind : methods.attach.find? fun x => x.1.mName = m.mName with
  | none => simpa using List.find?_eq_none.mp hfind ⟨m,hm⟩ (List.mem_attach _ _)
  | some m' =>
    have hname : m'.1.mName = m.mName := by simpa using List.find?_some hfind
    exact congrArg some (Subtype.ext (List.inj_on_of_nodup_map hnames m'.2 hm hname))

/-- The invoker's case calls the method with the parameters of the connector. Behind it these are what
the caller is to see, and the return value is the method's. -/
theorem invokerCase_exec (service : Service d methods σ) {m : Method}
    (hnames : (methods.map Method.mName).Nodup) (hm : m ∈ methods)
    (hremote : Remotable d m) (r : Remote σ) (hfits : d.Fits m vs)
    (hxs : List.Forall₂ Variant.Holds r.conn.mParams vs) :
    ∃ r', (d.invokerCase m).exec d service r = .ok r' ∧ r'.holders = r.holders ∧
      r'.object = (service.invoke m hm vs r.object).2.2 ∧
      List.Forall₂ Variant.Holds r'.conn.mParams
        (written d m.mParamTypes vs (service.invoke m hm vs r.object).1) ∧
      ∀ t ∈ m.mRetType, ∃ v, (service.invoke m hm vs r.object).2.1 = some v ∧
        r'.conn.mReturnValue.Holds v ∧ d.connectorType t = some v.kind := by
  obtain ⟨hresults,hret⟩ := invoke_typed service hm r.object hfits
  have htyped := typed_of_fits hremote.params hfits
  obtain ⟨xs',hwrite,hholds⟩ := writeArgs_eq htyped (typed_of_fits hremote.params hresults) hxs
  have hread : readArgs d m.mParamTypes (d.invokerCase m).args r.conn.mParams = .ok vs :=
    readArgs_eq htyped hxs
  unfold InvokerCase.exec
  rw [show (d.invokerCase m).method = m.mName from rfl, find_method hnames hm]
  simp only [hread, ok_bind, hwrite]
  cases hrettype : m.mRetType with
  | none =>
    simp only [DumpCPlusPlus.invokerCase, hrettype, Option.map_none]
    refine ⟨_,rfl,rfl,rfl,hholds,?_⟩
    intro t ht
    simp at ht
  | some t =>
    rw [hrettype, Option.bind_some] at hret
    obtain ⟨k,hconn,hcpp,hk⟩ := (hremote.ret t hrettype).kind
    rw [hcpp] at hret
    obtain ⟨v,hv,rfl⟩ := Option.map_eq_some_iff.mp hret
    obtain ⟨hheap,hset⟩ := Variant.set_holds r.conn.mReturnValue r.holders hk
    have hname : typeNamed connectorTypes (d.getVariantName t) = some v.kind := hconn
    simp only [DumpCPlusPlus.invokerCase, hrettype, Option.map_some, hv, if_pos hname]
    refine ⟨_,rfl,hheap,rfl,hholds,?_⟩
    intro t' ht'
    obtain rfl := Option.some.inj ht'
    exact ⟨v,rfl,hset,hconn⟩

/-- When a stub is entered, the places of its parameters hold the arguments. -/
theorem entryMem_places (vars : ℕ → VariantValue) {args : List ℕ} (hlen : args.length = ps.length) :
    (List.ofFn fun i : Fin ps.length => placeOf d ps args i).map (entryMem vars args) =
      args.map vars := by
  refine List.ext_getElem (by simp [hlen]) fun i hi hi' => ?_
  have hlt : i < args.length := by simpa using hi'
  simp [entryMem_placeOf, hlt]

theorem separate_of_unaliased {m : Method} {args : List ℕ} (hapart : Unaliased d m args) :
    Separate d m.mParamTypes
      (List.ofFn fun i : Fin m.mParamTypes.length => placeOf d m.mParamTypes args i) := by
  intro i j p q hp hform hi hj
  obtain ⟨hi',rfl⟩ := List.getElem?_eq_some_iff.mp hi
  obtain ⟨hj',heq⟩ := List.getElem?_eq_some_iff.mp hj
  rw [List.length_ofFn] at hi' hj'
  rw [List.getElem_ofFn, List.getElem_ofFn] at heq
  obtain rfl := Option.some.inj ((List.getElem?_eq_getElem hi').symm.trans hp)
  exact Fin.mk.inj_iff.mp (hapart ⟨i,hi'⟩ ⟨j,hj'⟩ hform heq.symm)

/-- The statements of a stub: the connector is emptied and gets the arguments, the method is called,
and what is to be written is read back. -/
theorem stubBody_exec (service : Service d methods σ) {m : Method} (hnames : (methods.map Method.mName).Nodup)
    (moves : VariantConnector → Bool) (vars : ℕ → VariantValue) (r : Remote σ) (hplain : r.conn.Plain)
    {j : ℕ} (hm : methods[j]? = some m) (hremote : Remotable d m) {args : List ℕ}
    (hfits : d.Fits m (args.map vars)) (hapart : Unaliased d m args) :
    let qs := List.ofFn fun i : Fin m.mParamTypes.length => placeOf d m.mParamTypes args i
    let out := service.invoke m (List.mem_of_getElem? hm) (args.map vars) r.object
    ∃ s, execAll d service moves (d.stubBody m j)
      { r with
        places := stubPlaces d m.mParamTypes args
        mem := entryMem vars args
        returned := none } = .ok s ∧
      s.holders = r.holders ∧ s.conn.Plain ∧ s.object = out.2.2 ∧ s.returned = out.2.1 ∧
      qs.map s.mem = written d m.mParamTypes (args.map vars) out.1 ∧
      ∀ q, (∀ (i : ℕ) p, m.mParamTypes[i]? = some p → d.paramForm p = .ref → qs[i]? ≠ some q) →
        s.mem q = entryMem vars args q := by
  intro qs out
  have hmem := List.mem_of_getElem? hm
  have htyped := typed_of_fits hremote.params hfits
  obtain ⟨hresults,hret⟩ := invoke_typed service hmem r.object hfits
  have hresults := typed_of_fits hremote.params hresults
  have hqs : qs.map (entryMem vars args) = args.map vars :=
    entryMem_places vars (by simpa using congrArg List.length hfits)
  have hplaces := stubPlaces_eq (d := d) args hremote.names
  have hvars : List.Forall₂ (fun p v => (stubPlaces d m.mParamTypes args p.mName).map (entryMem vars args) =
      some v) m.mParamTypes (args.map vars) := by
    rw [← hqs, List.forall₂_map_right_iff]
    exact hplaces.imp fun p q hq => by rw [hq, Option.map_some]
  -- the connector is emptied, and gets the arguments
  obtain ⟨xs,hxs,hpushes⟩ := exec_pushes service moves htyped
    { r with
      conn := { r.conn with mParams := [] }
      places := stubPlaces d m.mParamTypes args
      mem := entryMem vars args
      returned := none } hvars (by rintro x ⟨⟩)
  -- the call
  obtain ⟨r',hcase,hheap,hobject,hxs',hval⟩ := invokerCase_exec service hnames hmem hremote
    { r with conn := { r.conn with mParams := xs } } hfits hxs
  have hcall : Remote.call d service { r with conn := { r.conn with mParams := xs } } j = .ok r' := by
    rw [Remote.call, hm]
    exact hcase
  have hplain' : r'.conn.Plain := by
    intro x hx
    obtain ⟨i,hi,rfl⟩ := List.getElem_of_mem hx
    obtain ⟨hlen,hget⟩ := List.forall₂_iff_get.mp hxs'
    exact Variants.holder_eq_none (hget i hi (hlen ▸ hi)).2
  -- what is read back
  obtain ⟨mem,hreads,hwritten,hframe⟩ := exec_reads service moves htyped hresults
    { r' with
      places := stubPlaces d m.mParamTypes args
      mem := entryMem vars args
      returned := none } 0 hxs' hplaces (separate_of_unaliased hapart) hqs
  rw [DumpCPlusPlus.stubBody, execAll_append, execAll_append, execAll]
  simp only [StubStatement.exec, hplain.reset, ok_bind, hpushes, execAll, List.nil_append, hcall,
    hreads]
  cases hrettype : m.mRetType with
  | none =>
    rw [hrettype, Option.bind_none, Option.map_eq_none_iff] at hret
    exact ⟨_,rfl,hheap,hplain',hobject,hret.symm,hwritten,hframe⟩
  | some t =>
    obtain ⟨v,hv,hholds,hconn⟩ := hval t hrettype
    have hname : typeNamed connectorTypes (d.getConnectorName t) = some v.kind := hconn
    simp only [Option.map_some, Option.toList_some, execAll, StubStatement.exec, hname, hholds.1,
      ok_bind]
    exact ⟨_,rfl,hheap,hplain',hobject,hv.symm,hwritten,hframe⟩

/-- A call through the stub does what a call of the object's method does. -/
theorem stubCall_eq (service : Service d methods σ) {m : Method} (hnames : (methods.map Method.mName).Nodup)
    (moves : VariantConnector → Bool) (vars : ℕ → VariantValue) (r : Remote σ) (hplain : r.conn.Plain)
    {j : ℕ} (hm : methods[j]? = some m) (hremote : Remotable d m) {args : List ℕ}
    (hfits : d.Fits m (args.map vars)) (hapart : Unaliased d m args) :
    ∃ ret vars' r', Remote.stubCall d service moves (vars,r) (j,args) = .ok (ret,(vars',r')) ∧
      directCall d service (vars,r.object) (j,args) = .ok (ret,(vars',r'.object)) ∧
      r'.holders = r.holders ∧ r'.conn.Plain ∧ ∀ x, (vars' x).kind = (vars x).kind := by
  have hmem := List.mem_of_getElem? hm
  have htyped := typed_of_fits hremote.params hfits
  have hresults := typed_of_fits hremote.params (invoke_typed service hmem r.object hfits).1
  have hlen : args.length = m.mParamTypes.length := by simpa using congrArg List.length hfits
  obtain ⟨s,hexec,hheap,hplain',hobject,hreturned,hwritten,hframe⟩ :=
    stubBody_exec service hnames moves vars r hplain hm hremote hfits hapart
  let place := fun i : Fin m.mParamTypes.length => placeOf d m.mParamTypes args i
  have hentry (i : Fin m.mParamTypes.length) :
      entryMem vars args (place i) = (args.map vars).getD i (.string "") := by
    have hi : (i : ℕ) < args.length := i.isLt.trans_eq hlen.symm
    simp [place, entryMem_placeOf, List.getD_eq_getElem?_getD, hi]
  -- the method itself, with its parameters at these places
  obtain ⟨hresult,hbehind⟩ := RefProgram.run_apart place id
    (fun i j hmay heq => hapart i j hmay.choose_spec.1 heq) (fun i j _ heq => heq)
    (service.body m hmem r.object) (entryMem vars args)
    (fun i => (args.map vars).getD i (.string "")) hentry
  have hwrites (i : Fin m.mParamTypes.length) (v : VariantValue) (hmay : d.MayWrite m i v) :
      v.kind = (entryMem vars args (place i)).kind := by
    rw [hentry]
    exact Option.some.inj (hmay.2.symm.trans (cppType_of_fits hfits i))
  have hkinds := RefProgram.run_keeps (fun q v => v.kind = (entryMem vars args q).kind) hwrites
    (service.body m hmem r.object) (fun _ => rfl)
  -- a variable is written by both, with the same value, or by none
  have hsame (x : ℕ) : s.mem (.inl x) =
      ((service.body m hmem r.object).run place (entryMem vars args)).2 (.inl x) := by
    by_cases hx : ∃ i : Fin m.mParamTypes.length, d.paramForm m.mParamTypes[i] = .ref ∧ place i = .inl x
    · obtain ⟨i,hform,hplace⟩ := hx
      have hget := congrArg (·[(i : ℕ)]?) hwritten
      simp only [written_getElem? htyped hresults (List.getElem?_eq_getElem i.isLt) hform] at hget
      rw [← hplace, hbehind]
      simpa [Service.invoke, List.getElem?_ofFn, place] using hget
    · rw [RefProgram.run_frame fun i hmay heq => hx ⟨i,hmay.choose_spec.1,heq⟩]
      refine hframe (.inl x) fun i p hp hform hi => ?_
      obtain ⟨hi',heq⟩ := List.getElem?_eq_some_iff.mp hi
      rw [List.length_ofFn] at hi'
      rw [List.getElem_ofFn] at heq
      obtain rfl := Option.some.inj ((List.getElem?_eq_getElem hi').symm.trans hp)
      exact hx ⟨⟨i,hi'⟩,hform,heq⟩
  have hattach : methods.attach[j]? = some ⟨m,hmem⟩ := by
    obtain ⟨hj,rfl⟩ := List.getElem?_eq_some_iff.mp hm
    rw [List.getElem?_eq_getElem (by rwa [List.length_attach]), List.getElem_attach]
  refine ⟨(service.invoke m hmem (args.map vars) r.object).2.1,_,s.toRemote,?_,?_,hheap,hplain',
    fun x => hkinds (.inl x)⟩
  · simp only [Remote.stubCall, hm, if_pos hremote.visible, hexec, ok_bind, hreturned, hsame]
  · simp only [directCall, hattach, hobject, Service.invoke]
    rw [hresult]

/-- Every run of calls through the stubs of an interface returns what the same calls of the object's
methods return, and leaves what they leave in the callers' variables and in the object, whatever values
the connector had in it. The methods that are async are no exception. -/
theorem stubs_run_eq (service : Service d methods σ) (moves : VariantConnector → Bool)
    (hnames : (methods.map Method.mName).Nodup) (hremote : ∀ m ∈ methods, Remotable d m)
    (calls : List (ℕ × List ℕ)) (vars : ℕ → VariantValue)
    (hcalls : ∀ call ∈ calls, ∃ m, methods[call.1]? = some m ∧ d.Fits m (call.2.map vars) ∧
      Unaliased d m call.2) (r : Remote σ) (hplain : r.conn.Plain) :
    ∃ outs vars' r', run (Remote.stubCall d service moves) (vars,r) calls = .ok (outs,(vars',r')) ∧
      run (directCall d service) (vars,r.object) calls = .ok (outs,(vars',r'.object)) ∧
      r'.holders = r.holders := by
  induction calls generalizing vars r with
  | nil => exact ⟨[],vars,r,rfl,rfl,rfl⟩
  | cons call calls ih =>
    obtain ⟨m,hm,hfits,hapart⟩ := hcalls call List.mem_cons_self
    obtain ⟨ret,vars₁,r₁,hstub,hdirect,hheap,hplain₁,hkinds⟩ := stubCall_eq service hnames moves vars r
      hplain hm (hremote m (List.mem_of_getElem? hm)) hfits hapart
    -- the variables have kept their types
    have hrest : ∀ c ∈ calls, ∃ m, methods[c.1]? = some m ∧ d.Fits m (c.2.map vars₁) ∧
        Unaliased d m c.2 := by
      intro c hc
      obtain ⟨m',hm',hfits',hapart'⟩ := hcalls c (List.mem_cons_of_mem call hc)
      refine ⟨m',hm',?_,hapart'⟩
      simpa only [DumpCPlusPlus.Fits, List.map_map, Function.comp_def, hkinds] using hfits'
    obtain ⟨outs,vars',r',hrun,hdirects,hheap'⟩ := ih vars₁ hrest r₁ hplain₁
    refine ⟨ret :: outs,vars',r',?_,?_,hheap'.trans hheap⟩
    · rw [run, hstub, ok_bind]
      simp only [hrun, ok_bind]
    · rw [run, hdirect, ok_bind]
      simp only [hdirects, ok_bind]

end Calls

section Sums

/-- A table with an int16_t and a string. -/
def sumTypes : DumpCPlusPlus where
  mTypes :=
    { mTypes := [0,1]
      typeInfo := fun t => if t = 0 then ⟨lit "int16_t",.TYPE_INTEGER,[],[]⟩
        else ⟨lit "string",.TYPE_STRING,[],[]⟩
      classInfo := fun _ => ⟨[],[],[],[],[]⟩ }
  number _ := ⟨16,true⟩

/-- `string add( inout int16_t sum, in int16_t num )`. -/
def addMethod : Method :=
  ⟨lit "add",some 1,[⟨lit "sum",.PARAM_INOUT,0⟩,⟨lit "num",.PARAM_IN,0⟩],true⟩

/-- An object that adds one variable to another, and counts its calls. -/
def addBody (o : Int16) : MethodBody sumTypes addMethod Int16 :=
  .read ⟨0,by decide⟩ fun sum => .read ⟨1,by decide⟩ fun num =>
    .write ⟨0,by decide⟩ (.int16 (match sum, num with | .int16 n, .int16 k => n+k | _, _ => 0))
      ⟨by decide,show sumTypes.cppType 0 = some .TYPE_INT16 by decide⟩
      (.done (⟨some (.string "added"),by decide⟩,o+1))

def sumService : Service sumTypes [addMethod] Int16 where
  body _ hm o := (List.mem_singleton.mp hm).symm ▸ addBody o

/-- A variable is added to itself, and then to another one. -/
theorem stubs_run_eq_sum : ∃ outs vars r',
    run (Remote.stubCall sumTypes sumService fun _ => true) (fun _ => .int16 7,⟨.create,.empty,5⟩)
      [(0,[3,3]),(0,[4,3])] = .ok (outs,(vars,r')) ∧
    run (directCall sumTypes sumService) (fun _ => .int16 7,5) [(0,[3,3]),(0,[4,3])] =
      .ok (outs,(vars,r'.object)) ∧
    r'.holders = .empty := by
  have hfits (vars : List VariantValue) (h : vars = [.int16 7,.int16 7]) : sumTypes.Fits addMethod vars := by
    rw [h]
    show [some VariantType.TYPE_INT16,some VariantType.TYPE_INT16] = [sumTypes.cppType 0,sumTypes.cppType 0]
    decide
  refine stubs_run_eq sumService (fun _ => true) (by decide) ?_ _ _ ?_ _ (by rintro x ⟨⟩)
  · intro m hm
    obtain rfl := List.mem_singleton.mp hm
    refine ⟨?_,?_,by decide,by decide⟩
    · have hall : ∀ t ∈ addMethod.mParamTypes.map ParamInfo.mType, t = 0 := by decide
      intro p hp
      rw [hall p.mType (List.mem_map_of_mem hp)]
      exact ⟨by decide,by decide⟩
    · rintro t ⟨⟩
      exact ⟨by decide,by decide⟩
  · intro call hcall
    rcases List.mem_cons.mp hcall with rfl | hcall
    · exact ⟨addMethod,rfl,hfits _ rfl,by unfold Unaliased; decide⟩
    · obtain rfl := List.mem_singleton.mp hcall
      exact ⟨addMethod,rfl,hfits _ rfl,by unfold Unaliased; decide⟩

end Sums

end JhCommon
