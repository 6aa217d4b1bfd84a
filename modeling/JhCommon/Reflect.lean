import JhCommon.StdString

/-! The types of `Reflect.h`, and the table that finds them by name. A TypeInfo and a ClassInfo are known
by their addresses, and a NULL pointer is none. -/
namespace JhCommon

inductive ParamType
  | PARAM_IN
  | PARAM_OUT
  | PARAM_INOUT
  deriving DecidableEq

structure ParamInfo where
  mName : Str
  mParamType : ParamType
  mType : ℕ

structure Method where
  mName : Str
  mRetType : Option ℕ
  mParamTypes : List ParamInfo
  mAsync : Bool

structure Field where
  mName : Str
  mType : ℕ

structure ClassInfo where
  mName : Str
  mParents : List ℕ
  mMethods : List Method
  mFields : List Field
  mIID : Str

/-- The mType of a TypeInfo, with what its constructor is given for it: a class, the elements of an
enumeration, or the type that an alias stands for. -/
inductive TypeKind
  | TYPE_ANY
  | TYPE_INTERFACE (mClass : ℕ)
  | TYPE_STRUCT (mClass : ℕ)
  | TYPE_ARRAY
  | TYPE_ENUM (mElements : List Str)
  | TYPE_ALIAS (mAlias : ℕ)
  | TYPE_BOOL
  | TYPE_INTEGER
  | TYPE_FLOAT
  | TYPE_STRING

structure TypeInfo where
  mName : Str
  mType : TypeKind
  mNamespace : Str
  mFilename : Str

def TypeInfo.getFullName (t : TypeInfo) : Str :=
  if 0 < t.mNamespace.length then t.mNamespace ++ [':',':'] ++ t.mName else t.mName

/-- A TypeManager, with what its pointers and those of its types point at. -/
structure TypeManager where
  mTypes : List ℕ
  typeInfo : ℕ → TypeInfo
  classInfo : ℕ → ClassInfo

namespace TypeManager

def findType (m : TypeManager) (name ns : Str) : Option ℕ :=
  let full_name := if 0 < ns.length then ns ++ [':',':'] ++ name else name
  match m.mTypes.find? fun t => (m.typeInfo t).mName = full_name with
  | some t => some t
  | none => m.mTypes.find? fun t => (m.typeInfo t).mName = name

def findTypesInFile (m : TypeManager) (filename : Str) : List ℕ :=
  m.mTypes.filter fun t => (m.typeInfo t).mFilename = filename

def findTypesByNamespace (m : TypeManager) (ns : Str) : List ℕ :=
  m.mTypes.filter fun t => (m.typeInfo t).mNamespace = ns

/-- The table has the type of this name and namespace at t. -/
structure Has (m : TypeManager) (name ns : Str) (t : ℕ) : Prop where
  mem : t ∈ m.mTypes
  name : (m.typeInfo t).mName = name
  ns : (m.typeInfo t).mNamespace = ns

/-- What a name means in a namespace: a type there, or else one of the global namespace. -/
def Resolves (m : TypeManager) (name ns : Str) : Option ℕ → Prop
  | some t => m.Has name ns t ∨ m.Has name [] t ∧ ∀ u, ¬m.Has name ns u
  | none => ∀ u, ¬m.Has name ns u ∧ ¬m.Has name [] u

/-- No type has a short name that looks like the full name, and the first type that has the short name
is what the name means. -/
def Unshadowed (m : TypeManager) (name ns : Str) : Prop :=
  (ns = [] ∨ ∀ t ∈ m.mTypes, (m.typeInfo t).mName ≠ ns ++ [':',':'] ++ name) ∧
    ∀ t, m.mTypes.find? (fun t => (m.typeInfo t).mName = name) = some t →
      (m.typeInfo t).mNamespace = ns ∨
        (m.typeInfo t).mNamespace = [] ∧ ∀ u ∈ m.mTypes, (m.typeInfo u).mName = name →
          (m.typeInfo u).mNamespace ≠ ns

variable {m : TypeManager} {name ns : Str} {t : ℕ} {r r' : Option ℕ}

theorem Has.fullName (h : m.Has name ns t) : (m.typeInfo t).getFullName =
    if 0 < ns.length then ns ++ [':',':'] ++ name else name := by
  rw [TypeInfo.getFullName, h.name, h.ns]

/-- A name means one type, where the full names are distinct. -/
theorem Resolves.unique
    (hdistinct : ∀ t ∈ m.mTypes, ∀ u ∈ m.mTypes,
      (m.typeInfo t).getFullName = (m.typeInfo u).getFullName → t = u)
    (h : m.Resolves name ns r) (h' : m.Resolves name ns r') : r = r' := by
  have hone {ns : Str} {t u : ℕ} (ht : m.Has name ns t) (hu : m.Has name ns u) : t = u :=
    hdistinct t ht.mem u hu.mem (ht.fullName.trans hu.fullName.symm)
  cases r with
  | none =>
    cases r' with
    | none => rfl
    | some u => exact (h'.elim (h u).1 fun hu => (h u).2 hu.1).elim
  | some t =>
    cases r' with
    | none => exact (h.elim (h' t).1 fun ht => (h' t).2 ht.1).elim
    | some u =>
      congr 1
      rcases h with ht | ⟨ht,hnone⟩ <;> rcases h' with hu | ⟨hu,hnone'⟩
      · exact hone ht hu
      · exact absurd ht (hnone' t)
      · exact absurd hu (hnone u)
      · exact hone ht hu

/-- The second pass. -/
theorem resolves_find_iff : m.Resolves name ns (m.mTypes.find? fun t => (m.typeInfo t).mName = name) ↔
    ∀ t, m.mTypes.find? (fun t => (m.typeInfo t).mName = name) = some t →
      (m.typeInfo t).mNamespace = ns ∨
        (m.typeInfo t).mNamespace = [] ∧ ∀ u ∈ m.mTypes, (m.typeInfo u).mName = name →
          (m.typeInfo u).mNamespace ≠ ns := by
  cases hfind : m.mTypes.find? fun t => (m.typeInfo t).mName = name with
  | none =>
    have hnone (u : ℕ) (ns : Str) : ¬m.Has name ns u := by
      intro hu
      have := List.find?_eq_none.mp hfind u hu.mem
      simp [hu.name] at this
    exact iff_of_true (fun u => ⟨hnone u ns,hnone u []⟩) (fun _ h => by cases h)
  | some t =>
    have hmem := List.mem_of_find?_eq_some hfind
    have hname : (m.typeInfo t).mName = name := by simpa using List.find?_some hfind
    constructor
    · rintro (ht | ⟨ht,hnone⟩) u hu
      · obtain rfl := Option.some.inj hu
        exact .inl ht.ns
      · obtain rfl := Option.some.inj hu
        exact .inr ⟨ht.ns,fun u hu hun hns => hnone u ⟨hu,hun,hns⟩⟩
    · intro h
      rcases h t rfl with hns | ⟨hglobal,hnone⟩
      · exact .inl ⟨hmem,hname,hns⟩
      · exact .inr ⟨⟨hmem,hname,hglobal⟩,fun u hu => hnone u hu.mem hu.name hu.ns⟩

/-- A name is found where it should be just when no type has the full name for a short one, and no other
type of the short name stands in front. -/
theorem resolves_iff_unshadowed (m : TypeManager) (name ns : Str) :
    m.Resolves name ns (m.findType name ns) ↔ m.Unshadowed name ns := by
  by_cases hempty : ns = []
  · -- both passes look for the same name
    subst hempty
    have hpasses : m.findType name [] = m.mTypes.find? fun t => (m.typeInfo t).mName = name := by
      simp only [findType, List.length_nil, Nat.lt_irrefl, if_false]
      cases m.mTypes.find? fun t => (m.typeInfo t).mName = name <;> rfl
    rw [hpasses, resolves_find_iff, Unshadowed]
    exact (and_iff_right (.inl rfl)).symm
  · have hlen : 0 < ns.length := List.length_pos_iff.mpr hempty
    rw [findType, if_pos hlen, Unshadowed]
    cases hfull : m.mTypes.find? fun t => (m.typeInfo t).mName = ns ++ [':',':'] ++ name with
    | none =>
      have hno (t : ℕ) (ht : t ∈ m.mTypes) : (m.typeInfo t).mName ≠ ns ++ [':',':'] ++ name := by
        simpa using List.find?_eq_none.mp hfull t ht
      rw [and_iff_right (.inr hno)]
      exact resolves_find_iff
    | some t =>
      -- a type with another short name
      have hmem := List.mem_of_find?_eq_some hfull
      have hname : (m.typeInfo t).mName = ns ++ [':',':'] ++ name := by
        simpa using List.find?_some hfull
      have hother : (m.typeInfo t).mName ≠ name := by
        intro heq
        have hlength := congrArg List.length (hname.symm.trans heq)
        simp only [List.length_append, List.length_cons] at hlength
        omega
      refine iff_of_false ?_ ?_
      · rintro (ht | ⟨ht,-⟩)
        · exact hother ht.name
        · exact hother ht.name
      · rintro ⟨hns | hno,-⟩
        · exact hempty hns
        · exact hno t hmem hname

/-- A type B in the namespace A, and in front of it a type B in the namespace C. -/
def twoNamespaces : TypeManager where
  mTypes := [0,1]
  typeInfo t := ⟨['B'],.TYPE_ENUM [],if t = 0 then ['C'] else ['A'],[]⟩
  classInfo _ := ⟨[],[],[],[],[]⟩

/-- The type of the unrelated namespace is found. -/
theorem findType_not_resolves :
    (∀ t ∈ twoNamespaces.mTypes, ∀ u ∈ twoNamespaces.mTypes,
      (twoNamespaces.typeInfo t).getFullName = (twoNamespaces.typeInfo u).getFullName → t = u) ∧
    ¬twoNamespaces.Resolves ['B'] ['A'] (twoNamespaces.findType ['B'] ['A']) := by
  refine ⟨by decide,?_⟩
  rw [show twoNamespaces.findType ['B'] ['A'] = some 0 by decide]
  rintro (hin | ⟨hglobal,-⟩)
  · exact absurd hin.ns (by decide)
  · exact absurd hglobal.ns (by decide)

end TypeManager

end JhCommon
