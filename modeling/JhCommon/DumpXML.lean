import JhCommon.DepthFirst
import JhCommon.Reflect
import JhCommon.TagNesting

/-! The text that `DumpXML.cpp` writes for the types of a file, and its tags. -/
namespace JhCommon
open DepthFirst TagNesting

/-- The types that an interface has nested in it. -/
def TypeManager.nested (m : TypeManager) (t : ℕ) : List ℕ :=
  match (m.typeInfo t).mType with
  | .TYPE_INTERFACE _ => m.findTypesByNamespace (m.typeInfo t).mName
  | _ => []

/-- A dumper for a file of a table whose types are nested to a finite depth. -/
structure DumpXML where
  mFilename : Str
  mTypes : TypeManager
  finite : WellFounded fun u t => u ∈ mTypes.nested t

namespace DumpXML

/-- One `fprintf` of a line, behind the indent. -/
def line (indent : ℕ) (s : Str) : Str := List.replicate indent '\t' ++ s ++ ['\n']

/-- A name between its tags. -/
def element (tag s : Str) : Str := mark tag ++ s ++ mark ('/' :: tag)

def getTypeName (d : DumpXML) (t : ℕ) : Str := (d.mTypes.typeInfo t).mName

def dumpStruct (d : DumpXML) (indent : ℕ) (type : TypeInfo) (c : ClassInfo) : Str :=
  line indent (mark "struct".toList) ++
    (line (indent+1) (element "name".toList type.mName) ++
      c.mFields.flatMap fun f => line (indent+1) (mark "field".toList ++
        (element "type".toList (d.getTypeName f.mType) ++ element "name".toList f.mName) ++
        mark "/field".toList)) ++
    line indent (mark "/struct".toList)

def dumpEnum (indent : ℕ) (type : TypeInfo) (elements : List Str) : Str :=
  -- the name stands in the line of the opening tag here
  line indent (mark "enum".toList ++ element "name".toList type.mName) ++
    (elements.flatMap fun v => line (indent+1) (element "element".toList v)) ++
    line indent (mark "/enum".toList)

def dumpAlias (d : DumpXML) (indent : ℕ) (type : TypeInfo) (a : ℕ) : Str :=
  -- no closing tag
  line indent (mark "alias".toList ++
    (element "type".toList (d.getTypeName a) ++ element "name".toList type.mName))

/-- What `dumpInterface` writes for a parameter. -/
def dumpParam (d : DumpXML) (indent : ℕ) (p : ParamInfo) : Str :=
  let opening := match p.mParamType with
    | .PARAM_IN => mark "param dir=\"in\"".toList
    | .PARAM_OUT => mark "param dir=\"out\"".toList
    | .PARAM_INOUT => mark "param dir=\"inout\"".toList
  line indent opening ++
    (line (indent+1) (element "type".toList (d.getTypeName p.mType)) ++
      line (indent+1) (element "name".toList p.mName)) ++
    line indent (mark "/param".toList)

/-- What `dumpInterface` writes for a method. -/
def dumpMethod (d : DumpXML) (indent : ℕ) (m : Method) : Str :=
  let method_type := if m.mAsync then "async".toList else "sync".toList
  let returnType := match m.mRetType with
    | some t => line (indent+1) (element "returnType".toList (d.getTypeName t))
    | none => []
  line indent (mark ("method type=\"".toList ++ method_type ++ ['"'])) ++
    (line (indent+1) (element "name".toList m.mName) ++ returnType ++
      m.mParamTypes.flatMap (d.dumpParam (indent+1))) ++
    line indent (mark "/method".toList)

/-- The last argument is what is written for the nested types. -/
def dumpInterface (d : DumpXML) (indent : ℕ) (type : TypeInfo) (c : ClassInfo) (types : Str) : Str :=
  let iid := if c.mIID ≠ [] then line (indent+1) (element "iid".toList c.mIID) else []
  line indent (mark "class".toList) ++
    (line (indent+1) (element "name".toList type.mName) ++
      -- a class has a name of its own, next to that of its type
      (c.mParents.flatMap fun p =>
        line (indent+1) (element "parent".toList (d.mTypes.classInfo p).mName)) ++
      iid ++ c.mMethods.flatMap (d.dumpMethod (indent+1)) ++ types) ++
    line indent (mark "/class".toList)

def dumpType (d : DumpXML) (indent : ℕ) (t : ℕ) : Str :=
  let type := d.mTypes.typeInfo t
  match type.mType with
  | .TYPE_STRUCT c => d.dumpStruct indent type (d.mTypes.classInfo c)
  | .TYPE_INTERFACE c => d.dumpInterface indent type (d.mTypes.classInfo c)
      ((d.mTypes.nested t).attach.flatMap fun u => d.dumpType (indent+1) u.1)
  | .TYPE_ENUM elements => dumpEnum indent type elements
  | .TYPE_ALIAS a => d.dumpAlias indent type a
  -- a line of text, without an indent
  | _ => "Type: ".toList ++ type.mName ++ ['\n']
termination_by d.finite.wrap t
decreasing_by exact u.2

/-- The types of the file that are not nested in others. -/
def roots (d : DumpXML) : List ℕ :=
  (d.mTypes.findTypesInFile d.mFilename).filter fun t => (d.mTypes.typeInfo t).mNamespace.length = 0

def dump (d : DumpXML) : Str := d.roots.flatMap (d.dumpType 0)

/-- The types that are written, with those that are nested in them. -/
def dumped (d : DumpXML) : List ℕ := d.roots.flatMap (preorder d.finite)

def isAlias (d : DumpXML) (t : ℕ) : Prop := ∃ a, (d.mTypes.typeInfo t).mType = .TYPE_ALIAS a

end DumpXML

/-- No name has characters of markup. -/
structure TypeManager.Unmarked (m : TypeManager) : Prop where
  types : ∀ t, Plain (m.typeInfo t).mName
  elements : ∀ t elements, (m.typeInfo t).mType = .TYPE_ENUM elements → ∀ v ∈ elements, Plain v
  classes : ∀ c, Plain (m.classInfo c).mName
  iids : ∀ c, Plain (m.classInfo c).mIID
  fields : ∀ c, ∀ f ∈ (m.classInfo c).mFields, Plain f.mName
  methods : ∀ c, ∀ x ∈ (m.classInfo c).mMethods, Plain x.mName
  params : ∀ c, ∀ x ∈ (m.classInfo c).mMethods, ∀ p ∈ x.mParamTypes, Plain p.mName

namespace DumpXML
variable {d : DumpXML} {indent t : ℕ} {s x content n : Str} {p : Prop}

instance (s : Str) : Decidable (Plain s) := List.decidableBAll (fun c => c ≠ '<' ∧ c ≠ '>') s

theorem plain_tabs (indent : ℕ) : Plain (List.replicate indent '\t') := by
  intro c hc
  rw [List.eq_of_mem_replicate hc]
  decide

theorem nests_line (h : Nests "alias".toList s p) : Nests "alias".toList (line indent s) p :=
  (Nests.append_left (.of_plain (plain_tabs indent)) h).append_right (.of_plain (by decide))

/-- What stands in a tag that opens an element, other than that of an alias. -/
def Opens (content tag : Str) : Prop :=
  Plain content ∧ tagOf content = .opening tag ∧ Plain tag ∧ tag ≠ "alias".toList

instance (content tag : Str) : Decidable (Opens content tag) :=
  inferInstanceAs (Decidable (_ ∧ _ ∧ _ ∧ _))

theorem nests_element {tag : Str} (h : Opens tag tag) (hs : Plain s) :
    Nests "alias".toList (element tag s) False :=
  .wrap h.1 h.2.1 h.1 h.2.2.2 (.of_plain hs)

/-- Lines between the line of an opening tag, with what else stands there, and that of the closing one. -/
theorem nests_block (h : Opens content n) (hx : Nests "alias".toList x False)
    (hs : Nests "alias".toList s p) :
    Nests "alias".toList (line indent (mark content ++ x) ++ s ++ line indent (mark ('/' :: n))) p := by
  have hinner : Nests "alias".toList (x ++ ['\n'] ++ s ++ List.replicate indent '\t') p :=
    ((hx.append_right (.of_plain (by decide))).append_left hs).append_right (.of_plain (plain_tabs indent))
  have hwrap := Nests.wrap h.1 h.2.1 h.2.2.1 h.2.2.2 hinner
  have htext : line indent (mark content ++ x) ++ s ++ line indent (mark ('/' :: n)) =
      List.replicate indent '\t' ++ (mark content ++ (x ++ ['\n'] ++ s ++ List.replicate indent '\t') ++
        mark ('/' :: n)) ++ ['\n'] := by
    simp only [line, List.append_assoc]
  rw [htext]
  exact (Nests.append_left (.of_plain (plain_tabs indent)) hwrap).append_right (.of_plain (by decide))

theorem nests_lines (h : Opens content n) (hs : Nests "alias".toList s p) :
    Nests "alias".toList (line indent (mark content) ++ s ++ line indent (mark ('/' :: n))) p := by
  have hblock : Nests "alias".toList
      (line indent (mark content ++ []) ++ s ++ line indent (mark ('/' :: n))) p := nests_block h .nil hs
  rwa [List.append_nil] at hblock

theorem dumpType_eq (indent t : ℕ) : d.dumpType indent t =
    match (d.mTypes.typeInfo t).mType with
    | .TYPE_STRUCT c => d.dumpStruct indent (d.mTypes.typeInfo t) (d.mTypes.classInfo c)
    | .TYPE_INTERFACE c => d.dumpInterface indent (d.mTypes.typeInfo t) (d.mTypes.classInfo c)
        ((d.mTypes.nested t).flatMap (d.dumpType (indent+1)))
    | .TYPE_ENUM elements => dumpEnum indent (d.mTypes.typeInfo t) elements
    | .TYPE_ALIAS a => d.dumpAlias indent (d.mTypes.typeInfo t) a
    | _ => "Type: ".toList ++ (d.mTypes.typeInfo t).mName ++ ['\n'] := by
  rw [dumpType]
  simp

/-- An alias is written for a type that is one, or that has one nested in it. -/
theorem alias_written_iff : (∃ u ∈ preorder d.finite t, d.isAlias u) ↔
    d.isAlias t ∨ ∃ u ∈ d.mTypes.nested t, ∃ v ∈ preorder d.finite u, d.isAlias v := by
  simp only [preorder_eq t, List.mem_cons, List.mem_flatMap]
  grind

theorem alias_not_written (hnested : d.mTypes.nested t = []) (h : ¬d.isAlias t) :
    ¬∃ u ∈ preorder d.finite t, d.isAlias u := by
  rw [alias_written_iff, hnested]
  simp [h]

section Unmarked
variable (hm : d.mTypes.Unmarked)
include hm

theorem nests_struct (indent t c : ℕ) :
    Nests "alias".toList (d.dumpStruct indent (d.mTypes.typeInfo t) (d.mTypes.classInfo c)) False := by
  refine nests_lines (n := "struct".toList) (by decide) ?_
  refine (nests_line (nests_element (by decide) (hm.types t))).append_right ?_
  apply Nests.flatMap_false
  intro f hf
  apply nests_line
  refine .wrap (n := "field".toList) (by decide) (by decide) (by decide) (by decide) ?_
  exact (nests_element (by decide) (hm.types f.mType)).append_right
    (nests_element (by decide) (hm.fields c f hf))

theorem nests_enum {elements : List Str} (ht : (d.mTypes.typeInfo t).mType = .TYPE_ENUM elements) (indent : ℕ) :
    Nests "alias".toList (dumpEnum indent (d.mTypes.typeInfo t) elements) False := by
  refine nests_block (n := "enum".toList) (by decide)
    (nests_element (by decide) (hm.types t)) ?_
  apply Nests.flatMap_false
  intro v hv
  exact nests_line (nests_element (by decide) (hm.elements t elements ht v hv))

theorem nests_alias (indent t a : ℕ) :
    Nests "alias".toList (d.dumpAlias indent (d.mTypes.typeInfo t) a) True := by
  apply nests_line
  apply Nests.unclosed_mark (by decide) (by decide)
  exact (nests_element (by decide) (hm.types a)).append_right
    (nests_element (by decide) (hm.types t))

theorem nests_param {c : ℕ} {x : Method} (hx : x ∈ (d.mTypes.classInfo c).mMethods) {q : ParamInfo}
    (hq : q ∈ x.mParamTypes) (indent : ℕ) : Nests "alias".toList (d.dumpParam indent q) False := by
  have hlines : Nests "alias".toList
      (line (indent+1) (element "type".toList (d.getTypeName q.mType)) ++
        line (indent+1) (element "name".toList q.mName)) False :=
    (nests_line (nests_element (by decide) (hm.types q.mType))).append_right
      (nests_line (nests_element (by decide) (hm.params c x hx q hq)))
  rw [dumpParam]
  cases q.mParamType with
  | PARAM_IN =>
    exact nests_lines (n := "param".toList) (by decide) hlines
  | PARAM_OUT =>
    exact nests_lines (n := "param".toList) (by decide) hlines
  | PARAM_INOUT =>
    exact nests_lines (n := "param".toList) (by decide) hlines

theorem nests_method {c : ℕ} {x : Method} (hx : x ∈ (d.mTypes.classInfo c).mMethods) (indent : ℕ) :
    Nests "alias".toList (d.dumpMethod indent x) False := by
  have hreturn : Nests "alias".toList (match x.mRetType with
      | some t => line (indent+1) (element "returnType".toList (d.getTypeName t))
      | none => []) False := by
    cases x.mRetType with
    | none => exact .nil
    | some t => exact nests_line (nests_element (by decide) (hm.types t))
  have hlines : Nests "alias".toList (line (indent+1) (element "name".toList x.mName) ++
      (match x.mRetType with
        | some t => line (indent+1) (element "returnType".toList (d.getTypeName t))
        | none => []) ++ x.mParamTypes.flatMap (d.dumpParam (indent+1))) False := by
    refine ((nests_line (nests_element (by decide) (hm.methods c x hx))).append_right
      hreturn).append_right ?_
    exact Nests.flatMap_false fun q hq => nests_param hm hx hq (indent+1)
  rw [dumpMethod]
  cases x.mAsync with
  | false => exact nests_lines (n := "method".toList) (by decide) hlines
  | true => exact nests_lines (n := "method".toList) (by decide) hlines

theorem nests_interface (indent t c : ℕ) (hs : Nests "alias".toList s p) :
    Nests "alias".toList
      (d.dumpInterface indent (d.mTypes.typeInfo t) (d.mTypes.classInfo c) s) p := by
  have hiid : Nests "alias".toList (if (d.mTypes.classInfo c).mIID ≠ [] then
      line (indent+1) (element "iid".toList (d.mTypes.classInfo c).mIID) else []) False := by
    split_ifs
    · exact nests_line (nests_element (by decide) (hm.iids c))
    · exact .nil
  refine nests_lines (n := "class".toList) (by decide) ?_
  refine Nests.append_left ?_ hs
  refine (((nests_line (nests_element (by decide) (hm.types t))).append_right
    ?_).append_right hiid).append_right ?_
  · apply Nests.flatMap_false
    intro q _
    exact nests_line (nests_element (by decide) (hm.classes q))
  · exact Nests.flatMap_false fun x hx => nests_method hm hx (indent+1)

/-- A type's text is properly nested but for the aliases that are written in it. -/
theorem nests_type (t indent : ℕ) :
    Nests "alias".toList (d.dumpType indent t) (∃ u ∈ preorder d.finite t, d.isAlias u) := by
  induction t using d.finite.induction generalizing indent with
  | _ t ih =>
    have hnested : ∀ u ∈ d.mTypes.nested t, Nests "alias".toList (d.dumpType (indent+1) u)
        (∃ v ∈ preorder d.finite u, d.isAlias v) := fun u hu => ih u hu (indent+1)
    -- a kind that nothing can be nested in
    have hnone (hempty : d.mTypes.nested t = []) (hself : ¬d.isAlias t) :
        False ↔ ∃ u ∈ preorder d.finite t, d.isAlias u :=
      iff_of_false id (alias_not_written hempty hself)
    rw [dumpType_eq]
    cases ht : (d.mTypes.typeInfo t).mType with
    | TYPE_STRUCT c =>
      exact (nests_struct hm indent t c).congr (hnone (by simp [TypeManager.nested, ht]) (by simp [isAlias, ht]))
    | TYPE_INTERFACE c =>
      have hself : ¬d.isAlias t := by simp [isAlias, ht]
      rw [alias_written_iff, or_iff_right hself]
      exact nests_interface hm indent t c (Nests.flatMap hnested)
    | TYPE_ENUM elements =>
      exact (nests_enum hm ht indent).congr (hnone (by simp [TypeManager.nested, ht]) (by simp [isAlias, ht]))
    | TYPE_ALIAS a =>
      exact (nests_alias hm indent t a).congr (iff_of_true trivial ⟨t,self_mem,a,ht⟩)
    | _ =>
      have hplain : Plain ("Type: ".toList ++ (d.mTypes.typeInfo t).mName ++ ['\n']) :=
        (Plain.append (by decide) (hm.types t)).append (by decide)
      exact (Nests.of_plain hplain).congr (hnone (by simp [TypeManager.nested, ht]) (by simp [isAlias, ht]))

theorem nests_dump : Nests "alias".toList d.dump (∃ t ∈ d.dumped, d.isAlias t) := by
  refine (Nests.flatMap fun t _ => nests_type hm t 0).congr ?_
  simp only [dumped, List.mem_flatMap]
  grind

end Unmarked

/-- The tags of a file are properly nested just when no alias is written. -/
theorem balanced_iff_no_alias (d : DumpXML) (hm : d.mTypes.Unmarked) :
    Balanced (tags d.dump) ↔ ∀ t ∈ d.dumped, ¬d.isAlias t := by
  rw [(nests_dump hm).iff_balanced]
  push Not
  exact Iff.rfl

/-- An interface I in a file i, with a structure S nested in it, and an alias A for it in a file a. -/
def twoFiles : TypeManager where
  mTypes := [0,1,2]
  typeInfo
    | 0 => ⟨['I'],.TYPE_INTERFACE 0,[],['i']⟩
    | 1 => ⟨['S'],.TYPE_STRUCT 1,['I'],['i']⟩
    | _ => ⟨['A'],.TYPE_ALIAS 0,[],['a']⟩
  classInfo
    | 0 => ⟨['I'],[],[⟨['f'],some 1,[⟨['x'],.PARAM_IN,0⟩],true⟩],[],['0']⟩
    | _ => ⟨['S'],[],[],[⟨['y'],0⟩],[]⟩

theorem twoFiles_nested {t u : ℕ} (h : u ∈ twoFiles.nested t) : t = 0 ∧ u = 1 := by
  rcases t with _ | _ | t
  · exact ⟨rfl,List.mem_singleton.mp h⟩
  · cases h
  · cases h

theorem twoFiles_unmarked : twoFiles.Unmarked := by
  constructor
  case types =>
    rintro (_ | _ | t)
    · decide
    · decide
    · exact (by decide : Plain ['A'])
  case elements =>
    rintro (_ | _ | t) elements ht
    · cases ht
    · cases ht
    · cases ht
  case classes =>
    rintro (_ | c)
    · decide
    · exact (by decide : Plain ['S'])
  case iids =>
    rintro (_ | c)
    · decide
    · exact (by decide : Plain [])
  case fields =>
    rintro (_ | c) f hf
    · cases hf
    · obtain rfl := List.mem_singleton.mp hf
      decide
  case methods =>
    rintro (_ | c) x hx
    · obtain rfl := List.mem_singleton.mp hx
      decide
    · cases hx
  case params =>
    rintro (_ | c) x hx q hq
    · obtain rfl := List.mem_singleton.mp hx
      obtain rfl := List.mem_singleton.mp hq
      decide
    · cases hx

def twoFilesDumper (mFilename : Str) : DumpXML where
  mFilename := mFilename
  mTypes := twoFiles
  finite := by
    have hone : Acc (fun u t => u ∈ twoFiles.nested t) 1 :=
      .intro 1 fun u hu => absurd (twoFiles_nested hu).1 one_ne_zero
    exact ⟨fun t => .intro t fun u hu => (twoFiles_nested hu).2 ▸ hone⟩

theorem balanced_iff_no_alias_interface :
    twoFiles.Unmarked ∧ Balanced (tags (twoFilesDumper ['i']).dump) := by
  refine ⟨twoFiles_unmarked,(balanced_iff_no_alias (twoFilesDumper ['i']) twoFiles_unmarked).mpr ?_⟩
  have hroots : (twoFilesDumper ['i']).roots = [0] := by decide
  intro t ht
  rw [dumped, hroots, List.flatMap_singleton, mem_preorder] at ht
  rintro ⟨a,ha⟩
  rcases ht with rfl | ⟨u,hu,ht⟩
  · cases ha
  · obtain rfl := (twoFiles_nested hu).2
    rcases mem_preorder.mp ht with rfl | ⟨v,hv,-⟩
    · cases ha
    · exact absurd (twoFiles_nested hv).1 one_ne_zero

/-- The alias is opened, and never closed. -/
theorem alias_not_balanced :
    twoFiles.Unmarked ∧ ¬Balanced (tags (twoFilesDumper ['a']).dump) := by
  refine ⟨twoFiles_unmarked,?_⟩
  rw [(nests_dump twoFiles_unmarked).iff_balanced, not_not]
  have hroots : (twoFilesDumper ['a']).roots = [2] := by decide
  rw [dumped, hroots, List.flatMap_singleton]
  exact ⟨2,self_mem,0,rfl⟩

end DumpXML

end JhCommon
