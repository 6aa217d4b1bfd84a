import JhCommon.DumpXML
import JhCommon.TinyXml
import JhCommon.TypeStore

/-! The loader of class files in `Reflect.cpp`, which reads what `DumpXML.cpp` writes. -/
namespace JhCommon
open DepthFirst TagNesting XmlText

/-- A string of what is given as a `const char *`. -/
def ofChars : Option Str → Exec Str
  | some s => .ok s
  | none => .error .nullDeref

namespace TinyXml
variable (x : TinyXml)

/-- One turn of the loop of `parseMethod`. The method is given up for what is not there. -/
def parseParam (tm : TypeStore) (param : x.Element) : Exec (Option ParamDecl) := do
  let dir ← ofChars (x.getAttribute param "dir".toList)
  let d : ParamType :=
    if dir = "in".toList then .PARAM_IN else if dir = "out".toList then .PARAM_OUT else .PARAM_INOUT
  match x.firstChildElement param "type".toList, x.firstChildElement param "name".toList with
  | some type, some name =>
    if dir = [] then .ok none
    else do
      let type_name ← ofChars (x.getText type)
      let param_name ← ofChars (x.getText name)
      .ok (some ⟨param_name,d,tm.findType type_name []⟩)
  | _, _ => .ok none

/-- The loop of `parseMethod`, over the elements that it visits. -/
def parseParams (tm : TypeStore) : List x.Element → Exec (Option (List ParamDecl))
  | [] => .ok (some [])
  | param :: rest => do
    match ← x.parseParam tm param with
    | none => .ok none
    | some p => do
      let ps ← parseParams tm rest
      .ok (ps.map fun ps => p :: ps)

/-- The return type in `parseMethod`. -/
def parseReturn (tm : TypeStore) (method : x.Element) : Exec (Option ℕ) :=
  match x.firstChildElement method "returnType".toList with
  | none => .ok none
  | some ret => do
    let ret_name ← ofChars (x.getText ret)
    .ok (tm.findType ret_name [])

def parseMethod (tm : TypeStore) (method : x.Element) : Exec (Option MethodDecl) :=
  match x.firstChildElement method "name".toList with
  | none => .ok none
  | some name => do
    let method_name ← ofChars (x.getText name)
    let ret_type ← x.parseReturn tm method
    let async ← ofChars (x.getAttribute method "type".toList)
    let param := x.firstChildElement method "param".toList
    let params ← x.parseParams tm (x.siblings (some "param".toList) param)
    .ok (params.map fun ps => ⟨method_name,ret_type,ps,async = "async".toList⟩)

/-- The methods of a class, without those that are given up. -/
def parseMethods (tm : TypeStore) : List x.Element → Exec (List MethodDecl)
  | [] => .ok []
  | method :: rest => do
    let m ← x.parseMethod tm method
    let ms ← parseMethods tm rest
    .ok (m.toList ++ ms)

/-- The identifier in `parseClass`. -/
def parseIID (ci : ℕ) (tm : TypeStore) (node : x.Element) : Exec TypeStore :=
  match x.firstChildElement node "iid".toList with
  | none => .ok tm
  | some iid => do
    let str ← ofChars (x.getText iid)
    .ok (tm.setClass ci fun c => { c with mIID := str })

/-- `parseClass`. The parents are passed over. -/
def parseClass (tm : TypeStore) (node : x.Element) : Exec (Option ℕ × TypeStore) :=
  match x.firstChildElement node "name".toList with
  | none => .ok (none,tm)
  | some name => do
    let class_name ← ofChars (x.getText name)
    let (ci,tm) := tm.newClass class_name
    let (ti,tm) := tm.newType class_name (.TYPE_INTERFACE ci)
    let tm ← x.parseIID ci tm node
    let method := x.firstChildElement node "method".toList
    let methods ← x.parseMethods tm (x.siblings (some "method".toList) method)
    .ok (some ti,tm.setClass ci fun c => methods.foldl ClassDecl.addMethod c)

/-- The loop over the elements of a document. All but classes are passed over. -/
def loadElements : List x.Element → TypeStore → Exec TypeStore
  | [], tm => .ok tm
  | n :: rest, tm =>
    if x.valueStr n = "class".toList then do
      let (ti,tm) ← x.parseClass tm n
      loadElements rest (match ti with
        | some ti => tm.addType ti
        | none => tm)
    else loadElements rest tm

/-- `loadClassInfo` of a file with the text. -/
def loadClassInfo (tm : TypeStore) (text : Str) : Exec TypeStore :=
  x.loadElements (x.siblings none (x.rootElement text)) tm

end TinyXml

/-- A text that stands in front of a document's has these elements in front of the document's. -/
def Piece (es : List XmlElement) (s : Str) : Prop :=
  ∀ nodes rest, Renders nodes rest → ∃ f, Renders f (s ++ rest) ∧ elements f = es ++ elements nodes

section Pieces
variable {es es' : List XmlElement} {s s' tag : Str}

theorem Piece.nil : Piece [] [] := fun nodes _ h => ⟨nodes,h,rfl⟩

theorem Piece.append (h : Piece es s) (h' : Piece es' s') : Piece (es ++ es') (s ++ s') := by
  intro nodes rest hrest
  obtain ⟨f',hf',helements'⟩ := h' nodes rest hrest
  obtain ⟨f,hf,helements⟩ := h f' _ hf'
  refine ⟨f,?_,?_⟩
  · rw [List.append_assoc]
    exact hf
  · rw [helements, helements', List.append_assoc]

/-- One element for each of a list. -/
theorem Piece.flatMap {α : Type*} {R : α → XmlElement → Prop} {text : α → Str} {l : List α}
    (h : ∀ a ∈ l, ∃ e, Piece [e] (text a) ∧ R a e) :
    ∃ es, Piece es (l.flatMap text) ∧ List.Forall₂ R l es := by
  induction l with
  | nil => exact ⟨[],.nil,.nil⟩
  | cons a l ih =>
    obtain ⟨e,he,hr⟩ := h a List.mem_cons_self
    obtain ⟨es,hes,hrs⟩ := ih fun b hb => h b (List.mem_cons_of_mem a hb)
    exact ⟨e :: es,he.append hes,.cons hr hrs⟩

theorem eq_map_of_forall₂ {α β : Type*} {f : α → β} {l : List α} {bs : List β}
    (h : List.Forall₂ (fun a b => b = f a) l bs) : bs = l.map f := by
  induction h with
  | nil => rfl
  | cons hab _ ih => rw [hab, ih, List.map_cons]

theorem forall_of_forall₂ {α β : Type*} {R : α → β → Prop} {P : β → Prop} {l : List α} {bs : List β}
    (h : List.Forall₂ R l bs) (hP : ∀ a b, R a b → P b) : ∀ b ∈ bs, P b := by
  intro b hb
  obtain ⟨i,hi,rfl⟩ := List.getElem_of_mem hb
  obtain ⟨hlen,hget⟩ := List.forall₂_iff_get.mp h
  exact hP _ _ (hget i (hlen ▸ hi) hi)

theorem blank_tabs (indent : ℕ) : Blank (List.replicate indent '\t') := by
  intro c hc
  rw [List.eq_of_mem_replicate hc]
  decide

/-- White space around a piece. -/
theorem Piece.surround {v w : Str} (h : Piece es s) (hv : Blank v) (hw : Blank w) :
    Piece es (v ++ s ++ w) := by
  intro nodes rest hrest
  obtain ⟨f,hf,helements⟩ := h nodes _ (hrest.blank hw)
  refine ⟨f,?_,helements⟩
  rw [List.append_assoc, List.append_assoc]
  exact hf.blank hv

theorem Piece.line (h : Piece es s) (indent : ℕ) : Piece es (DumpXML.line indent s) :=
  h.surround (blank_tabs indent) (by decide)

theorem piece_leaf (tag : Str) (htag : IsName tag) (hs : IsContent s) :
    Piece [⟨tag,[],.text s .none⟩] (DumpXML.element tag s) := by
  intro nodes rest hrest
  have hwritten : Written tag [] := ⟨htag,by simp,List.nodup_nil⟩
  refine ⟨.element tag [] (.text s .none) nodes,?_,rfl⟩
  have hleaf := Renders.leaf (w := []) (by simp [Blank]) hwritten hs hrest
  simpa [DumpXML.element, opening] using hleaf

/-- What stands between two tags are the children of an element. -/
theorem Piece.element {attributes : List (Str × Str)} (h : Piece es s)
    (hwritten : Written tag attributes) : ∃ children, elements children = es ∧
      Piece [⟨tag,attributes,children⟩] (mark (opening tag attributes) ++ s ++ mark ('/' :: tag)) := by
  obtain ⟨children,hchildren,helements⟩ := h .none [] (.none (by simp [Blank]))
  rw [List.append_nil] at hchildren
  refine ⟨children,by simpa [elements] using helements,?_⟩
  intro nodes rest hrest
  refine ⟨.element tag attributes children nodes,?_,rfl⟩
  have helement := Renders.element (w := []) (by simp [Blank]) hwritten hchildren hrest
  simpa using helement

/-- The lines of an element, with what stands in the first one behind the tag. -/
theorem Piece.block {attributes : List (Str × Str)} (h : Piece es s) (h' : Piece es' s')
    (hwritten : Written tag attributes) (indent : ℕ) : ∃ children, elements children = es ++ es' ∧
      Piece [⟨tag,attributes,children⟩] (DumpXML.line indent (mark (opening tag attributes) ++ s) ++ s' ++
        DumpXML.line indent (mark ('/' :: tag))) := by
  have hnewline : Blank ['\n'] := by decide
  have hnone : Blank [] := by simp [Blank]
  have hinner := (h.surround hnone hnewline).append (h'.surround hnone (blank_tabs indent))
  obtain ⟨children,hchildren,hpiece⟩ := hinner.element hwritten
  refine ⟨children,hchildren,?_⟩
  have hline := hpiece.line indent
  simpa [DumpXML.line] using hline

theorem Piece.lines {attributes : List (Str × Str)} (h : Piece es s)
    (hwritten : Written tag attributes) (indent : ℕ) : ∃ children, elements children = es ∧
      Piece [⟨tag,attributes,children⟩] (DumpXML.line indent (mark (opening tag attributes)) ++ s ++
        DumpXML.line indent (mark ('/' :: tag))) := by
  have hblock := Piece.block .nil h hwritten indent
  simpa using hblock

end Pieces

/-- An element that a name is written in. -/
def leaf (tag s : Str) : XmlElement := ⟨tag,[],.text s .none⟩

def dirText : ParamType → Str
  | .PARAM_IN => "in".toList
  | .PARAM_OUT => "out".toList
  | .PARAM_INOUT => "inout".toList

def typeText (async : Bool) : Str := if async then "async".toList else "sync".toList

/-- What the loader sees of a parameter, a method, and a class. -/
structure IsParam (d : DumpXML) (p : ParamInfo) (e : XmlElement) : Prop where
  value : e.value = "param".toList
  attributes : e.attributes = [("dir".toList,dirText p.mParamType)]
  children : elements e.children =
    [leaf "type".toList (d.getTypeName p.mType),leaf "name".toList p.mName]

structure IsMethod (d : DumpXML) (m : Method) (e : XmlElement) : Prop where
  value : e.value = "method".toList
  attributes : e.attributes = [("type".toList,typeText m.mAsync)]
  children : ∃ params, elements e.children = leaf "name".toList m.mName ::
      ((m.mRetType.map fun t => leaf "returnType".toList (d.getTypeName t)).toList ++ params) ∧
    List.Forall₂ (IsParam d) m.mParamTypes params

/-- The types that are nested in a class do not look like methods. -/
structure IsClass (d : DumpXML) (name : Str) (c : ClassInfo) (e : XmlElement) : Prop where
  value : e.value = "class".toList
  children : ∃ methods nested, elements e.children = leaf "name".toList name ::
      (c.mParents.map (fun p => leaf "parent".toList (d.mTypes.classInfo p).mName) ++
        ((if c.mIID ≠ [] then [leaf "iid".toList c.mIID] else []) ++ (methods ++ nested))) ∧
    List.Forall₂ (IsMethod d) c.mMethods methods ∧
    ∀ e' ∈ nested, e'.value ∈ ["class".toList,"struct".toList,"enum".toList]

/-- What an element of a type is: a class for an interface. -/
def IsType (d : DumpXML) (t : ℕ) (e : XmlElement) : Prop :=
  match (d.mTypes.typeInfo t).mType with
  | .TYPE_INTERFACE c => IsClass d (d.mTypes.typeInfo t).mName (d.mTypes.classInfo c) e
  | _ => e.value = "struct".toList ∨ e.value = "enum".toList

namespace DumpXML

/-- The names of a method can be written as they are. -/
structure WritableMethod (d : DumpXML) (m : Method) : Prop where
  name : IsContent m.mName
  ret : ∀ t ∈ m.mRetType, IsContent (d.getTypeName t)
  params : ∀ p ∈ m.mParamTypes, IsContent (d.getTypeName p.mType) ∧ IsContent p.mName

/-- A type that is written as an element, with names that can be written as they are. An alias is not. -/
def Writable (d : DumpXML) (t : ℕ) : Prop :=
  IsContent (d.mTypes.typeInfo t).mName ∧
    match (d.mTypes.typeInfo t).mType with
    | .TYPE_STRUCT c => ∀ f ∈ (d.mTypes.classInfo c).mFields,
        IsContent (d.getTypeName f.mType) ∧ IsContent f.mName
    | .TYPE_INTERFACE c => (∀ p ∈ (d.mTypes.classInfo c).mParents, IsContent (d.mTypes.classInfo p).mName) ∧
        ((d.mTypes.classInfo c).mIID ≠ [] → IsContent (d.mTypes.classInfo c).mIID) ∧
        ∀ m ∈ (d.mTypes.classInfo c).mMethods, d.WritableMethod m
    | .TYPE_ENUM elements => ∀ v ∈ elements, IsContent v
    | _ => False

variable {d : DumpXML} {t : ℕ}

/-- A line with a name between its tags. -/
theorem piece_name (tag : Str) {s : Str} (htag : IsName tag) (hs : IsContent s) (indent : ℕ) :
    Piece [leaf tag s] (line indent (element tag s)) :=
  (piece_leaf tag htag hs).line indent

theorem written_none (tag : Str) (h : IsName tag) : Written tag [] := ⟨h,by simp,List.nodup_nil⟩

theorem opening_none (tag : Str) : opening tag [] = tag := List.append_nil tag

theorem written_dir (x : ParamType) : Written "param".toList [("dir".toList,dirText x)] := by
  refine ⟨by decide,?_,List.nodup_singleton _⟩
  intro a ha
  obtain rfl := List.mem_singleton.mp ha
  refine ⟨(by decide : IsName "dir".toList),?_⟩
  cases x <;> decide

theorem written_type (async : Bool) : Written "method".toList [("type".toList,typeText async)] := by
  refine ⟨by decide,?_,List.nodup_singleton _⟩
  intro a ha
  obtain rfl := List.mem_singleton.mp ha
  refine ⟨(by decide : IsName "type".toList),?_⟩
  cases async <;> decide

theorem piece_param {p : ParamInfo} (htype : IsContent (d.getTypeName p.mType))
    (hname : IsContent p.mName) (indent : ℕ) :
    ∃ e, Piece [e] (d.dumpParam indent p) ∧ IsParam d p e := by
  have hinner := (piece_name "type".toList (by decide) htype (indent+1)).append
    (piece_name "name".toList (by decide) hname (indent+1))
  obtain ⟨children,hchildren,hpiece⟩ := hinner.lines (written_dir p.mParamType) indent
  refine ⟨⟨"param".toList,_,children⟩,?_,rfl,rfl,hchildren⟩
  have htext : d.dumpParam indent p =
      line indent (mark (opening "param".toList [("dir".toList,dirText p.mParamType)])) ++
        (line (indent+1) (element "type".toList (d.getTypeName p.mType)) ++
          line (indent+1) (element "name".toList p.mName)) ++
        line indent (mark ('/' :: "param".toList)) := by
    rw [dumpParam]
    cases p.mParamType <;> rfl
  rw [htext]
  exact hpiece

theorem piece_method {m : Method} (h : d.WritableMethod m) (indent : ℕ) :
    ∃ e, Piece [e] (d.dumpMethod indent m) ∧ IsMethod d m e := by
  obtain ⟨params,hparams,hall⟩ := Piece.flatMap (R := IsParam d) fun p hp =>
    piece_param (h.params p hp).1 (h.params p hp).2 (indent+1)
  have hname := piece_name "name".toList (by decide) h.name (indent+1)
  have hret : Piece (m.mRetType.map fun t => leaf "returnType".toList (d.getTypeName t)).toList
      (match m.mRetType with
        | some t => line (indent+1) (element "returnType".toList (d.getTypeName t))
        | none => []) := by
    have hret := h.ret
    cases hr : m.mRetType with
    | none => exact .nil
    | some t => exact piece_name "returnType".toList (by decide) (hret t hr) (indent+1)
  have hinner := (hname.append hret).append hparams
  obtain ⟨children,hchildren,hpiece⟩ := hinner.lines (written_type m.mAsync) indent
  refine ⟨⟨"method".toList,_,children⟩,?_,rfl,rfl,params,?_,hall⟩
  · have htext : mark (opening "method".toList [("type".toList,typeText m.mAsync)]) =
        mark ("method type=\"".toList ++ (if m.mAsync then "async".toList else "sync".toList) ++ ['"']) := by
      cases m.mAsync <;> rfl
    rw [htext] at hpiece
    exact hpiece
  · rw [hchildren, List.append_assoc]
    rfl

theorem piece_struct {c : ℕ} (hname : IsContent (d.mTypes.typeInfo t).mName)
    (hfields : ∀ f ∈ (d.mTypes.classInfo c).mFields,
      IsContent (d.getTypeName f.mType) ∧ IsContent f.mName) (indent : ℕ) :
    ∃ e, Piece [e] (d.dumpStruct indent (d.mTypes.typeInfo t) (d.mTypes.classInfo c)) ∧
      e.value = "struct".toList := by
  obtain ⟨fields,hpieces,-⟩ := Piece.flatMap (R := fun _ _ => True) fun f hf => by
    have hinner := (piece_leaf "type".toList (by decide) (hfields f hf).1).append
      (piece_leaf "name".toList (by decide) (hfields f hf).2)
    obtain ⟨children,-,hpiece⟩ := hinner.element (written_none "field".toList (by decide))
    rw [opening_none] at hpiece
    exact ⟨_,hpiece.line (indent+1),trivial⟩
  have hinner := (piece_name "name".toList (by decide) hname (indent+1)).append hpieces
  obtain ⟨children,-,hpiece⟩ := hinner.lines
    (written_none "struct".toList (by decide)) indent
  rw [opening_none] at hpiece
  exact ⟨_,hpiece,rfl⟩

theorem piece_enum {values : List Str} (hname : IsContent (d.mTypes.typeInfo t).mName)
    (hvalues : ∀ v ∈ values, IsContent v) (indent : ℕ) :
    ∃ e, Piece [e] (dumpEnum indent (d.mTypes.typeInfo t) values) ∧ e.value = "enum".toList := by
  obtain ⟨es,hpieces,-⟩ := Piece.flatMap (R := fun _ _ => True) fun v hv =>
    ⟨_,piece_name "element".toList (by decide) (hvalues v hv) (indent+1),trivial⟩
  obtain ⟨children,-,hpiece⟩ := (piece_leaf "name".toList (by decide) hname).block hpieces
    (written_none "enum".toList (by decide)) indent
  rw [opening_none] at hpiece
  exact ⟨_,hpiece,rfl⟩

/-- Between the names of a class and the end of it there are its methods and what is nested in it. -/
theorem piece_interface {c : ℕ} {types : Str} {nested : List XmlElement}
    (hname : IsContent (d.mTypes.typeInfo t).mName)
    (hparents : ∀ p ∈ (d.mTypes.classInfo c).mParents, IsContent (d.mTypes.classInfo p).mName)
    (hiid : (d.mTypes.classInfo c).mIID ≠ [] → IsContent (d.mTypes.classInfo c).mIID)
    (hmethods : ∀ m ∈ (d.mTypes.classInfo c).mMethods, d.WritableMethod m)
    (htypes : Piece nested types)
    (hnested : ∀ e ∈ nested, e.value ∈ ["class".toList,"struct".toList,"enum".toList]) (indent : ℕ) :
    ∃ e, Piece [e] (d.dumpInterface indent (d.mTypes.typeInfo t) (d.mTypes.classInfo c) types) ∧
      IsClass d (d.mTypes.typeInfo t).mName (d.mTypes.classInfo c) e := by
  obtain ⟨methods,hmethodPieces,hall⟩ := Piece.flatMap (R := IsMethod d) fun m hm =>
    piece_method (hmethods m hm) (indent+1)
  obtain ⟨parents,hparentPieces,hparentAll⟩ := Piece.flatMap
    (R := fun p e => e = leaf "parent".toList (d.mTypes.classInfo p).mName) fun p hp =>
      ⟨_,piece_name "parent".toList (by decide) (hparents p hp) (indent+1),rfl⟩
  have hparentList : parents =
      (d.mTypes.classInfo c).mParents.map fun p => leaf "parent".toList (d.mTypes.classInfo p).mName :=
    eq_map_of_forall₂ hparentAll
  have hiidPiece : Piece
      (if (d.mTypes.classInfo c).mIID ≠ [] then [leaf "iid".toList (d.mTypes.classInfo c).mIID] else [])
      (if (d.mTypes.classInfo c).mIID ≠ [] then
        line (indent+1) (element "iid".toList (d.mTypes.classInfo c).mIID) else []) := by
    split_ifs with h
    · exact piece_name "iid".toList (by decide) (hiid h) (indent+1)
    · exact .nil
  have hinner := ((((piece_name "name".toList (by decide) hname (indent+1)).append
    hparentPieces).append hiidPiece).append hmethodPieces).append htypes
  obtain ⟨children,hchildren,hpiece⟩ := hinner.lines
    (written_none "class".toList (by decide)) indent
  rw [opening_none] at hpiece
  refine ⟨_,hpiece,rfl,methods,nested,?_,hall,hnested⟩
  rw [hchildren, hparentList]
  simp only [List.append_assoc]
  rfl

theorem IsType.value {e : XmlElement} (h : IsType d t e) :
    e.value ∈ ["class".toList,"struct".toList,"enum".toList] := by
  unfold IsType at h
  split at h
  · simp [h.value]
  · rcases h with h | h <;> simp [h]

/-- A type is written as one element, which says what the type is. -/
theorem piece_type (h : ∀ u ∈ preorder d.finite t, d.Writable u) (indent : ℕ) :
    ∃ e, Piece [e] (d.dumpType indent t) ∧ IsType d t e := by
  induction t using d.finite.induction generalizing indent with
  | _ t ih =>
    obtain ⟨hname,hkind⟩ := h t self_mem
    rw [dumpType_eq]
    unfold IsType
    cases ht : (d.mTypes.typeInfo t).mType with
    | TYPE_STRUCT c =>
      rw [ht] at hkind
      obtain ⟨e,hpiece,hvalue⟩ := piece_struct hname hkind indent
      exact ⟨e,hpiece,.inl hvalue⟩
    | TYPE_ENUM values =>
      rw [ht] at hkind
      obtain ⟨e,hpiece,hvalue⟩ := piece_enum hname hkind indent
      exact ⟨e,hpiece,.inr hvalue⟩
    | TYPE_INTERFACE c =>
      rw [ht] at hkind
      obtain ⟨hparents,hiid,hmethods⟩ := hkind
      obtain ⟨nested,hpieces,hall⟩ := Piece.flatMap (R := IsType d) fun u hu =>
        ih u hu (fun v hv => h v (mem_of_next hu hv)) (indent+1)
      apply piece_interface hname hparents hiid hmethods hpieces
      exact forall_of_forall₂ hall fun u e hue => IsType.value hue
    | _ =>
      rw [ht] at hkind
      exact hkind.elim

end DumpXML

namespace TypeStore

/-- What is loaded for a parameter and for a method: their types are looked up by name. -/
def restoreParam (s : TypeStore) (d : DumpXML) (p : ParamInfo) : ParamDecl :=
  ⟨p.mName,p.mParamType,s.findType (d.getTypeName p.mType) []⟩

def restoreMethod (s : TypeStore) (d : DumpXML) (m : Method) : MethodDecl :=
  ⟨m.mName,m.mRetType.bind fun t => s.findType (d.getTypeName t) [],
    m.mParamTypes.map (s.restoreParam d),m.mAsync⟩

/-- What is loaded for a class: a type of its name, without parents, fields, namespace and file. -/
def restoreClass (s : TypeStore) (d : DumpXML) (name : Str) (c : ClassInfo) : TypeStore where
  mTypes := s.mTypes ++ [s.types.length]
  types := s.types ++ [⟨name,.TYPE_INTERFACE s.classes.length,[],[]⟩]
  classes := s.classes ++ [⟨name,false,[],c.mMethods.map (s.restoreMethod d),[],c.mIID⟩]

/-- What is loaded for a type. -/
def restoreType (d : DumpXML) (s : TypeStore) (t : ℕ) : TypeStore :=
  match (d.mTypes.typeInfo t).mType with
  | .TYPE_INTERFACE c => s.restoreClass d (d.mTypes.typeInfo t).mName (d.mTypes.classInfo c)
  | _ => s

/-- The types of the table have been made. -/
def Made (s : TypeStore) : Prop := ∀ t ∈ s.mTypes, t < s.types.length

variable {s : TypeStore} {d : DumpXML}

theorem findType_congr {s' : TypeStore} (hsame : s'.mTypes = s.mTypes)
    (hinfo : ∀ t ∈ s.mTypes, s'.typeInfo t = s.typeInfo t) (name ns : Str) :
    s'.findType name ns = s.findType name ns := by
  have hfind (n : Str) : (s'.mTypes.find? fun t => (s'.typeInfo t).mName = n) =
      s.mTypes.find? fun t => (s.typeInfo t).mName = n := by
    rw [hsame]
    exact List.find?_congr fun t ht => by rw [hinfo t ht]
  unfold findType TypeManager.findType manager
  dsimp only
  rw [hfind, hfind]

/-- What is loaded depends on what is found. -/
theorem restoreMethod_congr {s' : TypeStore} (h : ∀ name, s'.findType name [] = s.findType name [])
    (m : Method) : s'.restoreMethod d m = s.restoreMethod d m := by
  have hparam : s'.restoreParam d = s.restoreParam d := by
    funext p
    rw [restoreParam, h, restoreParam]
  simp only [restoreMethod, hparam, h]

/-- A type that is made and not in the table yet is not found. -/
theorem findType_append (hs : s.Made) (types : List TypeInfo) (classes : List ClassDecl)
    (name ns : Str) :
    (⟨s.mTypes,s.types ++ types,classes⟩ : TypeStore).findType name ns = s.findType name ns := by
  have hsame : (⟨s.mTypes,s.types ++ types,classes⟩ : TypeStore).mTypes = s.mTypes := rfl
  refine findType_congr hsame ?_ name ns
  intro t ht
  simp only [typeInfo, List.getD_eq_getElem?_getD, List.getElem?_append_left (hs t ht)]

theorem made_restoreType (hs : s.Made) (d : DumpXML) (t : ℕ) : (restoreType d s t).Made := by
  unfold restoreType
  split
  · intro u hu
    rw [restoreClass, List.length_append, List.length_singleton]
    rcases List.mem_append.mp hu with hu | hu
    · exact (hs u hu).trans (Nat.lt_succ_self _)
    · rw [List.mem_singleton.mp hu]
      exact Nat.lt_succ_self _
  · exact hs

end TypeStore

section Loading
variable {x : TinyXml} {s : TypeStore} {d : DumpXML} {n : XmlElement} {e : x.Element}

theorem firstChild_head {ns : List XmlElement} {c : XmlElement} {name : Str}
    (h : elements n.children = c :: ns) (hc : c.value = name) : n.firstChild name = some c := by
  rw [XmlElement.firstChild, h, List.find?_cons_of_pos (by simpa using hc)]

/-- A name that is written in an element is read there. -/
theorem getText_leaf (hat : x.At e n) {name tag text : Str} (h : n.firstChild name = some (leaf tag text)) :
    ∃ f, x.firstChildElement e name = some f ∧ ofChars (x.getText f) = .ok text := by
  have hrel := hat.first_child name
  rw [h] at hrel
  cases hfirst : x.firstChildElement e name with
  | none =>
    rw [hfirst] at hrel
    cases hrel
  | some f =>
    rw [hfirst] at hrel
    cases hrel with
    | some hf => exact ⟨f,rfl,by rw [hf.text]; rfl⟩

theorem firstChild_none (hat : x.At e n) {name : Str} (h : n.firstChild name = none) :
    x.firstChildElement e name = none := by
  have hrel := hat.first_child name
  rw [h] at hrel
  cases hfirst : x.firstChildElement e name with
  | none => rfl
  | some f =>
    rw [hfirst] at hrel
    cases hrel

theorem getAttribute_single (hat : x.At e n) {name value : Str} (h : n.attributes = [(name,value)]) :
    ofChars (x.getAttribute e name) = .ok value := by
  rw [hat.attributes, h, List.find?_cons_of_pos (by simp)]
  rfl

/-- What a loop over the children of a name sees, behind children of other names. -/
theorem find_skip {cs es : List XmlElement} {name : Str} (h : ∀ c ∈ cs, c.value ≠ name) :
    (cs ++ es).find? (fun c => c.value = name) = es.find? fun c => c.value = name := by
  rw [List.find?_append, List.find?_eq_none.mpr fun c hc => by simpa using h c hc, Option.none_or]

theorem filter_skip {cs es : List XmlElement} {name : Str} (h : ∀ c ∈ cs, c.value ≠ name) :
    (cs ++ es).filter (fun c => c.value = name) = es.filter fun c => c.value = name := by
  rw [List.filter_append, List.filter_eq_nil_iff.mpr fun c hc => by simpa using h c hc,
    List.nil_append]

theorem parseParam_eq {p : ParamInfo} (h : IsParam d p n) (hat : x.At e n) (s : TypeStore) :
    x.parseParam s e = .ok (some (s.restoreParam d p)) := by
  have htype : n.firstChild "type".toList = some (leaf "type".toList (d.getTypeName p.mType)) :=
    firstChild_head h.children rfl
  have hname : n.firstChild "name".toList = some (leaf "name".toList p.mName) := by
    rw [XmlElement.firstChild, h.children, List.find?_cons_of_neg, List.find?_cons_of_pos]
    · exact decide_eq_true rfl
    · exact (by decide : ¬decide ("type".toList = "name".toList))
  have hdir : (if dirText p.mParamType = "in".toList then ParamType.PARAM_IN
      else if dirText p.mParamType = "out".toList then .PARAM_OUT else .PARAM_INOUT) =
      p.mParamType := by
    cases p.mParamType <;> decide
  have hne : dirText p.mParamType ≠ [] := by
    cases p.mParamType <;> decide
  obtain ⟨type,htypeAt,htypeText⟩ := getText_leaf hat htype
  obtain ⟨name,hnameAt,hnameText⟩ := getText_leaf hat hname
  unfold TinyXml.parseParam
  rw [getAttribute_single hat h.attributes, ok_bind, htypeAt, hnameAt]
  dsimp only
  rw [hdir, if_neg hne, htypeText, ok_bind, hnameText]
  rfl

theorem parseParams_eq {ps : List ParamInfo} {ns : List XmlElement} {es : List x.Element}
    (h : List.Forall₂ (IsParam d) ps ns) (hat : List.Forall₂ x.At es ns) (s : TypeStore) :
    x.parseParams s es = .ok (some (ps.map (s.restoreParam d))) := by
  induction h generalizing es with
  | nil =>
    cases hat
    rfl
  | cons hp _ ih =>
    cases hat with
    | cons he hes =>
      rw [TinyXml.parseParams, parseParam_eq hp he, ok_bind]
      dsimp only
      rw [ih hes, ok_bind, Option.map_some, List.map_cons]

theorem parseMethod_eq {m : Method} (h : IsMethod d m n) (hat : x.At e n) (s : TypeStore) :
    x.parseMethod s e = .ok (some (s.restoreMethod d m)) := by
  obtain ⟨params,hchildren,hall⟩ := h.children
  have hname : n.firstChild "name".toList = some (leaf "name".toList m.mName) :=
    firstChild_head hchildren rfl
  have hparamValues : ∀ c ∈ params, c.value = "param".toList :=
    forall_of_forall₂ hall fun p c hc => hc.value
  -- neither the name nor the return type is a parameter, and no parameter is a return type
  have hothers : ∀ c ∈ leaf "name".toList m.mName :: (m.mRetType.map fun t =>
      leaf "returnType".toList (d.getTypeName t)).toList, c.value ≠ "param".toList := by
    intro c hc
    rcases List.mem_cons.mp hc with rfl | hc
    · exact (by decide : "name".toList ≠ "param".toList)
    · obtain ⟨t,-,rfl⟩ := Option.map_eq_some_iff.mp (Option.mem_toList.mp hc)
      exact (by decide : "returnType".toList ≠ "param".toList)
  have hparams : n.childrenNamed "param".toList = params := by
    rw [XmlElement.childrenNamed, hchildren, ← List.cons_append, filter_skip hothers]
    exact List.filter_eq_self.mpr fun c hc => decide_eq_true (hparamValues c hc)
  have hreturn : x.parseReturn s e = .ok (m.mRetType.bind fun t => s.findType (d.getTypeName t) []) := by
    have hskip : n.firstChild "returnType".toList =
        m.mRetType.map fun t => leaf "returnType".toList (d.getTypeName t) := by
      rw [XmlElement.firstChild, hchildren, List.find?_cons_of_neg]
      · cases m.mRetType with
        | none =>
          apply List.find?_eq_none.mpr
          intro c hc
          rw [hparamValues c hc]
          decide
        | some t => exact List.find?_cons_of_pos (decide_eq_true rfl)
      · exact (by decide : ¬decide ("name".toList = "returnType".toList))
    unfold TinyXml.parseReturn
    cases hret : m.mRetType with
    | none => rw [firstChild_none hat (by rw [hskip, hret]; rfl)]; rfl
    | some t =>
      obtain ⟨f,hfirst,htext⟩ := getText_leaf hat (hskip.trans (by rw [hret, Option.map_some]))
      rw [hfirst]
      dsimp only
      rw [htext]
      rfl
  have hasync : decide (typeText m.mAsync = "async".toList) = m.mAsync := by
    cases m.mAsync <;> decide
  have hvisited := hat.children_named "param".toList
  rw [hparams] at hvisited
  obtain ⟨name,hnameAt,hnameText⟩ := getText_leaf hat hname
  unfold TinyXml.parseMethod
  rw [hnameAt]
  dsimp only
  rw [hnameText, ok_bind, hreturn, ok_bind, getAttribute_single hat h.attributes, ok_bind,
    parseParams_eq hall hvisited, ok_bind, Option.map_some, hasync]
  rfl

theorem parseMethods_eq {ms : List Method} {ns : List XmlElement} {es : List x.Element}
    (h : List.Forall₂ (IsMethod d) ms ns) (hat : List.Forall₂ x.At es ns) (s : TypeStore) :
    x.parseMethods s es = .ok (ms.map (s.restoreMethod d)) := by
  induction h generalizing es with
  | nil =>
    cases hat
    rfl
  | cons hm _ ih =>
    cases hat with
    | cons he hes =>
      rw [TinyXml.parseMethods, parseMethod_eq hm he, ok_bind, ih hes, ok_bind]
      rfl

theorem foldl_addMethod (c : ClassDecl) (ms : List MethodDecl) :
    ms.foldl ClassDecl.addMethod c = { c with mMethods := c.mMethods ++ ms } := by
  induction ms generalizing c with
  | nil => rw [List.foldl_nil, List.append_nil]
  | cons m ms ih => rw [List.foldl_cons, ih, ClassDecl.addMethod, List.append_assoc]; rfl

/-- A class that has just been made is the last one. -/
theorem setClass_last (mTypes : List ℕ) (types : List TypeInfo) (classes : List ClassDecl)
    (c : ClassDecl) (f : ClassDecl → ClassDecl) :
    (⟨mTypes,types,classes ++ [c]⟩ : TypeStore).setClass classes.length f =
      ⟨mTypes,types,classes ++ [f c]⟩ := by
  rw [TypeStore.setClass, modify_concat]

theorem parseClass_eq {name : Str} {c : ClassInfo} (h : IsClass d name c n) (hat : x.At e n)
    (hs : s.Made) : x.parseClass s e = .ok (some s.types.length,
      { s.restoreClass d name c with mTypes := s.mTypes }) := by
  obtain ⟨methods,nested,hchildren,hall,hnested⟩ := h.children
  have hname : n.firstChild "name".toList = some (leaf "name".toList name) :=
    firstChild_head hchildren rfl
  have hmethodValues : ∀ x ∈ methods, x.value = "method".toList :=
    forall_of_forall₂ hall fun m x hx => hx.value
  -- the children are told from each other by their names
  have hparents {n : Str} (hn : "parent".toList ≠ n) : ∀ x ∈ c.mParents.map (fun p =>
      leaf "parent".toList (d.mTypes.classInfo p).mName), x.value ≠ n := by
    intro x hx
    obtain ⟨p,-,rfl⟩ := List.mem_map.mp hx
    exact hn
  have hrest : ∀ x ∈ methods ++ nested, x.value ≠ "iid".toList := by
    intro x hx
    rcases List.mem_append.mp hx with hx | hx
    · rw [hmethodValues x hx]
      decide
    · have hvalue := hnested x hx
      rintro heq
      rw [heq] at hvalue
      exact absurd hvalue (by decide)
  have hiid : n.firstChild "iid".toList =
      if c.mIID ≠ [] then some (leaf "iid".toList c.mIID) else none := by
    rw [XmlElement.firstChild, hchildren, List.find?_cons_of_neg, find_skip (hparents (by decide))]
    · split_ifs
      · exact List.find?_cons_of_pos (decide_eq_true rfl)
      · exact List.find?_eq_none.mpr fun x hx => by simpa using hrest x hx
    · exact (by decide : ¬decide ("name".toList = "iid".toList))
  have hmethods : n.childrenNamed "method".toList = methods := by
    have hfront : ∀ x ∈ (if c.mIID ≠ [] then [leaf "iid".toList c.mIID] else []),
        x.value ≠ "method".toList := by
      intro x hx
      split_ifs at hx
      · rw [List.mem_singleton.mp hx]
        exact (by decide : "iid".toList ≠ "method".toList)
      · cases hx
    have hback : nested.filter (fun x => x.value = "method".toList) = [] := by
      refine List.filter_eq_nil_iff.mpr fun x hx => ?_
      have hvalue := hnested x hx
      intro heq
      rw [of_decide_eq_true heq] at hvalue
      exact absurd hvalue (by decide)
    rw [XmlElement.childrenNamed, hchildren, List.filter_cons_of_neg, filter_skip (hparents (by decide)),
      filter_skip hfront, List.filter_append, hback, List.append_nil]
    · exact List.filter_eq_self.mpr fun x hx => decide_eq_true (hmethodValues x hx)
    · exact (by decide : ¬decide ("name".toList = "method".toList))
  have hparse : x.parseIID s.classes.length
      ⟨s.mTypes,s.types ++ [⟨name,.TYPE_INTERFACE s.classes.length,[],[]⟩],
        s.classes ++ [⟨name,false,[],[],[],[]⟩]⟩ e =
      .ok ⟨s.mTypes,s.types ++ [⟨name,.TYPE_INTERFACE s.classes.length,[],[]⟩],
        s.classes ++ [⟨name,false,[],[],[],c.mIID⟩]⟩ := by
    unfold TinyXml.parseIID
    by_cases hnone : c.mIID = []
    · rw [firstChild_none hat (by rw [hiid, if_neg (not_not.mpr hnone)]), hnone]
    · obtain ⟨iid,hiidAt,hiidText⟩ := getText_leaf hat (hiid.trans (if_pos hnone))
      rw [hiidAt]
      dsimp only
      rw [hiidText, ok_bind]
      exact congrArg Except.ok (setClass_last _ _ _ _ _)
  have hvisited := hat.children_named "method".toList
  rw [hmethods] at hvisited
  obtain ⟨nameElement,hnameAt,hnameText⟩ := getText_leaf hat hname
  unfold TinyXml.parseClass
  rw [hnameAt]
  dsimp only [TypeStore.newClass, TypeStore.newType]
  rw [hnameText, ok_bind, hparse, ok_bind, parseMethods_eq hall hvisited, ok_bind, setClass_last,
    foldl_addMethod]
  have hrestore : ∀ m, TypeStore.restoreMethod ⟨s.mTypes,s.types ++ [⟨name,.TYPE_INTERFACE s.classes.length,[],[]⟩],
      s.classes ++ [⟨name,false,[],[],[],c.mIID⟩]⟩ d m = s.restoreMethod d m :=
    TypeStore.restoreMethod_congr fun n => TypeStore.findType_append hs _ _ n []
  rw [funext hrestore]
  rfl

/-- The loop over the elements of the types that were written. -/
theorem loadElements_eq {ts : List ℕ} {ns : List XmlElement} {es : List x.Element}
    (h : List.Forall₂ (IsType d) ts ns) (hat : List.Forall₂ x.At es ns) (hs : s.Made) :
    x.loadElements es s = .ok (ts.foldl (TypeStore.restoreType d) s) := by
  induction h generalizing s es with
  | nil =>
    cases hat
    rfl
  | @cons t n ts ns ht _ ih =>
    cases hat with
    | cons he hes =>
      rw [List.foldl_cons, ← ih hes (TypeStore.made_restoreType hs d t), TinyXml.loadElements, he.value]
      unfold IsType at ht
      unfold TypeStore.restoreType
      split at ht
      · rename_i c hkind
        rw [if_pos ht.value, parseClass_eq ht he hs, ok_bind]
        rfl
      · rename_i hkind
        rw [if_neg]
        rcases ht with ht | ht <;> rw [ht] <;> decide

end Loading

/-- What is written for types without an alias is the text of one document, whose elements are the types. -/
theorem renders_dump (d : DumpXML) (hwritable : ∀ t ∈ d.dumped, d.Writable t) :
    ∃ document, Renders document d.dump ∧ (∀ document', Renders document' d.dump → document' = document) ∧
      List.Forall₂ (IsType d) d.roots (elements document) := by
  have hroots : ∀ t ∈ d.roots, ∃ e, Piece [e] (d.dumpType 0 t) ∧ IsType d t e := by
    intro t ht
    exact DumpXML.piece_type (fun u hu => hwritable u (List.mem_flatMap.mpr ⟨t,ht,hu⟩)) 0
  obtain ⟨es,hpiece,hall⟩ := Piece.flatMap hroots
  obtain ⟨document,hrenders,helements⟩ := hpiece .none [] (.none (by simp [Blank]))
  rw [List.append_nil] at hrenders
  refine ⟨document,hrenders,fun _ hrenders' => hrenders'.unique hrenders,?_⟩
  rw [helements, elements, List.append_nil]
  exact hall

/-- The file that is written for types without an alias and with names that are XML as they are is the text
of a document, and of one only. Loaded, each interface of the file that is not nested in another one is there
again, with the same identifier and with the same methods: their names, the names and directions of their
parameters, whether they are async, and of each type of theirs what the table has for its name by then. The
other types, the parents and what is nested are left out. -/
theorem loadClassInfo_dump (x : TinyXml) (hx : x.Documented) (d : DumpXML)
    (hwritable : ∀ t ∈ d.dumped, d.Writable t) (s : TypeStore) (hs : s.Made) :
    (∃! document, Renders document d.dump) ∧
      x.loadClassInfo s d.dump = .ok (d.roots.foldl (TypeStore.restoreType d) s) := by
  obtain ⟨document,hrenders,hunique,hall⟩ := renders_dump d hwritable
  exact ⟨⟨document,hrenders,hunique⟩,loadElements_eq hall (hx.elements hrenders) hs⟩

/-- A name of one character. -/
theorem content_single {c : Char}
    (h : Printed c ∧ c ≠ ' ') : IsContent [c] where
  plain := by
    intro d hd
    obtain rfl := List.mem_singleton.mp hd
    exact h.1
  first := ⟨c,[],rfl,h.2⟩
  last := fun heq => h.2 (Option.some.inj heq)
  single := List.isChain_singleton c

theorem loadClassInfo_dump_interface :
    (∃! document, Renders document (DumpXML.twoFilesDumper ['i']).dump) ∧
      TinyXml.reading.loadClassInfo ⟨[],[],[]⟩ (DumpXML.twoFilesDumper ['i']).dump =
        .ok ⟨[0],[⟨['I'],.TYPE_INTERFACE 0,[],[]⟩],
          [⟨['I'],false,[],[⟨['f'],none,[⟨['x'],.PARAM_IN,none⟩],true⟩],[],['0']⟩]⟩ := by
  refine loadClassInfo_dump .reading TinyXml.reading_documented (DumpXML.twoFilesDumper ['i']) ?_
    ⟨[],[],[]⟩ (by simp [TypeStore.Made])
  have hroots : (DumpXML.twoFilesDumper ['i']).roots = [0] := by decide
  intro t ht
  rw [DumpXML.dumped, hroots, List.flatMap_singleton, mem_preorder] at ht
  have hwhich : t = 0 ∨ t = 1 := by
    rcases ht with rfl | ⟨u,hu,ht⟩
    · exact .inl rfl
    · obtain rfl := (DumpXML.twoFiles_nested hu).2
      rcases mem_preorder.mp ht with rfl | ⟨v,hv,-⟩
      · exact .inr rfl
      · exact absurd (DumpXML.twoFiles_nested hv).1 one_ne_zero
  rcases hwhich with rfl | rfl
  · refine ⟨content_single (by decide),?_,?_,?_⟩
    · intro p hp
      cases hp
    · exact fun _ => content_single (by decide)
    · intro m hm
      obtain rfl := List.mem_singleton.mp hm
      refine ⟨content_single (by decide),?_,?_⟩
      · intro t ht
        obtain rfl := Option.some.inj ht
        exact content_single (by decide)
      · intro p hp
        obtain rfl := List.mem_singleton.mp hp
        exact ⟨content_single (by decide),content_single (by decide)⟩
  · refine ⟨content_single (by decide),?_⟩
    intro f hf
    obtain rfl := List.mem_singleton.mp hf
    exact ⟨content_single (by decide),content_single (by decide)⟩

end JhCommon
