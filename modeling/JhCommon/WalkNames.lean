import JhCommon.FrontEndTable

/-! The names in the table when a tree has been walked through, and which of the types of a name a method
refers to. -/
namespace JhCommon

/-- What stands at t is the first of its name. -/
def FirstNamed (names : List Str) (t : ℕ) : Prop := ∃ name, names.findIdx? (· = name) = some t

/-- The names that a tree gives to what it declares. -/
def IdlDeclarator.Spelled (P : Str → Prop) : IdlDeclarator → Prop
  | .IDLN_IDENT str _ => P str
  | .IDLN_TYPE_ARRAY => True

def IdlMember.Spelled (P : Str → Prop) : IdlMember → Prop
  | .IDLN_MEMBER _ dcls => ∀ d ∈ dcls, d.Spelled P
  | .unhandled => True

def IdlTree.Spelled (P : Str → Prop) : IdlTree → Prop
  | .null | .unhandled => True
  | .IDLN_LIST data next => data.Spelled P ∧ next.Spelled P
  | .IDLN_INTERFACE _ ident _ body iid => P ident ∧ body.Spelled P ∧ ∀ v ∈ iid, v ≠ [] → P v
  | .IDLN_OP_DCL ident _ parameter_dcls _ => P ident ∧ parameter_dcls.Spelled P
  | .IDLN_PARAM_DCL _ simple_declarator _ => P simple_declarator
  | .IDLN_TYPE_STRUCT _ ident member_list => P ident ∧ ∀ m ∈ member_list, m.Spelled P
  | .IDLN_TYPE_ENUM _ ident enumerator_list => P ident ∧ ∀ e ∈ enumerator_list, P e
  | .IDLN_TYPE_DCL _ dcls => ∀ d ∈ dcls, d.Spelled P

/-- The types that a method refers to. -/
def MethodDecl.types (m : MethodDecl) : List ℕ :=
  m.mRetType.toList ++ m.mParamTypes.filterMap ParamDecl.mType

structure MethodDecl.Spelled (P : Str → Prop) (names : List Str) (m : MethodDecl) : Prop where
  name : P m.mName
  params : ∀ p ∈ m.mParamTypes, P p.mName
  types : ∀ t ∈ m.types, FirstNamed names t

structure ClassDecl.Spelled (P : Str → Prop) (names : List Str) (d : ClassDecl) : Prop where
  name : P d.mName
  iid : d.mIID ≠ [] → P d.mIID
  fields : ∀ f ∈ d.mFields, P f.mName
  methods : ∀ m ∈ d.mMethods, m.Spelled P names

def TypeStore.names (s : TypeStore) : List Str := s.types.map TypeInfo.mName

/-- A type that the walk declares. -/
def TypeInfo.Declared (i : TypeInfo) : Prop :=
  match i.mType with
  | .TYPE_INTERFACE _ | .TYPE_STRUCT _ | .TYPE_ENUM _ | .TYPE_ALIAS _ => True
  | _ => False

/-- Names of the table have P, and of the types of one name a method refers to the first. -/
structure TypeStore.Spelled (P : Str → Prop) (s : TypeStore) : Prop where
  mTypes : s.mTypes = List.range s.types.length
  types : ∀ i ∈ s.types, P i.mName
  declared : ∀ i ∈ s.types, i.mFilename ≠ [] → i.Declared
  elements : ∀ i ∈ s.types, ∀ es, i.mType = .TYPE_ENUM es → ∀ e ∈ es, P e
  classes : ∀ d ∈ s.classes, d.Spelled P s.names

structure WalkData.Spelled (P : Str → Prop) (w : WalkData) : Prop where
  table : w.mTypes.Spelled P
  method : ∀ m ∈ w.mCurrentMethod, m.Spelled P w.mTypes.names

section Names
variable {P : Str → Prop} {names : List Str} {t : ℕ}

theorem FirstNamed.append (h : FirstNamed names t) (more : List Str) : FirstNamed (names ++ more) t := by
  obtain ⟨name,hname⟩ := h
  exact ⟨name,by rw [List.findIdx?_append, hname, Option.some_or]⟩

/-- A search by places is a search in the list. -/
theorem find?_range_getD {α : Type*} (l : List α) (a : α) (p : α → Bool) :
    ((List.range l.length).find? fun i => p (l.getD i a)) = l.findIdx? p := by
  ext t
  rw [List.find?_range_eq_some, List.findIdx?_eq_some_iff_getElem]
  constructor
  · rintro ⟨hp,hmem,hbefore⟩
    have hlt : t < l.length := List.mem_range.mp hmem
    refine ⟨hlt,by simpa [hlt] using hp,?_⟩
    intro j hj
    have hno := hbefore j hj
    simpa [hj.trans hlt] using hno
  · rintro ⟨hlt,hp,hbefore⟩
    refine ⟨by simpa [hlt] using hp,List.mem_range.mpr hlt,?_⟩
    intro j hj
    have hno := hbefore j hj
    simpa [hj.trans hlt] using hno

/-- One pass of `findType`. -/
theorem TypeStore.find?_names {s : TypeStore} (h : s.mTypes = List.range s.types.length) (name : Str) :
    (s.mTypes.find? fun t => (s.typeInfo t).mName = name) = s.names.findIdx? (· = name) := by
  rw [h, TypeStore.names, List.findIdx?_map]
  exact find?_range_getD s.types _ fun i => i.mName = name

theorem MethodDecl.Spelled.mono {m : MethodDecl} (h : m.Spelled P names) (more : List Str) :
    m.Spelled P (names ++ more) :=
  { h with types := fun t ht => (h.types t ht).append more }

theorem ClassDecl.Spelled.mono {d : ClassDecl} (h : d.Spelled P names) (more : List Str) :
    d.Spelled P (names ++ more) :=
  { h with methods := fun m hm => (h.methods m hm).mono more }

theorem ClassDecl.spelled_named {name : Str} (h : P name) : (ClassDecl.named name).Spelled P names where
  name := h
  iid := by simp [ClassDecl.named]
  fields := by simp [ClassDecl.named]
  methods := by simp [ClassDecl.named]

end Names

namespace TypeStore.Spelled
variable {P : Str → Prop} {s : TypeStore}

theorem create (h : ∀ b ∈ builtins, P b.1.mName) : TypeStore.create.Spelled P where
  mTypes := by rw [TypeStore.create, List.length_map]
  types := by
    intro i hi
    obtain ⟨b,hb,rfl⟩ := List.mem_map.mp hi
    exact h b hb
  declared := by
    have hfile : ∀ b ∈ builtins, b.1.mFilename = [] := by simp [builtins]
    intro i hi hne
    obtain ⟨b,hb,rfl⟩ := List.mem_map.mp hi
    exact absurd (hfile b hb) hne
  elements := by
    have hplain : ∀ b ∈ builtins, ∀ es, b.1.mType ≠ .TYPE_ENUM es := by simp [builtins]
    intro i hi es hes
    obtain ⟨b,hb,rfl⟩ := List.mem_map.mp hi
    exact absurd hes (hplain b hb es)
  classes := by simp [TypeStore.create]

theorem addType (h : s.Spelled P) {i : TypeInfo} (hname : P i.mName) (hdeclared : i.Declared)
    (helements : ∀ es, i.mType = .TYPE_ENUM es → ∀ e ∈ es, P e) :
    (⟨s.mTypes ++ [s.types.length],s.types ++ [i],s.classes⟩ : TypeStore).Spelled P where
  mTypes := by
    rw [h.mTypes, List.length_append, List.length_singleton, List.range_succ]
  types := by
    intro j hj
    rcases List.mem_append.mp hj with hj | hj
    · exact h.types j hj
    · exact List.mem_singleton.mp hj ▸ hname
  declared := by
    intro j hj hne
    rcases List.mem_append.mp hj with hj | hj
    · exact h.declared j hj hne
    · exact List.mem_singleton.mp hj ▸ hdeclared
  elements := by
    intro j hj
    rcases List.mem_append.mp hj with hj | hj
    · exact h.elements j hj
    · exact List.mem_singleton.mp hj ▸ helements
  classes := by
    intro d hd
    rw [TypeStore.names, List.map_append]
    exact (h.classes d hd).mono _

theorem addClass (h : s.Spelled P) {name : Str} (hname : P name) :
    (⟨s.mTypes,s.types,s.classes ++ [.named name]⟩ : TypeStore).Spelled P :=
  { h with
    classes := by
      intro d hd
      rcases List.mem_append.mp hd with hd | hd
      · exact h.classes d hd
      · rw [List.mem_singleton.mp hd]
        exact ClassDecl.spelled_named hname }

theorem setClass (h : s.Spelled P) {f : ClassDecl → ClassDecl}
    (hf : ∀ d, d.Spelled P s.names → (f d).Spelled P s.names) (c : ℕ) : (s.setClass c f).Spelled P :=
  { h with
    classes := by
      intro d hd
      rcases mem_modify hd with hd | ⟨d',hd',rfl⟩
      · exact h.classes d hd
      · exact hf d' (h.classes d' hd') }

/-- What is looked up is the first type of its name. -/
theorem findType_first (h : s.Spelled P) {name ns : Str} {t : ℕ} (ht : s.findType name ns = some t) :
    FirstNamed s.names t := by
  rw [TypeStore.findType, TypeManager.findType_eq_or] at ht
  have hpass := s.find?_names h.mTypes
  rcases Option.or_eq_some_iff.mp ht with ht | ⟨-,ht⟩
  · exact ⟨_,(hpass _).symm.trans ht⟩
  · exact ⟨_,(hpass _).symm.trans ht⟩

end TypeStore.Spelled

namespace WalkData.Spelled
variable {P : Str → Prop} {w w' : WalkData}

theorem create (h : ∀ b ∈ builtins, P b.1.mName) (filename : Str) :
    (WalkData.create filename).Spelled P where
  table := .create h
  method := by simp [WalkData.create]

theorem addErrors (h : w.Spelled P) (names : List Str) :
    ({ w with errors := w.errors ++ names } : WalkData).Spelled P := ⟨h.table,h.method⟩

theorem inClass (h : w.Spelled P) (c : Option ℕ) : ({ w with mCurrentClass := c } : WalkData).Spelled P :=
  ⟨h.table,h.method⟩

theorem inMethod (h : w.Spelled P) {m : Option MethodDecl} (hm : ∀ x ∈ m, x.Spelled P w.mTypes.names) :
    ({ w with mCurrentMethod := m } : WalkData).Spelled P := ⟨h.table,hm⟩

theorem addType (h : w.Spelled P) {i : TypeInfo} (hname : P i.mName) (hdeclared : i.Declared)
    (helements : ∀ es, i.mType = .TYPE_ENUM es → ∀ e ∈ es, P e) :
    ({ w with mTypes := ⟨w.mTypes.mTypes ++ [w.mTypes.types.length],w.mTypes.types ++ [i],
        w.mTypes.classes⟩ } : WalkData).Spelled P where
  table := h.table.addType hname hdeclared helements
  method m hm := by
    rw [TypeStore.names, List.map_append]
    exact (h.method m hm).mono _

theorem addClass (h : w.Spelled P) {name : Str} (hname : P name) :
    ({ w with mTypes := ⟨w.mTypes.mTypes,w.mTypes.types,w.mTypes.classes ++ [.named name]⟩ } :
      WalkData).Spelled P := ⟨h.table.addClass hname,h.method⟩

theorem setClass (h : w.Spelled P) {f : ClassDecl → ClassDecl}
    (hf : ∀ d, d.Spelled P w.mTypes.names → (f d).Spelled P w.mTypes.names) (c : ℕ) :
    ({ w with mTypes := w.mTypes.setClass c f } : WalkData).Spelled P := ⟨h.table.setClass hf c,h.method⟩

theorem changeClass (h : w.Spelled P) {f : ClassDecl → ClassDecl} (hok : w.inClass f = .ok w')
    (hf : ∀ d, d.Spelled P w.mTypes.names → (f d).Spelled P w.mTypes.names) : w'.Spelled P := by
  unfold WalkData.inClass at hok
  split at hok
  · cases hok
  · obtain rfl := Except.ok.inj hok
    exact h.setClass hf _

/-- A type that is named is the first of its name. -/
theorem getType (h : w.Spelled P) (spec : Option IdlType) : ∃ t names,
    w.getType spec = (t,{ w with errors := w.errors ++ names }) ∧
      ∀ u ∈ t, FirstNamed w.mTypes.names u := by
  have hfound (name ns : Str) : ∃ t names,
      (w.mTypes.findType name ns,w) = (t,{ w with errors := w.errors ++ names }) ∧
        ∀ u ∈ t, FirstNamed w.mTypes.names u :=
    ⟨_,[],by rw [List.append_nil],fun u hu => h.table.findType_first hu⟩
  cases spec with
  | none => exact ⟨none,[],by rw [List.append_nil]; rfl,by simp⟩
  | some spec =>
    cases spec with
    | IDLN_IDENT str =>
      unfold WalkData.getType
      dsimp only
      split
      · rename_i t ht
        refine ⟨some t,[],by rw [List.append_nil],?_⟩
        intro u hu
        obtain rfl := Option.some.inj hu
        exact h.table.findType_first ht
      · exact ⟨none,[str],rfl,by simp⟩
    | unsupported name => exact ⟨none,[name],rfl,by simp⟩
    | _ => exact hfound _ []

theorem handleInheritance (h : w.Spelled P) {ident : Str} (hok : w.handleInheritance ident = .ok w') :
    w'.Spelled P := by
  unfold WalkData.handleInheritance at hok
  split at hok
  · cases hok
  · split at hok
    · cases hok
    · obtain rfl := Except.ok.inj hok
      refine h.setClass ?_ _
      exact fun d hd => ⟨hd.name,hd.iid,hd.fields,hd.methods⟩

theorem inheritance {idents : List Str} (h : w.Spelled P)
    (hok : idents.foldlM WalkData.handleInheritance w = .ok w') : w'.Spelled P := by
  induction idents generalizing w with
  | nil =>
    obtain rfl := Except.ok.inj hok
    exact h
  | cons ident idents ih =>
    rw [List.foldlM_cons] at hok
    obtain ⟨w₁,hone,hrest⟩ := bind_eq_ok.mp hok
    exact ih (h.handleInheritance hone) hrest

theorem setIID (h : w.Spelled P) {iid : Option Str} (hiid : ∀ v ∈ iid, v ≠ [] → P v)
    (hok : w.setIID iid = .ok w') : w'.Spelled P := by
  cases iid with
  | none =>
    obtain rfl := Except.ok.inj hok
    exact h
  | some v =>
    apply h.changeClass hok
    exact fun d hd => ⟨hd.name,hiid v rfl,hd.fields,hd.methods⟩

/-- The declarators of a member become fields. -/
theorem structMemberDcls {ds : List IdlDeclarator} (h : w.Spelled P) (hds : ∀ d ∈ ds, d.Spelled P)
    (c : ℕ) (mType : Option ℕ) : (ds.foldl (WalkData.structMemberDcl c mType) w).Spelled P := by
  induction ds generalizing w with
  | nil => exact h
  | cons d ds ih =>
    have hrest := fun d' hd' => hds d' (List.mem_cons_of_mem d hd')
    cases d with
    | IDLN_TYPE_ARRAY => exact ih h hrest
    | IDLN_IDENT str file =>
      apply ih _ hrest
      refine h.setClass ?_ c
      intro d hd
      refine ⟨hd.name,hd.iid,?_,hd.methods⟩
      intro f hf
      rcases List.mem_append.mp hf with hf | hf
      · exact hd.fields f hf
      · have hstr : P str := hds _ List.mem_cons_self
        exact List.mem_singleton.mp hf ▸ hstr

theorem structMembers {ms : List IdlMember} (h : w.Spelled P) (hms : ∀ m ∈ ms, m.Spelled P) (c : ℕ) :
    (ms.foldl (WalkData.structMember c) w).Spelled P := by
  induction ms generalizing w with
  | nil => exact h
  | cons m ms ih =>
    have hm := hms m List.mem_cons_self
    have hrest := fun m' hm' => hms m' (List.mem_cons_of_mem m hm')
    cases m with
    | unhandled => exact ih h hrest
    | IDLN_MEMBER type_spec dcls =>
      obtain ⟨t,names,hget,-⟩ := h.getType type_spec
      rw [List.foldl_cons]
      apply ih _ hrest
      simp only [WalkData.structMember, hget]
      exact (h.addErrors names).structMemberDcls hm c t

theorem typedefDcls {ds : List IdlDeclarator} (h : w.Spelled P) (hds : ∀ d ∈ ds, d.Spelled P)
    (mType : ℕ) : (ds.foldl (typedefDcl mType) w).Spelled P := by
  induction ds generalizing w with
  | nil => exact h
  | cons d ds ih =>
    have hrest := fun d' hd' => hds d' (List.mem_cons_of_mem d hd')
    cases d with
    | IDLN_TYPE_ARRAY => exact ih h hrest
    | IDLN_IDENT str file =>
      rw [List.foldl_cons, typedefDcl, declare_eq]
      apply ih _ hrest
      apply h.addType
      · exact hds _ List.mem_cons_self
      · trivial
      · rintro es ⟨⟩

end WalkData.Spelled

open WalkData

/-- Names come from the tree, and a method's types are the first ones of their names. -/
theorem processTree_spelled {P : Str → Prop} {tree : IdlTree} {w w' : WalkData} (htree : tree.Spelled P)
    (h : w.Spelled P) (hok : processTree tree w = .ok w') : w'.Spelled P := by
  induction tree generalizing w w' with
  | null =>
    obtain rfl := Except.ok.inj hok
    exact h
  | unhandled =>
    obtain rfl := Except.ok.inj hok
    exact h
  | IDLN_LIST data next ihdata ihnext =>
    obtain ⟨w₁,hdata,hnext⟩ := bind_eq_ok.mp hok
    exact ihnext htree.2 (ihdata htree.1 h hdata) hnext
  | IDLN_INTERFACE file ident inheritance_spec body iid ih =>
    obtain ⟨hident,hbody,hiid⟩ := htree
    rw [processTree] at hok
    simp only [TypeStore.newClass, declare_eq] at hok
    have hdeclared := (h.addClass hident).addType (i := ⟨ident,.TYPE_INTERFACE w.mTypes.classes.length,[],file⟩)
      hident trivial (by rintro es ⟨⟩)
    split_ifs at hok
    -- the interface is of the file, and its body is walked through
    · obtain ⟨w₁,hinheritance,hok⟩ := bind_eq_ok.mp hok
      obtain ⟨w₂,hwalk,hok⟩ := bind_eq_ok.mp hok
      obtain ⟨w₃,hset,hok⟩ := bind_eq_ok.mp hok
      obtain ⟨w₄,hconcrete,hok⟩ := bind_eq_ok.mp hok
      obtain rfl := Except.ok.inj hok
      have hentered := (hdeclared.inClass (some w.mTypes.classes.length)).inheritance hinheritance
      have hready := (ih hbody hentered hwalk).setIID hiid hset
      apply Spelled.inClass
      exact hready.changeClass hconcrete fun d hd => ⟨hd.name,hd.iid,hd.fields,hd.methods⟩
    · obtain rfl := Except.ok.inj hok
      exact hdeclared.inClass none
  | IDLN_OP_DCL ident op_type_spec parameter_dcls async ih =>
    obtain ⟨hident,hparams⟩ := htree
    obtain ⟨t,names,hget,hfirst⟩ := h.getType op_type_spec
    simp only [processTree, hget] at hok
    obtain ⟨w₁,hwalk,hok⟩ := bind_eq_ok.mp hok
    have hnew : MethodDecl.Spelled P w.mTypes.names ⟨ident,t,[],false⟩ := by
      refine ⟨hident,by simp,?_⟩
      intro u hu
      apply hfirst u
      simpa [MethodDecl.types] using hu
    have hentered : WalkData.Spelled P { w with errors := w.errors ++ names, mCurrentMethod := some ⟨ident,t,[],false⟩ } := by
      refine (h.addErrors names).inMethod ?_
      intro x hx
      obtain rfl := Option.some.inj hx
      exact hnew
    have hready := ih hparams hentered hwalk
    split at hok
    · cases hok
    · rename_i m hm
      obtain ⟨w₂,hadd,hok⟩ := bind_eq_ok.mp hok
      obtain rfl := Except.ok.inj hok
      -- what the parameters have made of the method is added to the class, with its flag
      have hmethod := hready.method m hm
      have hadded : w₂.Spelled P := by
        refine hready.changeClass hadd fun d hd => { hd with methods := ?_ }
        intro x hx
        rcases List.mem_append.mp hx with hx | hx
        · exact hd.methods x hx
        · rw [List.mem_singleton.mp hx]
          exact ⟨hmethod.name,hmethod.params,hmethod.types⟩
      exact hadded.inMethod (by simp)
  | IDLN_PARAM_DCL attr simple_declarator param_type_spec =>
    obtain ⟨t,names,hget,hfirst⟩ := h.getType param_type_spec
    simp only [processTree, hget] at hok
    split at hok
    · cases hok
    · rename_i m hm
      obtain rfl := Except.ok.inj hok
      have hmethod := h.method m hm
      refine (h.addErrors names).inMethod ?_
      intro x hx
      obtain rfl := Option.some.inj hx
      refine ⟨hmethod.name,?_,?_⟩
      · intro p hp
        rcases List.mem_append.mp hp with hp | hp
        · exact hmethod.params p hp
        · have hname : P simple_declarator := htree
          exact List.mem_singleton.mp hp ▸ hname
      · intro u hu
        have hcases : u ∈ m.types ∨ u ∈ t := by
          simpa [MethodDecl.types, MethodDecl.addParam, List.filterMap_append, or_assoc] using hu
        rcases hcases with hu | hu
        · exact hmethod.types u hu
        · exact hfirst u hu
  | IDLN_TYPE_STRUCT file ident member_list =>
    obtain ⟨hident,hmembers⟩ := htree
    simp only [processTree, TypeStore.newClass] at hok
    rw [declare_eq] at hok
    obtain ⟨ns,hscope⟩ := setScope_last w (w.mTypes.mTypes ++ [w.mTypes.types.length]) w.mTypes.types
      (w.mTypes.classes ++ [.named ident]) ident (.TYPE_STRUCT w.mTypes.classes.length) file
    have hdeclared := (h.addClass hident).addType
      (i := ⟨ident,.TYPE_STRUCT w.mTypes.classes.length,ns,file⟩) hident trivial (by rintro es ⟨⟩)
    rw [← hscope] at hdeclared
    obtain rfl := Except.ok.inj hok
    have hall := hdeclared.structMembers hmembers w.mTypes.classes.length
    refine hall.setClass ?_ _
    exact fun d hd => ⟨hd.name,hd.iid,hd.fields,hd.methods⟩
  | IDLN_TYPE_ENUM file ident enumerator_list =>
    obtain ⟨hident,helements⟩ := htree
    simp only [processTree] at hok
    rw [declare_eq] at hok
    obtain ⟨ns,hscope⟩ := setScope_last w (w.mTypes.mTypes ++ [w.mTypes.types.length]) w.mTypes.types
      w.mTypes.classes ident (.TYPE_ENUM []) file
    dsimp only at hok
    rw [hscope] at hok
    simp only [addElements, List.nil_append] at hok
    obtain rfl := Except.ok.inj hok
    apply h.addType (i := ⟨ident,.TYPE_ENUM enumerator_list,ns,file⟩) hident trivial
    rintro es ⟨⟩
    exact helements
  | IDLN_TYPE_DCL type_spec dcls =>
    obtain ⟨t,names,hget,-⟩ := h.getType type_spec
    simp only [processTree, hget] at hok
    cases t with
    | none => cases hok
    | some t =>
      obtain rfl := Except.ok.inj hok
      exact (h.addErrors names).typedefDcls htree t

end JhCommon
