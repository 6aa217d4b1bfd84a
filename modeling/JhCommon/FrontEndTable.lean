import JhCommon.FrontEnd

/-! What the table has in it when a tree has been walked through, whichever tree it was. -/
namespace JhCommon

/-- The types of a method are the first n of the table. -/
def MethodDecl.Refs (n : ℕ) (m : MethodDecl) : Prop :=
  (∀ t ∈ m.mRetType, t < n) ∧ ∀ p ∈ m.mParamTypes, ∀ t ∈ p.mType, t < n

/-- So are those of a class, and its parents are of the first k classes. -/
structure ClassDecl.Refs (n k : ℕ) (d : ClassDecl) : Prop where
  methods : ∀ m ∈ d.mMethods, m.Refs n
  fields : ∀ f ∈ d.mFields, ∀ t ∈ f.mType, t < n
  parents : ∀ p ∈ d.mParents, ∀ c ∈ p, c < k

/-- No parameter and no field is without a type. -/
def MethodDecl.Typed (m : MethodDecl) : Prop := ∀ p ∈ m.mParamTypes, p.mType ≠ none

def ClassDecl.Typed (d : ClassDecl) : Prop :=
  (∀ m ∈ d.mMethods, m.Typed) ∧ ∀ f ∈ d.mFields, f.mType ≠ none

/-- A class that is known by its name. -/
def ClassDecl.named (name : Str) : ClassDecl := ⟨name,false,[],[],[],[]⟩

/-- The table of the types in a file and in those that it includes: the types in the order in which they
were declared, behind the built-in ones. What a class or an alias refers to is in the table, an alias to
what is in front of it. Only structures and enumerations have a namespace, and an interface of another
file has nothing but its name. -/
structure TypeStore.Sound (filename : Str) (s : TypeStore) : Prop where
  mTypes : s.mTypes = List.range s.types.length
  builtin : builtins.map Prod.fst <+: s.types
  named : ∀ i ∈ s.types, i.mName ≠ []
  classes : ∀ i ∈ s.types, ∀ c ∈ i.getClass, c < s.classes.length
  aliased : ∀ (t : ℕ) (i : TypeInfo) (a : ℕ), s.types[t]? = some i → i.mType = .TYPE_ALIAS a → a < t
  spaced : ∀ i ∈ s.types, i.mNamespace ≠ [] →
    (∃ c, i.mType = .TYPE_STRUCT c) ∨ ∃ elements, i.mType = .TYPE_ENUM elements
  refs : ∀ d ∈ s.classes, d.Refs s.types.length s.classes.length
  foreign : ∀ i ∈ s.types, ∀ c, i.mType = .TYPE_INTERFACE c → i.mFilename ≠ filename →
    s.classes[c]? = some (.named i.mName)

/-- A type that can be added behind the others. -/
structure TypeStore.Admits (filename : Str) (s : TypeStore) (i : TypeInfo) : Prop where
  named : i.mName ≠ []
  classes : ∀ c ∈ i.getClass, c < s.classes.length
  aliased : ∀ a, i.mType = .TYPE_ALIAS a → a < s.types.length
  spaced : i.mNamespace ≠ [] →
    (∃ c, i.mType = .TYPE_STRUCT c) ∨ ∃ elements, i.mType = .TYPE_ENUM elements
  foreign : ∀ c, i.mType = .TYPE_INTERFACE c → i.mFilename ≠ filename →
    s.classes[c]? = some (.named i.mName)

/-- What the parser sees to: names are not empty, and each member and each parameter has a type. -/
def IdlDeclarator.WellFormed : IdlDeclarator → Prop
  | .IDLN_IDENT str _ => str ≠ []
  | .IDLN_TYPE_ARRAY => True

def IdlMember.WellFormed : IdlMember → Prop
  | .IDLN_MEMBER type_spec _ => type_spec ≠ none
  | .unhandled => True

def IdlTree.WellFormed : IdlTree → Prop
  | .null | .unhandled => True
  | .IDLN_LIST data next => data.WellFormed ∧ next.WellFormed
  | .IDLN_INTERFACE _ ident _ body _ => ident ≠ [] ∧ body.WellFormed
  | .IDLN_OP_DCL _ _ parameter_dcls _ => parameter_dcls.WellFormed
  | .IDLN_PARAM_DCL _ _ param_type_spec => param_type_spec ≠ none
  | .IDLN_TYPE_STRUCT _ ident member_list => ident ≠ [] ∧ ∀ m ∈ member_list, m.WellFormed
  | .IDLN_TYPE_ENUM _ ident _ => ident ≠ []
  | .IDLN_TYPE_DCL _ dcls => ∀ d ∈ dcls, d.WellFormed

namespace WalkData

/-- A class that is no interface of another file. -/
def Own (w : WalkData) (c : ℕ) : Prop :=
  c < w.mTypes.classes.length ∧
    ∀ i ∈ w.mTypes.types, i.mType = .TYPE_INTERFACE c → i.mFilename = w.filename

/-- What holds at every node of a walk. -/
structure Ready (filename : Str) (w : WalkData) : Prop where
  file : w.filename = filename
  sound : w.mTypes.Sound w.filename
  own : ∀ c ∈ w.mCurrentClass, w.Own c
  method : ∀ m ∈ w.mCurrentMethod, m.Refs w.mTypes.types.length
  typed : w.errors = [] → (∀ d ∈ w.mTypes.classes, d.Typed) ∧ ∀ m ∈ w.mCurrentMethod, m.Typed

end WalkData

section Tables
variable {n n' k k' : ℕ}

theorem MethodDecl.Refs.mono {m : MethodDecl} (h : m.Refs n) (hn : n ≤ n') : m.Refs n' :=
  ⟨fun t ht => (h.1 t ht).trans_le hn,fun p hp t ht => (h.2 p hp t ht).trans_le hn⟩

theorem ClassDecl.Refs.mono {d : ClassDecl} (h : d.Refs n k) (hn : n ≤ n') (hk : k ≤ k') :
    d.Refs n' k' where
  methods m hm := (h.methods m hm).mono hn
  fields f hf t ht := (h.fields f hf t ht).trans_le hn
  parents p hp c hc := (h.parents p hp c hc).trans_le hk

theorem ClassDecl.refs_named (name : Str) : (ClassDecl.named name).Refs n k where
  methods := by simp [ClassDecl.named]
  fields := by simp [ClassDecl.named]
  parents := by simp [ClassDecl.named]

theorem ClassDecl.typed_named (name : Str) : (ClassDecl.named name).Typed := by
  simp [ClassDecl.named, ClassDecl.Typed]

theorem mem_modify {α : Type*} {l : List α} {i : ℕ} {f : α → α} {b : α} (h : b ∈ l.modify i f) :
    b ∈ l ∨ ∃ a ∈ l, b = f a := by
  obtain ⟨j,hj,rfl⟩ := List.getElem_of_mem h
  have hlt : j < l.length := by simpa using hj
  rw [List.getElem_modify]
  split_ifs
  · exact .inr ⟨l[j],List.getElem_mem hlt,rfl⟩
  · exact .inl (List.getElem_mem hlt)

end Tables

/-- The two passes of `findType`. -/
theorem TypeManager.findType_eq_or (m : TypeManager) (name ns : Str) : m.findType name ns =
    (m.mTypes.find? fun t => (m.typeInfo t).mName =
      if 0 < ns.length then ns ++ [':',':'] ++ name else name).or
      (m.mTypes.find? fun t => (m.typeInfo t).mName = name) := by
  unfold TypeManager.findType
  dsimp only
  generalize (m.mTypes.find? fun t => (m.typeInfo t).mName =
    if 0 < ns.length then ns ++ [':',':'] ++ name else name) = first
  cases first <;> rfl

theorem TypeStore.typeInfo_mem {s : TypeStore} {t : ℕ} (h : t < s.types.length) :
    s.typeInfo t ∈ s.types := by
  rw [typeInfo, List.getD_eq_getElem?_getD, List.getElem?_eq_getElem h, Option.getD_some]
  exact List.getElem_mem h

/-- What is no TypeInfo of the table is no interface. -/
theorem TypeStore.lt_of_interface {s : TypeStore} {t c : ℕ}
    (h : (s.typeInfo t).mType = .TYPE_INTERFACE c) : t < s.types.length := by
  by_contra! hge
  have hnone : s.typeInfo t = ⟨[],.TYPE_ANY,[],[]⟩ := by
    rw [typeInfo, List.getD_eq_getElem?_getD, List.getElem?_eq_none hge]
    rfl
  rw [hnone] at h
  cases h

namespace TypeStore.Sound
variable {filename : Str} {s : TypeStore}

theorem create : TypeStore.create.Sound filename where
  mTypes := by rw [TypeStore.create, List.length_map]
  builtin := List.prefix_rfl
  named := by
    have hnamed : ∀ b ∈ builtins, b.1.mName ≠ [] := by decide
    intro i hi
    obtain ⟨b,hb,rfl⟩ := List.mem_map.mp hi
    exact hnamed b hb
  classes := by
    have hnone : ∀ b ∈ builtins, b.1.getClass = none := by decide
    intro i hi c hc
    obtain ⟨b,hb,rfl⟩ := List.mem_map.mp hi
    rw [hnone b hb] at hc
    cases hc
  aliased := by
    have hplain : ∀ b ∈ builtins, ∀ a, b.1.mType ≠ .TYPE_ALIAS a := by simp [builtins]
    intro t i a hi ha
    obtain ⟨b,hb,rfl⟩ := List.mem_map.mp (List.mem_of_getElem? hi)
    exact absurd ha (hplain b hb a)
  spaced := by
    have hglobal : ∀ b ∈ builtins, b.1.mNamespace = [] := by decide
    intro i hi hne
    obtain ⟨b,hb,rfl⟩ := List.mem_map.mp hi
    exact absurd (hglobal b hb) hne
  refs := by simp [TypeStore.create]
  foreign := by
    have hplain : ∀ b ∈ builtins, ∀ c, b.1.mType ≠ .TYPE_INTERFACE c := by simp [builtins]
    intro i hi c hc
    obtain ⟨b,hb,rfl⟩ := List.mem_map.mp hi
    exact absurd hc (hplain b hb c)

theorem addType (h : s.Sound filename) {i : TypeInfo} (hi : s.Admits filename i) :
    (⟨s.mTypes ++ [s.types.length],s.types ++ [i],s.classes⟩ : TypeStore).Sound filename where
  mTypes := by
    rw [h.mTypes, List.length_append, List.length_singleton, List.range_succ]
  builtin := h.builtin.trans (List.prefix_append _ _)
  named := by
    intro j hj
    rcases List.mem_append.mp hj with hj | hj
    · exact h.named j hj
    · exact List.mem_singleton.mp hj ▸ hi.named
  classes := by
    intro j hj
    rcases List.mem_append.mp hj with hj | hj
    · exact h.classes j hj
    · exact List.mem_singleton.mp hj ▸ hi.classes
  aliased := by
    intro t j a hj ha
    rcases lt_or_ge t s.types.length with hlt | hge
    · rw [List.getElem?_append_left hlt] at hj
      exact h.aliased t j a hj ha
    · rw [List.getElem?_append_right hge] at hj
      obtain rfl := List.mem_singleton.mp (List.mem_of_getElem? hj)
      exact (hi.aliased a ha).trans_le hge
  spaced := by
    intro j hj
    rcases List.mem_append.mp hj with hj | hj
    · exact h.spaced j hj
    · exact List.mem_singleton.mp hj ▸ hi.spaced
  refs := by
    intro d hd
    exact (h.refs d hd).mono (by simp) le_rfl
  foreign := by
    intro j hj
    rcases List.mem_append.mp hj with hj | hj
    · exact h.foreign j hj
    · exact List.mem_singleton.mp hj ▸ hi.foreign

theorem addClass (h : s.Sound filename) (name : Str) :
    (⟨s.mTypes,s.types,s.classes ++ [.named name]⟩ : TypeStore).Sound filename :=
  { h with
    classes := fun i hi c hc => (h.classes i hi c hc).trans_le (by simp)
    refs := by
      intro d hd
      rcases List.mem_append.mp hd with hd | hd
      · exact (h.refs d hd).mono le_rfl (by simp)
      · rw [List.mem_singleton.mp hd]
        exact ClassDecl.refs_named name
    foreign := by
      intro i hi c hc hfile
      have hlt : c < s.classes.length := h.classes i hi c (by simp [TypeInfo.getClass, hc])
      rw [List.getElem?_append_left hlt]
      exact h.foreign i hi c hc hfile }

/-- A class that is no interface of another file is changed to one that refers to what there is. -/
theorem setClass (h : s.Sound filename) {c : ℕ} {f : ClassDecl → ClassDecl}
    (hown : ∀ i ∈ s.types, i.mType = .TYPE_INTERFACE c → i.mFilename = filename)
    (hf : ∀ d ∈ s.classes, (f d).Refs s.types.length s.classes.length) :
    (s.setClass c f).Sound filename :=
  { h with
    classes := fun i hi d hd => by simpa [TypeStore.setClass] using h.classes i hi d hd
    refs := by
      intro d hd
      have hlength : (s.setClass c f).classes.length = s.classes.length := by
        simp [TypeStore.setClass]
      rw [hlength]
      rcases mem_modify hd with hd | ⟨d',hd',rfl⟩
      · exact h.refs d hd
      · exact hf d' hd'
    foreign := by
      intro i hi d hd hfile
      have hne : c ≠ d := fun heq => hfile (hown i hi (heq ▸ hd))
      have hsame : (s.setClass c f).classes[d]? = s.classes[d]? := List.getElem?_modify_ne f _ hne
      rw [hsame]
      exact h.foreign i hi d hd hfile }

theorem findType_lt (h : s.Sound filename) {name ns : Str} {t : ℕ} (ht : s.findType name ns = some t) :
    t < s.types.length := by
  have hmem : t ∈ s.mTypes := by
    rw [TypeStore.findType, TypeManager.findType_eq_or, Option.or_eq_some_iff] at ht
    rcases ht with ht | ⟨-,ht⟩
    · exact List.mem_of_find?_eq_some ht
    · exact List.mem_of_find?_eq_some ht
  rw [h.mTypes] at hmem
  exact List.mem_range.mp hmem

/-- A built-in type is found. -/
theorem findType_builtin (h : s.Sound filename) {name : Str}
    (hname : ∃ b ∈ builtins, b.1.mName = name) : s.findType name [] ≠ none := by
  obtain ⟨b,hb,rfl⟩ := hname
  obtain ⟨t,ht,hget⟩ := List.getElem_of_mem (List.mem_map_of_mem (f := Prod.fst) hb)
  have hlt : t < s.types.length := ht.trans_le h.builtin.length_le
  have hmem : t ∈ s.mTypes := by
    rw [h.mTypes]
    exact List.mem_range.mpr hlt
  have hinfo : s.typeInfo t = b.1 := by
    rw [TypeStore.typeInfo, List.getD_eq_getElem?_getD, List.getElem?_eq_getElem hlt, Option.getD_some, ← h.builtin.getElem ht, hget]
  intro hnone
  rw [TypeStore.findType, TypeManager.findType_eq_or, Option.or_eq_none_iff] at hnone
  have hmiss := List.find?_eq_none.mp hnone.2 t hmem
  exact hmiss (decide_eq_true (congrArg TypeInfo.mName hinfo))

end TypeStore.Sound

namespace WalkData

theorem declare_eq (w : WalkData) (name : Str) (mType : TypeKind) (file : Str) :
    w.declare name mType file = (w.mTypes.types.length,
      { w with mTypes := ⟨w.mTypes.mTypes ++ [w.mTypes.types.length],
          w.mTypes.types ++ [⟨name,mType,[],file⟩],w.mTypes.classes⟩ }) := by
  simp only [declare, TypeStore.newType, TypeStore.addType, TypeStore.setType, modify_concat]

/-- A type that has just been declared is given some namespace. -/
theorem setScope_last (w : WalkData) (mTypes : List ℕ) (types : List TypeInfo)
    (classes : List ClassDecl) (name : Str) (mType : TypeKind) (file : Str) : ∃ ns,
    WalkData.setScope { w with mTypes := ⟨mTypes,types ++ [⟨name,mType,[],file⟩],classes⟩ } types.length =
      { w with mTypes := ⟨mTypes,types ++ [⟨name,mType,ns,file⟩],classes⟩ } := by
  unfold setScope
  dsimp only
  cases w.mCurrentClass with
  | none => exact ⟨[],rfl⟩
  | some c =>
    simp only [TypeStore.setType, modify_concat]
    exact ⟨_,rfl⟩

/-- The elements of an enumeration that has just been declared. -/
theorem addElements (mTypes : List ℕ) (types : List TypeInfo) (classes : List ClassDecl)
    (name ns file : Str) (elements es : List Str) :
    es.foldl (fun s e => s.setType types.length (·.addElement e))
        (⟨mTypes,types ++ [⟨name,.TYPE_ENUM elements,ns,file⟩],classes⟩ : TypeStore) =
      ⟨mTypes,types ++ [⟨name,.TYPE_ENUM (elements ++ es),ns,file⟩],classes⟩ := by
  induction es generalizing elements with
  | nil => rw [List.foldl_nil, List.append_nil]
  | cons e es ih =>
    have happend : elements ++ e :: es = elements ++ [e] ++ es := by simp
    rw [List.foldl_cons, TypeStore.setType, modify_concat, happend]
    exact ih (elements ++ [e])

namespace Ready
variable {filename : Str} {w w' : WalkData}

theorem create (filename : Str) : (WalkData.create filename).Ready filename where
  file := rfl
  sound := .create
  own := by simp [WalkData.create]
  method := by simp [WalkData.create]
  typed := by simp [WalkData.create, TypeStore.create]

theorem addErrors (h : w.Ready filename) (names : List Str) :
    ({ w with errors := w.errors ++ names } : WalkData).Ready filename :=
  { h with typed := fun hnone => h.typed (List.append_eq_nil_iff.mp hnone).1 }

/-- A type that is named is in the table, or there is an error. -/
theorem getType (h : w.Ready filename) (spec : Option IdlType) : ∃ t names,
    w.getType spec = (t,{ w with errors := w.errors ++ names }) ∧
      (∀ u ∈ t, u < w.mTypes.types.length) ∧ (names = [] → spec ≠ none → t ≠ none) := by
  have hbuiltin {name : Str} (hname : ∃ b ∈ builtins, b.1.mName = name) : ∃ t names,
      (w.mTypes.findType name [],w) = (t,{ w with errors := w.errors ++ names }) ∧
        (∀ u ∈ t, u < w.mTypes.types.length) ∧ (names = [] → spec ≠ none → t ≠ none) := by
    refine ⟨_,[],by rw [List.append_nil],?_,?_⟩
    · exact fun u hu => h.sound.findType_lt hu
    · exact fun _ _ => h.sound.findType_builtin hname
  cases spec with
  | none => exact ⟨none,[],by rw [List.append_nil]; rfl,by simp,by simp⟩
  | some spec =>
    cases spec with
    | IDLN_TYPE_INTEGER f_type f_signed =>
      apply hbuiltin
      cases f_type <;> cases f_signed <;> decide
    | IDLN_TYPE_FLOAT f_type =>
      apply hbuiltin
      cases f_type <;> decide
    | IDLN_TYPE_CHAR => exact hbuiltin (by decide)
    | IDLN_TYPE_STRING => exact hbuiltin (by decide)
    | IDLN_TYPE_BOOLEAN => exact hbuiltin (by decide)
    | IDLN_TYPE_ANY => exact hbuiltin (by decide)
    | IDLN_IDENT str =>
      unfold WalkData.getType
      dsimp only
      split
      · rename_i t ht
        refine ⟨some t,[],by rw [List.append_nil],?_,by simp⟩
        intro u hu
        obtain rfl := Option.some.inj hu
        exact h.sound.findType_lt ht
      · exact ⟨none,[str],rfl,by simp,by simp⟩
    | unsupported name => exact ⟨none,[name],rfl,by simp,by simp⟩

theorem leaveClass (h : w.Ready filename) : ({ w with mCurrentClass := none } : WalkData).Ready filename :=
  { h with own := by simp }

theorem enterClass (h : w.Ready filename) {c : ℕ} (hown : w.Own c) :
    ({ w with mCurrentClass := some c } : WalkData).Ready filename :=
  { h with
    own := by
      intro d hd
      obtain rfl := Option.some.inj hd
      exact hown }

theorem leaveMethod (h : w.Ready filename) : ({ w with mCurrentMethod := none } : WalkData).Ready filename :=
  { h with
    method := by simp
    typed := fun hnone => ⟨(h.typed hnone).1,by simp⟩ }

theorem enterMethod (h : w.Ready filename) {m : MethodDecl} (hm : m.Refs w.mTypes.types.length)
    (htyped : w.errors = [] → m.Typed) : ({ w with mCurrentMethod := some m } : WalkData).Ready filename :=
  { h with
    method := by
      intro m' hm'
      obtain rfl := Option.some.inj hm'
      exact hm
    typed := by
      intro hnone
      refine ⟨(h.typed hnone).1,?_⟩
      intro m' hm'
      obtain rfl := Option.some.inj hm'
      exact htyped hnone }

/-- The interfaces of a table have other classes than the one that comes next. -/
theorem class_ne (h : w.Ready filename) {i : TypeInfo} (hi : i ∈ w.mTypes.types) :
    i.mType ≠ .TYPE_INTERFACE w.mTypes.classes.length := by
  intro hclass
  have hlt := h.sound.classes i hi _ (by rw [TypeInfo.getClass, hclass]; rfl)
  exact lt_irrefl _ hlt

theorem addClass (h : w.Ready filename) (name : Str) :
    ({ w with mTypes := ⟨w.mTypes.mTypes,w.mTypes.types,w.mTypes.classes ++ [.named name]⟩ } :
      WalkData).Ready filename where
  file := h.file
  sound := h.sound.addClass name
  own c hc := by
    obtain ⟨hlt,hfile⟩ := h.own c hc
    exact ⟨hlt.trans_le (by simp),hfile⟩
  method := h.method
  typed hnone := by
    obtain ⟨hclasses,hmethod⟩ := h.typed hnone
    refine ⟨?_,hmethod⟩
    intro d hd
    rcases List.mem_append.mp hd with hd | hd
    · exact hclasses d hd
    · exact List.mem_singleton.mp hd ▸ ClassDecl.typed_named name

theorem addType (h : w.Ready filename) {i : TypeInfo} (hi : w.mTypes.Admits w.filename i)
    (hown : ∀ c ∈ w.mCurrentClass, i.mType = .TYPE_INTERFACE c → i.mFilename = w.filename) :
    ({ w with mTypes := ⟨w.mTypes.mTypes ++ [w.mTypes.types.length],w.mTypes.types ++ [i],
        w.mTypes.classes⟩ } : WalkData).Ready filename where
  file := h.file
  sound := h.sound.addType hi
  own c hc := by
    obtain ⟨hlt,hfile⟩ := h.own c hc
    refine ⟨hlt,?_⟩
    intro j hj
    rcases List.mem_append.mp hj with hj | hj
    · exact hfile j hj
    · exact List.mem_singleton.mp hj ▸ hown c hc
  method m hm := (h.method m hm).mono (by simp)
  typed := h.typed

/-- A class, and the interface that has it. -/
theorem addInterface (h : w.Ready filename) {ident : Str} (hident : ident ≠ []) (file : Str) :
    ({ w with mTypes := ⟨w.mTypes.mTypes ++ [w.mTypes.types.length],
        w.mTypes.types ++ [⟨ident,.TYPE_INTERFACE w.mTypes.classes.length,[],file⟩],
        w.mTypes.classes ++ [.named ident]⟩ } : WalkData).Ready filename := by
  refine (h.addClass ident).addType ?_ ?_
  · constructor
    case named => exact hident
    case classes => simp [TypeInfo.getClass]
    case aliased =>
      rintro a ⟨⟩
    case spaced => exact fun hne => absurd rfl hne
    case foreign =>
      rintro c ⟨⟩ -
      exact List.getElem?_concat_length
  · rintro c hc ⟨⟩
    exact absurd (h.own _ hc).1 (lt_irrefl _)

/-- A class, and the structure that has it. -/
theorem addStruct (h : w.Ready filename) {ident : Str} (hident : ident ≠ []) (ns file : Str) :
    WalkData.Ready filename { w with mTypes := ⟨w.mTypes.mTypes ++ [w.mTypes.types.length],
        w.mTypes.types ++ [⟨ident,.TYPE_STRUCT w.mTypes.classes.length,ns,file⟩],
        w.mTypes.classes ++ [.named ident]⟩ } ∧
      WalkData.Own { w with mTypes := ⟨w.mTypes.mTypes ++ [w.mTypes.types.length],
        w.mTypes.types ++ [⟨ident,.TYPE_STRUCT w.mTypes.classes.length,ns,file⟩],
        w.mTypes.classes ++ [.named ident]⟩ } w.mTypes.classes.length := by
  constructor
  · refine (h.addClass ident).addType ?_ ?_
    · constructor
      case named => exact hident
      case classes => simp [TypeInfo.getClass]
      case aliased =>
        rintro a ⟨⟩
      case spaced => exact fun _ => .inl ⟨_,rfl⟩
      case foreign =>
        rintro c ⟨⟩
    · rintro c - ⟨⟩
  · refine ⟨by simp,?_⟩
    intro i hi hclass
    rcases List.mem_append.mp hi with hi | hi
    · exact absurd hclass (h.class_ne hi)
    · rw [List.mem_singleton.mp hi] at hclass
      cases hclass

theorem addEnum (h : w.Ready filename) {ident : Str} (hident : ident ≠ []) (elements : List Str)
    (ns file : Str) :
    WalkData.Ready filename { w with mTypes := ⟨w.mTypes.mTypes ++ [w.mTypes.types.length],
        w.mTypes.types ++ [⟨ident,.TYPE_ENUM elements,ns,file⟩],w.mTypes.classes⟩ } := by
  refine h.addType ?_ ?_
  · constructor
    case named => exact hident
    case classes => simp [TypeInfo.getClass]
    case aliased =>
      rintro a ⟨⟩
    case spaced => exact fun _ => .inr ⟨_,rfl⟩
    case foreign =>
      rintro c ⟨⟩
  · rintro c - ⟨⟩

theorem own_interface (h : w.Ready filename) (ident : Str) {file : Str} (hfile : file = w.filename) :
    ({ w with mTypes := ⟨w.mTypes.mTypes ++ [w.mTypes.types.length],
        w.mTypes.types ++ [⟨ident,.TYPE_INTERFACE w.mTypes.classes.length,[],file⟩],
        w.mTypes.classes ++ [.named ident]⟩ } : WalkData).Own w.mTypes.classes.length := by
  refine ⟨by simp,?_⟩
  intro i hi hclass
  rcases List.mem_append.mp hi with hi | hi
  · exact absurd hclass (h.class_ne hi)
  · rw [List.mem_singleton.mp hi]
    exact hfile

theorem setClass (h : w.Ready filename) {c : ℕ} (hown : w.Own c) {f : ClassDecl → ClassDecl}
    (hrefs : ∀ d, d.Refs w.mTypes.types.length w.mTypes.classes.length →
      (f d).Refs w.mTypes.types.length w.mTypes.classes.length)
    (htyped : w.errors = [] → ∀ d, d.Typed → (f d).Typed) :
    ({ w with mTypes := w.mTypes.setClass c f } : WalkData).Ready filename where
  file := h.file
  sound := h.sound.setClass hown.2 fun d hd => hrefs d (h.sound.refs d hd)
  own d hd := by
    obtain ⟨hlt,hfile⟩ := h.own d hd
    exact ⟨by simpa [TypeStore.setClass] using hlt,hfile⟩
  method := h.method
  typed hnone := by
    obtain ⟨hclasses,hmethod⟩ := h.typed hnone
    refine ⟨?_,hmethod⟩
    intro d hd
    rcases mem_modify hd with hd | ⟨d',hd',rfl⟩
    · exact hclasses d hd
    · exact htyped hnone d' (hclasses d' hd')

/-- What is called for the class that the walk is in. -/
theorem inClass (h : w.Ready filename) {f : ClassDecl → ClassDecl} (hok : w.inClass f = .ok w')
    (hrefs : ∀ d, d.Refs w.mTypes.types.length w.mTypes.classes.length →
      (f d).Refs w.mTypes.types.length w.mTypes.classes.length)
    (htyped : w.errors = [] → ∀ d, d.Typed → (f d).Typed) : w'.Ready filename := by
  unfold WalkData.inClass at hok
  split at hok
  · cases hok
  · rename_i c hc
    obtain rfl := Except.ok.inj hok
    exact h.setClass (h.own c hc) hrefs htyped

theorem setIID (h : w.Ready filename) {iid : Option Str} (hok : w.setIID iid = .ok w') : w'.Ready filename := by
  cases iid with
  | none =>
    obtain rfl := Except.ok.inj hok
    exact h
  | some v =>
    refine h.inClass hok ?_ fun _ d hd => hd
    exact fun d hd => ⟨hd.methods,hd.fields,hd.parents⟩

theorem handleInheritance (h : w.Ready filename) {ident : Str} (hok : w.handleInheritance ident = .ok w') :
    w'.Ready filename := by
  unfold WalkData.handleInheritance at hok
  split at hok
  · cases hok
  · rename_i t ht
    split at hok
    · cases hok
    · rename_i c hc
      obtain rfl := Except.ok.inj hok
      have hlt := h.sound.findType_lt ht
      have hinfo := TypeStore.typeInfo_mem hlt
      refine h.setClass (h.own c hc) ?_ fun _ d hd => hd
      intro d hd
      refine { hd with parents := ?_ }
      intro p hp
      rcases List.mem_append.mp hp with hp | hp
      · exact hd.parents p hp
      · exact List.mem_singleton.mp hp ▸ h.sound.classes _ hinfo

theorem inheritance {idents : List Str} (h : w.Ready filename)
    (hok : idents.foldlM WalkData.handleInheritance w = .ok w') : w'.Ready filename := by
  induction idents generalizing w with
  | nil =>
    obtain rfl := Except.ok.inj hok
    exact h
  | cons ident idents ih =>
    rw [List.foldlM_cons] at hok
    obtain ⟨w₁,hone,hrest⟩ := bind_eq_ok.mp hok
    exact ih (h.handleInheritance hone) hrest

/-- A declarator of a member adds a field to the structure. -/
theorem structMemberDcl (h : w.Ready filename) {c : ℕ} (hown : w.Own c) {mType : Option ℕ}
    (hlt : ∀ t ∈ mType, t < w.mTypes.types.length) (htyped : w.errors = [] → mType ≠ none)
    (d : IdlDeclarator) : (structMemberDcl c mType w d).Ready filename ∧ (structMemberDcl c mType w d).Own c ∧
      (structMemberDcl c mType w d).mTypes.types = w.mTypes.types ∧
      (structMemberDcl c mType w d).errors = w.errors := by
  cases d with
  | IDLN_TYPE_ARRAY => exact ⟨h,hown,rfl,rfl⟩
  | IDLN_IDENT str file =>
    have hset : (WalkData.structMemberDcl c mType w (.IDLN_IDENT str file)).Ready filename := by
      refine h.setClass hown ?_ ?_
      · intro d hd
        refine { hd with fields := ?_ }
        intro f hf
        rcases List.mem_append.mp hf with hf | hf
        · exact hd.fields f hf
        · exact List.mem_singleton.mp hf ▸ hlt
      · intro hnone d hd
        refine ⟨hd.1,?_⟩
        intro f hf
        rcases List.mem_append.mp hf with hf | hf
        · exact hd.2 f hf
        · exact List.mem_singleton.mp hf ▸ htyped hnone
    refine ⟨hset,⟨?_,hown.2⟩,rfl,rfl⟩
    have hlength : (WalkData.structMemberDcl c mType w (.IDLN_IDENT str file)).mTypes.classes.length =
        w.mTypes.classes.length := by
      simp [WalkData.structMemberDcl, TypeStore.setClass]
    exact hlength ▸ hown.1

theorem structMemberDcls {ds : List IdlDeclarator} (h : w.Ready filename) {c : ℕ} (hown : w.Own c)
    {mType : Option ℕ} (hlt : ∀ t ∈ mType, t < w.mTypes.types.length)
    (htyped : w.errors = [] → mType ≠ none) :
    (ds.foldl (WalkData.structMemberDcl c mType) w).Ready filename ∧
      (ds.foldl (WalkData.structMemberDcl c mType) w).Own c := by
  induction ds generalizing w with
  | nil => exact ⟨h,hown⟩
  | cons d ds ih =>
    obtain ⟨h₁,hown₁,htypes,herrors⟩ := h.structMemberDcl hown hlt htyped d
    exact ih h₁ hown₁ (htypes ▸ hlt) (herrors ▸ htyped)

theorem structMember (h : w.Ready filename) {c : ℕ} (hown : w.Own c) {m : IdlMember} (hm : m.WellFormed) :
    (structMember c w m).Ready filename ∧ (structMember c w m).Own c := by
  cases m with
  | unhandled => exact ⟨h,hown⟩
  | IDLN_MEMBER type_spec dcls =>
    obtain ⟨t,names,hget,hlt,htyped⟩ := h.getType type_spec
    simp only [WalkData.structMember, hget]
    refine (h.addErrors names).structMemberDcls hown hlt ?_
    exact fun hnone => htyped (List.append_eq_nil_iff.mp hnone).2 hm

theorem structMembers {ms : List IdlMember} (h : w.Ready filename) {c : ℕ} (hown : w.Own c)
    (hms : ∀ m ∈ ms, m.WellFormed) :
    (ms.foldl (WalkData.structMember c) w).Ready filename ∧ (ms.foldl (WalkData.structMember c) w).Own c := by
  induction ms generalizing w with
  | nil => exact ⟨h,hown⟩
  | cons m ms ih =>
    obtain ⟨h₁,hown₁⟩ := h.structMember hown (hms m List.mem_cons_self)
    exact ih h₁ hown₁ fun m' hm' => hms m' (List.mem_cons_of_mem m hm')

/-- A typedef adds aliases of what is in front of them. -/
theorem typedefDcls {ds : List IdlDeclarator} (h : w.Ready filename) {mType : ℕ}
    (hlt : mType < w.mTypes.types.length) (hds : ∀ d ∈ ds, d.WellFormed) :
    (ds.foldl (typedefDcl mType) w).Ready filename := by
  induction ds generalizing w with
  | nil => exact h
  | cons d ds ih =>
    have hrest := fun d' hd' => hds d' (List.mem_cons_of_mem d hd')
    cases d with
    | IDLN_TYPE_ARRAY => exact ih h hlt hrest
    | IDLN_IDENT str file =>
      rw [List.foldl_cons, typedefDcl, declare_eq]
      have hadmits : w.mTypes.Admits w.filename ⟨str,.TYPE_ALIAS mType,[],file⟩ := by
        constructor
        case named => exact hds _ List.mem_cons_self
        case classes => simp [TypeInfo.getClass]
        case aliased =>
          rintro a ⟨⟩
          exact hlt
        case spaced => exact fun hne => absurd rfl hne
        case foreign =>
          rintro c ⟨⟩
      refine ih (h.addType hadmits ?_) ?_ hrest
      · rintro c - ⟨⟩
      · exact hlt.trans_le (by simp)

end Ready

end WalkData

open WalkData

/-- Whatever a node does, the table stays what it is. -/
theorem processTree_ready {filename : Str} {tree : IdlTree} {w w' : WalkData}
    (htree : tree.WellFormed) (h : w.Ready filename)
    (hok : processTree tree w = .ok w') : w'.Ready filename := by
  induction tree generalizing w w' with
  | null =>
    obtain rfl := Except.ok.inj hok
    exact h
  | unhandled =>
    obtain rfl := Except.ok.inj hok
    exact h
  | IDLN_LIST data next ihdata ihnext =>
    obtain ⟨w₁,hdata,hnext⟩ := bind_eq_ok.mp hok
    exact ihnext htree.2 (ihdata htree.1 h hdata) hnext
  | IDLN_INTERFACE file ident inheritance_spec body iid ih =>
    rw [processTree] at hok
    simp only [TypeStore.newClass, declare_eq] at hok
    have hdeclared := h.addInterface htree.1 file
    split_ifs at hok with hfile
    · obtain ⟨w₁,hinheritance,hok⟩ := bind_eq_ok.mp hok
      obtain ⟨w₂,hbody,hok⟩ := bind_eq_ok.mp hok
      have hentered := hdeclared.enterClass (h.own_interface ident hfile)
      have hready := ih htree.2 (hentered.inheritance hinheritance) hbody
      obtain ⟨w₃,hiid,hok⟩ := bind_eq_ok.mp hok
      obtain ⟨w₄,hconcrete,hok⟩ := bind_eq_ok.mp hok
      obtain rfl := Except.ok.inj hok
      apply WalkData.Ready.leaveClass
      refine (hready.setIID hiid).inClass hconcrete ?_ fun _ d hd => hd
      exact fun d hd => ⟨hd.methods,hd.fields,hd.parents⟩
    · obtain rfl := Except.ok.inj hok
      exact hdeclared.leaveClass
  | IDLN_OP_DCL ident op_type_spec parameter_dcls async ih =>
    obtain ⟨t,names,hget,hlt,-⟩ := h.getType op_type_spec
    simp only [processTree, hget] at hok
    obtain ⟨w₁,hparams,hok⟩ := bind_eq_ok.mp hok
    have hentered : WalkData.Ready filename { w with errors := w.errors ++ names, mCurrentMethod := some ⟨ident,t,[],false⟩ } :=
      (h.addErrors names).enterMethod ⟨hlt,by simp⟩ (by simp [MethodDecl.Typed])
    have hready := ih htree hentered hparams
    split at hok
    · cases hok
    · rename_i m hm
      obtain ⟨w₂,hadd,hok⟩ := bind_eq_ok.mp hok
      obtain rfl := Except.ok.inj hok
      apply WalkData.Ready.leaveMethod
      refine hready.inClass hadd ?_ ?_
      · intro d hd
        refine { hd with methods := ?_ }
        intro m' hm'
        rcases List.mem_append.mp hm' with hm' | hm'
        · exact hd.methods m' hm'
        · rw [List.mem_singleton.mp hm']
          exact hready.method m hm
      · intro hnone d hd
        refine ⟨?_,hd.2⟩
        intro m' hm'
        rcases List.mem_append.mp hm' with hm' | hm'
        · exact hd.1 m' hm'
        · rw [List.mem_singleton.mp hm']
          exact (hready.typed hnone).2 m hm
  | IDLN_PARAM_DCL attr simple_declarator param_type_spec =>
    obtain ⟨t,names,hget,hlt,htyped⟩ := h.getType param_type_spec
    simp only [processTree, hget] at hok
    split at hok
    · cases hok
    · rename_i m hm
      obtain rfl := Except.ok.inj hok
      apply (h.addErrors names).enterMethod
      · refine ⟨(h.method m hm).1,?_⟩
        intro p hp
        rcases List.mem_append.mp hp with hp | hp
        · exact (h.method m hm).2 p hp
        · exact List.mem_singleton.mp hp ▸ hlt
      · intro hnone p hp
        obtain ⟨hbefore,hnames⟩ := List.append_eq_nil_iff.mp hnone
        rcases List.mem_append.mp hp with hp | hp
        · exact (h.typed hbefore).2 m hm p hp
        · exact List.mem_singleton.mp hp ▸ htyped hnames htree
  | IDLN_TYPE_STRUCT file ident member_list =>
    simp only [processTree, TypeStore.newClass] at hok
    rw [declare_eq] at hok
    obtain ⟨ns,hscope⟩ := setScope_last w (w.mTypes.mTypes ++ [w.mTypes.types.length]) w.mTypes.types
      (w.mTypes.classes ++ [.named ident]) ident (.TYPE_STRUCT w.mTypes.classes.length) file
    obtain ⟨hready,hown⟩ := h.addStruct htree.1 ns file
    rw [← hscope] at hready hown
    obtain ⟨hmembers,hown'⟩ := hready.structMembers hown htree.2
    obtain rfl := Except.ok.inj hok
    refine hmembers.setClass hown' ?_ fun _ d hd => hd
    exact fun d hd => ⟨hd.methods,hd.fields,hd.parents⟩
  | IDLN_TYPE_ENUM file ident enumerator_list =>
    simp only [processTree] at hok
    rw [declare_eq] at hok
    obtain ⟨ns,hscope⟩ := setScope_last w (w.mTypes.mTypes ++ [w.mTypes.types.length]) w.mTypes.types
      w.mTypes.classes ident (.TYPE_ENUM []) file
    dsimp only at hok
    rw [hscope] at hok
    simp only [addElements, List.nil_append] at hok
    obtain rfl := Except.ok.inj hok
    exact h.addEnum htree enumerator_list ns file
  | IDLN_TYPE_DCL type_spec dcls =>
    obtain ⟨t,names,hget,hlt,-⟩ := h.getType type_spec
    simp only [processTree, hget] at hok
    cases t with
    | none => cases hok
    | some t =>
      obtain rfl := Except.ok.inj hok
      exact (h.addErrors names).typedefDcls (hlt t rfl) htree

/-- A type that another one is nested in is an interface. -/
theorem nested_interface {m : TypeManager} {t u : ℕ} (h : u ∈ m.nested t) :
    (∃ c, (m.typeInfo t).mType = .TYPE_INTERFACE c) ∧ u ∈ m.mTypes ∧
      (m.typeInfo u).mNamespace = (m.typeInfo t).mName := by
  unfold TypeManager.nested at h
  split at h
  · rename_i c hc
    have hu := List.mem_filter.mp h
    exact ⟨⟨c,hc⟩,hu.1,of_decide_eq_true hu.2⟩
  · cases h

/-- Types are nested to a finite depth: what has a namespace is no interface. -/
theorem TypeStore.Sound.finite {filename : Str} {s : TypeStore} (h : s.Sound filename)
    (classInfo : ℕ → ClassInfo) :
    WellFounded fun u t => u ∈ (s.manager classInfo).nested t := by
  have hdepth {t u v : ℕ} (hu : u ∈ (s.manager classInfo).nested t)
      (hv : v ∈ (s.manager classInfo).nested u) : False := by
    obtain ⟨⟨c,hc⟩,hmem,hspace⟩ := nested_interface hu
    obtain ⟨⟨d,hd⟩,-,-⟩ := nested_interface hv
    have ht : t < s.types.length := TypeStore.lt_of_interface hc
    have hu' : u < s.types.length := List.mem_range.mp (h.mTypes ▸ hmem)
    have hne : (s.typeInfo u).mNamespace ≠ [] := by
      have hsame : (s.typeInfo u).mNamespace = (s.typeInfo t).mName := hspace
      rw [hsame]
      exact h.named _ (TypeStore.typeInfo_mem ht)
    have hkind : (s.typeInfo u).mType = .TYPE_INTERFACE d := hd
    rcases h.spaced _ (TypeStore.typeInfo_mem hu') hne with ⟨e,he⟩ | ⟨es,he⟩
    · rw [hkind] at he
      cases he
    · rw [hkind] at he
      cases he
  exact ⟨fun t => .intro t fun u hu => .intro u fun v hv => (hdepth hu hv).elim⟩

/-- Of any tree, whatever errors are found in it, the walk makes a table whose types stand in the order of
their declarations behind the built-in ones, and refer to what is in it: an alias to a type in front of
it, a class to types and classes of the table. Interfaces of other files have nothing but a name. The
types are nested to a finite depth, so that they can be written, and where no error is told of every
parameter and every field has a type. -/
theorem processTree_table (filename : Str) (tree : IdlTree) (htree : tree.WellFormed) (w : WalkData)
    (hok : processTree tree (create filename) = .ok w) :
    w.mTypes.Sound filename ∧
      (∀ classInfo, WellFounded fun u t => u ∈ (w.mTypes.manager classInfo).nested t) ∧
      (w.errors = [] → ∀ d ∈ w.mTypes.classes, d.Typed) := by
  have hready := processTree_ready htree (.create filename) hok
  exact ⟨hready.file ▸ hready.sound,hready.sound.finite,fun hnone => (hready.typed hnone).1⟩


/-- An interface with a structure in it, and an operation on the structure. -/
def interfaceTree : IdlTree :=
  .IDLN_INTERFACE (lit "a.idl") (lit "I") []
    (.IDLN_LIST
      (.IDLN_TYPE_STRUCT (lit "a.idl") (lit "P")
        [.IDLN_MEMBER (some .IDLN_TYPE_CHAR) [.IDLN_IDENT (lit "c") (lit "a.idl")]])
      (.IDLN_OP_DCL (lit "put") none (.IDLN_PARAM_DCL .PARAM_IN (lit "p") (some (.IDLN_IDENT (lit "P")))) true))
    none

theorem processTree_table_interface : ∃ w : WalkData,
    processTree interfaceTree (create (lit "a.idl")) = .ok w ∧ w.mTypes.Sound (lit "a.idl") ∧
      (∀ classInfo, WellFounded fun u t => u ∈ (w.mTypes.manager classInfo).nested t) ∧
      (w.errors = [] → ∀ d ∈ w.mTypes.classes, d.Typed) := by
  have htree : interfaceTree.WellFormed := by
    simp [interfaceTree, IdlTree.WellFormed, IdlMember.WellFormed, lit]
  exact ⟨_,rfl,processTree_table (lit "a.idl") interfaceTree htree _ rfl⟩

end JhCommon
