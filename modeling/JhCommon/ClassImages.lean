import JhCommon.ClassFile
import JhCommon.WalkNames

/-! The file of classes that `jhidl.cpp` writes for a tree, and the table that is made of the file. -/
namespace JhCommon
open DepthFirst XmlText

/-- Nothing is NULL in a class. -/
structure ClassDecl.Complete (d : ClassDecl) : Prop where
  methods : ∀ m ∈ d.mMethods, m.Typed
  fields : ∀ f ∈ d.mFields, f.mType.isSome
  parents : ∀ p ∈ d.mParents, p.isSome

def MethodDecl.info (m : MethodDecl) (h : m.Typed) : Method :=
  ⟨m.mName,m.mRetType,
    m.mParamTypes.pmap (fun p (hp : p.mType ≠ none) =>
      ⟨p.mName,p.mParamType,p.mType.get (Option.isSome_iff_ne_none.mpr hp)⟩) fun p hp => h p hp,
    m.mAsync⟩

def ClassDecl.info (d : ClassDecl) (h : d.Complete) : ClassInfo :=
  ⟨d.mName,d.mParents.pmap Option.get h.parents,d.mMethods.pmap MethodDecl.info h.methods,
    d.mFields.pmap (fun f hf => ⟨f.mName,f.mType.get hf⟩) h.fields,d.mIID⟩

namespace TypeStore
variable {filename : Str}

/-- No class of the table has a NULL in it. -/
def Complete (s : TypeStore) : Prop := ∀ d ∈ s.classes, d.Complete

def classInfo (s : TypeStore) (h : s.Complete) (c : ℕ) : ClassInfo :=
  if hc : c < s.classes.length then s.classes[c].info (h _ (List.getElem_mem hc)) else ⟨[],[],[],[],[]⟩

/-- The DumpXML that `main` makes. -/
def dumper (s : TypeStore) (h : s.Sound filename) (hc : s.Complete) : DumpXML :=
  ⟨filename,s.manager (s.classInfo hc),h.finite _⟩

/-- The interfaces of a file, with their classes. -/
def interfaces (s : TypeStore) (filename : Str) : List (ℕ × ClassDecl) :=
  (List.range s.types.length).filterMap fun t =>
    match (s.typeInfo t).mType with
    | .TYPE_INTERFACE c =>
      if (s.typeInfo t).mFilename = filename then s.classes[c]?.map fun d => (t,d) else none
    | _ => none

/-- Where a type is in the table of who has loaded these interfaces behind the built-in types. -/
def image (s : TypeStore) (loaded : List (ℕ × ClassDecl)) (t : ℕ) : Option ℕ :=
  if t < builtins.length then some t
  else (loaded.findIdx? fun i => (s.typeInfo i.1).mName = (s.typeInfo t).mName).map (builtins.length + ·)

end TypeStore

/-- A method with other types. -/
def MethodDecl.retype (f : ℕ → Option ℕ) (m : MethodDecl) : MethodDecl :=
  ⟨m.mName,m.mRetType.bind f,m.mParamTypes.map fun p => ⟨p.mName,p.mParamType,p.mType.bind f⟩,m.mAsync⟩

/-- The table of who has loaded these interfaces. A class refers to those in front of it. -/
def TypeStore.reloaded (s : TypeStore) (is : List (ℕ × ClassDecl)) : TypeStore where
  mTypes := List.range (builtins.length + is.length)
  types := builtins.map Prod.fst ++ is.mapIdx fun n i => ⟨(s.typeInfo i.1).mName,.TYPE_INTERFACE n,[],[]⟩
  classes := is.mapIdx fun n i =>
    ⟨(s.typeInfo i.1).mName,false,[],i.2.mMethods.map (.retype (s.image (is.take n))),[],i.2.mIID⟩

namespace TypeStore
variable {filename : Str} {s : TypeStore} {is : List (ℕ × ClassDecl)} {t : ℕ}

/-- The type that a reference is to is found by its name. -/
theorem findIdx?_of_first (h : FirstNamed s.names t) :
    s.names.findIdx? (· = (s.typeInfo t).mName) = some t := by
  obtain ⟨name,hname⟩ := h
  obtain ⟨hlt,heq,-⟩ := List.findIdx?_eq_some_iff_getElem.mp hname
  have hlt' : t < s.types.length := by simpa [names] using hlt
  have hsame : (s.typeInfo t).mName = name := by
    rw [← of_decide_eq_true heq]
    simp [names, typeInfo, hlt']
  rw [hsame, hname]

theorem name_ne_of_first (h : FirstNamed s.names t) {u : ℕ} (hu : u < t) :
    (s.typeInfo u).mName ≠ (s.typeInfo t).mName := by
  obtain ⟨hlt,-,hbefore⟩ := List.findIdx?_eq_some_iff_getElem.mp (findIdx?_of_first h)
  have hu' : u < s.names.length := hu.trans hlt
  have hlt' : u < s.types.length := by simpa [names] using hu'
  have hname : s.names[u] = (s.typeInfo u).mName := by
    simp [names, typeInfo, hlt']
  have hno := hbefore u hu
  rw [hname] at hno
  exact fun heq => hno (decide_eq_true heq)

theorem names_reloaded (s : TypeStore) (is : List (ℕ × ClassDecl)) : (s.reloaded is).names =
    (builtins.map Prod.fst).map TypeInfo.mName ++ is.map fun i => (s.typeInfo i.1).mName := by
  rw [names, reloaded, List.map_append]
  congr 1
  exact List.ext_getElem (by simp) (by simp)

/-- A name is found where the type's image is. -/
theorem findType_reloaded (h : s.Sound filename) (ht : FirstNamed s.names t) (is : List (ℕ × ClassDecl)) :
    (s.reloaded is).findType (s.typeInfo t).mName [] = s.image is t := by
  have hlisted : (s.reloaded is).mTypes = List.range (s.reloaded is).types.length := by
    simp [reloaded]
  have hpass := (s.reloaded is).find?_names hlisted (s.typeInfo t).mName
  have hfound := findIdx?_of_first ht
  obtain ⟨rest,hrest⟩ := h.builtin
  have hnames : s.names = (builtins.map Prod.fst).map TypeInfo.mName ++ rest.map TypeInfo.mName := by
    rw [names, ← hrest, List.map_append]
  have hlength : ((builtins.map Prod.fst).map TypeInfo.mName).length = builtins.length := by simp
  rw [hnames, List.findIdx?_append, hlength] at hfound
  have hlookup : (s.reloaded is).findType (s.typeInfo t).mName [] =
      (s.reloaded is).names.findIdx? (· = (s.typeInfo t).mName) := by
    rw [findType, TypeManager.findType_eq_or]
    exact (congrArg₂ Option.or hpass hpass).trans Option.or_self
  rw [hlookup, names_reloaded, List.findIdx?_append, hlength, image]
  -- both tables start with the built-in types
  rcases Option.or_eq_some_iff.mp hfound with hbuiltin | ⟨hnone,hother⟩
  · have hlt : t < builtins.length := by
      have hidx := (List.findIdx?_eq_some_iff_getElem.mp hbuiltin).1
      rwa [hlength] at hidx
    rw [hbuiltin, Option.some_or, if_pos hlt]
  · have hge : ¬t < builtins.length := by
      obtain ⟨i,-,rfl⟩ := Option.map_eq_some_iff.mp hother
      omega
    rw [hnone, Option.none_or, if_neg hge, List.findIdx?_map]
    simp only [Nat.add_comm]
    rfl

/-- Of two interfaces of a file the first one is in front of the second one in the table. -/
theorem interfaces_pairwise (s : TypeStore) (filename : Str) :
    (s.interfaces filename).Pairwise fun i j => i.1 < j.1 := by
  refine List.Pairwise.filterMap _ ?_ List.pairwise_lt_range
  intro t u hlt i hi j hj
  have hfst {t : ℕ} {i : ℕ × ClassDecl} (hi : i ∈ (match (s.typeInfo t).mType with
      | .TYPE_INTERFACE c =>
        if (s.typeInfo t).mFilename = filename then s.classes[c]?.map fun d => (t,d) else none
      | _ => none)) : i.1 = t := by
    split at hi
    · split_ifs at hi
      · obtain ⟨d,-,rfl⟩ := Option.map_eq_some_iff.mp hi
        rfl
      · cases hi
    · cases hi
  rw [hfst hi, hfst hj]
  exact hlt

theorem mem_interfaces {i : ℕ × ClassDecl} : i ∈ s.interfaces filename ↔ i.1 < s.types.length ∧
    (s.typeInfo i.1).mFilename = filename ∧
      ∃ c, (s.typeInfo i.1).mType = .TYPE_INTERFACE c ∧ s.classes[c]? = some i.2 := by
  obtain ⟨t,d⟩ := i
  rw [interfaces, List.mem_filterMap]
  constructor
  · rintro ⟨u,hu,hmatch⟩
    split at hmatch
    · rename_i c hc
      split_ifs at hmatch with hfile
      obtain ⟨d',hd',heq⟩ := Option.map_eq_some_iff.mp hmatch
      obtain ⟨rfl,rfl⟩ := Prod.mk.inj heq
      exact ⟨List.mem_range.mp hu,hfile,c,hc,hd'⟩
    · cases hmatch
  · rintro ⟨hlt,hfile,c,hc,hd⟩
    refine ⟨t,List.mem_range.mpr hlt,?_⟩
    simp only at hfile hc hd
    simp only [hc, hfile, hd, if_true, Option.map_some]

/-- An interface that stands in front is found again. -/
theorem image_interface (h : s.Sound filename) (ht : FirstNamed s.names t) {n k : ℕ} (hk : k < n)
    {d : ClassDecl} (hget : (s.interfaces filename)[k]? = some (t,d)) :
    s.image ((s.interfaces filename).take n) t = some (builtins.length + k) := by
  have hmem := mem_interfaces.mp (List.mem_of_getElem? hget)
  obtain ⟨hlt,-,c,hc,-⟩ := hmem
  have hge : ¬t < builtins.length := by
    intro hbuiltin
    have hplain : ∀ b ∈ builtins, ∀ c, b.1.mType ≠ .TYPE_INTERFACE c := by simp [builtins]
    have hbuiltin' : t < (builtins.map Prod.fst).length := by rwa [List.length_map]
    have hinfo : s.typeInfo t = builtins[t].1 := by
      have hget := h.builtin.getElem hbuiltin'
      rw [typeInfo, List.getD_eq_getElem?_getD, List.getElem?_eq_getElem hlt, Option.getD_some, ← hget,
        List.getElem_map]
      rfl
    simp only [hinfo] at hc
    exact hplain _ (List.getElem_mem hbuiltin) c hc
  obtain ⟨hklt,hkeq⟩ := List.getElem?_eq_some_iff.mp hget
  have hfind : ((s.interfaces filename).take n).findIdx?
      (fun i => (s.typeInfo i.1).mName = (s.typeInfo t).mName) = some k := by
    rw [List.findIdx?_eq_some_iff_getElem]
    have htake : k < ((s.interfaces filename).take n).length := by
      rw [List.length_take]
      exact lt_min hk hklt
    refine ⟨htake,by simp [hkeq],?_⟩
    intro j hj hsame
    have hjlt : j < (s.interfaces filename).length := hj.trans hklt
    rw [List.getElem_take] at hsame
    -- the reference is to the first type of the name, which that one would be in front of
    have hbefore : (s.interfaces filename)[j].1 < t := by
      have hpair := List.pairwise_iff_getElem.mp (s.interfaces_pairwise filename) j k hjlt hklt hj
      rwa [hkeq] at hpair
    exact name_ne_of_first ht hbefore (of_decide_eq_true hsame)
  rw [image, if_neg hge, hfind, Option.map_some]

section Loading
variable {d : DumpXML}

/-- Behind the interfaces that are loaded, the next one is. -/
theorem reloaded_concat (s : TypeStore) (is : List (ℕ × ClassDecl)) (i : ℕ × ClassDecl) :
    s.reloaded (is ++ [i]) =
      { mTypes := (s.reloaded is).mTypes ++ [(s.reloaded is).types.length]
        types := (s.reloaded is).types ++ [⟨(s.typeInfo i.1).mName,
          .TYPE_INTERFACE (s.reloaded is).classes.length,[],[]⟩]
        classes := (s.reloaded is).classes ++ [⟨(s.typeInfo i.1).mName,false,[],
          i.2.mMethods.map (.retype (s.image is)),[],i.2.mIID⟩] } := by
  have hclasses : is.mapIdx (fun n j => (⟨(s.typeInfo j.1).mName,false,[],
        j.2.mMethods.map (.retype (s.image ((is ++ [i]).take n))),[],j.2.mIID⟩ : ClassDecl)) =
      is.mapIdx fun n j => ⟨(s.typeInfo j.1).mName,false,[],
        j.2.mMethods.map (.retype (s.image (is.take n))),[],j.2.mIID⟩ := by
    rw [List.mapIdx_eq_mapIdx_iff]
    -- the classes that are there look at nothing behind them
    intro n hn
    rw [List.take_append_of_le_length hn.le]
  simp only [reloaded, List.mapIdx_concat, hclasses, List.length_append, List.length_singleton,
    List.length_map, List.length_mapIdx, List.append_assoc, List.take_left', ← Nat.add_assoc,
    List.range_succ]

/-- The types of a method that is loaded are looked up. -/
theorem restoreMethod_info {m : MethodDecl} (hm : m.Typed) (l : TypeStore)
    (hnames : ∀ t, d.getTypeName t = (s.typeInfo t).mName)
    (hfound : ∀ t ∈ m.types, l.findType (s.typeInfo t).mName [] = s.image is t) :
    l.restoreMethod d (m.info hm) = m.retype (s.image is) := by
  have hret : (m.mRetType.bind fun t => l.findType (d.getTypeName t) []) = m.mRetType.bind (s.image is) := by
    cases hr : m.mRetType with
    | none => rfl
    | some t =>
      rw [Option.bind_some, Option.bind_some, hnames]
      apply hfound
      simp [MethodDecl.types, hr]
  have hparams : (m.info hm).mParamTypes.map (l.restoreParam d) =
      m.mParamTypes.map fun p => ⟨p.mName,p.mParamType,p.mType.bind (s.image is)⟩ := by
    have htyped : ∀ p ∈ m.mParamTypes, p.mType ≠ none := fun p hp => hm p hp
    rw [← List.pmap_eq_map htyped, MethodDecl.info, List.map_pmap]
    apply List.pmap_congr_left
    intro p hp h₁ h₂
    obtain ⟨t,ht⟩ := Option.ne_none_iff_exists'.mp h₁
    have hmem : t ∈ m.types := List.mem_append_right _ (List.mem_filterMap.mpr ⟨p,hp,ht⟩)
    simp only [restoreParam, hnames, ht, Option.get_some, Option.bind_some, hfound t hmem]
  have hmethod : l.restoreMethod d (m.info hm) = ⟨m.mName,
      m.mRetType.bind fun t => l.findType (d.getTypeName t) [],
      (m.info hm).mParamTypes.map (l.restoreParam d),m.mAsync⟩ := rfl
  rw [hmethod, hret, hparams, MethodDecl.retype]

variable {P : Str → Prop} {h : s.Sound filename} {hc : s.Complete}

theorem classInfo_eq (hc : s.Complete) {c : ℕ} {x : ClassDecl} (hx : s.classes[c]? = some x) :
    ∃ hcomplete, s.classInfo hc c = x.info hcomplete := by
  obtain ⟨hlt,rfl⟩ := List.getElem?_eq_some_iff.mp hx
  exact ⟨_,dif_pos hlt⟩

/-- Only interfaces of the file are loaded. -/
theorem foldl_roots (l : TypeStore) : (s.dumper h hc).roots.foldl (restoreType (s.dumper h hc)) l =
    (s.interfaces filename).foldl (fun l i => restoreType (s.dumper h hc) l i.1) l := by
  have hroots : (s.dumper h hc).roots = ((List.range s.types.length).filter fun t =>
      (s.typeInfo t).mFilename = filename).filter fun t => (s.typeInfo t).mNamespace.length = 0 := by
    rw [← h.mTypes]
    rfl
  rw [hroots, interfaces, List.foldl_filter, List.foldl_filter, List.foldl_filterMap]
  apply List.foldl_ext
  intro l t ht
  have hmem := typeInfo_mem (List.mem_range.mp ht)
  have hkind (hother : ∀ c, (s.typeInfo t).mType ≠ .TYPE_INTERFACE c) :
      restoreType (s.dumper h hc) l t = l := by
    have hinfo : (s.dumper h hc).mTypes.typeInfo t = s.typeInfo t := rfl
    rw [restoreType, hinfo]
    split
    · rename_i c hc
      exact absurd hc (hother c)
    · rfl
  cases hcase : (s.typeInfo t).mType with
  | TYPE_INTERFACE c =>
    -- an interface has no namespace, and so is written by itself
    have hlt : c < s.classes.length := h.classes _ hmem c (by rw [TypeInfo.getClass, hcase]; rfl)
    have hspace : (s.typeInfo t).mNamespace = [] := by
      by_contra hne
      rcases h.spaced _ hmem hne with ⟨c',hc'⟩ | ⟨es,hes⟩
      · rw [hcase] at hc'
        cases hc'
      · rw [hcase] at hes
        cases hes
    by_cases hfile : (s.typeInfo t).mFilename = filename
    · simp [hfile, hspace, hlt]
    · simp [hfile]
  | _ =>
    have hsame := hkind fun c hc => by rw [hcase] at hc; cases hc
    simp [hsame]

/-- The next interface of the file is loaded. -/
theorem restoreType_reloaded (hs : s.Spelled P) {i : ℕ × ClassDecl} (hi : i ∈ s.interfaces filename)
    (is : List (ℕ × ClassDecl)) :
    restoreType (s.dumper h hc) (s.reloaded is) i.1 = s.reloaded (is ++ [i]) := by
  obtain ⟨-,-,c,hkind,hget⟩ := mem_interfaces.mp hi
  obtain ⟨hcomplete,hinfo⟩ := classInfo_eq hc hget
  have hmethods : (i.2.info hcomplete).mMethods.map ((s.reloaded is).restoreMethod (s.dumper h hc)) =
      i.2.mMethods.map (.retype (s.image is)) := by
    rw [← List.pmap_eq_map hcomplete.methods, ClassDecl.info, List.map_pmap]
    apply List.pmap_congr_left
    intro m hm h₁ h₂
    refine restoreMethod_info h₁ _ (fun _ => rfl) ?_
    intro t ht
    exact findType_reloaded h (((hs.classes _ (List.mem_of_getElem? hget)).methods m hm).types t ht) is
  have hdumper : restoreType (s.dumper h hc) (s.reloaded is) i.1 =
      (s.reloaded is).restoreClass (s.dumper h hc) (s.typeInfo i.1).mName (s.classInfo hc c) := by
    have hkind' : ((s.dumper h hc).mTypes.typeInfo i.1).mType = .TYPE_INTERFACE c := hkind
    rw [restoreType, hkind']
    rfl
  rw [hdumper, hinfo, restoreClass, hmethods, reloaded_concat]
  rfl

theorem foldl_reloaded (hs : s.Spelled P) {is js : List (ℕ × ClassDecl)}
    (hsplit : s.interfaces filename = is ++ js) :
    js.foldl (fun l i => restoreType (s.dumper h hc) l i.1) (s.reloaded is) =
      s.reloaded (s.interfaces filename) := by
  induction js generalizing is with
  | nil => rw [List.foldl_nil, hsplit, List.append_nil]
  | cons i js ih =>
    have hi : i ∈ s.interfaces filename := by
      rw [hsplit]
      exact List.mem_append_right _ List.mem_cons_self
    rw [List.foldl_cons, restoreType_reloaded hs hi]
    exact ih (by rw [hsplit, List.append_assoc]; rfl)

theorem reloaded_nil (s : TypeStore) : s.reloaded [] = TypeStore.create := by
  simp [reloaded, TypeStore.create]

/-- A type that is written is one of the file or is nested in one. -/
theorem mem_dumped {d : DumpXML} (ht : t ∈ d.dumped) : t ∈ d.roots ∨ ∃ u, t ∈ d.mTypes.nested u := by
  obtain ⟨r,hr,hmem⟩ := List.mem_flatMap.mp ht
  rcases eq_or_next_of_mem hmem with rfl | hnext
  · exact .inl hr
  · exact .inr hnext

/-- The kinds of types that are written. -/
theorem kind_of_dumped (hs : s.Spelled P) (hfile : filename ≠ [])
    (hplain : ∀ i ∈ s.types, i.mFilename = filename → ∀ a, i.mType ≠ .TYPE_ALIAS a)
    (ht : t ∈ (s.dumper h hc).dumped) : s.typeInfo t ∈ s.types ∧
      ((s.typeInfo t).getClass.isSome ∨ ∃ es, (s.typeInfo t).mType = .TYPE_ENUM es) := by
  have hmade {t : ℕ} (ht : t ∈ s.mTypes) : s.typeInfo t ∈ s.types := by
    rw [h.mTypes] at ht
    exact typeInfo_mem (List.mem_range.mp ht)
  rcases mem_dumped ht with hroot | ⟨u,hu⟩
  · obtain ⟨hmem,hsame⟩ := List.mem_filter.mp (List.mem_filter.mp hroot).1
    have hinfo := hmade hmem
    refine ⟨hinfo,?_⟩
    have hsame : (s.typeInfo t).mFilename = filename := of_decide_eq_true hsame
    have hdeclared := hs.declared _ hinfo (hsame ▸ hfile)
    have halias := hplain _ hinfo hsame
    unfold TypeInfo.Declared at hdeclared
    unfold TypeInfo.getClass
    cases hkind : (s.typeInfo t).mType <;> simp_all
  · obtain ⟨⟨c,hkind⟩,hmem,hspace⟩ := nested_interface hu
    have hinfo := hmade hmem
    refine ⟨hinfo,?_⟩
    have hlt : u < s.types.length := lt_of_interface hkind
    have hspace : (s.typeInfo t).mNamespace = (s.typeInfo u).mName := hspace
    have hne : (s.typeInfo t).mNamespace ≠ [] := by
      rw [hspace]
      exact h.named _ (typeInfo_mem hlt)
    rcases h.spaced _ hinfo hne with ⟨c,hc⟩ | henum
    · refine .inl ?_
      rw [TypeInfo.getClass, hc]
      rfl
    · exact .inr henum

/-- A method whose names can be written, with types of the table. -/
theorem writableMethod_info (hs : s.Spelled IsContent) {m : MethodDecl} (hm : m.Typed)
    (hspelled : m.Spelled IsContent s.names) (hrefs : m.Refs s.types.length) :
    (s.dumper h hc).WritableMethod (m.info hm) := by
  have htype {t : ℕ} (ht : t < s.types.length) : IsContent (s.typeInfo t).mName :=
    hs.types _ (typeInfo_mem ht)
  constructor
  case name => exact hspelled.name
  case ret => exact fun t ht => htype (hrefs.1 t ht)
  case params =>
    intro p hp
    obtain ⟨p',hp',rfl⟩ := List.mem_pmap.mp hp
    exact ⟨htype (hrefs.2 p' hp' _ (Option.get_mem (Option.isSome_iff_ne_none.mpr (hm p' hp')))),hspelled.params p' hp'⟩

theorem writable_dumped (hs : s.Spelled IsContent) (hfile : filename ≠ [])
    (hplain : ∀ i ∈ s.types, i.mFilename = filename → ∀ a, i.mType ≠ .TYPE_ALIAS a)
    (ht : t ∈ (s.dumper h hc).dumped) : (s.dumper h hc).Writable t := by
  obtain ⟨hmem,hkind⟩ := kind_of_dumped hs hfile hplain ht
  refine ⟨hs.types _ hmem,?_⟩
  have hclass {c : ℕ} (hget : (s.typeInfo t).getClass = some c) :
      ∃ d, s.classes[c]? = some d ∧ d ∈ s.classes := by
    have hlt := h.classes _ hmem c hget
    exact ⟨_,List.getElem?_eq_getElem hlt,List.getElem_mem hlt⟩
  have hinfo : (s.dumper h hc).mTypes.typeInfo t = s.typeInfo t := rfl
  rw [hinfo]
  unfold TypeInfo.getClass at hkind hclass
  cases hcase : (s.typeInfo t).mType with
  | TYPE_STRUCT c =>
    obtain ⟨d,hd,hmem⟩ := hclass (by rw [hcase])
    obtain ⟨hcomplete,hx⟩ := classInfo_eq hc hd
    intro f hf
    have hf : f ∈ (s.classInfo hc c).mFields := hf
    rw [hx] at hf
    obtain ⟨f',hf',rfl⟩ := List.mem_pmap.mp hf
    have hlt := (h.refs d hmem).fields f' hf' _ (Option.get_mem (hcomplete.fields f' hf'))
    exact ⟨hs.types _ (typeInfo_mem hlt),(hs.classes d hmem).fields f' hf'⟩
  | TYPE_INTERFACE c =>
    obtain ⟨d,hd,hmem⟩ := hclass (by rw [hcase])
    obtain ⟨hcomplete,hx⟩ := classInfo_eq hc hd
    have hx : (s.dumper h hc).mTypes.classInfo c = d.info hcomplete := hx
    dsimp only
    rw [hx]
    refine ⟨?_,(hs.classes d hmem).iid,?_⟩
    · intro p hp
      obtain ⟨p',hp',rfl⟩ := List.mem_pmap.mp hp
      have hlt := (h.refs d hmem).parents p' hp' _ (Option.get_mem (hcomplete.parents p' hp'))
      obtain ⟨hcomplete',hparent⟩ := classInfo_eq hc (List.getElem?_eq_getElem hlt)
      have hparent : (s.dumper h hc).mTypes.classInfo _ = _ := hparent
      rw [hparent]
      exact (hs.classes _ (List.getElem_mem hlt)).name
    · intro m hm
      obtain ⟨m',hm',rfl⟩ := List.mem_pmap.mp hm
      exact writableMethod_info hs _ ((hs.classes d hmem).methods m' hm') ((h.refs d hmem).methods m' hm')
  | TYPE_ENUM es => exact hs.elements _ hmem es hcase
  | _ => simp [hcase] at hkind

end Loading

end TypeStore

open WalkData

theorem content_builtin : ∀ b ∈ builtins, IsContent b.1.mName := by decide

/-- jhidl walks through a tree, writes the interfaces of the file, and a program that has the built-in types
loads them. If all names can be written as they are, no error was told, nothing has another parent than a
class and the file has no typedef, then the file is the text of one document, and of one only, and the program
has the same interfaces again, in the same order: the names, the identifiers, the methods with their
parameters. A type of a method is what it was if it is built in or is an interface of the file that stands
in front of the method's. -/
theorem loadClassInfo_processTree (x : TinyXml) (hx : x.Documented) (filename : Str)
    (hfile : filename ≠ []) (tree : IdlTree)
    (htree : tree.WellFormed) (hspelled : tree.Spelled IsContent) (w : WalkData)
    (hok : processTree tree (create filename) = .ok w) (herrors : w.errors = [])
    (hparents : ∀ d ∈ w.mTypes.classes, none ∉ d.mParents)
    (hplain : ∀ i ∈ w.mTypes.types, i.mFilename = filename → ∀ a, i.mType ≠ .TYPE_ALIAS a) :
    ∃ (h : w.mTypes.Sound filename) (hc : w.mTypes.Complete),
      (∃! document, Renders document (w.mTypes.dumper h hc).dump) ∧
      x.loadClassInfo TypeStore.create (w.mTypes.dumper h hc).dump =
        .ok (w.mTypes.reloaded (w.mTypes.interfaces filename)) ∧
      ∀ n i, (w.mTypes.interfaces filename)[n]? = some i → ∀ m ∈ i.2.mMethods,
        ∀ k j, k < n → (w.mTypes.interfaces filename)[k]? = some j → j.1 ∈ m.types →
          w.mTypes.image ((w.mTypes.interfaces filename).take n) j.1 = some (builtins.length + k) := by
  have hready := processTree_ready htree (.create filename) hok
  have hs := (processTree_spelled hspelled (.create content_builtin filename) hok).table
  have h : w.mTypes.Sound filename := hready.file ▸ hready.sound
  have hc : w.mTypes.Complete := by
    intro d hd
    obtain ⟨hmethods,hfields⟩ := (hready.typed herrors).1 d hd
    refine ⟨hmethods,fun f hf => Option.isSome_iff_ne_none.mpr (hfields f hf),?_⟩
    intro p hp
    rw [Option.isSome_iff_ne_none]
    rintro rfl
    exact hparents d hd hp
  obtain ⟨document,hrenders,hunique,hall⟩ := renders_dump (w.mTypes.dumper h hc) fun t ht =>
    TypeStore.writable_dumped hs hfile hplain ht
  refine ⟨h,hc,⟨document,hrenders,hunique⟩,?_,?_⟩
  · have hmade : TypeStore.create.Made := by
      simp [TypeStore.Made, TypeStore.create]
    rw [TinyXml.loadClassInfo, loadElements_eq hall (hx.elements hrenders) hmade, TypeStore.foldl_roots,
      ← TypeStore.reloaded_nil w.mTypes, TypeStore.foldl_reloaded hs (List.nil_append _).symm]
  · intro n i hi m hm k j hk hj hmem
    obtain ⟨-,-,c,-,hget⟩ := TypeStore.mem_interfaces.mp (List.mem_of_getElem? hi)
    have hspelled := (hs.classes _ (List.mem_of_getElem? hget)).methods m hm
    exact TypeStore.image_interface h (hspelled.types _ hmem) hk hj

/-- An interface, and another one with an operation on it. -/
def interfacesTree : IdlTree :=
  .IDLN_LIST
    (.IDLN_INTERFACE ['a'] ['I'] []
      (.IDLN_OP_DCL ['f'] (some (.IDLN_IDENT ['I']))
        (.IDLN_PARAM_DCL .PARAM_IN ['x'] (some .IDLN_TYPE_BOOLEAN)) false) (some ['0']))
    (.IDLN_INTERFACE ['a'] ['J'] [['I']]
      (.IDLN_OP_DCL ['g'] none (.IDLN_PARAM_DCL .PARAM_INOUT ['i'] (some (.IDLN_IDENT ['I']))) true) none)

theorem loadClassInfo_processTree_interfaces : ∃ w : WalkData,
    processTree interfacesTree (create ['a']) = .ok w ∧
      ∃ (h : w.mTypes.Sound ['a']) (hc : w.mTypes.Complete),
        (∃! document, Renders document (w.mTypes.dumper h hc).dump) ∧
        TinyXml.reading.loadClassInfo TypeStore.create (w.mTypes.dumper h hc).dump =
          .ok (w.mTypes.reloaded (w.mTypes.interfaces ['a'])) ∧
        ∀ n i, (w.mTypes.interfaces ['a'])[n]? = some i → ∀ m ∈ i.2.mMethods,
          ∀ k j, k < n → (w.mTypes.interfaces ['a'])[k]? = some j → j.1 ∈ m.types →
            w.mTypes.image ((w.mTypes.interfaces ['a']).take n) j.1 = some (builtins.length + k) := by
  have htree : interfacesTree.WellFormed := by
    simp [interfacesTree, IdlTree.WellFormed]
  have hspelled : interfacesTree.Spelled IsContent := by
    refine ⟨⟨?_,⟨?_,?_⟩,?_⟩,?_,⟨?_,?_⟩,?_⟩
    · decide
    · decide
    · exact (by decide : IsContent ['x'])
    · rintro v ⟨⟩ -
      decide
    · decide
    · decide
    · exact (by decide : IsContent ['i'])
    · rintro v ⟨⟩
  have hclass : ∀ i ∈ builtins.map Prod.fst ++ [⟨['I'],.TYPE_INTERFACE 0,[],['a']⟩,
      ⟨['J'],.TYPE_INTERFACE 1,[],['a']⟩], i.mFilename = ['a'] → i.getClass.isSome = true := by decide
  refine ⟨_,rfl,loadClassInfo_processTree .reading TinyXml.reading_documented ['a'] (by simp)
    interfacesTree htree hspelled _ rfl rfl ?_ ?_⟩
  · decide
  · intro i hi hfile a halias
    have hsome := hclass i hi hfile
    rw [TypeInfo.getClass, halias] at hsome
    cases hsome

end JhCommon
