import JhCommon.StdString
import JhCommon.XmlText

/-! The XML library that `Reflect.cpp` reads a file with. It is no part of the repository: what is called
of it is a parameter, with what its manual says. -/
namespace JhCommon
open XmlText

/-- The elements that the library has pointers to, and where they lead from there. -/
structure TinyXml where
  Element : Type
  /-- The root of the document that `LoadFile` reads from a file with the text. -/
  rootElement : Str → Option Element
  valueStr : Element → Str
  getText : Element → Option Str
  getAttribute : Element → Str → Option Str
  firstChildElement : Element → Str → Option Element
  /-- The next element, or the next one of a name. -/
  nextSiblingElement : Element → Option Str → Option Element
  finite : ∀ value, WellFounded fun f e => nextSiblingElement e value = some f

namespace TinyXml
variable (x : TinyXml)

/-- The elements that a loop visits that goes on to the next one, or to the next one of a name. -/
def siblingsFrom (value : Option Str) (e : x.Element) : List x.Element :=
  e :: match _h : x.nextSiblingElement e value with
    | none => []
    | some f => siblingsFrom value f
termination_by (x.finite value).wrap e
decreasing_by assumption

/-- The same from a pointer on that may be NULL. -/
def siblings (value : Option Str) : Option x.Element → List x.Element
  | none => []
  | some e => x.siblingsFrom value e

theorem siblings_some (value : Option Str) (e : x.Element) :
    x.siblings value (some e) = e :: x.siblings value (x.nextSiblingElement e value) := by
  rw [siblings, siblingsFrom]
  split <;> rename_i h <;> rw [h] <;> rfl

/-- An element that a call with this name, or with none, is looking for. -/
def named (value : Option Str) (e : x.Element) : Bool := value.all fun name => x.valueStr e = name

/-- The pointers of the library are at the elements among the nodes. -/
inductive Shows : List x.Element → XmlNodes → Prop
  | none : Shows [] .none
  | text {es : List x.Element} {value : Str} {next : XmlNodes} (h : Shows es next) :
      Shows es (.text value next)
  | element {e : x.Element} {cs es : List x.Element} {attributes : List (Str × Str)}
      {children next : XmlNodes}
      (hattribute : ∀ name, x.getAttribute e name = (attributes.find? fun a => a.1 = name).map Prod.snd)
      (htext : x.getText e = children.firstText)
      (hchild : ∀ name, x.firstChildElement e name = cs.find? (x.named (some name)))
      (hsibling : ∀ value, x.nextSiblingElement e value = es.find? (x.named value))
      (hchildren : Shows cs children) (hnext : Shows es next) :
      Shows (e :: es) (.element (x.valueStr e) attributes children next)

/-- What the manual says: a text of XML is loaded as its elements, which a call for the value, the text, an
attribute, a child or a sibling is answered by. -/
structure Documented : Prop where
  loads : ∀ nodes text, Renders nodes text → ∃ es, x.Shows es nodes ∧ x.rootElement text = es.head?

/-- A pointer is at an element. -/
structure At (e : x.Element) (n : XmlElement) : Prop where
  value : x.valueStr e = n.value
  attributes : ∀ name, x.getAttribute e name = (n.attributes.find? fun a => a.1 = name).map Prod.snd
  text : x.getText e = n.children.firstText
  children : ∃ cs, x.Shows cs n.children ∧
    ∀ name, x.firstChildElement e name = cs.find? (x.named (some name))

variable {x} {es : List x.Element} {e : x.Element} {nodes : XmlNodes} {n : XmlElement} {name : Str}

theorem Shows.at_elements (h : x.Shows es nodes) : List.Forall₂ x.At es (elements nodes) := by
  induction h with
  | none => exact .nil
  | text _ ih => exact ih
  | element hattribute htext hchild _ hchildren _ _ ih =>
    exact .cons ⟨rfl,hattribute,htext,_,hchildren,hchild⟩ ih

/-- A loop visits the elements that it is looking for. -/
theorem Shows.siblings (h : x.Shows es nodes) (value : Option Str) :
    x.siblings value (es.find? (x.named value)) = es.filter (x.named value) := by
  induction h with
  | none => rfl
  | text _ ih => exact ih
  | @element e _ es _ _ _ _ _ _ hsibling _ _ _ ih =>
    by_cases hnamed : x.named value e
    · rw [List.find?_cons_of_pos hnamed, List.filter_cons_of_pos hnamed, siblings_some, hsibling, ih]
    · rw [List.find?_cons_of_neg hnamed, List.filter_cons_of_neg hnamed, ih]

/-- Of the elements of a name there are as many as the document has. -/
theorem at_filter {ns : List XmlElement} (h : List.Forall₂ x.At es ns) (name : Str) :
    List.Forall₂ x.At (es.filter (x.named (some name))) (ns.filter fun c => c.value = name) := by
  refine List.rel_filter (R := x.At) ?_ h
  intro e n hat
  simp [named, hat.value]

theorem rel_head? {ns : List XmlElement} (h : List.Forall₂ x.At es ns) :
    Option.Rel x.At es.head? ns.head? := by
  cases h with
  | nil => exact .none
  | cons hat _ => exact .some hat

/-- The children of a name that a loop visits. -/
theorem At.children_named (h : x.At e n) (name : Str) :
    List.Forall₂ x.At (x.siblings (some name) (x.firstChildElement e name))
      (n.childrenNamed name) := by
  obtain ⟨cs,hshows,hchild⟩ := h.children
  rw [hchild, hshows.siblings]
  exact at_filter hshows.at_elements name

theorem At.first_child (h : x.At e n) (name : Str) :
    Option.Rel x.At (x.firstChildElement e name) (n.firstChild name) := by
  obtain ⟨cs,hshows,hchild⟩ := h.children
  rw [hchild, XmlElement.firstChild, ← List.head?_filter, ← List.head?_filter]
  exact rel_head? (at_filter hshows.at_elements name)

/-- The elements of a document that the library has loaded. -/
theorem Documented.elements (h : x.Documented) {text : Str} (hrenders : Renders nodes text) :
    List.Forall₂ x.At (x.siblings none (x.rootElement text)) (elements nodes) := by
  obtain ⟨es,hshows,hroot⟩ := h.loads nodes text hrenders
  have hall : ∀ es : List x.Element, es.find? (x.named none) = es.head? := by
    rintro (_ | ⟨e,es⟩) <;> rfl
  have hfilter : es.filter (x.named none) = es := List.filter_eq_self.mpr fun _ _ => rfl
  have hvisited := hshows.siblings none
  rw [hall, hfilter] at hvisited
  rw [hroot, hvisited]
  exact hshows.at_elements

end TinyXml

/-- An element with what stands behind it. -/
structure XmlCursor where
  value : Str
  attributes : List (Str × Str)
  children : XmlNodes
  next : XmlNodes

namespace XmlCursor

/-- The elements among the nodes, each with what stands behind it. -/
def all : XmlNodes → List XmlCursor
  | .none => []
  | .text _ next => all next
  | .element value attributes children next => ⟨value,attributes,children,next⟩ :: all next

theorem lt_of_mem {nodes : XmlNodes} {c : XmlCursor} (h : c ∈ all nodes) :
    sizeOf c.next < sizeOf nodes := by
  induction nodes with
  | none => cases h
  | text value next ih =>
    have := ih h
    simp only [XmlNodes.text.sizeOf_spec]
    omega
  | element value attributes children next _ ih =>
    simp only [XmlNodes.element.sizeOf_spec]
    rcases List.mem_cons.mp h with rfl | h
    · dsimp only
      omega
    · have := ih h
      omega

end XmlCursor

/-- A library that reads the texts of XML. -/
def TinyXml.reading : TinyXml where
  Element := XmlCursor
  rootElement text := (XmlCursor.all (readText text)).head?
  valueStr := XmlCursor.value
  getText e := e.children.firstText
  getAttribute e name := (e.attributes.find? fun a => a.1 = name).map Prod.snd
  firstChildElement e name := (XmlCursor.all e.children).find? fun c => c.value = name
  nextSiblingElement e value := (XmlCursor.all e.next).find? fun c => value.all fun name => c.value = name
  finite value := by
    refine Subrelation.wf ?_ (measure fun e : XmlCursor => sizeOf e.next).wf
    intro f e h
    exact XmlCursor.lt_of_mem (List.mem_of_find?_eq_some h)

theorem TinyXml.reading_shows (nodes : XmlNodes) : reading.Shows (XmlCursor.all nodes) nodes := by
  induction nodes with
  | none => exact .none
  | text value next ih => exact .text ih
  | element value attributes children next ihchildren ihnext =>
    exact .element (e := (⟨value,attributes,children,next⟩ : XmlCursor)) (fun _ => rfl) rfl (fun _ => rfl)
      (fun _ => rfl) ihchildren ihnext

theorem TinyXml.reading_documented : reading.Documented where
  loads := by
    intro nodes text hrenders
    refine ⟨_,reading_shows nodes,?_⟩
    rw [← readText_renders hrenders]
    rfl

end JhCommon
