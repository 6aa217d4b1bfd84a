import JhCommon.TagNesting

/-! XML without text next to elements: documents as nodes with a first child and a next sibling, the
texts that they are written as, and a reader, by which such a text is one of a single document. -/
namespace JhCommon.XmlText
open TagNesting

/-- A node, with the nodes in it and those behind it. -/
inductive XmlNodes
  | none
  | element (value : List Char) (attributes : List (List Char × List Char)) (children next : XmlNodes)
  | text (value : List Char) (next : XmlNodes)

/-- The text that the nodes in an element start with. -/
def XmlNodes.firstText : XmlNodes → Option (List Char)
  | .text value _ => some value
  | _ => Option.none

/-- An element, without those behind it. -/
structure XmlElement where
  value : List Char
  attributes : List (List Char × List Char)
  children : XmlNodes

/-- The elements among the nodes. -/
def elements : XmlNodes → List XmlElement
  | .none => []
  | .text _ next => elements next
  | .element value attributes children next => ⟨value,attributes,children⟩ :: elements next

/-- The first child of a name. -/
def XmlElement.firstChild (e : XmlElement) (name : List Char) : Option XmlElement :=
  (elements e.children).find? fun c => c.value = name

def XmlElement.childrenNamed (e : XmlElement) (name : List Char) : List XmlElement :=
  (elements e.children).filter fun c => c.value = name

def isBlank (c : Char) : Bool := c = ' ' ∨ c = '\n' ∨ c = '\r' ∨ c = '\t'

/-- White space. -/
def Blank (s : List Char) : Prop := ∀ c ∈ s, isBlank c

def nameChar (c : Char) : Bool := c.isAlphanum ∨ c = '_' ∨ c = '-' ∨ c = '.' ∨ c = ':'

/-- The name of an element or of an attribute. It starts with a letter or an underscore. -/
def IsName (s : List Char) : Prop :=
  (s.head?.any fun c => c.isAlpha ∨ c = '_') ∧ ∀ c ∈ s, nameChar c

/-- A character that is no control character and that has nothing to be escaped. -/
def Printed (c : Char) : Prop := ' ' ≤ c ∧ c ≠ '<' ∧ c ≠ '>' ∧ c ≠ '&'

instance (c : Char) : Decidable (Printed c) := inferInstanceAs (Decidable (_ ∧ _ ∧ _ ∧ _))

/-- The value of an attribute, which is read as it stands there. -/
def IsValue (s : List Char) : Prop := ∀ c ∈ s, Printed c ∧ c ≠ '"'

instance (s : List Char) : Decidable (Blank s) := List.decidableBAll (fun c => isBlank c) s

instance (s : List Char) : Decidable (IsName s) :=
  @instDecidableAnd _ _ inferInstance (List.decidableBAll (fun c => nameChar c) s)

instance (s : List Char) : Decidable (IsValue s) :=
  List.decidableBAll (fun c => Printed c ∧ c ≠ '"') s

/-- A text that is read as it stands there: nothing of it is escaped, no space is left out at its ends,
and none joined with another one. -/
structure IsContent (s : List Char) : Prop where
  plain : ∀ c ∈ s, Printed c
  first : ∃ c t, s = c :: t ∧ c ≠ ' '
  last : s.getLast? ≠ some ' '
  single : s.IsChain fun c d => ¬(c = ' ' ∧ d = ' ')

theorem content_iff (s : List Char) : IsContent s ↔
    (∀ c ∈ s, Printed c) ∧
      (s ≠ [] ∧ s.head? ≠ some ' ') ∧ s.getLast? ≠ some ' ' ∧
      s.IsChain fun c d => ¬(c = ' ' ∧ d = ' ') := by
  have hfirst : (∃ c t, s = c :: t ∧ c ≠ ' ') ↔ s ≠ [] ∧ s.head? ≠ some ' ' := by
    cases s <;> simp
  rw [← hfirst]
  exact ⟨fun h => ⟨h.plain,h.first,h.last,h.single⟩,fun h => ⟨h.1,h.2.1,h.2.2.1,h.2.2.2⟩⟩

instance (s : List Char) : Decidable (IsContent s) :=
  @decidable_of_iff' _ _ (content_iff s)
    (@instDecidableAnd _ _ (List.decidableBAll Printed s) inferInstance)

def attributeText (a : List Char × List Char) : List Char :=
  ' ' :: a.1 ++ '=' :: '"' :: a.2 ++ ['"']

/-- What stands in the tag that opens an element. -/
def opening (value : List Char) (attributes : List (List Char × List Char)) : List Char :=
  value ++ attributes.flatMap attributeText

/-- No attribute of an element is written twice. -/
structure Written (value : List Char) (attributes : List (List Char × List Char)) : Prop where
  name : IsName value
  values : ∀ a ∈ attributes, IsName a.1 ∧ IsValue a.2
  distinct : (attributes.map Prod.fst).Nodup

/-- A text is one of the nodes. White space is free between elements, and nowhere else. -/
inductive Renders : XmlNodes → List Char → Prop
  | none {w : List Char} (hw : Blank w) : Renders .none w
  | leaf {w value s rest : List Char} {attributes : List (List Char × List Char)} {next : XmlNodes}
      (hw : Blank w) (h : Written value attributes) (hs : IsContent s) (hnext : Renders next rest) :
      Renders (.element value attributes (.text s .none) next)
        (w ++ (mark (opening value attributes) ++ (s ++ (mark ('/' :: value) ++ rest))))
  | element {w value inner rest : List Char} {attributes : List (List Char × List Char)}
      {children next : XmlNodes} (hw : Blank w) (h : Written value attributes)
      (hinner : Renders children inner) (hnext : Renders next rest) :
      Renders (.element value attributes children next)
        (w ++ (mark (opening value attributes) ++ (inner ++ (mark ('/' :: value) ++ rest))))

/-- White space in front of a document is none of it. -/
theorem Renders.blank {w rest : List Char} {nodes : XmlNodes} (h : Renders nodes rest) (hw : Blank w) :
    Renders nodes (w ++ rest) := by
  have happend {v : List Char} (hv : Blank v) : Blank (w ++ v) := by
    intro c hc
    exact (List.mem_append.mp hc).elim (hw c) (hv c)
  cases h with
  | none hv => exact .none (happend hv)
  | leaf hv hwritten hs hnext =>
    rw [← List.append_assoc]
    exact .leaf (happend hv) hwritten hs hnext
  | element hv hwritten hinner hnext =>
    rw [← List.append_assoc]
    exact .element (happend hv) hwritten hinner hnext

/-- Where the nodes in an element end. -/
def Ends (s : List Char) : Prop := s = [] ∨ ∃ t, s = '<' :: '/' :: t

/-- Reads the attributes of an opening tag. -/
def readAttributes : ℕ → List Char → List (List Char × List Char)
  | fuel+1, ' ' :: s =>
    let value := (s.dropWhile (· ≠ '=')).drop 2
    (s.takeWhile (· ≠ '='),value.takeWhile (· ≠ '"')) ::
      readAttributes fuel (value.dropWhile (· ≠ '"')).tail
  | _, _ => []

/-- What stands behind the tag that the text is in. -/
def behindTag (s : List Char) : List Char := (s.dropWhile (· ≠ '>')).tail

/-- Reads what stands behind the tag of an element. A text is the only node of its element. -/
def readChildren (read : List Char → XmlNodes × List Char) (s : List Char) : XmlNodes × List Char :=
  if (s.dropWhile isBlank).head? = some '<' then read s
  else (.text (s.takeWhile (· ≠ '<')) .none,s.dropWhile (· ≠ '<'))

/-- Reads the nodes that a text starts with, and gives what stands behind them. -/
def readNodes : ℕ → List Char → XmlNodes × List Char
  | 0, s => (.none,s)
  | fuel+1, s =>
    match s.dropWhile isBlank with
    | '<' :: '/' :: t => (.none,'<' :: '/' :: t)
    | '<' :: t =>
      let tag := t.takeWhile (· ≠ '>')
      let children := readChildren (readNodes fuel) (behindTag t)
      let next := readNodes fuel (behindTag children.2)
      (.element (tag.takeWhile (· ≠ ' ')) (readAttributes tag.length (tag.dropWhile (· ≠ ' ')))
        children.1 next.1,next.2)
    | t => (.none,t)

/-- The document of a text. -/
def readText (s : List Char) : XmlNodes := (readNodes (s.length+1) s).1

section Cuts
variable {p : Char → Bool} {a x : List Char}

/-- A text is cut where a property of its characters ends. -/
theorem takeWhile_cut (ha : ∀ c ∈ a, p c) (hx : ∀ c ∈ x.head?, ¬p c) : (a ++ x).takeWhile p = a := by
  rw [List.takeWhile_append_of_pos ha]
  cases x with
  | nil => exact List.append_nil a
  | cons c x => rw [List.takeWhile_cons_of_neg (hx c rfl), List.append_nil]

theorem dropWhile_cut (ha : ∀ c ∈ a, p c) (hx : ∀ c ∈ x.head?, ¬p c) : (a ++ x).dropWhile p = x := by
  rw [List.dropWhile_append_of_pos ha]
  cases x with
  | nil => rfl
  | cons c x => exact List.dropWhile_cons_of_neg (hx c rfl)

end Cuts

section Reading
variable {s x w inner value : List Char} {attributes : List (List Char × List Char)}

/-- What is no part of a name. -/
theorem nameChar_ne {c : Char} (h : nameChar c) : c ≠ '<' ∧ c ≠ '>' ∧ c ≠ '/' ∧ c ≠ '=' ∧ c ≠ ' ' := by
  refine ⟨?_,?_,?_,?_,?_⟩ <;> rintro rfl <;> revert h <;> decide

theorem printed_solid {c : Char} (h : Printed c) (hspace : c ≠ ' ') : ¬isBlank c := by
  intro hblank
  obtain ⟨hle,-⟩ := h
  rcases of_decide_eq_true hblank with rfl | rfl | rfl | rfl
  · exact hspace rfl
  all_goals exact absurd hle (by decide)

/-- Attributes are read as they were written. -/
theorem readAttributes_written (h : ∀ a ∈ attributes, IsName a.1 ∧ IsValue a.2) {fuel : ℕ}
    (hfuel : (attributes.flatMap attributeText).length ≤ fuel) :
    readAttributes fuel (attributes.flatMap attributeText) = attributes := by
  induction attributes generalizing fuel with
  | nil => cases fuel <;> rfl
  | cons a as ih =>
    obtain ⟨hname,hvalue⟩ := h a List.mem_cons_self
    have hkey : ∀ c ∈ a.1, decide (c ≠ '=') := fun c hc =>
      decide_eq_true (nameChar_ne (hname.2 c hc)).2.2.2.1
    have hval : ∀ c ∈ a.2, decide (c ≠ '"') := fun c hc => decide_eq_true (hvalue c hc).2
    rw [List.flatMap_cons, attributeText] at hfuel ⊢
    obtain ⟨fuel,rfl⟩ : ∃ n, fuel = n+1 := Nat.exists_eq_succ_of_ne_zero (by
      rintro rfl
      simp at hfuel)
    have hrest : (as.flatMap attributeText).length ≤ fuel := by
      simp only [List.cons_append, List.append_assoc, List.length_cons, List.length_append] at hfuel
      omega
    simp only [List.cons_append, List.append_assoc, readAttributes]
    rw [takeWhile_cut hkey (by simp), dropWhile_cut hkey (by simp)]
    simp only [List.drop_succ_cons, List.drop_zero]
    rw [takeWhile_cut hval (by simp), dropWhile_cut hval (by simp)]
    simp only [List.nil_append, List.tail_cons]
    rw [ih (fun b hb => h b (List.mem_cons_of_mem a hb)) hrest]

theorem plain_opening (h : Written value attributes) :
    ∀ c ∈ opening value attributes, decide (c ≠ '>') := by
  intro c hc
  apply decide_eq_true
  rcases List.mem_append.mp hc with hc | hc
  · exact (nameChar_ne (h.name.2 c hc)).2.1
  · obtain ⟨e,he,hc⟩ := List.mem_flatMap.mp hc
    obtain ⟨hname,hvalue⟩ := h.values e he
    simp only [attributeText, List.mem_append, List.mem_cons, List.not_mem_nil, or_false] at hc
    rcases hc with ((rfl | hc) | rfl | rfl | hc) | rfl
    · decide
    · exact (nameChar_ne (hname.2 c hc)).2.1
    · decide
    · decide
    · exact (hvalue c hc).1.2.2.1
    · decide

/-- What stands in an opening tag says the name and the attributes. -/
theorem read_opening (h : Written value attributes) :
    (opening value attributes).takeWhile (· ≠ ' ') = value ∧
      readAttributes (opening value attributes).length
        ((opening value attributes).dropWhile (· ≠ ' ')) = attributes := by
  have hname : ∀ c ∈ value, decide (c ≠ ' ') := fun c hc =>
    decide_eq_true (nameChar_ne (h.name.2 c hc)).2.2.2.2
  have hspace : ∀ c ∈ (attributes.flatMap attributeText).head?, ¬decide (c ≠ ' ') := by
    cases attributes <;> simp [attributeText]
  rw [opening, takeWhile_cut hname hspace, dropWhile_cut hname hspace]
  refine ⟨rfl,readAttributes_written h.values ?_⟩
  rw [List.length_append]
  exact Nat.le_add_left _ _

theorem behindTag_cut {a : List Char} (ha : ∀ c ∈ a, decide (c ≠ '>')) (x : List Char) :
    behindTag (a ++ '>' :: x) = x := by
  rw [behindTag, dropWhile_cut ha (by simp), List.tail_cons]

/-- Behind the nodes in an element there is its closing tag. -/
theorem behindTag_closing (h : IsName value) (x : List Char) :
    behindTag (mark ('/' :: value) ++ x) = x := by
  have hplain : ∀ c ∈ '<' :: '/' :: value, decide (c ≠ '>') := by
    intro c hc
    apply decide_eq_true
    rcases List.mem_cons.mp hc with rfl | hc
    · decide
    rcases List.mem_cons.mp hc with rfl | hc
    · decide
    · exact (nameChar_ne (h.2 c hc)).2.1
  have htext : mark ('/' :: value) ++ x = ('<' :: '/' :: value) ++ '>' :: x := by
    simp [mark]
  rw [htext, behindTag_cut hplain]

/-- White space in front is passed over, up to an element that opens. -/
theorem dropWhile_element (hw : Blank w) (h : Written value attributes) (x : List Char) :
    ∃ c t, (w ++ (mark (opening value attributes) ++ x)).dropWhile isBlank = '<' :: c :: t ∧ c ≠ '/' ∧
      c :: t = opening value attributes ++ '>' :: x := by
  obtain ⟨hhead,hchars⟩ := h.name
  cases value with
  | nil => cases hhead
  | cons c value =>
    refine ⟨c,value ++ (attributes.flatMap attributeText ++ '>' :: x),?_,
      (nameChar_ne (hchars c List.mem_cons_self)).2.2.1,by simp [opening]⟩
    rw [dropWhile_cut hw]
    · simp [mark, opening]
    · simp [mark, isBlank]

theorem dropWhile_ends (hw : Blank w) (hx : Ends x) : (w ++ x).dropWhile isBlank = x := by
  apply dropWhile_cut hw
  rcases hx with rfl | ⟨t,rfl⟩
  · simp
  · simp [isBlank]

/-- The next character that is no white space starts a tag. -/
theorem Renders.head {nodes : XmlNodes} (h : Renders nodes s) (hx : Ends x) (hne : x ≠ []) :
    ((s ++ x).dropWhile isBlank).head? = some '<' := by
  cases h with
  | none hw =>
    rw [dropWhile_ends hw hx]
    obtain ⟨t,rfl⟩ := hx.resolve_left hne
    rfl
  | leaf hw h =>
    obtain ⟨c,t,heq,-⟩ := dropWhile_element hw h _
    rw [List.append_assoc, List.append_assoc, heq, List.head?_cons]
  | element hw h =>
    obtain ⟨c,t,heq,-⟩ := dropWhile_element hw h _
    rw [List.append_assoc, List.append_assoc, heq, List.head?_cons]

/-- One element of a text, and what is read of the nodes in it and behind it. -/
theorem readNodes_element {fuel : ℕ} {children next : XmlNodes} {rest : List Char} (hw : Blank w)
    (h : Written value attributes)
    (hchildren : readChildren (readNodes fuel) (inner ++ (mark ('/' :: value) ++ x)) =
      (children,mark ('/' :: value) ++ x))
    (hnext : readNodes fuel x = (next,rest)) :
    readNodes (fuel+1) (w ++ (mark (opening value attributes) ++ (inner ++ (mark ('/' :: value) ++ x)))) =
      (.element value attributes children next,rest) := by
  obtain ⟨c,t,hdrop,hslash,htag⟩ := dropWhile_element hw h (inner ++ (mark ('/' :: value) ++ x))
  have hplain := plain_opening h
  have hopening : (c :: t).takeWhile (· ≠ '>') = opening value attributes := by
    rw [htag, takeWhile_cut hplain (by simp)]
  have hinner : behindTag (c :: t) = inner ++ (mark ('/' :: value) ++ x) := by
    rw [htag, behindTag_cut hplain]
  have hread : readNodes (fuel+1)
      (w ++ (mark (opening value attributes) ++ (inner ++ (mark ('/' :: value) ++ x)))) =
      (let tag := (c :: t).takeWhile (· ≠ '>')
      let children := readChildren (readNodes fuel) (behindTag (c :: t))
      let next := readNodes fuel (behindTag children.2)
      (.element (tag.takeWhile (· ≠ ' ')) (readAttributes tag.length (tag.dropWhile (· ≠ ' ')))
        children.1 next.1,next.2)) := by
    rw [readNodes, hdrop]
    split
    · rename_i heq
      exact absurd (List.cons.inj (List.cons.inj heq).2).1 hslash
    · rename_i heq
      rw [← (List.cons.inj heq).2]
    · rename_i hno
      exact absurd rfl (hno (c :: t))
  rw [hread, hopening, hinner]
  dsimp only
  rw [hchildren, behindTag_closing h.name, hnext, (read_opening h).1, (read_opening h).2]

/-- Nodes are read where the next tag comes first, and the nodes in an element are followed by its
closing tag. -/
theorem readChildren_renders {nodes : XmlNodes} (h : Renders nodes inner) (value x : List Char)
    (read : List Char → XmlNodes × List Char) :
    readChildren read (inner ++ (mark ('/' :: value) ++ x)) = read (inner ++ (mark ('/' :: value) ++ x)) :=
  if_pos (h.head (.inr ⟨_,rfl⟩) (List.cons_ne_nil _ _))

theorem readChildren_content (hs : IsContent s) (value x : List Char)
    (read : List Char → XmlNodes × List Char) :
    readChildren read (s ++ (mark ('/' :: value) ++ x)) =
      (.text s .none,mark ('/' :: value) ++ x) := by
  have hplain : ∀ c ∈ s, decide (c ≠ '<') := fun c hc => decide_eq_true (hs.plain c hc).2.1
  have hmark : ∀ c ∈ (mark ('/' :: value) ++ x).head?, ¬decide (c ≠ '<') := by
    simp [mark]
  have hfirst : ((s ++ (mark ('/' :: value) ++ x)).dropWhile isBlank).head? ≠ some '<' := by
    obtain ⟨c,t,rfl,hc⟩ := hs.first
    have hprinted := hs.plain c List.mem_cons_self
    rw [List.cons_append, List.dropWhile_cons_of_neg (printed_solid hprinted hc), List.head?_cons]
    exact fun heq => hprinted.2.1 (Option.some.inj heq)
  rw [readChildren, if_neg hfirst, takeWhile_cut hplain hmark, dropWhile_cut hplain hmark]

theorem readNodes_ends {fuel : ℕ} (hw : Blank w) (hx : Ends x) :
    readNodes (fuel+1) (w ++ x) = (.none,x) := by
  rw [readNodes, dropWhile_ends hw hx]
  rcases hx with rfl | ⟨t,rfl⟩ <;> rfl

/-- A text is read as the document that it is one of. -/
theorem readNodes_renders {nodes : XmlNodes} (h : Renders nodes s) {fuel : ℕ} (hx : Ends x)
    (hfuel : s.length < fuel) : readNodes fuel (s ++ x) = (nodes,x) := by
  induction h generalizing fuel x with
  | none hw =>
    obtain ⟨fuel,rfl⟩ := Nat.exists_eq_succ_of_ne_zero (Nat.ne_zero_of_lt hfuel)
    exact readNodes_ends hw hx
  | leaf hw hwritten hs hnext ih =>
    obtain ⟨fuel,rfl⟩ := Nat.exists_eq_succ_of_ne_zero (Nat.ne_zero_of_lt hfuel)
    simp only [List.length_append, mark, List.length_cons] at hfuel
    simp only [List.append_assoc]
    apply readNodes_element hw hwritten (readChildren_content hs _ _ _)
    exact ih hx (by omega)
  | element hw hwritten hinner hnext ihinner ihnext =>
    obtain ⟨fuel,rfl⟩ := Nat.exists_eq_succ_of_ne_zero (Nat.ne_zero_of_lt hfuel)
    simp only [List.length_append, mark, List.length_cons] at hfuel
    simp only [List.append_assoc]
    apply readNodes_element hw hwritten
    · rw [readChildren_renders hinner]
      exact ihinner (.inr ⟨_,rfl⟩) (by omega)
    · exact ihnext hx (by omega)

theorem readText_renders {nodes : XmlNodes} (h : Renders nodes s) : readText s = nodes := by
  have hread := readNodes_renders h (.inl rfl) (Nat.lt_succ_self s.length)
  rw [List.append_nil] at hread
  rw [readText, hread]

/-- A text is one of a single document. -/
theorem Renders.unique {nodes nodes' : XmlNodes} (h : Renders nodes s) (h' : Renders nodes' s) :
    nodes = nodes' := (readText_renders h).symm.trans (readText_renders h')

end Reading

end JhCommon.XmlText
