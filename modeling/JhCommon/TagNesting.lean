import Mathlib.Tactic

/-! Markup as a sequence of characters, with the tags that stand in it, and the proper nesting of
tags. -/
namespace JhCommon.TagNesting

inductive Tag (α : Type)
  | opening (name : α)
  | closing (name : α)
  deriving DecidableEq

/-- Every opening tag is closed, after what has been opened behind it. -/
inductive Balanced {α : Type} : List (Tag α) → Prop
  | nil : Balanced []
  | element (name : α) {inner rest : List (Tag α)} (hinner : Balanced inner) (hrest : Balanced rest) :
      Balanced (.opening name :: inner ++ .closing name :: rest)

section Nesting
variable {α : Type} {l l' : List (Tag α)} {name : α}

theorem Balanced.append (h : Balanced l) (h' : Balanced l') : Balanced (l ++ l') := by
  induction h with
  | nil => exact h'
  | element name hinner hrest _ ih =>
    have helement := Balanced.element name hinner ih
    simpa using helement

theorem Balanced.wrap (name : α) (h : Balanced l) :
    Balanced (.opening name :: l ++ [.closing name]) := .element name h .nil

/-- What is opened is closed. -/
theorem Balanced.closed (h : Balanced l) (hopen : .opening name ∈ l) : .closing name ∈ l := by
  induction h with
  | nil => cases hopen
  | element n hinner hrest ih ih' =>
    simp only [List.cons_append, List.mem_cons, List.mem_append, Tag.opening.injEq, reduceCtorEq, false_or,
      Tag.closing.injEq] at hopen ⊢
    rcases hopen with rfl | hin | hin
    · exact .inr (.inl rfl)
    · exact .inl (ih hin)
    · exact .inr (.inr (ih' hin))

end Nesting

/-- What stands between a '<' and the next '>', from outside of a tag, or from behind a '<' and what has
been read since. A tag that does not end is none. -/
def contents : Option (List Char) → List Char → List (List Char)
  | _, [] => []
  | none, c :: s => if c = '<' then contents (some []) s else contents none s
  | some read, c :: s => if c = '>' then read :: contents none s else contents (some (read ++ [c])) s

/-- A tag's name goes up to its attributes. -/
def tagOf (content : List Char) : Tag (List Char) :=
  match content with
  | '/' :: name => .closing name
  | _ => .opening (content.takeWhile (· ≠ ' '))

/-- The tags of a text. -/
def tags (s : List Char) : List (Tag (List Char)) := (contents none s).map tagOf

/-- No character of markup. -/
def Plain (s : List Char) : Prop := ∀ c ∈ s, c ≠ '<' ∧ c ≠ '>'

/-- A tag as it stands in a text. -/
def mark (content : List Char) : List Char := '<' :: content ++ ['>']

section Text
variable {s t content : List Char}

theorem Plain.append (hs : Plain s) (ht : Plain t) : Plain (s ++ t) := by
  intro c hc
  rcases List.mem_append.mp hc with h | h
  · exact hs c h
  · exact ht c h

theorem contents_plain (hs : Plain s) (t : List Char) : contents none (s ++ t) = contents none t := by
  induction s with
  | nil => rfl
  | cons c s ih =>
    rw [List.cons_append, contents, if_neg (hs c List.mem_cons_self).1]
    exact ih fun d hd => hs d (List.mem_cons_of_mem c hd)

theorem contents_inside (hs : Plain s) (read t : List Char) :
    contents (some read) (s ++ '>' :: t) = (read ++ s) :: contents none t := by
  induction s generalizing read with
  | nil => rw [List.nil_append, contents, if_pos rfl, List.append_nil]
  | cons c s ih =>
    rw [List.cons_append, contents, if_neg (hs c List.mem_cons_self).2,
      ih fun d hd => hs d (List.mem_cons_of_mem c hd), List.append_assoc]
    rfl

theorem tags_plain_append (hs : Plain s) (t : List Char) : tags (s ++ t) = tags t := by
  rw [tags, contents_plain hs]
  rfl

theorem tags_mark_append (hs : Plain content) (t : List Char) :
    tags (mark content ++ t) = tagOf content :: tags t := by
  have hinside := contents_inside hs [] t
  rw [List.nil_append] at hinside
  rw [tags, mark, List.append_assoc, List.cons_append, contents, if_pos rfl]
  show (contents (some []) (content ++ '>' :: t)).map tagOf = _
  rw [hinside]
  rfl

end Text

/-- A text that ends outside of its tags, which are properly nested but for some elements of one name:
these are opened, and never closed. There are such elements just when p holds. -/
structure Nests (name : List Char) (s : List Char) (p : Prop) : Prop where
  whole : ∀ t, tags (s ++ t) = tags s ++ tags t
  balanced : ¬p → Balanced (tags s)
  opened : p → .opening name ∈ tags s
  unclosed : .closing name ∉ tags s

namespace Nests
variable {name content n s t : List Char} {p q : Prop}

theorem iff_balanced (h : Nests name s p) : Balanced (tags s) ↔ ¬p :=
  ⟨fun hb hp => h.unclosed (hb.closed (h.opened hp)),h.balanced⟩

theorem congr (h : Nests name s p) (hpq : p ↔ q) : Nests name s q := propext hpq ▸ h

theorem of_plain (hs : Plain s) : Nests name s False := by
  have htags : tags s = [] := by
    have hnil := tags_plain_append hs []
    rwa [List.append_nil] at hnil
  constructor
  case whole => exact fun t => by rw [tags_plain_append hs, htags]; rfl
  case balanced => exact fun _ => htags ▸ .nil
  case opened => exact False.elim
  case unclosed => exact htags ▸ List.not_mem_nil

theorem nil : Nests name [] False := of_plain fun _ hc => by cases hc

theorem append (h : Nests name s p) (h' : Nests name t q) : Nests name (s ++ t) (p ∨ q) := by
  constructor
  case whole => exact fun u => by rw [List.append_assoc, h.whole, h'.whole, h.whole, List.append_assoc]
  case balanced =>
    intro hnot
    rw [not_or] at hnot
    rw [h.whole]
    exact (h.balanced hnot.1).append (h'.balanced hnot.2)
  case opened =>
    rw [h.whole, List.mem_append]
    exact Or.imp h.opened h'.opened
  case unclosed =>
    rw [h.whole, List.mem_append]
    exact fun hmem => hmem.elim h.unclosed h'.unclosed

/-- What has no such element stands in front of what may have one, or behind it. -/
theorem append_left (h : Nests name s False) (h' : Nests name t q) : Nests name (s ++ t) q :=
  (h.append h').congr (or_iff_right id)

theorem append_right (h : Nests name s p) (h' : Nests name t False) : Nests name (s ++ t) p :=
  (h.append h').congr (or_iff_left id)

theorem flatMap {β : Type} {f : β → List Char} {xs : List β} {p : β → Prop}
    (h : ∀ x ∈ xs, Nests name (f x) (p x)) : Nests name (xs.flatMap f) (∃ x ∈ xs, p x) := by
  induction xs with
  | nil => exact Nests.nil.congr (by simp)
  | cons x xs ih =>
    have hrest := ih fun y hy => h y (List.mem_cons_of_mem x hy)
    rw [List.flatMap_cons]
    exact ((h x List.mem_cons_self).append hrest).congr (by simp)

theorem flatMap_false {β : Type} {f : β → List Char} {xs : List β} (h : ∀ x ∈ xs, Nests name (f x) False) :
    Nests name (xs.flatMap f) False :=
  (flatMap h).congr (by simp)

/-- An element is closed behind what stands in it. -/
theorem wrap (hcontent : Plain content) (htag : tagOf content = .opening n) (hn : Plain n) (hne : n ≠ name)
    (h : Nests name s p) : Nests name (mark content ++ s ++ mark ('/' :: n)) p := by
  have hslash : Plain ('/' :: n) := List.forall_mem_cons.mpr ⟨by decide,hn⟩
  have htags (t : List Char) : tags (mark content ++ s ++ mark ('/' :: n) ++ t) =
      .opening n :: tags s ++ .closing n :: tags t := by
    rw [List.append_assoc, List.append_assoc, tags_mark_append hcontent, h.whole, tags_mark_append hslash, htag]
    rfl
  have hall : tags (mark content ++ s ++ mark ('/' :: n)) = .opening n :: tags s ++ [.closing n] := by
    have hnil := htags []
    rwa [List.append_nil] at hnil
  constructor
  case whole => exact fun t => by rw [htags, hall, List.append_assoc]; rfl
  case balanced => exact fun hp => hall ▸ (h.balanced hp).wrap n
  case opened =>
    intro hp
    rw [hall]
    exact List.mem_append_left _ (List.mem_cons_of_mem _ (h.opened hp))
  case unclosed =>
    rw [hall]
    simp [h.unclosed, Ne.symm hne]

/-- The element that is never closed. -/
theorem unclosed_mark (hn : Plain name) (htag : tagOf name = .opening name) (h : Nests name s p) :
    Nests name (mark name ++ s) True := by
  have htags : tags (mark name ++ s) = .opening name :: tags s := by
    rw [tags_mark_append hn, htag]
  constructor
  case whole => exact fun t => by rw [List.append_assoc, tags_mark_append hn, h.whole, htags, htag]; rfl
  case balanced => exact fun hnot => absurd trivial hnot
  case opened => exact fun _ => htags ▸ List.mem_cons_self
  case unclosed =>
    rw [htags]
    simp [h.unclosed]

end Nests

end JhCommon.TagNesting
