import JhCommon.PrefixLanguage
import JhCommon.RegexPrepare

/-! Regex syntax as trees, the text of a tree, and that `prepare` builds the tree again from its
text. -/
namespace JhCommon

/-- A character that can stand for itself. -/
abbrev RegexChar := {c : UInt8 // 1 ≤ c ∧ c ≤ 127}

inductive RepeatMark
  | once
  | star
  | plus
  | opt
  | exactly (m : Fin (2^31))
  | between (m n : Fin (2^31))

inductive ClassMember
  | single (c : RegexChar)
  | range (a b : RegexChar)

mutual

inductive RegexItem
  | literal (c : RegexChar) (mark : RepeatMark)
  | any (mark : RepeatMark)
  | charClass (invert : Bool) (members : List ClassMember) (mark : RepeatMark)
  | group (alternatives : RegexAlternatives) (mark : RepeatMark)

inductive RegexSequence
  | nil
  | cons (item : RegexItem) (rest : RegexSequence)

inductive RegexAlternatives
  | one (s : RegexSequence)
  | more (s : RegexSequence) (rest : RegexAlternatives)

end

/-- The characters that mean something else, somewhere in a regex. -/
def metacharacters : List UInt8 := text "\\.*+?\x7b\x7d[]-(|)^"

def charText (c : UInt8) : List UInt8 := if c ∈ metacharacters then [ch '\\',c] else [c]

namespace RepeatMark

def text : RepeatMark → List UInt8
  | .once => []
  | .star => [ch '*']
  | .plus => [ch '+']
  | .opt => [ch '?']
  | .exactly m => [ch '\x7b'] ++ decimal m ++ [ch '\x7d']
  | .between m n => [ch '\x7b'] ++ decimal m ++ [ch ','] ++ decimal n ++ [ch '\x7d']

def min : RepeatMark → ℤ
  | .once | .plus => 1
  | .star | .opt => 0
  | .exactly m | .between m _ => m

def max : RepeatMark → ℤ
  | .once | .opt => 1
  | .star | .plus => -1
  | .exactly m | .between _ m => m

end RepeatMark

def ClassMember.text : ClassMember → List UInt8
  | .single c => charText c
  | .range a b => charText a ++ [ch '-'] ++ charText b

mutual

def RegexItem.text : RegexItem → List UInt8
  | .literal c mark => charText c ++ mark.text
  | .any mark => [ch '.'] ++ mark.text
  | .charClass invert members mark =>
    [ch '['] ++ (if invert = true then [ch '^'] else []) ++ members.flatMap ClassMember.text ++
      [ch ']'] ++ mark.text
  | .group alternatives mark => [ch '('] ++ alternatives.text ++ [ch ')'] ++ mark.text

def RegexSequence.text : RegexSequence → List UInt8
  | .nil => []
  | .cons item rest => item.text ++ rest.text

def RegexAlternatives.text : RegexAlternatives → List UInt8
  | .one s => s.text
  | .more s rest => s.text ++ [ch '|'] ++ rest.text

end

/-- The fields of an element, with the characters of none but a terminal. -/
def elementData (type : ElementType) (mark : RepeatMark) (invert : Bool) : ElementData :=
  { mType := type
    mTermStartChar := 0
    mTermEndChar := 0
    mRepeatMin := mark.min
    mRepeatMax := mark.max
    mClassInvert := invert }

def terminalTree (start fin : UInt8) (mark : RepeatMark) : Element :=
  .mk { elementData .typeTerminal mark false with mTermStartChar := start, mTermEndChar := fin } []

def ClassMember.tree : ClassMember → Element
  | .single c => terminalTree c c .once
  | .range a b => terminalTree a b .once

mutual

def RegexItem.tree : RegexItem → Element
  | .literal c mark => terminalTree c c mark
  | .any mark => terminalTree 0 127 mark
  | .charClass invert members mark =>
    .mk (elementData .typeClass mark invert) (members.map ClassMember.tree)
  | .group alternatives mark => .mk (elementData .typeOr mark false) alternatives.trees

def RegexSequence.trees : RegexSequence → List Element
  | .nil => []
  | .cons item rest => item.tree :: rest.trees

def RegexAlternatives.trees : RegexAlternatives → List Element
  | .one s => [.mk (elementData .typeSequence .once false) s.trees]
  | .more s rest => .mk (elementData .typeSequence .once false) s.trees :: rest.trees

end

/-- Only the characters of a terminal have ever been set. -/
def ElementData.written (d : ElementData) : ElementData :=
  if d.mType = .typeTerminal then d else { d with mTermStartChar := 0, mTermEndChar := 0 }

mutual

/-- A tree without what the memory held before. -/
def Element.written : Element → Element
  | .mk d cs => .mk d.written (Element.writtenAll cs)

def Element.writtenAll : List Element → List Element
  | [] => []
  | e :: es => e.written :: Element.writtenAll es

end

namespace PrepareState

variable {memory : ℕ → UInt8 × UInt8} {regex : List UInt8} {i j k : ℕ} {st st' st'' : PrepareState}

/-- The loop goes on from one place to the other. -/
def Advances (memory : ℕ → UInt8 × UInt8) (regex : List UInt8) (i : ℕ) (st : PrepareState) (j : ℕ)
    (st' : PrepareState) : Prop :=
  ∃ n, i+n ≤ j ∧ ∀ fuel,
    prepareFrom memory regex (fuel+n) i st = prepareFrom memory regex fuel j st'

theorem Advances.refl : Advances memory regex i st i st := ⟨0,le_refl i,fun _ => rfl⟩

theorem Advances.trans (h : Advances memory regex i st j st')
    (h' : Advances memory regex j st' k st'') : Advances memory regex i st k st'' := by
  obtain ⟨n,hn,hrun⟩ := h
  obtain ⟨n',hn',hrun'⟩ := h'
  refine ⟨n'+n,by omega,?_⟩
  intro fuel
  rw [← Nat.add_assoc, hrun, hrun']

/-- This text stands in the regex at index i, and the length of the regex is an int. -/
structure Stands (regex : List UInt8) (i : ℕ) (cs : List UInt8) : Prop where
  fits : regex.length < 2^31
  begins : cs <+: regex.drop i

theorem advances_char (hfits : regex.length < 2^31) (hj : j < regex.length) (hij : i ≤ j)
    (h : prepareChar memory regex i st = .ok (j,st')) : Advances memory regex i st (j+1) st' := by
  have hi : (i : ℤ) < rlen regex := by
    rw [rlen_eq hfits]
    omega
  refine ⟨1,by omega,?_⟩
  intro fuel
  rw [prepareFrom, if_pos hi, h, ok_bind]
  simp only [nextIndex_eq (show j < 2^31-1 by omega), ok_bind]

theorem stands_append {cs ds : List UInt8} :
    Stands regex i (cs ++ ds) ↔ Stands regex i cs ∧ Stands regex (i+cs.length) ds := by
  constructor
  · rintro ⟨hfits,hbegins⟩
    obtain ⟨hcs,hds⟩ := append_prefix_drop.mp hbegins
    exact ⟨⟨hfits,hcs⟩,hfits,hds⟩
  · rintro ⟨⟨hfits,hcs⟩,-,hds⟩
    exact ⟨hfits,append_prefix_drop.mpr ⟨hcs,hds⟩⟩

theorem stands_cons {c : UInt8} {cs : List UInt8} (h : Stands regex i (c :: cs)) :
    i < regex.length ∧ regex.getD i 0 = c := by
  obtain ⟨rest,hrest⟩ := h.begins
  have hget : regex[i]? = some c := by
    rw [← Nat.add_zero i, ← List.getElem?_drop, ← hrest]
    rfl
  obtain ⟨hlt,-⟩ := List.getElem?_eq_some_iff.mp hget
  exact ⟨hlt,by rw [List.getD_eq_getElem?_getD, hget]; rfl⟩

/-- A character that is read by itself. -/
theorem advances_plain {c : UInt8} (h : Stands regex i [c])
    (hc : c ∉ [ch '\\',ch '\x7b',ch '[']) (hst : st.plainChar memory c = .ok st') :
    Advances memory regex i st (i+1) st' := by
  obtain ⟨hi,hget⟩ := stands_cons h
  simp only [List.mem_cons, List.not_mem_nil, or_false, not_or] at hc
  apply advances_char h.fits hi le_rfl
  rw [prepareChar, charAt_eq hi.le, ok_bind, hget, if_neg hc.1, if_neg hc.2.1, if_neg hc.2.2, hst,
    ok_bind]

/-- A character that stands for itself becomes a terminal, or the end of a range. -/
theorem advances_charText {c : UInt8} (h : Stands regex i (charText c))
    (hst : st.addTerminal memory c c = .ok st') :
    Advances memory regex i st (i+(charText c).length) st' := by
  unfold charText at *
  split_ifs at * with hmeta
  · obtain ⟨hi,hget⟩ := stands_cons h
    have hpair : Stands regex i ([ch '\\'] ++ [c]) := h
    obtain ⟨hi',hget'⟩ := stands_cons (stands_append.mp hpair).2
    apply advances_char h.fits hi' (Nat.le_succ i)
    have hletter : ∀ d ∈ metacharacters, d ∉ [ch 'w',ch 'W',ch 's',ch 'S',ch 'd',ch 'D',ch 't',
        ch 'n',ch 'r',ch 'f',ch '0',ch 'x'] := by decide +kernel
    have hescape : st.escape memory c = st.addTerminal memory c c := by
      have := hletter c hmeta
      simp only [List.mem_cons, List.not_mem_nil, or_false, not_or] at this
      simp [escape, this]
    have hi1 : i+1 < regex.length := hi'
    have hget1 : regex.getD (i+1) 0 = c := hget'
    have hfits := h.fits
    rw [prepareChar, charAt_eq hi.le, ok_bind, hget, if_pos rfl, nextIndex_eq (by omega), ok_bind,
      charAt_eq hi1.le, ok_bind, hget1, hescape, hst, ok_bind]
    rfl
  · have hplain : ∀ d ∈ [ch '\\',ch '\x7b',ch '[',ch '.',ch '*',ch '+',ch '?',ch ']',ch '-',ch '(',
        ch '|',ch ')'], c ≠ d := by
      rintro d hd rfl
      revert hmeta
      exact not_not.mpr ((by decide +kernel : ∀ d ∈ [ch '\\',ch '\x7b',ch '[',ch '.',ch '*',ch '+',ch '?',
        ch ']',ch '-',ch '(',ch '|',ch ')'], d ∈ metacharacters) c hd)
    simp only [List.mem_cons, List.not_mem_nil, or_false, forall_eq_or_imp, forall_eq] at hplain
    apply advances_plain h (by simp [hplain])
    simp [plainChar, hplain, hst]

/-- The children that the next characters add. -/
def appended (st : PrepareState) (es : List Element) (made : ℕ) : PrepareState :=
  { st with curNode := ⟨st.curNode.data,es.reverse ++ st.curNode.children⟩, made := made }

theorem appended_appended (st : PrepareState) (es fs : List Element) (m n : ℕ) :
    (st.appended es m).appended fs n = st.appended (es ++ fs) n := by
  simp [appended]

theorem addTerminal_appended (hst : st.state ≠ .inClassThru) (start fin : UInt8) :
    st.addTerminal memory start fin =
      .ok (st.appended [.mk (terminalData start fin) []] (st.made+1)) := addTerminal_eq hst start fin

/-- A member of a class. A dash makes its first character the start of a range. -/
theorem advances_member (member : ClassMember) (hst : st.state = .inClass)
    (h : Stands regex i member.text) :
    ∃ e m, e.written = member.tree ∧
      Advances memory regex i st (i+member.text.length) (st.appended [e] m) := by
  have hthru : st.state ≠ .inClassThru := by
    rw [hst]
    decide
  cases member with
  | single c =>
    exact ⟨_,_,rfl,advances_charText h (addTerminal_appended hthru c c)⟩
  | range a b =>
    obtain ⟨hab,hb⟩ := stands_append.mp h
    obtain ⟨ha,hdash⟩ := stands_append.mp hab
    -- the first character is put in as an element of its own
    have hfirst : Advances memory regex i st (i+(charText a).length)
        (st.appended [.mk (terminalData a a) []] (st.made+1)) :=
      advances_charText ha (addTerminal_appended hthru a a)
    -- the dash makes it the start of a range
    have hthen : Advances memory regex (i+(charText a).length)
        (st.appended [.mk (terminalData a a) []] (st.made+1)) (i+(charText a).length+1)
        { st.appended [.mk (terminalData a a) []] (st.made+1) with state := .inClassThru } := by
      apply advances_plain hdash (by decide)
      simp [plainChar, dash, appended, hst, getLastChild, terminalData, ch]
    -- and the last character its end
    have hend : Advances memory regex (i+(charText a).length+1)
        { st.appended [.mk (terminalData a a) []] (st.made+1) with state := .inClassThru }
        (i+(charText a).length+1+(charText b).length)
        (st.appended [.mk (terminalData a b) []] (st.made+1)) := by
      apply advances_charText (by simpa [Nat.add_assoc] using hb)
      simp [addTerminal, setLastChild, appended, Element.setData, terminalData, hst]
    refine ⟨.mk (terminalData a b) [],st.made+1,rfl,?_⟩
    have hlen : (ClassMember.range a b).text.length = (charText a).length+1+(charText b).length := by
      simp only [ClassMember.text, List.length_append, List.length_singleton]
    rw [hlen, ← Nat.add_assoc, ← Nat.add_assoc]
    exact hfirst.trans (hthen.trans hend)

theorem advances_members (members : List ClassMember) (hst : st.state = .inClass)
    (h : Stands regex i (members.flatMap ClassMember.text)) :
    ∃ es m, Element.writtenAll es = members.map ClassMember.tree ∧
      Advances memory regex i st (i+(members.flatMap ClassMember.text).length)
        (st.appended es m) := by
  induction members generalizing i st with
  | nil => exact ⟨[],st.made,rfl,.refl⟩
  | cons member members ih =>
    rw [List.flatMap_cons] at h ⊢
    obtain ⟨hmember,hrest⟩ := stands_append.mp h
    obtain ⟨e,m,he,hadv⟩ := @advances_member memory _ _ _ member hst hmember
    have hstate : (st.appended [e] m).state = .inClass := hst
    obtain ⟨es,n,hes,hadvs⟩ := ih hstate hrest
    refine ⟨e :: es,n,by rw [Element.writtenAll, he, hes, List.map_cons],?_⟩
    rw [appended_appended] at hadvs
    rw [List.length_append, ← Nat.add_assoc]
    exact hadv.trans hadvs

/-- The limits of an element without a mark. -/
def Unmarked (e : Element) : Prop := e.data.mRepeatMin = 1 ∧ e.data.mRepeatMax = 1

theorem addDigit_eq {n : ℕ} {c : UInt8} (hc : isDigit c = true)
    (hn : 10*n+(c.toNat-48) < 2^31) : addDigit n c = ((10*n+(c.toNat-48) : ℕ) : ℤ) := by
  have hdigit : 48 ≤ c.toNat := by
    simp only [isDigit, Bool.and_eq_true, decide_eq_true_eq, UInt8.le_iff_toNat_le] at hc
    exact hc.1
  have hmul : toInt32 ((n : ℤ)*10) = (n : ℤ)*10 := toInt32_eq (by omega) (by omega)
  rw [addDigit, hmul, toInt32_eq (by omega) (by omega)]
  push_cast [hdigit]
  ring

/-- The digits of a number that fits, behind digits that are worth n. -/
theorem rangeFrom_digits {ds : List UInt8} (hds : ∀ d ∈ ds, isDigit d = true)
    (h : Stands regex i ds) (hi : i ≤ regex.length) (n : ℕ) (hn : digitsValue n ds < 2^31)
    (fuel : ℕ) (max : ℤ) :
    rangeFrom regex (fuel+ds.length) i .inRangeMin n max st =
        rangeFrom regex fuel (i+ds.length) .inRangeMin (digitsValue n ds) max st ∧
      ∀ min, rangeFrom regex (fuel+ds.length) i .inRangeMax min n st =
        rangeFrom regex fuel (i+ds.length) .inRangeMax min (digitsValue n ds) st := by
  induction ds generalizing i n with
  | nil => simp [digitsValue]
  | cons d ds ih =>
    obtain ⟨hlt,hget⟩ := stands_cons h
    have hd := hds d List.mem_cons_self
    have hvalue : digitsValue n (d :: ds) = digitsValue (10*n+(d.toNat-48)) ds := rfl
    rw [hvalue] at hn
    -- no digit makes the number overflow, as the last one does not
    have hfit := lt_of_le_of_lt (le_digitsValue _ ds) hn
    have hpair : Stands regex i ([d] ++ ds) := h
    have hnext := ih (fun b hb => hds b (List.mem_cons_of_mem d hb)) (stands_append.mp hpair).2 hlt
      (10*n+(d.toNat-48)) hn
    have hclose : d ≠ ch '\x7d' := fun h => absurd (h ▸ hd) (by decide)
    have hcomma : d ≠ ch ',' := fun h => absurd (h ▸ hd) (by decide)
    have hindex : i+(d :: ds).length = i+1+ds.length := by
      rw [List.length_cons]
      omega
    have hindex' : nextIndex i = .ok (i+1) := nextIndex_eq (by have := h.fits; omega)
    rw [hvalue, hindex]
    constructor
    · rw [List.length_cons, ← Nat.add_assoc, rangeFrom, charAt_eq hi, ok_bind, hget, if_neg hclose,
        if_neg hcomma, if_pos hd, if_pos rfl, hindex', ok_bind, addDigit_eq hd hfit]
      exact hnext.1
    · intro min
      rw [List.length_cons, ← Nat.add_assoc, rangeFrom, charAt_eq hi, ok_bind, hget, if_neg hclose,
        if_neg hcomma, if_pos hd, if_neg (by decide), if_pos rfl, hindex', ok_bind, addDigit_eq hd hfit]
      exact hnext.2 min

/-- The digits of a count are its decimal. -/
theorem decimal_count (m : Fin (2^31)) : (∀ d ∈ decimal m, isDigit d = true) ∧
    digitsValue 0 (decimal m) = m := by
  have hdecimal : decimal m = asciiBytes (Nat.toDigits 10 m) := by
    rw [decimal, if_neg (by omega)]
    rfl
  rw [hdecimal]
  obtain ⟨hdigits,hvalue,-⟩ := digits_toDigits m
  exact ⟨hdigits,hvalue⟩

/-- The last child with other limits. -/
def withLimits (min max : ℤ) (e : Element) : Element :=
  e.setData fun d => { d with mRepeatMin := min, mRepeatMax := max }

def setLast (st : PrepareState) (e : Element) (es : List Element) : PrepareState :=
  { st with curNode := { st.curNode with children := e :: es } }

section
variable {e : Element} {es : List Element}

theorem setRepeat_eq (hchildren : st.curNode.children = e :: es) (he : Repeatable e) (min max : ℤ) :
    st.setRepeat min max = .ok (st.setLast (withLimits min max e) es) := by
  rw [setRepeat, setLimits, setLastChild, hchildren, ok_bind, getLastChild, ok_bind]
  exact if_pos he

/-- The limits are set to zero before the loop over a repetition range. -/
theorem prepareChar_range (hst : st.state ≠ .inClass) (hchildren : st.curNode.children = e :: es)
    (he : Repeatable e) (h : Stands regex i [ch '\x7b']) :
    prepareChar memory regex i st = rangeFrom regex (regex.length+1) (i+1) .inRangeMin 0 0
      (st.setLast (withLimits 0 0 e) es) := by
  obtain ⟨hi,hget⟩ := stands_cons h
  have hfits := h.fits
  rw [prepareChar, charAt_eq hi.le, ok_bind, hget, if_neg (by decide), if_pos rfl, repeatRange,
    if_neg hst, nextIndex_eq (by omega), ok_bind, setRepeat_eq hchildren he, ok_bind]

/-- The end of the range. -/
theorem rangeFrom_close (h : Stands regex i [ch '\x7d']) (fuel : ℕ) (rangeState : PrepareMode)
    (min max : ℤ) :
    rangeFrom regex (fuel+1) i rangeState min max (st.setLast (withLimits 0 0 e) es) =
      .ok (i,st.setLast (withLimits min (if rangeState = .inRangeMin then min else max) e) es) := by
  obtain ⟨hi,hget⟩ := stands_cons h
  rw [rangeFrom, charAt_eq hi.le, ok_bind, hget, if_pos rfl]
  rfl

theorem rangeFrom_comma (h : Stands regex i [ch ',']) (fuel : ℕ) (min max : ℤ) :
    rangeFrom regex (fuel+1) i .inRangeMin min max st =
      rangeFrom regex fuel (i+1) .inRangeMax min max st := by
  obtain ⟨hi,hget⟩ := stands_cons h
  have hfits := h.fits
  rw [rangeFrom, charAt_eq hi.le, ok_bind, hget, if_neg (by decide), if_pos rfl, if_pos rfl,
    nextIndex_eq (by omega), ok_bind]

theorem stands_le {cs : List UInt8} (h : Stands regex i cs) (hcs : cs ≠ []) :
    i+cs.length ≤ regex.length := by
  have hlen := h.begins.length_le
  rw [List.length_drop] at hlen
  have hpos := List.length_pos_iff.mpr hcs
  omega

/-- The mark behind an item. -/
theorem advances_mark (mark : RepeatMark) (hst : st.state = .inUnknown)
    (hchildren : st.curNode.children = e :: es) (he : Repeatable e)
    (hmin : e.data.mRepeatMin = 1) (hmax : e.data.mRepeatMax = 1) (h : Stands regex i mark.text) :
    Advances memory regex i st (i+mark.text.length)
      (st.setLast (withLimits mark.min mark.max e) es) := by
  have hplain : ∀ c ∈ [ch '*',ch '+',ch '?'], c ∉ [ch '\\',ch '\x7b',ch '['] := by decide +kernel
  have hclass : st.state ≠ .inClass := by
    rw [hst]
    decide
  have hrepeat : ∀ str min max,
      st.repeatChar str min max = .ok (st.setLast (withLimits min max e) es) := by
    intro str min max
    rw [repeatChar, if_neg hclass]
    exact setRepeat_eq hchildren he min max
  cases mark with
  | once =>
    obtain ⟨⟨type,start,fin,min,max,invert⟩,children⟩ := e
    simp only [Element.data_mk] at hmin hmax
    subst hmin hmax
    have hsame : st.setLast (withLimits 1 1 (.mk ⟨type,start,fin,1,1,invert⟩ children)) es = st := by
      rw [show withLimits 1 1 (.mk ⟨type,start,fin,1,1,invert⟩ children) =
        .mk ⟨type,start,fin,1,1,invert⟩ children from rfl, setLast, ← hchildren]
    rw [RepeatMark.min, RepeatMark.max, hsame]
    exact .refl
  | star => exact advances_plain h (hplain _ (by simp)) (hrepeat _ _ _)
  | plus => exact advances_plain h (hplain _ (by simp)) (hrepeat _ _ _)
  | opt => exact advances_plain h (hplain _ (by simp)) (hrepeat _ _ _)
  | exactly m =>
    obtain ⟨hdigits,hvalue⟩ := decimal_count m
    obtain ⟨hfront,hend⟩ := stands_append.mp h
    obtain ⟨hopen,hcount⟩ := stands_append.mp hfront
    have hfit := stands_le hfront (by simp)
    simp only [List.length_append, List.length_singleton, ← Nat.add_assoc] at hfit hcount hend
    have hfuel : regex.length+1 = regex.length-(decimal m).length+1+(decimal m).length := by omega
    have hloop := (@rangeFrom_digits _ _ (st.setLast (withLimits 0 0 e) es) _ hdigits hcount
      (by omega) 0 (by rw [hvalue]; exact m.isLt) (regex.length-(decimal m).length+1) 0).1
    rw [hvalue, ← hfuel, Nat.cast_zero] at hloop
    have hlen : (RepeatMark.exactly m).text.length = 1+(decimal m).length+1 := by
      simp only [RepeatMark.text, List.length_append, List.length_singleton]
    rw [hlen, ← Nat.add_assoc, ← Nat.add_assoc]
    apply advances_char h.fits (stands_cons hend).1 (by omega)
    calc
      _ = rangeFrom regex (regex.length+1) (i+1) .inRangeMin 0 0
          (st.setLast (withLimits 0 0 e) es) := prepareChar_range hclass hchildren he hopen
      _ = rangeFrom regex (regex.length-(decimal m).length+1) (i+1+(decimal m).length) .inRangeMin
          m 0 (st.setLast (withLimits 0 0 e) es) := hloop
      _ = _ := rangeFrom_close hend _ _ _ _
  | between m n =>
    obtain ⟨hdigits,hvalue⟩ := decimal_count m
    obtain ⟨hdigits',hvalue'⟩ := decimal_count n
    obtain ⟨hfront,hend⟩ := stands_append.mp h
    obtain ⟨hfront',hcount'⟩ := stands_append.mp hfront
    obtain ⟨hfront'',hcomma⟩ := stands_append.mp hfront'
    obtain ⟨hopen,hcount⟩ := stands_append.mp hfront''
    have hfit := stands_le hfront (by simp)
    simp only [List.length_append, List.length_singleton, ← Nat.add_assoc] at hfit hcount hend
    simp only [List.length_append, List.length_singleton, ← Nat.add_assoc] at hcomma hcount'
    -- what is left of the fuel behind each part
    let rest := regex.length-(decimal m).length-1-(decimal n).length
    have hfuel : regex.length+1 = rest+1+(decimal n).length+1+(decimal m).length := by omega
    have hlow := (@rangeFrom_digits _ _ (st.setLast (withLimits 0 0 e) es) _ hdigits hcount
      (by omega) 0 (by rw [hvalue]; exact m.isLt) (rest+1+(decimal n).length+1) 0).1
    rw [hvalue, ← hfuel, Nat.cast_zero] at hlow
    have hhigh := (@rangeFrom_digits _ _ (st.setLast (withLimits 0 0 e) es) _ hdigits' hcount'
      (by omega) 0 (by rw [hvalue']; exact n.isLt) (rest+1) 0).2 m
    rw [hvalue', Nat.cast_zero] at hhigh
    have hlen : (RepeatMark.between m n).text.length =
        1+(decimal m).length+1+(decimal n).length+1 := by
      simp only [RepeatMark.text, List.length_append, List.length_singleton]
    rw [hlen, ← Nat.add_assoc, ← Nat.add_assoc, ← Nat.add_assoc, ← Nat.add_assoc]
    apply advances_char h.fits (stands_cons hend).1 (by omega)
    calc
      _ = rangeFrom regex (regex.length+1) (i+1) .inRangeMin 0 0
          (st.setLast (withLimits 0 0 e) es) := prepareChar_range hclass hchildren he hopen
      _ = rangeFrom regex (rest+1+(decimal n).length+1) (i+1+(decimal m).length) .inRangeMin
          m 0 (st.setLast (withLimits 0 0 e) es) := hlow
      _ = rangeFrom regex (rest+1+(decimal n).length) (i+1+(decimal m).length+1) .inRangeMax
          m 0 (st.setLast (withLimits 0 0 e) es) := rangeFrom_comma hcomma _ _ _
      _ = rangeFrom regex (rest+1) (i+1+(decimal m).length+1+(decimal n).length) .inRangeMax
          m n (st.setLast (withLimits 0 0 e) es) := hhigh
      _ = _ := rangeFrom_close hend _ _ _ _

end

theorem written_withLimits (min max : ℤ) (e : Element) :
    (withLimits min max e).written = withLimits min max e.written := by
  obtain ⟨d,cs⟩ := e
  simp only [withLimits, Element.setData, Element.written, Element.data_mk, Element.children_mk,
    ElementData.written]
  split_ifs <;> rfl

/-- An item with its mark. -/
theorem advances_marked {e : Element} {m : ℕ} (mark : RepeatMark) (hst : st.state = .inUnknown)
    (hadv : Advances memory regex i st j (st.appended [e] m)) (he : Repeatable e)
    (hmin : e.data.mRepeatMin = 1) (hmax : e.data.mRepeatMax = 1) (h : Stands regex j mark.text) :
    Advances memory regex i st (j+mark.text.length)
      (st.appended [withLimits mark.min mark.max e] m) := by
  have hstate : (st.appended [e] m).state = .inUnknown := hst
  exact hadv.trans (advances_mark mark hstate rfl he hmin hmax h)

theorem advances_terminal {start fin : UInt8} {m : ℕ} (mark : RepeatMark)
    (hst : st.state = .inUnknown)
    (hadv : Advances memory regex i st j (st.appended [.mk (terminalData start fin) []] m))
    (h : Stands regex j mark.text) :
    ∃ e m, e.written = terminalTree start fin mark ∧
      Advances memory regex i st (j+mark.text.length) (st.appended [e] m) := by
  refine ⟨withLimits mark.min mark.max (.mk (terminalData start fin) []),m,?_,?_⟩
  · rw [written_withLimits]
    rfl
  · exact advances_marked mark hst hadv (.inr (.inr rfl)) rfl rfl h

/-- No member of a class begins like an inverted class. -/
theorem members_head (members : List ClassMember)
    (h : Stands regex i (members.flatMap ClassMember.text ++ [ch ']'])) :
    regex.getD i 0 ≠ ch '^' := by
  have hchar : ∀ (c : UInt8) (cs : List UInt8), Stands regex i (charText c ++ cs) →
      regex.getD i 0 ≠ ch '^' := by
    intro c cs hc
    unfold charText at hc
    split_ifs at hc with hmeta
    · rw [(stands_cons hc).2]
      decide
    · rw [(stands_cons hc).2]
      rintro rfl
      exact hmeta (by decide)
  cases members with
  | nil =>
    rw [(stands_cons h).2]
    decide
  | cons member members =>
    cases member with
    | single c => exact hchar c _ (by simpa [ClassMember.text] using h)
    | range a b => exact hchar a _ (by simpa [ClassMember.text] using h)

/-- The state behind the bracket that opens a class. -/
def inNewClass (memory : ℕ → UInt8 × UInt8) (st : PrepareState) (invert : Bool) : PrepareState :=
  { st with state := .inClass, made := st.made+1 }.descend
    { st.newElement memory .typeClass with mClassInvert := invert }

theorem advances_openClass (invert : Bool) (members : List ClassMember)
    (hst : st.state = .inUnknown)
    (h : Stands regex i ([ch '['] ++ (if invert = true then [ch '^'] else []) ++
      (members.flatMap ClassMember.text ++ [ch ']']))) :
    Advances memory regex i st (i+1+(if invert = true then [ch '^'] else []).length)
      (inNewClass memory st invert) := by
  have hclass : st.state ≠ .inClass := by
    rw [hst]
    decide
  obtain ⟨hfront,hmembers⟩ := stands_append.mp h
  obtain ⟨hopen,hinvert⟩ := stands_append.mp hfront
  obtain ⟨hi,hget⟩ := stands_cons hopen
  have hchar : ∀ j st', st.openClass memory regex i = .ok (j,st') →
      prepareChar memory regex i st = .ok (j,st') := by
    intro j st' hopenClass
    rw [prepareChar, charAt_eq hi.le, ok_bind, hget, if_neg (by decide), if_neg (by decide),
      if_pos rfl, hopenClass]
  cases invert with
  | true =>
    obtain ⟨hi',hget'⟩ := stands_cons hinvert
    -- the sign of an inverted class is read with the bracket
    have hget1 : regex.getD (i+1) 0 = ch '^' := hget'
    have hfits := h.fits
    apply advances_char hfits hi' (Nat.le_succ i)
    apply hchar
    rw [openClass, if_neg hclass, charAt_eq hi, ok_bind, hget1]
    simp only [if_true, nextIndex_eq (show i < 2^31-1 by omega), ok_bind]
    rfl
  | false =>
    have hget1 : regex.getD (i+1) 0 ≠ ch '^' := members_head members hmembers
    apply advances_char h.fits hi le_rfl
    apply hchar
    rw [openClass, if_neg hclass, charAt_eq hi, ok_bind]
    simp only [hget1, decide_false, if_false, ok_bind]
    rfl

/-- A class, from one bracket to the other. -/
theorem advances_class (invert : Bool) (members : List ClassMember) (hst : st.state = .inUnknown)
    (h : Stands regex i ([ch '['] ++ (if invert = true then [ch '^'] else []) ++
      members.flatMap ClassMember.text ++ [ch ']'])) :
    ∃ e m, e.written = .mk (elementData .typeClass .once invert) (members.map ClassMember.tree) ∧
      e.data.mType = .typeClass ∧ e.data.mRepeatMin = 1 ∧ e.data.mRepeatMax = 1 ∧
      Advances memory regex i st (i+([ch '['] ++ (if invert = true then [ch '^'] else []) ++
        members.flatMap ClassMember.text ++ [ch ']']).length) (st.appended [e] m) := by
  obtain ⟨hfront,hclose⟩ := stands_append.mp h
  obtain ⟨-,hmembers⟩ := stands_append.mp hfront
  rw [List.append_assoc] at h
  have hopen := @advances_openClass memory _ _ _ invert members hst h
  rw [List.length_append, List.length_singleton, ← Nat.add_assoc] at hmembers
  have hstate : (inNewClass memory st invert).state = .inClass := rfl
  obtain ⟨es,m,hes,hadv⟩ := @advances_members memory _ _ _ members hstate hmembers
  -- the closing bracket puts the class with its members behind the other elements
  have hend : Advances memory regex
      (i+1+(if invert = true then [ch '^'] else []).length+
        (members.flatMap ClassMember.text).length)
      ((inNewClass memory st invert).appended es m)
      (i+1+(if invert = true then [ch '^'] else []).length+
        (members.flatMap ClassMember.text).length+1)
      (st.appended
        [.mk { st.newElement memory .typeClass with mClassInvert := invert } es] m) := by
    apply advances_plain (c := ch ']') _ (by decide)
    · obtain ⟨curNode,above,state,inGroup,made⟩ := st
      obtain rfl : state = .inUnknown := hst
      simp [plainChar, closeClass, inNewClass, appended, descend, ascend, newElement,
        OpenElement.close, ch]
    · simpa only [List.length_append, List.length_singleton, ← Nat.add_assoc] using hclose
  refine ⟨.mk { st.newElement memory .typeClass with mClassInvert := invert } es,m,?_,rfl,rfl,rfl,?_⟩
  · rw [Element.written, hes]
    rfl
  · simp only [List.length_append, List.length_singleton, ← Nat.add_assoc]
    exact hopen.trans (hadv.trans hend)

/-- A group in which some alternatives are done, with the last one of them first, and the next one
has begun. -/
def inAlternative (st : PrepareState) (orData : ElementData) (closed : List Element)
    (sequenceData : ElementData) (made : ℕ) : PrepareState :=
  { st with
    curNode := ⟨sequenceData,[]⟩
    above := ⟨orData,closed⟩ :: st.curNode :: st.above
    inGroup := st.inGroup+1
    made := made }

mutual

/-- An item is read back as its element. The states on the way are those in the text of a group
or a class. -/
theorem advances_item (memory : ℕ → UInt8 × UInt8) {regex : List UInt8} : ∀ (item : RegexItem)
    {i : ℕ} {st : PrepareState}, st.state = .inUnknown → Stands regex i item.text →
      ∃ e m, e.written = item.tree ∧
        Advances memory regex i st (i+item.text.length) (st.appended [e] m)
  | .literal c mark, i, st, hst, h => by
    obtain ⟨hchar,hmark⟩ := stands_append.mp h
    have hthru : st.state ≠ .inClassThru := by
      rw [hst]
      decide
    rw [RegexItem.text, List.length_append, ← Nat.add_assoc]
    exact advances_terminal mark hst (advances_charText hchar (addTerminal_appended hthru c c)) hmark
  | .any mark, i, st, hst, h => by
    obtain ⟨hchar,hmark⟩ := stands_append.mp h
    have hthru : st.state ≠ .inClassThru := by
      rw [hst]
      decide
    rw [RegexItem.text, List.length_append, ← Nat.add_assoc]
    exact advances_terminal mark hst
      (advances_plain hchar (by decide) (addTerminal_appended hthru 0 127)) hmark
  | .charClass invert members mark, i, st, hst, h => by
    obtain ⟨hclass,hmark⟩ := stands_append.mp h
    obtain ⟨e,m,he,htype,hmin,hmax,hadv⟩ := @advances_class memory _ _ _ invert members hst hclass
    refine ⟨withLimits mark.min mark.max e,m,?_,?_⟩
    · rw [written_withLimits, he]
      rfl
    · rw [RegexItem.text, List.length_append, ← Nat.add_assoc]
      exact advances_marked mark hst hadv (.inl htype) hmin hmax hmark
  | .group alternatives mark, i, st, hst, h => by
    have htext : (RegexItem.group alternatives mark).text =
        [ch '('] ++ (alternatives.text ++ [ch ')']) ++ mark.text := by
      simp [RegexItem.text]
    rw [htext] at h ⊢
    obtain ⟨hgroup,hmark⟩ := stands_append.mp h
    obtain ⟨hopen,hrest⟩ := stands_append.mp hgroup
    -- a group opens with an empty first alternative
    obtain ⟨es,m,hes,hadvs⟩ := advances_alternatives memory alternatives
      (st.newElement memory .typeOr) [] { ElementData.init (memory (st.made+1)) with
        mType := .typeSequence } (st.made+2) hst rfl hrest
    have hadv : Advances memory regex i st (i+1) (inAlternative st (st.newElement memory .typeOr) []
        { ElementData.init (memory (st.made+1)) with mType := .typeSequence } (st.made+2)) := by
      apply advances_plain hopen (by decide)
      simp [plainChar, openGroup, hst, inAlternative, descend, newElement, ch]
    refine ⟨withLimits mark.min mark.max (.mk (st.newElement memory .typeOr) es),m,?_,?_⟩
    · rw [written_withLimits, Element.written, hes]
      rfl
    · rw [List.length_append, ← Nat.add_assoc]
      apply advances_marked mark hst _ (.inr (.inl rfl)) rfl rfl hmark
      rw [List.length_append, ← Nat.add_assoc]
      exact hadv.trans hadvs

theorem advances_sequence (memory : ℕ → UInt8 × UInt8) {regex : List UInt8} :
    ∀ (s : RegexSequence) {i : ℕ} {st : PrepareState}, st.state = .inUnknown →
      Stands regex i s.text → ∃ es m, Element.writtenAll es = s.trees ∧
        Advances memory regex i st (i+s.text.length) (st.appended es m)
  | .nil, i, st, hst, h => ⟨[],st.made,rfl,.refl⟩
  | .cons item rest, i, st, hst, h => by
    obtain ⟨hitem,hrest⟩ := stands_append.mp h
    obtain ⟨e,m,he,hadv⟩ := advances_item memory item hst hitem
    have hstate : (st.appended [e] m).state = .inUnknown := hst
    obtain ⟨es,n,hes,hadvs⟩ := advances_sequence memory rest hstate hrest
    refine ⟨e :: es,n,by rw [Element.writtenAll, he, hes, RegexSequence.trees],?_⟩
    rw [appended_appended] at hadvs
    rw [RegexSequence.text, List.length_append, ← Nat.add_assoc]
    exact hadv.trans hadvs

/-- From the beginning of an alternative to the end of the group. -/
theorem advances_alternatives (memory : ℕ → UInt8 × UInt8) {regex : List UInt8} :
    ∀ (alternatives : RegexAlternatives) {i : ℕ} {st : PrepareState} (orData : ElementData)
      (closed : List Element) (sequenceData : ElementData) (made : ℕ), st.state = .inUnknown →
      sequenceData.written = elementData .typeSequence .once false →
      Stands regex i (alternatives.text ++ [ch ')']) →
      ∃ es m, Element.writtenAll es = alternatives.trees ∧
        Advances memory regex i (inAlternative st orData closed sequenceData made)
          (i+(alternatives.text ++ [ch ')']).length)
          (st.appended [.mk orData (closed.reverse ++ es)] m)
  | .one s, i, st, orData, closed, sequenceData, made, hst, hdata, h => by
    obtain ⟨hseq,hclose⟩ := stands_append.mp h
    have hstate : (inAlternative st orData closed sequenceData made).state = .inUnknown := hst
    obtain ⟨es,m,hes,hadv⟩ := advances_sequence memory s hstate hseq
    refine ⟨[.mk sequenceData es],m,?_,?_⟩
    · rw [Element.writtenAll, Element.written, hes, hdata]
      rfl
    · rw [List.length_append, ← Nat.add_assoc]
      -- the bracket closes the last alternative and the group
      refine hadv.trans (advances_plain hclose (by decide) ?_)
      simp [plainChar, closeGroup, inAlternative, appended, ascend, OpenElement.close, ch]
  | .more s rest, i, st, orData, closed, sequenceData, made, hst, hdata, h => by
    have htext : (RegexAlternatives.more s rest).text ++ [ch ')'] =
        s.text ++ [ch '|'] ++ (rest.text ++ [ch ')']) := by
      simp [RegexAlternatives.text]
    rw [htext] at h ⊢
    obtain ⟨hfront,hrest⟩ := stands_append.mp h
    obtain ⟨hseq,hbar⟩ := stands_append.mp hfront
    have hstate : (inAlternative st orData closed sequenceData made).state = .inUnknown := hst
    obtain ⟨es,m,hes,hadv⟩ := advances_sequence memory s hstate hseq
    -- the bar closes this alternative and opens the next one
    have hnext : Advances memory regex (i+s.text.length)
        ((inAlternative st orData closed sequenceData made).appended es m) (i+s.text.length+1)
        (inAlternative st orData (.mk sequenceData es :: closed)
          { ElementData.init (memory m) with mType := .typeSequence } (m+1)) := by
      apply advances_plain hbar (by decide)
      simp [plainChar, nextAlternative, inAlternative, appended, ascend, descend, newElement,
        OpenElement.close, ch]
    obtain ⟨fs,n,hfs,hadvs⟩ := advances_alternatives memory rest orData
      (.mk sequenceData es :: closed) { ElementData.init (memory m) with mType := .typeSequence }
      (m+1) hst rfl hrest
    refine ⟨.mk sequenceData es :: fs,n,?_,?_⟩
    · rw [Element.writtenAll, Element.written, hes, hfs, hdata, RegexAlternatives.trees]
    · have hclosed : closed.reverse ++ .mk sequenceData es :: fs =
          (Element.mk sequenceData es :: closed).reverse ++ fs := by
        simp
      rw [List.length_append, ← Nat.add_assoc, List.length_append, List.length_singleton,
        ← Nat.add_assoc, hclosed]
      rw [List.length_append, List.length_singleton, ← Nat.add_assoc] at hadvs
      exact hadv.trans (hnext.trans hadvs)

end

end PrepareState

namespace Regex
open PrepareState

/-- A regex that is printed from a tree is prepared to the same tree. -/
theorem prepare_text (memory : ℕ → UInt8 × UInt8) {s : RegexSequence} (hs : s.text.length < 2^31) :
    ∃ r, (init memory).prepare memory s.text = .ok (.kNoError,r) ∧ r.mState = .statePrepared ∧
      r.mRoot.written = .mk (elementData .typeSequence .once false) s.trees := by
  have hstate : (init memory).prepareState.state = .inUnknown := rfl
  have hstands : Stands s.text 0 s.text := ⟨hs,List.prefix_refl _⟩
  obtain ⟨es,m,hes,n,hn,hrun⟩ := advances_sequence memory s hstate hstands
  rw [Nat.zero_add] at hn hrun
  have hfuel : s.text.length+2 = s.text.length-n+2+n := by omega
  have hover : ¬(s.text.length : ℤ) < rlen s.text := by
    rw [rlen_eq hs]
    exact lt_irrefl _
  have hend : prepareFrom memory s.text (s.text.length+2) 0 (init memory).prepareState =
      .ok ((init memory).prepareState.appended es m) := by
    rw [hfuel, hrun, prepareFrom, if_neg hover]
  refine ⟨_,by rw [prepare, hend],rfl,?_⟩
  have hroot : ((init memory).prepareState.appended es m).root =
      .mk ((init memory).prepareState).curNode.data es := by
    simp [root, appended, OpenElement.close, prepareState, init]
  rw [hroot, Element.written, hes]
  rfl

/-- "(c|[^a-f]+)a{2,3}". -/
def classGroup : RegexSequence :=
  let c : RegexChar := ⟨ch 'c',by decide⟩
  let a : RegexChar := ⟨ch 'a',by decide⟩
  let f : RegexChar := ⟨ch 'f',by decide⟩
  .cons (.group (.more (.cons (.literal c .once) .nil)
      (.one (.cons (.charClass true [.range a f] .plus) .nil))) .once)
    (.cons (.literal a (.between 2 3)) .nil)

theorem prepare_text_classGroup :
    ∃ r, (init fun _ => (0,0)).prepare (fun _ => (0,0)) classGroup.text = .ok (.kNoError,r) ∧
      r.mState = .statePrepared ∧
      r.mRoot.written = .mk (elementData .typeSequence .once false) classGroup.trees :=
  prepare_text (fun _ => (0,0)) (by decide +kernel)

/-- So many letters "a". -/
def manyLetters : ℕ → RegexSequence
  | 0 => .nil
  | n+1 => .cons (.literal ⟨ch 'a',by decide⟩ .once) (manyLetters n)

theorem length_manyLetters (n : ℕ) :
    (manyLetters n).text.length = n ∧ (manyLetters n).trees.length = n := by
  induction n with
  | zero => exact ⟨rfl,rfl⟩
  | succ n ih =>
    obtain ⟨htext,htrees⟩ := ih
    constructor
    · have hitem : (RegexItem.literal ⟨ch 'a',by decide⟩ .once).text.length = 1 := rfl
      rw [manyLetters, RegexSequence.text, List.length_append, htext, hitem, Nat.add_comm]
    · rw [manyLetters, RegexSequence.trees, List.length_cons, htrees]

/-- The length of so long a text becomes a negative int, and nothing is read of it. -/
theorem long_text_unread : ¬∀ (memory : ℕ → UInt8 × UInt8) (s : RegexSequence),
    ∃ r, (init memory).prepare memory s.text = .ok (.kNoError,r) ∧ r.mState = .statePrepared ∧
      r.mRoot.written = .mk (elementData .typeSequence .once false) s.trees := by
  intro h
  obtain ⟨n,hn⟩ : ∃ n, n = 2^31 := ⟨_,rfl⟩
  obtain ⟨r,hprepare,-,hroot⟩ := h (fun _ => (0,0)) (manyLetters n)
  obtain ⟨htext,htrees⟩ := length_manyLetters n
  have hunread : ¬((0 : ℕ) : ℤ) < rlen (manyLetters n).text := by
    rw [rlen, htext, hn]
    decide +kernel
  rw [prepare, prepareFrom, if_neg hunread] at hprepare
  obtain ⟨-,rfl⟩ := Prod.mk.inj (Except.ok.inj hprepare)
  have hchildren : [] = (manyLetters n).trees := congrArg Element.children hroot
  rw [← hchildren] at htrees
  rw [← htrees] at hn
  exact absurd hn (by decide +kernel)

end Regex

end JhCommon
