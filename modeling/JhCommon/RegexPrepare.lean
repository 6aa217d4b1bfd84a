import JhCommon.Regex

/-! When `prepare` returns. The switch is gone through once, and says for each character what the
state in front of it must be like; the loop goes on as long as it is. -/
namespace JhCommon

namespace Preparing
variable {α β : Type}

/-- It is not a fault, and where it is no PARSE_ERROR either, its value has the property. -/
def Safe (x : Preparing α) (P : α → Prop) : Prop :=
  match x with
  | .ok a => P a
  | .error (.parseError _ _) => True
  | .error (.fault _) => False

@[simp] theorem safe_ok (a : α) (P : α → Prop) : Safe (.ok a) P ↔ P a := Iff.rfl

@[simp] theorem safe_parseError (str : String) (st : PrepareState) (P : α → Prop) :
    Safe (.error (.parseError str st)) P ↔ True := Iff.rfl

@[simp] theorem safe_fault (f : Fault) (P : α → Prop) : Safe (.error (.fault f)) P ↔ False := Iff.rfl

theorem safe_bind (x : Preparing α) (f : α → Preparing β) (P : β → Prop) :
    Safe (x >>= f) P ↔ Safe x fun a => Safe (f a) P := by
  cases x with
  | ok a => rfl
  | error e => cases e <;> rfl

theorem safe_ite {p q : Prop} [Decidable p] {x y : Preparing α} {P : α → Prop}
    (hpos : p → (Safe x P ↔ q)) (hneg : ¬p → (Safe y P ↔ q)) :
    Safe (if p then x else y) P ↔ q := by
  split_ifs with h
  · exact hpos h
  · exact hneg h

theorem Safe.mono {x : Preparing α} {P Q : α → Prop} (hx : Safe x P) (h : ∀ a, P a → Q a) :
    Safe x Q := by
  cases x with
  | ok a => exact h a hx
  | error e => cases e <;> exact hx

end Preparing

/-- A class is one level of the tree. -/
def PrepareMode.levels : PrepareMode → ℕ
  | .inUnknown => 0
  | _ => 1

namespace PrepareState
open Preparing

/-- The groups that are open, and the class, are among the ancestors of cur_node. -/
def Deep (st : PrepareState) : Prop := 2*st.inGroup+st.state.levels ≤ st.above.length

/-- `getLastChild` does not return NULL. -/
def HasChild (st : PrepareState) : Prop := st.curNode.children ≠ []

instance (st : PrepareState) : Decidable st.HasChild :=
  inferInstanceAs (Decidable (st.curNode.children ≠ []))

/-- What the assertions of the repeats say. -/
def Repeatable (e : Element) : Prop :=
  e.data.mType = .typeClass ∨ e.data.mType = .typeOr ∨ e.data.mType = .typeTerminal

/-- There is something for a repeat to apply to. -/
def CanRepeat (st : PrepareState) : Prop := ∃ e ∈ st.curNode.children.head?, Repeatable e

/-- The end of a range goes to the last child. -/
def CanEndRange (st : PrepareState) : Prop := st.state = .inClassThru → st.HasChild

theorem setLastChild_safe (st : PrepareState) (f : ElementData → ElementData)
    (P : PrepareState → Prop) (hP : ∀ e es, P { st with curNode := { st.curNode with
      children := e :: es } }) : Safe (st.setLastChild f) P ↔ st.HasChild := by
  unfold setLastChild HasChild
  cases st.curNode.children with
  | nil => simp
  | cons e es => simpa using hP (e.setData f) es

section
variable {memory : ℕ → UInt8 × UInt8} {st : PrepareState} {P : PrepareState → Prop}

theorem addTerminal_safe (hst : st.Deep) (hP : ∀ st', st'.Deep → P st') (start fin : UInt8) :
    Safe (st.addTerminal memory start fin) P ↔ (start = fin → st.CanEndRange) := by
  unfold addTerminal CanEndRange
  by_cases hthru : st.state = .inClassThru
  · rw [if_pos hthru]
    by_cases heq : start = fin
    · rw [if_neg (not_not.mpr heq), setLastChild_safe]
      · exact ⟨fun h _ _ => h,fun h => h heq hthru⟩
      · intro e es
        exact hP _ (by simpa [Deep, hthru, PrepareMode.levels] using hst)
    · rw [if_pos heq]
      exact iff_of_true trivial fun h => absurd h heq
  · rw [if_neg hthru]
    exact iff_of_true (hP _ hst) fun _ h => absurd h hthru

/-- A terminal, which leaves nothing of what the memory held. -/
def terminalData (start fin : UInt8) : ElementData :=
  { mType := .typeTerminal
    mTermStartChar := start
    mTermEndChar := fin
    mRepeatMin := 1
    mRepeatMax := 1
    mClassInvert := false }

theorem addTerminal_eq (hst : st.state ≠ .inClassThru) (start fin : UInt8) :
    st.addTerminal memory start fin =
      .ok ({ st with made := st.made+1 }.insertChild (terminalData start fin)) := if_neg hst

theorem addTerminals_eq (hst : st.state ≠ .inClassThru) (ts : List (UInt8 × UInt8)) :
    addTerminals memory ts st =
      .ok { st with
        curNode := ⟨st.curNode.data,
          (ts.map fun t => Element.mk (terminalData t.1 t.2) []).reverse ++ st.curNode.children⟩
        made := st.made+ts.length } := by
  induction ts generalizing st with
  | nil => rfl
  | cons t ts ih =>
    have hst' : ({ st with made := st.made+1 }.insertChild (terminalData t.1 t.2)).state ≠
      .inClassThru := hst
    rw [addTerminals, addTerminal_eq hst, ok_bind, ih hst']
    simp [insertChild, Nat.add_assoc, Nat.add_comm 1]

/-- Only the first terminal can be the end of a range. -/
theorem addTerminals_safe (t : UInt8 × UInt8) (ts : List (UInt8 × UInt8))
    (hP : ∀ st', st'.above = st.above → st'.inGroup = st.inGroup →
      st'.state.levels = st.state.levels → P st') :
    Safe (addTerminals memory (t :: ts) st) P ↔ (t.1 = t.2 → st.CanEndRange) := by
  by_cases hthru : st.state = .inClassThru
  · rw [addTerminals, safe_bind, addTerminal, if_pos hthru]
    by_cases heq : t.1 = t.2
    · rw [if_neg (not_not.mpr heq), setLastChild_safe]
      · exact ⟨fun h _ _ => h,fun h => h heq hthru⟩
      · intro e es
        rw [addTerminals_eq (by simp)]
        apply hP <;> simp [hthru, PrepareMode.levels]
    · rw [if_pos heq]
      exact iff_of_true trivial fun h => absurd h heq
  · rw [addTerminals_eq hthru]
    exact iff_of_true (hP _ rfl rfl rfl) fun _ h => absurd h hthru

/-- The class that the terminals go to must not be a new one, where they begin with the end of a
range. -/
theorem addClass_safe (hst : st.Deep) (hP : ∀ st', st'.Deep → P st') (invert : Bool)
    (t : UInt8 × UInt8) (ts : List (UInt8 × UInt8)) :
    Safe (st.addClass memory invert (t :: ts)) P ↔
      (t.1 = t.2 → st.state = .inClassThru → st.curNode.data.mType = .typeClass ∧ st.HasChild) := by
  unfold addClass
  simp only [safe_bind]
  by_cases hclass : st.curNode.data.mType = .typeClass
  · simp only [ne_eq, hclass, not_true_eq_false, if_false, true_and]
    rw [addTerminals_safe]
    · cases invert <;> rfl
    · intro st' habove hgroup hstate
      apply hP
      cases invert <;> simpa [Deep, habove, hgroup, hstate] using hst
  · simp only [ne_eq, hclass, not_false_eq_true, if_true, false_and]
    rw [addTerminals_safe]
    · cases invert <;> simp [CanEndRange, HasChild, descend]
    · intro st' habove hgroup hstate
      have hup : st'.above = st.curNode :: st.above := by
        cases invert <;> simpa [descend] using habove
      have hgroup' : st'.inGroup = st.inGroup := by
        cases invert <;> simpa [descend] using hgroup
      have hstate' : st'.state.levels = st.state.levels := by
        cases invert <;> simpa [descend] using hstate
      simp only [ascend, hup, safe_ok]
      exact hP _ (by simpa [Deep, hgroup', hstate'] using hst)

/-- What a character behind a backslash needs. -/
def EscapeOk (st : PrepareState) (c : UInt8) : Prop :=
  st.state = .inClassThru →
    if c = ch 's' ∨ c = ch 'S' then st.curNode.data.mType = .typeClass ∧ st.HasChild
    else c ∈ [ch 'w',ch 'W',ch 'd',ch 'D',ch '0',ch 'x'] ∨ st.HasChild

/-- What is left is an error: the end of a range, where a class of letters stands. -/
theorem addTerminal_fails (start fin : UInt8) :
    Safe (st.addTerminal memory start fin) (fun _ => False) ↔
      st.state = .inClassThru ∧ start ≠ fin := by
  unfold addTerminal
  by_cases hthru : st.state = .inClassThru
  · rw [if_pos hthru]
    by_cases heq : start = fin
    · rw [if_neg (not_not.mpr heq)]
      apply iff_of_false _ fun h => h.2 heq
      unfold setLastChild
      split <;> exact id
    · rw [if_pos heq]
      exact iff_of_true trivial ⟨hthru,heq⟩
  · rw [if_neg hthru]
    exact iff_of_false id fun h => hthru h.1

theorem addTerminals_fails (t : UInt8 × UInt8) (ts : List (UInt8 × UInt8)) :
    Safe (addTerminals memory (t :: ts) st) (fun _ => False) ↔
      st.state = .inClassThru ∧ t.1 ≠ t.2 := by
  rw [← @addTerminal_fails memory st, addTerminals, safe_bind]
  by_cases hthru : st.state = .inClassThru
  · -- the terminals behind the end of a range fail nowhere
    have hrest (f : ElementData → ElementData) :
        Safe ({ st with state := .inClass }.setLastChild f) (fun st =>
          Safe (addTerminals memory ts st) fun _ => False) ↔
        Safe ({ st with state := .inClass }.setLastChild f) fun _ => False := by
      unfold setLastChild
      split
      · rfl
      · rw [safe_ok, addTerminals_eq (by simp)]
        rfl
    rw [addTerminal, if_pos hthru]
    split_ifs with heq
    · rfl
    · exact hrest _
  · rw [addTerminal_eq hthru, safe_ok, safe_ok, addTerminals_eq (by exact hthru)]
    rfl

theorem ascend_fails : Safe st.ascend (fun _ => False) ↔ False := by
  unfold ascend
  split <;> rfl

theorem addClass_fails (invert : Bool) (t : UInt8 × UInt8) (ts : List (UInt8 × UInt8)) :
    Safe (st.addClass memory invert (t :: ts)) (fun _ => False) ↔
      st.state = .inClassThru ∧ t.1 ≠ t.2 := by
  unfold addClass
  simp only [safe_bind]
  by_cases hclass : st.curNode.data.mType = .typeClass
  · simp only [ne_eq, hclass, not_true_eq_false, if_false]
    cases invert <;> exact addTerminals_fails t ts
  · simp only [ne_eq, hclass, not_false_eq_true, if_true, ascend_fails]
    cases invert <;> exact addTerminals_fails t ts

/-- A class of letters or digits stands where the end of a range should be. -/
def EscapeErrs (st : PrepareState) (c : UInt8) : Prop :=
  st.state = .inClassThru ∧ c ∈ [ch 'w',ch 'W',ch 'd',ch 'D']

theorem escape_fails (c : UInt8) :
    Safe (st.escape memory c) (fun _ => False) ↔ EscapeErrs st c := by
  have hletters : c ∈ [ch 'w',ch 'W',ch 'd',ch 'D'] → ∀ invert t ts, t.1 ≠ t.2 →
      (Safe (st.addClass memory invert (t :: ts)) (fun _ => False) ↔ EscapeErrs st c) := by
    intro hc invert t ts ht
    rw [addClass_fails, EscapeErrs, and_iff_left ht, and_iff_left hc]
  have hspace : c ∉ [ch 'w',ch 'W',ch 'd',ch 'D'] → ∀ invert,
      (Safe (st.addClass memory invert spaceTerminals) (fun _ => False) ↔ EscapeErrs st c) := by
    intro hc invert
    rw [spaceTerminals, addClass_fails]
    exact iff_of_false (fun h => h.2 rfl) fun h => hc h.2
  have hplain : c ∉ [ch 'w',ch 'W',ch 'd',ch 'D'] → ∀ d,
      (Safe (st.addTerminal memory d d) (fun _ => False) ↔ EscapeErrs st c) := by
    intro hc d
    rw [addTerminal_fails]
    exact iff_of_false (fun h => h.2 rfl) fun h => hc h.2
  unfold escape
  apply safe_ite <;> intro hw
  · exact hletters (by simp [hw]) _ _ _ (by decide)
  apply safe_ite <;> intro hW
  · exact hletters (by simp [hW]) _ _ _ (by decide)
  apply safe_ite <;> intro hs
  · exact hspace (by rw [hs]; decide) _
  apply safe_ite <;> intro hS
  · exact hspace (by rw [hS]; decide) _
  apply safe_ite <;> intro hd
  · exact hletters (by simp [hd]) _ _ _ (by decide)
  apply safe_ite <;> intro hD
  · exact hletters (by simp [hD]) _ _ _ (by decide)
  -- the others are no class of letters or digits
  have hc : c ∉ [ch 'w',ch 'W',ch 'd',ch 'D'] := by simp [hw, hW, hd, hD]
  apply safe_ite <;> intro _
  · exact hplain hc _
  apply safe_ite <;> intro _
  · exact hplain hc _
  apply safe_ite <;> intro _
  · exact hplain hc _
  apply safe_ite <;> intro _
  · exact hplain hc _
  apply safe_ite <;> intro _
  · exact iff_of_false id fun h => hc h.2
  · exact hplain hc c

theorem escape_safe (hst : st.Deep) (hP : ∀ st', st'.Deep → P st') (c : UInt8) :
    Safe (st.escape memory c) P ↔ EscapeOk st c := by
  have hword : ∀ invert, Safe (st.addClass memory invert wordTerminals) P := by
    intro invert
    exact (addClass_safe hst hP invert _ _).mpr fun h => absurd h (by decide)
  have hdigit : ∀ invert, Safe (st.addClass memory invert digitTerminals) P := by
    intro invert
    exact (addClass_safe hst hP invert _ _).mpr fun h => absurd h (by decide)
  have hfree : ∀ d ∈ [ch 'w',ch 'W',ch 'd',ch 'D',ch '0',ch 'x'], c = d → EscapeOk st c := by
    rintro d hd rfl -
    rw [if_neg (by revert c; decide +kernel)]
    exact .inl hd
  have hspace : ∀ invert, c = ch 's' ∨ c = ch 'S' →
      (Safe (st.addClass memory invert spaceTerminals) P ↔ EscapeOk st c) := by
    intro invert hc
    rw [EscapeOk, if_pos hc, spaceTerminals, addClass_safe hst hP]
    exact ⟨fun h => h rfl,fun h _ => h⟩
  unfold escape
  apply safe_ite <;> intro hw
  · exact iff_of_true (hword _) (hfree _ (by simp) hw)
  apply safe_ite <;> intro hW
  · exact iff_of_true (hword _) (hfree _ (by simp) hW)
  apply safe_ite <;> intro hs
  · exact hspace _ (.inl hs)
  apply safe_ite <;> intro hS
  · exact hspace _ (.inr hS)
  apply safe_ite <;> intro hd
  · exact iff_of_true (hdigit _) (hfree _ (by simp) hd)
  apply safe_ite <;> intro hD
  · exact iff_of_true (hdigit _) (hfree _ (by simp) hD)
  -- what is left adds one terminal or none
  have hplain : c ≠ ch '0' → c ≠ ch 'x' → ∀ d,
      (Safe (st.addTerminal memory d d) P ↔ EscapeOk st c) := by
    intro h0 hx d
    rw [addTerminal_safe hst hP, EscapeOk, if_neg (not_or.mpr ⟨hs,hS⟩)]
    simp [hw, hW, hd, hD, h0, hx, CanEndRange]
  apply safe_ite <;> intro ht
  · exact hplain (by rw [ht]; decide) (by rw [ht]; decide) _
  apply safe_ite <;> intro hn
  · exact hplain (by rw [hn]; decide) (by rw [hn]; decide) _
  apply safe_ite <;> intro hr
  · exact hplain (by rw [hr]; decide) (by rw [hr]; decide) _
  apply safe_ite <;> intro hf
  · exact hplain (by rw [hf]; decide) (by rw [hf]; decide) _
  apply safe_ite <;> intro hx
  · rcases hx with hx | hx
    · exact iff_of_true (hP _ hst) (hfree _ (by simp) hx)
    · exact iff_of_true (hP _ hst) (hfree _ (by simp) hx)
  · exact hplain (fun h => hx (.inl h)) (fun h => hx (.inr h)) c

/-- What sets the limits keeps the type. -/
theorem setRepeat_safe (min max : ℤ)
    (hP : ∀ e es, P { st with curNode := { st.curNode with children := e :: es } }) :
    Safe (st.setRepeat min max) P ↔ st.CanRepeat := by
  unfold setRepeat setLimits setLastChild CanRepeat
  cases hchildren : st.curNode.children with
  | nil => simp
  | cons e es =>
    simp only [ok_bind, getLastChild, List.head?_cons, Option.mem_def, Option.some.injEq,
      exists_eq_left']
    apply safe_ite <;> intro htype
    · exact iff_of_true (hP _ _) htype
    · exact iff_of_false id htype

theorem setRepeat_fails (min max : ℤ)
    (hP : ∀ e es, ¬P { st with curNode := { st.curNode with children := e :: es } }) :
    ¬Safe (st.setRepeat min max) P := by
  unfold setRepeat setLimits setLastChild
  cases hchildren : st.curNode.children with
  | nil => exact id
  | cons e es =>
    simp only [ok_bind, getLastChild]
    split_ifs
    · exact hP _ _
    · exact id

theorem repeatChar_safe (hst : st.Deep) (hP : ∀ st', st'.Deep → P st') (str : String) (min max : ℤ) :
    Safe (st.repeatChar str min max) P ↔ (st.state ≠ .inClass → st.CanRepeat) := by
  apply safe_ite <;> intro hclass
  · exact iff_of_true trivial fun h => absurd hclass h
  · rw [setRepeat_safe]
    · exact ⟨fun h _ => h,fun h => h hclass⟩
    · exact fun _ _ => hP _ hst

theorem ascend_safe (habove : 0 < st.above.length)
    (hP : ∀ cur, P { st with curNode := cur, above := st.above.tail }) : Safe st.ascend P := by
  unfold ascend
  cases hab : st.above with
  | nil => simp [hab] at habove
  | cons parent above =>
    have h := hP { parent with children := st.curNode.close :: parent.children }
    rwa [hab] at h

theorem closeClass_safe (hst : st.Deep) (hP : ∀ st', st'.Deep → P st') {c : UInt8} :
    Safe (st.closeClass memory c) P := by
  unfold closeClass
  split_ifs with hclass hthru
  · simp only [Deep, hclass, PrepareMode.levels] at hst
    rw [safe_bind]
    apply ascend_safe (by omega)
    intro cur
    apply hP
    simp only [Deep, PrepareMode.levels, List.length_tail]
    omega
  · trivial
  · exact (addTerminal_safe hst hP c c).mpr fun _ h => absurd h hthru

theorem dash_safe (hst : st.Deep) (hP : ∀ st', st'.Deep → P st') {c : UInt8} :
    Safe (st.dash memory c) P ↔
      if st.state = .inClass then st.HasChild else st.CanEndRange := by
  unfold dash
  split_ifs with hclass
  · unfold getLastChild HasChild
    cases st.curNode.children with
    | nil => simp
    | cons e es =>
      rw [ok_bind]
      apply safe_ite <;> intro hends
      · exact iff_of_true trivial (List.cons_ne_nil e es)
      · exact iff_of_true (hP _ (by simpa [Deep, hclass, PrepareMode.levels] using hst))
          (List.cons_ne_nil e es)
  · rw [addTerminal_safe hst hP]
    exact ⟨fun h => h rfl,fun h _ => h⟩

theorem openGroup_safe (hst : st.Deep) (hP : ∀ st', st'.Deep → P st') {c : UInt8} :
    Safe (st.openGroup memory c) P := by
  unfold openGroup
  split_ifs with hclass
  · exact (addTerminal_safe hst hP c c).mpr fun _ h => by simp [hclass] at h
  · apply hP
    simp only [Deep, descend, List.length_cons] at hst ⊢
    omega

theorem nextAlternative_safe (hst : st.Deep) (hP : ∀ st', st'.Deep → P st') {c : UInt8} :
    Safe (st.nextAlternative memory c) P ↔ (st.inGroup = 0 → st.CanEndRange) := by
  unfold nextAlternative
  apply safe_ite <;> intro hgroup
  · apply iff_of_true _ fun h => absurd h (by omega)
    unfold Deep at hst
    rw [safe_bind]
    apply ascend_safe (by omega)
    intro cur
    apply hP
    simp only [Deep, descend, List.length_cons, List.length_tail]
    omega
  · rw [addTerminal_safe hst hP]
    exact ⟨fun h _ => h rfl,fun h _ => h (by omega)⟩

theorem closeGroup_safe (hst : st.Deep) (hP : ∀ st', st'.Deep → P st') {c : UInt8} :
    Safe (st.closeGroup memory c) P ↔ (st.inGroup = 0 → st.CanEndRange) := by
  unfold closeGroup
  apply safe_ite <;> intro hgroup
  · apply iff_of_true _ fun h => absurd h (by omega)
    unfold Deep at hst
    rw [safe_bind]
    apply ascend_safe (by simp only; omega)
    intro cur
    apply ascend_safe (by simp only [List.length_tail]; omega)
    intro cur'
    apply hP
    simp only [Deep, List.length_tail]
    omega
  · rw [addTerminal_safe hst hP]
    exact ⟨fun h _ => h rfl,fun h _ => h (by omega)⟩

/-- What a character that is read by itself needs. -/
def PlainOk (st : PrepareState) (c : UInt8) : Prop :=
  if c ∈ [ch '*',ch '+',ch '?'] then st.state ≠ .inClass → st.CanRepeat
  else if c ∈ [ch '.',ch ']',ch '('] then True
  else if c = ch '-' ∧ st.state = .inClass then st.HasChild
  else if c ∈ [ch '|',ch ')'] ∧ 0 < st.inGroup then True
  else st.CanEndRange

theorem plainChar_safe (hst : st.Deep) (hP : ∀ st', st'.Deep → P st') (c : UInt8) :
    Safe (st.plainChar memory c) P ↔ PlainOk st c := by
  have hrepeat : c ∈ [ch '*',ch '+',ch '?'] → ∀ str min max,
      (Safe (st.repeatChar str min max) P ↔ PlainOk st c) := by
    intro hc str min max
    rw [PlainOk, if_pos hc]
    exact repeatChar_safe hst hP str min max
  have hother : ∀ d ∈ [ch '.',ch ']',ch '('], d ∉ [ch '*',ch '+',ch '?'] := by decide +kernel
  have hfree : ∀ d ∈ [ch '.',ch ']',ch '('], c = d → PlainOk st c := by
    rintro d hd rfl
    rw [PlainOk, if_neg (hother c hd), if_pos hd]
    trivial
  unfold plainChar
  apply safe_ite <;> intro hdot
  · exact iff_of_true ((addTerminal_safe hst hP _ _).mpr fun h => absurd h (by decide))
      (hfree _ (by simp) hdot)
  apply safe_ite <;> intro hstar
  · exact hrepeat (by simp [hstar]) _ _ _
  apply safe_ite <;> intro hplus
  · exact hrepeat (by simp [hplus]) _ _ _
  apply safe_ite <;> intro hopt
  · exact hrepeat (by simp [hopt]) _ _ _
  apply safe_ite <;> intro hbracket
  · exact iff_of_true (closeClass_safe hst hP) (hfree _ (by simp) hbracket)
  apply safe_ite <;> intro hdash
  · have hor : ¬(c ∈ [ch '|',ch ')'] ∧ 0 < st.inGroup) := by
      rw [hdash]
      exact fun h => absurd h.1 (by decide)
    rw [PlainOk, if_neg (by simp [hstar, hplus, hopt]), if_neg (by rw [hdash]; decide), if_neg hor,
      dash_safe hst hP]
    simp [hdash]
  apply safe_ite <;> intro hopen
  · exact iff_of_true (openGroup_safe hst hP) (hfree _ (by simp) hopen)
  -- what is left adds one terminal, where no group is concerned
  have hgroup : (st.inGroup = 0 → st.CanEndRange) ↔
      if 0 < st.inGroup then True else st.CanEndRange := by
    split_ifs with h
    · exact iff_of_true (fun h0 => absurd h0 (by omega)) trivial
    · exact ⟨fun hend => hend (by omega),fun hend _ => hend⟩
  have hok : PlainOk st c ↔
      if c ∈ [ch '|',ch ')'] ∧ 0 < st.inGroup then True else st.CanEndRange := by
    rw [PlainOk, if_neg (by simp [hstar, hplus, hopt]), if_neg (by simp [hdot, hbracket, hopen]),
      if_neg (fun h => hdash h.1)]
  rw [hok]
  apply safe_ite <;> intro hor
  · rw [nextAlternative_safe hst hP, hgroup]
    simp [hor]
  apply safe_ite <;> intro hclose
  · rw [closeGroup_safe hst hP, hgroup]
    simp [hclose]
  · rw [if_neg (fun h => absurd h.1 (by simp [hor, hclose])), addTerminal_safe hst hP]
    exact ⟨fun h => h rfl,fun h _ => h⟩

section
variable {regex : List UInt8}

/-- The index is one of the regex, and not the greatest int. -/
theorem lt_rlen {i : ℕ} (h : (i : ℤ) < rlen regex) : i < regex.length ∧ i < 2^31-1 := by
  have hmod := Nat.mod_le regex.length (2^32)
  rw [rlen, BitVec.toInt_eq_toNat_cond, BitVec.toNat_ofNat] at h
  split at h <;> omega

theorem rlen_eq (h : regex.length < 2^31) : rlen regex = regex.length := by
  rw [rlen, BitVec.toInt_eq_toNat_cond, BitVec.toNat_ofNat, Nat.mod_eq_of_lt (by omega), if_pos (by omega)]

theorem nextIndex_eq {i : ℕ} (hi : i < 2^31-1) : nextIndex i = .ok (i+1) := if_pos hi

theorem nextIndex_safe {i : ℕ} {P : ℕ → Prop} :
    Safe (nextIndex i) P ↔ i < 2^31-1 ∧ P (i+1) := by
  by_cases hi : i < 2^31-1
  · rw [nextIndex_eq hi, safe_ok]
    exact (and_iff_right hi).symm
  · rw [nextIndex, if_neg hi]
    exact iff_of_false id fun h => hi h.1

/-- Behind the end there is nothing but the terminator. -/
theorem charAt_eq {i : ℕ} (hi : i ≤ regex.length) : charAt regex i = .ok (regex.getD i 0) :=
  if_pos hi

/-- What the last step through the loop over a repetition range does. -/
theorem setLimits_safe (hchild : st.HasChild) (min max : ℤ) {P : PrepareState → Prop}
    (hP : ∀ e es, P { st with curNode := { st.curNode with children := e :: es } }) :
    Safe (st.setLimits min max) P := (setLastChild_safe st _ P hP).mpr hchild

/-- The index stays an int up to the end of a repetition range, or to an error in it. -/
def RangeFits : List UInt8 → ℕ → PrepareMode → Prop
  | [], _, _ => True
  | c :: cs, i, rangeState =>
    if c = ch '\x7d' then i < 2^31-1
    else if c = ch ',' then
      rangeState = .inRangeMin → i < 2^31-1 ∧ RangeFits cs (i+1) .inRangeMax
    else if isDigit c = true then
      rangeState = .inRangeMin ∨ rangeState = .inRangeMax →
        i < 2^31-1 ∧ RangeFits cs (i+1) rangeState
    else True

theorem rangeFrom_safe (hst : st.Deep) (hchild : st.HasChild) {k : ℕ} {P : ℕ × PrepareState → Prop}
    (hP : ∀ j st', k ≤ j → j ≤ regex.length → j < 2^31-1 → st'.Deep → P (j,st'))
    (hbound : ∀ p, P p → p.1 < 2^31-1) (fuel i : ℕ) (rangeState : PrepareMode)
    (min max : ℤ) (hk : k ≤ i) (hi : i ≤ regex.length) (hfuel : regex.length < fuel+i) :
    Safe (rangeFrom regex fuel i rangeState min max st) P ↔
      RangeFits (regex.drop i) i rangeState := by
  induction fuel generalizing i rangeState min max with
  | zero => omega
  | succ fuel ih =>
    -- an error is left with the limits read so far
    have herror : ∀ min max str, Safe (do
        let st ← st.setLimits min max
        Except.error (.parseError str st) : Preparing (ℕ × PrepareState)) P := by
      intro min max str
      rw [safe_bind]
      exact setLimits_safe hchild min max fun _ _ => trivial
    rw [rangeFrom, charAt_eq hi, ok_bind]
    rcases hi.lt_or_eq with hlt | rfl
    swap
    · -- the terminator is an error
      have hnul : regex.getD regex.length 0 = 0 := by simp
      rw [hnul, if_neg (by decide), if_neg (by decide), if_neg (by decide), List.drop_length]
      exact iff_of_true (herror _ _ _) trivial
    have hnext : ∀ rangeState min max, Safe (do
        let i ← nextIndex i
        rangeFrom regex fuel i rangeState min max st) P ↔
          i < 2^31-1 ∧ RangeFits (regex.drop (i+1)) (i+1) rangeState := by
      intro rangeState min max
      rw [safe_bind, nextIndex_safe, ih (i+1) rangeState min max (by omega) hlt (by omega)]
    have hget : regex.getD i 0 = regex[i] := by simp [hlt]
    rw [List.drop_eq_getElem_cons hlt, RangeFits, hget]
    apply safe_ite <;> intro hclose
    · rw [if_pos hclose, safe_bind]
      by_cases hfit : i < 2^31-1
      · exact iff_of_true (setLimits_safe hchild _ _ fun _ _ => hP i _ hk hi hfit hst) hfit
      · apply iff_of_false _ hfit
        rw [setLimits, setLastChild]
        split
        · exact id
        · exact fun h => hfit (hbound _ h)
    rw [if_neg hclose]
    apply safe_ite <;> intro hcomma
    · rw [if_pos hcomma]
      apply safe_ite <;> intro hmin
      · rw [hnext]
        exact ⟨fun h _ => h,fun h => h hmin⟩
      · exact iff_of_true (herror _ _ _) fun h => absurd h hmin
    rw [if_neg hcomma]
    apply safe_ite <;> intro hdigit
    · rw [if_pos hdigit]
      apply safe_ite <;> intro hmin
      · rw [hnext]
        exact ⟨fun h _ => h,fun h => h (.inl hmin)⟩
      apply safe_ite <;> intro hmax
      · rw [hnext]
        exact ⟨fun h _ => h,fun h => h (.inr hmax)⟩
      · exact iff_of_true (herror _ _ _) fun h => absurd h (not_or.mpr ⟨hmin,hmax⟩)
    · rw [if_neg hdigit]
      exact iff_of_true (herror _ _ _) trivial

/-- What the next character needs of the state that it is read in, and of the index. -/
def CharOk (regex : List UInt8) (i : ℕ) (st : PrepareState) : Prop :=
  if regex.getD i 0 = ch '\\' then
    i+1 < 2^31-1 ∧ EscapeOk st (regex.getD (i+1) 0) ∨ EscapeErrs st (regex.getD (i+1) 0)
  else if regex.getD i 0 = ch '\x7b' then
    st.state ≠ .inClass → st.CanRepeat ∧ RangeFits (regex.drop (i+1)) (i+1) .inRangeMin
  else if regex.getD i 0 = ch '[' then
    st.state ≠ .inClass → regex.getD (i+1) 0 = ch '^' → i+1 < 2^31-1
  else PlainOk st (regex.getD i 0)

theorem prepareChar_safe (hst : st.Deep) {i : ℕ} (hi : i < regex.length) (hfit : i < 2^31-1)
    {P : ℕ × PrepareState → Prop}
    (hP : ∀ j st', i ≤ j → j ≤ regex.length → j < 2^31-1 → st'.Deep → P (j,st'))
    (hbound : ∀ p, P p → p.1 < 2^31-1) :
    Safe (prepareChar memory regex i st) P ↔ CharOk regex i st := by
  unfold prepareChar CharOk
  rw [charAt_eq hi.le, ok_bind, nextIndex_eq hfit, ok_bind, charAt_eq hi, ok_bind]
  -- one case for each test of the source, in its order
  apply safe_ite <;> intro hslash
  · rw [if_pos hslash, safe_bind]
    simp only [safe_ok]
    by_cases hnext : i+1 < 2^31-1
    · rw [escape_safe hst fun st' => hP (i+1) st' (by omega) hi hnext]
      constructor
      · exact fun h => .inl ⟨hnext,h⟩
      · rintro (⟨-,h⟩ | ⟨hthru,hc⟩)
        · exact h
        · intro _
          rw [if_neg (by revert hc; generalize regex.getD (i+1) 0 = c; revert c; decide +kernel)]
          simp only [List.mem_cons, List.not_mem_nil, or_false] at hc ⊢
          tauto
    · -- an error is all that can come, as the index is at its end
      have hnone : Safe (st.escape memory (regex.getD (i+1) 0)) (fun st' => P (i+1,st')) ↔
          Safe (st.escape memory (regex.getD (i+1) 0)) fun _ => False := by
        constructor
        · exact fun h => h.mono fun st' h => hnext (hbound _ h)
        · exact fun h => h.mono fun _ h => h.elim
      rw [hnone, escape_fails]
      exact (or_iff_right fun h => hnext h.1).symm
  rw [if_neg hslash]
  apply safe_ite <;> intro hbrace
  · rw [if_pos hbrace]
    apply safe_ite <;> intro hclass
    · exact iff_of_true trivial fun h => absurd hclass h
    · rw [nextIndex_eq hfit, ok_bind, safe_bind]
      have hrange (e : Element) (es : List Element) :
          Safe (rangeFrom regex (regex.length+1) (i+1) .inRangeMin 0 0
            { st with curNode := { st.curNode with children := e :: es } }) P ↔
          RangeFits (regex.drop (i+1)) (i+1) .inRangeMin := by
        have hdeep : ({ st with
            curNode := { st.curNode with children := e :: es } } : PrepareState).Deep := hst
        apply rangeFrom_safe hdeep (List.cons_ne_nil e es) _ hbound _ _ _ _ _ (Nat.le_succ i) hi (by omega)
        exact fun j st' hlow => hP j st' hlow
      by_cases hfits : RangeFits (regex.drop (i+1)) (i+1) .inRangeMin
      · rw [setRepeat_safe _ _ fun e es => (hrange e es).mpr hfits]
        exact ⟨fun h _ => ⟨h,hfits⟩,fun h => (h hclass).1⟩
      · apply iff_of_false _ fun h => hfits (h hclass).2
        exact setRepeat_fails _ _ fun e es h => hfits ((hrange e es).mp h)
  rw [if_neg hbrace]
  apply safe_ite <;> intro hbracket
  · rw [if_pos hbracket]
    apply safe_ite <;> intro hclass
    · exact iff_of_true trivial fun h => absurd hclass h
    · have hdeep (data : ElementData) : ({ st with state := .inClass, made := st.made+1 } :
          PrepareState).descend data |>.Deep := by
        simp only [Deep, descend, PrepareMode.levels, List.length_cons] at hst ⊢
        omega
      rw [charAt_eq hi, ok_bind]
      by_cases hinvert : regex.getD (i+1) 0 = ch '^'
      · simp only [if_pos hinvert, safe_bind, nextIndex_safe, safe_ok]
        constructor
        · exact fun h _ _ => hbound _ h.2
        · exact fun h => ⟨hfit,hP (i+1) _ (Nat.le_succ i) hi (h hclass hinvert) (hdeep _)⟩
      · simp only [if_neg hinvert, ok_bind, safe_ok]
        exact iff_of_true (hP i _ le_rfl hi.le hfit (hdeep _)) fun _ h => absurd h hinvert
  · rw [if_neg hbracket, safe_bind]
    exact plainChar_safe hst (fun st' => hP i st' le_rfl hi.le hfit) _

/-- One pass of the loop, from an index and a state to the next ones. -/
def Pass (memory : ℕ → UInt8 × UInt8) (regex : List UInt8) (p q : ℕ × PrepareState) : Prop :=
  (p.1 : ℤ) < rlen regex ∧ ∃ i, prepareChar memory regex p.1 p.2 = .ok (i,q.2) ∧ q.1 = i+1

/-- Every character that the loop comes to from here finds what it needs. -/
def Regular (memory : ℕ → UInt8 × UInt8) (regex : List UInt8) (p : ℕ × PrepareState) : Prop :=
  ∀ q, Relation.ReflTransGen (Pass memory regex) p q → (q.1 : ℤ) < rlen regex → CharOk regex q.1 q.2

theorem regular_end {i : ℕ} (hi : ¬(i : ℤ) < rlen regex) : Regular memory regex (i,st) := by
  intro q hq hlt
  cases hq.cases_head with
  | inl h =>
    subst h
    exact absurd hlt hi
  | inr h =>
    obtain ⟨r,hpass,-⟩ := h
    exact absurd hpass.1 hi

theorem regular_step {i : ℕ} (hi : (i : ℤ) < rlen regex) :
    Regular memory regex (i,st) ↔ CharOk regex i st ∧
      ∀ j st', prepareChar memory regex i st = .ok (j,st') → Regular memory regex (j+1,st') := by
  constructor
  · intro h
    refine ⟨h _ .refl hi,?_⟩
    intro j st' hstep q hq
    exact h q (.head ⟨hi,j,hstep,rfl⟩ hq)
  · rintro ⟨hok,hnext⟩ q hq hlt
    cases hq.cases_head with
    | inl h =>
      subst h
      exact hok
    | inr h =>
      obtain ⟨⟨k,st'⟩,⟨-,j,hstep,rfl⟩,hrest⟩ := h
      exact hnext j st' hstep q hrest hlt

theorem prepareFrom_safe (hst : st.Deep) (fuel i : ℕ) (hi : i ≤ regex.length+1)
    (hfuel : regex.length+1 < fuel+i) :
    Safe (prepareFrom memory regex fuel i st) (fun _ => True) ↔ Regular memory regex (i,st) := by
  induction fuel generalizing i st with
  | zero => omega
  | succ fuel ih =>
    rw [prepareFrom]
    by_cases hlt : (i : ℤ) < rlen regex
    · obtain ⟨hindex,hfit⟩ := lt_rlen hlt
      have hok : Safe (prepareChar memory regex i st) (fun p => p.1 < 2^31-1) ↔ CharOk regex i st :=
        prepareChar_safe hst hindex hfit (fun _ _ _ _ hj _ => hj) fun _ h => h
      have hbounds : Safe (prepareChar memory regex i st)
          (fun p => p.1 < 2^31-1 ∧ p.1 ≤ regex.length ∧ i ≤ p.1 ∧ p.2.Deep) ↔ CharOk regex i st :=
        prepareChar_safe hst hindex hfit (fun _ _ hlow hhigh hj hdeep => ⟨hj,hhigh,hlow,hdeep⟩)
          fun _ h => h.1
      rw [if_pos hlt, safe_bind, regular_step hlt, ← hok]
      rw [← hok] at hbounds
      cases hchar : prepareChar memory regex i st with
      | ok p =>
        rw [hchar] at hbounds
        simp only [safe_ok, safe_bind, nextIndex_safe, Except.ok.injEq] at hbounds ⊢
        constructor
        · rintro ⟨hj,h⟩
          obtain ⟨-,hhigh,hlow,hdeep⟩ := hbounds.mpr hj
          refine ⟨hj,?_⟩
          rintro j st' rfl
          exact (ih hdeep (j+1) (by omega) (by omega)).mp h
        · rintro ⟨hj,h⟩
          obtain ⟨-,hhigh,hlow,hdeep⟩ := hbounds.mpr hj
          exact ⟨hj,(ih hdeep (p.1+1) (by omega) (by omega)).mpr (h p.1 p.2 rfl)⟩
      | error e =>
        cases e with
        | parseError str st' => simp
        | fault f => simp
    · rw [if_neg hlt]
      exact iff_of_true trivial (regular_end hlt)

end

end

end PrepareState

namespace Regex
open PrepareState Preparing

/-- The call returns, which it only does with one of the two error codes. -/
def Prepares (memory : ℕ → UInt8 × UInt8) (r : Regex) (regex : List UInt8) : Prop :=
  ∃ err r', r.prepare memory regex = .ok (err,r') ∧ (err = .kNoError ∨ err = .kInvalidRequest)

/-- Preparing a fresh Regex returns exactly where every character on the way finds what it needs:
a repeat something to repeat, the dash of a range its start, and the end of a range the same. -/
theorem prepares_iff (memory : ℕ → UInt8 × UInt8) (regex : List UInt8) :
    Prepares memory (init memory) regex ↔ Regular memory regex (0,(init memory).prepareState) := by
  have hdeep : (init memory).prepareState.Deep := le_refl 0
  have hsafe := @prepareFrom_safe memory _ regex hdeep (regex.length+2) 0 (by omega) (by omega)
  unfold Prepares prepare
  generalize prepareFrom memory regex (regex.length+2) 0 (init memory).prepareState = x at hsafe ⊢
  rw [← hsafe]
  cases x with
  | ok st => simp
  | error e =>
    cases e with
    | parseError str st => simp
    | fault f => simp

/-- A repeat at the beginning has nothing to repeat. -/
theorem repeats_nothing :
    ¬Prepares (fun _ => (0,0)) (init fun _ => (0,0)) (text "*") := by
  rintro ⟨err,r,h,-⟩
  have hnull : ((init fun _ => (0,0)).prepare (fun _ => (0,0)) (text "*")).map (fun _ => ()) =
      .error .nullDeref := by decide +kernel
  rw [h] at hnull
  cases hnull

end Regex

end JhCommon
