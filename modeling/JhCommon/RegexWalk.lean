import JhCommon.RegexLanguage
import JhCommon.RegexTermination

/-! What goes well in a matching that keeps out of the wrong turns of `processElement`: the places
from which a terminal is taken are places where what stands in front of it can end, and no such
place is behind the current one. -/
namespace JhCommon
open Transition

namespace Element

/-- The first one is a group whose match can begin with the second one, or they are the same. -/
inductive Begins : ElementAddr → ElementAddr → Prop
  | self (a : ElementAddr) : Begins a a
  | alternative {group a : ElementAddr} (i : ℕ) (h : Begins (0 :: i :: group) a) : Begins group a

/-- The first one is a group whose match can end with the second one, or they are the same. -/
inductive Ends (root : Element) : ElementAddr → ElementAddr → Prop
  | self (a : ElementAddr) : Ends root a a
  | alternative {group a : ElementAddr} (i j : ℕ) (hlast : root.mNext (j :: i :: group) = none)
    (h : Ends root (j :: i :: group) a) : Ends root group a

/-- In a match the second one can come right behind the first one. -/
def Follows (root : Element) (a b : ElementAddr) : Prop :=
  ∃ i parent, root.Ends (i :: parent) a ∧ Begins ((i+1) :: parent) b

/-- The number of characters that is taken at least by what stands in front of an element. -/
def leastBefore (root : Element) : ElementAddr → ℕ
  | [] => 0
  | i :: parent => leastBefore root parent+(match root.get parent with
      | none => 0
      | some p => if p.data.mType = .typeSequence then leastOfAll (p.children.take i) else 0)

/-- The limits allow to take an element from the one position to the other one. -/
def Reaches (e : Element) (p q : ℤ) : Prop :=
  p+e.data.mRepeatMin ≤ q ∧ (e.data.mRepeatMax = -1 ∨ q ≤ p+e.data.mRepeatMax)

end Element

namespace Matching

/-- On the way from here a terminal or a class is left, taken from this position on. -/
def LeftFrom (m : Matching) (a : ElementAddr) (p : ℤ) : Prop :=
  ∃ n n' res, Leads step m n ∧ n.point = .tested a p res ∧ n.step = .ok n' ∧
    n'.point = .returned true

/-- A group is left, with alternatives that are not tried. -/
def Commits (m : Matching) : Prop :=
  ∃ group child calls, m.point = .returned true ∧ m.calls = .group group child :: calls ∧
    (m.mRoot.mNext child).isSome = true

/-- A terminal or a class does not match, and has no earlier position to try. -/
def GivesUp (m : Matching) : Prop :=
  ∃ a p res m', m.point = .tested a p res ∧ m.step = .ok m' ∧ m'.point = .returned false

/-- What is wrong at a point by itself: a group with limits, which are not looked at; a sequence
without elements, from which the walk goes on into the next alternative; '.' at a character beyond
127; and to give up where the positions that were not tried can be right. -/
def Proper (m : Matching) : Prop :=
  match m.point with
  | .element a => ∀ e, m.mRoot.get a = some e →
      (e.data.mType = .typeOr → e.data.mRepeatMin = 1 ∧ e.data.mRepeatMax = 1) ∧
      (e.data.mType = .typeSequence → e.children ≠ [])
  | .testing a _ => ∀ e, m.mRoot.get a = some e →
      ¬(e.IsDot ∧ 128 ≤ m.data.string.getD m.data.curPos.toNat 0)
  | .tested a startPos res => ∀ e, m.mRoot.get a = some e → res = false →
      m.data.matchCount < e.data.mRepeatMin → ¬m.data.backtrackPos < startPos →
      m.data.backtrackPos ≤ m.mRoot.leastBefore a
  | .returned _ => True

/-- A run without a wrong turn. What is left right behind another one is taken from a position that
the limits of that one allow; the next alternative of a group is tried from where the group was
entered; and nothing gives up once a group is left with alternatives that are not tried. -/
structure Straight (m : Matching) : Prop where
  ready : ∀ n, Leads step m n → n.Ready
  proper : ∀ n, Leads step m n → n.Proper
  spaced : ∀ a b p q e, m.LeftFrom a p → m.LeftFrom b q → m.mRoot.Follows a b →
    m.mRoot.get a = some e → e.Reaches p q
  restarts : ∀ n n' group child calls, Leads step m n → Leads step m n' →
    n.point = .element group → n'.point = .returned false →
    n'.calls = .group group child :: calls → (m.mRoot.mNext child).isSome = true →
    n'.data.curPos = n.data.curPos
  commits : ∀ n n', Leads step m n → Leads step n n' → n.Commits → ¬n'.GivesUp

/-- An earlier group was left with alternatives that were not tried. -/
def Branched (m n : Matching) : Prop := ∃ u, Leads step m u ∧ Leads step u n ∧ u.Commits

theorem Branched.leads {m n n' : Matching} (h : m.Branched n) (hn : Leads step n n') :
    m.Branched n' := by
  obtain ⟨u,hu,hun,hcommits⟩ := h
  exact ⟨u,hu,hun.trans hn,hcommits⟩

section
variable {k : ℕ} {root e : Element} {s : List UInt8} {m₀ m m' : Matching} {a : ElementAddr} {p : ℤ}

theorem Straight.steady (ho : m₀.Straight) (hin : Inside k root s m₀) (h : Leads step m₀ m) :
    Steady k root s m := by
  have hm₀ : Steady k root s m₀ := ⟨hin,ho.ready⟩
  exact hm₀.leads h

/-- A test says what the characters of the element are, where it is not '.' beyond 127, and there is
no more to take from a terminal that takes the terminator. -/
theorem Inside.test_right (hm : Inside k root s m) (hready : m.Ready) (hproper : m.Proper)
    (hpoint : m.point = .testing a p) (he : root.get a = some e) {chars : Set UInt8}
    {mark : RepeatMark} (hfor : e.StandsFor chars mark) {c : ℕ} (hpos : m.data.curPos = c) :
    (e.accepts (s.getD c 0) = true → LettersAt s chars c 1 ∨ m.Spent e) ∧
      (e.accepts (s.getD c 0) = false → ¬LettersAt s chars c 1) := by
  have he' : m.mRoot.get a = some e := by rwa [hm.tree]
  have hhigh := hm.high
  rw [hm.subject, hpos] at hhigh
  rw [lettersAt_one]
  rcases Nat.lt_or_ge c s.length with hlt | hge
  · have hget : s[c]? = some s[c] := List.getElem?_eq_getElem hlt
    have hc : s.getD c 0 = s[c] := by rw [List.getD_eq_getElem?_getD, hget, Option.getD_some]
    unfold Proper at hproper
    simp only [hpoint] at hproper
    have hdot := hproper e he'
    rw [hm.subject, hpos, Int.toNat_natCast, hc] at hdot
    have haccepts := hfor.accepts s[c] hdot
    rw [hc, hget]
    constructor
    · intro htrue
      exact .inl ⟨s[c],rfl,haccepts.mp htrue⟩
    · rintro hfalse ⟨d,hd,hmem⟩
      obtain rfl : s[c] = d := Option.some.inj hd
      rw [haccepts.mpr hmem] at hfalse
      cases hfalse
  · -- the terminator
    have hend : c = s.length := by omega
    have hnone : s[c]? = none := List.getElem?_eq_none hge
    rw [List.getD_eq_getElem?_getD, hnone, Option.getD_none]
    unfold Ready at hready
    simp only [hpoint] at hready
    constructor
    · intro htrue
      exact .inr (hready e he' (by rw [hpos, hm.subject, hend]) htrue)
    · rintro - ⟨d,hd,-⟩
      cases hd

/-- A terminal or a class, come to at one position, is left with so many characters taken from
another one on. No position between them has enough, and more could not be taken. -/
structure LeftAt (m₀ : Matching) (s : List UInt8) (a : ElementAddr) (chars : Set UInt8)
    (mark : RepeatMark) (top q n : ℕ) (m : Matching) : Prop where
  le : q ≤ top
  left : m₀.LeftFrom a q
  pos : m.data.curPos = (q+n : ℕ)
  taken : LettersAt s chars q n
  enough : mark.min ≤ n
  limits : mark.max = -1 ∨ mark.min ≤ mark.max
  later : ∀ q', q < q' → q' ≤ top → ¬LettersAt s chars q' mark.min.toNat
  most : ¬LettersAt s chars q (n+1) ∨ mark.max ≠ -1 ∧ mark.max+1 = n

/-- No position between these has enough characters, or no number of them is allowed. -/
def Missing (s : List UInt8) (chars : Set UInt8) (mark : RepeatMark) (least top : ℕ) : Prop :=
  mark.max ≠ -1 ∧ mark.max < mark.min ∨
    ∀ q, least ≤ q → q ≤ top → ¬LettersAt s chars q mark.min.toNat

/-- The loops over a terminal or a class, come to at top: n characters are taken from q on, and no
position behind q has enough of them. -/
structure Looping (m₀ : Matching) (s : List UInt8) (a : ElementAddr) (chars : Set UInt8)
    (mark : RepeatMark) (top q n : ℕ) (m : Matching) : Prop where
  leads : Leads step m₀ m
  point : m.point = .testing a q
  pos : m.data.curPos = (q+n : ℕ)
  count : m.data.matchCount = n
  taken : LettersAt s chars q n
  limit : mark.max = -1 ∨ (n : ℤ) ≤ mark.max
  le : q ≤ top
  later : ∀ q', q < q' → q' ≤ top → ¬LettersAt s chars q' mark.min.toNat

/-- With too few characters at q either, there is no position from q on. -/
theorem Looping.none_from {chars : Set UInt8} {mark : RepeatMark} {top q n : ℕ}
    (hl : Looping m₀ s a chars mark top q n m) (hhere : ¬LettersAt s chars q mark.min.toNat) :
    ∀ q', q ≤ q' → q' ≤ top → ¬LettersAt s chars q' mark.min.toNat := by
  intro q' hle htop
  rcases hle.eq_or_lt with rfl | hlt
  · exact hhere
  · exact hl.later q' hlt htop

/-- What the loops come to: the element is left, or no position has enough characters and a run
gives up. -/
def LoopsEnd (m₀ : Matching) (s : List UInt8) (a : ElementAddr) (chars : Set UInt8)
    (mark : RepeatMark) (top least : ℕ) (m m' : Matching) : Prop :=
  m'.point = .returned true ∧ (∃ q n, LeftAt m₀ s a chars mark top q n m') ∨
    m'.point = .returned false ∧ Missing s chars mark least top ∧ ∃ u, Leads step m u ∧ u.GivesUp

theorem LoopsEnd.of_leads {chars : Set UInt8} {mark : RepeatMark} {top least : ℕ} {m₁ : Matching}
    (h : LoopsEnd m₀ s a chars mark top least m₁ m') (hleads : Leads step m m₁) :
    LoopsEnd m₀ s a chars mark top least m m' := by
  rcases h with hleft | ⟨hpoint,hmissing,u,hu,hgives⟩
  · exact .inl hleft
  · exact .inr ⟨hpoint,hmissing,u,hleads.trans hu,hgives⟩

/-- A test and the step behind it: one more character is taken, the position before is tried, or the
loops end. -/
theorem Straight.loop_step (ho : m₀.Straight) (hin : Inside k root s m₀) {chars : Set UInt8}
    {mark : RepeatMark} (he : root.get a = some e) (hfor : e.StandsFor chars mark) {top q n : ℕ}
    (hl : Looping m₀ s a chars mark top q n m) :
    ∃ m₂, Leads step m m₂ ∧ m₂.calls = m.calls ∧
      (q+n < s.length ∧ Looping m₀ s a chars mark top q (n+1) m₂ ∨
        (∃ r, q = r+1 ∧ Looping m₀ s a chars mark top r 0 m₂) ∨
        LoopsEnd m₀ s a chars mark top (root.leastBefore a) m m₂) := by
  have hm := ho.steady hin hl.leads
  have hpos := hl.pos
  have hcount := hl.count
  have hlimit := hl.limit
  have hstep := hm.toInside.step_testing hl.point he
  have htest := hm.toInside.test_right (ho.ready m hl.leads) (ho.proper m hl.leads) hl.point he hfor hpos
  rw [hpos, Int.toNat_natCast] at hstep
  obtain ⟨hyes,hno⟩ := htest
  generalize e.accepts (s.getD (q+n) 0) = res at hstep hyes hno
  -- the state behind the test, and the step from there
  have hleads₁ := hl.leads.tail hstep
  have hm₁ := ho.steady hin hleads₁
  obtain ⟨m₂,h₂,-⟩ := hm₁.toInside.step (hm₁.ready _ .refl)
  have hleads₂ := hleads₁.tail h₂
  have hto₂ : Leads step m m₂ := (Leads.step hstep).tail h₂
  have he₁ : m.mRoot.get a = some e := by rwa [hm.tree]
  have hafter : AfterTest { m with point := .tested a q res } e a q res m₂ :=
    afterTest_inv (m := { m with point := .tested a q res }) he₁ h₂
  have hmin := hfor.least
  have hmax := hfor.most
  have hnonneg := mark.min_nonneg
  have hgives : m₂.point = .returned false → ∃ u, Leads step m u ∧ u.GivesUp := fun h =>
    ⟨_,Leads.step hstep,a,q,res,m₂,rfl,h₂,h⟩
  have hleft : m₂.point = .returned true → m₀.LeftFrom a q := fun h =>
    ⟨_,m₂,res,hleads₁,rfl,h₂,h⟩
  have hfewer : ¬LettersAt s chars (q+n) 1 → m.data.matchCount < e.data.mRepeatMin →
      ¬LettersAt s chars q mark.min.toNat := fun h hfew hall =>
    h (hall.sub (Nat.le_add_right q n) (by omega))
  cases hafter with
  | takes hroom =>
    have hroom : e.data.mRepeatMax = -1 ∨ m.data.matchCount < e.data.mRepeatMax := hroom
    have hmore := (hyes rfl).resolve_right fun h => h.1 hroom
    have hlt : q+n < s.length := by
      obtain ⟨c,hc,-⟩ := lettersAt_one.mp hmore
      exact (List.getElem?_eq_some_iff.mp hc).1
    refine ⟨_,hto₂,rfl,.inl ⟨hlt,hleads₂,rfl,?_,?_,hl.taken.add hmore,by push_cast; omega,hl.le,hl.later⟩⟩
    · simp only [counted, hpos]
      push_cast
      ring
    · simp only [counted, hcount]
      push_cast
      ring
  | looksAhead hroom henough hpoint₂ hcalls₂ hpos₂ =>
    have hroom : ¬(e.data.mRepeatMax = -1 ∨ m.data.matchCount < e.data.mRepeatMax) := hroom
    have henough : e.data.mRepeatMin ≤ m.data.matchCount := henough
    have hpos₂ : m₂.data.curPos = m.data.curPos+1 := hpos₂
    have hmore := (hyes rfl).resolve_right fun h => absurd h.2 (not_lt.mpr henough)
    refine ⟨m₂,hto₂,hcalls₂,.inr (.inr (.inl ⟨hpoint₂,q,n+1,hl.le,hleft hpoint₂,?_,hl.taken.add hmore,
      ?_,?_,hl.later,?_⟩))⟩
    · rw [hpos₂, hpos]
      push_cast
      ring
    · push_cast
      omega
    · omega
    · push_cast
      omega
  | tooFew hroom hfew =>
    have hroom : ¬(e.data.mRepeatMax = -1 ∨ m.data.matchCount < e.data.mRepeatMax) := hroom
    have hfew : m.data.matchCount < e.data.mRepeatMin := hfew
    exact ⟨_,hto₂,rfl,.inr (.inr (.inr ⟨rfl,.inl (by omega),hgives rfl⟩))⟩
  | enough henough =>
    have henough : e.data.mRepeatMin ≤ m.data.matchCount := henough
    refine ⟨_,hto₂,rfl,.inr (.inr (.inl ⟨rfl,q,n,hl.le,hleft rfl,hpos,hl.taken,by omega,by omega,hl.later,
      .inl ?_⟩))⟩
    intro h
    exact hno rfl (h.sub (Nat.le_add_right q n) (by omega))
  | goesBack hfew hback hpoint₂ hcalls₂ hpos₂ hcount₂ =>
    have hplaced := (ho.steady hin hleads₂).point
    rw [hpoint₂] at hplaced
    have hstart : 0 ≤ (q : ℤ)-1 := hplaced.2.1
    obtain ⟨r,rfl⟩ : ∃ r, q = r+1 := ⟨q-1,by omega⟩
    have hcast : ((r+1 : ℕ) : ℤ)-1 = r := by omega
    rw [hcast] at hpoint₂ hpos₂
    exact ⟨m₂,hto₂,hcalls₂,.inr (.inl ⟨r,rfl,hleads₂,hpoint₂,hpos₂,hcount₂,lettersAt_zero s chars r,
      by have := mark.max_nonneg; omega,Nat.le_of_succ_le hl.le,hl.none_from (hfewer (hno rfl) hfew)⟩)⟩
  | givesUp hfew hback =>
    have hleast : m.data.backtrackPos ≤ m.mRoot.leastBefore a :=
      ho.proper _ hleads₁ e he₁ rfl hfew hback
    have hback : ¬m.data.backtrackPos < q := hback
    rw [hm.tree] at hleast
    refine ⟨_,hto₂,rfl,.inr (.inr (.inr ⟨rfl,.inr ?_,hgives rfl⟩))⟩
    intro q' hlow
    exact hl.none_from (hfewer (hno rfl) hfew) q' (by omega)

/-- The loops end: a step back leaves fewer positions, and one ahead fewer characters. -/
theorem Straight.loops (ho : m₀.Straight) (hin : Inside k root s m₀) {chars : Set UInt8}
    {mark : RepeatMark} (he : root.get a = some e) (hfor : e.StandsFor chars mark) {top q n : ℕ}
    (hl : Looping m₀ s a chars mark top q n m) : ∃ m', Leads step m m' ∧ m'.calls = m.calls ∧
      LoopsEnd m₀ s a chars mark top (root.leastBefore a) m m' := by
  obtain ⟨bound,hbound⟩ : ∃ bound, bound = q*(s.length+2)+(s.length+1-(q+n)) := ⟨_,rfl⟩
  induction bound using Nat.strong_induction_on generalizing m q n with
  | _ bound ih =>
    obtain ⟨m₂,hto₂,hcalls₂,⟨hlt,hnext⟩ | ⟨r,rfl,hnext⟩ | hend⟩ := ho.loop_step hin he hfor hl
    · obtain ⟨m',hleads',hcalls,hends⟩ :=
        ih (q*(s.length+2)+(s.length+1-(q+(n+1)))) (by rw [hbound]; omega) hnext rfl
      exact ⟨m',hto₂.trans hleads',hcalls.trans hcalls₂,hends.of_leads hto₂⟩
    · have hmul : (r+1)*(s.length+2) = r*(s.length+2)+(s.length+2) := Nat.succ_mul _ _
      obtain ⟨m',hleads',hcalls,hends⟩ := ih (r*(s.length+2)+(s.length+1-(r+0))) (by omega) hnext rfl
      exact ⟨m',hto₂.trans hleads',hcalls.trans hcalls₂,hends.of_leads hto₂⟩
    · exact ⟨m₂,hto₂,hcalls₂,hend⟩

end

end Matching

end JhCommon
