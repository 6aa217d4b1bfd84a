import JhCommon.RegexPrinting
import JhCommon.RegexRuns

/-! What a regex means: the language of its syntax tree, and how the elements that `prepare` makes
of the tree are related to it. -/
namespace JhCommon
open Computability
open CircularBuffer (signedChar)

/-- As often as a mark says. -/
def RepeatMark.repeats (mark : RepeatMark) (l : Language UInt8) : Language UInt8 :=
  match mark with
  | .once => l
  | .star => l∗
  | .plus => l*l∗
  | .opt => 1+l
  | .exactly m => l^(m : ℕ)
  | .between m n => repeated (Set.Icc (m : ℕ) n) l

def ClassMember.chars : ClassMember → Set UInt8
  | .single c => {c.1}
  | .range a b => {c | a.1 ≤ c ∧ c ≤ b.1}

/-- The characters of a class, or all others. -/
def classChars (invert : Bool) (members : List ClassMember) : Set UInt8 :=
  {c | (∃ member ∈ members, c ∈ member.chars) ↔ invert = false}

mutual

def RegexItem.language : RegexItem → Language UInt8
  | .literal c mark => mark.repeats (letters {c.1})
  | .any mark => mark.repeats (letters Set.univ)
  | .charClass invert members mark => mark.repeats (letters (classChars invert members))
  | .group alternatives mark => mark.repeats alternatives.language

def RegexSequence.language : RegexSequence → Language UInt8
  | .nil => 1
  | .cons item rest => item.language*rest.language

def RegexAlternatives.language : RegexAlternatives → Language UInt8
  | .one s => s.language
  | .more s rest => s.language+rest.language

end

/-- The numbers of times that the limits allow. -/
def RepeatMark.counts (mark : RepeatMark) : Set ℕ :=
  {k | mark.min ≤ k ∧ (mark.max = -1 ∨ (k : ℤ) ≤ mark.max)}

/-- A mark means what its limits say. -/
theorem RepeatMark.repeats_eq (mark : RepeatMark) (l : Language UInt8) :
    mark.repeats l = repeated mark.counts l := by
  ext w
  cases mark with
  | once =>
    constructor
    · intro hw
      exact ⟨1,⟨le_rfl,.inr le_rfl⟩,by rwa [pow_one]⟩
    · rintro ⟨k,⟨hlow,hhigh⟩,hw⟩
      obtain rfl : k = 1 := by
        simp only [min, max] at hlow hhigh
        omega
      rwa [pow_one] at hw
  | star =>
    rw [repeats, Language.kstar_eq_iSup_pow, Language.mem_iSup]
    constructor
    · rintro ⟨k,hw⟩
      exact ⟨k,⟨Int.natCast_nonneg k,.inl rfl⟩,hw⟩
    · rintro ⟨k,-,hw⟩
      exact ⟨k,hw⟩
  | plus =>
    rw [repeats, Language.kstar_eq_iSup_pow, Language.mul_iSup, Language.mem_iSup]
    constructor
    · rintro ⟨k,hw⟩
      refine ⟨k+1,⟨?_,.inl rfl⟩,by rwa [pow_succ']⟩
      simp only [min]
      omega
    · rintro ⟨k,⟨hlow,-⟩,hw⟩
      cases k with
      | zero => simp [min] at hlow
      | succ k => exact ⟨k,by rwa [pow_succ'] at hw⟩
  | opt =>
    constructor
    · rintro (hw | hw)
      · exact ⟨0,⟨le_rfl,.inr (by decide)⟩,by rw [pow_zero]; exact hw⟩
      · exact ⟨1,⟨by decide,.inr le_rfl⟩,by rwa [pow_one]⟩
    · rintro ⟨k,⟨-,hhigh⟩,hw⟩
      obtain rfl | rfl : k = 0 ∨ k = 1 := by
        simp only [max] at hhigh
        omega
      · rw [pow_zero] at hw
        exact .inl hw
      · rw [pow_one] at hw
        exact .inr hw
  | exactly m =>
    constructor
    · intro hw
      exact ⟨m,⟨le_rfl,.inr le_rfl⟩,hw⟩
    · rintro ⟨k,⟨hlow,hhigh⟩,hw⟩
      obtain rfl : k = m := by
        simp only [min, max] at hlow hhigh
        omega
      exact hw
  | between m n =>
    -- both limits are natural numbers, so the count is between them
    have hcounts : (RepeatMark.between m n).counts = Set.Icc (m : ℕ) n := by
      ext k
      simp only [counts, min, max, Set.mem_ofPred_eq, Set.mem_Icc]
      omega
    rw [repeats, hcounts]

theorem RepeatMark.min_nonneg (mark : RepeatMark) : 0 ≤ mark.min := by
  cases mark <;> simp [min]

theorem RepeatMark.max_nonneg (mark : RepeatMark) : mark.max = -1 ∨ 0 ≤ mark.max := by
  cases mark <;> simp [max]

/-- Once, however it is written. -/
theorem RepeatMark.repeats_once {mark : RepeatMark} (hmin : mark.min = 1) (hmax : mark.max = 1)
    (l : Language UInt8) : mark.repeats l = l := by
  have hcounts : mark.counts = {1} := by
    ext k
    simp only [counts, hmin, hmax, Set.mem_ofPred_eq, Set.mem_singleton_iff]
    omega
  ext w
  rw [repeats_eq, hcounts]
  constructor
  · rintro ⟨k,rfl,hw⟩
    rwa [pow_one] at hw
  · intro hw
    exact ⟨1,rfl,by rwa [pow_one]⟩

theorem RepeatMark.le_length {mark : RepeatMark} {l : Language UInt8} {n : ℕ}
    (hwords : ∀ w ∈ l, n ≤ w.length) {w : List UInt8} (hw : w ∈ mark.repeats l) :
    mark.min.toNat*n ≤ w.length := by
  rw [repeats_eq] at hw
  obtain ⟨k,⟨hlow,-⟩,hw⟩ := hw
  have hk : mark.min.toNat ≤ k := by omega
  exact (Nat.mul_le_mul_right n hk).trans (length_of_mem_pow hwords hw)

namespace Element
variable {e : Element} {es : List Element}

theorem written_eq {d : ElementData} {cs : List Element} :
    e.written = .mk d cs ↔ e.data.written = d ∧ writtenAll e.children = cs := by
  cases e
  rw [written, Element.mk.injEq]
  rfl

theorem writtenAll_eq_nil : writtenAll es = [] ↔ es = [] := by
  cases es <;> simp [writtenAll]

theorem writtenAll_eq_cons {t : Element} {ts : List Element} :
    writtenAll es = t :: ts ↔ ∃ e es', es = e :: es' ∧ e.written = t ∧ writtenAll es' = ts := by
  cases es with
  | nil => simp [writtenAll]
  | cons e es => simp [writtenAll]

end Element

namespace ElementData
variable (d : ElementData)

@[simp] theorem written_mType : d.written.mType = d.mType := by
  unfold written
  split_ifs <;> rfl

@[simp] theorem written_mRepeatMin : d.written.mRepeatMin = d.mRepeatMin := by
  unfold written
  split_ifs <;> rfl

@[simp] theorem written_mRepeatMax : d.written.mRepeatMax = d.mRepeatMax := by
  unfold written
  split_ifs <;> rfl

@[simp] theorem written_mClassInvert : d.written.mClassInvert = d.mClassInvert := by
  unfold written
  split_ifs <;> rfl

theorem eq_of_written {d d' : ElementData} (h : d.written = d') (htype : d'.mType = .typeTerminal) :
    d = d' := by
  have hd : d.mType = .typeTerminal := by rw [← written_mType, h, htype]
  rwa [written, if_pos hd] at h

end ElementData

/-- What '.' becomes. -/
def Element.IsDot (e : Element) : Prop :=
  e.data.mType = .typeTerminal ∧ e.data.mTermStartChar = 0 ∧ e.data.mTermEndChar = 127

/-- An element that takes these characters, so often as the mark says. The code compares characters
as signed ones, and '.' becomes the range up to 127. -/
structure Element.StandsFor (e : Element) (chars : Set UInt8) (mark : RepeatMark) : Prop where
  kind : e.data.mType = .typeTerminal ∨ e.data.mType = .typeClass
  accepts : ∀ c : UInt8, ¬(e.IsDot ∧ 128 ≤ c) → (e.accepts c = true ↔ c ∈ chars)
  least : e.data.mRepeatMin = mark.min
  most : e.data.mRepeatMax = mark.max

theorem signedChar_le_iff {a c : UInt8} (ha : a < 128) :
    signedChar c ≤ signedChar a ↔ c ≤ a ∨ 128 ≤ c := by
  have hc := UInt8.toNat_lt c
  have h128 : (128 : UInt8).toNat = 128 := rfl
  simp only [signedChar, UInt8.lt_iff_toNat_lt, UInt8.le_iff_toNat_le, h128] at ha ⊢
  split_ifs <;> omega

theorem le_signedChar_iff {a c : UInt8} (ha : a < 128) :
    signedChar a ≤ signedChar c ↔ a ≤ c ∧ c < 128 := by
  have hc := UInt8.toNat_lt c
  have h128 : (128 : UInt8).toNat = 128 := rfl
  simp only [signedChar, UInt8.lt_iff_toNat_lt, UInt8.le_iff_toNat_le, h128] at ha ⊢
  split_ifs <;> omega

/-- A range of characters that are not beyond 127. -/
theorem ElementData.holds_iff {d : ElementData} {a b c : UInt8} (hstart : d.mTermStartChar = a)
    (hend : d.mTermEndChar = b) (ha : a < 128) (hb : b < 128) :
    d.holds c = true ↔ a ≤ c ∧ c ≤ b := by
  rw [ElementData.holds, decide_eq_true_eq, hstart, hend, le_signedChar_iff ha, signedChar_le_iff hb]
  constructor
  · rintro ⟨⟨hlow,hlt⟩,hhigh⟩
    exact ⟨hlow,hhigh.resolve_right (UInt8.not_le.mpr hlt)⟩
  · rintro ⟨hlow,hhigh⟩
    exact ⟨⟨hlow,UInt8.lt_of_le_of_lt hhigh hb⟩,.inl hhigh⟩

theorem RegexChar.lt (c : RegexChar) : c.1 < 128 := UInt8.lt_of_le_of_lt c.2.2 (by decide)

namespace RegexItem
variable {e : Element} {mark : RepeatMark}

theorem standsFor_literal {c : RegexChar} (h : e.written = (literal c mark).tree) :
    e.StandsFor {c.1} mark := by
  have hdata := ElementData.eq_of_written (Element.written_eq.mp h).1 rfl
  refine ⟨.inl (by rw [hdata]; rfl),?_,by rw [hdata]; rfl,by rw [hdata]; rfl⟩
  intro d _
  have hholds : e.accepts d = e.data.holds d := by
    rw [Element.accepts, hdata]
    rfl
  rw [hholds, ElementData.holds_iff (a := c) (b := c) (by rw [hdata]) (by rw [hdata]) c.lt c.lt,
    Set.mem_singleton_iff]
  exact ⟨fun h => UInt8.le_antisymm h.2 h.1,fun h => h ▸ ⟨UInt8.le_refl _,UInt8.le_refl _⟩⟩

theorem standsFor_any (h : e.written = (any mark).tree) : e.StandsFor Set.univ mark := by
  have hdata := ElementData.eq_of_written (Element.written_eq.mp h).1 rfl
  refine ⟨.inl (by rw [hdata]; rfl),?_,by rw [hdata]; rfl,by rw [hdata]; rfl⟩
  intro d hd
  have hdot : e.IsDot := by
    rw [Element.IsDot, hdata]
    exact ⟨rfl,rfl,rfl⟩
  have hlt : d < 128 := UInt8.not_le.mp fun hle => hd ⟨hdot,hle⟩
  have hholds : e.accepts d = e.data.holds d := by
    rw [Element.accepts, hdata]
    rfl
  rw [hholds, ElementData.holds_iff (a := 0) (b := 127) (by rw [hdata]) (by rw [hdata])
    (by decide) (by decide)]
  refine iff_of_true ⟨UInt8.zero_le,?_⟩ trivial
  rw [UInt8.lt_iff_toNat_lt] at hlt
  exact UInt8.le_iff_toNat_le.mpr (Nat.le_of_lt_succ hlt)

theorem holds_member {member : ClassMember} (h : e.written = member.tree) (c : UInt8) :
    e.data.holds c = true ↔ c ∈ member.chars := by
  cases member with
  | single a =>
    have hdata := ElementData.eq_of_written (Element.written_eq.mp h).1 rfl
    rw [ElementData.holds_iff (a := a) (b := a) (by rw [hdata]) (by rw [hdata]) a.lt a.lt]
    exact ⟨fun h => UInt8.le_antisymm h.2 h.1,fun h => h ▸ ⟨UInt8.le_refl _,UInt8.le_refl _⟩⟩
  | range a b =>
    have hdata := ElementData.eq_of_written (Element.written_eq.mp h).1 rfl
    exact ElementData.holds_iff (by rw [hdata]) (by rw [hdata]) a.lt b.lt

theorem any_holds {es : List Element} {members : List ClassMember}
    (h : Element.writtenAll es = members.map ClassMember.tree) (c : UInt8) :
    (es.any fun e => e.data.holds c) = true ↔ ∃ member ∈ members, c ∈ member.chars := by
  induction members generalizing es with
  | nil =>
    obtain rfl := Element.writtenAll_eq_nil.mp h
    simp
  | cons member members ih =>
    obtain ⟨e,es',rfl,he,hes⟩ := Element.writtenAll_eq_cons.mp h
    rw [List.any_cons, Bool.or_eq_true, holds_member he, ih hes]
    simp

theorem standsFor_charClass {invert : Bool} {members : List ClassMember}
    (h : e.written = (charClass invert members mark).tree) :
    e.StandsFor (classChars invert members) mark := by
  obtain ⟨hdata,hchildren⟩ := Element.written_eq.mp h
  have htype : e.data.mType = .typeClass := by
    rw [← ElementData.written_mType, hdata]
    rfl
  have hinvert : e.data.mClassInvert = invert := by
    rw [← ElementData.written_mClassInvert, hdata]
    rfl
  refine ⟨.inr htype,?_,?_,?_⟩
  · intro c _
    have haccepts : e.accepts c = ((e.children.any fun child => child.data.holds c) != invert) := by
      rw [Element.accepts, htype, hinvert]
    have hany := any_holds hchildren c
    rw [haccepts]
    show _ ↔ ((∃ member ∈ members, c ∈ member.chars) ↔ invert = false)
    rw [← hany]
    cases (e.children.any fun child => child.data.holds c) <;> cases invert <;> decide
  · rw [← ElementData.written_mRepeatMin, hdata]
    rfl
  · rw [← ElementData.written_mRepeatMax, hdata]
    rfl

/-- Only classes and groups have children. -/
theorem childless (item : RegexItem) (h : e.written = item.tree)
    (htype : e.data.mType ≠ .typeClass ∧ e.data.mType ≠ .typeOr) : e.children = [] := by
  cases item with
  | literal c mark => exact Element.writtenAll_eq_nil.mp (Element.written_eq.mp h).2
  | any mark => exact Element.writtenAll_eq_nil.mp (Element.written_eq.mp h).2
  | charClass invert members mark =>
    refine absurd ?_ htype.1
    rw [← ElementData.written_mType, (Element.written_eq.mp h).1]
    rfl
  | group alternatives mark =>
    refine absurd ?_ htype.2
    rw [← ElementData.written_mType, (Element.written_eq.mp h).1]
    rfl

end RegexItem

mutual

/-- The number of characters that an element takes at least. -/
def Element.least : Element → ℕ
  | .mk d cs =>
    match d.mType with
    | .typeTerminal | .typeClass => d.mRepeatMin.toNat
    | .typeOr => d.mRepeatMin.toNat*Element.leastOfAny cs
    | .typeSequence => Element.leastOfAll cs
    | .typeUnknown => 0

def Element.leastOfAll : List Element → ℕ
  | [] => 0
  | e :: es => e.least+Element.leastOfAll es

def Element.leastOfAny : List Element → ℕ
  | [] => 0
  | [e] => e.least
  | e :: e' :: es => min e.least (Element.leastOfAny (e' :: es))

end

namespace Element
variable {e : Element}

theorem least_single (h : e.data.mType = .typeTerminal ∨ e.data.mType = .typeClass) :
    e.least = e.data.mRepeatMin.toNat := by
  obtain ⟨d,cs⟩ := e
  rcases h with h | h <;> simp only [data_mk] at h <;> simp only [least, h, data_mk]

theorem least_or (h : e.data.mType = .typeOr) :
    e.least = e.data.mRepeatMin.toNat*leastOfAny e.children := by
  obtain ⟨d,cs⟩ := e
  simp only [data_mk] at h
  simp only [least, h, data_mk, children_mk]

theorem leastOfAll_append (es fs : List Element) :
    leastOfAll (es ++ fs) = leastOfAll es+leastOfAll fs := by
  induction es with
  | nil => simp [leastOfAll]
  | cons e es ih => rw [List.cons_append, leastOfAll, leastOfAll, ih, Nat.add_assoc]

theorem least_sequence (h : e.data.mType = .typeSequence) : e.least = leastOfAll e.children := by
  obtain ⟨d,cs⟩ := e
  simp only [data_mk] at h
  simp only [least, h, children_mk]

end Element

theorem RegexAlternatives.trees_ne_nil (alternatives : RegexAlternatives) :
    alternatives.trees ≠ [] := by
  cases alternatives <;> simp [trees]

theorem Element.StandsFor.least_le {e : Element} {chars : Set UInt8} {mark : RepeatMark}
    (h : e.StandsFor chars mark) {w : List UInt8} (hw : w ∈ mark.repeats (letters chars)) :
    e.least ≤ w.length := by
  have hone : ∀ w ∈ letters chars, 1 ≤ w.length := by
    rintro w ⟨c,-,rfl⟩
    exact le_rfl
  rw [Element.least_single h.kind, h.least]
  simpa using RepeatMark.le_length hone hw

mutual

/-- No word of an item is shorter than its element says. -/
theorem RegexItem.least_le : ∀ (item : RegexItem) {e : Element}, e.written = item.tree →
    ∀ w ∈ item.language, e.least ≤ w.length
  | .literal _ _, _, h, _, hw => (RegexItem.standsFor_literal h).least_le hw
  | .any _, _, h, _, hw => (RegexItem.standsFor_any h).least_le hw
  | .charClass _ _ _, _, h, _, hw => (RegexItem.standsFor_charClass h).least_le hw
  | .group alternatives mark, e, h, w, hw => by
    obtain ⟨hdata,hchildren⟩ := Element.written_eq.mp h
    have htype : e.data.mType = .typeOr := by
      rw [← ElementData.written_mType, hdata]
      rfl
    have hmin : e.data.mRepeatMin = mark.min := by
      rw [← ElementData.written_mRepeatMin, hdata]
      rfl
    rw [Element.least_or htype, hmin]
    exact RepeatMark.le_length (RegexAlternatives.least_le alternatives hchildren) hw

theorem RegexSequence.least_le : ∀ (s : RegexSequence) {es : List Element},
    Element.writtenAll es = s.trees → ∀ w ∈ s.language, Element.leastOfAll es ≤ w.length
  | .nil, es, h, _, _ => by
    obtain rfl := Element.writtenAll_eq_nil.mp h
    exact Nat.zero_le _
  | .cons item rest, es, h, w, hw => by
    obtain ⟨e,es',rfl,he,hes⟩ := Element.writtenAll_eq_cons.mp h
    obtain ⟨u,hu,v,hv,rfl⟩ := Language.mem_mul.mp hw
    have hfirst := RegexItem.least_le item he u hu
    have hrest := RegexSequence.least_le rest hes v hv
    rw [Element.leastOfAll, List.length_append]
    omega

theorem RegexAlternatives.least_le : ∀ (alternatives : RegexAlternatives) {es : List Element},
    Element.writtenAll es = alternatives.trees →
      ∀ w ∈ alternatives.language, Element.leastOfAny es ≤ w.length
  | .one s, es, h, w, hw => by
    obtain ⟨e,es',rfl,he,hes⟩ := Element.writtenAll_eq_cons.mp h
    obtain rfl := Element.writtenAll_eq_nil.mp hes
    obtain ⟨hdata,hchildren⟩ := Element.written_eq.mp he
    have htype : e.data.mType = .typeSequence := by
      rw [← ElementData.written_mType, hdata]
      rfl
    rw [Element.leastOfAny, Element.least_sequence htype]
    exact RegexSequence.least_le s hchildren w hw
  | .more s rest, es, h, w, hw => by
    obtain ⟨e,es',rfl,he,hes⟩ := Element.writtenAll_eq_cons.mp h
    obtain ⟨hdata,hchildren⟩ := Element.written_eq.mp he
    have htype : e.data.mType = .typeSequence := by
      rw [← ElementData.written_mType, hdata]
      rfl
    have hleast : Element.leastOfAny (e :: es') = min e.least (Element.leastOfAny es') := by
      cases es' with
      | nil => exact absurd hes.symm rest.trees_ne_nil
      | cons e' es' => rfl
    rw [hleast, Element.least_sequence htype]
    rcases hw with hw | hw
    · exact (min_le_left _ _).trans (RegexSequence.least_le s hchildren w hw)
    · exact (min_le_right _ _).trans (RegexAlternatives.least_le rest hes w hw)

end

end JhCommon
