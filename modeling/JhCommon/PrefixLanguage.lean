import Mathlib.Computability.Language

/-! Where in a list the words of a language end, from given places on: concatenation is
composition, and the repetitions of single letters are the runs of such letters. -/
namespace JhCommon
open Computability

section
variable {α : Type*} {s : List α} {l m : Language α} {starts : Set ℕ}

/-- The places where the words of a language end that begin at one of some places. -/
def endsFrom (s : List α) (l : Language α) (starts : Set ℕ) : Set ℕ :=
  {p | ∃ q ∈ starts, ∃ w ∈ l, w <+: s.drop q ∧ p = q+w.length}

theorem endsFrom_one (s : List α) (starts : Set ℕ) : endsFrom s 1 starts = starts := by
  ext p
  constructor
  · rintro ⟨q,hq,w,hw,-,rfl⟩
    obtain rfl : w = [] := (Language.mem_one w).mp hw
    exact hq
  · intro hp
    exact ⟨p,hp,[],Language.nil_mem_one,List.nil_prefix,rfl⟩

theorem endsFrom_empty (s : List α) (l : Language α) : endsFrom s l ∅ = ∅ := by
  rw [Set.eq_empty_iff_forall_notMem]
  rintro p ⟨q,hq,-⟩
  exact hq

theorem endsFrom_add (s : List α) (l m : Language α) (starts : Set ℕ) :
    endsFrom s (l+m) starts = endsFrom s l starts ∪ endsFrom s m starts := by
  ext p
  constructor
  · rintro ⟨q,hq,w,hw | hw,hbegin,hp⟩
    · exact .inl ⟨q,hq,w,hw,hbegin,hp⟩
    · exact .inr ⟨q,hq,w,hw,hbegin,hp⟩
  · rintro (⟨q,hq,w,hw,hbegin,hp⟩ | ⟨q,hq,w,hw,hbegin,hp⟩)
    · exact ⟨q,hq,w,.inl hw,hbegin,hp⟩
    · exact ⟨q,hq,w,.inr hw,hbegin,hp⟩

/-- Two words stand one behind the other. -/
theorem append_prefix_drop {v w : List α} {q : ℕ} :
    v ++ w <+: s.drop q ↔ v <+: s.drop q ∧ w <+: s.drop (q+v.length) := by
  rw [← List.drop_drop]
  constructor
  · rintro ⟨rest,h⟩
    rw [← h, List.append_assoc, List.drop_left]
    exact ⟨List.prefix_append _ _,List.prefix_append _ _⟩
  · rintro ⟨⟨rest,h⟩,⟨rest',h'⟩⟩
    rw [← h, List.drop_left] at h'
    exact ⟨rest',by rw [← h, ← h', List.append_assoc]⟩

theorem endsFrom_mul (s : List α) (l m : Language α) (starts : Set ℕ) :
    endsFrom s (l*m) starts = endsFrom s m (endsFrom s l starts) := by
  ext p
  constructor
  · rintro ⟨q,hq,w,hw,hbegin,rfl⟩
    obtain ⟨u,hu,v,hv,rfl⟩ := Language.mem_mul.mp hw
    obtain ⟨hfirst,hrest⟩ := append_prefix_drop.mp hbegin
    refine ⟨q+u.length,⟨q,hq,u,hu,hfirst,rfl⟩,v,hv,hrest,?_⟩
    rw [List.length_append, Nat.add_assoc]
  · rintro ⟨r,⟨q,hq,u,hu,hfirst,rfl⟩,v,hv,hrest,rfl⟩
    refine ⟨q,hq,u ++ v,Language.append_mem_mul hu hv,append_prefix_drop.mpr ⟨hfirst,hrest⟩,?_⟩
    rw [List.length_append, Nat.add_assoc]

/-- A word of the language is at the beginning of the list. -/
theorem endsFrom_nonempty : (endsFrom s l {0}).Nonempty ↔ ∃ w ∈ l, w <+: s := by
  constructor
  · rintro ⟨p,q,rfl,w,hw,hbegin,-⟩
    exact ⟨w,hw,hbegin⟩
  · rintro ⟨w,hw,hbegin⟩
    exact ⟨_,0,rfl,w,hw,hbegin,rfl⟩

theorem le_of_mem_endsFrom {n k p : ℕ} (hwords : ∀ w ∈ l, n ≤ w.length) (hstarts : ∀ q ∈ starts, k ≤ q)
    (hp : p ∈ endsFrom s l starts) : k+n ≤ p := by
  obtain ⟨q,hq,w,hw,-,rfl⟩ := hp
  exact Nat.add_le_add (hstarts q hq) (hwords w hw)

/-- The words that are so many words of the language in a row. -/
def repeated (counts : Set ℕ) (l : Language α) : Language α := {w | ∃ k ∈ counts, w ∈ l^k}

theorem length_of_mem_pow {n k : ℕ} {w : List α} (hwords : ∀ w ∈ l, n ≤ w.length) (hw : w ∈ l^k) :
    k*n ≤ w.length := by
  induction k generalizing w with
  | zero => omega
  | succ k ih =>
    obtain ⟨u,hu,v,hv,rfl⟩ := Language.mem_mul.mp (pow_succ l k ▸ hw)
    have hfirst := ih hu
    have hlast := hwords v hv
    rw [List.length_append, Nat.succ_mul]
    omega

/-- The words that are one letter. -/
def letters (chars : Set α) : Language α := {w | ∃ c ∈ chars, w = [c]}

theorem mem_letters_pow {chars : Set α} {k : ℕ} {w : List α} :
    w ∈ letters chars^k ↔ w.length = k ∧ ∀ c ∈ w, c ∈ chars := by
  induction k generalizing w with
  | zero =>
    rw [pow_zero, Language.mem_one, List.length_eq_zero_iff]
    exact ⟨fun h => ⟨h,by simp [h]⟩,And.left⟩
  | succ k ih =>
    rw [pow_succ', Language.mem_mul]
    constructor
    · rintro ⟨u,⟨c,hc,rfl⟩,v,hv,rfl⟩
      obtain ⟨hlen,hall⟩ := ih.mp hv
      refine ⟨by rw [List.singleton_append, List.length_cons, hlen],?_⟩
      exact List.forall_mem_cons.mpr ⟨hc,hall⟩
    · rintro ⟨hlen,hall⟩
      cases w with
      | nil => simp at hlen
      | cons c w =>
        obtain ⟨hc,hrest⟩ := List.forall_mem_cons.mp hall
        exact ⟨[c],⟨c,hc,rfl⟩,w,ih.mpr ⟨Nat.succ.inj hlen,hrest⟩,rfl⟩

/-- So many letters from a place on are among these. -/
def LettersAt (s : List α) (chars : Set α) (q k : ℕ) : Prop :=
  ∀ j, q ≤ j → j < q+k → ∃ c ∈ s[j]?, c ∈ chars

theorem lettersAt_zero (s : List α) (chars : Set α) (q : ℕ) : LettersAt s chars q 0 :=
  fun _ _ _ => absurd ‹_› (by omega)

theorem lettersAt_one {chars : Set α} {q : ℕ} :
    LettersAt s chars q 1 ↔ ∃ c ∈ s[q]?, c ∈ chars := by
  constructor
  · intro h
    exact h q le_rfl (Nat.lt_succ_self q)
  · intro h j hlow hhigh
    obtain rfl : j = q := by omega
    exact h

theorem LettersAt.sub {chars : Set α} {q k q' k' : ℕ} (h : LettersAt s chars q k) (hq : q ≤ q')
    (hk : q'+k' ≤ q+k) : LettersAt s chars q' k' := fun j hlow hhigh => h j (by omega) (by omega)

theorem LettersAt.add {chars : Set α} {q k k' : ℕ} (h : LettersAt s chars q k)
    (h' : LettersAt s chars (q+k) k') : LettersAt s chars q (k+k') := by
  intro j hlow hhigh
  by_cases hj : j < q+k
  · exact h j hlow hj
  · exact h' j (by omega) (by omega)

theorem exists_prefix_letters {chars : Set α} {q k : ℕ} :
    (∃ w ∈ letters chars^k, w <+: s.drop q) ↔ LettersAt s chars q k := by
  constructor
  · rintro ⟨w,hw,hbegin⟩ j hlow hhigh
    obtain ⟨hlen,hall⟩ := mem_letters_pow.mp hw
    have hj : j-q < w.length := by omega
    refine ⟨w[j-q],?_,hall _ (List.getElem_mem hj)⟩
    have hget := List.prefix_iff_getElem?.mp hbegin (j-q) hj
    rw [List.getElem?_drop, Nat.add_sub_cancel' hlow] at hget
    exact hget
  · intro h
    refine ⟨(s.drop q).take k,mem_letters_pow.mpr ⟨?_,?_⟩,List.take_prefix _ _⟩
    · rw [List.length_take, List.length_drop]
      by_contra hlen
      obtain ⟨c,hc,-⟩ := h (q+k-1) (by omega) (by omega)
      have hlt := (List.getElem?_eq_some_iff.mp hc).1
      omega
    · intro c hc
      obtain ⟨i,hi⟩ := List.mem_iff_getElem?.mp hc
      have hik : i < k := by
        have := (List.getElem?_eq_some_iff.mp hi).1
        rw [List.length_take] at this
        omega
      rw [List.getElem?_take_of_lt hik, List.getElem?_drop] at hi
      obtain ⟨d,hd,hmem⟩ := h (q+i) (by omega) (by omega)
      obtain rfl : c = d := Option.some.inj (hi.symm.trans hd)
      exact hmem

theorem mem_endsFrom_letters {chars : Set α} {counts : Set ℕ} {p : ℕ} :
    p ∈ endsFrom s (repeated counts (letters chars)) starts ↔
      ∃ q ∈ starts, ∃ k ∈ counts, LettersAt s chars q k ∧ p = q+k := by
  constructor
  · rintro ⟨q,hq,w,⟨k,hk,hw⟩,hbegin,rfl⟩
    rw [(mem_letters_pow.mp hw).1]
    exact ⟨q,hq,k,hk,exists_prefix_letters.mp ⟨w,hw,hbegin⟩,rfl⟩
  · rintro ⟨q,hq,k,hk,hletters,rfl⟩
    obtain ⟨w,hw,hbegin⟩ := exists_prefix_letters.mpr hletters
    refine ⟨q,hq,w,⟨k,hk,hw⟩,hbegin,?_⟩
    rw [(mem_letters_pow.mp hw).1]

end

end JhCommon
