import Mathlib.Tactic

/-! Singly linked lists in a memory: the cells met by following the next pointers. -/
namespace JhCommon.LinkedPath

variable {α : Type*}

/-- Following next from p visits the cells of the list, in order, and arrives at q. -/
def Path (next : α → Option α) : Option α → List α → Option α → Prop
  | p, [], q => p = q
  | p, a :: l, q => p = some a ∧ Path next (next a) l q

section Paths
variable {next next' : α → Option α} {p q : Option α} {l r : List α} {a : α}

@[simp] theorem path_nil : Path next p [] q ↔ p = q := Iff.rfl

@[simp] theorem path_cons : Path next p (a :: l) q ↔ p = some a ∧ Path next (next a) l q := Iff.rfl

theorem path_append : Path next p (l ++ r) q ↔ ∃ m, Path next p l m ∧ Path next m r q := by
  induction l generalizing p with
  | nil => simp
  | cons a l ih => simp only [List.cons_append, path_cons, ih]; tauto

/-- A path only depends on the cells it visits. -/
theorem Path.congr (h : Path next p l q) (hnext : ∀ a ∈ l, next' a = next a) :
    Path next' p l q := by
  induction l generalizing p with
  | nil => exact h
  | cons a l ih =>
    refine ⟨h.1,?_⟩
    rw [hnext a List.mem_cons_self]
    exact ih h.2 (fun b hb => hnext b (List.mem_cons_of_mem a hb))

theorem Path.start_eq (h : Path next p l none) : p = l.head? := by
  cases l with
  | nil => exact h
  | cons a l => exact h.1

/-- Following next visits one list of cells. -/
theorem Path.unique (h : Path next p l none) (h' : Path next p r none) : l = r := by
  induction l generalizing p r with
  | nil =>
    cases r with
    | nil => rfl
    | cons b r => exact absurd (h'.1.symm.trans h) (Option.some_ne_none b)
  | cons a l ih =>
    cases r with
    | nil => exact absurd (h.1.symm.trans h') (Option.some_ne_none a)
    | cons b r =>
      obtain rfl : a = b := Option.some.inj (h.1.symm.trans h'.1)
      rw [ih h.2 h'.2]

end Paths

section Edits
variable [DecidableEq α] {next : α → Option α} {p q : Option α} {l r : List α} {a b : α}

theorem Path.update_of_notMem (h : Path next p l q) (hb : b ∉ l) (x : Option α) :
    Path (Function.update next b x) p l q :=
  h.congr (fun c hc => Function.update_of_ne (by rintro rfl; exact hb hc) _ _)

/-- Put b in front. -/
theorem Path.push (h : Path next p r q) (hb : b ∉ r) :
    Path (Function.update next b p) (some b) (b :: r) q :=
  ⟨rfl,by rw [Function.update_self]; exact h.update_of_notMem hb p⟩

/-- Take b out behind a. -/
theorem Path.unlink (h : Path next p (l ++ a :: b :: r) q) (hl : a ∉ l) (hr : a ∉ r) :
    Path (Function.update next a (next b)) p (l ++ a :: r) q := by
  obtain ⟨m,hm,rfl,-,hq⟩ := path_append.mp h
  refine path_append.mpr ⟨some a,hm.update_of_notMem hl _,rfl,?_⟩
  rw [Function.update_self]
  exact hq.update_of_notMem hr _

/-- Put b in behind a. -/
theorem Path.link (h : Path next p (l ++ a :: r) q) (hl : a ∉ l) (hr : a ∉ r) (hab : a ≠ b)
    (hbl : b ∉ l) (hbr : b ∉ r) :
    Path (Function.update (Function.update next b (next a)) a (some b)) p (l ++ a :: b :: r) q := by
  obtain ⟨m,hm,rfl,hq⟩ := path_append.mp h
  refine path_append.mpr ⟨some a,(hm.update_of_notMem hbl _).update_of_notMem hl _,rfl,?_⟩
  rw [Function.update_self]
  refine ⟨rfl,?_⟩
  rw [Function.update_of_ne hab.symm, Function.update_self]
  exact (hq.update_of_notMem hbr _).update_of_notMem hr _

end Edits

/-- Follow next while skip holds: the cell before the one where the search stops, and that one. -/
def seek {ε : Type*} (stuck : ε) (next : α → Option α) (skip : α → Bool) :
    ℕ → Option α → Option α → Except ε (Option α × Option α)
  | _, prev, none => .ok (prev,none)
  | 0, _, some _ => .error stuck
  | fuel+1, prev, some a =>
    if skip a then seek stuck next skip fuel (some a) (next a) else .ok (prev,some a)

theorem seek_eq {ε : Type*} {stuck : ε} {next : α → Option α} {skip : α → Bool} {l : List α}
    {p : Option α} (h : Path next p l none) {fuel : ℕ} (hfuel : l.length ≤ fuel)
    (prev : Option α) :
    seek stuck next skip fuel prev p =
      .ok ((l.takeWhile skip).getLast?.or prev,(l.dropWhile skip).head?) := by
  induction l generalizing p fuel prev with
  | nil =>
    obtain rfl : p = none := h
    cases fuel <;> rfl
  | cons a l ih =>
    obtain ⟨rfl,hl⟩ := h
    obtain ⟨fuel,rfl⟩ : ∃ f, fuel = f+1 := ⟨fuel-1,by simp only [List.length_cons] at hfuel; omega⟩
    rw [seek]
    cases hskip : skip a with
    | false => simp [hskip]
    | true =>
      simp only [↓reduceIte, List.takeWhile_cons, List.dropWhile_cons, hskip]
      rw [ih hl (by simpa using hfuel) (some a), List.getLast?_cons]
      cases (List.takeWhile skip l).getLast? <;> rfl

end JhCommon.LinkedPath
