import JhCommon.Exec

/-! Texts with properly nested brackets: how deep they are nested, what is left of a text when the
insides of its outermost brackets are dropped, and scans from the end that count brackets. -/
namespace JhCommon.BracketNesting

variable {α : Type} {o c : α}

/-- The brackets o and c are properly nested, d deep. -/
inductive Nested (o c : α) : ℕ → List α → Prop
  | nil : Nested o c 0 []
  | plain {d : ℕ} {s : List α} (x : α) (ho : x ≠ o) (hc : x ≠ c) (hs : Nested o c d s) :
      Nested o c d (x :: s)
  | pair {d e : ℕ} {inner rest : List α} (hinner : Nested o c d inner) (hrest : Nested o c e rest) :
      Nested o c (max (d+1) e) (o :: inner ++ c :: rest)

/-- The brackets are properly nested, d deep, and the second text is the first one without what stands
inside its outermost brackets. -/
inductive Outlined (o c : α) : ℕ → List α → List α → Prop
  | nil : Outlined o c 0 [] []
  | plain {d : ℕ} {s t : List α} (x : α) (ho : x ≠ o) (hc : x ≠ c) (hs : Outlined o c d s t) :
      Outlined o c d (x :: s) (x :: t)
  | pair {d e : ℕ} {inner rest t : List α} (hinner : Nested o c d inner)
      (hrest : Outlined o c e rest t) :
      Outlined o c (max (d+1) e) (o :: inner ++ c :: rest) (o :: c :: t)

theorem Outlined.nested {d : ℕ} {s t : List α} (h : Outlined o c d s t) : Nested o c d s := by
  induction h with
  | nil => exact .nil
  | plain x ho hc _ ih => exact .plain x ho hc ih
  | pair hinner _ ih => exact .pair hinner ih

/-- A text without brackets is its own outline. -/
theorem outlined_of_plain {s : List α} (h : ∀ x ∈ s, x ≠ o ∧ x ≠ c) : Outlined o c 0 s s := by
  induction s with
  | nil => exact .nil
  | cons x s ih =>
    obtain ⟨ho,hc⟩ := h x List.mem_cons_self
    exact .plain x ho hc (ih fun y hy => h y (List.mem_cons_of_mem x hy))

section Scans
variable {ε : Type} {body : α → ℤ → Except ε (ℤ × Bool)} {n M : ℤ} {d : ℕ} {s t : List α} {e : ε}

/-- A loop that goes back through a text, which is given from its end on: the body gets each character
and a counter, and says whether the loop ends there. The number of characters up to there is returned, and
none when the loop has run through all of them. -/
def scanBack (body : α → ℤ → Except ε (ℤ × Bool)) : List α → ℤ → Except ε (ℕ × ℤ)
  | [], n => .ok (0,n)
  | x :: front, n => do
    let (n,stop) ← body x n
    if stop then .ok (front.length+1,n) else scanBack body front n

theorem scanBack_on {x : α} {m : ℤ} (h : body x n = .ok (m,false)) (front : List α) :
    scanBack body (x :: front) n = scanBack body front m := by
  rw [scanBack, h]
  rfl

theorem scanBack_stop {x : α} {m : ℤ} (h : body x n = .ok (m,true)) (front : List α) :
    scanBack body (x :: front) n = .ok (front.length+1,m) := by
  rw [scanBack, h]
  rfl

theorem scanBack_error {x : α} (h : body x n = .error e) (front : List α) :
    scanBack body (x :: front) n = .error e := by
  rw [scanBack, h]
  rfl

/-- Inside of brackets the body counts them, up to M, and goes on at every other character. -/
structure Counts (body : α → ℤ → Except ε (ℤ × Bool)) (o c : α) (M : ℤ) (e : ε) : Prop where
  up : ∀ n, 0 < n → n < M → body c n = .ok (n+1,false)
  down : ∀ n, 1 < n → body o n = .ok (n-1,false)
  plain : ∀ n x, 0 < n → x ≠ o → x ≠ c → body x n = .ok (n,false)
  full : body c M = .error e

/-- Such a scan gets past what is properly nested, unless that is nested too deep. -/
theorem Counts.nested (h : Counts body o c M e) (hs : Nested o c d s) (hn : 0 < n) (hM : n ≤ M)
    (front : List α) :
    scanBack body (s.reverse ++ front) n =
      if n+d ≤ M then scanBack body front n else .error e := by
  -- on the nesting; the counter at the end is the one from before
  induction hs generalizing n front with
  | nil => rw [if_pos (by simpa using hM), List.reverse_nil, List.nil_append]
  | @plain d s x ho hc _ ih =>
    rw [List.reverse_cons, List.append_assoc, ih hn hM]
    congr 1
    exact scanBack_on (h.plain n x hn ho hc) front
  | @pair d k inner rest _ _ ih ih' =>
    -- what is behind the pair comes first
    have hsplit : (o :: inner ++ c :: rest).reverse ++ front =
        rest.reverse ++ c :: (inner.reverse ++ o :: front) := by simp
    rw [hsplit, ih' hn hM]
    by_cases hrest : n+k ≤ M
    · rw [if_pos hrest]
      -- the closing bracket is the first one of the pair that is met
      rcases hM.eq_or_lt with rfl | hlt
      · rw [scanBack_error h.full, if_neg (by omega)]
      · rw [scanBack_on (h.up n hn hlt), ih (by omega) (by omega)]
        have hdown := h.down (n+1) (by omega)
        rw [add_sub_cancel_right] at hdown
        rw [scanBack_on hdown]
        congr 1
        apply propext
        constructor <;> intro <;> omega
    · rw [if_neg hrest, if_neg (by omega)]

/-- Outside of brackets it does, too, if it goes on at what stands there. -/
theorem Counts.outlined (h : Counts body o c M e) (hM : 0 < M) (hup : body c 0 = .ok (1,false))
    (hdown : body o 1 = .ok (0,false)) (hs : Outlined o c d s t)
    (hplain : ∀ x ∈ t, x ≠ o → x ≠ c → body x 0 = .ok (0,false)) (front : List α) :
    scanBack body (s.reverse ++ front) 0 =
      if (d : ℤ) ≤ M then scanBack body front 0 else .error e := by
  induction hs generalizing front with
  | nil => rw [if_pos (by simpa using hM.le), List.reverse_nil, List.nil_append]
  | @plain d s t x ho hc _ ih =>
    have hx := hplain x List.mem_cons_self ho hc
    rw [List.reverse_cons, List.append_assoc, ih fun y hy => hplain y (List.mem_cons_of_mem x hy)]
    congr 1
    exact scanBack_on hx front
  | @pair d k inner rest t hinner _ ih =>
    have hsplit : (o :: inner ++ c :: rest).reverse ++ front =
        rest.reverse ++ c :: (inner.reverse ++ o :: front) := by simp
    have hrest : ∀ x ∈ t, x ≠ o → x ≠ c → body x 0 = .ok (0,false) := fun x hx =>
      hplain x (List.mem_cons_of_mem o (List.mem_cons_of_mem c hx))
    rw [hsplit, ih hrest]
    by_cases hk : (k : ℤ) ≤ M
    · rw [if_pos hk, scanBack_on hup, h.nested hinner one_pos (by omega), scanBack_on hdown]
      congr 1
      apply propext
      constructor <;> intro <;> omega
    · rw [if_neg hk, if_neg (by omega)]

end Scans

end JhCommon.BracketNesting
