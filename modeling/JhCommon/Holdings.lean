import Mathlib.Tactic

/-! Lists of places, each of which holds something of its own: what is held altogether when one place
changes. -/
namespace JhCommon

section Holdings
variable {α β : Type} {l : List α} {i : ℕ}

theorem set_same {a : α} (h : l[i]? = some a) : l.set i a = l := by
  obtain ⟨hlt,rfl⟩ := List.getElem?_eq_some_iff.mp h
  exact List.set_getElem_self hlt

/-- What stands in a place when one of them has been set. -/
theorem of_getElem?_set {a b : α} {k : ℕ} (hi : i < l.length) (h : (l.set i b)[k]? = some a) :
    k = i ∧ a = b ∨ k ≠ i ∧ l[k]? = some a := by
  by_cases hki : k = i
  · subst hki
    rw [List.getElem?_set_self hi] at h
    exact .inl ⟨rfl,(Option.some.inj h).symm⟩
  · rw [List.getElem?_set_ne (Ne.symm hki)] at h
    exact .inr ⟨hki,h⟩

/-- What any two places have to do with each other, they have when one is set to what goes with all
others. -/
theorem apart_set {R : α → α → Prop} {b : α} (hi : i < l.length)
    (hold : ∀ (j k : ℕ) (a c : α), j ≠ k → l[j]? = some a → l[k]? = some c → R a c)
    (hnew : ∀ (j : ℕ) (a : α), j ≠ i → l[j]? = some a → R a b ∧ R b a) :
    ∀ (j k : ℕ) (a c : α), j ≠ k → (l.set i b)[j]? = some a → (l.set i b)[k]? = some c → R a c := by
  intro j k a c hjk ha hc
  rcases of_getElem?_set hi ha with ⟨hj,hab⟩ | ⟨hj,ha'⟩ <;>
    rcases of_getElem?_set hi hc with ⟨hk,hcb⟩ | ⟨hk,hc'⟩
  · exact absurd (hj.trans hk.symm) hjk
  · exact hab ▸ (hnew k c hk hc').2
  · exact hcb ▸ (hnew j a hj ha').1
  · exact hold j k a c hjk ha' hc'

theorem perm_swap_right (a b c : List α) : (a ++ b ++ c).Perm (a ++ c ++ b) := by
  rw [List.append_assoc, List.append_assoc]
  exact List.perm_append_comm.append_left a

/-- An entry is put in, and the others are mapped as before. -/
theorem map_set_of_agree {f g : α → β} {b : α}
    (h : ∀ j a, j ≠ i → l[j]? = some a → g a = f a) :
    (l.set i b).map g = (l.map f).set i (g b) := by
  induction l generalizing i with
  | nil => rfl
  | cons c l ih =>
    cases i with
    | zero =>
      have hrest : l.map g = l.map f := by
        apply List.map_congr_left
        intro a ha
        obtain ⟨j,hj⟩ := List.getElem?_of_mem ha
        exact h (j+1) a (Nat.succ_ne_zero j) hj
      rw [List.set_cons_zero, List.map_cons, hrest, List.map_cons, List.set_cons_zero]
    | succ i =>
      rw [List.set_cons_succ, List.map_cons, List.map_cons, List.set_cons_succ,
        h 0 c (Nat.succ_ne_zero i).symm rfl,
        ih fun j a hj ha => h (j+1) a (fun he => hj (Nat.succ.inj he)) ha]

/-- What one place holds is exchanged. -/
theorem flatten_set_perm {l : List (List α)} {a b : List α} (ha : l[i]? = some a) :
    ((l.set i b).flatten ++ a).Perm (l.flatten ++ b) := by
  induction l generalizing i with
  | nil => cases ha
  | cons c l ih =>
    cases i with
    | zero =>
      obtain rfl := Option.some.inj ha
      rw [List.set_cons_zero, List.flatten_cons, List.flatten_cons]
      calc (b ++ l.flatten ++ c).Perm (c ++ (b ++ l.flatten)) := List.perm_append_comm
        _ |>.Perm (c ++ (l.flatten ++ b)) := List.perm_append_comm.append_left c
        _ = c ++ l.flatten ++ b := (List.append_assoc _ _ _).symm
    | succ i =>
      rw [List.set_cons_succ, List.flatten_cons, List.flatten_cons, List.append_assoc, List.append_assoc]
      exact (ih ha).append_left c

theorem count_flatten_set [DecidableEq α] {l : List (List α)} {a b : List α} (ha : l[i]? = some a) (x : α) :
    (l.set i b).flatten.count x+a.count x = l.flatten.count x+b.count x := by
  rw [← List.count_append, ← List.count_append]
  exact (flatten_set_perm ha).count_eq x

/-- Each number below born is held in one place, or it is dead. One place makes k new ones, and what it
does not hold any more is dead. -/
theorem flatten_set_range {l : List (List ℕ)} {a b dead ds : List ℕ} {born k : ℕ} (ha : l[i]? = some a)
    (hall : (l.flatten ++ dead).Perm (List.range born))
    (hperm : (b ++ ds).Perm (a ++ List.range' born k)) :
    ((l.set i b).flatten ++ (dead ++ ds)).Perm (List.range (born+k)) := by
  have hrange : List.range born ++ List.range' born k = List.range (born+k) := by
    have hjoin := List.range'_append_1 (s := 0) (m := born) (n := k)
    rwa [Nat.zero_add, ← List.range_eq_range', ← List.range_eq_range'] at hjoin
  -- what the place held before stands on both sides
  apply (List.perm_append_right_iff a).mp
  calc ((l.set i b).flatten ++ (dead ++ ds) ++ a).Perm ((l.set i b).flatten ++ a ++ (dead ++ ds)) :=
        perm_swap_right _ _ _
    _ |>.Perm (l.flatten ++ b ++ (dead ++ ds)) := (flatten_set_perm ha).append_right _
    _ = (l.flatten ++ b ++ dead) ++ ds := (List.append_assoc _ _ _).symm
    _ |>.Perm ((l.flatten ++ dead ++ b) ++ ds) := (perm_swap_right _ _ _).append_right ds
    _ = (l.flatten ++ dead) ++ (b ++ ds) := List.append_assoc _ _ _
    _ |>.Perm (List.range born ++ (a ++ List.range' born k)) := hall.append hperm
    _ = (List.range born ++ a) ++ List.range' born k := (List.append_assoc _ _ _).symm
    _ |>.Perm ((List.range born ++ List.range' born k) ++ a) := perm_swap_right _ _ _
    _ = List.range (born+k) ++ a := by rw [hrange]

end Holdings

end JhCommon
