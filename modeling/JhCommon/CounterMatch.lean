import Mathlib.Tactic

/-! Searching a text for a pattern with one match counter that falls back to zero. After a
mismatch the scan does not look at the mismatching symbol again, so it only sees the occurrences
that start right behind a run of misses. The symbols are compared by an arbitrary relation. -/
namespace JhCommon.CounterMatch

variable {α β : Type*}

section Scan
variable (eq : α → β → Prop) [DecidableRel eq] (t : List β) (dflt : β)

/-- The number of symbols read up to and including the last one of a full match, with k pattern
symbols matched so far. -/
def scan : ℕ → List α → Option ℕ
  | _, [] => none
  | k, a :: as =>
    let k' := if eq a (t.getD k dflt) then k+1 else 0
    if k' = t.length then some 1 else (scan k' as).map (·+1)

end Scan

section Misses
variable (eq : α → β → Prop) (t : List β)

/-- A proper prefix of the pattern, then a symbol that is not the pattern's next. -/
def Miss (w : List α) : Prop :=
  ∃ m a u c v, w = m ++ [a] ∧ t = u ++ c :: v ∧ List.Forall₂ eq m u ∧ ¬eq a c

inductive Misses : List α → Prop
  | nil : Misses []
  | append {w p : List α} (head : Miss eq t w) (tail : Misses p) : Misses (w ++ p)

/-- The misses only depend on how text symbols compare with the pattern's own. -/
theorem Misses.congr {eq eq' : α → β → Prop} {t : List β} (h : ∀ a, ∀ c ∈ t, eq a c ↔ eq' a c)
    {p : List α} (hp : Misses eq t p) : Misses eq' t p := by
  induction hp with
  | nil => exact .nil
  | append head _ ih =>
    obtain ⟨m,a,u,c,v,hw,ht,hm,ha⟩ := head
    refine .append ⟨m,a,u,c,v,hw,ht,?_,?_⟩ ih
    · have hu : ∀ c ∈ u, c ∈ t := fun c hc => by rw [ht]; exact List.mem_append_left _ hc
      clear ht hw
      induction hm with
      | nil => exact .nil
      | cons hac _ ihm =>
        exact .cons ((h _ _ (hu _ List.mem_cons_self)).mp hac)
          (ihm (fun c hc => hu c (List.mem_cons_of_mem _ hc)))
    · rwa [← h a c (by rw [ht]; simp)]

end Misses

section Correctness
variable {eq : α → β → Prop} [DecidableRel eq] {t : List β} {d : β}

theorem scan_cons_match {u v : List β} {a : α} {as : List α} {c : β} (ht : t = u ++ c :: v)
    (h : eq a c) : scan eq t d u.length (a :: as) =
      if v = [] then some 1 else (scan eq t d (u.length+1) as).map (·+1) := by
  have hget : t.getD u.length d = c := by simp [ht]
  have hlen : u.length+1 = t.length ↔ v = [] := by
    rw [ht, List.length_append, List.length_cons, ← List.length_eq_zero_iff]
    omega
  simp only [scan, hget, if_pos h, hlen]

theorem scan_cons_miss {u v : List β} {a : α} {as : List α} {c : β} (ht : t = u ++ c :: v)
    (h : ¬eq a c) : scan eq t d u.length (a :: as) = (scan eq t d 0 as).map (·+1) := by
  have hget : t.getD u.length d = c := by simp [ht]
  have hne : 0 ≠ t.length := by simp [ht]
  simp only [scan, hget, if_neg h, if_neg hne]

/-- Matching symbols that do not complete the pattern only move the counter. -/
theorem scan_append_match {m : List α} {s : List β} (h : List.Forall₂ eq m s) (u v : List β)
    (hv : v ≠ []) (ht : t = u ++ s ++ v) (q : List α) :
    scan eq t d u.length (m ++ q) =
      (scan eq t d (u.length+m.length) q).map (·+m.length) := by
  induction h generalizing u with
  | nil => simp
  | @cons a c m s hac _ ih =>
    have ht' : t = u ++ c :: (s ++ v) := by simp [ht]
    have hih := ih (u ++ [c]) (by simp [ht])
    rw [List.length_append, List.length_singleton] at hih
    rw [List.cons_append, scan_cons_match ht' hac, if_neg (by simp [hv]), hih, Option.map_map,
      List.length_cons, show u.length+1+m.length = u.length+(m.length+1) by omega]
    rfl

theorem scan_append_miss {w : List α} (h : Miss eq t w) (q : List α) :
    scan eq t d 0 (w ++ q) = (scan eq t d 0 q).map (·+w.length) := by
  obtain ⟨m,a,u,c,v,rfl,ht,hm,ha⟩ := h
  have hmatch := scan_append_match (d := d) hm [] (c :: v) (by simp) (by simpa using ht)
    (a :: q)
  rw [List.length_nil, zero_add, hm.length_eq] at hmatch
  rw [List.append_assoc, List.singleton_append, hmatch, scan_cons_miss ht ha, Option.map_map]
  congr 1
  funext n
  simp only [Function.comp_apply, List.length_append, List.length_singleton, hm.length_eq]
  omega

theorem scan_append_misses {p : List α} (h : Misses eq t p) (q : List α) :
    scan eq t d 0 (p ++ q) = (scan eq t d 0 q).map (·+p.length) := by
  induction h with
  | nil => simp
  | append head _ ih =>
    rw [List.append_assoc, scan_append_miss head, ih, Option.map_map]
    congr 1
    funext n
    simp only [Function.comp_apply, List.length_append]
    omega

theorem scan_of_match (ht : t ≠ []) {m : List α} (h : List.Forall₂ eq m t) (q : List α) :
    scan eq t d 0 (m ++ q) = some t.length := by
  obtain ⟨u,c,rfl⟩ : ∃ u c, t = u ++ [c] :=
    ⟨t.dropLast,t.getLast ht,(List.dropLast_append_getLast ht).symm⟩
  obtain ⟨m',a,rfl,hm,ha⟩ : ∃ m' a, m = m' ++ [a] ∧ List.Forall₂ eq m' u ∧ eq a c := by
    obtain ⟨a,l,ha,hl,hd⟩ := List.forall₂_cons_right_iff.mp (List.forall₂_drop_append m u [c] h)
    rw [List.forall₂_nil_right_iff.mp hl] at hd
    refine ⟨m.take u.length,a,?_,List.forall₂_take_append m u [c] h,ha⟩
    rw [← hd, List.take_append_drop]
  have hmatch := scan_append_match (t := u ++ [c]) (d := d) hm [] [c] (by simp) (by simp)
    (a :: q)
  rw [List.length_nil, zero_add, hm.length_eq] at hmatch
  rw [List.append_assoc, List.singleton_append, hmatch, scan_cons_match rfl ha, if_pos rfl]
  simp [add_comm]

/-- A scan that ends has read some misses and then a match. The induction is on the text; the
symbols matched so far, m, stand in front of it. -/
theorem exists_misses_of_scan (m : List α) (u v : List β) (q : List α) (e : ℕ) (ht : t = u ++ v)
    (hv : v ≠ []) (hm : List.Forall₂ eq m u) (h : scan eq t d u.length q = some e) :
    ∃ p m' r, m ++ q = p ++ m' ++ r ∧ Misses eq t p ∧ List.Forall₂ eq m' t ∧
      e+m.length = p.length+t.length := by
  -- m is what has matched the part u of the text so far
  induction q generalizing m u v e with
  | nil => simp [scan] at h
  | cons a as ih =>
    obtain ⟨c,v,rfl⟩ := List.exists_cons_of_ne_nil hv
    by_cases ha : eq a c
    · rw [scan_cons_match ht ha] at h
      have hma : List.Forall₂ eq (m ++ [a]) (u ++ [c]) := by
        exact List.rel_append hm (.cons ha .nil)
      by_cases hlast : v = []
      · rw [if_pos hlast, Option.some_inj] at h
        subst hlast
        refine ⟨[],m ++ [a],as,by simp,.nil,by rwa [ht],?_⟩
        rw [← h, ht, List.length_append, hm.length_eq]
        simp only [List.length_nil, List.length_cons]
        omega
      · rw [if_neg hlast, Option.map_eq_some_iff] at h
        obtain ⟨e',he',rfl⟩ := h
        obtain ⟨p,m',r,hq,hp,hm',hlen⟩ := ih (m ++ [a]) (u ++ [c]) v e' (by simp [ht]) hlast hma
          (by rw [List.length_append, List.length_singleton]; exact he')
        refine ⟨p,m',r,by rw [← hq]; simp,hp,hm',?_⟩
        rw [List.length_append, List.length_singleton] at hlen
        omega
    · rw [scan_cons_miss ht ha, Option.map_eq_some_iff] at h
      obtain ⟨e',he',rfl⟩ := h
      obtain ⟨p,m',r,hq,hp,hm',hlen⟩ := ih [] [] t e' rfl (by simp [ht]) .nil he'
      rw [List.nil_append] at hq
      refine ⟨(m ++ [a]) ++ p,m',r,by rw [hq]; simp,.append ⟨m,a,u,c,v,rfl,ht,hm,ha⟩ hp,hm',?_⟩
      simp only [List.length_append, List.length_nil, List.length_singleton] at hlen ⊢
      omega

/-- Where the scan ends: behind some misses and a match. -/
theorem scan_eq_some_iff (ht : t ≠ []) (q : List α) (e : ℕ) :
    scan eq t d 0 q = some e ↔
      ∃ p m r, q = p ++ m ++ r ∧ Misses eq t p ∧ List.Forall₂ eq m t ∧ e = p.length+t.length := by
  constructor
  · intro h
    simpa using exists_misses_of_scan [] [] t q e rfl ht .nil h
  · rintro ⟨p,m,r,rfl,hp,hm,rfl⟩
    rw [List.append_assoc, scan_append_misses hp, scan_of_match ht hm, Option.map_some, add_comm]

theorem scan_le (k : ℕ) (q : List α) (e : ℕ) (h : scan eq t d k q = some e) :
    0 < e ∧ e ≤ q.length := by
  induction q generalizing k e with
  | nil => simp [scan] at h
  | cons a as ih =>
    simp only [scan] at h
    generalize (if eq a (t.getD k d) then k+1 else 0) = k' at h
    by_cases hk : k' = t.length
    · rw [if_pos hk, Option.some_inj] at h
      simp only [List.length_cons]
      omega
    · rw [if_neg hk] at h
      obtain ⟨e',he',rfl⟩ := Option.map_eq_some_iff.mp h
      have := ih k' e' he'
      simp only [List.length_cons]
      omega

end Correctness

end JhCommon.CounterMatch
