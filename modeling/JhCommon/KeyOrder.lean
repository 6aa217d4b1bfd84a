import Mathlib.Tactic

/-! Lists that are sorted by a key, with the order of arrival kept among equal keys. -/
namespace JhCommon.KeyOrder

variable {α κ : Type*} [LinearOrder κ]

/-- The list q has the arrivals p, the smaller keys in front, and those of one key as they came. -/
structure Arranges (key : α → κ) (q p : List α) : Prop where
  perm : q.Perm p
  sorted : q.Pairwise (fun a b => key a ≤ key b)
  stable : ∀ k, q.filter (fun a => key a = k) = p.filter (fun a => key a = k)

section Facts
variable {key : α → κ} {p q r : List α} {a b : α} {k : κ}

theorem arranges_nil : Arranges key [] [] := ⟨.nil,.nil,fun _ => rfl⟩

theorem lt_of_head (hr : (b :: r).Pairwise (fun a b => key a ≤ key b)) (hb : key a < key b) :
    ∀ c ∈ b :: r, key a < key c := by
  intro c hc
  rcases List.mem_cons.mp hc with rfl | hc
  · exact hb
  · exact hb.trans_le ((List.pairwise_cons.mp hr).1 c hc)

/-- An arrival goes behind all keys that are not greater. -/
theorem Arranges.insert (h : Arranges key (q ++ r) p) (hq : ∀ b ∈ q, key b ≤ key a)
    (hr : ∀ b ∈ r, key a < key b) : Arranges key (q ++ a :: r) (p ++ [a]) := by
  obtain ⟨hsq,hsr,hqr⟩ := List.pairwise_append.mp h.sorted
  constructor
  case perm =>
    calc (q ++ a :: r).Perm (a :: (q ++ r)) := List.perm_middle
      _ |>.Perm (a :: p) := h.perm.cons a
      _ |>.Perm (p ++ [a]) := (List.perm_append_singleton a p).symm
  case sorted =>
    refine List.pairwise_append.mpr ⟨hsq,.cons (fun b hb => (hr b hb).le) hsr,?_⟩
    intro b hb c hc
    rcases List.mem_cons.mp hc with rfl | hc
    · exact hq b hb
    · exact hqr b hb c hc
  case stable =>
    intro k
    have hstable := h.stable k
    rw [List.filter_append] at hstable
    rw [List.filter_append, List.filter_append, ← hstable, List.filter_cons, List.filter_singleton]
    by_cases hk : key a = k
    · -- what is behind the arrival has greater keys
      have hnone : r.filter (fun b => key b = k) = [] := by
        rw [List.filter_eq_nil_iff]
        intro b hb
        simpa [← hk] using (hr b hb).ne'
      simp [hk, hnone]
    · simp [hk]

theorem mem_of_filters (h : ∀ k, q.filter (fun a => key a = k) = r.filter (fun a => key a = k)) (ha : a ∈ q) :
    a ∈ r := by
  have hmem : a ∈ q.filter (fun b => key b = key a) := by simp [ha]
  rw [h] at hmem
  exact List.mem_of_mem_filter hmem

theorem eq_of_filters (hq : q.Pairwise (fun a b => key a ≤ key b)) (hr : r.Pairwise (fun a b => key a ≤ key b))
    (h : ∀ k, q.filter (fun a => key a = k) = r.filter (fun a => key a = k)) : q = r := by
  induction q generalizing r with
  | nil =>
    rw [eq_comm, List.eq_nil_iff_forall_not_mem]
    exact fun b hb => List.not_mem_nil (mem_of_filters (fun k => (h k).symm) hb)
  | cons a q ih =>
    cases r with
    | nil => exact absurd (mem_of_filters h List.mem_cons_self) List.not_mem_nil
    | cons b r =>
      obtain ⟨ha,hqs⟩ := List.pairwise_cons.mp hq
      obtain ⟨hb,hrs⟩ := List.pairwise_cons.mp hr
      -- each head is in the other list, where it is not smaller than the head
      have hle : key b ≤ key a := by
        rcases List.mem_cons.mp (mem_of_filters h List.mem_cons_self) with rfl | hmem
        · exact le_rfl
        · exact hb a hmem
      have hge : key a ≤ key b := by
        rcases List.mem_cons.mp (mem_of_filters (fun k => (h k).symm) List.mem_cons_self) with rfl | hmem
        · exact le_rfl
        · exact ha b hmem
      have hkey : key b = key a := le_antisymm hle hge
      have hhead := h (key a)
      simp only [List.filter_cons, hkey, decide_true, if_true, List.cons.injEq] at hhead
      obtain ⟨rfl,-⟩ := hhead
      congr 1
      apply ih hqs hrs
      intro k
      have hk := h k
      rw [List.filter_cons, List.filter_cons] at hk
      split_ifs at hk with hdec
      · exact (List.cons.inj hk).2
      · exact hk

/-- There is one list only that arranges the arrivals. -/
theorem Arranges.unique (h : Arranges key q p) (h' : Arranges key r p) : q = r :=
  eq_of_filters h.sorted h'.sorted fun k => (h.stable k).trans (h'.stable k).symm

end Facts

end JhCommon.KeyOrder
