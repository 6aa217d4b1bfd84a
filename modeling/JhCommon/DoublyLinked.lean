import JhCommon.LinkedPath

/-! Doubly linked lists in a memory: cells each of which points at the next one and is pointed back
at by it, and what it takes to link one in or out. -/
namespace JhCommon.DoublyLinked

variable {α : Type*}

/-- Each cell and the one behind it point at each other. -/
def Linked (next prev : α → Option α) (l : List α) : Prop :=
  l.IsChain fun a b => next a = some b ∧ prev b = some a

section Links
variable {next next' prev prev' : α → Option α} {l r : List α} {a b x : α}

theorem Linked.next_eq (h : Linked next prev (l ++ a :: b :: r)) : next a = some b :=
  (List.isChain_append_cons_cons.mp h).2.1.1

theorem Linked.prev_eq (h : Linked next prev (l ++ a :: b :: r)) : prev b = some a :=
  (List.isChain_append_cons_cons.mp h).2.1.2

/-- A list is held together by the links between its cells. -/
theorem Linked.congr (h : Linked next prev l) (hnext : ∀ c ∈ l.dropLast, next' c = next c)
    (hprev : ∀ c ∈ l.tail, prev' c = prev c) : Linked next' prev' l := by
  induction l with
  | nil => exact List.isChain_nil
  | cons c l ih =>
    cases l with
    | nil => exact List.isChain_singleton c
    | cons d l =>
      obtain ⟨hcd,hl⟩ := List.isChain_cons_cons.mp h
      refine List.isChain_cons_cons.mpr ⟨?_,ih hl ?_ ?_⟩
      · rw [hnext c List.mem_cons_self, hprev d List.mem_cons_self]
        exact hcd
      · exact fun e he => hnext e (List.mem_cons_of_mem c he)
      · exact fun e he => hprev e (List.mem_cons_of_mem d he)

theorem Linked.upto (h : Linked next prev (l ++ a :: r)) (hnext : ∀ c ∈ l, next' c = next c)
    (hprev : ∀ c ∈ l ++ [a], prev' c = prev c) : Linked next' prev' (l ++ [a]) := by
  have hl : Linked next prev (l ++ [a]) := (List.isChain_split.mp h).1
  apply hl.congr
  · rw [List.dropLast_concat]
    exact hnext
  · exact fun c hc => hprev c (List.mem_of_mem_tail hc)

theorem Linked.behind (h : Linked next prev (l ++ b :: r)) (hnext : ∀ c ∈ b :: r, next' c = next c)
    (hprev : ∀ c ∈ r, prev' c = prev c) : Linked next' prev' (b :: r) := by
  have hr : Linked next prev (b :: r) := (List.isChain_split.mp h).2
  exact hr.congr (fun c hc => hnext c (List.mem_of_mem_dropLast hc)) hprev

/-- Up to a and from b on the links stay, whatever a and b point at on the other side. -/
theorem Linked.ends {s t : List α} (ha : Linked next prev (l ++ a :: s))
    (hb : Linked next prev (t ++ b :: r)) (hnodup : (l ++ a :: b :: r).Nodup)
    (hnext : ∀ c ∈ l ++ b :: r, c ≠ a → next' c = next c)
    (hprev : ∀ c ∈ l ++ a :: r, c ≠ b → prev' c = prev c) :
    Linked next' prev' (l ++ [a]) ∧ Linked next' prev' (b :: r) := by
  have hout : a ∉ l ∧ b ∉ l ∧ a ≠ b ∧ a ∉ r ∧ b ∉ r := by
    simp only [List.nodup_append, List.nodup_cons, List.mem_cons] at hnodup
    grind
  obtain ⟨hal,hbl,hab,har,hbr⟩ := hout
  refine ⟨ha.upto ?_ ?_,hb.behind ?_ ?_⟩
  · exact fun c hc => hnext c (by simp [hc]) (ne_of_mem_of_not_mem hc hal)
  · intro c hc
    rcases List.mem_append.mp hc with hc | hc
    · exact hprev c (by simp [hc]) (ne_of_mem_of_not_mem hc hbl)
    · rw [List.mem_singleton.mp hc]
      exact hprev a (by simp) hab
  · intro c hc
    apply hnext c (List.mem_append_right l hc)
    rcases List.mem_cons.mp hc with rfl | hc
    · exact hab.symm
    · exact ne_of_mem_of_not_mem hc har
  · exact fun c hc => hprev c (by simp [hc]) (ne_of_mem_of_not_mem hc hbr)

/-- The cell x between a and b is linked out: a and b point at each other. -/
theorem Linked.unlink (h : Linked next prev (l ++ a :: x :: b :: r))
    (hnodup : (l ++ a :: b :: r).Nodup) (hab : next' a = some b) (hba : prev' b = some a)
    (hnext : ∀ c ∈ l ++ b :: r, c ≠ a → next' c = next c)
    (hprev : ∀ c ∈ l ++ a :: r, c ≠ b → prev' c = prev c) :
    Linked next' prev' (l ++ a :: b :: r) := by
  have hb : Linked next prev ((l ++ [a,x]) ++ b :: r) := by simpa using h
  obtain ⟨hl,hr⟩ := h.ends hb hnodup hnext hprev
  exact List.isChain_append_cons_cons.mpr ⟨hl,⟨hab,hba⟩,hr⟩

/-- A new cell x is linked in between a and b. -/
theorem Linked.link (h : Linked next prev (l ++ a :: b :: r)) (hnodup : (l ++ a :: b :: r).Nodup)
    (hax : next' a = some x) (hxa : prev' x = some a) (hxb : next' x = some b)
    (hbx : prev' b = some x) (hnext : ∀ c ∈ l ++ b :: r, c ≠ a → next' c = next c)
    (hprev : ∀ c ∈ l ++ a :: r, c ≠ b → prev' c = prev c) :
    Linked next' prev' (l ++ a :: x :: b :: r) := by
  have hb : Linked next prev ((l ++ [a]) ++ b :: r) := by simpa using h
  obtain ⟨hl,hr⟩ := h.ends hb hnodup hnext hprev
  exact List.isChain_append_cons_cons.mpr ⟨hl,⟨hax,hxa⟩,List.isChain_cons_cons.mpr ⟨⟨hxb,hbx⟩,hr⟩⟩

/-- Following the links from the first cell visits them all, up to one that points nowhere. -/
theorem Linked.path (h : Linked next prev (l ++ [a])) (hend : next a = none) :
    LinkedPath.Path next (l ++ [a]).head? (l ++ [a]) none := by
  induction l with
  | nil => exact ⟨rfl,hend⟩
  | cons b l ih =>
    refine ⟨rfl,?_⟩
    cases l with
    | nil =>
      obtain ⟨⟨hba,-⟩,-⟩ := List.isChain_cons_cons.mp h
      exact hba ▸ ⟨rfl,hend⟩
    | cons c l =>
      obtain ⟨⟨hbc,-⟩,hrest⟩ := List.isChain_cons_cons.mp h
      rw [hbc]
      exact ih hrest

/-- Read from the end, a list is linked the other way round. -/
theorem Linked.reverse (h : Linked next prev l) : Linked prev next l.reverse := by
  rw [Linked, List.isChain_reverse]
  exact h.imp fun _ _ hab => ⟨hab.2,hab.1⟩

end Links

end JhCommon.DoublyLinked
