import Mathlib.Tactic

/-! Byte windows of a ring: a memory of N cells read from some slot for some length, going back
to cell 0 past the last one. Start positions may rest at N, one past the end. -/
namespace JhCommon.RingMemory

variable {β : Type*}

/-- The cell a position denotes; positions stay below 2N. -/
def slot (N i : ℕ) : ℕ := if i < N then i else i-N

def load (mem : ℕ → β) (p n : ℕ) : List β := (List.range n).map (fun k => mem (p+k))

def store (mem : ℕ → β) (p : ℕ) (bs : List β) : ℕ → β := fun i =>
  if h : p ≤ i ∧ i-p < bs.length then bs[i-p] else mem i

def window (mem : ℕ → β) (N r n : ℕ) : List β := (List.range n).map (fun k => mem (slot N (r+k)))

@[simp] theorem length_load (mem : ℕ → β) (p n : ℕ) : (load mem p n).length = n := by
  simp [load]

@[simp] theorem length_window (mem : ℕ → β) (N r n : ℕ) : (window mem N r n).length = n := by
  simp [window]

@[simp] theorem load_zero (mem : ℕ → β) (p : ℕ) : load mem p 0 = [] := rfl

@[simp] theorem store_nil (mem : ℕ → β) (p : ℕ) : store mem p [] = mem := by
  funext i
  simp [store]

theorem slot_lt {N i : ℕ} (h : i < 2*N) : slot N i < N := by
  unfold slot
  split <;> omega

/-- The pointer is moved on by one cell, and back to cell 0 behind the last one. -/
theorem slot_succ {N i : ℕ} (h : i+1 < 2*N) :
    (if slot N i+1 = N then 0 else slot N i+1) = slot N (i+1) := by
  unfold slot
  split_ifs <;> omega

theorem window_congr {mem mem' : ℕ → β} {N N' r r' n : ℕ}
    (h : ∀ k, k < n → mem (slot N (r+k)) = mem' (slot N' (r'+k))) :
    window mem N r n = window mem' N' r' n := by
  apply List.map_congr_left
  intro k hk
  exact h k (List.mem_range.mp hk)

/-- A window that does not reach past the end is a plain load. -/
theorem window_eq_load (mem : ℕ → β) {N r n : ℕ} (h : r+n ≤ N) :
    window mem N r n = load mem r n := by
  apply List.map_congr_left
  intro k hk
  have hk := List.mem_range.mp hk
  rw [slot, if_pos (by omega)]

/-- A window that starts past the end is a load from the beginning. -/
theorem window_eq_load_wrapped (mem : ℕ → β) {N r n : ℕ} (h : N ≤ r) :
    window mem N r n = load mem (r-N) n := by
  apply List.map_congr_left
  intro k _
  rw [slot, if_neg (by omega), show r+k-N = r-N+k by omega]

theorem window_add (mem : ℕ → β) (N r a b : ℕ) :
    window mem N r (a+b) = window mem N r a ++ window mem N (r+a) b := by
  simp only [window, List.range_add, List.map_append, List.map_map, Function.comp_def, add_assoc]

/-- A start position past the end reads the same cells as the one N before it. -/
theorem window_add_size (mem : ℕ → β) {N r n : ℕ} (h : r+n ≤ N) :
    window mem N (r+N) n = window mem N r n := by
  rw [window_eq_load mem h, window_eq_load_wrapped mem (Nat.le_add_left N r), Nat.add_sub_cancel]

theorem window_take (mem : ℕ → β) (N r : ℕ) {k n : ℕ} (h : k ≤ n) :
    (window mem N r n).take k = window mem N r k := by
  obtain ⟨b,rfl⟩ := Nat.exists_eq_add_of_le h
  rw [window_add, List.take_append_of_le_length (by simp), List.take_of_length_le (by simp)]

theorem window_drop (mem : ℕ → β) (N r : ℕ) {k n : ℕ} (h : k ≤ n) :
    (window mem N r n).drop k = window mem N (r+k) (n-k) := by
  obtain ⟨b,rfl⟩ := Nat.exists_eq_add_of_le h
  rw [window_add, List.drop_append_of_le_length (by simp), List.drop_of_length_le (by simp),
    List.nil_append, Nat.add_sub_cancel_left]

theorem getElem_window (mem : ℕ → β) (N r n k : ℕ) (h : k < (window mem N r n).length) :
    (window mem N r n)[k] = mem (slot N (r+k)) := by
  simp [window]

theorem store_of_lt (mem : ℕ → β) (bs : List β) {p i : ℕ} (h : i < p) : store mem p bs i = mem i := by
  rw [store, dif_neg (by omega)]

theorem store_of_ge (mem : ℕ → β) (bs : List β) {p i : ℕ} (h : p+bs.length ≤ i) :
    store mem p bs i = mem i := by
  rw [store, dif_neg (by omega)]

theorem store_add (mem : ℕ → β) (bs : List β) (p : ℕ) {j : ℕ} (h : j < bs.length) :
    store mem p bs (p+j) = bs[j] := by
  rw [store, dif_pos (by omega)]
  congr 1
  omega

/-- Storing what is there changes nothing. -/
@[simp] theorem store_self (mem : ℕ → β) (p : ℕ) : store mem p [mem p] = mem := by
  funext i
  unfold store
  split
  · rename_i hi
    have hlt : i-p < 1 := hi.2
    have hip : i = p := by omega
    simp [hip]
  · rfl

theorem store_append (mem : ℕ → β) (p : ℕ) (as bs : List β) :
    store (store mem p as) (p+as.length) bs = store mem p (as ++ bs) := by
  funext i
  by_cases h : p+as.length ≤ i ∧ i < p+as.length+bs.length
  · obtain ⟨j,rfl⟩ := Nat.exists_eq_add_of_le h.1
    have hj : j < bs.length := by omega
    rw [store_add _ bs _ hj, Nat.add_assoc, store_add _ _ _ (by simp; omega),
      List.getElem_append_right (by omega)]
    simp
  · unfold store
    simp only [List.length_append]
    split_ifs with h₁ h₂ h₃
    any_goals omega
    · rw [List.getElem_append_left]
    · rfl

theorem load_store (mem : ℕ → β) (p : ℕ) (bs : List β) : load (store mem p bs) p bs.length = bs := by
  apply List.ext_getElem (by simp)
  intro j hj hj'
  simp only [load, List.getElem_map, List.getElem_range]
  exact store_add mem bs p hj'

theorem load_add (mem : ℕ → β) (p a b : ℕ) :
    load mem p (a+b) = load mem p a ++ load mem (p+a) b := by
  simp only [load, List.range_add, List.map_append, List.map_map, Function.comp_def, add_assoc]

theorem load_congr {mem mem' : ℕ → β} {p n : ℕ} (h : ∀ i, p ≤ i → i < p+n → mem i = mem' i) :
    load mem p n = load mem' p n := by
  apply List.map_congr_left
  intro k hk
  exact h (p+k) (Nat.le_add_right p k) (Nat.add_lt_add_left (List.mem_range.mp hk) p)

theorem load_store_before (mem : ℕ → β) (bs : List β) {p q n : ℕ} (h : q+n ≤ p) :
    load (store mem p bs) q n = load mem q n :=
  load_congr fun _ _ hi => store_of_lt mem bs (hi.trans_le h)

theorem load_store_behind (mem : ℕ → β) (bs : List β) {p q n : ℕ} (h : p+bs.length ≤ q) :
    load (store mem p bs) q n = load mem q n :=
  load_congr fun _ hi _ => store_of_ge mem bs (h.trans hi)

/-- Two stores that do not overlap can be made in either order. -/
theorem store_comm (mem : ℕ → β) (as bs : List β) {p q : ℕ} (h : p+as.length ≤ q) :
    store (store mem p as) q bs = store (store mem q bs) p as := by
  funext i
  unfold store
  split_ifs with hb ha
  · omega
  · rfl
  · rfl
  · rfl

/-- Storing at the slot just behind a window appends to the window, as long as the stored bytes
reach neither the end of the memory nor the start of the window. -/
theorem window_store (mem : ℕ → β) {N r n p : ℕ} (bs : List β) (hp : p = r+n ∨ p+N = r+n)
    (hfit : p+bs.length ≤ N) (hcap : n+bs.length ≤ N) :
    window (store mem p bs) N r (n+bs.length) = window mem N r n ++ bs := by
  rw [window_add]
  congr 1
  · apply window_congr
    intro k hk
    -- The kept positions are before the stored range, or behind it after the wrap.
    by_cases h : slot N (r+k) < p
    · exact store_of_lt mem bs h
    · apply store_of_ge
      revert h
      unfold slot
      split <;> omega
  · apply List.ext_getElem (by simp)
    intro j hj hj'
    rw [getElem_window]
    by_cases h0 : r+n < N ∨ p+N = r+n
    · have hs : slot N (r+n+j) = p+j := by
        unfold slot
        split <;> omega
      rw [hs, store_add mem bs p hj']
    · omega

end JhCommon.RingMemory
