import JhCommon.StringSharing

/-! Which calls on a string variable return: sizes that fit an int, and a source that is not
freed before it is read. -/
namespace JhCommon
open RingMemory Word32

/-- Sizes are passed as ints, and there is room for the null character. -/
structure Rep.Ok (p : Rep) : Prop where
  length_lt : p.mLength < p.mCapacity
  capacity_lt : p.mCapacity < 2^31

/-- The capacity that reserve leaves. -/
def newCapacity (capacity res : ℕ) : ℕ := if res ≤ capacity then capacity else max res (2*capacity)

theorem le_newCapacity (capacity res : ℕ) : res ≤ newCapacity capacity res := by
  unfold newCapacity
  split_ifs <;> omega

theorem newCapacity_ge (capacity res : ℕ) : capacity ≤ newCapacity capacity res := by
  unfold newCapacity
  split_ifs <;> omega

namespace Rep
variable {p p' : Rep}

theorem Ok.size_eq (hp : p.Ok) : p.size = p.mCapacity := by
  have := hp.length_lt
  rw [size, if_neg (by omega)]

theorem new_returns (raw : ℕ → UInt8) {n : ℕ} (hn : n < 2^31) :
    Rep.new raw n = .ok { mCapacity := n, mLength := 0, mData := store raw 0 [0] } := by
  unfold new
  rw [int32_of_lt hn, if_neg (by omega), Int.toNat_natCast]

/-- The capacity is passed as an int, so 32 bits of it. -/
theorem new_mod (raw : ℕ → UInt8) (n : ℕ) : Rep.new raw n = Rep.new raw (n % 2^32) := by
  unfold new
  rw [int32_mod]

theorem new_throws (raw : ℕ → UInt8) {n : ℕ} (hn : 2^31 ≤ n % 2^32) :
    Rep.new raw n = .error .lengthError := by
  rw [new_mod, new, if_pos (int32_neg (Nat.mod_lt n (by norm_num)) hn)]

theorem setAt_returns (hp : p.Ok) {i : ℕ} {cs : List UInt8} (hi : i+cs.length ≤ p.mCapacity) :
    p.setAt i cs = .ok { p with mData := store p.mData i cs } := by
  apply setAt_eq_ok.mpr
  rw [hp.size_eq]
  exact ⟨hi,rfl⟩

theorem terminate_returns (hcap : p.mCapacity < 2^31) {n : ℕ} (hn : n < p.mCapacity) :
    ∃ p', p.terminate n = .ok p' ∧ p'.mLength = n ∧ p'.mCapacity = p.mCapacity := by
  have hok : Rep.Ok { p with mLength := n } := ⟨hn,hcap⟩
  exact ⟨_, setAt_returns hok hn, rfl, rfl⟩

/-- Write characters behind or into the string and end it at n. -/
theorem write_returns (hp : p.Ok) {i n : ℕ} {cs : List UInt8} (hi : i+cs.length ≤ p.mCapacity)
    (hn : n < p.mCapacity) : ∃ p', (do let q ← p.setAt i cs; q.terminate n) = Except.ok p' ∧
      p'.mLength = n ∧ p'.mCapacity = p.mCapacity := by
  rw [setAt_returns hp hi, ok_bind]
  exact terminate_returns (p := { p with mData := store p.mData i cs }) hp.capacity_lt hn

theorem assign_returns {heap : RefHeap Rep} {s : CharPtr} {n : ℕ} {cs : List UInt8}
    (hcap : p.mCapacity < 2^31) (hn : n < p.mCapacity) (hcs : s.read heap n = .ok cs) :
    ∃ p', p.assign heap s n = .ok p' ∧ p'.mLength = n ∧ p'.mCapacity = p.mCapacity := by
  have hok : Rep.Ok { p with mLength := 0 } := ⟨by show 0 < p.mCapacity; omega,hcap⟩
  have hlen := CharPtr.length_read hcs
  unfold assign
  simp only [ge_iff_le, Nat.not_le.mpr hn, if_false, hcs, ok_bind]
  have hset : p.setAt 0 cs = .ok { p with mData := store p.mData 0 cs } := by
    apply setAt_eq_ok.mpr
    have hsize : p.size = p.mCapacity := hok.size_eq
    rw [hsize]
    exact ⟨by omega,rfl⟩
  rw [hset, ok_bind]
  exact terminate_returns (p := { p with mData := store p.mData 0 cs }) hcap hn

theorem getAt_returns (hp : p.Ok) {i : ℕ} (hi : i < p.mCapacity) :
    p.getAt i = .ok (p.mData i) := by
  rw [getAt, hp.size_eq, if_pos hi]

/-- The loop of insert stays inside the buffer, and moves the characters as they were. -/
theorem shiftUp_returns {pos1 n k : ℕ} (hp : p.Ok) (hk : pos1+k+n ≤ p.mCapacity) :
    p.shiftUp pos1 n k =
      .ok { p with mData := store p.mData (pos1+n) (load p.mData pos1 k) } := by
  induction k generalizing p with
  | zero => rw [shiftUp, load_zero, store_nil]
  | succ k ih =>
    have hcap := hp.capacity_lt
    have hadd : add32 (pos1+k) n = pos1+n+k := by
      rw [add32_of_lt (by omega)]
      omega
    have hset : p.setAt (pos1+n+k) [p.mData (pos1+k)] =
        .ok { p with mData := store p.mData (pos1+n+k) [p.mData (pos1+k)] } := by
      apply setAt_returns hp
      rw [List.length_singleton]
      omega
    have hrest := ih (p := { p with mData := store p.mData (pos1+n+k) [p.mData (pos1+k)] })
      ⟨hp.length_lt,hp.capacity_lt⟩ (by show pos1+k+n ≤ p.mCapacity; omega)
    -- what is still to be moved lies before the cell just written
    have hload : load (store p.mData (pos1+n+k) [p.mData (pos1+k)]) pos1 k = load p.mData pos1 k :=
      load_store_before _ _ (by omega)
    rw [shiftUp, getAt_returns hp (by omega), ok_bind, hadd, hset, ok_bind, hrest, load_add]
    simp only [hload]
    congr 2
    rw [← store_comm _ _ _ (by rw [length_load]), ← store_append, length_load]
    rfl

/-- The loop of erase stays inside the buffer, and moves the characters as they were. -/
theorem shiftDown_returns {n k i : ℕ} (hp : p.Ok) (hn : n ≤ i) (hk : i+k ≤ p.mCapacity) :
    p.shiftDown n k i = .ok { p with mData := store p.mData (i-n) (load p.mData i k) } := by
  induction k generalizing p i with
  | zero => rw [shiftDown, load_zero, store_nil]
  | succ k ih =>
    have hcap := hp.capacity_lt
    have hsub : sub32 i n = i-n := sub32_of_le (by omega) hn
    have hset : p.setAt (i-n) [p.mData i] =
        .ok { p with mData := store p.mData (i-n) [p.mData i] } := by
      apply setAt_returns hp
      rw [List.length_singleton]
      omega
    have hrest := ih (p := { p with mData := store p.mData (i-n) [p.mData i] }) (i := i+1)
      ⟨hp.length_lt,hp.capacity_lt⟩ (by omega) (by show i+1+k ≤ p.mCapacity; omega)
    -- what is still to be moved lies behind the cell just written
    have hload : load (store p.mData (i-n) [p.mData i]) (i+1) k = load p.mData (i+1) k :=
      load_store_behind _ _ (by rw [List.length_singleton]; omega)
    have hone : load p.mData i 1 = [p.mData i] := rfl
    rw [shiftDown, getAt_returns hp (by omega), ok_bind, hsub, hset, ok_bind, hrest,
      Nat.add_comm k 1, load_add, hone]
    simp only [hload]
    congr 2
    rw [← store_append, List.length_singleton, Nat.sub_add_comm hn]

theorem setAt_capacity {i : ℕ} {cs : List UInt8} (h : p.setAt i cs = .ok p') :
    p'.mCapacity = p.mCapacity := by
  rw [(setAt_eq_ok.mp h).2]

theorem terminate_capacity {n : ℕ} (h : p.terminate n = .ok p') : p'.mCapacity = p.mCapacity :=
  setAt_capacity (p := { p with mLength := n }) h

theorem shiftUp_capacity {pos1 n k : ℕ} (h : p.shiftUp pos1 n k = .ok p') :
    p'.mCapacity = p.mCapacity := by
  induction k generalizing p with
  | zero => rw [Except.ok.inj h]
  | succ k ih =>
    obtain ⟨c,-,h⟩ := bind_eq_ok.mp h
    obtain ⟨q,hq,h⟩ := bind_eq_ok.mp h
    exact (ih h).trans (setAt_capacity hq)

theorem shiftDown_capacity {n k i : ℕ} (h : p.shiftDown n k i = .ok p') :
    p'.mCapacity = p.mCapacity := by
  induction k generalizing p i with
  | zero => rw [Except.ok.inj h]
  | succ k ih =>
    obtain ⟨c,-,h⟩ := bind_eq_ok.mp h
    obtain ⟨q,hq,h⟩ := bind_eq_ok.mp h
    exact (ih h).trans (setAt_capacity hq)

/-- The length that erase leaves. -/
def erasedLength (length pos n : ℕ) : ℕ :=
  if pos ≥ length then length
  else if n = npos ∨ pos+n ≥ length then pos
  else length-n

end Rep

namespace Strings
variable {h h' : Strings} {v : ℕ} {p : Rep}

/-- A part that reaches past the end is cut there, and nothing is moved. -/
theorem eraseRep_past {pos n : ℕ} (hp : p.Ok) (hpos : pos < p.mLength) (hn : n ≠ npos)
    (hlt : pos+n < 2^32) (hpast : p.mLength < pos+n) : eraseRep pos n p = p.terminate pos := by
  have hlen := hp.length_lt
  have hcap := hp.capacity_lt
  have hrest : add32 pos (p.mLength-pos) = p.mLength := by
    rw [add32_of_lt (by omega)]
    omega
  have hcut : sub32 p.mLength (p.mLength-pos) = pos := by
    rw [sub32_of_le (by omega) (by omega)]
    omega
  have hall : ¬(n = npos ∨ add32 pos n = p.mLength) := by
    rw [add32_of_lt hlt]
    omega
  unfold eraseRep
  rw [if_neg (Nat.not_le.mpr hpos), if_neg hall, add32_of_lt hlt]
  simp only [gt_iff_lt, hpast, if_true]
  rw [hrest, Nat.sub_self, Rep.shiftDown, ok_bind, hcut]

theorem eraseRep_inside {pos n : ℕ} (hp : p.Ok) (hpast : pos+n < p.mLength) :
    eraseRep pos n p =
      { p with mData := store p.mData pos (load p.mData (pos+n) (p.mLength-(pos+n))) }.terminate
        (p.mLength-n) := by
  have hlen := hp.length_lt
  have hcap := hp.capacity_lt
  have hsum : add32 pos n = pos+n := add32_of_lt (by omega)
  have hsub : sub32 p.mLength n = p.mLength-n := sub32_of_le (by omega) (by omega)
  have hall : ¬(n = npos ∨ pos+n = p.mLength) := by
    unfold npos
    omega
  have hshift := Rep.shiftDown_returns hp (Nat.le_add_left n pos)
    (show pos+n+(p.mLength-(pos+n)) ≤ p.mCapacity by omega)
  rw [Nat.add_sub_cancel] at hshift
  unfold eraseRep
  rw [if_neg (by omega), hsum, if_neg hall]
  simp only [gt_iff_lt, Nat.not_lt.mpr hpast.le, if_false]
  rw [hsum, hshift, ok_bind]
  simp only [hsub]

theorem eraseRep_returns {pos n : ℕ} (hp : p.Ok) (hn : p.mLength ≤ pos ∨ n = npos ∨ pos+n < 2^32) :
    ∃ p', eraseRep pos n p = .ok p' ∧ p'.mLength = Rep.erasedLength p.mLength pos n ∧
      p'.mCapacity = p.mCapacity := by
  have hlen := hp.length_lt
  have hcap := hp.capacity_lt
  unfold Rep.erasedLength
  by_cases hpos : pos ≥ p.mLength
  · rw [if_pos hpos]
    refine ⟨p, ?_, rfl, rfl⟩
    rw [eraseRep, if_pos hpos]
  have hlt : pos < p.mLength := Nat.not_le.mp hpos
  have htrunc := Rep.terminate_returns hcap (n := pos) (by omega)
  rw [if_neg hpos]
  -- the loop runs only where the sum is not the length
  by_cases hall : n = npos ∨ add32 pos n = p.mLength
  · have hend : n = npos ∨ pos+n ≥ p.mLength := by
      rcases hall with hall | hall
      · exact .inl hall
      · refine (hn.resolve_left (by omega)).imp_right fun hn => ?_
        rw [add32_of_lt hn] at hall
        omega
    rw [if_pos hend, eraseRep, if_neg hpos, if_pos hall]
    exact htrunc
  · rw [not_or] at hall
    have hsum := (hn.resolve_left (by omega)).resolve_left hall.1
    rw [add32_of_lt hsum] at hall
    by_cases hpast : p.mLength < pos+n
    · rw [if_pos (.inr hpast.le), eraseRep_past hp hlt hall.1 hsum hpast]
      exact htrunc
    · have hin : pos+n < p.mLength := by omega
      have hend : ¬(n = npos ∨ pos+n ≥ p.mLength) := by
        rw [not_or]
        exact ⟨hall.1,Nat.not_le.mpr hin⟩
      rw [if_neg hend, eraseRep_inside hp hin]
      let moved := { p with mData := store p.mData pos (load p.mData (pos+n) (p.mLength-(pos+n))) }
      exact Rep.terminate_returns (p := moved) hcap (by show p.mLength-n < p.mCapacity; omega)

theorem eraseRep_capacity {pos n : ℕ} {p' : Rep} (he : eraseRep pos n p = .ok p') :
    p'.mCapacity = p.mCapacity := by
  unfold eraseRep at he
  split at he
  · rw [Except.ok.inj he]
  · split at he
    · exact Rep.terminate_capacity he
    · obtain ⟨q,hq,he⟩ := bind_eq_ok.mp he
      exact (Rep.terminate_capacity he).trans (Rep.shiftDown_capacity hq)

/-- The counts are right and every string is well formed. -/
structure Ok (h : Strings) : Prop where
  sound : h.heap.Sound
  rep : ∀ v p, h.heap.get v = some p → p.Ok

/-- The call returns, and leaves the variable with a Rep of that length and capacity. -/
def Yields (x : Exec Strings) (v length capacity : ℕ) : Prop :=
  ∃ h' p, x = .ok h' ∧ h'.Ok ∧ h'.heap.get v = some p ∧ p.mLength = length ∧ p.mCapacity = capacity

theorem Yields.bind {x : Exec Strings} {f : Strings → Exec Strings} {l c l' c' : ℕ}
    (hx : Yields x v l c) (hf : ∀ h' p, x = .ok h' → h'.Ok → h'.heap.get v = some p →
      p.mLength = l → p.mCapacity = c → Yields (f h') v l' c') : Yields (x >>= f) v l' c' := by
  obtain ⟨h',p,rfl,hok,hp,hl,hc⟩ := hx
  exact hf h' p rfl hok hp hl hc

theorem lt_of_get (hp : h.heap.get v = some p) : v < h.heap.ptrs.length := by
  obtain ⟨r,c,hr,-⟩ := RefHeap.get_eq_some.mp hp
  exact RefHeap.held_lt hr

theorem adopt_yields (hok : h.Ok) (hv : v < h.heap.ptrs.length) (hp : p.Ok) :
    Yields (.ok (h.adopt v p)) v p.mLength p.mCapacity := by
  refine ⟨h.adopt v p, p, rfl, ⟨hok.sound.adopt hv p, ?_⟩, hok.sound.get_adopt hv p, rfl, rfl⟩
  intro w q hq
  by_cases hw : w = v
  · rw [hw] at hq
    rw [← Option.some.inj ((hok.sound.get_adopt hv p).symm.trans hq)]
    exact hp
  · exact hok.rep w q ((hok.sound.get_adopt_of_ne hv hw p).symm.trans hq)

theorem edit_yields {f : Rep → Exec Rep} (hok : h.Ok) (hp : h.heap.get v = some p) {l c : ℕ}
    (hf : ∃ p', f p = .ok p' ∧ p'.mLength = l ∧ p'.mCapacity = c) (hlc : l < c) (hc : c < 2^31) :
    Yields (h.edit v f) v l c := by
  obtain ⟨r,cell,hr,rfl⟩ := exists_rep hp
  obtain ⟨p',hp',hl,hcap⟩ := hf
  have hr' := rep_eq_ok.mp hr
  have hget := hok.sound.get_put hr'.1 p'
  refine ⟨{ h with heap := h.heap.put r p' }, p', ?_, ⟨hok.sound.put p', ?_⟩, hget, hl, hcap⟩
  · simp only [edit, hr, hp', ok_bind]
  · intro w q hq
    by_cases hw : h.heap.held w = some r
    · rw [← Option.some.inj ((hok.sound.get_put hw p').symm.trans hq)]
      exact ⟨by omega,by omega⟩
    · exact hok.rep w q ((RefHeap.get_put_of_held_ne hw p').symm.trans hq)

/-- A copy of the Rep at r into a new one that is large enough. -/
theorem copy_yields (hok : h.Ok) {r : ℕ} {c : RefCount Rep} (hr : h.rep v = .ok (r,c)) {n : ℕ}
    (hlen : c.obj.mLength < n) (hn : n < 2^31) : Yields (do
      let nr ← Rep.new (h.raw h.heap.fresh) n
      let nr ← nr.assign h.heap (.inRep r 0) c.obj.mLength
      .ok (h.adopt v nr)) v c.obj.mLength n := by
  have hc := hok.rep v _ (get_of_rep hr)
  have hr' := rep_eq_ok.mp hr
  have hcs : ∃ cs, (CharPtr.inRep r 0).read h.heap c.obj.mLength = .ok cs := by
    unfold CharPtr.read
    by_cases h0 : c.obj.mLength = 0
    · exact ⟨[],by rw [if_pos h0]⟩
    · refine ⟨load c.obj.mData 0 c.obj.mLength, ?_⟩
      have hlt := hc.length_lt
      simp only [if_neg h0, RefHeap.deref, hr'.2, ok_bind, hc.size_eq]
      rw [if_pos (by omega)]
  obtain ⟨cs,hcs⟩ := hcs
  obtain ⟨q,hq,hqlen,hqcap⟩ := Rep.assign_returns
    (p := { mCapacity := n, mLength := 0, mData := store (h.raw h.heap.fresh) 0 [0] }) hn hlen hcs
  rw [Rep.new_returns _ hn, ok_bind, hq, ok_bind]
  have hadopt := adopt_yields hok (RefHeap.held_lt hr'.1) (p := q)
    ⟨by rw [hqlen, hqcap]; exact hlen,by rw [hqcap]; exact hn⟩
  rw [hqlen, hqcap] at hadopt
  exact hadopt

theorem same_yields (hok : h.Ok) (hp : h.heap.get v = some p) :
    Yields (.ok h) v p.mLength p.mCapacity :=
  ⟨h,p,rfl,hok,hp,rfl,rfl⟩

theorem copyOnWrite_yields (hok : h.Ok) (hp : h.heap.get v = some p) :
    Yields (h.copyOnWrite v) v p.mLength p.mCapacity := by
  obtain ⟨r,c,hr,rfl⟩ := exists_rep hp
  have hc := hok.rep v _ hp
  simp only [copyOnWrite, hr, ok_bind]
  split_ifs with hshared
  · exact copy_yields hok hr hc.length_lt hc.capacity_lt
  · exact same_yields hok hp

/-- Growth, up to the new Rep. -/
theorem reserve_grows {r n : ℕ} {c : RefCount Rep} (hr : h.rep v = .ok (r,c))
    (hcap : c.obj.mCapacity < 2^31) (hn : c.obj.mCapacity < n) : h.reserve v n = (do
      let nr ← Rep.new (h.raw h.heap.fresh) (newCapacity c.obj.mCapacity n)
      let nr ← nr.assign h.heap (.inRep r 0) c.obj.mLength
      .ok (h.adopt v nr)) := by
  have hmax : (if n < c.obj.mCapacity+c.obj.mCapacity then c.obj.mCapacity+c.obj.mCapacity else n) =
      newCapacity c.obj.mCapacity n := by
    have hnew : newCapacity c.obj.mCapacity n = max n (2*c.obj.mCapacity) := if_neg (by omega)
    rw [hnew]
    split_ifs <;> omega
  simp only [reserve, hr, ok_bind]
  rw [if_pos (by omega), add32_of_lt (by omega), hmax]

theorem reserve_yields (hok : h.Ok) (hp : h.heap.get v = some p) {n : ℕ}
    (hn : newCapacity p.mCapacity n < 2^31) :
    Yields (h.reserve v n) v p.mLength (newCapacity p.mCapacity n) := by
  obtain ⟨r,c,hr,rfl⟩ := exists_rep hp
  have hc := hok.rep v _ hp
  by_cases hroom : n ≤ c.obj.mCapacity
  · have hsame : newCapacity c.obj.mCapacity n = c.obj.mCapacity := if_pos hroom
    simp only [reserve, hr, ok_bind]
    rw [if_neg (by omega), hsame]
    exact same_yields hok hp
  · have hge := newCapacity_ge c.obj.mCapacity n
    rw [reserve_grows hr hc.capacity_lt (by omega)]
    exact copy_yields hok hr (hc.length_lt.trans_le hge) hn

/-- The Rep that a source points into is still there, with its buffer. -/
def Retained (s : CharPtr) (h h' : Strings) : Prop :=
  ∀ r pos, s = .inRep r pos → ∀ c, h.heap.objs r = some c →
    ∃ c', h'.heap.objs r = some c' ∧ c'.obj.mCapacity = c.obj.mCapacity

/-- Another variable than v holds the Rep that a source points into, if it points into one. -/
def HeldElsewhere (s : CharPtr) (h : Strings) (v : ℕ) : Prop :=
  ∀ r pos, s = .inRep r pos → ∃ w, w ≠ v ∧ h.heap.held w = some r

theorem Retained.refl (s : CharPtr) (h : Strings) : Retained s h h := fun _ _ _ c hc => ⟨c,hc,rfl⟩

theorem Retained.trans {s : CharPtr} {h'' : Strings} (h₁ : Retained s h h')
    (h₂ : Retained s h' h'') : Retained s h h'' := by
  intro r pos hs c hc
  obtain ⟨c',hc',hcap'⟩ := h₁ r pos hs c hc
  obtain ⟨c'',hc'',hcap''⟩ := h₂ r pos hs c' hc'
  exact ⟨c'',hc'',hcap''.trans hcap'⟩

/-- What could be read from the source still can. -/
theorem Retained.read {s : CharPtr} (hr : Retained s h h') {k : ℕ} {cs : List UInt8}
    (hcs : s.read h.heap k = .ok cs) : ∃ cs', s.read h'.heap k = .ok cs' := by
  cases s with
  | literal s => exact ⟨cs,hcs⟩
  | inRep r pos =>
    unfold CharPtr.read at hcs ⊢
    by_cases hk : k = 0
    · exact ⟨[],if_pos hk⟩
    · rw [if_neg hk] at hcs ⊢
      obtain ⟨c,hc,hcs⟩ := bind_eq_ok.mp hcs
      have hobj : h.heap.objs r = some c := by
        unfold RefHeap.deref at hc
        split at hc
        · cases hc
        · rw [← Except.ok.inj hc]
          assumption
      obtain ⟨c',hc',hcap⟩ := hr r pos rfl c hobj
      have hsize : c'.obj.size = c.obj.size := by
        rw [Rep.size, Rep.size, hcap]
      split_ifs at hcs with hin
      simp only [RefHeap.deref, hc', ok_bind, hsize, if_pos hin]
      exact ⟨_,rfl⟩

theorem Keeps.heldElsewhere {s : CharPtr} (hk : Keeps v h h') (hs : HeldElsewhere s h v) :
    HeldElsewhere s h' v := by
  intro r pos hr
  obtain ⟨w,hw,hwr⟩ := hs r pos hr
  exact ⟨w,hw,(hk.held w hw).trans hwr⟩

theorem Keeps.retained {s : CharPtr} (hk : Keeps v h h') (hs : HeldElsewhere s h v) :
    Retained s h h' := by
  intro r pos hr c hc
  obtain ⟨w,hw,hwr⟩ := hs r pos hr
  obtain ⟨c',hc',-⟩ := (hk.sound.but none).exists_obj ((hk.held w hw).trans hwr)
  refine ⟨c',hc',?_⟩
  have hview := hk.view w hw
  rw [RefHeap.get, RefHeap.get, hk.held w hw, hwr, Option.bind_some, Option.bind_some, hc, hc'] at hview
  exact congrArg Prod.fst (Option.some.inj hview)

/-- copyOnWrite leaves a Rep only to others that share it. -/
theorem copyOnWrite_retained (s : CharPtr) (hs : h.heap.Sound) (he : h.copyOnWrite v = .ok h') :
    Retained s h h' := by
  intro r pos hr c hc
  by_cases hother : HeldElsewhere s h v
  · exact (copyOnWrite_keeps hs he).1.retained hother r pos hr c hc
  · obtain ⟨⟨r₀,c₀⟩,hrep,he⟩ := bind_eq_ok.mp he
    have hrep' := rep_eq_ok.mp hrep
    by_cases hshared : c₀.mRefCount > 1
    · exfalso
      apply hother
      intro r' pos' hr'
      obtain ⟨rfl,-⟩ : r = r' ∧ pos = pos' := by
        rw [hr] at hr'
        exact CharPtr.inRep.inj hr'
      obtain ⟨w,hw⟩ := List.getElem?_of_mem (hs.held r (by rw [hc]; rfl) (by simp))
      have hw := RefHeap.held_eq_some.mpr hw
      by_cases hwv : w = v
      · rw [hwv] at hw
        obtain rfl : r₀ = r := Option.some.inj (hrep'.1.symm.trans hw)
        exact hs.exists_other hrep'.1 hrep'.2 hshared
      · exact ⟨w,hwv,hw⟩
    · simp only [hshared, if_false] at he
      rw [← Except.ok.inj he]
      exact ⟨c,hc,rfl⟩

theorem reserve_retained {s : CharPtr} {n : ℕ} (hs : h.heap.Sound) (hp : h.heap.get v = some p)
    (he : h.reserve v n = .ok h') (hf : HeldElsewhere s h v ∨ n ≤ p.mCapacity) :
    Retained s h h' := by
  rcases hf with hf | hf
  · exact (reserve_keeps hs he).1.retained hf
  · obtain ⟨r,c,hr,rfl⟩ := exists_rep hp
    simp only [reserve, hr, ok_bind, gt_iff_lt, Nat.not_lt.mpr hf, if_false] at he
    rw [← Except.ok.inj he]
    exact Retained.refl s h

theorem edit_retained (s : CharPtr) {f : Rep → Exec Rep}
    (hf : ∀ p p', f p = .ok p' → p'.mCapacity = p.mCapacity) (he : h.edit v f = .ok h') :
    Retained s h h' := by
  obtain ⟨⟨r,cell⟩,hr,he⟩ := bind_eq_ok.mp he
  obtain ⟨p',hp',he⟩ := bind_eq_ok.mp he
  rw [← Except.ok.inj he]
  intro r' pos _ c hc
  by_cases hr' : r' = r
  · subst hr'
    have hcell : c = cell := Option.some.inj (hc.symm.trans (rep_eq_ok.mp hr).2)
    refine ⟨{ c with obj := p' }, ?_, ?_⟩
    · exact (RefHeap.objs_put_self p').trans (by rw [hc, Option.map_some])
    · rw [hcell]
      exact hf cell.obj p' hp'
  · exact ⟨c,(RefHeap.objs_put_of_ne p' hr').trans hc,rfl⟩

/-- The room a call asks for is a capacity that fits an int. -/
abbrev Room (p : Rep) (n : ℕ) : Prop := newCapacity p.mCapacity n < 2^31

theorem add32_room {k : ℕ} (hroom : Room p (p.mLength+k+1)) :
    add32 (add32 p.mLength k) 1 = p.mLength+k+1 := by
  have := le_newCapacity p.mCapacity (p.mLength+k+1)
  rw [add32_of_lt (show p.mLength+k < 2^32 by omega), add32_of_lt (by omega)]

theorem turns_eq {length pos1 : ℕ} (hlt : length < 2^31) (hpos : pos1 < length) :
    turns length pos1 = length-pos1 := by
  unfold turns
  rw [sub32_of_le (by omega) (by omega), int32_of_lt (by omega), int32_of_lt (by omega)]
  omega

section Calls
variable (hok : h.Ok) (hp : h.heap.get v = some p)
include hok hp

theorem erase_yields {pos n : ℕ} (hn : p.mLength ≤ pos ∨ n = npos ∨ pos+n < 2^32) :
    Yields (h.erase v pos n) v (Rep.erasedLength p.mLength pos n) p.mCapacity := by
  apply (copyOnWrite_yields hok hp).bind
  intro h₁ q _ hok₁ hq hlen hcap
  have hq' := hok₁.rep v q hq
  have hedit := eraseRep_returns hq' (hlen ▸ hn)
  rw [hlen, hcap] at hedit
  apply edit_yields hok₁ hq hedit _ (hcap ▸ hq'.capacity_lt)
  obtain ⟨q',-,hlen',hcap'⟩ := hedit
  have hlt := hq'.length_lt
  rw [hlen, hcap] at hlt
  unfold Rep.erasedLength
  split_ifs <;> omega

/-- Write k characters at i and end the string k further than it ended. -/
theorem fill_yields {i k : ℕ} {cs : List UInt8} (hlen : cs.length = k) (hi : i ≤ p.mLength)
    (hfit : p.mLength+k < p.mCapacity) : Yields (h.edit v fun p => do
      let p ← p.setAt i cs
      p.terminate (add32 p.mLength k)) v (p.mLength+k) p.mCapacity := by
  have hp' := hok.rep v p hp
  have hcap := hp'.capacity_lt
  apply edit_yields hok hp _ hfit hcap
  obtain ⟨q,hq,hql,hqc⟩ := Rep.write_returns hp' (show i+cs.length ≤ p.mCapacity by omega) hfit
  refine ⟨q,?_,hql,hqc⟩
  rw [Rep.setAt_returns hp' (by omega), ok_bind] at hq ⊢
  rw [add32_of_lt (show p.mLength+k < 2^32 by omega)]
  exact hq

theorem openGap_yields {pos1 n : ℕ} (hpos : pos1 < p.mLength) (hroom : Room p (p.mLength+n+1)) :
    Yields (h.openGap v pos1 n) v p.mLength (newCapacity p.mCapacity (p.mLength+n+1)) := by
  apply (copyOnWrite_yields hok hp).bind
  intro h₁ q₁ _ hok₁ hq₁ hlen₁ hcap₁
  rw [length_eq hq₁, ok_bind, hlen₁, add32_room hroom]
  have hres := reserve_yields hok₁ hq₁ (n := p.mLength+n+1) (by rw [hcap₁]; exact hroom)
  rw [hlen₁, hcap₁] at hres
  apply hres.bind
  intro h₂ q₂ _ hok₂ hq₂ hlen₂ hcap₂
  have hle := le_newCapacity p.mCapacity (p.mLength+n+1)
  have hq₂' := hok₂.rep v q₂ hq₂
  have hlt := (hok.rep v p hp).length_lt
  have hcap := (hok.rep v p hp).capacity_lt
  have hfit : pos1+(p.mLength-pos1)+n ≤ q₂.mCapacity := by
    rw [hcap₂]
    omega
  apply edit_yields hok₂ hq₂ _ (by omega) hroom
  rw [hlen₂, turns_eq (by omega) hpos, Rep.shiftUp_returns hq₂' hfit]
  exact ⟨_,rfl,hlen₂,hcap₂⟩

theorem openGap_retained {s : CharPtr} {pos1 n : ℕ} (hroom : Room p (p.mLength+n+1))
    (hf : HeldElsewhere s h v ∨ p.mLength+n+1 ≤ p.mCapacity) (he : h.openGap v pos1 n = .ok h') :
    Retained s h h' := by
  obtain ⟨h₁,q₁,he₁,hok₁,hq₁,hlen₁,hcap₁⟩ := copyOnWrite_yields hok hp
  simp only [openGap, he₁, length_eq hq₁, ok_bind, hlen₁, add32_room hroom] at he
  obtain ⟨h₂,he₂,he₃⟩ := bind_eq_ok.mp he
  have hf₁ : HeldElsewhere s h₁ v ∨ p.mLength+n+1 ≤ q₁.mCapacity := by
    rw [hcap₁]
    exact hf.imp_left (copyOnWrite_keeps hok.sound he₁).1.heldElsewhere
  apply (copyOnWrite_retained s hok.sound he₁).trans
  apply (reserve_retained hok₁.sound hq₁ he₂ hf₁).trans
  exact edit_retained s (fun _ _ hq => Rep.shiftUp_capacity hq) he₃

theorem insertChars_returns {s : CharPtr} {pos1 n k : ℕ} {cs : List UInt8}
    (hk : s.lengthOf h.heap n = .ok k) (hcs : s.read h.heap k = .ok cs)
    (hroom : p.mLength ≤ pos1 ∨ Room p (p.mLength+k+1) ∧
      (HeldElsewhere s h v ∨ p.mLength+k+1 ≤ p.mCapacity)) :
    ∃ l c, Yields (h.insertChars v pos1 s n) v l c := by
  simp only [insertChars, hk, length_eq hp, ok_bind]
  by_cases hpos : pos1 ≥ p.mLength
  · rw [if_pos hpos]
    exact ⟨_,_,same_yields hok hp⟩
  · obtain ⟨hroom,hsrc⟩ := hroom.resolve_left hpos
    rw [if_neg hpos]
    refine ⟨p.mLength+k, newCapacity p.mCapacity (p.mLength+k+1), ?_⟩
    apply (openGap_yields hok hp (Nat.not_le.mp hpos) hroom).bind
    intro h₁ q he₁ hok₁ hq hlen hcap
    obtain ⟨cs',hcs'⟩ := (openGap_retained hok hp hroom hsrc he₁).read hcs
    have hle := le_newCapacity p.mCapacity (p.mLength+k+1)
    rw [hcs', ok_bind, ← hcap, ← hlen]
    exact fill_yields hok₁ hq (CharPtr.length_read hcs') (by omega) (by omega)

theorem insertFill_returns {pos1 n : ℕ} {c : UInt8}
    (hroom : p.mLength ≤ pos1 ∨ Room p (p.mLength+n+1)) :
    ∃ l c', Yields (h.insertFill v pos1 n c) v l c' := by
  simp only [insertFill, length_eq hp, ok_bind]
  by_cases hpos : pos1 ≥ p.mLength
  · rw [if_pos hpos]
    exact ⟨_,_,same_yields hok hp⟩
  · have hroom := hroom.resolve_left hpos
    rw [if_neg hpos]
    refine ⟨p.mLength+n, newCapacity p.mCapacity (p.mLength+n+1), ?_⟩
    apply (openGap_yields hok hp (Nat.not_le.mp hpos) hroom).bind
    intro h₁ q _ hok₁ hq hlen hcap
    have hle := le_newCapacity p.mCapacity (p.mLength+n+1)
    rw [← hcap, ← hlen]
    exact fill_yields hok₁ hq List.length_replicate (by omega) (by omega)

theorem appendChars_returns {s : CharPtr} {n k : ℕ} {cs : List UInt8}
    (hk : s.lengthOf h.heap n = .ok k) (hcs : s.read h.heap k = .ok cs)
    (hroom : Room p (p.mLength+k+1))
    (hsrc : HeldElsewhere s h v ∨ p.mLength+k+1 ≤ p.mCapacity) :
    ∃ l c, Yields (h.appendChars v s n) v l c := by
  simp only [appendChars, hk, length_eq hp, ok_bind, add32_room hroom]
  refine ⟨p.mLength+k, newCapacity p.mCapacity (p.mLength+k+1), ?_⟩
  apply (reserve_yields hok hp hroom).bind
  intro h₁ q he₁ hok₁ hq hlen hcap
  obtain ⟨cs',hcs'⟩ := (reserve_retained hok.sound hp he₁ hsrc).read hcs
  have hle := le_newCapacity p.mCapacity (p.mLength+k+1)
  rw [hcs', ok_bind, ← hcap, ← hlen]
  -- the characters go behind the last one, which is where the length points
  have hfill := fill_yields hok₁ hq (i := q.mLength) (CharPtr.length_read hcs') le_rfl (by omega)
  obtain ⟨r,cell,hr,rfl⟩ := exists_rep hq
  simp only [edit, hr, ok_bind] at hfill ⊢
  exact hfill

theorem appendFill_returns {n : ℕ} {c : UInt8} (hroom : Room p (p.mLength+n+1)) :
    ∃ l c', Yields (h.appendFill v n c) v l c' := by
  simp only [appendFill, length_eq hp, ok_bind, add32_room hroom]
  refine ⟨p.mLength+n, newCapacity p.mCapacity (p.mLength+n+1), ?_⟩
  apply (reserve_yields hok hp hroom).bind
  intro h₁ q _ hok₁ hq hlen hcap
  have hle := le_newCapacity p.mCapacity (p.mLength+n+1)
  rw [← hcap, ← hlen]
  have hfill := fill_yields hok₁ hq (List.length_replicate (n := n) (a := c)) (le_refl q.mLength)
    (by omega)
  obtain ⟨r,cell,hr,rfl⟩ := exists_rep hq
  simp only [edit, hr, ok_bind] at hfill ⊢
  exact hfill

/-- The length that replace reserves, as the source computes it. -/
abbrev replacedLength (p : Rep) (n1 n2 : ℕ) : ℕ := add32 (sub32 p.mLength n1) n2

theorem cutOut_yields {pos1 n1 n2 : ℕ} (hn : n1 = npos ∨ pos1+n1 < 2^32)
    (hroom : Room p (replacedLength p n1 n2)) :
    Yields (h.cutOut v pos1 n1 n2) v (Rep.erasedLength p.mLength pos1 n1)
      (newCapacity p.mCapacity (replacedLength p n1 n2)) := by
  have hle := le_newCapacity p.mCapacity (replacedLength p n1 n2)
  simp only [cutOut, length_eq hp, ok_bind]
  rw [if_pos (show replacedLength p n1 n2 < 2^31 by omega)]
  apply (copyOnWrite_yields hok hp).bind
  intro h₁ q₁ _ hok₁ hq₁ hlen₁ hcap₁
  have hres := reserve_yields hok₁ hq₁ (n := replacedLength p n1 n2) (by rw [hcap₁]; exact hroom)
  rw [hlen₁, hcap₁] at hres
  apply hres.bind
  intro h₂ q₂ _ hok₂ hq₂ hlen₂ hcap₂
  rw [← hcap₂, ← hlen₂]
  exact erase_yields hok₂ hq₂ (.inr hn)

theorem cutOut_retained {s : CharPtr} {pos1 n1 n2 : ℕ} (hroom : Room p (replacedLength p n1 n2))
    (hf : HeldElsewhere s h v ∨ replacedLength p n1 n2 ≤ p.mCapacity)
    (he : h.cutOut v pos1 n1 n2 = .ok h') : Retained s h h' := by
  have hle := le_newCapacity p.mCapacity (replacedLength p n1 n2)
  obtain ⟨h₁,q₁,he₁,hok₁,hq₁,hlen₁,hcap₁⟩ := copyOnWrite_yields hok hp
  simp only [cutOut, length_eq hp, he₁, ok_bind] at he
  rw [if_pos (show replacedLength p n1 n2 < 2^31 by omega)] at he
  obtain ⟨h₂,he₂,he₃⟩ := bind_eq_ok.mp he
  obtain ⟨h₃,he₃,he₄⟩ := bind_eq_ok.mp he₃
  have hk₁ := (copyOnWrite_keeps hok.sound he₁).1
  have hf₁ : HeldElsewhere s h₁ v ∨ replacedLength p n1 n2 ≤ q₁.mCapacity := by
    rw [hcap₁]
    exact hf.imp_left hk₁.heldElsewhere
  apply (copyOnWrite_retained s hok.sound he₁).trans
  apply (reserve_retained hok₁.sound hq₁ he₂ hf₁).trans
  apply (copyOnWrite_retained s (reserve_keeps hok₁.sound he₂).1.sound he₃).trans
  exact edit_retained s (fun _ _ hq => eraseRep_capacity hq) he₄

theorem replaceFill_returns {pos1 n1 n2 : ℕ} {c : UInt8}
    (hroom : p.mLength ≤ pos1 ∨ (n1 = npos ∨ pos1+n1 < 2^32) ∧ Room p (replacedLength p n1 n2) ∧
      newCapacity (newCapacity p.mCapacity (replacedLength p n1 n2))
        (Rep.erasedLength p.mLength pos1 n1+n2+1) < 2^31) :
    ∃ l c', Yields (h.replaceFill v pos1 n1 n2 c) v l c' := by
  simp only [replaceFill, length_eq hp, ok_bind]
  by_cases hpos : pos1 ≥ p.mLength
  · rw [if_pos hpos]
    exact ⟨_,_,same_yields hok hp⟩
  · obtain ⟨hn,hroom,hroom'⟩ := hroom.resolve_left hpos
    obtain ⟨h₁,q,he,hok₁,hq,hlen,hcap⟩ := cutOut_yields hok hp hn hroom
    rw [← hlen, ← hcap] at hroom'
    simp only [if_neg hpos, he, length_eq hq, ok_bind]
    split_ifs with hend
    · exact appendFill_returns hok₁ hq hroom'
    · exact insertFill_returns hok₁ hq (.inr hroom')

theorem replaceChars_returns {s : CharPtr} {pos1 n1 n2 k : ℕ} {cs : List UInt8}
    (hk : s.lengthOf h.heap n2 = .ok k) (hcs : s.read h.heap k = .ok cs)
    (hfix : n2 ≠ npos ∨ ∃ cs, s = .literal cs)
    (hroom : p.mLength ≤ pos1 ∨ (n1 = npos ∨ pos1+n1 < 2^32) ∧ Room p (replacedLength p n1 n2) ∧
      newCapacity (newCapacity p.mCapacity (replacedLength p n1 n2))
        (Rep.erasedLength p.mLength pos1 n1+k+1) < 2^31 ∧
      (HeldElsewhere s h v ∨ replacedLength p n1 n2 ≤ p.mCapacity ∧
        Rep.erasedLength p.mLength pos1 n1+k+1 ≤ p.mCapacity)) :
    ∃ l c', Yields (h.replaceChars v pos1 n1 s n2) v l c' := by
  simp only [replaceChars, length_eq hp, ok_bind]
  by_cases hpos : pos1 ≥ p.mLength
  · rw [if_pos hpos]
    exact ⟨_,_,same_yields hok hp⟩
  · obtain ⟨hn,hroom,hroom',hsrc⟩ := hroom.resolve_left hpos
    obtain ⟨h₁,q,he,hok₁,hq,hlen,hcap⟩ := cutOut_yields hok hp hn hroom
    obtain ⟨cs',hcs'⟩ := (cutOut_retained hok hp hroom (hsrc.imp_right And.left) he).read hcs
    -- the cut leaves the characters that are put in
    have hk' : s.lengthOf h₁.heap n2 = .ok k := by
      rcases hfix with hfix | ⟨cs,rfl⟩
      · rw [CharPtr.lengthOf, if_neg hfix] at hk ⊢
        exact hk
      · exact hk
    have hge := newCapacity_ge p.mCapacity (replacedLength p n1 n2)
    have hsrc' : HeldElsewhere s h₁ v ∨ q.mLength+k+1 ≤ q.mCapacity := by
      rw [hlen, hcap]
      exact hsrc.imp (cutOut_keeps hok.sound he).1.heldElsewhere fun hfit => hfit.2.trans hge
    rw [← hlen, ← hcap] at hroom'
    simp only [if_neg hpos, he, length_eq hq, ok_bind]
    split_ifs with hend
    · exact appendChars_returns hok₁ hq hk' hcs' hroom' hsrc'
    · exact insertChars_returns hok₁ hq hk' hcs' (.inr ⟨hroom',hsrc'⟩)

theorem resize_returns {n : ℕ} {c : UInt8} (hroom : Room p (n+1)) :
    ∃ l c', Yields (h.resize v n c) v l c' := by
  have hle := le_newCapacity p.mCapacity (n+1)
  simp only [resize, add32_of_lt (show n+1 < 2^32 by omega)]
  refine ⟨n, newCapacity p.mCapacity (n+1), ?_⟩
  apply (reserve_yields hok hp hroom).bind
  intro h₁ q _ hok₁ hq hlen hcap
  have hq' := hok₁.rep v q hq
  have hlt := hq'.length_lt
  apply edit_yields hok₁ hq _ (by omega) hroom
  rw [← hcap]
  apply Rep.write_returns hq'
  · rw [List.length_replicate]
    omega
  · omega

theorem setAt_returns {i : ℕ} {c : UInt8} : ∃ l c', Yields (h.setAt v i c) v l c' := by
  have hp' := hok.rep v p hp
  have hlt := hp'.length_lt
  refine ⟨p.mLength, p.mCapacity, ?_⟩
  apply edit_yields hok hp _ hlt hp'.capacity_lt
  refine ⟨_, Rep.setAt_returns hp' ?_, rfl, rfl⟩
  rw [List.length_singleton]
  split_ifs <;> omega

end Calls

/-- The variables that hold the same Rep as w. -/
def holders (h : Strings) (w : ℕ) : ℕ := h.heap.ptrs.count (h.heap.held w)

section Assignments
variable (hok : h.Ok)
include hok

theorem get_ok_of_assigned {x : Option ℕ} (hv : v < h.heap.ptrs.length)
    (hx : ∀ r, x = some r → ∃ w, h.heap.held w = some r) :
    Ok { h with heap := h.heap.assigned v x } := by
  have hlive : ∀ r, x = some r → (h.heap.objs r).isSome := by
    intro r hr
    obtain ⟨w,hw⟩ := hx r hr
    exact hok.sound.lives r (RefHeap.mem_of_held hw)
  have hsound := hok.sound.but x
  constructor
  · exact hsound.assigned hv hlive
  · intro w q hq
    by_cases hw : w = v
    · subst hw
      cases x with
      | none =>
        obtain ⟨r,c,hr,-⟩ := RefHeap.get_eq_some.mp hq
        rw [RefHeap.held_assigned h.heap hv] at hr
        cases hr
      | some r =>
        obtain ⟨u,hu⟩ := hx r rfl
        exact hok.rep u q ((hok.sound.get_assigned hv hu).symm.trans hq)
    · exact hok.rep w q ((hsound.get_assigned_of_ne hv hlive hw).symm.trans hq)

theorem assignString_returns {w : ℕ} (hv : v < h.heap.ptrs.length) {p : Rep}
    (hp : h.heap.get w = some p) (hroom : h.holders w < 2^31-1) :
    ∃ h', h.assignString v w = .ok h' ∧ h'.Ok := by
  obtain ⟨r,c,hr,-⟩ := exists_rep hp
  obtain ⟨hheld,hc⟩ := rep_eq_ok.mp hr
  -- the count is the number of the holders
  have hcount : c.mRefCount < 2^31-1 := by
    rw [hok.sound.counts r c hc, ← hheld]
    unfold holders at hroom
    omega
  refine ⟨{ h with heap := h.heap.assigned v (some r) }, ?_, ?_⟩
  · simp only [assignString, hr, ok_bind, RefHeap.assign_some hc hcount]
  apply get_ok_of_assigned hok hv
  intro r' hr'
  rw [← Option.some.inj hr']
  exact ⟨w,(rep_eq_ok.mp hr).1⟩

theorem newFrom_returns {s : CharPtr} {k : ℕ} {cs : List UInt8} (hcs : s.read h.heap k = .ok cs)
    (hk : k+1 < 2^31) (hv : v < h.heap.ptrs.length) : ∃ h', (do
      let nr ← Rep.newFrom (h.raw h.heap.fresh) h.heap s k
      .ok (h.adopt v nr)) = Except.ok h' ∧ h'.Ok := by
  have hadd : add32 k 1 = k+1 := add32_of_lt (by omega)
  obtain ⟨q,hq,hlen,hcap⟩ := Rep.assign_returns (n := k)
    (p := { mCapacity := add32 k 1, mLength := 0, mData := h.raw h.heap.fresh })
    (hadd ▸ hk) (hadd ▸ Nat.lt_succ_self k) hcs
  have hcap' : q.mCapacity = k+1 := hcap.trans hadd
  obtain ⟨h',-,he,hok',-⟩ := adopt_yields hok hv (p := q) ⟨by omega,by omega⟩
  refine ⟨h', ?_, hok'⟩
  rw [Rep.newFrom, hq, ok_bind, he]

theorem assignChars_returns {s : CharPtr} {n k : ℕ} {cs : List UInt8} (hv : v < h.heap.ptrs.length)
    (hk : s.lengthOf h.heap n = .ok k) (hcs : s.read h.heap k = .ok cs) (hlt : k+1 < 2^31) :
    ∃ h', h.assignChars v s n = .ok h' ∧ h'.Ok := by
  simp only [assignChars, hk, ok_bind]
  cases hheld : h.heap.held v with
  | none =>
    have hcap : h.capacity v = .ok 0 := by rw [capacity, if_pos hheld]
    simp only [hcap, ok_bind, ge_iff_le, Nat.zero_le, if_true]
    exact newFrom_returns hok hcs hlt hv
  | some r =>
    obtain ⟨c,hc,-⟩ := (hok.sound.but none).exists_obj hheld
    have hp : h.heap.get v = some c.obj := get_of_rep (rep_eq_ok.mpr ⟨hheld,hc⟩)
    simp only [capacity_eq hp, ok_bind]
    by_cases hge : k ≥ c.obj.mCapacity
    · rw [if_pos hge]
      exact newFrom_returns hok hcs hlt hv
    · have hp' := hok.rep v _ hp
      have hk' : k < c.obj.mCapacity := Nat.not_le.mp hge
      rw [if_neg hge]
      obtain ⟨h',-,he,hok',-⟩ := edit_yields (f := fun p => p.assign h.heap s k) hok hp
        (Rep.assign_returns hp'.capacity_lt hk' hcs) hk' hp'.capacity_lt
      exact ⟨h',he,hok'⟩

end Assignments

end Strings

end JhCommon
