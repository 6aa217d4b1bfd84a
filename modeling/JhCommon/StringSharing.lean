import JhCommon.JhString

/-! Which calls on a string variable leave the other variables alone. -/
namespace JhCommon
open RingMemory Word32

namespace CharPtr

theorem length_read {heap : RefHeap Rep} {s : CharPtr} {n : ℕ} {cs : List UInt8}
    (hcs : s.read heap n = .ok cs) : cs.length = n := by
  unfold read at hcs
  by_cases hn : n = 0
  · rw [if_pos hn] at hcs
    rw [← Except.ok.inj hcs, hn]
    rfl
  · rw [if_neg hn] at hcs
    cases s with
    | literal s =>
      simp only at hcs
      split_ifs at hcs
      rw [← Except.ok.inj hcs, List.length_take, List.length_append, List.length_singleton]
      omega
    | inRep r pos =>
      obtain ⟨c,-,hcs⟩ := bind_eq_ok.mp hcs
      split_ifs at hcs
      rw [← Except.ok.inj hcs, length_load]

end CharPtr

namespace Rep

/-- What a reader of the Rep can tell: its capacity, length and characters. -/
def view (p : Rep) : ℕ × ℕ × List UInt8 :=
  (p.mCapacity,p.mLength,load p.mData 0 (p.mLength+1))

variable {p p' : Rep}

@[simp] theorem setAt_eq_ok {i : ℕ} {cs : List UInt8} :
    p.setAt i cs = .ok p' ↔ i+cs.length ≤ p.size ∧ p' = { p with mData := store p.mData i cs } := by
  unfold setAt
  split_ifs with hi
  · simp [hi, eq_comm]
  · simp [hi]

/-- Ending the string where it ends changes nothing. -/
theorem terminate_self (h0 : p.mData p.mLength = 0) (ht : p.terminate p.mLength = .ok p') :
    p' = p := by
  obtain ⟨-,rfl⟩ := setAt_eq_ok.mp ht
  show Rep.mk p.mCapacity p.mLength (store p.mData p.mLength [0]) = p
  rw [← h0, store_self]

theorem exists_read {heap : RefHeap Rep} {s : CharPtr} {n : ℕ} (hn : n < p.mCapacity)
    (ha : p.assign heap s n = .ok p') : ∃ cs, s.read heap n = .ok cs := by
  unfold assign at ha
  simp only [ge_iff_le, Nat.not_le.mpr hn, if_false] at ha
  obtain ⟨cs,hcs,-⟩ := bind_eq_ok.mp ha
  exact ⟨cs,hcs⟩

theorem assign_view {heap : RefHeap Rep} {s : CharPtr} {n : ℕ} {cs : List UInt8}
    (hn : n < p.mCapacity) (hcs : s.read heap n = .ok cs) (hlen : cs.length = n)
    (ha : p.assign heap s n = .ok p') : p'.view = (p.mCapacity,n,cs ++ [0]) := by
  unfold assign at ha
  simp only [ge_iff_le, Nat.not_le.mpr hn, if_false, hcs, ok_bind] at ha
  obtain ⟨q,hq,ht⟩ := bind_eq_ok.mp ha
  obtain ⟨-,rfl⟩ := setAt_eq_ok.mp hq
  obtain ⟨-,rfl⟩ := setAt_eq_ok.mp ht
  have hstore : store (store p.mData 0 cs) n [0] = store p.mData 0 (cs ++ [0]) := by
    rw [← store_append, Nat.zero_add, hlen]
  have hload := load_store p.mData 0 (cs ++ [0])
  rw [List.length_append, hlen] at hload
  simp only [view, hstore]
  exact congrArg (fun l => (p.mCapacity,n,l)) hload

/-- Appending nothing changes nothing. -/
theorem append_nil (h0 : p.mData p.mLength = 0) (hlen : p.mLength < 2^32)
    (ha : (do let q ← p.setAt p.mLength []; q.terminate (add32 q.mLength 0)) = Except.ok p') :
    p' = p := by
  obtain ⟨q,hq,ht⟩ := bind_eq_ok.mp ha
  obtain ⟨-,rfl⟩ := setAt_eq_ok.mp hq
  simp only [store_nil, add32_of_lt (show p.mLength+0 < 2^32 from hlen), Nat.add_zero] at ht
  exact terminate_self h0 ht

end Rep

namespace Strings
variable {h h' : Strings} {v : ℕ}

@[simp] theorem rep_eq_ok {r : ℕ} {c : RefCount Rep} :
    h.rep v = .ok (r,c) ↔ h.heap.held v = some r ∧ h.heap.objs r = some c := by
  unfold rep RefHeap.deref
  cases h.heap.held v with
  | none => simp
  | some r' =>
    simp only [Option.some.injEq]
    cases hc : h.heap.objs r' with
    | none =>
      simp only [error_bind, reduceCtorEq, false_iff]
      rintro ⟨rfl,hc'⟩
      rw [hc] at hc'
      cases hc'
    | some c' =>
      simp only [ok_bind, Except.ok.injEq, Prod.mk.injEq]
      constructor
      · rintro ⟨rfl,rfl⟩
        exact ⟨rfl,hc⟩
      · rintro ⟨rfl,hc'⟩
        exact ⟨rfl,Option.some.inj (hc.symm.trans hc')⟩

theorem get_of_rep {r : ℕ} {c : RefCount Rep} (hr : h.rep v = .ok (r,c)) :
    h.heap.get v = some c.obj := by
  have hr := rep_eq_ok.mp hr
  rw [RefHeap.get, hr.1, Option.bind_some, hr.2, Option.map_some]

theorem exists_rep {p : Rep} (hp : h.heap.get v = some p) :
    ∃ r c, h.rep v = .ok (r,c) ∧ c.obj = p := by
  obtain ⟨r,c,hr,hc,hcp⟩ := RefHeap.get_eq_some.mp hp
  exact ⟨r,c,rep_eq_ok.mpr ⟨hr,hc⟩,hcp⟩

theorem length_eq {p : Rep} (hp : h.heap.get v = some p) : h.length v = .ok p.mLength := by
  obtain ⟨r,c,hr,rfl⟩ := exists_rep hp
  simp only [length, hr, ok_bind]

theorem capacity_eq {p : Rep} (hp : h.heap.get v = some p) : h.capacity v = .ok p.mCapacity := by
  obtain ⟨r,c,hr,rfl⟩ := exists_rep hp
  simp only [capacity, (rep_eq_ok.mp hr).1, reduceCtorEq, if_false, hr, ok_bind]

/-- A call on v keeps the counts right, and every other variable holds what it held and reads
as it did. -/
structure Keeps (v : ℕ) (h h' : Strings) : Prop where
  sound : h'.heap.Sound
  length : h'.heap.ptrs.length = h.heap.ptrs.length
  held : ∀ w, w ≠ v → h'.heap.held w = h.heap.held w
  view : ∀ w, w ≠ v → (h'.heap.get w).map Rep.view = (h.heap.get w).map Rep.view

theorem Keeps.refl (hs : h.heap.Sound) : Keeps v h h :=
  ⟨hs, rfl, fun _ _ => rfl, fun _ _ => rfl⟩

theorem Keeps.trans {h'' : Strings} (h₁ : Keeps v h h') (h₂ : Keeps v h' h'') : Keeps v h h'' where
  sound := h₂.sound
  length := h₂.length.trans h₁.length
  held w hw := (h₂.held w hw).trans (h₁.held w hw)
  view w hw := (h₂.view w hw).trans (h₁.view w hw)

theorem Keeps.reads (hk : Keeps v h h') {w : ℕ} (hw : w ≠ v) : h'.reads w = h.reads w := by
  have hview := congrArg (Option.map Prod.snd) (hk.view w hw)
  rw [Option.map_map, Option.map_map] at hview
  exact hview

section Steps
variable (hs : h.heap.Sound)
include hs

theorem adopt_keeps (hv : v < h.heap.ptrs.length) (p : Rep) : Keeps v h (h.adopt v p) where
  sound := hs.adopt hv p
  length := RefHeap.length_adopt p
  held _ hw := RefHeap.held_adopt_of_ne hw p
  view _ hw := congrArg _ (hs.get_adopt_of_ne hv hw p)

theorem assigned_keeps (hv : v < h.heap.ptrs.length) {x : Option ℕ}
    (hx : ∀ r, x = some r → (h.heap.objs r).isSome) :
    Keeps v h { h with heap := h.heap.assigned v x } where
  sound := (hs.but x).assigned hv hx
  length := by rw [RefHeap.ptrs_assigned, List.length_set]
  held _ hw := RefHeap.held_assigned_of_ne h.heap hw x
  view _ hw := congrArg _ ((hs.but x).get_assigned_of_ne hv hx hw)

/-- A write in place is seen by nobody else if nobody else holds the Rep, or if it changes
nothing. -/
theorem edit_keeps {f : Rep → Exec Rep} (he : h.edit v f = .ok h')
    (hf : h.heap.Alone v ∨ ∀ p p', h.heap.get v = some p → f p = .ok p' → p'.view = p.view) :
    Keeps v h h' ∧ (h.heap.Alone v → h'.heap.Alone v) := by
  obtain ⟨⟨r,c⟩,hr,he⟩ := bind_eq_ok.mp he
  obtain ⟨p,hp,he⟩ := bind_eq_ok.mp he
  have hr' := rep_eq_ok.mp hr
  rw [← Except.ok.inj he]
  refine ⟨⟨hs.put p, rfl, fun _ _ => rfl, ?_⟩, fun ha => ha⟩
  intro w hw
  by_cases hwr : h.heap.held w = some r
  · rcases hf with ha | hf
    · exact absurd hwr (ha w hw r hr'.1)
    · have hget : h.heap.get w = some c.obj := by
        rw [RefHeap.get, hwr, Option.bind_some, hr'.2, Option.map_some]
      rw [hs.get_put hwr, hget, Option.map_some, Option.map_some, hf c.obj p (get_of_rep hr) hp]
  · rw [RefHeap.get_put_of_held_ne hwr]

theorem copyOnWrite_keeps (he : h.copyOnWrite v = .ok h') : Keeps v h h' ∧ h'.heap.Alone v := by
  obtain ⟨⟨r,c⟩,hr,he⟩ := bind_eq_ok.mp he
  have hr' := rep_eq_ok.mp hr
  have hv := RefHeap.held_lt hr'.1
  by_cases hc : c.mRefCount > 1
  · simp only [hc, if_true] at he
    obtain ⟨p,-,he⟩ := bind_eq_ok.mp he
    obtain ⟨q,-,he⟩ := bind_eq_ok.mp he
    rw [← Except.ok.inj he]
    exact ⟨adopt_keeps hs hv q, hs.alone_adopt hv q⟩
  · simp only [hc, if_false] at he
    rw [← Except.ok.inj he]
    exact ⟨Keeps.refl hs, hs.alone hr'.1 hr'.2 (by omega)⟩

theorem reserve_keeps {res : ℕ} (he : h.reserve v res = .ok h') :
    Keeps v h h' ∧
      ((h.heap.Alone v ∨ ∀ p, h.heap.get v = some p → p.mCapacity < res) → h'.heap.Alone v) := by
  obtain ⟨⟨r,c⟩,hr,he⟩ := bind_eq_ok.mp he
  have hv := RefHeap.held_lt (rep_eq_ok.mp hr).1
  by_cases hc : res > c.obj.mCapacity
  · simp only [hc, if_true] at he
    obtain ⟨p,-,he⟩ := bind_eq_ok.mp he
    obtain ⟨q,-,he⟩ := bind_eq_ok.mp he
    rw [← Except.ok.inj he]
    exact ⟨adopt_keeps hs hv q, fun _ => hs.alone_adopt hv q⟩
  · simp only [hc, if_false] at he
    rw [← Except.ok.inj he]
    apply And.intro (Keeps.refl hs)
    rintro (ha | hgrow)
    · exact ha
    · exact absurd (hgrow c.obj (get_of_rep hr)) hc

theorem erase_keeps {pos n : ℕ} (he : h.erase v pos n = .ok h') :
    Keeps v h h' ∧ h'.heap.Alone v := by
  obtain ⟨h₁,hc,he⟩ := bind_eq_ok.mp he
  obtain ⟨hk,ha⟩ := copyOnWrite_keeps hs hc
  obtain ⟨hk',ha'⟩ := edit_keeps hk.sound he (.inl ha)
  exact ⟨hk.trans hk',ha' ha⟩

theorem openGap_keeps {pos1 n : ℕ} (he : h.openGap v pos1 n = .ok h') :
    Keeps v h h' ∧ h'.heap.Alone v := by
  obtain ⟨h₁,hc,he⟩ := bind_eq_ok.mp he
  obtain ⟨len,-,he⟩ := bind_eq_ok.mp he
  obtain ⟨h₂,hr,he⟩ := bind_eq_ok.mp he
  obtain ⟨hk₁,ha₁⟩ := copyOnWrite_keeps hs hc
  obtain ⟨hk₂,ha₂⟩ := reserve_keeps hk₁.sound hr
  have ha₂ := ha₂ (.inl ha₁)
  obtain ⟨hk₃,ha₃⟩ := edit_keeps hk₂.sound he (.inl ha₂)
  exact ⟨(hk₁.trans hk₂).trans hk₃,ha₃ ha₂⟩

theorem insertChars_keeps {pos1 n : ℕ} {s : CharPtr} (he : h.insertChars v pos1 s n = .ok h') :
    Keeps v h h' := by
  obtain ⟨k,-,he⟩ := bind_eq_ok.mp he
  obtain ⟨len,-,he⟩ := bind_eq_ok.mp he
  split at he
  · rw [← Except.ok.inj he]
    exact Keeps.refl hs
  · obtain ⟨h₁,hg,he⟩ := bind_eq_ok.mp he
    obtain ⟨cs,-,he⟩ := bind_eq_ok.mp he
    obtain ⟨hk,ha⟩ := openGap_keeps hs hg
    exact hk.trans (edit_keeps hk.sound he (.inl ha)).1

theorem insertFill_keeps {pos1 n : ℕ} {c : UInt8} (he : h.insertFill v pos1 n c = .ok h') :
    Keeps v h h' := by
  obtain ⟨len,-,he⟩ := bind_eq_ok.mp he
  split at he
  · rw [← Except.ok.inj he]
    exact Keeps.refl hs
  · obtain ⟨h₁,hg,he⟩ := bind_eq_ok.mp he
    obtain ⟨hk,ha⟩ := openGap_keeps hs hg
    exact hk.trans (edit_keeps hk.sound he (.inl ha)).1

theorem cutOut_keeps {pos1 n1 n2 : ℕ} (he : h.cutOut v pos1 n1 n2 = .ok h') :
    Keeps v h h' ∧ h'.heap.Alone v := by
  obtain ⟨len,-,he⟩ := bind_eq_ok.mp he
  obtain ⟨h₁,hc,he⟩ := bind_eq_ok.mp he
  obtain ⟨h₂,hr,he⟩ := bind_eq_ok.mp he
  obtain ⟨hk₁,-⟩ := copyOnWrite_keeps hs hc
  obtain ⟨hk₂,-⟩ := reserve_keeps hk₁.sound hr
  obtain ⟨hk₃,ha⟩ := erase_keeps hk₂.sound he
  exact ⟨(hk₁.trans hk₂).trans hk₃,ha⟩

/-- A call that makes room and then writes in place is seen by nobody else if nobody else holds
the Rep, if it has to make the room, or if the write changes nothing. -/
theorem grow_keeps {h₁ : Strings} {res : ℕ} {f : Rep → Exec Rep} (hr : h.reserve v res = .ok h₁)
    (he : h₁.edit v f = .ok h')
    (hf : h.heap.Alone v ∨ ∀ p, h.heap.get v = some p → p.mCapacity < res ∨
      ∀ p', f p = .ok p' → p'.view = p.view) : Keeps v h h' := by
  obtain ⟨hk,ha⟩ := reserve_keeps hs hr
  by_cases hmove : h.heap.Alone v ∨ ∀ p, h.heap.get v = some p → p.mCapacity < res
  · exact hk.trans (edit_keeps hk.sound he (.inl (ha hmove))).1
  · rw [not_or, not_forall] at hmove
    obtain ⟨hna,p,hp⟩ := hmove
    obtain ⟨hp,hcap⟩ := Classical.not_imp.mp hp
    have hsame := ((hf.resolve_left hna) p hp).resolve_left hcap
    -- no room is made, so the write goes to the shared Rep
    obtain ⟨⟨r,c⟩,hrep,hr⟩ := bind_eq_ok.mp hr
    have hpc : c.obj = p := Option.some.inj ((get_of_rep hrep).symm.trans hp)
    rw [← hpc] at hcap
    simp only [gt_iff_lt, hcap, if_false] at hr
    rw [← Except.ok.inj hr] at he
    apply (edit_keeps hs he (.inr _)).1
    intro q q' hq hq'
    have hqp : q = p := Option.some.inj (hq.symm.trans hp)
    rw [hqp] at hq' ⊢
    exact hsame q' hq'

/-- What the two appends share. To append nothing leaves a Rep with its null as it is. -/
theorem append_keeps {h₁ : Strings} {len n : ℕ} {cs : List UInt8} (hlen : h.length v = .ok len)
    (hr : h.reserve v (add32 (add32 len n) 1) = .ok h₁)
    (he : h₁.edit v (fun p => do
      let p ← p.setAt p.mLength cs
      p.terminate (add32 p.mLength n)) = .ok h') (hcs : n = 0 → cs = [])
    (hf : h.heap.Alone v ∨ ∀ p, h.heap.get v = some p →
      p.mCapacity < add32 (add32 p.mLength n) 1 ∨
        n = 0 ∧ p.mData p.mLength = 0 ∧ p.mLength < 2^32) : Keeps v h h' := by
  apply grow_keeps hs hr he
  refine hf.imp_right fun hf p hp => ?_
  obtain rfl : p.mLength = len := Except.ok.inj ((length_eq hp).symm.trans hlen)
  rcases hf p hp with hcap | ⟨rfl,h0,hlt⟩
  · exact .inl hcap
  · apply Or.inr
    intro p' hp'
    rw [hcs rfl] at hp'
    rw [Rep.append_nil h0 hlt hp']

theorem appendChars_keeps {n k : ℕ} {s : CharPtr} (he : h.appendChars v s n = .ok h')
    (hk : s.lengthOf h.heap n = .ok k) (hf : h.heap.Alone v ∨ ∀ p, h.heap.get v = some p →
      p.mCapacity < add32 (add32 p.mLength k) 1 ∨
        k = 0 ∧ p.mData p.mLength = 0 ∧ p.mLength < 2^32) : Keeps v h h' := by
  obtain ⟨k',hk',he⟩ := bind_eq_ok.mp he
  obtain rfl : k = k' := Except.ok.inj (hk.symm.trans hk')
  obtain ⟨len,hlen,he⟩ := bind_eq_ok.mp he
  obtain ⟨h₁,hr,he⟩ := bind_eq_ok.mp he
  obtain ⟨cs,hcs,he⟩ := bind_eq_ok.mp he
  apply append_keeps hs hlen hr he _ hf
  rintro rfl
  exact (Except.ok.inj hcs).symm

theorem appendFill_keeps {n : ℕ} {c : UInt8} (he : h.appendFill v n c = .ok h')
    (hf : h.heap.Alone v ∨ ∀ p, h.heap.get v = some p →
      p.mCapacity < add32 (add32 p.mLength n) 1 ∨
        n = 0 ∧ p.mData p.mLength = 0 ∧ p.mLength < 2^32) : Keeps v h h' := by
  obtain ⟨len,hlen,he⟩ := bind_eq_ok.mp he
  obtain ⟨h₁,hr,he⟩ := bind_eq_ok.mp he
  apply append_keeps hs hlen hr he _ hf
  rintro rfl
  rfl

theorem resize_keeps {n : ℕ} {c : UInt8} (he : h.resize v n c = .ok h')
    (hf : h.heap.Alone v ∨ ∀ p, h.heap.get v = some p →
      p.mCapacity < add32 n 1 ∨ n = p.mLength ∧ p.mData p.mLength = 0) : Keeps v h h' := by
  obtain ⟨h₁,hr,he⟩ := bind_eq_ok.mp he
  apply grow_keeps hs hr he
  refine hf.imp_right fun hf p hp => ?_
  rcases hf p hp with hcap | ⟨rfl,h0⟩
  · exact .inl hcap
  · apply Or.inr
    intro p' hp'
    obtain ⟨q,hq,ht⟩ := bind_eq_ok.mp hp'
    obtain ⟨-,rfl⟩ := Rep.setAt_eq_ok.mp hq
    simp only [Nat.sub_self, List.replicate_zero, store_nil] at ht
    rw [Rep.terminate_self h0 ht]

theorem setAt_keeps {i : ℕ} {c : UInt8} (he : h.setAt v i c = .ok h')
    (hf : h.heap.Alone v ∨ ∀ p, h.heap.get v = some p → p.mData (min i p.mLength) = c) :
    Keeps v h h' := by
  apply (edit_keeps hs he _).1
  refine hf.imp_right fun hf p p' hp hp' => ?_
  have hidx : (if p.mLength > i then i else p.mLength) = min i p.mLength := by
    split_ifs <;> omega
  obtain ⟨-,rfl⟩ := Rep.setAt_eq_ok.mp hp'
  rw [hidx, ← hf p hp, store_self]

theorem assignString_keeps {w : ℕ} (hv : v < h.heap.ptrs.length) (he : h.assignString v w = .ok h') :
    Keeps v h h' := by
  obtain ⟨⟨r,c⟩,-,he⟩ := bind_eq_ok.mp he
  obtain ⟨heap,ha,he⟩ := bind_eq_ok.mp he
  obtain ⟨rfl,hr⟩ := RefHeap.assign_eq_ok ha
  rw [← Except.ok.inj he]
  exact assigned_keeps hs hv hr

theorem assignChars_keeps {n k : ℕ} {s : CharPtr} (hv : v < h.heap.ptrs.length)
    (he : h.assignChars v s n = .ok h') (hk : s.lengthOf h.heap n = .ok k)
    (hf : h.heap.Alone v ∨ ∀ p cs, h.heap.get v = some p → s.read h.heap k = .ok cs →
      p.mCapacity ≤ k ∨ p.view = (p.mCapacity,k,cs ++ [0])) : Keeps v h h' := by
  obtain ⟨k',hk',he⟩ := bind_eq_ok.mp he
  obtain rfl : k = k' := Except.ok.inj (hk.symm.trans hk')
  obtain ⟨cap,hcap,he⟩ := bind_eq_ok.mp he
  by_cases hge : k ≥ cap
  · simp only [hge, if_true] at he
    obtain ⟨p,-,he⟩ := bind_eq_ok.mp he
    rw [← Except.ok.inj he]
    exact adopt_keeps hs hv p
  · simp only [hge, if_false] at he
    apply (edit_keeps hs he _).1
    refine hf.imp_right fun hf p p' hp hp' => ?_
    obtain rfl : p.mCapacity = cap := Except.ok.inj ((capacity_eq hp).symm.trans hcap)
    have hlt : k < p.mCapacity := Nat.not_le.mp hge
    obtain ⟨cs,hcs⟩ := Rep.exists_read hlt hp'
    rw [Rep.assign_view hlt hcs (CharPtr.length_read hcs) hp']
    exact ((hf p cs hp hcs).resolve_left (Nat.not_le.mpr hlt)).symm

theorem replaceFill_keeps {pos1 n1 n2 : ℕ} {c : UInt8}
    (he : h.replaceFill v pos1 n1 n2 c = .ok h') : Keeps v h h' := by
  obtain ⟨len,-,he⟩ := bind_eq_ok.mp he
  split at he
  · rw [← Except.ok.inj he]
    exact Keeps.refl hs
  · obtain ⟨h₁,hc,he⟩ := bind_eq_ok.mp he
    obtain ⟨len',-,he⟩ := bind_eq_ok.mp he
    obtain ⟨hk,ha⟩ := cutOut_keeps hs hc
    split at he
    · exact hk.trans (appendFill_keeps hk.sound he (.inl ha))
    · exact hk.trans (insertFill_keeps hk.sound he)

theorem replaceChars_keeps {pos1 n1 n2 : ℕ} {s : CharPtr}
    (he : h.replaceChars v pos1 n1 s n2 = .ok h') : Keeps v h h' := by
  obtain ⟨len,-,he⟩ := bind_eq_ok.mp he
  split at he
  · rw [← Except.ok.inj he]
    exact Keeps.refl hs
  · obtain ⟨h₁,hc,he⟩ := bind_eq_ok.mp he
    obtain ⟨len',-,he⟩ := bind_eq_ok.mp he
    obtain ⟨hk,ha⟩ := cutOut_keeps hs hc
    split at he
    · obtain ⟨k,hk',-⟩ := bind_eq_ok.mp he
      exact hk.trans (appendChars_keeps hk.sound he hk' (.inl ha))
    · exact hk.trans (insertChars_keeps hk.sound he)

end Steps

end Strings

end JhCommon
