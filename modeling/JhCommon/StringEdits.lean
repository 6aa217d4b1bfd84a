import JhCommon.StringContents

/-! The edits of a string variable, each with the list of characters that it leaves. -/
namespace JhCommon
open RingMemory Word32

namespace Strings
variable {h h' h'' : Strings} {v : ℕ} {p : Rep} {l : List UInt8}

/-- The objects that v does not hold stay as they are, and v holds none of them afterwards. -/
def Leaves (v : ℕ) (h h' : Strings) : Prop :=
  ∀ r c, h.heap.objs r = some c → h.heap.held v ≠ some r →
    h'.heap.objs r = some c ∧ h'.heap.held v ≠ some r

theorem Leaves.refl (v : ℕ) (h : Strings) : Leaves v h h := fun _ _ hc hv => ⟨hc,hv⟩

theorem Leaves.trans (h₁ : Leaves v h h') (h₂ : Leaves v h' h'') : Leaves v h h'' := by
  intro r c hc hv
  obtain ⟨hc',hv'⟩ := h₁ r c hc hv
  exact h₂ r c hc' hv'

/-- What a caller passes for s and n, and the characters that it stands for. -/
structure Source where
  s : CharPtr
  n : ℕ
  chars : List UInt8

/-- The characters can be read, and a pointer to them does not point into the string v. -/
structure Source.Denotes (a : Source) (h : Strings) (v : ℕ) : Prop where
  length : a.s.lengthOf h.heap a.n = .ok a.chars.length
  chars : a.s.read h.heap a.chars.length = .ok a.chars
  apart : ∀ r pos, a.s = .inRep r pos → h.heap.held v ≠ some r ∧ ∃ c, h.heap.objs r = some c

/-- A source that does not alias the string is not changed by a call on it. -/
theorem Source.Denotes.keep {a : Source} (ha : a.Denotes h v) (hk : Leaves v h h') :
    a.Denotes h' v := by
  obtain ⟨s,n,cs⟩ := a
  cases s with
  | literal t => exact ⟨ha.length,ha.chars,fun r pos hs => by cases hs⟩
  | inRep r pos =>
    obtain ⟨hne,c,hc⟩ := ha.apart r pos rfl
    obtain ⟨hc',hne'⟩ := hk r c hc hne
    have hderef : h'.heap.deref r = h.heap.deref r := by rw [RefHeap.deref, RefHeap.deref, hc, hc']
    have hread := ha.chars
    have hlength := ha.length
    simp only [CharPtr.read, CharPtr.lengthOf, CharPtr.strlen] at hread hlength
    constructor
    · simp only [CharPtr.lengthOf, CharPtr.strlen, hderef]
      exact hlength
    · simp only [CharPtr.read, hderef]
      exact hread
    · intro r' pos' hs
      obtain ⟨rfl,rfl⟩ := CharPtr.inRep.inj hs
      exact ⟨hne',c,hc'⟩

/-- The call returns and leaves v with a Rep that is as P says, next to which nothing changes. -/
def Gives (h : Strings) (v : ℕ) (x : Exec Strings) (P : Rep → Prop) : Prop :=
  ∃ h' p, x = .ok h' ∧ h'.Ok ∧ h'.heap.get v = some p ∧ P p ∧ Leaves v h h'

theorem Gives.bind {x : Exec Strings} {f : Strings → Exec Strings} {P Q : Rep → Prop}
    (hx : Gives h v x P) (hf : ∀ h' p, h'.Ok → h'.heap.get v = some p → P p → Leaves v h h' →
      Gives h' v (f h') Q) : Gives h v (x >>= f) Q := by
  obtain ⟨h₁,p,rfl,hok,hp,hP,hk⟩ := hx
  obtain ⟨h₂,q,he,hok',hq,hQ,hk'⟩ := hf h₁ p hok hp hP hk
  exact ⟨h₂,q,he,hok',hq,hQ,hk.trans hk'⟩

theorem Gives.imp {x : Exec Strings} {P Q : Rep → Prop} (hx : Gives h v x P)
    (hPQ : ∀ p, P p → Q p) : Gives h v x Q := by
  obtain ⟨h₁,p,he,hok,hp,hP,hk⟩ := hx
  exact ⟨h₁,p,he,hok,hp,hPQ p hP,hk⟩

theorem same_gives {P : Rep → Prop} (hok : h.Ok) (hp : h.heap.get v = some p) (hP : P p) :
    Gives h v (.ok h) P :=
  ⟨h,p,rfl,hok,hp,hP,Leaves.refl v h⟩

theorem adopt_gives {P : Rep → Prop} (hok : h.Ok) (hv : v < h.heap.ptrs.length) (hp : p.Ok)
    (hP : P p) : Gives h v (.ok (h.adopt v p)) P := by
  obtain ⟨h₁,-,he,hok',-⟩ := adopt_yields hok hv hp
  rw [← Except.ok.inj he] at hok'
  refine ⟨h.adopt v p, p, rfl, hok', hok.sound.get_adopt hv p, hP, ?_⟩
  intro r c hc hne
  have hold : r < h.heap.fresh := hok.sound.old r (by rw [hc]; rfl)
  constructor
  · exact (RefHeap.objs_adopt_of_ne hold.ne hne p).trans hc
  · rw [adopt, RefHeap.held_adopt hv]
    exact fun he => hold.ne (Option.some.inj he).symm

theorem edit_gives {P : Rep → Prop} {f : Rep → Exec Rep} (hok : h.Ok)
    (hp : h.heap.get v = some p) (hf : ∃ p', f p = .ok p' ∧ p'.Ok ∧ P p') :
    Gives h v (h.edit v f) P := by
  obtain ⟨p',hp',hok',hP⟩ := hf
  obtain ⟨r,cell,hr,rfl⟩ := exists_rep hp
  have hr' := rep_eq_ok.mp hr
  have he : h.edit v f = .ok { h with heap := h.heap.put r p' } := by
    simp only [edit, hr, hp', ok_bind]
  obtain ⟨h₁,-,he₁,hok₁,-⟩ := edit_yields hok hp ⟨p',hp',rfl,rfl⟩ hok'.length_lt hok'.capacity_lt
  rw [he] at he₁
  rw [← Except.ok.inj he₁] at hok₁
  refine ⟨_, p', he, hok₁, hok.sound.get_put hr'.1 p', hP, ?_⟩
  intro r' c hc hne
  refine ⟨(RefHeap.objs_put_of_ne p' ?_).trans hc, hne⟩
  intro he
  exact hne (he ▸ hr'.1)

/-- What the buffer of v is read as. -/
theorem read_part {r pos n : ℕ} {c : RefCount Rep} (hr : h.rep v = .ok (r,c))
    (hl : c.obj.Stores l) (hfit : pos+n ≤ l.length) :
    (CharPtr.inRep r pos).read h.heap n = .ok ((l.drop pos).take n) := by
  have hr' := rep_eq_ok.mp hr
  have hlt := hl.length_lt
  have hlen := hl.length_eq
  unfold CharPtr.read
  by_cases h0 : n = 0
  · rw [if_pos h0, h0, List.take_zero]
  · simp only [if_neg h0, RefHeap.deref, hr'.2, ok_bind, hl.toOk.size_eq]
    rw [if_pos (by omega), hl.load_part hfit]

/-- A copy of the string into a new Rep that is large enough. -/
theorem copy_gives (hok : h.Ok) {r : ℕ} {c : RefCount Rep} (hr : h.rep v = .ok (r,c))
    (hl : c.obj.Stores l) {n : ℕ} (hlt : l.length < n % 2^32) (hn : n % 2^32 < 2^31) :
    Gives h v (do
      let nr ← Rep.new (h.raw h.heap.fresh) n
      let nr ← nr.assign h.heap (.inRep r 0) c.obj.mLength
      .ok (h.adopt v nr)) fun q => q.Stores l ∧ q.mCapacity = n % 2^32 := by
  have hall := read_part hr hl (show 0+l.length ≤ l.length by omega)
  rw [List.drop_zero, List.take_length] at hall
  obtain ⟨q,hq,hs,hcap⟩ := Rep.assign_stores
    (p := { mCapacity := n % 2^32, mLength := 0, mData := store (h.raw h.heap.fresh) 0 [0] })
    hn hlt hall
  rw [Rep.new_mod, Rep.new_returns _ hn, ok_bind, hl.length_eq, hq, ok_bind]
  exact adopt_gives hok (RefHeap.held_lt (rep_eq_ok.mp hr).1) hs.toOk ⟨hs,hcap⟩

theorem copyOnWrite_gives (hok : h.Ok) (hp : h.heap.get v = some p) (hl : p.Stores l) :
    Gives h v (h.copyOnWrite v) fun q => q.Stores l ∧ q.mCapacity = p.mCapacity := by
  obtain ⟨r,c,hr,rfl⟩ := exists_rep hp
  have hlt := hl.length_lt
  have hcap := hl.capacity_lt
  have hlen := hl.length_eq
  have hmod : c.obj.mCapacity % 2^32 = c.obj.mCapacity := Nat.mod_eq_of_lt (by omega)
  simp only [copyOnWrite, hr, ok_bind]
  split_ifs with hshared
  · have hcopy := copy_gives hok hr hl (n := c.obj.mCapacity) (by omega) (by omega)
    rw [hmod] at hcopy
    exact hcopy
  · exact same_gives hok hp ⟨hl,rfl⟩

/-- The new capacity is passed as an int. -/
theorem reserve_gives (hok : h.Ok) (hp : h.heap.get v = some p) (hl : p.Stores l) {n : ℕ}
    (hlt : l.length < newCapacity p.mCapacity n % 2^32)
    (hn : newCapacity p.mCapacity n % 2^32 < 2^31) :
    Gives h v (h.reserve v n) fun q => q.Stores l ∧
      q.mCapacity = newCapacity p.mCapacity n % 2^32 := by
  obtain ⟨r,c,hr,rfl⟩ := exists_rep hp
  have hcap := hl.capacity_lt
  by_cases hroom : n ≤ c.obj.mCapacity
  · have hsame : newCapacity c.obj.mCapacity n = c.obj.mCapacity := if_pos hroom
    simp only [reserve, hr, ok_bind]
    rw [if_neg (by omega), hsame]
    exact same_gives hok hp ⟨hl,(Nat.mod_eq_of_lt (by omega)).symm⟩
  · rw [reserve_grows hr hcap (by omega)]
    exact copy_gives hok hr hl hlt hn

/-- A capacity that is negative as an int throws. -/
theorem reserve_throws (hp : h.heap.get v = some p) (hcap : p.mCapacity < 2^31) {n : ℕ}
    (hn : 2^31 ≤ newCapacity p.mCapacity n % 2^32) : h.reserve v n = .error .lengthError := by
  obtain ⟨r,c,hr,rfl⟩ := exists_rep hp
  have hgrow : c.obj.mCapacity < n := by
    by_contra hle
    rw [newCapacity, if_pos (by omega)] at hn
    omega
  rw [reserve_grows hr hcap hgrow, Rep.new_throws _ hn]
  rfl

theorem room_gives (hok : h.Ok) (hp : h.heap.get v = some p) (hl : p.Stores l) {n : ℕ}
    (hroom : Room p n) : Gives h v (h.reserve v n) fun q => q.Stores l ∧
      q.mCapacity = newCapacity p.mCapacity n := by
  have hge := newCapacity_ge p.mCapacity n
  have hlt := hl.length_lt
  have hlen := hl.length_eq
  have hmod : newCapacity p.mCapacity n % 2^32 = newCapacity p.mCapacity n :=
    Nat.mod_eq_of_lt (by omega)
  have hreserve := reserve_gives hok hp hl (n := n) (by omega) (by omega)
  rw [hmod] at hreserve
  exact hreserve

/-- Write into the gap. -/
theorem gap_gives {pos k : ℕ} {cs : List UInt8} (hok : h.Ok) (hp : h.heap.get v = some p)
    (hg : p.Gapped l pos k) (hk : cs.length = k) (hpos : pos < l.length)
    (hfit : l.length+k < p.mCapacity) : Gives h v (h.edit v fun p => do
      let p ← p.setAt pos cs
      p.terminate (add32 p.mLength k)) fun q => q.Stores (l.take pos ++ cs ++ l.drop pos) := by
  subst hk
  have hcap := hg.capacity_lt
  have hlen := hg.length_eq
  obtain ⟨q,hq,hs,-⟩ := hg.fill hpos.le hfit rfl
  apply edit_gives hok hp
  refine ⟨q,?_,hs.toOk,hs⟩
  have hsum : add32 p.mLength cs.length = (l.take pos ++ cs ++ l.drop pos).length := by
    rw [add32_of_lt (by omega), List.length_append, List.length_append, List.length_take,
      List.length_drop, Nat.min_eq_left hpos.le]
    omega
  rw [Rep.setAt_returns hg.toOk (by omega), ok_bind] at hq ⊢
  show Rep.terminate _ (add32 p.mLength cs.length) = _
  rw [hsum]
  exact hq

section Cuts
variable {pos n1 : ℕ} {cs : List UInt8}

theorem cut_length (hn : n1 ≤ l.length-pos) :
    (l.take pos ++ l.drop (pos+n1)).length = l.length-n1 := by
  rw [List.length_append, List.length_take, List.length_drop]
  omega

theorem cut_at_end (hend : pos ≥ l.length-n1) :
    l.take pos ++ l.drop (pos+n1) ++ cs = l.take pos ++ cs ++ l.drop (pos+n1) := by
  rw [List.drop_of_length_le (by omega), List.append_nil, List.append_nil]

theorem cut_before_end (hpos : pos < l.length) :
    (l.take pos ++ l.drop (pos+n1)).take pos ++ cs ++ (l.take pos ++ l.drop (pos+n1)).drop pos =
      l.take pos ++ cs ++ l.drop (pos+n1) := by
  have hlen : (l.take pos).length = pos := by
    rw [List.length_take]
    omega
  rw [List.take_left' hlen, List.drop_left' hlen]

theorem cut_nothing (hpos : l.length ≤ pos) (hcs : cs.length = 0) :
    l.take pos ++ cs ++ l.drop (pos+n1) = l := by
  rw [List.length_eq_zero_iff.mp hcs, List.append_nil, List.take_of_length_le hpos,
    List.drop_of_length_le (by omega), List.append_nil]

end Cuts

/-- A replace has its two capacities, and begins before the end if it puts something in. -/
def ReplaceFits (p : Rep) (pos n1 n2 k : ℕ) : Prop :=
  pos < p.mLength ∧ Room p (replacedLength p n1 n2) ∧
      newCapacity (newCapacity p.mCapacity (replacedLength p n1 n2)) (p.mLength-n1+k+1) < 2^31 ∨
    p.mLength ≤ pos ∧ k = 0

section Calls
variable (hok : h.Ok) (hp : h.heap.get v = some p) (hl : p.Stores l)
include hok hp hl

/-- Write behind the string, in a Rep with room for it. -/
theorem behind_gives {cs : List UInt8} {k : ℕ} (hk : cs.length = k)
    (hfit : l.length+k < p.mCapacity) : Gives h v (h.edit v fun p => do
      let p ← p.setAt p.mLength cs
      p.terminate (add32 p.mLength k)) fun q => q.Stores (l ++ cs) := by
  have hcap := hl.capacity_lt
  have hlen := hl.length_eq
  obtain ⟨q,hq,hs,-⟩ := hl.append (show l.length+cs.length < p.mCapacity by omega)
  apply edit_gives hok hp
  refine ⟨q,?_,hs.toOk,hs⟩
  have hsum : add32 p.mLength k = (l ++ cs).length := by
    rw [add32_of_lt (by omega), List.length_append, hlen, hk]
  rw [Rep.setAt_returns hl.toOk (by omega), ok_bind] at hq ⊢
  show Rep.terminate _ (add32 p.mLength k) = _
  rw [hsum]
  exact hq

theorem appendChars_gives {a : Source} (ha : a.Denotes h v)
    (hroom : Room p (p.mLength+a.chars.length+1)) :
    Gives h v (h.appendChars v a.s a.n) fun q => q.Stores (l ++ a.chars) := by
  have hle := le_newCapacity p.mCapacity (p.mLength+a.chars.length+1)
  have hlen := hl.length_eq
  simp only [appendChars, ha.length, length_eq hp, ok_bind, add32_room hroom]
  apply (room_gives hok hp hl hroom).bind
  intro h₁ q hok₁ hq hP hk
  rw [(ha.keep hk).chars, ok_bind]
  exact behind_gives hok₁ hq hP.1 rfl (by rw [hP.2]; omega)

theorem appendFill_gives {n : ℕ} {c : UInt8} (hroom : Room p (p.mLength+n+1)) :
    Gives h v (h.appendFill v n c) fun q => q.Stores (l ++ List.replicate n c) := by
  have hle := le_newCapacity p.mCapacity (p.mLength+n+1)
  have hlen := hl.length_eq
  simp only [appendFill, length_eq hp, ok_bind, add32_room hroom]
  apply (room_gives hok hp hl hroom).bind
  intro h₁ q hok₁ hq hP _
  exact behind_gives hok₁ hq hP.1 List.length_replicate (by rw [hP.2]; omega)

theorem openGap_gives {pos n : ℕ} (hpos : pos < l.length) (hroom : Room p (p.mLength+n+1)) :
    Gives h v (h.openGap v pos n) fun q => q.Gapped l pos n ∧ l.length+n < q.mCapacity := by
  have hle := le_newCapacity p.mCapacity (p.mLength+n+1)
  have hlen := hl.length_eq
  have hlt := hl.length_lt
  have hcap := hl.capacity_lt
  apply (copyOnWrite_gives hok hp hl).bind
  intro h₁ q₁ hok₁ hq₁ hP₁ _
  have hlen₁ : q₁.mLength = p.mLength := hP₁.1.length_eq.trans hlen.symm
  have hroom₁ : Room q₁ (p.mLength+n+1) := by
    unfold Room
    rw [hP₁.2]
    exact hroom
  rw [length_eq hq₁, ok_bind, hlen₁, add32_room hroom]
  apply (room_gives hok₁ hq₁ hP₁.1 hroom₁).bind
  intro h₂ q₂ hok₂ hq₂ hP₂ _
  have hfit : l.length+n < q₂.mCapacity := by
    rw [hP₂.2, hP₁.2]
    omega
  obtain ⟨q,hq,hg,hqcap⟩ := hP₂.1.shiftUp hpos.le hfit.le
  apply edit_gives hok₂ hq₂
  refine ⟨q,?_,hg.toOk,hg,by rw [hqcap]; exact hfit⟩
  rw [hP₂.1.length_eq, turns_eq (by omega) hpos]
  exact hq

theorem insertChars_gives {pos : ℕ} {a : Source} (ha : a.Denotes h v) (hpos : pos < l.length)
    (hroom : Room p (p.mLength+a.chars.length+1)) :
    Gives h v (h.insertChars v pos a.s a.n) fun q =>
      q.Stores (l.take pos ++ a.chars ++ l.drop pos) := by
  have hlen := hl.length_eq
  simp only [insertChars, ha.length, length_eq hp, ok_bind]
  rw [if_neg (by omega)]
  apply (openGap_gives hok hp hl hpos hroom).bind
  intro h₁ q hok₁ hq hP hk
  rw [(ha.keep hk).chars, ok_bind]
  exact gap_gives hok₁ hq hP.1 rfl hpos hP.2

theorem insertFill_gives {pos n : ℕ} {c : UInt8} (hpos : pos < l.length)
    (hroom : Room p (p.mLength+n+1)) : Gives h v (h.insertFill v pos n c) fun q =>
      q.Stores (l.take pos ++ List.replicate n c ++ l.drop pos) := by
  have hlen := hl.length_eq
  simp only [insertFill, length_eq hp, ok_bind]
  rw [if_neg (by omega)]
  apply (openGap_gives hok hp hl hpos hroom).bind
  intro h₁ q hok₁ hq hP _
  exact gap_gives hok₁ hq hP.1 List.length_replicate hpos hP.2

theorem erase_gives {pos n : ℕ} (hn : n ≤ l.length-pos) : Gives h v (h.erase v pos n) fun q =>
    q.Stores (l.take pos ++ l.drop (pos+n)) ∧ q.mCapacity = p.mCapacity := by
  apply (copyOnWrite_gives hok hp hl).bind
  intro h₁ q hok₁ hq hP _
  obtain ⟨q',he,hs,hcap⟩ := hP.1.erase hn
  exact edit_gives hok₁ hq ⟨q',he,hs.toOk,hs,hcap.trans hP.2⟩

theorem cutOut_gives {pos n1 n2 : ℕ} (hn : n1 ≤ l.length-pos)
    (hroom : Room p (replacedLength p n1 n2)) : Gives h v (h.cutOut v pos n1 n2) fun q =>
      q.Stores (l.take pos ++ l.drop (pos+n1)) ∧
        q.mCapacity = newCapacity p.mCapacity (replacedLength p n1 n2) := by
  have hle := le_newCapacity p.mCapacity (replacedLength p n1 n2)
  simp only [cutOut, length_eq hp, ok_bind]
  rw [if_pos (show replacedLength p n1 n2 < 2^31 by omega)]
  apply (copyOnWrite_gives hok hp hl).bind
  intro h₁ q₁ hok₁ hq₁ hP₁ _
  have hroom₁ : Room q₁ (replacedLength p n1 n2) := by
    unfold Room
    rw [hP₁.2]
    exact hroom
  apply (room_gives hok₁ hq₁ hP₁.1 hroom₁).bind
  intro h₂ q₂ hok₂ hq₂ hP₂ _
  apply (erase_gives hok₂ hq₂ hP₂.1 hn).imp
  rintro q ⟨hs,hcap⟩
  exact ⟨hs,by rw [hcap, hP₂.2, hP₁.2]⟩

/-- What is cut out at the end is appended, what is cut out before it is inserted, and past the end
nothing is put in. -/
theorem replace_gives {pos n1 n2 : ℕ} {cs : List UInt8} {app ins : Strings → Exec Strings}
    (hn : n1 ≤ l.length-pos) (hfit : ReplaceFits p pos n1 n2 cs.length)
    (happ : ∀ h₁ q l₁, h₁.Ok → h₁.heap.get v = some q → q.Stores l₁ → Leaves v h h₁ →
      Room q (q.mLength+cs.length+1) → Gives h₁ v (app h₁) (·.Stores (l₁ ++ cs)))
    (hins : ∀ h₁ q l₁, h₁.Ok → h₁.heap.get v = some q → q.Stores l₁ → Leaves v h h₁ →
      pos < l₁.length → Room q (q.mLength+cs.length+1) →
      Gives h₁ v (ins h₁) (·.Stores (l₁.take pos ++ cs ++ l₁.drop pos))) :
    Gives h v (do
      let length ← h.length v
      if pos ≥ length then .ok h
      else
        let h ← h.cutOut v pos n1 n2
        let length ← h.length v
        if pos ≥ length then app h else ins h) (·.Stores (l.take pos ++ cs ++ l.drop (pos+n1))) := by
  have hlen := hl.length_eq
  rw [length_eq hp, ok_bind]
  rcases hfit with ⟨hpos,hroom,hroom'⟩ | ⟨hpos,hk⟩
  · rw [if_neg (Nat.not_le.mpr hpos)]
    rw [hlen] at hpos hroom'
    apply (cutOut_gives hok hp hl hn hroom).bind
    intro h₁ q hok₁ hq hP hk
    have hcut := cut_length hn
    have hqlen := hP.1.length_eq.trans hcut
    have hroom₁ : Room q (q.mLength+cs.length+1) := by
      unfold Room
      rw [hP.2, hqlen]
      exact hroom'
    rw [length_eq hq, ok_bind, hqlen]
    -- the length is read again, behind the cut
    split_ifs with hend
    · rw [← cut_at_end hend]
      exact happ h₁ q _ hok₁ hq hP.1 hk hroom₁
    · rw [← cut_before_end hpos]
      exact hins h₁ q _ hok₁ hq hP.1 hk (by omega) hroom₁
  · rw [if_pos hpos, cut_nothing (hlen ▸ hpos) hk]
    exact same_gives hok hp hl

theorem replaceChars_gives {pos n1 : ℕ} {a : Source} (ha : a.Denotes h v)
    (hn : n1 ≤ l.length-pos) (hfit : ReplaceFits p pos n1 a.n a.chars.length) :
    Gives h v (h.replaceChars v pos n1 a.s a.n)
      (·.Stores (l.take pos ++ a.chars ++ l.drop (pos+n1))) := by
  apply replace_gives hok hp hl hn hfit
  · intro h₁ q l₁ hok₁ hq hs hk hroom
    exact appendChars_gives hok₁ hq hs (ha.keep hk) hroom
  · intro h₁ q l₁ hok₁ hq hs hk hpos hroom
    exact insertChars_gives hok₁ hq hs (ha.keep hk) hpos hroom

theorem replaceFill_gives {pos n1 n2 : ℕ} {c : UInt8} (hn : n1 ≤ l.length-pos)
    (hfit : ReplaceFits p pos n1 n2 n2) : Gives h v (h.replaceFill v pos n1 n2 c)
      (·.Stores (l.take pos ++ List.replicate n2 c ++ l.drop (pos+n1))) := by
  have hlen : (List.replicate n2 c).length = n2 := List.length_replicate
  apply replace_gives hok hp hl hn (by rwa [hlen])
  · intro h₁ q l₁ hok₁ hq hs _ hroom
    rw [hlen] at hroom
    exact appendFill_gives hok₁ hq hs hroom
  · intro h₁ q l₁ hok₁ hq hs _ hpos hroom
    rw [hlen] at hroom
    exact insertFill_gives hok₁ hq hs hpos hroom

theorem resize_gives {n : ℕ} {c : UInt8} (hroom : Room p (n+1)) :
    Gives h v (h.resize v n c) fun q =>
      q.Stores (l.take n ++ List.replicate (n-l.length) c) := by
  have hle := le_newCapacity p.mCapacity (n+1)
  simp only [resize, add32_of_lt (show n+1 < 2^32 by omega)]
  apply (room_gives hok hp hl hroom).bind
  intro h₁ q hok₁ hq hP _
  obtain ⟨q',he,hs,-⟩ := hP.1.resize (n := n) (by rw [hP.2]; omega) c
  exact edit_gives hok₁ hq ⟨q',he,hs.toOk,hs⟩

end Calls

end Strings

end JhCommon
