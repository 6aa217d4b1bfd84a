import JhCommon.StringEdits
import JhCommon.StringValues

/-! Sequences of edits of a string against the same sequences on a list of characters. -/
namespace JhCommon
open RingMemory Word32 Transition

namespace Strings

/-- The Rep of the string that `substr` returns. -/
def substr (h : Strings) (v pos n : ℕ) : Exec Rep := do
  let (r,c) ← h.rep v
  if pos ≥ c.obj.mLength then Rep.new (h.raw h.heap.fresh) 32
  else
    let n := if add32 pos n > c.obj.mLength then c.obj.mLength-pos else n
    let n ← (CharPtr.inRep r pos).lengthOf h.heap n
    Rep.newFrom (h.raw h.heap.fresh) h.heap (.inRep r pos) n

end Strings

open Strings

/-- The calls on a string that change it, or copy a part of it. -/
inductive Edit
  | append (a : Source)
  | appendFill (n : ℕ) (c : UInt8)
  | insert (pos : ℕ) (a : Source)
  | insertFill (pos n : ℕ) (c : UInt8)
  | erase (pos n : ℕ)
  | replace (pos n1 : ℕ) (a : Source)
  | replaceFill (pos n1 n2 : ℕ) (c : UInt8)
  | substr (pos n : ℕ)
  | resize (n : ℕ) (c : UInt8)
  | reserve (res : ℕ)

namespace Edit

/-- The call, next to the string that substr returns. -/
def step (v : ℕ) (h : Strings) : Edit → Exec (Option Rep × Strings)
  | append a => (none,·) <$> h.appendChars v a.s a.n
  | appendFill n c => (none,·) <$> h.appendFill v n c
  | insert pos a => (none,·) <$> h.insertChars v pos a.s a.n
  | insertFill pos n c => (none,·) <$> h.insertFill v pos n c
  | erase pos n => (none,·) <$> h.erase v pos n
  | replace pos n1 a => (none,·) <$> h.replaceChars v pos n1 a.s a.n
  | replaceFill pos n1 n2 c => (none,·) <$> h.replaceFill v pos n1 n2 c
  | substr pos n => (fun q => (some q,h)) <$> h.substr v pos n
  | resize n c => (none,·) <$> h.resize v n c
  | reserve res => (none,·) <$> h.reserve v res

/-- What the operation makes of a list of characters. -/
def onList (l : List UInt8) : Edit → List UInt8
  | append a => l ++ a.chars
  | appendFill n c => l ++ List.replicate n c
  | insert pos a => l.take pos ++ a.chars ++ l.drop pos
  | insertFill pos n c => l.take pos ++ List.replicate n c ++ l.drop pos
  | erase pos n => l.take pos ++ l.drop (pos+n)
  | replace pos n1 a => l.take pos ++ a.chars ++ l.drop (pos+n1)
  | replaceFill pos n1 n2 c => l.take pos ++ List.replicate n2 c ++ l.drop (pos+n1)
  | resize n c => l.take n ++ List.replicate (n-l.length) c
  | substr _ _ | reserve _ => l

/-- The list that the operation returns, if it returns one. -/
def part (l : List UInt8) : Edit → Option (List UInt8)
  | substr pos n => some ((l.drop pos).take n)
  | append _ | appendFill _ _ | insert _ _ | insertFill _ _ _ | erase _ _ | replace _ _ _
  | replaceFill _ _ _ _ | resize _ _ | reserve _ => none

def Means (l : List UInt8) (e : Edit) (o : Option Rep) (l' : List UInt8) : Prop :=
  l' = e.onList l ∧ Option.Rel Rep.Stores o (e.part l)

/-- Insertions are before the end, what is taken out is there, and sources do not alias. -/
def Admits (h : Strings) (v length : ℕ) : Edit → Prop
  | append a => a.Denotes h v
  | insert pos a => pos < length ∧ a.Denotes h v
  | insertFill pos _ _ => pos < length
  | erase pos n | replaceFill pos n _ _ => n ≤ length-pos
  | replace pos n1 a => n1 ≤ length-pos ∧ a.Denotes h v
  | appendFill _ _ | substr _ _ | resize _ _ | reserve _ => True

/-- The capacities fit an int, and substr adds up to less than 2^32 or runs into the end. -/
def Fits (p : Rep) : Edit → Prop
  | append a | insert _ a => Room p (p.mLength+a.chars.length+1)
  | appendFill n _ | insertFill _ n _ => Room p (p.mLength+n+1)
  | erase _ _ => True
  | replace pos n1 a => ReplaceFits p pos n1 a.n a.chars.length
  | replaceFill pos n1 n2 _ => ReplaceFits p pos n1 n2 n2
  | substr pos n => p.mLength ≤ pos ∨ pos+n < 2^32 ∨
      n = npos ∧ 0 ∉ load p.mData pos (p.mLength-pos)
  | resize n _ => Room p (n+1)
  -- the new capacity may be cut to 32 bits, as long as the string still goes into it
  | reserve res => p.mLength < newCapacity p.mCapacity res % 2^32 ∧
      newCapacity p.mCapacity res % 2^32 < 2^31

def Admitted (v : ℕ) (h : Strings) (e : Edit) : Prop :=
  ∀ p, h.heap.get v = some p → e.Admits h v p.mLength

def Fitting (v : ℕ) (h : Strings) (e : Edit) : Prop := ∀ p, h.heap.get v = some p → e.Fits p

end Edit

namespace Strings

/-- The variable v holds a well-formed Rep with these characters. -/
def Holds (v : ℕ) (h : Strings) (l : List UInt8) : Prop :=
  h.Ok ∧ ∃ p, h.heap.get v = some p ∧ p.Stores l

variable {h : Strings} {v : ℕ} {p : Rep} {l : List UInt8} {pos n : ℕ}

/-- Without a null character in between, strlen finds the one behind the string. -/
theorem strlen_part {r : ℕ} {c : RefCount Rep} (hr : h.rep v = .ok (r,c)) (hl : c.obj.Stores l)
    (hpos : pos ≤ l.length) (hnul : 0 ∉ l.drop pos) :
    (CharPtr.inRep r pos).strlen h.heap = .ok (l.length-pos) := by
  have hlt := hl.length_lt
  have hlen := hl.length_eq
  have hnull := hl.null
  have hrest : c.obj.mCapacity-pos = l.length-pos+(1+(c.obj.mCapacity-l.length-1)) := by omega
  have hnone : (l.drop pos).findIdx? (· = 0) = none := by
    rw [List.findIdx?_eq_none_iff]
    intro d hd
    exact decide_eq_false fun hd0 => hnul (hd0 ▸ hd)
  have hend : load c.obj.mData l.length 1 = [0] := by
    rw [← hlen]
    exact congrArg (fun d => [d]) hnull
  simp only [CharPtr.strlen, RefHeap.deref, (rep_eq_ok.mp hr).2, ok_bind, hl.toOk.size_eq]
  rw [hrest, load_add, load_add, (hl.load_split hpos).2, Nat.add_sub_of_le hpos, hend,
    List.findIdx?_append, hnone, List.length_drop]
  simp [List.findIdx?_cons]

/-- A new string of n characters from pos on. -/
theorem newFrom_part {r : ℕ} {c : RefCount Rep} (raw : ℕ → UInt8) (hr : h.rep v = .ok (r,c))
    (hl : c.obj.Stores l) (hfit : pos+n ≤ l.length) :
    ∃ q, Rep.newFrom raw h.heap (.inRep r pos) n = .ok q ∧ q.Stores ((l.drop pos).take n) := by
  have hlt := hl.length_lt
  have hcap := hl.capacity_lt
  have hlen := hl.length_eq
  obtain ⟨q,hq,hs,-⟩ := Rep.assign_stores
    (p := { mCapacity := n+1, mLength := 0, mData := raw }) (by show n+1 < 2^31; omega)
    (Nat.lt_succ_self n) (read_part hr hl hfit)
  refine ⟨q,?_,hs⟩
  rw [Rep.newFrom, add32_of_lt (by omega)]
  exact hq

theorem newFrom_rest {r : ℕ} {c : RefCount Rep} (raw : ℕ → UInt8) (hr : h.rep v = .ok (r,c))
    (hl : c.obj.Stores l) (hpos : pos ≤ l.length) :
    ∃ q, Rep.newFrom raw h.heap (.inRep r pos) (l.length-pos) = .ok q ∧ q.Stores (l.drop pos) := by
  have hrest := newFrom_part (n := l.length-pos) raw hr hl (Nat.add_sub_of_le hpos).le
  rw [← List.length_drop, List.take_length, List.length_drop] at hrest
  exact hrest

theorem substr_returns (hp : h.heap.get v = some p) (hl : p.Stores l)
    (hn : l.length ≤ pos ∨ pos+n < 2^32 ∨ n = npos ∧ 0 ∉ l.drop pos) :
    ∃ q, h.substr v pos n = .ok q ∧ q.Stores ((l.drop pos).take n) := by
  obtain ⟨r,c,hr,rfl⟩ := exists_rep hp
  have hlen := hl.length_eq
  have hlt := hl.length_lt
  have hcap := hl.capacity_lt
  simp only [substr, hr, ok_bind]
  by_cases hpos : pos ≥ c.obj.mLength
  · rw [if_pos hpos, Rep.new_returns _ (by omega), List.drop_of_length_le (by omega), List.take_nil]
    exact ⟨_,rfl,⟨⟨Nat.zero_lt_succ 31,by norm_num⟩,rfl,load_store _ 0 [0]⟩⟩
  rw [if_neg hpos]
  -- past the end n becomes the number of characters that are left
  by_cases hpast : add32 pos n > c.obj.mLength
  · have hge : l.length-pos ≤ n := by
      rcases hn.resolve_left (by omega) with hn | ⟨rfl,-⟩
      · rw [add32_of_lt hn] at hpast
        omega
      · unfold npos
        omega
    have hne : l.length-pos ≠ npos := by
      unfold npos
      omega
    rw [List.take_of_length_le (by rw [List.length_drop]; exact hge), if_pos hpast, hlen,
      CharPtr.lengthOf, if_neg hne, ok_bind]
    exact newFrom_rest _ hr hl (by omega)
  rw [if_neg hpast]
  by_cases hsum : pos+n < 2^32
  · rw [add32_of_lt hsum] at hpast
    have hne : n ≠ npos := by
      unfold npos
      omega
    rw [CharPtr.lengthOf, if_neg hne, ok_bind]
    exact newFrom_part _ hr hl (by omega)
  · -- n is npos, and the constructor looks for the end itself
    obtain ⟨rfl,hnul⟩ := (hn.resolve_left (by omega)).resolve_left hsum
    have hge : l.length-pos ≤ npos := by
      unfold npos
      omega
    rw [List.take_of_length_le (by rw [List.length_drop]; exact hge), CharPtr.lengthOf, if_pos rfl,
      strlen_part hr hl (by omega) hnul, ok_bind, add32_of_lt (by omega), Nat.add_zero, ok_bind]
    exact newFrom_rest _ hr hl (by omega)

end Strings

namespace Edit
variable {h h' : Strings} {v : ℕ} {p : Rep} {l : List UInt8} {e : Edit}

/-- A call that returns nothing else does what the same operation does to the list. -/
theorem quiet {x : Exec Strings} {l' : List UInt8} (hx : Gives h v x (·.Stores l'))
    (he : e.step v h = (none,·) <$> x) (hl' : e.onList l = l') (hpart : e.part l = none) :
    ∃ o h', e.step v h = .ok (o,h') ∧ Means l e o l' ∧ Holds v h' l' := by
  obtain ⟨h₁,q,rfl,hok,hq,hs,-⟩ := hx
  refine ⟨none, h₁, he, ⟨hl'.symm,?_⟩, hok, q, hq, hs⟩
  rw [hpart]
  exact .none

/-- What is left of the buffer behind pos is what is left of the list. -/
theorem substr_fits {pos n : ℕ} (hl : p.Stores l) (hfit : (substr pos n).Fits p) :
    l.length ≤ pos ∨ pos+n < 2^32 ∨ n = npos ∧ 0 ∉ l.drop pos := by
  by_cases hpos : l.length ≤ pos
  · exact .inl hpos
  · rw [Fits, hl.length_eq, (hl.load_split (Nat.not_le.mp hpos).le).2] at hfit
    exact hfit

/-- One call does what the same operation does to the list. -/
theorem step_simulates (hv : Holds v h l) (ha : e.Admitted v h) (hf : e.Fitting v h) :
    ∃ o h', e.step v h = .ok (o,h') ∧ Means l e o (e.onList l) ∧ Holds v h' (e.onList l) := by
  obtain ⟨hok,p,hp,hl⟩ := hv
  have ha := ha p hp
  have hf := hf p hp
  have hlen := hl.length_eq
  cases e with
  | append a => exact quiet (appendChars_gives hok hp hl ha hf) rfl rfl rfl
  | appendFill n c => exact quiet (appendFill_gives hok hp hl hf) rfl rfl rfl
  | insert pos a => exact quiet (insertChars_gives hok hp hl ha.2 (hlen ▸ ha.1) hf) rfl rfl rfl
  | insertFill pos n c => exact quiet (insertFill_gives hok hp hl (hlen ▸ ha) hf) rfl rfl rfl
  | erase pos n => exact quiet ((erase_gives hok hp hl (hlen ▸ ha)).imp fun _ hq => hq.1) rfl rfl rfl
  | replace pos n1 a => exact quiet (replaceChars_gives hok hp hl ha.2 (hlen ▸ ha.1) hf) rfl rfl rfl
  | replaceFill pos n1 n2 c => exact quiet (replaceFill_gives hok hp hl (hlen ▸ ha) hf) rfl rfl rfl
  | substr pos n =>
    obtain ⟨q,hq,hs⟩ := substr_returns hp hl (substr_fits hl hf)
    refine ⟨some q, h, ?_, ⟨rfl,.some hs⟩, hok, p, hp, hl⟩
    simp only [step, hq]
    rfl
  | resize n c => exact quiet (resize_gives hok hp hl hf) rfl rfl rfl
  | reserve res =>
    exact quiet ((reserve_gives hok hp hl (hlen ▸ hf.1) hf.2).imp fun _ hq => hq.1) rfl rfl rfl

/-- In every run whose calls fit, each call returns, does to the string what the same operation
does to the list, and leaves it well formed. -/
theorem edits_simulated (hv : Holds v h l) (es : List Edit)
    (hg : Guarded (step v) (fun h e => e.Admitted v h ∧ e.Fitting v h) h es) :
    Simulated (step v) Means (Holds v) h l es := by
  apply simulated_of_guarded _ _ hv es hg
  intro h l e hv hok
  obtain ⟨o,h',hstep,hmeans,hv'⟩ := step_simulates hv hok.1 hok.2
  exact ⟨o,h',_,hstep,hmeans,hv'⟩

/-- A variable with the string abc. -/
def abc : Strings := (init (fun _ _ => 0) 1).adopt 0
  { mCapacity := 4, mLength := 3, mData := store (fun _ => 0) 0 [97,98,99,0] }

theorem abc_holds : ∃ p, abc.heap.get 0 = some p ∧ p.Stores [97,98,99] ∧ p.mCapacity = 4 ∧ abc.Ok := by
  have habc : Rep.Stores { mCapacity := 4, mLength := 3, mData := store (fun _ => 0) 0 [97,98,99,0] }
      [97,98,99] := ⟨⟨by decide,by decide⟩,rfl,by decide⟩
  obtain ⟨h,p,he,hok,hp,hP,-⟩ := adopt_gives (init_ok (fun _ _ => 0) 1) (v := 0) (by decide)
    habc.toOk (P := fun p => p.Stores [97,98,99] ∧ p.mCapacity = 4) ⟨habc,rfl⟩
  obtain rfl := Except.ok.inj he
  exact ⟨p,hp,hP.1,hP.2,hok⟩

/-- Two characters are inserted into abc, and two are erased. -/
theorem edits_simulated_abc : Simulated (step 0) Means (Holds 0) abc [97,98,99]
    [insert 1 ⟨.literal [120,121],npos,[120,121]⟩,erase 0 2] := by
  obtain ⟨p,hp,hs,hcap,hok⟩ := abc_holds
  have hv : Holds 0 abc [97,98,99] := ⟨hok,p,hp,hs⟩
  have ha : (insert 1 ⟨.literal [120,121],npos,[120,121]⟩).Admitted 0 abc := by
    intro q hq
    obtain rfl := Option.some.inj (hp.symm.trans hq)
    refine ⟨?_, ?_, ?_, ?_⟩
    · rw [hs.length_eq]
      decide
    · simp [CharPtr.lengthOf, CharPtr.strlen]
    · rfl
    · intro r pos hr
      cases hr
  have hf : (insert 1 ⟨.literal [120,121],npos,[120,121]⟩).Fitting 0 abc := by
    intro q hq
    obtain rfl := Option.some.inj (hp.symm.trans hq)
    simp [Fits, Room, hs.length_eq, hcap, newCapacity]
  obtain ⟨o,h,hstep,-,hv'⟩ := step_simulates hv ha hf
  apply edits_simulated hv
  apply Guarded.cons hstep ⟨ha,hf⟩
  refine ⟨⟨?_,fun _ _ => trivial⟩,fun _ _ _ => trivial⟩
  intro q hq
  obtain ⟨-,q',hq',hs'⟩ := hv'
  obtain rfl := Option.some.inj (hq'.symm.trans hq)
  show 2 ≤ q'.mLength-0
  rw [hs'.length_eq]
  decide

/-- A capacity of 2^30 is doubled to a negative int. -/
theorem reserve_overflows :
    Holds 0 abc [97,98,99] ∧ (∀ h e, e ∈ [reserve (2^30),reserve (2^30+1)] → e.Admitted 0 h) ∧
      ¬Simulated (step 0) Means (Holds 0) abc [97,98,99] [reserve (2^30),reserve (2^30+1)] := by
  obtain ⟨p,hp,hs,hcap,hok⟩ := abc_holds
  refine ⟨⟨hok,p,hp,hs⟩, ?_, ?_⟩
  · intro h e he q _
    simp only [List.mem_cons, List.not_mem_nil, or_false] at he
    rcases he with rfl | rfl <;> trivial
  · rintro ⟨-,o,h₁,l₁,hstep,-,-,o',h₂,l₂,hstep',-⟩
    have hnew : newCapacity p.mCapacity (2^30) = 2^30 := by rw [hcap]; rfl
    obtain ⟨h₁',q,he,-,hq,⟨hs₁,hcap₁⟩,-⟩ := reserve_gives (n := 2^30) hok hp hs
      (by rw [hnew]; norm_num) (by rw [hnew]; norm_num)
    rw [hnew] at hcap₁
    obtain rfl : h₁' = h₁ := by
      simp only [step, he] at hstep
      cases hstep
      rfl
    have hthrow : h₁'.reserve 0 (2^30+1) = .error .lengthError := by
      apply reserve_throws hq hs₁.capacity_lt
      rw [hcap₁]
      decide
    simp only [step, hthrow] at hstep'
    cases hstep'

end Edit

end JhCommon
