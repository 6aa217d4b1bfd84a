import Mathlib.Order.Bounds.Defs
import JhCommon.JhString

/-! `find` and `rfind` of `jh_string.h` for a string: which of its places they return. -/
namespace JhCommon
open RingMemory Word32

namespace Rep

/-- `const_at`. Behind the null character a Rep holds nothing of the string. -/
def constAt (p : Rep) (i : ℕ) : Exec UInt8 :=
  if i ≤ p.mLength then .ok (p.mData i) else .error .outOfBounds

/-- The Rep of a NUL-free string. -/
structure Holds (p : Rep) (a : List UInt8) : Prop where
  length_eq : p.mLength = a.length
  length_lt : a.length < npos
  chars : load p.mData 0 (a.length+1) = a ++ [0]
  nul_free : 0 ∉ a

/-- The inner loop: whether what is left of a string stands at i, from its j-th character on. -/
def matchAt (p : Rep) (i : ℕ) : List UInt8 → ℕ → Exec Bool
  | [], _ => .ok true
  | c :: s, j => do
    let d ← p.constAt (add32 j i)
    if d ≠ c then .ok false else matchAt p i s (j+1)

/-- The loop of `find`, with so many turns to go. -/
def findFrom (p : Rep) (s : List UInt8) : ℕ → ℕ → Exec ℕ
  | 0, _ => .ok npos
  | turns+1, i => do
    let found ← p.matchAt i s 0
    if found then .ok i else findFrom p s turns (i+1)

/-- `find` for the n characters s, which the overloads without n take from a string's length or
from strlen. -/
def find (p : Rep) (s : List UInt8) (pos : ℕ) : Exec ℕ :=
  p.findFrom s (sub32 p.mLength s.length-pos) pos

/-- The loop of `rfind`, with an int that is one less. -/
def rfindFrom (p : Rep) (s : List UInt8) : ℕ → Exec ℕ
  | 0 => .ok npos
  | i+1 => do
    let found ← p.matchAt i s 0
    if found then .ok i else rfindFrom p s i

def rfind (p : Rep) (s : List UInt8) (pos : ℕ) : Exec ℕ :=
  let pos := if pos = npos ∨ pos > p.mLength then p.mLength else pos
  p.rfindFrom s (int32 pos+1).toNat

end Rep

/-- The string s stands in a at i. -/
def OccursAt (a s : List UInt8) (i : ℕ) : Prop := i ≤ a.length ∧ s <+: a.drop i

/-- The answer of a search among the places of P. -/
def FirstOrNone (P : ℕ → Prop) (r : ℕ) : Prop := IsLeast {i | P i} r ∨ r = npos ∧ ∀ i, ¬P i

def LastOrNone (P : ℕ → Prop) (r : ℕ) : Prop := IsGreatest {i | P i} r ∨ r = npos ∧ ∀ i, ¬P i

theorem FirstOrNone.congr {P Q : ℕ → Prop} {r : ℕ} (h : ∀ k, P k ↔ Q k) (hr : FirstOrNone P r) :
    FirstOrNone Q r := by
  rwa [show P = Q from funext fun k => propext (h k)] at hr

theorem LastOrNone.congr {P Q : ℕ → Prop} {r : ℕ} (h : ∀ k, P k ↔ Q k) (hr : LastOrNone P r) :
    LastOrNone Q r := by
  rwa [show P = Q from funext fun k => propext (h k)] at hr

variable {a s : List UInt8} {i : ℕ}

theorem OccursAt.length_le (h : OccursAt a s i) : i+s.length ≤ a.length := by
  have hlen := h.2.length_le
  rw [List.length_drop] at hlen
  have := h.1
  omega

namespace Rep
variable {p : Rep}

theorem Holds.constAt_of_lt (hp : p.Holds a) (hi : i < a.length) : p.constAt i = .ok a[i] := by
  have hchar := congrArg (·[i]?) hp.chars
  simp only [load, List.getElem?_map, List.getElem?_range (show i < a.length+1 by omega),
    List.getElem?_append_left hi, List.getElem?_eq_getElem hi, Option.map_some, Nat.zero_add,
    Option.some.injEq] at hchar
  rw [constAt, if_pos (by rw [hp.length_eq]; omega), hchar]

theorem Holds.constAt_length (hp : p.Holds a) : p.constAt a.length = .ok 0 := by
  have hchar := congrArg (·[a.length]?) hp.chars
  simp only [load, List.getElem?_map, List.getElem?_range (Nat.lt_succ_self a.length),
    List.getElem?_append_right le_rfl, Nat.sub_self, Option.map_some, Nat.zero_add,
    List.getElem?_cons_zero, Option.some.injEq] at hchar
  rw [constAt, if_pos (by rw [hp.length_eq]), hchar]

theorem Holds.constAt_of_gt (hp : p.Holds a) (hi : a.length < i) : p.constAt i = .error .outOfBounds := by
  rw [constAt, if_neg (by rw [hp.length_eq]; omega)]

/-- Inside the string the inner loop tells a prefix, and goes no further than the null character. -/
theorem Holds.matchAt_drop (hp : p.Holds a) (hs : 0 ∉ s) {j : ℕ} (hi : i+j ≤ a.length) :
    ∃ found, p.matchAt i s j = .ok found ∧ (found = true ↔ s <+: a.drop (i+j)) := by
  have hlen := hp.length_lt
  have hnpos : npos = 2^32-1 := rfl
  induction s generalizing j with
  | nil => exact ⟨true,rfl,by simp⟩
  | cons c s ih =>
    obtain ⟨hc,hs⟩ := not_or.mp (List.mem_cons.not.mp hs)
    rw [matchAt, add32_of_lt (by omega), Nat.add_comm j i]
    rcases Nat.lt_or_eq_of_le hi with hlt | hend
    · rw [hp.constAt_of_lt hlt, ok_bind, ← List.getElem_cons_drop hlt, List.cons_prefix_cons]
      by_cases hd : a[i+j] = c
      · obtain ⟨found,hmatch,hfound⟩ := ih hs (show i+(j+1) ≤ a.length by omega)
        rw [if_neg (not_not.mpr hd), hmatch]
        exact ⟨found,rfl,hfound.trans ⟨fun h => ⟨hd.symm,h⟩,fun h => h.2⟩⟩
      · rw [if_pos hd]
        exact ⟨false,rfl,by simp [Ne.symm hd]⟩
    · rw [hend, hp.constAt_length, ok_bind, if_pos hc, List.drop_length]
      exact ⟨false,rfl,by simp⟩

theorem Holds.matchAt_zero (hp : p.Holds a) (hs : 0 ∉ s) (hi : i ≤ a.length) :
    ∃ found, p.matchAt i s 0 = .ok found ∧ (found = true ↔ OccursAt a s i) := by
  obtain ⟨found,hmatch,hfound⟩ := hp.matchAt_drop hs (show i+0 ≤ a.length from hi)
  exact ⟨found,hmatch,hfound.trans ⟨fun h => ⟨hi,h⟩,fun h => h.2⟩⟩

/-- As long as it stays inside the string, the loop of `find` returns the first of its places. -/
theorem Holds.findFrom_eq (hp : p.Holds a) (hs : 0 ∉ s) {turns : ℕ}
    (hi : turns = 0 ∨ i+turns ≤ a.length+1) : ∃ r, p.findFrom s turns i = .ok r ∧
      FirstOrNone (fun k => i ≤ k ∧ k < i+turns ∧ OccursAt a s k) r := by
  induction turns generalizing i with
  | zero => exact ⟨npos,rfl,.inr ⟨rfl,fun k h => by omega⟩⟩
  | succ turns ih =>
    obtain ⟨found,hmatch,hfound⟩ := hp.matchAt_zero hs (show i ≤ a.length by omega)
    rw [findFrom, hmatch, ok_bind]
    cases found with
    | true =>
      refine ⟨i,rfl,.inl ⟨⟨le_rfl,by omega,hfound.mp rfl⟩,fun k hk => hk.1⟩⟩
    | false =>
      have hnot : ¬OccursAt a s i := fun h => absurd (hfound.mpr h) (by simp)
      obtain ⟨r,hloop,hr⟩ := ih (show turns = 0 ∨ i+1+turns ≤ a.length+1 by omega)
      refine ⟨r,hloop,hr.congr fun k => ?_⟩
      -- the places from i+1 on are those from i on, as i is none
      have hne : OccursAt a s k → k ≠ i := fun hk he => hnot (he ▸ hk)
      constructor
      · intro hk
        exact ⟨by omega,by omega,hk.2.2⟩
      · intro hk
        have := hne hk.2.2
        exact ⟨by omega,by omega,hk.2.2⟩

/-- A pattern that is longer than the string is not found in it, and the loop runs off its end. -/
theorem Holds.findFrom_long (hp : p.Holds a) (hs : 0 ∉ s) (hlong : a.length < s.length) {turns : ℕ}
    (hi : a.length+1 < i+turns) (hlt : i+turns ≤ 2^32) (hturns : 0 < turns) :
    p.findFrom s turns i = .error .outOfBounds := by
  induction turns generalizing i with
  | zero => omega
  | succ turns ih =>
    rw [findFrom]
    by_cases hin : i ≤ a.length
    · obtain ⟨found,hmatch,hfound⟩ := hp.matchAt_zero hs hin
      have hnot : found = false := by
        rw [← Bool.not_eq_true, hfound]
        intro h
        have := h.length_le
        omega
      rw [hmatch, ok_bind, hnot]
      exact ih (by omega) (by omega) (by omega)
    · obtain ⟨c,s,rfl⟩ : ∃ c rest, s = c :: rest := List.exists_cons_of_length_pos (by omega)
      rw [matchAt, add32_of_lt (by omega), hp.constAt_of_gt (by omega)]
      rfl

theorem Holds.rfindFrom_eq (hp : p.Holds a) (hs : 0 ∉ s) {turns : ℕ} (hturns : turns ≤ a.length+1) :
    ∃ r, p.rfindFrom s turns = .ok r ∧ LastOrNone (fun k => k < turns ∧ OccursAt a s k) r := by
  induction turns with
  | zero => exact ⟨npos,rfl,.inr ⟨rfl,fun k h => by omega⟩⟩
  | succ i ih =>
    obtain ⟨found,hmatch,hfound⟩ := hp.matchAt_zero hs (show i ≤ a.length by omega)
    rw [rfindFrom, hmatch, ok_bind]
    cases found with
    | true => exact ⟨i,rfl,.inl ⟨⟨Nat.lt_succ_self i,hfound.mp rfl⟩,fun k hk => Nat.le_of_lt_succ hk.1⟩⟩
    | false =>
      have hnot : ¬OccursAt a s i := fun h => absurd (hfound.mpr h) (by simp)
      obtain ⟨r,hloop,hr⟩ := ih (by omega)
      refine ⟨r,hloop,hr.congr fun k => ?_⟩
      have hne : OccursAt a s k → k ≠ i := fun hk he => hnot (he ▸ hk)
      constructor
      · intro hk
        exact ⟨by omega,hk.2⟩
      · intro hk
        have := hne hk.2
        exact ⟨by omega,hk.2⟩

/-- The string s is no longer than a, and where it ends a it is found before that; or it is longer,
and pos is so far out that the wrapped bound of the loop is not above it. -/
def FindReaches (a s : List UInt8) (pos : ℕ) : Prop :=
  s.length ≤ a.length ∧ (OccursAt a s (a.length-s.length) → pos ≤ a.length-s.length →
      ∃ i, pos ≤ i ∧ i < a.length-s.length ∧ OccursAt a s i) ∨
    a.length < s.length ∧ 2^32+a.length ≤ pos+s.length

/-- The place to start from is an int, or there is nothing to be found. -/
def RfindReaches (a s : List UInt8) (pos : ℕ) : Prop :=
  min pos a.length < 2^31 ∨ ∀ i ≤ min pos a.length, ¬OccursAt a s i

section Searches
variable {pos : ℕ} (hp : p.Holds a) (hs : 0 ∉ s)
include hp hs

theorem find_iff (hlen : s.length < npos) :
    (∃ r, p.find s pos = .ok r ∧ FirstOrNone (fun i => pos ≤ i ∧ OccursAt a s i) r) ↔
      FindReaches a s pos := by
  have hnpos : npos = 2^32-1 := rfl
  have halen := hp.length_lt
  unfold find FindReaches
  rw [hp.length_eq]
  -- a pattern that is longer than the string makes the bound wrap
  rcases Nat.lt_or_ge a.length s.length with hlong | hshort
  · rw [sub32_of_gt hlong (by omega)]
    have hnone : ∀ i, ¬(pos ≤ i ∧ OccursAt a s i) := by
      rintro i ⟨-,hi⟩
      have := hi.length_le
      omega
    by_cases hout : 2^32+a.length ≤ pos+s.length
    · rw [show 2^32+a.length-s.length-pos = 0 by omega]
      exact iff_of_true ⟨npos,rfl,.inr ⟨rfl,hnone⟩⟩ (.inr ⟨hlong,hout⟩)
    · rw [hp.findFrom_long hs hlong (by omega) (by omega) (by omega)]
      apply iff_of_false
      · rintro ⟨r,hr,-⟩
        cases hr
      · omega
  · rw [sub32_of_le (by omega) hshort]
    -- the loop does not come to the last place where the pattern fits
    have hturns : a.length-s.length-pos = 0 ∨ pos+(a.length-s.length-pos) ≤ a.length+1 := by omega
    obtain ⟨r,hloop,hr⟩ := hp.findFrom_eq hs hturns
    rw [hloop]
    constructor
    · rintro ⟨r',hr',hfull⟩
      obtain rfl := Except.ok.inj hr'
      refine .inl ⟨hshort,fun hend hle => ?_⟩
      rcases hfull with ⟨-,hleast⟩ | ⟨-,hnone⟩
      · have hre := hleast ⟨hle,hend⟩
        rcases hr with ⟨⟨hge,hlt,hocc⟩,-⟩ | ⟨rfl,-⟩
        · exact ⟨r,hge,by omega,hocc⟩
        · omega
      · exact absurd ⟨hle,hend⟩ (hnone _)
    · intro hreach
      obtain ⟨-,hreach⟩ := hreach.resolve_right (by omega)
      refine ⟨r,rfl,?_⟩
      -- what the loop does not come to is the last place only
      rcases hr with ⟨⟨hge,hlt,hocc⟩,hleast⟩ | ⟨rfl,hnone⟩
      · refine .inl ⟨⟨hge,hocc⟩,fun k hk => ?_⟩
        rcases Nat.lt_or_ge k (a.length-s.length) with hk' | hk'
        · exact hleast ⟨hk.1,by have := hk.1; omega,hk.2⟩
        · omega
      · refine .inr ⟨rfl,?_⟩
        rintro k ⟨hge,hk⟩
        have hkle := hk.length_le
        rcases Nat.lt_or_ge k (a.length-s.length) with hk' | hk'
        · exact hnone k ⟨hge,by omega,hk⟩
        · obtain rfl : k = a.length-s.length := by omega
          obtain ⟨i,hi,hi',hocc⟩ := hreach hk hge
          exact hnone i ⟨hi,by omega,hocc⟩

theorem rfind_iff (hpos : pos ≤ npos) :
    (∃ r, p.rfind s pos = .ok r ∧
      LastOrNone (fun i => i ≤ min pos a.length ∧ OccursAt a s i) r) ↔ RfindReaches a s pos := by
  have hnpos : npos = 2^32-1 := rfl
  have halen := hp.length_lt
  have hstart : (if pos = npos ∨ pos > p.mLength then p.mLength else pos) = min pos a.length := by
    rw [hp.length_eq]
    split_ifs <;> omega
  unfold rfind RfindReaches
  simp only [hstart]
  rcases Nat.lt_or_ge (min pos a.length) (2^31) with hint | hwide
  · rw [int32_of_lt hint]
    have hle : min pos a.length+1 ≤ a.length+1 := by omega
    obtain ⟨r,hloop,hr⟩ := hp.rfindFrom_eq hs hle
    have hturns : ((min pos a.length : ℕ)+1 : ℤ).toNat = min pos a.length+1 := by omega
    rw [hturns, hloop]
    exact iff_of_true ⟨r,rfl,hr.congr fun k => and_congr_left' Nat.lt_succ_iff⟩ (.inl hint)
  · have hneg := int32_neg (show min pos a.length < 2^32 by omega) hwide
    have hturns : (int32 (min pos a.length)+1).toNat = 0 := by omega
    rw [hturns, rfindFrom]
    constructor
    · rintro ⟨r,hr,hlast⟩
      obtain rfl := Except.ok.inj hr
      rcases hlast with ⟨⟨hle,-⟩,-⟩ | ⟨-,hnone⟩
      · omega
      · exact .inr fun i hi hocc => hnone i ⟨hi,hocc⟩
    · rintro (h | h)
      · omega
      · exact ⟨npos,rfl,.inr ⟨rfl,fun i hi => h i hi.1 hi.2⟩⟩

/-- When the two searches return the extreme place, and read nothing behind the null character. -/
theorem find_rfind_iff (hlen : s.length < npos) (hpos : pos ≤ npos) :
    ((∃ r, p.find s pos = .ok r ∧ FirstOrNone (fun i => pos ≤ i ∧ OccursAt a s i) r) ↔
      FindReaches a s pos) ∧
    ((∃ r, p.rfind s pos = .ok r ∧
      LastOrNone (fun i => i ≤ min pos a.length ∧ OccursAt a s i) r) ↔ RfindReaches a s pos) :=
  ⟨find_iff hp hs hlen,rfind_iff hp hs hpos⟩

end Searches

/-- The string "aba". -/
def aba : Rep := { mCapacity := 32, mLength := 3, mData := store (fun _ => 0) 0 [97,98,97] }

theorem aba_holds : aba.Holds [97,98,97] := by
  constructor <;> decide

theorem find_rfind_aba :
    ((∃ r, aba.find [97] 0 = .ok r ∧ FirstOrNone (fun i => 0 ≤ i ∧ OccursAt [97,98,97] [97] i) r) ↔
      FindReaches [97,98,97] [97] 0) ∧
    ((∃ r, aba.rfind [97] 0 = .ok r ∧
      LastOrNone (fun i => i ≤ min 0 3 ∧ OccursAt [97,98,97] [97] i) r) ↔
      RfindReaches [97,98,97] [97] 0) :=
  find_rfind_iff aba_holds (by decide) (by decide) (by decide)

/-- The "ba" at the end of "aba" is not found. -/
theorem find_misses_end : ¬∀ (p : Rep) (a s : List UInt8) (pos : ℕ), p.Holds a → 0 ∉ s →
    s.length < npos → pos ≤ npos →
    ∃ r, p.find s pos = .ok r ∧ FirstOrNone (fun i => pos ≤ i ∧ OccursAt a s i) r := by
  intro h
  have hfind := h aba [97,98,97] [98,97] 0 aba_holds (by decide) (by decide) (by decide)
  rcases (find_iff aba_holds (by decide) (by decide)).mp hfind with ⟨-,hend⟩ | ⟨hlong,-⟩
  · obtain ⟨i,-,hi,-,hocc⟩ := hend ⟨by decide,by decide⟩ (by decide)
    obtain rfl : i = 0 := Nat.lt_one_iff.mp hi
    exact absurd hocc (by decide)
  · exact absurd hlong (by decide)

end Rep

end JhCommon
