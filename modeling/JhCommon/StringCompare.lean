import Mathlib.Data.List.Lex
import JhCommon.ListCuts
import JhCommon.StringSearch

/-! `compare` of `jh_string.h`. One index runs over both strings: of two whole strings it makes a
total order, of a range it compares what stands at the same places of the other string. -/
namespace JhCommon
open RingMemory Word32

/-- A char, which is signed. -/
def schar (c : UInt8) : ℤ := if c.toNat < 128 then c.toNat else c.toNat-256

/-- The characters of a C string, and the null character behind them. -/
def charAt (s : List UInt8) (i : ℕ) : Exec UInt8 :=
  match (s ++ [0])[i]? with
  | some c => .ok c
  | none => .error .outOfBounds

/-- The loop of `strlen`, over what reads the characters. -/
def strlenFrom (s : ℕ → Exec UInt8) : ℕ → ℕ → Exec ℕ
  | 0, _ => .error .outOfFuel
  | fuel+1, i => do
    let c ← s i
    if c = 0 then .ok i else strlenFrom s fuel (i+1)

/-- The loop of `compare` with so many turns to go: what it returns, if it does. -/
def compareFrom (a s : ℕ → Exec UInt8) : ℕ → ℕ → Exec (Option ℤ)
  | 0, _ => .ok none
  | turns+1, i => do
    let c ← a i
    let d ← s i
    if schar c > schar d then .ok (some 1)
    else if schar c < schar d then .ok (some (-1))
    else compareFrom a s turns (i+1)

/-- `compare( pos, n, s, rlen )` behind its call of `strlen`. -/
def compareBehind (a s : ℕ → Exec UInt8) (length strLen pos n rlen : ℕ) : Exec ℤ := do
  let rlen := if strLen % 2^32 < rlen then strLen % 2^32 else rlen
  let n := if n = npos then sub32 length pos else n
  match ← compareFrom a s (min n rlen+1-pos) pos with
  | some res => .ok res
  | none => .ok (if n > rlen then -1 else if n < rlen then 1 else 0)

def compareOf (a s : ℕ → Exec UInt8) (length fuel pos n rlen : ℕ) : Exec ℤ := do
  let strLen ← strlenFrom s fuel 0
  compareBehind a s length strLen pos n rlen

namespace Rep

/-- `compare( pos, n, s, rlen )`. -/
def compare (p : Rep) (pos n : ℕ) (s : List UInt8) (rlen : ℕ) : Exec ℤ :=
  compareOf p.constAt (charAt s) p.mLength (s.length+1) pos n rlen

/-- `compare( const basic_string& )`. -/
def compareString (p q : Rep) : Exec ℤ := p.compare 0 npos (load q.mData 0 q.mLength) q.mLength

/-- `compare( const char* )`. -/
def compareChars (p : Rep) (s : List UInt8) : Exec ℤ := p.compare 0 npos s npos

/-- `operator==` of two strings, and `operator!=`. -/
def eqString (p q : Rep) : Exec Bool := do
  let res ← p.compareString q
  .ok (res = 0)

def neString (p q : Rep) : Exec Bool := do
  let res ← p.compareString q
  .ok (res ≠ 0)

/-- These operators of a string and a C string, in either order. -/
def eqChars (p : Rep) (s : List UInt8) : Exec Bool := do
  let res ← p.compareChars s
  .ok (res = 0)

def neChars (p : Rep) (s : List UInt8) : Exec Bool := do
  let res ← p.compareChars s
  .ok (res ≠ 0)

end Rep

theorem schar_injective : Function.Injective schar := by
  intro c d h
  have hc := c.toNat_lt
  have hd := d.toNat_lt
  unfold schar at h
  apply UInt8.toNat_inj.mp
  split_ifs at h <;> omega

theorem charAt_eq {s : List UInt8} {i : ℕ} (hi : i < (s ++ [0]).length) :
    charAt s i = .ok (s ++ [0])[i] := by
  rw [charAt, List.getElem?_eq_getElem hi]

/-- `strlen` reads to the null character, where it may. -/
theorem strlenFrom_eq {s : List UInt8} (hs : 0 ∉ s) (read : ℕ → Exec UInt8)
    (hread : ∀ i, read i = charAt s i ∨ read i = .error .outOfBounds) {fuel i : ℕ}
    (hi : i ≤ s.length) (hfuel : s.length < fuel+i) {len : ℕ} :
    strlenFrom read fuel i = .ok len ↔
      len = s.length ∧ ∀ j, i ≤ j → j ≤ s.length → read j = charAt s j := by
  induction fuel generalizing i with
  | zero => omega
  | succ fuel ih =>
    have his : i < (s ++ [0]).length := by
      rw [List.length_append, List.length_singleton]
      omega
    rw [strlenFrom]
    rcases hread i with heq | hfault
    · rw [heq, charAt_eq his, ok_bind]
      rcases Nat.lt_or_ge i s.length with hlt | hge
      · have hchar : (s ++ [0])[i] ≠ 0 := by
          rw [List.getElem_append_left hlt]
          exact fun h => hs (h ▸ List.getElem_mem hlt)
        rw [if_neg hchar, ih hlt (by omega)]
        refine and_congr_right fun _ => ⟨fun h j hij => ?_,fun h j hij => h j (by omega)⟩
        rcases hij.eq_or_lt with rfl | hij
        · exact fun _ => heq
        · exact h j hij
      · obtain rfl : i = s.length := by omega
        rw [List.getElem_concat_length rfl, if_pos rfl]
        constructor
        · intro hlen
          refine ⟨(Except.ok.inj hlen).symm,fun j hij hjs => ?_⟩
          rwa [Nat.le_antisymm hjs hij]
        · rintro ⟨rfl,-⟩
          rfl
    · rw [hfault, error_bind]
      refine iff_of_false (by simp) fun h => ?_
      have hok := h.2 i le_rfl hi
      rw [hfault, charAt_eq his] at hok
      cases hok

/-- The characters of a string with its null character, from i on, at most so many. -/
def column (a : List UInt8) (i turns : ℕ) : List ℤ := (((a ++ [0]).drop i).take turns).map schar

theorem column_succ {a : List UInt8} {i : ℕ} (hi : i < (a ++ [0]).length) (turns : ℕ) :
    column a i (turns+1) = schar (a ++ [0])[i] :: column a (i+1) turns := by
  rw [column, ← List.getElem_cons_drop hi, List.take_succ_cons, List.map_cons, column]

/-- One turn, where both characters can be read. -/
theorem compareFrom_succ {x y : ℕ → Exec UInt8} {i : ℕ} {c d : UInt8} (hc : x i = .ok c)
    (hd : y i = .ok d) (turns : ℕ) : compareFrom x y (turns+1) i =
      if schar c > schar d then .ok (some 1)
      else if schar c < schar d then .ok (some (-1))
      else compareFrom x y turns (i+1) := by
  rw [compareFrom, hc, hd]
  rfl

namespace Rep
variable {p : Rep} {a s : List UInt8}

theorem Holds.constAt_eq (hp : p.Holds a) {i : ℕ} (hi : i < (a ++ [0]).length) :
    p.constAt i = .ok (a ++ [0])[i] := by
  have hlen : (a ++ [0]).length = a.length+1 := by simp
  rcases Nat.lt_or_ge i a.length with hlt | hge
  · rw [hp.constAt_of_lt hlt, List.getElem_append_left hlt]
  · obtain rfl : i = a.length := by omega
    rw [hp.constAt_length, List.getElem_concat_length rfl]

/-- The loop compares the columns, and reads no further than the null character of either. -/
theorem Holds.compareFrom_eq (hp : p.Holds a) (hs : 0 ∉ s) {turns i : ℕ}
    (hi : turns = 0 ∨ i+turns ≤ s.length+1 ∧ i ≤ a.length) :
    ∃ o, compareFrom p.constAt (charAt s) turns i = .ok o ∧
      (o = none ∧ column a i turns = column s i turns ∨
        o = some 1 ∧ column s i turns < column a i turns ∨
        o = some (-1) ∧ column a i turns < column s i turns) := by
  induction turns generalizing i with
  | zero => exact ⟨none,rfl,.inl ⟨rfl,rfl⟩⟩
  | succ turns ih =>
    have hia : i < (a ++ [0]).length := by simp only [List.length_append, List.length_singleton]; omega
    have his : i < (s ++ [0]).length := by simp only [List.length_append, List.length_singleton]; omega
    rw [compareFrom_succ (hp.constAt_eq hia) (charAt_eq his), column_succ hia, column_succ his]
    rcases lt_trichotomy (schar (a ++ [0])[i]) (schar (s ++ [0])[i]) with hlt | heq | hgt
    · rw [if_neg (not_lt.mpr hlt.le), if_pos hlt]
      exact ⟨_,rfl,.inr (.inr ⟨rfl,List.cons_lt_cons_iff.mpr (.inl hlt)⟩)⟩
    · have hchar := schar_injective heq
      have hnext : turns = 0 ∨ i+1+turns ≤ s.length+1 ∧ i+1 ≤ a.length := by
        by_contra hend
        obtain rfl : i = a.length := by omega
        rw [List.getElem_concat_length rfl, List.getElem_append_left (by omega)] at hchar
        exact hs (hchar ▸ List.getElem_mem _)
      obtain ⟨o,hloop,ho⟩ := ih hnext
      rw [if_neg (by omega), if_neg (by omega), heq]
      refine ⟨o,hloop,?_⟩
      simpa [List.cons_lt_cons_iff] using ho
    · rw [if_pos hgt]
      exact ⟨_,rfl,.inr (.inl ⟨rfl,List.cons_lt_cons_iff.mpr (.inl hgt)⟩)⟩

/-- How many characters of a string the range has, before it is cut at its end. -/
def rangeLength (a : List UInt8) (pos n : ℕ) : ℕ := if n = npos then a.length-pos else n

/-- How many characters the other range has, as the length of its string is kept in 32 bits. -/
def otherLength (s : List UInt8) (rlen : ℕ) : ℕ := min (s.length % 2^32) rlen

theorem otherLength_le (s : List UInt8) (rlen : ℕ) : otherLength s rlen ≤ s.length :=
  (min_le_left _ _).trans (Nat.mod_le _ _)

/-- The last place that the loop comes to. -/
def lastPlace (a : List UInt8) (pos n : ℕ) (s : List UInt8) (rlen : ℕ) : ℕ :=
  min (rangeLength a pos n) (otherLength s rlen)

/-- At how many places, from pos on, the loop can compare. -/
def places (a : List UInt8) (pos n : ℕ) (s : List UInt8) (rlen : ℕ) : ℕ := lastPlace a pos n s rlen+1-pos

/-- Behind `strlen` there is the loop, and behind it the comparison of the counts. -/
theorem Holds.compareBehind_eq (hp : p.Holds a) {pos : ℕ} (hpos : pos ≤ a.length) (n rlen : ℕ)
    (x y : ℕ → Exec UInt8) : compareBehind x y p.mLength s.length pos n rlen =
      (compareFrom x y (places a pos n s rlen) pos).map fun o =>
        o.getD (if rangeLength a pos n > otherLength s rlen then -1
          else if rangeLength a pos n < otherLength s rlen then 1 else 0) := by
  have hlen := hp.length_lt
  have hnpos : npos = 2^32-1 := rfl
  have hrlen : (if s.length % 2^32 < rlen then s.length % 2^32 else rlen) = otherLength s rlen := by
    unfold otherLength
    split_ifs <;> omega
  have hn : (if n = npos then sub32 p.mLength pos else n) = rangeLength a pos n := by
    rw [hp.length_eq, sub32_of_le (by omega) hpos]
    rfl
  simp only [compareBehind, hrlen, hn, places, lastPlace]
  cases compareFrom x y (min (rangeLength a pos n) (otherLength s rlen)+1-pos) pos with
  | error e => rfl
  | ok o => cases o <;> rfl

theorem places_le {pos : ℕ} (hpos : pos ≤ a.length) (n : ℕ) (s : List UInt8) (rlen : ℕ) :
    places a pos n s rlen = 0 ∨ pos+places a pos n s rlen ≤ s.length+1 ∧ pos ≤ a.length := by
  have hother := otherLength_le s rlen
  unfold places lastPlace
  omega

theorem compare_behind (hs : 0 ∉ s) (pos n rlen : ℕ) : p.compare pos n s rlen =
    compareBehind p.constAt (charAt s) p.mLength s.length pos n rlen := by
  have hlen : strlenFrom (charAt s) (s.length+1) 0 = .ok s.length :=
    (strlenFrom_eq hs _ (fun _ => .inl rfl) (Nat.zero_le _) (by omega)).mpr ⟨rfl,fun _ _ _ => rfl⟩
  rw [compare, compareOf, hlen, ok_bind]

/-- The result is that of the columns from pos to the smaller count, and where they are the same
that of the counts, with its sign the wrong way round. -/
theorem Holds.compare_eq (hp : p.Holds a) (hs : 0 ∉ s) {pos : ℕ} (hpos : pos ≤ a.length) (n rlen : ℕ) :
    ∃ res, p.compare pos n s rlen = .ok res ∧
      (res = 1 ∧ column s pos (places a pos n s rlen) < column a pos (places a pos n s rlen) ∨
        res = -1 ∧ column a pos (places a pos n s rlen) < column s pos (places a pos n s rlen) ∨
        column a pos (places a pos n s rlen) = column s pos (places a pos n s rlen) ∧
          res = if rangeLength a pos n > otherLength s rlen then -1
            else if rangeLength a pos n < otherLength s rlen then 1 else 0) := by
  -- the loop's own answer, and behind it that of the counts
  obtain ⟨o,hloop,ho⟩ := hp.compareFrom_eq hs (places_le hpos n s rlen)
  refine ⟨o.getD (if rangeLength a pos n > otherLength s rlen then -1
    else if rangeLength a pos n < otherLength s rlen then 1 else 0),?_,?_⟩
  · rw [compare_behind hs, hp.compareBehind_eq hpos, hloop]
    rfl
  · rcases ho with ⟨rfl,heq⟩ | ⟨rfl,hgt⟩ | ⟨rfl,hlt⟩
    · exact .inr (.inr ⟨heq,rfl⟩)
    · exact .inl ⟨rfl,hgt⟩
    · exact .inr (.inl ⟨rfl,hlt⟩)

/-- The sign of a comparison. -/
structure SignOf (res : ℤ) (x y : List ℤ) : Prop where
  zero : res = 0 ↔ x = y
  neg : res < 0 ↔ x < y
  pos : 0 < res ↔ y < x

theorem signOf_iff {res : ℤ} {x y : List ℤ} :
    SignOf res x y ↔ res = 0 ∧ x = y ∨ res < 0 ∧ x < y ∨ 0 < res ∧ y < x := by
  constructor
  · intro h
    rcases lt_trichotomy x y with hlt | heq | hgt
    · exact .inr (.inl ⟨h.neg.mpr hlt,hlt⟩)
    · exact .inl ⟨h.zero.mpr heq,heq⟩
    · exact .inr (.inr ⟨h.pos.mpr hgt,hgt⟩)
  · rintro (⟨hres,rfl⟩ | ⟨hres,hlt⟩ | ⟨hres,hgt⟩)
    · exact ⟨by simp [hres],by simp [hres],by simp [hres]⟩
    · exact ⟨iff_of_false (by omega) hlt.ne,iff_of_true hres hlt,iff_of_false (by omega) hlt.asymm⟩
    · exact ⟨iff_of_false (by omega) hgt.ne',iff_of_false (by omega) hgt.asymm,iff_of_true hres hgt⟩

/-- The characters of the two ranges. -/
def rangeOf (a : List UInt8) (pos n : ℕ) : List ℤ := ((a.drop pos).take n).map schar

/-- What stands in the two strings at the same places, from pos to the smaller count, is ordered as
the ranges are; or it is the same, and the counts are ordered the other way round. -/
def CompareAgrees (a : List UInt8) (pos n : ℕ) (s : List UInt8) (rlen : ℕ) : Prop :=
  let x := column a pos (places a pos n s rlen)
  let y := column s pos (places a pos n s rlen)
  rangeOf a pos n = rangeOf s 0 rlen ∧ x = y ∧ rangeLength a pos n = otherLength s rlen ∨
    rangeOf a pos n < rangeOf s 0 rlen ∧ (x < y ∨ x = y ∧ otherLength s rlen < rangeLength a pos n) ∨
    rangeOf s 0 rlen < rangeOf a pos n ∧ (y < x ∨ x = y ∧ rangeLength a pos n < otherLength s rlen)

/-- When `compare` has the sign of the comparison of the ranges. -/
theorem compareAgrees_iff (hp : p.Holds a) (hs : 0 ∉ s) {pos : ℕ} (hpos : pos ≤ a.length) (n rlen : ℕ) :
    (∃ res, p.compare pos n s rlen = .ok res ∧ SignOf res (rangeOf a pos n) (rangeOf s 0 rlen)) ↔
      CompareAgrees a pos n s rlen := by
  obtain ⟨res,hres,hcols⟩ := hp.compare_eq hs hpos n rlen
  have hprop : (∃ res, p.compare pos n s rlen = .ok res ∧
      SignOf res (rangeOf a pos n) (rangeOf s 0 rlen)) ↔
      SignOf res (rangeOf a pos n) (rangeOf s 0 rlen) := by
    constructor
    · rintro ⟨res',hres',hsign⟩
      rwa [Except.ok.inj (hres.symm.trans hres')]
    · exact fun hsign => ⟨res,hres,hsign⟩
  rw [hprop, signOf_iff]
  unfold CompareAgrees
  dsimp only
  rcases hcols with ⟨rfl,hgt⟩ | ⟨rfl,hlt⟩ | ⟨heq,rfl⟩
  · simp [hgt, hgt.asymm, hgt.ne']
  · simp [hlt, hlt.asymm, hlt.ne]
  · simp only [heq, lt_irrefl, false_or, true_and]
    split_ifs with hmore hless
    · simp [hmore, hmore.ne', hmore.asymm]
    · simp [hless, hless.ne, hless.asymm]
    · have hsame : rangeLength a pos n = otherLength s rlen := by omega
      simp [hsame]

/-- An access that is out of bounds elsewhere. -/
def within (ok : ℕ → Prop) [DecidablePred ok] (read : ℕ → Exec UInt8) (i : ℕ) : Exec UInt8 :=
  if ok i then read i else .error .outOfBounds

/-- The places of a range, and that of the null character where the range comes to it. -/
def InRange (a : List UInt8) (pos n i : ℕ) : Prop :=
  pos ≤ i ∧ i < pos+n ∧ i < a.length ∨ i = a.length ∧ a.length ≤ pos+n

instance (a : List UInt8) (pos n : ℕ) : DecidablePred (InRange a pos n) := fun _ =>
  inferInstanceAs (Decidable (_ ∨ _))

/-- If the loop comes to its last place, this is one of both ranges. -/
def EndsWithin (a : List UInt8) (pos n : ℕ) (s : List UInt8) (rlen : ℕ) : Prop :=
  let i := lastPlace a pos n s rlen
  i < pos ∨ column a pos (i-pos) ≠ column s pos (i-pos) ∨ InRange a pos n i ∧ InRange s 0 rlen i

/-- The call where its arguments cannot be read but in their ranges, and the part of it behind
`strlen`. -/
def compareWithin (p : Rep) (a : List UInt8) (pos n : ℕ) (s : List UInt8) (rlen : ℕ) : Exec ℤ :=
  compareOf (within (InRange a pos n) p.constAt) (within (InRange s 0 rlen) (charAt s))
    p.mLength (s.length+1) pos n rlen

def compareBehindWithin (p : Rep) (a : List UInt8) (pos n : ℕ) (s : List UInt8) (rlen : ℕ) : Exec ℤ :=
  compareBehind (within (InRange a pos n) p.constAt) (within (InRange s 0 rlen) (charAt s))
    p.mLength s.length pos n rlen

/-- The answer has the sign of the comparison of the ranges, and such a call gives it too. -/
def ComparesRanges (p : Rep) (a : List UInt8) (pos n : ℕ) (s : List UInt8) (rlen : ℕ)
    (call : Exec ℤ) : Prop :=
  ∃ res, p.compare pos n s rlen = .ok res ∧ SignOf res (rangeOf a pos n) (rangeOf s 0 rlen) ∧
    call = .ok res

section Within
variable {ok ok' : ℕ → Prop} [DecidablePred ok] [DecidablePred ok']

/-- A loop that may read all places but its last one: it goes on as it would without bounds, until
it comes to that place. -/
theorem Holds.compareFrom_within (hp : p.Holds a) (hs : 0 ∉ s) {turns i : ℕ}
    (hi : turns = 0 ∨ i+turns ≤ s.length+1 ∧ i ≤ a.length)
    (hok : ∀ j, i ≤ j → j+1 < i+turns → j ≤ a.length → ok j ∧ ok' j) {o : Option ℤ} :
    compareFrom (within ok p.constAt) (within ok' (charAt s)) turns i = .ok o ↔
      compareFrom p.constAt (charAt s) turns i = .ok o ∧
        (turns = 0 ∨ column a i (turns-1) ≠ column s i (turns-1) ∨ ok (i+turns-1) ∧ ok' (i+turns-1)) := by
  induction turns generalizing i with
  | zero => simp [compareFrom]
  | succ turns ih =>
    have hia : i < (a ++ [0]).length := by simp only [List.length_append, List.length_singleton]; omega
    have his : i < (s ++ [0]).length := by simp only [List.length_append, List.length_singleton]; omega
    cases turns with
    | zero =>
      -- the last place, at which the bounds decide
      have hlast : column a i 0 = column s i 0 := rfl
      by_cases hmay : ok i ∧ ok' i
      · have hx : within ok p.constAt i = p.constAt i := if_pos hmay.1
        have hy : within ok' (charAt s) i = charAt s i := if_pos hmay.2
        simp [compareFrom, hx, hy, hmay]
      · have hfault : compareFrom (within ok p.constAt) (within ok' (charAt s)) 1 i =
            .error .outOfBounds := by
          rw [compareFrom, within, within, hp.constAt_eq hia, charAt_eq his]
          by_cases hx : ok i
          · rw [if_pos hx, if_neg fun hy => hmay ⟨hx,hy⟩]
            rfl
          · rw [if_neg hx]
            rfl
        refine iff_of_false (by rw [hfault]; exact nofun) fun h => ?_
        rcases h.2 with hzero | hdiffer | hlast
        · cases hzero
        · exact hdiffer rfl
        · exact hmay hlast
    | succ turns =>
      obtain ⟨hx,hy⟩ := hok i le_rfl (by omega) (by omega)
      have hcx : within ok p.constAt i = .ok (a ++ [0])[i] := (if_pos hx).trans (hp.constAt_eq hia)
      have hcy : within ok' (charAt s) i = .ok (s ++ [0])[i] := (if_pos hy).trans (charAt_eq his)
      rw [compareFrom_succ hcx hcy, compareFrom_succ (hp.constAt_eq hia) (charAt_eq his),
        Nat.add_sub_cancel, column_succ hia, column_succ his]
      rcases lt_trichotomy (schar (a ++ [0])[i]) (schar (s ++ [0])[i]) with hlt | heq | hgt
      · simp [hlt, hlt.not_gt, hlt.ne]
      · have hchar := schar_injective heq
        have hnext : i+1 ≤ a.length := by
          by_contra hend
          obtain rfl : i = a.length := by omega
          rw [List.getElem_concat_length rfl, List.getElem_append_left (by omega)] at hchar
          exact hs (hchar ▸ List.getElem_mem _)
        have hstep := ih (i := i+1) (.inr ⟨by omega,hnext⟩) fun j hij hj hja => hok j (by omega)
          (by omega) hja
        rw [if_neg (by omega), if_neg (by omega), if_neg (by omega), if_neg (by omega), hstep, heq]
        have hindex : i+1+(turns+1)-1 = i+(turns+1+1)-1 := by omega
        simp [hindex]
      · simp [hgt, hgt.ne']

end Within

section Bounds
variable {pos : ℕ} (hp : p.Holds a) (hs : 0 ∉ s) (hpos : pos ≤ a.length) (n rlen : ℕ)
include hp hs hpos

/-- Behind `strlen`, the arguments are not read but in their ranges. -/
theorem compareBehindWithin_eq {res : ℤ} : p.compareBehindWithin a pos n s rlen = .ok res ↔
    p.compare pos n s rlen = .ok res ∧ EndsWithin a pos n s rlen := by
  have hother := otherLength_le s rlen
  have hplace : lastPlace a pos n s rlen ≤ rangeLength a pos n ∧
      lastPlace a pos n s rlen ≤ otherLength s rlen := ⟨min_le_left _ _,min_le_right _ _⟩
  have hrlen : otherLength s rlen ≤ rlen := min_le_right _ _
  have hrange : rangeLength a pos n ≤ n ∨ a.length ≤ n := by
    have hlen := hp.length_lt
    unfold rangeLength
    split_ifs <;> omega
  have hok : ∀ j, pos ≤ j → j+1 < pos+places a pos n s rlen → j ≤ a.length →
      InRange a pos n j ∧ InRange s 0 rlen j := by
    intro j hj hlt hja
    unfold places at hlt
    refine ⟨?_,.inl (by omega)⟩
    rcases hja.lt_or_eq with hja | rfl
    · exact .inl (by omega)
    · exact .inr (by omega)
  have hloop {o : Option ℤ} := hp.compareFrom_within hs (places_le hpos n s rlen) hok (o := o)
  have hends : places a pos n s rlen = 0 ∨
      column a pos (places a pos n s rlen-1) ≠ column s pos (places a pos n s rlen-1) ∨
      InRange a pos n (pos+places a pos n s rlen-1) ∧ InRange s 0 rlen (pos+places a pos n s rlen-1) ↔
      EndsWithin a pos n s rlen := by
    unfold EndsWithin places
    rcases Nat.lt_or_ge (lastPlace a pos n s rlen) pos with hlt | hge
    · exact iff_of_true (.inl (by omega)) (.inl hlt)
    · have hcount : lastPlace a pos n s rlen+1-pos-1 = lastPlace a pos n s rlen-pos := by omega
      have hindex : pos+(lastPlace a pos n s rlen+1-pos)-1 = lastPlace a pos n s rlen := by omega
      rw [hcount, hindex, or_iff_right (show ¬_ = 0 by omega), or_iff_right (show ¬_ < pos by omega)]
  rw [hends] at hloop
  rw [compareBehindWithin, compare_behind hs, hp.compareBehind_eq hpos, hp.compareBehind_eq hpos,
    map_eq_ok, map_eq_ok]
  simp only [hloop]
  constructor
  · rintro ⟨o,⟨ho,hwithin⟩,hres⟩
    exact ⟨⟨o,ho,hres⟩,hwithin⟩
  · rintro ⟨⟨o,ho,hres⟩,hwithin⟩
    exact ⟨o,⟨ho,hwithin⟩,hres⟩

/-- With `strlen` the other string is read to its end. -/
theorem compareWithin_eq {res : ℤ} : p.compareWithin a pos n s rlen = .ok res ↔
    p.compare pos n s rlen = .ok res ∧ EndsWithin a pos n s rlen ∧ s.length ≤ rlen := by
  have hread (i : ℕ) : within (InRange s 0 rlen) (charAt s) i = charAt s i ∨
      within (InRange s 0 rlen) (charAt s) i = .error .outOfBounds := by
    unfold within
    split_ifs
    · exact .inl rfl
    · exact .inr rfl
  have hlen {len : ℕ} : strlenFrom (within (InRange s 0 rlen) (charAt s)) (s.length+1) 0 = .ok len ↔
      len = s.length ∧ s.length ≤ rlen := by
    rw [strlenFrom_eq hs _ hread (Nat.zero_le _) (by omega)]
    refine and_congr_right fun _ => ⟨fun h => ?_,fun hle j _ hj => if_pos ?_⟩
    · by_contra hlt
      have hj := h rlen (Nat.zero_le _) (by omega)
      rw [within, if_neg (by unfold InRange; omega), charAt_eq (by simp; omega)] at hj
      cases hj
    · unfold InRange
      omega
  rw [compareWithin, compareOf, bind_eq_ok]
  simp only [hlen]
  constructor
  · rintro ⟨len,⟨rfl,hle⟩,h⟩
    obtain ⟨hcompare,hends⟩ := (compareBehindWithin_eq hp hs hpos n rlen).mp h
    exact ⟨hcompare,hends,hle⟩
  · rintro ⟨hcompare,hends,hle⟩
    exact ⟨_,⟨rfl,hle⟩,(compareBehindWithin_eq hp hs hpos n rlen).mpr ⟨hcompare,hends⟩⟩

/-- When `compare` has the sign of the comparison of the ranges and reads nothing else than them and
their null characters: the loop does not, or `strlen` does not either. -/
theorem compare_iff :
    (p.ComparesRanges a pos n s rlen (p.compareBehindWithin a pos n s rlen) ↔
      CompareAgrees a pos n s rlen ∧ EndsWithin a pos n s rlen) ∧
    (p.ComparesRanges a pos n s rlen (p.compareWithin a pos n s rlen) ↔
      CompareAgrees a pos n s rlen ∧ EndsWithin a pos n s rlen ∧ s.length ≤ rlen) := by
  rw [← compareAgrees_iff hp hs hpos]
  simp only [ComparesRanges, compareBehindWithin_eq hp hs hpos, compareWithin_eq hp hs hpos]
  constructor
  · constructor
    · rintro ⟨res,hres,hsign,-,hends⟩
      exact ⟨⟨res,hres,hsign⟩,hends⟩
    · rintro ⟨⟨res,hres,hsign⟩,hends⟩
      exact ⟨res,hres,hsign,hres,hends⟩
  · constructor
    · rintro ⟨res,hres,hsign,-,hends⟩
      exact ⟨⟨res,hres,hsign⟩,hends⟩
    · rintro ⟨⟨res,hres,hsign⟩,hends⟩
      exact ⟨res,hres,hsign,hres,hends⟩

end Bounds

/-- Lists that differ in their beginnings are ordered as these are. -/
theorem lt_of_take_lt {x y : List ℤ} {t : ℕ} (hx : t ≤ x.length) (hy : t ≤ y.length)
    (h : x.take t < y.take t) : x < y := by
  induction t generalizing x y with
  | zero => exact absurd h (lt_irrefl _)
  | succ t ih =>
    cases x with
    | nil => simp at hx
    | cons c x =>
      cases y with
      | nil => simp at hy
      | cons d y =>
        rw [List.take_succ_cons, List.take_succ_cons, List.cons_lt_cons_iff] at h
        rw [List.length_cons, Nat.add_le_add_iff_right] at hx hy
        exact List.cons_lt_cons_iff.mpr (h.imp_right fun ⟨hcd,hlt⟩ => ⟨hcd,ih hx hy hlt⟩)

/-- The string "abc". -/
def abc : Rep := { mCapacity := 32, mLength := 3, mData := store (fun _ => 0) 0 [97,98,99] }

theorem abc_holds : abc.Holds [97,98,99] := by
  constructor <;> decide

/-- "abc" and "abd" are compared within their bounds; of the "ab" of "abc" twice the answer is right,
and the "c" is read. -/
theorem compare_iff_abc :
    abc.ComparesRanges [97,98,99] 0 3 [97,98,100] 3 (abc.compareWithin [97,98,99] 0 3 [97,98,100] 3) ∧
    CompareAgrees [97,98,99] 0 2 [97,98,99] 2 ∧
    ¬abc.ComparesRanges [97,98,99] 0 2 [97,98,99] 2
      (abc.compareBehindWithin [97,98,99] 0 2 [97,98,99] 2) := by
  refine ⟨(compare_iff abc_holds (by decide) (by decide) 3 3).2.mpr ?_,?_,?_⟩
  · unfold CompareAgrees EndsWithin
    decide
  · unfold CompareAgrees
    decide
  · rw [(compare_iff abc_holds (by decide) (by decide) 2 2).1]
    rintro ⟨-,hends⟩
    revert hends
    unfold EndsWithin
    decide

/-- The "bc" from 1 on in "abc" is compared with "bc" from 1 on, that is with "c". -/
theorem compare_offset : ¬∀ (p : Rep) (a s : List UInt8) (pos n rlen : ℕ), p.Holds a → 0 ∉ s →
    pos ≤ a.length → ∃ res, p.compare pos n s rlen = .ok res ∧
      SignOf res (rangeOf a pos n) (rangeOf s 0 rlen) := by
  intro h
  obtain ⟨res,hres,hsign⟩ := h _ _ [98,99] 1 2 2 abc_holds (by decide) (by decide)
  have hless : abc.compare 1 2 [98,99] 2 = .ok (-1) := rfl
  obtain rfl := Except.ok.inj (hless.symm.trans hres)
  exact absurd (hsign.zero.mpr (by decide)) (by decide)

/-- Two ranges that both start at 0 and differ inside both are compared as they should be. -/
theorem compareAgrees_of_differ {n rlen i : ℕ} (hlong : s.length < 2^32) (hn : i < n) (hrlen : i < rlen)
    (ha : i < a.length) (hi : i < s.length) (hne : a[i] ≠ s[i]) : CompareAgrees a 0 n s rlen := by
  have hplaces : i+1 ≤ places a 0 n s rlen := by
    unfold places lastPlace rangeLength otherLength
    split_ifs <;> omega
  -- ranges and columns begin with the same i+1 characters
  have hrange (b : List UInt8) {k : ℕ} (hk : i < k) :
      (rangeOf b 0 k).take (i+1) = (b.take (i+1)).map schar := by
    rw [rangeOf, List.drop_zero, ← List.map_take, List.take_take, Nat.min_eq_left hk]
  have hcolumn (b : List UInt8) (hb : i < b.length) :
      (column b 0 (places a 0 n s rlen)).take (i+1) = (b.take (i+1)).map schar := by
    rw [column, List.drop_zero, ← List.map_take, List.take_take, Nat.min_eq_left hplaces,
      List.take_append_of_le_length hb]
  have hlenRange (b : List UInt8) {k : ℕ} (hk : i < k) (hb : i < b.length) :
      i+1 ≤ (rangeOf b 0 k).length := by
    rw [rangeOf, List.length_map, List.length_take, List.drop_zero]
    omega
  have hlenColumn (b : List UInt8) (hb : i < b.length) :
      i+1 ≤ (column b 0 (places a 0 n s rlen)).length := by
    rw [column, List.length_map, List.length_take, List.drop_zero, List.length_append]
    omega
  have hdiffer : (a.take (i+1)).map schar ≠ (s.take (i+1)).map schar := by
    intro heq
    have hchar := congrArg (·[i]?) (List.map_injective_iff.mpr schar_injective heq)
    simp only [List.getElem?_take_of_lt (Nat.lt_succ_self i), List.getElem?_eq_getElem ha,
      List.getElem?_eq_getElem hi, Option.some.injEq] at hchar
    exact hne hchar
  rcases lt_or_gt_of_ne hdiffer with hlt | hgt
  · refine .inr (.inl ⟨?_,.inl ?_⟩)
    · apply lt_of_take_lt (hlenRange a hn ha) (hlenRange s hrlen hi)
      rwa [hrange a hn, hrange s hrlen]
    · apply lt_of_take_lt (hlenColumn a ha) (hlenColumn s hi)
      rwa [hcolumn a ha, hcolumn s hi]
  · refine .inr (.inr ⟨?_,.inl ?_⟩)
    · apply lt_of_take_lt (hlenRange s hrlen hi) (hlenRange a hn ha)
      rwa [hrange a hn, hrange s hrlen]
    · apply lt_of_take_lt (hlenColumn s hi) (hlenColumn a ha)
      rwa [hcolumn a ha, hcolumn s hi]

/-- The characters of a string with its null character: the order of whole strings is that of
their keys. -/
def key (a : List UInt8) : List ℤ := (a ++ [0]).map schar

theorem column_zero (a : List UInt8) (turns : ℕ) : column a 0 turns = (key a).take turns := by
  rw [column, List.drop_zero, List.map_take, key]

theorem key_injective : Function.Injective key := by
  intro a b h
  exact List.append_cancel_right (List.map_injective_iff.mpr schar_injective h)

/-- Only strings of one length have the same column up to the end of one of them. -/
theorem length_le_of_take_key {b : List UInt8} (hb : 0 ∉ b) {turns : ℕ} (hturns : a.length < turns)
    (h : (key a).take turns = (key b).take turns) : b.length ≤ a.length := by
  by_contra hlt
  have hchar := congrArg (·[a.length]?) h
  have hnul : (b ++ [0])[a.length]? = some b[a.length] := by
    rw [List.getElem?_append_left (by omega), List.getElem?_eq_getElem (by omega)]
  simp only [key, List.getElem?_take_of_lt hturns, List.getElem?_map, hnul,
    List.getElem?_append_right le_rfl, Nat.sub_self, List.getElem?_cons_zero, Option.map_some,
    Option.some.injEq] at hchar
  exact hb (schar_injective hchar ▸ List.getElem_mem _)

/-- The number that stands for the order of two lists. -/
def order (x y : List ℤ) : ℤ := if x < y then -1 else if y < x then 1 else 0

section Order
variable {x y z : List ℤ}

theorem order_eq_zero : order x y = 0 ↔ x = y := by
  unfold order
  rcases lt_trichotomy x y with hlt | rfl | hgt
  · simp [hlt, hlt.ne]
  · simp
  · simp [hgt, hgt.asymm, hgt.ne']

theorem order_le_zero : order x y ≤ 0 ↔ x ≤ y := by
  unfold order
  rcases lt_trichotomy x y with hlt | rfl | hgt
  · simp [hlt, hlt.le]
  · simp
  · simp [hgt, hgt.asymm]

theorem order_swap (x y : List ℤ) : order x y = -order y x := by
  unfold order
  rcases lt_trichotomy x y with hlt | rfl | hgt
  · simp [hlt, hlt.asymm]
  · simp
  · simp [hgt, hgt.asymm]

end Order

/-- Two whole strings are compared as their keys. -/
theorem Holds.compare_key (hp : p.Holds a) {b : List UInt8} (hb : 0 ∉ b) {rlen : ℕ}
    (hlong : b.length < 2^32) (hrlen : b.length ≤ rlen) :
    p.compare 0 npos b rlen = .ok (order (key a) (key b)) := by
  have hother : otherLength b rlen = b.length := by
    rw [otherLength, Nat.mod_eq_of_lt hlong, Nat.min_eq_left hrlen]
  obtain ⟨res,hres,hcols⟩ := hp.compare_eq hb (Nat.zero_le _) npos rlen
  have hplaces : places a 0 npos b rlen = min a.length b.length+1 := by
    rw [places, lastPlace, rangeLength, if_pos rfl, hother]
    rfl
  have hla : (key a).length = a.length+1 := by simp [key]
  have hlb : (key b).length = b.length+1 := by simp [key]
  rw [hplaces, column_zero, column_zero] at hcols
  rw [hres, order]
  rcases hcols with ⟨rfl,hgt⟩ | ⟨rfl,hlt⟩ | ⟨heq,rfl⟩
  · have hkey := lt_of_take_lt (by omega) (by omega) hgt
    rw [if_neg hkey.asymm, if_pos hkey]
  · rw [if_pos (lt_of_take_lt (by omega) (by omega) hlt)]
  · -- the loop has passed the null character of one of the strings
    have hlen : a.length = b.length := by
      rcases Nat.le_total a.length b.length with hle | hle
      · exact Nat.le_antisymm hle (length_le_of_take_key hb (by omega) heq)
      · exact Nat.le_antisymm (length_le_of_take_key hp.nul_free (by omega) heq.symm) hle
    rw [List.take_of_length_le (by omega), List.take_of_length_le (by omega)] at heq
    rw [rangeLength, if_pos rfl, hother, if_neg (by omega), if_neg (by omega),
      heq, if_neg (lt_irrefl _), if_neg (lt_irrefl _)]

theorem Holds.load_eq (hp : p.Holds a) : load p.mData 0 p.mLength = a := by
  have htake := congrArg (List.take a.length) hp.chars
  rw [List.take_left, load, ← List.map_take, List.take_range, Nat.min_eq_left (Nat.le_succ _)] at htake
  rw [hp.length_eq]
  exact htake

section Strings
variable {q r : Rep} {b c : List UInt8} (hp : p.Holds a) (hq : q.Holds b)
include hp hq

theorem compareString_eq : p.compareString q = .ok (order (key a) (key b)) := by
  rw [compareString, hq.load_eq]
  exact hp.compare_key hq.nul_free (hq.length_lt.trans (by decide)) hq.length_eq.ge

theorem compareChars_eq : p.compareChars b = .ok (order (key a) (key b)) :=
  hp.compare_key hq.nul_free (hq.length_lt.trans (by decide)) hq.length_lt.le

/-- The operators tell whether the strings are the same, in both their overloads. -/
theorem operators_eq : p.eqString q = .ok (decide (a = b)) ∧ p.neString q = .ok (decide (a ≠ b)) ∧
    p.eqChars b = .ok (decide (a = b)) ∧ p.neChars b = .ok (decide (a ≠ b)) := by
  have hsame : order (key a) (key b) = 0 ↔ a = b := order_eq_zero.trans key_injective.eq_iff
  simp [eqString, neString, eqChars, neChars, compareString_eq hp hq, compareChars_eq hp hq, hsame]

/-- Comparison makes a total order of whole strings, in which equal ones are the same. -/
theorem compare_totalOrder (hr : r.Holds c) :
    ∃ ab ba bc ac, p.compareString q = .ok ab ∧ q.compareString p = .ok ba ∧
      q.compareString r = .ok bc ∧ p.compareString r = .ok ac ∧
      p.compareChars b = .ok ab ∧ q.compareChars a = .ok ba ∧ q.compareChars c = .ok bc ∧
      p.compareChars c = .ok ac ∧
      (ab = 0 ↔ a = b) ∧ p.eqString q = .ok (decide (a = b)) ∧ p.neString q = .ok (decide (a ≠ b)) ∧
      p.eqChars b = .ok (decide (a = b)) ∧ p.neChars b = .ok (decide (a ≠ b)) ∧
      ab = -ba ∧ (ab ≤ 0 → bc ≤ 0 → ac ≤ 0) := by
  obtain ⟨heq,hne,heqChars,hneChars⟩ := operators_eq hp hq
  refine ⟨_,_,_,_,compareString_eq hp hq,compareString_eq hq hp,compareString_eq hq hr,
    compareString_eq hp hr,compareChars_eq hp hq,compareChars_eq hq hp,compareChars_eq hq hr,
    compareChars_eq hp hr,order_eq_zero.trans key_injective.eq_iff,heq,hne,heqChars,hneChars,
    order_swap _ _,?_⟩
  intro hab hbc
  rw [order_le_zero] at hab hbc ⊢
  exact hab.trans hbc

end Strings

theorem compare_totalOrder_abc : ∃ ab ba, abc.compareString aba = .ok ab ∧
    aba.compareString abc = .ok ba ∧ ab = -ba ∧ (ab = 0 ↔ [97,98,99] = [97,98,97]) := by
  obtain ⟨ab,ba,-,-,hab,hba,-,-,-,-,-,-,hzero,-,-,-,-,hswap,-⟩ :=
    compare_totalOrder abc_holds aba_holds aba_holds
  exact ⟨ab,ba,hab,hba,hswap,by simpa using hzero⟩

end Rep

end JhCommon
