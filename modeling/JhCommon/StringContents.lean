import JhCommon.StringReturns

/-! The characters of a Rep as a list, and what the loops and writes of the edits make of it. -/
namespace JhCommon
open RingMemory Word32

namespace Rep
variable {p : Rep} {l cs : List UInt8} {pos n : ℕ}

/-- A well-formed Rep with these characters, and the null character behind them. -/
structure Stores (p : Rep) (l : List UInt8) : Prop extends p.Ok where
  length_eq : p.mLength = l.length
  chars : load p.mData 0 (l.length+1) = l ++ [0]

theorem Stores.load_all (hl : p.Stores l) : load p.mData 0 l.length = l := by
  have hchars := hl.chars
  rw [load_add] at hchars
  exact (List.append_inj hchars (length_load _ _ _)).1

theorem Stores.null (hl : p.Stores l) : p.mData p.mLength = 0 := by
  have hchars := hl.chars
  rw [load_add] at hchars
  have hend := (List.append_inj hchars (length_load _ _ _)).2
  rw [Nat.zero_add, ← hl.length_eq] at hend
  exact List.head_eq_of_cons_eq hend

theorem Stores.load_split (hl : p.Stores l) (hpos : pos ≤ l.length) :
    load p.mData 0 pos = l.take pos ∧ load p.mData pos (l.length-pos) = l.drop pos := by
  have hall := hl.load_all
  conv_lhs at hall => rw [← Nat.add_sub_of_le hpos]
  rw [load_add, Nat.zero_add] at hall
  apply List.append_inj (hall.trans (List.take_append_drop pos l).symm)
  rw [length_load, List.length_take, Nat.min_eq_left hpos]

theorem Stores.load_part (hl : p.Stores l) (hfit : pos+n ≤ l.length) :
    load p.mData pos n = (l.drop pos).take n := by
  have hpart := (hl.load_split hfit).1
  rw [load_add, Nat.zero_add, List.take_add] at hpart
  apply (List.append_inj hpart _).2
  rw [length_load, List.length_take, Nat.min_eq_left (by omega)]

/-- Once the characters stand where they belong, the end is set behind them. -/
theorem terminate_stores (hcap : p.mCapacity < 2^31) (hlt : l.length < p.mCapacity)
    (hload : load p.mData 0 l.length = l) :
    ∃ p', p.terminate l.length = .ok p' ∧ p'.Stores l ∧ p'.mCapacity = p.mCapacity := by
  have hok : Rep.Ok { p with mLength := l.length } := ⟨hlt,hcap⟩
  refine ⟨_, setAt_returns hok hlt, ⟨⟨hlt,hcap⟩,rfl,?_⟩, rfl⟩
  have hnull : load (store p.mData l.length [0]) l.length 1 = [0] := load_store _ _ [0]
  rw [load_add, load_store_before _ _ (by omega), hload, Nat.zero_add, hnull]

theorem assign_stores {heap : RefHeap Rep} {s : CharPtr} (hcap : p.mCapacity < 2^31)
    (hlt : n < p.mCapacity) (hcs : s.read heap n = .ok cs) :
    ∃ p', p.assign heap s n = .ok p' ∧ p'.Stores cs ∧ p'.mCapacity = p.mCapacity := by
  obtain rfl := CharPtr.length_read hcs
  have hsize : p.size = p.mCapacity := by rw [size, if_neg (by omega)]
  have hset : p.setAt 0 cs = .ok { p with mData := store p.mData 0 cs } := by
    apply setAt_eq_ok.mpr
    rw [hsize]
    exact ⟨by omega,rfl⟩
  unfold assign
  simp only [ge_iff_le, Nat.not_le.mpr hlt, if_false, hcs, ok_bind, hset]
  exact terminate_stores (p := { p with mData := store p.mData 0 cs }) hcap hlt (load_store _ _ _)

/-- Write the characters cs at i, and end the string where it then ends. -/
theorem write_stores {i : ℕ} {l' : List UInt8} (hp : p.Ok) (hi : i+cs.length ≤ p.mCapacity)
    (hlt : l'.length < p.mCapacity) (hload : load (store p.mData i cs) 0 l'.length = l') :
    ∃ p', (do let q ← p.setAt i cs; q.terminate l'.length) = Except.ok p' ∧ p'.Stores l' ∧
      p'.mCapacity = p.mCapacity := by
  rw [setAt_returns hp hi, ok_bind]
  exact terminate_stores (p := { p with mData := store p.mData i cs }) hp.capacity_lt hlt hload

theorem Stores.append (hl : p.Stores l) (hfit : l.length+cs.length < p.mCapacity) :
    ∃ p', (do let q ← p.setAt p.mLength cs; q.terminate (l ++ cs).length) = Except.ok p' ∧
      p'.Stores (l ++ cs) ∧ p'.mCapacity = p.mCapacity := by
  rw [hl.length_eq]
  apply write_stores hl.toOk hfit.le (by rwa [List.length_append])
  have hnew := load_store p.mData l.length cs
  rw [List.length_append, load_add, load_store_before _ _ (by omega), hl.load_all, Nat.zero_add, hnew]

/-- The string with room for n characters at pos, whatever stands there. -/
structure Gapped (p : Rep) (l : List UInt8) (pos n : ℕ) : Prop extends p.Ok where
  length_eq : p.mLength = l.length
  before : load p.mData 0 pos = l.take pos
  behind : load p.mData (pos+n) (l.length-pos) = l.drop pos

/-- The loop of insert opens a gap. -/
theorem Stores.shiftUp (hl : p.Stores l) (hpos : pos ≤ l.length) (hfit : l.length+n ≤ p.mCapacity) :
    ∃ p', p.shiftUp pos n (l.length-pos) = .ok p' ∧ p'.Gapped l pos n ∧
      p'.mCapacity = p.mCapacity := by
  obtain ⟨hbefore,hbehind⟩ := hl.load_split hpos
  refine ⟨_, shiftUp_returns hl.toOk (by omega), ⟨⟨hl.length_lt,hl.capacity_lt⟩,hl.length_eq,?_,?_⟩, rfl⟩
  · rw [← hbefore]
    exact load_store_before _ _ (by omega)
  · have hmoved := load_store p.mData (pos+n) (load p.mData pos (l.length-pos))
    rw [length_load] at hmoved
    exact hmoved.trans hbehind

theorem Gapped.fill (hg : p.Gapped l pos cs.length) (hpos : pos ≤ l.length)
    (hfit : l.length+cs.length < p.mCapacity) {l' : List UInt8}
    (hl' : l' = l.take pos ++ cs ++ l.drop pos) :
    ∃ p', (do let q ← p.setAt pos cs; q.terminate l'.length) = Except.ok p' ∧ p'.Stores l' ∧
      p'.mCapacity = p.mCapacity := by
  have hlen : l'.length = pos+cs.length+(l.length-pos) := by
    rw [hl', List.length_append, List.length_append, List.length_take, List.length_drop,
      Nat.min_eq_left hpos]
  apply write_stores hg.toOk (by omega) (by omega)
  -- the three parts: before the gap, in it, and behind it
  have hin := load_store p.mData pos cs
  rw [hlen, load_add, load_add, load_store_before _ _ (by omega), hg.before, Nat.zero_add, hin,
    Nat.zero_add, load_store_behind _ _ le_rfl, hg.behind, hl']

/-- erase takes n characters out at pos. -/
theorem Stores.erase (hl : p.Stores l) (hn : n ≤ l.length-pos) :
    ∃ p', Strings.eraseRep pos n p = .ok p' ∧ p'.Stores (l.take pos ++ l.drop (pos+n)) ∧
      p'.mCapacity = p.mCapacity := by
  have hlen := hl.length_eq
  have hlt := hl.length_lt
  have hcap := hl.capacity_lt
  by_cases hpos : l.length ≤ pos
  · have hkeep : Strings.eraseRep pos n p = .ok p := by rw [Strings.eraseRep, if_pos (by omega)]
    rw [List.take_of_length_le hpos, List.drop_of_length_le (by omega), List.append_nil]
    exact ⟨p,hkeep,hl,rfl⟩
  obtain ⟨hbefore,-⟩ := hl.load_split (show pos ≤ l.length by omega)
  -- up to the end the string is cut, elsewhere what is behind is moved down
  by_cases hend : pos+n = l.length
  · have hsum : add32 pos n = p.mLength := by
      rw [add32_of_lt (by omega), hend, hlen]
    have htrunc : Strings.eraseRep pos n p = p.terminate pos := by
      rw [Strings.eraseRep, if_neg (by omega), if_pos (.inr hsum)]
    have hpre : (l.take pos).length = pos := by
      rw [List.length_take]
      omega
    have hdone := terminate_stores (l := l.take pos) hcap (by omega) (by rw [hpre]; exact hbefore)
    rw [hpre] at hdone
    rw [htrunc, hend, List.drop_length, List.append_nil]
    exact hdone
  · obtain ⟨-,hbehind⟩ := hl.load_split (show pos+n ≤ l.length by omega)
    have hnew : (l.take pos ++ l.drop (pos+n)).length = pos+(l.length-(pos+n)) := by
      rw [List.length_append, List.length_take, List.length_drop, Nat.min_eq_left (by omega)]
    have hmoved := load_store p.mData pos (load p.mData (pos+n) (l.length-(pos+n)))
    rw [length_load] at hmoved
    rw [Strings.eraseRep_inside hl.toOk (by omega), hlen,
      show l.length-n = (l.take pos ++ l.drop (pos+n)).length by rw [hnew]; omega]
    apply terminate_stores
    · exact hcap
    · rw [hnew]
      show pos+(l.length-(pos+n)) < p.mCapacity
      omega
    · rw [hnew, load_add, load_store_before _ _ (by omega), hbefore, Nat.zero_add, hmoved, hbehind]

/-- resize cuts the string or fills it up. -/
theorem Stores.resize (hl : p.Stores l) (hn : n < p.mCapacity) (c : UInt8) :
    ∃ p', (do let q ← p.setAt p.mLength (List.replicate (n-p.mLength) c); q.terminate n) =
        Except.ok p' ∧ p'.Stores (l.take n ++ List.replicate (n-l.length) c) ∧
      p'.mCapacity = p.mCapacity := by
  have hlen : (l.take n ++ List.replicate (n-l.length) c).length = n := by
    rw [List.length_append, List.length_take, List.length_replicate]
    omega
  have hlt := hl.length_lt
  have hp := hl.length_eq
  have hfit : l.length+(List.replicate (n-l.length) c).length ≤ p.mCapacity := by
    rw [List.length_replicate]
    omega
  have hend : (l.take n ++ List.replicate (n-l.length) c).length < p.mCapacity := by rwa [hlen]
  have hwrite := write_stores hl.toOk hfit hend
  rw [hlen] at hwrite
  rw [hp]
  apply hwrite
  by_cases hle : n ≤ l.length
  · have hz : n-l.length = 0 := by omega
    rw [hz, List.replicate_zero, store_nil, List.append_nil]
    exact (hl.load_split hle).1
  · have hnew := load_store p.mData l.length (List.replicate (n-l.length) c)
    rw [List.length_replicate] at hnew
    rw [List.take_of_length_le (by omega)]
    conv_lhs => rw [← Nat.add_sub_of_le (show l.length ≤ n by omega)]
    rw [load_add, load_store_before _ _ (by omega), hl.load_all, Nat.zero_add]
    rw [Nat.add_sub_of_le (by omega), hnew]

end Rep

end JhCommon
