import JhCommon.LineReading

/-! The calls that look at the queued bytes and leave them where they are. -/
namespace JhCommon
open RingMemory

namespace CircularBuffer

/-- A memcpy of n bytes from where src points, which is not read for no bytes. -/
def memcpyFrom (s : CircularBuffer) (src : Option ℕ) (n : ℕ) : Exec (List UInt8) :=
  if n = 0 then .ok []
  else match src with
    | none => .error .nullDeref
    | some res => s.copyOut true res n

/-- The count returned and the bytes stored. The buffer itself is not written to. -/
def copy (s : CircularBuffer) (size : ℕ) : Exec (ℕ × List UInt8) := do
  let size := min size s.lengthInternal
  let (src,startSize) := s.getBytesInternal 0
  -- truncate start_size to the requested read size
  let startSize := if startSize > size then size else startSize.toNat
  let start ← s.memcpyFrom src startSize
  if startSize < size then
    let endSize := size-startSize
    let (src,_) := s.getBytesInternal startSize
    let rest ← s.memcpyFrom src endSize
    .ok (size,start ++ rest)
  else .ok (size,start)

/-- The segment at byte i: it lies inside the buffer and ends where the queued bytes or the buffer
do. -/
theorem getBytesInternal_spec {s : CircularBuffer} (hs : s.WellFormed) {i : ℕ} (hi : i < s.mLen) :
    ∃ res n : ℕ, s.getBytesInternal i = (some res,(n : ℤ)) ∧ res = slot s.mBufferSize (s.mReadPtr+i) ∧
      1 ≤ n ∧ i+n ≤ s.mLen ∧ res+n ≤ s.mBufferSize ∧
      (i+n = s.mLen ∨ slot s.mBufferSize (s.mReadPtr+(i+n)) = 0) := by
  obtain ⟨hpos,hle,hr,hw,hweq,hre,hwe⟩ := hs
  simp only [getBytesInternal, lengthInternal, if_pos hi]
  -- behind the wrap, in front of it, or in a buffer that does not wrap
  by_cases hwrap : s.mReadPtr ≥ s.mWritePtr
  · by_cases hend : s.mReadPtr+i ≥ s.mBufferSize
    · refine ⟨s.mReadPtr+i-s.mBufferSize,s.mWritePtr-(s.mReadPtr+i-s.mBufferSize),?_,?_,?_⟩
      · rw [if_pos hwrap, if_pos hend]
        congr 1
        omega
      · rw [slot, if_neg (by omega)]
      · exact ⟨by omega,by omega,by omega,.inl (by omega)⟩
    · refine ⟨s.mReadPtr+i,s.mBufferSize-(s.mReadPtr+i),?_,?_,?_⟩
      · rw [if_pos hwrap, if_neg hend]
        congr 1
        omega
      · rw [slot, if_pos (by omega)]
      · refine ⟨by omega,by omega,by omega,.inr ?_⟩
        rw [slot, if_neg (by omega)]
        omega
  · refine ⟨s.mReadPtr+i,s.mWritePtr-(s.mReadPtr+i),?_,?_,?_⟩
    · rw [if_neg hwrap]
      congr 1
      omega
    · rw [slot, if_pos (by omega)]
    · exact ⟨by omega,by omega,by omega,.inl (by omega)⟩

theorem getBytesInternal_none {s : CircularBuffer} {i : ℕ} (hi : ¬i < s.mLen) :
    s.getBytesInternal i = (none,0) := by
  simp only [getBytesInternal, lengthInternal, if_neg hi]

/-- A segment that does not reach the end of the buffer is a part of the queued bytes. -/
theorem load_slot_eq {s : CircularBuffer} {i n : ℕ} (hn : i+n ≤ s.mLen)
    (hin : slot s.mBufferSize (s.mReadPtr+i)+n ≤ s.mBufferSize) :
    load s.mBuffer (slot s.mBufferSize (s.mReadPtr+i)) n = (s.contents.drop i).take n := by
  have hdrop : s.contents.drop i = window s.mBuffer s.mBufferSize (s.mReadPtr+i) (s.mLen-i) :=
    window_drop _ _ _ (by omega)
  rw [hdrop, window_take _ _ _ (by omega)]
  unfold slot at hin ⊢
  split_ifs at hin ⊢ with hlt
  · exact (window_eq_load _ (by omega)).symm
  · exact (window_eq_load_wrapped _ (by omega)).symm

theorem byteAt_eq {s : CircularBuffer} (hs : s.WellFormed) (i : ℕ) :
    s.byteAt i = if h : i < s.contents.length then ((s.contents[i]).toNat : ℤ) else -1 := by
  rw [byteAt, getBytes]
  by_cases hi : i < s.mLen
  · obtain ⟨res,n,hget,hres,-⟩ := getBytesInternal_spec hs hi
    have hlt : i < s.contents.length := by
      rw [length_contents]
      exact hi
    rw [dif_pos hlt, hget]
    have hbyte : s.contents[i] = s.mBuffer res := by
      rw [hres]
      exact getElem_window _ _ _ _ _ _
    simp only [hbyte]
  · rw [getBytesInternal_none hi, dif_neg (by rw [length_contents]; exact hi)]

theorem memcpyFrom_spec {s : CircularBuffer} {res n : ℕ} (hin : res+n ≤ s.mBufferSize) :
    s.memcpyFrom (some res) n = .ok (load s.mBuffer res n) := by
  unfold memcpyFrom
  split_ifs with hz
  · rw [hz, load_zero]
  · simp only [copyOut_spec s true hin, if_true]

/-- `copy` puts the segments up to the wrap and behind it together. -/
theorem copy_spec {s : CircularBuffer} (hs : s.WellFormed) (size : ℕ) :
    s.copy size = .ok (min size s.contents.length,s.contents.take size) := by
  obtain ⟨n,hn⟩ : ∃ n, n = min size s.mLen := ⟨_,rfl⟩
  have hle : n ≤ s.mLen := by omega
  have htake : s.contents.take size = s.contents.take n := by
    rw [List.take_eq_take_iff, length_contents]
    omega
  simp only [copy, lengthInternal, length_contents, htake, ← hn]
  by_cases hz : s.mLen = 0
  · obtain rfl : n = 0 := by omega
    simp [getBytesInternal_none (s := s) (i := 0) (by omega), memcpyFrom]
  · obtain ⟨res,m,hget,hres,hm,hlen,hin,hwrap⟩ := getBytesInternal_spec hs (i := 0) (by omega)
    rw [hget]
    simp only [gt_iff_lt, Nat.cast_lt, Int.toNat_natCast]
    rw [hres] at hin ⊢
    by_cases hone : n < m
    · -- the wanted bytes end before the segment does
      have hload := load_slot_eq (s := s) (i := 0) (n := n) (by omega) (by omega)
      rw [if_pos hone, memcpyFrom_spec (by omega), ok_bind, if_neg (by omega), hload, List.drop_zero]
    · rw [if_neg hone, memcpyFrom_spec hin, ok_bind, load_slot_eq hlen hin, List.drop_zero]
      -- the rest is in the segment at the beginning of the buffer
      by_cases hmore : m < n
      · obtain ⟨res',m',hget',hres',-⟩ := getBytesInternal_spec hs (i := m) (by omega)
        have hzero : slot s.mBufferSize (s.mReadPtr+m) = 0 := by
          have := hwrap.resolve_left (by omega)
          rwa [Nat.zero_add] at this
        have hin' : slot s.mBufferSize (s.mReadPtr+m)+(n-m) ≤ s.mBufferSize := by
          have := hs.len_le
          omega
        rw [if_pos hmore, hget']
        simp only
        rw [hres', memcpyFrom_spec hin', ok_bind, load_slot_eq (by omega) hin', ← List.take_add,
          show m+(n-m) = n by omega]
      · rw [if_neg hmore, show m = n by omega]

/-- In every reachable state the observers tell about the queued bytes q, and look at nothing
outside of the buffer. -/
theorem reachable_observers {N : ℕ} (hN : 0 < N) {s : CircularBuffer} (hs : s.Reachable N) :
    (∀ i, s.byteAt i =
      if h : i < s.contents.length then ((s.contents[i]).toNat : ℤ) else -1) ∧
    (∀ i, i < s.contents.length → ∃ res n : ℕ, s.getBytes i = (some res,(n : ℤ)) ∧ 1 ≤ n ∧
      i+n ≤ s.contents.length ∧ res+n ≤ N ∧
      load s.mBuffer res n = (s.contents.drop i).take n) ∧
    (∀ i, s.contents.length ≤ i → s.getBytes i = (none,0)) ∧
    ∀ n, s.copy n = .ok (min n s.contents.length,s.contents.take n) := by
  have hh := hs.holds hN
  have hwf := hh.wf
  refine ⟨byteAt_eq hwf,?_,?_,copy_spec hwf⟩
  · intro i hi
    rw [length_contents] at hi ⊢
    obtain ⟨res,n,hget,hres,hn,hlen,hin,-⟩ := getBytesInternal_spec hwf hi
    refine ⟨res,n,hget,hn,hlen,hh.size_eq ▸ hin,?_⟩
    rw [hres] at hin ⊢
    exact load_slot_eq hlen hin
  · intro i hi
    rw [length_contents] at hi
    exact getBytesInternal_none (Nat.not_lt.mpr hi)

/-- The first of the bytes "abc". -/
theorem byteAt_written : (written 97 98 99).byteAt 0 = 97 :=
  (reachable_observers (by decide) (reachable_written 97 98 99)).1 0

end CircularBuffer

end JhCommon
