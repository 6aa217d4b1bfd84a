import JhCommon.LineReading

/-! Where the scan of `peekLine` looks, and when it comes to an end: the pointers that reads and
fills leave at mEnd are not where the loop expects them. -/
namespace JhCommon
open RingMemory CounterMatch

namespace CircularBuffer

/-- The offsets that the loop of `scanLine` dereferences, in order. -/
def scanOffsets (s : CircularBuffer) (terminal : List UInt8) : ℕ → ℕ → ℕ → Exec (List ℕ)
  | 0, _, _ => .error .outOfFuel
  | fuel+1, ptr, state =>
    if ptr < s.mBufferSize then
      let state := if sameChar (s.mBuffer ptr) (terminal.getD state 0) then state+1 else 0
      if state = terminal.length then .ok [ptr]
      else
        let next := if ptr+1 = s.mBufferSize then 0 else ptr+1
        if next ≠ s.mWritePtr then do
          let rest ← scanOffsets s terminal fuel next state
          .ok (ptr :: rest)
        else .ok [ptr]
    else .error .outOfBounds

/-- The scan of an unread line: it ends within as many iterations as there are unread bytes, and
looks at unread bytes inside the buffer only. -/
def ScansUnread (s : CircularBuffer) (t : List UInt8) : Prop :=
  s.mLen = 0 ∨ ∃ found offsets, s.scanLine t s.mLen s.mReadPtr 0 = .ok found ∧
    s.scanOffsets t s.mLen s.mReadPtr 0 = .ok offsets ∧
    ∀ p ∈ offsets, p < s.mBufferSize ∧ ∃ k, k < s.mLen ∧ p = slot s.mBufferSize (s.mReadPtr+k)

/-- Nothing is unread, or the read pointer is inside the buffer and the loop's end is met: the
write pointer, or a terminator of plain characters behind nothing but whole misses. -/
def ScanSafe (s : CircularBuffer) (t : List UInt8) : Prop :=
  s.mLen = 0 ∨ s.mReadPtr < s.mBufferSize ∧ (s.mWritePtr < s.mBufferSize ∨
    ∃ i, t <+: s.contents.drop i ∧ (∀ c ∈ t, c.toNat < 128) ∧
      Misses (· = ·) t (s.contents.take i))

/-- The two loops end together. -/
theorem scanLine_ok_iff (s : CircularBuffer) (t : List UInt8) (fuel ptr state : ℕ) :
    (∃ found, s.scanLine t fuel ptr state = .ok found) ↔
      ∃ offsets, s.scanOffsets t fuel ptr state = .ok offsets := by
  induction fuel generalizing ptr state with
  | zero => simp [scanLine, scanOffsets]
  | succ fuel ih =>
    simp only [scanLine, scanOffsets]
    by_cases hin : ptr < s.mBufferSize
    · rw [if_pos hin, if_pos hin]
      generalize (if sameChar (s.mBuffer ptr) (t.getD state 0) then state+1 else 0) = state'
      generalize (if ptr+1 = s.mBufferSize then 0 else ptr+1) = next
      by_cases hfound : state' = t.length
      · simp [hfound]
      by_cases hgo : next ≠ s.mWritePtr
      · simp only [if_neg hfound, if_pos hgo]
        rw [ih]
        constructor
        · rintro ⟨offsets,ho⟩
          exact ⟨_ :: offsets,by rw [ho, ok_bind]⟩
        · rintro ⟨offsets,ho⟩
          obtain ⟨rest,hrest,-⟩ := bind_eq_ok.mp ho
          exact ⟨rest,hrest⟩
      · simp [hfound, if_neg hgo]
    · simp [hin]

/-- The scan stays on the unread bytes, from the k-th to the last: it cannot get past them when
the fuel ends there. -/
theorem scanOffsets_unread {s : CircularBuffer} (hs : s.WellFormed)
    (hr : s.mReadPtr < s.mBufferSize) (t : List UInt8) {fuel k state : ℕ} {offsets : List ℕ}
    (hk : k+fuel ≤ s.mLen)
    (ho : s.scanOffsets t fuel (slot s.mBufferSize (s.mReadPtr+k)) state = .ok offsets) :
    ∀ p ∈ offsets, p < s.mBufferSize ∧ ∃ k, k < s.mLen ∧ p = slot s.mBufferSize (s.mReadPtr+k) := by
  have hle := hs.len_le
  induction fuel generalizing k state offsets with
  | zero => cases ho
  | succ fuel ih =>
    have hslot : slot s.mBufferSize (s.mReadPtr+k) < s.mBufferSize := slot_lt (by omega)
    have hnext : (if slot s.mBufferSize (s.mReadPtr+k)+1 = s.mBufferSize then 0
        else slot s.mBufferSize (s.mReadPtr+k)+1) = slot s.mBufferSize (s.mReadPtr+(k+1)) :=
      slot_succ (by omega)
    have hhere : slot s.mBufferSize (s.mReadPtr+k) < s.mBufferSize ∧ ∃ j, j < s.mLen ∧
        slot s.mBufferSize (s.mReadPtr+k) = slot s.mBufferSize (s.mReadPtr+j) :=
      ⟨hslot,k,by omega,rfl⟩
    simp only [scanOffsets, if_pos hslot, hnext] at ho
    generalize (if sameChar (s.mBuffer (slot s.mBufferSize (s.mReadPtr+k))) (t.getD state 0)
      then state+1 else 0) = state' at ho
    have hone : ∀ p ∈ [slot s.mBufferSize (s.mReadPtr+k)],
        p < s.mBufferSize ∧ ∃ k, k < s.mLen ∧ p = slot s.mBufferSize (s.mReadPtr+k) := by
      intro p hp
      rw [List.mem_singleton] at hp
      exact hp ▸ hhere
    split_ifs at ho
    · exact Except.ok.inj ho ▸ hone
    · obtain ⟨rest,hrest,ho⟩ := bind_eq_ok.mp ho
      rw [← Except.ok.inj ho]
      intro p hp
      rcases List.mem_cons.mp hp with rfl | hp
      · exact hhere
      · exact ih (by omega) hrest p hp
    · exact Except.ok.inj ho ▸ hone

/-- A write pointer left at mEnd is never met: the scan of a full buffer ends only at a match. The
induction is on the bytes not yet looked at. -/
theorem scanLine_full {s : CircularBuffer} (hr : s.mReadPtr = 0) (hw : s.mWritePtr = s.mBufferSize)
    (hfull : s.mLen = s.mBufferSize) (hpos : 0 < s.mBufferSize) (t : List UInt8) (d k state : ℕ)
    (hd : k+d = s.mLen) :
    (∃ found, s.scanLine t d (slot s.mBufferSize (s.mReadPtr+k)) state = .ok found) ↔
      scan sameChar t 0 state (s.contents.drop k) ≠ none := by
  induction d generalizing k state with
  | zero =>
    rw [List.drop_of_length_le (by rw [length_contents]; omega)]
    simp [scanLine, scan]
  | succ d ih =>
    have hslot : slot s.mBufferSize (s.mReadPtr+k) < s.mBufferSize := slot_lt (by omega)
    have hnext : (if slot s.mBufferSize (s.mReadPtr+k)+1 = s.mBufferSize then 0
        else slot s.mBufferSize (s.mReadPtr+k)+1) =
        if d = 0 then 0 else slot s.mBufferSize (s.mReadPtr+(k+1)) := by
      unfold slot
      split_ifs <;> omega
    have hne : (if d = 0 then 0 else slot s.mBufferSize (s.mReadPtr+(k+1))) ≠ s.mWritePtr := by
      unfold slot
      split_ifs <;> omega
    rw [contents_drop_eq_cons (by omega)]
    simp only [scanLine, scan, if_pos hslot, hnext, if_pos hne]
    generalize (if sameChar (s.mBuffer (slot s.mBufferSize (s.mReadPtr+k))) (t.getD state 0)
      then state+1 else 0) = state'
    by_cases hfound : state' = t.length
    · simp [hfound]
    · rw [if_neg hfound, if_neg hfound, ne_eq, Option.map_eq_none_iff]
      by_cases hlast : d = 0
      · rw [List.drop_of_length_le (by rw [length_contents]; omega), hlast]
        simp [scanLine, scan]
      · rw [if_neg hlast]
        exact ih (k+1) state' (by omega)

/-- What the counter finds, said of the queued bytes. -/
theorem scan_ne_none_iff {t q : List UInt8} (ht : t ≠ []) : scan sameChar t 0 0 q ≠ none ↔
    ∃ i, t <+: q.drop i ∧ (∀ c ∈ t, c.toNat < 128) ∧ Misses (· = ·) t (q.take i) := by
  rw [Option.ne_none_iff_exists']
  constructor
  · rintro ⟨e,he⟩
    obtain ⟨p,m,r,rfl,hp,hm,-⟩ := (scan_eq_some_iff ht q e).mp he
    obtain ⟨rfl,hascii⟩ := forall₂_sameChar_iff.mp hm
    refine ⟨p.length,?_,hascii,?_⟩
    · rw [List.append_assoc, List.drop_left]
      exact List.prefix_append m r
    · rw [List.append_assoc, List.take_left]
      exact hp.congr (fun b c hc => by rw [sameChar_iff, and_iff_left (hascii c hc)])
  · rintro ⟨i,⟨r,hr⟩,hascii,hmiss⟩
    refine ⟨(q.take i).length+t.length,(scan_eq_some_iff ht q _).mpr ⟨q.take i,t,r,?_,?_,?_,rfl⟩⟩
    · rw [List.append_assoc, hr, List.take_append_drop]
    · exact hmiss.congr (fun b c hc => by rw [sameChar_iff, and_iff_left (hascii c hc)])
    · exact forall₂_sameChar_iff.mpr ⟨rfl,hascii⟩

/-- In every reachable state the scan of a terminator ends in time and stays on the unread bytes
exactly on the states of `ScanSafe`. -/
theorem scansUnread_iff {N : ℕ} (hN : 0 < N) {s : CircularBuffer} (hs : s.Reachable N)
    {t : List UInt8} (ht : t ≠ []) : s.ScansUnread t ↔ s.ScanSafe t := by
  have hwf := (hs.holds hN).wf
  have hread := hwf.read_le
  by_cases hz : s.mLen = 0
  · exact iff_of_true (.inl hz) (.inl hz)
  have hfuel : s.mLen = s.mLen-1+1 := by omega
  -- the unread bytes are looked at whenever the scan ends, so its end is what matters
  have hends : s.ScansUnread t ↔ s.mReadPtr < s.mBufferSize ∧
      ∃ found, s.scanLine t s.mLen s.mReadPtr 0 = .ok found := by
    constructor
    · rintro (h0 | ⟨found,offsets,hfound,-,-⟩)
      · exact absurd h0 hz
      · refine ⟨?_,found,hfound⟩
        by_contra hout
        rw [hfuel, scanLine, if_neg hout] at hfound
        cases hfound
    · rintro ⟨hr,found,hfound⟩
      obtain ⟨offsets,ho⟩ := (scanLine_ok_iff s t _ _ _).mp ⟨found,hfound⟩
      refine .inr ⟨found,offsets,hfound,ho,?_⟩
      have hstart : slot s.mBufferSize (s.mReadPtr+0) = s.mReadPtr := by rw [slot, if_pos (by omega)]; rfl
      rw [← hstart] at ho
      exact scanOffsets_unread hwf hr t (by omega) ho
  rw [hends, ScanSafe, or_iff_right hz]
  apply and_congr_right
  intro hr
  have hstart : slot s.mBufferSize (s.mReadPtr+0) = s.mReadPtr := by rw [slot, if_pos (by omega)]; rfl
  by_cases hw : s.mWritePtr < s.mBufferSize
  · apply iff_of_true _ (.inl hw)
    have hscan := scanLine_eq_scan hwf hr hw t s.mLen 0 0 s.mLen (by omega) (by omega) le_rfl
    rw [hstart] at hscan
    exact ⟨_,hscan⟩
  · have hend : s.mWritePtr = s.mBufferSize := le_antisymm hwf.write_le (Nat.not_lt.mp hw)
    have hzero := hwf.write_end hend
    have hweq := hwf.write_eq
    have hle := hwf.len_le
    have hfull := scanLine_full hzero hend (by omega) hwf.size_pos t s.mLen 0 0 (by omega)
    rw [hstart, List.drop_zero] at hfull
    rw [hfull, scan_ne_none_iff ht, or_iff_right hw]

/-- The scan for "\r\n" in the bytes "a\r\n". -/
theorem scansUnread_written : (written 97 13 10).ScansUnread [13,10] := by
  apply (scansUnread_iff (by decide) (reachable_written 97 13 10) (by simp)).mpr
  exact .inr ⟨by decide,.inl (by decide)⟩

/-- Two bytes that were read one by one, with a third behind the first: the second read ends at
mEnd and leaves the read pointer there. -/
def readToEnd : CircularBuffer :=
  { mBuffer := store (store (fun _ => 0) 0 [1,2]) 0 [3]
    mBufferSize := 2
    mReadPtr := 2
    mWritePtr := 1
    mLen := 1 }

theorem reachable_readToEnd : readToEnd.Reachable 2 := by
  refine ⟨fun _ => 0,[.write [1,2] 2,.read true 1,.write [3] 1,.read true 1],
    [⟨2,[],none⟩,⟨1,[1],none⟩,⟨1,[],none⟩,⟨1,[2],none⟩],?_,rfl⟩
  simp [BufferOp.Valid]

/-- A fill of all the room in front of a read pointer at mEnd leaves the write pointer there. -/
def filledToEnd : CircularBuffer :=
  { mBuffer := store (store (fun _ => 0) 0 [1,2]) 0 [0,0]
    mBufferSize := 2
    mReadPtr := 0
    mWritePtr := 2
    mLen := 2 }

theorem reachable_filledToEnd : filledToEnd.Reachable 2 := by
  refine ⟨fun _ => 0,[.write [1,2] 2,.read true 2,.fillFromFile .zeros 2],
    [⟨2,[],none⟩,⟨2,[1,2],none⟩,⟨2,[],some 2⟩],?_,rfl⟩
  simp [BufferOp.Valid]

/-- However long it goes around the filled buffer, the scan does not end. -/
theorem scanLine_filledToEnd (fuel : ℕ) :
    filledToEnd.scanLine [10] fuel 0 0 = .error .outOfFuel ∧
      filledToEnd.scanLine [10] fuel 1 0 = .error .outOfFuel := by
  induction fuel with
  | zero => exact ⟨rfl,rfl⟩
  | succ fuel ih => exact ⟨ih.2,ih.1⟩

/-- From a read pointer at mEnd the scan starts behind the buffer, and a write pointer at mEnd is
stepped over, so that the scan goes around for ever. -/
theorem scans_past_end : (¬∀ (N : ℕ) (s : CircularBuffer) (t : List UInt8), 0 < N → s.Reachable N →
      t ≠ [] → s.ScansUnread t) ∧
    filledToEnd.Reachable 2 ∧ ∀ fuel, filledToEnd.scanLine [10] fuel 0 0 = .error .outOfFuel := by
  refine ⟨?_,reachable_filledToEnd,fun fuel => (scanLine_filledToEnd fuel).1⟩
  intro h
  rcases h 2 readToEnd [10] (by decide) reachable_readToEnd (by simp) with h0 | ⟨found,-,hf,-⟩
  · exact absurd h0 (by decide)
  · have hout : readToEnd.scanLine [10] 1 2 0 = .error .outOfBounds := rfl
    cases hout.symm.trans hf

end CircularBuffer

end JhCommon
