import JhCommon.ByteQueue

/-! The invariant of the circular buffer, what each call does to it and to the queued bytes, and
the refinement of the byte queue. -/
namespace JhCommon
open RingMemory

namespace CircularBuffer

/-- The states a client can produce. A pointer rests at mEnd only in two ways: the read pointer
after a read that ended there, with room left; the write pointer after a fill behind such a read
pointer that filled the buffer up. -/
structure WellFormed (s : CircularBuffer) : Prop where
  size_pos : 0 < s.mBufferSize
  len_le : s.mLen ≤ s.mBufferSize
  read_le : s.mReadPtr ≤ s.mBufferSize
  write_le : s.mWritePtr ≤ s.mBufferSize
  write_eq : s.mWritePtr = s.mReadPtr+s.mLen ∨ s.mWritePtr+s.mBufferSize = s.mReadPtr+s.mLen
  read_end : s.mReadPtr = s.mBufferSize → s.mWritePtr < s.mBufferSize
  write_end : s.mWritePtr = s.mBufferSize → s.mReadPtr = 0

/-- The queued bytes, oldest first. -/
def contents (s : CircularBuffer) : List UInt8 := window s.mBuffer s.mBufferSize s.mReadPtr s.mLen

/-- The state that holds the bytes q in a buffer of size N. -/
structure Holds (N : ℕ) (s : CircularBuffer) (q : List UInt8) : Prop where
  wf : s.WellFormed
  size_eq : s.mBufferSize = N
  contents_eq : s.contents = q

@[simp] theorem length_contents (s : CircularBuffer) : s.contents.length = s.mLen := by
  simp [contents]

theorem Holds.len_eq {N : ℕ} {s : CircularBuffer} {q : List UInt8} (h : s.Holds N q) :
    s.mLen = q.length := by
  rw [← h.contents_eq, length_contents]

theorem Holds.length_le {N : ℕ} {s : CircularBuffer} {q : List UInt8} (h : s.Holds N q) :
    q.length ≤ N := by
  rw [← h.len_eq, ← h.size_eq]
  exact h.wf.len_le

theorem Holds.free_eq {N : ℕ} {s : CircularBuffer} {q : List UInt8} (h : s.Holds N q) :
    s.getFreeSpace = N - q.length := by
  rw [getFreeSpace, lengthInternal, h.len_eq, h.size_eq]

theorem init_holds (mem : ℕ → UInt8) {N : ℕ} (hN : 0 < N) : (init mem N).Holds N [] := by
  refine ⟨⟨hN,?_,?_,?_,?_,?_,?_⟩,rfl,rfl⟩ <;> simp [init, hN]

theorem clear_holds {N : ℕ} {s : CircularBuffer} {q : List UInt8} (h : s.Holds N q) :
    s.clear.Holds N [] := by
  have hpos := h.wf.size_pos
  refine ⟨⟨hpos,?_,?_,?_,?_,?_,?_⟩,h.size_eq,rfl⟩ <;> simp [clear, hpos]

/-- Copying at the slot behind the queued bytes, inside the free space, appends to them. -/
theorem copyIn_spec {s : CircularBuffer} (src : List UInt8) (dest : ℕ) {k n : ℕ}
    (hdest : dest = s.mReadPtr+k ∨ dest+s.mBufferSize = s.mReadPtr+k)
    (hfit : dest+n ≤ s.mBufferSize) (hcap : k+n ≤ s.mBufferSize) (hsrc : n ≤ src.length) :
    ∃ mem, s.copyIn dest src n = .ok { s with mBuffer := mem } ∧
      window mem s.mBufferSize s.mReadPtr (k+n) =
        window s.mBuffer s.mBufferSize s.mReadPtr k ++ src.take n := by
  by_cases hn : n = 0
  · subst hn
    exact ⟨s.mBuffer,by rw [copyIn, if_pos rfl],by simp⟩
  · refine ⟨store s.mBuffer dest (src.take n),?_,?_⟩
    · rw [copyIn, if_neg hn, if_pos ⟨hfit,hsrc⟩]
    · have hl : (src.take n).length = n := List.length_take_of_le hsrc
      have h := window_store s.mBuffer (src.take n) hdest (by omega) (by omega)
      rwa [hl] at h

/-- The write pointer after n more bytes; it is never left at mEnd. -/
theorem writeSegments_spec {s : CircularBuffer} {src : List UInt8} {n : ℕ} (hs : s.WellFormed)
    (hn : 0 < n) (hcap : s.mLen+n ≤ s.mBufferSize) (hsrc : n ≤ src.length) :
    ∃ mem w, s.writeSegments src n = .ok { s with mBuffer := mem, mWritePtr := w } ∧
      w < s.mBufferSize ∧
      (w = s.mReadPtr+(s.mLen+n) ∨ w+s.mBufferSize = s.mReadPtr+(s.mLen+n) ∨
        w+2*s.mBufferSize = s.mReadPtr+(s.mLen+n)) ∧
      window mem s.mBufferSize s.mReadPtr (s.mLen+n) = s.contents ++ src.take n := by
  have hw := hs.write_eq
  have hwe := hs.write_end
  have hwl := hs.write_le
  have hrl := hs.read_le
  unfold writeSegments
  by_cases htail : n < s.mBufferSize - s.mWritePtr
  · -- the whole source fits before the end of the buffer
    obtain ⟨mem,hcopy,hwin⟩ := copyIn_spec src s.mWritePtr (n := n) hw (by omega) hcap hsrc
    refine ⟨mem,s.mWritePtr+n,?_,by omega,by omega,hwin⟩
    simp only [min_eq_right htail.le, hcopy, ok_bind, lt_irrefl, ↓reduceIte]
    rw [if_neg (by omega)]
  · obtain ⟨t,ht⟩ : ∃ t, t = s.mBufferSize - s.mWritePtr := ⟨_,rfl⟩
    obtain ⟨mem,hcopy,hwin⟩ := copyIn_spec src s.mWritePtr (n := t) hw (by omega) (by omega) (by omega)
    have hmin : min (s.mBufferSize - s.mWritePtr) n = t := by omega
    have hend : s.mWritePtr+t = s.mBufferSize := by omega
    simp only [hmin, hcopy, ok_bind, hend, ↓reduceIte]
    -- what is left of the source goes to the beginning of the buffer
    by_cases hhead : t < n
    · let s₁ : CircularBuffer := { s with mBuffer := mem, mWritePtr := 0 }
      obtain ⟨mem',hcopy',hwin'⟩ := copyIn_spec (s := s₁) (src.drop t) 0
        (k := s.mLen+t) (n := n-t) (by simp only [s₁]; omega)
        (by simp only [s₁]; omega) (by simp only [s₁]; omega) (by simp only [List.length_drop]; omega)
      refine ⟨mem',n-t,?_,by omega,by omega,?_⟩
      · rw [if_pos hhead, hcopy']
        simp only [ok_bind, s₁, zero_add]
      · have htake : src.take t ++ (src.drop t).take (n-t) = src.take n := by
          rw [← List.take_add, show t+(n-t) = n by omega]
        calc window mem' s.mBufferSize s.mReadPtr (s.mLen+n)
            = window mem' s.mBufferSize s.mReadPtr (s.mLen+t+(n-t)) := by congr 1; omega
          _ = window mem s.mBufferSize s.mReadPtr (s.mLen+t) ++ (src.drop t).take (n-t) := hwin'
          _ = s.contents ++ src.take n := by rw [hwin, List.append_assoc, htake, contents]
    · rw [if_neg hhead]
      have hnt : n = t := by omega
      subst hnt
      exact ⟨mem,0,rfl,by omega,by omega,hwin⟩

/-- The end of every call that adds bytes: the bytes lie behind the old ones, and the length and
a read pointer that rests at mEnd are brought up to date. -/
theorem addLengthInternal_spec {N n w : ℕ} {s : CircularBuffer} {q bs : List UInt8}
    {mem : ℕ → UInt8} (h : s.Holds N q) (hn : bs.length = n) (hcap : q.length+n ≤ N)
    (hwin : window mem N s.mReadPtr (q.length+n) = q ++ bs)
    (hw : w < N ∨ w = N ∧ s.mReadPtr = N ∧ 0 < q.length+n)
    (hweq : w = s.mReadPtr+(q.length+n) ∨ w+N = s.mReadPtr+(q.length+n) ∨
      w+2*N = s.mReadPtr+(q.length+n)) :
    ∃ s', { s with mBuffer := mem, mWritePtr := w }.addLengthInternal n = .ok s' ∧
      s'.Holds N (q ++ bs) ∧ s'.mWritePtr = w := by
  have hlen := h.len_eq
  obtain ⟨hpos,-,hr,-,-,-,-⟩ := h.wf
  obtain rfl := h.size_eq
  unfold addLengthInternal
  rw [if_neg (by simp only; omega)]
  refine ⟨_,rfl,⟨⟨hpos,?_,?_,?_,?_,?_,?_⟩,rfl,?_⟩,rfl⟩
  · simp only; omega
  · dsimp only; split <;> omega
  · simp only; omega
  · dsimp only; split <;> omega
  · dsimp only; split <;> omega
  · dsimp only; split <;> omega
  · dsimp only [contents]
    rw [hlen, ← hwin]
    split
    · rename_i hrN
      rw [hrN]
      simpa using (window_add_size mem (show 0+(q.length+n) ≤ s.mBufferSize by omega)).symm
    · rfl

theorem writeInternal_spec {N size : ℕ} {s : CircularBuffer} {q src : List UInt8}
    (h : s.Holds N q) (hsize : size ≤ src.length) :
    ∃ s', s.writeInternal (some src) size = .ok (min size (N-q.length),s') ∧
      s'.Holds N (q ++ src.take (min size (N-q.length))) := by
  have hlen := h.len_eq
  have hle := h.length_le
  simp only [writeInternal, h.free_eq]
  by_cases hz : min size (N-q.length) = 0
  · exact ⟨s,by rw [if_pos hz, hz],by simpa only [hz, List.take_zero, List.append_nil] using h⟩
  · obtain ⟨n,hn⟩ : ∃ n, n = min size (N-q.length) := ⟨_,rfl⟩
    rw [← hn] at hz ⊢
    have hN := h.size_eq
    obtain ⟨mem,w,hseg,hw,hweq,hwin⟩ := writeSegments_spec (n := n) h.wf (by omega) (by omega)
      (show n ≤ src.length by omega)
    rw [h.contents_eq, hlen, hN] at hwin
    obtain ⟨s',hadd,hs',-⟩ :=
      addLengthInternal_spec (n := n) (w := w) h (by simp only [List.length_take]; omega)
      (by omega) hwin (Or.inl (by omega)) (by omega)
    refine ⟨s',?_,hs'⟩
    rw [if_neg hz, hseg, ok_bind, hadd, ok_bind]

/-- Some buffer holds these bytes. -/
theorem exists_holds (q : List UInt8) : ∃ N buf, CircularBuffer.Holds N buf q := by
  obtain ⟨s,-,hs⟩ := writeInternal_spec (init_holds (fun _ => 0) (Nat.succ_pos q.length)) (le_refl q.length)
  refine ⟨q.length+1,s,?_⟩
  simpa using hs

/-- What `subtract_length_internal` is called on: the read pointer has moved over the oldest n
bytes, around the end at most once. -/
theorem subtractLengthInternal_spec {N n r : ℕ} {s : CircularBuffer} {q : List UInt8}
    (h : s.Holds N q) (hn : 0 < n) (hle : n ≤ q.length)
    (hr : r = s.mReadPtr+n ∧ r ≤ N ∨ r+N = s.mReadPtr+n ∧ s.mReadPtr+n ≠ N) :
    ∃ s', { s with mReadPtr := r }.subtractLengthInternal n = .ok s' ∧
      s'.Holds N (q.drop n) := by
  have hlen := h.len_eq
  have hcont := h.contents_eq
  obtain ⟨hpos,hll,hrl,hwl,hweq,hre,hwe⟩ := h.wf
  obtain rfl := h.size_eq
  unfold subtractLengthInternal
  rw [if_neg (by simp only; omega)]
  refine ⟨_,rfl,⟨⟨hpos,?_,?_,?_,?_,?_,?_⟩,rfl,?_⟩⟩
  · simp only; omega
  · simp only; omega
  · dsimp only; split <;> omega
  · dsimp only; split <;> omega
  · dsimp only; split <;> omega
  · dsimp only; split <;> omega
  · dsimp only [contents] at hcont ⊢
    rw [← hcont, window_drop _ _ _ (by omega)]
    rcases hr with ⟨rfl,-⟩ | ⟨hr,-⟩
    · rfl
    · rw [← hr, window_add_size _ (by omega)]

theorem copyOut_spec (s : CircularBuffer) (dest : Bool) {src size : ℕ}
    (h : src+size ≤ s.mBufferSize) :
    s.copyOut dest src size = .ok (if dest then load s.mBuffer src size else []) := by
  unfold copyOut
  by_cases hz : size = 0 ∨ dest = false
  · rw [if_pos hz]
    rcases hz with rfl | rfl <;> simp
  · rw [if_neg hz, if_pos h]
    simp only [not_or, Bool.not_eq_false] at hz
    rw [if_pos hz.2]

theorem read_spec {N : ℕ} {s : CircularBuffer} {q : List UInt8} (h : s.Holds N q) (dest : Bool)
    (size : ℕ) :
    ∃ s', s.read dest size =
        .ok ((min size q.length,if dest then q.take size else []),s') ∧
      s'.Holds N (q.drop size) := by
  have hlen := h.len_eq
  have hrl := h.wf.read_le
  have hll := h.wf.len_le
  have hN := h.size_eq
  have hcont := h.contents_eq
  have hdrop : q.drop size = q.drop (min size q.length) := by
    rcases Nat.le_total size q.length with hs | hs
    · rw [min_eq_left hs]
    · rw [min_eq_right hs, List.drop_of_length_le hs, List.drop_of_length_le le_rfl]
  have htake : q.take size = q.take (min size q.length) := by
    rw [List.take_eq_take_iff]
    omega
  rw [hdrop, htake]
  simp only [read, lengthInternal]
  obtain ⟨n,hn⟩ : ∃ n, n = min size q.length := ⟨_,rfl⟩
  rw [show min size s.mLen = n by omega, ← hn]
  by_cases hz : n = 0
  · exact ⟨s,by simp [hz],by simpa [hz] using h⟩
  · rw [if_neg hz]
    have hbytes : q.take n = window s.mBuffer s.mBufferSize s.mReadPtr n := by
      rw [← hcont, contents, window_take _ _ _ (by omega)]
    by_cases hhead : s.mBufferSize - s.mReadPtr < n
    · -- the wanted bytes go around the end
      obtain ⟨t,ht⟩ : ∃ t, t = s.mBufferSize - s.mReadPtr := ⟨_,rfl⟩
      have hmin : min (s.mBufferSize - s.mReadPtr) n = t := by omega
      obtain ⟨s',hsub,hs'⟩ := subtractLengthInternal_spec (n := n) (r := n-t) h (by omega) (by omega)
        (by omega)
      refine ⟨s',?_,hs'⟩
      rw [hmin, copyOut_spec s dest (by omega), ok_bind, if_pos (by omega),
        copyOut_spec s dest (by omega), ok_bind, hsub, ok_bind]
      congr 3
      cases dest with
      | false => rfl
      | true =>
        have htail : window s.mBuffer s.mBufferSize s.mReadPtr t = load s.mBuffer s.mReadPtr t :=
          window_eq_load _ (by omega)
        have hhead : window s.mBuffer s.mBufferSize (s.mReadPtr+t) (n-t) = load s.mBuffer 0 (n-t) := by
          rw [window_eq_load_wrapped _ (by omega), show s.mReadPtr+t-s.mBufferSize = 0 by omega]
        simp only [↓reduceIte]
        rw [hbytes, ← htail, ← hhead, ← window_add, show t+(n-t) = n by omega]
    · -- one segment has all of them
      have hmin : min (s.mBufferSize - s.mReadPtr) n = n := by omega
      obtain ⟨s',hsub,hs'⟩ := subtractLengthInternal_spec (n := n) (r := s.mReadPtr+n) h (by omega)
        (by omega) (by omega)
      refine ⟨s',?_,hs'⟩
      rw [hmin, copyOut_spec s dest (by omega), ok_bind, if_neg (lt_irrefl n), hsub, ok_bind,
        hbytes, window_eq_load _ (by omega)]

theorem dropOldest_spec {N : ℕ} {s : CircularBuffer} {q : List UInt8} (h : s.Holds N q) (n : ℕ) :
    ∃ s', s.dropOldest n = .ok s' ∧ s'.Holds N (q.drop n) := by
  unfold dropOldest
  split
  · obtain ⟨s',hread,hs'⟩ := read_spec h false n
    exact ⟨s',by rw [hread, ok_bind],hs'⟩
  · rename_i hz
    refine ⟨s,rfl,?_⟩
    rwa [show n = 0 by omega, List.drop_zero]

theorem writeOverflow_spec {N size : ℕ} {s : CircularBuffer} {q src : List UInt8}
    (h : s.Holds N q) (hsize : size ≤ src.length) :
    ∃ s', s.writeOverflow (some src) size = .ok (size,s') ∧
      s'.Holds N ((q ++ src.take size).drop ((q ++ src.take size).length - N)) := by
  have hle := h.length_le
  simp only [writeOverflow, h.free_eq, h.size_eq, Option.map_some]
  -- the oldest bytes make room, then the last bytes of the source go in
  obtain ⟨s₁,hdrop,h₁⟩ := dropOldest_spec h (min size N-(N-q.length))
  obtain ⟨s₂,hwrite,h₂⟩ := writeInternal_spec h₁
    (show min size N ≤ (src.drop (size-N)).length by simp only [List.length_drop]; omega)
  have hfits : min (min size N) (N-(q.drop (min size N-(N-q.length))).length) = min size N := by
    simp only [List.length_drop]
    omega
  rw [hfits] at hwrite h₂
  refine ⟨s₂,?_,?_⟩
  · rw [hdrop, ok_bind, hwrite, ok_bind, show min size N+(size-N) = size by omega]
  · have hlast : (src.take size).drop (size-N) = (src.drop (size-N)).take (min size N) := by
      rw [List.drop_take, show size-(size-N) = min size N by omega]
    have hkept : q.drop (q.length+size-N) = q.drop (min size N-(N-q.length)) := by
      rw [List.drop_eq_drop_iff]
      omega
    rwa [List.length_append, List.length_take_of_le hsize, List.drop_append, hkept,
      show q.length+size-N-q.length = size-N by omega, hlast]

/-- The bytes behind the queued ones after a store there. -/
theorem Holds.window_store {N : ℕ} {s : CircularBuffer} {q bs : List UInt8} (h : s.Holds N q)
    (hfit : s.mWritePtr+bs.length ≤ N) (hcap : q.length+bs.length ≤ N) :
    window (store s.mBuffer s.mWritePtr bs) N s.mReadPtr (q.length+bs.length) = q ++ bs := by
  have hweq := h.wf.write_eq
  rw [h.len_eq, h.size_eq] at hweq
  have hq : window s.mBuffer N s.mReadPtr q.length = q := by
    rw [← h.size_eq, ← h.len_eq]
    exact h.contents_eq
  rw [RingMemory.window_store s.mBuffer bs hweq hfit hcap, hq]

theorem writeByte_spec {N : ℕ} {s : CircularBuffer} {q : List UInt8} (h : s.Holds N q)
    (byte : UInt8) :
    ∃ s', s.writeByte byte = .ok (if q.length = N then -1 else 0,s') ∧
      if q.length = N then s' = s else s'.Holds N (q ++ [byte]) := by
  have hle := h.length_le
  have hlen := h.len_eq
  have hN := h.size_eq
  obtain ⟨hpos,-,-,hwl,hweq,hre,hwe⟩ := h.wf
  unfold writeByte
  rw [h.free_eq]
  by_cases hfull : q.length = N
  · exact ⟨s,by rw [if_pos (by omega), if_pos hfull],by rw [if_pos hfull]⟩
  · simp only [if_neg (show ¬N-q.length = 0 by omega), if_pos (show s.mWritePtr < s.mBufferSize by omega),
      if_neg hfull]
    have hone : [byte].length = 1 := rfl
    obtain ⟨s',hadd,hs',-⟩ := addLengthInternal_spec
      (w := if s.mWritePtr+1 = s.mBufferSize then 0 else s.mWritePtr+1) h hone (by omega)
      (h.window_store (show s.mWritePtr+[byte].length ≤ N by omega) (by omega))
      (by split <;> omega) (by split <;> omega)
    -- the length is updated before the write pointer steps back, which makes no difference
    have hroom : ¬1 > s.mBufferSize - s.mLen := by omega
    simp only [addLengthInternal, if_neg hroom, Except.ok.injEq] at hadd
    simp only [addLengthInternal, if_neg hroom, ok_bind]
    exact ⟨_,rfl,hadd ▸ hs'⟩

/-- What `fillFromFile` asks the reader for, with the free space it read before it took the lock. -/
def fillRequest (s : CircularBuffer) (freespace size : ℕ) : ℕ :=
  if s.mReadPtr > s.mWritePtr then min size freespace
  else min (min size freespace) (s.mBufferSize - s.mWritePtr)

/-- The region handed to the reader lies inside the buffer, and what the reader stores there fits
the space that is free under the lock. -/
def FillFits (s : CircularBuffer) (freespace : ℕ) (reader : Reader) (size : ℕ) : Prop :=
  s.mWritePtr+s.fillRequest freespace size ≤ s.mBufferSize ∧
    ∀ bytes, reader.read (s.fillRequest freespace size) = .stored bytes →
      bytes.length ≤ s.getFreeSpace

/-- The free space is still what it was: the fill fits. -/
theorem fillFits_getFreeSpace {s : CircularBuffer} (hs : s.WellFormed) (reader : Reader)
    (size : ℕ) : s.FillFits s.getFreeSpace reader size := by
  have hweq := hs.write_eq
  have hwl := hs.write_le
  have hrl := hs.read_le
  have hreq : s.fillRequest s.getFreeSpace size ≤ s.getFreeSpace := by
    unfold fillRequest
    split <;> omega
  constructor
  · unfold fillRequest getFreeSpace lengthInternal
    split <;> omega
  · intro bytes hread
    exact (reader.bounded _ bytes hread).trans hreq

theorem fillRequest_pos {s : CircularBuffer} (hs : s.WellFormed) {size : ℕ}
    (hroom : 0 < min size s.getFreeSpace) : 0 < s.fillRequest s.getFreeSpace size := by
  have hweq := hs.write_eq
  have hwe := hs.write_end
  have hwl := hs.write_le
  unfold fillRequest
  unfold getFreeSpace lengthInternal at hroom ⊢
  split <;> omega

theorem fillRequest_le (s : CircularBuffer) (freespace size : ℕ) :
    s.fillRequest freespace size ≤ min size freespace := by
  unfold fillRequest
  split <;> omega

theorem readerRead_eq_ok {s : CircularBuffer} {reader : Reader} {n : ℕ} {res : ReadResult} :
    s.readerRead reader n = .ok res ↔ s.mWritePtr+n ≤ s.mBufferSize ∧ reader.read n = res := by
  unfold readerRead
  split_ifs with hreg <;> simp [hreg]

theorem le_of_addLengthInternal {s s' : CircularBuffer} {n : ℕ}
    (h : s.addLengthInternal n = .ok s') : n ≤ s.mBufferSize - s.mLen := by
  unfold addLengthInternal at h
  by_contra hn
  rw [if_pos (Nat.not_le.mp hn)] at h
  cases h

/-- The write pointer after the reader stored n bytes: a fill behind the wrap does not step back
from mEnd. -/
def fillEnd (s : CircularBuffer) (n : ℕ) : ℕ :=
  if s.mReadPtr > s.mWritePtr then s.mWritePtr+n
  else if s.mWritePtr+n = s.mBufferSize then 0 else s.mWritePtr+n

/-- Both branches of a fill do the same, up to the request and the write pointer. -/
theorem fillLocked_eq (s : CircularBuffer) (reader : Reader) {freespace size : ℕ}
    (hroom : ¬min size freespace = 0) :
    s.fillLocked freespace reader size = (do
      match ← s.readerRead reader (s.fillRequest freespace size) with
      | .failed err => .ok ((.negSucc err,some (s.fillRequest freespace size)),s)
      | .stored bytes =>
        let s' ← { s with
          mBuffer := store s.mBuffer s.mWritePtr bytes
          mWritePtr := s.fillEnd bytes.length }.addLengthInternal bytes.length
        .ok ((bytes.length,some (s.fillRequest freespace size)),s')) := by
  simp only [fillLocked, if_neg hroom, fillRequest, fillEnd]
  split <;> rfl

/-- A fill that fits: what the reader stores is queued. -/
theorem fillLocked_spec {N : ℕ} {s : CircularBuffer} {q : List UInt8} (h : s.Holds N q)
    {reader : Reader} {freespace size : ℕ} (hfits : s.FillFits freespace reader size)
    (hroom : ¬min size freespace = 0) :
    match reader.read (s.fillRequest freespace size) with
    | .failed err => s.fillLocked freespace reader size =
        .ok ((.negSucc err,some (s.fillRequest freespace size)),s)
    | .stored bytes => ∃ s', s.fillLocked freespace reader size =
        .ok ((bytes.length,some (s.fillRequest freespace size)),s') ∧ s'.Holds N (q ++ bytes) := by
  obtain ⟨hreg,hstored⟩ := hfits
  rw [h.free_eq] at hstored
  rw [fillLocked_eq s reader hroom]
  generalize s.fillRequest freespace size = n at *
  rw [readerRead, if_pos hreg, ok_bind]
  cases hread : reader.read n with
  | failed err => rfl
  | stored bytes =>
    have hb := reader.bounded n bytes hread
    have hcap := hstored bytes hread
    have hlen := h.len_eq
    have hle := h.length_le
    have hN := h.size_eq
    obtain ⟨hpos,-,hrl,-,hweq,hre,hwe⟩ := h.wf
    obtain ⟨s',hadd,hs',-⟩ := addLengthInternal_spec (n := bytes.length)
      (w := s.fillEnd bytes.length) h rfl (by omega) (h.window_store (by omega) (by omega))
      (by unfold fillEnd; split_ifs <;> omega) (by unfold fillEnd; split_ifs <;> omega)
    exact ⟨s',by simp only [hadd, ok_bind],hs'⟩

/-- A fill that returns did fit: one that does not hands the reader a region that ends behind the
buffer, or makes the length exceed it. -/
theorem fillFits_of_fillLocked {s : CircularBuffer} (hs : s.WellFormed) {reader : Reader}
    {freespace size : ℕ} {o : (ℤ × Option ℕ) × CircularBuffer}
    (h : s.fillLocked freespace reader size = .ok o) : s.FillFits freespace reader size := by
  by_cases hroom : min size freespace = 0
  · have hreq : s.fillRequest freespace size = 0 :=
      Nat.le_zero.mp (hroom ▸ s.fillRequest_le freespace size)
    refine ⟨by rw [hreq]; exact hs.write_le,?_⟩
    intro bytes hread
    have hb := reader.bounded _ bytes hread
    omega
  · rw [fillLocked_eq s reader hroom] at h
    obtain ⟨res,hres,h⟩ := bind_eq_ok.mp h
    obtain ⟨hreg,rfl⟩ := readerRead_eq_ok.mp hres
    refine ⟨hreg,?_⟩
    intro bytes hread
    simp only [hread] at h
    obtain ⟨s',hadd,-⟩ := bind_eq_ok.mp h
    exact le_of_addLengthInternal (s := { s with
      mBuffer := store s.mBuffer s.mWritePtr bytes, mWritePtr := s.fillEnd bytes.length }) hadd

/-- One valid call never faults, shows what the byte queue shows, and ends in the queue's next
state. -/
theorem step_refines {N : ℕ} (s : CircularBuffer) (q : ByteQueue N) (op : BufferOp)
    (h : s.Holds N q.bytes) (hop : op.Valid) :
    ∃ o s' q', s.step op = .ok (o,s') ∧ q.Step op o q' ∧ s'.Holds N q'.bytes := by
  cases op with
  | write buffer size =>
    obtain ⟨s',hw,hs'⟩ := writeInternal_spec h hop
    exact ⟨_,s',⟨_,hs'.length_le⟩,by simp only [step, write, hw, ok_bind]; rfl,⟨rfl,rfl⟩,hs'⟩
  | writeOverflow buffer size =>
    obtain ⟨s',hw,hs'⟩ := writeOverflow_spec h hop
    exact ⟨_,s',⟨_,hs'.length_le⟩,by simp only [step, hw, ok_bind],⟨rfl,rfl⟩,hs'⟩
  | writeByte byte =>
    obtain ⟨s',hw,hs'⟩ := writeByte_spec h byte
    by_cases hfull : q.bytes.length = N
    · rw [if_pos hfull] at hw hs'
      refine ⟨⟨-1,[],none⟩,s',q,by simp only [step, hw, ok_bind],?_,hs' ▸ h⟩
      simp only [ByteQueue.Step, if_pos hfull, and_self]
    · rw [if_neg hfull] at hw hs'
      refine ⟨⟨0,[],none⟩,s',⟨_,hs'.length_le⟩,by simp only [step, hw, ok_bind],?_,hs'⟩
      simp only [ByteQueue.Step, if_neg hfull, and_self]
  | read buffer size =>
    obtain ⟨s',hr,hs'⟩ := read_spec h buffer size
    exact ⟨_,s',⟨_,hs'.length_le⟩,by simp only [step, hr, ok_bind],⟨rfl,rfl⟩,hs'⟩
  | fillFromFile reader size =>
    by_cases hz : min size q.free = 0
    · have hnone : s.fillFromFile reader size = .ok ((0,none),s) := by
        rw [fillFromFile, h.free_eq, fillLocked]
        simp only [show min size (N-q.bytes.length) = 0 from hz, ↓reduceIte]
      refine ⟨⟨0,[],none⟩,s,q,by simp only [step, hnone, ok_bind],?_,h⟩
      simp only [ByteQueue.Step, if_pos hz, and_self]
    · -- the file is asked for as many bytes as there is room for in one piece
      have hz' : ¬min size s.getFreeSpace = 0 := by rwa [h.free_eq]
      have hn := fillRequest_pos h.wf (Nat.pos_of_ne_zero hz')
      have hle := s.fillRequest_le s.getFreeSpace size
      have hfill := fillLocked_spec h (fillFits_getFreeSpace h.wf reader size) hz'
      rw [show min size s.getFreeSpace = min size q.free by rw [h.free_eq]; rfl] at hle
      simp only [ByteQueue.Step, if_neg hz]
      generalize s.fillRequest s.getFreeSpace size = n at *
      cases hread : reader.read n with
      | failed err =>
        rw [hread] at hfill
        refine ⟨⟨.negSucc err,[],some n⟩,s,q,by simp only [step, fillFromFile, hfill, ok_bind],
          ⟨n,hn,hle,rfl,rfl,?_⟩,h⟩
        simp only [hread, and_self]
      | stored bytes =>
        rw [hread] at hfill
        obtain ⟨s',hfill,hs'⟩ := hfill
        refine ⟨⟨bytes.length,[],some n⟩,s',⟨_,hs'.length_le⟩,
          by simp only [step, fillFromFile, hfill, ok_bind],
          ⟨n,hn,hle,rfl,rfl,?_⟩,hs'⟩
        simp only [hread, and_self]
  | clear => exact ⟨_,s.clear,ByteQueue.empty,rfl,⟨rfl,rfl⟩,clear_holds h⟩

/-- Every sequence of valid calls on a fresh buffer runs without leaving the buffer, shows what
some run of the byte queue shows, and ends with the queue's bytes in a well-formed state. -/
theorem run_refines_byteQueue {N : ℕ} (hN : 0 < N) (mem : ℕ → UInt8) (ops : List BufferOp)
    (hops : ∀ op ∈ ops, op.Valid) :
    ∃ (os : List BufferOutput) (s : CircularBuffer) (q : ByteQueue N),
      Transition.run step (init mem N) ops = .ok (os,s) ∧
      Transition.Trace ByteQueue.Step ByteQueue.empty ops os q ∧
      s.contents = q.bytes ∧ s.mBufferSize = N ∧ s.mLen = q.bytes.length ∧ s.mLen ≤ N := by
  obtain ⟨os,s,q,hrun,htrace,h⟩ := Transition.run_simulates BufferOp.Valid
    (fun (s : CircularBuffer) (q : ByteQueue N) => s.Holds N q.bytes) step_refines
    (t := ByteQueue.empty) (init_holds mem hN) ops hops
  exact ⟨os,s,q,hrun,htrace,h.contents_eq,h.size_eq,h.len_eq,h.len_eq ▸ h.length_le⟩

/-- A run of five calls that goes around the end of three bytes. -/
theorem run_around_three_bytes :
    ∃ (os : List BufferOutput) (s : CircularBuffer) (q : ByteQueue 3),
      Transition.run step (init (fun _ => 0) 3)
        [.write [1,2] 2, .read true 1, .writeOverflow [3,4,5] 3, .writeByte 6, .clear] = .ok (os,s) ∧
      Transition.Trace ByteQueue.Step ByteQueue.empty
        [.write [1,2] 2, .read true 1, .writeOverflow [3,4,5] 3, .writeByte 6, .clear] os q ∧
      s.contents = q.bytes ∧ s.mBufferSize = 3 ∧ s.mLen = q.bytes.length ∧ s.mLen ≤ 3 :=
  run_refines_byteQueue (by decide) _ _ (by simp [BufferOp.Valid])

end CircularBuffer

end JhCommon
