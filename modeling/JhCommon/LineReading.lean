import JhCommon.CircularBufferRefinement
import JhCommon.CounterMatch

/-! Reading lines off the circular buffer: what `peekLine` and `getLine` return, and when that is
the line in front of the first terminator. -/
namespace JhCommon
open RingMemory CounterMatch

namespace CircularBuffer

/-- The states of a buffer of size N in some run of valid calls. -/
def Reachable (N : ℕ) (s : CircularBuffer) : Prop :=
  ∃ (mem : ℕ → UInt8) (ops : List BufferOp) (os : List BufferOutput),
    (∀ op ∈ ops, op.Valid) ∧ Transition.run step (init mem N) ops = .ok (os,s)

theorem Reachable.holds {N : ℕ} (hN : 0 < N) {s : CircularBuffer} (h : s.Reachable N) :
    s.Holds N s.contents := by
  obtain ⟨mem,ops,os,hops,hrun⟩ := h
  obtain ⟨_,s',q,hrun',-,hs'⟩ := Transition.run_simulates BufferOp.Valid
    (fun (s : CircularBuffer) (q : ByteQueue N) => s.Holds N q.bytes) step_refines
    (t := ByteQueue.empty) (init_holds mem hN) ops hops
  rw [hrun, Except.ok.injEq, Prod.mk.injEq] at hrun'
  obtain ⟨-,rfl⟩ := hrun'
  exact ⟨hs'.wf,hs'.size_eq,rfl⟩

/-- The position of the k-th queued byte, counted past the end of the buffer. -/
theorem contents_drop_eq_cons {s : CircularBuffer} {k : ℕ} (hk : k < s.mLen) :
    s.contents.drop k =
      s.mBuffer (slot s.mBufferSize (s.mReadPtr+k)) :: s.contents.drop (k+1) := by
  rw [List.drop_eq_getElem_cons (by rw [length_contents]; exact hk)]
  congr 1
  exact getElem_window _ _ _ _ _ _

/-- The scan over the ring is the counter's scan over the queued bytes. The induction is on the
bytes not yet looked at. -/
theorem scanLine_eq_scan {s : CircularBuffer} (hs : s.WellFormed)
    (hr : s.mReadPtr < s.mBufferSize) (hw : s.mWritePtr < s.mBufferSize) (t : List UInt8)
    (d k state fuel : ℕ) (hd : k+d = s.mLen) (hpos : 0 < d) (hfuel : d ≤ fuel) :
    s.scanLine t fuel (slot s.mBufferSize (s.mReadPtr+k)) state =
      .ok ((scan sameChar t 0 state (s.contents.drop k)).map
        (fun e => slot s.mBufferSize (s.mReadPtr+(k+e-1)))) := by
  have hweq := hs.write_eq
  have hle := hs.len_le
  induction d generalizing k state fuel with
  | zero => omega
  | succ d ih =>
    obtain ⟨fuel,rfl⟩ : ∃ f, fuel = f+1 := ⟨fuel-1,by omega⟩
    have hslot : slot s.mBufferSize (s.mReadPtr+k) < s.mBufferSize := slot_lt (by omega)
    have hnext : (if slot s.mBufferSize (s.mReadPtr+k)+1 = s.mBufferSize then 0
        else slot s.mBufferSize (s.mReadPtr+k)+1) = slot s.mBufferSize (s.mReadPtr+(k+1)) :=
      slot_succ (by omega)
    -- the write pointer is met behind the last of the d bytes, and not before
    have hend : slot s.mBufferSize (s.mReadPtr+(k+1)) = s.mWritePtr ↔ d = 0 := by
      unfold slot
      split_ifs <;> omega
    rw [contents_drop_eq_cons (by omega)]
    simp only [scanLine, scan, if_pos hslot, hnext, ne_eq, hend]
    generalize (if sameChar (s.mBuffer (slot s.mBufferSize (s.mReadPtr+k))) (t.getD state 0)
      then state+1 else 0) = state'
    by_cases hfound : state' = t.length
    · simp only [if_pos hfound, Option.map_some, Nat.add_sub_cancel]
    · by_cases hlast : d = 0
      · rw [if_neg hfound, if_neg hfound, if_neg (not_not.mpr hlast),
          List.drop_of_length_le (by rw [length_contents]; omega)]
        rfl
      · rw [if_neg hfound, if_neg hfound, if_pos hlast,
          ih (k+1) state' fuel (by omega) (by omega) (by omega), Option.map_map]
        congr 2
        funext e
        simp only [Function.comp_apply]
        congr 1
        omega

/-- What `cutLine` needs of a terminator of n bytes that follows i bytes of line: either it ends
before the end of the buffer, or it starts behind the wrap and does not end a full buffer. -/
def Cuttable (s : CircularBuffer) (i n : ℕ) : Prop :=
  s.mReadPtr+i+n ≤ s.mBufferSize ∨ s.mBufferSize ≤ s.mReadPtr+i ∧ i+n < s.mBufferSize

instance (s : CircularBuffer) (i n : ℕ) : Decidable (s.Cuttable i n) :=
  inferInstanceAs (Decidable (_ ∨ _))

theorem stringBytes_spec {s : CircularBuffer} {src : ℕ} {n : ℤ} (hn : 0 ≤ n)
    (h : src+n.toNat ≤ s.mBufferSize) :
    s.stringBytes src n = .ok (load s.mBuffer src n.toNat) := by
  rw [stringBytes, if_neg (by omega), copyOut_spec s true h, if_pos rfl]

theorem cutLine_spec {s : CircularBuffer} (hs : s.WellFormed) (hr : s.mReadPtr < s.mBufferSize)
    {i n : ℕ} (hn : 0 < n) (hlen : i+n ≤ s.mLen) :
    s.cutLine (slot s.mBufferSize (s.mReadPtr+(i+n-1))+1) n =
      if s.Cuttable i n then .ok (s.contents.take i) else .error .lengthError := by
  have hle := hs.len_le
  have hline : s.contents.take i = window s.mBuffer s.mBufferSize s.mReadPtr i :=
    window_take _ _ _ (by omega)
  have hcut : s.Cuttable i n ↔ s.mReadPtr+i+n ≤ s.mBufferSize ∨
      s.mBufferSize ≤ s.mReadPtr+i ∧ i+n < s.mBufferSize := Iff.rfl
  unfold cutLine
  by_cases hwrap : s.mReadPtr+(i+n-1) < s.mBufferSize
  · -- the terminator ends before the end of the buffer
    rw [slot, if_pos hwrap, if_neg (by omega), if_pos (hcut.mpr (by omega)), hline,
      window_eq_load _ (by omega)]
    rw [stringBytes_spec (by omega) (by omega)]
    congr 2
    omega
  · rw [slot, if_neg hwrap]
    by_cases hfull : i+n < s.mBufferSize
    · rw [if_pos (by omega), stringBytes_spec (by omega) (by omega), ok_bind]
      by_cases hstart : s.mBufferSize ≤ s.mReadPtr+i
      · rw [stringBytes_spec (by omega) (by omega), ok_bind, if_pos (hcut.mpr (by omega)), hline]
        have hsplit := window_add s.mBuffer s.mBufferSize s.mReadPtr (s.mBufferSize - s.mReadPtr)
          (s.mReadPtr+i-s.mBufferSize)
        rw [window_eq_load_wrapped _ (show s.mBufferSize ≤ s.mReadPtr+(s.mBufferSize - s.mReadPtr) by omega),
          window_eq_load _ (show s.mReadPtr+(s.mBufferSize - s.mReadPtr) ≤ s.mBufferSize by omega),
          show s.mBufferSize - s.mReadPtr+(s.mReadPtr+i-s.mBufferSize) = i by omega] at hsplit
        rw [hsplit]
        congr 3 <;> omega
      · -- the terminator lies across the end: the second piece has a negative length
        rw [if_neg (fun h => by have := hcut.mp h; omega), stringBytes, if_pos (by omega), error_bind]
    · -- the terminator ends a full buffer, right before the read pointer
      rw [if_neg (by omega), if_neg (fun h => by have := hcut.mp h; omega), stringBytes, if_pos (by omega)]

/-- The position of the first occurrence of t. -/
def FirstAt (t q : List UInt8) (i : ℕ) : Prop := t <+: q.drop i ∧ ∀ j, j < i → ¬t <+: q.drop j

/-- What a caller expects to be told about the queued bytes q. -/
def ReadsLine (t q : List UInt8) (out : ℕ × Option (List UInt8)) : Prop :=
  (∃ i, FirstAt t q i ∧ out = (i+t.length,some (q.take i))) ∨ ¬t <:+: q ∧ out.1 = 0

theorem FirstAt.length_le {t q : List UInt8} {i : ℕ} (h : FirstAt t q i) (ht : t ≠ []) :
    i+t.length ≤ q.length := by
  have := h.1.length_le
  have := List.length_pos_iff.mpr ht
  simp only [List.length_drop] at *
  omega

/-- Characters from 128 on are negative, so no byte of the buffer equals them. -/
theorem sameChar_iff (b c : UInt8) : sameChar b c ↔ b = c ∧ c.toNat < 128 := by
  have hb := b.toNat_lt
  have hc := c.toNat_lt
  rw [← UInt8.toNat_inj]
  unfold sameChar signedChar
  split <;> omega

theorem forall₂_sameChar_iff {m t : List UInt8} :
    List.Forall₂ sameChar m t ↔ m = t ∧ ∀ c ∈ t, c.toNat < 128 := by
  induction t generalizing m with
  | nil => simp
  | cons c t ih =>
    cases m with
    | nil => simp
    | cons b m =>
      simp only [List.forall₂_cons, sameChar_iff, ih, List.cons.injEq, List.forall_mem_cons]
      tauto

theorem peekLine_spec {s : CircularBuffer} (hs : s.WellFormed) (hr : s.mReadPtr < s.mBufferSize)
    (hw : s.mWritePtr < s.mBufferSize) {t : List UInt8} (ht : t ≠ []) {fuel : ℕ}
    (hfuel : s.mLen ≤ fuel) :
    s.peekLine fuel t = match scan sameChar t 0 0 s.contents with
      | none => .ok (0,none)
      | some e => if s.Cuttable (e-t.length) t.length then .ok (e,some (s.contents.take (e-t.length)))
          else .error .lengthError := by
  unfold peekLine
  by_cases hz : s.mLen = 0
  · rw [if_pos hz, show s.contents = [] from List.length_eq_zero_iff.mp (by simp [hz])]
    rfl
  · have hscan := scanLine_eq_scan hs hr hw t s.mLen 0 0 fuel (by omega) (by omega) hfuel
    rw [add_zero, slot, if_pos hr, List.drop_zero] at hscan
    rw [if_neg hz, hscan, ok_bind]
    cases he : scan sameChar t 0 0 s.contents with
    | none => rfl
    | some e =>
      obtain ⟨p,m,r,hq,-,-,hlen⟩ := (scan_eq_some_iff ht s.contents e).mp he
      have hpos := List.length_pos_iff.mpr ht
      have hle := (scan_le 0 s.contents e he).2
      rw [length_contents] at hle
      have hcut := cutLine_spec hs hr (i := e-t.length) hpos (by omega)
      rw [show e-t.length+t.length = e by omega] at hcut
      simp only [Option.map_some, zero_add, hcut]
      split
      · rw [ok_bind, List.length_take_of_le (by rw [length_contents]; omega),
          show e-t.length+t.length = e by omega]
      · rfl

theorem scan_first {t q : List UInt8} {i : ℕ} (ht : t ≠ []) (hfirst : FirstAt t q i)
    (hascii : ∀ c ∈ t, c.toNat < 128) (hmiss : Misses (· = ·) t (q.take i)) :
    scan sameChar t 0 0 q = some (i+t.length) := by
  obtain ⟨r,hr⟩ := hfirst.1
  have hi := hfirst.length_le ht
  refine (scan_eq_some_iff ht q _).mpr ⟨q.take i,t,r,?_,?_,?_,?_⟩
  · rw [List.append_assoc, hr, List.take_append_drop]
  · exact hmiss.congr (fun b c hc => by rw [sameChar_iff, and_iff_left (hascii c hc)])
  · exact forall₂_sameChar_iff.mpr ⟨rfl,hascii⟩
  · rw [List.length_take_of_le (by omega)]

theorem infix_of_scan {t q : List UInt8} {e : ℕ} (ht : t ≠ [])
    (h : scan sameChar t 0 0 q = some e) :
    (∀ c ∈ t, c.toNat < 128) ∧ Misses (· = ·) t (q.take (e-t.length)) ∧ t <:+: q := by
  obtain ⟨p,m,r,rfl,hp,hm,rfl⟩ := (scan_eq_some_iff ht q e).mp h
  obtain ⟨rfl,hascii⟩ := forall₂_sameChar_iff.mp hm
  refine ⟨hascii,?_,p,r,rfl⟩
  rw [Nat.add_sub_cancel, List.append_assoc, List.take_left]
  exact hp.congr (fun b c hc => by rw [sameChar_iff, and_iff_left (hascii c hc)])

/-- Both calls tell the caller about the first terminator, and `getLine` removes what it says. -/
def ReadsFirstLine (s : CircularBuffer) (fuel : ℕ) (t : List UInt8) : Prop :=
  ∃ out, s.peekLine fuel t = .ok out ∧ ReadsLine t s.contents out ∧
    ∃ s', s.getLine fuel t = .ok (out,s') ∧ s'.Holds s.mBufferSize (s.contents.drop out.1)

/-- The inputs on which the counter and the cutting do their job: no terminator at all, or a first
terminator of plain characters, in front of it nothing but whole misses, and cut without a
wrap or behind it. -/
def LineReadable (s : CircularBuffer) (t : List UInt8) : Prop :=
  ¬t <:+: s.contents ∨ ∃ i, FirstAt t s.contents i ∧ (∀ c ∈ t, c.toNat < 128) ∧
    Misses (· = ·) t (s.contents.take i) ∧ s.Cuttable i t.length

theorem getLine_of_peekLine {s : CircularBuffer} (hs : s.WellFormed) {fuel : ℕ} {t : List UInt8}
    {out : ℕ × Option (List UInt8)} (h : s.peekLine fuel t = .ok out)
    (hle : out.1 ≤ s.contents.length) :
    ∃ s', s.getLine fuel t = .ok (out,s') ∧ s'.Holds s.mBufferSize (s.contents.drop out.1) := by
  obtain ⟨n,line⟩ := out
  obtain ⟨s',hread,hs'⟩ := read_spec (N := s.mBufferSize) (q := s.contents) ⟨hs,rfl,rfl⟩ false n
  rw [min_eq_left hle] at hread
  refine ⟨s',?_,hs'⟩
  simp only [getLine, h, ok_bind, hread]

/-- `peekLine` and `getLine` find the first terminator exactly on the inputs of `LineReadable`. -/
theorem readsFirstLine_iff {N : ℕ} (hN : 0 < N) {s : CircularBuffer} (hs : s.Reachable N)
    (hr : s.mReadPtr < N) (hw : s.mWritePtr < N) {t : List UInt8} (ht : t ≠ []) {fuel : ℕ}
    (hfuel : s.mLen ≤ fuel) : s.ReadsFirstLine fuel t ↔ s.LineReadable t := by
  have hh := hs.holds hN
  have hwf := hh.wf
  have hpeek := peekLine_spec hwf (by rwa [hh.size_eq]) (by rwa [hh.size_eq]) ht hfuel
  have hpos := List.length_pos_iff.mpr ht
  constructor
  · rintro ⟨out,hout,hline,-⟩
    rcases hline with ⟨i,hfirst,rfl⟩ | ⟨hno,-⟩
    · -- a line was returned, so the scan ended, and the cut succeeded
      refine Or.inr ⟨i,hfirst,?_⟩
      rw [hout] at hpeek
      cases he : scan sameChar t 0 0 s.contents with
      | none =>
        simp only [he, Except.ok.injEq, Prod.mk.injEq] at hpeek
        omega
      | some e =>
        simp only [he] at hpeek
        by_cases hcut : s.Cuttable (e-t.length) t.length
        · rw [if_pos hcut, Except.ok.injEq, Prod.mk.injEq] at hpeek
          have hi : e-t.length = i := by omega
          obtain ⟨hascii,hmiss,-⟩ := infix_of_scan ht he
          rw [hi] at hmiss hcut
          exact ⟨hascii,hmiss,hcut⟩
        · rw [if_neg hcut] at hpeek
          exact absurd hpeek (by simp)
    · exact Or.inl hno
  · rintro (hno | ⟨i,hfirst,hascii,hmiss,hcut⟩)
    · have hnone : scan sameChar t 0 0 s.contents = none := by
        rw [Option.eq_none_iff_forall_ne_some]
        intro e he
        exact hno (infix_of_scan ht he).2.2
      rw [hnone] at hpeek
      exact ⟨_,hpeek,Or.inr ⟨hno,rfl⟩,getLine_of_peekLine hwf hpeek (Nat.zero_le _)⟩
    · rw [scan_first ht hfirst hascii hmiss] at hpeek
      simp only [Nat.add_sub_cancel, if_pos hcut] at hpeek
      exact ⟨_,hpeek,Or.inl ⟨i,hfirst,rfl⟩,getLine_of_peekLine hwf hpeek (hfirst.length_le ht)⟩

/-- A buffer of eight bytes with these three written to it. -/
def written (a b c : UInt8) : CircularBuffer :=
  { mBuffer := store (fun _ => 0) 0 [a,b,c]
    mBufferSize := 8
    mReadPtr := 0
    mWritePtr := 3
    mLen := 3 }

theorem reachable_written (a b c : UInt8) : (written a b c).Reachable 8 :=
  ⟨fun _ => 0,[.write [a,b,c] 3],[⟨3,[],none⟩],by simp [BufferOp.Valid],rfl⟩

theorem contents_written (a b c : UInt8) : (written a b c).contents = [a,b,c] := rfl

/-- The line "a" in front of "\r\n" is read. -/
theorem readsFirstLine_written : (written 97 13 10).ReadsFirstLine 3 [13,10] := by
  refine (readsFirstLine_iff (by decide) (reachable_written 97 13 10) (by decide) (by decide)
    (by decide) (by decide)).mpr (Or.inr ⟨1,⟨⟨[],rfl⟩,?_⟩,by simp,?_,by decide⟩)
  · intro j hj
    obtain rfl : j = 0 := by omega
    rw [contents_written]
    decide
  · exact .append (p := []) ⟨[],97,[],13,[10],rfl,rfl,.nil,by decide⟩ .nil

/-- In "\r\r\n" the second '\r' ends a partial match and is not looked at again, so the terminator
"\r\n" behind the first '\r' is missed. -/
theorem misses_terminator : ¬∀ (N : ℕ) (s : CircularBuffer) (t : List UInt8) (fuel : ℕ), 0 < N →
    s.Reachable N → s.mReadPtr < N → s.mWritePtr < N → t ≠ [] → s.mLen ≤ fuel →
    s.ReadsFirstLine fuel t := by
  intro h
  obtain ⟨out,hout,hline,-⟩ := h 8 (written 13 13 10) [13,10] 3 (by decide)
    (reachable_written 13 13 10) (by decide) (by decide) (by decide) (by decide)
  have hnone : (written 13 13 10).peekLine 3 [13,10] = .ok (0,none) := rfl
  rw [hnone, Except.ok.injEq] at hout
  subst hout
  rcases hline with ⟨i,-,hi⟩ | ⟨hno,-⟩
  · simp at hi
  · exact hno ⟨[13],[],rfl⟩

end CircularBuffer

end JhCommon
