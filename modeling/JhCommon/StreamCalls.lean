import JhCommon.Transition

/-! The calls `writeAll` and `readAll` of `IReaderWriter.h` at the two ends of a stream: one thread
writes its buffers and closes its end, the other one reads, and what the calls of the kernel return is
open within what the kernel promises. -/
namespace JhCommon
open Transition

/-- A `writeAll` at the test of its loop. -/
structure WriteAll where
  buffer : List UInt8
  bytesWritten : ℕ

/-- A `readAll` at the test of its loop, with the bytes that are in the buffer by now. -/
structure ReadAll where
  length : ℕ
  buffer : List UInt8

/-- What is behind one turn of a loop: its next one, or what the call returns. -/
def WriteAll.turn (c : WriteAll) (result : ℤ) : WriteAll ⊕ ℤ :=
  if result < 0 then .inr result
  else .inl { c with bytesWritten := c.bytesWritten+result.toNat }

def ReadAll.turn (c : ReadAll) (result : ℤ) (bytes : List UInt8) : ReadAll ⊕ ℤ :=
  if result < 0 then .inr result
  else if result = 0 then .inr c.buffer.length
  else .inl { c with buffer := c.buffer ++ bytes }

/-- The two threads, the stream between them, and what their calls have returned. -/
structure Streams where
  toWrite : List (List UInt8)
  writing : Option WriteAll
  writes : List ℤ
  closed : Bool
  pipe : List UInt8
  toRead : List ℕ
  reading : Option ReadAll
  reads : List (ℤ × List UInt8)

/-- What happens next, with what the kernel returns. -/
inductive StreamAction
  | writeAll
  | write (result : ℤ)
  | writeDone
  | close
  | readAll
  | read (result : ℤ)
  | readDone

namespace Streams

def start (messages : List (List UInt8)) (lengths : List ℕ) : Streams :=
  ⟨messages,none,[],false,[],lengths,none,[]⟩

/-- Nothing of the stream is lost or comes twice: a write that returns a count has put that many bytes
into it, a read that returns one has taken them out, and it returns 0 only at the end. -/
def step (s : Streams) : StreamAction → Option Streams
  | .writeAll =>
    match s.writing, s.toWrite with
    | none, m :: toWrite =>
      if s.closed then none else some { s with toWrite := toWrite, writing := some ⟨m,0⟩ }
    | _, _ => none
  | .write result =>
    match s.writing with
    | some c =>
      if c.bytesWritten < c.buffer.length ∧ result ≤ c.buffer.length-c.bytesWritten then
        let bytes := (c.buffer.drop c.bytesWritten).take result.toNat
        match c.turn result with
        | .inl c => some { s with writing := some c, pipe := s.pipe ++ bytes }
        | .inr ret => some { s with writing := none, writes := s.writes ++ [ret] }
      else none
    | none => none
  | .writeDone =>
    match s.writing with
    | some c =>
      if c.bytesWritten < c.buffer.length then none
      else some { s with writing := none, writes := s.writes ++ [(c.bytesWritten : ℤ)] }
    | none => none
  | .close =>
    match s.writing with
    | some _ => none
    | none => some { s with closed := true }
  | .readAll =>
    match s.reading, s.toRead with
    | none, n :: toRead => some { s with toRead := toRead, reading := some ⟨n,[]⟩ }
    | _, _ => none
  | .read result =>
    match s.reading with
    | some c =>
      if c.buffer.length < c.length ∧ result ≤ c.length-c.buffer.length ∧
          result ≤ s.pipe.length ∧ (result = 0 → s.pipe = [] ∧ s.closed) then
        match c.turn result (s.pipe.take result.toNat) with
        | .inl c => some { s with reading := some c, pipe := s.pipe.drop result.toNat }
        | .inr ret => some { s with reading := none, reads := s.reads ++ [(ret,c.buffer)] }
      else none
    | none => none
  | .readDone =>
    match s.reading with
    | some c =>
      if c.buffer.length < c.length then none
      else some { s with reading := none, reads := s.reads ++ [((c.buffer.length : ℤ),c.buffer)] }
    | none => none

/-- No call has returned an error. -/
def NoError (s : Streams) : Prop := (∀ r ∈ s.writes, 0 ≤ r) ∧ ∀ r ∈ s.reads, 0 ≤ r.1

/-- What a `readAll` that has the whole of a message returns. -/
def whole (m : List UInt8) : ℤ × List UInt8 := (m.length,m)

/-- The writer is in its messages where it says, the reader has had the first k of them as a whole and
nothing since, and what it has of the next one is followed by what is in the stream. -/
structure Orderly (messages : List (List UInt8)) (s : Streams) (k : ℕ) : Prop where
  toWrite : messages.drop s.writes.length = (s.writing.map WriteAll.buffer).toList ++ s.toWrite
  writes : s.writes = (messages.take s.writes.length).map fun m => (m.length : ℤ)
  written : ∀ c ∈ s.writing, c.bytesWritten ≤ c.buffer.length
  closed : s.closed → s.writing = none
  toRead : (messages.map List.length).drop s.reads.length =
    (s.reading.map ReadAll.length).toList ++ s.toRead
  readable : ∀ c ∈ s.reading, c.buffer.length ≤ c.length
  bound : s.reads.length ≤ messages.length
  whole_le : k ≤ s.reads.length
  reads : s.reads = (messages.take k).map whole ++ List.replicate (s.reads.length-k) (0,[])
  ended : k < s.reads.length → s.closed ∧ s.writes.length ≤ k ∧ s.pipe = []
  stream : (messages.take k).flatten ++ (s.reading.elim [] ReadAll.buffer ++ s.pipe) =
    (messages.take s.writes.length).flatten ++
      s.writing.elim [] fun c => c.buffer.take c.bytesWritten

variable {messages : List (List UInt8)} {s s' : Streams} {k : ℕ}

theorem orderly_start (messages : List (List UInt8)) :
    (start messages (messages.map List.length)).Orderly messages 0 where
  toWrite := rfl
  writes := rfl
  written := by rintro c ⟨⟩
  closed _ := rfl
  toRead := rfl
  readable := by rintro c ⟨⟩
  bound := Nat.zero_le _
  whole_le := le_rfl
  reads := rfl
  ended := by rintro ⟨⟩
  stream := rfl

namespace Orderly

/-- What is in the stream and what is out of it is the beginning of the messages. -/
theorem sent_prefix (h : s.Orderly messages k) :
    (messages.take k).flatten ++ (s.reading.elim [] ReadAll.buffer ++ s.pipe) <+: messages.flatten := by
  rw [h.stream]
  have hmessages : messages.flatten =
      (messages.take s.writes.length).flatten ++ (messages.drop s.writes.length).flatten := by
    rw [← List.flatten_append, List.take_append_drop]
  rw [hmessages, List.prefix_append_right_inj, h.toWrite]
  cases s.writing with
  | none => exact List.nil_prefix
  | some c =>
    simp only [Option.elim, Option.map_some, Option.toList_some, List.flatten_append,
      List.flatten_singleton]
    exact (List.take_prefix _ _).trans (List.prefix_append _ _)

/-- With as many messages read as were written the reader has nothing of another one. -/
theorem buffer_eq_nil (h : s.Orderly messages k) (hclosed : s.closed) (hle : s.writes.length ≤ k)
    {c : ReadAll} (hc : s.reading = some c) : c.buffer = [] := by
  have hlength := congrArg List.length h.stream
  have htake : messages.take s.writes.length <+: messages.take k := List.take_prefix_take_left hle
  have hless := (List.Sublist.flatten htake.sublist).length_le
  rw [hc, h.closed hclosed] at hlength
  simp only [Option.elim, List.append_nil, List.length_append] at hlength
  apply List.eq_nil_of_length_eq_zero
  omega

/-- The message that the reader is at. -/
theorem reading_message (h : s.Orderly messages k) (hk : k = s.reads.length) {c : ReadAll}
    (hc : s.reading = some c) : ∃ m, messages.drop k = m :: messages.drop (k+1) ∧
      m.length = c.length ∧ c.buffer <+: m := by
  have hread := h.toRead
  rw [hc, ← hk, ← List.map_drop] at hread
  cases hdrop : messages.drop k with
  | nil => simp [hdrop] at hread
  | cons m rest =>
    have hlength : m.length = c.length := by
      simp only [hdrop, List.map_cons, Option.map_some, Option.toList_some, List.cons_append,
        List.cons.injEq] at hread
      exact hread.1
    have hrest : rest = messages.drop (k+1) := by
      rw [← List.drop_drop, hdrop, List.drop_one, List.tail_cons]
    refine ⟨m,by rw [hrest],hlength,?_⟩
    have hsent := h.sent_prefix
    have hmessages : messages.flatten = (messages.take k).flatten ++ (m ++ rest.flatten) := by
      rw [← List.flatten_cons, ← hdrop, ← List.flatten_append, List.take_append_drop]
    rw [hc, hmessages, List.prefix_append_right_inj] at hsent
    have hbuffer : c.buffer <+: m ++ rest.flatten := (List.prefix_append _ _).trans hsent
    exact List.prefix_of_prefix_length_le hbuffer (List.prefix_append _ _)
      (hlength ▸ h.readable c hc)

/-- A reader that waits for more at the end of the stream has not missed any message. -/
theorem writes_le (h : s.Orderly messages k) (hclosed : s.closed) (hpipe : s.pipe = [])
    {c : ReadAll} (hc : s.reading = some c) (hmore : c.buffer.length < c.length) :
    s.writes.length ≤ k := by
  rcases Nat.lt_or_eq_of_le h.whole_le with hk | hk
  · exact (h.ended hk).2.1
  · obtain ⟨m,hdrop,hm,-⟩ := h.reading_message hk hc
    by_contra! hlt
    have htake : messages.take (k+1) <+: messages.take s.writes.length :=
      List.take_prefix_take_left hlt
    have hless := (List.Sublist.flatten htake.sublist).length_le
    have hsucc : messages.take (k+1) = messages.take k ++ [m] := by
      rw [List.take_add, hdrop]
      rfl
    have hlength := congrArg List.length h.stream
    rw [hc, h.closed hclosed, hpipe] at hlength
    rw [hsucc, List.flatten_append, List.length_append, List.flatten_singleton] at hless
    simp only [Option.elim, List.append_nil, List.length_append] at hlength
    omega

theorem reads_lt (h : s.Orderly messages k) {c : ReadAll} (hc : s.reading = some c) :
    s.reads.length < messages.length := by
  have hread := h.toRead
  rw [hc] at hread
  by_contra! hge
  rw [List.drop_eq_nil_of_le (by simpa using hge)] at hread
  simp at hread

theorem writeAll_step (h : s.Orderly messages k) (hstep : s.step .writeAll = some s') :
    s'.Orderly messages k := by
  simp only [step] at hstep
  split at hstep
  · rename_i m toWrite hwriting htoWrite
    split_ifs at hstep with hclosed
    obtain rfl := Option.some.inj hstep
    have htodo := h.toWrite
    have hstream := h.stream
    rw [hwriting, htoWrite] at htodo
    rw [hwriting] at hstream
    refine { h with toWrite := htodo, written := ?_, closed := ?_, stream := ?_ }
    · rintro c ⟨⟩
      exact Nat.zero_le _
    · exact fun hc => absurd hc hclosed
    · simpa using hstream
  · cases hstep

theorem write_step (h : s.Orderly messages k) {result : ℤ}
    (hstep : s.step (.write result) = some s') (hok : s'.NoError) : s'.Orderly messages k := by
  simp only [step] at hstep
  split at hstep
  · rename_i c hwriting
    split_ifs at hstep with hguard
    obtain ⟨hmore,hresult⟩ := hguard
    have hopen : ¬s.closed := fun hc => by simp [h.closed hc] at hwriting
    by_cases hneg : result < 0
    · simp only [WriteAll.turn, if_pos hneg, Option.some.injEq] at hstep
      subst hstep
      have := hok.1 result (by simp)
      omega
    · simp only [WriteAll.turn, if_neg hneg, Option.some.injEq] at hstep
      subst hstep
      have htodo := h.toWrite
      have hstream := h.stream
      rw [hwriting] at htodo hstream
      refine { h with toWrite := htodo, written := ?_, closed := ?_, ended := ?_, stream := ?_ }
      · rintro d ⟨⟩
        dsimp only
        omega
      · exact fun hc => absurd hc hopen
      · exact fun hk => absurd (h.ended hk).1 hopen
      · simp only [Option.elim_some] at hstream ⊢
        rw [List.take_add, ← List.append_assoc (messages.take s.writes.length).flatten, ← hstream]
        simp only [List.append_assoc]
  · cases hstep

theorem writeDone_step (h : s.Orderly messages k) (hstep : s.step .writeDone = some s') :
    s'.Orderly messages k := by
  simp only [step] at hstep
  split at hstep
  · rename_i c hwriting
    split_ifs at hstep with hmore
    obtain rfl := Option.some.inj hstep
    have hall : c.bytesWritten = c.buffer.length := by
      have := h.written c hwriting
      omega
    have hopen : ¬s.closed := fun hc => by simp [h.closed hc] at hwriting
    have htodo := h.toWrite
    have hstream := h.stream
    rw [hwriting] at htodo hstream
    have hsucc : messages.take (s.writes.length+1) = messages.take s.writes.length ++ [c.buffer] := by
      rw [List.take_add, htodo]
      rfl
    refine { h with toWrite := ?_, writes := ?_, written := ?_, closed := ?_, ended := ?_, stream := ?_ }
    · rw [List.length_append, List.length_singleton, ← List.drop_drop, htodo]
      rfl
    · rw [List.length_append, List.length_singleton, hsucc, List.map_append, ← h.writes, hall]
      rfl
    · rintro d ⟨⟩
    · exact fun hc => absurd hc hopen
    · exact fun hk => absurd (h.ended hk).1 hopen
    · rw [List.length_append, List.length_singleton, hsucc, hstream]
      simp [hall]
  · cases hstep

theorem close_step (h : s.Orderly messages k) (hstep : s.step .close = some s') :
    s'.Orderly messages k := by
  simp only [step] at hstep
  split at hstep
  · cases hstep
  · rename_i hwriting
    obtain rfl := Option.some.inj hstep
    exact { h with closed := fun _ => hwriting, ended := fun hk => ⟨rfl,(h.ended hk).2⟩ }

theorem readAll_step (h : s.Orderly messages k) (hstep : s.step .readAll = some s') :
    s'.Orderly messages k := by
  simp only [step] at hstep
  split at hstep
  · rename_i n toRead hreading htoRead
    obtain rfl := Option.some.inj hstep
    have htodo := h.toRead
    have hstream := h.stream
    rw [hreading, htoRead] at htodo
    rw [hreading] at hstream
    refine { h with toRead := htodo, readable := ?_, stream := hstream }
    rintro c ⟨⟩
    exact Nat.zero_le _
  · cases hstep

/-- A call that returns nothing at the end of the stream. -/
theorem read_none (h : s.Orderly messages k) {c : ReadAll} (hreading : s.reading = some c)
    (hclosed : s.closed) (hpipe : s.pipe = []) (hle : s.writes.length ≤ k) :
    ({ s with reading := none,
              reads := s.reads ++ [((c.buffer.length : ℤ),c.buffer)] } : Streams).Orderly messages k := by
  have hnil := h.buffer_eq_nil hclosed hle hreading
  have htodo := h.toRead
  have hstream := h.stream
  rw [hreading] at htodo hstream
  refine { h with toRead := ?_, readable := ?_, bound := ?_, whole_le := ?_, reads := ?_, ended := ?_,
                  stream := ?_ }
  · rw [List.length_append, List.length_singleton, ← List.drop_drop, htodo]
    rfl
  · rintro d ⟨⟩
  · simpa using h.reads_lt hreading
  · exact h.whole_le.trans (by simp)
  · have hsucc : s.reads.length+1-k = (s.reads.length-k)+1 := Nat.succ_sub h.whole_le
    calc s.reads ++ [((c.buffer.length : ℤ),c.buffer)]
      _ = s.reads ++ [(0,[])] := by rw [hnil]; rfl
      _ = (messages.take k).map whole ++ List.replicate (s.reads.length-k) (0,[]) ++ [(0,[])] := by
        rw [← h.reads]
      _ = _ := by
        rw [List.length_append, List.length_singleton, hsucc, List.replicate_succ', List.append_assoc]
  · exact fun _ => ⟨hclosed,hle,hpipe⟩
  · simpa [hnil] using hstream

theorem read_whole (h : s.Orderly messages k) {c : ReadAll} (hreading : s.reading = some c)
    (hk : k = s.reads.length) (hall : c.buffer.length = c.length) :
    ({ s with reading := none,
              reads := s.reads ++ [((c.buffer.length : ℤ),c.buffer)] } : Streams).Orderly messages
      (k+1) := by
  obtain ⟨m,hdrop,hm,hfront⟩ := h.reading_message hk hreading
  obtain rfl : c.buffer = m := hfront.eq_of_length (hall.trans hm.symm)
  have htodo := h.toRead
  have hstream := h.stream
  rw [hreading] at htodo hstream
  have hsucc : messages.take (k+1) = messages.take k ++ [c.buffer] := by
    rw [List.take_add, hdrop]
    rfl
  refine { h with toRead := ?_, readable := ?_, bound := ?_, whole_le := ?_, reads := ?_, ended := ?_,
                  stream := ?_ }
  · rw [List.length_append, List.length_singleton, ← List.drop_drop, htodo]
    rfl
  · rintro d ⟨⟩
  · simpa using h.reads_lt hreading
  · simp [hk]
  · have hreads : s.reads = (messages.take k).map whole := by
      simpa [hk] using h.reads
    calc s.reads ++ [((c.buffer.length : ℤ),c.buffer)]
      _ = (messages.take (k+1)).map whole := by rw [hsucc, List.map_append, hreads]; rfl
      _ = _ := by simp [hk]
  · intro hlt
    simp [hk] at hlt
  · simpa [hsucc] using hstream

theorem read_step (h : s.Orderly messages k) {result : ℤ} (hstep : s.step (.read result) = some s')
    (hok : s'.NoError) : s'.Orderly messages k := by
  simp only [step] at hstep
  split at hstep
  · rename_i c hreading
    split_ifs at hstep with hguard
    obtain ⟨hmore,hroom,hpipe,hend⟩ := hguard
    rcases lt_trichotomy result 0 with hneg | rfl | hpos
    · simp only [ReadAll.turn, if_pos hneg, Option.some.injEq] at hstep
      subst hstep
      have := hok.2 (result,c.buffer) (by simp)
      omega
    · obtain ⟨hempty,hclosed⟩ := hend rfl
      simp only [ReadAll.turn, lt_irrefl, if_false, if_true, Option.some.injEq] at hstep
      subst hstep
      exact h.read_none hreading hclosed hempty (h.writes_le hclosed hempty hreading hmore)
    · simp only [ReadAll.turn, if_neg hpos.not_gt, if_neg hpos.ne', Option.some.injEq] at hstep
      subst hstep
      have htodo := h.toRead
      have hstream := h.stream
      rw [hreading] at htodo hstream
      refine { h with toRead := htodo, readable := ?_, ended := ?_, stream := ?_ }
      · rintro d ⟨⟩
        simp only [List.length_append, List.length_take]
        omega
      · intro hk
        simp only [(h.ended hk).2.2, List.length_nil, Nat.cast_zero] at hpipe
        omega
      · simp only [Option.elim_some] at hstream ⊢
        rw [List.append_assoc, List.take_append_drop]
        exact hstream
  · cases hstep

theorem readDone_step (h : s.Orderly messages k) (hstep : s.step .readDone = some s') :
    ∃ k', s'.Orderly messages k' := by
  simp only [step] at hstep
  split at hstep
  · rename_i c hreading
    split_ifs at hstep with hmore
    obtain rfl := Option.some.inj hstep
    rcases Nat.lt_or_eq_of_le h.whole_le with hk | hk
    · obtain ⟨hclosed,hle,hpipe⟩ := h.ended hk
      exact ⟨k,h.read_none hreading hclosed hpipe hle⟩
    · have hall : c.buffer.length = c.length := (h.readable c hreading).antisymm (not_lt.mp hmore)
      exact ⟨k+1,h.read_whole hreading hk hall⟩
  · cases hstep

theorem step_orderly (h : s.Orderly messages k) {a : StreamAction} (hstep : s.step a = some s')
    (hok : s'.NoError) : ∃ k', s'.Orderly messages k' := by
  cases a with
  | writeAll => exact ⟨k,h.writeAll_step hstep⟩
  | write result => exact ⟨k,h.write_step hstep hok⟩
  | writeDone => exact ⟨k,h.writeDone_step hstep⟩
  | close => exact ⟨k,h.close_step hstep⟩
  | readAll => exact ⟨k,h.readAll_step hstep⟩
  | read result => exact ⟨k,h.read_step hstep hok⟩
  | readDone => exact h.readDone_step hstep

/-- What has been read in order. -/
theorem reads_eq (h : s.Orderly messages k) {i : ℕ} {r : ℤ × List UInt8}
    (hr : s.reads[i]? = some r) :
    ∃ m, messages[i]? = some m ∧ (r = whole m ∨ s.closed ∧ s.writes.length ≤ i ∧ r = (0,[])) := by
  have hi : i < s.reads.length := (List.getElem?_eq_some_iff.mp hr).1
  have hlength : ((messages.take k).map whole).length = k := by
    rw [List.length_map, List.length_take, min_eq_left (h.whole_le.trans h.bound)]
  have him : i < messages.length := hi.trans_le h.bound
  refine ⟨messages[i],List.getElem?_eq_getElem him,?_⟩
  rw [h.reads] at hr
  rcases lt_or_ge i k with hik | hki
  · left
    rw [List.getElem?_append_left (hlength.symm ▸ hik)] at hr
    simpa [hik, eq_comm, him] using hr
  · right
    rw [List.getElem?_append_right (hlength.symm ▸ hki), hlength] at hr
    obtain ⟨hclosed,hle,-⟩ := h.ended (hki.trans_lt hi)
    exact ⟨hclosed,hle.trans hki,List.eq_of_mem_replicate (List.mem_of_getElem? hr)⟩

end Orderly

/-- What a call has returned stays. -/
theorem returned_step {a : StreamAction} (hstep : s.step a = some s') :
    s.writes <+: s'.writes ∧ s.reads <+: s'.reads := by
  cases a <;> simp only [step] at hstep <;> grind

theorem NoError.of_step {a : StreamAction} (hstep : s.step a = some s') (hok : s'.NoError) :
    s.NoError := by
  obtain ⟨hwrites,hreads⟩ := returned_step hstep
  exact ⟨fun r hr => hok.1 r (hwrites.subset hr),fun r hr => hok.2 r (hreads.subset hr)⟩

/-- The threads do their calls in any order, with what the kernel promises. -/
def Reached (messages : List (List UInt8)) (lengths : List ℕ) : Streams → Prop :=
  Reachable (· = start messages lengths) fun s s' => ∃ a, s.step a = some s'

/-- Whatever the order of the calls and however many bytes each read and write takes, as long as no call
has returned an error each `writeAll` has returned the length of its message, and each `readAll` for as
many bytes as a message has returned with all of it, and nothing else in the buffer; but for those
behind the last message that was written, which return 0 when the stream is closed. -/
theorem readAll_messages (messages : List (List UInt8)) (s : Streams)
    (hs : Reached messages (messages.map List.length) s) (hok : s.NoError) :
    s.writes = (messages.take s.writes.length).map (fun m => (m.length : ℤ)) ∧
      ∀ i r, s.reads[i]? = some r → ∃ m, messages[i]? = some m ∧
        (r = whole m ∨ s.closed ∧ s.writes.length ≤ i ∧ r = (0,[])) := by
  have horderly : s.NoError → ∃ k, s.Orderly messages k := by
    refine Reachable.invariant (fun s => s.NoError → ∃ k, s.Orderly messages k) ?_ ?_ hs
    · rintro s rfl -
      exact ⟨0,orderly_start messages⟩
    · rintro s s' ih ⟨a,hstep⟩ hok
      obtain ⟨k,h⟩ := ih (hok.of_step hstep)
      exact h.step_orderly hstep hok
  obtain ⟨k,h⟩ := horderly hok
  exact ⟨h.writes,fun i r hr => h.reads_eq hr⟩

theorem readAll_messages_short_counts : ∃ s, Reached [[1,2,3]] [3] s ∧ s.reads = [whole [1,2,3]] ∧
    ∀ i r, s.reads[i]? = some r → ∃ m, [[1,2,3]][i]? = some m ∧
      (r = whole m ∨ s.closed ∧ s.writes.length ≤ i ∧ r = (0,[])) := by
  have h₁ : Reached [[1,2,3]] [3] _ := .next (.start rfl) ⟨.writeAll,rfl⟩
  have h₂ : Reached [[1,2,3]] [3] _ := .next h₁ ⟨.write 2,rfl⟩
  have h₃ : Reached [[1,2,3]] [3] _ := .next h₂ ⟨.readAll,rfl⟩
  have h₄ : Reached [[1,2,3]] [3] _ := .next h₃ ⟨.read 1,rfl⟩
  have h₅ : Reached [[1,2,3]] [3] _ := .next h₄ ⟨.write 1,rfl⟩
  have h₆ : Reached [[1,2,3]] [3] _ := .next h₅ ⟨.read 2,rfl⟩
  have h : Reached [[1,2,3]] [3] _ := .next h₆ ⟨.readDone,rfl⟩
  have hok : NoError ⟨[],some ⟨[1,2,3],3⟩,[],false,[],[],none,[(3,[1,2,3])]⟩ := by
    constructor <;> decide
  exact ⟨_,h,rfl,(readAll_messages [[1,2,3]] _ h hok).2⟩

end Streams

end JhCommon
