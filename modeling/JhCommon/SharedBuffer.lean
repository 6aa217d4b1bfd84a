import JhCommon.CircularBufferRefinement

/-! Threads that share one circular buffer. A call is one critical section of mLock, except
`fillFromFile`, which reads the free space in one and fills the buffer in a later one. -/
namespace JhCommon

/-- What a call tells its thread that it stored. -/
def BufferOp.told (op : BufferOp) (o : BufferOutput) : List UInt8 :=
  match op with
  | .write buffer _ => buffer.take o.ret.toNat
  | .writeOverflow buffer _ => buffer.take o.ret.toNat
  | .writeByte byte => if o.ret = 0 then [byte] else []
  | .fillFromFile reader _ =>
    match o.asked.map reader.read with
    | some (.stored bytes) => bytes.take o.ret.toNat
    | _ => []
  | _ => []

/-- How many of the bytes q, which are the queued ones with the stored ones behind them, a call
takes from the front of a queue of at most N bytes. -/
def BufferOp.taken (N : ℕ) (op : BufferOp) (o : BufferOutput) (q : List UInt8) : ℕ :=
  match op with
  | .read _ _ => o.ret.toNat
  | .writeOverflow _ _ => q.length - N
  | .clear => q.length
  | _ => 0

/-- A call appends what it says it stored, and what it takes it takes from the front. -/
def ByteQueue.Moved {N : ℕ} (q : ByteQueue N) (op : BufferOp) (o : BufferOutput)
    (q' : ByteQueue N) : Prop :=
  let stored := q.bytes ++ op.told o
  q'.bytes = stored.drop (op.taken N o stored) ∧ op.taken N o stored ≤ stored.length ∧
    ∀ size, op = .read true size → o.bytes = stored.take (op.taken N o stored)

theorem ByteQueue.Step.moved {N : ℕ} {q q' : ByteQueue N} {op : BufferOp} {o : BufferOutput}
    (h : q.Step op o q') : q.Moved op o q' := by
  cases op with
  | write buffer size =>
    obtain ⟨rfl,hq⟩ := h
    exact ⟨hq,Nat.zero_le _,by simp⟩
  | writeOverflow buffer size =>
    obtain ⟨rfl,hq⟩ := h
    exact ⟨hq,Nat.sub_le _ _,by simp⟩
  | writeByte byte =>
    simp only [ByteQueue.Step] at h
    split_ifs at h
    · obtain ⟨rfl,rfl⟩ := h
      exact ⟨(List.append_nil _).symm,Nat.zero_le _,by simp⟩
    · obtain ⟨rfl,hq⟩ := h
      exact ⟨hq,Nat.zero_le _,by simp⟩
  | read buffer size =>
    obtain ⟨rfl,hq⟩ := h
    simp only [Moved, BufferOp.told, BufferOp.taken, List.append_nil, Int.toNat_natCast]
    refine ⟨?_,min_le_right _ _,?_⟩
    · rw [hq, List.drop_eq_drop_iff]
      omega
    · intro n hn
      obtain ⟨rfl,rfl⟩ : buffer = true ∧ size = n := by simpa using hn
      rw [if_pos rfl, List.take_eq_take_iff]
      omega
  | fillFromFile reader size =>
    simp only [ByteQueue.Step] at h
    split_ifs at h
    · obtain ⟨rfl,rfl⟩ := h
      exact ⟨(List.append_nil _).symm,Nat.zero_le _,by simp⟩
    · -- what the reader stores is what the call says, unless it failed
      obtain ⟨n,-,-,hasked,-,hread⟩ := h
      refine ⟨?_,Nat.zero_le _,by simp⟩
      simp only [BufferOp.told, BufferOp.taken, hasked, Option.map_some, List.drop_zero]
      cases hres : reader.read n with
      | failed err =>
        simp only [hres] at hread ⊢
        rw [hread.2, List.append_nil]
      | stored bytes =>
        simp only [hres] at hread ⊢
        rw [hread.1, Int.toNat_natCast, List.take_length, hread.2]
  | clear =>
    obtain ⟨rfl,hq⟩ := h
    refine ⟨?_,le_rfl,by simp⟩
    rw [hq, BufferOp.taken, List.drop_length]

/-- A `fillFromFile` that has read the free space and waits for the lock. -/
structure PendingFill where
  reader : Reader
  size : ℕ
  freespace : ℕ

/-- The buffer, the calls that each thread has still to make, and the fills it is inside of. -/
structure SharedBuffer (T : Type) where
  buffer : CircularBuffer
  calls : T → List BufferOp
  pending : T → Option PendingFill

/-- A call that returned. -/
structure Returned (T : Type) where
  thread : T
  op : BufferOp
  out : BufferOutput

namespace SharedBuffer
variable {T : Type} [DecidableEq T]

def start (mem : ℕ → UInt8) (N : ℕ) (calls : T → List BufferOp) : SharedBuffer T :=
  { buffer := .init mem N, calls := calls, pending := fun _ => none }

/-- The next critical section of thread t, and the call that returns from it, if one does. A
thread that has made all its calls does nothing. -/
def step (s : SharedBuffer T) (t : T) : Exec (Option (Returned T) × SharedBuffer T) :=
  match s.pending t with
  | some f => do
    let ((r,asked),buffer) ← s.buffer.fillLocked f.freespace f.reader f.size
    .ok (some ⟨t,.fillFromFile f.reader f.size,⟨r,[],asked⟩⟩,
      { s with buffer := buffer, pending := Function.update s.pending t none })
  | none =>
    match s.calls t with
    | [] => .ok (none,s)
    | .fillFromFile reader size :: rest =>
      .ok (none,{ s with
        calls := Function.update s.calls t rest
        pending := Function.update s.pending t (some ⟨reader,size,s.buffer.getFreeSpace⟩) })
    | op :: rest => do
      let (o,buffer) ← s.buffer.step op
      .ok (some ⟨t,op,o⟩,
        { s with buffer := buffer, calls := Function.update s.calls t rest })

/-- What the queue shows of a section. -/
def Flow {N : ℕ} (q : ByteQueue N) (t : T) (o : Option (Returned T)) (q' : ByteQueue N) : Prop :=
  match o with
  | none => q' = q
  | some r => r.thread = t ∧ q.Moved r.op r.out q'

/-- If the section is the second one of a fill, the fill still fits. -/
def Fits (s : SharedBuffer T) (t : T) : Prop :=
  ∀ f, s.pending t = some f → s.buffer.FillFits f.freespace f.reader f.size

/-- The buffer holds the queue's bytes and the calls to come are valid. -/
def Represents {N : ℕ} (s : SharedBuffer T) (q : ByteQueue N) : Prop :=
  s.buffer.Holds N q.bytes ∧ ∀ t, ∀ op ∈ s.calls t, op.Valid

omit [DecidableEq T] in
theorem start_represents (mem : ℕ → UInt8) {N : ℕ} (hN : 0 < N) {calls : T → List BufferOp}
    (hcalls : ∀ t, ∀ op ∈ calls t, op.Valid) : (start mem N calls).Represents (.empty : ByteQueue N) :=
  ⟨CircularBuffer.init_holds mem hN,hcalls⟩

theorem valid_update {calls : T → List BufferOp} {t : T} {op : BufferOp} {rest : List BufferOp}
    (h : ∀ t, ∀ op ∈ calls t, op.Valid) (hc : calls t = op :: rest) :
    ∀ t', ∀ op ∈ Function.update calls t rest t', op.Valid := by
  intro t' op' hop
  by_cases ht : t' = t
  · rw [ht, Function.update_self] at hop
    exact h t op' (hc ▸ List.mem_cons_of_mem op hop)
  · rw [Function.update_of_ne ht] at hop
    exact h t' op' hop

/-- Every call but a fill is one section. -/
theorem step_call {s : SharedBuffer T} {t : T} {op : BufferOp} {rest : List BufferOp}
    (hp : s.pending t = none) (hc : s.calls t = op :: rest)
    (hop : ∀ reader size, op ≠ .fillFromFile reader size) :
    s.step t = (do
      let (o,buffer) ← s.buffer.step op
      .ok (some ⟨t,op,o⟩,
        { s with buffer := buffer, calls := Function.update s.calls t rest })) := by
  cases op with
  | fillFromFile reader size => exact absurd rfl (hop reader size)
  | _ => simp only [step, hp, hc]

/-- The second section of a fill that fits. -/
theorem step_fill {N : ℕ} {s : SharedBuffer T} {q : ByteQueue N} {t : T} {f : PendingFill}
    (h : s.Represents q) (hp : s.pending t = some f)
    (hfits : s.buffer.FillFits f.freespace f.reader f.size) :
    ∃ o s', ∃ q' : ByteQueue N, s.step t = .ok (o,s') ∧ Flow q t o q' ∧ s'.Represents q' := by
  simp only [step, hp]
  by_cases hz : min f.size f.freespace = 0
  · -- nothing to read: the section does nothing
    have hnone : s.buffer.fillLocked f.freespace f.reader f.size = .ok ((0,none),s.buffer) := by
      simp only [CircularBuffer.fillLocked, if_pos hz]
    rw [hnone, ok_bind]
    exact ⟨_,_,q,rfl,⟨rfl,(List.append_nil _).symm,Nat.zero_le _,by simp⟩,h⟩
  · have hfill := CircularBuffer.fillLocked_spec h.1 hfits hz
    generalize s.buffer.fillRequest f.freespace f.size = n at hfill
    cases hread : f.reader.read n with
    | failed err =>
      simp only [hread] at hfill
      rw [hfill, ok_bind]
      refine ⟨_,_,q,rfl,⟨rfl,?_,Nat.zero_le _,by simp⟩,h⟩
      simp only [BufferOp.told, BufferOp.taken, Option.map_some, hread, List.append_nil,
        List.drop_zero]
    | stored bytes =>
      simp only [hread] at hfill
      obtain ⟨buffer,hfill,hholds⟩ := hfill
      rw [hfill, ok_bind]
      refine ⟨_,_,⟨q.bytes ++ bytes,hholds.length_le⟩,rfl,⟨rfl,?_,Nat.zero_le _,by simp⟩,hholds,
        h.2⟩
      simp only [BufferOp.told, BufferOp.taken, Option.map_some, hread, Int.toNat_natCast,
        List.take_length, List.drop_zero]

/-- One section of any thread runs, and moves the queue as its call says. -/
theorem step_flows {N : ℕ} (s : SharedBuffer T) (q : ByteQueue N) (t : T) (h : s.Represents q)
    (hfits : s.Fits t) :
    ∃ o s', ∃ q' : ByteQueue N, s.step t = .ok (o,s') ∧ Flow q t o q' ∧ s'.Represents q' := by
  cases hp : s.pending t with
  | some f => exact step_fill h hp (hfits f hp)
  | none =>
    cases hc : s.calls t with
    | nil => exact ⟨none,s,q,by simp only [step, hp, hc],rfl,h⟩
    | cons op rest =>
      by_cases hop : ∃ reader size, op = .fillFromFile reader size
      · obtain ⟨reader,size,rfl⟩ := hop
        let f : PendingFill := ⟨reader,size,s.buffer.getFreeSpace⟩
        exact ⟨none,{ s with
          calls := Function.update s.calls t rest
          pending := Function.update s.pending t (some f) },q,by simp only [step, hp, hc, f],rfl,
          h.1,valid_update h.2 hc⟩
      · obtain ⟨o,buffer,q',hstep,hq,hholds⟩ := CircularBuffer.step_refines s.buffer q op h.1
          (h.2 t op (hc ▸ List.mem_cons_self))
        rw [step_call hp hc (fun reader size heq => hop ⟨reader,size,heq⟩), hstep, ok_bind]
        exact ⟨_,_,q',rfl,⟨rfl,hq.moved⟩,hholds,valid_update h.2 hc⟩

/-- A fill that returns did fit. -/
theorem fits_of_step {N : ℕ} (s : SharedBuffer T) (q : ByteQueue N) (t : T)
    (o : Option (Returned T)) (s' : SharedBuffer T) (h : s.Represents q)
    (hstep : s.step t = .ok (o,s')) : s.Fits t := by
  intro f hp
  simp only [step, hp] at hstep
  obtain ⟨_,hfill,-⟩ := bind_eq_ok.mp hstep
  exact CircularBuffer.fillFits_of_fillLocked h.1.wf hfill

/-- The bytes that left the queue in a section: what a read copied out, what it dropped without a
destination, what an overflow or a clear dropped. -/
def Took : Option (Returned T) → List UInt8 → Prop
  | none, bytes => bytes = []
  | some r, bytes =>
    match r.op with
    | .read true _ => bytes = r.out.bytes
    | .read false _ => bytes.length = r.out.ret.toNat
    | .writeOverflow _ _ => True
    | .clear => True
    | _ => bytes = []

def told : Option (Returned T) → List UInt8
  | none => []
  | some r => r.op.told r.out

omit [DecidableEq T] in
theorem Flow.took {N : ℕ} {q q' : ByteQueue N} {t : T} {o : Option (Returned T)}
    (h : Flow q t o q') : ∃ bytes, Took o bytes ∧ q.bytes ++ told o = bytes ++ q'.bytes := by
  cases o with
  | none =>
    obtain rfl : q' = q := h
    exact ⟨[],rfl,List.append_nil _⟩
  | some r =>
    obtain ⟨-,hq,hle,hread⟩ := h
    refine ⟨(q.bytes ++ r.op.told r.out).take (r.op.taken N r.out (q.bytes ++ r.op.told r.out)),?_,?_⟩
    · obtain ⟨t,op,out⟩ := r
      cases op with
      | read buffer size =>
        cases buffer with
        | true => exact (hread size rfl).symm
        | false => exact List.length_take_of_le hle
      | writeOverflow buffer size => trivial
      | clear => trivial
      | _ => rfl
    · rw [hq]
      exact (List.take_append_drop _ _).symm

omit [DecidableEq T] in
/-- The stored bytes in the order of the sections are the taken bytes in that order, and behind
them what is still queued. -/
theorem stream_of_trace {N : ℕ} {q q' : ByteQueue N} {sched : List T}
    {os : List (Option (Returned T))} (h : Transition.Trace Flow q sched os q') :
    ∃ pieces, List.Forall₂ Took os pieces ∧
      q.bytes ++ (os.map told).flatten = pieces.flatten ++ q'.bytes := by
  induction h with
  | nil q => exact ⟨[],.nil,List.append_nil _⟩
  | cons head _ ih =>
    obtain ⟨bytes,htook,hbytes⟩ := Flow.took head
    obtain ⟨pieces,hall,hpieces⟩ := ih
    refine ⟨bytes :: pieces,.cons htook hall,?_⟩
    simp only [List.map_cons, List.flatten_cons]
    rw [← List.append_assoc, hbytes, List.append_assoc, hpieces, List.append_assoc]

/-- What one expects of threads that share a buffer of N bytes, in the order sched of their
sections: no section faults, each moves the queue as its call says, never past N bytes, and the
bytes that leave the queue are the stored ones in the order in which they were stored. -/
def RunsAsQueue (N : ℕ) (s : SharedBuffer T) (sched : List T) : Prop :=
  ∃ os s', ∃ q : ByteQueue N, Transition.run step s sched = .ok (os,s') ∧
    Transition.Trace Flow (.empty : ByteQueue N) sched os q ∧
    s'.buffer.contents = q.bytes ∧ s'.buffer.mLen = q.bytes.length ∧ s'.buffer.mBufferSize = N ∧
    ∃ pieces, List.Forall₂ Took os pieces ∧
      (os.map told).flatten = pieces.flatten ++ s'.buffer.contents

/-- Every schedule of every set of threads is one of a queue exactly when each fill still fits at
its second section. -/
theorem runsAsQueue_iff {N : ℕ} (hN : 0 < N) (mem : ℕ → UInt8) {calls : T → List BufferOp}
    (hcalls : ∀ t, ∀ op ∈ calls t, op.Valid) (sched : List T) :
    (start mem N calls).RunsAsQueue N sched ↔
      Transition.Guarded step Fits (start mem N calls) sched := by
  have hstart := start_represents mem hN hcalls
  constructor
  · rintro ⟨os,s',-,hrun,-⟩
    exact Transition.guarded_of_run Fits (Represents (N := N)) step_flows fits_of_step hstart hrun
  · intro hg
    obtain ⟨os,s',q,hrun,htrace,hholds,-⟩ := Transition.run_simulates_guarded Fits
      (Represents (N := N)) step_flows hstart sched hg
    obtain ⟨pieces,htook,hpieces⟩ := stream_of_trace htrace
    refine ⟨os,s',q,hrun,htrace,hholds.contents_eq,hholds.len_eq,hholds.size_eq,pieces,htook,?_⟩
    rw [hholds.contents_eq, ← hpieces]
    rfl

/-- A fill of one thread around a write of the other, for two bytes in four. -/
theorem runsAsQueue_two_threads :
    (start (fun _ => 0) 4 (fun t : Bool => if t then [.fillFromFile .zeros 2]
      else [.write [1,2] 2])).RunsAsQueue 4 [true,false,true] := by
  apply (runsAsQueue_iff (by decide) (fun _ => 0) (by simp [BufferOp.Valid]) _).mpr
  refine ⟨by rintro _ ⟨⟩,?_⟩
  rintro o s' hs'
  obtain ⟨rfl,rfl⟩ := Prod.mk.inj (Except.ok.inj hs')
  refine ⟨by rintro _ ⟨⟩,?_⟩
  rintro o s' hs'
  obtain ⟨rfl,rfl⟩ := Prod.mk.inj (Except.ok.inj hs')
  refine ⟨?_,fun _ _ _ => trivial⟩
  intro f hf
  obtain rfl := Option.some.inj hf
  refine ⟨by decide,?_⟩
  intro bytes hread
  exact (Reader.zeros.bounded _ bytes hread).trans (by decide)

/-- One thread has read that two bytes are free, the other one writes two bytes, and the fill of
the first goes over them. -/
theorem fill_overtaken : ¬∀ (N : ℕ) (mem : ℕ → UInt8) (calls : Bool → List BufferOp)
    (sched : List Bool), 0 < N → (∀ t, ∀ op ∈ calls t, op.Valid) →
    (start mem N calls).RunsAsQueue N sched := by
  intro h
  obtain ⟨os,s',q,hrun,-⟩ := h 2 (fun _ => 0)
    (fun t => if t then [.fillFromFile .zeros 2] else [.write [1,2] 2]) [true,false,true]
    (by decide) (by simp [BufferOp.Valid])
  have hfault : Transition.run step (start (fun _ => 0) 2 (fun t : Bool =>
      if t then [.fillFromFile .zeros 2] else [.write [1,2] 2])) [true,false,true] =
      .error .fatal := rfl
  cases hfault.symm.trans hrun

end SharedBuffer

end JhCommon
