import JhCommon.Agenda
import JhCommon.Timer
import JhCommon.Transition

/-! One-shot timers over whole runs: which tick delivers which request, and in which order. The
timer's list is an agenda whose due times do not wrap. -/
namespace JhCommon
open Word32 Agenda

/-- What a client can ask for once. Listeners, events and dispatchers exist. -/
inductive Request
  | addTimer (listener msecs privateData : ℕ)
  | sendTimedEvent (event dispatcher msecs : ℕ)

inductive TimerOp
  | request (r : Request)
  | handleTick

namespace Request

def msecs : Request → ℕ
  | .addTimer _ msecs _ => msecs
  | .sendTimedEvent _ _ msecs => msecs

/-- The call a request is for. -/
def delivery : Request → Delivery
  | .addTimer listener _ privateData => .onTimeout listener privateData
  | .sendTimedEvent event dispatcher _ => .sendEvent dispatcher event

def node (tick : ℕ) : Request → TimerNode
  | .addTimer listener _ privateData =>
    { mEvent := none, mDispatcher := none, mListener := some listener, mPrivateData := privateData
      mTick := tick, mRepeatMS := 0, mRemainingMS := 0 }
  | .sendTimedEvent event dispatcher _ =>
    { mEvent := some event, mDispatcher := some dispatcher, mListener := none, mPrivateData := 0
      mTick := tick, mRepeatMS := 0, mRemainingMS := 0 }

end Request

/-- The delay of msecs in ticks of T milliseconds, rounded up. -/
def delay (T msecs : ℕ) : ℕ := (msecs+T-1)/T

/-- The delays the tick counter can express. -/
def TimerOp.Valid (T : ℕ) : TimerOp → Prop
  | .request r => r.msecs+T-1 < 2^32 ∧ delay T r.msecs ≤ 2^31-1
  | .handleTick => True

namespace Timer

def step (t : Timer) : TimerOp → Exec (List Delivery × Timer)
  | .request (.addTimer listener msecs privateData) => do
    let t ← t.addTimer (some listener) msecs privateData
    .ok ([],t)
  | .request (.sendTimedEvent event dispatcher msecs) => do
    let t ← t.sendTimedEvent (some event) (some dispatcher) msecs
    .ok ([],t)
  | .handleTick => t.handleTick (t.mList.length+1)

/-- The signed difference by which the list is sorted. -/
def remaining (t : Timer) (timer : TimerNode) : ℤ := int32 (sub32 timer.mTick t.mTicks)

def entryNode (e : Entry Request) : TimerNode := e.item.node (e.due % 2^32)

@[simp] theorem entryNode_mTick (e : Entry Request) : (entryNode e).mTick = e.due % 2^32 := by
  cases h : e.item <;> simp [entryNode, h, Request.node]

/-- The timer holds the agenda l at tick number now. -/
structure Tracks (t : Timer) (T now : ℕ) (l : List (Entry Request)) : Prop where
  ms : t.mMsPerTick = T
  ticks : t.mTicks = now % 2^32
  nodes : t.mList = l.map entryNode
  sorted : l.Pairwise Entry.Before
  window : ∀ e ∈ l, now ≤ e.due ∧ e.due < now+2^31

section Steps
variable {t : Timer} {T now : ℕ} {l : List (Entry Request)} {e : Entry Request}

theorem insertNode_eq (hl : ∀ b ∈ l, now ≤ b.due ∧ b.due < now+2^31)
    (he : now ≤ e.due ∧ e.due < now+2^31) :
    insertNode (entryNode e) (l.map entryNode) = (put e l).map entryNode := by
  induction l with
  | nil => rfl
  | cons b l ih =>
    have hb := hl b List.mem_cons_self
    have hdiff := int32_sub32_mod (x := e.due) (y := b.due) (by omega) (by omega)
    have hiff : (e.due : ℤ)-b.due < 0 ↔ e.due < b.due := by omega
    simp only [List.map_cons, insertNode, entryNode_mTick, hdiff, hiff, put]
    split
    · rfl
    · rw [List.map_cons, ih (fun c hc => hl c (List.mem_cons_of_mem b hc))]

/-- Adding a node puts its entry on the agenda. -/
theorem Tracks.add (h : t.Tracks T now l) (hid : ∀ b ∈ l, b.id < e.id)
    (he : now ≤ e.due ∧ e.due < now+2^31) : (t.addTimerNode (entryNode e)).Tracks T now (put e l) := by
  refine ⟨h.ms,h.ticks,?_,put_sorted h.sorted hid,fun b hb => ?_⟩
  · simp only [addTimerNode, h.nodes]
    exact insertNode_eq h.window he
  · rcases mem_put.mp hb with rfl | hb
    · exact he
    · exact h.window b hb

theorem toTicks_eq (hT : 1 ≤ T) (hms : t.mMsPerTick = T) {msecs : ℕ} (hlt : msecs+T-1 < 2^32) :
    t.toTicks msecs = .ok (delay T msecs) := by
  rw [toTicks, hms, if_neg (by omega), sub32_add32_one (by omega) hlt, delay]

theorem request_spec (hT : 1 ≤ T) (h : t.Tracks T now l) {r : Request}
    (hr : (TimerOp.request r).Valid T) {n : ℕ} (hid : ∀ b ∈ l, b.id < n) :
    ∃ t', t.step (.request r) = .ok ([],t') ∧
      t'.Tracks T now (put ⟨n,now+delay T r.msecs,r⟩ l) := by
  obtain ⟨hlt,hmax⟩ := hr
  have hadd := h.add (e := ⟨n,now+delay T r.msecs,r⟩) hid (by dsimp only; omega)
  cases r with
  | addTimer listener msecs privateData =>
    have hticks : t.toTicks msecs = .ok (delay T msecs) := toTicks_eq hT h.ms hlt
    refine ⟨_,?_,hadd⟩
    simp only [step, addTimer, addListener, hticks, ok_bind, h.ticks, add32_mod, reduceCtorEq, if_false]
    rfl
  | sendTimedEvent event dispatcher msecs =>
    have hticks : t.toTicks msecs = .ok (delay T msecs) := toTicks_eq hT h.ms hlt
    refine ⟨_,?_,hadd⟩
    simp only [step, sendTimedEvent, addEvent, hticks, ok_bind, h.ticks, add32_mod]
    rfl

theorem deliver_entryNode (e : Entry Request) : deliver (entryNode e) = .ok e.item.delivery := by
  cases h : e.item <;> simp [deliver, entryNode, h, Request.node, Request.delivery]

theorem rearm_entryNode (t : Timer) (e : Entry Request) : t.rearm (entryNode e) = .ok t := by
  cases h : e.item <;> simp [rearm, entryNode, h, Request.node]

/-- The loop of `handleTick` takes the due entries off the agenda, in its order. -/
theorem handleDue_eq (hticks : t.mTicks = now % 2^32) (hlist : t.mList = l.map entryNode)
    (hl : ∀ e ∈ l, now ≤ e.due+1 ∧ e.due < now+2^31) {fuel : ℕ} (hfuel : l.length < fuel) :
    handleDue fuel t =
      .ok ((l.takeWhile (fun e => e.due ≤ now)).map (fun e => e.item.delivery),
        { t with mList := (l.dropWhile (fun e => e.due ≤ now)).map entryNode }) := by
  induction l generalizing t fuel with
  | nil =>
    obtain ⟨fuel,rfl⟩ : ∃ f, fuel = f+1 := ⟨fuel-1,by simp only [List.length_nil] at hfuel; omega⟩
    simp only [List.map_nil] at hlist
    simp only [handleDue, hlist, List.takeWhile_nil, List.dropWhile_nil, List.map_nil]
    rw [← hlist]
  | cons e l ih =>
    obtain ⟨fuel,rfl⟩ : ∃ f, fuel = f+1 := ⟨fuel-1,by simp only [List.length_cons] at hfuel; omega⟩
    have he := hl e List.mem_cons_self
    have hdiff : int32 (sub32 (entryNode e).mTick t.mTicks) = (e.due : ℤ)-now := by
      rw [entryNode_mTick, hticks, int32_sub32_mod (by omega) (by omega)]
    simp only [List.map_cons] at hlist
    simp only [handleDue, hlist, hdiff]
    by_cases hdue : e.due ≤ now
    · rw [if_neg (by omega), deliver_entryNode, ok_bind, rearm_entryNode, ok_bind,
        ih (t := { t with mList := l.map entryNode }) hticks rfl
          (fun b hb => hl b (List.mem_cons_of_mem e hb)) (by simpa using hfuel),
        List.takeWhile_cons_of_pos (by simpa using hdue),
        List.dropWhile_cons_of_pos (by simpa using hdue)]
      simp only [ok_bind, List.map_cons]
    · rw [if_pos (by omega), List.takeWhile_cons_of_neg (by simpa using hdue),
        List.dropWhile_cons_of_neg (by simpa using hdue)]
      simp only [List.map_nil, List.map_cons]
      rw [← hlist]

theorem handleTick_spec (h : t.Tracks T now l) :
    ∃ t', t.step .handleTick =
        .ok ((l.takeWhile (fun e => e.due ≤ now+1)).map (fun e => e.item.delivery),t') ∧
      t'.Tracks T (now+1) (l.dropWhile (fun e => e.due ≤ now+1)) ∧
      ∀ timer ∈ t'.mList, 0 < t'.remaining timer := by
  have hticks : add32 t.mTicks 1 = (now+1) % 2^32 := by rw [h.ticks, add32_mod]
  have hrest : ∀ e ∈ l.dropWhile (fun e => e.due ≤ now+1), now+1 < e.due ∧ e.due < now+2^31 := by
    intro e he
    obtain ⟨hmem,hlt⟩ := (mem_dropWhile_due h.sorted).mp he
    exact ⟨hlt,(h.window e hmem).2⟩
  refine ⟨_,handleDue_eq (l := l) (t := { t with mTicks := add32 t.mTicks 1 }) hticks
    h.nodes (fun e he => ?_) (by rw [h.nodes, List.length_map]; omega),?_,?_⟩
  · have := h.window e he
    omega
  · refine ⟨h.ms,hticks,rfl,h.sorted.sublist (List.dropWhile_sublist _),fun e he => ?_⟩
    have := hrest e he
    omega
  · intro timer htimer
    obtain ⟨e,he,rfl⟩ := List.mem_map.mp htimer
    have := hrest e he
    have hdiff := int32_sub32_mod (x := e.due) (y := now+1) (by omega) (by omega)
    simp only [remaining, entryNode_mTick, hticks, hdiff]
    omega

/-- What the list looks like to the code: sorted by signed differences that do not wrap. -/
theorem Tracks.remaining_sorted (h : t.Tracks T now l) :
    t.mList.Pairwise (fun a b => t.remaining a ≤ t.remaining b) ∧
      ∀ timer ∈ t.mList, 0 ≤ t.remaining timer ∧ t.remaining timer < 2^31 := by
  have hdiff : ∀ e ∈ l, t.remaining (entryNode e) = (e.due : ℤ)-now := by
    intro e he
    have := h.window e he
    rw [remaining, entryNode_mTick, h.ticks, int32_sub32_mod (by omega) (by omega)]
  rw [h.nodes]
  refine ⟨?_,?_⟩
  · rw [List.pairwise_map]
    refine List.Pairwise.imp_of_mem (fun {a b} ha hb hab => ?_) h.sorted
    have := hab.due_le
    rw [hdiff a ha, hdiff b hb]
    omega
  · intro timer htimer
    obtain ⟨e,he,rfl⟩ := List.mem_map.mp htimer
    have := h.window e he
    rw [hdiff e he]
    omega

end Steps

def isTick : TimerOp → Bool
  | .request _ => false
  | .handleTick => true

/-- The number of ticks among the first i calls. -/
def ticksBefore (ops : List TimerOp) (i : ℕ) : ℕ := (ops.take i).countP isTick

/-- The entry for the request made by the call number e.id. -/
def Scheduled (T : ℕ) (ops : List TimerOp) (e : Entry Request) : Prop :=
  ops[e.id]? = some (.request e.item) ∧ e.due = ticksBefore ops e.id+delay T e.item.msecs

/-- The number of the tick that has to deliver an entry, the ones before the request included. -/
def firing (T : ℕ) (ops : List TimerOp) (e : Entry Request) : ℕ :=
  ticksBefore ops e.id+max 1 (delay T e.item.msecs)

/-- Requests deliver nothing, and a tick delivers exactly the earlier requests whose tick it is: by
due tick, and in the order they were made where that is the same. -/
def Delivers (T : ℕ) (ops : List TimerOp) (outs : List (List Delivery)) : Prop :=
  (∀ (j : ℕ) (r : Request), ops[j]? = some (.request r) → outs[j]? = some []) ∧
  ∀ j : ℕ, ops[j]? = some .handleTick → ∃ es : List (Entry Request),
    outs[j]? = some (es.map (fun e => e.item.delivery)) ∧ es.Pairwise Entry.Before ∧
    ∀ e, e ∈ es ↔ Scheduled T ops e ∧ e.id < j ∧ firing T ops e = ticksBefore ops j+1

section Runs
variable {T : ℕ} {ops : List TimerOp} {op : TimerOp} {e : Entry Request}

theorem ticksBefore_concat {i : ℕ} (hi : i ≤ ops.length) :
    ticksBefore (ops ++ [op]) i = ticksBefore ops i := by
  rw [ticksBefore, ticksBefore, List.take_append_of_le_length hi]

theorem ticksBefore_concat_length : ticksBefore (ops ++ [op]) (ops.length+1) =
    ticksBefore ops ops.length+if isTick op then 1 else 0 := by
  rw [ticksBefore, ticksBefore, List.take_of_length_le (by simp), List.take_length,
    List.countP_append, List.countP_singleton]

theorem ticksBefore_le {i : ℕ} : ticksBefore ops i ≤ ticksBefore ops ops.length := by
  rw [ticksBefore, ticksBefore, List.take_length]
  exact (List.take_sublist i ops).countP_le

theorem Scheduled.id_lt (h : Scheduled T ops e) : e.id < ops.length :=
  (List.getElem?_eq_some_iff.mp h.1).1

theorem firing_concat (hid : e.id ≤ ops.length) : firing T (ops ++ [op]) e = firing T ops e := by
  rw [firing, firing, ticksBefore_concat hid]

theorem scheduled_concat : Scheduled T (ops ++ [op]) e ↔ Scheduled T ops e ∨
    e.id = ops.length ∧ op = .request e.item ∧
      e.due = ticksBefore ops ops.length+delay T e.item.msecs := by
  unfold Scheduled
  rcases Nat.lt_trichotomy e.id ops.length with hlt | heq | hgt
  · rw [List.getElem?_append_left hlt, ticksBefore_concat hlt.le]
    constructor
    · exact Or.inl
    · rintro (h | ⟨h,-⟩)
      · exact h
      · omega
  · rw [heq, List.getElem?_concat_length, ticksBefore_concat le_rfl,
      List.getElem?_eq_none (le_of_eq rfl)]
    simp
  · rw [List.getElem?_eq_none (by simp; omega), List.getElem?_eq_none (by omega)]
    simp only [reduceCtorEq, false_and, false_or, false_iff]
    omega

/-- The run so far: the agenda holds what is scheduled and not yet fired. -/
structure Progress (T : ℕ) (ops : List TimerOp) (outs : List (List Delivery)) (t : Timer)
    (l : List (Entry Request)) : Prop where
  length : outs.length = ops.length
  tracks : t.Tracks T (ticksBefore ops ops.length) l
  pending : ∀ e, e ∈ l ↔ Scheduled T ops e ∧ ticksBefore ops ops.length < firing T ops e
  delivers : Delivers T ops outs
  fired : ops.getLast? = some .handleTick → ∀ timer ∈ t.mList, 0 < t.remaining timer

variable {outs : List (List Delivery)} {t : Timer} {l : List (Entry Request)}

/-- One more call does not change what the earlier ones have delivered. -/
theorem Progress.delivers_concat (h : Progress T ops outs t l) {out : List Delivery}
    (hrequest : ∀ r, op = .request r → out = [])
    (htick : op = .handleTick → ∃ es : List (Entry Request), out = es.map (fun e => e.item.delivery) ∧
      es.Pairwise Entry.Before ∧
      ∀ e, e ∈ es ↔ Scheduled T ops e ∧ firing T ops e = ticksBefore ops ops.length+1) :
    Delivers T (ops ++ [op]) (outs ++ [out]) := by
  have hlen := h.length
  obtain ⟨hold,holdtick⟩ := h.delivers
  -- what is scheduled by the last call is not due at an earlier tick
  have hold' : ∀ (j : ℕ), j < ops.length → ∀ e, Scheduled T (ops ++ [op]) e ∧ e.id < j ∧
      firing T (ops ++ [op]) e = ticksBefore (ops ++ [op]) j+1 ↔
      Scheduled T ops e ∧ e.id < j ∧ firing T ops e = ticksBefore ops j+1 := by
    intro j hj e
    rw [scheduled_concat, ticksBefore_concat hj.le]
    constructor
    · rintro ⟨hs | ⟨hid,-⟩,hlt,hfire⟩
      · exact ⟨hs,hlt,by rwa [firing_concat (by omega)] at hfire⟩
      · omega
    · rintro ⟨hs,hlt,hfire⟩
      exact ⟨Or.inl hs,hlt,by rwa [firing_concat (by omega)]⟩
  refine ⟨fun j r hj => ?_,fun j hj => ?_⟩
  · rcases Nat.lt_trichotomy j ops.length with hlt | rfl | hgt
    · rw [List.getElem?_append_left hlt] at hj
      rw [List.getElem?_append_left (by omega)]
      exact hold j r hj
    · rw [List.getElem?_concat_length, Option.some_inj] at hj
      rw [← hlen, List.getElem?_concat_length, hrequest r hj]
    · rw [List.getElem?_eq_none (by simp; omega)] at hj
      simp at hj
  · rcases Nat.lt_trichotomy j ops.length with hlt | rfl | hgt
    · rw [List.getElem?_append_left hlt] at hj
      obtain ⟨es,hes,hsorted,hmem⟩ := holdtick j hj
      rw [List.getElem?_append_left (by omega)]
      exact ⟨es,hes,hsorted,fun e => (hmem e).trans (hold' j hlt e).symm⟩
    · rw [List.getElem?_concat_length, Option.some_inj] at hj
      obtain ⟨es,rfl,hsorted,hmem⟩ := htick hj
      refine ⟨es,by rw [← hlen, List.getElem?_concat_length],hsorted,fun e => (hmem e).trans ?_⟩
      rw [scheduled_concat, ticksBefore_concat le_rfl]
      constructor
      · rintro ⟨hs,hfire⟩
        have hlt := hs.id_lt
        exact ⟨Or.inl hs,hlt,by rwa [firing_concat hlt.le]⟩
      · rintro ⟨hs | ⟨hid,-⟩,hlt,hfire⟩
        · exact ⟨hs,by rwa [firing_concat hlt.le] at hfire⟩
        · omega
    · rw [List.getElem?_eq_none (by simp; omega)] at hj
      simp at hj

theorem Progress.request (hT : 1 ≤ T) (h : Progress T ops outs t l) {r : Request}
    (hr : (TimerOp.request r).Valid T) :
    ∃ t' l', t.step (.request r) = .ok ([],t') ∧
      Progress T (ops ++ [.request r]) (outs ++ [[]]) t' l' := by
  obtain ⟨t',hstep,htracks⟩ := request_spec hT h.tracks hr (n := ops.length)
    (fun b hb => ((h.pending b).mp hb).1.id_lt)
  have hnow : ticksBefore (ops ++ [TimerOp.request r]) (ops ++ [TimerOp.request r]).length =
      ticksBefore ops ops.length := by
    rw [List.length_append, List.length_singleton, ticksBefore_concat_length]
    simp [isTick]
  refine ⟨t',_,hstep,by simp [h.length],by rwa [hnow],fun e => ?_,?_,?_⟩
  · rw [mem_put, h.pending, scheduled_concat, hnow]
    constructor
    · rintro (rfl | ⟨hs,hlt⟩)
      · refine ⟨Or.inr ⟨rfl,rfl,rfl⟩,?_⟩
        rw [firing_concat le_rfl, firing]
        dsimp only
        omega
      · exact ⟨Or.inl hs,by rwa [firing_concat hs.id_lt.le]⟩
    · rintro ⟨hs | ⟨hid,hitem,hdue⟩,hlt⟩
      · exact Or.inr ⟨hs,by rwa [firing_concat hs.id_lt.le] at hlt⟩
      · obtain ⟨id,due,item⟩ := e
        simp only [TimerOp.request.injEq] at hid hitem hdue
        exact Or.inl (by rw [hid, hdue, hitem])
  · exact h.delivers_concat (fun _ _ => rfl) (fun hop => absurd hop (by simp))
  · simp

theorem Progress.tick (h : Progress T ops outs t l) :
    ∃ out t' l', t.step .handleTick = .ok (out,t') ∧
      Progress T (ops ++ [.handleTick]) (outs ++ [out]) t' l' := by
  obtain ⟨t',hstep,htracks,hfired⟩ := handleTick_spec h.tracks
  have hnow : ticksBefore (ops ++ [TimerOp.handleTick]) (ops ++ [TimerOp.handleTick]).length =
      ticksBefore ops ops.length+1 := by
    rw [List.length_append, List.length_singleton, ticksBefore_concat_length]
    simp [isTick]
  -- a call is made no later than the ticks that have been
  have hbefore : ∀ e : Entry Request, ticksBefore ops e.id ≤ ticksBefore ops ops.length :=
    fun e => ticksBefore_le
  refine ⟨_,t',_,hstep,by simp [h.length],by rwa [hnow],fun e => ?_,?_,fun _ => hfired⟩
  · rw [mem_dropWhile_due h.tracks.sorted, h.pending, scheduled_concat, hnow]
    have := hbefore e
    constructor
    · rintro ⟨⟨hs,hlt⟩,hdue⟩
      have := hs.2
      refine ⟨Or.inl hs,?_⟩
      rw [firing_concat hs.id_lt.le, firing]
      omega
    · rintro ⟨hs | ⟨-,hop,-⟩,hlt⟩
      · have := hs.2
        rw [firing_concat hs.id_lt.le] at hlt
        refine ⟨⟨hs,by omega⟩,?_⟩
        rw [firing] at hlt
        omega
      · exact absurd hop (by simp)
  · refine h.delivers_concat (fun r hop => absurd hop (by simp)) (fun _ => ⟨_,rfl,
      h.tracks.sorted.sublist (List.takeWhile_sublist _),fun e => ?_⟩)
    rw [mem_takeWhile_due h.tracks.sorted, h.pending]
    have := hbefore e
    constructor
    · rintro ⟨⟨hs,hlt⟩,hdue⟩
      have := hs.2
      rw [firing] at hlt ⊢
      exact ⟨hs,by omega⟩
    · rintro ⟨hs,hfire⟩
      have := hs.2
      rw [firing] at hfire ⊢
      exact ⟨⟨hs,by omega⟩,by omega⟩

theorem run_progress (hT : 1 ≤ T) (hops : ∀ op ∈ ops, op.Valid T) :
    ∃ outs t l, Transition.run step (init T) ops = .ok (outs,t) ∧ Progress T ops outs t l := by
  induction ops using List.reverseRecOn with
  | nil =>
    refine ⟨[],init T,[],rfl,rfl,⟨?_,rfl,rfl,.nil,by simp⟩,?_,⟨by simp,by simp⟩,by simp⟩
    · simp [init]
    · simp [Scheduled]
  | append_singleton ops op ih =>
    obtain ⟨outs,t,l,hrun,h⟩ := ih (fun op hop => hops op (by simp [hop]))
    cases op with
    | request r =>
      obtain ⟨t',l',hstep,h'⟩ := h.request hT (hops (.request r) (by simp))
      exact ⟨_,t',l',Transition.run_concat hrun hstep,h'⟩
    | handleTick =>
      obtain ⟨out,t',l',hstep,h'⟩ := h.tick
      exact ⟨_,t',l',Transition.run_concat hrun hstep,h'⟩

/-- Over every run: each request is delivered once, by the tick that is its turn, and after every
call the list is sorted by signed differences below half the range, with nothing due left behind
a tick. -/
theorem run_delivers (hT : 1 ≤ T) (hops : ∀ op ∈ ops, op.Valid T) :
    ∃ outs t, Transition.run step (init T) ops = .ok (outs,t) ∧ Delivers T ops outs ∧
      t.mList.Pairwise (fun a b => t.remaining a ≤ t.remaining b) ∧
      (∀ timer ∈ t.mList, 0 ≤ t.remaining timer ∧ t.remaining timer < 2^31) ∧
      (ops.getLast? = some .handleTick → ∀ timer ∈ t.mList, 0 < t.remaining timer) := by
  obtain ⟨outs,t,l,hrun,h⟩ := run_progress hT hops
  obtain ⟨hsorted,hwindow⟩ := h.tracks.remaining_sorted
  exact ⟨outs,t,hrun,h.delivers,hsorted,hwindow,h.fired⟩

/-- With ticks of ten milliseconds: a listener after fifteen, an event at once, two ticks. -/
theorem run_delivers_two_ticks : ∃ outs t, Transition.run step (init (10 : ℕ))
    [.request (.addTimer 1 15 7), .request (.sendTimedEvent 2 3 0), .handleTick, .handleTick] =
      .ok (outs,t) ∧
    Delivers 10 [.request (.addTimer 1 15 7), .request (.sendTimedEvent 2 3 0), .handleTick, .handleTick]
      outs ∧ ∀ timer ∈ t.mList, 0 < t.remaining timer := by
  have hops : ∀ op ∈ [TimerOp.request (.addTimer 1 15 7), .request (.sendTimedEvent 2 3 0), .handleTick,
      .handleTick], op.Valid 10 := by
    simp [TimerOp.Valid, Request.msecs, delay]
  obtain ⟨outs,t,hrun,hdelivers,-,-,hfired⟩ := run_delivers (T := 10) (by decide) hops
  exact ⟨outs,t,hrun,hdelivers,hfired rfl⟩

end Runs

end Timer

end JhCommon
