import JhCommon.CircularBuffer
import JhCommon.TimeUtils

/-! The waits of the circular buffer for data or free space, and the timeouts that they hand to their
condition. What other threads do to the buffer is seen when a wait is over. -/
namespace JhCommon
open TimeUtils

/-- How a wait on the condition ended: signalled or not, with the buffer as it is then, and with the
clock as it is read after it. -/
structure BufferWakeup where
  signalled : Bool
  buffer : CircularBuffer
  cur : Timespec

inductive BufferWait
  | data
  | freeSpace

namespace BufferWait

/-- What the threshold is compared with. -/
def level (s : CircularBuffer) : BufferWait → ℤ
  | .data => s.lengthInternal
  | .freeSpace => s.mBufferSize-s.lengthInternal

/-- The difference is taken off in unsigned arithmetic. -/
def nextTimeout (msecs : ℕ) (start cur : Timespec) : ℕ :=
  (((msecs : ℤ)-getDifference cur start) % 2^32).toNat

/-- The loop that both waits have, from a state of the buffer and a timeout on: the timeouts that it
hands to `Condition::Wait`, and what it returns when it is over. -/
def wait (call : BufferWait) (threshold : ℤ) (msecs : ℕ) (start : Timespec) :
    CircularBuffer → ℕ → List BufferWakeup → List ℕ × Option ℤ
  | s, timeout, [] =>
    if call.level s < threshold then ([timeout],none) else ([],some (call.level s))
  | s, timeout, w :: ws =>
    if call.level s < threshold then
      if w.signalled = true then
        let (timeouts,result) :=
          wait call threshold msecs start w.buffer (nextTimeout msecs start w.cur) ws
        (timeout :: timeouts,result)
      else ([timeout],some (if call.level w.buffer ≥ threshold then call.level w.buffer else 0))
    else ([],some (call.level s))

end BufferWait

namespace CircularBuffer

def waitForData (s : CircularBuffer) (threshold : ℤ) (msecs : ℕ) (start : Timespec)
    (ws : List BufferWakeup) : List ℕ × Option ℤ := BufferWait.data.wait threshold msecs start s msecs ws

def waitForFreeSpace (s : CircularBuffer) (threshold : ℤ) (msecs : ℕ) (start : Timespec)
    (ws : List BufferWakeup) : List ℕ × Option ℤ :=
  BufferWait.freeSpace.wait threshold msecs start s msecs ws

end CircularBuffer

namespace BufferWait

/-- The clock readings of the wakeups, which do not go back. -/
def Ordered : Timespec → List BufferWakeup → Prop
  | _, [] => True
  | t, w :: ws => (t.NotAfter w.cur ∧ w.cur.Normal) ∧ Ordered w.cur ws

/-- The wakeups leave the threshold unmet. -/
def Unmet (call : BufferWait) (threshold : ℤ) (s : CircularBuffer) (ws : List BufferWakeup) : Prop :=
  call.level s < threshold ∧ ∀ w ∈ ws, w.signalled = true ∧ call.level w.buffer < threshold

/-- A timeout is from one millisecond to what is left of the whole time. -/
def Bounded (msecs : ℕ) (timeout : ℕ) (left : ℤ) : Prop :=
  1 ≤ timeout ∧ timeout ≤ msecs ∧ (timeout : ℤ) ≤ left

/-- The milliseconds that are left at the call and at each wakeup. -/
def left (msecs : ℕ) (start : Timespec) (ws : List BufferWakeup) : List ℤ :=
  msecs :: ws.map fun w => (msecs : ℤ)-elapsed w.cur start

section Waits
variable {call : BufferWait} {threshold : ℤ} {msecs : ℕ} {start t : Timespec} {s : CircularBuffer}
  {ws : List BufferWakeup} {w : BufferWakeup}

theorem wait_unmet {timeout : ℕ} (h : call.Unmet threshold s ws) :
    call.wait threshold msecs start s timeout ws =
      (timeout :: ws.map fun w => nextTimeout msecs start w.cur,none) := by
  induction ws generalizing s timeout with
  | nil => rw [wait, if_pos h.1, List.map_nil]
  | cons w ws ih =>
    obtain ⟨hsignalled,hlevel⟩ := h.2 w List.mem_cons_self
    have hrest : call.Unmet threshold w.buffer ws :=
      ⟨hlevel,fun v hv => h.2 v (List.mem_cons_of_mem w hv)⟩
    rw [wait, if_pos h.1, if_pos hsignalled, ih hrest, List.map_cons]

theorem Ordered.elapsed_nonneg (hstart : start.Normal) (ht : start.NotAfter t) (h : Ordered t ws) :
    ∀ w ∈ ws, 0 ≤ elapsed w.cur start := by
  induction ws generalizing t with
  | nil => simp
  | cons v ws ih =>
    obtain ⟨⟨hle,hnormal⟩,hrest⟩ := h
    have hv := ht.trans hle
    intro w hw
    rcases List.mem_cons.mp hw with rfl | hw
    · exact TimeUtils.elapsed_nonneg hstart hnormal hv
    · exact ih hv hrest w hw

/-- Unsigned arithmetic is exact for what is left, unless nothing is. -/
theorem bounded_iff (hlt : msecs < 2^32) (hpast : 0 ≤ elapsed w.cur start) :
    Bounded msecs (nextTimeout msecs start w.cur) ((msecs : ℤ)-elapsed w.cur start) ↔
      elapsed w.cur start < msecs := by
  obtain ⟨k,hk⟩ := toInt_add (elapsed w.cur start)
  rw [← getDifference_eq] at hk
  unfold Bounded nextTimeout
  constructor
  · intro h
    omega
  · intro h
    have hleft : ((msecs : ℤ)-getDifference w.cur start) % 2^32 = msecs-elapsed w.cur start := by
      omega
    rw [hleft]
    omega

theorem wait_bounded_iff (hpos : 0 < msecs) (hlt : msecs < 2^32) (hstart : start.Normal)
    (hordered : Ordered start ws) (h : call.Unmet threshold s ws) :
    List.Forall₂ (Bounded msecs) (call.wait threshold msecs start s msecs ws).1 (left msecs start ws) ↔
      ∀ w ∈ ws, elapsed w.cur start < msecs := by
  have hpast := hordered.elapsed_nonneg hstart (.refl start)
  rw [wait_unmet h, left, List.forall₂_cons, List.forall₂_map_left_iff, List.forall₂_map_right_iff,
    List.forall₂_same]
  constructor
  · intro hbounded w hw
    exact (bounded_iff hlt (hpast w hw)).mp (hbounded.2 w hw)
  · intro hbefore
    refine ⟨⟨hpos,le_rfl,le_rfl⟩,?_⟩
    intro w hw
    exact (bounded_iff hlt (hpast w hw)).mpr (hbefore w hw)

/-- Every timeout that a wait hands to its condition is positive and within the time that is left,
exactly where each wakeup that leaves the threshold unmet comes before the time is over. -/
theorem waits_bounded_iff (hpos : 0 < msecs) (hlt : msecs < 2^32) (hstart : start.Normal)
    (hordered : Ordered start ws) :
    (BufferWait.data.Unmet threshold s ws →
      (List.Forall₂ (Bounded msecs) (s.waitForData threshold msecs start ws).1 (left msecs start ws) ↔
        ∀ w ∈ ws, elapsed w.cur start < msecs)) ∧
    (BufferWait.freeSpace.Unmet threshold s ws →
      (List.Forall₂ (Bounded msecs) (s.waitForFreeSpace threshold msecs start ws).1
        (left msecs start ws) ↔ ∀ w ∈ ws, elapsed w.cur start < msecs)) :=
  ⟨wait_bounded_iff hpos hlt hstart hordered,wait_bounded_iff hpos hlt hstart hordered⟩

/-- A wakeup of an empty buffer at the time. -/
def wakeupAt (sec : ℤ) : BufferWakeup := ⟨true,.init (fun _ => 0) 8,⟨sec,0⟩⟩

theorem waits_bounded_iff_early :
    List.Forall₂ (Bounded 1000)
      ((CircularBuffer.init (fun _ => 0) 8).waitForData 1 1000 ⟨5,0⟩ [wakeupAt 5]).1
      (left 1000 ⟨5,0⟩ [wakeupAt 5]) ↔ ∀ w ∈ [wakeupAt 5], elapsed w.cur ⟨5,0⟩ < 1000 := by
  have hordered : Ordered ⟨5,0⟩ [wakeupAt 5] := ⟨⟨.refl _,by decide,by decide⟩,trivial⟩
  have hunmet : BufferWait.data.Unmet 1 (.init (fun _ => 0) 8) [wakeupAt 5] := by
    refine ⟨by decide,?_⟩
    intro w hw
    rw [List.mem_singleton.mp hw]
    exact ⟨rfl,by decide⟩
  exact (waits_bounded_iff (by decide) (by decide) ⟨by decide,by decide⟩ hordered).1 hunmet

/-- A wakeup when the second is over, with nothing in the buffer, is followed by a wait for ever. -/
theorem wait_forever : ¬∀ (s : CircularBuffer) (threshold : ℤ) (msecs : ℕ) (start : Timespec)
    (ws : List BufferWakeup), 0 < msecs → msecs < 2^32 → start.Normal → Ordered start ws →
      BufferWait.data.Unmet threshold s ws →
        List.Forall₂ (Bounded msecs) (s.waitForData threshold msecs start ws).1
          (left msecs start ws) := by
  intro h
  have hordered : Ordered ⟨5,0⟩ [wakeupAt 6] := ⟨⟨.inl (by decide),by decide,by decide⟩,trivial⟩
  have hunmet : BufferWait.data.Unmet 1 (.init (fun _ => 0) 8) [wakeupAt 6] := by
    refine ⟨by decide,?_⟩
    intro w hw
    rw [List.mem_singleton.mp hw]
    exact ⟨rfl,by decide⟩
  have hall := h _ 1 1000 ⟨5,0⟩ [wakeupAt 6] (by decide) (by decide) ⟨by decide,by decide⟩ hordered
    hunmet
  have htimeouts : ((CircularBuffer.init (fun _ => 0) 8).waitForData 1 1000 ⟨5,0⟩ [wakeupAt 6]).1 =
      [1000,0] := by decide
  rw [htimeouts, left, List.map_singleton, List.forall₂_cons, List.forall₂_cons] at hall
  exact absurd hall.2.1.1 (by decide)

end Waits

end BufferWait

end JhCommon
