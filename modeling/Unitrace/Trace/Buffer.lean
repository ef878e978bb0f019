import Mathlib.Data.List.Nodup
import Mathlib.Data.List.Range
import Unitrace.Trace.Record

/-!
# The trace buffer of a thread

`hostEventBuffer i j` is slot `j` of slice `i`; the slices that are not allocated
yet hold what `malloc` will return for them. `log` are the texts that the buffer
has passed to the logger.
-/
namespace Unitrace.Trace.Buffer

open Unitrace.Lib.Text Unitrace.Lib.ByteString
open Unitrace.Trace.Record

abbrev Memory := Nat → Nat → HostEventRecord

structure TraceBuffer where
  bufferCapacity : Int
  sliceCapacity : Nat
  currentHostEventBufferSlice : Nat := 0
  nextHostEventIndex : Nat := 0
  origin : Origin
  /-- The number of allocated slices. -/
  slices : Nat := 1
  hostEventBuffer : Memory
  flushImmediately : Bool := false
  hostEventBufferFlushed : Bool := false
  finalized : Bool := false
  log : List Bytes := []

/-! ## The constructor -/

def isSpace (c : Char) : Bool := c.val = 32 || (9 ≤ c.val && c.val ≤ 13)

/-- `std::stoi`: leading blanks, a sign and digits; what follows the digits is
ignored. It throws without digits and outside of the 32 bit range. -/
def stoi (s : Str) : Option Int :=
  let s := s.dropWhile isSpace
  let digits := ((match s with
    | '-' :: rest => rest
    | '+' :: rest => rest
    | rest => rest).takeWhile Char.isDigit)
  let n : Int := Nat.ofDigitChars 10 digits 0
  let value := if s.head? = some '-' then -n else n
  if digits ≠ [] ∧ -2 ^ 31 ≤ value ∧ value < 2 ^ 31 then some value else none

def bufferSliceSizeDefault : Nat := 2 ^ 20

/-- The constructor with the value of `UNITRACE_ChromeEventBufferSize`. There is no
buffer when `stoi` throws or when no memory is found for a negative capacity. -/
def TraceBuffer.create (szstr : Str) (origin : Origin) (memory : Memory) : Option TraceBuffer :=
  if szstr = [] ∨ szstr = ['-', '1'] then
    some { bufferCapacity := -1, sliceCapacity := bufferSliceSizeDefault, origin := origin
           hostEventBuffer := memory }
  else
    match stoi szstr with
    | none => none
    | some capacity =>
      if capacity = 0 then
        some { bufferCapacity := 1, sliceCapacity := 1, flushImmediately := true, origin := origin
               hostEventBuffer := memory }
      else if capacity < 0 then none
      else
        some { bufferCapacity := capacity, sliceCapacity := capacity.toNat, origin := origin
               hostEventBuffer := memory }

/-! ## Flushing -/

def TraceBuffer.setSlot (b : TraceBuffer) (slot : Nat × Nat) (her : HostEventRecord) : TraceBuffer :=
  { b with hostEventBuffer := fun i j => if (i, j) = slot then her else b.hostEventBuffer i j }

def TraceBuffer.flushHostEvent (b : TraceBuffer) (slot : Nat × Nat) : TraceBuffer :=
  let (str, her) := stringifyHostEvent b.origin (b.hostEventBuffer slot.1 slot.2)
  { b.setSlot slot her with log := b.log ++ [str] }

/-- The slots that the two flushing loops visit: all slots of the slices before the
current one, and the slots of the current one before the next free slot. -/
def TraceBuffer.written (b : TraceBuffer) : List (Nat × Nat) :=
  ((List.range b.currentHostEventBufferSlice).flatMap fun i =>
    (List.range b.sliceCapacity).map fun j => (i, j)) ++
  (List.range b.nextHostEventIndex).map fun j => (b.currentHostEventBufferSlice, j)

def TraceBuffer.flushSlots (b : TraceBuffer) : TraceBuffer :=
  b.written.foldl TraceBuffer.flushHostEvent b

def TraceBuffer.flushHostBuffer (b : TraceBuffer) : TraceBuffer :=
  if b.hostEventBufferFlushed then b
  else
    { b.flushSlots with
      currentHostEventBufferSlice := 0, nextHostEventIndex := 0, hostEventBufferFlushed := true }

def TraceBuffer.finalize (b : TraceBuffer) : TraceBuffer :=
  if b.finalized then b
  else
    let b := { b with finalized := true }
    if b.hostEventBufferFlushed then b else { b.flushSlots with hostEventBufferFlushed := true }

/-- The destructor; a finalized buffer keeps its slices. -/
def TraceBuffer.destroy (b : TraceBuffer) : TraceBuffer :=
  if b.finalized then b
  else
    let b := { b with finalized := true }
    let b := if b.hostEventBufferFlushed then b
      else { b.flushSlots with hostEventBufferFlushed := true }
    { b with slices := 0 }

/-! ## Recording -/

/-- `GetHostEvent`; the pointer it returns is a slice and a slot in it. -/
def TraceBuffer.getHostEvent (b : TraceBuffer) : TraceBuffer × (Nat × Nat) :=
  let b :=
    if b.nextHostEventIndex = b.sliceCapacity then
      if b.bufferCapacity = -1 then
        { b with
          slices := b.slices + 1
          currentHostEventBufferSlice := b.currentHostEventBufferSlice + 1
          nextHostEventIndex := 0 }
      else b.flushHostBuffer
    else b
  (b, (b.currentHostEventBufferSlice, b.nextHostEventIndex))

def TraceBuffer.bufferHostEvent (b : TraceBuffer) : TraceBuffer :=
  if b.flushImmediately then
    { b.flushHostEvent (b.currentHostEventBufferSlice, b.nextHostEventIndex) with
      hostEventBufferFlushed := true }
  else { b with nextHostEventIndex := b.nextHostEventIndex + 1, hostEventBufferFlushed := false }

def TraceBuffer.ittLoggingCallback (b : TraceBuffer) (e : IttEvent) : TraceBuffer :=
  if b.finalized then b
  else
    let (b, slot) := b.getHostEvent
    (b.setSlot slot (e.fill (b.hostEventBuffer slot.1 slot.2))).bufferHostEvent

/-! ## What flushing logs -/

/-- The text of a slot. -/
def TraceBuffer.textAt (b : TraceBuffer) (slot : Nat × Nat) : Bytes :=
  (stringifyHostEvent b.origin (b.hostEventBuffer slot.1 slot.2)).1

theorem textAt_setSlot_self (b : TraceBuffer) (slot : Nat × Nat) (her : HostEventRecord) :
    (b.setSlot slot her).textAt slot = (stringifyHostEvent b.origin her).1 := by
  simp [TraceBuffer.textAt, TraceBuffer.setSlot]

theorem textAt_setSlot_ne (b : TraceBuffer) {slot p : Nat × Nat} (her : HostEventRecord)
    (h : p ≠ slot) : (b.setSlot slot her).textAt p = b.textAt p := by
  simp [TraceBuffer.textAt, TraceBuffer.setSlot, h]

/-- Flushing distinct slots logs the text of each, and changes nothing but the slots. -/
theorem foldl_flushHostEvent (slots : List (Nat × Nat)) (hnd : slots.Nodup) (b : TraceBuffer) :
    ∃ memory, slots.foldl TraceBuffer.flushHostEvent b =
      { b with hostEventBuffer := memory, log := b.log ++ slots.map b.textAt } := by
  induction slots generalizing b with
  | nil => exact ⟨b.hostEventBuffer, by simp⟩
  | cons slot slots ih =>
    obtain ⟨hnot, hnd⟩ := List.nodup_cons.mp hnd
    obtain ⟨memory, hrest⟩ := ih hnd (b.flushHostEvent slot)
    refine ⟨memory, ?_⟩
    have htexts : slots.map (b.flushHostEvent slot).textAt = slots.map b.textAt := by
      refine List.map_congr_left fun p hp => ?_
      exact textAt_setSlot_ne b _ (fun he => hnot (he ▸ hp))
    rw [List.foldl_cons, hrest, htexts, List.map_cons]
    simp [TraceBuffer.flushHostEvent, TraceBuffer.setSlot, TraceBuffer.textAt]

theorem nodup_written (b : TraceBuffer) : b.written.Nodup := by
  have hrow (i n : Nat) : ((List.range n).map fun j => (i, j)).Nodup :=
    List.nodup_range.map fun _ _ h => (Prod.mk.inj h).2
  refine List.nodup_append.mpr ⟨?_, hrow _ _, ?_⟩
  · refine List.nodup_flatMap.mpr ⟨fun i _ => hrow i _, ?_⟩
    refine List.nodup_range.imp fun {i j} hij p hi hj => ?_
    simp only [List.mem_map] at hi hj
    obtain ⟨_, -, rfl⟩ := hi
    obtain ⟨_, -, h⟩ := hj
    exact hij (Prod.mk.inj h).1.symm
  · intro p hp q hq hpq
    simp only [List.mem_flatMap, List.mem_map, List.mem_range] at hp hq
    obtain ⟨i, hi, j, -, rfl⟩ := hp
    obtain ⟨k, -, rfl⟩ := hq
    have := (Prod.mk.inj hpq).1
    omega

/-- The next free slot is not among the written ones. -/
theorem next_notMem_written (b : TraceBuffer) :
    (b.currentHostEventBufferSlice, b.nextHostEventIndex) ∉ b.written := by
  simp [TraceBuffer.written]

theorem flushSlots_eq (b : TraceBuffer) :
    ∃ memory, b.flushSlots =
      { b with hostEventBuffer := memory, log := b.log ++ b.written.map b.textAt } :=
  foldl_flushHostEvent b.written (nodup_written b) b

/-! ## The invariant -/

/-- `texts` are the events recorded so far: what has been logged, followed by what the
written slots hold. -/
structure Inv (o : Origin) (texts : List Bytes) (b : TraceBuffer) : Prop where
  origin : b.origin = o
  open_ : b.finalized = false
  recorded : b.log ++ b.written.map b.textAt = texts
  index_le : b.nextHostEventIndex ≤ b.sliceCapacity
  capacity_pos : 0 < b.sliceCapacity
  last_slice : b.slices = b.currentHostEventBufferSlice + 1
  one_slice : b.bufferCapacity ≠ -1 → b.currentHostEventBufferSlice = 0
  immediate_empty : b.flushImmediately = true → b.written = []
  flushed_empty : b.hostEventBufferFlushed = true → b.written = []

theorem written_eq_nil {b : TraceBuffer} (hslice : b.currentHostEventBufferSlice = 0)
    (hindex : b.nextHostEventIndex = 0) : b.written = [] := by
  simp [TraceBuffer.written, hslice, hindex]

theorem index_eq_zero {b : TraceBuffer} (h : b.written = []) : b.nextHostEventIndex = 0 := by
  simpa using (List.append_eq_nil_iff.mp h).2

theorem create_inv {szstr : Str} {o : Origin} {memory : Memory} {b : TraceBuffer}
    (h : TraceBuffer.create szstr o memory = some b) : Inv o [] b := by
  unfold TraceBuffer.create at h
  have hempty (b : TraceBuffer) (horigin : b.origin = o) (hopen : b.finalized = false)
      (hlog : b.log = []) (hslice : b.currentHostEventBufferSlice = 0)
      (hindex : b.nextHostEventIndex = 0) (hslices : b.slices = 1)
      (hcap : 0 < b.sliceCapacity) : Inv o [] b := by
    have hw := written_eq_nil hslice hindex
    exact ⟨horigin, hopen, by rw [hlog, hw]; rfl, by omega, hcap, by omega, fun _ => hslice,
      fun _ => hw, fun _ => hw⟩
  split at h
  · cases h
    exact hempty _ rfl rfl rfl rfl rfl rfl (Nat.two_pow_pos 20)
  · split at h
    · cases h
    · rename_i capacity _
      split at h
      · cases h
        exact hempty _ rfl rfl rfl rfl rfl rfl Nat.one_pos
      · split at h
        · cases h
        · cases h
          exact hempty _ rfl rfl rfl rfl rfl rfl (by simp only; omega)

/-! ## What the two calls do -/

/-- With a free slot in the slice `GetHostEvent` only returns it. -/
theorem getHostEvent_free {b : TraceBuffer} (h : b.nextHostEventIndex ≠ b.sliceCapacity) :
    b.getHostEvent = (b, (b.currentHostEventBufferSlice, b.nextHostEventIndex)) := by
  simp [TraceBuffer.getHostEvent, h]

/-- A full slice of an unbounded buffer is followed by a new one. -/
theorem getHostEvent_grow {b : TraceBuffer} (hfull : b.nextHostEventIndex = b.sliceCapacity)
    (hcap : b.bufferCapacity = -1) : b.getHostEvent =
      ({ b with
          slices := b.slices + 1
          currentHostEventBufferSlice := b.currentHostEventBufferSlice + 1
          nextHostEventIndex := 0 }, (b.currentHostEventBufferSlice + 1, 0)) := by
  simp [TraceBuffer.getHostEvent, hfull, hcap]

/-- A full bounded buffer is flushed and starts over. -/
theorem getHostEvent_flush {b : TraceBuffer} (hfull : b.nextHostEventIndex = b.sliceCapacity)
    (hbounded : b.bufferCapacity ≠ -1) (hflushed : b.hostEventBufferFlushed = false) :
    ∃ memory, b.getHostEvent =
      ({ b with
          hostEventBuffer := memory
          log := b.log ++ b.written.map b.textAt
          currentHostEventBufferSlice := 0
          nextHostEventIndex := 0
          hostEventBufferFlushed := true }, (0, 0)) := by
  obtain ⟨memory, hflush⟩ := flushSlots_eq b
  refine ⟨memory, ?_⟩
  simp [TraceBuffer.getHostEvent, TraceBuffer.flushHostBuffer, hfull, hbounded, hflushed, hflush]

/-- The record is logged at once. -/
theorem bufferHostEvent_immediate {b : TraceBuffer} (himm : b.flushImmediately = true) :
    ∃ memory, b.bufferHostEvent =
      { b with
        hostEventBuffer := memory
        log := b.log ++ [b.textAt (b.currentHostEventBufferSlice, b.nextHostEventIndex)]
        hostEventBufferFlushed := true } := by
  refine ⟨(b.flushHostEvent (b.currentHostEventBufferSlice, b.nextHostEventIndex)).hostEventBuffer,
    ?_⟩
  rw [TraceBuffer.bufferHostEvent, if_pos himm]
  rfl

/-- The record stays in its slot. -/
theorem bufferHostEvent_delayed {b : TraceBuffer} (himm : b.flushImmediately = false) :
    b.bufferHostEvent =
      { b with
        nextHostEventIndex := b.nextHostEventIndex + 1, hostEventBufferFlushed := false } := by
  simp [TraceBuffer.bufferHostEvent, himm]

/-- `GetHostEvent` leaves the recorded texts as they are and returns a slot inside of an
allocated slice. -/
theorem getHostEvent_inv {o : Origin} {texts : List Bytes} {b : TraceBuffer} (hi : Inv o texts b) :
    Inv o texts b.getHostEvent.1 ∧
      b.getHostEvent.1.nextHostEventIndex < b.getHostEvent.1.sliceCapacity := by
  by_cases hfull : b.nextHostEventIndex = b.sliceCapacity
  · by_cases hcap : b.bufferCapacity = -1
    · rw [getHostEvent_grow hfull hcap]
      -- the slots of the full slice are now those of an earlier one
      have hsame : ({ b with
          slices := b.slices + 1
          currentHostEventBufferSlice := b.currentHostEventBufferSlice + 1
          nextHostEventIndex := 0 } : TraceBuffer).written = b.written := by
        simp [TraceBuffer.written, List.range_succ, hfull]
      refine ⟨⟨hi.origin, hi.open_, ?_, Nat.zero_le _, hi.capacity_pos,
        congrArg (· + 1) hi.last_slice, fun h => absurd hcap h, ?_, ?_⟩, hi.capacity_pos⟩
      · rw [hsame]
        exact hi.recorded
      · rw [hsame]
        exact hi.immediate_empty
      · rw [hsame]
        exact hi.flushed_empty
    · have hflushed : b.hostEventBufferFlushed = false := by
        refine Bool.eq_false_iff.mpr fun h => ?_
        have hzero := index_eq_zero (hi.flushed_empty h)
        have hpos := hi.capacity_pos
        omega
      obtain ⟨memory, hb⟩ := getHostEvent_flush hfull hcap hflushed
      rw [hb]
      exact ⟨⟨hi.origin, hi.open_, (List.append_nil _).trans hi.recorded, Nat.zero_le _,
        hi.capacity_pos, hi.last_slice.trans (congrArg (· + 1) (hi.one_slice hcap)), fun _ => rfl,
        fun _ => rfl, fun _ => rfl⟩, hi.capacity_pos⟩
  · rw [getHostEvent_free hfull]
    exact ⟨hi, Nat.lt_of_le_of_ne hi.index_le hfull⟩

theorem written_succ (b : TraceBuffer) (flushed : Bool) :
    ({ b with nextHostEventIndex := b.nextHostEventIndex + 1,
              hostEventBufferFlushed := flushed } : TraceBuffer).written =
      b.written ++ [(b.currentHostEventBufferSlice, b.nextHostEventIndex)] := by
  simp [TraceBuffer.written, List.range_succ]

/-- Filling the next free slot and buffering it records one more text. -/
theorem buffer_inv {o : Origin} {texts : List Bytes} {b : TraceBuffer} (hi : Inv o texts b)
    (hfree : b.nextHostEventIndex < b.sliceCapacity) (her : HostEventRecord) :
    Inv o (texts ++ [(stringifyHostEvent o her).1])
      (b.setSlot (b.currentHostEventBufferSlice, b.nextHostEventIndex) her).bufferHostEvent := by
  obtain ⟨slot, hslot⟩ : ∃ slot, slot = (b.currentHostEventBufferSlice, b.nextHostEventIndex) :=
    ⟨_, rfl⟩
  have hnew : (b.setSlot slot her).textAt slot = (stringifyHostEvent o her).1 := by
    rw [textAt_setSlot_self, hi.origin]
  have hcurrent : ((b.setSlot slot her).currentHostEventBufferSlice,
      (b.setSlot slot her).nextHostEventIndex) = slot := hslot.symm
  rw [← hslot]
  cases himm : b.flushImmediately with
  | true =>
    have hwritten : b.written = [] := hi.immediate_empty himm
    have hrecorded : b.log = texts := by simpa [hwritten] using hi.recorded
    obtain ⟨memory, hb⟩ := bufferHostEvent_immediate (b := b.setSlot slot her) himm
    rw [hcurrent, hnew] at hb
    rw [hb]
    refine ⟨hi.origin, hi.open_, ?_, hi.index_le, hi.capacity_pos, hi.last_slice, hi.one_slice,
      fun _ => hwritten, fun _ => hwritten⟩
    show b.log ++ _ ++ b.written.map _ = _
    rw [hwritten, List.map_nil, List.append_nil, hrecorded]
  | false =>
    have hold : b.written.map (b.setSlot slot her).textAt = b.written.map b.textAt :=
      List.map_congr_left fun p hp => textAt_setSlot_ne b her
        (fun he => next_notMem_written b (hslot ▸ he ▸ hp))
    have hwritten := written_succ (b.setSlot slot her) false
    rw [hcurrent] at hwritten
    rw [bufferHostEvent_delayed (b := b.setSlot slot her) himm]
    refine ⟨hi.origin, hi.open_, ?_, hfree, hi.capacity_pos, hi.last_slice, hi.one_slice,
      fun h => absurd (himm.symm.trans h) Bool.false_ne_true, fun h => by cases h⟩
    rw [hwritten, List.map_append, List.map_singleton, ← List.append_assoc]
    show b.log ++ b.written.map (b.setSlot slot her).textAt ++ [(b.setSlot slot her).textAt slot] = _
    rw [hold, hnew, hi.recorded]

theorem callback_inv {o : Origin} {texts : List Bytes} {b : TraceBuffer} (hi : Inv o texts b)
    (e : IttEvent) : Inv o (texts ++ [e.text o]) (b.ittLoggingCallback e) := by
  obtain ⟨hget, hfree⟩ := getHostEvent_inv hi
  unfold TraceBuffer.ittLoggingCallback
  rw [hi.open_, if_neg Bool.false_ne_true, ← stringify_fill o e]
  exact buffer_inv hget hfree _

/-- After any number of callbacks every event is logged or waits in its slot, in order. -/
theorem run_inv {o : Origin} {texts : List Bytes} {b : TraceBuffer} (hi : Inv o texts b)
    (events : List IttEvent) :
    Inv o (texts ++ events.map (IttEvent.text o)) (events.foldl TraceBuffer.ittLoggingCallback b) := by
  induction events generalizing texts b with
  | nil => simpa using hi
  | cons e events ih =>
    have h := ih (callback_inv hi e)
    rwa [List.append_assoc] at h

/-! ## The end of a run -/

theorem finalize_log {o : Origin} {texts : List Bytes} {b : TraceBuffer} (hi : Inv o texts b) :
    b.finalize.log = texts ∧ b.finalize.finalized = true := by
  unfold TraceBuffer.finalize
  rw [hi.open_, if_neg Bool.false_ne_true]
  by_cases hf : b.hostEventBufferFlushed = true
  · have hrecorded := hi.recorded
    rw [hi.flushed_empty hf, List.map_nil, List.append_nil] at hrecorded
    simp [hf, hrecorded]
  · obtain ⟨memory, hflush⟩ := flushSlots_eq { b with finalized := true }
    rw [if_neg hf, hflush]
    exact ⟨hi.recorded, rfl⟩

/-- The destructor of a buffer that is not finalized logs what `Finalize` logs. -/
theorem destroy_log {b : TraceBuffer} (h : b.finalized = false) : b.destroy.log = b.finalize.log := by
  simp [TraceBuffer.destroy, TraceBuffer.finalize, h]

theorem destroy_finalized {b : TraceBuffer} (h : b.finalized = true) : b.destroy = b := by
  simp [TraceBuffer.destroy, h]

theorem late_events {b : TraceBuffer} (h : b.finalized = true) (late : List IttEvent) :
    late.foldl TraceBuffer.ittLoggingCallback b = b := by
  induction late with
  | nil => rfl
  | cons e late ih =>
    have hstep : b.ittLoggingCallback e = b := by simp [TraceBuffer.ittLoggingCallback, h]
    rw [List.foldl_cons, hstep, ih]

/-- Whatever the capacity and the initial contents of the slots, the texts logged are
those of the recorded events in order; events that come after `Finalize` are dropped. -/
theorem recorded_events_logged (szstr : Str) (o : Origin) (memory : Memory) (b : TraceBuffer)
    (hb : TraceBuffer.create szstr o memory = some b) (events late : List IttEvent) :
    (late.foldl TraceBuffer.ittLoggingCallback
        (events.foldl TraceBuffer.ittLoggingCallback b).finalize).destroy.log =
      events.map (IttEvent.text o) := by
  obtain ⟨hlog, hfinal⟩ := finalize_log (run_inv (create_inv hb) events)
  rw [late_events hfinal, destroy_finalized hfinal, hlog, List.nil_append]

/-- A slot that still holds an unnamed record of an earlier use. -/
def staleRecord : HostEventRecord where
  id := 7
  startTime := 1
  endTime := 2
  name := none
  type := .flowSink
  apiType := .itt
  ittArgs := { count := 1, isIndirectData := false, type := .unknown, key := ⟨[], zero_notMem_nil⟩
               data := [0], indirect := [], next := [] }

def plainEvent (startTs : UInt64) : IttEvent where
  name := none
  startTs := startTs
  endTs := startTs + 10
  metadataArgs := none

def mainThread : Origin where
  tid := 1
  pid := 2
  epochStartTime := 0

theorem recorded_events_logged_two_slots :
    ∃ b, TraceBuffer.create ['2'] mainThread (fun _ _ => staleRecord) = some b ∧
      ([plainEvent 9].foldl TraceBuffer.ittLoggingCallback
        ([plainEvent 1, plainEvent 2, plainEvent 3].foldl TraceBuffer.ittLoggingCallback
          b).finalize).destroy.log =
        [plainEvent 1, plainEvent 2, plainEvent 3].map (IttEvent.text mainThread) :=
  ⟨_, rfl, recorded_events_logged ['2'] mainThread (fun _ _ => staleRecord) _ rfl _ _⟩

end Unitrace.Trace.Buffer
