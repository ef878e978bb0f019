import Mathlib.Logic.Function.Basic
import Unitrace.Trace.TraceBuffers

/-!
# Finalizing during a callback

The callback of a thread tests whether its buffer is finalized, takes a slot, and fills
and buffers it. Only the flushing holds the lock, so that `Finalize` may come between
any two of these steps. Records are numbered in the order in which they are filled.
-/
namespace Unitrace.Trace.LateFinalize

open Unitrace.Lib.Text Unitrace.Lib.ByteString
open Unitrace.Trace.Record Unitrace.Trace.Buffer Unitrace.Trace.TraceBuffers

/-- Where the thread is in its callback. -/
inductive Pc where
  | idle
  | tested (e : IttEvent)
  | got (e : IttEvent) (slot : Nat × Nat)

structure State where
  buffer : TraceBuffer
  pc : Pc := .idle
  /-- The records that have been filled. -/
  filled : List IttEvent := []
  /-- The record that a slot was filled with last. -/
  owner : Nat × Nat → Option Nat := fun _ => none
  /-- The records that have been logged; `none` is a slot that was never filled. -/
  logged : List (Option Nat) := []

inductive Action where
  | test (e : IttEvent)
  | getHostEvent
  | bufferHostEvent
  | finalize

/-! ## The slots that a step logs -/

def getFlushes (b : TraceBuffer) : List (Nat × Nat) :=
  if b.nextHostEventIndex = b.sliceCapacity ∧ b.bufferCapacity ≠ -1 ∧
      b.hostEventBufferFlushed = false then b.written
  else []

def bufferFlushes (b : TraceBuffer) : List (Nat × Nat) :=
  if b.flushImmediately then [(b.currentHostEventBufferSlice, b.nextHostEventIndex)] else []

def finalizeFlushes (b : TraceBuffer) : List (Nat × Nat) := if flushes b then b.written else []

/-- `Finalize` sets two flags and logs the written slots unless they are logged already. -/
theorem finalize_eq {b : TraceBuffer} (h : b.finalized = false) :
    ∃ memory, b.finalize =
      { b with
        hostEventBuffer := memory
        log := b.log ++ (finalizeFlushes b).map b.textAt
        hostEventBufferFlushed := true
        finalized := true } := by
  have hopen : ¬ b.finalized = true := by rw [h]; exact Bool.false_ne_true
  cases hflushed : b.hostEventBufferFlushed with
  | true =>
    refine ⟨b.hostEventBuffer, ?_⟩
    have hnone : finalizeFlushes b = [] := by simp [finalizeFlushes, flushes, hflushed]
    rw [TraceBuffer.finalize, if_neg hopen, hnone, List.map_nil, List.append_nil]
    simp only [hflushed, ↓reduceIte]
  | false =>
    obtain ⟨memory, hflush⟩ := flushSlots_eq { b with finalized := true }
    refine ⟨memory, ?_⟩
    have hall : finalizeFlushes b = b.written := by simp [finalizeFlushes, flushes, h, hflushed]
    have hnot : ¬ b.hostEventBufferFlushed = true := by rw [hflushed]; exact Bool.false_ne_true
    have hfinalize : b.finalize = { ({ b with finalized := true } : TraceBuffer).flushSlots with
        hostEventBufferFlushed := true } := by
      rw [TraceBuffer.finalize, if_neg hopen]
      exact if_neg hnot
    rw [hfinalize, hflush, hall]
    rfl

/-! ## The steps -/

/-- A step that does not fit the place of the thread changes nothing. -/
def State.step (s : State) : Action → State
  | .test e =>
    match s.pc with
    | .idle => if s.buffer.finalized then s else { s with pc := .tested e }
    | _ => s
  | .getHostEvent =>
    match s.pc with
    | .tested e =>
      { s with
        buffer := s.buffer.getHostEvent.1
        pc := .got e s.buffer.getHostEvent.2
        logged := s.logged ++ (getFlushes s.buffer).map s.owner }
    | _ => s
  | .bufferHostEvent =>
    match s.pc with
    | .got e slot =>
      let buffer := s.buffer.setSlot slot (e.fill (s.buffer.hostEventBuffer slot.1 slot.2))
      let owner := Function.update s.owner slot (some s.filled.length)
      { buffer := buffer.bufferHostEvent
        pc := .idle
        filled := s.filled ++ [e]
        owner := owner
        logged := s.logged ++ (bufferFlushes buffer).map owner }
    | _ => s
  | .finalize =>
    { s with
      buffer := s.buffer.finalize
      logged := s.logged ++ (finalizeFlushes s.buffer).map s.owner }

/-- The slot that `GetHostEvent` has returned exists. No record is logged twice or before
it was filled, and the texts in the log are texts of filled records, in order. -/
structure Fine (s : State) : Prop where
  slot_exists : ∀ e slot, s.pc = .got e slot →
    slot.1 < s.buffer.slices ∧ slot.2 < s.buffer.sliceCapacity
  logged_filled : ∀ id ∈ s.logged, ∃ k < s.filled.length, id = some k
  logged_once : s.logged.Nodup
  texts : s.buffer.log.Sublist (s.filled.map (IttEvent.text s.buffer.origin))

/-- Every state of the run is fine. -/
def Sound : State → List Action → Prop
  | s, [] => Fine s
  | s, a :: actions => Fine s ∧ Sound (s.step a) actions

/-- `GetHostEvent` is not entered with a full buffer that was finalized after the test. -/
def ClearStep (s : State) : Action → Prop
  | .getHostEvent => ∀ e, s.pc = .tested e → s.buffer.finalized = true →
      s.buffer.nextHostEventIndex ≠ s.buffer.sliceCapacity
  | _ => True

def Clear : State → List Action → Prop
  | _, [] => True
  | s, a :: actions => ClearStep s a ∧ Clear (s.step a) actions

/-! ## The invariant -/

structure Stage (o : Origin) (s : State) : Prop where
  origin : s.buffer.origin = o
  bounded : s.buffer.bufferCapacity ≠ -1
  index_le : s.buffer.nextHostEventIndex ≤ s.buffer.sliceCapacity
  last_slice : s.buffer.slices = s.buffer.currentHostEventBufferSlice + 1
  got_next : ∀ e slot, s.pc = .got e slot →
    slot = (s.buffer.currentHostEventBufferSlice, s.buffer.nextHostEventIndex) ∧
      s.buffer.nextHostEventIndex < s.buffer.sliceCapacity
  logged : s.logged.Sublist ((List.range s.filled.length).map some)
  texts : s.buffer.log.Sublist (s.filled.map (IttEvent.text o))
  /-- Before it is finalized, the buffer has logged or holds all records. -/
  active : s.buffer.finalized = false → Buffer.Inv o (s.filled.map (IttEvent.text o)) s.buffer ∧
    s.logged ++ s.buffer.written.map s.owner = (List.range s.filled.length).map some
  closing : ∀ e, s.pc = .tested e → s.buffer.finalized = true → s.buffer.hostEventBufferFlushed = true

theorem Stage.fine {o : Origin} {s : State} (hs : Stage o s) : Fine s where
  slot_exists := by
    intro e slot hpc
    obtain ⟨rfl, hlt⟩ := hs.got_next e slot hpc
    exact ⟨by rw [hs.last_slice]; exact Nat.lt_succ_self _, hlt⟩
  logged_filled := by
    intro id hid
    obtain ⟨k, hk, rfl⟩ := List.mem_map.mp (hs.logged.subset hid)
    exact ⟨k, List.mem_range.mp hk, rfl⟩
  logged_once := (List.nodup_range.map fun _ _ h => Option.some.inj h).sublist hs.logged
  texts := by rw [hs.origin]; exact hs.texts

theorem stage_create {szstr : Str} {o : Origin} {memory : Memory} {b : TraceBuffer}
    (hcreate : TraceBuffer.create szstr o memory = some b) (hbounded : b.bufferCapacity ≠ -1) :
    Stage o { buffer := b } := by
  have hi := create_inv hcreate
  have hrecorded := hi.recorded
  rw [List.append_eq_nil_iff, List.map_eq_nil_iff] at hrecorded
  refine ⟨hi.origin, hbounded, hi.index_le, hi.last_slice, ?_, List.Sublist.slnil, ?_, ?_, ?_⟩
  · intro e slot h
    cases h
  · simp [hrecorded.1]
  · intro _
    exact ⟨hi, by simp [hrecorded.2]⟩
  · intro e h
    cases h

/-! ## What each step preserves -/

variable {o : Origin} {s : State}

theorem stage_test (hs : Stage o s) (hopen : s.buffer.finalized = false)
    (e : IttEvent) : Stage o { s with pc := .tested e } where
  origin := hs.origin
  bounded := hs.bounded
  index_le := hs.index_le
  last_slice := hs.last_slice
  got_next := by
    intro e slot h
    cases h
  logged := hs.logged
  texts := hs.texts
  active := hs.active
  closing := by
    intro e _ hfinal
    exact absurd (hopen.symm.trans hfinal) Bool.false_ne_true

theorem stage_get (hs : Stage o s) {e : IttEvent} (hpc : s.pc = .tested e)
    (hclear : s.buffer.finalized = true → s.buffer.nextHostEventIndex ≠ s.buffer.sliceCapacity) :
    Stage o (s.step .getHostEvent) := by
  unfold State.step
  simp only [hpc]
  by_cases hfull : s.buffer.nextHostEventIndex = s.buffer.sliceCapacity
  · have hopen : s.buffer.finalized = false :=
      Bool.eq_false_iff.mpr fun h => hclear h hfull
    obtain ⟨hi, hlogged⟩ := hs.active hopen
    obtain ⟨hi', hfree⟩ := getHostEvent_inv hi
    have hflushed : s.buffer.hostEventBufferFlushed = false := by
      refine Bool.eq_false_iff.mpr fun h => ?_
      have hzero := index_eq_zero (hi.flushed_empty h)
      have := hi.capacity_pos
      omega
    obtain ⟨memory, hget⟩ := getHostEvent_flush hfull hs.bounded hflushed
    have hslots : getFlushes s.buffer = s.buffer.written := if_pos ⟨hfull, hs.bounded, hflushed⟩
    rw [hget] at hi' hfree
    rw [hget, hslots, hlogged]
    refine ⟨hs.origin, hs.bounded, hi'.index_le, hi'.last_slice, ?_, List.Sublist.refl _, ?_, ?_, ?_⟩
    · intro e' slot h
      cases h
      exact ⟨rfl, hfree⟩
    · rw [← hi.recorded]
    · intro _
      exact ⟨hi', by simp [TraceBuffer.written]⟩
    · intro e' h
      cases h
  · have hslots : getFlushes s.buffer = [] := if_neg fun h => hfull h.1
    rw [getHostEvent_free hfull, hslots, List.map_nil, List.append_nil]
    refine ⟨hs.origin, hs.bounded, hs.index_le, hs.last_slice, ?_, hs.logged, hs.texts, hs.active, ?_⟩
    · intro e' slot h
      cases h
      exact ⟨rfl, Nat.lt_of_le_of_ne hs.index_le hfull⟩
    · intro e' h
      cases h

/-- The number of a record that is filled is the next one. -/
theorem numbers_concat (filled : List IttEvent) (e : IttEvent) :
    (List.range (filled ++ [e]).length).map some =
      (List.range filled.length).map some ++ [some filled.length] := by
  rw [List.length_append, List.length_singleton, List.range_succ, List.map_append,
    List.map_singleton]

theorem texts_concat (o : Origin) (filled : List IttEvent) (e : IttEvent) (her : HostEventRecord) :
    (filled ++ [e]).map (IttEvent.text o) =
      filled.map (IttEvent.text o) ++ [(stringifyHostEvent o (e.fill her)).1] := by
  rw [List.map_append, List.map_singleton, stringify_fill]

/-- The next free slot is in no written one's place. -/
theorem map_owner_update (b : TraceBuffer) (owner : Nat × Nat → Option Nat) (id : Option Nat) :
    b.written.map (Function.update owner (b.currentHostEventBufferSlice, b.nextHostEventIndex) id) =
      b.written.map owner := by
  refine List.map_congr_left fun p hp => Function.update_of_ne (fun he => ?_) _ _
  exact next_notMem_written b (he ▸ hp)

section Filled

variable (hs : Stage o s) {e : IttEvent} {slot : Nat × Nat} (hpc : s.pc = .got e slot)

include hs hpc

/-- Filling the slot records one more text while the buffer is open. -/
theorem filled_inv (hopen : s.buffer.finalized = false) :
    Buffer.Inv o ((s.filled ++ [e]).map (IttEvent.text o))
      (s.buffer.setSlot slot (e.fill (s.buffer.hostEventBuffer slot.1 slot.2))).bufferHostEvent := by
  obtain ⟨rfl, hfree⟩ := hs.got_next e slot hpc
  rw [texts_concat o s.filled e (s.buffer.hostEventBuffer s.buffer.currentHostEventBufferSlice
    s.buffer.nextHostEventIndex)]
  exact buffer_inv (hs.active hopen).1 hfree _

/-- The record is logged at once. -/
theorem stage_immediate (himm : s.buffer.flushImmediately = true) :
    Stage o (s.step .bufferHostEvent) := by
  obtain ⟨hslot, -⟩ := hs.got_next e slot hpc
  have hinv := filled_inv hs hpc
  have htexts := texts_concat o s.filled e (s.buffer.hostEventBuffer slot.1 slot.2)
  unfold State.step
  simp only [hpc]
  generalize e.fill (s.buffer.hostEventBuffer slot.1 slot.2) = her at hinv htexts ⊢
  obtain ⟨memory, hbuffer⟩ := bufferHostEvent_immediate (b := s.buffer.setSlot slot her) himm
  have hnext : ((s.buffer.setSlot slot her).currentHostEventBufferSlice,
      (s.buffer.setSlot slot her).nextHostEventIndex) = slot := hslot.symm
  have hslots : bufferFlushes (s.buffer.setSlot slot her) = [slot] := by
    rw [← hnext]
    exact if_pos himm
  rw [hnext, textAt_setSlot_self, hs.origin] at hbuffer
  rw [hbuffer] at hinv
  rw [hbuffer, hslots, List.map_singleton, Function.update_self]
  refine ⟨hs.origin, hs.bounded, hs.index_le, hs.last_slice, ?_, ?_, ?_, ?_, ?_⟩
  · intro e' slot' h
    cases h
  · rw [numbers_concat]
    exact hs.logged.append (List.Sublist.refl _)
  · rw [htexts]
    exact hs.texts.append (List.Sublist.refl _)
  · intro hopen
    obtain ⟨hi, hlogged⟩ := hs.active hopen
    have hnone : s.buffer.written = [] := hi.immediate_empty himm
    refine ⟨hinv hopen, ?_⟩
    rw [hnone, List.map_nil, List.append_nil] at hlogged
    rw [numbers_concat, ← hlogged]
    show s.logged ++ [some s.filled.length] ++ s.buffer.written.map _ = _
    rw [hnone, List.map_nil, List.append_nil]
  · intro e' h
    cases h

/-- The record stays in its slot. -/
theorem stage_delayed (himm : s.buffer.flushImmediately = false) :
    Stage o (s.step .bufferHostEvent) := by
  obtain ⟨hslot, hfree⟩ := hs.got_next e slot hpc
  have hinv := filled_inv hs hpc
  have htexts := texts_concat o s.filled e (s.buffer.hostEventBuffer slot.1 slot.2)
  unfold State.step
  simp only [hpc]
  generalize e.fill (s.buffer.hostEventBuffer slot.1 slot.2) = her at hinv htexts ⊢
  have hbuffer := bufferHostEvent_delayed (b := s.buffer.setSlot slot her) himm
  have hslots : bufferFlushes (s.buffer.setSlot slot her) = [] :=
    if_neg fun h => Bool.false_ne_true (himm.symm.trans h)
  rw [hbuffer] at hinv
  rw [hbuffer, hslots, List.map_nil, List.append_nil]
  refine ⟨hs.origin, hs.bounded, hfree, hs.last_slice, ?_, ?_, ?_, ?_, ?_⟩
  · intro e' slot' h
    cases h
  · rw [numbers_concat]
    exact hs.logged.trans (List.sublist_append_left _ _)
  · rw [htexts]
    exact hs.texts.trans (List.sublist_append_left _ _)
  · intro hopen
    obtain ⟨hi, hlogged⟩ := hs.active hopen
    refine ⟨hinv hopen, ?_⟩
    have hwritten : ({ s.buffer.setSlot slot her with
        nextHostEventIndex := (s.buffer.setSlot slot her).nextHostEventIndex + 1
        hostEventBufferFlushed := false } : TraceBuffer).written = s.buffer.written ++ [slot] := by
      rw [hslot]
      exact written_succ (s.buffer.setSlot slot her) false
    have hall : s.logged ++ (s.buffer.written ++ [slot]).map
        (Function.update s.owner slot (some s.filled.length)) =
        (List.range (s.filled ++ [e]).length).map some := by
      rw [numbers_concat, ← hlogged, List.map_append, List.map_singleton, Function.update_self,
        List.append_assoc, hslot, map_owner_update]
    rw [hwritten]
    exact hall
  · intro e' h
    cases h

theorem stage_buffer : Stage o (s.step .bufferHostEvent) := by
  cases himm : s.buffer.flushImmediately with
  | true => exact stage_immediate hs hpc himm
  | false => exact stage_delayed hs hpc himm

end Filled

theorem stage_finalize (hs : Stage o s) : Stage o (s.step .finalize) := by
  unfold State.step
  cases hfinal : s.buffer.finalized with
  | true =>
    have hsame : s.buffer.finalize = s.buffer := by simp [TraceBuffer.finalize, hfinal]
    have hnone : finalizeFlushes s.buffer = [] := by simp [finalizeFlushes, flushes, hfinal]
    simp only [hsame, hnone, List.map_nil, List.append_nil]
    exact hs
  | false =>
    obtain ⟨hi, hlogged⟩ := hs.active hfinal
    obtain ⟨memory, heq⟩ := finalize_eq hfinal
    have hall : s.logged ++ (finalizeFlushes s.buffer).map s.owner =
        (List.range s.filled.length).map some := by
      cases hflushed : s.buffer.hostEventBufferFlushed with
      | true => simpa [finalizeFlushes, flushes, hflushed, hi.flushed_empty hflushed] using hlogged
      | false => simpa [finalizeFlushes, flushes, hflushed, hfinal] using hlogged
    have hlog := (finalize_log hi).1
    simp only [hall]
    rw [heq] at hlog ⊢
    refine ⟨hs.origin, hs.bounded, hs.index_le, hs.last_slice, hs.got_next, List.Sublist.refl _, ?_,
      ?_, fun _ _ _ => rfl⟩
    · rw [hlog]
    · intro h
      cases h

/-! ## The result -/

theorem stage_step (hs : Stage o s) {a : Action} (hclear : ClearStep s a) : Stage o (s.step a) := by
  cases a with
  | test e =>
    unfold State.step
    cases hpc : s.pc with
    | idle =>
      cases hopen : s.buffer.finalized with
      | true => exact hs
      | false => exact stage_test hs hopen e
    | tested e' => exact hs
    | got e' slot => exact hs
  | getHostEvent =>
    cases hpc : s.pc with
    | idle => simpa [State.step, hpc] using hs
    | tested e => exact stage_get hs hpc (hclear e hpc)
    | got e slot => simpa [State.step, hpc] using hs
  | bufferHostEvent =>
    cases hpc : s.pc with
    | idle => simpa [State.step, hpc] using hs
    | tested e => simpa [State.step, hpc] using hs
    | got e slot => exact stage_buffer hs hpc
  | finalize => exact stage_finalize hs

/-- On a full buffer that was finalized after the test, `GetHostEvent` does not flush and
returns a slot behind the end of the slice. -/
theorem not_fine_of_not_clear (hs : Stage o s) {a : Action} (h : ¬ ClearStep s a) :
    ¬ Fine (s.step a) := by
  cases a with
  | getHostEvent =>
    simp only [ClearStep, ne_eq, not_forall, not_not] at h
    obtain ⟨e, hpc, hfinal, hfull⟩ := h
    have hflushed := hs.closing e hpc hfinal
    have hget : s.buffer.getHostEvent =
        (s.buffer, (s.buffer.currentHostEventBufferSlice, s.buffer.sliceCapacity)) := by
      simp [TraceBuffer.getHostEvent, TraceBuffer.flushHostBuffer, hfull, hs.bounded, hflushed]
    intro hfine
    have hslot := (hfine.slot_exists e (s.buffer.currentHostEventBufferSlice, s.buffer.sliceCapacity)
      (by simp [State.step, hpc, hget])).2
    simp [State.step, hpc, hget] at hslot
  | test e => exact absurd trivial h
  | bufferHostEvent => exact absurd trivial h
  | finalize => exact absurd trivial h

theorem sound_iff_clear_of_stage (hs : Stage o s) (actions : List Action) :
    Sound s actions ↔ Clear s actions := by
  induction actions generalizing s with
  | nil => exact iff_of_true hs.fine trivial
  | cons a actions ih =>
    by_cases hclear : ClearStep s a
    · have hrest := ih (stage_step hs hclear)
      constructor
      · intro h
        exact ⟨hclear, hrest.mp h.2⟩
      · intro h
        exact ⟨hs.fine, hrest.mpr h.2⟩
    · refine iff_of_false (fun h => not_fine_of_not_clear hs hclear ?_) fun h => hclear h.1
      cases actions with
      | nil => exact h.2
      | cons a' actions => exact h.2.1

/-- Every state of a run on a bounded buffer is fine if `GetHostEvent` is never entered
with a full buffer that was finalized after the test, and only then. -/
theorem sound_iff_clear (szstr : Str) (o : Origin) (memory : Memory) (b : TraceBuffer)
    (hcreate : TraceBuffer.create szstr o memory = some b) (hbounded : b.bufferCapacity ≠ -1)
    (actions : List Action) : Sound { buffer := b } actions ↔ Clear { buffer := b } actions :=
  sound_iff_clear_of_stage (stage_create hcreate hbounded) actions

/-- The second callback passes its test, and then the full buffer is finalized. -/
def finalizedWhenFull : List Action :=
  [.test (plainEvent 1), .getHostEvent, .bufferHostEvent, .test (plainEvent 2), .finalize,
    .getHostEvent]

def oneSlot : TraceBuffer where
  bufferCapacity := 1
  sliceCapacity := 1
  origin := mainThread
  hostEventBuffer := fun _ _ => staleRecord

theorem sound_iff_clear_oneSlot :
    Sound { buffer := oneSlot } finalizedWhenFull ↔ Clear { buffer := oneSlot } finalizedWhenFull :=
  sound_iff_clear ['1'] mainThread (fun _ _ => staleRecord) oneSlot rfl (by decide) finalizedWhenFull

theorem not_sound_finalizedWhenFull :
    ¬ ∀ (szstr : Str) (o : Origin) (memory : Memory) (b : TraceBuffer),
      TraceBuffer.create szstr o memory = some b → b.bufferCapacity ≠ -1 →
      ∀ actions, Sound { buffer := b } actions := by
  intro h
  have hsound := h ['1'] mainThread (fun _ _ => staleRecord) oneSlot rfl (by decide) finalizedWhenFull
  have hcreate : TraceBuffer.create ['1'] mainThread (fun _ _ => staleRecord) = some oneSlot := rfl
  have hstage : Stage mainThread { buffer := oneSlot } := stage_create hcreate (by decide)
  have hclear := (sound_iff_clear_of_stage hstage finalizedWhenFull).mp hsound
  obtain ⟨-, -, -, -, -, hget, -⟩ := hclear
  exact hget (plainEvent 2) rfl rfl rfl

end Unitrace.Trace.LateFinalize
