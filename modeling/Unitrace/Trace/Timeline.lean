import Unitrace.Trace.TimelineValue
import Unitrace.Trace.TraceBuffers

/-!
# The timeline of a process

All threads of a process record events in buffers of their own, and the buffers are flushed
to one file: when they are full, when a thread exits and when the logger is torn down. After
the teardown the file has every recorded event once, the events of a thread in their order,
and it is read back as a JSON text with one object for each, member by member. A callback
and the teardown are one step each.
-/
namespace Unitrace.Trace.Timeline

open Unitrace.Lib.Text Unitrace.Lib.ByteString Unitrace.Lib.Utf8 Unitrace.Lib.Json
open Unitrace.Trace.Record Unitrace.Trace.Buffer Unitrace.Trace.TraceBuffers
open Unitrace.Trace.ChromeLog Unitrace.Trace.TimelineValue

/-- An event with the thread that recorded it. -/
abbrev Call := Nat × LoggedEvent

/-- The contents of the slot that a callback fills. -/
def slotOf (b : TraceBuffer) : HostEventRecord :=
  b.getHostEvent.1.hostEventBuffer b.getHostEvent.2.1 b.getHostEvent.2.2

def callOf (held : Held) (e : IttEvent) : Call :=
  (held.thread, ⟨held.buffer.origin, slotOf held.buffer, e⟩)

/-- The states of a process with the events recorded so far. A callback that finds its
buffer finalized records nothing. -/
inductive Traced : Registry → List Call → Prop where
  | start : Traced {} []
  | construct {r : Registry} {calls : List Call} {address : Nat} {b : TraceBuffer} (szstr : Str)
      (o : Origin) (memory : Memory) (h : Traced r calls) (hfree : r.live address = none)
      (hcreate : TraceBuffer.create szstr o memory = some b) :
      Traced (r.construct address b) calls
  | callback {r : Registry} {calls : List Call} {address : Nat} {held : Held} (e : IttEvent)
      (h : Traced r calls) (hlive : r.live address = some held) :
      Traced (r.callback address held e)
        (if held.buffer.finalized then calls else calls ++ [callOf held e])
  | destroy {r r' : Registry} {calls : List Call} {address : Nat} {held : Held}
      (h : Traced r calls) (hlive : r.live address = some held)
      (hdestroy : r.destroy address held = some r') : Traced r' calls
  | teardown {r r' : Registry} {calls : List Call} (h : Traced r calls)
      (hfinalize : r.finalizeAll = some r') : Traced r' calls

theorem Traced.reachable {r : Registry} {calls : List Call} (h : Traced r calls) : Reachable r := by
  induction h with
  | start => exact .refl
  | construct szstr o memory _ hfree hcreate ih => exact ih.tail (.construct szstr o memory hfree hcreate)
  | callback e _ hlive ih => exact ih.tail (.callback e hlive)
  | destroy _ hlive hdestroy ih => exact ih.tail (.destroy hlive hdestroy)
  | teardown _ hfinalize ih => exact ih.tail (.teardown hfinalize)

/-- The events of a thread in order. -/
def ofThread (calls : List Call) (thread : Nat) : List LoggedEvent :=
  (calls.filter fun call => call.1 = thread).map Prod.snd

def texts (events : List LoggedEvent) : List Bytes := events.map LoggedEvent.text

theorem ofThread_append (calls calls' : List Call) (thread : Nat) :
    ofThread (calls ++ calls') thread = ofThread calls thread ++ ofThread calls' thread := by
  rw [ofThread, List.filter_append, List.map_append]
  rfl

/-- Events of one thread, under its number. -/
theorem ofThread_map (thread t : Nat) (events : List LoggedEvent) :
    ofThread (events.map (Prod.mk thread)) t = if thread = t then events else [] := by
  by_cases h : thread = t
  · simp [ofThread, h, List.filter_map, Function.comp_def]
  · simp [ofThread, h]

/-! ## The log only grows -/

theorem log_flushHostBuffer (b : TraceBuffer) : b.log <+: b.flushHostBuffer.log := by
  unfold TraceBuffer.flushHostBuffer
  split
  · exact List.prefix_rfl
  · obtain ⟨memory, hflush⟩ := flushSlots_eq b
    simp only [hflush]
    exact List.prefix_append _ _

theorem log_getHostEvent (b : TraceBuffer) : b.log <+: b.getHostEvent.1.log := by
  unfold TraceBuffer.getHostEvent
  dsimp only
  split
  · split
    · exact List.prefix_rfl
    · exact log_flushHostBuffer b
  · exact List.prefix_rfl

theorem log_bufferHostEvent (b : TraceBuffer) : b.log <+: b.bufferHostEvent.log := by
  cases himm : b.flushImmediately with
  | true =>
    obtain ⟨memory, hb⟩ := bufferHostEvent_immediate himm
    rw [hb]
    exact List.prefix_append _ _
  | false =>
    simp only [bufferHostEvent_delayed himm, List.prefix_rfl]

theorem log_callback (b : TraceBuffer) (e : IttEvent) : b.log <+: (b.ittLoggingCallback e).log := by
  unfold TraceBuffer.ittLoggingCallback
  split
  · exact List.prefix_rfl
  · have hbuffer := log_bufferHostEvent
      (b.getHostEvent.1.setSlot b.getHostEvent.2 (e.fill (slotOf b)))
    exact (log_getHostEvent b).trans hbuffer

/-! ## The invariant -/

/-- The live buffers are those of different threads. -/
structure Numbered (r : Registry) : Prop where
  lt : ∀ p held, r.live p = some held → held.thread < r.threads
  inj : ∀ p q held held', r.live p = some held → r.live q = some held' →
    held.thread = held'.thread → p = q

theorem numbered_of_inv {r : Registry} (hi : TraceBuffers.Inv r) : Numbered r :=
  ⟨hi.thread_lt, hi.thread_inj⟩

theorem Numbered.of_eq {r r' : Registry} (h : Numbered r) (hlive : r'.live = r.live)
    (hthreads : r'.threads = r.threads) : Numbered r' :=
  ⟨by rw [hlive, hthreads]; exact h.lt, by rw [hlive]; exact h.inj⟩

theorem Numbered.update {r : Registry} (h : Numbered r) {address : Nat} {held : Held}
    (hheld : r.live address = some held) (b : TraceBuffer) :
    Numbered (r.update address held b) := by
  have hold : ∀ p held', (r.update address held b).live p = some held' →
      ∃ old, r.live p = some old ∧ old.thread = held'.thread := by
    intro p held' hp
    by_cases hpa : p = address
    · subst hpa
      simp only [Registry.update, Function.update_self, Option.some.injEq] at hp
      exact ⟨held, hheld, by rw [← hp]⟩
    · simp only [Registry.update, Function.update_of_ne hpa] at hp
      exact ⟨held', hp, rfl⟩
  refine ⟨fun p held' hp => ?_, fun p q heldp heldq hp hq hthread => ?_⟩
  · obtain ⟨old, hlive', hthread⟩ := hold p held' hp
    rw [← hthread]
    exact h.lt p old hlive'
  · obtain ⟨oldp, hlivep, hthreadp⟩ := hold p heldp hp
    obtain ⟨oldq, hliveq, hthreadq⟩ := hold q heldq hq
    exact h.inj p q oldp oldq hlivep hliveq (by rw [hthreadp, hthread, hthreadq])

/-- The buffer of a thread against the events that the thread recorded and those in the
file. -/
structure Progress (recorded logged : List LoggedEvent) (b : TraceBuffer) : Prop where
  log : b.log = texts logged
  sofar : logged <+: recorded
  opened : b.finalized = false → Buffer.Inv b.origin (texts recorded) b
  closed : b.finalized = true → logged = recorded

/-- The file has what the threads have flushed, and what is missing waits in the buffers. -/
structure Inv (r : Registry) (calls logged : List Call) : Prop where
  file : r.file = texts (logged.map Prod.snd)
  live : ∀ p held, r.live p = some held →
    Progress (ofThread calls held.thread) (ofThread logged held.thread) held.buffer
  gone : ∀ thread, (∀ p held, r.live p = some held → held.thread ≠ thread) →
    ofThread logged thread = ofThread calls thread
  new : ∀ thread, r.threads ≤ thread → ofThread calls thread = []

theorem Inv.start : Inv {} [] [] where
  file := rfl
  live := by simp
  gone := fun _ _ => rfl
  new := fun _ _ => rfl

theorem Inv.construct {r : Registry} {calls logged : List Call} (h : Inv r calls logged)
    (hi : Numbered r) {address : Nat} {szstr : Str} {o : Origin} {memory : Memory}
    {b : TraceBuffer} (hfree : r.live address = none)
    (hcreate : TraceBuffer.create szstr o memory = some b) :
    Inv (r.construct address b) calls logged := by
  have hb := create_inv hcreate
  have hnone : ofThread calls r.threads = [] := h.new _ (Nat.le_refl _)
  have hlogged : ofThread logged r.threads = [] := by
    refine (h.gone _ fun p held hlive => ?_).trans hnone
    exact Nat.ne_of_lt (hi.lt p held hlive)
  refine ⟨h.file, fun p held hlive => ?_, fun thread hthread => ?_,
    fun thread hthread => h.new thread (Nat.le_of_succ_le hthread)⟩
  · rcases live_construct hlive with ⟨rfl, hthread⟩ | hold
    · have hheld : held.buffer = b := by
        simp only [Registry.construct, Function.update_self, Option.some.injEq] at hlive
        rw [← hlive]
      rw [hthread, hnone, hlogged, hheld]
      exact ⟨(List.append_eq_nil_iff.mp hb.recorded).1, List.prefix_rfl, fun _ => hb.origin ▸ hb,
        fun _ => rfl⟩
    · exact h.live p held hold
  · refine h.gone thread fun p held hlive => hthread p held ?_
    have hp : p ≠ address := by
      rintro rfl
      rw [hfree] at hlive
      cases hlive
    simp only [Registry.construct, Function.update_of_ne hp]
    exact hlive

/-- A step of one buffer that logs more of what its thread has recorded. -/
structure Advance (calls calls' : List Call) (held : Held) (b : TraceBuffer) : Prop where
  others : ∀ thread, thread ≠ held.thread → ofThread calls' thread = ofThread calls thread
  calls : ofThread calls held.thread <+: ofThread calls' held.thread
  log : held.buffer.log <+: b.log
  sofar : b.log <+: texts (ofThread calls' held.thread)
  opened : b.finalized = false → Buffer.Inv b.origin (texts (ofThread calls' held.thread)) b
  closed : b.finalized = true → b.log = texts (ofThread calls' held.thread)

/-- The next events of a thread go behind the others. -/
theorem exists_more {logged : List Call} {thread n m : Nat} {events : List LoggedEvent}
    (hold : ofThread logged thread = events.take n) (hnm : n ≤ m) :
    ∃ logged' : List Call, logged'.map Prod.snd = logged.map Prod.snd ++ (events.take m).drop n ∧
      ofThread logged' thread = events.take m ∧
      ∀ t, t ≠ thread → ofThread logged' t = ofThread logged t := by
  refine ⟨logged ++ ((events.take m).drop n).map (Prod.mk thread), ?_, ?_, fun t hne => ?_⟩
  · simp [Function.comp_def]
  · have htake : events.take n = (events.take m).take n := by
      rw [List.take_take, Nat.min_eq_left hnm]
    rw [ofThread_append, ofThread_map, if_pos rfl, hold, htake, List.take_append_drop]
  · rw [ofThread_append, ofThread_map, if_neg (Ne.symm hne), List.append_nil]

/-- What a step logs goes behind what is in the file. -/
theorem Inv.update {r : Registry} {calls calls' logged : List Call} (h : Inv r calls logged)
    (hi : Numbered r) {address : Nat} {held : Held} {b : TraceBuffer}
    (hlive : r.live address = some held) (ha : Advance calls calls' held b) :
    ∃ logged', Inv (r.update address held b) calls' logged' := by
  have hprogress := h.live address held hlive
  have hold : ofThread logged held.thread =
      (ofThread calls' held.thread).take held.buffer.log.length := by
    rw [hprogress.log, texts, List.length_map]
    exact List.prefix_iff_eq_take.mp (hprogress.sofar.trans ha.calls)
  have hlog : b.log = texts ((ofThread calls' held.thread).take b.log.length) := by
    rw [texts, List.map_take]
    exact List.prefix_iff_eq_take.mp ha.sofar
  obtain ⟨logged', hfile, hself, hother⟩ := exists_more hold ha.log.length_le
  refine ⟨logged', ?_, fun p held' hp => ?_, fun thread hgone => ?_, fun thread hthread => ?_⟩
  · have hdrop : b.log.drop held.buffer.log.length =
        texts (((ofThread calls' held.thread).take b.log.length).drop held.buffer.log.length) := by
      conv_lhs => rw [hlog]
      rw [texts, ← List.map_drop]
      rfl
    rw [Registry.update, hdrop, h.file, hfile, texts, texts, texts, List.map_append]
  · by_cases hpa : p = address
    · subst hpa
      simp only [Registry.update, Function.update_self, Option.some.injEq] at hp
      subst hp
      dsimp only
      rw [hself]
      refine ⟨hlog, List.take_prefix _ _, ha.opened, fun hfinal => ?_⟩
      have hall := congrArg List.length (ha.closed hfinal)
      rw [texts, List.length_map] at hall
      rw [hall, List.take_length]
    · simp only [Registry.update, Function.update_of_ne hpa] at hp
      have hne : held'.thread ≠ held.thread :=
        fun heq => hpa (hi.inj p address held' held hp hlive heq)
      rw [hother _ hne, ha.others _ hne]
      exact h.live p held' hp
  · have hne : thread ≠ held.thread := by
      rintro rfl
      exact hgone address _ (Function.update_self ..) rfl
    rw [hother _ hne, ha.others _ hne]
    refine h.gone thread fun p held' hp => ?_
    by_cases hpa : p = address
    · subst hpa
      cases hlive.symm.trans hp
      exact hne.symm
    · refine hgone p held' ?_
      simp only [Registry.update, Function.update_of_ne hpa]
      exact hp
  · have hne : thread ≠ held.thread := by
      have hlt := hi.lt address held hlive
      have hle : r.threads ≤ thread := hthread
      omega
    rw [ha.others _ hne]
    exact h.new thread hthread

/-! ## The steps of one buffer -/

section

variable {calls : List Call} {held : Held} {logged : List LoggedEvent}

theorem Progress.log_prefix {recorded : List LoggedEvent} {b : TraceBuffer}
    (h : Progress recorded logged b) : b.log <+: texts recorded := by
  rw [h.log]
  exact h.sofar.map _

/-- A finalized buffer does not change. -/
theorem Progress.advance_finalized (h : Progress (ofThread calls held.thread) logged held.buffer)
    (hfinal : held.buffer.finalized = true) : Advance calls calls held held.buffer where
  others := fun _ _ => rfl
  calls := List.prefix_rfl
  log := List.prefix_rfl
  sofar := h.log_prefix
  opened := h.opened
  closed := fun _ => h.log.trans (congrArg texts (h.closed hfinal))

/-- A flush at the end of a buffer logs all that its thread has recorded. -/
theorem Progress.advance_all (h : Progress (ofThread calls held.thread) logged held.buffer)
    {b : TraceBuffer} (hfinal : b.finalized = true)
    (hlog : b.log = texts (ofThread calls held.thread)) : Advance calls calls held b where
  others := fun _ _ => rfl
  calls := List.prefix_rfl
  log := hlog ▸ h.log_prefix
  sofar := hlog ▸ List.prefix_rfl
  opened := fun hopen => absurd (hopen.symm.trans hfinal) Bool.false_ne_true
  closed := fun _ => hlog

theorem Progress.advance_finalize
    (h : Progress (ofThread calls held.thread) logged held.buffer) :
    Advance calls calls held held.buffer.finalize := by
  cases hfinal : held.buffer.finalized with
  | true =>
    have hsame : held.buffer.finalize = held.buffer := by simp [TraceBuffer.finalize, hfinal]
    rw [hsame]
    exact h.advance_finalized hfinal
  | false =>
    obtain ⟨hlog, hclosed⟩ := finalize_log (h.opened hfinal)
    exact h.advance_all hclosed hlog

theorem finalized_destroy (b : TraceBuffer) : b.destroy.finalized = true := by
  unfold TraceBuffer.destroy
  split
  · assumption
  · obtain ⟨memory, hflush⟩ := flushSlots_eq { b with finalized := true }
    simp only [hflush]
    split <;> rfl

theorem Progress.advance_destroy
    (h : Progress (ofThread calls held.thread) logged held.buffer) :
    Advance calls calls held held.buffer.destroy := by
  cases hfinal : held.buffer.finalized with
  | true =>
    rw [destroy_finalized hfinal]
    exact h.advance_finalized hfinal
  | false =>
    obtain ⟨hlog, -⟩ := finalize_log (h.opened hfinal)
    exact h.advance_all (finalized_destroy _) ((destroy_log hfinal).trans hlog)

theorem ofThread_callOf (calls : List Call) (held : Held) (e : IttEvent) :
    ofThread (calls ++ [callOf held e]) held.thread =
      ofThread calls held.thread ++ [⟨held.buffer.origin, slotOf held.buffer, e⟩] := by
  rw [ofThread_append]
  simp [ofThread, callOf]

theorem Progress.advance_callback
    (h : Progress (ofThread calls held.thread) logged held.buffer)
    (hopen : held.buffer.finalized = false) (e : IttEvent) :
    Advance calls (calls ++ [callOf held e]) held (held.buffer.ittLoggingCallback e) := by
  have hcallback := callback_inv (h.opened hopen) e
  have htexts : texts (ofThread (calls ++ [callOf held e]) held.thread) =
      texts (ofThread calls held.thread) ++ [e.text held.buffer.origin] := by
    rw [ofThread_callOf, texts, List.map_append, List.map_singleton, text_eq]
    rfl
  refine ⟨fun thread hne => ?_, ?_, log_callback _ e, ?_, fun _ => ?_, fun hfinal => ?_⟩
  · rw [ofThread_append]
    simp [ofThread, callOf, hne.symm]
  · rw [ofThread_callOf]
    exact List.prefix_append _ _
  · rw [htexts, ← hcallback.recorded]
    exact List.prefix_append _ _
  · rw [htexts, hcallback.origin]
    exact hcallback
  · rw [finalized_callback, hopen] at hfinal
    cases hfinal

end

/-! ## The runs -/

theorem Inv.of_eq {r r' : Registry} {calls logged : List Call} (h : Inv r calls logged)
    (hfile : r'.file = r.file) (hlive : r'.live = r.live) (hthreads : r'.threads = r.threads) :
    Inv r' calls logged where
  file := hfile.trans h.file
  live := hlive ▸ h.live
  gone := hlive ▸ h.gone
  new := hthreads ▸ h.new

/-- The thread of a finalized buffer has everything in the file. -/
theorem Inv.remove {r r' : Registry} {calls logged : List Call} (h : Inv r calls logged)
    {address : Nat} {held : Held} (hheld : r.live address = some held)
    (hfinal : held.buffer.finalized = true) (hfile : r'.file = r.file)
    (hlive : r'.live = Function.update r.live address none) (hthreads : r'.threads = r.threads) :
    Inv r' calls logged where
  file := hfile.trans h.file
  live := by
    intro p held' hp
    rw [hlive] at hp
    by_cases hpa : p = address
    · rw [hpa, Function.update_self] at hp
      cases hp
    · rw [Function.update_of_ne hpa] at hp
      exact h.live p held' hp
  gone := by
    intro thread hgone
    by_cases hthread : held.thread = thread
    · rw [← hthread]
      exact (h.live address held hheld).closed hfinal
    · refine h.gone thread fun p held' hp => ?_
      by_cases hpa : p = address
      · subst hpa
        cases hheld.symm.trans hp
        exact hthread
      · refine hgone p held' ?_
        rw [hlive, Function.update_of_ne hpa]
        exact hp
  new := hthreads ▸ h.new

theorem destroy_eq {r r' : Registry} {address : Nat} {held : Held}
    (h : r.destroy address held = some r') :
    r'.file = (r.update address held held.buffer.destroy).file ∧
      r'.live = Function.update r.live address none ∧ r'.threads = r.threads := by
  unfold Registry.destroy at h
  dsimp only at h
  split at h
  · obtain rfl := Option.some.inj h
    exact ⟨rfl, rfl, rfl⟩
  · obtain ⟨set, -, rfl⟩ := Option.map_eq_some_iff.mp h
    split <;> exact ⟨rfl, rfl, rfl⟩

theorem Inv.destroy {r r' : Registry} {calls logged : List Call} (h : Inv r calls logged)
    (hi : Numbered r) {address : Nat} {held : Held} (hlive : r.live address = some held)
    (hdestroy : r.destroy address held = some r') : ∃ logged', Inv r' calls logged' := by
  obtain ⟨hfile, hgone, hthreads⟩ := destroy_eq hdestroy
  obtain ⟨logged', hupdated⟩ := h.update hi hlive (h.live address held hlive).advance_destroy
  refine ⟨logged', hupdated.remove (Function.update_self ..) (finalized_destroy _) hfile ?_ hthreads⟩
  rw [hgone, Registry.update, Function.update_idem]

theorem finalizeLoop_inv {set : List Nat} {r r' : Registry} {calls : List Call}
    (h : ∃ logged, Inv r calls logged) (hi : Numbered r)
    (hloop : Registry.finalizeLoop set r = some r') : ∃ logged, Inv r' calls logged := by
  obtain ⟨logged, h⟩ := h
  induction set generalizing r logged with
  | nil =>
    obtain rfl := Option.some.inj hloop
    exact ⟨logged, h.of_eq rfl rfl rfl⟩
  | cons address rest ih =>
    rw [Registry.finalizeLoop] at hloop
    split at hloop
    · cases hloop
    · rename_i held hlive
      obtain ⟨logged', hupdated⟩ := h.update hi hlive (h.live address held hlive).advance_finalize
      have hnumbered := hi.update hlive held.buffer.finalize
      refine ih ?_ hloop logged' ?_
      · exact hnumbered.of_eq (by split <;> rfl) (by split <;> rfl)
      · exact hupdated.of_eq (by split <;> rfl) (by split <;> rfl) (by split <;> rfl)

theorem Inv.finalizeAll {r r' : Registry} {calls logged : List Call} (h : Inv r calls logged)
    (hi : Numbered r) (hfinalize : r.finalizeAll = some r') : ∃ logged', Inv r' calls logged' := by
  unfold Registry.finalizeAll at hfinalize
  split at hfinalize
  · obtain rfl := Option.some.inj hfinalize
    exact ⟨logged, h⟩
  · exact finalizeLoop_inv ⟨logged, h⟩ hi hfinalize

theorem Traced.inv {r : Registry} {calls : List Call} (h : Traced r calls) :
    ∃ logged, Inv r calls logged := by
  induction h with
  | start => exact ⟨[], Inv.start⟩
  | construct szstr o memory h hfree hcreate ih =>
    obtain ⟨logged, hlogged⟩ := ih
    exact ⟨logged, hlogged.construct (numbered_of_inv h.reachable.inv) hfree hcreate⟩
  | @callback r calls address held e h hlive ih =>
    obtain ⟨logged, hlogged⟩ := ih
    have hprogress := hlogged.live address held hlive
    refine hlogged.update (numbered_of_inv h.reachable.inv) hlive ?_
    cases hfinal : held.buffer.finalized with
    | true =>
      have hsame : held.buffer.ittLoggingCallback e = held.buffer := by
        simp [TraceBuffer.ittLoggingCallback, hfinal]
      rw [hsame]
      exact hprogress.advance_finalized hfinal
    | false => exact hprogress.advance_callback hfinal e
  | destroy h hlive hdestroy ih =>
    obtain ⟨logged, hlogged⟩ := ih
    exact hlogged.destroy (numbered_of_inv h.reachable.inv) hlive hdestroy
  | teardown h hfinalize ih =>
    obtain ⟨logged, hlogged⟩ := ih
    exact hlogged.finalizeAll (numbered_of_inv h.reachable.inv) hfinalize

/-! ## The file after the teardown -/

theorem registered_finalizeLoop {set : List Nat} {r r' : Registry}
    (h : Registry.finalizeLoop set r = some r') : r'.registered = [] := by
  induction set generalizing r with
  | nil =>
    obtain rfl := Option.some.inj h
    rfl
  | cons address rest ih =>
    rw [Registry.finalizeLoop] at h
    split at h
    · cases h
    · exact ih h

theorem registered_finalizeAll {r r' : Registry} (h : r.finalizeAll = some r') :
    r'.registered = [] := by
  unfold Registry.finalizeAll at h
  split at h
  · rename_i hnull
    obtain rfl := Option.some.inj h
    rw [Registry.registered, hnull, Option.getD_none]
  · exact registered_finalizeLoop h

/-- The teardown leaves every recorded event in the file, the events of each thread in their
order. -/
theorem file_of_teardown {r r' : Registry} {calls : List Call} (h : Traced r calls)
    (hfinalize : r.finalizeAll = some r') :
    ∃ logged : List Call, r'.file = texts (logged.map Prod.snd) ∧
      ∀ thread, ofThread logged thread = ofThread calls thread := by
  have htraced : Traced r' calls := .teardown h hfinalize
  obtain ⟨logged, hi⟩ := htraced.inv
  refine ⟨logged, hi.file, fun thread => ?_⟩
  by_cases hlive : ∃ p held, r'.live p = some held ∧ held.thread = thread
  · obtain ⟨p, held, hp, rfl⟩ := hlive
    refine (hi.live p held hp).closed ?_
    by_contra hopen
    have hmem := (htraced.reachable.inv.registered_iff p).mpr
      ⟨held, hp, Bool.eq_false_iff.mpr hopen⟩
    rw [registered_finalizeAll hfinalize] at hmem
    cases hmem
  · exact hi.gone thread fun p held hp heq => hlive ⟨p, held, hp, heq⟩

/-- The file that the destructor of the logger leaves behind. -/
def timelineFile (l : Launch) (r : Registry) : Option Bytes :=
  closeLog (constructorText l).length (constructorText l ++ r.file.flatten)

theorem timelineFile_eq (l : Launch) {r : Registry} {events : List LoggedEvent}
    (h : r.file = texts events) :
    timelineFile l r = if events = [] then none else some (traceText l events) := by
  rw [timelineFile, h, texts, ← List.flatMap_def]
  exact traceFile_eq l events

theorem mem_of_ofThread {calls logged : List Call}
    (h : ∀ thread, ofThread logged thread = ofThread calls thread) {e : LoggedEvent}
    (he : e ∈ logged.map Prod.snd) : e ∈ calls.map Prod.snd := by
  obtain ⟨call, hcall, rfl⟩ := List.mem_map.mp he
  have hmem : call.2 ∈ ofThread logged call.1 :=
    List.mem_map_of_mem (List.mem_filter.mpr ⟨hcall, decide_eq_true rfl⟩)
  rw [h] at hmem
  obtain ⟨call', hcall', heq⟩ := List.mem_map.mp hmem
  exact heq ▸ List.mem_map_of_mem (List.mem_of_mem_filter hcall')

theorem logged_eq_nil_iff {calls logged : List Call}
    (h : ∀ thread, ofThread logged thread = ofThread calls thread) :
    logged.map Prod.snd = [] ↔ calls = [] := by
  constructor
  · intro hnil
    by_contra hne
    obtain ⟨call, hcall⟩ := List.exists_mem_of_ne_nil _ hne
    have hmem := mem_of_ofThread (fun thread => (h thread).symm) (List.mem_map_of_mem hcall)
    rw [hnil] at hmem
    cases hmem
  · rintro rfl
    by_contra hne
    obtain ⟨e, he⟩ := List.exists_mem_of_ne_nil _ hne
    cases mem_of_ofThread h he

/-! ## A run of two threads -/

/-- Two threads record an event each, and the first one exits. -/
def twoThreads : Registry :=
  (((({} : Registry).construct 1 smallBuffer).construct 2 smallBuffer).callback 1 ⟨0, smallBuffer⟩
    (plainEvent 1)).callback 2 ⟨1, smallBuffer⟩ (plainEvent 2)

def oneLeft : Registry :=
  (twoThreads.destroy 1 ⟨0, smallBuffer.ittLoggingCallback (plainEvent 1)⟩).getD {}

/-- What the two threads record. -/
def twoCalls : List Call :=
  [callOf ⟨0, smallBuffer⟩ (plainEvent 1), callOf ⟨1, smallBuffer⟩ (plainEvent 2)]

theorem traced_oneLeft : Traced oneLeft twoCalls := by
  have hconstruct (r : Registry) (calls : List Call) (address : Nat) (h : Traced r calls)
      (hfree : r.live address = none) : Traced (r.construct address smallBuffer) calls :=
    .construct ['2'] mainThread (fun _ _ => staleRecord) h hfree rfl
  have hstart := hconstruct _ _ 2 (hconstruct {} [] 1 .start rfl) rfl
  have hlive : ((({} : Registry).construct 1 smallBuffer).construct 2 smallBuffer).live 1 =
      some ⟨0, smallBuffer⟩ := rfl
  have hlive' : (((({} : Registry).construct 1 smallBuffer).construct 2 smallBuffer).callback 1
      ⟨0, smallBuffer⟩ (plainEvent 1)).live 2 = some ⟨1, smallBuffer⟩ := rfl
  have hcalls : Traced twoThreads twoCalls :=
    .callback (plainEvent 2) (.callback (plainEvent 1) hstart hlive) hlive'
  have hexit : twoThreads.destroy 1 ⟨0, smallBuffer.ittLoggingCallback (plainEvent 1)⟩ =
      some oneLeft := rfl
  exact .destroy hcalls rfl hexit

def afterTeardown : Registry := oneLeft.finalizeAll.getD {}

theorem finalizeAll_oneLeft : oneLeft.finalizeAll = some afterTeardown := rfl

theorem readable_twoCalls : ∀ e ∈ twoCalls.map Prod.snd, isReadable e.event = true := by
  decide +kernel

theorem literal_sampleLabel : isLiteralBody sampleLaunch.label = true := by decide +kernel

/-! ## The result -/

/-- After the teardown there is no file, or the text of all recorded events. -/
theorem exists_logged (l : Launch) {r r' : Registry} {calls : List Call} (h : Traced r calls)
    (hfinalize : r.finalizeAll = some r') :
    ∃ logged : List Call, (∀ thread, ofThread logged thread = ofThread calls thread) ∧
      timelineFile l r' = if calls = [] then none else some (traceText l (logged.map Prod.snd)) := by
  obtain ⟨logged, hfile, hthreads⟩ := file_of_teardown h hfinalize
  refine ⟨logged, hthreads, ?_⟩
  rw [timelineFile_eq l hfile]
  exact if_congr (logged_eq_nil_iff hthreads) rfl rfl

/-- Whatever the threads do and in whatever order, the teardown leaves no file if no event was
recorded, and otherwise one that reads back as the process entry and the objects of all
recorded events, the events of a thread in their order, given that the strings read back. -/
theorem timeline_complete {l : Launch} {r r' : Registry} {calls : List Call} (h : Traced r calls)
    (hfinalize : r.finalizeAll = some r') (hlabel : isLiteralBody l.label = true)
    (hreadable : ∀ e ∈ calls.map Prod.snd, isReadable e.event = true) :
    (calls = [] → timelineFile l r' = none) ∧
    (calls ≠ [] → ∃ file text, timelineFile l r' = some file ∧ decode file = some text ∧
      ∃ logged : List Call, (∀ thread, ofThread logged thread = ofThread calls thread) ∧
        parse text = some (timeline l (logged.map Prod.snd))) := by
  obtain ⟨logged, hthreads, hfile⟩ := exists_logged l h hfinalize
  constructor
  · intro hnil
    rw [hfile, if_pos hnil]
  · intro hne
    rw [if_neg hne] at hfile
    obtain ⟨text, hdecode, hparse⟩ :=
      parse_traceText hlabel fun e he => hreadable e (mem_of_ofThread hthreads he)
    exact ⟨_, text, hfile, hdecode, logged, hthreads, hparse⟩

theorem timeline_complete_two : ∃ file text logged,
    timelineFile sampleLaunch afterTeardown = some file ∧ decode file = some text ∧
    (∀ thread, ofThread logged thread = ofThread twoCalls thread) ∧
    parse text = some (timeline sampleLaunch (logged.map Prod.snd)) := by
  obtain ⟨file, text, hfile, hdecode, logged, hthreads, hparse⟩ :=
    (timeline_complete traced_oneLeft finalizeAll_oneLeft literal_sampleLabel readable_twoCalls).2
      (List.cons_ne_nil _ _)
  exact ⟨file, text, logged, hfile, hdecode, hthreads, hparse⟩

end Unitrace.Trace.Timeline
