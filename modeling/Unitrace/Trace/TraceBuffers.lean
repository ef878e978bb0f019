import Mathlib.Data.Set.Basic
import Mathlib.Logic.Function.Basic
import Mathlib.Logic.Relation
import Unitrace.Lib.OrderedSet
import Unitrace.Trace.Buffer

/-!
# The registry of trace buffers

The buffers of all threads register themselves in `trace_buffers_`. The constructor,
the destructor and the loop of `~ChromeLogger` hold the logger lock, so each of them
is one step. A buffer is known by its address; the address may be used again after
the thread has gone.
-/
namespace Unitrace.Trace.TraceBuffers

open Unitrace.Lib.Text Unitrace.Lib.ByteString Unitrace.Lib.OrderedSet
open Unitrace.Trace.Record Unitrace.Trace.Buffer

/-- The buffer of a thread; the threads are numbered in the order of construction. -/
structure Held where
  thread : Nat
  buffer : TraceBuffer

inductive FlushedBy where
  | destructor
  | teardown
  deriving DecidableEq

structure Registry where
  /-- The buffers that are constructed and not destroyed, by address. -/
  live : Nat → Option Held := fun _ => none
  /-- How many threads have constructed their buffer. -/
  threads : Nat := 0
  /-- `trace_buffers_` in the order of the set; null before the first construction. -/
  traceBuffers : Option (List Nat) := none
  /-- What has been passed to `logger_`. -/
  file : List Bytes := []
  /-- Which threads had their buffer flushed by the destructor or by the teardown. -/
  flushed : List (Nat × FlushedBy) := []

/-- The addresses in the registry. -/
def Registry.registered (r : Registry) : List Nat := r.traceBuffers.getD []

/-- The buffer at `address` becomes `b`, which has logged more. -/
def Registry.update (r : Registry) (address : Nat) (held : Held) (b : TraceBuffer) : Registry :=
  { r with
    live := Function.update r.live address (some { held with buffer := b })
    file := r.file ++ b.log.drop held.buffer.log.length }

/-- `finalize` and `destroy` run their flushing loops. -/
def flushes (b : TraceBuffer) : Bool := !b.finalized && !b.hostEventBufferFlushed

/-! ## The steps -/

/-- The constructor at a free address. -/
def Registry.construct (r : Registry) (address : Nat) (b : TraceBuffer) : Registry :=
  { r with
    live := Function.update r.live address (some ⟨r.threads, b⟩)
    threads := r.threads + 1
    traceBuffers := some (insertNew (fun p q => decide (p < q)) address r.registered) }

/-- The destructor. There is no result when it erases from a null set. -/
def Registry.destroy (r : Registry) (address : Nat) (held : Held) : Option Registry :=
  let r' := { r.update address held held.buffer.destroy with
    live := Function.update r.live address none }
  if held.buffer.finalized then some r'
  else
    let r' := if flushes held.buffer
      then { r' with flushed := r'.flushed ++ [(held.thread, .destructor)] } else r'
    r'.traceBuffers.map fun set => { r' with traceBuffers := some (set.erase address) }

/-- A callback of the thread whose buffer is at `address`. -/
def Registry.callback (r : Registry) (address : Nat) (held : Held) (e : IttEvent) : Registry :=
  r.update address held (held.buffer.ittLoggingCallback e)

/-- The loop of `~ChromeLogger` over what is left of the set. There is no result when it
finalizes a buffer that does not exist any more. -/
def Registry.finalizeLoop : List Nat → Registry → Option Registry
  | [], r => some { r with traceBuffers := some [] }
  | address :: rest, r =>
    match r.live address with
    | none => none
    | some held =>
      let r' := r.update address held held.buffer.finalize
      let r' := if flushes held.buffer
        then { r' with flushed := r'.flushed ++ [(held.thread, .teardown)] } else r'
      Registry.finalizeLoop rest { r' with traceBuffers := some rest }

def Registry.finalizeAll (r : Registry) : Option Registry :=
  match r.traceBuffers with
  | none => some r
  | some set => Registry.finalizeLoop set r

/-- The steps of all threads, in any order. -/
inductive Step : Registry → Registry → Prop where
  | construct {r : Registry} {address : Nat} {b : TraceBuffer} (szstr : Str) (o : Origin)
      (memory : Memory) (hfree : r.live address = none)
      (hcreate : TraceBuffer.create szstr o memory = some b) : Step r (r.construct address b)
  | callback {r : Registry} {address : Nat} {held : Held} (e : IttEvent)
      (hlive : r.live address = some held) : Step r (r.callback address held e)
  | destroy {r r' : Registry} {address : Nat} {held : Held} (hlive : r.live address = some held)
      (hdestroy : r.destroy address held = some r') : Step r r'
  | teardown {r r' : Registry} (hfinalize : r.finalizeAll = some r') : Step r r'

/-- The states of a process in which no thread has used its buffer at first. -/
def Reachable (r : Registry) : Prop := Relation.ReflTransGen Step {} r

/-! ## The invariant -/

/-- `trace_buffers_` holds the buffers that are not finalized, and whatever the destructor
or the teardown has flushed is finalized. -/
structure Inv (r : Registry) : Prop where
  registered_iff : ∀ p, p ∈ r.registered ↔ ∃ held, r.live p = some held ∧ held.buffer.finalized = false
  ascending : r.registered.Pairwise (· < ·)
  thread_lt : ∀ p held, r.live p = some held → held.thread < r.threads
  thread_inj : ∀ p q held held', r.live p = some held → r.live q = some held' →
    held.thread = held'.thread → p = q
  flushed_lt : ∀ f ∈ r.flushed, f.1 < r.threads
  flushed_finalized : ∀ f ∈ r.flushed, ∀ p held, r.live p = some held → held.thread = f.1 →
    held.buffer.finalized = true
  flushed_once : (r.flushed.map Prod.fst).Nodup

theorem empty_inv : Inv {} where
  registered_iff := by simp [Registry.registered]
  ascending := List.Pairwise.nil
  thread_lt := by simp
  thread_inj := by simp
  flushed_lt := by simp
  flushed_finalized := by simp
  flushed_once := List.nodup_nil

theorem finalized_finalize (b : TraceBuffer) : b.finalize.finalized = true := by
  unfold TraceBuffer.finalize
  split
  · assumption
  · obtain ⟨memory, hflush⟩ := flushSlots_eq { b with finalized := true }
    simp only [hflush]
    split <;> rfl

theorem finalized_flushHostBuffer (b : TraceBuffer) :
    b.flushHostBuffer.finalized = b.finalized := by
  unfold TraceBuffer.flushHostBuffer
  obtain ⟨memory, hflush⟩ := flushSlots_eq b
  split
  · rfl
  · simp only [hflush]

theorem finalized_getHostEvent (b : TraceBuffer) : b.getHostEvent.1.finalized = b.finalized := by
  unfold TraceBuffer.getHostEvent
  simp only
  split
  · split
    · rfl
    · exact finalized_flushHostBuffer b
  · rfl

theorem finalized_callback (b : TraceBuffer) (e : IttEvent) :
    (b.ittLoggingCallback e).finalized = b.finalized := by
  unfold TraceBuffer.ittLoggingCallback TraceBuffer.bufferHostEvent
  split
  · rfl
  · simp only
    split
    · exact finalized_getHostEvent b
    · exact finalized_getHostEvent b

/-- After the constructor a buffer is the new one or an old one. -/
theorem live_construct {r : Registry} {address : Nat} {b : TraceBuffer} {p : Nat} {held : Held}
    (hlive : (r.construct address b).live p = some held) :
    p = address ∧ held.thread = r.threads ∨ r.live p = some held := by
  simp only [Registry.construct] at hlive
  by_cases hp : p = address
  · rw [hp, Function.update_self, Option.some.injEq] at hlive
    rw [← hlive]
    exact Or.inl ⟨hp, rfl⟩
  · rw [Function.update_of_ne hp] at hlive
    exact Or.inr hlive

/-- The constructor registers the new buffer. -/
theorem construct_inv {r : Registry} (hi : Inv r) {address : Nat} {b : TraceBuffer}
    (hfree : r.live address = none) (hopen : b.finalized = false) :
    Inv (r.construct address b) where
  registered_iff := by
    intro p
    have hmem : p ∈ (r.construct address b).registered ↔ p = address ∨ p ∈ r.registered := by
      refine ⟨mem_insertNew, ?_⟩
      rintro (rfl | hp)
      · refine self_mem_insertNew fun q _ => ?_
        simp only [decide_eq_true_eq]
        omega
      · exact mem_insertNew_of_mem hp
    rw [hmem, hi.registered_iff]
    by_cases hp : p = address
    · subst hp
      simp [Registry.construct, hopen]
    · simp [Registry.construct, hp]
  ascending := by
    have hasc : r.registered.Pairwise fun p q => decide (p < q) = true := by
      simpa using hi.ascending
    refine (pairwise_insertNew (fun a b c hab hbc => ?_) hasc).imp fun h => of_decide_eq_true h
    simp only [decide_eq_true_eq] at hab hbc ⊢
    omega
  thread_lt := by
    intro p held hlive
    rcases live_construct hlive with ⟨-, hnew⟩ | hold
    · rw [hnew]
      exact Nat.lt_succ_self _
    · exact Nat.lt_succ_of_lt (hi.thread_lt p held hold)
  thread_inj := by
    intro p q held held' hp hq hthread
    rcases live_construct hp with ⟨hpa, hnew⟩ | hold
    · rcases live_construct hq with ⟨hqa, -⟩ | hold'
      · rw [hpa, hqa]
      · have hlt := hi.thread_lt q held' hold'
        rw [← hthread, hnew] at hlt
        exact absurd hlt (Nat.lt_irrefl _)
    · rcases live_construct hq with ⟨-, hnew'⟩ | hold'
      · have hlt := hi.thread_lt p held hold
        rw [hthread, hnew'] at hlt
        exact absurd hlt (Nat.lt_irrefl _)
      · exact hi.thread_inj p q held held' hold hold' hthread
  flushed_lt := fun f hf => Nat.lt_succ_of_lt (hi.flushed_lt f hf)
  flushed_finalized := by
    intro f hf p held hp hthread
    rcases live_construct hp with ⟨-, hnew⟩ | hold
    · have hlt := hi.flushed_lt f hf
      rw [← hthread, hnew] at hlt
      exact absurd hlt (Nat.lt_irrefl _)
    · exact hi.flushed_finalized f hf p held hold hthread
  flushed_once := hi.flushed_once

/-- A step that keeps the thread of a buffer and whether it is finalized. -/
theorem update_inv {r : Registry} (hi : Inv r) {address : Nat} {held : Held}
    (hlive : r.live address = some held) {b : TraceBuffer}
    (hb : b.finalized = held.buffer.finalized) : Inv (r.update address held b) := by
  have hsame : ∀ p held', (r.update address held b).live p = some held' →
      ∃ old, r.live p = some old ∧ old.thread = held'.thread ∧
        held'.buffer.finalized = old.buffer.finalized := by
    intro p held' hp
    by_cases hpa : p = address
    · subst hpa
      simp only [Registry.update, Function.update_self, Option.some.injEq] at hp
      subst hp
      exact ⟨held, hlive, rfl, hb⟩
    · simp only [Registry.update, Function.update_of_ne hpa] at hp
      exact ⟨held', hp, rfl, rfl⟩
  refine ⟨fun p => ?_, hi.ascending, ?_, ?_, hi.flushed_lt, ?_, hi.flushed_once⟩
  · have hregistered : p ∈ (r.update address held b).registered ↔ p ∈ r.registered := Iff.rfl
    rw [hregistered, hi.registered_iff]
    by_cases hpa : p = address
    · subst hpa
      simp [Registry.update, hlive, hb]
    · simp [Registry.update, hpa]
  · intro p held' hp
    obtain ⟨old, hold, hthread, -⟩ := hsame p held' hp
    rw [← hthread]
    exact hi.thread_lt p old hold
  · intro p q heldp heldq hp hq hthread
    obtain ⟨oldp, holdp, hthreadp, -⟩ := hsame p heldp hp
    obtain ⟨oldq, holdq, hthreadq, -⟩ := hsame q heldq hq
    exact hi.thread_inj p q oldp oldq holdp holdq (by rw [hthreadp, hthreadq, hthread])
  · intro f hf p held' hp hthread
    obtain ⟨old, hold, holdthread, hfinal⟩ := hsame p held' hp
    rw [hfinal]
    exact hi.flushed_finalized f hf p old hold (holdthread.trans hthread)

/-- The events of an open buffer have not been flushed yet. -/
theorem Inv.not_flushed {r : Registry} (hi : Inv r) {address : Nat} {held : Held}
    (hlive : r.live address = some held) (hopen : held.buffer.finalized = false) :
    held.thread ∉ r.flushed.map Prod.fst := by
  intro hmem
  obtain ⟨f, hf, hthread⟩ := List.mem_map.mp hmem
  have hfinal := hi.flushed_finalized f hf address held hlive hthread.symm
  rw [hopen] at hfinal
  cases hfinal

/-- A buffer is finalized or destroyed, and leaves the registry. -/
theorem finish_inv {r r' : Registry} (hi : Inv r) {address : Nat} {held : Held} {left : Option Held}
    (hlive : r.live address = some held) (hlive' : r'.live = Function.update r.live address left)
    (hleft : ∀ h, left = some h → h.thread = held.thread ∧ h.buffer.finalized = true)
    (hthreads : r'.threads = r.threads)
    (hregistered : r'.registered = r.registered.erase address)
    (hflushed : r'.flushed = r.flushed ∨
      held.buffer.finalized = false ∧ ∃ flusher, r'.flushed = r.flushed ++ [(held.thread, flusher)]) :
    Inv r' := by
  have hnodup : r.registered.Nodup := hi.ascending.imp fun h => Nat.ne_of_lt h
  have hold : ∀ p held', r'.live p = some held' →
      ∃ old, r.live p = some old ∧ old.thread = held'.thread ∧
        (old.buffer.finalized = true ∨ p = address → held'.buffer.finalized = true) := by
    intro p held' hp
    rw [hlive'] at hp
    by_cases hpa : p = address
    · subst hpa
      rw [Function.update_self] at hp
      obtain ⟨hthread, hfinal⟩ := hleft held' hp
      exact ⟨held, hlive, hthread.symm, fun _ => hfinal⟩
    · rw [Function.update_of_ne hpa] at hp
      exact ⟨held', hp, rfl, fun h => h.resolve_right hpa⟩
  have hnew : ∀ f ∈ r'.flushed, f ∈ r.flushed ∨ f.1 = held.thread := by
    intro f hf
    rcases hflushed with hsame | ⟨-, flusher, happend⟩
    · exact Or.inl (hsame ▸ hf)
    · rw [happend] at hf
      rcases List.mem_append.mp hf with hf | hf
      · exact Or.inl hf
      · exact Or.inr (by rw [List.mem_singleton.mp hf])
  refine ⟨fun p => ?_, ?_, ?_, ?_, ?_, ?_, ?_⟩
  · rw [hregistered, hnodup.mem_erase_iff, hi.registered_iff, hlive']
    by_cases hpa : p = address
    · subst hpa
      simp only [ne_eq, not_true_eq_false, false_and, Function.update_self, false_iff, not_exists,
        not_and]
      intro h hh
      rw [(hleft h hh).2]
      exact Bool.false_ne_true ∘ Eq.symm
    · simp only [ne_eq, hpa, not_false_eq_true, true_and, Function.update_of_ne]
  · rw [hregistered]
    exact hi.ascending.sublist List.erase_sublist
  · intro p held' hp
    obtain ⟨old, hlive', hthread, -⟩ := hold p held' hp
    rw [← hthread, hthreads]
    exact hi.thread_lt p old hlive'
  · intro p q heldp heldq hp hq hthread
    obtain ⟨oldp, holdp, hthreadp, -⟩ := hold p heldp hp
    obtain ⟨oldq, holdq, hthreadq, -⟩ := hold q heldq hq
    exact hi.thread_inj p q oldp oldq holdp holdq (by rw [hthreadp, hthreadq, hthread])
  · intro f hf
    rw [hthreads]
    rcases hnew f hf with hf | hf
    · exact hi.flushed_lt f hf
    · rw [hf]
      exact hi.thread_lt address held hlive
  · intro f hf p held' hp hthread
    obtain ⟨old, hlive', hthread', hfinal⟩ := hold p held' hp
    rcases hnew f hf with hf | hf
    · exact hfinal (Or.inl (hi.flushed_finalized f hf p old hlive' (hthread'.trans hthread)))
    · refine hfinal (Or.inr (hi.thread_inj p address old held hlive' hlive ?_))
      rw [hthread', hthread, hf]
  · rcases hflushed with hsame | ⟨hopen, flusher, happend⟩
    · rw [hsame]
      exact hi.flushed_once
    · have hnot := hi.not_flushed hlive hopen
      rw [happend, List.map_append]
      refine List.nodup_append.mpr ⟨hi.flushed_once, List.nodup_singleton _, fun t ht t' ht' he => ?_⟩
      have hthread : t = held.thread := he.trans (List.mem_singleton.mp ht')
      exact hnot (hthread ▸ ht)

/-- The destructor never erases from a null set. A finalized buffer is not registered, so
that there is nothing to erase. -/
theorem destroy_inv {r : Registry} (hi : Inv r) {address : Nat} {held : Held}
    (hlive : r.live address = some held) : ∃ r', r.destroy address held = some r' ∧ Inv r' := by
  have hgone : ∀ h, (none : Option Held) = some h →
      h.thread = held.thread ∧ h.buffer.finalized = true := by simp
  cases hfinal : held.buffer.finalized with
  | true =>
    have hnot : address ∉ r.registered := by
      intro hmem
      obtain ⟨held', hlive', hopen⟩ := (hi.registered_iff address).mp hmem
      cases hlive.symm.trans hlive'
      exact Bool.false_ne_true (hopen.symm.trans hfinal)
    refine ⟨_, by rw [Registry.destroy, if_pos hfinal], ?_⟩
    exact finish_inv hi hlive rfl hgone rfl (List.erase_of_not_mem hnot).symm
      (Or.inl rfl)
  | false =>
    have hmem : address ∈ r.registered := (hi.registered_iff address).mpr ⟨held, hlive, hfinal⟩
    obtain ⟨set, hset⟩ : ∃ set, r.traceBuffers = some set := by
      cases hset : r.traceBuffers with
      | none => simp [Registry.registered, hset] at hmem
      | some set => exact ⟨set, rfl⟩
    have hregistered : r.registered = set := by simp [Registry.registered, hset]
    cases hflushes : flushes held.buffer with
    | true =>
      refine ⟨_, by simp [Registry.destroy, Registry.update, hfinal, hflushes, hset]; rfl, ?_⟩
      exact finish_inv hi hlive rfl hgone rfl (by rw [hregistered]; rfl)
        (Or.inr ⟨hfinal, _, rfl⟩)
    | false =>
      refine ⟨_, by simp [Registry.destroy, Registry.update, hfinal, hflushes, hset]; rfl, ?_⟩
      exact finish_inv hi hlive rfl hgone rfl (by rw [hregistered]; rfl)
        (Or.inl rfl)

/-- The loop finds every buffer of the set. -/
theorem finalizeLoop_inv (set : List Nat) {r : Registry} (hi : Inv r)
    (hset : r.traceBuffers = some set) : ∃ r', Registry.finalizeLoop set r = some r' ∧ Inv r' := by
  induction set generalizing r with
  | nil =>
    refine ⟨_, rfl, ?_⟩
    rw [← hset]
    exact hi
  | cons address rest ih =>
    have hregistered : r.registered = address :: rest := by simp [Registry.registered, hset]
    have hrest : rest = r.registered.erase address := by rw [hregistered, List.erase_cons_head]
    obtain ⟨held, hlive, hopen⟩ :=
      (hi.registered_iff address).mp (by rw [hregistered]; exact List.mem_cons_self)
    have hleft : ∀ h, some { held with buffer := held.buffer.finalize } = some h →
        h.thread = held.thread ∧ h.buffer.finalized = true := by
      intro h hh
      cases hh
      exact ⟨rfl, finalized_finalize _⟩
    simp only [Registry.finalizeLoop, hlive]
    refine ih ?_ rfl
    cases hflushes : flushes held.buffer with
    | true => exact finish_inv hi hlive rfl hleft rfl hrest (Or.inr ⟨hopen, _, rfl⟩)
    | false => exact finish_inv hi hlive rfl hleft rfl hrest (Or.inl rfl)

theorem finalizeAll_inv {r : Registry} (hi : Inv r) : ∃ r', r.finalizeAll = some r' ∧ Inv r' := by
  unfold Registry.finalizeAll
  split
  · exact ⟨r, rfl, hi⟩
  · rename_i set hset
    exact finalizeLoop_inv set hi hset

theorem step_inv {r r' : Registry} (hi : Inv r) (h : Step r r') : Inv r' := by
  cases h with
  | construct szstr o memory hfree hcreate =>
    exact construct_inv hi hfree (create_inv hcreate).open_
  | callback e hlive => exact update_inv hi hlive (finalized_callback _ e)
  | destroy hlive hdestroy =>
    obtain ⟨r', hr', hinv⟩ := destroy_inv hi hlive
    cases hr'.symm.trans hdestroy
    exact hinv
  | teardown hfinalize =>
    obtain ⟨r', hr', hinv⟩ := finalizeAll_inv hi
    cases hr'.symm.trans hfinalize
    exact hinv

theorem Reachable.inv {r : Registry} (h : Reachable r) : Inv r := by
  unfold Reachable at h
  induction h with
  | refl => exact empty_inv
  | tail _ hstep ih => exact step_inv ih hstep

/-! ## The result -/

/-- `trace_buffers_` is the set of the buffers that are constructed, not destroyed and not
finalized. The teardown touches no destroyed buffer, the destructor no null set, and no
buffer is flushed by both. -/
structure Exact (r : Registry) : Prop where
  registered_iff : ∀ p, p ∈ r.registered ↔ ∃ held, r.live p = some held ∧ held.buffer.finalized = false
  teardown_safe : r.finalizeAll.isSome
  destructor_safe : ∀ p held, r.live p = some held → (r.destroy p held).isSome
  flushed_once : ∀ thread, ¬ ((thread, .destructor) ∈ r.flushed ∧ (thread, .teardown) ∈ r.flushed)

/-- The registry is exact in every state, whatever the order of the steps. -/
theorem trace_buffers_exact (r : Registry) (h : Reachable r) : Exact r := by
  have hi := Reachable.inv h
  refine ⟨hi.registered_iff, ?_, fun p held hlive => ?_, ?_⟩
  · obtain ⟨r', hr', -⟩ := finalizeAll_inv hi
    rw [hr']
    rfl
  · obtain ⟨r', hr', -⟩ := destroy_inv hi hlive
    rw [hr']
    rfl
  · rintro thread ⟨hdestructor, hteardown⟩
    have hsame := List.inj_on_of_nodup_map hi.flushed_once hdestructor hteardown rfl
    cases hsame

def smallBuffer : TraceBuffer where
  bufferCapacity := 2
  sliceCapacity := 2
  origin := mainThread
  hostEventBuffer := fun _ _ => staleRecord

/-- One thread has recorded an event. -/
def recording : Registry :=
  (({} : Registry).construct 1 smallBuffer).callback 1 ⟨0, smallBuffer⟩ (plainEvent 1)

def tornDown : Registry := recording.finalizeAll.getD {}

theorem trace_buffers_exact_late : Exact (tornDown.construct 2 smallBuffer) := by
  have hfirst : Step {} (({} : Registry).construct 1 smallBuffer) :=
    .construct ['2'] mainThread (fun _ _ => staleRecord) rfl rfl
  have hrecord : Step (({} : Registry).construct 1 smallBuffer) recording :=
    .callback (plainEvent 1) rfl
  have hteardown : Step recording tornDown := .teardown rfl
  have hlate : Step tornDown (tornDown.construct 2 smallBuffer) :=
    .construct ['2'] mainThread (fun _ _ => staleRecord) rfl rfl
  exact trace_buffers_exact _ (.tail (.tail (.tail (.single hfirst) hrecord) hteardown) hlate)

end Unitrace.Trace.TraceBuffers
