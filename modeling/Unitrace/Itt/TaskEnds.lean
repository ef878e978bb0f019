import Mathlib.Data.List.Forall2
import Unitrace.Itt.PausedTasks

/-!
# The three ways to end a task

`__itt_task_end` has two siblings that carry the data of a message transfer. All of
them take entries from the stack that `__itt_task_begin` pushes to, but they do not
test the same options. `Trail` follows the entries of the stack back to the calls
that pushed them.
-/
namespace Unitrace.Itt.TaskEnds

open Unitrace.Lib.ByteString Unitrace.Itt.Control Unitrace.Itt.Tasks
open Unitrace.Itt.PausedTasks (Thread)
open Unitrace.Trace.Record

/-- The data of a tagged transfer. -/
structure ExInfo where
  srcSize : UInt64
  srcLocation : Int32
  srcTag : Int32
  dstSize : UInt64
  dstLocation : Int32
  dstTag : Int32

structure CallbackInfo where
  mpiCounter : Int64
  srcSize : UInt64
  dstSize : UInt64

/-- A call of one of the overloads of `IttCollector::Log`. It is passed on if a callback
is installed. -/
inductive LogCall where
  | itt (event : IttEvent)
  | mpi (name : CStr) (startTs endTs : UInt64) (info : ExInfo)
  | mpiInternal (name : CStr) (startTs endTs : UInt64) (info : CallbackInfo)

def LogCall.startTs : LogCall → UInt64
  | .itt event => event.startTs
  | .mpi _ startTs _ _ => startTs
  | .mpiInternal _ startTs _ _ => startTs

def LogCall.endTs : LogCall → UInt64
  | .itt event => event.endTs
  | .mpi _ _ endTs _ => endTs
  | .mpiInternal _ _ endTs _ => endTs

/-- What the two internal end calls share. A null domain is read as soon as there is an
entry to compare it with. -/
def taskEndInternal (log : CStr → UInt64 → UInt64 → LogCall) (c : UniController)
    (collector : IttCollector) (domain : Option (Option CStr)) (now : UInt64)
    (taskDesc : List ThreadTaskDescriptor) :
    Option (List ThreadTaskDescriptor × Option LogCall) :=
  if !c.isCollectionEnabled || !collector.chromeLoggingOn then some (taskDesc, none)
  else
    match taskDesc with
    | [] => some ([], none)
    | top :: rest =>
      match top.domain.text, domain with
      | some topDomain, some (some wanted) =>
        if topDomain = wanted then
          match top.name.text with
          | some topName => some (rest, some (log (qualified topDomain topName) top.startTime now))
          | none => none
        else some (top :: rest, none)
      | _, _ => none

/-- `__itt_task_end_internal_ex_info` -/
def taskEndInternalExInfo (info : ExInfo) (c : UniController) (collector : IttCollector)
    (domain : Option (Option CStr)) (now : UInt64) (taskDesc : List ThreadTaskDescriptor) :
    Option (List ThreadTaskDescriptor × Option LogCall) :=
  taskEndInternal (fun name startTs endTs => .mpi name startTs endTs info) c collector domain now
    taskDesc

/-- `__itt_task_end_internal_callback_info` -/
def taskEndInternalCallbackInfo (info : CallbackInfo) (c : UniController)
    (collector : IttCollector) (domain : Option (Option CStr)) (now : UInt64)
    (taskDesc : List ThreadTaskDescriptor) :
    Option (List ThreadTaskDescriptor × Option LogCall) :=
  taskEndInternal (fun name startTs endTs => .mpiInternal name startTs endTs info) c collector
    domain now taskDesc

/-- Which function ends a task. -/
inductive Ending where
  | plain
  | exInfo (info : ExInfo)
  | callbackInfo (info : CallbackInfo)

def Ending.call (ending : Ending) (c : UniController) (collector : IttCollector)
    (domain : Option (Option CStr)) (now : UInt64) (taskDesc : List ThreadTaskDescriptor) :
    Option (List ThreadTaskDescriptor × Option LogCall) :=
  match ending with
  | .plain => (taskEnd c collector domain now taskDesc).map fun (taskDesc, report) =>
      (taskDesc, report.logged.map LogCall.itt)
  | .exInfo info => taskEndInternalExInfo info c collector domain now taskDesc
  | .callbackInfo info => taskEndInternalCallbackInfo info c collector domain now taskDesc

/-- A call on one thread. `memory` is what the descriptor holds before it is filled. -/
inductive Call where
  | ittPause
  | ittResume
  | taskBegin (domain name : Option (Option CStr)) (now : UInt64) (memory : ThreadTaskDescriptor)
  | taskEnd (ending : Ending) (domain : Option (Option CStr)) (now : UInt64)

def call (t : Thread) : Call → Option (Thread × Option LogCall)
  | .ittPause => some ({ t with controller := t.controller.ittPause }, none)
  | .ittResume => some ({ t with controller := t.controller.ittResume }, none)
  | .taskBegin domain name now memory =>
    let taskDesc := Tasks.taskBegin t.controller t.collector domain name now memory t.taskDesc
    some ({ t with taskDesc := taskDesc }, none)
  | .taskEnd ending domain now =>
    (ending.call t.controller t.collector domain now t.taskDesc).map fun (taskDesc, logged) =>
      ({ t with taskDesc := taskDesc }, logged)

/-! ## Following the entries -/

/-- A thread and, for every entry of its stack, the number of the call that pushed it. -/
structure Trail where
  thread : Thread
  pushedBy : List Nat
  next : Nat

/-- The entries that are there at the start get the numbers before the first call. -/
def Trail.start (t : Thread) : Trail where
  thread := t
  pushedBy := (List.range t.taskDesc.length).reverse
  next := t.taskDesc.length

/-- What is seen of a call: the entry that left the stack, by the call that pushed it,
and what was logged. -/
structure Effect where
  popped : Option Nat
  logged : Option LogCall

def Trail.step (s : Trail) (x : Call) : Option (Trail × Effect) :=
  (call s.thread x).map fun (t, logged) =>
    let before := s.thread.taskDesc.length
    let after := t.taskDesc.length
    ({ thread := t
       pushedBy := if before < after then s.next :: s.pushedBy
         else if after < before then s.pushedBy.tail else s.pushedBy
       next := s.next + 1 },
      { popped := if after < before then s.pushedBy.head? else none, logged := logged })

/-- A run goes on until a call has undefined behaviour. -/
def Trail.run : Trail → List Call → Trail × List Effect
  | s, [] => (s, [])
  | s, x :: calls =>
    match s.step x with
    | none => (s, [])
    | some (s', effect) =>
      let (last, effects) := Trail.run s' calls
      (last, effect :: effects)

/-! ## What a call does to the stack -/

/-- An end call takes the top of the stack and logs its start time, or does nothing. -/
theorem taskEndInternal_cases {log : CStr → UInt64 → UInt64 → LogCall} {c : UniController}
    {collector : IttCollector} {domain : Option (Option CStr)} {now : UInt64}
    {stack stack' : List ThreadTaskDescriptor} {logged : Option LogCall}
    (h : taskEndInternal log c collector domain now stack = some (stack', logged)) :
    (∃ top name, stack = top :: stack' ∧ logged = some (log name top.startTime now)) ∨
      (stack' = stack ∧ logged = none) := by
  unfold taskEndInternal at h
  split at h
  · cases h
    exact Or.inr ⟨rfl, rfl⟩
  · split at h
    · cases h
      exact Or.inr ⟨rfl, rfl⟩
    · rename_i top rest
      split at h
      · split at h
        · split at h
          · cases h
            exact Or.inl ⟨top, _, rfl, rfl⟩
          · cases h
        · cases h
          exact Or.inr ⟨rfl, rfl⟩
      · cases h

theorem taskEnd_cases {c : UniController} {collector : IttCollector}
    {domain : Option (Option CStr)} {now : UInt64} {stack stack' : List ThreadTaskDescriptor}
    {report : Report} (h : Tasks.taskEnd c collector domain now stack = some (stack', report)) :
    (∃ top, stack = top :: stack' ∧ ∀ e, report.logged = some e →
        e.startTs = top.startTime ∧ e.endTs = now ∧ e.metadataArgs = some top.metadataArgs) ∨
      (stack' = stack ∧ report.logged = none) := by
  unfold Tasks.taskEnd at h
  split at h
  · cases h
    exact Or.inr ⟨rfl, rfl⟩
  · split at h
    · cases h
      exact Or.inr ⟨rfl, rfl⟩
    · split at h
      · rename_i top rest nameA
        split at h
        · split at h
          · split at h
            · cases h
              refine Or.inl ⟨top, rfl, fun e he => ?_⟩
              simp only at he
              split at he
              · cases he
                exact ⟨rfl, rfl, rfl⟩
              · cases he
            · cases h
          · cases h
            exact Or.inr ⟨rfl, rfl⟩
        · cases h
      · cases h
        exact Or.inr ⟨rfl, rfl⟩

/-- What is logged when the entry `top` is taken at time `now`. -/
def LoggedFor (top : ThreadTaskDescriptor) (now : UInt64) (logged : Option LogCall) : Prop :=
  ∀ l, logged = some l → l.startTs = top.startTime ∧ l.endTs = now ∧
    ∀ e, l = .itt e → e.metadataArgs = some top.metadataArgs

theorem ending_cases {ending : Ending} {c : UniController} {collector : IttCollector}
    {domain : Option (Option CStr)} {now : UInt64} {stack stack' : List ThreadTaskDescriptor}
    {logged : Option LogCall} (h : ending.call c collector domain now stack = some (stack', logged)) :
    (∃ top, stack = top :: stack' ∧ LoggedFor top now logged) ∨
      (stack' = stack ∧ logged = none) := by
  cases ending with
  | plain =>
    obtain ⟨⟨rest, report⟩, hend, heq⟩ := Option.map_eq_some_iff.mp h
    cases heq
    rcases taskEnd_cases hend with ⟨top, hstack, hlog⟩ | ⟨hstack, hlog⟩
    · refine Or.inl ⟨top, hstack, fun l hl => ?_⟩
      obtain ⟨e, he, rfl⟩ := Option.map_eq_some_iff.mp hl
      obtain ⟨hstart, hend, hargs⟩ := hlog e he
      exact ⟨hstart, hend, fun e' he' => by cases he'; exact hargs⟩
    · exact Or.inr ⟨hstack, by rw [hlog]; rfl⟩
  | exInfo info =>
    rw [Ending.call, taskEndInternalExInfo] at h
    rcases taskEndInternal_cases h with ⟨top, name, hstack, rfl⟩ | hnothing
    · exact Or.inl ⟨top, hstack, fun l hl => by cases hl; exact ⟨rfl, rfl, by simp⟩⟩
    · exact Or.inr hnothing
  | callbackInfo info =>
    rw [Ending.call, taskEndInternalCallbackInfo] at h
    rcases taskEndInternal_cases h with ⟨top, name, hstack, rfl⟩ | hnothing
    · exact Or.inl ⟨top, hstack, fun l hl => by cases hl; exact ⟨rfl, rfl, by simp⟩⟩
    · exact Or.inr hnothing

theorem taskBegin_cases (c : UniController) (collector : IttCollector)
    (domain name : Option (Option CStr)) (now : UInt64) (memory : ThreadTaskDescriptor)
    (stack : List ThreadTaskDescriptor) :
    (∃ d, Tasks.taskBegin c collector domain name now memory stack = d :: stack ∧
        d.startTime = now ∧ d.metadataArgs =
          { memory.metadataArgs with count := 0, isIndirectData := false, next := [] }) ∨
      Tasks.taskBegin c collector domain name now memory stack = stack := by
  unfold Tasks.taskBegin
  split
  · exact Or.inr rfl
  · split
    · exact Or.inr rfl
    · exact Or.inl ⟨_, rfl, rfl, rfl⟩

section

variable {s : Trail} {x : Call} {t : Thread} {logged : Option LogCall}

theorem step_push {d : ThreadTaskDescriptor} (h : call s.thread x = some (t, logged))
    (hstack : t.taskDesc = d :: s.thread.taskDesc) :
    s.step x = some (⟨t, s.next :: s.pushedBy, s.next + 1⟩, ⟨none, logged⟩) := by
  simp only [Trail.step, h, Option.map_some, hstack, List.length_cons]
  rw [if_pos (by omega), if_neg (by omega)]

theorem step_pop {top : ThreadTaskDescriptor} (h : call s.thread x = some (t, logged))
    (hstack : s.thread.taskDesc = top :: t.taskDesc) :
    s.step x = some (⟨t, s.pushedBy.tail, s.next + 1⟩, ⟨s.pushedBy.head?, logged⟩) := by
  simp only [Trail.step, h, Option.map_some, hstack, List.length_cons]
  rw [if_neg (by omega), if_pos (by omega), if_pos (by omega)]

theorem step_same (h : call s.thread x = some (t, logged))
    (hstack : t.taskDesc = s.thread.taskDesc) :
    s.step x = some (⟨t, s.pushedBy, s.next + 1⟩, ⟨none, logged⟩) := by
  simp only [Trail.step, h, Option.map_some, hstack, Nat.lt_irrefl, ↓reduceIte]

end

/-- A begin call pushes an entry, an end call takes one, or the stack stays as it is. -/
theorem call_cases {t t' : Thread} {x : Call} {logged : Option LogCall}
    (h : call t x = some (t', logged)) :
    (∃ domain name now memory d, x = .taskBegin domain name now memory ∧
        t'.taskDesc = d :: t.taskDesc ∧ logged = none ∧ d.startTime = now ∧
        d.metadataArgs = { memory.metadataArgs with count := 0, isIndirectData := false, next := [] }) ∨
      (∃ ending domain now top, x = .taskEnd ending domain now ∧ t.taskDesc = top :: t'.taskDesc ∧
        LoggedFor top now logged) ∨
      (t'.taskDesc = t.taskDesc ∧ logged = none) := by
  cases x with
  | ittPause =>
    cases h
    exact Or.inr (Or.inr ⟨rfl, rfl⟩)
  | ittResume =>
    cases h
    exact Or.inr (Or.inr ⟨rfl, rfl⟩)
  | taskBegin domain name now memory =>
    cases h
    rcases taskBegin_cases t.controller t.collector domain name now memory t.taskDesc with
      ⟨d, hpush, hfresh⟩ | hsame
    · exact Or.inl ⟨domain, name, now, memory, d, rfl, hpush, rfl, hfresh⟩
    · exact Or.inr (Or.inr ⟨hsame, rfl⟩)
  | taskEnd ending domain now =>
    obtain ⟨⟨stack, logged'⟩, hend, heq⟩ := Option.map_eq_some_iff.mp h
    cases heq
    rcases ending_cases hend with ⟨top, hstack, hlog⟩ | ⟨hstack, hlog⟩
    · exact Or.inr (Or.inl ⟨ending, domain, now, top, rfl, hstack, hlog⟩)
    · exact Or.inr (Or.inr ⟨hstack, hlog⟩)

/-- Everything that a step does. -/
theorem step_cases {s s' : Trail} {x : Call} {effect : Effect} (h : s.step x = some (s', effect)) :
    s'.next = s.next + 1 ∧
    ((∃ domain name now memory d, x = .taskBegin domain name now memory ∧ d.startTime = now ∧
        s'.thread.taskDesc = d :: s.thread.taskDesc ∧ s'.pushedBy = s.next :: s.pushedBy ∧
        effect = ⟨none, none⟩) ∨
      (∃ ending domain now top, x = .taskEnd ending domain now ∧
        s.thread.taskDesc = top :: s'.thread.taskDesc ∧ s'.pushedBy = s.pushedBy.tail ∧
        effect.popped = s.pushedBy.head? ∧ LoggedFor top now effect.logged) ∨
      (s'.thread.taskDesc = s.thread.taskDesc ∧ s'.pushedBy = s.pushedBy ∧
        effect = ⟨none, none⟩)) := by
  obtain ⟨⟨t, logged⟩, hcall, -⟩ := Option.map_eq_some_iff.mp h
  rcases call_cases hcall with ⟨domain, name, now, memory, d, hx, hpush, rfl, hstart, -⟩ |
    ⟨ending, domain, now, top, hx, hpop, hlog⟩ | ⟨hsame, rfl⟩
  · cases (step_push hcall hpush).symm.trans h
    exact ⟨rfl, Or.inl ⟨domain, name, now, memory, d, hx, hstart, hpush, rfl, rfl⟩⟩
  · cases (step_pop hcall hpop).symm.trans h
    exact ⟨rfl, Or.inr (Or.inl ⟨ending, domain, now, top, hx, hpop, rfl, rfl, hlog⟩)⟩
  · cases (step_same hcall hsame).symm.trans h
    exact ⟨rfl, Or.inr (Or.inr ⟨hsame, rfl, rfl⟩)⟩

end Unitrace.Itt.TaskEnds
