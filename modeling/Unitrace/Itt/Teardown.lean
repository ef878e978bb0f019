import Unitrace.Itt.Events
import Unitrace.Trace.TraceBuffers

/-!
# A process and its teardown

`Teardown` deletes the ITT collector and the logger of the trace, but both pointers
stay. The threads may go on after that. An action is atomic. `Fault` says what goes
wrong when an action has no result.
-/
namespace Unitrace.Itt.Teardown

open Unitrace.Lib.Text Unitrace.Lib.ByteString Unitrace.Itt.Control Unitrace.Itt.Tasks
open Unitrace.Itt.TaskEnds Unitrace.Itt.Events
open Unitrace.Trace.Record Unitrace.Trace.Buffer Unitrace.Trace.TraceBuffers

/-- The options that decide which objects are created. -/
structure Options where
  chromeCallLogging : Bool
  chromeKernelLogging : Bool
  chromeDeviceLogging : Bool
  chromeSyclLogging : Bool
  chromeIttLogging : Bool
  cclSummaryReport : Bool

/-- The thread-local state. The buffer is known by its address once it is constructed. -/
structure ThreadState where
  taskDesc : List ThreadTaskDescriptor := []
  eventDesc : EventDesc := fun _ => none
  buffer : Option Nat := none

structure Process where
  controller : UniController
  /-- The options of `itt_collector`. -/
  collector : IttCollector
  /-- There is a `chrome_logger_`. -/
  hasChromeLogger : Bool
  tornDown : Bool := false
  ittEvents : List Bytes := []
  registry : Registry := {}
  threads : Nat → Option ThreadState := fun _ => none

/-- `UniTracer::Create` -/
def Process.create (o : Options) (c : UniController) : Process where
  controller := c
  collector := { cclSummaryOn := o.cclSummaryReport, chromeLoggingOn := o.chromeIttLogging }
  hasChromeLogger := o.chromeCallLogging || o.chromeKernelLogging || o.chromeDeviceLogging ||
    o.chromeSyclLogging || o.chromeIttLogging

/-- Why an action has no result. The fault `other` stands for a process that ends and for
any undefined behaviour that has nothing to do with the teardown. -/
inductive Fault where
  | deletedCollector
  | deletedLogger
  | other

/-- Where a buffer is constructed, and what its constructor finds there. -/
structure Site where
  address : Nat
  szstr : Str
  origin : Origin
  memory : Memory

inductive IttCall where
  | task (x : Call)
  | eventCreate (name : Bytes)
  | eventStart (event : Int) (now : UInt64)
  | eventEnd (event : Int) (now : UInt64)
  | marker (domain name : Option (Option CStr)) (id : Option IttId) (now : UInt64)

/-- The call looks at the options of the collector when collection is enabled. -/
def IttCall.usesCollector : IttCall → Bool
  | .task .ittPause => false
  | .task .ittResume => false
  | .eventCreate _ => false
  | _ => true

/-- What happens in the process. The site of a call counts if its thread has no buffer. -/
inductive Action where
  | threadStart (t : Nat)
  | bufferInit (t : Nat) (site : Site)
  | itt (t : Nat) (site : Site) (x : IttCall)
  | threadExit (t : Nat)
  | teardown

/-! ## The actions -/

/-- The registry becomes `r`; what it has logged in addition goes through `logger_`. -/
def Process.logThrough (p : Process) (r : Registry) : Except Fault Process :=
  if r.file = p.registry.file then .ok { p with registry := r }
  else if !p.hasChromeLogger then .error .other
  else if p.tornDown then .error .deletedLogger
  else .ok { p with registry := r }

/-- The construction of `thread_local_buffer_`. -/
def Process.initBuffer (p : Process) (t : Nat) (site : Site) : Except Fault Process :=
  match p.threads t with
  | none => .ok p
  | some th =>
    if th.buffer.isSome then .ok p
    else if (p.registry.live site.address).isSome then .error .other
    else
      match TraceBuffer.create site.szstr site.origin site.memory with
      | none => .error .other
      | some b =>
        .ok { p with
          registry := p.registry.construct site.address b
          threads := Function.update p.threads t (some { th with buffer := some site.address }) }

/-- `IttLoggingCallback` on thread `t` -/
def Process.ittLoggingCallback (p : Process) (t : Nat) (e : IttEvent) : Except Fault Process :=
  match (p.threads t).bind ThreadState.buffer with
  | none => .ok p
  | some address =>
    match p.registry.live address with
    | none => .error .other
    | some held => p.logThrough (p.registry.callback address held e)

/-- `IttCollector::Log`. No callback is installed for the transfers. -/
def Process.log (p : Process) (t : Nat) (site : Site) : Option LogCall → Except Fault Process
  | some (.itt e) =>
    match p.initBuffer t site with
    | .error f => .error f
    | .ok p => p.ittLoggingCallback t e
  | _ => .ok p

def Process.setThread (p : Process) (t : Nat) (th : ThreadState) : Process :=
  { p with threads := Function.update p.threads t (some th) }

/-- A call of thread `t`, whose state is `th`. -/
def Process.ittCall (p : Process) (t : Nat) (th : ThreadState) (site : Site) :
    IttCall → Except Fault Process
  | .task x =>
    match call ⟨p.controller, p.collector, th.taskDesc⟩ x with
    | none => .error .other
    | some (s, logged) =>
      ({ p with controller := s.controller }.setThread t { th with taskDesc := s.taskDesc }).log t
        site logged
  | .eventCreate name => .ok { p with ittEvents := p.ittEvents ++ [name] }
  | .eventStart event now =>
    let (eventDesc, _) := eventStart p.controller p.collector p.ittEvents event now th.eventDesc
    .ok (p.setThread t { th with eventDesc := eventDesc })
  | .eventEnd event now =>
    let ((eventDesc, logged), _) :=
      eventEnd p.controller p.collector p.ittEvents event now th.eventDesc
    (p.setThread t { th with eventDesc := eventDesc }).log t site logged
  | .marker domain name id now =>
    p.log t site (marker p.controller p.collector domain name id now)

/-- The destructor of `thread_local_buffer_` -/
def Process.destroyBuffer (p : Process) (address : Nat) : Except Fault Process :=
  match p.registry.live address with
  | none => .error .other
  | some held =>
    match p.registry.destroy address held with
    | none => .error .other
    | some r => p.logThrough r

/-- What `~ChromeLogger` writes last. -/
def closing : Bytes := lit "\n]\n\x7d\n"

/-- `~UniTracer`. A trace without data is removed and not closed. -/
def Process.teardown (p : Process) : Except Fault Process :=
  if p.tornDown then .ok p
  else if !p.hasChromeLogger then .ok { p with tornDown := true }
  else
    match p.registry.finalizeAll with
    | none => .error .other
    | some r =>
      .ok { p with
        registry := { r with file := if r.file.flatten = [] then r.file else r.file ++ [closing] }
        tornDown := true }

def Process.step (p : Process) : Action → Except Fault Process
  | .threadStart t => if (p.threads t).isSome then .ok p else .ok (p.setThread t {})
  | .bufferInit t site => p.initBuffer t site
  | .itt t site x =>
    match p.threads t with
    | none => .ok p
    | some th =>
      if x.usesCollector && p.controller.isCollectionEnabled && p.tornDown then
        .error .deletedCollector
      else p.ittCall t th site x
  | .threadExit t =>
    match p.threads t with
    | none => .ok p
    | some th =>
      let p := { p with threads := Function.update p.threads t none }
      match th.buffer with
      | none => .ok p
      | some address => p.destroyBuffer address
  | .teardown => p.teardown

def Process.run : Process → List Action → Except Fault Process
  | p, [] => .ok p
  | p, a :: actions =>
    match p.step a with
    | .error f => .error f
    | .ok p => p.run actions

/-- Neither the deleted collector nor the deleted logger is used. -/
def Process.Sound (p : Process) (actions : List Action) : Prop :=
  p.run actions ≠ .error .deletedCollector ∧ p.run actions ≠ .error .deletedLogger

/-- After the teardown no thread makes a task, event or marker call while collection is
enabled. -/
def Process.QuietStep (p : Process) : Action → Prop
  | .itt t _ x => (p.threads t).isSome → x.usesCollector = true → p.tornDown = true →
      p.controller.isCollectionEnabled = false
  | _ => True

def Process.Quiet : Process → List Action → Prop
  | _, [] => True
  | p, a :: actions => p.QuietStep a ∧ ∀ p', p.step a = .ok p' → p'.Quiet actions

/-! ## Idle buffers -/

/-- The destructor of the buffer logs nothing. -/
def Idle (b : TraceBuffer) : Prop := b.finalized = true ∨ b.written = []

theorem flushSlots_of_written_eq_nil {b : TraceBuffer} (h : b.written = []) : b.flushSlots = b := by
  rw [TraceBuffer.flushSlots, h]
  rfl

theorem destroy_log_of_idle {b : TraceBuffer} (h : Idle b) : b.destroy.log = b.log := by
  rcases h with h | h
  · rw [destroy_finalized h]
  · unfold TraceBuffer.destroy
    have hflush : ({ b with finalized := true } : TraceBuffer).flushSlots =
        { b with finalized := true } := flushSlots_of_written_eq_nil h
    simp only [hflush]
    split
    · rfl
    · split <;> rfl

theorem idle_create {szstr : Str} {o : Origin} {memory : Memory} {b : TraceBuffer}
    (h : TraceBuffer.create szstr o memory = some b) : Idle b := by
  have hi := create_inv h
  have hrecorded := hi.recorded
  rw [List.append_eq_nil_iff, List.map_eq_nil_iff] at hrecorded
  exact Or.inr hrecorded.2

/-- All buffers are idle. -/
def AllIdle (r : Registry) : Prop := ∀ address held, r.live address = some held → Idle held.buffer

theorem allIdle_construct {r : Registry} (h : AllIdle r) (address : Nat) {b : TraceBuffer}
    (hb : Idle b) : AllIdle (r.construct address b) := by
  intro q held hlive
  simp only [Registry.construct] at hlive
  by_cases hq : q = address
  · rw [hq, Function.update_self, Option.some.injEq] at hlive
    rw [← hlive]
    exact hb
  · rw [Function.update_of_ne hq] at hlive
    exact h q held hlive

/-- What the destructor does to the registry. -/
theorem destroy_live {r r' : Registry} {address : Nat} {held : Held}
    (h : r.destroy address held = some r') :
    r'.live = Function.update r.live address none ∧
      r'.file = r.file ++ held.buffer.destroy.log.drop held.buffer.log.length := by
  unfold Registry.destroy Registry.update at h
  simp only at h
  split at h
  · cases h
    exact ⟨rfl, rfl⟩
  · obtain ⟨set, -, hr⟩ := Option.map_eq_some_iff.mp h
    rw [← hr]
    split <;> exact ⟨rfl, rfl⟩

theorem allIdle_destroy {r r' : Registry} (hi : AllIdle r) {address : Nat} {held : Held}
    (h : r.destroy address held = some r') : AllIdle r' := by
  intro q held' hlive
  rw [(destroy_live h).1] at hlive
  by_cases hq : q = address
  · rw [hq, Function.update_self] at hlive
    cases hlive
  · rw [Function.update_of_ne hq] at hlive
    exact hi q held' hlive

theorem finalizeLoop_registered {set : List Nat} {r r' : Registry}
    (h : Registry.finalizeLoop set r = some r') : r'.registered = [] := by
  induction set generalizing r with
  | nil =>
    cases h
    rfl
  | cons address rest ih =>
    simp only [Registry.finalizeLoop] at h
    split at h
    · cases h
    · exact ih h

/-- After the teardown every buffer is finalized, since the registry held all others. -/
theorem allIdle_finalizeAll {r r' : Registry} (hi : Trace.TraceBuffers.Inv r) (h : r.finalizeAll = some r') :
    Trace.TraceBuffers.Inv r' ∧ AllIdle r' := by
  obtain ⟨r'', hr'', hinv⟩ := finalizeAll_inv hi
  cases hr''.symm.trans h
  refine ⟨hinv, fun address held hlive => Or.inl ?_⟩
  have hnone : r'.registered = [] := by
    unfold Registry.finalizeAll at h
    split at h
    · rename_i hset
      cases h
      simp [Registry.registered, hset]
    · exact finalizeLoop_registered h
  by_contra hopen
  have hmem := (hinv.registered_iff address).mpr ⟨held, hlive, by simpa using hopen⟩
  rw [hnone] at hmem
  cases hmem

/-! ## The invariant -/

/-- The buffers are idle once the teardown has run, and as long as the trace is off. -/
structure Inv (p : Process) : Prop where
  registry : Trace.TraceBuffers.Inv p.registry
  logger : p.collector.chromeLoggingOn = true → p.hasChromeLogger = true
  idle : p.tornDown = true ∨ p.collector.chromeLoggingOn = false → AllIdle p.registry

/-- The outcome keeps the invariant or is a fault that the teardown has no part in. -/
def Good : Except Fault Process → Prop
  | .ok p => Inv p
  | .error f => f = .other

/-- The options and the stage of the process are the same. -/
def SameStage (p q : Process) : Prop :=
  p.tornDown = q.tornDown ∧ p.collector = q.collector ∧ p.hasChromeLogger = q.hasChromeLogger

theorem inv_of_sameStage {p q : Process} (hi : Inv q) (hstage : SameStage p q)
    (hregistry : p.registry = q.registry) : Inv p where
  registry := by rw [hregistry]; exact hi.registry
  logger := by rw [hstage.2.1, hstage.2.2]; exact hi.logger
  idle := by rw [hregistry, hstage.1, hstage.2.1]; exact hi.idle

theorem good_logThrough {p : Process} (hi : Inv p) {r : Registry} (hr : Trace.TraceBuffers.Inv r)
    (hidle : p.tornDown = true ∨ p.collector.chromeLoggingOn = false → AllIdle r)
    (hfile : p.tornDown = true → r.file = p.registry.file) : Good (p.logThrough r) := by
  unfold Process.logThrough
  split
  · exact ⟨hr, hi.logger, hidle⟩
  · rename_i hnew
    split
    · rfl
    · split
      · rename_i htorn
        exact absurd (hfile htorn) hnew
      · exact ⟨hr, hi.logger, hidle⟩

theorem initBuffer_cases {p p' : Process} {t : Nat} {site : Site}
    (h : p.initBuffer t site = .ok p') :
    SameStage p' p ∧ p'.controller = p.controller ∧
      (p'.registry = p.registry ∨
        ∃ b, p.registry.live site.address = none ∧
          TraceBuffer.create site.szstr site.origin site.memory = some b ∧
          p'.registry = p.registry.construct site.address b) := by
  unfold Process.initBuffer at h
  split at h
  · cases h
    exact ⟨⟨rfl, rfl, rfl⟩, rfl, Or.inl rfl⟩
  · split at h
    · cases h
      exact ⟨⟨rfl, rfl, rfl⟩, rfl, Or.inl rfl⟩
    · split at h
      · cases h
      · rename_i hfree
        split at h
        · cases h
        · rename_i b hcreate
          cases h
          exact ⟨⟨rfl, rfl, rfl⟩, rfl, Or.inr ⟨b, by simpa using hfree, hcreate, rfl⟩⟩

theorem initBuffer_error {p : Process} {t : Nat} {site : Site} {f : Fault}
    (h : p.initBuffer t site = .error f) : f = .other := by
  unfold Process.initBuffer at h
  split at h
  · cases h
  · split at h
    · cases h
    · split at h
      · cases h
        rfl
      · split at h
        · cases h
          rfl
        · cases h

theorem initBuffer_inv {p p' : Process} (hi : Inv p) {t : Nat} {site : Site}
    (h : p.initBuffer t site = .ok p') : Inv p' := by
  obtain ⟨hstage, -, hsame | ⟨b, hfree, hcreate, hnew⟩⟩ := initBuffer_cases h
  · exact inv_of_sameStage hi hstage hsame
  · refine ⟨?_, ?_, ?_⟩
    · rw [hnew]
      exact construct_inv hi.registry hfree (create_inv hcreate).open_
    · rw [hstage.2.1, hstage.2.2]
      exact hi.logger
    · rw [hnew, hstage.1, hstage.2.1]
      exact fun h => allIdle_construct (hi.idle h) _ (idle_create hcreate)

/-- Logging is good before the teardown, if the trace is on. -/
theorem good_log {p : Process} (hi : Inv p) (t : Nat) (site : Site) {logged : Option LogCall}
    (hon : ∀ l, logged = some l → p.tornDown = false ∧ p.collector.chromeLoggingOn = true) :
    Good (p.log t site logged) := by
  unfold Process.log
  split
  · rename_i e
    obtain ⟨htorn, htrace⟩ := hon _ rfl
    split
    · rename_i f hf
      exact initBuffer_error hf
    · rename_i p' hp'
      have hi' := initBuffer_inv hi hp'
      obtain ⟨⟨htorn', hcollector, -⟩, -, -⟩ := initBuffer_cases hp'
      unfold Process.ittLoggingCallback
      split
      · exact hi'
      · rename_i address _
        split
        · rfl
        · rename_i held hlive
          refine good_logThrough hi' (update_inv hi'.registry hlive (finalized_callback _ e)) ?_ ?_
          · rw [htorn', hcollector, htorn, htrace]
            rintro (h | h) <;> cases h
          · rw [htorn', htorn]
            intro h
            cases h
  · exact hi

/-! ## Steps and runs -/

theorem setThread_inv {p : Process} (hi : Inv p) (t : Nat) (th : ThreadState) :
    Inv (p.setThread t th) := inv_of_sameStage hi ⟨rfl, rfl, rfl⟩ rfl

/-- A call is good unless it finds the collector deleted. -/
theorem good_ittCall {p : Process} (hi : Inv p) (t : Nat) (th : ThreadState) (site : Site)
    {x : IttCall} (hquiet : x.usesCollector = true → p.controller.isCollectionEnabled = true →
      p.tornDown = false) : Good (p.ittCall t th site x) := by
  have hon (huses : x.usesCollector = true)
      (h : p.controller.isCollectionEnabled = true ∧ p.collector.chromeLoggingOn = true) :
      p.tornDown = false ∧ p.collector.chromeLoggingOn = true := ⟨hquiet huses h.1, h.2⟩
  cases x with
  | task y =>
    simp only [Process.ittCall]
    split
    · rfl
    · rename_i s logged hcall
      have hi' : Inv { p with controller := s.controller } :=
        inv_of_sameStage hi ⟨rfl, rfl, rfl⟩ rfl
      refine good_log (setThread_inv hi' t _) t site ?_
      intro l hl
      subst hl
      cases y with
      | ittPause => cases hcall
      | ittResume => cases hcall
      | taskBegin domain name now memory => cases hcall
      | taskEnd ending domain now => exact hon rfl (call_logged hcall)
  | eventCreate name => exact inv_of_sameStage hi ⟨rfl, rfl, rfl⟩ rfl
  | eventStart event now => exact setThread_inv hi t _
  | eventEnd event now =>
    exact good_log (setThread_inv hi t _) t site fun l hl => hon rfl (eventEnd_logged hl)
  | marker domain name id now =>
    exact good_log hi t site fun l hl => hon rfl (marker_logged hl)

theorem good_destroyBuffer {p : Process} (hi : Inv p) (address : Nat) :
    Good (p.destroyBuffer address) := by
  unfold Process.destroyBuffer
  split
  · rfl
  · rename_i held hlive
    obtain ⟨r, hr, hinv⟩ := destroy_inv hi.registry hlive
    rw [hr]
    refine good_logThrough hi hinv (fun h => allIdle_destroy (hi.idle h) hr) fun htorn => ?_
    have hidle := hi.idle (Or.inl htorn) address held hlive
    rw [(destroy_live hr).2, destroy_log_of_idle hidle, List.drop_length, List.append_nil]

theorem file_inv {r : Registry} (hi : Trace.TraceBuffers.Inv r) (file : List Bytes) :
    Trace.TraceBuffers.Inv { r with file := file } :=
  ⟨hi.registered_iff, hi.ascending, hi.thread_lt, hi.thread_inj, hi.flushed_lt,
    hi.flushed_finalized, hi.flushed_once⟩

theorem good_teardown {p : Process} (hi : Inv p) : Good p.teardown := by
  unfold Process.teardown
  split
  · exact hi
  · split
    · rename_i hno
      refine ⟨hi.registry, hi.logger, fun _ => hi.idle (Or.inr ?_)⟩
      by_contra htrace
      rw [Bool.not_eq_false] at htrace
      simp [hi.logger htrace] at hno
    · split
      · rfl
      · rename_i r hr
        obtain ⟨hinv, hidle⟩ := allIdle_finalizeAll hi.registry hr
        exact ⟨file_inv hinv _, hi.logger, fun _ => hidle⟩

theorem good_step {p : Process} (hi : Inv p) {a : Action} (hquiet : p.QuietStep a) :
    Good (p.step a) := by
  cases a with
  | threadStart t =>
    simp only [Process.step]
    split
    · exact hi
    · exact setThread_inv hi t _
  | bufferInit t site =>
    simp only [Process.step]
    cases hp : p.initBuffer t site with
    | error f => exact initBuffer_error hp
    | ok p' => exact initBuffer_inv hi hp
  | itt t site x =>
    simp only [Process.step]
    split
    · exact hi
    · rename_i th hth
      have hcall : x.usesCollector = true → p.controller.isCollectionEnabled = true →
          p.tornDown = false := by
        intro huses hon
        by_contra htorn
        rw [Bool.not_eq_false] at htorn
        have hoff := hquiet (by rw [hth]; rfl) huses htorn
        exact Bool.false_ne_true (hoff.symm.trans hon)
      split
      · rename_i hbad
        simp only [Bool.and_eq_true] at hbad
        exact absurd (hcall hbad.1.1 hbad.1.2) (by rw [hbad.2]; exact Bool.true_eq_false_eq_False)
      · exact good_ittCall hi t th site hcall
  | threadExit t =>
    simp only [Process.step]
    split
    · exact hi
    · have hi' : Inv { p with threads := Function.update p.threads t none } :=
        inv_of_sameStage hi ⟨rfl, rfl, rfl⟩ rfl
      split
      · exact hi'
      · exact good_destroyBuffer hi' _
  | teardown => exact good_teardown hi

/-- A call after the teardown with collection enabled uses the deleted collector. -/
theorem step_of_not_quiet {p : Process} {a : Action} (h : ¬ p.QuietStep a) :
    p.step a = .error .deletedCollector := by
  cases a with
  | itt t site x =>
    simp only [Process.QuietStep, not_forall] at h
    obtain ⟨hsome, huses, htorn, hon⟩ := h
    obtain ⟨th, hth⟩ := Option.isSome_iff_exists.mp hsome
    simp [Process.step, hth, huses, htorn, hon]
  | threadStart t => exact absurd trivial h
  | bufferInit t site => exact absurd trivial h
  | threadExit t => exact absurd trivial h
  | teardown => exact absurd trivial h

theorem sound_iff_quiet_of_inv {p : Process} (hi : Inv p) (actions : List Action) :
    p.Sound actions ↔ p.Quiet actions := by
  induction actions generalizing p with
  | nil => simp [Process.Sound, Process.Quiet, Process.run]
  | cons a actions ih =>
    simp only [Process.Sound, Process.Quiet, Process.run]
    by_cases hquiet : p.QuietStep a
    · have hgood := good_step hi hquiet
      cases hstep : p.step a with
      | error f =>
        rw [hstep] at hgood
        obtain rfl : f = .other := hgood
        simp [hquiet]
      | ok p' =>
        rw [hstep] at hgood
        have hrest := ih (p := p') hgood
        simp only [Process.Sound] at hrest
        simp [hquiet, hrest]
    · rw [step_of_not_quiet hquiet]
      simp [hquiet]

/-! ## The trace file after the teardown -/

/-- An action after the teardown leaves the trace file as it is. -/
def Closed (p : Process) (outcome : Except Fault Process) : Prop :=
  ∀ p', outcome = .ok p' → p'.registry.file = p.registry.file ∧ p'.tornDown = true

section

variable {p : Process} (htorn : p.tornDown = true)
include htorn

theorem closed_refl : Closed p (.ok p) := by
  intro p' h
  cases h
  exact ⟨rfl, htorn⟩

theorem closed_logThrough (r : Registry) : Closed p (p.logThrough r) := by
  intro p' h
  unfold Process.logThrough at h
  split at h
  · rename_i hfile
    cases h
    exact ⟨hfile, htorn⟩
  · split at h
    · cases h
    · cases h

theorem closed_initBuffer (t : Nat) (site : Site) : Closed p (p.initBuffer t site) := by
  intro p' h
  obtain ⟨⟨hstage, -⟩, -, hsame | ⟨b, -, -, hnew⟩⟩ := initBuffer_cases h
  · exact ⟨by rw [hsame], hstage.trans htorn⟩
  · exact ⟨by rw [hnew]; rfl, hstage.trans htorn⟩

theorem closed_log (t : Nat) (site : Site) (logged : Option LogCall) :
    Closed p (p.log t site logged) := by
  unfold Process.log
  split
  · split
    · intro p' h
      cases h
    · rename_i e p₁ hp₁
      obtain ⟨hfile, htorn₁⟩ := closed_initBuffer htorn t site p₁ hp₁
      unfold Process.ittLoggingCallback
      split
      · intro p' h
        cases h
        exact ⟨hfile, htorn₁⟩
      · split
        · intro p' h
          cases h
        · intro p' h
          obtain ⟨hfile', htorn'⟩ := closed_logThrough htorn₁ _ p' h
          exact ⟨hfile'.trans hfile, htorn'⟩
  · exact closed_refl htorn

theorem closed_ittCall (t : Nat) (th : ThreadState) (site : Site) (x : IttCall) :
    Closed p (p.ittCall t th site x) := by
  cases x with
  | task y =>
    simp only [Process.ittCall]
    split
    · intro p' h
      cases h
    · rename_i s logged hcall
      have htorn' : ({ p with controller := s.controller } : Process).tornDown = true := htorn
      exact closed_log (p := Process.setThread { p with controller := s.controller } t _) htorn' t
        site _
  | eventCreate name => exact closed_refl (p := { p with ittEvents := _ }) htorn
  | eventStart event now => exact closed_refl (p := p.setThread t _) htorn
  | eventEnd event now => exact closed_log (p := p.setThread t _) htorn t site _
  | marker domain name id now => exact closed_log htorn t site _

theorem closed_step (a : Action) : Closed p (p.step a) := by
  cases a with
  | threadStart t =>
    simp only [Process.step]
    split
    · exact closed_refl htorn
    · exact closed_refl (p := p.setThread t {}) htorn
  | bufferInit t site => exact closed_initBuffer htorn t site
  | itt t site x =>
    simp only [Process.step]
    split
    · exact closed_refl htorn
    · split
      · intro p' h
        cases h
      · exact closed_ittCall htorn t _ site x
  | threadExit t =>
    simp only [Process.step]
    split
    · exact closed_refl htorn
    · have htorn' : ({ p with threads := Function.update p.threads t none } : Process).tornDown =
          true := htorn
      split
      · exact closed_refl htorn'
      · unfold Process.destroyBuffer
        split
        · intro p' h
          cases h
        · split
          · intro p' h
            cases h
          · exact closed_logThrough htorn' _
  | teardown =>
    simp only [Process.step, Process.teardown, htorn]
    exact closed_refl htorn

end

/-- Nothing follows the end of the trace file, in any run that has a result. -/
theorem file_of_run {p p' : Process} (htorn : p.tornDown = true) (actions : List Action)
    (h : p.run actions = .ok p') : p'.registry.file = p.registry.file := by
  induction actions generalizing p with
  | nil =>
    cases h
    rfl
  | cons a actions ih =>
    simp only [Process.run] at h
    split at h
    · cases h
    · rename_i p₁ hp₁
      obtain ⟨hfile, htorn₁⟩ := closed_step htorn a p₁ hp₁
      exact (ih htorn₁ h).trans hfile

/-! ## The result -/

theorem new_inv (o : Options) (c : UniController) : Inv (Process.create o c) where
  registry := empty_inv
  logger := by
    intro h
    have h : o.chromeIttLogging = true := h
    simp [Process.create, h]
  idle := by
    intro _ address held hlive
    cases hlive

/-- In a run of a new process the deleted objects stay unused if after the teardown no
call is made while collection is enabled, and only then. -/
theorem sound_iff_quiet (o : Options) (c : UniController) (actions : List Action) :
    (Process.create o c).Sound actions ↔ (Process.create o c).Quiet actions :=
  sound_iff_quiet_of_inv (new_inv o c) actions

/-- Conditional collection is off, so that collection is always enabled. -/
def unconditional : UniController where
  conditionalCollection := false
  ittPaused := false
  environ := none

def ittOnly : Options where
  chromeCallLogging := false
  chromeKernelLogging := false
  chromeDeviceLogging := false
  chromeSyclLogging := false
  chromeIttLogging := true
  cclSummaryReport := false

/-- A thread that starts after the teardown sets a marker. -/
def lateMarker : List Action :=
  [.teardown, .threadStart 1,
    .itt 1 ⟨1, ['2'], mainThread, fun _ _ => staleRecord⟩ (.marker none none none 5)]

theorem not_sound_late_marker :
    ¬ ∀ (o : Options) (c : UniController) (actions : List Action),
      (Process.create o c).Sound actions := by
  intro h
  exact (h ittOnly unconditional lateMarker).1 rfl

end Unitrace.Itt.Teardown
