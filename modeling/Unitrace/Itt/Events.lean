import Mathlib.Logic.Function.Basic
import Unitrace.Itt.TaskEnds

/-!
# Events and markers

An event is a named interval that is started and ended on one thread. A marker is a
point in time. Both are logged without metadata.
-/
namespace Unitrace.Itt.Events

open Unitrace.Lib.Text Unitrace.Lib.ByteString Unitrace.Itt.Control Unitrace.Itt.Tasks
open Unitrace.Itt.TaskEnds Unitrace.Trace.Record

inductive IttError where
  | success
  | noSymbol
  deriving DecidableEq

/-- What a reader of a NUL-terminated string sees of the bytes. -/
def cString (bytes : Bytes) : CStr :=
  ⟨bytes.takeWhile (· ≠ 0), fun h => by simpa using List.mem_takeWhile_imp h⟩

/-- The start times of the events of a thread, by handle. -/
abbrev EventDesc := Int → Option UInt64

/-- A handle that `__itt_event_create` has returned. -/
def known (ittEvents : List Bytes) (event : Int) : Bool :=
  !(event < 0 || event ≥ ittEvents.length)

/-- `__itt_event_start`; an event that has started already keeps its time. -/
def eventStart (c : UniController) (collector : IttCollector) (ittEvents : List Bytes) (event : Int)
    (now : UInt64) (eventDesc : EventDesc) : EventDesc × IttError :=
  if !c.isCollectionEnabled then (eventDesc, .success)
  else if !collector.cclSummaryOn && !collector.chromeLoggingOn then (eventDesc, .success)
  else if !known ittEvents event then (eventDesc, .noSymbol)
  else
    match eventDesc event with
    | some _ => (eventDesc, .success)
    | none => (Function.update eventDesc event (some now), .success)

/-- `__itt_event_end` -/
def eventEnd (c : UniController) (collector : IttCollector) (ittEvents : List Bytes) (event : Int)
    (now : UInt64) (eventDesc : EventDesc) : (EventDesc × Option LogCall) × IttError :=
  if !c.isCollectionEnabled then ((eventDesc, none), .success)
  else if !collector.cclSummaryOn && !collector.chromeLoggingOn then ((eventDesc, none), .success)
  else if !known ittEvents event then ((eventDesc, none), .noSymbol)
  else
    match eventDesc event with
    | none => ((eventDesc, none), .noSymbol)
    | some start =>
      let logged := if collector.chromeLoggingOn then
          some (LogCall.itt { name := some (cString (ittEvents.getD event.toNat [])), startTs := start
                              endTs := now, metadataArgs := none })
        else none
      ((Function.update eventDesc event none, logged), .success)

structure IttId where
  d1 : UInt64
  d2 : UInt64
  d3 : UInt64

/-- The format `%lld`. -/
def longText (d : UInt64) : Bytes := utf8 (signedDecimal d.toInt64.toInt)

/-- The name of a marker: what there is of the domain, the name and the identifier. An
identifier that equals `__itt_null` counts as missing. -/
def markerText (domain name : Option (Option CStr)) (id : Option IttId) : Bytes :=
  let parts := (domain.join.map Subtype.val).toList ++ (name.join.map Subtype.val).toList ++
    match id with
    | some id => [longText id.d1, longText id.d2, longText id.d3]
    | none => []
  if parts = [] then lit "UNNAMED_MARKER" else List.intercalate (lit "::") parts

/-- `__itt_marker` -/
def marker (c : UniController) (collector : IttCollector) (domain name : Option (Option CStr))
    (id : Option IttId) (now : UInt64) : Option LogCall :=
  if !c.isCollectionEnabled then none
  else if !collector.chromeLoggingOn then none
  else some (.itt { name := some (cString ((markerText domain name id).take 1023)), startTs := now
                    endTs := now, metadataArgs := none })

/-! ## When something is logged -/

section

variable {c : UniController} {collector : IttCollector}

theorem eventEnd_logged {ittEvents : List Bytes} {event : Int} {now : UInt64} {eventDesc : EventDesc}
    {l : LogCall} (h : (eventEnd c collector ittEvents event now eventDesc).1.2 = some l) :
    c.isCollectionEnabled = true ∧ collector.chromeLoggingOn = true := by
  unfold eventEnd at h
  split at h
  · cases h
  · rename_i hon
    split at h
    · cases h
    · split at h
      · cases h
      · split at h
        · cases h
        · simp only at h
          split at h
          · rename_i htrace
            exact ⟨by simpa using hon, htrace⟩
          · cases h

theorem marker_logged {domain name : Option (Option CStr)} {id : Option IttId} {now : UInt64}
    {l : LogCall} (h : marker c collector domain name id now = some l) :
    c.isCollectionEnabled = true ∧ collector.chromeLoggingOn = true := by
  unfold marker at h
  split at h
  · cases h
  · rename_i hon
    split at h
    · cases h
    · rename_i htrace
      exact ⟨by simpa using hon, by simpa using htrace⟩

theorem taskEnd_logged {domain : Option (Option CStr)} {now : UInt64}
    {stack stack' : List ThreadTaskDescriptor} {report : Report} {e : IttEvent}
    (h : taskEnd c collector domain now stack = some (stack', report))
    (he : report.logged = some e) :
    c.isCollectionEnabled = true ∧ collector.chromeLoggingOn = true := by
  unfold taskEnd at h
  split at h
  · cases h
    cases he
  · rename_i hon
    split at h
    · cases h
      cases he
    · split at h
      · split at h
        · split at h
          · split at h
            · cases h
              simp only at he
              split at he
              · rename_i htrace
                exact ⟨by simpa using hon, htrace⟩
              · cases he
            · cases h
          · cases h
            cases he
        · cases h
      · cases h
        cases he

theorem taskEndInternal_logged {log : CStr → UInt64 → UInt64 → LogCall}
    {domain : Option (Option CStr)} {now : UInt64} {stack stack' : List ThreadTaskDescriptor}
    {l : LogCall} (h : taskEndInternal log c collector domain now stack = some (stack', some l)) :
    c.isCollectionEnabled = true ∧ collector.chromeLoggingOn = true := by
  unfold taskEndInternal at h
  split at h
  · cases h
  · rename_i hon
    simpa using hon

/-- A call on the task stack logs only when collection is enabled and the trace is on. -/
theorem call_logged {t t' : PausedTasks.Thread} {x : Call} {l : LogCall}
    (h : call t x = some (t', some l)) :
    t.controller.isCollectionEnabled = true ∧ t.collector.chromeLoggingOn = true := by
  cases x with
  | ittPause => cases h
  | ittResume => cases h
  | taskBegin domain name now memory => cases h
  | taskEnd ending domain now =>
    obtain ⟨⟨stack, logged⟩, hend, heq⟩ := Option.map_eq_some_iff.mp h
    cases heq
    cases ending with
    | plain =>
      obtain ⟨⟨rest, report⟩, htask, heq⟩ := Option.map_eq_some_iff.mp hend
      simp only [Prod.mk.injEq] at heq
      obtain ⟨e, he, -⟩ := Option.map_eq_some_iff.mp heq.2
      exact taskEnd_logged htask he
    | exInfo info =>
      rw [Ending.call, taskEndInternalExInfo] at hend
      exact taskEndInternal_logged hend
    | callbackInfo info =>
      rw [Ending.call, taskEndInternalCallbackInfo] at hend
      exact taskEndInternal_logged hend

end

end Unitrace.Itt.Events
