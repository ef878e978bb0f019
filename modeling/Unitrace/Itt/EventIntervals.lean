import Unitrace.Itt.Events

/-!
# The intervals of events

An event starts and ends on one thread, and its start and its end each test whether
collection is enabled. A start keeps the time that is stored for the event already. An
end that is ignored leaves the time there, and the next end that is collected reports it.
-/
namespace Unitrace.Itt.EventIntervals

open Unitrace.Lib.ByteString Unitrace.Itt.Control Unitrace.Itt.Tasks Unitrace.Itt.Events
open Unitrace.Itt.TaskEnds Unitrace.Trace.Record

/-- What the end of an event of this name reports. -/
def intervalReport (collector : IttCollector) (name : Bytes) (start stop : UInt64) : Report where
  summary := if collector.cclSummaryOn then some (name, stop - start) else none
  logged := if collector.chromeLoggingOn then
      some { name := some (cString name), startTs := start, endTs := stop, metadataArgs := none }
    else none

/-- `__itt_event_end` with the time that it adds to the summary. -/
def eventEndReport (c : UniController) (collector : IttCollector) (ittEvents : List Bytes)
    (event : Int) (now : UInt64) (eventDesc : EventDesc) : (EventDesc × Report) × IttError :=
  if !c.isCollectionEnabled then ((eventDesc, {}), .success)
  else if !collector.cclSummaryOn && !collector.chromeLoggingOn then ((eventDesc, {}), .success)
  else if !known ittEvents event then ((eventDesc, {}), .noSymbol)
  else
    match eventDesc event with
    | none => ((eventDesc, {}), .noSymbol)
    | some start =>
      ((Function.update eventDesc event none,
        intervalReport collector (ittEvents.getD event.toNat []) start now), .success)

/-- The report is of an interval from `start` to `stop`. -/
structure RunsFrom (r : Report) (start stop : UInt64) : Prop where
  summary : ∀ x ∈ r.summary, x.2 = stop - start
  logged : ∀ e ∈ r.logged, e.startTs = start ∧ e.endTs = stop

theorem runsFrom_intervalReport {collector : IttCollector} {name : Bytes}
    (hon : (collector.cclSummaryOn || collector.chromeLoggingOn) = true) {s start stop : UInt64} :
    RunsFrom (intervalReport collector name s stop) start stop ↔ s = start := by
  constructor
  · intro h
    cases htrace : collector.chromeLoggingOn with
    | true =>
      have he := h.logged { name := some (cString name), startTs := s, endTs := stop
                            metadataArgs := none } (by simp [intervalReport, htrace])
      exact he.1
    | false =>
      rw [htrace, Bool.or_false] at hon
      have hs := h.summary (name, stop - s) (by simp [intervalReport, hon])
      exact (UInt64.sub_right_inj stop).mp hs
  · intro h
    subst h
    constructor
    · intro x hx
      simp only [intervalReport, Option.mem_ite_none_right, Option.mem_some_iff] at hx
      rw [← hx.2]
    · intro e he
      simp only [intervalReport, Option.mem_ite_none_right, Option.mem_some_iff] at he
      rw [← he.2]
      exact ⟨rfl, rfl⟩

theorem intervalReport_ne {collector : IttCollector} {name : Bytes}
    (hon : (collector.cclSummaryOn || collector.chromeLoggingOn) = true) {start stop : UInt64} :
    intervalReport collector name start stop ≠ {} := by
  intro h
  rw [intervalReport, Report.mk.injEq] at h
  cases htrace : collector.chromeLoggingOn <;> simp_all

/-! ## Histories -/

inductive Call where
  | ittPause
  | ittResume
  | eventStart (event : Int)
  | eventEnd (event : Int)

/-- The event that a call is for. -/
def Call.event? : Call → Option Int
  | .ittPause => none
  | .ittResume => none
  | .eventStart event => some event
  | .eventEnd event => some event

/-- The state that the calls of one thread read and write. -/
structure Thread where
  controller : UniController
  collector : IttCollector
  ittEvents : List Bytes
  eventDesc : EventDesc

/-- One call, which reads `now` if it reads the clock. -/
def Thread.step (t : Thread) (now : UInt64) : Call → Thread
  | .ittPause => { t with controller := t.controller.ittPause }
  | .ittResume => { t with controller := t.controller.ittResume }
  | .eventStart event =>
    let (eventDesc, _) :=
      Events.eventStart t.controller t.collector t.ittEvents event now t.eventDesc
    { t with eventDesc := eventDesc }
  | .eventEnd event =>
    let ((eventDesc, _), _) :=
      eventEndReport t.controller t.collector t.ittEvents event now t.eventDesc
    { t with eventDesc := eventDesc }

/-- The thread after a history, which has the newest call in front. The clock is given by
the number of calls that are earlier. -/
def Thread.after (clock : Nat → UInt64) (t : Thread) : List Call → Thread
  | [] => t
  | call :: earlier => (Thread.after clock t earlier).step (clock earlier.length) call

/-- The report of an end of the event that follows the history. -/
def Thread.report (clock : Nat → UInt64) (t : Thread) (earlier : List Call) (event : Int) :
    Report :=
  let t := t.after clock earlier
  (eventEndReport t.controller t.collector t.ittEvents event (clock earlier.length)
    t.eventDesc).1.2

/-- The last call for the event is a start, and `before` is what is earlier than it. -/
def Opened (event : Int) (history before : List Call) : Prop :=
  ∃ between, history = between ++ .eventStart event :: before ∧
    ∀ call ∈ between, call.event? ≠ some event

/-- The calls for the event are starts and ends in turn, a start first. -/
def Alternates (event : Int) : List Call → Prop
  | [] => True
  | .ittPause :: earlier => Alternates event earlier
  | .ittResume :: earlier => Alternates event earlier
  | .eventStart e :: earlier =>
    (e = event → ¬∃ before, Opened event earlier before) ∧ Alternates event earlier
  | .eventEnd e :: earlier =>
    (e = event → ∃ before, Opened event earlier before) ∧ Alternates event earlier

/-- Whatever an end of an event reports, the interval is the one from the last start. -/
def RunsFromLastStart (clock : Nat → UInt64) (t : Thread) (history : List Call) : Prop :=
  ∀ later event earlier, history = later ++ .eventEnd event :: earlier →
    t.report clock earlier event ≠ {} →
    ∃ before, Opened event earlier before ∧
      RunsFrom (t.report clock earlier event) (clock before.length) (clock earlier.length)

/-! ## What the calls do -/

/-- The controller after a history. -/
def control (c : UniController) : List Call → UniController
  | [] => c
  | .ittPause :: earlier => (control c earlier).ittPause
  | .ittResume :: earlier => (control c earlier).ittResume
  | .eventStart _ :: earlier => control c earlier
  | .eventEnd _ :: earlier => control c earlier

/-- A start or an end of the event is not ignored. -/
def collected (c : UniController) (collector : IttCollector) (ittEvents : List Bytes)
    (event : Int) : Bool :=
  c.isCollectionEnabled && (collector.cclSummaryOn || collector.chromeLoggingOn) &&
    known ittEvents event

/-- A start or an end of the event that follows the history is not ignored. -/
def Thread.collects (t : Thread) (event : Int) (earlier : List Call) : Bool :=
  collected (control t.controller earlier) t.collector t.ittEvents event

/-- Which start has its time stored for the event: how many calls are earlier than it. -/
def Thread.origin (t : Thread) (event : Int) : List Call → Option Nat
  | [] => none
  | .ittPause :: earlier => t.origin event earlier
  | .ittResume :: earlier => t.origin event earlier
  | .eventStart e :: earlier =>
    if e = event ∧ t.collects event earlier then
      (t.origin event earlier).or (some earlier.length)
    else t.origin event earlier
  | .eventEnd e :: earlier =>
    if e = event ∧ t.collects event earlier then none else t.origin event earlier

section

variable {c : UniController} {collector : IttCollector} {ittEvents : List Bytes}

/-- The guards of both calls. -/
theorem fst_guards {α : Type*} (event : Int) (ignored : α) (result : α × IttError) :
    (if !c.isCollectionEnabled then (ignored, .success)
      else if !collector.cclSummaryOn && !collector.chromeLoggingOn then (ignored, .success)
      else if !known ittEvents event then (ignored, .noSymbol) else result).1 =
      if collected c collector ittEvents event then result.1 else ignored := by
  unfold collected
  cases c.isCollectionEnabled with
  | false => rfl
  | true =>
    cases collector.cclSummaryOn <;> cases collector.chromeLoggingOn <;>
      cases known ittEvents event <;> rfl

theorem eventStart_eq (event : Int) (now : UInt64) (eventDesc : EventDesc) :
    (Events.eventStart c collector ittEvents event now eventDesc).1 =
      if collected c collector ittEvents event then
        Function.update eventDesc event ((eventDesc event).or (some now))
      else eventDesc := by
  rw [Events.eventStart, fst_guards]
  cases hd : eventDesc event with
  | none => rfl
  | some start =>
    have hself : Function.update eventDesc event (some start) = eventDesc := by
      rw [← hd, Function.update_eq_self]
    rw [Option.some_or, hself]

theorem eventStart_eventDesc (e event : Int) (now : UInt64) (eventDesc : EventDesc) :
    (Events.eventStart c collector ittEvents e now eventDesc).1 event =
      if e = event ∧ collected c collector ittEvents event then
        (eventDesc event).or (some now)
      else eventDesc event := by
  rw [eventStart_eq]
  by_cases he : e = event
  · subst he
    cases collected c collector ittEvents e <;> simp
  · have hno : ¬(e = event ∧ collected c collector ittEvents event = true) := fun h => he h.1
    rw [if_neg hno]
    cases collected c collector ittEvents e with
    | false => rfl
    | true => exact Function.update_of_ne (fun h => he h.symm) _ _

theorem eventEndReport_eq (event : Int) (now : UInt64) (eventDesc : EventDesc) :
    (eventEndReport c collector ittEvents event now eventDesc).1 =
      if collected c collector ittEvents event then
        match eventDesc event with
        | none => (eventDesc, {})
        | some start =>
          (Function.update eventDesc event none,
            intervalReport collector (ittEvents.getD event.toNat []) start now)
      else (eventDesc, {}) := by
  rw [eventEndReport, fst_guards]
  cases eventDesc event <;> rfl

theorem eventEndReport_eventDesc (e event : Int) (now : UInt64) (eventDesc : EventDesc) :
    (eventEndReport c collector ittEvents e now eventDesc).1.1 event =
      if e = event ∧ collected c collector ittEvents event then none else eventDesc event := by
  rw [eventEndReport_eq]
  by_cases he : e = event
  · subst he
    cases collected c collector ittEvents e with
    | false => simp
    | true => cases hd : eventDesc e <;> simp [hd]
  · have hno : ¬(e = event ∧ collected c collector ittEvents event = true) := fun h => he h.1
    rw [if_neg hno]
    cases collected c collector ittEvents e with
    | false => rfl
    | true =>
      cases eventDesc e with
      | none => rfl
      | some start => exact Function.update_of_ne (fun h => he h.symm) _ _

end

section

variable {clock : Nat → UInt64} {t : Thread}

theorem after_collector (history : List Call) :
    (t.after clock history).collector = t.collector := by
  induction history with
  | nil => rfl
  | cons call earlier ih => cases call <;> exact ih

theorem after_ittEvents (history : List Call) :
    (t.after clock history).ittEvents = t.ittEvents := by
  induction history with
  | nil => rfl
  | cons call earlier ih => cases call <;> exact ih

theorem after_controller (history : List Call) :
    (t.after clock history).controller = control t.controller history := by
  induction history with
  | nil => rfl
  | cons call earlier ih =>
    cases call with
    | ittPause => exact congrArg UniController.ittPause ih
    | ittResume => exact congrArg UniController.ittResume ih
    | eventStart e => exact ih
    | eventEnd e => exact ih

theorem collected_after (event : Int) (history : List Call) :
    collected (t.after clock history).controller (t.after clock history).collector
      (t.after clock history).ittEvents event = t.collects event history := by
  rw [after_controller, after_collector, after_ittEvents]
  rfl

/-- The stored time is the one that the clock showed at the origin. -/
theorem after_eventDesc (hempty : ∀ event, t.eventDesc event = none) (event : Int)
    (history : List Call) :
    (t.after clock history).eventDesc event = (t.origin event history).map clock := by
  induction history with
  | nil => exact hempty event
  | cons call earlier ih =>
    cases call with
    | ittPause => exact ih
    | ittResume => exact ih
    | eventStart e =>
      simp only [Thread.after, Thread.step, Thread.origin, eventStart_eventDesc, collected_after,
        ih]
      split
      · rw [Option.map_or]
        rfl
      · rfl
    | eventEnd e =>
      simp only [Thread.after, Thread.step, Thread.origin, eventEndReport_eventDesc,
        collected_after, ih]
      split
      · rfl
      · rfl

theorem report_eq (hempty : ∀ event, t.eventDesc event = none) (event : Int)
    (earlier : List Call) :
    t.report clock earlier event =
      if t.collects event earlier then
        match t.origin event earlier with
        | none => {}
        | some k => intervalReport t.collector (t.ittEvents.getD event.toNat []) (clock k)
            (clock earlier.length)
      else {} := by
  simp only [Thread.report, eventEndReport_eq, collected_after, after_eventDesc hempty]
  rw [after_collector, after_ittEvents]
  cases t.collects event earlier with
  | false => rfl
  | true => cases t.origin event earlier <;> rfl

end

/-! ## The last start -/

section

variable {event : Int} {earlier before : List Call}

theorem not_opened_nil : ¬Opened event [] before := by
  rintro ⟨between, h, -⟩
  simp at h

theorem opened_start : Opened event (.eventStart event :: earlier) before ↔ before = earlier := by
  constructor
  · rintro ⟨between, h, hno⟩
    cases between with
    | nil =>
      cases h
      rfl
    | cons call between =>
      cases h
      exact absurd rfl (hno _ List.mem_cons_self)
  · rintro rfl
    exact ⟨[], rfl, by simp⟩

theorem not_opened_end : ¬Opened event (.eventEnd event :: earlier) before := by
  rintro ⟨between, h, hno⟩
  cases between with
  | nil => cases h
  | cons call between =>
    cases h
    exact hno _ List.mem_cons_self rfl

theorem opened_other {call : Call} (hcall : call.event? ≠ some event) :
    Opened event (call :: earlier) before ↔ Opened event earlier before := by
  constructor
  · rintro ⟨between, h, hno⟩
    cases between with
    | nil =>
      cases h
      exact absurd rfl hcall
    | cons call' between =>
      cases h
      exact ⟨between, rfl, fun x hx => hno x (List.mem_cons_of_mem _ hx)⟩
  · rintro ⟨between, rfl, hno⟩
    refine ⟨call :: between, rfl, fun x hx => ?_⟩
    rcases List.mem_cons.mp hx with rfl | hx
    · exact hcall
    · exact hno x hx

/-- A call is a start or an end of the event, or it is not for the event. -/
theorem call_cases (event : Int) (call : Call) :
    call = .eventStart event ∨ call = .eventEnd event ∨ call.event? ≠ some event := by
  cases call with
  | ittPause => exact .inr (.inr (by simp [Call.event?]))
  | ittResume => exact .inr (.inr (by simp [Call.event?]))
  | eventStart e =>
    by_cases he : e = event
    · exact .inl (congrArg Call.eventStart he)
    · exact .inr (.inr (by simpa [Call.event?] using he))
  | eventEnd e =>
    by_cases he : e = event
    · exact .inr (.inl (congrArg Call.eventEnd he))
    · exact .inr (.inr (by simpa [Call.event?] using he))

theorem alternates_tail {call : Call} (h : Alternates event (call :: earlier)) :
    Alternates event earlier := by
  cases call with
  | ittPause => exact h
  | ittResume => exact h
  | eventStart e => exact h.2
  | eventEnd e => exact h.2

end

/-! ## Times that are left behind -/

/-- A start of the event was collected and its end was ignored. -/
def Left (t : Thread) (event : Int) (history : List Call) : Prop :=
  ∃ later earlier before, history = later ++ .eventEnd event :: earlier ∧
    Opened event earlier before ∧ t.collects event before = true ∧
    t.collects event earlier = false

/-- No end of an event is collected once an end of it was ignored after a collected start. -/
def NothingLeft (t : Thread) (history : List Call) : Prop :=
  ∀ later event earlier, history = later ++ .eventEnd event :: earlier →
    t.collects event earlier = true → ¬Left t event earlier

section

variable {t : Thread} {event : Int} {call : Call} {earlier : List Call}

theorem left_tail (h : Left t event earlier) : Left t event (call :: earlier) := by
  obtain ⟨later, stop, before, rfl, h⟩ := h
  exact ⟨call :: later, stop, before, rfl, h⟩

theorem left_cases (h : Left t event (call :: earlier)) :
    Left t event earlier ∨ (call = .eventEnd event ∧ ∃ before, Opened event earlier before ∧
      t.collects event before = true ∧ t.collects event earlier = false) := by
  obtain ⟨later, stop, before, heq, h⟩ := h
  cases later with
  | nil =>
    cases heq
    exact .inr ⟨rfl, before, h⟩
  | cons first later =>
    cases heq
    exact .inl ⟨later, stop, before, rfl, h⟩

theorem nothingLeft_tail (h : NothingLeft t (call :: earlier)) : NothingLeft t earlier := by
  intro later event stop heq
  exact h (call :: later) event stop (congrArg (List.cons call) heq)

theorem origin_other (hcall : call.event? ≠ some event) :
    t.origin event (call :: earlier) = t.origin event earlier := by
  cases call with
  | ittPause => rfl
  | ittResume => rfl
  | eventStart e => exact if_neg fun h => hcall (congrArg some h.1)
  | eventEnd e => exact if_neg fun h => hcall (congrArg some h.1)

theorem origin_start : t.origin event (.eventStart event :: earlier) =
    if t.collects event earlier then (t.origin event earlier).or (some earlier.length)
    else t.origin event earlier := by
  simp only [Thread.origin, true_and]

theorem origin_end : t.origin event (.eventEnd event :: earlier) =
    if t.collects event earlier then none else t.origin event earlier := by
  simp only [Thread.origin, true_and]

theorem origin_lt {history : List Call} {k : Nat} (h : t.origin event history = some k) :
    k < history.length := by
  induction history with
  | nil => cases h
  | cons call earlier ih =>
    rw [List.length_cons]
    rcases call_cases event call with rfl | rfl | hcall
    · rw [origin_start] at h
      split at h
      · rcases Option.or_eq_some_iff.mp h with h | ⟨-, h⟩
        · have := ih h
          omega
        · cases h
          omega
      · have := ih h
        omega
    · rw [origin_end] at h
      split at h
      · cases h
      · have := ih h
        omega
    · rw [origin_other hcall] at h
      have := ih h
      omega

/-- With nothing left behind, the stored time is that of the last start if the start was
collected and its end is still to come. -/
theorem origin_of_not_left {history : List Call} (halt : Alternates event history)
    (hleft : ¬Left t event history) (k : Nat) :
    t.origin event history = some k ↔
      ∃ before, Opened event history before ∧ t.collects event before = true ∧
        k = before.length := by
  induction history generalizing k with
  | nil =>
    constructor
    · intro h
      cases h
    · rintro ⟨before, h, -⟩
      exact absurd h not_opened_nil
  | cons call earlier ih =>
    have ih := ih (alternates_tail halt) (fun h => hleft (left_tail h))
    rcases call_cases event call with rfl | rfl | hcall
    · -- The call before this start is not a start, so nothing is stored yet.
      have hnone : t.origin event earlier = none := by
        cases h : t.origin event earlier with
        | none => rfl
        | some k =>
          obtain ⟨before, hopen, -⟩ := (ih k).mp h
          exact absurd ⟨before, hopen⟩ (halt.1 rfl)
      simp only [origin_start, hnone, opened_start, exists_eq_left, Option.none_or]
      cases t.collects event earlier <;> simp [eq_comm]
    · obtain ⟨before, hopen⟩ := halt.1 rfl
      have hnone : t.origin event (.eventEnd event :: earlier) = none := by
        rw [origin_end]
        cases hcol : t.collects event earlier with
        | true => rfl
        | false =>
          cases h : t.origin event earlier with
          | none => rfl
          | some k =>
            obtain ⟨before', hopen', hcol', -⟩ := (ih k).mp h
            exact absurd ⟨[], earlier, before', rfl, hopen', hcol', hcol⟩ hleft
      rw [hnone]
      constructor
      · intro h
        cases h
      · rintro ⟨before', h, -⟩
        exact absurd h not_opened_end
    · rw [origin_other hcall]
      simp only [opened_other hcall]
      exact ih k

/-- A time that is left behind stays stored, and it is older than the last start. -/
theorem origin_of_left {history : List Call} (halt : Alternates event history)
    (hnothing : NothingLeft t history) (hleft : Left t event history) :
    ∃ k, t.origin event history = some k ∧
      ∀ before, Opened event history before → k < before.length := by
  induction history with
  | nil =>
    obtain ⟨later, stop, before, h, -⟩ := hleft
    simp at h
  | cons call earlier ih =>
    have halt' := alternates_tail halt
    have ih := ih halt' (nothingLeft_tail hnothing)
    rcases left_cases hleft with hearlier | ⟨rfl, before, hopen, hbefore, hnow⟩
    · obtain ⟨k, hk, hold⟩ := ih hearlier
      refine ⟨k, ?_⟩
      rcases call_cases event call with rfl | rfl | hcall
      · constructor
        · rw [origin_start, hk]
          cases t.collects event earlier <;> rfl
        · intro before hopen
          rw [opened_start.mp hopen]
          exact origin_lt hk
      · constructor
        · rw [origin_end, hk]
          cases hcol : t.collects event earlier with
          | true => exact absurd hearlier (hnothing [] event earlier rfl hcol)
          | false => rfl
        · intro before hopen
          exact absurd hopen not_opened_end
      · constructor
        · rw [origin_other hcall, hk]
        · intro before hopen
          exact hold before ((opened_other hcall).mp hopen)
    · by_cases hearlier : Left t event earlier
      · obtain ⟨k, hk, -⟩ := ih hearlier
        refine ⟨k, ?_, fun before hopen => absurd hopen not_opened_end⟩
        rw [origin_end, hnow, hk]
        rfl
      · have hk := (origin_of_not_left halt' hearlier before.length).mpr
          ⟨before, hopen, hbefore, rfl⟩
        refine ⟨before.length, ?_, fun before hopen => absurd hopen not_opened_end⟩
        rw [origin_end, hnow, hk]
        rfl

end

/-! ## The intervals -/

section

variable {t : Thread} {history : List Call}

theorem alternates_suffix {event : Int} {later earlier : List Call}
    (h : Alternates event (later ++ earlier)) : Alternates event earlier := by
  induction later with
  | nil => exact h
  | cons call later ih => exact ih (alternates_tail h)

theorem runsFromLastStart_tail {clock : Nat → UInt64} {call : Call}
    (h : RunsFromLastStart clock t (call :: history)) : RunsFromLastStart clock t history := by
  intro later event earlier heq
  exact h (call :: later) event earlier (congrArg (List.cons call) heq)

theorem collects_reports {event : Int} {earlier : List Call}
    (h : t.collects event earlier = true) :
    (t.collector.cclSummaryOn || t.collector.chromeLoggingOn) = true ∧
      known t.ittEvents event = true := by
  rw [Thread.collects, collected, Bool.and_eq_true, Bool.and_eq_true] at h
  exact ⟨h.1.2, h.2⟩

theorem report_origin (clock : Nat → UInt64) (hempty : ∀ event, t.eventDesc event = none)
    {event : Int} {earlier : List Call} {k : Nat} (hcol : t.collects event earlier = true)
    (hk : t.origin event earlier = some k) :
    t.report clock earlier event = intervalReport t.collector (t.ittEvents.getD event.toNat [])
      (clock k) (clock earlier.length) := by
  rw [report_eq hempty, if_pos hcol, hk]

theorem report_some {clock : Nat → UInt64} (hempty : ∀ event, t.eventDesc event = none)
    {event : Int} {earlier : List Call} (h : t.report clock earlier event ≠ {}) :
    t.collects event earlier = true ∧ ∃ k, t.origin event earlier = some k := by
  rw [report_eq hempty] at h
  split at h
  · rename_i hcol
    cases hk : t.origin event earlier with
    | none =>
      rw [hk] at h
      exact absurd rfl h
    | some k => exact ⟨hcol, k, rfl⟩
  · exact absurd rfl h

theorem runsFromLastStart_of_nothingLeft (hempty : ∀ event, t.eventDesc event = none)
    (halt : ∀ event, known t.ittEvents event = true → Alternates event history)
    (hnothing : NothingLeft t history) (clock : Nat → UInt64) :
    RunsFromLastStart clock t history := by
  intro later event earlier heq hreport
  obtain ⟨hcol, k, hk⟩ := report_some hempty hreport
  obtain ⟨hon, hknown⟩ := collects_reports hcol
  have halt' : Alternates event earlier := by
    have h := halt event hknown
    rw [heq] at h
    exact alternates_tail (alternates_suffix h)
  obtain ⟨before, hopen, -, rfl⟩ :=
    (origin_of_not_left halt' (hnothing later event earlier heq hcol) k).mp hk
  refine ⟨before, hopen, ?_⟩
  rw [report_origin clock hempty hcol hk]
  exact (runsFrom_intervalReport hon).mpr rfl

/-- A clock that moves after the origin shows the time that is left behind. -/
theorem nothingLeft_of_runsFromLastStart (hempty : ∀ event, t.eventDesc event = none)
    (halt : ∀ event, known t.ittEvents event = true → Alternates event history)
    (h : ∀ clock, RunsFromLastStart clock t history) : NothingLeft t history := by
  induction history with
  | nil =>
    intro later event earlier heq
    simp at heq
  | cons call rest ih =>
    have hrest : NothingLeft t rest :=
      ih (fun event hknown => alternates_tail (halt event hknown))
        (fun clock => runsFromLastStart_tail (h clock))
    intro later event earlier heq hcol hleft
    cases later with
    | cons first later =>
      cases heq
      exact hrest later event earlier rfl hcol hleft
    | nil =>
      cases heq
      obtain ⟨hon, hknown⟩ := collects_reports hcol
      obtain ⟨k, hk, hold⟩ := origin_of_left (alternates_tail (halt event hknown)) hrest hleft
      have hreport := fun clock => report_origin clock hempty hcol hk
      obtain ⟨before, hopen, hruns⟩ := h (fun i => if i ≤ k then 0 else 1) [] event rest rfl
        (by
          rw [hreport]
          exact intervalReport_ne hon)
      rw [hreport, runsFrom_intervalReport hon] at hruns
      have hlt := hold before hopen
      have hnot : ¬before.length ≤ k := by omega
      simp only [le_refl, hnot, if_true, if_false] at hruns
      exact absurd hruns (by decide)

end

/-- In a history in which the starts and ends of every event alternate, all intervals run
from the start before the end exactly when no time that was left behind is reported. -/
theorem runs_from_last_start_iff (t : Thread) (hempty : ∀ event, t.eventDesc event = none)
    (history : List Call)
    (halt : ∀ event, known t.ittEvents event = true → Alternates event history) :
    (∀ clock, RunsFromLastStart clock t history) ↔ NothingLeft t history :=
  ⟨nothingLeft_of_runsFromLastStart hempty halt, fun h clock =>
    runsFromLastStart_of_nothingLeft hempty halt h clock⟩

/-- A thread of a process that has created one event. -/
def counting : Thread where
  controller := PausedTasks.collecting
  collector := ⟨true, true⟩
  ittEvents := [[65]]
  eventDesc := fun _ => none

/-- The event starts and ends twice. Its first end falls into a pause. -/
def endInPause : List Call :=
  [.eventEnd 0, .eventStart 0, .ittResume, .eventEnd 0, .ittPause, .eventStart 0]

theorem endInPause_alternates (event : Int) : Alternates event endInPause := by
  have hstart (history : List Call) :
      event = 0 → ∃ before, Opened event (.eventStart 0 :: history) before := by
    rintro rfl
    exact ⟨history, opened_start.mpr rfl⟩
  have hpause (history before : List Call) :
      Opened event (.ittPause :: history) before ↔ Opened event history before :=
    opened_other (by simp [Call.event?])
  have hresume (history before : List Call) :
      Opened event (.ittResume :: history) before ↔ Opened event history before :=
    opened_other (by simp [Call.event?])
  simp only [endInPause, Alternates, hpause, hresume]
  refine ⟨fun h => hstart _ h.symm, ?_, fun h => hstart _ h.symm, ?_, trivial⟩
  · rintro rfl ⟨before, h⟩
    exact not_opened_end h
  · rintro - ⟨before, h⟩
    exact not_opened_nil h

theorem runs_from_last_start_inside :
    (∀ clock, RunsFromLastStart clock counting endInPause) ↔ NothingLeft counting endInPause :=
  runs_from_last_start_iff counting (fun _ => rfl) endInPause fun event _ =>
    endInPause_alternates event

/-- The second end reports an interval from the first start. -/
theorem not_runs_from_last_start :
    ¬∀ (t : Thread) (clock : Nat → UInt64) (history : List Call),
      t.controller.conditionalCollection = true → (∀ event, t.eventDesc event = none) →
      (∀ event, known t.ittEvents event = true → Alternates event history) →
      RunsFromLastStart clock t history := by
  intro h
  have hnothing : NothingLeft counting endInPause :=
    nothingLeft_of_runsFromLastStart (fun _ => rfl) (fun event _ => endInPause_alternates event)
      fun clock => h counting clock endInPause rfl (fun _ => rfl) fun event _ =>
        endInPause_alternates event
  have hpaused : counting.collects 0 [.ittPause, .eventStart 0] = false := by
    rw [Thread.collects, collected]
    exact congrArg (fun b => b && _ && _) PausedTasks.paused_disabled
  refine hnothing [] 0 _ rfl ?_
    ⟨[.eventStart 0, .ittResume], [.ittPause, .eventStart 0], [], rfl,
      (opened_other (by simp [Call.event?])).mpr (opened_start.mpr rfl), ?_, hpaused⟩
  · rw [Thread.collects, collected]
    exact congrArg (fun b => b && _ && _) PausedTasks.resumed_enabled
  · rw [Thread.collects, collected]
    exact congrArg (fun b => b && _ && _) PausedTasks.collecting_enabled

end Unitrace.Itt.EventIntervals
