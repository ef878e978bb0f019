import Unitrace.Itt.PausedTasks
import Unitrace.Itt.TaskIntervals
import Unitrace.Trace.Timeline

/-!
# From task calls to the trace file

The threads of a process begin and end tasks, and any of them may pause the collection. Each
thread has its own stack of tasks and its own trace buffer, which is constructed with its
first event. After the teardown the file has for each thread the events that its calls
logged, and whatever the order of the calls was, the intervals of a thread are laminar.
-/
namespace Unitrace.Trace.TracedTasks

open Unitrace.Itt Unitrace.Lib Unitrace.Lib.Text Unitrace.Lib.ByteString Unitrace.Lib.Utf8 Unitrace.Lib.Json
open Unitrace.Itt.Control Unitrace.Itt.Tasks Unitrace.Itt.TaskEnds Unitrace.Itt.TaskIntervals
open Unitrace.Itt.PausedTasks (taskA collecting collecting_enabled descriptor eventOf taskBegin_eq taskEnd_eq)
open Unitrace.Trace.Record Unitrace.Trace.Buffer Unitrace.Trace.TraceBuffers
open Unitrace.Trace.ChromeLog Unitrace.Trace.TimelineValue Unitrace.Trace.Timeline

/-- The buffer of a thread: its address while it exists, and the number of the thread in the
registry from the construction on. -/
inductive Own where
  | unused
  | used (address number : Nat)
  | gone (number : Nat)

def Own.number : Own → Option Nat
  | .unused => none
  | .used _ number => some number
  | .gone number => some number

structure Process where
  registry : Registry
  controller : UniController
  own : Nat → Own
  trails : Nat → Trail
  /-- The calls of each thread so far. -/
  made : Nat → List TaskEnds.Call
  /-- The events that they logged. -/
  recorded : Nat → List IttEvent

def Process.start (c : UniController) (collector : IttCollector) : Process where
  registry := {}
  controller := c
  own := fun _ => .unused
  trails := fun _ => Trail.start ⟨c, collector, []⟩
  made := fun _ => []
  recorded := fun _ => []

/-- A thread with the controller that all threads share. -/
def Process.trail (s : Process) (i : Nat) : Trail :=
  { s.trails i with thread := { (s.trails i).thread with controller := s.controller } }

/-- Of the callbacks only the one for tasks is installed. -/
def passedOn (effect : Effect) : Option IttEvent :=
  match effect.logged with
  | some (.itt e) => some e
  | _ => none

def Process.called (s : Process) (i : Nat) (x : TaskEnds.Call) (t : Trail) (effect : Effect) : Process :=
  { s with
    controller := t.thread.controller
    trails := Function.update s.trails i t
    made := Function.update s.made i (s.made i ++ [x])
    recorded := Function.update s.recorded i (s.recorded i ++ (passedOn effect).toList) }

/-- The steps of the threads. The first event of a thread constructs its buffer, and the exit
of the thread destroys it. -/
inductive Step : Process → Process → Prop where
  | silent {s : Process} {i : Nat} {x : TaskEnds.Call} {t : Trail} {effect : Effect}
      (hown : ∀ n, s.own i ≠ .gone n) (hcall : (s.trail i).step x = some (t, effect))
      (hnone : passedOn effect = none) : Step s (s.called i x t effect)
  | first {s : Process} {i : Nat} {x : TaskEnds.Call} {t : Trail} {effect : Effect} {e : IttEvent}
      {address : Nat} {b : TraceBuffer} (szstr : Str) (o : Origin) (memory : Memory)
      (hown : s.own i = .unused) (hcall : (s.trail i).step x = some (t, effect))
      (hlog : passedOn effect = some e) (hfree : s.registry.live address = none)
      (hcreate : TraceBuffer.create szstr o memory = some b) :
      Step s { s.called i x t effect with
        registry := (s.registry.construct address b).callback address ⟨s.registry.threads, b⟩ e
        own := Function.update s.own i (.used address s.registry.threads) }
  | again {s : Process} {i : Nat} {x : TaskEnds.Call} {t : Trail} {effect : Effect} {e : IttEvent}
      {address n : Nat} {held : Held} (hown : s.own i = .used address n)
      (hcall : (s.trail i).step x = some (t, effect)) (hlog : passedOn effect = some e)
      (hlive : s.registry.live address = some held) :
      Step s { s.called i x t effect with registry := s.registry.callback address held e }
  | exit {s : Process} {i address n : Nat} {held : Held} {r : Registry}
      (hown : s.own i = .used address n) (hlive : s.registry.live address = some held)
      (hdestroy : s.registry.destroy address held = some r) :
      Step s { s with registry := r, own := Function.update s.own i (.gone n) }

def Reachable (c : UniController) (collector : IttCollector) (s : Process) : Prop :=
  Relation.ReflTransGen Step (Process.start c collector) s

/-! ## The calls of one thread -/

/-- What a step does to the thread that makes a call: it makes no other change to the tasks
of any thread. -/
theorem step_called {s s' : Process} (h : Step s s') :
    (∃ i x t effect, (s.trail i).step x = some (t, effect) ∧
      s'.trails = Function.update s.trails i t ∧
      s'.made = Function.update s.made i (s.made i ++ [x]) ∧
      s'.recorded = Function.update s.recorded i (s.recorded i ++ (passedOn effect).toList)) ∨
      (s'.trails = s.trails ∧ s'.made = s.made ∧ s'.recorded = s.recorded) := by
  cases h with
  | silent hown hcall hnone => exact Or.inl ⟨_, _, _, _, hcall, rfl, rfl, rfl⟩
  | first szstr o memory hown hcall hlog hfree hcreate =>
    exact Or.inl ⟨_, _, _, _, hcall, rfl, rfl, rfl⟩
  | again hown hcall hlog hlive => exact Or.inl ⟨_, _, _, _, hcall, rfl, rfl, rfl⟩
  | exit hown hlive hdestroy => exact Or.inr ⟨rfl, rfl, rfl⟩

/-- A property of one thread that its calls keep, whatever the controller is, holds in every
run. -/
theorem reachable_thread {P : List TaskEnds.Call → Trail → List IttEvent → Prop} {c : UniController}
    {collector : IttCollector} (hstart : P [] (Trail.start ⟨c, collector, []⟩) [])
    (hstep : ∀ made trail recorded x t effect (c : UniController), P made trail recorded →
      Trail.step { trail with thread := { trail.thread with controller := c } } x = some (t, effect) →
      P (made ++ [x]) t (recorded ++ (passedOn effect).toList))
    {s : Process} (hs : Reachable c collector s) (i : Nat) :
    P (s.made i) (s.trails i) (s.recorded i) := by
  induction hs with
  | refl => exact hstart
  | tail _ h ih =>
    rcases step_called h with ⟨j, x, t, effect, hcall, htrails, hmade, hrecorded⟩ |
      ⟨htrails, hmade, hrecorded⟩
    · rw [htrails, hmade, hrecorded]
      by_cases hij : i = j
      · subst hij
        simp only [Function.update_self]
        exact hstep _ _ _ _ _ _ _ ih hcall
      · simp only [Function.update_of_ne hij]
        exact ih
    · rw [htrails, hmade, hrecorded]
      exact ih

/-! ## Nested intervals -/

/-- The events come from begin calls of their own, and their intervals are laminar. -/
def NestedLog (calls : List TaskEnds.Call) (events : List IttEvent) : Prop :=
  ∃ intervals : List (OpenIntervals.Interval Nat),
    intervals.map (fun i => (i.start, i.stop)) =
      events.map (fun e => (e.startTs.toNat, e.endTs.toNat)) ∧
    intervals.Pairwise OpenIntervals.Interval.Laminar ∧
    ∀ i ∈ intervals, i.start ≤ i.stop ∧ Begun calls i.toOpened

/-- The stack and the closed intervals of a thread whose clock has not gone back. -/
def Timed (made : List TaskEnds.Call) (trail : Trail) (recorded : List IttEvent) : Prop :=
  (made.filterMap clock).Pairwise (· ≤ ·) → ∃ now closed, TaskIntervals.Inv made trail now closed ∧
    trail.next = made.length ∧
    (∀ bound, (∀ t ∈ made.filterMap clock, t.toNat ≤ bound) → now ≤ bound) ∧
    (recorded.map fun e => (e.startTs.toNat, e.endTs.toNat)).Sublist
      (closed.map fun i => (i.start, i.stop))

theorem begun_append {calls : List TaskEnds.Call} {e : OpenIntervals.Opened Nat} (h : Begun calls e)
    (more : List TaskEnds.Call) : Begun (calls ++ more) e := by
  obtain ⟨domain, name, now, memory, hcall, hstart⟩ := h
  obtain ⟨hlt, -⟩ := List.getElem?_eq_some_iff.mp hcall
  exact ⟨domain, name, now, memory, (List.getElem?_append_left hlt).trans hcall, hstart⟩

/-- The invariant looks at the stack only, and not at the controller. -/
theorem inv_append {made : List TaskEnds.Call} {trail : Trail} {now : Nat}
    {closed : List (OpenIntervals.Interval Nat)} (h : TaskIntervals.Inv made trail now closed)
    (more : List TaskEnds.Call) (c : UniController) :
    TaskIntervals.Inv (made ++ more) { trail with thread := { trail.thread with controller := c } }
      now closed where
  aligned := h.aligned
  nested := h.nested
  opened_begun := fun e he => begun_append (h.opened_begun e he) more
  closed_begun := fun i hi => begun_append (h.closed_begun i hi) more

/-- An event that is passed on is the interval that the call closes. -/
theorem points_passedOn {effect : Effect} :
    ((passedOn effect).toList.map fun e => (e.startTs.toNat, e.endTs.toNat)).Sublist
      (endPoints effect).toList := by
  unfold passedOn endPoints
  split
  · rename_i e hlogged
    rw [hlogged]
    exact List.Sublist.refl _
  · exact List.nil_sublist _

theorem timed_step {made : List TaskEnds.Call} {trail t : Trail} {recorded : List IttEvent}
    {x : TaskEnds.Call} {effect : Effect} {c : UniController} (h : Timed made trail recorded)
    (hcall : Trail.step { trail with thread := { trail.thread with controller := c } } x =
      some (t, effect)) :
    Timed (made ++ [x]) t (recorded ++ (passedOn effect).toList) := by
  intro hclock
  rw [List.filterMap_append] at hclock
  obtain ⟨hmade, -, hbehind⟩ := List.pairwise_append.mp hclock
  obtain ⟨now, closed, hinv, hnext, hbound, hsublist⟩ := h hmade
  have hx : (made ++ [x])[trail.next]? = some x := by
    rw [hnext, List.getElem?_append_right (Nat.le_refl _), Nat.sub_self]
    rfl
  have hlate : ∀ time, clock x = some time → now ≤ time.toNat := by
    intro time htime
    refine hbound _ fun t' ht' => UInt64.le_iff_toNat_le.mp (hbehind t' ht' time ?_)
    simp [htime]
  obtain ⟨hinv', hpoints⟩ := step_inv (inv_append hinv [x] c) hx hlate hcall
  refine ⟨_, _, hinv', ?_, fun bound hall => ?_, ?_⟩
  · rw [(TaskEnds.step_cases hcall).1, List.length_append]
    exact congrArg (· + 1) hnext
  · rw [List.filterMap_append] at hall
    cases htime : clock x with
    | none => exact hbound bound fun t' ht' => hall t' (List.mem_append_left _ ht')
    | some time => exact hall time (List.mem_append_right _ (by simp [htime]))
  · rw [List.map_append, List.map_append]
    refine hsublist.append ?_
    have hlist : (interval effect).toList.map (fun i => (i.start, i.stop)) =
        (endPoints effect).toList := by
      rw [← hpoints]
      cases interval effect <;> rfl
    rw [hlist]
    exact points_passedOn

/-- Whatever the other threads do, the events of a thread are nested. -/
theorem nestedLog_of_reachable {c : UniController} {collector : IttCollector} {s : Process}
    (hs : Reachable c collector s) {i : Nat}
    (hclock : ((s.made i).filterMap clock).Pairwise (· ≤ ·)) :
    NestedLog (s.made i) (s.recorded i) := by
  have hstart : Timed [] (Trail.start ⟨c, collector, []⟩) [] := fun _ =>
    ⟨0, [], start_inv [] c collector, rfl, fun _ _ => Nat.zero_le _, List.Sublist.refl _⟩
  have htimed := reachable_thread (P := Timed) hstart
    (fun _ _ _ _ _ _ _ h hcall => timed_step h hcall) hs i
  obtain ⟨now, closed, hinv, -, -, hsublist⟩ := htimed hclock
  obtain ⟨intervals, hintervals, hmap⟩ := List.sublist_map_iff.mp hsublist
  exact ⟨intervals, hmap.symm, hinv.nested.laminar.sublist hintervals, fun i hi =>
    ⟨(hinv.nested.closed_before i (hintervals.subset hi)).2.1,
      hinv.closed_begun i (hintervals.subset hi)⟩⟩

/-! ## Strings that read back -/

/-- A handle whose string is stored whole and needs no escapes. -/
def PlainHandle (handle : Option (Option CStr)) : Prop :=
  ∀ text, handle = some (some text) → text.val.length < 510 ∧ isPlainText text.val = true

def PlainCall : TaskEnds.Call → Prop
  | .taskBegin domain name _ _ => PlainHandle domain ∧ PlainHandle name
  | _ => True

/-- An array that holds a plain string, and not a long one. -/
def PlainArray (a : CharArray) : Prop :=
  ∀ text, a.text = some text → text.val.length < 510 ∧ isPlainText text.val = true

/-- The entry of a task that is reported under a plain name and without metadata. -/
structure PlainEntry (d : ThreadTaskDescriptor) : Prop where
  domain : PlainArray d.domain
  name : PlainArray d.name
  count : d.metadataArgs.count = 0

theorem text_clearFirst (a : CharArray) : a.clearFirst.text = some ⟨[], zero_notMem_nil⟩ := by
  obtain ⟨bytes, hlen⟩ := a
  cases bytes with
  | nil => cases hlen
  | cons b bytes =>
    have hfirst : (CharArray.clearFirst ⟨b :: bytes, hlen⟩).val = [] ++ 0 :: bytes := rfl
    exact text_of_terminated hfirst

theorem isPlainText_nil : isPlainText [] = true := isPlainText_iff.mpr ⟨[], rfl, rfl⟩

theorem plainArray_store (dst : CharArray) {handle : Option (Option CStr)} (h : PlainHandle handle) :
    PlainArray (dst.store handle) := by
  have hcleared : PlainArray dst.clearFirst := by
    intro text htext
    rw [text_clearFirst] at htext
    obtain rfl := Option.some.inj htext
    exact ⟨by decide, isPlainText_nil⟩
  rcases handle with _ | _ | text
  · exact hcleared
  · exact hcleared
  · intro text' htext
    obtain ⟨hshort, hplain⟩ := h text rfl
    rw [text_store_short dst ⟨text, hshort⟩] at htext
    obtain rfl := Option.some.inj htext
    exact ⟨hshort, hplain⟩

theorem isPlainText_qualified {domain name : CStr} (hdomain : isPlainText domain.val = true)
    (hname : isPlainText name.val = true) : isPlainText (qualified domain name).val = true := by
  obtain ⟨d, hd, hdplain⟩ := isPlainText_iff.mp hdomain
  obtain ⟨n, hn, hnplain⟩ := isPlainText_iff.mp hname
  have hseparator : (chars "::").all isPlain = true := plain_literal rfl
  refine isPlainText_iff.mpr ⟨d ++ chars "::" ++ n, ?_, ?_⟩
  · rw [utf8_append, utf8_append, hd, hn]
    rfl
  · rw [List.all_append, List.all_append, hdplain, hseparator, hnplain]
    rfl

/-- The event of a plain entry reads back. -/
theorem isReadable_taskEnd {c : UniController} {collector : IttCollector}
    {domain : Option (Option CStr)} {now : UInt64} {stack stack' : List ThreadTaskDescriptor}
    {report : Report} (hstack : ∀ d ∈ stack, PlainEntry d)
    (h : Tasks.taskEnd c collector domain now stack = some (stack', report)) {e : IttEvent}
    (he : report.logged = some e) : isReadable e = true := by
  unfold Tasks.taskEnd at h
  split at h
  · cases h
    cases he
  · split at h
    · cases h
      cases he
    · split at h
      · rename_i top rest nameA
        have htop := hstack top List.mem_cons_self
        split at h
        · rename_i topDomain wanted hdomain
          split at h
          · split at h
            · rename_i topName hname
              cases h
              dsimp only at he
              split at he
              · cases he
                obtain ⟨hdlen, hdplain⟩ := htop.domain topDomain hdomain
                obtain ⟨hnlen, hnplain⟩ := htop.name topName hname
                have hwhole : (CStr.truncate (qualified topDomain topName) 1055).val =
                    (qualified topDomain topName).val := by
                  have hseparator : (lit "::").length = 2 := by decide +kernel
                  refine List.take_of_length_le ?_
                  simp only [qualified, List.length_append, hseparator]
                  omega
                have hplain := isPlainText_qualified hdplain hnplain
                rw [← hwhole] at hplain
                simp [isReadable, isCleanName, IttEvent.shown, Option.filter_some, htop.count, hplain]
              · cases he
            · cases h
          · cases h
            cases he
        · cases h
      · cases h
        cases he

/-- What is true of a thread that has been given plain strings only. -/
def Plain (made : List TaskEnds.Call) (trail : Trail) (recorded : List IttEvent) : Prop :=
  (∀ x ∈ made, PlainCall x) →
    (∀ d ∈ trail.thread.taskDesc, PlainEntry d) ∧ ∀ e ∈ recorded, isReadable e = true

theorem plainEntry_begin {c : UniController} {collector : IttCollector}
    {domain name : Option (Option CStr)} {now : UInt64} {memory : ThreadTaskDescriptor}
    {stack : List ThreadTaskDescriptor} (hstack : ∀ d ∈ stack, PlainEntry d)
    (hdomain : PlainHandle domain) (hname : PlainHandle name) :
    ∀ d ∈ Tasks.taskBegin c collector domain name now memory stack, PlainEntry d := by
  unfold Tasks.taskBegin
  split
  · exact hstack
  · split
    · exact hstack
    · exact List.forall_mem_cons.mpr
        ⟨⟨plainArray_store _ hdomain, plainArray_store _ hname, rfl⟩, hstack⟩

theorem passedOn_eq_some {effect : Effect} {e : IttEvent} (h : passedOn effect = some e) :
    effect.logged = some (.itt e) := by
  unfold passedOn at h
  split at h
  · rename_i e' hlogged
    rw [hlogged, Option.some.inj h]
  · cases h

theorem plain_call {t t' : PausedTasks.Thread} {x : TaskEnds.Call} {logged : Option LogCall}
    (hx : PlainCall x) (hstack : ∀ d ∈ t.taskDesc, PlainEntry d)
    (h : TaskEnds.call t x = some (t', logged)) :
    (∀ d ∈ t'.taskDesc, PlainEntry d) ∧ ∀ e, logged = some (.itt e) → isReadable e = true := by
  cases x with
  | ittPause =>
    cases h
    exact ⟨hstack, fun e he => by cases he⟩
  | ittResume =>
    cases h
    exact ⟨hstack, fun e he => by cases he⟩
  | taskBegin domain name now memory =>
    cases h
    exact ⟨plainEntry_begin hstack hx.1 hx.2, fun e he => by cases he⟩
  | taskEnd ending domain now =>
    obtain ⟨⟨rest, logged'⟩, hend, heq⟩ := Option.map_eq_some_iff.mp h
    cases heq
    constructor
    · rcases ending_cases hend with ⟨top, hpop, -⟩ | ⟨hsame, -⟩
      · rw [hpop] at hstack
        exact fun d hd => hstack d (List.mem_cons_of_mem top hd)
      · dsimp only
        rw [hsame]
        exact hstack
    · intro e he
      cases ending with
      | plain =>
        obtain ⟨⟨rest', report⟩, hplain, heq⟩ := Option.map_eq_some_iff.mp hend
        cases heq
        obtain ⟨e', hlogged, heq⟩ := Option.map_eq_some_iff.mp he
        cases heq
        exact isReadable_taskEnd hstack hplain hlogged
      | exInfo info =>
        rw [Ending.call, taskEndInternalExInfo] at hend
        rcases taskEndInternal_cases hend with ⟨top, name, -, hlogged⟩ | ⟨-, hlogged⟩
        · rw [hlogged] at he
          cases he
        · rw [hlogged] at he
          cases he
      | callbackInfo info =>
        rw [Ending.call, taskEndInternalCallbackInfo] at hend
        rcases taskEndInternal_cases hend with ⟨top, name, -, hlogged⟩ | ⟨-, hlogged⟩
        · rw [hlogged] at he
          cases he
        · rw [hlogged] at he
          cases he

theorem plain_step {made : List TaskEnds.Call} {trail t : Trail} {recorded : List IttEvent}
    {x : TaskEnds.Call} {effect : Effect} {c : UniController} (h : Plain made trail recorded)
    (hcall : Trail.step { trail with thread := { trail.thread with controller := c } } x =
      some (t, effect)) :
    Plain (made ++ [x]) t (recorded ++ (passedOn effect).toList) := by
  intro hmade
  obtain ⟨hbefore, hx⟩ := List.forall_mem_append.mp hmade
  obtain ⟨hstack, hrecorded⟩ := h hbefore
  obtain ⟨⟨t', logged⟩, hthread, heq⟩ := Option.map_eq_some_iff.mp hcall
  cases heq
  obtain ⟨hstack', hlogged⟩ := plain_call (t := { trail.thread with controller := c })
    (hx x List.mem_cons_self) hstack hthread
  refine ⟨hstack', fun e he => ?_⟩
  rcases List.mem_append.mp he with he | he
  · exact hrecorded e he
  · exact hlogged e (passedOn_eq_some (Option.mem_toList.mp he))

theorem isReadable_of_reachable {c : UniController} {collector : IttCollector} {s : Process}
    (hs : Reachable c collector s) {i : Nat} (hplain : ∀ x ∈ s.made i, PlainCall x) :
    ∀ e ∈ s.recorded i, isReadable e = true := by
  have hstart : Plain [] (Trail.start ⟨c, collector, []⟩) [] := fun _ =>
    ⟨by simp [Trail.start], by simp⟩
  exact (reachable_thread (P := Plain) hstart
    (fun _ _ _ _ _ _ _ h hcall => plain_step h hcall) hs i hplain).2

/-! ## The buffers of the threads -/

/-- The events of each thread are those of its buffer, and the buffers that exist are open. -/
structure Wired (s : Process) (calls : List Timeline.Call) : Prop where
  traced : Traced s.registry calls
  opened : ∀ p held, s.registry.live p = some held → held.buffer.finalized = false
  used : ∀ i address n, s.own i = .used address n →
    ∃ held, s.registry.live address = some held ∧ held.thread = n
  lt : ∀ i n, (s.own i).number = some n → n < s.registry.threads
  inj : ∀ i j n, (s.own i).number = some n → (s.own j).number = some n → i = j
  owner : ∀ n < s.registry.threads, ∃ i, (s.own i).number = some n
  unused : ∀ i, (s.own i).number = none → s.recorded i = []
  events : ∀ i n, (s.own i).number = some n →
    (ofThread calls n).map LoggedEvent.event = s.recorded i

theorem wired_start (c : UniController) (collector : IttCollector) :
    Wired (Process.start c collector) [] where
  traced := .start
  opened := fun p held h => by cases h
  used := fun i address n h => by cases h
  lt := fun i n h => by cases h
  inj := fun i j n h => by cases h
  owner := fun n h => absurd h (Nat.not_lt_zero n)
  unused := fun _ _ => rfl
  events := fun i n h => by cases h

/-- A call that logs nothing leaves the buffers alone. -/
theorem wired_silent {s : Process} {calls : List Timeline.Call} (h : Wired s calls) {i : Nat}
    {x : TaskEnds.Call} {t : Trail} {effect : Effect} (hnone : passedOn effect = none) :
    Wired (s.called i x t effect) calls := by
  have hrecorded : (s.called i x t effect).recorded = s.recorded := by
    rw [Process.called, hnone, Option.toList_none, List.append_nil, Function.update_eq_self]
  exact ⟨h.traced, h.opened, h.used, h.lt, h.inj, h.owner, by rw [hrecorded]; exact h.unused,
    by rw [hrecorded]; exact h.events⟩

theorem ofThread_callOf_ne (calls : List Timeline.Call) (held : Held) (e : IttEvent) {n : Nat}
    (hne : n ≠ held.thread) : ofThread (calls ++ [callOf held e]) n = ofThread calls n := by
  rw [ofThread_append]
  simp [ofThread, callOf, hne.symm]

/-- A callback adds the event to those of its thread. -/
theorem traced_callback {r : Registry} {calls : List Timeline.Call} (h : Traced r calls)
    {address : Nat} {held : Held} (hlive : r.live address = some held)
    (hopen : held.buffer.finalized = false) (e : IttEvent) :
    Traced (r.callback address held e) (calls ++ [callOf held e]) ∧
      (ofThread (calls ++ [callOf held e]) held.thread).map LoggedEvent.event =
        (ofThread calls held.thread).map LoggedEvent.event ++ [e] := by
  have hcallback := Traced.callback e h hlive
  rw [hopen, if_neg Bool.false_ne_true] at hcallback
  refine ⟨hcallback, ?_⟩
  rw [ofThread_callOf, List.map_append]
  rfl

theorem opened_callback {r : Registry}
    (h : ∀ p held, r.live p = some held → held.buffer.finalized = false) {address : Nat} {held : Held}
    (hlive : r.live address = some held) (e : IttEvent) :
    ∀ p held', (r.callback address held e).live p = some held' → held'.buffer.finalized = false := by
  intro p held' hp
  by_cases hpa : p = address
  · subst hpa
    simp only [Registry.callback, Registry.update, Function.update_self, Option.some.injEq] at hp
    rw [← hp]
    exact (finalized_callback held.buffer e).trans (h p held hlive)
  · simp only [Registry.callback, Registry.update, Function.update_of_ne hpa] at hp
    exact h p held' hp

theorem wired_again {s : Process} {calls : List Timeline.Call} (h : Wired s calls) {i : Nat}
    {x : TaskEnds.Call} {t : Trail} {effect : Effect} {e : IttEvent} {address n : Nat} {held : Held}
    (hown : s.own i = .used address n) (hlog : passedOn effect = some e)
    (hlive : s.registry.live address = some held) :
    Wired { s.called i x t effect with registry := s.registry.callback address held e }
      (calls ++ [callOf held e]) := by
  have hnumber : (s.own i).number = some n := by rw [hown, Own.number]
  have hn : held.thread = n := by
    obtain ⟨held', hlive', hthread⟩ := h.used i address n hown
    cases hlive.symm.trans hlive'
    exact hthread
  obtain ⟨htraced, hevents⟩ := traced_callback h.traced hlive (h.opened address held hlive) e
  refine ⟨htraced, opened_callback h.opened hlive e, fun j address' n' hj => ?_, h.lt, h.inj, h.owner,
    fun j hj => ?_, fun j n' hj => ?_⟩
  · obtain ⟨held', hlive', hthread⟩ := h.used j address' n' hj
    by_cases haddress : address' = address
    · subst haddress
      cases hlive.symm.trans hlive'
      exact ⟨_, Function.update_self .., hthread⟩
    · exact ⟨held', (Function.update_of_ne haddress ..).trans hlive', hthread⟩
  · have hji : j ≠ i := by
      rintro rfl
      cases hnumber.symm.trans hj
    exact (Function.update_of_ne hji ..).trans (h.unused j hj)
  · by_cases hji : j = i
    · subst hji
      obtain rfl := Option.some.inj (hnumber.symm.trans hj)
      show _ = Function.update s.recorded j (s.recorded j ++ (passedOn effect).toList) j
      rw [Function.update_self, hlog, ← h.events j n hj, ← hn, hevents]
      rfl
    · have hne : n' ≠ held.thread := by
        rintro rfl
        exact hji (h.inj j i _ hj (hn ▸ hnumber))
      show _ = Function.update s.recorded i (s.recorded i ++ (passedOn effect).toList) j
      rw [Function.update_of_ne hji, ofThread_callOf_ne calls held e hne]
      exact h.events j n' hj

theorem number_construct {s : Process} {i address : Nat} (hown : s.own i = .unused) {j n : Nat}
    (h : ((Function.update s.own i (.used address s.registry.threads)) j).number = some n) :
    j = i ∧ n = s.registry.threads ∨ j ≠ i ∧ (s.own j).number = some n := by
  by_cases hji : j = i
  · subst hji
    rw [Function.update_self, Own.number, Option.some.injEq] at h
    exact Or.inl ⟨rfl, h.symm⟩
  · rw [Function.update_of_ne hji] at h
    exact Or.inr ⟨hji, h⟩

/-- The first event of a thread goes to the buffer that is constructed for it. -/
theorem wired_first {s : Process} {calls : List Timeline.Call} (h : Wired s calls) {i : Nat}
    {x : TaskEnds.Call} {t : Trail} {effect : Effect} {e : IttEvent} {address : Nat} {b : TraceBuffer}
    {szstr : Str} {o : Origin} {memory : Memory} (hown : s.own i = .unused)
    (hlog : passedOn effect = some e) (hfree : s.registry.live address = none)
    (hcreate : TraceBuffer.create szstr o memory = some b) :
    Wired { s.called i x t effect with
      registry := (s.registry.construct address b).callback address ⟨s.registry.threads, b⟩ e
      own := Function.update s.own i (.used address s.registry.threads) }
      (calls ++ [callOf ⟨s.registry.threads, b⟩ e]) := by
  have hopen : b.finalized = false := (create_inv hcreate).open_
  have hunused : (s.own i).number = none := by rw [hown, Own.number]
  have hconstruct : Traced (s.registry.construct address b) calls :=
    .construct szstr o memory h.traced hfree hcreate
  have hlive : (s.registry.construct address b).live address = some ⟨s.registry.threads, b⟩ :=
    Function.update_self ..
  have hopened : ∀ p held, (s.registry.construct address b).live p = some held →
      held.buffer.finalized = false := by
    intro p held hp
    by_cases hpa : p = address
    · subst hpa
      rw [hlive] at hp
      obtain rfl := Option.some.inj hp
      exact hopen
    · exact h.opened p held ((Function.update_of_ne hpa ..).symm.trans hp)
  obtain ⟨htraced, hevents⟩ := traced_callback hconstruct hlive hopen e
  have hnew : ofThread calls s.registry.threads = [] := by
    obtain ⟨logged, hi⟩ := h.traced.inv
    exact hi.new _ (Nat.le_refl _)
  refine ⟨htraced, opened_callback hopened hlive e, fun j address' n' hj => ?_, fun j n' hj => ?_,
    fun j k n' hj hk => ?_, fun n' hn' => ?_, fun j hj => ?_, fun j n' hj => ?_⟩
  · by_cases hji : j = i
    · subst hji
      dsimp only at hj
      rw [Function.update_self] at hj
      cases hj
      exact ⟨_, Function.update_self .., rfl⟩
    · dsimp only at hj
      rw [Function.update_of_ne hji] at hj
      obtain ⟨held', hlive', hthread⟩ := h.used j address' n' hj
      have hne : address' ≠ address := by
        rintro rfl
        rw [hfree] at hlive'
        cases hlive'
      refine ⟨held', ?_, hthread⟩
      exact (Function.update_of_ne hne ..).trans ((Function.update_of_ne hne ..).trans hlive')
  · show n' < s.registry.threads + 1
    rcases number_construct hown hj with ⟨-, rfl⟩ | ⟨-, hold⟩
    · exact Nat.lt_succ_self _
    · exact Nat.lt_succ_of_lt (h.lt j n' hold)
  · rcases number_construct hown hj with ⟨rfl, rfl⟩ | ⟨-, hold⟩
    · rcases number_construct hown hk with ⟨rfl, -⟩ | ⟨-, hold'⟩
      · rfl
      · exact absurd (h.lt k _ hold') (Nat.lt_irrefl _)
    · rcases number_construct hown hk with ⟨-, rfl⟩ | ⟨-, hold'⟩
      · exact absurd (h.lt j _ hold) (Nat.lt_irrefl _)
      · exact h.inj j k n' hold hold'
  · by_cases hlast : n' = s.registry.threads
    · subst hlast
      refine ⟨i, ?_⟩
      dsimp only
      rw [Function.update_self, Own.number]
    · have hle : n' < s.registry.threads + 1 := hn'
      obtain ⟨j, hj⟩ := h.owner n' (by omega)
      refine ⟨j, ?_⟩
      have hji : j ≠ i := by
        rintro rfl
        rw [hunused] at hj
        cases hj
      dsimp only
      rw [Function.update_of_ne hji]
      exact hj
  · have hji : j ≠ i := by
      rintro rfl
      dsimp only at hj
      rw [Function.update_self] at hj
      cases hj
    dsimp only at hj
    rw [Function.update_of_ne hji] at hj
    exact (Function.update_of_ne hji ..).trans (h.unused j hj)
  · show _ = Function.update s.recorded i (s.recorded i ++ (passedOn effect).toList) j
    rcases number_construct hown hj with ⟨rfl, rfl⟩ | ⟨hji, hold⟩
    · rw [Function.update_self, hlog, h.unused j hunused, hevents]
      dsimp only
      rw [hnew]
      rfl
    · have hlt := h.lt j n' hold
      rw [Function.update_of_ne hji, ofThread_callOf_ne calls _ e (Nat.ne_of_lt hlt)]
      exact h.events j n' hold

/-- The destructor flushes what the thread has recorded. -/
theorem wired_exit {s : Process} {calls : List Timeline.Call} (h : Wired s calls) {i address n : Nat}
    {held : Held} {r : Registry} (hown : s.own i = .used address n)
    (hlive : s.registry.live address = some held)
    (hdestroy : s.registry.destroy address held = some r) :
    Wired { s with registry := r, own := Function.update s.own i (.gone n) } calls := by
  obtain ⟨-, hgone, hthreads⟩ := destroy_eq hdestroy
  have hnumber : (s.own i).number = some n := by rw [hown, Own.number]
  have hold : ∀ p held', r.live p = some held' → p ≠ address ∧ s.registry.live p = some held' := by
    intro p held' hp
    rw [hgone] at hp
    by_cases hpa : p = address
    · rw [hpa, Function.update_self] at hp
      cases hp
    · rw [Function.update_of_ne hpa] at hp
      exact ⟨hpa, hp⟩
  have hsame : ∀ j, ((Function.update s.own i (.gone n)) j).number = (s.own j).number := by
    intro j
    by_cases hji : j = i
    · rw [hji, Function.update_self, hnumber, Own.number]
    · rw [Function.update_of_ne hji]
  refine ⟨.destroy h.traced hlive hdestroy, fun p held' hp => h.opened p held' (hold p held' hp).2,
    fun j address' n' hj => ?_, fun j n' hj => ?_, fun j k n' hj hk => ?_, fun n' hn' => ?_,
    fun j hj => ?_, fun j n' hj => ?_⟩
  · dsimp only at hj
    have hji : j ≠ i := by
      rintro rfl
      rw [Function.update_self] at hj
      cases hj
    rw [Function.update_of_ne hji] at hj
    obtain ⟨held', hlive', hthread⟩ := h.used j address' n' hj
    have hne : address' ≠ address := by
      rintro rfl
      obtain ⟨held'', hlive'', hthread''⟩ := h.used i address' n hown
      cases hlive'.symm.trans hlive''
      obtain rfl := hthread.symm.trans hthread''
      exact hji (h.inj j i _ (by rw [hj, Own.number]) hnumber)
    exact ⟨held', by rw [hgone, Function.update_of_ne hne]; exact hlive', hthread⟩
  · rw [hthreads]
    exact h.lt j n' ((hsame j).symm.trans hj)
  · exact h.inj j k n' ((hsame j).symm.trans hj) ((hsame k).symm.trans hk)
  · obtain ⟨j, hj⟩ := h.owner n' (hthreads ▸ hn')
    exact ⟨j, (hsame j).trans hj⟩
  · exact h.unused j ((hsame j).symm.trans hj)
  · exact h.events j n' ((hsame j).symm.trans hj)

theorem exists_wired {c : UniController} {collector : IttCollector} {s : Process}
    (hs : Reachable c collector s) : ∃ calls, Wired s calls := by
  induction hs with
  | refl => exact ⟨[], wired_start c collector⟩
  | tail _ h ih =>
    obtain ⟨calls, hwired⟩ := ih
    cases h with
    | silent hown hcall hnone => exact ⟨calls, wired_silent hwired hnone⟩
    | first szstr o memory hown hcall hlog hfree hcreate =>
      exact ⟨_, wired_first hwired hown hlog hfree hcreate⟩
    | again hown hcall hlog hlive => exact ⟨_, wired_again hwired hown hlog hlive⟩
    | exit hown hlive hdestroy => exact ⟨calls, wired_exit hwired hown hlive hdestroy⟩

/-! ## The file of the process -/

theorem thread_lt {s : Process} {calls logged : List Timeline.Call} (h : Wired s calls)
    (hthreads : ∀ n, ofThread logged n = ofThread calls n) {call : Timeline.Call}
    (hcall : call ∈ logged) : call.1 < s.registry.threads := by
  obtain ⟨flushed, hi⟩ := h.traced.inv
  by_contra hge
  have hmem : call.2 ∈ ofThread logged call.1 :=
    List.mem_map_of_mem (List.mem_filter.mpr ⟨hcall, decide_eq_true rfl⟩)
  rw [hthreads, hi.new _ (Nat.le_of_not_lt hge)] at hmem
  cases hmem

/-- The events in the file, each with the thread that made the call. -/
theorem exists_owned {s : Process} {calls logged : List Timeline.Call} (h : Wired s calls)
    (hthreads : ∀ n, ofThread logged n = ofThread calls n) :
    ∃ owned : List Timeline.Call, owned.map Prod.snd = logged.map Prod.snd ∧
      ∀ i, (ofThread owned i).map LoggedEvent.event = s.recorded i := by
  have howner := h.owner
  choose! owner howner using howner
  refine ⟨logged.map fun call => (owner call.1, call.2), by simp [Function.comp_def], fun i => ?_⟩
  have hlist : (ofThread (logged.map fun call => (owner call.1, call.2)) i).map LoggedEvent.event =
      (logged.filter fun call => owner call.1 = i).map fun call => call.2.event := by
    simp only [ofThread, List.filter_map, List.map_map, Function.comp_def]
  rw [hlist]
  cases hi : (s.own i).number with
  | none =>
    rw [h.unused i hi, List.map_eq_nil_iff, List.filter_eq_nil_iff]
    intro call hcall howned
    have hnumber := howner _ (thread_lt h hthreads hcall)
    rw [of_decide_eq_true howned, hi] at hnumber
    cases hnumber
  | some n =>
    have hfilter : (logged.filter fun call => owner call.1 = i) =
        logged.filter fun call => call.1 = n := by
      refine List.filter_congr fun call hcall => decide_eq_decide.mpr ?_
      have hnumber := howner _ (thread_lt h hthreads hcall)
      constructor
      · intro howned
        rw [howned, hi] at hnumber
        exact (Option.some.inj hnumber).symm
      · intro hcallee
        exact h.inj _ _ n (hnumber.trans (congrArg some hcallee)) hi
    rw [hfilter, ← h.events i n hi, ← hthreads, ofThread, List.map_map]
    rfl

theorem calls_eq_nil_iff {s : Process} {calls owned : List Timeline.Call} {events : List LoggedEvent}
    (hcalls : calls = [] ↔ events = []) (hevents : owned.map Prod.snd = events)
    (howned : ∀ i, (ofThread owned i).map LoggedEvent.event = s.recorded i) :
    calls = [] ↔ ∀ i, s.recorded i = [] := by
  rw [hcalls, ← hevents, List.map_eq_nil_iff]
  constructor
  · rintro rfl i
    rw [← howned]
    rfl
  · intro hnone
    by_contra hne
    obtain ⟨call, hcall⟩ := List.exists_mem_of_ne_nil _ hne
    have hmem : call.2.event ∈ (ofThread owned call.1).map LoggedEvent.event :=
      List.mem_map_of_mem (List.mem_map_of_mem (List.mem_filter.mpr ⟨hcall, decide_eq_true rfl⟩))
    rw [howned, hnone] at hmem
    cases hmem

/-- Whatever the threads of a process call and in whatever order, the teardown leaves a file
exactly if an event was logged. It reads back with the objects of the events that each thread
logged, in their order, and the intervals of each thread are laminar, given clocks that do
not go back and plain strings. -/
theorem task_timeline {l : Launch} {c : UniController} {collector : IttCollector} {s : Process}
    {r : Registry} (hs : Reachable c collector s) (hfinalize : s.registry.finalizeAll = some r)
    (hlabel : isLiteralBody l.label = true)
    (hclock : ∀ i, ((s.made i).filterMap clock).Pairwise (· ≤ ·))
    (hplain : ∀ i, ∀ x ∈ s.made i, PlainCall x) :
    (∀ i, NestedLog (s.made i) (s.recorded i)) ∧
    ((∀ i, s.recorded i = []) → timelineFile l r = none) ∧
    ((∃ i, s.recorded i ≠ []) → ∃ file text, timelineFile l r = some file ∧
      decode file = some text ∧ ∃ owned : List Timeline.Call,
        (∀ i, (ofThread owned i).map LoggedEvent.event = s.recorded i) ∧
        parse text = some (timeline l (owned.map Prod.snd))) := by
  obtain ⟨calls, hwired⟩ := exists_wired hs
  obtain ⟨logged, hthreads, hfile⟩ := exists_logged l hwired.traced hfinalize
  obtain ⟨owned, hevents, howned⟩ := exists_owned hwired hthreads
  have hnil := calls_eq_nil_iff (logged_eq_nil_iff hthreads).symm hevents howned
  refine ⟨fun i => nestedLog_of_reachable hs (hclock i), fun hnone => ?_, fun hsome => ?_⟩
  · rw [hfile, if_pos (hnil.mpr hnone)]
  · obtain ⟨i, hi⟩ := hsome
    rw [if_neg fun h => hi (hnil.mp h i)] at hfile
    have hreadable : ∀ e ∈ owned.map Prod.snd, isReadable e.event = true := by
      intro e he
      obtain ⟨call, hcall, rfl⟩ := List.mem_map.mp he
      refine isReadable_of_reachable hs (hplain call.1) _ ?_
      rw [← howned]
      exact List.mem_map_of_mem
        (List.mem_map_of_mem (List.mem_filter.mpr ⟨hcall, decide_eq_true rfl⟩))
    rw [← hevents] at hfile
    obtain ⟨text, hdecode, hparse⟩ := parse_traceText hlabel hreadable
    exact ⟨_, text, hfile, hdecode, owned, howned, hparse⟩

/-! ## A run of two threads -/

def beginA : TaskEnds.Call :=
  .taskBegin (some (some taskA.name.val)) (some (some taskA.name.val)) 1 taskA.memory

def endA : TaskEnds.Call := .taskEnd .plain (some (some taskA.name.val)) 5

def inTask : Trail where
  thread := ⟨collecting, ⟨false, true⟩, [descriptor taskA.name taskA]⟩
  pushedBy := [0]
  next := 1

def afterTask : Trail where
  thread := ⟨collecting, ⟨false, true⟩, []⟩
  pushedBy := []
  next := 2

theorem step_beginA :
    (Trail.start ⟨collecting, ⟨false, true⟩, []⟩).step beginA = some (inTask, ⟨none, none⟩) := by
  have hbegin := taskBegin_eq taskA.name collecting false taskA []
  rw [if_pos collecting_enabled] at hbegin
  have hcall : TaskEnds.call ⟨collecting, ⟨false, true⟩, []⟩ beginA = some (inTask.thread, none) :=
    congrArg (fun stack => some (PausedTasks.Thread.mk collecting ⟨false, true⟩ stack, none)) hbegin
  rw [Trail.step]
  simp only [Trail.start, hcall]
  rfl

theorem step_endA :
    inTask.step endA = some (afterTask, ⟨some 0, some (.itt (eventOf taskA.name 5 taskA))⟩) := by
  obtain ⟨summary, hend⟩ := taskEnd_eq taskA.name collecting false 5 [taskA]
  simp only [collecting_enabled, if_true, List.map_cons, List.map_nil, List.tail_cons,
    List.head?_cons, Option.map_some] at hend
  have hcall : TaskEnds.call inTask.thread endA =
      some (afterTask.thread, some (.itt (eventOf taskA.name 5 taskA))) := by
    simp only [TaskEnds.call, endA, Ending.call, inTask, hend]
    rfl
  rw [Trail.step, hcall]
  rfl

/-- Both threads have begun the task. -/
def begun : Process :=
  ((Process.start collecting ⟨false, true⟩).called 0 beginA inTask ⟨none, none⟩).called 1 beginA
    inTask ⟨none, none⟩

def recordingA : Registry :=
  (({} : Registry).construct 1 smallBuffer).callback 1 ⟨0, smallBuffer⟩ (eventOf taskA.name 5 taskA)

/-- The second thread has ended it. -/
def ended : Process :=
  { begun.called 1 endA afterTask ⟨some 0, some (.itt (eventOf taskA.name 5 taskA))⟩ with
    registry := recordingA
    own := Function.update (fun _ => .unused) 1 (.used 1 0) }

theorem reachable_ended : Reachable collecting ⟨false, true⟩ ended := by
  have hfirst : Step (Process.start collecting ⟨false, true⟩)
      ((Process.start collecting ⟨false, true⟩).called 0 beginA inTask ⟨none, none⟩) :=
    .silent (fun _ h => by cases h) step_beginA rfl
  have hsecond : Step ((Process.start collecting ⟨false, true⟩).called 0 beginA inTask ⟨none, none⟩)
      begun :=
    .silent (fun _ h => by cases h) step_beginA rfl
  have hend : Step begun ended :=
    .first ['2'] mainThread (fun _ _ => staleRecord) rfl step_endA rfl rfl rfl
  exact ((Relation.ReflTransGen.single hfirst).tail hsecond).tail hend

def endedTeardown : Registry := recordingA.finalizeAll.getD {}

theorem made_ended (i : Nat) : ended.made i = [] ∨ ended.made i = [beginA] ∨
    ended.made i = [beginA, endA] := by
  by_cases hzero : i = 0
  · subst hzero
    exact Or.inr (Or.inl rfl)
  · by_cases hone : i = 1
    · subst hone
      exact Or.inr (Or.inr rfl)
    · refine Or.inl ?_
      simp [ended, begun, Process.called, Process.start, Function.update_of_ne hzero,
        Function.update_of_ne hone]

theorem plain_beginA : PlainCall beginA := by
  have hplain : PlainHandle (some (some taskA.name.val)) := by
    rintro text htext
    cases htext
    decide +kernel
  exact ⟨hplain, hplain⟩

theorem task_timeline_two : ∃ file text owned,
    timelineFile sampleLaunch endedTeardown = some file ∧ decode file = some text ∧
    (∀ i, (ofThread owned i).map LoggedEvent.event = ended.recorded i) ∧
    parse text = some (timeline sampleLaunch (owned.map Prod.snd)) := by
  have hclock : ∀ i, ((ended.made i).filterMap clock).Pairwise (· ≤ ·) := by
    intro i
    rcases made_ended i with h | h | h <;> rw [h] <;> decide
  have hplain : ∀ i, ∀ x ∈ ended.made i, PlainCall x := by
    intro i x hx
    rcases made_ended i with h | h | h
    · rw [h] at hx
      cases hx
    · rw [h] at hx
      obtain rfl := List.mem_singleton.mp hx
      exact plain_beginA
    · rw [h] at hx
      rcases List.mem_pair.mp hx with rfl | rfl
      · exact plain_beginA
      · trivial
  have hrecorded : ended.recorded 1 ≠ [] := List.cons_ne_nil _ _
  have hfinalize : ended.registry.finalizeAll = some endedTeardown := rfl
  obtain ⟨file, text, hfile, hdecode, owned, howned, hparse⟩ :=
    (task_timeline (l := sampleLaunch) reachable_ended hfinalize literal_sampleLabel hclock hplain).2.2
      ⟨1, hrecorded⟩
  exact ⟨file, text, owned, hfile, hdecode, howned, hparse⟩

end Unitrace.Trace.TracedTasks
