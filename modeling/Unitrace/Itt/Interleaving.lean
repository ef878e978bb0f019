import Mathlib.Algebra.Group.Nat.Defs
import Unitrace.Itt.Handles
import Unitrace.Lib.CriticalSection

/-!
# Creation from many threads

`__itt_domain_create`, `__itt_string_handle_create` and `__itt_event_create` share the
mutex of the ITT global. Here a call is not one step: the threads may move between any
two reads and writes of its body. The check of an event handle reads the number of events
without the mutex, and so does the end of an event its name. The strings of the vector may
be on their way to other memory while `push_back` adds one. The global is initialized; with a
null global the calls return before the lock.
-/
namespace Unitrace.Itt.Interleaving

open Unitrace.Lib Unitrace.Lib.ByteString Unitrace.Itt.Handles
open Unitrace.Lib.CriticalSection (Body State Alone Serial Initial Inv Reachable callsOf)
open Unitrace.Lib.Intern (Table names)
open Relation (ReflTransGen)

/-- The data under the mutex. While `push_back` is under way, no string of the vector can be
relied on. -/
structure Shared where
  domainList : NodeList
  stringList : NodeList
  ittEvents : List Bytes
  pushing : Bool
  numIttEvents : Int32

/-- `itt_events[event]` without the mutex -/
def Shared.eventName (d : Shared) (event : Int32) : Option Bytes :=
  if d.pushing then none else d.ittEvents[event.toInt.toNat]?

def Shared.list (d : Shared) : Kind → NodeList
  | .domain => d.domainList
  | .stringHandle => d.stringList

def Shared.setList (d : Shared) (kind : Kind) (list : NodeList) : Shared :=
  match kind with
  | .domain => { d with domainList := list }
  | .stringHandle => { d with stringList := list }

inductive Create where
  | handle (kind : Kind) (name : CStr)
  | event (name : Bytes)

inductive Returned where
  | handle (h : Address)
  | event (i : Int32)

/-- Where a call is between the lock and the unlock, with its local variables. -/
inductive Local where
  | start (kind : Kind) (name : CStr)
  | loop (kind : Kind) (name : CStr) (hTail h : Option Address)
  | pushBack (name : Bytes)
  | pushed (name : Bytes)
  | count
  | last
  | unlock (r : Returned)

def newHandle (config : Config) : Kind → NodeList → Option Address → CStr → NodeList × Address
  | .domain => config.newDomainA
  | .stringHandle => config.newStringHandleA

/-- `num_itt_events = itt_events.size()` -/
def numEvents (ittEvents : List Bytes) : Int32 := .ofNat ittEvents.length

def turn (config : Config) : Local × Shared → Option (Local × Shared)
  | (.start kind name, d) => some (.loop kind name none (d.list kind).first, d)
  | (.loop kind name _ (some h), d) =>
    match List.lookup h (d.list kind).nodes with
    | none => none
    | some node =>
      if holds config name node.value then some (.unlock (.handle h), d)
      else some (.loop kind name (some h) node.next, d)
  | (.loop kind name hTail none, d) =>
    let (list, h) := newHandle config kind (d.list kind) hTail name
    some (.unlock (.handle h), d.setList kind list)
  | (.pushBack name, d) => some (.pushed name, { d with pushing := true })
  | (.pushed name, d) =>
    some (.count, { d with ittEvents := d.ittEvents ++ [name], pushing := false })
  | (.count, d) => some (.last, { d with numIttEvents := numEvents d.ittEvents })
  | (.last, d) => some (.unlock (.event (d.numIttEvents - 1)), d)
  | (.unlock _, _) => none

def body (config : Config) : Body Create Local Shared Returned where
  enter
    | .handle kind name => .start kind name
    | .event name => .pushBack name
  turn before after := turn config before = some after
  leave
    | .unlock r => some r
    | _ => none

/-- The check of `__itt_event_start` and `__itt_event_end`. -/
def outOfRange (event numIttEvents : Int32) : Bool := event < 0 || event ≥ numIttEvents

/-- The global of the calls that are not interleaved. -/
def Shared.ittGlobal (d : Shared) : IttGlobal where
  mutex := none
  domainList := d.domainList
  stringList := d.stringList

/-- An initialized global without names, and the programs of the threads. -/
def startWith (programs : Thread → List Create) : State Thread Create Local Shared Returned where
  mutex := none
  shared :=
    { domainList := ⟨none, []⟩, stringList := ⟨none, []⟩, ittEvents := [], pushing := false,
      numIttEvents := 0 }
  callers i := ⟨programs i, none⟩
  left := []

theorem startWith_initial (programs : Thread → List Create) : Initial (startWith programs) :=
  ⟨rfl, fun _ => rfl, rfl⟩

theorem startWith_represents (programs : Thread → List Create) :
    Represents (startWith programs).shared.ittGlobal fun _ => [] :=
  ⟨rfl, fun k => by cases k <;> exact .nil⟩

/-- The handle calls that have left, with their handles. -/
def handleEntries (left : List (Thread × Create × Returned)) : List (Call × Address) :=
  left.filterMap fun e =>
    match e with
    | (i, .handle kind name, .handle h) => some (⟨kind, i, name⟩, h)
    | _ => none

/-- The event calls that have left, with the handles that they returned. -/
def eventEntries (left : List (Thread × Create × Returned)) : List (Bytes × Int32) :=
  left.filterMap fun e =>
    match e with
    | (_, .event name, .event i) => some (name, i)
    | _ => none

/-! ## One body alone -/

section

variable {config : Config} {d d' : Shared} {r : Returned}

theorem ittGlobal_list (d : Shared) (kind : Kind) : d.ittGlobal.list kind = d.list kind := by
  cases kind <;> rfl

theorem setList_list (d : Shared) (kind : Kind) : d.setList kind (d.list kind) = d := by
  cases kind <;> rfl

/-- What holds at each turn of the search: the rest of it has the result of the whole. -/
def Searching (config : Config) (kind : Kind) (name : CStr) (d : Shared)
    (res : Option Address × Option Address) : Local × Shared → Prop
  | (.start kind' name', d') => kind' = kind ∧ name' = name ∧ d' = d
  | (.loop kind' name' hTail h, d') => kind' = kind ∧ name' = name ∧ d' = d ∧
      ∃ fuel, LinkedList.search (holds config name) (d.list kind).nodes fuel hTail h = some res
  | (.unlock r, d') => ∃ list h, findOrNew config (newHandle config kind) (d.list kind) name =
      some (list, h) ∧ r = .handle h ∧ d' = d.setList kind list
  | _ => False

theorem Searching.turn {kind : Kind} {name : CStr} {res : Option Address × Option Address}
    (hres : LinkedList.search (holds config name) (d.list kind).nodes
      ((d.list kind).nodes.length + 1) none (d.list kind).first = some res)
    {at_ at' : Local × Shared} (h : Searching config kind name d res at_)
    (ht : turn config at_ = some at') : Searching config kind name d res at' := by
  obtain ⟨l, d₁⟩ := at_
  cases l with
  | start kind' name' =>
    obtain ⟨rfl, rfl, rfl⟩ := h
    obtain rfl := Option.some.inj ht
    exact ⟨rfl, rfl, rfl, _, hres⟩
  | loop kind' name' hTail h' =>
    obtain ⟨rfl, rfl, rfl, fuel, hs⟩ := h
    cases fuel with
    | zero => cases hs
    | succ fuel =>
      cases h' with
      | none =>
        obtain rfl := Option.some.inj hs
        obtain rfl := Option.some.inj ht
        exact ⟨_, _, by rw [findOrNew, hres]; rfl, rfl, rfl⟩
      | some a =>
        rw [LinkedList.search] at hs
        rw [Interleaving.turn] at ht
        cases hread : List.lookup a (d₁.list kind').nodes with
        | none => rw [hread] at hs; cases hs
        | some node =>
          rw [hread] at hs ht
          simp only at hs ht
          by_cases hv : holds config name' node.value = true
          · rw [if_pos hv] at hs ht
            obtain rfl := Option.some.inj hs
            obtain rfl := Option.some.inj ht
            refine ⟨d₁.list kind', a, ?_, rfl, (setList_list d₁ kind').symm⟩
            simp only [findOrNew, hres]
          · rw [if_neg hv] at hs ht
            obtain rfl := Option.some.inj ht
            exact ⟨rfl, rfl, rfl, fuel, hs⟩
  | pushBack _ => exact h.elim
  | pushed _ => exact h.elim
  | count => exact h.elim
  | last => exact h.elim
  | unlock _ => cases ht

/-- A handle call searches as in one step, and there is an end to its search. -/
theorem alone_handle {kind : Kind} {name : CStr} {t : Table Address CStr}
    (hl : LinkedList.Linked (d.list kind).nodes (d.list kind).first t)
    (h : Alone (body config) (.handle kind name) d r d') :
    ∃ list p, findOrNew config (newHandle config kind) (d.list kind) name = some (list, p) ∧
      r = .handle p ∧ d' = d.setList kind list := by
  obtain ⟨res, hres⟩ : ∃ res, LinkedList.search (holds config name) (d.list kind).nodes
      ((d.list kind).nodes.length + 1) none (d.list kind).first = some res := by
    rcases hl.search_cases (holds config name) (Nat.lt_succ_of_le hl.length_le) none with hs | hs
    · obtain ⟨_, _, _, hs, -⟩ := hs
      exact ⟨_, hs⟩
    · exact ⟨_, hs.1⟩
  obtain ⟨l, hat, hleave⟩ := h.keep (P := Searching config kind name d res)
    (fun _ _ => Searching.turn hres) ⟨rfl, rfl, rfl⟩
  cases l with
  | unlock r' =>
    obtain rfl := Option.some.inj hleave
    exact hat
  | start _ _ => cases hleave
  | loop _ _ _ _ => cases hleave
  | pushBack _ => cases hleave
  | pushed _ => cases hleave
  | count => cases hleave
  | last => cases hleave

/-- The data with one more event. -/
def Shared.created (d : Shared) (name : Bytes) : Shared := { d with
  ittEvents := d.ittEvents ++ [name], pushing := false,
  numIttEvents := numEvents (d.ittEvents ++ [name]) }

/-- What holds at each turn of the creation of an event. -/
def Creating (name : Bytes) (d : Shared) : Local × Shared → Prop
  | (.pushBack name', d') => name' = name ∧ d' = d
  | (.pushed name', d') => name' = name ∧ d' = { d with pushing := true }
  | (.count, d') => d' = { d with ittEvents := d.ittEvents ++ [name], pushing := false }
  | (.last, d') => d' = d.created name
  | (.unlock r, d') => r = .event (numEvents (d.ittEvents ++ [name]) - 1) ∧ d' = d.created name
  | _ => False

theorem Creating.turn {name : Bytes} {at_ at' : Local × Shared} (h : Creating name d at_)
    (ht : turn config at_ = some at') : Creating name d at' := by
  obtain ⟨l, d₁⟩ := at_
  cases l with
  | start _ _ => exact h.elim
  | loop _ _ _ _ => exact h.elim
  | pushBack name' =>
    obtain ⟨rfl, rfl⟩ := h
    obtain rfl := Option.some.inj ht
    exact ⟨rfl, rfl⟩
  | pushed name' =>
    obtain ⟨rfl, rfl⟩ := h
    obtain rfl := Option.some.inj ht
    rfl
  | count =>
    obtain rfl := h
    obtain rfl := Option.some.inj ht
    rfl
  | last =>
    obtain rfl := h
    obtain rfl := Option.some.inj ht
    exact ⟨rfl, rfl⟩
  | unlock _ => cases ht

theorem alone_event {name : Bytes} (h : Alone (body config) (.event name) d r d') :
    r = .event (numEvents (d.ittEvents ++ [name]) - 1) ∧ d' = d.created name := by
  obtain ⟨l, hat, hleave⟩ := h.keep (P := Creating name d) (fun _ _ => Creating.turn) ⟨rfl, rfl⟩
  cases l with
  | unlock r' =>
    obtain rfl := Option.some.inj hleave
    exact hat
  | start _ _ => cases hleave
  | loop _ _ _ _ => cases hleave
  | pushBack _ => cases hleave
  | pushed _ => cases hleave
  | count => cases hleave
  | last => cases hleave

/-! ## The handles of an interleaving -/

/-- A handle call alone has the effect of the function. -/
theorem execute_of_alone {kind : Kind} {name : CStr} {i : Thread} {t : Table Address CStr}
    (hl : LinkedList.Linked (d.list kind).nodes (d.list kind).first t)
    (h : Alone (body config) (.handle kind name) d r d') :
    ∃ p, r = .handle p ∧
      (Call.mk kind i name).execute config (some d.ittGlobal) = some (some d'.ittGlobal, some p) := by
  obtain ⟨list, p, hfind, rfl, rfl⟩ := alone_handle hl h
  refine ⟨p, rfl, ?_⟩
  cases kind with
  | domain => exact domainCreate_eq rfl i hfind
  | stringHandle => exact stringHandleCreate_eq rfl i hfind

theorem handleEntries_append (left left' : List (Thread × Create × Returned)) :
    handleEntries (left ++ left') = handleEntries left ++ handleEntries left' :=
  List.filterMap_append

theorem eventEntries_append (left left' : List (Thread × Create × Returned)) :
    eventEntries (left ++ left') = eventEntries left ++ eventEntries left' :=
  List.filterMap_append

/-- Bodies one after the other are a run of the functions, without the event calls. -/
theorem serial_run (hc : config.Documented) {left : List (Thread × Create × Returned)}
    {tables : Kind → Table Address CStr} (hd : Represents d.ittGlobal tables)
    (hs : Serial (body config) d left d') :
    run config ((handleEntries left).map Prod.fst) (some d.ittGlobal) =
        some (some d'.ittGlobal, ((handleEntries left).map Prod.snd).map some) ∧
      ∃ tables', Represents d'.ittGlobal tables' := by
  induction hs with
  | nil => exact ⟨rfl, tables, hd⟩
  | @snoc left i c r d₁ d₂ _ hc₁ ih =>
    obtain ⟨hrun, tables₁, hd₁⟩ := ih
    rw [handleEntries_append]
    cases c with
    | handle kind name =>
      have hl := hd₁.linked kind
      rw [ittGlobal_list] at hl
      obtain ⟨p, rfl, hx⟩ := execute_of_alone (i := i) hl hc₁
      obtain ⟨g', h', t', hx', -, hg'⟩ := execute_request hc hd₁ ⟨kind, i, name⟩
      rw [hx] at hx'
      obtain ⟨hg, -⟩ := Prod.mk.inj (Option.some.inj hx')
      obtain rfl := Option.some.inj hg
      refine ⟨?_, _, hg'⟩
      rw [List.map_append, List.map_append, List.map_append]
      exact run_append hrun (run_cons hx rfl)
    | event name =>
      obtain ⟨rfl, rfl⟩ := alone_event hc₁
      rw [show handleEntries [(i, Create.event name, _)] = [] from rfl, List.append_nil]
      exact ⟨hrun, tables₁, hd₁⟩

theorem zip_map_fst_snd {α β : Type*} (l : List (α × β)) :
    (l.map Prod.fst).zip (l.map Prod.snd) = l := by
  rw [List.zip_map']
  exact List.map_id l

/-- In every interleaving of any threads, the handle calls that have left returned what they
return one after the other in that order. Two of them returned the same handle exactly for
the same name, and each thread has left its calls in the order of its program. -/
theorem interleaving_serial (hc : config.Documented)
    {start s : State Thread Create Local Shared Returned} (hstart : Initial start)
    {tables : Kind → Table Address CStr} (hd : Represents start.shared.ittGlobal tables)
    (hnames : ∀ k, (names (tables k)).Nodup) (hs : Reachable (body config) start s) :
    (∃ g', run config ((handleEntries s.left).map Prod.fst) (some start.shared.ittGlobal) =
        some (some g', ((handleEntries s.left).map Prod.snd).map some) ∧
      (s.mutex = none → s.shared.ittGlobal = g')) ∧
    (∀ e ∈ handleEntries s.left, ∀ e' ∈ handleEntries s.left, e.1.kind = e'.1.kind →
      (e.2 = e'.2 ↔ e.1.name = e'.1.name)) ∧
    ∀ i, callsOf i s.left <+: (start.callers i).todo := by
  obtain ⟨unlocked, hinv⟩ := Reachable.inv hstart hs
  obtain ⟨hrun, -⟩ := serial_run hc hd hinv.serial
  refine ⟨⟨_, hrun, fun hfree => congrArg Shared.ittGlobal (hinv.free hfree)⟩, ?_, ?_⟩
  · obtain ⟨g', tables', handles, hrun', -, -, hreq⟩ :=
      run_requests hc ((handleEntries s.left).map Prod.fst) hd
    obtain ⟨-, hhandles⟩ := Prod.mk.inj (Option.some.inj (hrun.symm.trans hrun'))
    have hsame := List.map_injective_iff.mpr (fun _ _ => Option.some.inj) hhandles
    have hmem : ∀ e ∈ handleEntries s.left, (e.2, some e.1.name) ∈ tables' e.1.kind := by
      intro e he
      refine (hreq e.1.kind).mem (mem_requested.mpr ⟨e.1, ?_, rfl, rfl⟩)
      rwa [← hsame, zip_map_fst_snd]
    intro e he e' he' hk
    have hw := (hreq e.1.kind).wellFormed ⟨(hd.linked e.1.kind).nodup, hnames e.1.kind⟩
    exact hw.key_eq_iff (hmem e he) (hk ▸ hmem e' he')
  · exact hinv.callsOf_prefix hstart

/-- One thread has created a domain, and a second one is in the loop for the same name. -/
theorem interleaving_serial_second_inside : ∃ s, Reachable (body header)
    (startWith fun _ => [.handle .domain ⟨[65], by decide⟩]) s ∧ s.mutex = some 2 ∧
    callsOf 1 s.left = [.handle .domain ⟨[65], by decide⟩] ∧ ∃ g', run header
      [⟨.domain, 1, ⟨[65], by decide⟩⟩] (some (startWith fun _ => []).shared.ittGlobal) =
        some (some g', [some 1]) := by
  have hlocked : Reachable (body header) (startWith fun _ => [.handle .domain ⟨[65], by decide⟩]) _ :=
    .single (.lock 1 _ _ rfl rfl rfl)
  have hleft := ((hlocked.tail (.turn 1 _ _ _ _ rfl rfl)).tail (.turn 1 _ _ _ _ rfl rfl)).tail
    (.unlock 1 _ _ _ rfl rfl)
  have hs := (hleft.tail (.lock 2 _ _ rfl rfl rfl)).tail (.turn 2 _ _ _ _ rfl rfl)
  obtain ⟨⟨g', hrun, -⟩, -⟩ := interleaving_serial header_documented (startWith_initial _)
    (startWith_represents _) (fun _ => List.nodup_nil) hs
  exact ⟨_, hs, rfl, rfl, g', hrun⟩

/-! ## The events of an interleaving -/

theorem numEvents_append (ittEvents : List Bytes) (name : Bytes) :
    numEvents (ittEvents ++ [name]) - 1 = numEvents ittEvents := by
  rw [numEvents, List.length_append, List.length_singleton, Int32.ofNat_add]
  exact Int32.add_sub_cancel _ _

/-- The events come behind the given ones, and the counter is between the two lengths. -/
structure Counted (ittEvents : List Bytes) (d : Shared) : Prop where
  isPrefix : ittEvents <+: d.ittEvents
  num_eq : ∃ events, ittEvents <+: events ∧ events <+: d.ittEvents ∧
    d.numIttEvents = numEvents events

theorem Counted.turn {ittEvents : List Bytes} {x y : Local × Shared} (h : Counted ittEvents x.2)
    (ht : turn config x = some y) : Counted ittEvents y.2 := by
  obtain ⟨l, d⟩ := x
  obtain ⟨events, hbefore, hbehind, hnum⟩ := h.num_eq
  cases l with
  | start _ _ =>
    obtain rfl := Option.some.inj ht
    exact h
  | loop kind name hTail p =>
    cases p with
    | none =>
      obtain rfl := Option.some.inj ht
      cases kind <;> exact ⟨h.isPrefix, events, hbefore, hbehind, hnum⟩
    | some p =>
      rw [Interleaving.turn] at ht
      split at ht
      · cases ht
      · split at ht
        · obtain rfl := Option.some.inj ht
          exact h
        · obtain rfl := Option.some.inj ht
          exact h
  | pushBack name =>
    obtain rfl := Option.some.inj ht
    exact ⟨h.isPrefix, events, hbefore, hbehind, hnum⟩
  | pushed name =>
    obtain rfl := Option.some.inj ht
    have hgrown := List.prefix_append d.ittEvents [name]
    exact ⟨h.isPrefix.trans hgrown, events, hbefore, hbehind.trans hgrown, hnum⟩
  | count =>
    obtain rfl := Option.some.inj ht
    exact ⟨h.isPrefix, d.ittEvents, h.isPrefix, List.prefix_rfl, by dsimp only⟩
  | last =>
    obtain rfl := Option.some.inj ht
    exact h
  | unlock _ => cases ht

/-- The turns of a handle call. -/
def Local.ofHandle : Local → Bool
  | .start _ _ => true
  | .loop _ _ _ _ => true
  | .unlock _ => true
  | _ => false

/-- What holds at each turn of a handle call: the events are the given ones. -/
structure LeavesEvents (d : Shared) (x : Local × Shared) : Prop where
  ofHandle : x.1.ofHandle = true
  ittEvents : x.2.ittEvents = d.ittEvents
  numIttEvents : x.2.numIttEvents = d.numIttEvents

theorem LeavesEvents.turn {x y : Local × Shared} (h : LeavesEvents d x)
    (ht : turn config x = some y) : LeavesEvents d y := by
  obtain ⟨l, d₁⟩ := x
  obtain ⟨hl, hevents, hnum⟩ := h
  cases l with
  | start _ _ =>
    obtain rfl := Option.some.inj ht
    exact ⟨rfl, hevents, hnum⟩
  | loop kind name hTail p =>
    cases p with
    | none =>
      obtain rfl := Option.some.inj ht
      cases kind <;> exact ⟨rfl, hevents, hnum⟩
    | some p =>
      rw [Interleaving.turn] at ht
      split at ht
      · cases ht
      · split at ht
        · obtain rfl := Option.some.inj ht
          exact ⟨rfl, hevents, hnum⟩
        · obtain rfl := Option.some.inj ht
          exact ⟨rfl, hevents, hnum⟩
  | unlock _ => cases ht
  | pushBack _ => cases hl
  | pushed _ => cases hl
  | count => cases hl
  | last => cases hl

/-- A handle call leaves the events alone. -/
theorem alone_handle_events {kind : Kind} {name : CStr}
    (h : Alone (body config) (.handle kind name) d r d') :
    d'.ittEvents = d.ittEvents ∧ d'.numIttEvents = d.numIttEvents := by
  obtain ⟨l, hleaves, -⟩ := h.keep (P := LeavesEvents d) (fun _ _ => LeavesEvents.turn) ⟨rfl, rfl, rfl⟩
  exact ⟨hleaves.ittEvents, hleaves.numIttEvents⟩

/-- Bodies one after the other push their names, and each returns the index of its name. -/
theorem serial_events {left : List (Thread × Create × Returned)}
    (hnum : d.numIttEvents = numEvents d.ittEvents) (hs : Serial (body config) d left d') :
    d'.ittEvents = d.ittEvents ++ (eventEntries left).map Prod.fst ∧
      d'.numIttEvents = numEvents d'.ittEvents ∧
      (eventEntries left).map Prod.snd =
        (List.range' d.ittEvents.length (eventEntries left).length).map Int32.ofNat := by
  induction hs with
  | nil => exact ⟨(List.append_nil _).symm, hnum, rfl⟩
  | @snoc left i c r d₁ d₂ _ hc₁ ih =>
    obtain ⟨hevents, hnum₁, hids⟩ := ih
    rw [eventEntries_append]
    cases c with
    | handle kind name =>
      obtain ⟨hsame, hsame'⟩ := alone_handle_events hc₁
      have hnone : eventEntries [(i, .handle kind name, r)] = [] := rfl
      rw [hnone, List.append_nil, hsame, hsame', hnum₁]
      exact ⟨hevents, rfl, hids⟩
    | event name =>
      obtain ⟨rfl, rfl⟩ := alone_event hc₁
      have hlast : numEvents d₁.ittEvents =
          Int32.ofNat (d.ittEvents.length + (eventEntries left).length) := by
        rw [numEvents, hevents, List.length_append, List.length_map]
      have hone : eventEntries [(i, .event name, .event (numEvents d₁.ittEvents))] =
          [(name, numEvents d₁.ittEvents)] := rfl
      refine ⟨?_, rfl, ?_⟩
      · show d₁.ittEvents ++ [name] = _
        rw [numEvents_append, hone, hevents, List.map_append, List.append_assoc]
        rfl
      · rw [numEvents_append, hone, List.map_append, hids, List.length_append, hlast,
          List.length_singleton, List.range'_concat, List.map_append, Nat.one_mul]
        rfl

theorem outOfRange_iff {ittEvents : List Bytes} (h : ittEvents.length < 2 ^ 31) (event : Int32) :
    outOfRange event (numEvents ittEvents) = false ↔
      0 ≤ event.toInt ∧ event.toInt < ittEvents.length := by
  have hlen : (numEvents ittEvents).toInt = ittEvents.length := Int32.toInt_ofNat_of_lt h
  simp only [outOfRange, Bool.or_eq_false_iff, decide_eq_false_iff_not, Int32.lt_iff_toInt_lt,
    ge_iff_le, Int32.le_iff_toInt_le, hlen, Int32.toInt_zero, not_lt, not_le]

/-- The handle of an entry is the index of its name among all names. -/
theorem entry_of_ids {ittEvents : List Bytes} {entries : List (Bytes × Int32)}
    (hids : entries.map Prod.snd =
      (List.range' ittEvents.length entries.length).map Int32.ofNat) {e : Bytes × Int32}
    (he : e ∈ entries) :
    ∃ n, e.2 = Int32.ofNat n ∧ (ittEvents ++ entries.map Prod.fst)[n]? = some e.1 := by
  obtain ⟨k, hk, rfl⟩ := List.mem_iff_getElem.mp he
  refine ⟨ittEvents.length + k, ?_, ?_⟩
  · have hget := congrArg (·[k]?) hids
    simpa [hk] using hget
  · rw [List.getElem?_append_right (Nat.le_add_right _ _), Nat.add_sub_cancel_left]
    simp [hk]

/-- In every interleaving, the event calls that have left returned the next numbers in that
order. In every state, also while a thread is inside, a handle that was returned passes the
check that is made without the mutex, and a handle that passes has an entry. While no string
is being pushed, the name of a handle that was returned can be read without the mutex. -/
theorem interleaving_events {start s : State Thread Create Local Shared Returned}
    (hstart : Initial start)
    (hnum : start.shared.numIttEvents = numEvents start.shared.ittEvents)
    (hs : Reachable (body config) start s) (hlen : s.shared.ittEvents.length < 2 ^ 31) :
    (eventEntries s.left).map Prod.snd = (List.range' start.shared.ittEvents.length
      (eventEntries s.left).length).map Int32.ofNat ∧
    (∀ e ∈ eventEntries s.left, outOfRange e.2 s.shared.numIttEvents = false ∧
      (s.shared.pushing = false → s.shared.eventName e.2 = some e.1)) ∧
    ∀ event, outOfRange event s.shared.numIttEvents = false →
      event.toInt.toNat < s.shared.ittEvents.length := by
  obtain ⟨unlocked, hinv⟩ := Reachable.inv hstart hs
  obtain ⟨hevents, hnum', hids⟩ := serial_events hnum hinv.serial
  have hcounted : Counted unlocked.ittEvents s.shared :=
    hinv.shared_keep (fun _ _ => Counted.turn)
      ⟨List.prefix_rfl, _, List.prefix_rfl, List.prefix_rfl, hnum'⟩
  obtain ⟨events, hbefore, hbehind, hcount⟩ := hcounted.num_eq
  have hevents_le : events.length ≤ s.shared.ittEvents.length := hbehind.length_le
  rw [hcount]
  refine ⟨hids, ?_, ?_⟩
  · intro e he
    obtain ⟨n, hid, hname⟩ := entry_of_ids hids he
    rw [← hevents] at hname
    obtain ⟨hlt, -⟩ := List.getElem?_eq_some_iff.mp hname
    have hle : unlocked.ittEvents.length ≤ events.length := hbefore.length_le
    have htoInt : (Int32.ofNat n).toInt = n := Int32.toInt_ofNat_of_lt (by omega)
    rw [hid]
    refine ⟨(outOfRange_iff (by omega) _).mpr (by rw [htoInt]; omega), fun hstill => ?_⟩
    obtain ⟨rest, hrest⟩ := hbefore.trans hbehind
    rw [Shared.eventName, hstill, if_neg Bool.false_ne_true, htoInt, Int.toNat_natCast, ← hrest,
      List.getElem?_append_left hlt, hname]
  · intro event h
    have hrange := (outOfRange_iff (by omega) event).mp h
    omega

/-- One thread has created an event, and a second one has pushed a name, but not counted it. -/
theorem interleaving_events_second_inside : ∃ s, Reachable (body header)
    (startWith fun _ => [.event [65]]) s ∧ s.mutex = some 2 ∧
    s.shared.ittEvents = [[65], [65]] ∧ s.shared.numIttEvents = 1 ∧
    outOfRange 0 s.shared.numIttEvents = false ∧ s.shared.eventName 0 = some [65] := by
  have hlocked : Reachable (body header) (startWith fun _ => [.event [65]]) _ :=
    .single (.lock 1 _ _ rfl rfl rfl)
  have hleft := ((((hlocked.tail (.turn 1 _ _ _ _ rfl rfl)).tail (.turn 1 _ _ _ _ rfl rfl)).tail
    (.turn 1 _ _ _ _ rfl rfl)).tail (.turn 1 _ _ _ _ rfl rfl)).tail (.unlock 1 _ _ _ rfl rfl)
  have hs := ((hleft.tail (.lock 2 _ _ rfl rfl rfl)).tail (.turn 2 _ _ _ _ rfl rfl)).tail
    (.turn 2 _ _ _ _ rfl rfl)
  obtain ⟨-, hentries, -⟩ := interleaving_events (startWith_initial _) rfl hs (by decide)
  obtain ⟨hrange, hname⟩ := hentries _ (.head _)
  exact ⟨_, hs, rfl, rfl, rfl, hrange, hname rfl⟩

end

end Unitrace.Itt.Interleaving
