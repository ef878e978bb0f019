import Mathlib.Data.List.Nodup
import Unitrace.Itt.Tasks

/-!
# Properly nested tasks with pauses

A `Nesting` is a sequence of begin and end calls of one domain in which every end
call matches a begin call, with pause and resume calls anywhere in between. Begin
and end each test whether collection is enabled. An end call therefore takes the
begin that is on top of the stack, which need not be the one it matches.
-/
namespace Unitrace.Itt.PausedTasks

open Unitrace.Lib.ByteString Unitrace.Itt.Control Unitrace.Itt.Tasks
open Unitrace.Trace.Record

/-- A begin call: the name, the clock and the uninitialised descriptor. -/
structure Begin where
  name : ShortName
  startTs : UInt64
  memory : ThreadTaskDescriptor

inductive Call where
  | ittPause
  | ittResume
  | taskBegin (b : Begin)
  | taskEnd (now : UInt64)

/-- The state that the calls of one thread read and write. -/
structure Thread where
  controller : UniController
  collector : IttCollector
  taskDesc : List ThreadTaskDescriptor

/-- One call. An end call gives the event that it logs, if any. -/
def Thread.step (domain : ShortName) (t : Thread) : Call → Option (Thread × List (Option IttEvent))
  | .ittPause => some ({ t with controller := t.controller.ittPause }, [])
  | .ittResume => some ({ t with controller := t.controller.ittResume }, [])
  | .taskBegin b =>
    let taskDesc := taskBegin t.controller t.collector (some (some domain.val))
      (some (some b.name.val)) b.startTs b.memory t.taskDesc
    some ({ t with taskDesc := taskDesc }, [])
  | .taskEnd now =>
    (taskEnd t.controller t.collector (some (some domain.val)) now t.taskDesc).map
      fun (taskDesc, report) => ({ t with taskDesc := taskDesc }, [report.logged])

/-- A run, with what its end calls log in order. -/
def Thread.run (domain : ShortName) : Thread → List Call → Option (Thread × List (Option IttEvent))
  | t, [] => some (t, [])
  | t, call :: calls =>
    match t.step domain call with
    | none => none
    | some (t, events) => (Thread.run domain t calls).map fun (t, more) => (t, events ++ more)

inductive Nesting where
  | done
  | pause (rest : Nesting)
  | resume (rest : Nesting)
  | task (b : Begin) (inner : Nesting) (stop : UInt64) (rest : Nesting)

namespace Nesting

def calls : Nesting → List Call
  | .done => []
  | .pause rest => .ittPause :: calls rest
  | .resume rest => .ittResume :: calls rest
  | .task b inner stop rest => .taskBegin b :: (calls inner ++ .taskEnd stop :: calls rest)

/-- The begin that each end call matches, in the order of the end calls. -/
def begins : Nesting → List Begin
  | .done => []
  | .pause rest => begins rest
  | .resume rest => begins rest
  | .task b inner _ rest => begins inner ++ b :: begins rest

/-- The controller after the calls. -/
def control : Nesting → UniController → UniController
  | .done, c => c
  | .pause rest, c => control rest c.ittPause
  | .resume rest, c => control rest c.ittResume
  | .task _ inner _ rest, c => control rest (control inner c)

/-- The tasks that begin while collection is enabled and end while it is not, the one
that began last in front. -/
def abandoned : Nesting → UniController → List Begin
  | .done, _ => []
  | .pause rest, c => abandoned rest c.ittPause
  | .resume rest, c => abandoned rest c.ittResume
  | .task b inner _ rest, c =>
    abandoned rest (control inner c) ++ abandoned inner c ++
      if c.isCollectionEnabled && !(control inner c).isCollectionEnabled then [b] else []

/-- Where the pauses may stand. `held` are the tasks that began while collection was
enabled and are still open or were abandoned. A task that ends while collection is
enabled has no abandoned task inside, and if it began while collection was disabled,
nothing is held at all. -/
def WellPlaced : Nesting → UniController → List Begin → Prop
  | .done, _, _ => True
  | .pause rest, c, held => WellPlaced rest c.ittPause held
  | .resume rest, c, held => WellPlaced rest c.ittResume held
  | .task b inner _ rest, c, held =>
    let c' := control inner c
    WellPlaced inner c (if c.isCollectionEnabled then b :: held else held) ∧
      (c'.isCollectionEnabled = true →
        abandoned inner c = [] ∧ (c.isCollectionEnabled = false → held = [])) ∧
      WellPlaced rest c' (abandoned inner c ++
        (if c.isCollectionEnabled && !c'.isCollectionEnabled then [b] else []) ++ held)

/-- The begin whose entry each end call takes, and the entries left on the stack. -/
def taken : Nesting → UniController → List Begin → List (Option Begin) × List Begin
  | .done, _, stack => ([], stack)
  | .pause rest, c, stack => taken rest c.ittPause stack
  | .resume rest, c, stack => taken rest c.ittResume stack
  | .task b inner _ rest, c, stack =>
    let (innerTaken, top) := taken inner c (if c.isCollectionEnabled then b :: stack else stack)
    let c' := control inner c
    let (restTaken, left) := taken rest c' (if c'.isCollectionEnabled then top.tail else top)
    (innerTaken ++ (if c'.isCollectionEnabled then top.head? else none) :: restTaken, left)

end Nesting

/-! ## The stack of descriptors -/

/-- The descriptor that a begin call pushes. -/
def descriptor (domain : ShortName) (b : Begin) : ThreadTaskDescriptor where
  domain := b.memory.domain.store (some (some domain.val))
  name := b.memory.name.store (some (some b.name.val))
  startTime := b.startTs
  metadataArgs := { b.memory.metadataArgs with count := 0, isIndirectData := false, next := [] }

/-- The event logged by an end call at time `now` that takes the entry of `b`. -/
def eventOf (domain : ShortName) (now : UInt64) (b : Begin) : IttEvent where
  name := some (CStr.truncate (qualified domain.val b.name.val) 1055)
  startTs := b.startTs
  endTs := now
  metadataArgs := some (descriptor domain b).metadataArgs

theorem taskBegin_eq (domain : ShortName) (c : UniController) (summaryOn : Bool) (b : Begin)
    (stack : List ThreadTaskDescriptor) :
    taskBegin c ⟨summaryOn, true⟩ (some (some domain.val)) (some (some b.name.val)) b.startTs
        b.memory stack =
      if c.isCollectionEnabled then descriptor domain b :: stack else stack := by
  cases hc : c.isCollectionEnabled <;> simp [taskBegin, hc, descriptor]

/-- An end call takes the top of the stack, whatever begin call pushed it. -/
theorem taskEnd_eq (domain : ShortName) (c : UniController) (summaryOn : Bool) (now : UInt64)
    (stack : List Begin) :
    ∃ summary, taskEnd c ⟨summaryOn, true⟩ (some (some domain.val)) now
        (stack.map (descriptor domain)) =
      some ((if c.isCollectionEnabled then stack.tail else stack).map (descriptor domain),
        { summary := summary
          logged := (if c.isCollectionEnabled then stack.head? else none).map
            (eventOf domain now) }) := by
  cases hc : c.isCollectionEnabled with
  | false => exact ⟨none, by simp [taskEnd, hc]⟩
  | true =>
    cases stack with
    | nil => exact ⟨none, by simp [taskEnd, hc]⟩
    | cons b stack =>
      have hdomain : (descriptor domain b).domain.text = some domain.val := text_store_short _ domain
      have hname : (descriptor domain b).name.text = some b.name.val := text_store_short _ b.name
      refine ⟨if summaryOn then some ((qualified domain.val b.name.val).val, now - b.startTs)
        else none, ?_⟩
      simp only [taskEnd, hc, List.map_cons, hdomain, hname, Bool.not_true, Bool.false_eq_true,
        Bool.and_false, ↓reduceIte]
      rfl

theorem run_cons {domain : ShortName} {t t₁ t₂ : Thread} {call : Call} {calls : List Call}
    {e₁ e₂ : List (Option IttEvent)} (h₁ : t.step domain call = some (t₁, e₁))
    (h₂ : t₁.run domain calls = some (t₂, e₂)) :
    t.run domain (call :: calls) = some (t₂, e₁ ++ e₂) := by
  rw [Thread.run, h₁]
  simp only [h₂]
  rfl

theorem run_append {domain : ShortName} {t t₁ t₂ : Thread} {first second : List Call}
    {e₁ e₂ : List (Option IttEvent)} (h₁ : t.run domain first = some (t₁, e₁))
    (h₂ : t₁.run domain second = some (t₂, e₂)) :
    t.run domain (first ++ second) = some (t₂, e₁ ++ e₂) := by
  induction first generalizing t e₁ with
  | nil =>
    cases h₁
    exact h₂
  | cons call first ih =>
    rw [Thread.run] at h₁
    cases hstep : t.step domain call with
    | none => rw [hstep] at h₁; cases h₁
    | some next =>
      obtain ⟨u, e⟩ := next
      rw [hstep] at h₁
      obtain ⟨⟨u', more⟩, hrest, heq⟩ := Option.map_eq_some_iff.mp h₁
      cases heq
      rw [List.append_assoc]
      exact run_cons hstep (ih hrest)

/-- Each end call logs the event of the begin whose entry it takes. -/
def TakenBy (domain : ShortName) (used : Option Begin) (event : Option IttEvent) : Prop :=
  ∃ now, event = used.map (eventOf domain now)

/-- A run over a nesting follows `Nesting.taken`. -/
theorem run_nesting (domain : ShortName) (summaryOn : Bool) (n : Nesting) (c : UniController)
    (stack : List Begin) :
    ∃ events, (⟨c, ⟨summaryOn, true⟩, stack.map (descriptor domain)⟩ : Thread).run domain n.calls =
        some (⟨n.control c, ⟨summaryOn, true⟩, (n.taken c stack).2.map (descriptor domain)⟩, events) ∧
      List.Forall₂ (TakenBy domain) (n.taken c stack).1 events := by
  induction n generalizing c stack with
  | done => exact ⟨[], rfl, List.Forall₂.nil⟩
  | pause rest ih =>
    obtain ⟨events, hrun, htaken⟩ := ih c.ittPause stack
    have hstep : (⟨c, ⟨summaryOn, true⟩, stack.map (descriptor domain)⟩ : Thread).step domain
        .ittPause = some (⟨c.ittPause, ⟨summaryOn, true⟩, stack.map (descriptor domain)⟩, []) := rfl
    exact ⟨[] ++ events, run_cons hstep hrun, htaken⟩
  | resume rest ih =>
    obtain ⟨events, hrun, htaken⟩ := ih c.ittResume stack
    have hstep : (⟨c, ⟨summaryOn, true⟩, stack.map (descriptor domain)⟩ : Thread).step domain
        .ittResume = some (⟨c.ittResume, ⟨summaryOn, true⟩, stack.map (descriptor domain)⟩, []) := rfl
    exact ⟨[] ++ events, run_cons hstep hrun, htaken⟩
  | task b inner stop rest ihInner ihRest =>
    obtain ⟨e₁, hinner, htaken₁⟩ :=
      ihInner c (if c.isCollectionEnabled then b :: stack else stack)
    have hbegin : (⟨c, ⟨summaryOn, true⟩, stack.map (descriptor domain)⟩ : Thread).step domain
        (.taskBegin b) = some (⟨c, ⟨summaryOn, true⟩,
          (if c.isCollectionEnabled then b :: stack else stack).map (descriptor domain)⟩, []) := by
      simp only [Thread.step, taskBegin_eq]
      cases c.isCollectionEnabled <;> rfl
    obtain ⟨top, htop⟩ : ∃ top, top =
      (inner.taken c (if c.isCollectionEnabled then b :: stack else stack)).2 := ⟨_, rfl⟩
    rw [← htop] at hinner
    obtain ⟨summary, hend⟩ := taskEnd_eq domain (inner.control c) summaryOn stop top
    obtain ⟨e₂, hrest, htaken₂⟩ := ihRest (inner.control c)
      (if (inner.control c).isCollectionEnabled then top.tail else top)
    refine ⟨[] ++ (e₁ ++ ([(if (inner.control c).isCollectionEnabled then top.head? else none).map
      (eventOf domain stop)] ++ e₂)), ?_, ?_⟩
    · rw [Nesting.calls, Nesting.control]
      have hleft : ((Nesting.task b inner stop rest).taken c stack).2 = (rest.taken (inner.control c)
          (if (inner.control c).isCollectionEnabled then top.tail else top)).2 := by
        simp only [Nesting.taken, ← htop]
      rw [hleft]
      refine run_cons hbegin (run_append hinner (run_cons ?_ hrest))
      simp only [Thread.step, hend, Option.map_some]
    · simp only [Nesting.taken, ← htop, List.nil_append, List.singleton_append]
      exact List.rel_append htaken₁ (List.Forall₂.cons ⟨stop, rfl⟩ htaken₂)

/-! ## Which end calls take their own begin -/

theorem length_taken (n : Nesting) (c : UniController) (stack : List Begin) :
    (n.taken c stack).1.length = n.begins.length := by
  induction n generalizing c stack with
  | done => rfl
  | pause rest ih => exact ih _ _
  | resume rest ih => exact ih _ _
  | task b inner stop rest ihInner ihRest =>
    simp only [Nesting.taken, Nesting.begins, List.length_append, List.length_cons]
    rw [ihInner, ihRest]

theorem mem_begins_of_abandoned {n : Nesting} {c : UniController} {b : Begin}
    (h : b ∈ n.abandoned c) : b ∈ n.begins := by
  induction n generalizing c with
  | done => exact h
  | pause rest ih => exact ih h
  | resume rest ih => exact ih h
  | task x inner stop rest ihInner ihRest =>
    simp only [Nesting.abandoned, Nesting.begins, List.mem_append, List.mem_cons] at h ⊢
    rcases h with (h | h) | h
    · exact Or.inr (Or.inr (ihRest h))
    · exact Or.inl (ihInner h)
    · split at h
      · exact Or.inr (Or.inl (List.mem_singleton.mp h))
      · cases h

/-- With well-placed pauses the stack holds what is held, and an end call takes its own
begin or nothing. -/
theorem taken_of_wellPlaced {R : Option Begin → Begin → Prop} (hself : ∀ b, R (some b) b)
    (hnone : ∀ b, R none b) (n : Nesting) (c : UniController) (held : List Begin)
    (h : n.WellPlaced c held) :
    List.Forall₂ R (n.taken c held).1 n.begins ∧ (n.taken c held).2 = n.abandoned c ++ held := by
  induction n generalizing c held with
  | done => exact ⟨List.Forall₂.nil, rfl⟩
  | pause rest ih => exact ih _ _ h
  | resume rest ih => exact ih _ _ h
  | task b inner stop rest ihInner ihRest =>
    obtain ⟨hin, hend, hrest⟩ := h
    obtain ⟨hinner, htop⟩ := ihInner _ _ hin
    obtain ⟨htaken, hleft⟩ := ihRest _ _ hrest
    simp only [Nesting.taken, Nesting.begins, Nesting.abandoned, htop]
    cases hoff : (inner.control c).isCollectionEnabled with
    | true =>
      obtain ⟨hnothing, hheld⟩ := hend hoff
      cases hon : c.isCollectionEnabled with
      | true =>
        simp only [hon, hoff, hnothing] at htaken hleft hinner ⊢
        exact ⟨List.rel_append hinner (List.Forall₂.cons (hself b) htaken), by simpa using hleft⟩
      | false =>
        obtain rfl := hheld hon
        simp only [hon, hoff, hnothing] at htaken hleft hinner ⊢
        exact ⟨List.rel_append hinner (List.Forall₂.cons (hnone b) htaken), by simpa using hleft⟩
    | false =>
      cases hon : c.isCollectionEnabled with
      | true =>
        simp only [hon, hoff] at htaken hleft hinner ⊢
        simp at htaken hleft hinner ⊢
        exact ⟨List.rel_append hinner (List.Forall₂.cons (hnone b) htaken), hleft⟩
      | false =>
        simp only [hon, hoff] at htaken hleft hinner ⊢
        simp at htaken hleft hinner ⊢
        exact ⟨List.rel_append hinner (List.Forall₂.cons (hnone b) htaken), hleft⟩

theorem forall₂_split {α β : Type*} {R : α → β → Prop} {l₁ l₂ : List α} {a : α} {r₁ r₂ : List β}
    {b : β} (hlen : l₁.length = r₁.length) (h : List.Forall₂ R (l₁ ++ a :: l₂) (r₁ ++ b :: r₂)) :
    List.Forall₂ R l₁ r₁ ∧ R a b ∧ List.Forall₂ R l₂ r₂ := by
  have htake := List.forall₂_take l₁.length h
  have hdrop := List.forall₂_drop l₁.length h
  rw [List.take_left, hlen, List.take_left] at htake
  rw [List.drop_left, hlen, List.drop_left] at hdrop
  exact ⟨htake, List.forall₂_cons.mp hdrop⟩

/-- The keys of a task, of the tasks inside of it and of those behind it are different. -/
theorem keys_apart {κ : Type*} {key : Begin → κ} {inner rest : List Begin} {b : Begin}
    (hnd : ((inner ++ b :: rest).map key).Nodup) :
    (inner.map key).Nodup ∧ (rest.map key).Nodup ∧ (∀ x ∈ inner, key x ≠ key b) ∧
      (∀ x ∈ inner, ∀ y ∈ rest, key x ≠ key y) ∧ ∀ y ∈ rest, key b ≠ key y := by
  rw [List.map_append, List.map_cons] at hnd
  obtain ⟨hndInner, hndRest, hdisj⟩ := List.nodup_append.mp hnd
  obtain ⟨hbRest, hndRest⟩ := List.nodup_cons.mp hndRest
  refine ⟨hndInner, hndRest, ?_, ?_, ?_⟩
  · intro x hx
    exact hdisj _ (List.mem_map_of_mem hx) _ List.mem_cons_self
  · intro x hx y hy
    exact hdisj _ (List.mem_map_of_mem hx) _ (List.mem_cons_of_mem _ (List.mem_map_of_mem hy))
  · intro y hy he
    exact hbRest (he ▸ List.mem_map_of_mem hy)

/-- An end call that takes its own begin finds no begin of a task inside above it. -/
theorem abandoned_eq_nil {κ : Type*} {key : Begin → κ} {inner : Nesting} {c : UniController}
    {b : Begin} {below : List Begin} (hinner : ∀ x ∈ inner.begins, key x ≠ key b)
    (hused : ∀ x, (inner.abandoned c ++ below).head? = some x → key x = key b) :
    inner.abandoned c = [] := by
  cases hab : inner.abandoned c with
  | nil => rfl
  | cons x more =>
    rw [hab] at hused
    refine absurd (hused x rfl) (hinner x (mem_begins_of_abandoned (c := c) ?_))
    rw [hab]
    exact List.mem_cons_self

/-- When no end call takes a foreign begin, the pauses are well placed. The end call of
a badly placed pause would take an abandoned or held begin, which has another key. -/
theorem wellPlaced_of_taken {κ : Type*} (key : Begin → κ) (n : Nesting) (c : UniController)
    (held : List Begin) (hnd : (n.begins.map key).Nodup)
    (hheld : ∀ x ∈ held, ∀ y ∈ n.begins, key x ≠ key y)
    (h : List.Forall₂ (fun used b => ∀ x, used = some x → key x = key b) (n.taken c held).1
      n.begins) : n.WellPlaced c held := by
  induction n generalizing c held with
  | done => trivial
  | pause rest ih => exact ih _ _ hnd hheld h
  | resume rest ih => exact ih _ _ hnd hheld h
  | task b inner stop rest ihInner ihRest =>
    obtain ⟨hndInner, hndRest, hinnerb, hinnerRest, hbrest⟩ := keys_apart hnd
    have hheldb : ∀ x ∈ held, key x ≠ key b := fun x hx =>
      hheld x hx b (List.mem_append_right _ List.mem_cons_self)
    have hheldRest : ∀ x ∈ held, ∀ y ∈ rest.begins, key x ≠ key y := fun x hx y hy =>
      hheld x hx y (List.mem_append_right _ (List.mem_cons_of_mem _ hy))
    have hheldInner : ∀ x ∈ (if c.isCollectionEnabled then b :: held else held),
        ∀ y ∈ inner.begins, key x ≠ key y := by
      intro x hx y hy
      split at hx
      · rcases List.mem_cons.mp hx with rfl | hx
        · exact (hinnerb y hy).symm
        · exact hheld x hx y (List.mem_append_left _ hy)
      · exact hheld x hx y (List.mem_append_left _ hy)
    obtain ⟨hsplit, hused, hsplitRest⟩ := forall₂_split (length_taken inner c _) h
    have hwInner := ihInner c _ hndInner hheldInner hsplit
    obtain ⟨-, htop⟩ := taken_of_wellPlaced (R := fun _ _ => True) (fun _ => trivial)
      (fun _ => trivial) inner c _ hwInner
    rw [htop] at hused hsplitRest
    have hend : (inner.control c).isCollectionEnabled = true →
        inner.abandoned c = [] ∧ (c.isCollectionEnabled = false → held = []) := by
      intro hoff
      rw [if_pos hoff] at hused
      have hab := abandoned_eq_nil hinnerb hused
      refine ⟨hab, fun hon => ?_⟩
      cases held with
      | nil => rfl
      | cons x more =>
        rw [hab, hon] at hused
        exact absurd (hused x rfl) (hheldb x List.mem_cons_self)
    refine ⟨hwInner, hend, ihRest _ _ hndRest ?_ ?_⟩
    · intro x hx y hy
      simp only [List.mem_append] at hx
      rcases hx with (hx | hx) | hx
      · exact hinnerRest x (mem_begins_of_abandoned hx) y hy
      · split at hx
        · rw [List.mem_singleton.mp hx]
          exact hbrest y hy
        · cases hx
      · exact hheldRest x hx y hy
    · cases hoff : (inner.control c).isCollectionEnabled with
      | true =>
        obtain ⟨hab, hheldNil⟩ := hend hoff
        cases hon : c.isCollectionEnabled with
        | true => simpa [hon, hoff, hab] using hsplitRest
        | false => simpa [hon, hoff, hab, hheldNil hon] using hsplitRest
      | false =>
        cases hon : c.isCollectionEnabled with
        | true => simpa [hon, hoff] using hsplitRest
        | false => simpa [hon, hoff] using hsplitRest

/-! ## What the end calls log -/

/-- What an event tells of its begin call. -/
def Begin.key (b : Begin) : Bytes × UInt64 := (b.name.val.val, b.startTs)

/-- If an end call logs an event, it carries the name and start time of `b`. -/
def Carries (domain : ShortName) (event : Option IttEvent) (b : Begin) : Prop :=
  ∀ e, event = some e → e.name = some (qualified domain.val b.name.val) ∧ e.startTs = b.startTs

theorem eventOf_name (domain : ShortName) (now : UInt64) (b : Begin) :
    (eventOf domain now b).name = some (qualified domain.val b.name.val) := by
  have hsep : (lit "::").length = 2 := by decide +kernel
  have hlen : (qualified domain.val b.name.val).val.length ≤ 1055 := by
    have := domain.property
    have := b.name.property
    simp only [qualified, List.length_append, hsep]
    omega
  exact congrArg some (Subtype.ext (List.take_of_length_le hlen))

theorem qualified_inj {domain x y : CStr} : qualified domain x = qualified domain y ↔ x = y := by
  refine ⟨fun h => Subtype.ext (List.append_cancel_left (congrArg Subtype.val h)), ?_⟩
  rintro rfl
  rfl

theorem carries_some (domain : ShortName) (now : UInt64) (x b : Begin) :
    Carries domain (some (eventOf domain now x)) b ↔ x.key = b.key := by
  have hevent : Carries domain (some (eventOf domain now x)) b ↔
      (eventOf domain now x).name = some (qualified domain.val b.name.val) ∧
        x.startTs = b.startTs := ⟨fun h => h _ rfl, fun h e he => by cases he; exact h⟩
  rw [hevent, eventOf_name, Option.some_inj, qualified_inj, Begin.key, Begin.key, Prod.mk.injEq,
    Subtype.ext_iff]

theorem carries_iff {domain : ShortName} {used : List (Option Begin)}
    {events : List (Option IttEvent)} (h : List.Forall₂ (TakenBy domain) used events)
    (begins : List Begin) :
    List.Forall₂ (Carries domain) events begins ↔
      List.Forall₂ (fun used b => ∀ x, used = some x → Begin.key x = Begin.key b) used begins := by
  induction h generalizing begins with
  | nil => cases begins <;> simp
  | @cons used event _ _ htaken _ ih =>
    obtain ⟨now, rfl⟩ := htaken
    cases begins with
    | nil => simp
    | cons b begins =>
      rw [List.forall₂_cons, List.forall₂_cons, ih]
      refine and_congr_left fun _ => ?_
      cases used with
      | none => simp [Carries]
      | some x => simp [carries_some]

/-- Every event that an end call logs carries the name and start time of the begin call
that it matches. -/
def EndsMatch (domain : ShortName) (n : Nesting) (events : List (Option IttEvent)) : Prop :=
  List.Forall₂ (Carries domain) events n.begins

/-- On a thread without open tasks every sequence of calls runs through. Its events
match if the pauses are well placed, and, when no two begin calls agree in name and
start time, only then. -/
theorem paused_ends_match (domain : ShortName) (c : UniController) (summaryOn : Bool) (n : Nesting) :
    ∃ t events, (⟨c, ⟨summaryOn, true⟩, []⟩ : Thread).run domain n.calls = some (t, events) ∧
      (n.WellPlaced c [] → EndsMatch domain n events) ∧
      ((n.begins.map Begin.key).Nodup → (EndsMatch domain n events ↔ n.WellPlaced c [])) := by
  obtain ⟨events, hrun, htaken⟩ := run_nesting domain summaryOn n c []
  have hsound : n.WellPlaced c [] → EndsMatch domain n events := by
    intro h
    refine (carries_iff htaken n.begins).mpr (taken_of_wellPlaced ?_ ?_ n c [] h).1
    · intro b x hx
      rw [Option.some.inj hx]
    · intro b x hx
      cases hx
  refine ⟨_, events, hrun, hsound, fun hnd => ⟨fun h => ?_, hsound⟩⟩
  exact wellPlaced_of_taken Begin.key n c [] hnd (by simp) ((carries_iff htaken n.begins).mp h)

/-! ## A pause inside of a task -/

def zeroed : CharArray := ⟨List.replicate 512 0, List.length_replicate⟩

def shortName (c : Char) (hc : (0 : UInt8) ∉ utf8 [c] ∧ (utf8 [c]).length < 510) : ShortName :=
  ⟨⟨utf8 [c], hc.1⟩, hc.2⟩

/-- A begin call with a one-letter name. -/
def beginCall (name : ShortName) (startTs : UInt64) : Begin where
  name := name
  startTs := startTs
  memory :=
    { domain := zeroed, name := zeroed, startTime := 0
      metadataArgs := { count := 0, isIndirectData := false, type := .unknown
                        key := ⟨[], zero_notMem_nil⟩, data := [], indirect := [], next := [] } }

def taskA : Begin := beginCall (shortName 'A' (by decide +kernel)) 1
def taskB : Begin := beginCall (shortName 'B' (by decide +kernel)) 2

def collecting : UniController where
  conditionalCollection := true
  ittPaused := false
  environ := some [lit "PTI_ENABLE_COLLECTION=1"]

theorem collecting_enabled : collecting.isCollectionEnabled = true := by decide +kernel

theorem paused_disabled : collecting.ittPause.isCollectionEnabled = false := by decide +kernel

theorem resumed_enabled : collecting.ittPause.ittResume.isCollectionEnabled = true := by
  decide +kernel

/-- `B` begins and ends during a pause inside of `A`. -/
def pausedInside : Nesting :=
  .task taskA (.pause (.task taskB .done 3 (.resume .done))) 4 .done

theorem paused_ends_match_inside :
    ∃ t events, (⟨collecting, ⟨false, true⟩, []⟩ : Thread).run taskA.name pausedInside.calls =
        some (t, events) ∧
      (pausedInside.WellPlaced collecting [] → EndsMatch taskA.name pausedInside events) ∧
      ((pausedInside.begins.map Begin.key).Nodup →
        (EndsMatch taskA.name pausedInside events ↔ pausedInside.WellPlaced collecting [])) :=
  paused_ends_match taskA.name collecting false pausedInside

/-- `B` begins during the pause and ends after it. -/
def pausedAcross : Nesting :=
  .task taskA (.pause (.task taskB (.resume .done) 3 .done)) 4 .done

/-- The end call of `B` takes the entry of `A`, and its event carries the name of `A`. -/
theorem paused_ends_mismatch :
    ¬ ∀ (domain : ShortName) (c : UniController) (summaryOn : Bool) (n : Nesting),
      c.conditionalCollection = true →
      ∃ t events, (⟨c, ⟨summaryOn, true⟩, []⟩ : Thread).run domain n.calls = some (t, events) ∧
        EndsMatch domain n events := by
  intro h
  obtain ⟨t, events, hrun, hmatch⟩ := h taskA.name collecting false pausedAcross rfl
  obtain ⟨events', hrun', htaken⟩ := run_nesting taskA.name false pausedAcross collecting []
  rw [List.map_nil, hrun] at hrun'
  cases hrun'
  have hkeys := (carries_iff htaken pausedAcross.begins).mp hmatch
  have hb : Begin.key taskA = Begin.key taskB := by
    simp [pausedAcross, Nesting.taken, Nesting.begins, Nesting.control, collecting_enabled,
      paused_disabled, resumed_enabled] at hkeys
    exact hkeys
  exact absurd (Prod.mk.inj hb).2 (by decide)

end Unitrace.Itt.PausedTasks
