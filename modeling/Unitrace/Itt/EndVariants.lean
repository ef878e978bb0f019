import Unitrace.Itt.TaskEnds

/-!
# Nested tasks with mixed ends

Tasks are nested properly and every task is ended with its own domain, by any of the
three functions. The begin call and `__itt_task_end` work when the summary or the
trace is on. The internal ends work only when the trace is on, so with the summary
alone they leave the entry of their task on the stack.
-/
namespace Unitrace.Itt.EndVariants

open Unitrace.Lib.ByteString Unitrace.Itt.Control Unitrace.Itt.Tasks Unitrace.Itt.TaskEnds
open Unitrace.Itt.PausedTasks (Thread Begin descriptor)

inductive Nesting where
  | done
  | task (domain : ShortName) (b : Begin) (inner : Nesting) (ending : Ending) (stop : UInt64)
      (rest : Nesting)

namespace Nesting

def calls : Nesting → List Call
  | .done => []
  | .task domain b inner ending stop rest =>
    .taskBegin (some (some domain.val)) (some (some b.name.val)) b.startTs b.memory ::
      (calls inner ++ .taskEnd ending (some (some domain.val)) stop :: calls rest)

/-- The entries that leave the stack when every end call pops the entry of its own begin
call; the first call has the number `next`. -/
def pops : Nesting → Nat → List (Option Nat)
  | .done, _ => []
  | .task _ _ inner _ _ rest, next =>
    none :: (pops inner (next + 1) ++ some next :: pops rest (next + inner.calls.length + 2))

def AllPlain : Nesting → Prop
  | .done => True
  | .task _ _ inner ending _ rest => AllPlain inner ∧ ending = .plain ∧ AllPlain rest

end Nesting

/-- Each end call pops exactly the entry that its own begin call pushed, and the stack is
afterwards what it was before. -/
def PopsOwn (c : UniController) (collector : IttCollector) (stack : List ThreadTaskDescriptor)
    (n : Nesting) : Prop :=
  let (last, effects) := (Trail.start ⟨c, collector, stack⟩).run n.calls
  effects.map Effect.popped = n.pops stack.length ∧ last.thread.taskDesc = stack

/-! ## One call -/

theorem run_cons {s s₁ s₂ : Trail} {x : Call} {calls : List Call} {effect : Effect}
    {effects : List Effect} (hstep : s.step x = some (s₁, effect))
    (hrun : s₁.run calls = (s₂, effects)) : s.run (x :: calls) = (s₂, effect :: effects) := by
  simp only [Trail.run, hstep, hrun]

/-- A run that gets through the first calls goes on with the others. -/
theorem run_append {s s₁ s₂ : Trail} {xs ys : List Call} {es fs : List Effect}
    (hxs : s.run xs = (s₁, es)) (hlen : es.length = xs.length) (hys : s₁.run ys = (s₂, fs)) :
    s.run (xs ++ ys) = (s₂, es ++ fs) := by
  induction xs generalizing s es with
  | nil =>
    cases hxs
    exact hys
  | cons x xs ih =>
    simp only [Trail.run] at hxs
    cases hstep : s.step x with
    | none =>
      rw [hstep] at hxs
      cases hxs
      simp at hlen
    | some next =>
      rw [hstep] at hxs
      cases hxs
      exact run_cons hstep (ih rfl (by simpa using hlen))

variable {c : UniController} {collector : IttCollector}

theorem begin_step (hc : c.isCollectionEnabled = true)
    (hon : collector.cclSummaryOn = true ∨ collector.chromeLoggingOn = true) (domain : ShortName)
    (b : Begin) (stack : List ThreadTaskDescriptor) (pushedBy : List Nat) (next : Nat) :
    (⟨⟨c, collector, stack⟩, pushedBy, next⟩ : Trail).step
        (.taskBegin (some (some domain.val)) (some (some b.name.val)) b.startTs b.memory) =
      some (⟨⟨c, collector, descriptor domain b :: stack⟩, next :: pushedBy, next + 1⟩,
        ⟨none, none⟩) := by
  have hoff : (!collector.cclSummaryOn && !collector.chromeLoggingOn) = false := by
    rcases hon with h | h <;> simp [h]
  refine step_push (d := descriptor domain b) ?_ rfl
  simp [call, taskBegin, hc, hoff, descriptor]

/-- An end call that is not cut short by an option pops the entry of its domain. -/
theorem ending_call (hc : c.isCollectionEnabled = true)
    (hon : collector.cclSummaryOn = true ∨ collector.chromeLoggingOn = true) {ending : Ending}
    (hending : collector.chromeLoggingOn = true ∨ ending = .plain) (domain : ShortName) (b : Begin)
    (now : UInt64) (stack : List ThreadTaskDescriptor) :
    ∃ logged, ending.call c collector (some (some domain.val)) now (descriptor domain b :: stack) =
      some (stack, logged) := by
  have hdomain : (descriptor domain b).domain.text = some domain.val := text_store_short _ domain
  have hname : (descriptor domain b).name.text = some b.name.val := text_store_short _ b.name
  have hoff : (!collector.cclSummaryOn && !collector.chromeLoggingOn) = false := by
    rcases hon with h | h <;> simp [h]
  have hinternal (log) (hlog : collector.chromeLoggingOn = true) :
      taskEndInternal log c collector (some (some domain.val)) now (descriptor domain b :: stack) =
        some (stack, some (log (qualified domain.val b.name.val) b.startTs now)) := by
    simp only [taskEndInternal, hc, hlog, hdomain, hname, Bool.not_true, Bool.or_false,
      Bool.false_eq_true, ↓reduceIte]
    rfl
  cases ending with
  | plain =>
    simp only [Ending.call, taskEnd, hc, hoff, hdomain, hname, Bool.not_true, Bool.false_eq_true,
      ↓reduceIte, Option.map_some]
    exact ⟨_, rfl⟩
  | exInfo info =>
    rw [Ending.call, taskEndInternalExInfo]
    exact ⟨_, hinternal _ (hending.resolve_right (by simp))⟩
  | callbackInfo info =>
    rw [Ending.call, taskEndInternalCallbackInfo]
    exact ⟨_, hinternal _ (hending.resolve_right (by simp))⟩

theorem end_step {ending : Ending} {domain : Option (Option CStr)} {now : UInt64}
    {top : ThreadTaskDescriptor} {stack : List ThreadTaskDescriptor} {logged : Option LogCall}
    (h : ending.call c collector domain now (top :: stack) = some (stack, logged))
    (first : Nat) (pushedBy : List Nat) (next : Nat) :
    (⟨⟨c, collector, top :: stack⟩, first :: pushedBy, next⟩ : Trail).step
        (.taskEnd ending domain now) =
      some (⟨⟨c, collector, stack⟩, pushedBy, next + 1⟩, ⟨some first, logged⟩) := by
  have hcall : call ⟨c, collector, top :: stack⟩ (.taskEnd ending domain now) =
      some (⟨c, collector, stack⟩, logged) := by simp [call, h]
  exact step_pop hcall rfl

/-! ## Whole nestings -/

theorem length_pops (n : Nesting) (next : Nat) : (n.pops next).length = n.calls.length := by
  induction n generalizing next with
  | done => rfl
  | task domain b inner ending stop rest ihInner ihRest =>
    simp only [Nesting.pops, Nesting.calls, List.length_cons, List.length_append, ihInner, ihRest]

theorem run_nesting (hc : c.isCollectionEnabled = true)
    (hon : collector.cclSummaryOn = true ∨ collector.chromeLoggingOn = true) (n : Nesting)
    (h : collector.chromeLoggingOn = true ∨ n.AllPlain) (stack : List ThreadTaskDescriptor)
    (pushedBy : List Nat) (next : Nat) :
    ∃ effects, (⟨⟨c, collector, stack⟩, pushedBy, next⟩ : Trail).run n.calls =
        (⟨⟨c, collector, stack⟩, pushedBy, next + n.calls.length⟩, effects) ∧
      effects.map Effect.popped = n.pops next := by
  induction n generalizing stack pushedBy next with
  | done => exact ⟨[], rfl, rfl⟩
  | task domain b inner ending stop rest ihInner ihRest =>
    have hinner : collector.chromeLoggingOn = true ∨ inner.AllPlain := h.imp_right fun h => h.1
    have hending : collector.chromeLoggingOn = true ∨ ending = .plain :=
      h.imp_right fun h => h.2.1
    have hrest : collector.chromeLoggingOn = true ∨ rest.AllPlain := h.imp_right fun h => h.2.2
    have hbegin := begin_step hc hon domain b stack pushedBy next
    obtain ⟨es, hrunInner, hpopsInner⟩ :=
      ihInner hinner (descriptor domain b :: stack) (next :: pushedBy) (next + 1)
    obtain ⟨logged, hcall⟩ := ending_call hc hon hending domain b stop stack
    have hend := end_step hcall next pushedBy (next + 1 + inner.calls.length)
    have hnext : next + 1 + inner.calls.length + 1 = next + inner.calls.length + 2 := by omega
    obtain ⟨fs, hrunRest, hpopsRest⟩ :=
      ihRest hrest stack pushedBy (next + inner.calls.length + 2)
    rw [hnext] at hend
    have hlen : es.length = inner.calls.length := by
      rw [← length_pops inner (next + 1), ← hpopsInner, List.length_map]
    have hlast : next + inner.calls.length + 2 + rest.calls.length =
        next + (Nesting.task domain b inner ending stop rest).calls.length := by
      simp only [Nesting.calls, List.length_cons, List.length_append]
      omega
    rw [hlast] at hrunRest
    refine ⟨⟨none, none⟩ :: (es ++ ⟨some next, logged⟩ :: fs),
      run_cons hbegin (run_append hrunInner hlen (run_cons hend hrunRest)), ?_⟩
    simp only [List.map_cons, List.map_append, hpopsInner, hpopsRest, Nesting.pops]

/-! ## The summary alone -/

theorem step_collector {s s' : Trail} {x : Call} {effect : Effect}
    (h : s.step x = some (s', effect)) : s'.thread.collector = s.thread.collector := by
  obtain ⟨⟨t, logged⟩, hcall, heq⟩ := Option.map_eq_some_iff.mp h
  cases heq
  cases x with
  | ittPause => cases hcall; rfl
  | ittResume => cases hcall; rfl
  | taskBegin domain name now memory => cases hcall; rfl
  | taskEnd ending domain now =>
    obtain ⟨result, -, heq⟩ := Option.map_eq_some_iff.mp hcall
    cases heq
    rfl

/-- Without the trace an internal end call pops nothing. -/
theorem internal_pops_nothing {s s' : Trail} {ending : Ending} {domain : Option (Option CStr)}
    {now : UInt64} {effect : Effect} (hoff : s.thread.collector.chromeLoggingOn = false)
    (hending : ending ≠ .plain) (h : s.step (.taskEnd ending domain now) = some (s', effect)) :
    effect.popped = none := by
  have hcall : ending.call s.thread.controller s.thread.collector domain now s.thread.taskDesc =
      some (s.thread.taskDesc, none) := by
    cases ending with
    | plain => exact absurd rfl hending
    | exInfo info => simp [Ending.call, taskEndInternalExInfo, taskEndInternal, hoff]
    | callbackInfo info => simp [Ending.call, taskEndInternalCallbackInfo, taskEndInternal, hoff]
  simp only [Trail.step, call, hcall, Option.map_some, Nat.lt_irrefl, ↓reduceIte,
    Option.some.injEq, Prod.mk.injEq] at h
  rw [← h.2]

/-- Every effect of a run is the effect of its call. -/
theorem effect_of_run {s : Trail} {calls : List Call} {i : Nat} {x : Call} {effect : Effect}
    (hx : calls[i]? = some x) (he : (s.run calls).2[i]? = some effect) :
    ∃ s₁ s₂ : Trail, s₁.thread.collector = s.thread.collector ∧ s₁.step x = some (s₂, effect) := by
  induction calls generalizing s i with
  | nil => simp at hx
  | cons y calls ih =>
    simp only [Trail.run] at he
    cases hstep : s.step y with
    | none => simp [hstep] at he
    | some next =>
      obtain ⟨s', e⟩ := next
      simp only [hstep] at he
      cases i with
      | zero =>
        cases hx
        cases he
        exact ⟨s, s', rfl, hstep⟩
      | succ i =>
        obtain ⟨s₁, s₂, hcollector, hstep₁⟩ := ih hx he
        exact ⟨s₁, s₂, hcollector.trans (step_collector hstep), hstep₁⟩

theorem end_pops (n : Nesting) (next : Nat) :
    List.Forall₂ (fun x popped => ∀ ending domain now, x = Call.taskEnd ending domain now →
      popped ≠ none) n.calls (n.pops next) := by
  induction n generalizing next with
  | done => exact List.Forall₂.nil
  | task domain b inner ending stop rest ihInner ihRest =>
    refine List.Forall₂.cons (by simp) (List.rel_append (ihInner _) ?_)
    exact List.Forall₂.cons (by simp) (ihRest _)

theorem internal_end_of_not_allPlain {n : Nesting} (h : ¬ n.AllPlain) :
    ∃ ending domain now, ending ≠ .plain ∧ Call.taskEnd ending domain now ∈ n.calls := by
  induction n with
  | done => exact absurd trivial h
  | task domain b inner ending stop rest ihInner ihRest =>
    by_cases hinner : inner.AllPlain
    · by_cases hending : ending = .plain
      · have hrest : ¬ rest.AllPlain := fun hrest => h ⟨hinner, hending, hrest⟩
        obtain ⟨e, d, now, hne, hmem⟩ := ihRest hrest
        exact ⟨e, d, now, hne, by simp [Nesting.calls, hmem]⟩
      · exact ⟨ending, some (some domain.val), stop, hending, by simp [Nesting.calls]⟩
    · obtain ⟨e, d, now, hne, hmem⟩ := ihInner hinner
      exact ⟨e, d, now, hne, by simp [Nesting.calls, hmem]⟩

theorem allPlain_of_popsOwn {stack : List ThreadTaskDescriptor} {n : Nesting}
    (hoff : collector.chromeLoggingOn = false) (h : PopsOwn c collector stack n) : n.AllPlain := by
  by_contra hn
  obtain ⟨ending, domain, now, hending, hmem⟩ := internal_end_of_not_allPlain hn
  obtain ⟨hpops, -⟩ := h
  obtain ⟨effects, heffects⟩ : ∃ effects, effects =
    ((Trail.start ⟨c, collector, stack⟩).run n.calls).2 := ⟨_, rfl⟩
  rw [← heffects] at hpops
  obtain ⟨i, hi, hx⟩ := List.getElem_of_mem hmem
  have hlen : i < effects.length := by
    rwa [← length_pops n stack.length, ← hpops, List.length_map] at hi
  have heffect : ((Trail.start ⟨c, collector, stack⟩).run n.calls).2[i]? = some effects[i] := by
    rw [← heffects]
    exact List.getElem?_eq_getElem hlen
  obtain ⟨s₁, s₂, hcollector, hstep⟩ :=
    effect_of_run (List.getElem?_eq_some_iff.mpr ⟨hi, hx⟩) heffect
  have hoff₁ : s₁.thread.collector.chromeLoggingOn = false := by rw [hcollector]; exact hoff
  have hnone : effects[i].popped = none := internal_pops_nothing hoff₁ hending hstep
  have hi' : i < (n.pops stack.length).length := by rw [length_pops]; exact hi
  have hpop : (n.pops stack.length)[i] = none := by
    simp only [← hpops, List.getElem_map, hnone]
  have hsome := (end_pops n stack.length).get hi hi' ending domain now hx
  exact hsome hpop

/-! ## The result -/

/-- With collection enabled and the summary or the trace on, every end call pops its own
entry if the trace is on or all ends are plain, and only then. -/
theorem pops_own_iff (c : UniController) (hc : c.isCollectionEnabled = true)
    (collector : IttCollector)
    (hon : collector.cclSummaryOn = true ∨ collector.chromeLoggingOn = true)
    (stack : List ThreadTaskDescriptor) (n : Nesting) :
    PopsOwn c collector stack n ↔ collector.chromeLoggingOn = true ∨ n.AllPlain := by
  constructor
  · intro h
    cases htrace : collector.chromeLoggingOn with
    | true => exact Or.inl rfl
    | false => exact Or.inr (allPlain_of_popsOwn htrace h)
  · intro h
    obtain ⟨effects, hrun, hpops⟩ :=
      run_nesting hc hon n h stack (List.range stack.length).reverse stack.length
    unfold PopsOwn Trail.start
    rw [hrun]
    exact ⟨hpops, rfl⟩

open Unitrace.Itt.PausedTasks (taskA taskB collecting collecting_enabled)

/-- `B` is ended with the data of a transfer inside of `A`. -/
def transferInside : Nesting :=
  .task taskA.name taskA (.task taskB.name taskB .done (.callbackInfo ⟨0, 8, 8⟩) 3 .done) .plain 4
    .done

theorem pops_own_iff_transfer :
    PopsOwn collecting ⟨true, true⟩ [] transferInside ↔
      (⟨true, true⟩ : IttCollector).chromeLoggingOn = true ∨ transferInside.AllPlain :=
  pops_own_iff collecting collecting_enabled ⟨true, true⟩ (Or.inl rfl) [] transferInside

/-- With the summary alone the entry of `B` stays, and the end call of `A` finds it. -/
theorem not_pops_own_transfer :
    ¬ ∀ (c : UniController) (collector : IttCollector) (stack : List ThreadTaskDescriptor)
      (n : Nesting), c.isCollectionEnabled = true →
      (collector.cclSummaryOn = true ∨ collector.chromeLoggingOn = true) →
      PopsOwn c collector stack n := by
  intro h
  have hpops := h collecting ⟨true, false⟩ [] transferInside collecting_enabled (Or.inl rfl)
  have hplain := allPlain_of_popsOwn rfl hpops
  exact Ending.noConfusion hplain.1.2.1

end Unitrace.Itt.EndVariants
