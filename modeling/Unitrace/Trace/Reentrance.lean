import Unitrace.Lib.Activations

/-!
# Signals during the teardown

`Teardown` tests the pointer, deletes the object and only then clears the pointer. A signal
handler calls `Teardown` as well, at whatever step the interrupted code is.
-/
namespace Unitrace.Trace.Reentrance

open Unitrace.Lib.Activations

inductive Signal where
  | SIGINT | SIGABRT | SIGFPE | SIGILL | SIGSEGV | SIGTERM
  deriving DecidableEq

/-- What `std::signal` returns, and whether the previous handler is a null pointer. -/
inductive Installation where
  | sigErr
  | previous (isNull : Bool)
  deriving DecidableEq

/-- The loaded library. Whether `delete tracer` reads the pointer once more or takes what the
test has read is up to the compiler. -/
structure Library where
  rereads : Bool
  teardownOnSignal : Bool
  signal : Signal → Installation

/-- `HandleAbnormalTermination` is the handler of the signal. -/
def Library.handles (lib : Library) (sig : Signal) : Bool :=
  lib.teardownOnSignal && lib.signal sig != .sigErr

/-- `sigint_handler` and its siblings are set. -/
def Library.savedHandler (lib : Library) (sig : Signal) : Bool :=
  lib.teardownOnSignal && lib.signal sig == .previous false

inductive Cause where
  | fini
  | signal (sig : Signal)
  deriving DecidableEq

/-- The step that comes next. The destructor takes its time between `start` and `finish`. -/
inductive Stage where
  | test | read | start | finish | clear | previousHandler
  deriving DecidableEq

/-- `Fini` or a handler in progress. -/
structure Frame where
  cause : Cause
  stage : Stage
  deriving DecidableEq

structure Shared where
  /-- `tracer != nullptr` -/
  tracer : Bool
  /-- How many times `~UniTracer` was started. -/
  started : Nat
  deriving DecidableEq

def Library.enters (lib : Library) : Cause → Option Frame
  | .fini => some ⟨.fini, .test⟩
  | .signal sig => if lib.handles sig then some ⟨.signal sig, .test⟩ else none

/-- What is left of a handler after `Teardown`. -/
def Library.afterTeardown (lib : Library) : Cause → Option Frame
  | .fini => none
  | .signal sig => if lib.savedHandler sig then some ⟨.signal sig, .previousHandler⟩ else none

def Library.next (lib : Library) (s : Shared) (f : Frame) : Shared × Option Frame :=
  match f.stage with
  | .test =>
    (s, if s.tracer then some ⟨f.cause, if lib.rereads then .read else .start⟩
      else lib.afterTeardown f.cause)
  -- Deleting a null pointer does nothing.
  | .read => (s, some ⟨f.cause, if s.tracer then .start else .clear⟩)
  | .start => (⟨s.tracer, s.started + 1⟩, some ⟨f.cause, .finish⟩)
  | .finish => (s, some ⟨f.cause, .clear⟩)
  | .clear => (⟨false, s.started⟩, lib.afterTeardown f.cause)
  | .previousHandler => (s, none)

/-- The state after `Init`. -/
def init : Machine Shared Frame := ⟨⟨true, 0⟩, []⟩

def Library.run (lib : Library) (events : List (Event Cause)) : Machine Shared Frame :=
  init.run lib.enters lib.next events

/-- The pointer has been read for `delete` and is not cleared yet. -/
def Stage.deletes : Stage → Bool
  | .start | .finish | .clear => true
  | .test | .read | .previousHandler => false

def Exposed (m : Machine Shared Frame) : Prop :=
  m.shared.tracer = true ∧ ∃ f ∈ m.frames, f.stage.deletes = true

/-- No Teardown is entered while another one deletes the object. -/
def Library.Undisturbed (lib : Library) (events : List (Event Cause)) : Prop :=
  Lib.Activations.Undisturbed lib.enters lib.next Exposed init events

/-! ## What a step can do -/

theorem fresh_frame {lib : Library} {cause : Cause} {f : Frame} (h : lib.enters cause = some f) :
    f.stage = .test := by
  cases cause with
  | fini =>
    cases h
    rfl
  | signal sig =>
    rw [Library.enters] at h
    split at h
    · cases h
      rfl
    · cases h

theorem last_frame {lib : Library} {cause : Cause} {f : Frame}
    (h : lib.afterTeardown cause = some f) : f.stage = .previousHandler := by
  cases cause with
  | fini => cases h
  | signal sig =>
    rw [Library.afterTeardown] at h
    split at h
    · cases h
      rfl
    · cases h

/-- What a step does, for either compiler: the frames are what remains of the one that makes
the step. -/
inductive Moves (s : Shared) (cause : Cause) : Stage → Shared → List Frame → Prop where
  | toRead (hset : s.tracer = true) : Moves s cause .test s [⟨cause, .read⟩]
  | toStart {stage : Stage} (hfrom : stage = .test ∨ stage = .read) (hset : s.tracer = true) :
      Moves s cause stage s [⟨cause, .start⟩]
  | skip (hnull : s.tracer = false) : Moves s cause .read s [⟨cause, .clear⟩]
  | start : Moves s cause .start ⟨s.tracer, s.started + 1⟩ [⟨cause, .finish⟩]
  | finish : Moves s cause .finish s [⟨cause, .clear⟩]
  | clear {rest : List Frame} (hrest : ∀ f ∈ rest, f.stage = .previousHandler) :
      Moves s cause .clear ⟨false, s.started⟩ rest
  | ignore {rest : List Frame} (hnull : s.tracer = false)
      (hrest : ∀ f ∈ rest, f.stage = .previousHandler) : Moves s cause .test s rest
  | back : Moves s cause .previousHandler s []

theorem afterTeardown_stage (lib : Library) (cause : Cause) :
    ∀ f ∈ (lib.afterTeardown cause).toList, f.stage = .previousHandler := by
  intro f hf
  exact last_frame (Option.mem_toList.mp hf)

theorem next_moves (lib : Library) (s : Shared) (f : Frame) :
    Moves s f.cause f.stage (lib.next s f).1 (lib.next s f).2.toList := by
  obtain ⟨cause, stage⟩ := f
  cases stage with
  | test =>
    simp only [Library.next]
    cases hs : s.tracer with
    | false => exact .ignore hs (afterTeardown_stage lib cause)
    | true =>
      cases lib.rereads with
      | false => exact .toStart (.inl rfl) hs
      | true => exact .toRead hs
  | read =>
    simp only [Library.next]
    cases hs : s.tracer with
    | false => exact .skip hs
    | true => exact .toStart (.inr rfl) hs
  | start => exact .start
  | finish => exact .finish
  | clear => exact .clear (afterTeardown_stage lib cause)
  | previousHandler => exact .back

/-- The steps that a frame still has to make. -/
def Stage.left : Stage → Nat
  | .test => 5
  | .read => 4
  | .start => 3
  | .finish => 2
  | .clear => 1
  | .previousHandler => 0

theorem left_lt (lib : Library) (s : Shared) (f f' : Frame) (h : (lib.next s f).2 = some f') :
    f'.stage.left < f.stage.left := by
  have hmoves := next_moves lib s f
  rw [h, Option.toList_some] at hmoves
  obtain ⟨cause, stage⟩ := f
  generalize (lib.next s ⟨cause, stage⟩).1 = s' at hmoves
  cases hmoves with
  | toStart hfrom => rcases hfrom with rfl | rfl <;> simp [Stage.left]
  | toRead | skip | start | finish => simp [Stage.left]
  | clear hrest | ignore _ hrest =>
    rw [hrest f' (List.mem_singleton_self f')]
    simp [Stage.left]

/-- A property survives an event if it survives a fresh frame and every move. -/
theorem step_preserves {lib : Library} {P : Machine Shared Frame → Prop}
    {m : Machine Shared Frame} {e : Event Cause} (hm : P m)
    (henter : ∀ cause f, e = .occurs cause → (lib.enters cause).isSome → f.stage = .test →
      P ⟨m.shared, f :: m.frames⟩)
    (hmove : ∀ f rest s' l, m.frames = f :: rest → Moves m.shared f.cause f.stage s' l →
      P ⟨s', l ++ rest⟩) :
    P (m.step lib.enters lib.next e) := by
  cases e with
  | occurs cause =>
    rw [Machine.step]
    cases hf : lib.enters cause with
    | none => exact hm
    | some f => exact henter cause f rfl (by rw [hf]; rfl) (fresh_frame hf)
  | advance =>
    obtain ⟨s, frames⟩ := m
    cases frames with
    | nil => exact hm
    | cons f rest => exact hmove f rest _ _ rfl (next_moves lib s f)

/-! ## The runs of the destructor -/

/-- The runs of `~UniTracer`, with those that are certain to come. -/
def owed (m : Machine Shared Frame) : Nat :=
  m.shared.started + m.frames.countP (fun f => f.stage == .start)

theorem owed_cons (s : Shared) (f : Frame) (rest : List Frame) :
    owed ⟨s, f :: rest⟩ = owed ⟨s, rest⟩ + if f.stage = .start then 1 else 0 := by
  simp only [owed, List.countP_cons, beq_iff_eq, Nat.add_assoc]

theorem owed_fresh (m : Machine Shared Frame) {f : Frame} (hf : f.stage = .test) :
    owed ⟨m.shared, f :: m.frames⟩ = owed m := by
  rw [owed_cons, hf]
  rfl

theorem owed_previous (s : Shared) {l : List Frame} (hl : ∀ f ∈ l, f.stage = .previousHandler)
    (rest : List Frame) : owed ⟨s, l ++ rest⟩ = owed ⟨s, rest⟩ := by
  have hnone : l.countP (fun f => f.stage == .start) = 0 := by
    rw [List.countP_eq_zero]
    intro f hf
    rw [hl f hf]
    decide
  simp only [owed, List.countP_append, hnone, Nat.zero_add]

/-- The destructor that is certain to come is one that was started. -/
theorem owed_start (s : Shared) (cause : Cause) (rest : List Frame) :
    owed ⟨⟨s.tracer, s.started + 1⟩, ⟨cause, .finish⟩ :: rest⟩ =
      owed ⟨s, ⟨cause, .start⟩ :: rest⟩ := by
  rw [owed_cons, owed_cons, if_pos rfl, if_neg (by simp)]
  simp only [owed]
  omega

/-- Only a frame that finds the pointer set makes a further run certain. -/
theorem owed_move {s s' : Shared} {f : Frame} {l : List Frame} (rest : List Frame)
    (h : Moves s f.cause f.stage s' l) :
    owed ⟨s', l ++ rest⟩ = owed ⟨s, f :: rest⟩ ∨
      s.tracer = true ∧ owed ⟨s', l ++ rest⟩ = owed ⟨s, f :: rest⟩ + 1 := by
  obtain ⟨cause, stage⟩ := f
  cases h with
  | toRead | skip | finish | back => exact .inl rfl
  | toStart hfrom hset =>
    right
    refine ⟨hset, ?_⟩
    rw [List.singleton_append, owed_cons, owed_cons]
    rcases hfrom with rfl | rfl <;> rfl
  | start => exact .inl (owed_start s cause rest)
  | clear hrest | ignore _ hrest =>
    left
    rw [owed_previous _ hrest, owed_cons]
    rfl

/-- What has been started or is certain to come does not vanish. -/
theorem owed_le_move {s s' : Shared} {f : Frame} {l : List Frame} (rest : List Frame)
    (h : Moves s f.cause f.stage s' l) : owed ⟨s, f :: rest⟩ ≤ owed ⟨s', l ++ rest⟩ := by
  rcases owed_move rest h with heq | ⟨-, heq⟩
  · exact heq.ge
  · rw [heq]
    exact Nat.le_succ _

theorem owed_of_quiet (s : Shared) {frames : List Frame}
    (hquiet : ∀ f ∈ frames, f.stage.deletes = false) : owed ⟨s, frames⟩ = s.started := by
  have hnone : frames.countP (fun f => f.stage == .start) = 0 := by
    rw [List.countP_eq_zero]
    intro f hf hstart
    have hdeletes := hquiet f hf
    rw [beq_iff_eq.mp hstart] at hdeletes
    cases hdeletes
  simp only [owed, hnone, Nat.add_zero]

theorem Moves.null {s s' : Shared} {cause : Cause} {stage : Stage} {l : List Frame}
    (h : Moves s cause stage s' l) (hnull : s.tracer = false) : s'.tracer = false := by
  cases h with
  | toRead | toStart | skip | start | finish | ignore | back => exact hnull
  | clear => rfl

/-- Nothing new becomes certain once the pointer is null. -/
theorem owed_null {s s' : Shared} {f : Frame} {l : List Frame} (rest : List Frame)
    (hnull : s.tracer = false) (h : Moves s f.cause f.stage s' l) :
    owed ⟨s', l ++ rest⟩ = owed ⟨s, f :: rest⟩ := by
  rcases owed_move rest h with heq | ⟨hset, -⟩
  · exact heq
  · rw [hnull] at hset
    cases hset

theorem Exposed.of_fresh {m : Machine Shared Frame} {f : Frame} (hf : f.stage = .test)
    (h : Exposed ⟨m.shared, f :: m.frames⟩) : Exposed m := by
  obtain ⟨hset, g, hg, hdeletes⟩ := h
  refine ⟨hset, g, (List.mem_cons.mp hg).resolve_left ?_, hdeletes⟩
  rintro rfl
  rw [hf] at hdeletes
  cases hdeletes

/-- After a move the deleting frame is an old one, or its destructor counts already. -/
theorem Exposed.of_move {s s' : Shared} {f : Frame} {l rest : List Frame}
    (hmove : Moves s f.cause f.stage s' l) (h : Exposed ⟨s', l ++ rest⟩) :
    Exposed ⟨s, f :: rest⟩ ∨ 1 ≤ owed ⟨s', l ++ rest⟩ := by
  obtain ⟨hset, g, hg, hdeletes⟩ := h
  obtain ⟨cause, stage⟩ := f
  cases hmove with
  | toRead =>
    rcases List.mem_cons.mp hg with rfl | hrest
    · cases hdeletes
    · exact .inl ⟨hset, g, List.mem_cons_of_mem _ hrest, hdeletes⟩
  | toStart =>
    right
    rw [List.singleton_append, owed_cons, if_pos rfl]
    exact Nat.le_add_left 1 _
  | skip hnull =>
    rw [show s.tracer = true from hset] at hnull
    cases hnull
  | start =>
    right
    simp only [owed]
    omega
  | finish => exact .inl ⟨hset, ⟨cause, .finish⟩, List.mem_cons_self, rfl⟩
  | clear => cases hset
  | ignore hnull =>
    rw [show s.tracer = true from hset] at hnull
    cases hnull
  | back => exact .inl ⟨hset, g, List.mem_cons_of_mem _ hg, hdeletes⟩

/-- A frame that deletes the object has started the destructor or is about to. -/
theorem owed_of_exposed (lib : Library) (events : List (Event Cause)) :
    Exposed (lib.run events) → 1 ≤ owed (lib.run events) := by
  apply run_invariant (P := fun m => Exposed m → 1 ≤ owed m)
  · intro m e hm
    apply step_preserves (P := fun m => Exposed m → 1 ≤ owed m) hm
    · intro cause f _ _ hf h
      rw [owed_fresh m hf]
      exact hm (h.of_fresh hf)
    · intro f rest s' l hframes hmove h
      rcases h.of_move hmove with hold | howed
      · have hle := owed_le_move rest hmove
        rw [← hframes] at hold hle
        exact (hm hold).trans hle
      · exact howed
  · intro h
    obtain ⟨_, f, hf, _⟩ := h
    cases hf

/-! ## The three phases -/

/-- The three phases of a run in which no frame is entered at the wrong time. -/
inductive Phase : Machine Shared Frame → Prop where
  | before {s : Shared} {frames : List Frame} (hset : s.tracer = true) (hstarted : s.started = 0)
      (hrest : ∀ f ∈ frames, f.stage.deletes = false) : Phase ⟨s, frames⟩
  | during {s : Shared} {f : Frame} {rest : List Frame} (hset : s.tracer = true)
      (hdeletes : f.stage.deletes = true) (howed : owed ⟨s, f :: rest⟩ = 1)
      (hrest : ∀ f ∈ rest, f.stage.deletes = false) : Phase ⟨s, f :: rest⟩
  | after {m : Machine Shared Frame} (hnull : m.shared.tracer = false) (howed : owed m ≤ 1) :
      Phase m

theorem Phase.move {s s' : Shared} {f : Frame} {l rest : List Frame}
    (hm : Phase ⟨s, f :: rest⟩) (hmove : Moves s f.cause f.stage s' l) : Phase ⟨s', l ++ rest⟩ := by
  cases hm with
  | before hset hstarted hrest =>
    have hf := hrest f List.mem_cons_self
    replace hrest : ∀ g ∈ rest, g.stage.deletes = false :=
      fun g hg => hrest g (List.mem_cons_of_mem f hg)
    obtain ⟨cause, stage⟩ := f
    cases hmove with
    | toRead =>
      refine .before hset hstarted ?_
      intro g hg
      rcases List.mem_cons.mp hg with rfl | hg
      · rfl
      · exact hrest g hg
    | toStart =>
      refine .during hset rfl ?_ hrest
      show owed ⟨s, ⟨cause, .start⟩ :: rest⟩ = 1
      rw [owed_cons, owed_of_quiet s hrest, hstarted]
      rfl
    | skip hnull | ignore hnull =>
      rw [hset] at hnull
      cases hnull
    | start | finish | clear => cases hf
    | back => exact .before hset hstarted hrest
  | during hset hdeletes howed hrest =>
    obtain ⟨cause, stage⟩ := f
    cases hmove with
    | toRead => cases hdeletes
    | toStart hfrom => rcases hfrom with rfl | rfl <;> cases hdeletes
    | skip hnull | ignore hnull =>
      rw [hset] at hnull
      cases hnull
    | start =>
      refine .during hset rfl ?_ hrest
      exact (owed_start s cause rest).trans howed
    | finish => exact .during hset rfl howed hrest
    | clear hprevious =>
      refine .after rfl ?_
      rw [owed_previous _ hprevious]
      exact howed.le
    | back => cases hdeletes
  | after hnull howed =>
    exact .after (hmove.null hnull) ((owed_null rest hnull hmove).trans_le howed)

theorem Phase.enter {m : Machine Shared Frame} {f : Frame} (hm : Phase m) (hf : f.stage = .test)
    (hquiet : ¬ Exposed m) : Phase ⟨m.shared, f :: m.frames⟩ := by
  cases hm with
  | before hset hstarted hrest =>
    refine .before hset hstarted ?_
    intro g hg
    rcases List.mem_cons.mp hg with rfl | hg
    · rw [hf]
      rfl
    · exact hrest g hg
  | during hset hdeletes howed hrest =>
    exact absurd ⟨hset, _, List.mem_cons_self, hdeletes⟩ hquiet
  | after hnull howed =>
    refine .after hnull ?_
    rw [owed_fresh m hf]
    exact howed

theorem Phase.started_le {m : Machine Shared Frame} (hm : Phase m) : m.shared.started ≤ 1 := by
  cases hm with
  | before hset hstarted => exact hstarted.trans_le (Nat.zero_le 1)
  | during hset hdeletes howed => exact (Nat.le_add_right _ _).trans howed.le
  | after hnull howed => exact (Nat.le_add_right _ _).trans howed

theorem phase_of_undisturbed (lib : Library) (events : List (Event Cause))
    (h : lib.Undisturbed events) : Phase (lib.run events) := by
  refine undisturbed_invariant (P := Phase) ?_ ?_ events h
  · intro m e hm hquiet
    apply step_preserves hm
    · intro cause f he henters hf
      exact hm.enter hf (hquiet cause he henters)
    · intro f rest s' l hframes hmove
      obtain ⟨s, frames⟩ := m
      cases hframes
      exact hm.move hmove
  · refine .before rfl rfl ?_
    intro f hf
    cases hf

/-! ## After an activation at the wrong time -/

/-- Once a frame was entered at the wrong time. -/
inductive Doomed (m : Machine Shared Frame) : Prop where
  | twice (h : 2 ≤ owed m)
  | soon (hset : m.shared.tracer = true) (howed : 1 ≤ owed m) {f : Frame} {rest : List Frame}
      (hframes : m.frames = f :: rest) (hstage : f.stage = .test ∨ f.stage = .read)

theorem Doomed.enter {m : Machine Shared Frame} {f : Frame} (hm : Doomed m)
    (hf : f.stage = .test) : Doomed ⟨m.shared, f :: m.frames⟩ := by
  cases hm with
  | twice h =>
    apply Doomed.twice
    rwa [owed_fresh m hf]
  | soon hset howed =>
    refine .soon hset ?_ rfl (.inl hf)
    rwa [owed_fresh m hf]

theorem Doomed.move {s s' : Shared} {f : Frame} {l rest : List Frame}
    (hm : Doomed ⟨s, f :: rest⟩) (hmove : Moves s f.cause f.stage s' l) :
    Doomed ⟨s', l ++ rest⟩ := by
  cases hm with
  | twice h => exact .twice (h.trans (owed_le_move rest hmove))
  | soon hset howed hframes hstage =>
    cases hframes
    obtain ⟨cause, stage⟩ := f
    cases hmove with
    | toRead => exact .soon hset howed rfl (.inr rfl)
    | toStart hfrom =>
      apply Doomed.twice
      show 2 ≤ owed ⟨s, ⟨cause, .start⟩ :: rest⟩
      have hpaid : owed ⟨s, ⟨cause, stage⟩ :: rest⟩ = owed ⟨s, rest⟩ := by
        rw [owed_cons]
        rcases hfrom with rfl | rfl <;> rfl
      rw [owed_cons, if_pos rfl]
      omega
    | skip hnull | ignore hnull =>
      rw [show s.tracer = true from hset] at hnull
      cases hnull
    | start | finish | clear | back => rcases hstage with h | h <;> cases h

theorem Doomed.run {m : Machine Shared Frame} (hm : Doomed m) (lib : Library)
    (events : List (Event Cause)) : Doomed (m.run lib.enters lib.next events) := by
  refine run_invariant (P := Doomed) ?_ hm events
  intro m e hm
  apply step_preserves hm
  · intro cause f _ _ hf
    exact hm.enter hf
  · intro f rest s' l hframes hmove
    obtain ⟨s, frames⟩ := m
    cases hframes
    exact hm.move hmove

theorem doomed_of_disturbed (lib : Library) (events : List (Event Cause))
    (h : ¬ lib.Undisturbed events) : Doomed (lib.run events) := by
  simp only [Library.Undisturbed, Lib.Activations.Undisturbed, not_forall, not_not] at h
  obtain ⟨before, cause, ⟨rest, rfl⟩, henters, hexposed⟩ := h
  obtain ⟨f, hf⟩ := Option.isSome_iff_exists.mp henters
  rw [Library.run, run_append, run_snoc]
  apply Doomed.run
  show Doomed ⟨_, (lib.enters cause).toList ++ _⟩
  rw [hf]
  refine .soon hexposed.1 ?_ rfl (.inl (fresh_frame hf))
  rw [Option.toList_some, List.singleton_append, owed_fresh _ (fresh_frame hf)]
  exact owed_of_exposed lib before hexposed

theorem Doomed.started {m : Machine Shared Frame} (hm : Doomed m) (hframes : m.frames = []) :
    2 ≤ m.shared.started := by
  cases hm with
  | twice h =>
    rw [owed, hframes] at h
    exact h
  | soon _ _ hcons =>
    rw [hframes] at hcons
    cases hcons

/-- However far the activations get after these events, the destructor is started at most
once: this holds exactly if none of them is entered while another one deletes the object. -/
theorem started_once_iff (lib : Library) (events : List (Event Cause)) :
    (∀ n, (lib.run (events ++ List.replicate n .advance)).shared.started ≤ 1) ↔
      lib.Undisturbed events := by
  constructor
  · intro hone
    by_contra hdisturbed
    obtain ⟨n, hn⟩ := all_return lib.enters (fun f => f.stage.left) (left_lt lib) (lib.run events)
    have hdoomed := (doomed_of_disturbed lib events hdisturbed).run lib (List.replicate n .advance)
    have htwo := hdoomed.started hn
    have hle := hone n
    rw [Library.run, run_append] at hle
    exact absurd (htwo.trans hle) (by decide)
  · intro h n
    exact (phase_of_undisturbed lib _ (h.advance n)).started_le

/-- SIGINT arrives while `Fini` runs the destructor: it runs twice. -/
theorem interrupted_destructor_restarts :
    let lib : Library := ⟨true, true, fun _ => .previous true⟩
    let events : List (Event Cause) :=
      [.occurs .fini, .advance, .advance, .advance, .occurs (.signal .SIGINT)]
    ¬ (lib.run (events ++ List.replicate 3 .advance)).shared.started ≤ 1 := by
  decide

end Unitrace.Trace.Reentrance
