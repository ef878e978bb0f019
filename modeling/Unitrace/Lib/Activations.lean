import Mathlib.Data.List.Infix

/-!
# Activations that interrupt one another

Activations share a state, and only the innermost one makes steps. Between any two of its
steps something can occur that enters another activation, which has to return first.
-/
namespace Unitrace.Lib.Activations

variable {σ φ ε : Type*}

/-- The shared state and the activations in progress, the innermost one first. -/
structure Machine (σ φ : Type*) where
  shared : σ
  frames : List φ

inductive Event (ε : Type*) where
  | occurs (cause : ε)
  | advance

-- What enters an activation, and the step of an activation, which may be its last one.
variable (enters : ε → Option φ) (next : σ → φ → σ × Option φ)

def Machine.step (m : Machine σ φ) : Event ε → Machine σ φ
  | .occurs cause => ⟨m.shared, (enters cause).toList ++ m.frames⟩
  | .advance =>
    match m.frames with
    | [] => m
    | f :: rest => ⟨(next m.shared f).1, (next m.shared f).2.toList ++ rest⟩

def Machine.run (m : Machine σ φ) (events : List (Event ε)) : Machine σ φ :=
  events.foldl (Machine.step enters next) m

/-- No activation is entered in a state that is exposed. -/
def Undisturbed (Exposed : Machine σ φ → Prop) (m : Machine σ φ) (events : List (Event ε)) : Prop :=
  ∀ before cause, before ++ [.occurs cause] <+: events → (enters cause).isSome →
    ¬ Exposed (m.run enters next before)

section Run

variable {enters next}

theorem run_append (m : Machine σ φ) (events more : List (Event ε)) :
    m.run enters next (events ++ more) = (m.run enters next events).run enters next more :=
  List.foldl_append

theorem run_snoc (m : Machine σ φ) (events : List (Event ε)) (e : Event ε) :
    m.run enters next (events ++ [e]) = (m.run enters next events).step enters next e := by
  rw [run_append]
  rfl

theorem run_invariant {P : Machine σ φ → Prop}
    (hstep : ∀ m e, P m → P (m.step enters next e)) {m : Machine σ φ} (hm : P m)
    (events : List (Event ε)) : P (m.run enters next events) := by
  induction events generalizing m with
  | nil => exact hm
  | cons e events ih => exact ih (hstep m e hm)

variable {Exposed : Machine σ φ → Prop}

theorem undisturbed_snoc {m : Machine σ φ} {events : List (Event ε)} {e : Event ε} :
    Undisturbed enters next Exposed m (events ++ [e]) ↔
      Undisturbed enters next Exposed m events ∧
        ∀ cause, e = .occurs cause → (enters cause).isSome → ¬ Exposed (m.run enters next events) := by
  constructor
  · intro h
    refine ⟨fun before cause hbefore => h before cause (hbefore.trans (List.prefix_append _ _)), ?_⟩
    rintro cause rfl
    exact h events cause (List.prefix_refl _)
  · intro h before cause hbefore
    rcases List.prefix_concat_iff.mp hbefore with heq | hwithin
    · obtain ⟨rfl, he⟩ := List.append_inj' heq rfl
      exact h.2 cause (List.singleton_inj.mp he).symm
    · exact h.1 before cause hwithin

/-- The steps of the activations disturb nothing. -/
theorem Undisturbed.advance {m : Machine σ φ} {events : List (Event ε)}
    (h : Undisturbed enters next Exposed m events) (n : Nat) :
    Undisturbed enters next Exposed m (events ++ List.replicate n .advance) := by
  induction n with
  | zero => rwa [List.replicate_zero, List.append_nil]
  | succ n ih =>
    rw [List.replicate_succ', ← List.append_assoc, undisturbed_snoc]
    refine ⟨ih, ?_⟩
    intro cause he
    cases he

/-- An invariant of the runs in which no activation is entered in an exposed state. -/
theorem undisturbed_invariant {P : Machine σ φ → Prop}
    (hstep : ∀ m e, P m → (∀ cause, e = .occurs cause → (enters cause).isSome → ¬ Exposed m) →
      P (m.step enters next e))
    {m : Machine σ φ} (hm : P m) (events : List (Event ε))
    (h : Undisturbed enters next Exposed m events) : P (m.run enters next events) := by
  induction events using List.reverseRecOn with
  | nil => exact hm
  | append_singleton events e ih =>
    rw [undisturbed_snoc] at h
    rw [run_snoc]
    exact hstep _ e (ih h.1) h.2

variable (enters) in
/-- Left alone, the activations return. -/
theorem all_return (left : φ → Nat)
    (hleft : ∀ s f f', (next s f).2 = some f' → left f' < left f) (m : Machine σ φ) :
    ∃ n, (m.run enters next (List.replicate n .advance)).frames = [] := by
  refine ⟨(m.frames.map (fun f => left f + 1)).sum, ?_⟩
  generalize hn : (m.frames.map (fun f => left f + 1)).sum = n
  replace hn := hn.le
  induction n generalizing m with
  | zero =>
    obtain ⟨shared, _ | ⟨f, rest⟩⟩ := m
    · rfl
    · simp only [List.map_cons, List.sum_cons] at hn
      omega
  | succ n ih =>
    rw [List.replicate_succ]
    apply ih (m.step enters next .advance)
    obtain ⟨shared, _ | ⟨f, rest⟩⟩ := m
    · exact Nat.zero_le n
    · simp only [List.map_cons, List.sum_cons] at hn
      show (List.map _ ((next shared f).2.toList ++ rest)).sum ≤ n
      cases hf : (next shared f).2 with
      | none =>
        show (List.map _ rest).sum ≤ n
        omega
      | some f' =>
        have hless := hleft shared f f' hf
        show left f' + 1 + (List.map _ rest).sum ≤ n
        omega

end Run

end Unitrace.Lib.Activations
