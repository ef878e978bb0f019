import Mathlib.Data.List.Perm.Basic

/-!
# Runs that only add

A step that may fail adds entries to a state, and which entries it adds, or how it fails,
does not depend on the state. Then a run succeeds exactly when each of its steps does,
whatever their order, and it adds the entries of all steps.
-/
namespace Unitrace.Lib.Additions

variable {σ ρ ε α : Type*} {push : σ → ρ → σ}

/-- The step adds the entries to any state. -/
def Adds (push : σ → ρ → σ) (step : σ → Except ε σ) (entries : Except ε (List ρ)) : Prop :=
  ∀ s, step s = entries.map fun es => es.foldl push s

/-- The entries of a step, none if it fails. -/
def added (entries : Except ε (List ρ)) : List ρ := entries.toOption.getD []

/-- The entries of the steps in order, or the first failure. -/
def gather (entries : α → Except ε (List ρ)) : List α → Except ε (List ρ)
  | [] => .ok []
  | a :: as => entries a >>= fun es => (gather entries as).map (es ++ ·)

theorem Adds.pure : Adds push (fun s => (.ok s : Except ε σ)) (.ok []) := fun _ => rfl

theorem Adds.bind {f g : σ → Except ε σ} {entries entries' : Except ε (List ρ)}
    (hf : Adds push f entries) (hg : Adds push g entries') :
    Adds push (fun s => f s >>= g) (entries >>= fun es => entries'.map (es ++ ·)) := by
  intro s
  change f s >>= g = _
  rw [hf s]
  cases entries with
  | error e => rfl
  | ok es =>
    change g (es.foldl push s) = _
    rw [hg]
    cases entries' with
    | error e => rfl
    | ok es' => exact congrArg Except.ok List.foldl_append.symm

theorem Adds.foldlM {step : σ → α → Except ε σ} {entries : α → Except ε (List ρ)}
    (h : ∀ a, Adds push (fun s => step s a) (entries a)) (as : List α) :
    Adds push (fun s => as.foldlM step s) (gather entries as) := by
  induction as with
  | nil => exact Adds.pure
  | cons a as ih =>
    intro s
    exact ((h a).bind ih) s

/-- All the steps succeed, and their entries are those of the single steps. -/
theorem gather_eq_ok {entries : α → Except ε (List ρ)} {as : List α} {es : List ρ} :
    gather entries as = .ok es ↔
      (∀ a ∈ as, ∃ es, entries a = .ok es) ∧ es = as.flatMap fun a => added (entries a) := by
  induction as generalizing es with
  | nil => simp [gather, eq_comm]
  | cons a as ih =>
    rw [gather, List.forall_mem_cons, List.flatMap_cons]
    cases ha : entries a with
    | error e =>
      constructor
      · intro h
        cases h
      · rintro ⟨⟨⟨es, hes⟩, -⟩, -⟩
        cases hes
    | ok head =>
      change (gather entries as).map (head ++ ·) = _ ↔ _ ∧ es = head ++ _
      cases hrest : gather entries as with
      | error e =>
        constructor
        · intro h
          cases h
        · rintro ⟨⟨-, has⟩, -⟩
          have hok := ih.mpr ⟨has, rfl⟩
          rw [hrest] at hok
          cases hok
      | ok rest =>
        obtain ⟨has, rfl⟩ := ih.mp hrest
        constructor
        · intro h
          exact ⟨⟨⟨head, rfl⟩, has⟩, (Except.ok.inj h).symm⟩
        · rintro ⟨-, rfl⟩
          rfl

/-- The steps may be taken in any order: they succeed together and add the same entries. -/
theorem gather_perm {entries : α → Except ε (List ρ)} {as as' : List α} (hperm : as.Perm as')
    {es : List ρ} (h : gather entries as = .ok es) :
    ∃ es', gather entries as' = .ok es' ∧ es.Perm es' := by
  obtain ⟨has, rfl⟩ := gather_eq_ok.mp h
  exact ⟨_, gather_eq_ok.mpr ⟨fun a ha => has a (hperm.mem_iff.mpr ha), rfl⟩, hperm.flatMap_right _⟩

theorem gather_error {entries : α → Except ε (List ρ)} {as : List α} {e : ε}
    (h : gather entries as = .error e) : ∃ a ∈ as, entries a = .error e := by
  induction as with
  | nil => cases h
  | cons a as ih =>
    rw [gather] at h
    cases ha : entries a with
    | error e' =>
      rw [ha] at h
      cases h
      exact ⟨a, List.mem_cons_self, ha⟩
    | ok es =>
      rw [ha] at h
      cases hrest : gather entries as with
      | ok es' =>
        rw [hrest] at h
        cases h
      | error e' =>
        rw [hrest] at h
        cases h
        obtain ⟨a', ha', herror⟩ := ih hrest
        exact ⟨a', List.mem_cons_of_mem _ ha', herror⟩

theorem gather_map {β : Type*} (entries : β → Except ε (List ρ)) (f : α → β) (as : List α) :
    gather entries (as.map f) = gather (fun a => entries (f a)) as := by
  induction as with
  | nil => rfl
  | cons a as ih => rw [List.map_cons, gather, gather, ih]

theorem gather_append {entries : α → Except ε (List ρ)} {as as' : List α} {es es' : List ρ}
    (h : gather entries as = .ok es) (h' : gather entries as' = .ok es') :
    gather entries (as ++ as') = .ok (es ++ es') := by
  obtain ⟨has, rfl⟩ := gather_eq_ok.mp h
  obtain ⟨has', rfl⟩ := gather_eq_ok.mp h'
  refine gather_eq_ok.mpr ⟨fun a ha => ?_, (List.flatMap_append ..).symm⟩
  rcases List.mem_append.mp ha with ha | ha
  · exact has a ha
  · exact has' a ha

end Unitrace.Lib.Additions
