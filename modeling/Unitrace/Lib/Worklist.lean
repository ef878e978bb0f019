import Mathlib.Data.Fintype.Card
import Mathlib.Logic.Relation

/-!
# Work lists without a visited set

A work list visits its items in order; the items that follow an item go to its end, as
often as the item is visited. A visit can stop the run. Without stopping, the run goes
level by level through the walks from the first items, so it ends exactly if no cycle
can be reached.
-/
namespace Unitrace.Lib.Worklist

variable {α σ ρ : Type*} (next : α → List α) (visit : α → σ → Except ρ σ)

/-- The run with at most `fuel` visits; `none` if it goes on after them. -/
def run : Nat → List α → σ → Option (Except ρ σ)
  | _, [], s => some (.ok s)
  | 0, _ :: _, _ => none
  | fuel + 1, a :: items, s =>
    match visit a s with
    | .error r => some (.error r)
    | .ok s => run fuel (items ++ next a) s

def visitAll : List α → σ → Except ρ σ
  | [], s => .ok s
  | a :: items, s =>
    match visit a s with
    | .error r => .error r
    | .ok s => visitAll items s

/-- The items after `k` steps from the given ones, one for each walk. -/
def level : List α → Nat → List α
  | items, 0 => items
  | items, k + 1 => level (items.flatMap next) k

/-- The items of the first `k` levels. -/
def levels : List α → Nat → List α
  | _, 0 => []
  | items, k + 1 => items ++ levels (items.flatMap next) k

variable {next visit}

theorem visitAll_append (items more : List α) (s : σ) :
    visitAll visit (items ++ more) s =
      match visitAll visit items s with
      | .error r => .error r
      | .ok s => visitAll visit more s := by
  induction items generalizing s with
  | nil => rfl
  | cons a items ih =>
    rw [List.cons_append, visitAll, visitAll]
    cases visit a s with
    | error r => rfl
    | ok s => exact ih s

theorem levels_succ (items : List α) (k : Nat) :
    levels next items (k + 1) = levels next items k ++ level next items k := by
  induction k generalizing items with
  | zero => exact List.append_nil items
  | succ k ih =>
    rw [levels, ih, ← List.append_assoc]
    rfl

theorem mem_levels {items : List α} {k : Nat} {a : α} :
    a ∈ levels next items k ↔ ∃ i < k, a ∈ level next items i := by
  induction k with
  | zero => simp [levels]
  | succ k ih =>
    rw [levels_succ, List.mem_append, ih]
    constructor
    · intro h
      rcases h with ⟨i, hi, ha⟩ | ha
      · exact ⟨i, by omega, ha⟩
      · exact ⟨k, by omega, ha⟩
    · intro ⟨i, hi, ha⟩
      rcases Nat.lt_or_ge i k with hlt | hge
      · exact Or.inl ⟨i, hlt, ha⟩
      · obtain rfl : i = k := by omega
        exact Or.inr ha

/-! ## One level -/

variable (next) in
theorem run_append (fuel : Nat) {items : List α} (more : List α) {s s' : σ}
    (h : visitAll visit items s = .ok s') :
    run next visit (fuel + items.length) (items ++ more) s =
      run next visit fuel (more ++ items.flatMap next) s' := by
  induction items generalizing s more with
  | nil =>
    obtain rfl := Except.ok.inj h
    simp
  | cons a items ih =>
    rw [visitAll] at h
    cases hvisit : visit a s with
    | error r =>
      rw [hvisit] at h
      cases h
    | ok next_s =>
      rw [hvisit] at h
      rw [List.length_cons, ← Nat.add_assoc, List.cons_append, run, hvisit, List.append_assoc]
      show run next visit (fuel + items.length) (items ++ (more ++ next a)) next_s = _
      rw [ih (more ++ next a) h, List.flatMap_cons, List.append_assoc]

variable (next) in
theorem run_append_stop (fuel : Nat) {items : List α} (more : List α) {s : σ} {r : ρ}
    (h : visitAll visit items s = .error r) :
    run next visit (fuel + items.length) (items ++ more) s = some (.error r) := by
  induction items generalizing s more with
  | nil => cases h
  | cons a items ih =>
    rw [visitAll] at h
    rw [List.length_cons, ← Nat.add_assoc, List.cons_append, run]
    cases hvisit : visit a s with
    | error r' =>
      rw [hvisit] at h
      exact congrArg (fun r => some (Except.error r)) (Except.error.inj h)
    | ok next_s =>
      rw [hvisit] at h
      rw [List.append_assoc]
      exact ih (more ++ next a) h

variable (next) in
theorem run_short {fuel : Nat} {items : List α} (more : List α) {s s' : σ}
    (h : visitAll visit items s = .ok s') (hfuel : fuel < items.length) :
    run next visit fuel (items ++ more) s = none := by
  induction items generalizing fuel s more with
  | nil =>
    rw [List.length_nil] at hfuel
    omega
  | cons a items ih =>
    rw [visitAll] at h
    cases fuel with
    | zero => rfl
    | succ fuel =>
      rw [List.cons_append, run]
      cases hvisit : visit a s with
      | error r =>
        rw [hvisit] at h
        cases h
      | ok next_s =>
        rw [hvisit] at h
        rw [List.append_assoc]
        rw [List.length_cons] at hfuel
        exact ih (more ++ next a) h (by omega)

/-! ## The whole run -/

theorem run_mono {fuel : Nat} {items : List α} {s : σ} {r : Except ρ σ}
    (h : run next visit fuel items s = some r) (more : Nat) :
    run next visit (fuel + more) items s = some r := by
  induction fuel generalizing items s with
  | zero =>
    cases items with
    | nil =>
      rw [run] at h ⊢
      exact h
    | cons a items => cases h
  | succ fuel ih =>
    cases items with
    | nil =>
      rw [run] at h ⊢
      exact h
    | cons a items =>
      rw [Nat.add_right_comm, run]
      rw [run] at h
      cases hvisit : visit a s with
      | error e =>
        rw [hvisit] at h
        exact h
      | ok next_s =>
        rw [hvisit] at h
        exact ih h

/-- A run that ends has visited the levels, up to one that stops it or leaves no items. -/
theorem levels_of_run {fuel : Nat} {items : List α} {s : σ} {r : Except ρ σ}
    (h : run next visit fuel items s = some r) :
    ∃ k, visitAll visit (levels next items k) s = r ∧
      (level next items k = [] ∨ ∃ e, r = .error e) := by
  induction fuel using Nat.strong_induction_on generalizing items s with
  | _ fuel ih =>
    cases hvisit : visitAll visit items s with
    | error e =>
      have hstop := run_append_stop next 0 [] hvisit
      rw [List.append_nil, Nat.zero_add] at hstop
      have hlong := run_mono hstop fuel
      rw [Nat.add_comm, run_mono h items.length] at hlong
      obtain rfl := Option.some.inj hlong
      exact ⟨1, by rw [levels, visitAll_append, hvisit], .inr ⟨e, rfl⟩⟩
    | ok s' =>
      by_cases hnil : items = []
      · subst hnil
        obtain rfl : r = .ok s := by
          cases fuel <;> exact (Option.some.inj h).symm
        exact ⟨0, rfl, .inl rfl⟩
      have hpos : 0 < items.length := List.length_pos_of_ne_nil hnil
      rcases Nat.lt_or_ge fuel items.length with hlt | hge
      · have hnone := run_short next [] hvisit hlt
        rw [List.append_nil, h] at hnone
        cases hnone
      · obtain ⟨rest, rfl⟩ : ∃ rest, fuel = rest + items.length := ⟨fuel - items.length, by omega⟩
        have hrun := run_append next rest [] hvisit
        rw [List.append_nil, List.nil_append, h] at hrun
        obtain ⟨k, hk, hend⟩ := ih rest (by omega) hrun.symm
        exact ⟨k + 1, by rw [levels, visitAll_append, hvisit, ← hk], hend⟩

/-- The number of the items visited is fuel enough. -/
theorem run_of_levels {k : Nat} {items : List α} {s : σ} {r : Except ρ σ}
    (h : visitAll visit (levels next items k) s = r)
    (hend : level next items k = [] ∨ ∃ e, r = .error e) :
    ∃ fuel, run next visit fuel items s = some r := by
  induction k generalizing items s with
  | zero =>
    rcases hend with hnil | ⟨e, rfl⟩
    · rw [show items = [] from hnil]
      exact ⟨0, congrArg some h⟩
    · cases h
  | succ k ih =>
    rw [levels, visitAll_append] at h
    cases hvisit : visitAll visit items s with
    | error e =>
      rw [hvisit] at h
      have hrun := run_append_stop next 0 [] hvisit
      rw [List.append_nil] at hrun
      exact ⟨0 + items.length, hrun.trans (congrArg some h)⟩
    | ok s' =>
      rw [hvisit] at h
      obtain ⟨fuel, hfuel⟩ := ih h hend
      have hrun := run_append next fuel [] hvisit
      rw [List.append_nil, List.nil_append] at hrun
      exact ⟨fuel + items.length, hrun.trans hfuel⟩

/-- The result of the run is that of visiting the levels, up to one that stops the run or
leaves no items. -/
theorem run_eq_some_iff (items : List α) (s : σ) (r : Except ρ σ) :
    (∃ fuel, run next visit fuel items s = some r) ↔
      ∃ k, visitAll visit (levels next items k) s = r ∧
        (level next items k = [] ∨ ∃ e, r = .error e) := by
  constructor
  · rintro ⟨fuel, h⟩
    exact levels_of_run h
  · rintro ⟨k, h, hend⟩
    exact run_of_levels h hend

/-- The run ends exactly if there is a level without items, or if visiting the levels
stops it. -/
theorem run_ends_iff (items : List α) (s : σ) :
    (∃ fuel, (run next visit fuel items s).isSome) ↔
      ∃ k, level next items k = [] ∨ ∃ r, visitAll visit (levels next items k) s = .error r := by
  constructor
  · intro ⟨fuel, h⟩
    obtain ⟨r, hr⟩ := Option.isSome_iff_exists.mp h
    obtain ⟨k, hk, hnil | ⟨e, rfl⟩⟩ := (run_eq_some_iff items s r).mp ⟨fuel, hr⟩
    · exact ⟨k, .inl hnil⟩
    · exact ⟨k, .inr ⟨e, hk⟩⟩
  · intro ⟨k, h⟩
    have hend : level next items k = [] ∨ ∃ e, visitAll visit (levels next items k) s = .error e := h
    obtain ⟨fuel, hfuel⟩ := (run_eq_some_iff items s _).mpr ⟨k, rfl, hend⟩
    exact ⟨fuel, Option.isSome_of_eq_some hfuel⟩

/-! ## Levels and walks -/

def Step (next : α → List α) (a b : α) : Prop := b ∈ next a

theorem level_append (items more : List α) (k : Nat) :
    level next (items ++ more) k = level next items k ++ level next more k := by
  induction k generalizing items more with
  | zero => rfl
  | succ k ih =>
    rw [level, List.flatMap_append]
    exact ih _ _

theorem level_nil (k : Nat) : level next [] k = [] := by
  induction k with
  | zero => rfl
  | succ k ih => exact ih

theorem level_eq_nil_of_le {items : List α} {k k' : Nat} (hle : k ≤ k')
    (h : level next items k = []) : level next items k' = [] := by
  induction k generalizing items k' with
  | zero => rw [show items = [] from h, level_nil]
  | succ k ih =>
    cases k' with
    | zero => omega
    | succ k' =>
      show level next (items.flatMap next) k' = []
      exact ih (by omega) h

/-- If the levels behind each item end, the levels behind all of them end together. -/
theorem exists_level_nil {items : List α} (h : ∀ a ∈ items, ∃ k, level next [a] k = []) :
    ∃ k, level next items k = [] := by
  induction items with
  | nil => exact ⟨0, rfl⟩
  | cons a items ih =>
    obtain ⟨k, hk⟩ := h a List.mem_cons_self
    obtain ⟨k', hk'⟩ := ih fun b hb => h b (List.mem_cons_of_mem a hb)
    refine ⟨max k k', ?_⟩
    rw [← List.singleton_append, level_append, level_eq_nil_of_le (le_max_left k k') hk,
      level_eq_nil_of_le (le_max_right k k') hk']
    rfl

/-- Items that can be reached by steps from the given ones. -/
def Reachable (next : α → List α) (items : List α) (b : α) : Prop :=
  ∃ a ∈ items, Relation.ReflTransGen (Step next) a b

/-- No item that can be reached lies on a cycle. -/
def Acyclic (next : α → List α) (items : List α) : Prop :=
  ∀ b, Reachable next items b → ¬ Relation.TransGen (Step next) b b

theorem level_ne_nil_of_cycle {items : List α} {b : α} (hreach : Reachable next items b)
    (hcycle : Relation.TransGen (Step next) b b) (k : Nat) : level next items k ≠ [] := by
  induction k generalizing items with
  | zero =>
    obtain ⟨a, ha, -⟩ := hreach
    exact List.ne_nil_of_mem ha
  | succ k ih =>
    apply ih
    obtain ⟨a, ha, hab⟩ := hreach
    have hstep : ∃ c, Step next a c ∧ Relation.ReflTransGen (Step next) c b := by
      rcases Relation.ReflTransGen.cases_head hab with rfl | hstep
      · exact Relation.TransGen.head'_iff.mp hcycle
      · exact hstep
    obtain ⟨c, hac, hcb⟩ := hstep
    exact ⟨c, List.mem_flatMap.mpr ⟨a, ha, hac⟩, hcb⟩

/-- Among finitely many items the levels end exactly if no cycle can be reached. -/
theorem levels_end_iff {items : List α} (hfinite : {b | Reachable next items b}.Finite) :
    (∃ k, level next items k = []) ↔ Acyclic next items := by
  constructor
  · intro ⟨k, hk⟩ b hreach hcycle
    exact level_ne_nil_of_cycle hreach hcycle k hk
  · intro hacyclic
    let R := {b // Reachable next items b}
    have : Finite R := hfinite
    let back : R → R → Prop := Relation.TransGen fun a b => Step next b.1 a.1
    have hlift (a b : R) (h : back a b) : Relation.TransGen (Step next) b.1 a.1 := by
      induction h with
      | single h => exact Relation.TransGen.single h
      | tail _ h ih => exact Relation.TransGen.head h ih
    have htrans : IsTrans R back := ⟨fun _ _ _ => Relation.TransGen.trans⟩
    have hirrefl : Std.Irrefl back := ⟨fun a h => hacyclic a.1 a.2 (hlift a a h)⟩
    have hwf : WellFounded back := Finite.wellFounded_of_trans_of_irrefl back
    have hends (a : R) : ∃ k, level next [a.1] k = [] := by
      induction a using hwf.induction with
      | _ a ih =>
        have hnext : ∀ b ∈ next a.1, ∃ k, level next [b] k = [] := by
          intro b hb
          obtain ⟨c, hc, hca⟩ := a.2
          exact ih ⟨b, c, hc, hca.tail hb⟩ (Relation.TransGen.single hb)
        obtain ⟨k, hk⟩ := exists_level_nil hnext
        refine ⟨k + 1, ?_⟩
        rw [level, List.flatMap_singleton]
        exact hk
    exact exists_level_nil fun a ha => hends ⟨a, a, ha, Relation.ReflTransGen.refl⟩

end Unitrace.Lib.Worklist
