import Mathlib.Data.List.Basic
import Mathlib.Data.List.Chain

/-!
# Maximal runs of present entries

A list of optional values is cut into its maximal runs of present entries. A run
is the triple of its first index, the index after its last entry and its first
value. `closed` lists the runs that an absent entry ends, `lastOpen` is the run
that reaches the end of the list.
-/
namespace Unitrace.Lib.Segments

variable {α : Type*}

abbrev Segment (α : Type*) := Nat × Nat × α

/-- The runs ended by an absent entry, reading from index `i` with the run `op` open. -/
def closed : Nat → Option (Nat × α) → List (Option α) → List (Segment α)
  | _, _, [] => []
  | i, none, none :: rest => closed (i + 1) none rest
  | i, some (a, x), none :: rest => (a, i, x) :: closed (i + 1) none rest
  | i, none, some y :: rest => closed (i + 1) (some (i, y)) rest
  | i, some op, some _ :: rest => closed (i + 1) (some op) rest

/-- The run that is still open after the last entry. -/
def lastOpen : Nat → Option (Nat × α) → List (Option α) → Option (Nat × α)
  | _, op, [] => op
  | i, _, none :: rest => lastOpen (i + 1) none rest
  | i, none, some y :: rest => lastOpen (i + 1) (some (i, y)) rest
  | i, some op, some _ :: rest => lastOpen (i + 1) (some op) rest

def segmentsFrom (i : Nat) (op : Option (Nat × α)) (l : List (Option α)) : List (Segment α) :=
  closed i op l ++ ((lastOpen i op l).map fun (a, x) => (a, i + l.length, x)).toList

def segments (rows : List (Option α)) : List (Segment α) := segmentsFrom 0 none rows

/-- `(a, b, x)` is a maximal run: its entries are present, and neither neighbour is. -/
structure IsSegment (rows : List (Option α)) (a b : Nat) (x : α) : Prop where
  first : rows[a]? = some (some x)
  nonempty : a < b
  inside : ∀ i, a ≤ i → i < b → ∃ y, rows[i]? = some (some y)
  left : a = 0 ∨ rows[a - 1]? = some none
  right : b = rows.length ∨ rows[b]? = some none

/-- The run `op` covers the entries before index `i` from its first index on. -/
def OpenAt (rows : List (Option α)) (i : Nat) : Option (Nat × α) → Prop
  | none => i = 0 ∨ rows[i - 1]? = some none
  | some (a, x) => rows[a]? = some (some x) ∧ a < i ∧
      (∀ j, a ≤ j → j < i → ∃ y, rows[j]? = some (some y)) ∧ (a = 0 ∨ rows[a - 1]? = some none)

theorem segmentsFrom_blank (i : Nat) (rest : List (Option α)) :
    segmentsFrom i none (none :: rest) = segmentsFrom (i + 1) none rest := by
  simp only [segmentsFrom, closed, lastOpen, List.length_cons, Nat.add_assoc, Nat.add_comm 1]

theorem segmentsFrom_close (i a : Nat) (x : α) (rest : List (Option α)) :
    segmentsFrom i (some (a, x)) (none :: rest) = (a, i, x) :: segmentsFrom (i + 1) none rest := by
  simp only [segmentsFrom, closed, lastOpen, List.length_cons, Nat.add_assoc, Nat.add_comm 1,
    List.cons_append]

theorem segmentsFrom_start (i : Nat) (y : α) (rest : List (Option α)) :
    segmentsFrom i none (some y :: rest) = segmentsFrom (i + 1) (some (i, y)) rest := by
  simp only [segmentsFrom, closed, lastOpen, List.length_cons, Nat.add_assoc, Nat.add_comm 1]

theorem segmentsFrom_extend (i : Nat) (op : Nat × α) (y : α) (rest : List (Option α)) :
    segmentsFrom i (some op) (some y :: rest) = segmentsFrom (i + 1) (some op) rest := by
  simp only [segmentsFrom, closed, lastOpen, List.length_cons, Nat.add_assoc, Nat.add_comm 1]

theorem OpenAt.start {rows : List (Option α)} {i : Nat} {y : α} (ho : OpenAt rows i none)
    (hrow : rows[i]? = some (some y)) : OpenAt rows (i + 1) (some (i, y)) := by
  refine ⟨hrow, Nat.lt_succ_self i, ?_, ho⟩
  intro j hj hji
  obtain rfl : j = i := by omega
  exact ⟨y, hrow⟩

theorem OpenAt.extend {rows : List (Option α)} {i a : Nat} {x y : α}
    (ho : OpenAt rows i (some (a, x))) (hrow : rows[i]? = some (some y)) :
    OpenAt rows (i + 1) (some (a, x)) := by
  obtain ⟨hfirst, hai, hin, hleft⟩ := ho
  refine ⟨hfirst, Nat.lt_succ_of_lt hai, ?_, hleft⟩
  intro j hj hji
  rcases Nat.lt_succ_iff_lt_or_eq.mp hji with hlt | rfl
  · exact hin j hj hlt
  · exact ⟨y, hrow⟩

/-- At the end of the list or at an absent entry the open run is complete. -/
theorem OpenAt.isSegment {rows : List (Option α)} {i a : Nat} {x : α}
    (ho : OpenAt rows i (some (a, x))) (hend : rows.length = i ∨ rows[i]? = some none) :
    IsSegment rows a i x := by
  obtain ⟨hfirst, hai, hin, hleft⟩ := ho
  exact ⟨hfirst, hai, hin, hleft, hend.imp_left Eq.symm⟩

/-- A run that starts no earlier than an open one is that run: it cannot start
inside it, and it ends where the open one ends. -/
theorem IsSegment.eq_open {rows : List (Option α)} {i a s e : Nat} {x y : α}
    (h : IsSegment rows s e y) (ho : OpenAt rows i (some (a, x)))
    (hend : rows.length = i ∨ rows[i]? = some none) (has : a ≤ s) (hsi : s < i) :
    s = a ∧ e = i ∧ y = x := by
  obtain ⟨hfirst, hai, hin, hleft⟩ := ho
  have hs : s = a := by
    by_contra hne
    obtain ⟨z, hz⟩ := hin (s - 1) (by omega) (by omega)
    rcases h.left with h0 | h0
    · omega
    · rw [hz] at h0
      cases h0
  subst s
  have he : e = i := by
    rcases Nat.lt_trichotomy e i with hlt | heq | hgt
    · obtain ⟨z, hz⟩ := hin e (by have := h.nonempty; omega) hlt
      rcases h.right with h0 | h0
      · obtain ⟨hz', -⟩ := List.getElem?_eq_some_iff.mp hz
        omega
      · rw [hz] at h0
        cases h0
    · exact heq
    · obtain ⟨z, hz⟩ := h.inside i (by omega) hgt
      rcases hend with h0 | h0
      · obtain ⟨hz', -⟩ := List.getElem?_eq_some_iff.mp hz
        omega
      · rw [hz] at h0
        cases h0
  have hx := h.first
  rw [hfirst] at hx
  exact ⟨rfl, he, (Option.some.inj (Option.some.inj hx)).symm⟩

/-- At the end of the list only the open run is left. -/
theorem mem_segmentsFrom_nil {rows : List (Option α)} {i : Nat} {op : Option (Nat × α)}
    (hlen : rows.length = i) (ho : OpenAt rows i op) (s e : Nat) (x : α) :
    (s, e, x) ∈ segmentsFrom i op [] ↔ IsSegment rows s e x ∧ op.elim i Prod.fst ≤ s := by
  cases op with
  | none =>
    simp only [segmentsFrom, closed, lastOpen, Option.map_none, Option.toList_none,
      List.append_nil, List.not_mem_nil, false_iff, not_and, Option.elim_none]
    intro h hs
    obtain ⟨hlt, -⟩ := List.getElem?_eq_some_iff.mp h.first
    omega
  | some op =>
    obtain ⟨a, y⟩ := op
    simp only [segmentsFrom, closed, lastOpen, Option.map_some, Option.toList_some,
      List.nil_append, List.mem_singleton, List.length_nil, Nat.add_zero, Option.elim_some,
      Prod.mk.injEq]
    constructor
    · rintro ⟨rfl, rfl, rfl⟩
      exact ⟨ho.isSegment (Or.inl hlen), Nat.le_refl _⟩
    · rintro ⟨h, hs⟩
      obtain ⟨hlt, -⟩ := List.getElem?_eq_some_iff.mp h.first
      exact h.eq_open ho (Or.inl hlen) hs (by omega)

theorem mem_segmentsFrom (rows l : List (Option α)) (i : Nat) (op : Option (Nat × α))
    (hl : rows.drop i = l) (hi : i ≤ rows.length) (ho : OpenAt rows i op) (s e : Nat) (x : α) :
    (s, e, x) ∈ segmentsFrom i op l ↔ IsSegment rows s e x ∧ op.elim i Prod.fst ≤ s := by
  induction l generalizing i op with
  | nil =>
    have hlen := List.drop_eq_nil_iff.mp hl
    exact mem_segmentsFrom_nil (by omega) ho s e x
  | cons row l ih =>
    have hrow : rows[i]? = some row := by
      have := congrArg (·[0]?) hl
      simpa using this
    have hlt : i < rows.length := (List.getElem?_eq_some_iff.mp hrow).1
    have hl' : rows.drop (i + 1) = l := by
      rw [← List.drop_drop, hl, List.drop_one, List.tail_cons]
    cases row with
    | none =>
      have hnext : OpenAt rows (i + 1) none := Or.inr hrow
      have hstart {s e : Nat} {x : α} (h : IsSegment rows s e x) : s ≠ i := by
        rintro rfl
        have := h.first
        rw [hrow] at this
        cases this
      cases op with
      | none =>
        rw [segmentsFrom_blank, ih (i + 1) none hl' hlt hnext]
        simp only [Option.elim_none]
        constructor
        · rintro ⟨h, hs⟩
          exact ⟨h, by omega⟩
        · rintro ⟨h, hs⟩
          have := hstart h
          exact ⟨h, by omega⟩
      | some op =>
        obtain ⟨a, y⟩ := op
        rw [segmentsFrom_close, List.mem_cons, ih (i + 1) none hl' hlt hnext]
        simp only [Option.elim_none, Option.elim_some, Prod.mk.injEq]
        constructor
        · rintro (⟨rfl, rfl, rfl⟩ | ⟨h, hs⟩)
          · exact ⟨ho.isSegment (Or.inr hrow), Nat.le_refl _⟩
          · have := ho.2.1
            exact ⟨h, by omega⟩
        · rintro ⟨h, hs⟩
          rcases Nat.lt_trichotomy s i with hsi | hsi | hsi
          · exact Or.inl (h.eq_open ho (Or.inr hrow) hs hsi)
          · exact absurd hsi (hstart h)
          · exact Or.inr ⟨h, hsi⟩
    | some y =>
      cases op with
      | none =>
        rw [segmentsFrom_start, ih (i + 1) _ hl' hlt (ho.start hrow)]
        rfl
      | some op =>
        obtain ⟨a, z⟩ := op
        rw [segmentsFrom_extend, ih (i + 1) _ hl' hlt (ho.extend hrow)]
        rfl

/-- The computed segments are exactly the maximal runs. -/
theorem mem_segments_iff (rows : List (Option α)) (s e : Nat) (x : α) :
    (s, e, x) ∈ segments rows ↔ IsSegment rows s e x := by
  rw [segments, mem_segmentsFrom rows rows 0 none rfl (Nat.zero_le _) (Or.inl rfl)]
  simp

/-- A run is open after the last entry exactly when that entry is present. -/
theorem lastOpen_isSome (l : List (Option α)) (i : Nat) (op : Option (Nat × α)) :
    (lastOpen i op l).isSome = (l.getLast?.getD (op.map Prod.snd)).isSome := by
  induction l generalizing i op with
  | nil => cases op <;> rfl
  | cons row l ih =>
    rw [List.getLast?_cons, Option.getD_some]
    cases row with
    | none =>
      rw [lastOpen, ih]
      rfl
    | some y =>
      cases op with
      | none =>
        rw [lastOpen, ih]
        rfl
      | some op =>
        rw [lastOpen, ih]
        cases l.getLast? <;> rfl

theorem segmentsFrom_sorted (l : List (Option α)) (i : Nat) (op : Option (Nat × α))
    (ho : ∀ a x, op = some (a, x) → a < i) :
    (∀ p ∈ segmentsFrom i op l, op.elim i Prod.fst ≤ p.1) ∧
      (segmentsFrom i op l).Pairwise (fun p q => p.1 < q.1) := by
  induction l generalizing i op with
  | nil =>
    cases op with
    | none => simp [segmentsFrom, closed, lastOpen]
    | some op => simp [segmentsFrom, closed, lastOpen]
  | cons row l ih =>
    cases row with
    | none =>
      obtain ⟨hle, hs⟩ := ih (i + 1) none (by simp)
      simp only [Option.elim_none] at hle
      cases op with
      | none =>
        rw [segmentsFrom_blank]
        exact ⟨fun p hp => by have := hle p hp; simp only [Option.elim_none]; omega, hs⟩
      | some op =>
        have ha := ho op.1 op.2 rfl
        rw [segmentsFrom_close, List.forall_mem_cons, List.pairwise_cons]
        simp only [Option.elim_some]
        exact ⟨⟨Nat.le_refl _, fun p hp => by have := hle p hp; omega⟩,
          fun p hp => by have := hle p hp; omega, hs⟩
    | some y =>
      cases op with
      | none =>
        rw [segmentsFrom_start]
        exact ih (i + 1) (some (i, y)) (by grind)
      | some op =>
        rw [segmentsFrom_extend]
        exact ih (i + 1) (some op) (fun a x h => Nat.lt_succ_of_lt (ho a x h))

/-- The runs are listed from the first to the last. -/
theorem segments_sorted (rows : List (Option α)) :
    (segments rows).Pairwise (fun p q => p.1 < q.1) :=
  (segmentsFrom_sorted rows 0 none (by simp)).2

end Unitrace.Lib.Segments
