import Mathlib.Algebra.BigOperators.Group.List.Basic
import Unitrace.Lib.Dict

/-!
# Tallies

A tally is a dictionary of sums: an amount is added to the entry of its key, and the first
amount of a key makes the entry. Whatever the order of the keys, an entry holds the amounts
of its key, and the entries that a predicate chooses hold the amounts of the chosen keys.
-/
namespace Unitrace.Lib.Tally

variable {κ M : Type*} [BEq κ] [AddCommMonoid M]

def add (tally : List (κ × M)) (key : κ) (amount : M) : List (κ × M) :=
  match List.lookup key tally with
  | some sum => Dict.set tally key (sum + amount)
  | none => Dict.set tally key amount

def addAll (tally : List (κ × M)) (entries : List (κ × M)) : List (κ × M) :=
  entries.foldl (fun tally e => add tally e.1 e.2) tally

/-- The sum of a key, zero for a key without an entry. -/
def value (tally : List (κ × M)) (key : κ) : M := (List.lookup key tally).getD 0

/-- The sum of the entries whose keys are chosen. -/
def total (p : κ → Bool) (tally : List (κ × M)) : M :=
  ((tally.filter fun e => p e.1).map Prod.snd).sum

variable [LawfulBEq κ]

theorem add_cons_self (k : κ) (sum amount : M) (tally : List (κ × M)) :
    add ((k, sum) :: tally) k amount = (k, sum + amount) :: tally := by
  simp [add, Dict.set]

theorem add_cons_ne {k key : κ} (h : k ≠ key) (sum amount : M) (tally : List (κ × M)) :
    add ((k, sum) :: tally) key amount = (k, sum) :: add tally key amount := by
  have hkey : (key == k) = false := beq_false_of_ne (Ne.symm h)
  have hlookup : List.lookup key ((k, sum) :: tally) = List.lookup key tally := by
    rw [List.lookup_cons, hkey]
  unfold add
  rw [hlookup]
  cases List.lookup key tally with
  | none => simp [Dict.set, h]
  | some old => simp [Dict.set, h]

theorem value_add [DecidableEq κ] (tally : List (κ × M)) (k key : κ) (amount : M) :
    value (add tally key amount) k = value tally k + if key = k then amount else 0 := by
  by_cases hk : key = k
  · subst hk
    rw [value, value, if_pos rfl, add]
    cases List.lookup key tally with
    | none => simp
    | some sum => simp
  · rw [if_neg hk, add_zero, value, value, add]
    cases List.lookup key tally with
    | none => rw [Dict.lookup_set_ne tally (Ne.symm hk)]
    | some sum => rw [Dict.lookup_set_ne tally (Ne.symm hk)]

omit [BEq κ] [LawfulBEq κ] in
theorem total_cons (p : κ → Bool) (e : κ × M) (tally : List (κ × M)) :
    total p (e :: tally) = (if p e.1 then e.2 else 0) + total p tally := by
  rw [total, total, List.filter_cons]
  split
  · rw [List.map_cons, List.sum_cons]
  · rw [zero_add]

theorem total_add (p : κ → Bool) (tally : List (κ × M)) (key : κ) (amount : M) :
    total p (add tally key amount) = total p tally + if p key then amount else 0 := by
  induction tally with
  | nil =>
    rw [show add [] key amount = [(key, amount)] from rfl, total_cons, add_comm]
  | cons e tally ih =>
    obtain ⟨k, sum⟩ := e
    by_cases hk : k = key
    · subst hk
      rw [add_cons_self, total_cons, total_cons]
      split
      · exact add_right_comm sum amount _
      · rw [add_zero]
    · rw [add_cons_ne hk, total_cons, total_cons, ih, add_assoc]

/-! ## Several amounts -/

omit [LawfulBEq κ] in
theorem addAll_append (tally entries entries' : List (κ × M)) :
    addAll tally (entries ++ entries') = addAll (addAll tally entries) entries' :=
  List.foldl_append

theorem value_addAll [DecidableEq κ] (tally entries : List (κ × M)) (k : κ) :
    value (addAll tally entries) k =
      value tally k + (entries.map fun e => if e.1 = k then e.2 else 0).sum := by
  induction entries generalizing tally with
  | nil => exact (add_zero _).symm
  | cons e entries ih =>
    rw [addAll, List.foldl_cons, ← addAll, ih, value_add, List.map_cons, List.sum_cons, add_assoc]

theorem total_addAll (p : κ → Bool) (tally entries : List (κ × M)) :
    total p (addAll tally entries) =
      total p tally + (entries.map fun e => if p e.1 then e.2 else 0).sum := by
  induction entries generalizing tally with
  | nil => exact (add_zero _).symm
  | cons e entries ih =>
    rw [addAll, List.foldl_cons, ← addAll, ih, total_add, List.map_cons, List.sum_cons, add_assoc]

theorem mem_keys_add (tally : List (κ × M)) (k key : κ) (amount : M) :
    k ∈ (add tally key amount).map Prod.fst ↔ k ∈ tally.map Prod.fst ∨ k = key := by
  unfold add
  split
  · rw [Dict.mem_keys_set, or_comm]
  · rw [Dict.mem_keys_set, or_comm]

theorem nodup_add {tally : List (κ × M)} (h : (tally.map Prod.fst).Nodup) (key : κ) (amount : M) :
    ((add tally key amount).map Prod.fst).Nodup := by
  unfold add
  split
  · exact Dict.nodup_set h _ _
  · exact Dict.nodup_set h _ _

theorem mem_keys_addAll (tally entries : List (κ × M)) (k : κ) :
    k ∈ (addAll tally entries).map Prod.fst ↔
      k ∈ tally.map Prod.fst ∨ k ∈ entries.map Prod.fst := by
  induction entries generalizing tally with
  | nil => simp [addAll]
  | cons e entries ih =>
    rw [addAll, List.foldl_cons, ← addAll, ih, mem_keys_add, List.map_cons, List.mem_cons, or_assoc]

theorem nodup_addAll {tally : List (κ × M)} (h : (tally.map Prod.fst).Nodup)
    (entries : List (κ × M)) : ((addAll tally entries).map Prod.fst).Nodup := by
  induction entries generalizing tally with
  | nil => exact h
  | cons e entries ih => exact ih (nodup_add h e.1 e.2)

theorem eq_map_value {tally : List (κ × M)} (h : (tally.map Prod.fst).Nodup) :
    tally = (tally.map Prod.fst).map fun k => (k, value tally k) := by
  rw [List.map_map]
  refine (List.map_id _).symm.trans (List.map_congr_left fun e he => ?_)
  exact Prod.ext rfl (by simp [value, Dict.lookup_of_mem h he])

/-- The amounts may be added in any order. -/
theorem addAll_perm [DecidableEq κ] {entries entries' : List (κ × M)}
    (h : entries.Perm entries') : (addAll [] entries).Perm (addAll [] entries') := by
  have hnil : (([] : List (κ × M)).map Prod.fst).Nodup := List.nodup_nil
  have hkeys : ((addAll [] entries).map Prod.fst).Perm ((addAll [] entries').map Prod.fst) := by
    refine (List.perm_ext_iff_of_nodup (nodup_addAll hnil _) (nodup_addAll hnil _)).mpr
      fun k => ?_
    rw [mem_keys_addAll, mem_keys_addAll, (h.map Prod.fst).mem_iff]
  have hvalue : value (addAll [] entries) = value (addAll [] entries') := by
    funext k
    rw [value_addAll, value_addAll, (h.map _).sum_eq]
  rw [eq_map_value (nodup_addAll hnil entries), eq_map_value (nodup_addAll hnil entries'), hvalue]
  exact hkeys.map _

omit [BEq κ] [LawfulBEq κ] in
/-- The amounts of several sources, source by source. -/
theorem sum_flatMap {ι : Type*} (sources : List ι) (entries : ι → List (κ × M))
    (weight : κ × M → M) :
    ((sources.flatMap entries).map weight).sum =
      (sources.map fun source => ((entries source).map weight).sum).sum := by
  induction sources with
  | nil => rfl
  | cons source sources ih =>
    rw [List.flatMap_cons, List.map_append, List.sum_append, ih, List.map_cons, List.sum_cons]

end Unitrace.Lib.Tally
