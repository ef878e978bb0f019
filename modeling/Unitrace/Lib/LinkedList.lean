import Mathlib.Data.List.Basic
import Mathlib.Data.List.Nodup
import Unitrace.Lib.Dict

/-!
# Linked lists in memory

A memory gives the node at an address. A list ends with a null pointer, so no
address comes twice in it. It is searched with a second pointer that trails one
node behind, and a new node goes behind the last one.
-/
namespace Unitrace.Lib.LinkedList

structure Node (κ ν : Type*) where
  value : ν
  next : Option κ

/-- The nodes by their addresses, read with `List.lookup`. -/
abbrev Memory (κ ν : Type*) := List (κ × Node κ ν)

/-- The address of the last node, or the given tail for an empty list. -/
def lastOr {κ ν : Type*} : Option κ → List (κ × ν) → Option κ
  | tail, [] => tail
  | _, e :: l => lastOr (some e.1) l

theorem lastOr_mem {κ ν : Type*} (tail : Option κ) {e : κ × ν} {l : List (κ × ν)} {a : κ}
    (h : lastOr tail (e :: l) = some a) : a ∈ (e :: l).map Prod.fst := by
  induction l generalizing tail e with
  | nil => exact List.mem_singleton.mpr (Option.some.inj h).symm
  | cons e' l ih => exact List.mem_cons_of_mem _ (ih (some e.1) h)

theorem exists_lastOr_cons {κ ν : Type*} (tail : Option κ) (e : κ × ν) (l : List (κ × ν)) :
    ∃ a, lastOr tail (e :: l) = some a := by
  induction l generalizing tail e with
  | nil => exact ⟨e.1, rfl⟩
  | cons e' l ih => exact ih (some e.1) e'

variable {κ ν : Type*} [BEq κ] {m m' : Memory κ ν}

/-- The list that starts at a pointer: the address and the value of each node. -/
inductive Linked (m : Memory κ ν) : Option κ → List (κ × ν) → Prop where
  | nil : Linked m none []
  | cons {a : κ} {node : Node κ ν} {l : List (κ × ν)} (hread : List.lookup a m = some node)
      (hnext : Linked m node.next l) : Linked m (some a) ((a, node.value) :: l)

namespace Linked

theorem start {h : Option κ} {l : List (κ × ν)} (hl : Linked m h l) :
    h = l.head?.map Prod.fst := by
  cases hl with
  | nil => rfl
  | cons _ _ => rfl

theorem unique {h : Option κ} {l l' : List (κ × ν)} (hl : Linked m h l) (hl' : Linked m h l') :
    l = l' := by
  induction hl generalizing l' with
  | nil => cases hl'; rfl
  | cons hread _ ih =>
    cases hl' with
    | cons hread' hnext' =>
      obtain rfl := Option.some.inj (hread.symm.trans hread')
      rw [ih hnext']

/-- A node of the list starts the part of the list from it on. -/
theorem from_mem {h : Option κ} {l : List (κ × ν)} (hl : Linked m h l) {a : κ}
    (ha : a ∈ l.map Prod.fst) :
    ∃ v rest, Linked m (some a) ((a, v) :: rest) ∧ rest.length < l.length := by
  induction hl with
  | nil => exact absurd ha List.not_mem_nil
  | cons hread hnext ih =>
    rcases List.mem_cons.mp ha with rfl | ha
    · exact ⟨_, _, .cons hread hnext, Nat.lt_succ_self _⟩
    · obtain ⟨v, rest, hrest, hlt⟩ := ih ha
      exact ⟨v, rest, hrest, Nat.lt_succ_of_lt hlt⟩

/-- A node that came twice would start two lists of different lengths. -/
theorem nodup {h : Option κ} {l : List (κ × ν)} (hl : Linked m h l) :
    (l.map Prod.fst).Nodup := by
  induction hl with
  | nil => exact List.nodup_nil
  | cons hread hnext ih =>
    refine List.nodup_cons.mpr ⟨?_, ih⟩
    intro ha
    obtain ⟨v, rest, hrest, hlt⟩ := hnext.from_mem ha
    have hsame := congrArg List.length ((Linked.cons hread hnext).unique hrest)
    rw [List.length_cons, List.length_cons] at hsame
    omega

end Linked

theorem Linked.exists_node {h : Option κ} {l : List (κ × ν)} (hl : Linked m h l) {a : κ}
    (ha : a ∈ l.map Prod.fst) : ∃ node, List.lookup a m = some node := by
  obtain ⟨v, rest, hrest, -⟩ := hl.from_mem ha
  cases hrest with
  | cons hread _ => exact ⟨_, hread⟩

/-- A list has at most as many nodes as the memory. -/
theorem Linked.length_le [LawfulBEq κ] {h : Option κ} {l : List (κ × ν)} (hl : Linked m h l) :
    l.length ≤ m.length := by
  have hsub : ∀ a ∈ l.map Prod.fst, a ∈ m.map Prod.fst := by
    intro a ha
    obtain ⟨node, hread⟩ := hl.exists_node ha
    exact Dict.mem_keys_of_lookup hread
  have hle := hl.nodup.length_le_of_subset hsub
  rwa [List.length_map, List.length_map] at hle

/-- The search for a node with a trailing pointer. There is no result when a pointer leads
out of the memory or the search has not ended after that many nodes. -/
def search (test : ν → Bool) (m : Memory κ ν) :
    Nat → Option κ → Option κ → Option (Option κ × Option κ)
  | 0, _, _ => none
  | _ + 1, tail, none => some (tail, none)
  | fuel + 1, tail, some a =>
    match List.lookup a m with
    | none => none
    | some node =>
      if test node.value then some (tail, some a) else search test m fuel (some a) node.next

/-- A search in a list ends at a node that passes the test, or behind the last node. -/
theorem Linked.search_cases (test : ν → Bool) {h : Option κ} {l : List (κ × ν)}
    (hl : Linked m h l) {fuel : Nat} (hfuel : l.length < fuel) (tail : Option κ) :
    (∃ t a v, search test m fuel tail h = some (t, some a) ∧ (a, v) ∈ l ∧ test v = true) ∨
      search test m fuel tail h = some (lastOr tail l, none) ∧ ∀ e ∈ l, ¬test e.2 = true := by
  induction hl generalizing fuel tail with
  | nil =>
    obtain ⟨fuel, rfl⟩ := Nat.exists_eq_succ_of_ne_zero (Nat.ne_of_gt hfuel)
    exact Or.inr ⟨rfl, fun e he => absurd he List.not_mem_nil⟩
  | @cons a node l hread hnext ih =>
    obtain ⟨fuel, rfl⟩ := Nat.exists_eq_succ_of_ne_zero (Nat.ne_of_gt (Nat.zero_lt_of_lt hfuel))
    rw [search, hread]
    by_cases ht : test node.value = true
    · exact Or.inl ⟨tail, a, node.value, if_pos ht, List.mem_cons_self, ht⟩
    · simp only [ht, Bool.false_eq_true, if_false, lastOr]
      rcases ih (Nat.lt_of_succ_lt_succ hfuel) (some a) with hhit | hmiss
      · obtain ⟨t, b, v, hs, hmem, hv⟩ := hhit
        exact Or.inl ⟨t, b, v, hs, List.mem_cons_of_mem _ hmem, hv⟩
      · refine Or.inr ⟨hmiss.1, ?_⟩
        intro e he
        rcases List.mem_cons.mp he with rfl | he
        · exact ht
        · exact hmiss.2 e he

/-- A new node is stored at an unused address, and the node at the tail points to it. -/
structure Appended (m m' : Memory κ ν) (tail : Option κ) (a : κ) (v : ν) : Prop where
  unused : List.lookup a m = none
  stored : List.lookup a m' = some { value := v, next := none }
  behind : ∀ t node, tail = some t → List.lookup t m = some node →
    List.lookup t m' = some { node with next := some a }
  others : ∀ b, b ≠ a → tail ≠ some b → List.lookup b m' = List.lookup b m

/-- Behind the last node, or as the first one, a node is added to the list. -/
theorem Linked.append {h : Option κ} {l : List (κ × ν)} (hl : Linked m h l) {tail : Option κ}
    {a : κ} {v : ν} (happ : Appended m m' (lastOr tail l) a v) :
    Linked m' (h.or (some a)) (l ++ [(a, v)]) := by
  induction hl generalizing tail with
  | nil => exact .cons happ.stored .nil
  | @cons b node l hread hnext ih =>
    have hread' : List.lookup b m' = some { node with next := node.next.or (some a) } := by
      cases l with
      | nil =>
        rw [hnext.start]
        exact happ.behind b node rfl hread
      | cons e l =>
        have hb : b ∉ (e :: l).map Prod.fst := (List.nodup_cons.mp (Linked.cons hread hnext).nodup).1
        have hlast : lastOr (some b) (e :: l) ≠ some b := fun he => hb (lastOr_mem _ he)
        have hne : b ≠ a := by
          intro he
          rw [he, happ.unused] at hread
          cases hread
        have hnext' : node.next.or (some a) = node.next := by rw [hnext.start]; rfl
        rw [happ.others b hne hlast, hread, hnext']
    have hcons := Linked.cons hread' (ih happ)
    exact hcons

end Unitrace.Lib.LinkedList
