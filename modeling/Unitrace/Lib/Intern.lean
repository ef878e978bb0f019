import Mathlib.Data.List.Basic
import Mathlib.Data.List.Nodup

/-!
# Tables of interned names

A request for a name returns the key of its entry. The first request for a name adds
an entry with an unused key at the end of the table. Which unused key it gets is left
open, and entries without a name are passed over.
-/
namespace Unitrace.Lib.Intern

/-- The entries in the order in which they were added. -/
abbrev Table (κ α : Type*) := List (κ × Option α)

variable {κ α : Type*} {t t' : Table κ α}

def names (t : Table κ α) : List α := t.filterMap Prod.snd

theorem mem_names {a : α} : a ∈ names t ↔ ∃ k, (k, some a) ∈ t := by
  simp [names]

theorem names_append (t t' : Table κ α) : names (t ++ t') = names t ++ names t' :=
  List.filterMap_append

structure WellFormed (t : Table κ α) : Prop where
  keys_nodup : (t.map Prod.fst).Nodup
  names_nodup : (names t).Nodup

/-- With distinct keys an entry is known by its key. -/
theorem WellFormed.eq_of_key (hw : WellFormed t) {e e' : κ × Option α} (he : e ∈ t)
    (he' : e' ∈ t) (hk : e.1 = e'.1) : e = e' :=
  List.inj_on_of_nodup_map hw.keys_nodup he he' hk

/-- With distinct names a named entry is known by its name. -/
theorem WellFormed.key_unique (hw : WellFormed t) {a : α} {k k' : κ} (h : (k, some a) ∈ t)
    (h' : (k', some a) ∈ t) : k = k' := by
  obtain ⟨l, r, rfl⟩ := List.append_of_mem h
  have hnodup := hw.names_nodup
  have hcons : Intern.names ((k, some a) :: r) = a :: Intern.names r := rfl
  rw [names_append, hcons, List.nodup_middle, List.nodup_cons, List.mem_append, not_or] at hnodup
  rcases List.mem_append.mp h' with hl | hr
  · exact absurd (mem_names.mpr ⟨k', hl⟩) hnodup.1.1
  · rcases List.mem_cons.mp hr with he | hr
    · exact (congrArg Prod.fst he).symm
    · exact absurd (mem_names.mpr ⟨k', hr⟩) hnodup.1.2

theorem WellFormed.key_eq_iff (hw : WellFormed t) {a a' : α} {k k' : κ} (h : (k, some a) ∈ t)
    (h' : (k', some a') ∈ t) : k = k' ↔ a = a' := by
  constructor
  · intro hk
    exact Option.some.inj (congrArg Prod.snd (hw.eq_of_key h h' hk))
  · intro ha
    subst ha
    exact hw.key_unique h h'

/-- One request for the name `a`, with the key that it returns. -/
inductive Request (t : Table κ α) (a : α) (k : κ) : Table κ α → Prop where
  | found (h : (k, some a) ∈ t) : Request t a k t
  | added (ha : a ∉ names t) (hk : k ∉ t.map Prod.fst) : Request t a k (t ++ [(k, some a)])

namespace Request

variable {a : α} {k : κ}

theorem mem (h : Request t a k t') : (k, some a) ∈ t' := by
  cases h with
  | found h => exact h
  | added _ _ => exact List.mem_append_right _ (List.mem_singleton.mpr rfl)

theorem isPrefix (h : Request t a k t') : t <+: t' := by
  cases h with
  | found _ => exact List.prefix_rfl
  | added _ _ => exact List.prefix_append _ _

theorem mem_names_iff (h : Request t a k t') {b : α} : b ∈ names t' ↔ b ∈ names t ∨ b = a := by
  cases h with
  | found h =>
    constructor
    · exact Or.inl
    · intro hb
      rcases hb with hb | rfl
      · exact hb
      · exact mem_names.mpr ⟨k, h⟩
  | added _ _ =>
    rw [names_append, List.mem_append]
    exact or_congr Iff.rfl List.mem_singleton

theorem wellFormed (h : Request t a k t') (hw : WellFormed t) : WellFormed t' := by
  cases h with
  | found _ => exact hw
  | added ha hk =>
    constructor
    · rw [List.map_append, List.map_singleton, ← List.concat_eq_append]
      exact List.Nodup.concat hk hw.keys_nodup
    · have hnames : names (t ++ [(k, some a)]) = (names t).concat a := by
        rw [names_append, List.concat_eq_append]
        rfl
      rw [hnames]
      exact List.Nodup.concat ha hw.names_nodup

end Request

/-- Requests one after the other, each with the key that it returns. -/
inductive Requests : Table κ α → List (α × κ) → Table κ α → Prop where
  | nil {t : Table κ α} : Requests t [] t
  | cons {t t' t'' : Table κ α} {a : α} {k : κ} {more : List (α × κ)} (h : Request t a k t')
      (hmore : Requests t' more t'') : Requests t ((a, k) :: more) t''

namespace Requests

variable {l : List (α × κ)}

theorem isPrefix (h : Requests t l t') : t <+: t' := by
  induction h with
  | nil => exact List.prefix_rfl
  | cons h _ ih => exact h.isPrefix.trans ih

theorem wellFormed (h : Requests t l t') (hw : WellFormed t) : WellFormed t' := by
  induction h with
  | nil => exact hw
  | cons h _ ih => exact ih (h.wellFormed hw)

theorem mem (h : Requests t l t') {a : α} {k : κ} (hl : (a, k) ∈ l) : (k, some a) ∈ t' := by
  induction h with
  | nil => exact absurd hl List.not_mem_nil
  | cons h hmore ih =>
    rcases List.mem_cons.mp hl with he | hl
    · cases he
      exact hmore.isPrefix.subset h.mem
    · exact ih hl

theorem mem_names_iff (h : Requests t l t') {b : α} :
    b ∈ names t' ↔ b ∈ names t ∨ b ∈ l.map Prod.fst := by
  induction h with
  | nil => simp
  | cons h _ ih =>
    rw [ih, h.mem_names_iff, List.map_cons, List.mem_cons, or_assoc]

end Requests

end Unitrace.Lib.Intern
