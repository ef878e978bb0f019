import Mathlib.Data.List.Forall2
import Unitrace.Lib.JsonReader

/-!
# Two readers of one text

Readers whose operations keep a relation between their values give related values for every
text that the first one accepts.
-/
namespace Unitrace.Lib.JsonAgree

open Unitrace.Lib.Text Unitrace.Lib.JsonReader
open Unitrace.Lib.Json (Mode isSpace isEnd units)

variable {S V T W : Type}

/-- The second reader accepts the words of the first one, and the operations of the two keep
the relations between their texts and between their values. -/
structure Agrees (A : Algebra S V) (B : Algebra T W) (texts : S → T → Prop) (values : V → W → Prop) :
    Prop where
  scalar : ∀ word v, A.scalar word = some v → ∃ w, B.scalar word = some w ∧ values v w
  text : ∀ body us, units body = some us → texts (A.text us) (B.text us)
  str : ∀ s t, texts s t → values (A.str s) (B.str t)
  arr : ∀ vs ws, List.Forall₂ values vs ws → values (A.arr vs) (B.arr ws)
  obj : ∀ ms ns, List.Forall₂ (fun m n => texts m.1 n.1 ∧ values m.2 n.2) ms ns →
    values (A.obj ms) (B.obj ns)

section

variable (texts : S → T → Prop) (values : V → W → Prop)

inductive FrameAgrees : Frame S V → Frame T W → Prop where
  | arr {vs : List V} {ws : List W} (h : List.Forall₂ values vs ws) : FrameAgrees (.arr vs) (.arr ws)
  | obj {ms : List (S × V)} {ns : List (T × W)}
      (h : List.Forall₂ (fun m n => texts m.1 n.1 ∧ values m.2 n.2) ms ns) :
      FrameAgrees (.obj ms) (.obj ns)
  | key {s : S} {t : T} (h : texts s t) : FrameAgrees (.key s) (.key t)
  | done {v : V} {w : W} (h : values v w) : FrameAgrees (.done v) (.done w)

abbrev StackAgrees : List (Frame S V) → List (Frame T W) → Prop :=
  List.Forall₂ (FrameAgrees texts values)

/-- Two readers at the same place of a text. -/
structure StateAgrees (σ : State S V) (τ : State T W) : Prop where
  mode : σ.1 = τ.1
  stack : StackAgrees texts values σ.2 τ.2

end

variable {A : Algebra S V} {B : Algebra T W} {texts : S → T → Prop} {values : V → W → Prop}
  {st : List (Frame S V)} {st' : List (Frame T W)}

theorem fill_agrees {v : V} {w : W} (hv : values v w) (h : StackAgrees texts values st st') :
    StackAgrees texts values (fill v st) (fill w st') := by
  cases h with
  | nil => exact .cons (.done hv) .nil
  | cons hf hst =>
    cases hf with
    | arr hitems => exact .cons (.arr (.cons hv hitems)) hst
    | obj hmembers => exact .cons (.done hv) (.cons (.obj hmembers) hst)
    | done hw => exact .cons (.done hv) (.cons (.done hw) hst)
    | key hk =>
      cases hst with
      | nil => exact .cons (.done hv) (.cons (.key hk) .nil)
      | cons hf hst =>
        cases hf with
        | obj hmembers => exact .cons (.obj (.cons ⟨hk, hv⟩ hmembers)) hst
        | arr hitems => exact .cons (.done hv) (.cons (.key hk) (.cons (.arr hitems) hst))
        | key hk' => exact .cons (.done hv) (.cons (.key hk) (.cons (.key hk') hst))
        | done hw => exact .cons (.done hv) (.cons (.key hk) (.cons (.done hw) hst))

theorem stepAfter_arr (A : Algebra S V) (items : List V) (st : List (Frame S V)) (c : Char) :
    stepAfter A (.arr items :: st) c =
      if c = ',' then some (.value, .arr items :: st)
      else if c = ']' then some (.after, fill (A.arr items.reverse) st)
      else if isSpace c then some (.after, .arr items :: st) else none := by
  unfold stepAfter
  split <;> simp_all

theorem stepAfter_obj (A : Algebra S V) (members : List (S × V)) (st : List (Frame S V)) (c : Char) :
    stepAfter A (.obj members :: st) c =
      if c = ',' then some (.key, .obj members :: st)
      else if c = '}' then some (.after, fill (A.obj members.reverse) st)
      else if isSpace c then some (.after, .obj members :: st) else none := by
  unfold stepAfter
  split <;> simp_all

/-- A branch on a character that both readers take or leave. -/
theorem ite_agrees {c : Prop} [Decidable c] {x y : Option (State S V)} {x' y' : Option (State T W)}
    {σ : State S V}
    (hx : x = some σ → ∃ τ, x' = some τ ∧ StateAgrees texts values σ τ)
    (hy : y = some σ → ∃ τ, y' = some τ ∧ StateAgrees texts values σ τ)
    (h : (if c then x else y) = some σ) :
    ∃ τ, (if c then x' else y') = some τ ∧ StateAgrees texts values σ τ := by
  by_cases hc : c
  · rw [if_pos hc] at h ⊢
    exact hx h
  · rw [if_neg hc] at h ⊢
    exact hy h

theorem some_agrees {m : Mode} (h : StackAgrees texts values st st') {σ : State S V}
    (hσ : some (m, st) = some σ) :
    ∃ τ : State T W, some (m, st') = some τ ∧ StateAgrees texts values σ τ := by
  obtain rfl := Option.some.inj hσ
  exact ⟨_, rfl, rfl, h⟩

theorem none_agrees {σ : State S V} (hσ : (none : Option (State S V)) = some σ) :
    ∃ τ : State T W, none = some τ ∧ StateAgrees texts values σ τ := by
  cases hσ

theorem stepAfter_agrees (hA : Agrees A B texts values) (h : StackAgrees texts values st st')
    {c : Char} {σ : State S V} (hstep : stepAfter A st c = some σ) :
    ∃ τ, stepAfter B st' c = some τ ∧ StateAgrees texts values σ τ := by
  cases h with
  | nil => exact ite_agrees (some_agrees .nil) none_agrees hstep
  | cons hf hst =>
    have hframe := List.Forall₂.cons hf hst
    cases hf with
    | key hk => exact ite_agrees (some_agrees hframe) none_agrees hstep
    | done hw => exact ite_agrees (some_agrees hframe) none_agrees hstep
    | arr hitems =>
      have harr := fill_agrees (hA.arr _ _ (List.rel_reverse hitems)) hst
      rw [stepAfter_arr] at hstep ⊢
      exact ite_agrees (some_agrees hframe)
        (ite_agrees (some_agrees harr) (ite_agrees (some_agrees hframe) none_agrees)) hstep
    | obj hmembers =>
      have hobj := fill_agrees (hA.obj _ _ (List.rel_reverse hmembers)) hst
      rw [stepAfter_obj] at hstep ⊢
      exact ite_agrees (some_agrees hframe)
        (ite_agrees (some_agrees hobj) (ite_agrees (some_agrees hframe) none_agrees)) hstep

theorem stepValue_agrees (h : StackAgrees texts values st st') {c : Char} {σ : State S V}
    (hstep : stepValue st c = some σ) :
    ∃ τ, stepValue st' c = some τ ∧ StateAgrees texts values σ τ :=
  ite_agrees (some_agrees h) (ite_agrees (some_agrees (.cons (.arr .nil) h))
    (ite_agrees (some_agrees (.cons (.obj .nil) h)) (ite_agrees none_agrees (some_agrees h)))) hstep

theorem stepKey_agrees (h : StackAgrees texts values st st') {c : Char} {σ : State S V}
    (hstep : stepKey st c = some σ) :
    ∃ τ, stepKey st' c = some τ ∧ StateAgrees texts values σ τ :=
  ite_agrees (some_agrees h) none_agrees hstep

theorem endLiteral_agrees (hA : Agrees A B texts values) (h : StackAgrees texts values st st')
    {isKey : Bool} {body : Str} {σ : State S V} (hstep : endLiteral A isKey body st = some σ) :
    ∃ τ, endLiteral B isKey body st' = some τ ∧ StateAgrees texts values σ τ := by
  obtain ⟨us, hus, hσ⟩ := Option.map_eq_some_iff.mp hstep
  have htext := hA.text _ us hus
  rw [endLiteral, hus, Option.map_some]
  refine ⟨_, rfl, ?_⟩
  subst hσ
  cases isKey with
  | true => exact ⟨rfl, .cons (.key htext) h⟩
  | false => exact ⟨rfl, fill_agrees (hA.str _ _ htext) h⟩

theorem step_agrees (hA : Agrees A B texts values) {σ σ' : State S V} {τ : State T W}
    (h : StateAgrees texts values σ τ) {c : Char} (hstep : step A σ c = some σ') :
    ∃ τ', step B τ c = some τ' ∧ StateAgrees texts values σ' τ' := by
  obtain ⟨m, st⟩ := σ
  obtain ⟨m', st'⟩ := τ
  obtain ⟨rfl, h⟩ := h
  cases m with
  | value => exact ite_agrees (some_agrees h) (stepValue_agrees h) hstep
  | firstItem =>
    exact ite_agrees (some_agrees h) (ite_agrees (stepAfter_agrees hA h) (stepValue_agrees h)) hstep
  | key => exact ite_agrees (some_agrees h) (stepKey_agrees h) hstep
  | firstKey =>
    exact ite_agrees (some_agrees h) (ite_agrees (stepAfter_agrees hA h) (stepKey_agrees h)) hstep
  | colon =>
    exact ite_agrees (some_agrees h) (ite_agrees (some_agrees h) none_agrees) hstep
  | after => exact stepAfter_agrees hA h hstep
  | literal isKey body escaped =>
    exact ite_agrees (some_agrees h) (ite_agrees (endLiteral_agrees hA h) (some_agrees h)) hstep
  | word text =>
    refine ite_agrees ?_ (some_agrees h) hstep
    intro hword
    obtain ⟨v, hv, hafter⟩ := Option.bind_eq_some_iff.mp hword
    obtain ⟨w, hw, hvw⟩ := hA.scalar _ v hv
    obtain ⟨τ, hτ, hagrees⟩ := stepAfter_agrees hA (fill_agrees hvw h) hafter
    exact ⟨τ, Option.bind_eq_some_iff.mpr ⟨w, hw, hτ⟩, hagrees⟩

theorem finish_agrees (hA : Agrees A B texts values) {σ : State S V} {τ : State T W}
    (h : StateAgrees texts values σ τ) {v : V} (hv : finish A σ = some v) :
    ∃ w, finish B τ = some w ∧ values v w := by
  obtain ⟨m, st⟩ := σ
  obtain ⟨m', st'⟩ := τ
  obtain ⟨rfl, h⟩ := h
  unfold finish at hv
  split at hv
  · rename_i heq
    cases heq
    cases hv
    cases h with
    | cons hf hst =>
      cases hst
      cases hf with
      | done hvw => exact ⟨_, rfl, hvw⟩
  · rename_i heq
    cases heq
    cases h
    exact hA.scalar _ v hv
  · cases hv

theorem scan_agrees (hA : Agrees A B texts values) {σ : State S V} {τ : State T W}
    (h : StateAgrees texts values σ τ) {text : Str} {v : V} (hv : scan A σ text = some v) :
    ∃ w, scan B τ text = some w ∧ values v w := by
  induction text generalizing σ τ with
  | nil => exact finish_agrees hA h hv
  | cons c text ih =>
    obtain ⟨σ', hstep, hrest⟩ := Option.bind_eq_some_iff.mp hv
    obtain ⟨τ', hτ, h'⟩ := step_agrees hA h hstep
    obtain ⟨w, hw, hvw⟩ := ih h' hrest
    exact ⟨w, Option.bind_eq_some_iff.mpr ⟨τ', hτ, hw⟩, hvw⟩

/-- The two readers give related values. -/
theorem parse_agrees (hA : Agrees A B texts values) {text : Str} {v : V}
    (hv : parse A text = some v) : ∃ w, parse B text = some w ∧ values v w :=
  scan_agrees hA ⟨rfl, .nil⟩ hv

end Unitrace.Lib.JsonAgree
