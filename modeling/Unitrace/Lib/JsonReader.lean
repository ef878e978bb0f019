import Mathlib.Data.List.Forall2
import Unitrace.Lib.Json

/-!
# Readers of JSON texts

Readers that make different things of the same text share one grammar. An `Algebra`
says which words are values and what to make of the parts; the grammar around them
is that of `Json.parse`, which is one instance.
-/
namespace Unitrace.Lib.JsonReader

open Unitrace.Lib.Text Unitrace.Lib.Json

/-- What a reader makes of words, of the units of literals, of arrays and of objects. -/
structure Algebra (S V : Type) where
  scalar : Str → Option V
  text : List Nat → S
  str : S → V
  arr : List V → V
  obj : List (S × V) → V

inductive Frame (S V : Type) where
  | arr (items : List V)
  | obj (members : List (S × V))
  | key (name : S)
  | done (value : V)

abbrev State (S V : Type) := Mode × List (Frame S V)

variable {S V : Type}

def fill (v : V) : List (Frame S V) → List (Frame S V)
  | .arr items :: st => .arr (v :: items) :: st
  | .key k :: .obj members :: st => .obj ((k, v) :: members) :: st
  | st => .done v :: st

def stepValue (st : List (Frame S V)) (c : Char) : Option (State S V) :=
  if c = '"' then some (.literal false [] false, st)
  else if c = '[' then some (.firstItem, .arr [] :: st)
  else if c = '{' then some (.firstKey, .obj [] :: st)
  else if isEnd c then none
  else some (.word [c], st)

def stepKey (st : List (Frame S V)) (c : Char) : Option (State S V) :=
  if c = '"' then some (.literal true [] false, st) else none

variable (A : Algebra S V)

def stepAfter : List (Frame S V) → Char → Option (State S V)
  | .arr items :: st, ',' => some (.value, .arr items :: st)
  | .arr items :: st, ']' => some (.after, fill (A.arr items.reverse) st)
  | .obj members :: st, ',' => some (.key, .obj members :: st)
  | .obj members :: st, '}' => some (.after, fill (A.obj members.reverse) st)
  | st, c => if isSpace c then some (.after, st) else none

def endLiteral (isKey : Bool) (body : Str) (st : List (Frame S V)) : Option (State S V) :=
  (units body.reverse).map fun us =>
    if isKey then (.colon, .key (A.text us) :: st) else (.after, fill (A.str (A.text us)) st)

def step : State S V → Char → Option (State S V)
  | (.value, st), c => if isSpace c then some (.value, st) else stepValue st c
  | (.firstItem, st), c =>
    if isSpace c then some (.firstItem, st)
    else if c = ']' then stepAfter A st c else stepValue st c
  | (.key, st), c => if isSpace c then some (.key, st) else stepKey st c
  | (.firstKey, st), c =>
    if isSpace c then some (.firstKey, st)
    else if c = '}' then stepAfter A st c else stepKey st c
  | (.colon, st), c =>
    if isSpace c then some (.colon, st) else if c = ':' then some (.value, st) else none
  | (.after, st), c => stepAfter A st c
  | (.literal isKey body escaped, st), c =>
    if escaped then some (.literal isKey (c :: body) false, st)
    else if c = '"' then endLiteral A isKey body st
    else some (.literal isKey (c :: body) (c = '\\'), st)
  | (.word text, st), c =>
    if isEnd c then (A.scalar text.reverse).bind fun v => stepAfter A (fill v st) c
    else some (.word (c :: text), st)

def finish : State S V → Option V
  | (.after, [.done v]) => some v
  | (.word text, []) => A.scalar text.reverse
  | _ => none

def scan : State S V → Str → Option V
  | σ, [] => finish A σ
  | σ, c :: rest => (step A σ c).bind fun σ' => scan σ' rest

/-- The value of a whole text. -/
def parse (text : Str) : Option V := scan A (.value, []) text

/-- The state behind a text, unless the reader gets stuck in it. -/
def advance : State S V → Str → Option (State S V)
  | σ, [] => some σ
  | σ, c :: text => (step A σ c).bind fun σ' => advance σ' text

variable {A}

theorem scan_append (σ : State S V) (s t : Str) :
    scan A σ (s ++ t) = (advance A σ s).bind fun σ' => scan A σ' t := by
  induction s generalizing σ with
  | nil => rfl
  | cons c s ih =>
    rw [List.cons_append, scan, advance]
    cases step A σ c with
    | none => rfl
    | some σ' => exact ih σ'

/-! ## `Json.parse` as an instance -/

def rfc : Algebra Str Value where
  scalar := Json.scalar
  text := joinSurrogates
  str := .str
  arr := .arr
  obj := .obj

def ofFrame : Json.Frame → Frame Str Value
  | .arr items => .arr items
  | .obj members => .obj members
  | .key name => .key name
  | .done value => .done value

def ofState (σ : Json.State) : State Str Value := (σ.1, σ.2.map ofFrame)

theorem fill_ofFrame (v : Value) (st : List Json.Frame) :
    (Json.fill v st).map ofFrame = fill v (st.map ofFrame) := by
  match st with
  | [] => rfl
  | .arr _ :: st => rfl
  | .key _ :: .obj _ :: st => rfl
  | .key _ :: [] => rfl
  | .key _ :: .arr _ :: st => rfl
  | .key _ :: .key _ :: st => rfl
  | .key _ :: .done _ :: st => rfl
  | .obj _ :: st => rfl
  | .done _ :: st => rfl

theorem stepAfter_ofFrame (st : List Json.Frame) (c : Char) :
    (Json.stepAfter st c).map ofState = stepAfter rfc (st.map ofFrame) c := by
  match st with
  | .arr items :: st =>
    by_cases hcomma : c = ','
    · subst hcomma
      rfl
    · by_cases hclose : c = ']'
      · subst hclose
        simp [Json.stepAfter, stepAfter, ofState, ofFrame, fill_ofFrame, rfc]
      · simp [Json.stepAfter, stepAfter, ofState, ofFrame, hcomma, hclose, apply_ite]
  | .obj members :: st =>
    by_cases hcomma : c = ','
    · subst hcomma
      rfl
    · by_cases hclose : c = '}'
      · subst hclose
        simp [Json.stepAfter, stepAfter, ofState, ofFrame, fill_ofFrame, rfc]
      · simp [Json.stepAfter, stepAfter, ofState, ofFrame, hcomma, hclose, apply_ite]
  | [] => simp [Json.stepAfter, stepAfter, ofState, apply_ite]
  | .key _ :: st => simp [Json.stepAfter, stepAfter, ofState, ofFrame, apply_ite]
  | .done _ :: st => simp [Json.stepAfter, stepAfter, ofState, ofFrame, apply_ite]

theorem stepValue_ofFrame (st : List Json.Frame) (c : Char) :
    (Json.stepValue st c).map ofState = stepValue (st.map ofFrame) c := by
  simp only [Json.stepValue, stepValue, apply_ite (Option.map ofState), Option.map_some,
    Option.map_none]
  rfl

theorem stepKey_ofFrame (st : List Json.Frame) (c : Char) :
    (Json.stepKey st c).map ofState = stepKey (st.map ofFrame) c := by
  simp only [Json.stepKey, stepKey, apply_ite (Option.map ofState), Option.map_some,
    Option.map_none]
  rfl

theorem endLiteral_ofFrame (isKey : Bool) (body : Str) (st : List Json.Frame) :
    (Json.endLiteral isKey body st).map ofState = endLiteral rfc isKey body (st.map ofFrame) := by
  unfold Json.endLiteral endLiteral unescape
  cases units body.reverse with
  | none => rfl
  | some us =>
    cases isKey with
    | true => rfl
    | false =>
      show some (ofState (.after, Json.fill (.str (joinSurrogates us)) st)) =
        some (.after, fill (.str (joinSurrogates us)) (st.map ofFrame))
      rw [ofState, fill_ofFrame]

theorem step_ofState (σ : Json.State) (c : Char) :
    (Json.step σ c).map ofState = step rfc (ofState σ) c := by
  obtain ⟨m, st⟩ := σ
  cases m with
  | value => 
    simp only [Json.step, step, ofState, apply_ite (Option.map ofState), stepValue_ofFrame]
    rfl
  | firstItem =>
    simp only [Json.step, step, ofState, apply_ite (Option.map ofState), stepValue_ofFrame,
      stepAfter_ofFrame]
    rfl
  | key =>
    simp only [Json.step, step, ofState, apply_ite (Option.map ofState), stepKey_ofFrame]
    rfl
  | firstKey =>
    simp only [Json.step, step, ofState, apply_ite (Option.map ofState), stepKey_ofFrame,
      stepAfter_ofFrame]
    rfl
  | colon =>
    simp only [Json.step, step, ofState, apply_ite (Option.map ofState)]
    rfl
  | after => exact stepAfter_ofFrame st c
  | literal isKey body escaped =>
    simp only [Json.step, step, ofState, apply_ite (Option.map ofState), endLiteral_ofFrame]
    rfl
  | word text =>
    have hscalar : rfc.scalar text.reverse = Json.scalar text.reverse := rfl
    simp only [Json.step, step, ofState, apply_ite (Option.map ofState), hscalar]
    cases Json.scalar text.reverse with
    | none => rfl
    | some v => 
      simp only [Option.bind_some, stepAfter_ofFrame, fill_ofFrame]
      rfl

theorem finish_ofState (σ : Json.State) : Json.finish σ = finish rfc (ofState σ) := by
  obtain ⟨m, st⟩ := σ
  cases m with
  | after =>
    match st with
    | [] => rfl
    | [.done _] => rfl
    | [.arr _] => rfl
    | [.obj _] => rfl
    | [.key _] => rfl
    | .done _ :: _ :: _ => rfl
    | .arr _ :: _ :: _ => rfl
    | .obj _ :: _ :: _ => rfl
    | .key _ :: _ :: _ => rfl
  | word text => cases st <;> rfl
  | value => rfl
  | firstItem => rfl
  | key => rfl
  | firstKey => rfl
  | colon => rfl
  | literal isKey body escaped => rfl

theorem scan_rfc (σ : Json.State) (text : Str) : Json.scan σ text = scan rfc (ofState σ) text := by
  induction text generalizing σ with
  | nil => exact finish_ofState σ
  | cons c text ih =>
    rw [Json.scan, scan, ← step_ofState]
    cases Json.step σ c with
    | none => rfl
    | some σ' => exact ih σ'

theorem parse_rfc (text : Str) : Json.parse text = parse rfc text := scan_rfc _ text

/-! ## Line endings -/

theorem toNat_of_isPlain {c : Char} (h : isPlain c = true) : 32 ≤ c.toNat := by
  simp only [isPlain, Bool.and_eq_true, decide_eq_true_eq] at h
  exact h.1.1

/-- No control character stands in the body of a literal. -/
theorem toNat_of_units {s : Str} {us : List Nat} (h : units s = some us) :
    ∀ c ∈ s, 32 ≤ c.toNat := by
  fun_induction units s generalizing us with
  | case1 =>
    intro c hc
    cases hc
  | case2 a b c d s ih =>
    obtain ⟨u, hu, h⟩ := Option.bind_eq_some_iff.mp h
    obtain ⟨vs, hvs, -⟩ := Option.map_eq_some_iff.mp h
    obtain ⟨ha, hb, hc, hd⟩ := isPlain_of_hex4 hu
    have hback : 32 ≤ '\\'.toNat := by decide
    have hu : 32 ≤ 'u'.toNat := by decide
    simp only [List.forall_mem_cons]
    exact ⟨hback, hu, toNat_of_isPlain ha, toNat_of_isPlain hb, toNat_of_isPlain hc,
      toNat_of_isPlain hd, ih hvs⟩
  | case3 e s hne ih =>
    obtain ⟨u, hu, h⟩ := Option.bind_eq_some_iff.mp h
    obtain ⟨vs, hvs, -⟩ := Option.map_eq_some_iff.mp h
    have hback : 32 ≤ '\\'.toNat := by decide
    have he : 32 ≤ e.toNat := by
      unfold simpleEscape at hu
      split at hu <;> first | decide | cases hu
    simp only [List.forall_mem_cons]
    exact ⟨hback, he, ih hvs⟩
  | case4 c s hu hb hp ih =>
    obtain ⟨vs, hvs, -⟩ := Option.map_eq_some_iff.mp h
    exact List.forall_mem_cons.mpr ⟨toNat_of_isPlain hp, ih hvs⟩
  | case5 c s hu hb hp => cases h

/-- A reader never leaves a literal with a control character. -/
theorem scan_control {c : Char} (hc : c.toNat < 32) {body : Str} (hmem : c ∈ body) (k escaped : Bool)
    (st : List (Frame S V)) (rest : Str) : scan A (.literal k body escaped, st) rest = none := by
  induction rest generalizing body escaped with
  | nil => rfl
  | cons d rest ih =>
    have hnext (escaped' : Bool) : scan A (.literal k (d :: body) escaped', st) rest = none :=
      ih (List.mem_cons_of_mem d hmem) escaped'
    have hend : endLiteral A k body st = none := by
      rw [endLiteral, Option.map_eq_none_iff, Option.eq_none_iff_forall_ne_some]
      intro us hus
      have hle := toNat_of_units hus c (List.mem_reverse.mpr hmem)
      omega
    rw [scan, step]
    split
    · exact hnext false
    · split
      · rw [hend, Option.bind_none]
      · exact hnext _

theorem scan_control_cons {c : Char} (hc : c.toNat < 32) (k escaped : Bool) (body : Str)
    (st : List (Frame S V)) (rest : Str) :
    scan A (.literal k body escaped, st) (c :: rest) = none := by
  have hquote : c ≠ '"' := by
    intro he
    rw [he] at hc
    exact absurd hc (by decide)
  rw [scan, step]
  split
  · exact scan_control hc List.mem_cons_self k false st rest
  · exact scan_control hc List.mem_cons_self k _ st rest

theorem stepAfter_newline (st : List (Frame S V)) :
    stepAfter A st '\n' = some (.after, st) ∧ stepAfter A st '\r' = some (.after, st) := by
  match st with
  | [] => exact ⟨rfl, rfl⟩
  | .arr _ :: _ => exact ⟨rfl, rfl⟩
  | .obj _ :: _ => exact ⟨rfl, rfl⟩
  | .key _ :: _ => exact ⟨rfl, rfl⟩
  | .done _ :: _ => exact ⟨rfl, rfl⟩

/-- A newline leaves the mode as it is, ends a word, or spoils a literal. -/
theorem scan_newline (σ : State S V) :
    (∃ σ', ∀ rest, scan A σ ('\n' :: rest) = scan A σ' rest ∧
        scan A σ ('\r' :: rest) = scan A σ' rest ∧
        scan A σ' ('\n' :: rest) = scan A σ' rest) ∨
      ∀ rest, scan A σ ('\n' :: rest) = none ∧ scan A σ ('\r' :: rest) = none := by
  obtain ⟨m, st⟩ := σ
  have hafter (st : List (Frame S V)) (rest : Str) :
      scan A (.after, st) ('\n' :: rest) = scan A (.after, st) rest := by
    rw [scan, step, (stepAfter_newline st).1, Option.bind_some]
  cases m with
  | value => exact Or.inl ⟨(.value, st), fun _ => ⟨rfl, rfl, rfl⟩⟩
  | firstItem => exact Or.inl ⟨(.firstItem, st), fun _ => ⟨rfl, rfl, rfl⟩⟩
  | key => exact Or.inl ⟨(.key, st), fun _ => ⟨rfl, rfl, rfl⟩⟩
  | firstKey => exact Or.inl ⟨(.firstKey, st), fun _ => ⟨rfl, rfl, rfl⟩⟩
  | colon => exact Or.inl ⟨(.colon, st), fun _ => ⟨rfl, rfl, rfl⟩⟩
  | after =>
    refine Or.inl ⟨(.after, st), fun rest => ⟨hafter st rest, ?_, hafter st rest⟩⟩
    rw [scan, step, (stepAfter_newline st).2, Option.bind_some]
  | literal k body escaped =>
    exact Or.inr fun rest => ⟨scan_control_cons (by decide) k escaped body st rest,
      scan_control_cons (by decide) k escaped body st rest⟩
  | word text =>
    have hend {c : Char} (hc : isEnd c = true)
        (hspace : ∀ st : List (Frame S V), stepAfter A st c = some (.after, st)) (rest : Str) :
        scan A (.word text, st) (c :: rest) =
          (A.scalar text.reverse).bind fun v => scan A (.after, fill v st) rest := by
      rw [scan, step, if_pos hc, Option.bind_assoc]
      refine Option.bind_congr fun v _ => ?_
      rw [hspace, Option.bind_some]
    have hnl := hend (c := '\n') rfl fun st => (stepAfter_newline st).1
    have hcr := hend (c := '\r') rfl fun st => (stepAfter_newline st).2
    cases hv : A.scalar text.reverse with
    | none =>
      simp only [hv, Option.bind_none] at hnl hcr
      exact Or.inr fun rest => ⟨hnl rest, hcr rest⟩
    | some v =>
      simp only [hv, Option.bind_some] at hnl hcr
      exact Or.inl ⟨(.after, fill v st), fun rest => ⟨hnl rest, hcr rest, hafter _ rest⟩⟩

theorem scan_carriageReturn (σ : State S V) (rest : Str) :
    scan A σ ('\r' :: rest) = scan A σ ('\n' :: rest) := by
  rcases scan_newline (A := A) σ with ⟨σ', h⟩ | h
  · rw [(h rest).1, (h rest).2.1]
  · rw [(h rest).1, (h rest).2]

theorem scan_newlines (σ : State S V) (rest : Str) :
    scan A σ ('\n' :: '\n' :: rest) = scan A σ ('\n' :: rest) := by
  rcases scan_newline (A := A) σ with ⟨σ', h⟩ | h
  · rw [(h _).1, (h rest).2.2, (h rest).1]
  · rw [(h _).1, (h rest).1]

/-! ## Brackets behind an accepted text -/

/-- Behind an accepted text only blanks are accepted. -/
theorem parse_append_bracket {text : Str} (h : (parse A text).isSome = true) (rest : Str) :
    parse A (text ++ '\n' :: ']' :: rest) = none := by
  unfold parse at h ⊢
  have hsplit := scan_append (A := A) (.value, []) text []
  rw [List.append_nil] at hsplit
  rw [hsplit] at h
  rw [scan_append]
  cases hσ : advance A (.value, []) text with
  | none => rfl
  | some σ =>
    rw [hσ, Option.bind_some, scan] at h
    rw [Option.bind_some]
    obtain ⟨v, hv⟩ := Option.isSome_iff_exists.mp h
    unfold finish at hv
    split at hv
    · rfl
    · show ((A.scalar _).bind _).bind _ = none
      rw [hv]
      rfl
    · cases hv

/-! ## What holds of every value that is read -/

/-- The parts that a reader puts together keep the property. -/
structure Closed (A : Algebra S V) (P : V → Prop) : Prop where
  scalar : ∀ w v, A.scalar w = some v → P v
  str : ∀ s, P (A.str s)
  arr : ∀ items, (∀ v ∈ items, P v) → P (A.arr items)
  obj : ∀ members, (∀ m ∈ members, P m.2) → P (A.obj members)

def FrameHas (P : V → Prop) : Frame S V → Prop
  | .arr items => ∀ v ∈ items, P v
  | .obj members => ∀ m ∈ members, P m.2
  | .key _ => True
  | .done v => P v

def StackHas (P : V → Prop) (st : List (Frame S V)) : Prop := ∀ f ∈ st, FrameHas P f

section Invariant

variable {P : V → Prop}

theorem StackHas.fill {v : V} {st : List (Frame S V)} (hv : P v) (h : StackHas P st) :
    StackHas P (fill v st) := by
  have hdone : StackHas P (.done v :: st) := List.forall_mem_cons.mpr ⟨hv, h⟩
  match st with
  | .arr items :: st =>
    obtain ⟨hitems, hst⟩ := List.forall_mem_cons.mp h
    exact List.forall_mem_cons.mpr ⟨List.forall_mem_cons.mpr ⟨hv, hitems⟩, hst⟩
  | .key k :: .obj members :: st =>
    obtain ⟨-, hst⟩ := List.forall_mem_cons.mp h
    obtain ⟨hmembers, hst⟩ := List.forall_mem_cons.mp hst
    exact List.forall_mem_cons.mpr ⟨List.forall_mem_cons.mpr ⟨hv, hmembers⟩, hst⟩
  | [] => exact hdone
  | .key _ :: [] => exact hdone
  | .key _ :: .arr _ :: _ => exact hdone
  | .key _ :: .key _ :: _ => exact hdone
  | .key _ :: .done _ :: _ => exact hdone
  | .obj _ :: _ => exact hdone
  | .done _ :: _ => exact hdone

theorem stepAfter_has (hA : Closed A P) {st : List (Frame S V)} {c : Char} {σ : State S V}
    (h : StackHas P st) (hstep : stepAfter A st c = some σ) : StackHas P σ.2 := by
  unfold stepAfter at hstep
  split at hstep
  · cases hstep
    exact h
  · cases hstep
    obtain ⟨hitems, hst⟩ := List.forall_mem_cons.mp h
    exact StackHas.fill (hA.arr _ fun v hv => hitems v (List.mem_reverse.mp hv)) hst
  · cases hstep
    exact h
  · cases hstep
    obtain ⟨hmembers, hst⟩ := List.forall_mem_cons.mp h
    exact StackHas.fill (hA.obj _ fun m hm => hmembers m (List.mem_reverse.mp hm)) hst
  · split at hstep
    · cases hstep
      exact h
    · cases hstep

theorem stepValue_has {st : List (Frame S V)} {c : Char} {σ : State S V} (h : StackHas P st)
    (hstep : stepValue st c = some σ) : StackHas P σ.2 := by
  have harr : FrameHas P (.arr [] : Frame S V) := by
    intro v hv
    cases hv
  have hobj : FrameHas P (.obj [] : Frame S V) := by
    intro m hm
    cases hm
  unfold stepValue at hstep
  split at hstep
  · cases hstep
    exact h
  · split at hstep
    · cases hstep
      exact List.forall_mem_cons.mpr ⟨harr, h⟩
    · split at hstep
      · cases hstep
        exact List.forall_mem_cons.mpr ⟨hobj, h⟩
      · split at hstep
        · cases hstep
        · cases hstep
          exact h

theorem stepKey_has {st : List (Frame S V)} {c : Char} {σ : State S V} (h : StackHas P st)
    (hstep : stepKey st c = some σ) : StackHas P σ.2 := by
  unfold stepKey at hstep
  split at hstep
  · cases hstep
    exact h
  · cases hstep

theorem step_has (hA : Closed A P) {σ σ' : State S V} {c : Char} (h : StackHas P σ.2)
    (hstep : step A σ c = some σ') : StackHas P σ'.2 := by
  obtain ⟨m, st⟩ := σ
  cases m with
  | value =>
    rw [step] at hstep
    split at hstep
    · cases hstep
      exact h
    · exact stepValue_has h hstep
  | firstItem =>
    rw [step] at hstep
    split at hstep
    · cases hstep
      exact h
    · split at hstep
      · exact stepAfter_has hA h hstep
      · exact stepValue_has h hstep
  | key =>
    rw [step] at hstep
    split at hstep
    · cases hstep
      exact h
    · exact stepKey_has h hstep
  | firstKey =>
    rw [step] at hstep
    split at hstep
    · cases hstep
      exact h
    · split at hstep
      · exact stepAfter_has hA h hstep
      · exact stepKey_has h hstep
  | colon =>
    rw [step] at hstep
    split at hstep
    · cases hstep
      exact h
    · split at hstep
      · cases hstep
        exact h
      · cases hstep
  | after => exact stepAfter_has hA h hstep
  | literal isKey body escaped =>
    rw [step] at hstep
    split at hstep
    · cases hstep
      exact h
    · split at hstep
      · obtain ⟨us, -, hσ⟩ := Option.map_eq_some_iff.mp hstep
        split at hσ
        · obtain rfl := hσ
          exact List.forall_mem_cons.mpr ⟨trivial, h⟩
        · obtain rfl := hσ
          exact StackHas.fill (hA.str _) h
      · cases hstep
        exact h
  | word text =>
    rw [step] at hstep
    split at hstep
    · obtain ⟨v, hv, hafter⟩ := Option.bind_eq_some_iff.mp hstep
      exact stepAfter_has hA (StackHas.fill (hA.scalar _ v hv) h) hafter
    · cases hstep
      exact h

theorem scan_has (hA : Closed A P) {σ : State S V} {text : Str} {v : V} (h : StackHas P σ.2)
    (hscan : scan A σ text = some v) : P v := by
  induction text generalizing σ with
  | nil =>
    obtain ⟨m, st⟩ := σ
    unfold scan finish at hscan
    split at hscan
    · rename_i heq
      cases hscan
      cases heq
      exact h _ List.mem_cons_self
    · exact hA.scalar _ v hscan
    · cases hscan
  | cons c text ih =>
    obtain ⟨σ', hstep, hrest⟩ := Option.bind_eq_some_iff.mp hscan
    exact ih (step_has hA h hstep) hrest

/-- A property that the parts keep holds of every value that is read. -/
theorem parse_has (hA : Closed A P) {text : Str} {v : V} (h : parse A text = some v) : P v :=
  scan_has hA (fun _ hf => absurd hf List.not_mem_nil) h

end Invariant

end Unitrace.Lib.JsonReader
