import Mathlib.Data.List.Basic
import Unitrace.Itt.PausedTasks

/-!
# Pause and resume against the environment

Pause and resume set a flag and the environment variable. The application sets the
variable as well, and the variable can disable what a resume has enabled.
-/
namespace Unitrace.Itt.Precedence

open Unitrace.Lib.ByteString Unitrace.Itt.Control

inductive Op where
  | ittPause
  | ittResume
  | setenv (value : CStr)
  | unsetenv
  deriving DecidableEq

/-- `unsetenv` removes every entry of the variable. -/
def unsetEnv (c : UniController) : UniController :=
  { c with environ := c.environ.map (List.filter fun entry => !enableCollection.isPrefixOf entry) }

/-- The controller after a history, which has the newest operation in front. -/
def after (c : UniController) : List Op → UniController
  | [] => c
  | .ittPause :: earlier => (after c earlier).ittPause
  | .ittResume :: earlier => (after c earlier).ittResume
  | .setenv value :: earlier => (after c earlier).setEnv value.val
  | .unsetenv :: earlier => unsetEnv (after c earlier)

/-- Whether the last pause or resume was a resume. -/
def resumedLast : List Op → Option Bool
  | [] => none
  | .ittPause :: _ => some false
  | .ittResume :: _ => some true
  | .setenv _ :: earlier => resumedLast earlier
  | .unsetenv :: earlier => resumedLast earlier

/-- The value that was written last, if there is one, and at first that of the process. -/
def written (initial : Option Bytes) : List Op → Option Bytes
  | [] => initial
  | .ittPause :: _ => some (lit "0")
  | .ittResume :: _ => some (lit "1")
  | .setenv value :: _ => some value.val
  | .unsetenv :: _ => none

/-- The value does not disable collection. -/
def Permits (value : Option Bytes) : Prop := ∃ v, value = some v ∧ v.head? ≠ some 48

/-- The entries of the variable. -/
def occurrences (entries : List Bytes) : List Bytes :=
  entries.filter fun entry => enableCollection.isPrefixOf entry

/-- The process began with several entries of the variable, and only the first of them
has been written since. -/
def Shadowed (c : UniController) (history : List Op) : Prop :=
  1 < (occurrences (c.environ.getD [])).length ∧ .unsetenv ∉ history

instance (c : UniController) (history : List Op) : Decidable (Shadowed c history) :=
  inferInstanceAs (Decidable (_ ∧ _))

/-- The value that is looked at after the history. -/
def seen (c : UniController) (history : List Op) : Option Bytes :=
  let initial := lastValue (c.environ.getD [])
  if Shadowed c history then initial else written initial history

/-! ## The entries of the variable -/

theorem isPrefixOf_append (head value : Bytes) : head.isPrefixOf (head ++ value) = true :=
  List.isPrefixOf_iff_prefix.mpr (List.prefix_append head value)

theorem occurrences_setEntry (value : Bytes) (entries : List Bytes) :
    occurrences (setEntry enableCollection value entries) =
      (enableCollection ++ value) :: (occurrences entries).tail := by
  induction entries with
  | nil => simp [setEntry, occurrences, isPrefixOf_append]
  | cons entry rest ih =>
    rw [setEntry]
    cases h : enableCollection.isPrefixOf entry with
    | true => simp [occurrences, isPrefixOf_append, h]
    | false =>
      simp only [occurrences, Bool.false_eq_true, if_false, List.filter_cons, h] at ih ⊢
      exact ih

theorem lastValue_eq (entries : List Bytes) :
    lastValue entries = (occurrences entries).getLast?.map (List.drop enableCollection.length) := by
  rw [lastValue, occurrences, ← List.head?_reverse, ← List.filter_reverse, List.head?_filter]

/-- With several entries `setenv` does not reach the one that is looked at. -/
theorem lastValue_setEntry (value : Bytes) (entries : List Bytes) :
    lastValue (setEntry enableCollection value entries) =
      if 1 < (occurrences entries).length then lastValue entries else some value := by
  rw [lastValue_eq, lastValue_eq, occurrences_setEntry]
  cases occurrences entries with
  | nil => simp
  | cons first rest =>
    cases rest with
    | nil => simp
    | cons second rest => simp [List.getLast?_cons_cons]

theorem length_setEntry (value : Bytes) (entries : List Bytes) :
    (occurrences (setEntry enableCollection value entries)).length =
      max 1 (occurrences entries).length := by
  rw [occurrences_setEntry, List.length_cons, List.length_tail]
  omega

theorem occurrences_unset (entries : List Bytes) :
    occurrences (entries.filter fun entry => !enableCollection.isPrefixOf entry) = [] := by
  rw [occurrences, List.filter_filter, List.filter_eq_nil_iff]
  intro entry _
  cases enableCollection.isPrefixOf entry <;> simp

/-! ## A history -/

section

variable {c : UniController}

theorem shadowed_cons {op : Op} {earlier : List Op} (hop : op ≠ .unsetenv) :
    Shadowed c (op :: earlier) ↔ Shadowed c earlier := by
  simp [Shadowed, Ne.symm hop]

theorem not_shadowed_unsetenv (earlier : List Op) : ¬Shadowed c (.unsetenv :: earlier) :=
  fun h => h.2 List.mem_cons_self

/-- What a history leaves of the variable: all the entries that shadow what is written, or
at most one. -/
structure Leaves (c : UniController) (history : List Op) (entries : List Bytes) : Prop where
  length : Shadowed c history ∧ 1 < (occurrences entries).length ∨
    ¬Shadowed c history ∧ (occurrences entries).length ≤ 1
  value : lastValue entries = seen c history

/-- One write of the variable. -/
theorem leaves_set {op : Op} {earlier : List Op} {entries : List Bytes} {value : Bytes}
    (hop : op ≠ .unsetenv) (hwritten : ∀ initial, written initial (op :: earlier) = some value)
    (h : Leaves c earlier entries) :
    Leaves c (op :: earlier) (setEntry enableCollection value entries) := by
  have hvalue := h.value
  constructor
  · rw [shadowed_cons hop, length_setEntry]
    rcases h.length with ⟨hs, hlen⟩ | ⟨hs, hlen⟩
    · exact .inl ⟨hs, by omega⟩
    · exact .inr ⟨hs, by omega⟩
  · rw [lastValue_setEntry, seen, hwritten]
    simp only [shadowed_cons hop]
    rcases h.length with ⟨hs, hlen⟩ | ⟨hs, hlen⟩
    · rw [if_pos hlen, if_pos hs, hvalue, seen]
      exact if_pos hs
    · rw [if_neg (by omega), if_neg hs]

theorem leaves_after (history : List Op) :
    Leaves c history ((after c history).environ.getD []) := by
  induction history with
  | nil =>
    constructor
    · by_cases h : 1 < (occurrences (c.environ.getD [])).length
      · exact .inl ⟨⟨h, List.not_mem_nil⟩, h⟩
      · exact .inr ⟨fun hs => h hs.1, by rw [after]; omega⟩
    · rw [seen, written, ite_self]
      rfl
  | cons op earlier ih =>
    cases op with
    | ittPause => exact leaves_set (by simp) (fun _ => rfl) ih
    | ittResume => exact leaves_set (by simp) (fun _ => rfl) ih
    | setenv value => exact leaves_set (by simp) (fun _ => rfl) ih
    | unsetenv =>
      have hnone : occurrences ((after c (.unsetenv :: earlier)).environ.getD []) = [] := by
        rw [after, unsetEnv]
        cases (after c earlier).environ with
        | none => rfl
        | some entries => exact occurrences_unset entries
      constructor
      · exact .inr ⟨not_shadowed_unsetenv earlier, by rw [hnone]; simp⟩
      · rw [lastValue_eq, hnone, seen, if_neg (not_shadowed_unsetenv earlier)]
        rfl

theorem after_conditional (history : List Op) :
    (after c history).conditionalCollection = c.conditionalCollection := by
  induction history with
  | nil => rfl
  | cons op earlier ih => cases op <;> exact ih

/-- The flag follows pause and resume, and a pause or resume leaves an environment. -/
theorem after_paused {history : List Op} {resumed : Bool}
    (h : resumedLast history = some resumed) :
    (after c history).ittPaused = !resumed ∧ (after c history).environ.isSome = true := by
  induction history with
  | nil => cases h
  | cons op earlier ih =>
    cases op with
    | ittPause =>
      cases h
      exact ⟨rfl, rfl⟩
    | ittResume =>
      cases h
      exact ⟨rfl, rfl⟩
    | setenv value => exact ⟨(ih h).1, rfl⟩
    | unsetenv =>
      refine ⟨(ih h).1, ?_⟩
      rw [after, unsetEnv, Option.isSome_map]
      exact (ih h).2

theorem enabled_iff (hc : c.conditionalCollection = true) {history : List Op} {resumed : Bool}
    (h : resumedLast history = some resumed) :
    (after c history).isCollectionEnabled = true ↔
      resumed = true ∧ Permits (seen c history) := by
  obtain ⟨hpaused, henviron⟩ := after_paused (c := c) h
  obtain ⟨entries, hentries⟩ := Option.isSome_iff_exists.mp henviron
  have hseen := (leaves_after (c := c) history).value
  rw [hentries, Option.getD_some] at hseen
  simp only [UniController.isCollectionEnabled, after_conditional, hc, hpaused, hentries, hseen,
    if_true]
  cases resumed with
  | false => simp
  | true =>
    cases seen c history with
    | none => simp [Permits]
    | some value => simp [Permits]

end

/-- A resume prevails exactly over an environment that does not disable collection. -/
theorem enabled_iff_resumed_iff (c : UniController) (hc : c.conditionalCollection = true)
    (history : List Op) (hsome : resumedLast history ≠ none) :
    ((after c history).isCollectionEnabled = true ↔ resumedLast history = some true) ↔
      (resumedLast history = some true → Permits (seen c history)) := by
  obtain ⟨resumed, hlast⟩ := Option.ne_none_iff_exists'.mp hsome
  rw [enabled_iff hc hlast, hlast, Option.some_inj]
  constructor
  · intro h hresumed
    exact (h.mpr hresumed).2
  · intro h
    exact ⟨fun hp => hp.1, fun hresumed => ⟨hresumed, h hresumed⟩⟩

theorem enabled_after_resume :
    ((after PausedTasks.collecting [.ittResume, .ittPause]).isCollectionEnabled = true ↔
        resumedLast [.ittResume, .ittPause] = some true) ↔
      (resumedLast [.ittResume, .ittPause] = some true →
        Permits (seen PausedTasks.collecting [.ittResume, .ittPause])) :=
  enabled_iff_resumed_iff PausedTasks.collecting rfl [.ittResume, .ittPause] (by simp [resumedLast])

/-- The application sets the variable to `0` after a resume. -/
theorem not_enabled_iff_resumed :
    ¬∀ (c : UniController) (history : List Op), c.conditionalCollection = true →
      resumedLast history ≠ none →
      ((after c history).isCollectionEnabled = true ↔ resumedLast history = some true) := by
  intro h
  let history : List Op := [.setenv ⟨[48], by decide⟩, .ittResume]
  have hresumed : resumedLast history = some true := rfl
  have henabled := (h ⟨true, false, none⟩ history rfl (by simp [hresumed])).mpr hresumed
  obtain ⟨-, value, hvalue, hhead⟩ := (enabled_iff rfl hresumed).mp henabled
  have halone : ¬Shadowed ⟨true, false, none⟩ history := fun hs => absurd hs.1 (Nat.not_lt_zero 1)
  rw [seen, if_neg halone] at hvalue
  cases hvalue
  exact hhead rfl

end Unitrace.Itt.Precedence
