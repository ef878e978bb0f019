import Mathlib.Data.List.Perm.Basic
import Mathlib.Logic.Function.Basic
import Mathlib.Logic.Relation

/-!
# Critical sections

Threads make calls whose bodies run between the lock and the unlock of one mutex. A body
takes many turns, and between two of them any thread may move. Every interleaving has the
effect of the bodies one after the other, in the order in which they left the mutex.
-/
namespace Unitrace.Lib.CriticalSection

open Relation (ReflTransGen)

/-- The code between the lock and the unlock: the local variables with which a call
enters, the turns on its variables and the shared data, and what it leaves with. -/
structure Body (γ β σ ρ : Type*) where
  enter : γ → β
  turn : β × σ → β × σ → Prop
  leave : β → Option ρ

/-- The calls that a thread has still to make, and the one that it is inside of. -/
structure Caller (γ β : Type*) where
  todo : List γ
  inside : Option (γ × β)

/-- The calls that have left are a history, it takes no part in the steps. -/
structure State (τ γ β σ ρ : Type*) where
  mutex : Option τ
  shared : σ
  callers : τ → Caller γ β
  left : List (τ × γ × ρ)

variable {τ γ β σ ρ : Type*} [DecidableEq τ]

def State.setCaller (s : State τ γ β σ ρ) (i : τ) (caller : Caller γ β) : State τ γ β σ ρ :=
  { s with callers := Function.update s.callers i caller }

@[simp] theorem State.setCaller_self (s : State τ γ β σ ρ) (i : τ) (caller : Caller γ β) :
    (s.setCaller i caller).callers i = caller := Function.update_self ..

theorem State.setCaller_ne (s : State τ γ β σ ρ) {i j : τ} (hne : j ≠ i) (caller : Caller γ β) :
    (s.setCaller i caller).callers j = s.callers j := Function.update_of_ne hne ..

/-- One move of one thread. Only the lock asks for the mutex. -/
inductive Step (body : Body γ β σ ρ) (s : State τ γ β σ ρ) : State τ γ β σ ρ → Prop where
  | lock (i : τ) (c : γ) (rest : List γ) (hfree : s.mutex = none)
      (hout : (s.callers i).inside = none) (htodo : (s.callers i).todo = c :: rest) :
      Step body s { s.setCaller i ⟨rest, some (c, body.enter c)⟩ with mutex := some i }
  | turn (i : τ) (c : γ) (b b' : β) (shared : σ) (hin : (s.callers i).inside = some (c, b))
      (hturn : body.turn (b, s.shared) (b', shared)) :
      Step body s
        { s.setCaller i { s.callers i with inside := some (c, b') } with shared := shared }
  | unlock (i : τ) (c : γ) (b : β) (r : ρ) (hin : (s.callers i).inside = some (c, b))
      (hleave : body.leave b = some r) :
      Step body s
        { s.setCaller i { s.callers i with inside := none } with
          mutex := none, left := s.left ++ [(i, c, r)] }

/-- A body without any other thread in between, with the shared data before and after. -/
def Alone (body : Body γ β σ ρ) (c : γ) (shared : σ) (r : ρ) (shared' : σ) : Prop :=
  ∃ b, ReflTransGen body.turn (body.enter c, shared) (b, shared') ∧ body.leave b = some r

/-- The invariant rule for the turns of one body. -/
theorem turns_keep {body : Body γ β σ ρ} {P : β × σ → Prop}
    (hP : ∀ x y, P x → body.turn x y → P y) {x y : β × σ} (h : ReflTransGen body.turn x y)
    (hx : P x) : P y := by
  induction h with
  | refl => exact hx
  | tail _ hturn ih => exact hP _ _ ih hturn

theorem Alone.keep {body : Body γ β σ ρ} {P : β × σ → Prop}
    (hP : ∀ x y, P x → body.turn x y → P y) {c : γ} {shared shared' : σ} {r : ρ}
    (h : Alone body c shared r shared') (hx : P (body.enter c, shared)) :
    ∃ b, P (b, shared') ∧ body.leave b = some r := by
  obtain ⟨b, hturns, hleave⟩ := h
  exact ⟨b, turns_keep hP hturns hx, hleave⟩

/-- Bodies one after the other, each with its thread and what it left with. -/
inductive Serial (body : Body γ β σ ρ) (shared : σ) : List (τ × γ × ρ) → σ → Prop where
  | nil : Serial body shared [] shared
  | snoc {l : List (τ × γ × ρ)} {i : τ} {c : γ} {r : ρ} {shared' shared'' : σ}
      (hl : Serial body shared l shared') (hc : Alone body c shared' r shared'') :
      Serial body shared (l ++ [(i, c, r)]) shared''

/-- No thread has entered. -/
structure Initial (s : State τ γ β σ ρ) : Prop where
  free : s.mutex = none
  outside : ∀ i, (s.callers i).inside = none
  left_nil : s.left = []

/-- The calls of one thread that have left. -/
def callsOf (i : τ) (left : List (τ × γ × ρ)) : List γ :=
  (left.filter fun e => e.1 = i).map fun e => e.2.1

/-- The calls of a thread that have not left, first the one that it is inside of. -/
def Caller.pending (caller : Caller γ β) : List γ :=
  (caller.inside.map Prod.fst).toList ++ caller.todo

/-- The shared data at the last unlock come from the bodies one after the other, and the
thread with the mutex has changed them since. All others are outside. -/
structure Inv (body : Body γ β σ ρ) (start s : State τ γ β σ ρ) (unlocked : σ) : Prop where
  serial : Serial body start.shared s.left unlocked
  free : s.mutex = none → s.shared = unlocked
  held : ∀ i, s.mutex = some i → ∃ c b, (s.callers i).inside = some (c, b) ∧
    ReflTransGen body.turn (body.enter c, unlocked) (b, s.shared)
  outside : ∀ i, s.mutex ≠ some i → (s.callers i).inside = none
  program : ∀ i, callsOf i s.left ++ (s.callers i).pending = (start.callers i).pending

section

variable {body : Body γ β σ ρ} {start s s' : State τ γ β σ ρ} {unlocked : σ}

theorem Initial.inv (h : Initial start) : Inv body start start start.shared where
  serial := by rw [h.left_nil]; exact .nil
  free _ := rfl
  held i hi := by rw [h.free] at hi; cases hi
  outside i _ := h.outside i
  program i := by rw [h.left_nil]; rfl

/-- The thread that is inside has the mutex. -/
theorem Inv.mutex_eq (h : Inv body start s unlocked) {i : τ} {e : γ × β}
    (hin : (s.callers i).inside = some e) : s.mutex = some i := by
  by_contra hne
  rw [h.outside i hne] at hin
  cases hin

theorem callsOf_append_self (i : τ) (left : List (τ × γ × ρ)) (c : γ) (r : ρ) :
    callsOf i (left ++ [(i, c, r)]) = callsOf i left ++ [c] := by
  simp [callsOf]

theorem callsOf_append_ne {i j : τ} (hne : j ≠ i) (left : List (τ × γ × ρ)) (c : γ) (r : ρ) :
    callsOf i (left ++ [(j, c, r)]) = callsOf i left := by
  simp [callsOf, hne]

theorem mem_callsOf {e : τ × γ × ρ} {left : List (τ × γ × ρ)} (h : e ∈ left) :
    e.2.1 ∈ callsOf e.1 left :=
  List.mem_map_of_mem (List.mem_filter.mpr ⟨h, by simp⟩)

theorem flatMap_single (i : τ) (c : γ) {threads : List τ} (hnodup : threads.Nodup)
    (hi : i ∈ threads) : threads.flatMap (fun j => if i = j then [c] else []) = [c] := by
  induction threads with
  | nil => cases hi
  | cons j threads ih =>
    obtain ⟨hj, hnodup⟩ := List.nodup_cons.mp hnodup
    rw [List.flatMap_cons]
    by_cases hij : i = j
    · subst hij
      have hnone : threads.flatMap (fun j => if i = j then [c] else []) = [] := by
        refine List.flatMap_eq_nil_iff.mpr fun k hk => if_neg ?_
        intro hik
        exact hj (hik ▸ hk)
      rw [if_pos rfl, hnone, List.append_nil]
    · rw [if_neg hij, List.nil_append]
      exact ih hnodup ((List.mem_cons.mp hi).resolve_left hij)

/-- All the calls that have left are those of the threads, one thread after the other. -/
theorem perm_flatMap_callsOf {threads : List τ} (hnodup : threads.Nodup)
    (hall : ∀ i, i ∈ threads) (left : List (τ × γ × ρ)) :
    (left.map fun e => e.2.1).Perm (threads.flatMap fun i => callsOf i left) := by
  induction left with
  | nil =>
    have hnil : threads.flatMap (fun i => callsOf i ([] : List (τ × γ × ρ))) = [] :=
      List.flatMap_eq_nil_iff.mpr fun _ _ => rfl
    rw [hnil, List.map_nil]
  | cons e left ih =>
    have hcons (i : τ) : callsOf i (e :: left) =
        (if e.1 = i then [e.2.1] else []) ++ callsOf i left := by
      by_cases hi : e.1 = i
      · simp [callsOf, hi]
      · simp [callsOf, hi]
    simp only [hcons]
    refine .trans ?_ (List.flatMap_append_perm threads _ _)
    rw [flatMap_single e.1 e.2.1 hnodup (hall e.1)]
    exact ih.cons e.2.1

/-- A thread that gets another caller with the same pending calls keeps its program. -/
theorem Inv.program_setCaller (h : Inv body start s unlocked) {i : τ} {caller : Caller γ β}
    (hpending : caller.pending = (s.callers i).pending) (j : τ) :
    callsOf j s.left ++ ((s.setCaller i caller).callers j).pending =
      (start.callers j).pending := by
  rw [← h.program j]
  by_cases hj : j = i
  · subst hj
    rw [s.setCaller_self, hpending]
  · rw [s.setCaller_ne hj]

/-- Each move keeps the invariant, with new unlocked data only at an unlock. -/
theorem Inv.step (h : Inv body start s unlocked) (hs : Step body s s') :
    ∃ unlocked', Inv body start s' unlocked' := by
  cases hs with
  | lock i c rest hfree hout htodo =>
    refine ⟨unlocked, h.serial, (fun hn => by cases hn), ?_, ?_, ?_⟩
    · intro j hj
      obtain rfl := Option.some.inj hj
      refine ⟨c, body.enter c, ?_, ?_⟩
      · exact congrArg Caller.inside (s.setCaller_self i _)
      · rw [← h.free hfree]
        exact .refl
    · intro j hj
      have hne : j ≠ i := fun he => hj (congrArg some he.symm)
      exact (congrArg Caller.inside (s.setCaller_ne hne _)).trans (h.outside j (by simp [hfree]))
    · exact h.program_setCaller (by simp [Caller.pending, hout, htodo])
  | turn i c b b' shared hin hturn =>
    have hmutex := h.mutex_eq hin
    refine ⟨unlocked, h.serial, (fun hn => by cases hmutex.symm.trans hn), ?_, ?_, ?_⟩
    · intro j hj
      obtain rfl := Option.some.inj (hmutex.symm.trans hj)
      obtain ⟨c₀, b₀, hin₀, hturns⟩ := h.held i hmutex
      obtain ⟨rfl, rfl⟩ := Prod.mk.inj (Option.some.inj (hin.symm.trans hin₀))
      exact ⟨c, b', congrArg Caller.inside (s.setCaller_self i _), hturns.tail hturn⟩
    · intro j hj
      have hne : j ≠ i := fun he => hj (hmutex.trans (congrArg some he.symm))
      exact (congrArg Caller.inside (s.setCaller_ne hne _)).trans (h.outside j hj)
    · exact h.program_setCaller (by simp [Caller.pending, hin])
  | unlock i c b r hin hleave =>
    have hmutex := h.mutex_eq hin
    obtain ⟨c₀, b₀, hin₀, hturns⟩ := h.held i hmutex
    obtain ⟨rfl, rfl⟩ := Prod.mk.inj (Option.some.inj (hin.symm.trans hin₀))
    refine ⟨s.shared, h.serial.snoc ⟨b, hturns, hleave⟩, fun _ => rfl, (fun j hj => by cases hj),
      ?_, ?_⟩
    · intro j _
      by_cases hj : j = i
      · subst hj
        exact congrArg Caller.inside (s.setCaller_self j _)
      · have hother := h.outside j fun he => hj (Option.some.inj (he.symm.trans hmutex))
        exact (congrArg Caller.inside (s.setCaller_ne hj _)).trans hother
    · intro j
      rw [← h.program j]
      by_cases hj : j = i
      · subst hj
        simp [callsOf_append_self, Caller.pending, hin]
      · simp only [callsOf_append_ne (Ne.symm hj), s.setCaller_ne hj]

/-- The states of all interleavings of the threads. -/
abbrev Reachable (body : Body γ β σ ρ) (start s : State τ γ β σ ρ) : Prop :=
  ReflTransGen (Step body) start s

theorem Reachable.inv (hstart : Initial start) (hs : Reachable body start s) :
    ∃ unlocked, Inv body start s unlocked := by
  induction hs with
  | refl => exact ⟨start.shared, hstart.inv⟩
  | tail _ hstep ih =>
    obtain ⟨unlocked, h⟩ := ih
    exact h.step hstep

theorem Inv.callsOf_prefix (h : Inv body start s unlocked) (hstart : Initial start) (i : τ) :
    callsOf i s.left <+: (start.callers i).todo := by
  have hpending : (start.callers i).pending = (start.callers i).todo := by
    rw [Caller.pending, hstart.outside i]
    rfl
  exact ⟨_, (h.program i).trans hpending⟩

/-- What the unlocked data have and each turn keeps holds of the data in every state. -/
theorem Inv.shared_keep (h : Inv body start s unlocked) {P : σ → Prop}
    (hP : ∀ x y, P x.2 → body.turn x y → P y.2) (hunlocked : P unlocked) : P s.shared := by
  cases hmutex : s.mutex with
  | none => rwa [h.free hmutex]
  | some i =>
    obtain ⟨c, b, -, hturns⟩ := h.held i hmutex
    exact turns_keep (P := fun x => P x.2) hP hturns hunlocked

/-- Once a thread is through, its calls have left in the order of its program. -/
theorem Inv.callsOf_eq (h : Inv body start s unlocked) (hstart : Initial start) {i : τ}
    (hdone : (s.callers i).todo = [] ∧ (s.callers i).inside = none) :
    callsOf i s.left = (start.callers i).todo := by
  have hprogram := h.program i
  rw [Caller.pending, Caller.pending, hdone.1, hdone.2, hstart.outside i] at hprogram
  simpa using hprogram

end

end Unitrace.Lib.CriticalSection
