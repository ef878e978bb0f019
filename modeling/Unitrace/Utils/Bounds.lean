import Mathlib.Algebra.Group.Nat.Defs
import Mathlib.Data.List.Basic
import Unitrace.Lib.Bisection

/-!
# The bounds of a value in a sorted vector

`LowerBound` and `UpperBound` bisect a vector of 64-bit numbers. The indices are
64-bit numbers too. An index that is not inside the vector ends the call with a
fault, and so does a loop that is not done after the given number of turns.
-/
namespace Unitrace.Utils.Bounds

open Unitrace.Lib.Bisection

/-- `std::vector<uint64_t>`: its bytes fill less than half of the address space. -/
abbrev Vector64 := { data : List UInt64 // 8 * data.length < 2 ^ 63 }

inductive Fault where
  | outOfBounds (index : UInt64)
  | running
  deriving DecidableEq

def lowerBoundLoop (data : List UInt64) (value : UInt64) :
    Nat → UInt64 → UInt64 → Except Fault UInt64
  | 0, _, _ => .error .running
  | turns + 1, start, stop =>
    if start < stop then
      let middle := (start + stop) / 2
      match data[middle.toNat]? with
      | none => .error (.outOfBounds middle)
      | some element =>
        if value ≤ element then lowerBoundLoop data value turns start middle
        else lowerBoundLoop data value turns (middle + 1) stop
    else .ok start

def upperBoundLoop (data : List UInt64) (value : UInt64) :
    Nat → UInt64 → UInt64 → Except Fault UInt64
  | 0, _, _ => .error .running
  | turns + 1, start, stop =>
    if start < stop then
      let middle := (start + stop) / 2
      match data[middle.toNat]? with
      | none => .error (.outOfBounds middle)
      | some element =>
        if value ≥ element then upperBoundLoop data value turns (middle + 1) stop
        else upperBoundLoop data value turns start middle
    else .ok start

/-- `LowerBound`, with at most `turns` tests of the loop condition. -/
def lowerBound (turns : Nat) (data : Vector64) (value : UInt64) : Except Fault UInt64 :=
  lowerBoundLoop data.val value turns 0 (UInt64.ofNat data.val.length)

/-- `UpperBound`, with at most `turns` tests of the loop condition. -/
def upperBound (turns : Nat) (data : Vector64) (value : UInt64) : Except Fault UInt64 :=
  upperBoundLoop data.val value turns 0 (UInt64.ofNat data.val.length)

/-! ## Both loops are bisections -/

/-- The loop of both functions: `below` says which half of the interval is kept. -/
def loop (below : UInt64 → Bool) (data : List UInt64) :
    Nat → UInt64 → UInt64 → Except Fault UInt64
  | 0, _, _ => .error .running
  | turns + 1, start, stop =>
    if start < stop then
      let middle := (start + stop) / 2
      match data[middle.toNat]? with
      | none => .error (.outOfBounds middle)
      | some element =>
        if below element then loop below data turns (middle + 1) stop
        else loop below data turns start middle
    else .ok start

theorem lowerBoundLoop_eq (data : List UInt64) (value : UInt64) (turns : Nat) (start stop : UInt64) :
    lowerBoundLoop data value turns start stop = loop (· < value) data turns start stop := by
  induction turns generalizing start stop with
  | zero => rfl
  | succ turns ih =>
    simp only [lowerBoundLoop, loop, decide_eq_true_eq, ih, ← UInt64.not_le, ite_not]

theorem upperBoundLoop_eq (data : List UInt64) (value : UInt64) (turns : Nat) (start stop : UInt64) :
    upperBoundLoop data value turns start stop = loop (· ≤ value) data turns start stop := by
  induction turns generalizing start stop with
  | zero => rfl
  | succ turns ih =>
    simp only [upperBoundLoop, loop, decide_eq_true_eq, ih, ge_iff_le]

/-- In a vector, the middle of two indices is computed without a wrap-around. -/
theorem middle_toNat {data : Vector64} {start stop : UInt64} (h : start < stop)
    (hstop : stop.toNat ≤ data.val.length) :
    ((start + stop) / 2).toNat = (start.toNat + stop.toNat) / 2 := by
  have hsize := data.property
  have hlt : start.toNat < stop.toNat := UInt64.lt_iff_toNat_lt.mp h
  have hsum : (start + stop).toNat = start.toNat + stop.toNat := by
    rw [UInt64.toNat_add]
    omega
  rw [UInt64.toNat_div, hsum]
  rfl

theorem succ_toNat {data : Vector64} {middle : UInt64} (h : middle.toNat < data.val.length) :
    (middle + 1).toNat = middle.toNat + 1 := by
  have hsize := data.property
  rw [UInt64.toNat_add]
  have hone : (1 : UInt64).toNat = 1 := rfl
  omega

/-- More turns than the interval has elements are enough, and no turn reads outside
of the vector. -/
theorem loop_eq_bisect (below : UInt64 → Bool) (data : Vector64) (turns : Nat)
    (start stop : UInt64) (hstop : stop.toNat ≤ data.val.length)
    (hturns : stop.toNat - start.toNat < turns) :
    loop below data.val turns start stop =
      .ok (UInt64.ofNat (bisect below data.val start.toNat stop.toNat)) := by
  induction turns generalizing start stop with
  | zero => exact absurd hturns (Nat.not_lt_zero _)
  | succ turns ih =>
    by_cases h : start < stop
    · have hlt : start.toNat < stop.toNat := UInt64.lt_iff_toNat_lt.mp h
      have hmiddle := middle_toNat h hstop
      obtain ⟨hm, hturn⟩ := bisect_turn (p := below) hlt hstop
      have hread : data.val[((start + stop) / 2).toNat]? =
          some data.val[(start.toNat + stop.toNat) / 2] := by
        rw [hmiddle, List.getElem?_eq_getElem hm]
      simp only [loop, if_pos h, hread, hturn]
      by_cases hb : below data.val[(start.toNat + stop.toNat) / 2] = true
      · have hnext : ((start + stop) / 2 + 1).toNat = (start.toNat + stop.toNat) / 2 + 1 := by
          rw [succ_toNat (hmiddle ▸ hm), hmiddle]
        rw [if_pos hb, if_pos hb, ← hnext]
        exact ih _ _ hstop (by omega)
      · rw [if_neg hb, if_neg hb, ← hmiddle]
        exact ih _ _ (by omega) (by omega)
    · have hle : ¬start.toNat < stop.toNat := mt UInt64.lt_iff_toNat_lt.mpr h
      rw [bisect_empty below data.val hle, UInt64.ofNat_toNat]
      simp only [loop, if_neg h]

theorem length_toNat (data : Vector64) : (UInt64.ofNat data.val.length).toNat = data.val.length := by
  have hsize := data.property
  rw [UInt64.toNat_ofNat']
  omega

/-- The place that the bisection of a whole vector ends with. -/
def place (below : UInt64 → Bool) (data : Vector64) : UInt64 :=
  UInt64.ofNat (bisect below data.val 0 data.val.length)

theorem loop_whole (below : UInt64 → Bool) (data : Vector64) {turns : Nat}
    (hturns : data.val.length < turns) :
    loop below data.val turns 0 (UInt64.ofNat data.val.length) = .ok (place below data) := by
  have hlength := length_toNat data
  rw [loop_eq_bisect below data turns 0 _ (by omega) (by omega), hlength]
  rfl

theorem lowerBound_eq (data : Vector64) (value : UInt64) {turns : Nat}
    (hturns : data.val.length < turns) :
    lowerBound turns data value = .ok (place (· < value) data) := by
  rw [lowerBound, lowerBoundLoop_eq, loop_whole _ data hturns]

theorem upperBound_eq (data : Vector64) (value : UInt64) {turns : Nat}
    (hturns : data.val.length < turns) :
    upperBound turns data value = .ok (place (· ≤ value) data) := by
  rw [upperBound, upperBoundLoop_eq, loop_whole _ data hturns]

theorem place_toNat (below : UInt64 → Bool) (data : Vector64) :
    (place below data).toNat = bisect below data.val 0 data.val.length := by
  have hsize := data.property
  have hle := (bisect_mem below data.val (Nat.zero_le data.val.length)).2
  rw [place, UInt64.toNat_ofNat']
  omega

theorem place_le (below : UInt64 → Bool) (data : Vector64) :
    (place below data).toNat ≤ data.val.length := by
  rw [place_toNat]
  exact (bisect_mem below data.val (Nat.zero_le _)).2

theorem place_of_cut {below : UInt64 → Bool} {data : Vector64} (hc : Cut below data.val) :
    (place below data).toNat = data.val.countP below := by
  rw [place_toNat, hc.bisect_length]

/-! ## Counting -/

theorem cut_lt {data : List UInt64} (hs : data.Pairwise (· ≤ ·)) (value : UInt64) :
    Cut (· < value) data :=
  hs.imp fun hab hb => by
    simp only [decide_eq_true_eq] at hb ⊢
    exact UInt64.lt_of_le_of_lt hab hb

theorem cut_le {data : List UInt64} (hs : data.Pairwise (· ≤ ·)) (value : UInt64) :
    Cut (· ≤ value) data :=
  hs.imp fun hab hb => by
    simp only [decide_eq_true_eq] at hb ⊢
    exact UInt64.le_trans hab hb

theorem countP_le_eq (data : List UInt64) (value : UInt64) :
    data.countP (· ≤ value) = data.countP (· < value) + data.count value := by
  induction data with
  | nil => rfl
  | cons a data ih =>
    rw [List.countP_cons, List.countP_cons, List.count_cons, ih]
    by_cases hlt : a < value
    · have hne : ¬a = value := UInt64.ne_of_lt hlt
      simp [hlt, UInt64.le_of_lt hlt, hne]
      omega
    · by_cases heq : a = value
      · subst heq
        simp [hlt]
        omega
      · have hle : ¬a ≤ value := fun h => hlt (UInt64.lt_of_le_of_ne h heq)
        simp [hlt, hle, heq]

/-- Both calls return a place in the vector. In a sorted vector it is the number of
the elements less than the value, and of those not greater than it. -/
theorem lowerBound_upperBound_count (data : Vector64) (value : UInt64) :
    ∃ lower upper : UInt64,
      (∀ turns, data.val.length < turns →
        lowerBound turns data value = .ok lower ∧ upperBound turns data value = .ok upper) ∧
      lower.toNat ≤ data.val.length ∧ upper.toNat ≤ data.val.length ∧
      (data.val.Pairwise (· ≤ ·) →
        lower.toNat = data.val.countP (· < value) ∧
        upper.toNat = data.val.countP (· ≤ value) ∧
        lower ≤ upper ∧
        (upper - lower).toNat = data.val.count value) := by
  refine ⟨place (· < value) data, place (· ≤ value) data, ?_, place_le _ data, place_le _ data, ?_⟩
  · intro turns hturns
    exact ⟨lowerBound_eq data value hturns, upperBound_eq data value hturns⟩
  · intro hs
    have hl := place_of_cut (cut_lt hs value)
    have hu := place_of_cut (cut_le hs value)
    have hcount := countP_le_eq data.val value
    have hle : place (· < value) data ≤ place (· ≤ value) data :=
      UInt64.le_iff_toNat_le.mpr (by omega)
    refine ⟨hl, hu, hle, ?_⟩
    rw [UInt64.toNat_sub_of_le _ _ hle]
    omega

/-- The two threes of a vector. -/
theorem lowerBound_upperBound_three : ∃ lower upper : UInt64,
    lowerBound 5 ⟨[1, 3, 3, 7], by decide⟩ 3 = .ok lower ∧
    upperBound 5 ⟨[1, 3, 3, 7], by decide⟩ 3 = .ok upper ∧
    lower ≤ upper ∧ (upper - lower).toNat = 2 := by
  obtain ⟨lower, upper, hresult, -, -, hsorted⟩ :=
    lowerBound_upperBound_count ⟨[1, 3, 3, 7], by decide⟩ 3
  obtain ⟨-, -, hle, hcount⟩ := hsorted (by decide)
  exact ⟨lower, upper, (hresult 5 (by decide)).1, (hresult 5 (by decide)).2, hle, hcount⟩

end Unitrace.Utils.Bounds
