import Mathlib.Data.List.Basic

/-!
# Bisection

Where the elements that pass a test all stand before those that fail it, the
number of elements that pass is also the place of the cut between the two. A
bisection halves an interval around that place until the interval is empty.
-/
namespace Unitrace.Lib.Bisection

variable {α : Type*} {p : α → Bool} {l : List α}

def bisect (p : α → Bool) (l : List α) (start stop : Nat) : Nat :=
  if h : start < stop ∧ stop ≤ l.length then
    if p l[(start + stop) / 2] then bisect p l ((start + stop) / 2 + 1) stop
    else bisect p l start ((start + stop) / 2)
  else start
termination_by stop - start

/-- The elements that pass the test stand before those that fail it. -/
def Cut (p : α → Bool) (l : List α) : Prop := l.Pairwise fun a b => p b = true → p a = true

theorem Cut.lt_countP_iff (hl : Cut p l) {i : Nat} (hi : i < l.length) :
    i < l.countP p ↔ p l[i] = true := by
  induction l generalizing i with
  | nil => exact absurd hi (Nat.not_lt_zero i)
  | cons a l ih =>
    obtain ⟨ha, htail⟩ := List.pairwise_cons.mp hl
    by_cases hp : p a = true
    · rw [List.countP_cons_of_pos hp]
      cases i with
      | zero => simpa using hp
      | succ i =>
        rw [List.getElem_cons_succ, ← ih htail (Nat.lt_of_succ_lt_succ hi)]
        omega
    · have hnone : ∀ b ∈ a :: l, ¬p b = true := by
        intro b hb hpb
        rcases List.mem_cons.mp hb with rfl | hb
        · exact hp hpb
        · exact hp (ha b hb hpb)
      rw [List.countP_eq_zero.mpr hnone]
      exact iff_of_false (Nat.not_lt_zero i) (hnone _ (List.getElem_mem hi))

/-- One turn of the bisection, on an interval that is not empty. -/
theorem bisect_turn {start stop : Nat} (h : start < stop) (hstop : stop ≤ l.length) :
    ∃ hm : (start + stop) / 2 < l.length,
      bisect p l start stop =
        if p l[(start + stop) / 2] then bisect p l ((start + stop) / 2 + 1) stop
        else bisect p l start ((start + stop) / 2) := by
  refine ⟨by omega, ?_⟩
  rw [bisect, dif_pos ⟨h, hstop⟩]

theorem bisect_empty (p : α → Bool) (l : List α) {start stop : Nat} (h : ¬start < stop) :
    bisect p l start stop = start := by
  rw [bisect, dif_neg (fun hs => h hs.1)]

theorem bisect_mem (p : α → Bool) (l : List α) {start stop : Nat} (h : start ≤ stop) :
    start ≤ bisect p l start stop ∧ bisect p l start stop ≤ stop := by
  fun_induction bisect p l start stop with
  | case1 start stop hs hp ih =>
    have := ih (by omega)
    omega
  | case2 start stop hs hp ih =>
    have := ih (by omega)
    omega
  | case3 start stop hs => exact ⟨Nat.le_refl _, h⟩

/-- The number of elements that pass stays within the interval, so it is what the
bisection ends with. -/
theorem Cut.bisect_eq_countP (hl : Cut p l) {start stop : Nat} (hstop : stop ≤ l.length)
    (hleft : start ≤ l.countP p) (hright : l.countP p ≤ stop) :
    bisect p l start stop = l.countP p := by
  fun_induction bisect p l start stop with
  | case1 start stop hs hp ih =>
    have hmiddle := (hl.lt_countP_iff (i := (start + stop) / 2) (by omega)).mpr hp
    exact ih hstop hmiddle hright
  | case2 start stop hs hp ih =>
    have hmiddle := mt (hl.lt_countP_iff (i := (start + stop) / 2) (by omega)).mp hp
    exact ih (by omega) hleft (by omega)
  | case3 start stop hs => omega

/-- A whole list. -/
theorem Cut.bisect_length (hl : Cut p l) : bisect p l 0 l.length = l.countP p :=
  hl.bisect_eq_countP (Nat.le_refl _) (Nat.zero_le _) List.countP_le_length

end Unitrace.Lib.Bisection
