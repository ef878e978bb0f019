import Mathlib.Data.List.Infix

/-!
# Finding and replacing text

`find`, slices and `replace` of Python, for any characters. An occurrence does not reach
over a character that it does not hold, so a text can be searched piece by piece.
-/
namespace Unitrace.Lib.FindText

variable {α : Type*}

/-- A negative index counts from the end. -/
def cut (s : List α) (i : Int) : Nat := if i < 0 then (s.length + i).toNat else i.toNat

/-- `s[:i]` -/
def sliceTo (s : List α) (i : Int) : List α := s.take (cut s i)

/-- `s[i:]` -/
def sliceFrom (s : List α) (i : Int) : List α := s.drop (cut s i)

section Code

variable [DecidableEq α]

/-- The first position of `sub`. -/
def indexOf (sub : List α) : List α → Option Nat
  | [] => if sub = [] then some 0 else none
  | c :: s => if sub <+: c :: s then some 0 else (indexOf sub s).map (· + 1)

/-- `s.find(sub, start)` for a `sub` that is not empty -/
def find (s sub : List α) (start : Nat) : Int :=
  match indexOf sub (s.drop start) with
  | some i => (start + i : Nat)
  | none => -1

/-- Replaces the occurrences of `old`; `skip` tells how much of an occurrence is left. -/
def replaceFrom (old new : List α) : Nat → List α → List α
  | _, [] => []
  | skip + 1, _ :: s => replaceFrom old new skip s
  | 0, c :: s =>
    if old <+: c :: s then new ++ replaceFrom old new (old.length - 1) s
    else c :: replaceFrom old new 0 s

/-- `s.replace(old, new)` for an `old` that is not empty -/
def replace (s old new : List α) : List α := replaceFrom old new 0 s

end Code

/-! ## Occurrences -/

/-- An occurrence without the character `y` stands before or behind it. -/
theorem occurrence_split {sub : List α} {y : α} (hy : y ∉ sub) {u v a b : List α}
    (h : u ++ sub ++ v = a ++ y :: b) :
    (∃ v', a = u ++ sub ++ v' ∧ v = v' ++ y :: b) ∨ ∃ u', u = a ++ y :: u' ∧ b = u' ++ sub ++ v := by
  rcases List.append_eq_append_iff.mp h with ⟨w, ha, hv⟩ | ⟨w, husub, hyb⟩
  · exact .inl ⟨w, ha, hv⟩
  · cases w with
    | nil =>
      rw [List.append_nil] at husub
      exact .inl ⟨[], by rw [husub, List.append_nil], hyb.symm⟩
    | cons d w =>
      obtain ⟨rfl, rfl⟩ := List.cons.inj hyb
      rcases List.append_eq_append_iff.mp husub with ⟨t, -, hsub⟩ | ⟨t, rfl, ht⟩
      · exact absurd (by rw [hsub]; exact List.mem_append_right t List.mem_cons_self) hy
      · cases t with
        | nil => exact absurd (by rw [List.nil_append] at ht; rw [← ht]; exact List.mem_cons_self) hy
        | cons e t =>
          obtain ⟨rfl, rfl⟩ := List.cons.inj ht
          exact .inr ⟨t, rfl, rfl⟩

theorem infix_append_cons {sub : List α} {y : α} (hy : y ∉ sub) {a b : List α} :
    sub <:+: a ++ y :: b ↔ sub <:+: a ∨ sub <:+: b := by
  constructor
  · intro h
    obtain ⟨u, v, huv⟩ := h
    rcases occurrence_split hy huv with ⟨v', ha, -⟩ | ⟨u', -, hb⟩
    · exact .inl ⟨u, v', ha.symm⟩
    · exact .inr ⟨u', v, hb.symm⟩
  · intro h
    rcases h with h | h
    · exact List.infix_append_of_infix_left h
    · exact List.infix_append_of_infix_right (List.infix_cons h)

theorem not_prefix_of_ne {x c : α} (hne : x ≠ c) (sub s : List α) : ¬ x :: sub <+: c :: s :=
  fun h => hne (List.cons_prefix_cons.mp h).1

/-- No occurrence starts with one of these characters. -/
theorem infix_append_left {x : α} {sub a s : List α} (hx : x ∉ a) (h : x :: sub <:+: a ++ s) :
    x :: sub <:+: s := by
  induction a with
  | nil => exact h
  | cons c a ih =>
    obtain ⟨hne, hrest⟩ := List.ne_and_not_mem_of_not_mem_cons hx
    exact ih hrest ((List.infix_cons_iff.mp h).resolve_left (not_prefix_of_ne hne _ _))

/-- A separator without characters of the text parts the occurrences. -/
theorem infix_append_append {sub sep : List α} (hne : sep ≠ []) (hsep : ∀ c ∈ sep, c ∉ sub)
    {a b : List α} : sub <:+: a ++ (sep ++ b) ↔ sub <:+: a ∨ sub <:+: b := by
  induction sep generalizing a with
  | nil => exact absurd rfl hne
  | cons y sep ih =>
    obtain ⟨hy, hrest⟩ := List.forall_mem_cons.mp hsep
    rw [List.cons_append, infix_append_cons hy]
    cases sep with
    | nil => rfl
    | cons z sep =>
      have hnext := ih (List.cons_ne_nil z sep) hrest (a := [])
      rw [List.nil_append] at hnext
      rw [hnext]
      constructor
      · intro h
        rcases h with h | h | h
        · exact .inl h
        · exact .inl (List.infix_nil.mp h ▸ List.nil_infix)
        · exact .inr h
      · intro h
        exact h.imp id .inr

theorem infix_intercalate {sub sep : List α} (hsub : sub ≠ []) (hne : sep ≠ [])
    (hsep : ∀ c ∈ sep, c ∉ sub) (parts : List (List α)) :
    sub <:+: List.intercalate sep parts ↔ ∃ part ∈ parts, sub <:+: part := by
  induction parts with
  | nil =>
    refine iff_of_false (fun h => hsub (List.infix_nil.mp h)) ?_
    intro h
    obtain ⟨part, hpart, -⟩ := h
    cases hpart
  | cons part parts ih =>
    rw [List.exists_mem_cons_iff, ← ih]
    cases parts with
    | nil =>
      have hnil : List.intercalate sep [] = [] := rfl
      have hone : List.intercalate sep [part] = part := List.append_nil part
      rw [hone, hnil, List.infix_nil, or_iff_left hsub]
    | cons next parts =>
      have hcons : List.intercalate sep (part :: next :: parts) =
          part ++ (sep ++ List.intercalate sep (next :: parts)) := by
        simp [List.intercalate]
      rw [hcons, infix_append_append hne hsep]

section Escapes

-- A character stays as it is or becomes an escape, which starts with `mark`.
variable {esc : α → List α} {x mark : α}
  (hesc : ∀ c, esc c = [c] ∨ ∃ t, esc c = mark :: t ∧ x ∉ t)

include hesc

theorem prefix_of_prefix_flatMap {sub s : List α} (hmark : mark ∉ sub) (h : sub <+: s.flatMap esc) :
    sub <+: s := by
  induction sub generalizing s with
  | nil => exact List.nil_prefix
  | cons d sub ih =>
    cases s with
    | nil => exact h
    | cons c s =>
      rw [List.flatMap_cons] at h
      rcases hesc c with hc | ⟨t, hc, -⟩
      · rw [hc, List.singleton_append, List.cons_prefix_cons] at h
        rw [List.cons_prefix_cons]
        exact ⟨h.1, ih (List.not_mem_of_not_mem_cons hmark) h.2⟩
      · rw [hc, List.cons_append, List.cons_prefix_cons] at h
        exact absurd (h.1 ▸ List.mem_cons_self) hmark

/-- Escapes neither hide a text nor make one. -/
theorem infix_flatMap_iff {sub : List α} (hmark : mark ∉ x :: sub)
    (hplain : ∀ c ∈ x :: sub, esc c = [c]) (s : List α) :
    x :: sub <:+: s.flatMap esc ↔ x :: sub <:+: s := by
  constructor
  · intro h
    induction s with
    | nil => exact h
    | cons c s ih =>
      rw [List.flatMap_cons] at h
      rcases hesc c with hc | ⟨t, hc, ht⟩
      · rw [hc, List.singleton_append, List.infix_cons_iff] at h
        rcases h with h | h
        · apply List.IsPrefix.isInfix
          apply prefix_of_prefix_flatMap hesc hmark
          rwa [List.flatMap_cons, hc]
        · exact List.infix_cons (ih h)
      · rw [hc] at h
        replace h : x :: sub <:+: [] ++ mark :: (t ++ s.flatMap esc) := h
        rw [infix_append_cons hmark] at h
        rcases h with h | h
        · exact absurd (List.infix_nil.mp h) (List.cons_ne_nil x sub)
        · exact List.infix_cons (ih (infix_append_left ht h))
  · intro h
    obtain ⟨u, v, rfl⟩ := h
    have hsame : (x :: sub).flatMap esc = x :: sub := by
      rw [List.flatMap_congr hplain, List.flatMap_singleton']
    rw [List.flatMap_append, List.flatMap_append, hsame]
    exact List.infix_append _ _ _

end Escapes

/-- Somewhere behind an occurrence of `sub` stands `x`. -/
def Behind (sub : List α) (x : α) (s : List α) : Prop := ∃ u v, s = u ++ sub ++ v ∧ x ∈ v

theorem Behind.occurs {sub : List α} {x : α} {s : List α} (h : Behind sub x s) : sub <:+: s := by
  obtain ⟨u, v, rfl, -⟩ := h
  exact List.infix_append u sub v

theorem Behind.mem {sub : List α} {x : α} {s : List α} (h : Behind sub x s) : x ∈ s := by
  obtain ⟨u, v, rfl, hx⟩ := h
  exact List.mem_append_right _ hx

theorem behind_append_cons {sub : List α} {y : α} (hy : y ∉ sub) {x : α} {a b : List α} :
    Behind sub x (a ++ y :: b) ↔ Behind sub x a ∨ (sub <:+: a ∧ x ∈ y :: b) ∨ Behind sub x b := by
  constructor
  · intro h
    obtain ⟨u, v, huv, hx⟩ := h
    rcases occurrence_split hy huv.symm with ⟨v', ha, rfl⟩ | ⟨u', -, hb⟩
    · rcases List.mem_append.mp hx with hx | hx
      · exact .inl ⟨u, v', ha, hx⟩
      · exact .inr (.inl ⟨⟨u, v', ha.symm⟩, hx⟩)
    · exact .inr (.inr ⟨u', v, hb, hx⟩)
  · intro h
    rcases h with ⟨u, v, rfl, hx⟩ | ⟨⟨u, v, rfl⟩, hx⟩ | ⟨u, v, rfl, hx⟩
    · exact ⟨u, v ++ y :: b, List.append_assoc .., List.mem_append_left _ hx⟩
    · exact ⟨u, v ++ y :: b, List.append_assoc .., List.mem_append_right _ hx⟩
    · exact ⟨a ++ y :: u, v, by simp only [List.append_assoc, List.cons_append], hx⟩

/-! ## `find` -/

variable [DecidableEq α]

/-- The first occurrence is found. -/
theorem exists_first {sub s : List α} (h : sub <:+: s) : ∃ u v, s = u ++ sub ++ v ∧
    indexOf sub s = some u.length ∧ ∀ u' v', s = u' ++ sub ++ v' → u.length ≤ u'.length := by
  induction s with
  | nil =>
    obtain rfl := List.infix_nil.mp h
    exact ⟨[], [], rfl, rfl, fun u' _ _ => Nat.zero_le _⟩
  | cons c s ih =>
    by_cases hstart : sub <+: c :: s
    · obtain ⟨v, hv⟩ := hstart
      exact ⟨[], v, hv.symm, if_pos ⟨v, hv⟩, fun u' _ _ => Nat.zero_le _⟩
    · obtain ⟨u, v, hs, hindex, hfirst⟩ := ih ((List.infix_cons_iff.mp h).resolve_left hstart)
      refine ⟨c :: u, v, by rw [hs]; rfl, ?_, ?_⟩
      · rw [indexOf, if_neg hstart, hindex]
        rfl
      · intro u' v' h'
        cases u' with
        | nil => exact absurd ⟨v', h'.symm⟩ hstart
        | cons d u' => exact Nat.succ_le_succ (hfirst u' v' (List.cons.inj h').2)

theorem prefix_of_indexOf {sub s : List α} {i : Nat} (h : indexOf sub s = some i) :
    sub <+: s.drop i := by
  induction s generalizing i with
  | nil =>
    rw [indexOf] at h
    split at h
    · next hempty =>
      rw [hempty]
      exact List.nil_prefix
    · cases h
  | cons c s ih =>
    rw [indexOf] at h
    split at h
    · next hstart =>
      cases h
      exact hstart
    · obtain ⟨j, hj, rfl⟩ := Option.map_eq_some_iff.mp h
      exact ih hj

/-- What follows the text does not matter for an occurrence in it. -/
theorem indexOf_append {sub s : List α} (h : sub <:+: s) (more : List α) :
    indexOf sub (s ++ more) = indexOf sub s := by
  induction s with
  | nil =>
    obtain rfl := List.infix_nil.mp h
    cases more with
    | nil => rfl
    | cons c more => exact if_pos (List.nil_prefix)
  | cons c s ih =>
    rw [List.cons_append, indexOf, indexOf]
    by_cases hstart : sub <+: c :: s
    · have hmore : sub <+: c :: (s ++ more) := hstart.trans (List.prefix_append (c :: s) more)
      rw [if_pos hstart, if_pos hmore]
    · have hlong : ¬ sub <+: c :: (s ++ more) := by
        intro hmore
        exact hstart (List.prefix_of_prefix_length_le hmore (List.prefix_append (c :: s) more)
          h.length_le)
      rw [if_neg hstart, if_neg hlong, ih ((List.infix_cons_iff.mp h).resolve_left hstart)]

theorem indexOf_singleton {x : α} {a : List α} (hx : x ∉ a) (b : List α) :
    indexOf [x] (a ++ x :: b) = some a.length := by
  induction a with
  | nil => exact if_pos ⟨b, rfl⟩
  | cons c a ih =>
    obtain ⟨hne, hrest⟩ := List.ne_and_not_mem_of_not_mem_cons hx
    rw [List.cons_append, indexOf, if_neg (not_prefix_of_ne hne _ _), ih hrest]
    rfl

/-! ## `replace` -/

section Replace

variable {old : List α} (new : List α)

theorem replaceFrom_append_cons {y : α} (hy : y ∉ old) (hne : old ≠ []) (a b : List α) {skip : Nat}
    (hskip : skip ≤ a.length) :
    replaceFrom old new skip (a ++ y :: b) =
      replaceFrom old new skip a ++ y :: replaceFrom old new 0 b := by
  induction a generalizing skip with
  | nil =>
    obtain rfl : skip = 0 := Nat.le_zero.mp hskip
    obtain ⟨d, old, rfl⟩ := List.exists_cons_of_ne_nil hne
    exact if_neg (not_prefix_of_ne (List.ne_and_not_mem_of_not_mem_cons hy).1.symm _ _)
  | cons c a ih =>
    cases skip with
    | succ skip => exact ih (Nat.le_of_succ_le_succ hskip)
    | zero =>
      rw [List.cons_append, replaceFrom, replaceFrom]
      have hiff : old <+: c :: (a ++ y :: b) ↔ old <+: c :: a := by
        constructor
        · intro h
          obtain ⟨v, hv⟩ := h
          rcases occurrence_split (u := []) (a := c :: a) hy hv with ⟨v', ha, -⟩ | ⟨u', hu, -⟩
          · exact ⟨v', ha.symm⟩
          · cases hu
        · intro h
          exact h.trans (List.prefix_append (c :: a) (y :: b))
      by_cases hstart : old <+: c :: a
      · have hlen : old.length - 1 ≤ a.length := Nat.pred_le_pred hstart.length_le
        rw [if_pos (hiff.mpr hstart), if_pos hstart, ih hlen, List.append_assoc]
      · rw [if_neg (mt hiff.mp hstart), if_neg hstart, ih (Nat.zero_le _)]
        rfl

theorem replace_append_cons {y : α} (hy : y ∉ old) (hne : old ≠ []) (a b : List α) :
    replace (a ++ y :: b) old new = replace a old new ++ y :: replace b old new :=
  replaceFrom_append_cons new hy hne a b (Nat.zero_le _)

theorem replace_eq_self {s : List α} (h : ¬ old <:+: s) : replace s old new = s := by
  induction s with
  | nil => rfl
  | cons c s ih =>
    rw [List.infix_cons_iff, not_or] at h
    rw [replace, replaceFrom, if_neg h.1]
    exact congrArg (c :: ·) (ih h.2)

/-- No occurrence starts with one of these characters. -/
theorem replace_append_left {c : α} {rest a : List α} (hc : c ∉ a) (s : List α) :
    replace (a ++ s) (c :: rest) new = a ++ replace s (c :: rest) new := by
  induction a with
  | nil => rfl
  | cons d a ih =>
    obtain ⟨hne, hrest⟩ := List.ne_and_not_mem_of_not_mem_cons hc
    rw [List.cons_append, replace, replaceFrom, if_neg (not_prefix_of_ne hne _ _)]
    exact congrArg (d :: ·) (ih hrest)

theorem replaceFrom_skip (a s : List α) :
    replaceFrom old new a.length (a ++ s) = replaceFrom old new 0 s := by
  induction a with
  | nil => rfl
  | cons c a ih => exact ih

theorem replace_occurrence {c : α} {rest : List α} (s : List α) :
    replace (c :: rest ++ s) (c :: rest) new = new ++ replace s (c :: rest) new := by
  have hstart : c :: rest <+: c :: (rest ++ s) := List.prefix_append (c :: rest) s
  rw [replace, List.cons_append, replaceFrom, if_pos hstart]
  exact congrArg (new ++ ·) (replaceFrom_skip new rest s)

end Replace

end Unitrace.Lib.FindText
