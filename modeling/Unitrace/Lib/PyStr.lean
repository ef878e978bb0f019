import Mathlib.Data.List.Basic
import Mathlib.Data.List.TakeWhile
import Unitrace.Lib.Text

/-!
# Python strings

The functions on strings that the scripts use, on lists of characters, and the
exceptions that end a script.
-/
namespace Unitrace.Lib.PyStr

open Unitrace.Lib.Text

inductive PyErr where
  | attributeError | csvError | indexError | keyError | typeError | unicodeDecodeError | valueError
  deriving DecidableEq

/-- The parts of a computation that returns. -/
theorem bind_eq_ok {ε α β : Type} {x : Except ε α} {f : α → Except ε β} {result : β}
    (h : x >>= f = .ok result) : ∃ a, x = .ok a ∧ f a = .ok result := by
  cases x with
  | error e => cases h
  | ok a => exact ⟨a, rfl, h⟩

theorem map_eq_ok {α β : Type} {x : Except PyErr α} {f : α → β} {result : β}
    (h : x.map f = .ok result) : ∃ a, x = .ok a ∧ f a = result := by
  cases x with
  | error e => cases h
  | ok a => exact ⟨a, rfl, Except.ok.inj h⟩

/-- Each result of a list of computations that return is that of one of them. -/
theorem mem_mapM {α β : Type} {f : α → Except PyErr β} {l : List α} {results : List β}
    (h : l.mapM f = .ok results) : ∀ b ∈ results, ∃ a ∈ l, f a = .ok b := by
  induction l generalizing results with
  | nil =>
    cases h
    simp
  | cons a l ih =>
    rw [List.mapM_cons] at h
    obtain ⟨b, hb, h⟩ := bind_eq_ok h
    obtain ⟨rest, hrest, h⟩ := bind_eq_ok h
    cases h
    intro b' hb'
    rcases List.mem_cons.mp hb' with rfl | hb'
    · exact ⟨a, List.mem_cons_self, hb⟩
    · obtain ⟨a', ha', hf⟩ := ih hrest b' hb'
      exact ⟨a', List.mem_cons_of_mem _ ha', hf⟩

/-- What every turn keeps, the loop keeps. -/
theorem foldlM_invariant {α : Type*} {σ : Type} {step : σ → α → Except PyErr σ} {P : σ → Prop}
    (hstep : ∀ s a s', P s → step s a = .ok s' → P s') {items : List α} {s s' : σ} (hs : P s)
    (h : items.foldlM step s = .ok s') : P s' := by
  induction items generalizing s with
  | nil =>
    obtain rfl := Except.ok.inj h
    exact hs
  | cons a items ih =>
    rw [List.foldlM_cons] at h
    obtain ⟨t, ht, h⟩ := bind_eq_ok h
    exact ih (hstep s a t hs ht) h

/-- A loop returns if no turn raises an exception, whatever the turns before it have done. -/
theorem exists_foldlM_iff {ε α σ : Type} {step : σ → α → Except ε σ} {Returns : α → Prop}
    (hstep : ∀ s a, (∃ s', step s a = .ok s') ↔ Returns a) (items : List α) (s : σ) :
    (∃ s', items.foldlM step s = .ok s') ↔ ∀ a ∈ items, Returns a := by
  induction items generalizing s with
  | nil => exact iff_of_true ⟨s, rfl⟩ fun a ha => absurd ha List.not_mem_nil
  | cons a items ih =>
    rw [List.forall_mem_cons, List.foldlM_cons, ← hstep s a]
    constructor
    · intro h
      obtain ⟨s', h⟩ := h
      obtain ⟨t, ht, h⟩ := bind_eq_ok h
      exact ⟨⟨t, ht⟩, (ih t).mp ⟨s', h⟩⟩
    · intro h
      obtain ⟨⟨t, ht⟩, hitems⟩ := h
      rw [ht]
      exact (ih t).mpr hitems

/-- `str.isspace` of one character. -/
def isSpace (c : Char) : Bool :=
  let n := c.toNat
  (9 ≤ n && n ≤ 13) || (28 ≤ n && n ≤ 32) || n = 0x85 || n = 0xa0 || n = 0x1680 ||
    (0x2000 ≤ n && n ≤ 0x200a) || n = 0x2028 || n = 0x2029 || n = 0x202f || n = 0x205f || n = 0x3000

def lstrip (s : Str) : Str := s.dropWhile isSpace

def strip (s : Str) : Str := (lstrip (lstrip s).reverse).reverse

/-- Reading a text file turns every line ending into a newline. -/
def universalNewlines : Str → Str
  | '\r' :: '\n' :: rest => '\n' :: universalNewlines rest
  | '\r' :: rest => '\n' :: universalNewlines rest
  | c :: rest => c :: universalNewlines rest
  | [] => []

/-- The lines of a text, each with its newline. -/
def lines : Str → List Str
  | [] => []
  | c :: rest =>
    if c = '\n' then [c] :: lines rest
    else
      match lines rest with
      | [] => [[c]]
      | line :: more => (c :: line) :: more

/-- The text after the last occurrence of `sep`, as `rpartition` gives it. -/
def afterLast (sep : Char) (s : Str) : Str := (s.reverse.takeWhile (· ≠ sep)).reverse

/-- The text before the first occurrence of `sep`. -/
def before (sep : Char) (s : Str) : Str := s.takeWhile (· ≠ sep)

/-- Splits at the occurrences of `sep`; `part` is the part so far, reversed, and `skip`
tells how much of an occurrence is left. -/
def splitFrom (sep : Str) : Nat → Str → Str → List Str
  | _, part, [] => [part.reverse]
  | skip + 1, part, _ :: rest => splitFrom sep skip part rest
  | 0, part, c :: rest =>
    if sep <+: c :: rest then part.reverse :: splitFrom sep (sep.length - 1) [] rest
    else splitFrom sep 0 (c :: part) rest

/-- `s.split(sep)` for a separator of several characters. -/
def splitStr (sep s : Str) : List Str := splitFrom sep 0 [] s

example : splitStr (chars "ab") (chars "xabyabab") = [['x'], ['y'], [], []] := by decide +kernel

/-- `l[i]` for a literal index. -/
def nth {α : Type*} (l : List α) (i : Nat) : Except PyErr α :=
  match l[i]? with
  | some a => .ok a
  | none => .error .indexError

/-- The code points of the digit zero in the scripts of Unicode. -/
def digitZeros : List Nat :=
  [0x30, 0x660, 0x6f0, 0x7c0, 0x966, 0x9e6, 0xa66, 0xae6, 0xb66, 0xbe6, 0xc66, 0xce6, 0xd66, 0xde6,
   0xe50, 0xed0, 0xf20, 0x1040, 0x1090, 0x17e0, 0x1810, 0x1946, 0x19d0, 0x1a80, 0x1a90, 0x1b50,
   0x1bb0, 0x1c40, 0x1c50, 0xa620, 0xa8d0, 0xa900, 0xa9d0, 0xa9f0, 0xaa50, 0xabf0, 0xff10, 0x104a0,
   0x10d30, 0x11066, 0x110f0, 0x11136, 0x111d0, 0x112f0, 0x11450, 0x114d0, 0x11650, 0x116c0,
   0x11730, 0x118e0, 0x11950, 0x11c50, 0x11d50, 0x11da0, 0x11f50, 0x16a60, 0x16ac0, 0x16b50,
   0x1d7ce, 0x1d7d8, 0x1d7e2, 0x1d7ec, 0x1d7f6, 0x1e140, 0x1e2f0, 0x1e4f0, 0x1e950, 0x1fbf0]

def digitValue (c : Char) : Option Nat :=
  (digitZeros.find? fun z => z ≤ c.toNat && c.toNat < z + 10).map fun z => c.toNat - z

/-- Digits with single underscores between them. -/
def digitRun (value : Nat) (afterDigit : Bool) : Str → Option Nat
  | [] => if afterDigit then some value else none
  | c :: rest =>
    if c = '_' then if afterDigit then digitRun value false rest else none
    else
      match digitValue c with
      | some d => digitRun (value * 10 + d) true rest
      | none => none

/-- `int(s)`; it has no result where Python raises `ValueError`. -/
def parseInt (s : Str) : Option Int :=
  match strip s with
  | '-' :: rest => (digitRun 0 false rest).map fun n => -(n : Int)
  | '+' :: rest => (digitRun 0 false rest).map fun n => (n : Int)
  | rest => (digitRun 0 false rest).map fun n => (n : Int)

example : parseInt (chars " -1_000\n") = some (-1000) := by decide +kernel

/-! ## Lines -/

theorem universalNewlines_of_notMem {s : Str} (h : '\r' ∉ s) : universalNewlines s = s := by
  induction s with
  | nil => rfl
  | cons c s ih =>
    have hc : c ≠ '\r' := fun he => h (he ▸ List.mem_cons_self)
    rw [universalNewlines, ih (List.not_mem_of_not_mem_cons h)]
    · intro _ hs
      exact absurd hs hc
    · exact hc

theorem lines_append {line : Str} (h : '\n' ∉ line) (rest : Str) :
    lines (line ++ '\n' :: rest) = (line ++ ['\n']) :: lines rest := by
  induction line with
  | nil => rfl
  | cons c line ih =>
    have hc : c ≠ '\n' := fun he => h (he ▸ List.mem_cons_self)
    rw [List.cons_append, lines, if_neg hc, ih (List.not_mem_of_not_mem_cons h)]
    rfl

/-- A line with its newline, and no other line ending in it. -/
def IsLine (line : Str) : Prop := ∃ body, line = body ++ ['\n'] ∧ '\n' ∉ body ∧ '\r' ∉ body

/-- A file of such lines is read as these lines. -/
theorem lines_flatten {ls : List Str} (h : ∀ line ∈ ls, IsLine line) :
    lines (universalNewlines ls.flatten) = ls := by
  have hreturn : '\r' ∉ ls.flatten := by
    intro hmem
    obtain ⟨line, hline, hc⟩ := List.mem_flatten.mp hmem
    obtain ⟨body, rfl, -, hbody⟩ := h line hline
    rcases List.mem_append.mp hc with hc | hc
    · exact hbody hc
    · exact absurd (List.mem_singleton.mp hc) (by decide)
  rw [universalNewlines_of_notMem hreturn]
  clear hreturn
  induction ls with
  | nil => rfl
  | cons line ls ih =>
    obtain ⟨body, rfl, hbody, -⟩ := h line List.mem_cons_self
    rw [List.flatten_cons, List.append_assoc, List.singleton_append, lines_append hbody,
      ih fun l hl => h l (List.mem_cons_of_mem _ hl)]

/-- Lines that a file is read as: all but the last one end in a newline. -/
def AreLines : List Str → Prop
  | [] => True
  | [line] => line ≠ [] ∧ '\n' ∉ line.dropLast
  | line :: more => (∃ body, line = body ++ ['\n'] ∧ '\n' ∉ body) ∧ AreLines more

theorem lines_of_notMem {s : Str} (hne : s ≠ []) (h : '\n' ∉ s) : lines s = [s] := by
  induction s with
  | nil => exact absurd rfl hne
  | cons c s ih =>
    have hc : c ≠ '\n' := fun he => h (he ▸ List.mem_cons_self)
    rw [lines, if_neg hc]
    cases s with
    | nil => rfl
    | cons d s => rw [ih (List.cons_ne_nil d s) (List.not_mem_of_not_mem_cons h)]

theorem areLines_lines (s : Str) : AreLines (lines s) := by
  induction s with
  | nil => trivial
  | cons c s ih =>
    rw [lines]
    split
    · rename_i hc
      cases hs : lines s with
      | nil => exact ⟨List.cons_ne_nil c [], List.not_mem_nil⟩
      | cons line more =>
        rw [hs] at ih
        exact ⟨⟨[], by rw [hc, List.nil_append], List.not_mem_nil⟩, ih⟩
    · rename_i hc
      cases hs : lines s with
      | nil => exact ⟨List.cons_ne_nil c [], List.not_mem_nil⟩
      | cons line more =>
        rw [hs] at ih
        cases more with
        | nil =>
          obtain ⟨hne, hline⟩ := ih
          refine ⟨List.cons_ne_nil c line, ?_⟩
          rw [List.dropLast_cons_of_ne_nil hne, List.mem_cons, not_or]
          exact ⟨Ne.symm hc, hline⟩
        | cons next more =>
          obtain ⟨⟨body, rfl, hbody⟩, hmore⟩ := ih
          refine ⟨⟨c :: body, rfl, ?_⟩, hmore⟩
          rw [List.mem_cons, not_or]
          exact ⟨Ne.symm hc, hbody⟩

/-- Lines that are written one after the other are read back. -/
theorem lines_of_areLines {ls : List Str} (h : AreLines ls) : lines ls.flatten = ls := by
  induction ls with
  | nil => rfl
  | cons line more ih =>
    cases more with
    | nil =>
      obtain ⟨hne, hline⟩ := h
      rw [List.flatten_singleton]
      obtain ⟨body, c, rfl⟩ := (List.eq_nil_or_concat line).resolve_left hne
      rw [List.concat_eq_append, List.dropLast_concat] at hline
      rw [List.concat_eq_append]
      by_cases hc : c = '\n'
      · rw [hc, lines_append hline]
        rfl
      · apply lines_of_notMem (by simp)
        rw [List.mem_append, List.mem_singleton, not_or]
        exact ⟨hline, Ne.symm hc⟩
    | cons next more =>
      obtain ⟨⟨body, rfl, hbody⟩, hmore⟩ := h
      rw [List.flatten_cons, List.append_assoc, List.singleton_append, lines_append hbody, ih hmore]

/-- Text without a newline in front of lines keeps them lines. -/
theorem areLines_of_forall₂ {ls ls' : List Str}
    (h : List.Forall₂ (fun line line' => ∃ p, '\n' ∉ p ∧ line' = p ++ line) ls ls')
    (hls : AreLines ls) : AreLines ls' := by
  induction h with
  | nil => trivial
  | cons hline hmore ih =>
    obtain ⟨p, hp, rfl⟩ := hline
    cases hmore with
    | nil =>
      obtain ⟨hne, hdrop⟩ := hls
      refine ⟨by simp [hne], ?_⟩
      rw [List.dropLast_append_of_ne_nil hne, List.mem_append, not_or]
      exact ⟨hp, hdrop⟩
    | cons hnext hmore =>
      obtain ⟨⟨body, rfl, hbody⟩, hls⟩ := hls
      refine ⟨⟨p ++ body, (List.append_assoc _ _ _).symm, ?_⟩, ih hls⟩
      rw [List.mem_append, not_or]
      exact ⟨hp, hbody⟩

theorem notMem_flatten {c : Char} {ls ls' : List Str}
    (h : List.Forall₂ (fun line line' => ∃ p, c ∉ p ∧ line' = p ++ line) ls ls')
    (hls : c ∉ ls.flatten) : c ∉ ls'.flatten := by
  induction h with
  | nil => exact hls
  | cons hline hmore ih =>
    obtain ⟨p, hp, rfl⟩ := hline
    rw [List.flatten_cons, List.mem_append, not_or] at hls ⊢
    refine ⟨?_, ih hls.2⟩
    rw [List.mem_append, not_or]
    exact ⟨hp, hls.1⟩

theorem flatten_lines (s : Str) : (lines s).flatten = s := by
  induction s with
  | nil => rfl
  | cons c s ih =>
    rw [lines]
    split
    · rw [List.flatten_cons, ih]
      rfl
    · cases hs : lines s with
      | nil =>
        rw [hs] at ih
        rw [← ih]
        rfl
      | cons line more =>
        rw [hs, List.flatten_cons] at ih
        rw [List.flatten_cons, List.cons_append, ih]

theorem notMem_universalNewlines (s : Str) : '\r' ∉ universalNewlines s := by
  fun_induction universalNewlines s with
  | case1 rest ih => simpa using ih
  | case2 rest hrest ih => simpa using ih
  | case3 c rest hpair hreturn ih =>
    rw [List.mem_cons, not_or]
    exact ⟨fun h => hreturn h.symm, ih⟩
  | case4 => exact List.not_mem_nil

/-! ## Blanks -/

theorem lstrip_spaces (n : Nat) (s : Str) : lstrip (List.replicate n ' ' ++ s) = lstrip s := by
  have hspace : isSpace ' ' = true := rfl
  induction n with
  | zero => rfl
  | succ n ih => rwa [List.replicate_succ, List.cons_append, lstrip, List.dropWhile_cons_of_pos hspace]

theorem strip_eq_self {s : Str} (h : ∀ c ∈ s, isSpace c = false) : strip s = s := by
  have hl (t : Str) (ht : ∀ c ∈ t, isSpace c = false) : lstrip t = t := by
    cases t with
    | nil => rfl
    | cons c t => exact List.dropWhile_cons_of_neg (by simp [ht c List.mem_cons_self])
  rw [strip, hl s h, hl s.reverse (fun c hc => h c (List.mem_reverse.mp hc)), List.reverse_reverse]

theorem mem_lstrip {s : Str} {c : Char} (hc : c ∈ s) (hspace : isSpace c = false) : c ∈ lstrip s := by
  rw [← List.takeWhile_append_dropWhile (p := isSpace) (l := s)] at hc
  rcases List.mem_append.mp hc with h | h
  · rw [List.mem_takeWhile_imp h] at hspace
    cases hspace
  · exact h

/-- A line with a visible character is not blank. -/
theorem strip_ne_nil {s : Str} {c : Char} (hc : c ∈ s) (hspace : isSpace c = false) : strip s ≠ [] := by
  have h := mem_lstrip (List.mem_reverse.mpr (mem_lstrip hc hspace)) hspace
  exact List.ne_nil_of_mem (List.mem_reverse.mpr h)

/-! ## Numerals -/

theorem digit_bounds {c : Char} (h : c.isDigit = true) : 48 ≤ c.toNat ∧ c.toNat ≤ 57 := by
  simp only [Char.isDigit, Bool.and_eq_true, decide_eq_true_eq, ge_iff_le,
    UInt32.le_iff_toNat_le] at h
  exact h

theorem isSpace_of_isDigit {c : Char} (h : c.isDigit = true) : isSpace c = false := by
  obtain ⟨hlo, hhi⟩ := digit_bounds h
  simp [isSpace]
  omega

theorem digitValue_of_isDigit {c : Char} (h : c.isDigit = true) :
    digitValue c = some (c.toNat - 48) := by
  obtain ⟨hlo, hhi⟩ := digit_bounds h
  rw [digitValue, digitZeros, List.find?_cons_of_pos (by simp; omega)]
  rfl

theorem digitRun_cons (value : Nat) (afterDigit : Bool) {c : Char} (hc : c.isDigit = true)
    (rest : Str) :
    digitRun value afterDigit (c :: rest) = digitRun (10 * value + (c.toNat - 48)) true rest := by
  have hne : c ≠ '_' := by
    intro he
    rw [he] at hc
    cases hc
  rw [digitRun, if_neg hne, digitValue_of_isDigit hc, Nat.mul_comm]

theorem digitRun_digits (value : Nat) {s : Str} (h : ∀ c ∈ s, c.isDigit = true) :
    digitRun value true s = some (Nat.ofDigitChars 10 s value) := by
  induction s generalizing value with
  | nil => rfl
  | cons c s ih =>
    rw [digitRun_cons value true (h c List.mem_cons_self),
      ih _ fun d hd => h d (List.mem_cons_of_mem c hd), Nat.ofDigitChars_cons]
    rfl

theorem parseInt_decimal (n : Nat) : parseInt (decimal n) = some n := by
  have hdigits : ∀ c ∈ decimal n, c.isDigit = true := fun c hc => isDigit_of_mem hc
  have hstrip : strip (decimal n) = decimal n :=
    strip_eq_self fun c hc => isSpace_of_isDigit (hdigits c hc)
  have hvalue : digitRun 0 false (decimal n) = some n := by
    have hofDigits : Nat.ofDigitChars 10 (decimal n) 0 = n := Nat.ofDigitChars_ten_toDigits
    cases hn : decimal n with
    | nil => exact absurd hn (decimal_ne_nil n)
    | cons c rest =>
      rw [hn] at hdigits hofDigits
      rw [digitRun_cons 0 false (hdigits c List.mem_cons_self), ← digitRun_cons 0 true
        (hdigits c List.mem_cons_self), digitRun_digits 0 hdigits, hofDigits]
  rw [parseInt, hstrip]
  split
  · rename_i rest hn
    exact absurd (hdigits '-' (hn ▸ List.mem_cons_self)) (by decide)
  · rename_i rest hn
    exact absurd (hdigits '+' (hn ▸ List.mem_cons_self)) (by decide)
  · rw [hvalue]
    rfl

end Unitrace.Lib.PyStr
