import Mathlib.Data.List.Chain
import Unitrace.Lib.Dict
import Unitrace.Lib.Json

/-!
# Python strings in JSON

A Python string is a list of code points, surrogates among them. In a string that was
read from a JSON text no high surrogate stands directly before a low one: the reader
joins such a pair. `escape` is what `json.dumps` puts between quotes, in ASCII.
-/
namespace Unitrace.Lib.PyUnicode

open Unitrace.Lib.Text Unitrace.Lib.Json

abbrev CodePoint := Fin 0x110000

abbrev IsHigh (u : Nat) : Prop := 0xD800 ≤ u ∧ u < 0xDC00

abbrev IsLow (u : Nat) : Prop := 0xDC00 ≤ u ∧ u < 0xE000

abbrev Unpaired (a b : CodePoint) : Prop := ¬ (IsHigh a.val ∧ IsLow b.val)

abbrev Unicode := { s : List CodePoint // s.IsChain Unpaired }

/-! ## Joining surrogates -/

def combine (high low : CodePoint) : CodePoint :=
  Fin.ofNat 0x110000 (0x10000 + (high.val - 0xD800) * 0x400 + (low.val - 0xDC00))

def joinPairs : List CodePoint → List CodePoint
  | [] => []
  | [u] => [u]
  | high :: low :: rest =>
    if IsHigh high.val ∧ IsLow low.val then combine high low :: joinPairs rest
    else high :: joinPairs (low :: rest)

theorem combine_val {high low : CodePoint} (h : IsHigh high.val ∧ IsLow low.val) :
    (combine high low).val = 0x10000 + (high.val - 0xD800) * 0x400 + (low.val - 0xDC00) := by
  show _ % 0x110000 = _
  omega

theorem head_joinPairs {u v : CodePoint} {rest : List CodePoint}
    (h : v ∈ (joinPairs (u :: rest)).head?) : v = u ∨ 0x10000 ≤ v.val := by
  cases rest with
  | nil =>
    left
    exact (Option.some.inj h).symm
  | cons low rest =>
    rw [joinPairs] at h
    split at h
    · next hpair =>
      right
      rw [← Option.some.inj h, combine_val hpair]
      omega
    · left
      exact (Option.some.inj h).symm

theorem isChain_joinPairs (us : List CodePoint) : (joinPairs us).IsChain Unpaired := by
  fun_induction joinPairs us with
  | case1 => exact List.IsChain.nil
  | case2 u => exact List.IsChain.singleton u
  | case3 high low rest hpair ih =>
    refine List.isChain_cons.mpr ⟨fun v _ hv => ?_, ih⟩
    have hval := combine_val hpair
    omega
  | case4 high low rest hpair ih =>
    refine List.isChain_cons.mpr ⟨fun v hv hbad => ?_, ih⟩
    rcases head_joinPairs hv with rfl | hbig
    · exact hpair hbad
    · omega

/-- The string behind the units of a literal. -/
def ofUnits (us : List Nat) : Unicode :=
  ⟨joinPairs (us.map (Fin.ofNat 0x110000)), isChain_joinPairs _⟩

def ofText (text : Str) : Unicode := ofUnits (text.map Char.toNat)

/-- A code point above 0xFFFF takes two units. -/
def utf16 (c : CodePoint) : List Nat :=
  if c.val < 0x10000 then [c.val]
  else [0xD800 + (c.val - 0x10000) / 0x400, 0xDC00 + (c.val - 0x10000) % 0x400]

theorem lt_of_mem_utf16 {c : CodePoint} {u : Nat} (h : u ∈ utf16 c) : u < 0x10000 := by
  have hc := c.isLt
  unfold utf16 at h
  split at h
  · rw [List.mem_singleton.mp h]
    assumption
  · simp only [List.mem_cons, List.not_mem_nil, or_false] at h
    omega

theorem joinPairs_cons {u : CodePoint} {rest : List CodePoint}
    (h : ∀ v ∈ rest.head?, Unpaired u v) : joinPairs (u :: rest) = u :: joinPairs rest := by
  cases rest with
  | nil => rfl
  | cons v rest => rw [joinPairs, if_neg (h v rfl)]

/-- The first unit of a code point is a low surrogate only if the code point is one. -/
theorem unpaired_head {a b : CodePoint} {s : List CodePoint} (h : Unpaired a b)
    {v : CodePoint} (hv : v ∈ (((b :: s).flatMap utf16).map (Fin.ofNat 0x110000)).head?) :
    Unpaired a v := by
  have hb := b.isLt
  rw [List.flatMap_cons, utf16] at hv
  split at hv
  · have hval : v = b := by
      rw [← Option.some.inj hv]
      exact Fin.ext (Nat.mod_eq_of_lt hb)
    rw [hval]
    exact h
  · have hval : v.val = (0xD800 + (b.val - 0x10000) / 0x400) % 0x110000 :=
      congrArg Fin.val (Option.some.inj hv).symm
    omega

theorem joinPairs_utf16 {s : List CodePoint} (h : s.IsChain Unpaired) :
    joinPairs ((s.flatMap utf16).map (Fin.ofNat 0x110000)) = s := by
  induction s with
  | nil => rfl
  | cons c s ih =>
    obtain ⟨hhead, hs⟩ := List.isChain_cons.mp h
    have hc := c.isLt
    rw [List.flatMap_cons, List.map_append, utf16]
    split
    · have hself : Fin.ofNat 0x110000 c.val = c := Fin.ext (Nat.mod_eq_of_lt hc)
      rw [List.map_singleton, List.singleton_append, hself, joinPairs_cons, ih hs]
      intro v hv
      cases s with
      | nil => cases hv
      | cons d s => exact unpaired_head (hhead d rfl) hv
    · have hhigh : (Fin.ofNat 0x110000 (0xD800 + (c.val - 0x10000) / 0x400)).val =
          0xD800 + (c.val - 0x10000) / 0x400 := Nat.mod_eq_of_lt (by omega)
      have hlow : (Fin.ofNat 0x110000 (0xDC00 + (c.val - 0x10000) % 0x400)).val =
          0xDC00 + (c.val - 0x10000) % 0x400 := Nat.mod_eq_of_lt (by omega)
      have hpair : IsHigh (Fin.ofNat 0x110000 (0xD800 + (c.val - 0x10000) / 0x400)).val ∧
          IsLow (Fin.ofNat 0x110000 (0xDC00 + (c.val - 0x10000) % 0x400)).val := by
        rw [hhigh, hlow]
        omega
      have hcombine : combine (Fin.ofNat 0x110000 (0xD800 + (c.val - 0x10000) / 0x400))
          (Fin.ofNat 0x110000 (0xDC00 + (c.val - 0x10000) % 0x400)) = c := by
        apply Fin.ext
        rw [combine_val hpair, hhigh, hlow]
        omega
      rw [List.map_cons, List.map_singleton, List.cons_append, List.singleton_append, joinPairs,
        if_pos hpair, hcombine, ih hs]

theorem ofUnits_utf16 (s : Unicode) : ofUnits (s.val.flatMap utf16) = s :=
  Subtype.ext (joinPairs_utf16 s.property)

/-! ## Escaping -/

def escapeUnit (u : Nat) : Str :=
  ['\\', 'u', Nat.digitChar (u / 4096 % 16), Nat.digitChar (u / 256 % 16),
    Nat.digitChar (u / 16 % 16), Nat.digitChar (u % 16)]

/-- The letter of a short escape. -/
def shortEscape (u : Nat) : Option Char :=
  [(34, '"'), (92, '\\'), (10, 'n'), (13, 'r'), (9, 't'), (12, 'f'), (8, 'b')].lookup u

def escapeChar (c : CodePoint) : Str :=
  match shortEscape c.val with
  | some e => ['\\', e]
  | none =>
    if 32 ≤ c.val ∧ c.val ≤ 126 then [Char.ofNat c.val] else (utf16 c).flatMap escapeUnit

def escape (s : List CodePoint) : Str := s.flatMap escapeChar

theorem hexDigit_digitChar : ∀ d < 16, hexDigit (Nat.digitChar d) = some d := by decide

theorem units_escapeUnit {u : Nat} (h : u < 0x10000) (rest : Str) :
    units (escapeUnit u ++ rest) = (units rest).map (u :: ·) := by
  have hhex : hex4 (Nat.digitChar (u / 4096 % 16)) (Nat.digitChar (u / 256 % 16))
      (Nat.digitChar (u / 16 % 16)) (Nat.digitChar (u % 16)) = some u := by
    have hdigit (n : Nat) : hexDigit (Nat.digitChar (n % 16)) = some (n % 16) :=
      hexDigit_digitChar _ (Nat.mod_lt n (by omega))
    simp only [hex4, hdigit]
    congr 1
    omega
  show units ('\\' :: 'u' :: _ :: _ :: _ :: _ :: rest) = _
  rw [units, hhex, Option.bind_some]

theorem units_flatMap_escapeUnit {us : List Nat} (h : ∀ u ∈ us, u < 0x10000) (rest : Str) :
    units (us.flatMap escapeUnit ++ rest) = (units rest).map (us ++ ·) := by
  induction us with
  | nil => simp
  | cons u us ih =>
    obtain ⟨hu, hus⟩ := List.forall_mem_cons.mp h
    rw [List.flatMap_cons, List.append_assoc, units_escapeUnit hu, ih hus, Option.map_map]
    rfl

theorem units_short {u : Nat} {e : Char} (h : shortEscape u = some e) (rest : Str) :
    units ('\\' :: e :: rest) = (units rest).map (u :: ·) := by
  have hall : ∀ p ∈ [(34, '"'), (92, '\\'), (10, 'n'), (13, 'r'), (9, 't'), (12, 'f'), (8, 'b')],
      simpleEscape p.2 = some p.1 ∧ p.2 ≠ 'u' := by decide
  obtain ⟨hsimple, hne⟩ := hall (u, e) (Dict.mem_of_lookup h)
  rw [units, hsimple, Option.bind_some]
  exact fun _ _ _ _ _ he => absurd he hne

theorem toNat_ofNat_ascii : ∀ n < 127, (Char.ofNat n).toNat = n := by decide

theorem units_escapeChar (c : CodePoint) (rest : Str) :
    units (escapeChar c ++ rest) = (units rest).map (utf16 c ++ ·) := by
  unfold escapeChar
  split
  · next e he =>
    have hsmall : c.val < 0x10000 := by
      by_contra hbig
      have hnone : shortEscape c.val = none := by
        simp only [shortEscape, List.lookup_eq_none_iff, List.forall_mem_cons]
        simp
        omega
      rw [hnone] at he
      cases he
    rw [utf16, if_pos hsmall]
    exact units_short he rest
  · next he =>
    split
    · next hascii =>
      have hne : c.val ≠ 34 ∧ c.val ≠ 92 := by
        constructor <;> intro hc <;> rw [hc] at he <;> cases he
      have hval : (Char.ofNat c.val).toNat = c.val := toNat_ofNat_ascii _ (by omega)
      have hplain : isPlain (Char.ofNat c.val) = true := by
        have hquote : Char.ofNat c.val ≠ '"' := by
          intro h
          rw [h] at hval
          exact hne.1 hval.symm
        have hback : Char.ofNat c.val ≠ '\\' := by
          intro h
          rw [h] at hval
          exact hne.2 hval.symm
        simp [isPlain, hval, hquote, hback, hascii.1]
      rw [List.singleton_append, units_cons hplain, hval, utf16, if_pos (by omega)]
      rfl
    · exact units_flatMap_escapeUnit (fun u hu => lt_of_mem_utf16 hu) rest

theorem units_escape (s : List CodePoint) : units (escape s) = some (s.flatMap utf16) := by
  induction s with
  | nil => rfl
  | cons c s ih =>
    rw [escape, List.flatMap_cons, units_escapeChar, ← escape, ih]
    rfl

end Unitrace.Lib.PyUnicode
