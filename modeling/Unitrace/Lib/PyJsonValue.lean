import Unitrace.Lib.JsonAgree
import Unitrace.Lib.PyJson

/-!
# JSON values in Python

Where `Json.parse` reads a text, `json.loads` reads it too, and makes Python values of the
same parts: a number is what its word says, and of several members with one name the last
one counts.
-/
namespace Unitrace.Lib.PyJsonValue

open Unitrace.Lib Unitrace.Lib.Text Unitrace.Lib.PyUnicode Unitrace.Lib.PyJson
open Unitrace.Lib.JsonReader Unitrace.Lib.JsonAgree
open Unitrace.Lib.Json (Value codeChar joinSurrogates units hexDigit hex4 simpleEscape)

/-- The characters of a string. A surrogate that stands alone is the replacement character. -/
def textOf (u : Unicode) : Str := u.val.map fun c => codeChar c.val

mutual

/-- What Python makes of a JSON value. -/
inductive Same : Value → PyValue → Prop where
  | null : Same .null .none
  | bool (b : Bool) : Same (.bool b) (.bool b)
  | num {word : Str} {e : PyValue} (h : scalar word = some e) : Same (.num word) e
  | str {s : Str} {u : Unicode} (h : textOf u = s) : Same (.str s) (.str u)
  | arr {items : List Value} {es : List PyValue} (h : List.Forall₂ Same items es) :
      Same (.arr items) (.list es)
  | obj {members : List (Str × Value)} {ms : List (Unicode × PyValue)}
      (h : SameMembers members ms) : Same (.obj members) (.dict (Dict.setAll [] ms))

inductive SameMembers : List (Str × Value) → List (Unicode × PyValue) → Prop where
  | nil : SameMembers [] []
  | cons {name : Str} {v : Value} {members : List (Str × Value)} {k : Unicode} {e : PyValue}
      {ms : List (Unicode × PyValue)} (hname : textOf k = name) (hv : Same v e)
      (h : SameMembers members ms) : SameMembers ((name, v) :: members) ((k, e) :: ms)

end

theorem sameMembers_of_forall₂ {members : List (Str × Value)} {ms : List (Unicode × PyValue)}
    (h : List.Forall₂ (fun m n => textOf n.1 = m.1 ∧ Same m.2 n.2) members ms) :
    SameMembers members ms := by
  induction h with
  | nil => exact .nil
  | cons hm _ ih => exact .cons hm.1 hm.2 ih

/-! ## Units and characters -/

theorem toNat_lt (c : Char) : c.toNat < 0x110000 := by
  have hvalid : c.toNat.isValidChar := c.valid
  simp only [Nat.isValidChar] at hvalid
  omega

theorem codeChar_eq {c : Char} (hc : c ≠ Char.ofNat 0xFFFD) {n : Nat} (h : codeChar n = c) :
    n = c.toNat := by
  unfold codeChar at h
  split at h
  · next hvalid =>
    rw [← h, Char.ofNat, dif_pos hvalid]
    rfl
  · exact absurd h.symm hc

theorem hexDigit_lt {c : Char} {n : Nat} (h : hexDigit c = some n) : n < 16 := by
  unfold hexDigit at h
  split at h
  · next hdigit =>
    have hle := (Char.isDigit_iff_toNat.mp hdigit).2
    have h9 : '9'.toNat = 57 := rfl
    obtain rfl := Option.some.inj h
    omega
  · split at h
    · obtain rfl := Option.some.inj h
      omega
    · split at h
      · obtain rfl := Option.some.inj h
        omega
      · cases h

theorem hex4_lt {a b c d : Char} {n : Nat} (h : hex4 a b c d = some n) : n < 0x10000 := by
  unfold hex4 at h
  split at h
  · next ha hb hc hd =>
    have ha := hexDigit_lt ha
    have hb := hexDigit_lt hb
    have hc := hexDigit_lt hc
    have hd := hexDigit_lt hd
    obtain rfl := Option.some.inj h
    omega
  · cases h

theorem simpleEscape_lt {c : Char} {n : Nat} (h : simpleEscape c = some n) : n < 128 := by
  unfold simpleEscape at h
  split at h <;> cases h <;> decide

/-- The units of a literal are code points. -/
theorem lt_of_units {body : Str} {us : List Nat} (h : units body = some us) :
    ∀ u ∈ us, u < 0x110000 := by
  fun_induction units body generalizing us with
  | case1 =>
    obtain rfl := Option.some.inj h
    simp
  | case2 a b c d rest ih =>
    obtain ⟨u, hu, h⟩ := Option.bind_eq_some_iff.mp h
    obtain ⟨vs, hvs, rfl⟩ := Option.map_eq_some_iff.mp h
    have hlt := hex4_lt hu
    exact List.forall_mem_cons.mpr ⟨by omega, ih hvs⟩
  | case3 e rest hne ih =>
    obtain ⟨u, hu, h⟩ := Option.bind_eq_some_iff.mp h
    obtain ⟨vs, hvs, rfl⟩ := Option.map_eq_some_iff.mp h
    have hlt := simpleEscape_lt hu
    exact List.forall_mem_cons.mpr ⟨by omega, ih hvs⟩
  | case4 c rest hu hb hp ih =>
    obtain ⟨vs, hvs, rfl⟩ := Option.map_eq_some_iff.mp h
    exact List.forall_mem_cons.mpr ⟨toNat_lt c, ih hvs⟩
  | case5 => cases h

/-- Both readers join the surrogates of a literal. -/
theorem textOf_ofUnits {us : List Nat} (h : ∀ u ∈ us, u < 0x110000) :
    textOf (ofUnits us) = joinSurrogates us := by
  show (joinPairs (us.map (Fin.ofNat 0x110000))).map (fun c => codeChar c.val) = _
  have hval {u : Nat} (hu : u < 0x110000) : (Fin.ofNat 0x110000 u).val = u := Nat.mod_eq_of_lt hu
  fun_induction joinSurrogates us with
  | case1 => rfl
  | case2 u =>
    rw [List.map_singleton, joinPairs, List.map_singleton, hval (h u List.mem_cons_self)]
  | case3 high low rest hpair ih =>
    obtain ⟨hhigh, h⟩ := List.forall_mem_cons.mp h
    obtain ⟨hlow, hrest⟩ := List.forall_mem_cons.mp h
    have hpair' : IsHigh (Fin.ofNat 0x110000 high).val ∧ IsLow (Fin.ofNat 0x110000 low).val := by
      rwa [hval hhigh, hval hlow]
    have hvalid : (0x10000 + (high - 0xD800) * 0x400 + (low - 0xDC00)).isValidChar := by
      right
      omega
    rw [List.map_cons, List.map_cons, joinPairs, if_pos hpair', List.map_cons, ih hrest,
      combine_val hpair', hval hhigh, hval hlow, codeChar, if_pos hvalid]
  | case4 high low rest hpair ih =>
    obtain ⟨hhigh, h⟩ := List.forall_mem_cons.mp h
    have hlow := h low List.mem_cons_self
    have hpair' : ¬ (IsHigh (Fin.ofNat 0x110000 high).val ∧ IsLow (Fin.ofNat 0x110000 low).val) := by
      rwa [hval hhigh, hval hlow]
    rw [List.map_cons, List.map_cons, joinPairs, if_neg hpair', List.map_cons, hval hhigh,
      ← List.map_cons, ih h]

/-- No character is half a pair. -/
theorem val_ofText (text : Str) :
    (ofText text).val = text.map fun c => Fin.ofNat 0x110000 c.toNat := by
  show joinPairs ((text.map Char.toNat).map (Fin.ofNat 0x110000)) = _
  rw [List.map_map]
  induction text with
  | nil => rfl
  | cons c text ih =>
    have hvalid : c.toNat.isValidChar := c.valid
    have hval : (Fin.ofNat 0x110000 c.toNat).val = c.toNat :=
      Nat.mod_eq_of_lt (toNat_lt c)
    rw [List.map_cons, joinPairs_cons, ih, List.map_cons]
    · rfl
    · rintro v - ⟨hhigh, -⟩
      rw [Function.comp_apply, hval] at hhigh
      simp only [Nat.isValidChar] at hvalid
      omega

/-- A string with no replacement characters is known from its text. -/
theorem eq_ofText {u : Unicode} {text : Str} (h : textOf u = text)
    (hplain : ∀ c ∈ text, c ≠ Char.ofNat 0xFFFD) : u = ofText text := by
  subst h
  apply Subtype.ext
  rw [val_ofText, textOf, List.map_map]
  symm
  refine (List.map_congr_left fun c hc => ?_).trans (List.map_id u.val)
  have hcode : codeChar c.val ≠ Char.ofNat 0xFFFD := hplain _ (List.mem_map_of_mem hc)
  apply Fin.ext
  rw [Function.comp_apply, ← codeChar_eq hcode rfl]
  exact Nat.mod_eq_of_lt c.isLt

/-! ## Reading -/

theorem same_scalar {word : Str} {v : Value} (h : Json.scalar word = some v) :
    ∃ e, scalar word = some e ∧ Same v e := by
  unfold Json.scalar at h
  split at h
  · next hnumber =>
    obtain rfl := Option.some.inj h
    exact ⟨_, scalar_of_isNumber hnumber, .num (scalar_of_isNumber hnumber)⟩
  · split at h
    · obtain rfl := Option.some.inj h
      exact ⟨.none, rfl, .null⟩
    · obtain rfl := Option.some.inj h
      exact ⟨.bool true, rfl, .bool true⟩
    · obtain rfl := Option.some.inj h
      exact ⟨.bool false, rfl, .bool false⟩
    · cases h

theorem agrees : Agrees rfc python (fun s u => textOf u = s) Same where
  scalar := fun _ _ h => same_scalar h
  text := fun _ _ h => textOf_ofUnits (lt_of_units h)
  str := fun _ _ h => .str h
  arr := fun _ _ h => .arr h
  obj := fun _ _ h => .obj (sameMembers_of_forall₂ h)

/-- Python reads what is JSON, with the same parts. -/
theorem exists_loads {text : Str} {v : Value} (h : Json.parse text = some v) :
    ∃ e, loads text = some e ∧ Same v e := by
  rw [parse_rfc] at h
  exact parse_agrees agrees h

/-- An object with one member is a dictionary with one entry. -/
theorem Same.of_obj_singleton {name : Str} (hname : ∀ c ∈ name, c ≠ Char.ofNat 0xFFFD) {v : Value}
    {data : PyValue} (h : Same (.obj [(name, v)]) data) :
    ∃ e, data = .dict [(ofText name, e)] ∧ Same v e := by
  cases h with
  | obj h =>
    cases h with
    | cons hkey hv hrest =>
      cases hrest
      rw [eq_ofText hkey hname]
      exact ⟨_, rfl, hv⟩

/-! ## Finite numbers -/

/-- Whatever Python makes of the value, its numbers are finite. -/
def IsFinite (v : Value) : Prop := ∀ e, Same v e → isFinite e = true

theorem isFinite_str (s : Str) : IsFinite (.str s) := by
  intro e h
  cases h
  rfl

theorem isFinite_num {word : Str} {e : PyValue} (h : scalar word = some e)
    (hfinite : PyJson.isFinite e = true) : IsFinite (.num word) := by
  intro e' h'
  cases h' with
  | num h' =>
    rw [h] at h'
    obtain rfl := Option.some.inj h'
    exact hfinite

theorem itemsFinite_of_forall₂ {items : List Value} (hitems : ∀ v ∈ items, IsFinite v)
    {es : List PyValue} (h : List.Forall₂ Same items es) : itemsFinite es = true := by
  induction h with
  | nil => rfl
  | cons hv _ ih =>
    obtain ⟨hfirst, hrest⟩ := List.forall_mem_cons.mp hitems
    rw [itemsFinite, hfirst _ hv, ih hrest]
    rfl

theorem isFinite_arr {items : List Value} (hitems : ∀ v ∈ items, IsFinite v) :
    IsFinite (.arr items) := by
  intro e h
  cases h with
  | arr h => exact itemsFinite_of_forall₂ hitems h

theorem membersFinite_iff {ms : List (Unicode × PyValue)} :
    membersFinite ms = true ↔ ∀ m ∈ ms, isFinite m.2 = true := by
  induction ms with
  | nil => simp [membersFinite]
  | cons m ms ih => rw [membersFinite, Bool.and_eq_true, ih, List.forall_mem_cons]

theorem isFinite_of_sameMembers {members : List (Str × Value)} (hmembers : ∀ m ∈ members, IsFinite m.2)
    {ms : List (Unicode × PyValue)} (h : SameMembers members ms) :
    ∀ m ∈ ms, isFinite m.2 = true := by
  induction ms generalizing members with
  | nil => simp
  | cons m ms ih =>
    cases h with
    | cons _ hv hrest =>
      obtain ⟨hfirst, hlater⟩ := List.forall_mem_cons.mp hmembers
      exact List.forall_mem_cons.mpr ⟨hfirst _ hv, ih hlater hrest⟩

theorem isFinite_obj {members : List (Str × Value)} (hmembers : ∀ m ∈ members, IsFinite m.2) :
    IsFinite (.obj members) := by
  intro e h
  cases h with
  | obj h =>
    rw [PyJson.isFinite, membersFinite_iff]
    intro m hm
    rcases Dict.mem_setAll hm with hm | hm
    · cases hm
    · exact isFinite_of_sameMembers hmembers h m hm

end Unitrace.Lib.PyJsonValue
