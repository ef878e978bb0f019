import Mathlib.Data.List.TakeWhile
import Unitrace.Lib.Fixed

/-!
# JSON texts

A reader that takes one character at a time and keeps the values it has not
finished on a stack. The grammar is that of RFC 8259. A number keeps its text, an
object keeps its members in order, and an escape of half a surrogate pair reads
as the replacement character.
-/
namespace Unitrace.Lib.Json

open Unitrace.Lib.Text Unitrace.Lib.Fixed

inductive Value where
  | null
  | bool (value : Bool)
  | num (text : Str)
  | str (text : Str)
  | arr (items : List Value)
  | obj (members : List (Str × Value))

/-- The values of all members with a given name. -/
def valuesOf (name : Str) (members : List (Str × Value)) : List Value :=
  (members.filter fun m => m.1 = name).map Prod.snd

theorem valuesOf_append (name : Str) (members more : List (Str × Value)) :
    valuesOf name (members ++ more) = valuesOf name members ++ valuesOf name more := by
  rw [valuesOf, List.filter_append, List.map_append]
  rfl

theorem valuesOf_cons_self (name : Str) (v : Value) (members : List (Str × Value)) :
    valuesOf name ((name, v) :: members) = v :: valuesOf name members := by
  simp [valuesOf]

/-! ## Numbers and words -/

def isExponent : Str → Bool
  | [] => true
  | e :: rest =>
    let digits := if rest.head? = some '+' ∨ rest.head? = some '-' then rest.tail else rest
    (e = 'e' || e = 'E') && digits ≠ [] && digits.all Char.isDigit

def isFraction : Str → Bool
  | '.' :: rest =>
    rest.takeWhile Char.isDigit ≠ [] && isExponent (rest.dropWhile Char.isDigit)
  | rest => isExponent rest

/-- A number has no leading zero, and digits on both sides of its point. -/
def isNumber (word : Str) : Bool :=
  let word := if word.head? = some '-' then word.tail else word
  let whole := word.takeWhile Char.isDigit
  (whole = ['0'] || whole ≠ [] && whole.head? ≠ some '0') && isFraction (word.dropWhile Char.isDigit)

def scalar (word : Str) : Option Value :=
  if isNumber word then some (.num word)
  else match word with
    | ['n', 'u', 'l', 'l'] => some .null
    | ['t', 'r', 'u', 'e'] => some (.bool true)
    | ['f', 'a', 'l', 's', 'e'] => some (.bool false)
    | _ => none

/-! ## String literals -/

/-- A character that stands for itself in a string literal. -/
def isPlain (c : Char) : Bool := 32 ≤ c.toNat && c ≠ '"' && c ≠ '\\'

def hexDigit (c : Char) : Option Nat :=
  if c.isDigit then some (c.toNat - 48)
  else if 97 ≤ c.toNat ∧ c.toNat ≤ 102 then some (c.toNat - 87)
  else if 65 ≤ c.toNat ∧ c.toNat ≤ 70 then some (c.toNat - 55)
  else none

def hex4 (a b c d : Char) : Option Nat :=
  match hexDigit a, hexDigit b, hexDigit c, hexDigit d with
  | some a, some b, some c, some d => some (((a * 16 + b) * 16 + c) * 16 + d)
  | _, _, _, _ => none

def simpleEscape : Char → Option Nat
  | '"' => some 34
  | '\\' => some 92
  | '/' => some 47
  | 'b' => some 8
  | 'f' => some 12
  | 'n' => some 10
  | 'r' => some 13
  | 't' => some 9
  | _ => none

/-- The code points that the body of a literal stands for, surrogates apart. -/
def units : Str → Option (List Nat)
  | [] => some []
  | '\\' :: 'u' :: a :: b :: c :: d :: rest =>
    (hex4 a b c d).bind fun unit => (units rest).map (unit :: ·)
  | '\\' :: e :: rest => (simpleEscape e).bind fun unit => (units rest).map (unit :: ·)
  | c :: rest => if isPlain c then (units rest).map (c.toNat :: ·) else none

def codeChar (unit : Nat) : Char := if unit.isValidChar then Char.ofNat unit else Char.ofNat 0xFFFD

/-- Each surrogate pair becomes one character. -/
def joinSurrogates : List Nat → Str
  | [] => []
  | [unit] => [codeChar unit]
  | high :: low :: rest =>
    if (0xD800 ≤ high ∧ high < 0xDC00) ∧ 0xDC00 ≤ low ∧ low < 0xE000 then
      Char.ofNat (0x10000 + (high - 0xD800) * 0x400 + (low - 0xDC00)) :: joinSurrogates rest
    else codeChar high :: joinSurrogates (low :: rest)

/-- The text that the body of a string literal stands for. -/
def unescape (body : Str) : Option Str := (units body).map joinSurrogates

theorem isPlain_of_hexDigit {c : Char} {n : Nat} (h : hexDigit c = some n) : isPlain c = true := by
  have hquote : hexDigit '"' = none := by decide
  have hback : hexDigit '\\' = none := by decide
  have h32 : 32 ≤ c.toNat := by
    unfold hexDigit at h
    split at h
    · next hd =>
      have hd : '0'.toNat ≤ c.toNat := (Char.isDigit_iff_toNat.mp hd).1
      exact Nat.le_trans (by decide) hd
    · split at h
      · omega
      · split at h
        · omega
        · cases h
  have hq : c ≠ '"' := fun he => by rw [he, hquote] at h; cases h
  have hb : c ≠ '\\' := fun he => by rw [he, hback] at h; cases h
  simp [isPlain, h32, hq, hb]

theorem isPlain_of_hex4 {a b c d : Char} {n : Nat} (h : hex4 a b c d = some n) :
    isPlain a = true ∧ isPlain b = true ∧ isPlain c = true ∧ isPlain d = true := by
  unfold hex4 at h
  split at h
  · next ha hb hc hd =>
    exact ⟨isPlain_of_hexDigit ha, isPlain_of_hexDigit hb, isPlain_of_hexDigit hc,
      isPlain_of_hexDigit hd⟩
  · cases h

theorem units_cons {c : Char} (h : isPlain c = true) (rest : Str) :
    units (c :: rest) = (units rest).map (c.toNat :: ·) := by
  have hb : c ≠ '\\' := by
    intro he
    rw [he] at h
    cases h
  rw [units, if_pos h]
  · exact fun _ _ _ _ _ he => absurd he hb
  · exact fun _ _ he => absurd he hb

theorem units_of_plain {s : Str} (h : s.all isPlain = true) :
    units s = some (s.map Char.toNat) := by
  induction s with
  | nil => rfl
  | cons c s ih =>
    rw [List.all_cons, Bool.and_eq_true] at h
    rw [units_cons h.1, ih h.2]
    rfl

/-- An escape takes more characters than it stands for. -/
theorem units_length {s : Str} {us : List Nat} (h : units s = some us) :
    s.all isPlain = true ∧ us.length = s.length ∨ us.length < s.length := by
  fun_induction units s generalizing us with
  | case1 =>
    cases h
    simp
  | case2 a b c d rest ih =>
    obtain ⟨u, -, hu⟩ := Option.bind_eq_some_iff.mp h
    obtain ⟨vs, hvs, rfl⟩ := Option.map_eq_some_iff.mp hu
    have hle : vs.length ≤ rest.length := by
      rcases ih hvs with ⟨-, he⟩ | hlt <;> omega
    right
    simp only [List.length_cons]
    omega
  | case3 e rest hne ih =>
    obtain ⟨u, -, hu⟩ := Option.bind_eq_some_iff.mp h
    obtain ⟨vs, hvs, rfl⟩ := Option.map_eq_some_iff.mp hu
    have hle : vs.length ≤ rest.length := by
      rcases ih hvs with ⟨-, he⟩ | hlt <;> omega
    right
    simp only [List.length_cons]
    omega
  | case4 c rest hu hb hp ih =>
    obtain ⟨vs, hvs, rfl⟩ := Option.map_eq_some_iff.mp h
    rcases ih hvs with ⟨hplain, he⟩ | hlt
    · left
      refine ⟨by rw [List.all_cons, hp, hplain]; rfl, ?_⟩
      simp only [List.length_cons]
      omega
    · right
      simp only [List.length_cons]
      omega
  | case5 c rest hu hb hp => cases h

theorem joinSurrogates_length_le (us : List Nat) : (joinSurrogates us).length ≤ us.length := by
  fun_induction joinSurrogates us with
  | case1 => exact Nat.le_refl 0
  | case2 unit => exact Nat.le_refl 1
  | case3 high low rest hpair ih =>
    simp only [List.length_cons]
    omega
  | case4 high low rest hpair ih =>
    simp only [List.length_cons] at ih ⊢
    omega

theorem codeChar_toNat (c : Char) : codeChar c.toNat = c := by
  have hvalid : c.toNat.isValidChar := c.valid
  rw [codeChar, if_pos hvalid, Char.ofNat_toNat]

theorem joinSurrogates_map_toNat (s : Str) : joinSurrogates (s.map Char.toNat) = s := by
  induction s with
  | nil => rfl
  | cons c s ih =>
    cases s with
    | nil => rw [List.map_cons, List.map_nil, joinSurrogates, codeChar_toNat]
    | cons d s =>
      have hvalid : c.toNat.isValidChar := c.valid
      simp only [List.map_cons] at ih ⊢
      rw [joinSurrogates, if_neg, codeChar_toNat, ih]
      simp only [Nat.isValidChar] at hvalid
      omega

theorem unescape_of_plain {s : Str} (h : s.all isPlain = true) : unescape s = some s := by
  rw [unescape, units_of_plain h, Option.map_some, joinSurrogates_map_toNat]

/-- Only a plain body stands for itself, any other one for a shorter text. -/
theorem plain_of_unescape {s v : Str} (h : unescape s = some v) (hlen : s.length ≤ v.length) :
    s.all isPlain = true := by
  obtain ⟨us, hus, rfl⟩ := Option.map_eq_some_iff.mp h
  have hle := joinSurrogates_length_le us
  rcases units_length hus with ⟨hplain, -⟩ | hlt
  · exact hplain
  · omega

theorem unescape_length_le {s v : Str} (h : unescape s = some v) : v.length ≤ s.length := by
  obtain ⟨us, hus, rfl⟩ := Option.map_eq_some_iff.mp h
  have hle := joinSurrogates_length_le us
  rcases units_length hus with ⟨-, he⟩ | hlt <;> omega

example : unescape (chars "a\\u00e9\\ud83d\\ude00\\n") = some (chars "aé😀\n") := by decide +kernel

/-! ## The reader -/

/-- A value that is not finished: its items or members so far, newest first. A key
lies on the object that it belongs to until its value is scan. -/
inductive Frame where
  | arr (items : List Value)
  | obj (members : List (Str × Value))
  | key (name : Str)
  | done (value : Value)

inductive Mode where
  | value | firstItem | key | firstKey | colon | after
  | literal (isKey : Bool) (body : Str) (escaped : Bool)
  | word (text : Str)

abbrev State := Mode × List Frame

/-- Put a finished value where the stack wants it. -/
def fill (v : Value) : List Frame → List Frame
  | .arr items :: st => .arr (v :: items) :: st
  | .key k :: .obj members :: st => .obj ((k, v) :: members) :: st
  | st => .done v :: st

def isSpace (c : Char) : Bool := c = ' ' || c = '\t' || c = '\n' || c = '\r'

/-- A character that ends a number or a word. -/
def isEnd (c : Char) : Bool := isSpace c || c = ',' || c = ']' || c = '}'

def stepAfter : List Frame → Char → Option State
  | .arr items :: st, ',' => some (.value, .arr items :: st)
  | .arr items :: st, ']' => some (.after, fill (.arr items.reverse) st)
  | .obj members :: st, ',' => some (.key, .obj members :: st)
  | .obj members :: st, '}' => some (.after, fill (.obj members.reverse) st)
  | st, c => if isSpace c then some (.after, st) else none

def stepValue (st : List Frame) (c : Char) : Option State :=
  if c = '"' then some (.literal false [] false, st)
  else if c = '[' then some (.firstItem, .arr [] :: st)
  else if c = '{' then some (.firstKey, .obj [] :: st)
  else if isEnd c then none
  else some (.word [c], st)

def stepKey (st : List Frame) (c : Char) : Option State :=
  if c = '"' then some (.literal true [] false, st) else none

def endLiteral (isKey : Bool) (body : Str) (st : List Frame) : Option State :=
  (unescape body.reverse).map fun s =>
    if isKey then (.colon, .key s :: st) else (.after, fill (.str s) st)

def step : State → Char → Option State
  | (.value, st), c => if isSpace c then some (.value, st) else stepValue st c
  | (.firstItem, st), c =>
    if isSpace c then some (.firstItem, st)
    else if c = ']' then stepAfter st c else stepValue st c
  | (.key, st), c => if isSpace c then some (.key, st) else stepKey st c
  | (.firstKey, st), c =>
    if isSpace c then some (.firstKey, st)
    else if c = '}' then stepAfter st c else stepKey st c
  | (.colon, st), c =>
    if isSpace c then some (.colon, st) else if c = ':' then some (.value, st) else none
  | (.after, st), c => stepAfter st c
  | (.literal isKey body escaped, st), c =>
    if escaped then some (.literal isKey (c :: body) false, st)
    else if c = '"' then endLiteral isKey body st
    else some (.literal isKey (c :: body) (c = '\\'), st)
  | (.word text, st), c =>
    if isEnd c then (scalar text.reverse).bind fun v => stepAfter (fill v st) c
    else some (.word (c :: text), st)

def finish : State → Option Value
  | (.after, [.done v]) => some v
  | (.word text, []) => scalar text.reverse
  | _ => none

def scan : State → Str → Option Value
  | σ, [] => finish σ
  | σ, c :: rest => (step σ c).bind fun σ' => scan σ' rest

/-- The value of a whole text. -/
def parse (text : Str) : Option Value := scan (.value, []) text

/-! ## Reading a literal -/

theorem scan_literal_cons {c : Char} (hq : c ≠ '"') (hb : c ≠ '\\') (k : Bool) (body : Str)
    (st : List Frame) (rest : Str) :
    scan (.literal k body false, st) (c :: rest) = scan (.literal k (c :: body) false, st) rest := by
  simp [scan, step, hq, hb]

theorem scan_literal_escape (e : Char) (k : Bool) (body : Str) (st : List Frame) (rest : Str) :
    scan (.literal k body false, st) ('\\' :: e :: rest) =
      scan (.literal k (e :: '\\' :: body) false, st) rest := by
  simp [scan, step]

theorem scan_literal_quote (k : Bool) (body : Str) (st : List Frame) (rest : Str) :
    scan (.literal k body false, st) ('"' :: rest) =
      (endLiteral k body st).bind fun σ => scan σ rest := by
  simp [scan, step]

theorem scan_literal_plain {c : Char} (h : isPlain c = true) (k : Bool) (body : Str)
    (st : List Frame) (rest : Str) :
    scan (.literal k body false, st) (c :: rest) = scan (.literal k (c :: body) false, st) rest := by
  apply scan_literal_cons
  · intro he
    rw [he] at h
    cases h
  · intro he
    rw [he] at h
    cases h

/-- A body with complete escapes leaves the reader in the literal. -/
theorem scan_body {s : Str} {us : List Nat} (h : units s = some us) (k : Bool) (body : Str)
    (st : List Frame) (rest : Str) :
    scan (.literal k body false, st) (s ++ rest) =
      scan (.literal k (s.reverse ++ body) false, st) rest := by
  fun_induction units s generalizing us body with
  | case1 => rfl
  | case2 a b c d s ih =>
    obtain ⟨u, hu, h⟩ := Option.bind_eq_some_iff.mp h
    obtain ⟨vs, hvs, -⟩ := Option.map_eq_some_iff.mp h
    obtain ⟨ha, hb, hc, hd⟩ := isPlain_of_hex4 hu
    simp only [List.cons_append, scan_literal_escape, scan_literal_plain ha, scan_literal_plain hb,
      scan_literal_plain hc, scan_literal_plain hd, ih hvs, List.reverse_cons, List.append_assoc,
      List.nil_append]
  | case3 e s hne ih =>
    obtain ⟨u, hu, h⟩ := Option.bind_eq_some_iff.mp h
    obtain ⟨vs, hvs, -⟩ := Option.map_eq_some_iff.mp h
    simp only [List.cons_append, scan_literal_escape, ih hvs, List.reverse_cons, List.append_assoc,
      List.nil_append]
  | case4 c s hu hb hp ih =>
    obtain ⟨vs, hvs, -⟩ := Option.map_eq_some_iff.mp h
    simp only [List.cons_append, scan_literal_plain hp, ih hvs, List.reverse_cons,
      List.append_assoc, List.nil_append]
  | case5 c s hu hb hp => cases h

theorem scan_literal {s v : Str} (h : unescape s = some v) (k : Bool) (st : List Frame)
    (rest : Str) :
    scan (.literal k [] false, st) (s ++ '"' :: rest) =
      scan (if k then (.colon, .key v :: st) else (.after, fill (.str v) st)) rest := by
  obtain ⟨us, hus, -⟩ := Option.map_eq_some_iff.mp h
  rw [scan_body hus, scan_literal_quote, endLiteral, List.append_nil, List.reverse_reverse, h]
  cases k <;> rfl

/-- Where a literal stands after any text: it was closed inside the text, or it
is still open behind it. -/
theorem scan_literal_cases {s : Str} {k escaped : Bool} {body : Str} {st : List Frame} {rest : Str}
    {j : Value} (h : scan (.literal k body escaped, st) (s ++ rest) = some j) :
    (∃ s₁ s₂ σ, s = s₁ ++ '"' :: s₂ ∧ endLiteral k (s₁.reverse ++ body) st = some σ ∧
        scan σ (s₂ ++ rest) = some j) ∨
      ∃ escaped', scan (.literal k (s.reverse ++ body) escaped', st) rest = some j := by
  induction s generalizing body escaped with
  | nil => exact Or.inr ⟨escaped, h⟩
  | cons c s ih =>
    -- the literal takes `c` in, and the rest of the text decides
    have hnext {escaped' : Bool}
        (h : scan (.literal k (c :: body) escaped', st) (s ++ rest) = some j) :
        (∃ s₁ s₂ σ, c :: s = s₁ ++ '"' :: s₂ ∧ endLiteral k (s₁.reverse ++ body) st = some σ ∧
            scan σ (s₂ ++ rest) = some j) ∨
          ∃ escaped', scan (.literal k ((c :: s).reverse ++ body) escaped', st) rest = some j := by
      have happend (t : Str) : (c :: t).reverse ++ body = t.reverse ++ c :: body := by simp
      rcases ih h with ⟨s₁, s₂, σ, rfl, hend, hscan⟩ | hopen
      · exact Or.inl ⟨c :: s₁, s₂, σ, rfl, by rw [happend]; exact hend, hscan⟩
      · rw [happend]
        exact Or.inr hopen
    rw [List.cons_append, scan] at h
    cases escaped with
    | true => exact hnext h
    | false =>
      by_cases hq : c = '"'
      · subst hq
        obtain ⟨σ, hσ, hscan⟩ := Option.bind_eq_some_iff.mp h
        exact Or.inl ⟨[], s, σ, rfl, hσ, hscan⟩
      · simp only [step, Bool.false_eq_true, if_false, if_neg hq] at h
        exact hnext h

/-- A name that ends in an open escape takes the closing quote in. -/
theorem scan_open_literal {k escaped : Bool} {body : Str} {st : List Frame} {rest : Str} {j : Value}
    (h : scan (.literal k body escaped, st) ('"' :: rest) = some j) :
    escaped = false ∧ (∃ σ, endLiteral k body st = some σ ∧ scan σ rest = some j) ∨
      escaped = true ∧ scan (.literal k ('"' :: body) false, st) rest = some j := by
  cases escaped with
  | true => exact Or.inr ⟨rfl, h⟩
  | false =>
    rw [scan_literal_quote] at h
    exact Or.inl ⟨rfl, Option.bind_eq_some_iff.mp h⟩

/-! ## Reading values and members -/

/-- The text goes on with a character that ends a number. -/
def Delimited (rest : Str) : Prop := ∃ c tail, rest = c :: tail ∧ isEnd c = true

/-- A text that is read as a value wherever a value is due. -/
def Reads (text : Str) (v : Value) : Prop :=
  ∀ st rest, Delimited rest → scan (.value, st) (text ++ rest) = scan (.after, fill v st) rest

theorem reads_literal {s v : Str} (h : unescape s = some v) :
    Reads ('"' :: (s ++ ['"'])) (.str v) := by
  intro st rest _
  calc
    scan (.value, st) ('"' :: (s ++ ['"']) ++ rest) =
        scan (.literal false [] false, st) (s ++ '"' :: rest) := by simp [scan, step, stepValue, isSpace]
    _ = scan (.after, fill (.str v) st) rest := scan_literal h false st rest

theorem scan_word {word : Str} (h : ∀ c ∈ word, isEnd c = false) (text : Str) (st : List Frame)
    (rest : Str) :
    scan (.word text, st) (word ++ rest) = scan (.word (word.reverse ++ text), st) rest := by
  induction word generalizing text with
  | nil => rfl
  | cons c word ih =>
    have hc : isEnd c = false := h c List.mem_cons_self
    have hstep : step (.word text, st) c = some (.word (c :: text), st) := by simp [step, hc]
    rw [List.cons_append, scan, hstep, Option.bind_some,
      ih (fun d hd => h d (List.mem_cons_of_mem c hd)), List.reverse_cons, List.append_assoc,
      List.singleton_append]

/-- The characters of a number without sign and exponent. -/
def isDecimalChar (c : Char) : Bool := c.isDigit || c = '.'

theorem ne_of_isDecimalChar {c : Char} (h : isDecimalChar c = true) (d : Char)
    (hd : isDecimalChar d = false) : c ≠ d := by
  intro he
  rw [he, hd] at h
  cases h

theorem isSpace_of_isDecimalChar {c : Char} (h : isDecimalChar c = true) : isSpace c = false := by
  have hne := ne_of_isDecimalChar h
  simp [isSpace, hne ' ' rfl, hne '\t' rfl, hne '\n' rfl, hne '\r' rfl]

theorem isEnd_of_isDecimalChar {c : Char} (h : isDecimalChar c = true) : isEnd c = false := by
  have hne := ne_of_isDecimalChar h
  simp [isEnd, isSpace_of_isDecimalChar h, hne ',' rfl, hne ']' rfl, hne '}' rfl]

theorem stepValue_of_isDecimalChar {c : Char} (h : isDecimalChar c = true) (st : List Frame) :
    stepValue st c = some (.word [c], st) := by
  have hne := ne_of_isDecimalChar h
  simp [stepValue, isEnd_of_isDecimalChar h, hne '"' rfl, hne '[' rfl, hne '{' rfl]

/-- A number is read up to the character that ends it. -/
theorem reads_number {word : Str} (hnum : isNumber word = true)
    (hchars : ∀ c ∈ word, isDecimalChar c = true) : Reads word (.num word) := by
  intro st rest hrest
  obtain ⟨d, tail, rfl, hd⟩ := hrest
  cases word with
  | nil => cases hnum
  | cons c word =>
    have hc : isDecimalChar c = true := hchars c List.mem_cons_self
    have hword : ∀ e ∈ word, isEnd e = false := fun e he =>
      isEnd_of_isDecimalChar (hchars e (List.mem_cons_of_mem c he))
    have hscalar : scalar (c :: word) = some (.num (c :: word)) := by
      unfold scalar
      rw [if_pos hnum]
    have hfirst : step (.value, st) c = some (.word [c], st) := by
      rw [step, isSpace_of_isDecimalChar hc]
      exact stepValue_of_isDecimalChar hc st
    have hlast : step (.word (word.reverse ++ [c]), st) d =
        stepAfter (fill (.num (c :: word)) st) d := by
      rw [step, if_pos hd, List.reverse_append, List.reverse_reverse, List.reverse_singleton,
        List.singleton_append, hscalar, Option.bind_some]
    calc
      scan (.value, st) (c :: word ++ d :: tail) = scan (.word [c], st) (word ++ d :: tail) := by
        rw [List.cons_append, scan, hfirst, Option.bind_some]
      _ = scan (.word (word.reverse ++ [c]), st) (d :: tail) := scan_word hword [c] st (d :: tail)
      _ = (stepAfter (fill (.num (c :: word)) st) d).bind fun σ => scan σ tail := by
        rw [scan, hlast]
      _ = scan (.after, fill (.num (c :: word)) st) (d :: tail) := rfl

theorem isDecimalChar_of_mem {n : Nat} {c : Char} (h : c ∈ decimal n) : isDecimalChar c = true := by
  rw [isDecimalChar, isDigit_of_mem h, Bool.true_or]

/-- The digits of a number may be followed by a fraction. -/
theorem isNumber_decimal_append {n : Nat} {rest : Str} (hfrac : isFraction rest = true)
    (hhead : rest.takeWhile Char.isDigit = []) : isNumber (decimal n ++ rest) = true := by
  have hdigits : ∀ c ∈ decimal n, c.isDigit = true := fun c hc => isDigit_of_mem hc
  have hne := decimal_ne_nil n
  have hminus : (decimal n ++ rest).head? ≠ some '-' := by
    intro h
    rw [List.head?_append_of_ne_nil _ hne] at h
    have := hdigits '-' (List.mem_of_mem_head? h)
    cases this
  have htake : (decimal n ++ rest).takeWhile Char.isDigit = decimal n := by
    rw [List.takeWhile_append_of_pos hdigits, hhead, List.append_nil]
  have hdrop : (decimal n ++ rest).dropWhile Char.isDigit = rest := by
    rw [List.dropWhile_append_of_pos hdigits]
    have := List.takeWhile_append_dropWhile (p := Char.isDigit) (l := rest)
    rw [hhead, List.nil_append] at this
    exact this
  rw [isNumber, if_neg hminus, htake, hdrop, hfrac, Bool.and_true]
  rcases Nat.eq_zero_or_pos n with rfl | hpos
  · rfl
  · simp [hne, head_decimal hpos]

theorem reads_decimal (n : Nat) : Reads (decimal n) (.num (decimal n)) := by
  apply reads_number
  · have h : isNumber (decimal n ++ []) = true := isNumber_decimal_append rfl rfl
    rwa [List.append_nil] at h
  · exact fun c hc => isDecimalChar_of_mem hc

theorem reads_pointText (n : Nat) : Reads (pointText n) (.num (pointText n)) := by
  have hdigits : ∀ c ∈ sixDigits n, c.isDigit = true := fun c hc => isDigit_of_mem_sixDigits hc
  have htake : (sixDigits n).takeWhile Char.isDigit = sixDigits n :=
    List.takeWhile_eq_self_iff.mpr hdigits
  have hdrop : (sixDigits n).dropWhile Char.isDigit = [] := List.dropWhile_eq_nil_iff.mpr hdigits
  have hne : sixDigits n ≠ [] := by simp [sixDigits]
  apply reads_number
  · apply isNumber_decimal_append
    · rw [isFraction, htake, hdrop]
      simp [hne, isExponent]
    · rfl
  · intro c hc
    rcases List.mem_append.mp hc with hc | hc
    · exact isDecimalChar_of_mem hc
    · rcases List.mem_cons.mp hc with rfl | hc
      · rfl
      · rw [isDecimalChar, hdigits c hc, Bool.true_or]

/-- A member of an object, with the texts of its name and its value. -/
structure Field where
  key : Str
  name : Str
  text : Str
  value : Value

def Field.member (f : Field) : Str × Value := (f.name, f.value)

theorem valuesOf_eq_nil {name : Str} {fields : List Field} (h : ∀ f ∈ fields, f.name ≠ name) :
    valuesOf name (fields.map Field.member) = [] := by
  rw [valuesOf, List.map_eq_nil_iff, List.filter_eq_nil_iff]
  intro m hm
  obtain ⟨f, hf, rfl⟩ := List.mem_map.mp hm
  exact fun he => h f hf (of_decide_eq_true he)

structure Field.Ok (f : Field) : Prop where
  name_eq : unescape f.key = some f.name
  reads : Reads f.text f.value

/-- A member with `space` after its colon. -/
def pairText (space : Str) (f : Field) : Str :=
  '"' :: (f.key ++ '"' :: ':' :: (space ++ f.text))

/-- The members behind the first one, with `space` after each comma. -/
def moreText (space : Str) (fields : List Field) : Str :=
  fields.flatMap fun f => ',' :: (space ++ pairText space f)

theorem moreText_append (space : Str) (fields more : List Field) :
    moreText space (fields ++ more) = moreText space fields ++ moreText space more :=
  List.flatMap_append

theorem delimited_cons {c : Char} (h : isEnd c = true) (rest : Str) : Delimited (c :: rest) :=
  ⟨c, rest, rfl, h⟩

theorem delimited_moreText (space : Str) (fields : List Field) {rest : Str} (h : Delimited rest) :
    Delimited (moreText space fields ++ rest) := by
  cases fields with
  | nil => exact h
  | cons f fields => exact delimited_cons rfl _

theorem scan_spaces {space : Str} (h : ∀ c ∈ space, isSpace c = true) {m : Mode}
    (hm : m = .value ∨ m = .key) (st : List Frame) (rest : Str) :
    scan (m, st) (space ++ rest) = scan (m, st) rest := by
  induction space with
  | nil => rfl
  | cons c space ih =>
    have hc : isSpace c = true := h c List.mem_cons_self
    have hstep : step (m, st) c = some (m, st) := by
      rcases hm with rfl | rfl <;> simp [step, hc]
    rw [List.cons_append, scan, hstep, Option.bind_some]
    exact ih fun d hd => h d (List.mem_cons_of_mem c hd)

section Members

variable {space : Str} (hspace : ∀ c ∈ space, isSpace c = true)
include hspace

theorem scan_key {key name : Str} (hkey : unescape key = some name)
    (members : List (Str × Value)) (st : List Frame) (rest : Str) :
    scan (.key, .obj members :: st) ('"' :: (key ++ '"' :: ':' :: (space ++ rest))) =
      scan (.value, .key name :: .obj members :: st) rest := by
  calc
    scan (.key, .obj members :: st) ('"' :: (key ++ '"' :: ':' :: (space ++ rest))) =
        scan (.literal true [] false, .obj members :: st) (key ++ '"' :: ':' :: (space ++ rest)) := by
      simp [scan, step, stepKey, isSpace]
    _ = scan (.colon, .key name :: .obj members :: st) (':' :: (space ++ rest)) :=
      scan_literal hkey true _ _
    _ = scan (.value, .key name :: .obj members :: st) (space ++ rest) := by
      simp [scan, step, isSpace]
    _ = scan (.value, .key name :: .obj members :: st) rest := scan_spaces hspace (Or.inl rfl) _ _

theorem scan_pair {f : Field} (hf : f.Ok) (members : List (Str × Value)) (st : List Frame)
    {rest : Str} (hrest : Delimited rest) :
    scan (.key, .obj members :: st) (pairText space f ++ rest) =
      scan (.after, .obj (f.member :: members) :: st) rest := by
  have hkey := scan_key hspace hf.name_eq members st (f.text ++ rest)
  have htext : pairText space f ++ rest =
      '"' :: (f.key ++ '"' :: ':' :: (space ++ (f.text ++ rest))) := by simp [pairText]
  rw [htext, hkey, hf.reads _ _ hrest]
  rfl

theorem scan_moreText {fields : List Field} (hfields : ∀ f ∈ fields, f.Ok)
    (members : List (Str × Value)) (st : List Frame) {rest : Str} (hrest : Delimited rest) :
    scan (.after, .obj members :: st) (moreText space fields ++ rest) =
      scan (.after, .obj ((fields.map Field.member).reverse ++ members) :: st) rest := by
  induction fields generalizing members with
  | nil => rfl
  | cons f fields ih =>
    have hmore := delimited_moreText space fields hrest
    calc
      scan (.after, .obj members :: st) (moreText space (f :: fields) ++ rest) =
          scan (.key, .obj members :: st)
            (space ++ (pairText space f ++ (moreText space fields ++ rest))) := by
        simp [moreText, scan, step, stepAfter]
      _ = scan (.key, .obj members :: st) (pairText space f ++ (moreText space fields ++ rest)) :=
        scan_spaces hspace (Or.inr rfl) _ _
      _ = scan (.after, .obj (f.member :: members) :: st) (moreText space fields ++ rest) :=
        scan_pair hspace (hfields f List.mem_cons_self) members st hmore
      _ = scan (.after, .obj (((f :: fields).map Field.member).reverse ++ members) :: st) rest := by
        rw [ih (fun g hg => hfields g (List.mem_cons_of_mem f hg))]
        simp

/-- The members of an object up to any of them. -/
theorem scan_openObject {f : Field} {fields : List Field} (hf : f.Ok)
    (hfields : ∀ g ∈ fields, g.Ok) (st : List Frame) {rest : Str} (hrest : Delimited rest) :
    scan (.value, st) ('{' :: (pairText space f ++ (moreText space fields ++ rest))) =
      scan (.after, .obj ((f :: fields).map Field.member).reverse :: st) rest := by
  have hmore := delimited_moreText space fields hrest
  calc
    scan (.value, st) ('{' :: (pairText space f ++ (moreText space fields ++ rest))) =
        scan (.firstKey, .obj [] :: st) (pairText space f ++ (moreText space fields ++ rest)) := by
      simp [scan, step, stepValue, isSpace]
    _ = scan (.key, .obj [] :: st) (pairText space f ++ (moreText space fields ++ rest)) := by
      simp [pairText, scan, step, isSpace]
    _ = scan (.after, .obj [f.member] :: st) (moreText space fields ++ rest) :=
      scan_pair hspace hf [] st hmore
    _ = scan (.after, .obj ((f :: fields).map Field.member).reverse :: st) rest := by
      rw [scan_moreText hspace hfields _ _ hrest]
      simp

theorem scan_object {f : Field} {fields : List Field} (hf : f.Ok) (hfields : ∀ g ∈ fields, g.Ok)
    (st : List Frame) (rest : Str) :
    scan (.value, st) ('{' :: (pairText space f ++ (moreText space fields ++ '}' :: rest))) =
      scan (.after, fill (.obj ((f :: fields).map Field.member)) st) rest := by
  rw [scan_openObject hspace hf hfields st (delimited_cons rfl rest)]
  simp [scan, step, stepAfter]

theorem reads_object {f : Field} {fields : List Field} (hf : f.Ok) (hfields : ∀ g ∈ fields, g.Ok) :
    Reads ('{' :: (pairText space f ++ (moreText space fields ++ ['}'])))
      (.obj ((f :: fields).map Field.member)) := by
  intro st rest _
  rw [← scan_object hspace hf hfields st rest]
  simp

end Members

/-- The items of an array may stand on lines of their own. -/
theorem scan_nextItem (items : List Value) (st : List Frame) (rest : Str) :
    scan (.after, .arr items :: st) (',' :: '\n' :: rest) = scan (.value, .arr items :: st) rest := by
  simp [scan, step, stepAfter, isSpace]

theorem reads_emptyArray : Reads ['[', ']'] (.arr []) := by
  intro st rest _
  simp [scan, step, stepValue, stepAfter, isSpace]

/-- An array of one string. -/
theorem reads_stringArray {s v : Str} (h : unescape s = some v) :
    Reads ('[' :: '"' :: (s ++ ['"', ']'])) (.arr [.str v]) := by
  intro st rest _
  calc
    scan (.value, st) ('[' :: '"' :: (s ++ ['"', ']']) ++ rest) =
        scan (.literal false [] false, .arr [] :: st) (s ++ '"' :: ']' :: rest) := by
      simp [scan, step, stepValue, isSpace]
    _ = scan (.after, .arr [.str v] :: st) (']' :: rest) := scan_literal h false _ _
    _ = scan (.after, fill (.arr [.str v]) st) rest := by simp [scan, step, stepAfter]

/-! ## What a reader can still give -/

/-- `j` arises from the stack if `v` is put on it: the values that are not finished
may get more entries. -/
def Holds : List Frame → Value → Value → Prop
  | [], v, j => j = v
  | .arr items :: st, v, j => ∃ more, Holds st (.arr (items.reverse ++ v :: more)) j
  | .key k :: .obj members :: st, v, j =>
    ∃ more, Holds st (.obj (members.reverse ++ (k, v) :: more)) j
  | _, _, _ => False

/-- `j` arises from the stack. -/
def Grows : List Frame → Value → Prop
  | [], _ => True
  | [.done v], j => j = v
  | .arr items :: st, j => ∃ more, Holds st (.arr (items.reverse ++ more)) j
  | .obj members :: st, j => ∃ more, Holds st (.obj (members.reverse ++ more)) j
  | .key k :: .obj members :: st, j => ∃ v, Holds (.key k :: .obj members :: st) v j
  | _, _ => False

theorem Grows.of_holds {st : List Frame} {v j : Value} (h : Holds st v j) : Grows st j := by
  match st with
  | [] => trivial
  | .arr items :: st =>
    obtain ⟨more, h⟩ := h
    exact ⟨v :: more, h⟩
  | .key k :: .obj members :: st => exact ⟨v, h⟩
  | .key k :: [] => exact h.elim
  | .key k :: .arr _ :: st => exact h.elim
  | .key k :: .key _ :: st => exact h.elim
  | .key k :: .done _ :: st => exact h.elim
  | .obj _ :: st => exact h.elim
  | .done _ :: st => exact h.elim

theorem Holds.of_fill {st : List Frame} {v j : Value} (h : Grows (fill v st) j) : Holds st v j := by
  match st with
  | [] => exact h
  | .arr items :: st =>
    obtain ⟨more, h⟩ := h
    exact ⟨more, by simpa using h⟩
  | .key k :: .obj members :: st =>
    obtain ⟨more, h⟩ := h
    exact ⟨more, by simpa using h⟩
  | .key k :: [] => exact h.elim
  | .key k :: .arr _ :: st => exact h.elim
  | .key k :: .key _ :: st => exact h.elim
  | .key k :: .done _ :: st => exact h.elim
  | .obj _ :: st => exact h.elim
  | .done _ :: st => exact h.elim

theorem grows_stepAfter {st : List Frame} {c : Char} {σ : State} (h : stepAfter st c = some σ)
    {j : Value} (hσ : Grows σ.2 j) : Grows st j := by
  unfold stepAfter at h
  split at h
  · cases h
    exact hσ
  · next items st =>
    cases h
    exact ⟨[], by rw [List.append_nil]; exact Holds.of_fill hσ⟩
  · cases h
    exact hσ
  · next members st =>
    cases h
    exact ⟨[], by rw [List.append_nil]; exact Holds.of_fill hσ⟩
  · split at h
    · cases h
      exact hσ
    · cases h

theorem grows_stepValue {st : List Frame} {c : Char} {σ : State} (h : stepValue st c = some σ)
    {j : Value} (hσ : Grows σ.2 j) : Grows st j := by
  unfold stepValue at h
  split at h
  · cases h
    exact hσ
  · split at h
    · cases h
      obtain ⟨more, hmore⟩ := hσ
      exact Grows.of_holds hmore
    · split at h
      · cases h
        obtain ⟨more, hmore⟩ := hσ
        exact Grows.of_holds hmore
      · split at h
        · cases h
        · cases h
          exact hσ

theorem grows_stepKey {st : List Frame} {c : Char} {σ : State} (h : stepKey st c = some σ)
    {j : Value} (hσ : Grows σ.2 j) : Grows st j := by
  unfold stepKey at h
  split at h
  · cases h
    exact hσ
  · cases h

theorem grows_endLiteral {k : Bool} {body : Str} {st : List Frame} {σ : State}
    (h : endLiteral k body st = some σ) {j : Value} (hσ : Grows σ.2 j) : Grows st j := by
  obtain ⟨s, -, rfl⟩ := Option.map_eq_some_iff.mp h
  cases k with
  | false => exact Grows.of_holds (Holds.of_fill hσ)
  | true =>
    match st, hσ with
    | .obj members :: st, ⟨v, more, h⟩ => exact ⟨(s, v) :: more, h⟩

/-- A character adds to the values that are not finished and takes nothing back. -/
theorem grows_step {σ σ' : State} {c : Char} (h : step σ c = some σ') {j : Value}
    (hσ : Grows σ'.2 j) : Grows σ.2 j := by
  obtain ⟨m, st⟩ := σ
  cases m with
  | value =>
    simp only [step] at h
    split at h
    · cases h
      exact hσ
    · exact grows_stepValue h hσ
  | firstItem =>
    simp only [step] at h
    split at h
    · cases h
      exact hσ
    · split at h
      · exact grows_stepAfter h hσ
      · exact grows_stepValue h hσ
  | key =>
    simp only [step] at h
    split at h
    · cases h
      exact hσ
    · exact grows_stepKey h hσ
  | firstKey =>
    simp only [step] at h
    split at h
    · cases h
      exact hσ
    · split at h
      · exact grows_stepAfter h hσ
      · exact grows_stepKey h hσ
  | colon =>
    simp only [step] at h
    split at h
    · cases h
      exact hσ
    · split at h
      · cases h
        exact hσ
      · cases h
  | after => exact grows_stepAfter h hσ
  | literal k body escaped =>
    simp only [step] at h
    split at h
    · cases h
      exact hσ
    · split at h
      · exact grows_endLiteral h hσ
      · cases h
        exact hσ
  | word text =>
    simp only [step] at h
    split at h
    · obtain ⟨v, -, h⟩ := Option.bind_eq_some_iff.mp h
      exact Grows.of_holds (Holds.of_fill (grows_stepAfter h hσ))
    · cases h
      exact hσ

theorem grows_finish {σ : State} {j : Value} (h : finish σ = some j) : Grows σ.2 j := by
  unfold finish at h
  split at h
  · cases h
    rfl
  · trivial
  · cases h

/-- What a text gives holds all that the reader had gathered before it. -/
theorem grows_of_scan {σ : State} {text : Str} {j : Value} (h : scan σ text = some j) :
    Grows σ.2 j := by
  induction text generalizing σ with
  | nil => exact grows_finish h
  | cons c text ih =>
    obtain ⟨σ', hstep, hscan⟩ := Option.bind_eq_some_iff.mp h
    exact grows_step hstep (ih hscan)

end Unitrace.Lib.Json
