import Unitrace.Lib.Dict
import Unitrace.Lib.JsonWriter
import Unitrace.Lib.PyFloat
import Unitrace.Lib.PyStr
import Unitrace.Lib.PyUnicode

/-!
# `json.loads` and `json.dumps`

The reader of Python takes three words more than RFC 8259 does, for numbers that are
not finite, and the writer puts them out. Reading a written value gives the value back,
but the text is JSON only if every number in the value is finite.
-/
namespace Unitrace.Lib.PyJson

open Unitrace.Lib Unitrace.Lib.Text Unitrace.Lib.ByteString Unitrace.Lib.PyUnicode
open Unitrace.Lib.JsonReader Unitrace.Lib.JsonWriter
open Unitrace.Lib.PyFloat (Number)

inductive PyValue where
  | none
  | bool (value : Bool)
  | int (value : Int)
  | float (value : Number)
  | str (text : Unicode)
  | list (items : List PyValue)
  | dict (members : List (Unicode × PyValue))

/-! ## Reading -/

/-- `int(word)` for the text of a number. -/
def int : Str → Int
  | '-' :: digits => -(PyFloat.digitsValue digits : Int)
  | digits => PyFloat.digitsValue digits

/-- The words that are values, without the numbers. -/
def constants : List (Str × PyValue) :=
  [(['n', 'u', 'l', 'l'], .none), (['t', 'r', 'u', 'e'], .bool true),
    (['f', 'a', 'l', 's', 'e'], .bool false), (['N', 'a', 'N'], .float .nan),
    (['I', 'n', 'f', 'i', 'n', 'i', 't', 'y'], .float (.infinity false)),
    (['-', 'I', 'n', 'f', 'i', 'n', 'i', 't', 'y'], .float (.infinity true))]

def scalar (word : Str) : Option PyValue :=
  if Json.isNumber word then
    some (if PyFloat.isFloat word then .float (PyFloat.float word) else .int (int word))
  else constants.lookup word

theorem scalar_of_isNumber {word : Str} (h : Json.isNumber word = true) :
    scalar word =
      some (if PyFloat.isFloat word then .float (PyFloat.float word) else .int (int word)) :=
  if_pos h

/-- Of several members with one name the last one counts. -/
def python : Algebra Unicode PyValue where
  scalar := scalar
  text := ofUnits
  str := .str
  arr := .list
  obj := fun members => .dict (Dict.setAll [] members)

def loads (text : Str) : Option PyValue := parse python text

/-! ## Writing -/

def floatText : Number → Str
  | .nan => ['N', 'a', 'N']
  | .infinity false => ['I', 'n', 'f', 'i', 'n', 'i', 't', 'y']
  | .infinity true => ['-', 'I', 'n', 'f', 'i', 'n', 'i', 't', 'y']
  | .finite false x => PyFloat.repr x
  | .finite true x => '-' :: PyFloat.repr x

theorem isNumber_of_isFloat {word : Str} (h : PyFloat.isFloat word = true) :
    Json.isNumber word = true :=
  (Bool.and_eq_true_iff.mp h).1

theorem isWord_floatText (x : Number) : isWord (floatText x) = true := by
  match x with
  | .nan => rfl
  | .infinity false => rfl
  | .infinity true => rfl
  | .finite false x => exact isWord_of_isNumber (isNumber_of_isFloat (PyFloat.isFloat_repr x))
  | .finite true x => exact isWord_of_isNumber (isNumber_of_isFloat (PyFloat.isFloat_neg_repr x))

theorem isNumber_signedDecimal (n : Int) : Json.isNumber (signedDecimal n) = true := by
  have hdecimal (n : Nat) : Json.isNumber (decimal n) = true := by
    have h : Json.isNumber (decimal n ++ []) = true := Json.isNumber_decimal_append rfl rfl
    rwa [List.append_nil] at h
  cases n with
  | ofNat n => exact hdecimal n
  | negSucc n =>
    have h := hdecimal (n + 1)
    have hhead := PyFloat.head_decimal_ne (c := '-') rfl (n + 1) []
    rw [List.append_nil] at hhead
    simp only [Json.isNumber, if_neg hhead] at h
    simp only [signedDecimal, Json.isNumber, List.head?_cons, if_true, List.tail_cons]
    exact h

theorem isWord_signedDecimal (n : Int) : isWord (signedDecimal n) = true :=
  isWord_of_isNumber (isNumber_signedDecimal n)

def bodyOf (s : Unicode) : Body := ⟨escape s.val, by rw [units_escape]; rfl⟩

mutual

def docOf : PyValue → Doc
  | .none => .word ⟨['n', 'u', 'l', 'l'], rfl⟩
  | .bool true => .word ⟨['t', 'r', 'u', 'e'], rfl⟩
  | .bool false => .word ⟨['f', 'a', 'l', 's', 'e'], rfl⟩
  | .int n => .word ⟨signedDecimal n, isWord_signedDecimal n⟩
  | .float x => .word ⟨floatText x, isWord_floatText x⟩
  | .str s => .quoted (bodyOf s)
  | .list items => .arr (docsOf items)
  | .dict members => .obj (memberDocs members)

def docsOf : List PyValue → List Doc
  | [] => []
  | v :: vs => docOf v :: docsOf vs

def memberDocs : List (Unicode × PyValue) → List (Body × Doc)
  | [] => []
  | (k, v) :: ms => (bodyOf k, docOf v) :: memberDocs ms

end

def dumps (v : PyValue) : Str := render (docOf v)

/-! ## Reading a written value -/

theorem bodyOf_units (s : Unicode) : (bodyOf s).units = s.val.flatMap utf16 := by
  have h := (bodyOf s).units_eq
  rw [bodyOf, units_escape] at h
  exact (Option.some.inj h).symm

theorem text_bodyOf (s : Unicode) : python.text (bodyOf s).units = s := by
  rw [bodyOf_units]
  exact ofUnits_utf16 s

theorem scalar_floatText (x : Number) : scalar (floatText x) = some (.float x) := by
  match x with
  | .nan => rfl
  | .infinity false => rfl
  | .infinity true => rfl
  | .finite false x =>
    have hfloat := PyFloat.isFloat_repr x
    rw [floatText, scalar_of_isNumber (isNumber_of_isFloat hfloat), if_pos hfloat,
      PyFloat.float_repr]
  | .finite true x =>
    have hfloat := PyFloat.isFloat_neg_repr x
    rw [floatText, scalar_of_isNumber (isNumber_of_isFloat hfloat), if_pos hfloat,
      PyFloat.float_neg_repr]

theorem isFloat_signedDecimal (n : Int) : PyFloat.isFloat (signedDecimal n) = false := by
  have hdecimal (n : Nat) : (decimal n).any (fun c => c = '.' || c = 'e' || c = 'E') = false := by
    refine List.any_eq_false.mpr fun c hc => ?_
    have hne (d : Char) (hd : d.isDigit = false) : c ≠ d := fun he =>
      notMem_decimal hd n (he ▸ hc)
    simp [hne '.' rfl, hne 'e' rfl, hne 'E' rfl]
  cases n with
  | ofNat n => rw [PyFloat.isFloat, signedDecimal, hdecimal n, Bool.and_false]
  | negSucc n =>
    rw [PyFloat.isFloat, signedDecimal, List.any_cons, hdecimal (n + 1), Bool.or_false]
    exact Bool.and_false _

theorem int_signedDecimal (n : Int) : int (signedDecimal n) = n := by
  have hvalue (n : Nat) : PyFloat.digitsValue (decimal n) = n := Nat.ofDigitChars_ten_toDigits
  cases n with
  | negSucc n =>
    show -(PyFloat.digitsValue (decimal (n + 1)) : Int) = _
    rw [hvalue]
    omega
  | ofNat n =>
    have hhead := PyFloat.head_decimal_ne (c := '-') rfl n []
    rw [List.append_nil] at hhead
    show int (decimal n) = n
    unfold int
    split
    · rename_i heq
      rw [heq] at hhead
      exact absurd rfl hhead
    · rw [hvalue]

theorem scalar_signedDecimal (n : Int) : scalar (signedDecimal n) = some (.int n) := by
  rw [scalar_of_isNumber (isNumber_signedDecimal n), isFloat_signedDecimal, int_signedDecimal]
  rfl

mutual

/-- No dictionary in the value has a key twice. -/
def KeysOnce : PyValue → Prop
  | .list items => ItemsOnce items
  | .dict members => (members.map Prod.fst).Nodup ∧ MembersOnce members
  | _ => True

def ItemsOnce : List PyValue → Prop
  | [] => True
  | v :: vs => KeysOnce v ∧ ItemsOnce vs

def MembersOnce : List (Unicode × PyValue) → Prop
  | [] => True
  | (_, v) :: ms => KeysOnce v ∧ MembersOnce ms

end

theorem itemsOnce_iff {items : List PyValue} : ItemsOnce items ↔ ∀ v ∈ items, KeysOnce v := by
  induction items with
  | nil => simp [ItemsOnce]
  | cons v items ih => rw [ItemsOnce, ih, List.forall_mem_cons]

theorem membersOnce_iff {members : List (Unicode × PyValue)} :
    MembersOnce members ↔ ∀ m ∈ members, KeysOnce m.2 := by
  induction members with
  | nil => simp [MembersOnce]
  | cons m members ih => rw [MembersOnce, ih, List.forall_mem_cons]

mutual

theorem eval_docOf {v : PyValue} (h : KeysOnce v) : eval python (docOf v) = some v := by
  match v with
  | .none => rfl
  | .bool true => rfl
  | .bool false => rfl
  | .int n =>
    rw [docOf, eval]
    exact scalar_signedDecimal n
  | .float x =>
    rw [docOf, eval]
    exact scalar_floatText x
  | .str s =>
    rw [docOf, eval, text_bodyOf]
    rfl
  | .list items =>
    rw [docOf, eval, evalItems_docsOf h, Option.map_some]
    rfl
  | .dict members =>
    obtain ⟨hnd, hmembers⟩ := h
    rw [docOf, eval, evalMembers_memberDocs hmembers, Option.map_some]
    show some (PyValue.dict (Dict.setAll [] members)) = _
    rw [Dict.setAll_nodup hnd]

theorem evalItems_docsOf {items : List PyValue} (h : ItemsOnce items) :
    evalItems python (docsOf items) = some items := by
  match items with
  | [] => rfl
  | v :: vs =>
    rw [docsOf, evalItems, eval_docOf h.1, evalItems_docsOf h.2]
    rfl

theorem evalMembers_memberDocs {members : List (Unicode × PyValue)} (h : MembersOnce members) :
    evalMembers python (memberDocs members) = some members := by
  match members with
  | [] => rfl
  | (k, v) :: ms =>
    rw [memberDocs, evalMembers, eval_docOf h.1, evalMembers_memberDocs h.2, text_bodyOf]
    rfl

end

theorem loads_dumps {v : PyValue} (h : KeysOnce v) : loads (dumps v ++ ['\n']) = some v := by
  have hnewline : Json.Delimited ['\n'] := Json.delimited_cons rfl []
  rw [loads, parse, dumps, scan_render _ _ hnewline, eval_docOf h]
  rfl

theorem keysOnce_scalar {w : Str} {v : PyValue} (h : scalar w = some v) : KeysOnce v := by
  unfold scalar at h
  split at h
  · split at h <;> obtain rfl := Option.some.inj h <;> trivial
  · have hconstants : ∀ e ∈ constants, KeysOnce e.2 := by simp [constants, KeysOnce]
    exact hconstants (w, v) (Dict.mem_of_lookup h)

/-- The reader gives dictionaries without double keys. -/
theorem keysOnce_of_loads {text : Str} {v : PyValue} (h : loads text = some v) : KeysOnce v := by
  refine parse_has (A := python) ⟨fun w v hv => keysOnce_scalar hv, fun s => trivial,
    fun items hitems => itemsOnce_iff.mpr hitems, ?_⟩ h
  intro members hmembers
  refine ⟨Dict.nodup_setAll (d := []) List.nodup_nil members, membersOnce_iff.mpr fun m hm => ?_⟩
  rcases Dict.mem_setAll hm with hm | hm
  · cases hm
  · exact hmembers m hm

/-! ## Finite numbers -/

mutual

/-- Every number in the value is finite. -/
def isFinite : PyValue → Bool
  | .float .nan => false
  | .float (.infinity _) => false
  | .list items => itemsFinite items
  | .dict members => membersFinite members
  | _ => true

def itemsFinite : List PyValue → Bool
  | [] => true
  | v :: vs => isFinite v && itemsFinite vs

def membersFinite : List (Unicode × PyValue) → Bool
  | [] => true
  | (_, v) :: ms => isFinite v && membersFinite ms

end

theorem isSome_rfc_number {w : Str} (h : Json.isNumber w = true) : (rfc.scalar w).isSome = true := by
  have hnum : Json.scalar w = some (.num w) := if_pos h
  show (Json.scalar w).isSome = true
  rw [hnum]
  rfl

theorem isSome_rfc_floatText (x : Number) :
    (rfc.scalar (floatText x)).isSome = isFinite (.float x) := by
  match x with
  | .nan => rfl
  | .infinity false => rfl
  | .infinity true => rfl
  | .finite false x => exact isSome_rfc_number (isNumber_of_isFloat (PyFloat.isFloat_repr x))
  | .finite true x => exact isSome_rfc_number (isNumber_of_isFloat (PyFloat.isFloat_neg_repr x))

mutual

/-- What is written for a value is JSON exactly if its numbers are finite. -/
theorem isSome_eval_rfc (v : PyValue) : (eval rfc (docOf v)).isSome = isFinite v := by
  match v with
  | .none => rfl
  | .bool true => rfl
  | .bool false => rfl
  | .int n =>
    rw [docOf, eval]
    exact isSome_rfc_number (isNumber_signedDecimal n)
  | .float x =>
    rw [docOf, eval]
    exact isSome_rfc_floatText x
  | .str s => rfl
  | .list items =>
    rw [docOf, eval, Option.isSome_map, isSome_evalItems_rfc, isFinite]
  | .dict members =>
    rw [docOf, eval, Option.isSome_map, isSome_evalMembers_rfc, isFinite]

theorem isSome_evalItems_rfc (items : List PyValue) :
    (evalItems rfc (docsOf items)).isSome = itemsFinite items := by
  match items with
  | [] => rfl
  | v :: vs =>
    rw [docsOf, evalItems, itemsFinite, ← isSome_eval_rfc v, ← isSome_evalItems_rfc vs]
    cases eval rfc (docOf v) <;> simp

theorem isSome_evalMembers_rfc (members : List (Unicode × PyValue)) :
    (evalMembers rfc (memberDocs members)).isSome = membersFinite members := by
  match members with
  | [] => rfl
  | (k, v) :: ms =>
    rw [memberDocs, evalMembers, membersFinite, ← isSome_eval_rfc v, ← isSome_evalMembers_rfc ms]
    cases eval rfc (docOf v) <;> simp

end

theorem isSome_parse_dumps (v : PyValue) :
    (Json.parse (dumps v ++ ['\n'])).isSome = isFinite v := by
  have hnewline : Json.Delimited ['\n'] := Json.delimited_cons rfl []
  rw [parse_rfc, parse, dumps, scan_render _ _ hnewline, ← isSome_eval_rfc]
  cases eval rfc (docOf v) <;> rfl

/-! ## Line endings -/

/-- Line endings make no difference to a reader. -/
theorem parse_universalNewlines {S V : Type} (A : Algebra S V) (text : Str) :
    parse A (PyStr.universalNewlines text) = parse A text := by
  have hscan (σ : State S V) : scan A σ (PyStr.universalNewlines text) = scan A σ text := by
    fun_induction PyStr.universalNewlines text generalizing σ with
    | case1 rest ih =>
      rw [scan_carriageReturn, scan_newlines, scan, scan]
      exact Option.bind_congr fun σ' _ => ih σ'
    | case2 rest hne ih =>
      rw [scan_carriageReturn, scan, scan]
      exact Option.bind_congr fun σ' _ => ih σ'
    | case3 c rest h1 h2 ih =>
      rw [scan, scan]
      exact Option.bind_congr fun σ' _ => ih σ'
    | case4 => rfl
  exact hscan _

end Unitrace.Lib.PyJson
