import Unitrace.Itt.Precedence

/-!
# Two readers of one variable

`UniController` looks for the entry of the variable itself, from the end of the
environment and character by character. `Correlator` asks `getenv`. Both then decide
from the value whether collection is enabled.
-/
namespace Unitrace.Itt.EnableVariable

open Unitrace.Lib.ByteString Unitrace.Itt.Control Unitrace.Itt.Precedence

/-! ## The scan of the environment -/

/-- `s[i]` of a NUL-terminated string. -/
def charAt (s : Bytes) (i : Nat) : UInt8 := s.getD i 0

/-- `strncmp(s, t, n) == 0`. -/
def equalUpTo (n : Nat) (s t : Bytes) : Bool := s.take n == t.take n

/-- `sizeof("PTI_ENABLE_COLLECTION") - 1`. -/
def len : Nat := 21

/-- The test of one entry. -/
def isEntry (env : Bytes) : Bool :=
  charAt env 0 == 80 && charAt env 1 == 84 && charAt env 2 == 73 &&
    equalUpTo (len - 3) (env.drop 3) (lit "_ENABLE_COLLECTION") && charAt env len == 61

/-- The loop with the cursor behind the first `n` entries. -/
def scanBack (environ : List Bytes) : Nat → Option Bytes
  | 0 => none
  | n + 1 =>
    let env := environ.getD n []
    if isEntry env then some (env.drop (len + 1)) else scanBack environ n

/-- `UniController::IsCollectionEnabled` as it scans the environment. -/
def scanEnabled (c : UniController) : Bool :=
  if c.conditionalCollection then
    if c.ittPaused then false
    else
      match c.environ with
      | none => true
      | some entries =>
        match scanBack entries entries.length with
        | none => false
        | some value => charAt value 0 != 48
  else true

/-! ## The correlator -/

/-- `getenv` for the variable. -/
def getEntry (environ : List Bytes) : Option Bytes :=
  (environ.find? fun entry => enableCollection.isPrefixOf entry).map fun entry =>
    entry.drop enableCollection.length

/-- `utils::GetEnv`. -/
def getEnv (environ : Option (List Bytes)) : Bytes := ((environ.bind getEntry).getD [])

structure Correlator where
  conditionalCollection : Bool

def Correlator.isCollectionEnabled (c : Correlator) (environ : Option (List Bytes)) : Bool :=
  if c.conditionalCollection then
    let enabled := getEnv environ
    if enabled = [] ∨ enabled = lit "0" then false else true
  else true

/-! ## What the scan finds -/

theorem enableCollection_eq :
    enableCollection = 80 :: 84 :: 73 :: (lit "_ENABLE_COLLECTION" ++ [61]) := by decide +kernel

theorem length_suffix : (lit "_ENABLE_COLLECTION").length = len - 3 := by decide +kernel

theorem take_and_charAt_iff {s x : Bytes} {b : UInt8} (hb : b ≠ 0) :
    s.take x.length = x ∧ charAt s x.length = b ↔ x ++ [b] <+: s := by
  constructor
  · rintro ⟨htake, hchar⟩
    obtain ⟨c, hc⟩ : ∃ c, s[x.length]? = some c := by
      cases h : s[x.length]? with
      | none =>
        rw [charAt, List.getD_eq_getElem?_getD, h] at hchar
        exact absurd hchar.symm hb
      | some c => exact ⟨c, rfl⟩
    have hcb : c = b := by
      rw [charAt, List.getD_eq_getElem?_getD, hc] at hchar
      exact hchar
    refine ⟨s.drop (x.length + 1), ?_⟩
    have hsplit := List.take_append_drop (x.length + 1) s
    rw [List.take_add_one, htake, hc, hcb] at hsplit
    exact hsplit
  · rintro ⟨rest, rfl⟩
    rw [List.append_assoc, List.take_left]
    refine ⟨rfl, ?_⟩
    rw [charAt, List.getD_eq_getElem?_getD, List.getElem?_append_right (Nat.le_refl _), Nat.sub_self]
    rfl

/-- The comparisons at fixed offsets test for the name with its equals sign. -/
theorem isEntry_eq (env : Bytes) : isEntry env = enableCollection.isPrefixOf env := by
  rw [Bool.eq_iff_iff, List.isPrefixOf_iff_prefix, enableCollection_eq]
  have hrest (rest : Bytes) : equalUpTo (len - 3) rest (lit "_ENABLE_COLLECTION") = true ∧
      charAt rest (len - 3) = 61 ↔ lit "_ENABLE_COLLECTION" ++ [61] <+: rest := by
    rw [← take_and_charAt_iff (by decide), equalUpTo, beq_iff_eq, ← length_suffix, List.take_length]
  constructor
  · intro h
    simp only [isEntry, Bool.and_eq_true, beq_iff_eq] at h
    obtain ⟨⟨⟨⟨hP, hT⟩, hI⟩, hname⟩, heq⟩ := h
    cases env with
    | nil => cases hP
    | cons a env =>
      cases env with
      | nil => cases hT
      | cons b env =>
        cases env with
        | nil => cases hI
        | cons c env =>
          obtain rfl : a = 80 := hP
          obtain rfl : b = 84 := hT
          obtain rfl : c = 73 := hI
          rw [List.cons_prefix_cons, List.cons_prefix_cons, List.cons_prefix_cons]
          exact ⟨rfl, rfl, rfl, (hrest env).mp ⟨hname, heq⟩⟩
  · rintro ⟨rest, rfl⟩
    obtain ⟨hname, heq⟩ := (hrest (lit "_ENABLE_COLLECTION" ++ [61] ++ rest)).mpr ⟨rest, rfl⟩
    simp only [isEntry, Bool.and_eq_true, beq_iff_eq]
    exact ⟨⟨⟨⟨rfl, rfl⟩, rfl⟩, hname⟩, heq⟩

theorem scanBack_eq (entries : List Bytes) {n : Nat} (hn : n ≤ entries.length) :
    scanBack entries n =
      ((entries.take n).reverse.find? fun entry => enableCollection.isPrefixOf entry).map
        fun entry => entry.drop enableCollection.length := by
  have hlen : len + 1 = enableCollection.length := by decide +kernel
  induction n with
  | zero => rfl
  | succ n ih =>
    have hget : entries[n]? = some entries[n] := List.getElem?_eq_getElem hn
    have hgetD : entries.getD n [] = entries[n] := by
      rw [List.getD_eq_getElem?_getD, hget]
      rfl
    rw [scanBack, List.take_add_one, hget, List.reverse_append]
    show (if isEntry (entries.getD n []) then _ else _) =
      (List.find? _ (entries[n] :: (entries.take n).reverse)).map _
    rw [hgetD, isEntry_eq, List.find?_cons, hlen]
    cases enableCollection.isPrefixOf entries[n] with
    | true => rfl
    | false => exact ih (Nat.le_of_succ_le hn)

theorem charAt_zero_bne (value : Bytes) : (charAt value 0 != 48) = (value.head? != some 48) := by
  cases value with
  | nil => rfl
  | cons b value => rfl

/-- The scan finds the last entry of the variable. -/
theorem scanEnabled_eq (c : UniController) : scanEnabled c = c.isCollectionEnabled := by
  obtain ⟨conditional, paused, environ⟩ := c
  cases environ with
  | none => rfl
  | some entries =>
    have hscan : scanBack entries entries.length = lastValue entries := by
      rw [scanBack_eq entries (Nat.le_refl _), List.take_length, lastValue]
    unfold scanEnabled UniController.isCollectionEnabled
    simp only [hscan]
    cases lastValue entries with
    | none => rfl
    | some value => simp only [charAt_zero_bne]

theorem isCollectionEnabled_some (entries : List Bytes) :
    UniController.isCollectionEnabled ⟨true, false, some entries⟩ =
      (lastValue entries).any fun value => value.head? != some 48 := by
  unfold UniController.isCollectionEnabled
  simp only [if_true, Bool.false_eq_true, if_false]
  cases lastValue entries with
  | none => rfl
  | some value => rfl

/-! ## Where the readers agree -/

/-- The environment of a process, in which the variable is defined at most once. -/
structure EnvBlock where
  strings : List CStr
  once : (occurrences (strings.map Subtype.val)).length ≤ 1

def EnvBlock.entries (block : EnvBlock) : List Bytes := block.strings.map Subtype.val

/-- The value of the variable, if it is defined, decides about collection only if it is
`0` or does not begin with that. -/
def PlainValue (block : EnvBlock) : Prop :=
  ∀ value, getEntry block.entries = some value →
    value ≠ [] ∧ (value.head? = some 48 → value = lit "0")

/-- With one entry at most it makes no difference from which end it is looked for. -/
theorem lastValue_eq_getEntry (block : EnvBlock) :
    lastValue block.entries = getEntry block.entries := by
  have honce := block.once
  rw [lastValue, getEntry]
  congr 1
  rw [← List.head?_filter, ← List.head?_filter, List.filter_reverse]
  change (occurrences block.entries).reverse.head? = (occurrences block.entries).head?
  change (occurrences block.entries).length ≤ 1 at honce
  cases h : occurrences block.entries with
  | nil => rfl
  | cons entry more =>
    cases more with
    | nil => rfl
    | cons second more =>
      rw [h, List.length_cons, List.length_cons] at honce
      omega

/-- The controller and the correlator give the same answer exactly if the value of the
variable is neither empty nor a longer text that begins with a zero. -/
theorem readers_agree_iff (block : EnvBlock) :
    scanEnabled ⟨true, false, some block.entries⟩ =
        (Correlator.mk true).isCollectionEnabled (some block.entries) ↔
      PlainValue block := by
  have hcontroller : scanEnabled ⟨true, false, some block.entries⟩ =
      (getEntry block.entries).any fun value => value.head? != some 48 := by
    rw [scanEnabled_eq, isCollectionEnabled_some, lastValue_eq_getEntry]
  have hcorrelator : (Correlator.mk true).isCollectionEnabled (some block.entries) =
      if (getEntry block.entries).getD [] = [] ∨ (getEntry block.entries).getD [] = lit "0" then
        false else true := rfl
  rw [hcontroller, hcorrelator, PlainValue]
  cases getEntry block.entries with
  | none => simp
  | some value =>
    have hzero : lit "0" = [48] := by decide +kernel
    rw [hzero]
    simp only [Option.getD_some, Option.some.injEq, forall_eq']
    cases value with
    | nil => simp
    | cons b value =>
      by_cases hb : b = 48
      · simp [hb]
      · simp [hb]

/-- An environment of one entry. -/
def single (entry : CStr) : EnvBlock where
  strings := [entry]
  once := List.length_filter_le _ _

/-- An empty value enables collection for the controller only, and `00` for the
correlator only. -/
theorem readers_disagree :
    scanEnabled ⟨true, false,
        some (single ⟨lit "PTI_ENABLE_COLLECTION=", by decide +kernel⟩).entries⟩ = true ∧
      (Correlator.mk true).isCollectionEnabled
        (some (single ⟨lit "PTI_ENABLE_COLLECTION=", by decide +kernel⟩).entries) = false ∧
      scanEnabled ⟨true, false,
        some (single ⟨lit "PTI_ENABLE_COLLECTION=00", by decide +kernel⟩).entries⟩ = false ∧
      (Correlator.mk true).isCollectionEnabled
        (some (single ⟨lit "PTI_ENABLE_COLLECTION=00", by decide +kernel⟩).entries) = true := by
  decide +kernel

end Unitrace.Itt.EnableVariable
