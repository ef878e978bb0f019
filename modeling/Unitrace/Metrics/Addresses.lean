import Unitrace.Lib.Hexadecimal
import Unitrace.Metrics.SbidSearch

/-!
# Addresses in an assembly listing

`AnalyzeStalls` tests whether every instruction of a listing carries its address in
front, and writes a listing that does if it is not so. The script `addrasm` writes such
a listing too. A stalled instruction is later looked up by its address.
-/
namespace Unitrace.Metrics.Addresses

open Unitrace.Lib.Text Unitrace.Lib.PyStr Unitrace.Lib.Hexadecimal Unitrace.Metrics.SbidSearch

/-- `for row in inf` on the text of a file -/
def rowsOf (text : Str) : List Str := lines (universalNewlines text)

def addressPrefix (ip : Int) : Str := chars "/* [" ++ format08X ip ++ chars "] */ "

def instructionSize (row : Str) : Nat := if chars "Compacted" <:+: row then 8 else 16

/-! ## `AnalyzeStalls` -/

/-- The loop that tests the addresses. -/
def checkAddresses : Nat → Bool → List Str → Bool
  | _, addressed, [] => addressed
  | ip, addressed, row :: rest =>
    if isInstruction row then
      let addressed := if addressPrefix ip <+: row then addressed else false
      checkAddresses (ip + instructionSize row) addressed rest
    else checkAddresses ip addressed rest

/-- The loop that adds the addresses; what it writes, row by row. -/
def addAddresses : Nat → List Str → List Str
  | _, [] => []
  | ip, row :: rest =>
    if isInstruction row then
      (addressPrefix ip ++ row) :: addAddresses (ip + instructionSize row) rest
    else row :: addAddresses ip rest

/-- The text of the file that the analysis goes on with: the listing itself, or the one
with addresses. -/
def addressedListing (text : Str) : Str :=
  if checkAddresses 0 true (rowsOf text) then text else (addAddresses 0 (rowsOf text)).flatten

/-! ## `addrasm` -/

structure Output where
  ip : Nat := 0
  outf : Str := []

def Output.row (out : Output) (row : Str) : Output :=
  if isInstruction row then
    { ip := if chars "Compacted" <:+: row then out.ip + 8 else out.ip + 16
      outf := out.outf ++ (addressPrefix out.ip ++ row) }
  else { out with outf := out.outf ++ row }

/-- The text that `addrasm` writes for a listing. -/
def addrasm (text : Str) : Str := ((rowsOf text).foldl Output.row {}).outf

/-! ## What should hold of the addresses -/

/-- The sizes of the instructions before row `i`. -/
def addressOf (rows : List Str) (i : Nat) : Nat :=
  (((rows.take i).filter isInstruction).map instructionSize).sum

/-- Takes the address away from every instruction that carries its own. -/
def removeAddresses : Nat → List Str → List Str
  | _, [] => []
  | ip, row :: rest =>
    if isInstruction row then
      let row' := if addressPrefix ip <+: row then row.drop (addressPrefix ip).length else row
      row' :: removeAddresses (ip + instructionSize row) rest
    else row :: removeAddresses ip rest

/-- No row starts with an address. -/
def Unaddressed (rows : List Str) : Prop := ∀ row ∈ rows, ∀ pc, ¬addressPrefix pc <+: row

/-- The rows with addresses `out` that belong to the rows `rows` without. -/
structure Addressed (rows out : List Str) : Prop where
  removed : removeAddresses 0 out = rows
  checked : checkAddresses 0 true out = true
  /-- A row that starts with an address is the instruction at that address. -/
  own : ∀ (pc : Int) (i : Nat) (row : Str), out[i]? = some row → addressPrefix pc <+: row →
    ∃ ins, rows[i]? = some ins ∧ isInstruction ins = true ∧ pc = addressOf rows i
  unique : ∀ (pc : Int) (i j : Nat) (row row' : Str), out[i]? = some row → out[j]? = some row' →
    addressPrefix pc <+: row → addressPrefix pc <+: row' → i = j
  /-- Every instruction starts with its address. -/
  found : ∀ (i : Nat) (ins : Str), rows[i]? = some ins → isInstruction ins = true →
    ∃ row, out[i]? = some row ∧ addressPrefix (addressOf rows i) <+: row

/-! ## An address in front of a row -/

theorem start_eq : chars "/* [" = ['/', '*', ' ', '['] := chars_ofList _

theorem end_eq : chars "] */ " = [']', ' ', '*', '/', ' '] := chars_ofList _

theorem notMem_format08X {c : Char} (hsign : c ≠ '-') (hdigit : isHexDigit c = false) (ip : Int) :
    c ∉ format08X ip := by
  intro h
  rcases mem_format08X h with h | h
  · exact hsign h
  · rw [hdigit] at h
    cases h

theorem notMem_addressPrefix {c : Char} (hsign : c ≠ '-') (hdigit : isHexDigit c = false)
    (hstart : c ∉ ['/', '*', ' ', '[', ']']) (ip : Int) : c ∉ addressPrefix ip := by
  rw [addressPrefix, start_eq, end_eq]
  simp only [List.mem_append, not_or]
  refine ⟨⟨?_, notMem_format08X hsign hdigit ip⟩, ?_⟩ <;>
    (intro h; apply hstart; simp only [List.mem_cons, List.not_mem_nil, or_false] at h ⊢; tauto)

/-- Rows that start with two addresses start with one. -/
theorem addressPrefix_unique {pc ip : Int} {row rest : Str} (hrow : row = addressPrefix ip ++ rest)
    (h : addressPrefix pc <+: row) : pc = ip := by
  obtain ⟨tail, htail⟩ := h
  have hbracket (n : Int) : ']' ∉ format08X n := notMem_format08X (by decide) (by decide) n
  rw [hrow] at htail
  simp only [addressPrefix, end_eq, List.append_assoc, List.cons_append, List.nil_append,
    List.append_cancel_left_eq] at htail
  exact format08X_injective (append_cons_cancel (hbracket pc) (hbracket ip) htail).1

theorem isInstruction_iff (row : Str) :
    isInstruction row = true ↔ ¬chars "//" <+: row ∧ chars "//" <:+: row := by
  rw [isInstruction, Bool.and_eq_true, Bool.not_eq_true', decide_eq_true_eq,
    ← Bool.not_eq_true, List.isPrefixOf_iff_prefix]

/-- An instruction with an address in front is an instruction. -/
theorem isInstruction_append (ip : Int) {row : Str} (h : isInstruction row = true) :
    isInstruction (addressPrefix ip ++ row) = true := by
  rw [isInstruction_iff] at h ⊢
  refine ⟨?_, List.infix_append_of_infix_right h.2⟩
  rw [addressPrefix, start_eq, show chars "//" = ['/', '/'] from chars_ofList _]
  simp

/-- The text `Compacted` is not part of an address, and does not begin in one. -/
theorem compacted_append (ip : Int) (row : Str) :
    chars "Compacted" <:+: addressPrefix ip ++ row ↔ chars "Compacted" <:+: row := by
  constructor
  · intro h
    have ho : 'o' ∉ addressPrefix ip := notMem_addressPrefix (by decide) (by decide) (by decide) ip
    rw [show chars "Compacted" = ['C', 'o', 'm', 'p', 'a', 'c', 't', 'e', 'd'] from
      chars_ofList _] at h ⊢
    rcases List.infix_append_iff_ne_nil.mp h with h | h | ⟨s, t, hs, ht, heq, hsuffix, -⟩
    · exact absurd (h.subset (by simp)) ho
    · exact h
    · -- The part in the address would end in a blank, as the address does.
      have hlast : (addressPrefix ip).getLast? = some ' ' := by
        rw [addressPrefix, end_eq]
        simp
      obtain ⟨u, hu⟩ := hsuffix
      rw [← hu, List.getLast?_append_of_ne_nil u hs] at hlast
      have hmem : ' ' ∈ s ++ t := List.mem_append_left t (List.mem_of_getLast? hlast)
      rw [← heq] at hmem
      exact absurd hmem (by decide)
  · exact List.infix_append_of_infix_right

theorem instructionSize_append (ip : Int) (row : Str) :
    instructionSize (addressPrefix ip ++ row) = instructionSize row := by
  simp only [instructionSize, compacted_append]

theorem instructionSize_pos (row : Str) : 0 < instructionSize row := by
  unfold instructionSize
  split <;> decide

/-! ## The rows that are written -/

theorem getElem?_add (rows : List Str) (ip i : Nat) :
    (addAddresses ip rows)[i]? = rows[i]?.map fun row =>
      if isInstruction row then addressPrefix ((ip + addressOf rows i : Nat) : Int) ++ row
      else row := by
  induction rows generalizing ip i with
  | nil => rfl
  | cons row rest ih =>
    rw [addAddresses]
    cases hrow : isInstruction row with
    | true =>
      rw [if_pos rfl]
      cases i with
      | zero => simp [addressOf, hrow]
      | succ i =>
        have hstep : ip + addressOf (row :: rest) (i + 1) =
            ip + instructionSize row + addressOf rest i := by
          simp only [addressOf, List.take_succ_cons, List.filter_cons_of_pos hrow, List.map_cons,
            List.sum_cons, Nat.add_assoc]
        rw [List.getElem?_cons_succ, List.getElem?_cons_succ, ih, hstep]
    | false =>
      rw [if_neg Bool.false_ne_true]
      cases i with
      | zero => simp [hrow]
      | succ i =>
        have hstep : addressOf (row :: rest) (i + 1) = addressOf rest i := by
          simp [addressOf, hrow]
        rw [List.getElem?_cons_succ, List.getElem?_cons_succ, ih, hstep]

/-- The prefix does not change how a row counts on the next pass. -/
theorem check_add (rows : List Str) (ip : Nat) :
    checkAddresses ip true (addAddresses ip rows) = true := by
  induction rows generalizing ip with
  | nil => rfl
  | cons row rest ih =>
    rw [addAddresses]
    by_cases hrow : isInstruction row = true
    · rw [if_pos hrow, checkAddresses, if_pos (isInstruction_append ip hrow),
        if_pos (List.prefix_append _ _), instructionSize_append]
      exact ih _
    · rw [if_neg hrow, checkAddresses, if_neg hrow]
      exact ih ip

theorem remove_add (rows : List Str) (ip : Nat) :
    removeAddresses ip (addAddresses ip rows) = rows := by
  induction rows generalizing ip with
  | nil => rfl
  | cons row rest ih =>
    rw [addAddresses]
    by_cases hrow : isInstruction row = true
    · rw [if_pos hrow, removeAddresses, if_pos (isInstruction_append ip hrow),
        if_pos (List.prefix_append _ _), instructionSize_append, List.drop_left, ih]
    · rw [if_neg hrow, removeAddresses, if_neg hrow, ih]

theorem check_false (rows : List Str) (ip : Nat) : checkAddresses ip false rows = false := by
  induction rows generalizing ip with
  | nil => rfl
  | cons row rest ih =>
    rw [checkAddresses]
    split
    · rw [ite_self]
      exact ih _
    · exact ih ip

/-- A listing without addresses passes the test only if it has no instruction. -/
theorem add_of_check {rows : List Str} (h : Unaddressed rows) (ip : Nat)
    (hcheck : checkAddresses ip true rows = true) : addAddresses ip rows = rows := by
  induction rows generalizing ip with
  | nil => rfl
  | cons row rest ih =>
    obtain ⟨hrow, hrest⟩ := List.forall_mem_cons.mp h
    rw [checkAddresses, if_neg (hrow ip)] at hcheck
    rw [addAddresses]
    split at hcheck
    · rw [check_false] at hcheck
      cases hcheck
    · rename_i hno
      rw [if_neg hno, ih hrest ip hcheck]

theorem addrasm_rows (rows : List Str) (out : Output) :
    (rows.foldl Output.row out).outf = out.outf ++ (addAddresses out.ip rows).flatten := by
  induction rows generalizing out with
  | nil => exact (List.append_nil _).symm
  | cons row rest ih =>
    rw [List.foldl_cons, ih, addAddresses, Output.row]
    split
    · simp only [instructionSize, List.flatten_cons, List.append_assoc, ← apply_ite (out.ip + ·)]
    · rw [List.flatten_cons, List.append_assoc]

theorem addrasm_eq (text : Str) : addrasm text = (addAddresses 0 (rowsOf text)).flatten :=
  addrasm_rows (rowsOf text) {}

theorem forall₂_add {c : Char} (hc : ∀ ip, c ∉ addressPrefix ip) (rows : List Str) (ip : Nat) :
    List.Forall₂ (fun row row' => ∃ p, c ∉ p ∧ row' = p ++ row) rows (addAddresses ip rows) := by
  induction rows generalizing ip with
  | nil => exact .nil
  | cons row rest ih =>
    rw [addAddresses]
    split
    · exact .cons ⟨addressPrefix ip, hc ip, rfl⟩ (ih _)
    · exact .cons ⟨[], List.not_mem_nil, rfl⟩ (ih ip)

/-- The listing with addresses is read as the rows that were written. -/
theorem rowsOf_add (text : Str) :
    rowsOf (addAddresses 0 (rowsOf text)).flatten = addAddresses 0 (rowsOf text) := by
  have hnewline := notMem_addressPrefix (c := '\n') (by decide) (by decide) (by decide)
  have hreturn := notMem_addressPrefix (c := '\r') (by decide) (by decide) (by decide)
  have hlines : AreLines (addAddresses 0 (rowsOf text)) :=
    areLines_of_forall₂ (forall₂_add hnewline _ 0) (areLines_lines (universalNewlines text))
  have hrows : '\r' ∉ (rowsOf text).flatten := by
    rw [rowsOf, flatten_lines]
    exact notMem_universalNewlines text
  have hout := notMem_flatten (forall₂_add hreturn _ 0) hrows
  rw [rowsOf, universalNewlines_of_notMem hout, lines_of_areLines hlines]

theorem addressOf_lt {rows : List Str} {i j : Nat} {ins : Str} (hget : rows[i]? = some ins)
    (hins : isInstruction ins = true) (hij : i < j) : addressOf rows i < addressOf rows j := by
  induction rows generalizing i j with
  | nil => cases hget
  | cons row rest ih =>
    obtain ⟨j, rfl⟩ := Nat.exists_eq_succ_of_ne_zero (Nat.ne_of_gt (Nat.zero_lt_of_lt hij))
    cases i with
    | zero =>
      cases hget
      have hpos := instructionSize_pos ins
      simp only [addressOf, List.take_zero, List.filter_nil, List.map_nil, List.sum_nil,
        List.take_succ_cons, List.filter_cons_of_pos hins, List.map_cons, List.sum_cons]
      omega
    | succ i =>
      have hlt := ih hget (Nat.lt_of_succ_lt_succ hij)
      cases hrow : isInstruction row with
      | true =>
        simp only [addressOf, List.take_succ_cons, List.filter_cons_of_pos hrow, List.map_cons,
          List.sum_cons] at hlt ⊢
        omega
      | false => simpa [addressOf, hrow] using hlt

/-- The row that starts with an address is an instruction at that address. -/
theorem own_address {rows : List Str} (h : Unaddressed rows) {pc : Int} {i : Nat} {row : Str}
    (hget : (addAddresses 0 rows)[i]? = some row) (hpc : addressPrefix pc <+: row) :
    ∃ ins, rows[i]? = some ins ∧ isInstruction ins = true ∧ pc = addressOf rows i := by
  rw [getElem?_add] at hget
  obtain ⟨ins, hins, hrow⟩ := Option.map_eq_some_iff.mp hget
  split at hrow
  · rename_i hinstruction
    refine ⟨ins, hins, hinstruction, ?_⟩
    rw [addressPrefix_unique hrow.symm hpc, Nat.zero_add]
  · rw [← hrow] at hpc
    exact absurd hpc (h ins (List.mem_of_getElem? hins) pc)

theorem addressed_add {rows : List Str} (h : Unaddressed rows) :
    Addressed rows (addAddresses 0 rows) where
  removed := remove_add rows 0
  checked := check_add rows 0
  own := fun _ _ _ hget hpc => own_address h hget hpc
  unique := by
    intro pc i j row row' hi hj hrow hrow'
    obtain ⟨ins, hins, hinstruction, hpc⟩ := own_address h hi hrow
    obtain ⟨ins', hins', hinstruction', hpc'⟩ := own_address h hj hrow'
    rcases Nat.lt_trichotomy i j with hlt | heq | hgt
    · have := addressOf_lt hins hinstruction hlt
      omega
    · exact heq
    · have := addressOf_lt hins' hinstruction' hgt
      omega
  found := by
    intro i ins hins hinstruction
    refine ⟨addressPrefix (addressOf rows i) ++ ins, ?_, List.prefix_append _ _⟩
    rw [getElem?_add, hins, Option.map_some, if_pos hinstruction, Nat.zero_add]

/-- The two writers give the same listing, and its addresses are those of the instructions. -/
theorem addresses_agree (text : Str) (h : Unaddressed (rowsOf text)) :
    rowsOf (addressedListing text) = rowsOf (addrasm text) ∧
      Addressed (rowsOf text) (rowsOf (addrasm text)) := by
  rw [addrasm_eq, rowsOf_add]
  refine ⟨?_, addressed_add h⟩
  rw [addressedListing]
  split
  · rename_i hcheck
    exact (add_of_check h 0 hcheck).symm
  · exact rowsOf_add text

/-- A listing whose first instruction is half as long as the second. -/
def compactedListing : Str :=
  ['/', '/', 'a', '\n', 'b', ' ', '/', '/', 'C', 'o', 'm', 'p', 'a', 'c', 't', 'e', 'd', '\n',
    '/', '/', ' ', 'L', 'i', 'n', 'e', '\n', 'c', ' ', '/', '/', 'd', '\n', 'e', ' ', '/', '/', '\n']

theorem unaddressed_compactedListing : Unaddressed (rowsOf compactedListing) := by
  have hrows : ∀ row ∈ rowsOf compactedListing, ¬ ['/', '*', ' ', '['] <+: row := by decide +kernel
  intro row hrow pc h
  refine hrows row hrow (.trans ?_ h)
  rw [addressPrefix, start_eq, List.append_assoc]
  exact List.prefix_append _ _

theorem addresses_agree_compactedListing :
    rowsOf (addressedListing compactedListing) = rowsOf (addrasm compactedListing) ∧
      Addressed (rowsOf compactedListing) (rowsOf (addrasm compactedListing)) :=
  addresses_agree compactedListing unaddressed_compactedListing

end Unitrace.Metrics.Addresses
