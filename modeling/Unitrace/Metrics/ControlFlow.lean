import Mathlib.Data.Set.Finite.Basic
import Unitrace.Lib.Dict
import Unitrace.Lib.PyStr
import Unitrace.Lib.Worklist

/-!
# The basic blocks of a listing

`ConstructCFG` reads the basic blocks from the comments that head them: a block goes
on to the line before the next head, and names its predecessors and successors.
-/
namespace Unitrace.Metrics.ControlFlow

open Unitrace.Lib Unitrace.Lib.Text Unitrace.Lib.PyStr

/-- `re.match("// *word", ins)` -/
def comment (word ins : Str) : Bool :=
  match ins with
  | '/' :: '/' :: rest => word.isPrefixOf (rest.dropWhile (· = ' '))
  | _ => false

def isHeader (ins : Str) : Bool :=
  comment ['B'] ins && decide (chars "Preds" <:+: ins) && decide (chars "Succs" <:+: ins)

/-- A basic block, from the line `head` to the line `tail`. -/
structure BB where
  bid : Str
  head : Int
  tail : Int
  preds : List Str
  succs : List Str
  deriving DecidableEq

def BB.inBB (bb : BB) (ins : Int) : Bool := bb.head ≤ ins && ins ≤ bb.tail

abbrev Blocks := List (Str × BB)

def headerId (ins : Str) : Except PyErr Str := do
  let word ← nth (ins.splitOn ' ') 1
  return strip (before ':' word)

/-- The ids in the braces after `Preds` or `Succs`. -/
def idsAfter (word ins : Str) : Except PyErr (List Str) := do
  let after ← nth (splitStr word ins) 1
  let braced ← nth (after.splitOn '\x7b') 1
  return (((before '\x7d' braced).splitOn ',').map strip).filter (· ≠ [])

/-- The block that is open at a line is stored when its last line is known. -/
def close (bbs : Blocks) (current : Option (Int → BB)) (tail : Int) : Blocks :=
  match current with
  | none => bbs
  | some bb => Dict.set bbs (bb tail).bid (bb tail)

def constructFrom : Int → Blocks → Option (Int → BB) → List Str → Except PyErr Blocks
  | addr, bbs, current, [] => .ok (close bbs current (addr - 1))
  | addr, bbs, current, ins :: rest =>
    if isHeader ins then do
      let bid ← headerId ins
      let preds ← idsAfter (chars "Preds") ins
      let succs ← idsAfter (chars "Succs") ins
      constructFrom (addr + 1) (close bbs current (addr - 1))
        (some fun tail => ⟨bid, addr, tail, preds, succs⟩) rest
    else constructFrom (addr + 1) bbs current rest

/-- At least one basic block exists. -/
def constructCFG (instructions : List Str) : Except PyErr Blocks := do
  let bbs ← constructFrom 0 [] none instructions
  if bbs = [] then
    return [(chars "B000", ⟨chars "B000", 0, instructions.length - 1, [], []⟩)]
  else return bbs

def findBB (bbs : Blocks) (ins : Int) : Option (Str × BB) := bbs.find? fun e => e.2.inBB ins

theorem close_head {bbs : Blocks} {current : Option (Int → BB)} (h : ∀ e ∈ bbs, 0 ≤ e.2.head)
    (hcurrent : ∀ bb ∈ current, ∀ tail, 0 ≤ (bb tail).head) (tail : Int) :
    ∀ e ∈ close bbs current tail, 0 ≤ e.2.head := by
  intro e he
  cases current with
  | none => exact h e he
  | some bb =>
    rcases Dict.mem_set he with rfl | he
    · exact hcurrent bb rfl tail
    · exact h e he

theorem constructFrom_head {addr : Int} {bbs bbs' : Blocks} {current : Option (Int → BB)}
    {instructions : List Str} (haddr : 0 ≤ addr) (h : ∀ e ∈ bbs, 0 ≤ e.2.head)
    (hcurrent : ∀ bb ∈ current, ∀ tail, 0 ≤ (bb tail).head)
    (hcfg : constructFrom addr bbs current instructions = .ok bbs') :
    ∀ e ∈ bbs', 0 ≤ e.2.head := by
  induction instructions generalizing addr bbs current with
  | nil =>
    obtain rfl := Except.ok.inj hcfg
    exact close_head h hcurrent _
  | cons ins rest ih =>
    rw [constructFrom] at hcfg
    split at hcfg
    · obtain ⟨bid, -, hcfg⟩ := bind_eq_ok hcfg
      obtain ⟨preds, -, hcfg⟩ := bind_eq_ok hcfg
      obtain ⟨succs, -, hcfg⟩ := bind_eq_ok hcfg
      refine ih (by omega) (close_head h hcurrent _) ?_ hcfg
      intro bb hbb tail
      obtain rfl := Option.some.inj hbb
      exact haddr
    · exact ih (by omega) h hcurrent hcfg

/-- A block starts at a line of the listing. -/
theorem head_nonneg {instructions : List Str} {bbs : Blocks}
    (hcfg : constructCFG instructions = .ok bbs) : ∀ e ∈ bbs, 0 ≤ e.2.head := by
  obtain ⟨found, hfrom, hcfg⟩ := bind_eq_ok hcfg
  have hhead := constructFrom_head (Int.le_refl 0) (by simp) (by simp) hfrom
  split at hcfg
  · obtain rfl := Except.ok.inj hcfg
    simp
  · obtain rfl := Except.ok.inj hcfg
    exact hhead

/-! ## Predecessors -/

def predsOf (bbs : Blocks) (bid : Str) : List Str :=
  match List.lookup bid bbs with
  | some bb => bb.preds
  | none => []

/-- Every predecessor id names a block of the listing. -/
def Closed (bbs : Blocks) : Prop := ∀ e ∈ bbs, ∀ b ∈ e.2.preds, b ∈ bbs.map Prod.fst

/-- No basic block from which the block can be reached lies on a loop. -/
def NoLoopBehind (bbs : Blocks) (bid : Str) : Prop := Worklist.Acyclic (predsOf bbs) [bid]

theorem mem_predsOf {bbs : Blocks} {bid b : Str} (h : b ∈ predsOf bbs bid) :
    ∃ bb, List.lookup bid bbs = some bb ∧ b ∈ bb.preds := by
  unfold predsOf at h
  split at h
  · rename_i bb hlookup
    exact ⟨bb, hlookup, h⟩
  · cases h

theorem Closed.mem_preds {bbs : Blocks} (h : Closed bbs) {bid b : Str} (hb : b ∈ predsOf bbs bid) :
    b ∈ bbs.map Prod.fst := by
  obtain ⟨bb, hlookup, hb⟩ := mem_predsOf hb
  exact h (bid, bb) (Dict.mem_of_lookup hlookup) b hb

theorem lookup_of_mem_keys {bbs : Blocks} {b : Str} (h : b ∈ bbs.map Prod.fst) :
    ∃ bb, List.lookup b bbs = some bb := by
  cases hlookup : List.lookup b bbs with
  | some bb => exact ⟨bb, rfl⟩
  | none =>
    obtain ⟨e, he, rfl⟩ := List.mem_map.mp h
    have hne := List.lookup_eq_none_iff.mp hlookup e he
    simp at hne

/-- Only finitely many blocks lie behind a block of a closed graph. -/
theorem Closed.finite_reachable {bbs : Blocks} (h : Closed bbs) (bid : Str) :
    {b | Worklist.Reachable (predsOf bbs) [bid] b}.Finite := by
  refine (bid :: bbs.map Prod.fst).finite_toSet.subset ?_
  intro b hb
  obtain ⟨a, ha, hab⟩ := hb
  obtain rfl := List.mem_singleton.mp ha
  rcases Relation.ReflTransGen.cases_tail hab with heq | ⟨c, -, hcb⟩
  · exact heq ▸ List.mem_cons_self
  · exact List.mem_cons_of_mem _ (h.mem_preds hcb)

end Unitrace.Metrics.ControlFlow
