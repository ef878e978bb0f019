import Unitrace.Metrics.ControlFlow

/-!
# The backward search for stalling instructions

An instruction that waits for SBID tokens is stalled by the instructions that set
them. `AnalyzeStalls` reads the lines above it, and then block by block the lines of
the predecessors, until every token is resolved or no block is left.
-/
namespace Unitrace.Metrics.SbidSearch

open Unitrace.Lib Unitrace.Lib.Text Unitrace.Lib.PyStr Unitrace.Metrics.ControlFlow

/-! ## Tokens of an instruction -/

def isInstruction (ins : Str) : Bool :=
  !(chars "//").isPrefixOf ins && decide (chars "//" <:+: ins)

/-- `re.match(r"/\* *\[", ins)` -/
def addressed (ins : Str) : Bool :=
  match ins with
  | '/' :: '*' :: rest => ['['].isPrefixOf (rest.dropWhile (· = ' '))
  | _ => false

def isToken (token : Str) : Bool := ['$'].isPrefixOf token

def dotted (token : Str) : Bool := token.contains '.'

/-- The tokens in the first pair of braces. -/
def bracedTokens (ins : Str) : List Str :=
  match ins.splitOn '\x7b' with
  | _ :: word :: _ => ((before '\x7d' word).splitOn ',').filter isToken
  | _ => []

def movesData (ins : Str) : Bool :=
  decide (chars "load" <:+: ins) || decide (chars "store" <:+: ins) ||
    decide (chars "send" <:+: ins) || decide (chars "EOT" <:+: ins)

/-- An instruction that moves data waits only for tokens with a suffix. -/
def waitedFor (ins : Str) (tokens : List Str) : List Str :=
  if movesData ins then tokens.filter dotted else tokens

/-- The tokens in the first pair of parentheses that has any. -/
def parenTokens : List Str → List Str
  | [] => []
  | word :: words =>
    let tokens := ((before ')' word).splitOn ',').filter isToken
    if tokens ≠ [] then tokens else parenTokens words

/-- The tokens for which the stalled instruction waits. -/
def stalledSbids (ins : Str) : List Str :=
  let sbidsStalled := waitedFor ins (bracedTokens ins)
  if sbidsStalled ≠ [] then sbidsStalled
  else waitedFor ins (parenTokens ((ins.splitOn '(').drop 1))

/-- The tokens in the braces of a line that is an instruction. -/
def sbidsStall (ins : Str) : List Str :=
  if isInstruction ins && addressed ins then bracedTokens ins else []

def hasSync (ins : Str) : Bool := decide (chars "sync." <:+: ins)

/-- The token `sbid2` of a line resolves the token `sbid` of the stalled instruction. -/
def resolves (sync : Bool) (sbid sbid2 : Str) : Bool :=
  if dotted sbid then sbid2 = before '.' sbid
  else decide (sbid = before '.' sbid2) && decide (sbid = sbid2) && !sync

/-! ## Removing resolved tokens -/

/-- The loop over the tokens of a line, with the tokens left and the number of them that
were removed; `remove` fails if the token has been removed before. -/
def removeResolved (sync : Bool) (sbid : Str) :
    List Str → List Str × Nat → Except PyErr (List Str × Nat)
  | [], result => .ok result
  | sbid2 :: more, (sbids, removed) =>
    if resolves sync sbid sbid2 then
      if sbid ∈ sbids then removeResolved sync sbid more (sbids.erase sbid, removed + 1)
      else .error .valueError
    else removeResolved sync sbid more (sbids, removed)

theorem removeResolved_length {sync : Bool} {sbid : Str} {stall sbids sbids' : List Str} {n n' : Nat}
    (h : removeResolved sync sbid stall (sbids, n) = .ok (sbids', n')) :
    sbids'.length ≤ sbids.length := by
  induction stall generalizing sbids n with
  | nil =>
    cases h
    exact Nat.le_refl _
  | cons sbid2 more ih =>
    rw [removeResolved] at h
    split at h
    · split at h
      · exact Nat.le_trans (ih h) List.length_erase_le
      · cases h
    · exact ih h

/-- The loop over the tokens of the stalled instruction: the list shrinks under the loop,
whose position goes on. -/
def removeFrom (sync : Bool) (stall : List Str) (i : Nat) (sbids : List Str) (removed : Nat) :
    Except PyErr (List Str × Nat) :=
  match _hi : sbids[i]? with
  | none => .ok (sbids, removed)
  | some sbid =>
    match _h : removeResolved sync sbid stall (sbids, removed) with
    | .error e => .error e
    | .ok (sbids, removed) => removeFrom sync stall (i + 1) sbids removed
termination_by sbids.length - i
decreasing_by
  have hlt : i < _ := (List.getElem?_eq_some_iff.mp _hi).1
  have hle := removeResolved_length _h
  omega

/-- The tokens left after a line, and the number of those that it resolved. -/
def takeSbids (ins : Str) (sbids : List Str) : Except PyErr (List Str × Nat) :=
  removeFrom (hasSync ins) (sbidsStall ins) 0 sbids 0

/-! ## The state of the search -/

structure Search where
  sbidsStalled : List Str
  insStalledNotLineResolved : Option Int
  insStalledNotFileResolved : Option Int
  insStallNotLineResolved : List Int := []
  insStallNotFileResolved : List Int := []
  sourceLineStalled : Option Int := none
  sourceFileStalled : Option Int := none
  sourceLinesStall : List (Int × Int) := []
  sourceFilesStall : List (Int × Int) := []

def Search.take (s : Search) (pos : Int) (ins : Str) : Except PyErr Search :=
  if s.sbidsStalled = [] then .ok s
  else
    match takeSbids ins s.sbidsStalled with
    | .error e => .error e
    | .ok (sbids, removed) =>
      .ok { s with
        sbidsStalled := sbids
        insStallNotLineResolved := s.insStallNotLineResolved ++ List.replicate removed pos
        insStallNotFileResolved := s.insStallNotFileResolved ++ List.replicate removed pos }

/-- A comment with a source line is that of the instructions below it. -/
def Search.resolveLine (s : Search) (pos : Int) (ins : Str) : Search :=
  if comment (chars "Line") ins then
    { s with
      sourceLineStalled := if s.insStalledNotLineResolved ≠ none then some pos else s.sourceLineStalled
      insStalledNotLineResolved := none
      sourceLinesStall := s.insStallNotLineResolved.foldl (fun d i => Dict.set d i pos) s.sourceLinesStall
      insStallNotLineResolved := [] }
  else s

def Search.resolveFile (s : Search) (pos : Int) (ins : Str) : Search :=
  if comment (chars "File") ins then
    { s with
      sourceFileStalled := if s.insStalledNotFileResolved ≠ none then some pos else s.sourceFileStalled
      insStalledNotFileResolved := none
      sourceFilesStall := s.insStallNotFileResolved.foldl (fun d i => Dict.set d i pos) s.sourceFilesStall
      insStallNotFileResolved := [] }
  else s

/-- The search is done if it has found the source of every instruction, or if the listing
names no sources. -/
def Search.done (s : Search) (sourceAvailable : Bool) : Bool :=
  !sourceAvailable || (s.insStalledNotLineResolved = none && s.insStalledNotFileResolved = none &&
    s.insStallNotLineResolved = [] && s.insStallNotFileResolved = [])

/-- Python's `l[lo : hi]`. -/
def slice {α : Type*} (l : List α) (lo hi : Int) : List α :=
  let bound (i : Int) : Nat := (if i < 0 then l.length + i else i).toNat
  (l.take (bound hi)).drop (bound lo)

/-- The lines of `instructions[lo : last + 1]` from the last one up, with their positions. -/
def upward (instructions : List Str) (lo last : Int) : List (Int × Str) :=
  (slice instructions lo (last + 1)).reverse.zipIdx.map fun (ins, addr) => (last - addr, ins)

theorem slice_natCast {α : Type*} (l : List α) (lo hi : Nat) :
    slice l lo hi = (l.take hi).drop lo := by
  have hnonneg (n : Nat) : ¬ (n : Int) < 0 := by omega
  simp only [slice, hnonneg, ↓reduceIte, Int.toNat_natCast]

theorem upward_nil (instructions : List Str) {start last : Nat} (h : last ≤ start) :
    upward instructions start ((last : Int) - 1) = [] := by
  have hslice : slice instructions start ((last : Int) - 1 + 1) = [] := by
    rw [Int.sub_add_cancel, slice_natCast]
    exact List.drop_eq_nil_of_le (Nat.le_trans (List.length_take_le _ _) h)
  rw [upward, hslice]
  rfl

theorem upward_cons {instructions : List Str} {start pos : Nat} {ins : Str} (hstart : start ≤ pos)
    (hget : instructions[pos]? = some ins) :
    upward instructions start pos = (↑pos, ins) :: upward instructions start ((pos : Int) - 1) := by
  obtain ⟨hlt, heq⟩ := List.getElem?_eq_some_iff.mp hget
  have hslice : slice instructions start ((pos : Int) + 1) =
      slice instructions start ((pos : Int) - 1 + 1) ++ [ins] := by
    have hsucc : (pos : Int) + 1 = ((pos + 1 : Nat) : Int) := rfl
    rw [Int.sub_add_cancel, hsucc, slice_natCast, slice_natCast,
      List.take_succ_eq_append_getElem hlt, heq,
      List.drop_append_of_le_length (by rw [List.length_take]; omega)]
  unfold upward
  rw [hslice, List.reverse_append, List.reverse_singleton, List.singleton_append,
    List.zipIdx_cons, List.map_cons, List.zipIdx_succ, List.map_map]
  refine congrArg₂ List.cons (by simp) (List.map_congr_left fun line _ => ?_)
  have hpos : (pos : Int) - ((line.2 + 1 : Nat) : Int) = (pos : Int) - 1 - (line.2 : Int) := by omega
  exact Prod.ext hpos rfl

/-- Reads lines until no token is left, and tells where it broke off and if it is done. -/
def readLines (sourceAvailable : Bool) : List (Int × Str) → Search →
    Except PyErr (Search × Option (Bool × Int))
  | [], s => .ok (s, none)
  | (pos, ins) :: more, s =>
    match s.take pos ins with
    | .error e => .error e
    | .ok s =>
      let s := (s.resolveLine pos ins).resolveFile pos ins
      if s.sbidsStalled = [] then .ok (s, some (s.done sourceAvailable, pos))
      else readLines sourceAvailable more s

/-- Reads the rest of the listing for the sources. -/
def scanBackward (instructions : List Str) (breakAt : Int) (s : Search) : Search :=
  (upward instructions 0 (breakAt - 1)).foldl
    (fun s (pos, ins) => (s.resolveLine pos ins).resolveFile pos ins) s

/-- A block to check, with its first and its last line. -/
abbrev Entry := Str × Int × Int

/-- One block. An error is how the search ends: with an exception or done. -/
def checkBlock (instructions : List Str) (sourceAvailable : Bool) (entry : Entry) (s : Search) :
    Except (Except PyErr Search) Search :=
  let (_, start, last) := entry
  match readLines sourceAvailable (upward instructions start last) s with
  | .error e => .error (.error e)
  | .ok (s, broken) =>
    let (done, breakAt) := broken.getD (false, last)
    if done then .error (.ok s)
    else if s.sbidsStalled = [] then .error (.ok (scanBackward instructions breakAt s))
    else .ok s

def predEntries (bbs : Blocks) (bid : Str) : Except PyErr (List Entry) :=
  match List.lookup bid bbs with
  | none => .error .keyError
  | some bb => bb.preds.mapM fun b =>
    match List.lookup b bbs with
    | none => .error .keyError
    | some bb => .ok (b, bb.head, bb.tail)

/-- The loop over the blocks to check; `none` if it goes on after `fuel` blocks. -/
def searchLoop (instructions : List Str) (sourceAvailable : Bool) (bbs : Blocks) :
    Nat → List Entry → Nat → Search → Option (Except PyErr Search)
  | fuel, bbsToCheck, j, s =>
    match bbsToCheck[j]?, fuel with
    | none, _ => some (.ok s)
    | some _, 0 => none
    | some entry, fuel + 1 =>
      match checkBlock instructions sourceAvailable entry s with
      | .error result => some result
      | .ok s =>
        match predEntries bbs entry.1 with
        | .error e => some (.error e)
        | .ok entries =>
          searchLoop instructions sourceAvailable bbs fuel (bbsToCheck ++ entries) (j + 1) s

def Search.start (addr : Int) (ins : Str) : Search where
  sbidsStalled := stalledSbids ins
  insStalledNotLineResolved := some addr
  insStalledNotFileResolved := some addr

/-- The search for the instruction `ins` at line `addr`. -/
def searchStall (fuel : Nat) (instructions : List Str) (addr : Nat) (ins : Str) :
    Option (Except PyErr Search) :=
  match constructCFG instructions with
  | .error e => some (.error e)
  | .ok bbs =>
    match findBB bbs addr with
    | none => some (.error .attributeError)
    | some (bbid, bb) =>
      searchLoop instructions (instructions.any (comment (chars "Line"))) bbs fuel
        [(bbid, bb.head, addr - 1)] 0 (Search.start addr ins)

end Unitrace.Metrics.SbidSearch
