import Unitrace.Metrics.SearchEnds

/-!
# The reported causes of a stall

The instructions that removed a token are reported as the cause of a stall. They are
the nearest setters of the tokens if no line of the block sets two tokens that are
neighbours among those still pending. A neighbour of a removed token is skipped, and
another line above may take it.
-/
namespace Unitrace.Metrics.StallCauses

open Unitrace.Lib Unitrace.Lib.Text Unitrace.Lib.PyStr Unitrace.Metrics.ControlFlow
open Unitrace.Metrics.SbidSearch Unitrace.Metrics.SearchEnds

/-- The lines of the instructions that are reported as the cause, those with a source
first. -/
def causes (s : Search) : List Int := s.sourceLinesStall.map Prod.fst ++ s.insStallNotLineResolved

/-- The instruction at the line holds the SBID of the token in its braces. -/
def HoldsSbid (instructions : List Str) (pos : Nat) (token : Str) : Prop :=
  ∃ ins ∈ instructions[pos]?, before '.' token ∈ sbidsStall ins

instance (instructions : List Str) (pos : Nat) (token : Str) :
    Decidable (HoldsSbid instructions pos token) :=
  inferInstanceAs (Decidable (∃ ins ∈ instructions[pos]?, before '.' token ∈ sbidsStall ins))

/-- The last line of the block above the stalled instruction that holds the SBID. -/
structure IsNearestSetter (instructions : List Str) (head : Int) (addr : Nat) (token : Str)
    (pos : Nat) : Prop where
  inBlock : head ≤ pos
  above : pos < addr
  holds : HoldsSbid instructions pos token
  nearest : ∀ q < addr, pos < q → ¬ HoldsSbid instructions q token

/-- The tokens whose SBID is held by no line from `pos` on. -/
def pending (instructions : List Str) (addr pos : Nat) (tokens : List Str) : List Str :=
  tokens.filter fun token => ∀ q < addr, pos ≤ q → ¬ HoldsSbid instructions q token

/-- No line of the block above the stalled instruction sets two neighbours among the tokens
that the lines below it do not set, or holds the SBID of one of them twice. -/
structure Separate (instructions : List Str) (head : Int) (addr : Nat) (tokens : List Str) : Prop where
  apart : ∀ pos < addr, head ≤ pos → (pending instructions addr (pos + 1) tokens).IsChain fun a b =>
    ¬ (HoldsSbid instructions pos a ∧ HoldsSbid instructions pos b)
  once : ∀ pos < addr, head ≤ pos → ∀ token ∈ pending instructions addr (pos + 1) tokens,
    ∀ ins ∈ instructions[pos]?, (sbidsStall ins).count (before '.' token) ≤ 1

/-! ## What a line does to the causes -/

theorem mem_keys_foldl {positions : List Int} {d : List (Int × Int)} {pos p : Int} :
    p ∈ (positions.foldl (fun d i => Dict.set d i pos) d).map Prod.fst ↔
      p ∈ d.map Prod.fst ∨ p ∈ positions := by
  induction positions generalizing d with
  | nil => simp
  | cons i positions ih =>
    rw [List.foldl_cons, ih, Dict.mem_keys_set, List.mem_cons, or_comm (a := p = i), or_assoc]

/-- A source line moves causes, but adds none. -/
theorem mem_causes_resolve (s : Search) (pos : Int) (ins : Str) {p : Int} :
    p ∈ causes ((s.resolveLine pos ins).resolveFile pos ins) ↔ p ∈ causes s := by
  have hfile (t : Search) : causes (t.resolveFile pos ins) = causes t := by
    unfold Search.resolveFile
    split <;> rfl
  rw [hfile]
  unfold Search.resolveLine causes
  split
  · rw [List.append_nil, mem_keys_foldl, List.mem_append]
  · rfl

theorem take_apart {s : Search} {ins : Str} (h : Apart ins s.sbidsStalled) (pos : Int) :
    ∃ t, s.take pos ins = .ok t ∧
      t.sbidsStalled = (s.sbidsStalled.filter fun sbid => ¬ Sets ins sbid) ∧
      ∀ p, p ∈ causes t ↔ p ∈ causes s ∨ p = pos ∧ ∃ sbid ∈ s.sbidsStalled, Sets ins sbid := by
  unfold Search.take
  by_cases hnil : s.sbidsStalled = []
  · rw [if_pos hnil]
    exact ⟨s, rfl, by simp [hnil], by simp [hnil]⟩
  · rw [if_neg hnil, takeSbids_apart h]
    refine ⟨_, rfl, rfl, fun p => ?_⟩
    simp only [causes, List.mem_append, List.mem_replicate, or_assoc]
    refine or_congr_right (or_congr_right ?_)
    rw [and_comm, and_congr_right_iff]
    intro _
    rw [← Nat.pos_iff_ne_zero, List.countP_pos_iff]
    simp only [decide_eq_true_eq]

/-! ## Tokens with a suffix -/

theorem resolvers_of_dotted {token : Str} (h : dotted token = true) (ins : Str) :
    resolvers ins token = (sbidsStall ins).count (before '.' token) := by
  unfold resolvers List.count
  refine List.countP_congr fun sbid _ => ?_
  rw [resolves, if_pos h]
  simp

theorem sets_of_dotted {instructions : List Str} {pos : Nat} {ins token : Str}
    (hget : instructions[pos]? = some ins) (h : dotted token = true) :
    Sets ins token ↔ HoldsSbid instructions pos token := by
  rw [Sets, resolvers_of_dotted h, List.count_pos_iff, HoldsSbid, hget]
  simp

/-! ## Pending tokens -/

theorem mem_pending {instructions : List Str} {addr pos : Nat} {tokens : List Str} {token : Str} :
    token ∈ pending instructions addr pos tokens ↔
      token ∈ tokens ∧ ∀ q < addr, pos ≤ q → ¬ HoldsSbid instructions q token := by
  rw [pending, List.mem_filter, decide_eq_true_iff]

theorem pending_addr (instructions : List Str) (addr : Nat) (tokens : List Str) :
    pending instructions addr addr tokens = tokens := by
  refine List.filter_eq_self.mpr fun token _ => decide_eq_true fun q hq hle => ?_
  omega

theorem pending_of_lt {instructions : List Str} {addr pos : Nat} (h : pos < addr)
    (tokens : List Str) :
    pending instructions addr pos tokens =
      (pending instructions addr (pos + 1) tokens).filter fun token =>
        ¬ HoldsSbid instructions pos token := by
  unfold pending
  rw [List.filter_filter]
  refine List.filter_congr fun token _ => ?_
  rw [← Bool.decide_and, decide_eq_decide]
  constructor
  · exact fun hnone => ⟨hnone pos h (Nat.le_refl pos), fun q hq hle => hnone q hq (by omega)⟩
  · intro ⟨hpos, hnone⟩ q hq hle
    rcases Nat.eq_or_lt_of_le hle with rfl | hlt
    · exact hpos
    · exact hnone q hq hlt

variable {instructions : List Str} {head addr : Nat} {tokens : List Str}

theorem apart_iff_holds (hdotted : ∀ token ∈ tokens, dotted token = true) {pos : Nat} {ins : Str}
    (hget : instructions[pos]? = some ins) :
    Apart ins (pending instructions addr (pos + 1) tokens) ↔
      (∀ token ∈ pending instructions addr (pos + 1) tokens,
        (sbidsStall ins).count (before '.' token) ≤ 1) ∧
      (pending instructions addr (pos + 1) tokens).IsChain fun a b =>
        ¬ (HoldsSbid instructions pos a ∧ HoldsSbid instructions pos b) := by
  have hmem : ∀ token ∈ pending instructions addr (pos + 1) tokens, dotted token = true :=
    fun token htoken => hdotted token (mem_pending.mp htoken).1
  have honce : (∀ token ∈ pending instructions addr (pos + 1) tokens, resolvers ins token ≤ 1) ↔
      ∀ token ∈ pending instructions addr (pos + 1) tokens,
        (sbidsStall ins).count (before '.' token) ≤ 1 :=
    forall₂_congr fun token htoken => by rw [resolvers_of_dotted (hmem token htoken)]
  have hsets : ∀ a ∈ pending instructions addr (pos + 1) tokens,
      ∀ b ∈ pending instructions addr (pos + 1) tokens,
        (¬ (Sets ins a ∧ Sets ins b) ↔
          ¬ (HoldsSbid instructions pos a ∧ HoldsSbid instructions pos b)) :=
    fun a ha b hb => not_congr (and_congr (sets_of_dotted hget (hmem a ha))
      (sets_of_dotted hget (hmem b hb)))
  constructor
  · exact fun h => ⟨honce.mp h.once, h.apart.imp_of_mem_imp fun a b ha hb => (hsets a ha b hb).mp⟩
  · exact fun h => ⟨honce.mpr h.1, h.2.imp_of_mem_imp fun a b ha hb => (hsets a ha b hb).mpr⟩

theorem separate_iff_apart (hdotted : ∀ token ∈ tokens, dotted token = true)
    (haddr : addr ≤ instructions.length) :
    Separate instructions head addr tokens ↔ ∀ pos < addr, head ≤ pos →
      ∀ ins ∈ instructions[pos]?, Apart ins (pending instructions addr (pos + 1) tokens) := by
  constructor
  · intro h pos hpos hhead ins hget
    refine (apart_iff_holds hdotted hget).mpr ⟨fun token htoken => ?_, h.apart pos hpos (by omega)⟩
    exact h.once pos hpos (by omega) token htoken ins hget
  · intro h
    refine ⟨fun pos hpos hhead => ?_, fun pos hpos hhead token htoken ins hget => ?_⟩
    · have hget : instructions[pos]? = some instructions[pos] := List.getElem?_eq_getElem (by omega)
      exact ((apart_iff_holds hdotted hget).mp (h pos hpos (by omega) _ hget)).2
    · exact ((apart_iff_holds hdotted hget).mp (h pos hpos (by omega) ins hget)).1 token htoken

/-- What a line that takes exactly the tokens that it sets leaves of the pending ones. -/
theorem filter_pending (hdotted : ∀ token ∈ tokens, dotted token = true) {pos : Nat}
    (hpos : pos < addr) {ins : Str} (hget : instructions[pos]? = some ins) :
    (pending instructions addr (pos + 1) tokens).filter (fun sbid => ¬ Sets ins sbid) =
      pending instructions addr pos tokens := by
  rw [pending_of_lt hpos]
  refine List.filter_congr fun token htoken => ?_
  rw [decide_eq_decide, sets_of_dotted hget (hdotted token (mem_pending.mp htoken).1)]

/-- The lines of the block above the stalled instruction, from the last one up to `pos`. -/
def linesAbove (instructions : List Str) (addr pos : Nat) : List Str :=
  ((instructions.take addr).drop pos).reverse

theorem linesAbove_addr (instructions : List Str) (addr : Nat) : linesAbove instructions addr addr = [] := by
  rw [linesAbove, List.drop_eq_nil_of_le (List.length_take_le _ _), List.reverse_nil]

theorem linesAbove_of_lt {pos : Nat} (hpos : pos < addr) {ins : Str}
    (hget : instructions[pos]? = some ins) :
    linesAbove instructions addr pos = linesAbove instructions addr (pos + 1) ++ [ins] := by
  have hget' : (instructions.take addr)[pos]? = some ins := by rw [List.getElem?_take_of_lt hpos, hget]
  obtain ⟨hlt, heq⟩ := List.getElem?_eq_some_iff.mp hget'
  rw [linesAbove, List.drop_eq_getElem_cons hlt, heq, List.reverse_cons, linesAbove]

theorem takeAll_linesAbove {pos : Nat} (hpos : pos < addr) {ins : Str}
    (hget : instructions[pos]? = some ins) {sbids left : List Str}
    (hbelow : takeAll (linesAbove instructions addr (pos + 1)) sbids = .ok left) (left' : List Str) :
    takeAll (linesAbove instructions addr pos) sbids = .ok left' ↔
      ∃ n, takeSbids ins left = .ok (left', n) := by
  rw [linesAbove_of_lt hpos hget, takeAll_append, hbelow]
  dsimp only
  rw [takeAll]
  cases takeSbids ins left with
  | error e => simp
  | ok result => simp [takeAll, Prod.ext_iff]

/-- The condition leaves out only listings on which a line skips a token that it sets, or
removes one twice: of tokens that differ, the lines of the block leave exactly the pending
ones. -/
theorem separate_iff_takes (hdotted : ∀ token ∈ tokens, dotted token = true)
    (hnodup : tokens.Nodup) (haddr : addr ≤ instructions.length) :
    Separate instructions head addr tokens ↔ ∀ pos ≤ addr, head ≤ pos →
      takeAll (linesAbove instructions addr pos) tokens = .ok (pending instructions addr pos tokens) := by
  rw [separate_iff_apart hdotted haddr]
  constructor
  · intro h pos hpos
    induction hpos using Nat.decreasingInduction with
    | self =>
      intro _
      rw [linesAbove_addr, pending_addr, takeAll]
    | of_succ pos hpos ih =>
      intro hhead
      have hget : instructions[pos]? = some instructions[pos] := List.getElem?_eq_getElem (by omega)
      rw [takeAll_linesAbove hpos hget (ih (by omega)), takeSbids_apart (h pos hpos hhead _ hget),
        filter_pending hdotted hpos hget]
      exact ⟨_, rfl⟩
  · intro h pos hpos hhead ins hget
    have hline := (takeAll_linesAbove hpos hget (h (pos + 1) hpos (by omega)) _).mp
      (h pos (Nat.le_of_lt hpos) hhead)
    rw [← filter_pending hdotted hpos hget] at hline
    exact (takeSbids_iff_apart (hnodup.filter _)).mp hline

/-- The line is the nearest setter of a pending token. -/
def Causes (instructions : List Str) (head addr pos : Nat) (tokens : List Str) (p : Int) : Prop :=
  ∃ q : Nat, p = q ∧ ∃ token ∈ pending instructions addr pos tokens,
    IsNearestSetter instructions head addr token q

theorem causes_of_pending_nil {pos : Nat} (h : pending instructions addr pos tokens = []) (p : Int) :
    ¬ Causes instructions head addr pos tokens p := by
  rintro ⟨q, -, token, htoken, -⟩
  rw [h] at htoken
  cases htoken

/-- A line is the nearest setter of the pending tokens that it holds. -/
theorem causes_succ {pos : Nat} (hlt : pos < addr) (hge : head ≤ pos) (p : Int) :
    Causes instructions head addr (pos + 1) tokens p ↔
      (p = pos ∧ ∃ token ∈ pending instructions addr (pos + 1) tokens,
        HoldsSbid instructions pos token) ∨ Causes instructions head addr pos tokens p := by
  constructor
  · rintro ⟨q, rfl, token, htoken, hnear⟩
    obtain ⟨hmem, hnone⟩ := mem_pending.mp htoken
    by_cases hpos : HoldsSbid instructions pos token
    · have hle : ¬ q < pos := fun h => hnear.nearest pos hlt h hpos
      have hge : ¬ pos + 1 ≤ q := fun h => hnone q hnear.above h hnear.holds
      obtain rfl : q = pos := by omega
      exact Or.inl ⟨rfl, token, htoken, hpos⟩
    · refine Or.inr ⟨q, rfl, token, ?_, hnear⟩
      rw [pending_of_lt hlt, List.mem_filter]
      exact ⟨htoken, decide_eq_true hpos⟩
  · rintro (⟨rfl, token, htoken, hpos⟩ | ⟨q, rfl, token, htoken, hnear⟩)
    · refine ⟨pos, rfl, token, htoken, by omega, hlt, hpos, fun q hq hlt' => ?_⟩
      exact (mem_pending.mp htoken).2 q hq hlt'
    · rw [pending_of_lt hlt, List.mem_filter] at htoken
      exact ⟨q, rfl, token, htoken.1, hnear⟩

theorem pending_at_head {pos : Nat} (hle : pos ≤ head)
    (hset : ∀ token ∈ pending instructions addr pos tokens,
      ∃ q < pos, head ≤ q ∧ HoldsSbid instructions q token) :
    pending instructions addr pos tokens = [] := by
  refine List.eq_nil_iff_forall_not_mem.mpr fun token htoken => ?_
  obtain ⟨q, hq, hge, -⟩ := hset token htoken
  omega

/-- A token that line `pos` leaves pending is set above it. -/
theorem set_above {pos : Nat} (hlt : pos < addr)
    (hset : ∀ token ∈ pending instructions addr (pos + 1) tokens,
      ∃ q < pos + 1, head ≤ q ∧ HoldsSbid instructions q token) :
    ∀ token ∈ pending instructions addr pos tokens,
      ∃ q < pos, head ≤ q ∧ HoldsSbid instructions q token := by
  intro token htoken
  rw [pending_of_lt hlt, List.mem_filter] at htoken
  obtain ⟨q, hq, hle, hholds⟩ := hset token htoken.1
  refine ⟨q, ?_, hle, hholds⟩
  have hne : q ≠ pos := fun h => of_decide_eq_true htoken.2 (h ▸ hholds)
  omega

/-- The lines from `pos` up to the head of the block use up the pending tokens, and add their
nearest setters to the causes. -/
theorem readLines_causes (hsep : Separate instructions head addr tokens)
    (hdotted : ∀ token ∈ tokens, dotted token = true) (haddr : addr ≤ instructions.length)
    (sourceAvailable : Bool) {pos : Nat} (hpos : pos ≤ addr) {s : Search}
    (hsbids : s.sbidsStalled = pending instructions addr pos tokens)
    (hset : ∀ token ∈ pending instructions addr pos tokens,
      ∃ q < pos, head ≤ q ∧ HoldsSbid instructions q token) :
    ∃ t broken, readLines sourceAvailable (upward instructions head ((pos : Int) - 1)) s =
        .ok (t, broken) ∧ t.sbidsStalled = [] ∧
      ∀ p, p ∈ causes t ↔ p ∈ causes s ∨ Causes instructions head addr pos tokens p := by
  induction pos generalizing s with
  | zero =>
    have hnil := pending_at_head (Nat.zero_le head) hset
    rw [upward_nil instructions (Nat.zero_le head)]
    refine ⟨s, none, rfl, hsbids.trans hnil, fun p => ?_⟩
    simp [causes_of_pending_nil hnil p]
  | succ pos ih =>
    rcases Nat.lt_or_ge pos head with hlt | hge
    · have hnil := pending_at_head hlt hset
      rw [upward_nil instructions hlt]
      refine ⟨s, none, rfl, hsbids.trans hnil, fun p => ?_⟩
      simp [causes_of_pending_nil hnil p]
    · have hlt : pos < addr := hpos
      have hget : instructions[pos]? = some instructions[pos] := List.getElem?_eq_getElem (by omega)
      have hsets : ∀ token ∈ pending instructions addr (pos + 1) tokens,
          (Sets instructions[pos] token ↔ HoldsSbid instructions pos token) :=
        fun token htoken => sets_of_dotted hget (hdotted token (mem_pending.mp htoken).1)
      obtain ⟨t, htake, htokens, hcauses⟩ := take_apart
        (hsbids ▸ (separate_iff_apart hdotted haddr).mp hsep pos hlt hge _ hget :
          Apart instructions[pos] s.sbidsStalled) pos
      rw [hsbids] at htokens hcauses
      have hleft : t.sbidsStalled = pending instructions addr pos tokens := by
        rw [htokens, pending_of_lt hlt]
        exact List.filter_congr fun token htoken => by rw [decide_eq_decide, hsets token htoken]
      have hkeep := sbids_resolve t pos instructions[pos]
      have hline (p : Int) : p ∈ causes ((t.resolveLine pos instructions[pos]).resolveFile pos
            instructions[pos]) ↔ p ∈ causes s ∨ p = pos ∧
          ∃ token ∈ pending instructions addr (pos + 1) tokens, HoldsSbid instructions pos token := by
        rw [mem_causes_resolve, hcauses]
        refine or_congr_right (and_congr_right fun _ => exists_congr fun token => ?_)
        exact and_congr_right fun htoken => hsets token htoken
      have hcast : ((pos + 1 : Nat) : Int) - 1 = pos := by omega
      rw [hcast, upward_cons hge hget, readLines, htake]
      dsimp only
      split
      · rename_i hnil
        refine ⟨_, _, rfl, hnil, fun p => ?_⟩
        rw [hkeep, hleft] at hnil
        rw [hline, causes_succ hlt hge]
        simp [causes_of_pending_nil hnil p]
      · obtain ⟨u, broken, hread, hnil, hfinal⟩ :=
          ih (Nat.le_of_lt hlt) (hkeep.trans hleft) (set_above hlt hset)
        refine ⟨u, broken, hread, hnil, fun p => ?_⟩
        rw [hfinal, hline, causes_succ hlt hge, or_assoc]

/-! ## The result -/

theorem mem_causes_scanBackward (instructions : List Str) (breakAt : Int) (s : Search) {p : Int} :
    p ∈ causes (scanBackward instructions breakAt s) ↔ p ∈ causes s := by
  unfold scanBackward
  generalize upward instructions 0 (breakAt - 1) = lines
  induction lines generalizing s with
  | nil => rfl
  | cons line lines ih => rw [List.foldl_cons, ih, mem_causes_resolve]

/-- A block that uses up the tokens ends the search. -/
theorem checkBlock_used_up {sourceAvailable : Bool} (bid : Str) {start last : Int} {s t : Search}
    {broken : Option (Bool × Int)}
    (hread : readLines sourceAvailable (upward instructions start last) s = .ok (t, broken))
    (hnil : t.sbidsStalled = []) :
    ∃ u, checkBlock instructions sourceAvailable (bid, start, last) s = .error (.ok u) ∧
      ∀ p, p ∈ causes u ↔ p ∈ causes t := by
  simp only [checkBlock, hread, hnil, ↓reduceIte]
  split
  · exact ⟨t, rfl, fun p => Iff.rfl⟩
  · exact ⟨_, rfl, fun p => mem_causes_scanBackward instructions _ t⟩

theorem searchStall_of_checkBlock {instructions : List Str} {bbs : Blocks} {addr : Nat} {ins : Str}
    {bid : Str} {bb : BB} {result : Except PyErr Search} (hcfg : constructCFG instructions = .ok bbs)
    (hfind : findBB bbs addr = some (bid, bb))
    (hcheck : checkBlock instructions (instructions.any (comment (chars "Line")))
      (bid, bb.head, addr - 1) (Search.start addr ins) = .error result) (fuel : Nat) :
    searchStall (fuel + 1) instructions addr ins = some result := by
  simp only [searchStall, hcfg, hfind]
  unfold searchLoop
  simp only [List.getElem?_cons_zero, hcheck]

/-- The search returns, and it reports the nearest setters of the tokens and nothing else. -/
def ReportsNearest (instructions : List Str) (head : Int) (addr : Nat) (ins : Str) : Prop :=
  ∃ s, (∀ fuel, searchStall (fuel + 1) instructions addr ins = some (.ok s)) ∧
    ∀ p, p ∈ causes s ↔ ∃ q : Nat, p = q ∧ ∃ token ∈ stalledSbids ins,
      IsNearestSetter instructions head addr token q

/-- If every token has a setter above the stalled instruction in its block and no line sets
two neighbours among the pending tokens, the causes are exactly the nearest setters. -/
theorem reports_nearest_setters (instructions : List Str) (bbs : Blocks)
    (hcfg : constructCFG instructions = .ok bbs) (addr : Nat) (ins : Str)
    (hins : instructions[addr]? = some ins) (bid : Str) (bb : BB)
    (hfind : findBB bbs addr = some (bid, bb))
    (hdotted : ∀ token ∈ stalledSbids ins, dotted token = true)
    (hset : ∀ token ∈ stalledSbids ins,
      ∃ pos < addr, bb.head ≤ pos ∧ HoldsSbid instructions pos token)
    (hsep : Separate instructions bb.head addr (stalledSbids ins)) :
    ReportsNearest instructions bb.head addr ins := by
  obtain ⟨hlt, -⟩ := List.getElem?_eq_some_iff.mp hins
  have hnonneg : 0 ≤ bb.head := head_nonneg hcfg (bid, bb) (List.mem_of_find?_eq_some hfind)
  obtain ⟨head, hhead⟩ := Int.eq_ofNat_of_zero_le hnonneg
  rw [hhead] at hset hsep ⊢
  have hstart : (Search.start addr ins).sbidsStalled =
      pending instructions addr addr (stalledSbids ins) := (pending_addr _ _ _).symm
  have hset' : ∀ token ∈ pending instructions addr addr (stalledSbids ins),
      ∃ q < addr, head ≤ q ∧ HoldsSbid instructions q token := by
    intro token htoken
    obtain ⟨pos, hpos, hle, hholds⟩ := hset token (mem_pending.mp htoken).1
    exact ⟨pos, hpos, by omega, hholds⟩
  obtain ⟨t, broken, hread, hnil, hcauses⟩ := readLines_causes hsep hdotted (Nat.le_of_lt hlt)
    (instructions.any (comment (chars "Line"))) (Nat.le_refl addr) hstart hset'
  obtain ⟨u, hcheck, hsame⟩ := checkBlock_used_up bid hread hnil
  refine ⟨u, fun fuel => ?_, fun p => ?_⟩
  · refine searchStall_of_checkBlock hcfg hfind ?_ fuel
    rw [hhead]
    exact hcheck
  · rw [hsame, hcauses]
    unfold Causes
    rw [pending_addr]
    simp [causes, Search.start]

/-- A block of three instructions that set `$1`, `$2` and `$1`, with one behind them. -/
def settersBefore (ins : Str) : List Str :=
  [chars "// B1: Preds:\x7b\x7d, Succs:\x7b\x7d", chars "/* [00000000] */ send (8) r4 r5 \x7b$1\x7d // a",
    chars "/* [00000010] */ send (8) r6 r7 \x7b$2\x7d // b",
    chars "/* [00000020] */ send (8) r4 r5 \x7b$1\x7d // c", ins]

def setterBlock : BB := ⟨chars "B1", 0, 4, [], []⟩

theorem find_setterBlock :
    findBB [(chars "B1", setterBlock)] (4 : Nat) = some (chars "B1", setterBlock) := by
  decide +kernel

def twoSbids : Str := chars "/* [00000030] */ mov (8) r8 r4 \x7b$1.src,$2.dst\x7d // d"

theorem reports_nearest_setters_twoSbids : ReportsNearest (settersBefore twoSbids) 0 4 twoSbids := by
  have hcfg : constructCFG (settersBefore twoSbids) = .ok [(chars "B1", setterBlock)] := by
    unfold settersBefore twoSbids
    repeat rw [chars_ofList]
    decide +kernel
  have hdotted : ∀ token ∈ stalledSbids twoSbids, dotted token = true := by
    unfold twoSbids
    rw [chars_ofList]
    decide +kernel
  have hset : ∀ token ∈ stalledSbids twoSbids,
      ∃ pos < 4, (0 : Int) ≤ (pos : Nat) ∧ HoldsSbid (settersBefore twoSbids) pos token := by
    unfold settersBefore twoSbids
    repeat rw [chars_ofList]
    decide +kernel
  have hapart : ∀ pos < 4, (0 : Int) ≤ (pos : Nat) →
      (pending (settersBefore twoSbids) 4 (pos + 1) (stalledSbids twoSbids)).IsChain fun a b =>
        ¬ (HoldsSbid (settersBefore twoSbids) pos a ∧ HoldsSbid (settersBefore twoSbids) pos b) := by
    unfold settersBefore twoSbids
    repeat rw [chars_ofList]
    decide +kernel
  have honce : ∀ pos < 4, (0 : Int) ≤ (pos : Nat) →
      ∀ token ∈ pending (settersBefore twoSbids) 4 (pos + 1) (stalledSbids twoSbids),
        ∀ ins ∈ (settersBefore twoSbids)[pos]?, (sbidsStall ins).count (before '.' token) ≤ 1 := by
    unfold settersBefore twoSbids
    repeat rw [chars_ofList]
    decide +kernel
  exact reports_nearest_setters (settersBefore twoSbids) [(chars "B1", setterBlock)] hcfg 4 twoSbids
    rfl (chars "B1") setterBlock find_setterBlock hdotted hset ⟨hapart, honce⟩

def oneSbid : Str := chars "/* [00000030] */ mov (8) r8 r4 \x7b$1.src,$1.dst\x7d // d"

/-- The second token of the same SBID is skipped and taken by a line further up. -/
theorem not_reports_nearest_setters :
    ¬ ∀ (instructions : List Str) (bbs : Blocks) (addr : Nat) (ins bid : Str) (bb : BB),
      constructCFG instructions = .ok bbs → instructions[addr]? = some ins →
      findBB bbs addr = some (bid, bb) → (∀ token ∈ stalledSbids ins, dotted token = true) →
      (∀ token ∈ stalledSbids ins,
        ∃ pos < addr, bb.head ≤ pos ∧ HoldsSbid instructions pos token) →
      ReportsNearest instructions bb.head addr ins := by
  intro h
  have hcfg : constructCFG (settersBefore oneSbid) = .ok [(chars "B1", setterBlock)] := by
    unfold settersBefore oneSbid
    repeat rw [chars_ofList]
    decide +kernel
  have hdotted : ∀ token ∈ stalledSbids oneSbid, dotted token = true := by
    unfold oneSbid
    rw [chars_ofList]
    decide +kernel
  have hset : ∀ token ∈ stalledSbids oneSbid,
      ∃ pos < 4, (0 : Int) ≤ (pos : Nat) ∧ HoldsSbid (settersBefore oneSbid) pos token := by
    unfold settersBefore oneSbid
    repeat rw [chars_ofList]
    decide +kernel
  obtain ⟨s, hsearch, hcauses⟩ := h (settersBefore oneSbid) _ 4 oneSbid _ setterBlock hcfg rfl
    find_setterBlock hdotted hset
  have hfound : (searchStall 1 (settersBefore oneSbid) 4 oneSbid).any fun result =>
      match result with
      | .ok s => decide ((1 : Int) ∈ causes s)
      | .error _ => false := by
    unfold settersBefore oneSbid
    repeat rw [chars_ofList]
    decide +kernel
  rw [hsearch 0] at hfound
  have hmem : (1 : Int) ∈ causes s := of_decide_eq_true hfound
  obtain ⟨q, hq, token, htoken, hnear⟩ := (hcauses 1).mp hmem
  obtain rfl : q = 1 := by omega
  have hthird : ∀ token ∈ stalledSbids oneSbid, HoldsSbid (settersBefore oneSbid) 3 token := by
    unfold settersBefore oneSbid
    repeat rw [chars_ofList]
    decide +kernel
  exact hnear.nearest 3 (by decide) (by decide) (hthird token htoken)

end Unitrace.Metrics.StallCauses
