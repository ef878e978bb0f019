import Mathlib.Data.List.Perm.Basic
import Mathlib.Logic.Relation
import Unitrace.Metrics.SourcePosition

/-!
# Where the causes of a stall lie

The search reads the block of the stalled instruction upward and then the blocks behind
it, as often as the graph leads to them. Whatever the graph is, every cause is a line
from which the stalled instruction can be reached, and it has resolved a token of its own.
-/
namespace Unitrace.Metrics.StallPaths

open Unitrace.Lib Unitrace.Lib.Text Unitrace.Lib.PyStr Unitrace.Metrics.ControlFlow
open Unitrace.Metrics.SbidSearch Unitrace.Metrics.SearchEnds Unitrace.Metrics.StallCauses
open Unitrace.Metrics.SourcePosition

/-- The line is above the stalled instruction in its block, or in a block from which that
block can be reached. -/
def LeadsTo (bbs : Blocks) (bid : Str) (head : Int) (addr pos : Nat) : Prop :=
  (head ≤ pos ∧ pos < addr) ∨ ∃ b bb, Relation.TransGen (fun c b => b ∈ predsOf bbs c) bid b ∧
    (b, bb) ∈ bbs ∧ bb.head ≤ pos ∧ pos ≤ bb.tail

/-- Every token is still pending or was resolved by a line, and the causes are these lines. -/
structure Blames (tokens : List Str) (s : Search) (blame : List (Str × Int)) : Prop where
  tokens_perm : (blame.map Prod.fst ++ s.sbidsStalled).Perm tokens
  mem_causes : ∀ p, p ∈ causes s ↔ p ∈ blame.map Prod.snd

/-! ## The tokens that a line resolves -/

theorem removeResolved_taken {sync : Bool} {sbid : Str} {stall sbids sbids' : List Str} {n n' : Nat}
    (h : removeResolved sync sbid stall (sbids, n) = .ok (sbids', n')) :
    ∃ k, n' = n + k ∧ (List.replicate k sbid ++ sbids').Perm sbids ∧
      (0 < k → 0 < stall.countP (resolves sync sbid)) := by
  induction stall generalizing sbids n with
  | nil =>
    cases h
    exact ⟨0, rfl, List.Perm.refl _, fun hk => absurd hk (Nat.lt_irrefl 0)⟩
  | cons sbid2 more ih =>
    rw [removeResolved] at h
    split at h
    · rename_i hresolves
      split at h
      · rename_i hmem
        obtain ⟨k, hn, hperm, -⟩ := ih h
        refine ⟨k + 1, by omega, ?_, fun _ => ?_⟩
        · rw [List.replicate_succ, List.cons_append]
          exact (hperm.cons sbid).trans (List.perm_cons_erase hmem).symm
        · exact List.countP_pos_iff.mpr ⟨sbid2, List.mem_cons_self, hresolves⟩
      · cases h
    · rename_i hresolves
      obtain ⟨k, hn, hperm, hk⟩ := ih h
      refine ⟨k, hn, hperm, fun hpos => ?_⟩
      rw [List.countP_cons_of_neg hresolves]
      exact hk hpos

/-- The loop over the shrinking list takes tokens out of it, each of which the line resolves. -/
theorem removeFrom_taken {sync : Bool} {stall sbids sbids' : List Str} {i n n' : Nat}
    (h : removeFrom sync stall i sbids n = .ok (sbids', n')) :
    ∃ taken : List Str, n' = n + taken.length ∧ (taken ++ sbids').Perm sbids ∧
      ∀ t ∈ taken, 0 < stall.countP (resolves sync t) := by
  induction i, sbids, n using removeFrom.induct sync stall with
  | case1 i sbids n hget =>
    rw [removeFrom_end sync stall (List.getElem?_eq_none_iff.mp hget)] at h
    cases h
    exact ⟨[], rfl, List.Perm.refl _, by simp⟩
  | case2 i sbids n sbid hget e herror =>
    rw [removeFrom_bind hget, herror] at h
    cases h
  | case3 i sbids n sbid hget sbids1 n1 hremove ih =>
    rw [removeFrom_step hget hremove] at h
    obtain ⟨taken, hn, hperm, htaken⟩ := ih h
    obtain ⟨k, hn1, hperm1, hk⟩ := removeResolved_taken hremove
    refine ⟨List.replicate k sbid ++ taken, ?_, ?_, fun t ht => ?_⟩
    · rw [List.length_append, List.length_replicate]
      omega
    · rw [List.append_assoc]
      exact (hperm.append_left _).trans hperm1
    · rcases List.mem_append.mp ht with ht | ht
      · obtain ⟨hne, rfl⟩ := List.mem_replicate.mp ht
        exact hk (Nat.pos_of_ne_zero hne)
      · exact htaken t ht

/-- What a line takes goes with the line into the blame. -/
theorem take_blames {tokens : List Str} {s t : Search} {blame : List (Str × Int)} {pos : Int}
    {ins : Str} (h : Blames tokens s blame) (htake : s.take pos ins = .ok t) :
    ∃ taken : List Str, Blames tokens t (blame ++ taken.map fun token => (token, pos)) ∧
      ∀ token ∈ taken, Sets ins token := by
  unfold Search.take at htake
  split at htake
  · cases htake
    exact ⟨[], by simpa using h, by simp⟩
  · split at htake
    · cases htake
    · rename_i sbids removed htakes
      cases htake
      obtain ⟨taken, hremoved, hperm, htaken⟩ := removeFrom_taken htakes
      refine ⟨taken, ⟨?_, fun p => ?_⟩, htaken⟩
      · have hfst : (blame ++ taken.map fun token => (token, pos)).map Prod.fst =
            blame.map Prod.fst ++ taken := by
          simp [Function.comp_def]
        rw [hfst, List.append_assoc]
        exact (hperm.append_left _).trans h.tokens_perm
      · have hsnd : (taken.map fun token => (token, pos)).map Prod.snd =
            List.replicate removed pos := by
          rw [List.map_map, hremoved, Nat.zero_add]
          exact List.map_const'
        rw [List.map_append, hsnd, List.mem_append, ← h.mem_causes]
        simp only [causes, List.mem_append, or_assoc]

theorem resolve_blames {tokens : List Str} {s : Search} {blame : List (Str × Int)}
    (h : Blames tokens s blame) (pos : Int) (ins : Str) :
    Blames tokens ((s.resolveLine pos ins).resolveFile pos ins) blame where
  tokens_perm := by
    rw [sbids_resolve]
    exact h.tokens_perm
  mem_causes p := (mem_causes_resolve s pos ins).trans (h.mem_causes p)

/-! ## The lines that are read -/

theorem slice_stop (instructions : List Str) (first : Nat) {stop : Int}
    (hstop : -(instructions.length : Int) ≤ stop) (hlen : stop ≤ instructions.length) :
    ∃ n : Nat, slice instructions first stop = (instructions.take n).drop first ∧
      n ≤ instructions.length ∧
      ((stop < 0 ∧ instructions.length + stop = n) ∨ (0 ≤ stop ∧ stop = n)) := by
  have hfirst : ¬ (first : Int) < 0 := by omega
  refine ⟨(if stop < 0 then instructions.length + stop else stop).toNat, ?_, ?_⟩
  · simp only [slice, hfirst, ↓reduceIte, Int.toNat_natCast]
  · split <;> omega

/-- A line of a slice that is read upward. A slice that ends at a negative index is read with
negative positions. -/
theorem get_of_upward {instructions : List Str} {start last : Int} (hstart : 0 ≤ start)
    (hlast : -(instructions.length : Int) ≤ last + 1) (hlt : last < instructions.length)
    {line : Int × Str} (h : line ∈ upward instructions start last) :
    ∃ q : Nat, instructions[q]? = some line.2 ∧ start ≤ q ∧
      ((last + 1 < 0 ∧ line.1 < 0 ∧ instructions.length + line.1 = q) ∨
        (0 ≤ last + 1 ∧ line.1 = q ∧ q ≤ last)) := by
  obtain ⟨⟨ins, k⟩, hk, rfl⟩ := List.mem_map.mp h
  rw [List.mem_zipIdx_iff_getElem?] at hk
  obtain ⟨first, rfl⟩ := Int.eq_ofNat_of_zero_le hstart
  obtain ⟨stop, hslice, hstop, hends⟩ := slice_stop instructions first hlast hlt
  have hlen : (slice instructions first (last + 1)).length = stop - first := by
    rw [hslice, List.length_drop, List.length_take, Nat.min_eq_left hstop]
  obtain ⟨hklt, -⟩ := List.getElem?_eq_some_iff.mp hk
  rw [List.length_reverse, hlen] at hklt
  rw [List.getElem?_reverse (by rw [hlen]; exact hklt), hlen, hslice, List.getElem?_drop,
    List.getElem?_take_of_lt (by omega)] at hk
  refine ⟨first + (stop - first - 1 - k), hk, by omega, ?_⟩
  dsimp only
  omega

/-- Python's index of a line that is read. -/
theorem lineAt_upward {instructions : List Str} {start last : Int} (hstart : 0 ≤ start)
    (hlast : -(instructions.length : Int) ≤ last + 1) (hlt : last < instructions.length)
    {line : Int × Str} (h : line ∈ upward instructions start last) :
    lineAt instructions line.1 = line.2 := by
  obtain ⟨q, hget, -, hpos⟩ := get_of_upward hstart hlast hlt h
  have hindex : (if line.1 < 0 then instructions.length + line.1 else line.1).toNat = q := by
    split <;> omega
  rw [lineAt, hindex, List.getD_eq_getElem?_getD, hget, Option.getD_some]

theorem close_tail {addr n : Int} {bbs : Blocks} {current : Option (Int → BB)} (haddr : 0 ≤ addr)
    (hn : addr ≤ n) (h : ∀ e ∈ bbs, -1 ≤ e.2.tail ∧ e.2.tail < n)
    (hcurrent : ∀ bb ∈ current, ∀ tail, (bb tail).tail = tail) :
    ∀ e ∈ close bbs current (addr - 1), -1 ≤ e.2.tail ∧ e.2.tail < n := by
  intro e he
  cases current with
  | none => exact h e he
  | some bb =>
    rcases Dict.mem_set he with rfl | he
    · rw [hcurrent bb rfl]
      omega
    · exact h e he

theorem constructFrom_tail {instructions : List Str} {addr n : Int} {bbs bbs' : Blocks}
    {current : Option (Int → BB)} (haddr : 0 ≤ addr) (hn : addr + instructions.length = n)
    (h : ∀ e ∈ bbs, -1 ≤ e.2.tail ∧ e.2.tail < n)
    (hcurrent : ∀ bb ∈ current, ∀ tail, (bb tail).tail = tail)
    (hcfg : constructFrom addr bbs current instructions = .ok bbs') :
    ∀ e ∈ bbs', -1 ≤ e.2.tail ∧ e.2.tail < n := by
  have hclose := close_tail haddr (n := n) (by omega) h hcurrent
  induction instructions generalizing addr bbs current with
  | nil =>
    obtain rfl := Except.ok.inj hcfg
    exact hclose
  | cons ins rest ih =>
    rw [List.length_cons] at hn
    have hn' : addr + 1 + rest.length = n := by omega
    rw [constructFrom] at hcfg
    split at hcfg
    · obtain ⟨bid, -, hcfg⟩ := bind_eq_ok hcfg
      obtain ⟨preds, -, hcfg⟩ := bind_eq_ok hcfg
      obtain ⟨succs, -, hcfg⟩ := bind_eq_ok hcfg
      have hopened : ∀ bb ∈ some fun tail => BB.mk bid addr tail preds succs,
          ∀ tail, (bb tail).tail = tail := by
        intro bb hbb tail
        obtain rfl := Option.some.inj hbb
        rfl
      exact ih (by omega) hn' hclose hopened hcfg
        (close_tail (by omega) (by omega) hclose hopened)
    · exact ih (by omega) hn' h hcurrent hcfg (close_tail (by omega) (by omega) h hcurrent)

/-- A block ends at a line of the listing, and the block that stands for an empty listing
before it. -/
theorem tail_lt {instructions : List Str} {bbs : Blocks}
    (hcfg : constructCFG instructions = .ok bbs) :
    ∀ e ∈ bbs, -1 ≤ e.2.tail ∧ e.2.tail < instructions.length := by
  obtain ⟨found, hfrom, hcfg⟩ := bind_eq_ok hcfg
  have htail := constructFrom_tail (Int.le_refl 0) (Int.zero_add _) (by simp) (by simp) hfrom
  split at hcfg
  · obtain rfl := Except.ok.inj hcfg
    intro e he
    obtain rfl := List.mem_singleton.mp he
    dsimp only
    omega
  · obtain rfl := Except.ok.inj hcfg
    exact htail

section

variable {instructions : List Str} {Reads : Int → Str → Prop} {P : Search → Prop}

theorem readLines_keeps
    (htake : ∀ s t pos ins, Reads pos ins → P s → s.take pos ins = .ok t → P t)
    (hresolve : ∀ s pos ins, lineAt instructions pos = ins → P s →
      P ((s.resolveLine pos ins).resolveFile pos ins))
    {sourceAvailable : Bool} {lines : List (Int × Str)}
    (hlines : ∀ line ∈ lines, Reads line.1 line.2 ∧ lineAt instructions line.1 = line.2)
    {s t : Search} {broken : Option (Bool × Int)} (h : P s)
    (hread : readLines sourceAvailable lines s = .ok (t, broken)) :
    P t ∧ ∀ b ∈ broken, ∃ line ∈ lines, line.1 = b.2 := by
  induction lines generalizing s with
  | nil =>
    cases hread
    exact ⟨h, by simp⟩
  | cons line lines ih =>
    obtain ⟨pos, ins⟩ := line
    obtain ⟨⟨hline, hat⟩, hlines⟩ := List.forall_mem_cons.mp hlines
    rw [readLines] at hread
    split at hread
    · cases hread
    · rename_i u hu
      have hnext := hresolve u pos ins hat (htake s u pos ins hline h hu)
      dsimp only at hread
      split at hread
      · cases hread
        refine ⟨hnext, fun b hb => ?_⟩
        obtain rfl := Option.some.inj hb
        exact ⟨_, List.mem_cons_self, rfl⟩
      · obtain ⟨ht, hbroken⟩ := ih hlines hnext hread
        refine ⟨ht, fun b hb => ?_⟩
        obtain ⟨line, hline, heq⟩ := hbroken b hb
        exact ⟨line, List.mem_cons_of_mem _ hline, heq⟩

theorem scanBackward_keeps
    (hresolve : ∀ s pos ins, lineAt instructions pos = ins → P s →
      P ((s.resolveLine pos ins).resolveFile pos ins))
    {breakAt : Int} (hlast : -(instructions.length : Int) ≤ breakAt)
    (hlt : breakAt ≤ instructions.length) {s : Search} (h : P s) :
    P (scanBackward instructions breakAt s) := by
  have hlines : ∀ line ∈ upward instructions 0 (breakAt - 1), lineAt instructions line.1 = line.2 :=
    fun line hline => lineAt_upward (Int.le_refl 0) (by omega) (by omega) hline
  unfold scanBackward
  generalize upward instructions 0 (breakAt - 1) = lines at hlines
  induction lines generalizing s with
  | nil => exact h
  | cons line lines ih =>
    obtain ⟨hline, hlines⟩ := List.forall_mem_cons.mp hlines
    rw [List.foldl_cons]
    exact ih (hresolve s line.1 line.2 hline h) hlines

end

/-! ## The blocks that are read -/

/-- An entry of the list of blocks to check: the stalled block up to the stalled instruction,
or a block behind it. -/
def Behind (bbs : Blocks) (bid : Str) (head : Int) (addr : Nat) (entry : Entry) : Prop :=
  entry = (bid, head, (addr : Int) - 1) ∨
    Relation.TransGen (fun c b => b ∈ predsOf bbs c) bid entry.1 ∧
      ∃ bb, (entry.1, bb) ∈ bbs ∧ entry.2 = (bb.head, bb.tail)

/-- The blocks that are added lie one step further behind. -/
theorem behind_preds {bbs : Blocks} {bid : Str} {head : Int} {addr : Nat} {entry : Entry}
    (h : Behind bbs bid head addr entry) {entries : List Entry}
    (hpreds : predEntries bbs entry.1 = .ok entries) :
    ∀ e ∈ entries, Behind bbs bid head addr e := by
  intro e he
  rw [predEntries] at hpreds
  split at hpreds
  · cases hpreds
  · rename_i bb hlookup
    obtain ⟨b, hb, hentry⟩ := mem_mapM hpreds e he
    split at hentry
    · cases hentry
    · rename_i bb' hlookup'
      cases hentry
      have hstep : b ∈ predsOf bbs entry.1 := by
        rw [predsOf, hlookup]
        exact hb
      refine Or.inr ⟨?_, bb', Dict.mem_of_lookup hlookup', rfl⟩
      rcases h with rfl | ⟨hreached, -⟩
      · exact Relation.TransGen.single hstep
      · exact hreached.tail hstep

variable {instructions : List Str} {bbs : Blocks} {bid : Str} {bb : BB} {addr : Nat}

/-- The line of the listing leads to the stalled instruction. -/
def ReadsLine (instructions : List Str) (bbs : Blocks) (bid : Str) (head : Int) (addr : Nat)
    (pos : Int) (ins : Str) : Prop :=
  ∃ q : Nat, pos = q ∧ instructions[q]? = some ins ∧ LeadsTo bbs bid head addr q

theorem bounds_behind (hcfg : constructCFG instructions = .ok bbs) (haddr : addr < instructions.length)
    (hbb : (bid, bb) ∈ bbs) {entry : Entry} (h : Behind bbs bid bb.head addr entry) :
    0 ≤ entry.2.1 ∧ -1 ≤ entry.2.2 ∧ entry.2.2 < instructions.length := by
  rcases h with rfl | ⟨-, bb', hbb', hspan⟩
  · have hhead := head_nonneg hcfg _ hbb
    dsimp only at hhead ⊢
    omega
  · rw [hspan]
    exact ⟨head_nonneg hcfg _ hbb', tail_lt hcfg _ hbb'⟩

/-- What is read of a block to check are lines that lead to the stalled instruction. -/
theorem reads_behind (hcfg : constructCFG instructions = .ok bbs) (haddr : addr < instructions.length)
    (hbb : (bid, bb) ∈ bbs) {entry : Entry} (h : Behind bbs bid bb.head addr entry) :
    ∀ line ∈ upward instructions entry.2.1 entry.2.2,
      ReadsLine instructions bbs bid bb.head addr line.1 line.2 ∧
        lineAt instructions line.1 = line.2 := by
  intro line hline
  obtain ⟨hstart, hlast, hlt⟩ := bounds_behind hcfg haddr hbb h
  have hstop : -(instructions.length : Int) ≤ entry.2.2 + 1 := by omega
  refine ⟨?_, lineAt_upward hstart hstop hlt hline⟩
  obtain ⟨q, hget, hge, ⟨hneg, -⟩ | ⟨-, hq, hle⟩⟩ := get_of_upward hstart hstop hlt hline
  · omega
  · refine ⟨q, hq, hget, ?_⟩
    rcases h with rfl | ⟨hreached, bb', hbb', hspan⟩
    · dsimp only at hge hle
      exact Or.inl ⟨hge, by omega⟩
    · rw [hspan] at hge hle
      exact Or.inr ⟨entry.1, bb', hreached, hbb', hge, hle⟩

section

variable {P : Search → Prop} (hcfg : constructCFG instructions = .ok bbs)
  (haddr : addr < instructions.length)
  (htake : ∀ s t pos ins, ReadsLine instructions bbs bid bb.head addr pos ins → P s →
    s.take pos ins = .ok t → P t)
  (hresolve : ∀ s pos ins, lineAt instructions pos = ins → P s →
    P ((s.resolveLine pos ins).resolveFile pos ins))

include hcfg haddr htake hresolve

theorem checkBlock_keeps (hbb : (bid, bb) ∈ bbs) {sourceAvailable : Bool} {entry : Entry}
    (hentry : Behind bbs bid bb.head addr entry) {s t : Search} (h : P s)
    (hcheck : checkBlock instructions sourceAvailable entry s = .ok t ∨
      checkBlock instructions sourceAvailable entry s = .error (.ok t)) : P t := by
  have hreads := reads_behind hcfg haddr hbb hentry
  obtain ⟨hstart, hlast, hlt⟩ := bounds_behind hcfg haddr hbb hentry
  obtain ⟨b, start, last⟩ := entry
  unfold checkBlock at hcheck
  dsimp only at hcheck hreads hlast hlt hstart
  cases hread : readLines sourceAvailable (upward instructions start last) s with
  | error e => simp [hread] at hcheck
  | ok result =>
    obtain ⟨u, broken⟩ := result
    obtain ⟨hu, hbroken⟩ := readLines_keeps htake hresolve hreads h hread
    rw [hread] at hcheck
    dsimp only at hcheck
    split at hcheck
    · rcases hcheck with hcheck | hcheck <;> cases hcheck
      exact hu
    · split at hcheck
      · have hbreak : -1 ≤ (broken.getD (false, last)).2 ∧
            (broken.getD (false, last)).2 < instructions.length := by
          cases broken with
          | none => exact ⟨hlast, hlt⟩
          | some b =>
            obtain ⟨line, hline, heq⟩ := hbroken b rfl
            obtain ⟨q, -, -, ⟨hneg, -⟩ | ⟨-, hq, hle⟩⟩ :=
              get_of_upward hstart (by omega) hlt hline
            · omega
            · rw [Option.getD_some, ← heq, hq]
              omega
        rcases hcheck with hcheck | hcheck <;> cases hcheck
        exact scanBackward_keeps hresolve (by omega) (by omega) hu
      · rcases hcheck with hcheck | hcheck <;> cases hcheck
        exact hu

/-- What each line that is read keeps holds when the search returns, whatever way it has taken
through the graph. -/
theorem searchLoop_keeps (hbb : (bid, bb) ∈ bbs) {sourceAvailable : Bool} {fuel j : Nat}
    {bbsToCheck : List Entry} {s t : Search}
    (hentries : ∀ e ∈ bbsToCheck, Behind bbs bid bb.head addr e) (h : P s)
    (hloop : searchLoop instructions sourceAvailable bbs fuel bbsToCheck j s = some (.ok t)) :
    P t := by
  induction fuel generalizing bbsToCheck j s with
  | zero =>
    unfold searchLoop at hloop
    split at hloop
    · cases hloop
      exact h
    · cases hloop
    · rename_i hfuel
      cases hfuel
  | succ fuel ih =>
    unfold searchLoop at hloop
    split at hloop
    · cases hloop
      exact h
    · cases hloop
    · rename_i entry fuel' hget hfuel
      cases hfuel
      have hentry := hentries entry (List.mem_of_getElem? hget)
      split at hloop
      · rename_i result hcheck
        obtain rfl := Option.some.inj hloop
        exact checkBlock_keeps hcfg haddr htake hresolve hbb hentry h (Or.inr hcheck)
      · rename_i u hcheck
        have hu := checkBlock_keeps hcfg haddr htake hresolve hbb hentry h (Or.inl hcheck)
        split at hloop
        · cases hloop
        · rename_i entries hpreds
          refine ih (fun e he => ?_) hu hloop
          rcases List.mem_append.mp he with he | he
          · exact hentries e he
          · exact behind_preds hentry hpreds e he

theorem searchStall_keeps (hfind : findBB bbs addr = some (bid, bb)) {fuel : Nat} {ins : Str}
    {t : Search} (h : P (Search.start addr ins))
    (hsearch : searchStall fuel instructions addr ins = some (.ok t)) : P t := by
  simp only [searchStall, hcfg, hfind] at hsearch
  refine searchLoop_keeps hcfg haddr htake hresolve (List.mem_of_find?_eq_some hfind) ?_ h hsearch
  intro e he
  exact Or.inl (List.mem_singleton.mp he)

end

/-! ## The result -/

/-- Every token is pending or was resolved by a line that leads to the stalled instruction and
sets it. -/
def BlamesLines (instructions : List Str) (bbs : Blocks) (bid : Str) (head : Int) (addr : Nat)
    (tokens : List Str) (s : Search) : Prop :=
  ∃ blame : List (Str × Int), Blames tokens s blame ∧ ∀ e ∈ blame, ∃ line,
    ReadsLine instructions bbs bid head addr e.2 line ∧ Sets line e.1

/-- Each position that the search has found is that of a comment. -/
structure Quotes (instructions : List Str) (s : Search) : Prop where
  line : ∀ p ∈ s.sourceLineStalled, comment (chars "Line") (lineAt instructions p) = true
  file : ∀ p ∈ s.sourceFileStalled, comment (chars "File") (lineAt instructions p) = true
  lines : ∀ e ∈ s.sourceLinesStall, comment (chars "Line") (lineAt instructions e.2) = true
  files : ∀ e ∈ s.sourceFilesStall, comment (chars "File") (lineAt instructions e.2) = true

theorem take_blamesLines {head : Int} {tokens : List Str} {s t : Search} {pos : Int} {ins : Str}
    (hread : ReadsLine instructions bbs bid head addr pos ins)
    (h : BlamesLines instructions bbs bid head addr tokens s) (htake : s.take pos ins = .ok t) :
    BlamesLines instructions bbs bid head addr tokens t := by
  obtain ⟨blame, hblame, hlines⟩ := h
  obtain ⟨taken, htaken, hsets⟩ := take_blames hblame htake
  refine ⟨_, htaken, fun e he => ?_⟩
  rcases List.mem_append.mp he with he | he
  · exact hlines e he
  · obtain ⟨token, htoken, rfl⟩ := List.mem_map.mp he
    exact ⟨ins, hread, hsets token htoken⟩

theorem mem_foldl_set {positions : List Int} {d : List (Int × Int)} {pos : Int} {e : Int × Int}
    (h : e ∈ positions.foldl (fun d i => Dict.set d i pos) d) : e ∈ d ∨ e.2 = pos := by
  induction positions generalizing d with
  | nil => exact Or.inl h
  | cons i positions ih =>
    rcases ih h with h | h
    · rcases Dict.mem_set h with rfl | h
      · exact Or.inr rfl
      · exact Or.inl h
    · exact Or.inr h

theorem resolveLine_quotes {s : Search} {pos : Int} {ins : Str} (hat : lineAt instructions pos = ins)
    (h : Quotes instructions s) : Quotes instructions (s.resolveLine pos ins) := by
  unfold Search.resolveLine
  split
  · rename_i hcomment
    rw [← hat] at hcomment
    refine ⟨fun p hp => ?_, h.file, fun e he => ?_, h.files⟩
    · dsimp only at hp
      split at hp
      · obtain rfl := Option.some.inj hp
        exact hcomment
      · exact h.line p hp
    · rcases mem_foldl_set he with he | he
      · exact h.lines e he
      · rw [he]
        exact hcomment
  · exact h

theorem resolveFile_quotes {s : Search} {pos : Int} {ins : Str} (hat : lineAt instructions pos = ins)
    (h : Quotes instructions s) : Quotes instructions (s.resolveFile pos ins) := by
  unfold Search.resolveFile
  split
  · rename_i hcomment
    rw [← hat] at hcomment
    refine ⟨h.line, fun p hp => ?_, h.lines, fun e he => ?_⟩
    · dsimp only at hp
      split at hp
      · obtain rfl := Option.some.inj hp
        exact hcomment
      · exact h.file p hp
    · rcases mem_foldl_set he with he | he
      · exact h.files e he
      · rw [he]
        exact hcomment
  · exact h

theorem take_quotes {s t : Search} {pos : Int} {ins : Str} (h : Quotes instructions s)
    (htake : s.take pos ins = .ok t) : Quotes instructions t := by
  unfold Search.take at htake
  split at htake
  · cases htake
    exact h
  · split at htake
    · cases htake
    · cases htake
      exact ⟨h.line, h.file, h.lines, h.files⟩

/-- Whatever the block graph is, when the search returns, every token is still pending or was
resolved by one line, and the causes are exactly these lines. Each sets its token and stands
above the stalled instruction in its block or in a block that leads to it. What is quoted as
the source of an instruction is a comment with its line or its file. -/
theorem causes_lead_to_stall {fuel : Nat} {ins : Str} {s : Search}
    (hcfg : constructCFG instructions = .ok bbs) (haddr : addr < instructions.length)
    (hfind : findBB bbs addr = some (bid, bb))
    (hsearch : searchStall fuel instructions addr ins = some (.ok s)) :
    (∃ blame : List (Str × Int), (blame.map Prod.fst ++ s.sbidsStalled).Perm (stalledSbids ins) ∧
      (∀ p, p ∈ causes s ↔ p ∈ blame.map Prod.snd) ∧
      ∀ e ∈ blame, ∃ pos : Nat, e.2 = pos ∧ LeadsTo bbs bid bb.head addr pos ∧
        ∃ line, instructions[pos]? = some line ∧ Sets line e.1) ∧
    Quotes instructions s := by
  constructor
  · have hstart : BlamesLines instructions bbs bid bb.head addr (stalledSbids ins)
        (Search.start addr ins) := ⟨[], ⟨List.Perm.refl _, by simp [causes, Search.start]⟩, by simp⟩
    have hkeeps := searchStall_keeps hcfg haddr (fun _ _ _ _ hread h => take_blamesLines hread h)
      (fun s pos ins _ h => h.imp fun blame hblame =>
        ⟨resolve_blames hblame.1 pos ins, hblame.2⟩) hfind hstart hsearch
    obtain ⟨blame, hblame, hlines⟩ := hkeeps
    refine ⟨blame, hblame.tokens_perm, hblame.mem_causes, fun e he => ?_⟩
    obtain ⟨line, ⟨pos, hpos, hget, hleads⟩, hsets⟩ := hlines e he
    exact ⟨pos, hpos, hleads, line, hget, hsets⟩
  · have hstart : Quotes instructions (Search.start addr ins) := by
      constructor <;> simp [Search.start]
    exact searchStall_keeps hcfg haddr (fun _ _ _ _ _ h htake => take_quotes h htake)
      (fun s pos ins hat h => resolveFile_quotes hat (resolveLine_quotes hat h)) hfind hstart hsearch

/-- A loop in which the token is set below the instruction that waits for it. -/
def setBelow : List Str :=
  [chars "// B1: Preds:\x7bB1\x7d, Succs:\x7bB1\x7d", waiting,
    chars "/* [00000010] */ send (8) r4 r5 \x7b$1\x7d // b"]

def loopBlock : BB := ⟨chars "B1", 0, 2, [chars "B1"], [chars "B1"]⟩

theorem causes_lead_to_stall_setBelow : ∃ s, searchStall 2 setBelow 1 waiting = some (.ok s) ∧
    (∃ blame : List (Str × Int), (blame.map Prod.fst ++ s.sbidsStalled).Perm (stalledSbids waiting) ∧
      (∀ p, p ∈ causes s ↔ p ∈ blame.map Prod.snd) ∧
      ∀ e ∈ blame, ∃ pos : Nat, e.2 = pos ∧ LeadsTo [(chars "B1", loopBlock)] (chars "B1") 0 1 pos ∧
        ∃ line, setBelow[pos]? = some line ∧ Sets line e.1) ∧
    Quotes setBelow s := by
  have hcfg : constructCFG setBelow = .ok [(chars "B1", loopBlock)] := by
    unfold setBelow loopBlock waiting
    repeat rw [chars_ofList]
    decide +kernel
  have hfind : findBB [(chars "B1", loopBlock)] (1 : Nat) = some (chars "B1", loopBlock) := by
    decide +kernel
  have hreturns : ((searchStall 2 setBelow 1 waiting).any fun result => result.toOption.isSome) = true := by
    unfold setBelow waiting
    repeat rw [chars_ofList]
    decide +kernel
  cases hsearch : searchStall 2 setBelow 1 waiting with
  | none =>
    rw [hsearch] at hreturns
    cases hreturns
  | some result =>
    rw [hsearch] at hreturns
    cases result with
    | error e => cases hreturns
    | ok s => exact ⟨s, rfl, causes_lead_to_stall hcfg (by decide) hfind hsearch⟩

end Unitrace.Metrics.StallPaths
