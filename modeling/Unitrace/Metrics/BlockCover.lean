import Unitrace.Lib.Tiling
import Unitrace.Metrics.ControlFlow

/-!
# The lines that the basic blocks cover

The blocks of a listing lie end to end from the first head to the last line, but they
are stored under the ids that are read from their heads. Every line is in one block if
the first line is a head and no id is read twice.
-/
namespace Unitrace.Metrics.BlockCover

open Unitrace.Lib Unitrace.Lib.Text Unitrace.Lib.PyStr Unitrace.Lib.Tiling
open Unitrace.Metrics.ControlFlow

/-- Every line lies in exactly one block, and that is the one that is found. -/
structure Covers (instructions : List Str) (bbs : Blocks) : Prop where
  disjoint : bbs.Pairwise fun e f => ∀ i, ¬ (e.2.inBB i ∧ f.2.inBB i)
  found : ∀ i < instructions.length, ∃ e ∈ bbs, e.2.inBB i ∧ (∀ f ∈ bbs, f.2.inBB i → f = e) ∧
    findBB bbs i = some e

def FindsEveryLine (instructions : List Str) : Prop :=
  ∃ bbs, constructCFG instructions = .ok bbs ∧ Covers instructions bbs

/-! ## What is read from a head -/

/-- The id of a head is the text between its first two spaces, up to a colon. -/
def blockId (ins : Str) : Str := strip (before ':' ((ins.splitOn ' ').getD 1 []))

/-- The text behind the first occurrence of the word, up to the next one. -/
def behind (word ins : Str) : Str := (splitStr word ins).getD 1 []

def blockIds (word ins : Str) : List Str :=
  (((before '\x7d' (((behind word ins).splitOn '\x7b').getD 1 [])).splitOn ',').map strip).filter
    (· ≠ [])

/-- The id and both sets of a head can be read. -/
structure Readable (ins : Str) : Prop where
  space : ' ' ∈ ins
  preds : '\x7b' ∈ behind (chars "Preds") ins
  succs : '\x7b' ∈ behind (chars "Succs") ins

def heads (instructions : List Str) : List Str := instructions.filter isHeader

/-- The first line is a head, every head can be read, and no id is read twice. -/
structure WellHeaded (instructions : List Str) : Prop where
  first : ∃ ins ∈ instructions.head?, isHeader ins
  readable : ∀ ins ∈ heads instructions, Readable ins
  distinct : ((heads instructions).map blockId).Nodup

theorem splitOn_of_mem {c : Char} {s : Str} (h : c ∈ s) :
    (s.splitOn c)[1]? = some ((s.splitOn c).getD 1 []) := by
  obtain ⟨l, r, rfl, hl⟩ := List.eq_append_cons_of_mem h
  obtain ⟨part, parts, hr⟩ := List.exists_cons_of_ne_nil (List.splitOn_ne_nil c r)
  rw [List.splitOn_append_cons_self_of_not_mem hl, hr]
  rfl

theorem splitOn_of_notMem {c : Char} {s : Str} (h : c ∉ s) : (s.splitOn c)[1]? = none := by
  rw [List.splitOn_eq_singleton h]
  rfl

theorem headerId_of_space {ins : Str} (h : ' ' ∈ ins) : headerId ins = .ok (blockId ins) := by
  rw [headerId, nth, splitOn_of_mem h]
  rfl

theorem idsAfter_of_brace {word ins : Str} (h : '\x7b' ∈ behind word ins) :
    idsAfter word ins = .ok (blockIds word ins) := by
  cases hafter : (splitStr word ins)[1]? with
  | none =>
    rw [behind, List.getD_eq_getElem?_getD, hafter] at h
    cases h
  | some after =>
    have hbehind : behind word ins = after := by rw [behind, List.getD_eq_getElem?_getD, hafter]; rfl
    rw [idsAfter, nth, hafter]
    rw [hbehind] at h
    show (nth (after.splitOn '\x7b') 1).bind _ = _
    rw [nth, splitOn_of_mem h, blockIds, hbehind]
    rfl

/-- A head is read without an exception exactly if it can be. -/
theorem readable_of_ok {ins bid : Str} {preds succs : List Str} (hid : headerId ins = .ok bid)
    (hpreds : idsAfter (chars "Preds") ins = .ok preds)
    (hsuccs : idsAfter (chars "Succs") ins = .ok succs) : Readable ins := by
  have hbrace {word : Str} {ids : List Str} (h : idsAfter word ins = .ok ids) :
      '\x7b' ∈ behind word ins := by
    by_contra hno
    cases hafter : (splitStr word ins)[1]? with
    | none =>
      rw [idsAfter, nth, hafter] at h
      cases h
    | some after =>
      have hbehind : behind word ins = after := by
        rw [behind, List.getD_eq_getElem?_getD, hafter]
        rfl
      rw [hbehind] at hno
      rw [idsAfter, nth, hafter] at h
      have hnth : nth (after.splitOn '\x7b') 1 = .error .indexError := by
        rw [nth, splitOn_of_notMem hno]
      change (nth (after.splitOn '\x7b') 1).bind _ = _ at h
      rw [hnth] at h
      cases h
  refine ⟨?_, hbrace hpreds, hbrace hsuccs⟩
  by_contra hno
  rw [headerId, nth, splitOn_of_notMem hno] at hid
  cases hid

/-! ## The blocks in the order of their heads -/

/-- The block that a line heads, with its last line still open. -/
def openBlock (addr : Int) (ins : Str) : Int → BB := fun tail =>
  ⟨blockId ins, addr, tail, blockIds (chars "Preds") ins, blockIds (chars "Succs") ins⟩

/-- The blocks of the listing as they are closed. -/
def cut : Int → Option (Int → BB) → List Str → List BB
  | addr, current, [] => (current.map fun bb => bb (addr - 1)).toList
  | addr, current, ins :: rest =>
    if isHeader ins then
      (current.map fun bb => bb (addr - 1)).toList ++ cut (addr + 1) (some (openBlock addr ins)) rest
    else cut (addr + 1) current rest

def entry (bb : BB) : Str × BB := (bb.bid, bb)

theorem close_eq (bbs : Blocks) (current : Option (Int → BB)) (tail : Int) :
    close bbs current tail = Dict.setAll bbs ((current.map fun bb => bb tail).toList.map entry) := by
  cases current <;> rfl

theorem setAll_setAll (bbs : Blocks) (es fs : Blocks) :
    Dict.setAll (Dict.setAll bbs es) fs = Dict.setAll bbs (es ++ fs) := by
  rw [Dict.setAll, Dict.setAll, Dict.setAll, List.foldl_append]

/-- The dictionary holds the blocks under their ids, the last one of an id. -/
theorem constructFrom_ok {instructions : List Str}
    (h : ∀ ins ∈ heads instructions, Readable ins) (addr : Int) (bbs : Blocks)
    (current : Option (Int → BB)) :
    constructFrom addr bbs current instructions =
      .ok (Dict.setAll bbs ((cut addr current instructions).map entry)) := by
  induction instructions generalizing addr bbs current with
  | nil => rw [constructFrom, cut, close_eq]
  | cons ins rest ih =>
    rw [constructFrom, cut]
    by_cases hhead : isHeader ins = true
    · rw [heads, List.filter_cons_of_pos hhead] at h
      obtain ⟨hspace, hpreds, hsuccs⟩ := h ins List.mem_cons_self
      rw [if_pos hhead, if_pos hhead, headerId_of_space hspace, idsAfter_of_brace hpreds,
        idsAfter_of_brace hsuccs]
      have hrest := ih (fun i hi => h i (List.mem_cons_of_mem ins hi)) (addr + 1)
        (close bbs current (addr - 1)) (some (openBlock addr ins))
      rw [close_eq, setAll_setAll, ← List.map_append] at hrest
      rw [← hrest, close_eq]
      rfl
    · rw [heads, List.filter_cons_of_neg hhead] at h
      rw [if_neg hhead, if_neg hhead]
      exact ih h (addr + 1) bbs current

theorem readable_of_constructFrom {instructions : List Str} {addr : Int} {bbs bbs' : Blocks}
    {current : Option (Int → BB)} (h : constructFrom addr bbs current instructions = .ok bbs') :
    ∀ ins ∈ heads instructions, Readable ins := by
  induction instructions generalizing addr bbs current with
  | nil => intro ins hins; cases hins
  | cons ins rest ih =>
    rw [constructFrom] at h
    by_cases hhead : isHeader ins = true
    · rw [if_pos hhead] at h
      obtain ⟨bid, hid, h⟩ := bind_eq_ok h
      obtain ⟨preds, hpreds, h⟩ := bind_eq_ok h
      obtain ⟨succs, hsuccs, h⟩ := bind_eq_ok h
      rw [heads, List.filter_cons_of_pos hhead]
      exact List.forall_mem_cons.mpr ⟨readable_of_ok hid hpreds hsuccs, ih h⟩
    · rw [if_neg hhead] at h
      rw [heads, List.filter_cons_of_neg hhead]
      exact ih h

/-! ## The blocks lie end to end -/

abbrev BlocksTile : Int → Int → List BB → Prop := Tiles BB.head fun bb => bb.tail + 1

theorem inBB_iff {bb : BB} {i : Int} : bb.inBB i = true ↔ bb.head ≤ i ∧ i < bb.tail + 1 := by
  rw [BB.inBB, Bool.and_eq_true, decide_eq_true_eq, decide_eq_true_eq, Int.lt_add_one_iff]

theorem tiles_open {instructions : List Str} {addr a : Int} {current : Int → BB}
    (hhead : ∀ tail, (current tail).head = a) (htail : ∀ tail, (current tail).tail = tail)
    (hlt : a < addr) :
    BlocksTile a (addr + instructions.length) (cut addr (some current) instructions) := by
  induction instructions generalizing addr a current with
  | nil =>
    refine ⟨hhead _, ?_, ?_⟩
    · show a < (current (addr - 1)).tail + 1
      rw [htail]
      omega
    · show (current (addr - 1)).tail + 1 = addr + 0
      rw [htail]
      omega
  | cons ins rest ih =>
    have hlength : addr + ((ins :: rest).length : Nat) = addr + 1 + (rest.length : Nat) := by
      rw [List.length_cons]
      omega
    rw [cut, hlength]
    split
    · refine ⟨hhead _, ?_, ?_⟩
      · show a < (current (addr - 1)).tail + 1
        rw [htail]
        omega
      · show BlocksTile ((current (addr - 1)).tail + 1) _ _
        rw [htail, Int.sub_add_cancel]
        exact ih (fun _ => rfl) (fun _ => rfl) (by omega)
    · exact ih hhead htail (by omega)

/-- The blocks lie end to end from the first head on. -/
theorem tiles_cut (instructions : List Str) (addr : Int) :
    ∃ first, addr ≤ first ∧
      BlocksTile first (addr + instructions.length) (cut addr none instructions) ∧
      (first = addr ↔ instructions = [] ∨ ∃ ins ∈ instructions.head?, isHeader ins) := by
  induction instructions generalizing addr with
  | nil => exact ⟨addr, Int.le_refl _, (Int.add_zero addr).symm, by simp⟩
  | cons ins rest ih =>
    have hlength : addr + ((ins :: rest).length : Nat) = addr + 1 + (rest.length : Nat) := by
      rw [List.length_cons]
      omega
    rw [cut, hlength]
    by_cases hhead : isHeader ins = true
    · rw [if_pos hhead]
      refine ⟨addr, Int.le_refl _, tiles_open (fun _ => rfl) (fun _ => rfl) (by omega), ?_⟩
      simp [hhead]
    · rw [if_neg hhead]
      obtain ⟨first, hle, htiles, -⟩ := ih (addr + 1)
      refine ⟨first, by omega, htiles, ?_⟩
      simp only [reduceCtorEq, List.head?_cons, Option.mem_some_iff, exists_eq_left', hhead,
        or_false, iff_false, Bool.false_eq_true]
      omega

theorem bids_cut (instructions : List Str) (addr : Int) (current : Option (Int → BB))
    (hbid : ∀ bb ∈ current, ∀ i j, (bb i).bid = (bb j).bid) :
    (cut addr current instructions).map BB.bid =
      (current.map fun bb => (bb 0).bid).toList ++ (heads instructions).map blockId := by
  induction instructions generalizing addr current with
  | nil =>
    cases current with
    | none => rfl
    | some bb => exact congrArg (fun bid => [bid]) (hbid bb rfl _ _)
  | cons ins rest ih =>
    rw [cut, heads]
    by_cases hhead : isHeader ins = true
    · have hopen : ∀ bb ∈ some (openBlock addr ins), ∀ i j, (bb i).bid = (bb j).bid := by
        intro bb hbb i j
        obtain rfl := Option.some.inj hbb
        rfl
      rw [if_pos hhead, List.filter_cons_of_pos hhead, List.map_append, ih _ _ hopen]
      cases current with
      | none => rfl
      | some bb => exact congrArg (fun bid => bid :: _) (hbid bb rfl _ _)
    · rw [if_neg hhead, List.filter_cons_of_neg hhead]
      exact ih _ _ hbid

theorem bids_cut_none (instructions : List Str) (addr : Int) :
    (cut addr none instructions).map BB.bid = (heads instructions).map blockId :=
  bids_cut instructions addr none (by simp)

theorem cut_eq_nil {instructions : List Str} (h : heads instructions = []) :
    cut 0 none instructions = [] := by
  have hbids := bids_cut_none instructions 0
  rw [h] at hbids
  exact List.map_eq_nil_iff.mp hbids

theorem cut_ne_nil {instructions : List Str} (h : heads instructions ≠ []) :
    cut 0 none instructions ≠ [] := by
  intro hnil
  have hbids := bids_cut_none instructions 0
  rw [hnil] at hbids
  exact h (List.map_eq_nil_iff.mp hbids.symm)

theorem keys_entries (blocks : List BB) : (blocks.map entry).map Prod.fst = blocks.map BB.bid := by
  rw [List.map_map]
  rfl

/-! ## The result -/

theorem constructCFG_eq {instructions : List Str} (h : ∀ ins ∈ heads instructions, Readable ins)
    (hne : cut 0 none instructions ≠ []) :
    constructCFG instructions = .ok (Dict.setAll [] ((cut 0 none instructions).map entry)) := by
  obtain ⟨bb, blocks, hcut⟩ := List.exists_cons_of_ne_nil hne
  have hset : Dict.setAll [] ((cut 0 none instructions).map entry) ≠ [] := by
    intro hnil
    have hmem : bb.bid ∈ (Dict.setAll [] ((cut 0 none instructions).map entry)).map Prod.fst := by
      rw [Dict.mem_keys_setAll, keys_entries, hcut]
      exact Or.inr List.mem_cons_self
    rw [hnil] at hmem
    cases hmem
  rw [constructCFG, constructFrom_ok h]
  show (if _ = [] then _ else _) = _
  rw [if_neg hset]
  rfl

/-- Blocks that tile the lines find every line if they are stored under different ids. -/
theorem covers_of_tiles {instructions : List Str} {blocks : List BB}
    (h : BlocksTile 0 instructions.length blocks) : Covers instructions (blocks.map entry) := by
  constructor
  · refine List.pairwise_map.mpr (h.pairwise.imp fun {bb cc} hle i hin => ?_)
    have hbb : bb.head ≤ i ∧ i < bb.tail + 1 := inBB_iff.mp hin.1
    have hcc : cc.head ≤ i ∧ i < cc.tail + 1 := inBB_iff.mp hin.2
    omega
  · intro i hi
    obtain ⟨bb, hbb, hin⟩ := h.exists_mem (i := i) (by omega) (by omega)
    have hunique : ∀ f ∈ blocks.map entry, f.2.inBB i = true → f = entry bb := by
      intro f hf hfi
      obtain ⟨cc, hcc, rfl⟩ := List.mem_map.mp hf
      rw [h.unique hcc hbb (inBB_iff.mp hfi) hin]
    have hmem : entry bb ∈ blocks.map entry := List.mem_map_of_mem hbb
    refine ⟨entry bb, hmem, inBB_iff.mpr hin, hunique, ?_⟩
    rw [findBB]
    cases hfind : (blocks.map entry).find? fun e => e.2.inBB i with
    | none =>
      have hno := List.find?_eq_none.mp hfind (entry bb) hmem
      exact absurd (inBB_iff.mpr hin) hno
    | some f =>
      have hfi := List.find?_some hfind
      rw [hunique f (List.mem_of_find?_eq_some hfind) hfi]

theorem findsEveryLine_of_no_heads {instructions : List Str} (h : heads instructions = []) :
    FindsEveryLine instructions := by
  have hread : ∀ ins ∈ heads instructions, Readable ins := by
    rw [h]
    simp
  refine ⟨[entry ⟨chars "B000", 0, instructions.length - 1, [], []⟩], ?_, ?_⟩
  · rw [constructCFG, constructFrom_ok hread, cut_eq_nil h]
    rfl
  · cases instructions with
    | nil => exact ⟨List.pairwise_singleton _ _, fun i hi => absurd hi (Nat.not_lt_zero i)⟩
    | cons ins rest =>
      have hone : BlocksTile 0 (ins :: rest).length
          [⟨chars "B000", 0, (ins :: rest).length - 1, [], []⟩] := by
        refine ⟨rfl, ?_, Int.sub_add_cancel _ 1⟩
        show (0 : Int) < ((ins :: rest).length : Int) - 1 + 1
        rw [List.length_cons]
        omega
      exact covers_of_tiles hone

/-- A block whose first line is found is not replaced by another one of its id. -/
theorem distinct_of_covers {instructions : List Str} {blocks : List BB} {first : Int}
    (h : BlocksTile first instructions.length blocks) (hfirst : 0 ≤ first)
    (hcovers : Covers instructions (Dict.setAll [] (blocks.map entry))) :
    (blocks.map BB.bid).Nodup := by
  have hstored : ∀ bb ∈ blocks, entry bb ∈ Dict.setAll [] (blocks.map entry) := by
    intro bb hbb
    obtain ⟨hge, hlt, hle⟩ := h.bounds hbb
    obtain ⟨line, hline⟩ := Int.eq_ofNat_of_zero_le (show 0 ≤ bb.head by omega)
    obtain ⟨e, he, hin, -⟩ := hcovers.found line (by omega)
    obtain ⟨cc, hcc, rfl⟩ := List.mem_map.mp ((Dict.mem_setAll he).resolve_left (by simp))
    rw [← hline] at hin
    have hsame : cc = bb := h.unique hcc hbb (inBB_iff.mp hin) ⟨Int.le_refl _, hlt⟩
    exact hsame ▸ he
  have hkeys : ((Dict.setAll [] (blocks.map entry)).map Prod.fst).Nodup :=
    Dict.nodup_setAll (d := []) List.nodup_nil _
  have hne : blocks.Pairwise fun bb cc => bb ≠ cc := by
    refine h.pairwise.imp_of_mem fun {bb cc} hbb _ hle heq => ?_
    have := (h.bounds hbb).2.1
    rw [← heq] at hle
    omega
  refine List.Nodup.map_on (fun bb hbb cc hcc hid => ?_) hne
  have hlookup := Dict.lookup_of_mem hkeys (hstored bb hbb)
  have hlookup' := Dict.lookup_of_mem hkeys (hstored cc hcc)
  have hid' : (entry bb).1 = (entry cc).1 := hid
  rw [hid', hlookup'] at hlookup
  exact (Option.some.inj hlookup).symm

/-- If the first line is found, it heads a block, and if all are, no block is replaced. -/
theorem wellHeaded_of_findsEveryLine {instructions : List Str} (hne : heads instructions ≠ [])
    (h : FindsEveryLine instructions) : WellHeaded instructions := by
  obtain ⟨bbs, hcfg, hcovers⟩ := h
  obtain ⟨first, hfirst, htiles, hiff⟩ := tiles_cut instructions 0
  rw [Int.zero_add] at htiles
  have hread : ∀ ins ∈ heads instructions, Readable ins := by
    obtain ⟨found, hfrom, -⟩ := bind_eq_ok hcfg
    exact readable_of_constructFrom hfrom
  obtain rfl := Except.ok.inj ((constructCFG_eq hread (cut_ne_nil hne)).symm.trans hcfg)
  have hlength : 0 < instructions.length := by
    refine List.length_pos_of_ne_nil fun hnil => hne ?_
    rw [hnil]
    rfl
  obtain ⟨e, he, hin, -⟩ := hcovers.found 0 hlength
  obtain ⟨bb, hbb, rfl⟩ := List.mem_map.mp ((Dict.mem_setAll he).resolve_left (by simp))
  have hzero : bb.head ≤ ((0 : Nat) : Int) := (inBB_iff.mp hin).1
  have hge := (htiles.bounds hbb).1
  have hhead := (hiff.mp (by omega)).resolve_left (List.ne_nil_of_length_pos hlength)
  have hdistinct := distinct_of_covers htiles hfirst hcovers
  rw [bids_cut_none] at hdistinct
  exact ⟨hhead, hread, hdistinct⟩

theorem findsEveryLine_of_wellHeaded {instructions : List Str} (h : WellHeaded instructions) :
    FindsEveryLine instructions := by
  obtain ⟨hhead, hread, hdistinct⟩ := h
  obtain ⟨first, -, htiles, hiff⟩ := tiles_cut instructions 0
  rw [Int.zero_add] at htiles
  obtain rfl := hiff.mpr (Or.inr hhead)
  obtain ⟨ins, hins, hhead⟩ := hhead
  have hmem : ins ∈ heads instructions :=
    List.mem_filter.mpr ⟨List.mem_of_mem_head? hins, hhead⟩
  have hcfg := constructCFG_eq hread (cut_ne_nil (List.ne_nil_of_mem hmem))
  rw [← bids_cut_none _ 0, ← keys_entries] at hdistinct
  rw [Dict.setAll_nodup hdistinct] at hcfg
  exact ⟨_, hcfg, covers_of_tiles htiles⟩

/-- Every line is found in the one block that holds it exactly if there are no heads, or the
first line is one, all can be read, and no id is read twice. -/
theorem finds_every_line_iff (instructions : List Str) :
    FindsEveryLine instructions ↔ heads instructions = [] ∨ WellHeaded instructions := by
  constructor
  · intro h
    by_cases hnone : heads instructions = []
    · exact Or.inl hnone
    · exact Or.inr (wellHeaded_of_findsEveryLine hnone h)
  · rintro (hnone | hheaded)
    · exact findsEveryLine_of_no_heads hnone
    · exact findsEveryLine_of_wellHeaded hheaded

/-! ## A line above the first head -/

/-- The id that a head names: its first word, up to a colon. -/
def namedId (ins : Str) : Str := strip (before ':' (before ' ' ((ins.drop 2).dropWhile (· = ' '))))

/-- A listing as it is dumped: the name of the kernel stands above the first head. -/
def dumped : List Str := [chars "//.kernel a", chars "// B1: Preds:\x7b\x7d, Succs:\x7b\x7d"]

/-- A line above the first head is in no block. -/
theorem not_finds_every_line :
    ¬ ∀ instructions : List Str, (∀ ins ∈ heads instructions, Readable ins) →
      ((heads instructions).map namedId).Nodup → FindsEveryLine instructions := by
  intro h
  have hheads : heads dumped = [chars "// B1: Preds:\x7b\x7d, Succs:\x7b\x7d"] := by
    unfold dumped
    repeat rw [chars_ofList]
    decide +kernel
  have hread : ∀ ins ∈ heads dumped, Readable ins := by
    rw [hheads, List.forall_mem_singleton, chars_ofList]
    exact ⟨by decide, by decide +kernel, by decide +kernel⟩
  have hfirst : ¬ ∃ ins ∈ dumped.head?, isHeader ins := by
    unfold dumped
    repeat rw [chars_ofList]
    decide +kernel
  have hdistinct : ((heads dumped).map namedId).Nodup := by
    rw [hheads]
    exact List.nodup_singleton _
  have hne : heads dumped ≠ [] := by
    rw [hheads]
    exact List.cons_ne_nil _ _
  exact hfirst (wellHeaded_of_findsEveryLine hne (h dumped hread hdistinct)).first

end Unitrace.Metrics.BlockCover
