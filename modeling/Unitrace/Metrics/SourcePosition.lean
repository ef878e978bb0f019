import Unitrace.Metrics.StallCauses

/-!
# The source position of a stalled instruction

For other types of stalls the position is that of the nearest comments above the
instruction. The search for the tokens finds it on its way: in the block of the
instruction, in the blocks behind it, and from the line where the tokens are used up
straight up the listing. Both agree if the search does not look for the position outside
the block while there may be one.
-/
namespace Unitrace.Metrics.SourcePosition

open Unitrace.Lib Unitrace.Lib.Text Unitrace.Lib.PyStr Unitrace.Metrics.ControlFlow
open Unitrace.Metrics.SbidSearch Unitrace.Metrics.SearchEnds Unitrace.Metrics.StallCauses

/-! ## The scan for other types of stalls -/

structure Scan where
  insStalledNotLineResolved : Option Int
  insStalledNotFileResolved : Option Int
  sourceLineStalled : Option Int := none
  sourceFileStalled : Option Int := none

def Scan.resolveLine (s : Scan) (pos : Int) (ins : Str) : Scan :=
  if comment (chars "Line") ins then
    if s.insStalledNotLineResolved ≠ none then
      { s with sourceLineStalled := some pos, insStalledNotLineResolved := none }
    else s
  else s

def Scan.resolveFile (s : Scan) (pos : Int) (ins : Str) : Scan :=
  if comment (chars "File") ins then
    if s.insStalledNotFileResolved ≠ none then
      { s with sourceFileStalled := some pos, insStalledNotFileResolved := none }
    else s
  else s

/-- Reads lines until both comments are found. -/
def scanLines : List (Int × Str) → Scan → Scan
  | [], s => s
  | (pos, ins) :: more, s =>
    let s := (s.resolveLine pos ins).resolveFile pos ins
    if s.insStalledNotLineResolved = none ∧ s.insStalledNotFileResolved = none then s
    else scanLines more s

def scanStalled (instructions : List Str) (addr : Nat) : Scan :=
  scanLines (upward instructions 0 (addr - 1))
    { insStalledNotLineResolved := some addr, insStalledNotFileResolved := some addr }

/-! ## The text of the report -/

/-- Python's `instructions[i]`, where the index is in range. -/
def lineAt (instructions : List Str) (i : Int) : Str :=
  instructions.getD (if i < 0 then instructions.length + i else i).toNat []

/-- The lines that are reported below the stalled instruction. -/
def sourceText (instructions : List Str) (line file : Option Int) : List Str :=
  match line with
  | none => []
  | some i => (chars "  " ++ (lineAt instructions i).drop 3) ::
      (file.map fun j => chars "  " ++ (lineAt instructions j).drop 3).toList

/-- The nearest comment above a line, if there is one. -/
def IsNearestComment (word : Str) (instructions : List Str) (addr : Nat) : Option Int → Prop
  | none => ∀ q < addr, ¬ comment word (instructions.getD q [])
  | some p => ∃ pos : Nat, p = pos ∧ pos < addr ∧ comment word (instructions.getD pos []) ∧
      ∀ q < addr, pos < q → ¬ comment word (instructions.getD q [])

/-! ## Marks -/

/-- What the search knows of one kind of comment: if it is still looking, and what it has
found. -/
structure Mark where
  notResolved : Option Int
  found : Option Int

def Mark.read (word : Str) (m : Mark) (pos : Int) (ins : Str) : Mark :=
  if comment word ins then
    { notResolved := none, found := if m.notResolved ≠ none then some pos else m.found }
  else m

/-- Reads the lines above a line, up to the first one. -/
def Mark.readUp (word : Str) (instructions : List Str) : Nat → Mark → Mark
  | 0, m => m
  | pos + 1, m => Mark.readUp word instructions pos (m.read word pos (instructions.getD pos []))

def lineMark (s : Search) : Mark := ⟨s.insStalledNotLineResolved, s.sourceLineStalled⟩

def fileMark (s : Search) : Mark := ⟨s.insStalledNotFileResolved, s.sourceFileStalled⟩

def Mark.start (addr : Int) : Mark := ⟨some addr, none⟩

theorem read_resolved {word : Str} {m : Mark} (h : m.notResolved = none) (pos : Int) (ins : Str) :
    m.read word pos ins = m := by
  obtain ⟨notResolved, found⟩ := m
  obtain rfl := h
  simp [Mark.read]

theorem readUp_resolved {word : Str} {m : Mark} (h : m.notResolved = none) (instructions : List Str)
    (pos : Nat) : m.readUp word instructions pos = m := by
  induction pos with
  | zero => rfl
  | succ pos ih => rw [Mark.readUp, read_resolved h, ih]

/-- Reading up from a line finds the nearest comment. -/
theorem readUp_nearest (word : Str) (instructions : List Str) (addr : Nat) (start : Int) :
    IsNearestComment word instructions addr
      ((Mark.start start).readUp word instructions addr).found := by
  induction addr with
  | zero =>
    intro q hq
    omega
  | succ pos ih =>
    rw [Mark.readUp]
    by_cases h : comment word (instructions.getD pos []) = true
    · have hread : (Mark.start start).read word pos (instructions.getD pos []) = ⟨none, some ↑pos⟩ := by
        rw [Mark.read, if_pos h]
        rfl
      rw [hread, readUp_resolved rfl]
      exact ⟨pos, rfl, Nat.lt_succ_self pos, h, fun q hq hlt => absurd hq (by omega)⟩
    · have hread : (Mark.start start).read word pos (instructions.getD pos []) = Mark.start start := by
        rw [Mark.read, if_neg h]
      rw [hread]
      cases hfound : ((Mark.start start).readUp word instructions pos).found with
      | none =>
        rw [hfound] at ih
        intro q hq
        rcases Nat.lt_succ_iff_lt_or_eq.mp hq with hlt | rfl
        · exact ih q hlt
        · exact h
      | some p =>
        rw [hfound] at ih
        obtain ⟨near, hp, hlt, hcomment, hnone⟩ := ih
        refine ⟨near, hp, Nat.lt_succ_of_lt hlt, hcomment, fun q hq hnear => ?_⟩
        rcases Nat.lt_succ_iff_lt_or_eq.mp hq with hlt | rfl
        · exact hnone q hlt hnear
        · exact h

theorem getD_of_lt {instructions : List Str} {pos : Nat} (h : pos < instructions.length) :
    instructions[pos]? = some (instructions.getD pos []) := by
  rw [List.getD_eq_getElem?_getD, List.getElem?_eq_getElem h]
  rfl

theorem upward_zero_succ {instructions : List Str} {pos : Nat} (h : pos < instructions.length) :
    upward instructions 0 (((pos + 1 : Nat) : Int) - 1) =
      (↑pos, instructions.getD pos []) :: upward instructions 0 ((pos : Int) - 1) := by
  have hcast : ((pos + 1 : Nat) : Int) - 1 = pos := by omega
  rw [hcast]
  exact upward_cons (Nat.zero_le pos) (getD_of_lt h)

def Scan.lineMark (s : Scan) : Mark := ⟨s.insStalledNotLineResolved, s.sourceLineStalled⟩

def Scan.fileMark (s : Scan) : Mark := ⟨s.insStalledNotFileResolved, s.sourceFileStalled⟩

theorem scan_marks (s : Scan) (pos : Int) (ins : Str) :
    ((s.resolveLine pos ins).resolveFile pos ins).lineMark =
        s.lineMark.read (chars "Line") pos ins ∧
      ((s.resolveLine pos ins).resolveFile pos ins).fileMark =
        s.fileMark.read (chars "File") pos ins := by
  obtain ⟨line, file, lineStalled, fileStalled⟩ := s
  unfold Scan.resolveFile Scan.resolveLine Mark.read Scan.lineMark Scan.fileMark
  cases line <;> cases file <;> split <;> split <;> exact ⟨rfl, rfl⟩

/-- The scan for other types of stalls finds what reading up from the line finds. -/
theorem scanLines_marks {instructions : List Str} {pos : Nat} (hpos : pos ≤ instructions.length)
    (s : Scan) :
    (scanLines (upward instructions 0 ((pos : Int) - 1)) s).lineMark =
        s.lineMark.readUp (chars "Line") instructions pos ∧
      (scanLines (upward instructions 0 ((pos : Int) - 1)) s).fileMark =
        s.fileMark.readUp (chars "File") instructions pos := by
  induction pos generalizing s with
  | zero =>
    rw [show upward instructions 0 (((0 : Nat) : Int) - 1) = [] from
      upward_nil instructions (Nat.le_refl 0)]
    exact ⟨rfl, rfl⟩
  | succ pos ih =>
    obtain ⟨hline, hfile⟩ := scan_marks s pos (instructions.getD pos [])
    rw [upward_zero_succ hpos, scanLines, Mark.readUp, Mark.readUp, ← hline, ← hfile]
    split
    · rename_i hfound
      exact ⟨(readUp_resolved hfound.1 instructions pos).symm,
        (readUp_resolved hfound.2 instructions pos).symm⟩
    · exact ih (Nat.le_of_lt hpos) _

/-! ## Marks along the search -/

/-- A mark that the search keeps for one kind of comment. -/
structure Tracks (word : Str) (mark : Search → Mark) : Prop where
  take : ∀ {s t : Search} {pos : Int} {ins : Str}, s.take pos ins = .ok t → mark t = mark s
  resolve : ∀ (s : Search) (pos : Int) (ins : Str),
    mark ((s.resolveLine pos ins).resolveFile pos ins) = (mark s).read word pos ins
  done : ∀ {s : Search}, s.done true = true → (mark s).notResolved = none

theorem take_marks {s t : Search} {pos : Int} {ins : Str} (h : s.take pos ins = .ok t) :
    lineMark t = lineMark s ∧ fileMark t = fileMark s := by
  unfold Search.take at h
  split at h
  · obtain rfl := Except.ok.inj h
    exact ⟨rfl, rfl⟩
  · split at h
    · cases h
    · obtain rfl := Except.ok.inj h
      exact ⟨rfl, rfl⟩

theorem resolve_marks (s : Search) (pos : Int) (ins : Str) :
    lineMark ((s.resolveLine pos ins).resolveFile pos ins) =
        (lineMark s).read (chars "Line") pos ins ∧
      fileMark ((s.resolveLine pos ins).resolveFile pos ins) =
        (fileMark s).read (chars "File") pos ins := by
  unfold Search.resolveFile Search.resolveLine Mark.read
  split <;> split <;> exact ⟨rfl, rfl⟩

theorem done_marks {s : Search} (h : s.done true = true) :
    (lineMark s).notResolved = none ∧ (fileMark s).notResolved = none := by
  simp only [Search.done, Bool.not_true, Bool.false_or, Bool.and_eq_true, decide_eq_true_eq] at h
  exact ⟨h.1.1.1, h.1.1.2⟩

theorem lineMark_tracks : Tracks (chars "Line") lineMark :=
  ⟨fun h => (take_marks h).1, fun s pos ins => (resolve_marks s pos ins).1, fun h => (done_marks h).1⟩

variable {word : Str} {mark : Search → Mark} {instructions : List Str}

/-- No line of the listing changes the mark. -/
def Fixed (word : Str) (instructions : List Str) (m : Mark) : Prop :=
  ∀ ins ∈ instructions, ∀ pos, m.read word pos ins = m

theorem fixed_of_no_comment (h : ∀ ins ∈ instructions, comment word ins = false) (m : Mark) :
    Fixed word instructions m := by
  intro ins hins pos
  rw [Mark.read, if_neg (by simp [h ins hins])]

theorem mem_upward {lo last : Int} {line : Int × Str} (h : line ∈ upward instructions lo last) :
    line.2 ∈ instructions := by
  have hmem := List.mem_map_of_mem (f := Prod.snd) h
  rw [upward_snd, List.mem_reverse, slice] at hmem
  exact List.mem_of_mem_take (List.mem_of_mem_drop hmem)

theorem scanBackward_fixed (h : Tracks word mark) {breakAt : Int} {lines : List Str} {s : Search}
    (hmem : ∀ line ∈ upward instructions 0 (breakAt - 1), line.2 ∈ lines)
    (hfix : Fixed word lines (mark s)) : mark (scanBackward instructions breakAt s) = mark s := by
  unfold scanBackward
  generalize upward instructions 0 (breakAt - 1) = above at hmem
  induction above generalizing s with
  | nil => rfl
  | cons line above ih =>
    obtain ⟨hline, hmem⟩ := List.forall_mem_cons.mp hmem
    have hread : mark ((s.resolveLine line.1 line.2).resolveFile line.1 line.2) = mark s := by
      rw [h.resolve, hfix line.2 hline]
    rw [List.foldl_cons]
    exact (ih (hread ▸ hfix) hmem).trans hread

/-- A mark that no line changes is kept, whatever is read. -/
theorem readLines_fixed (h : Tracks word mark) {sourceAvailable : Bool} {lines : List (Int × Str)}
    (hmem : ∀ line ∈ lines, line.2 ∈ instructions) {s t : Search} {broken : Option (Bool × Int)}
    (hfix : Fixed word instructions (mark s))
    (hread : readLines sourceAvailable lines s = .ok (t, broken)) : mark t = mark s := by
  induction lines generalizing s with
  | nil =>
    cases hread
    rfl
  | cons line lines ih =>
    obtain ⟨pos, ins⟩ := line
    obtain ⟨hline, hmem⟩ := List.forall_mem_cons.mp hmem
    rw [readLines] at hread
    split at hread
    · cases hread
    · rename_i u htake
      have hmark : mark ((u.resolveLine pos ins).resolveFile pos ins) = mark s := by
        rw [h.resolve, h.take htake, hfix ins hline]
      dsimp only at hread
      split at hread
      · cases hread
        exact hmark
      · exact (ih hmem (hmark ▸ hfix) hread).trans hmark

theorem checkBlock_fixed (h : Tracks word mark) {sourceAvailable : Bool} {entry : Entry}
    {s t : Search} (hfix : Fixed word instructions (mark s))
    (hcheck : checkBlock instructions sourceAvailable entry s = .ok t ∨
      checkBlock instructions sourceAvailable entry s = .error (.ok t)) : mark t = mark s := by
  obtain ⟨bid, start, last⟩ := entry
  unfold checkBlock at hcheck
  dsimp only at hcheck
  cases hread : readLines sourceAvailable (upward instructions start last) s with
  | error e => simp [hread] at hcheck
  | ok result =>
    obtain ⟨u, broken⟩ := result
    have hmark := readLines_fixed h (fun line hline => mem_upward hline) hfix hread
    rw [hread] at hcheck
    dsimp only at hcheck
    split at hcheck
    · rcases hcheck with hcheck | hcheck <;> cases hcheck
      exact hmark
    · split at hcheck
      · rcases hcheck with hcheck | hcheck <;> cases hcheck
        exact (scanBackward_fixed h (fun line hline => mem_upward hline) (hmark ▸ hfix)).trans hmark
      · rcases hcheck with hcheck | hcheck <;> cases hcheck
        exact hmark

theorem searchLoop_fixed (h : Tracks word mark) {sourceAvailable : Bool} {bbs : Blocks}
    {fuel : Nat} {bbsToCheck : List Entry} {j : Nat} {s t : Search}
    (hfix : Fixed word instructions (mark s))
    (hloop : searchLoop instructions sourceAvailable bbs fuel bbsToCheck j s = some (.ok t)) :
    mark t = mark s := by
  induction fuel generalizing bbsToCheck j s with
  | zero =>
    unfold searchLoop at hloop
    split at hloop
    · cases hloop
      rfl
    · cases hloop
    · rename_i hfuel
      cases hfuel
  | succ fuel ih =>
    unfold searchLoop at hloop
    split at hloop
    · cases hloop
      rfl
    · cases hloop
    · rename_i entry fuel' hget hfuel
      cases hfuel
      split at hloop
      · rename_i result hcheck
        obtain rfl := Option.some.inj hloop
        exact checkBlock_fixed h hfix (Or.inr hcheck)
      · rename_i u hcheck
        have hmark := checkBlock_fixed h hfix (Or.inl hcheck)
        split at hloop
        · cases hloop
        · exact (ih (hmark ▸ hfix) hloop).trans hmark

/-! ## Blocks without comments -/

/-- No comment of the kind stands in the listing down to the last line of an entry. -/
def Quiet (word : Str) (instructions : List Str) (entry : Entry) : Prop :=
  ∀ ins ∈ slice instructions 0 (entry.2.2 + 1), comment word ins = false

/-- The search returns without an exception. -/
def Returns (instructions : List Str) (addr : Nat) (ins : Str) : Prop :=
  ∃ fuel s, searchStall fuel instructions addr ins = some (.ok s)

end Unitrace.Metrics.SourcePosition
