import Unitrace.Lib.Additions
import Unitrace.Metrics.OtherStalls

/-!
# The stall reports of the kernels of a table

`AnalyzeStalls` looks for the assembly of a kernel in the shader dump folder. A kernel that
was retried has several files, and the latest one is read. A listing without addresses gets
a copy with them, in a new file in the same folder. The reports of all kernels are those
that each kernel gets alone, whatever the order of the files is. The demangler answers a name
alike each time, and a failure stands for the whole pass.
-/
namespace Unitrace.Metrics.StallReport

open Unitrace.Lib Unitrace.Lib.Text Unitrace.Lib.PyStr Unitrace.Lib.Additions
open Unitrace.Metrics.ControlFlow Unitrace.Metrics.SbidSearch Unitrace.Metrics.SourcePosition
open Unitrace.Metrics.StallGroups Unitrace.Metrics.Addresses Unitrace.Metrics.OtherStalls

/-- The files of the shader dump folder with their texts, in the order of `os.listdir`. -/
abbrev Folder := List (Str × Str)

structure Args where
  shaderdump : Str
  numtopstalls : Int

inductive Failure where
  /-- The search still goes on after the blocks it was given. -/
  | running
  | unboundLocalError
  | raised (e : PyErr)

/-! ## The latest file of a kernel -/

/-- `args.shaderdump + "/" + f` -/
def pathOf (shaderdump f : Str) : Str := shaderdump ++ '/' :: f

def isAsm (f : Str) : Bool := (chars ".asm").isSuffixOf f

/-- `row.split()` -/
def words (row : Str) : List Str := (row.splitOnP isSpace).filter (· ≠ [])

/-- The file, once for each of its rows that name the kernel. -/
def namedIn (demangle : Str → Str) (kernel : Str) (f : Str × Str) : Except PyErr (List Str) :=
  gather (fun row =>
    if (chars "//.kernel").isPrefixOf row then
      (nth (words row) 1).map fun kname => if kernel = demangle kname then [f.1] else []
    else .ok []) (rowsOf f.2)

def asmFiles (demangle : Str → Str) (kernel : Str) (folder : Folder) : Except PyErr (List Str) :=
  gather (namedIn demangle kernel) (folder.filter fun f => isAsm f.1)

/-- `a < b` for two strings. -/
def strLt : Str → Str → Bool
  | _, [] => false
  | [], _ :: _ => true
  | a :: s, b :: t => decide (a.toNat < b.toNat) || (decide (a.toNat = b.toNat) && strLt s t)

/-- The longest path so far. -/
def longer (path : Str → Str) (longest : Nat × Str) (f : Str) : Nat × Str :=
  if longest.1 < (path f).length then ((path f).length, f) else longest

/-- The largest one so far of those with the length. -/
def larger (path : Str → Str) (length : Nat) (asm f : Str) : Str :=
  if (path f).length = length ∧ strLt (path asm) (path f) = true then f else asm

/-- The file that is read: of several ones that with the longest path, and then with the largest. -/
def latest (path : Str → Str) : List Str → Option Str
  | [] => none
  | [asm] => some asm
  | asm :: more =>
    let longest := (asm :: more).foldl (longer path) (0, asm)
    some ((asm :: more).foldl (larger path longest.1) longest.2)

/-! ## The report -/

def instructionsOf (text : Str) : List Str := (rowsOf text).map (before '\n')

/-- `if ((len(source_lines_stall) > 0) or (len(ins_stall_not_line_resolved) > 0))` -/
def causesText (instructions : List Str) (s : Search) : Str :=
  let quoted (i : Int) : Str := chars "    " ++ lineAt instructions i ++ ['\n']
  let comment (i : Int) : Str := chars "    " ++ (lineAt instructions i).drop 3 ++ ['\n']
  if s.sourceLinesStall ≠ [] ∨ s.insStallNotLineResolved ≠ [] then
    chars "is stalled potentially by\n" ++
      (s.sourceLinesStall.flatMap fun (i, line) =>
        chars "  instruction\n" ++ quoted i ++ comment line ++
          ((List.lookup i s.sourceFilesStall).map comment).getD (chars "    File: unknown\n")) ++
      (s.insStallNotLineResolved.flatMap fun i => chars "  instruction\n" ++ quoted i)
  else chars "is stalled\n"

/-- The entry of an instruction in the SBID section. -/
def sbidEntry (instructions : List Str) (ins : Str) (s : Search) : Str :=
  chars "\nInstruction\n" ++ chars "  " ++ ins ++ ['\n'] ++
    (sourceText instructions s.sourceLineStalled s.sourceFileStalled).flatMap
      (fun line => line ++ ['\n']) ++
    causesText instructions s

/-- The loop over the rows of the SBID section: the variables that it leaves and its text. -/
def sbidRows (fuel : Nat) (instructions : List Str) (numtopstalls : Int) :
    Nat → Option Source → List StallRow → Except Failure (Option Source × Str)
  | _, vars, [] => .ok (vars, [])
  | reported, vars, row :: rest =>
    if 0 ≤ numtopstalls ∧ numtopstalls ≤ reported then .ok (vars, [])
    else
      match findInstruction instructions row.ip with
      | none => sbidRows fuel instructions numtopstalls (reported + 1) vars rest
      | some (ins, addr) =>
        match searchStall fuel instructions addr ins with
        | none => .error .running
        | some (.error e) => .error (.raised e)
        | some (.ok s) =>
          (sbidRows fuel instructions numtopstalls (reported + 1)
            (some ⟨s.sourceLineStalled, s.sourceFileStalled⟩) rest).map
              fun (vars, text) => (vars, sbidEntry instructions ins s ++ text)

/-- The lines above the sections. -/
def reportHead (kernel path : Str) (numtopstalls : Int) : Str :=
  chars "Kernel: " ++ kernel ++ ['\n'] ++
    (chars "Assembly with instruction addresses: " ++ path ++ ['\n']) ++
    if 0 ≤ numtopstalls then
      chars "\nReport of Top " ++ decimal numtopstalls.toNat ++ chars " Stalls of Each Type\n"
    else chars "\nReport of Stalls of Each Type\n"

section

variable (fuel : Nat) (S : SortValues) (demangle : Str → Str) (args : Args)

def stallReport (kernel path : Str) (instructions : List Str) (rows : StallTable) :
    Except Failure Str :=
  match constructCFG instructions with
  | .error e => .error (.raised e)
  | .ok _ =>
    match sbidRows fuel instructions args.numtopstalls 0 none (stalledRows S rows .sbid) with
    | .error e => .error e
    | .ok (vars, text) =>
      match otherStalls S instructions args.numtopstalls rows vars
          (reportHead kernel path args.numtopstalls ++ heading .sbid ++ text) with
      | none => .error .unboundLocalError
      | some report => .ok report

/-- `open(f)` for a file of the folder -/
def textOf (folder : Folder) (f : Str) : Str := (List.lookup f folder).getD []

/-- The copy with addresses. -/
def copyOf (f : Str) : Str := f ++ chars ".ip"

/-- `AnalyzeStalls`: the folder that it leaves and the report. -/
def analyzeStalls (kernel : Str) (rows : StallTable) (folder : Folder) :
    Except Failure (Folder × Str) :=
  match asmFiles demangle kernel folder with
  | .error e => .error (.raised e)
  | .ok asmfiles =>
    match latest (pathOf args.shaderdump) asmfiles with
    | none => .ok (folder, chars "Not found .asm file for " ++ kernel)
    | some asm =>
      if checkAddresses 0 true (rowsOf (textOf folder asm)) then
        (stallReport fuel S args kernel (pathOf args.shaderdump asm)
          (instructionsOf (textOf folder asm)) rows).map fun report => (folder, report)
      else
        let folder := Dict.set folder (copyOf asm) (addressedListing (textOf folder asm))
        (stallReport fuel S args kernel (pathOf args.shaderdump (copyOf asm))
          (instructionsOf (textOf folder (copyOf asm))) rows).map fun report => (folder, report)

/-- The groups one after the other; one without stall events has no report. -/
def analyzeGroups : List (Str × StallTable) → Folder → Except Failure (Folder × List Str)
  | [], folder => .ok (folder, [])
  | (kernel, rows) :: groups, folder =>
    if rows.isEmpty then analyzeGroups groups folder
    else
      match analyzeStalls fuel S demangle args kernel rows folder with
      | .error e => .error e
      | .ok (folder, report) =>
        (analyzeGroups groups folder).map fun (folder, reports) => (folder, report :: reports)

/-- `AnalyzeStallMetrics` for all kernels. -/
def analyzeStallMetrics (rows : StallTable) (folder : Folder) : Except Failure (Folder × List Str) :=
  match selectAll rows with
  | none => .error (.raised .typeError)
  | some groups => analyzeGroups fuel S demangle args groups folder

end

/-! ## The SBID section -/

/-- The section with its text leaves the variables of the section without. -/
theorem sbidRows_vars (fuel : Nat) (instructions : List Str) (n : Int) (rows : List StallRow)
    (reported : Nat) (vars : Option Source) :
    sbidSection fuel instructions n reported vars rows =
      match sbidRows fuel instructions n reported vars rows with
      | .ok result => some (.ok result.1)
      | .error (.raised e) => some (.error e)
      | .error _ => none := by
  induction rows generalizing reported vars with
  | nil => rfl
  | cons row rest ih =>
    rw [sbidSection, sbidRows]
    by_cases hstop : 0 ≤ n ∧ n ≤ reported
    · rw [if_pos hstop, if_pos hstop]
    · rw [if_neg hstop, if_neg hstop]
      cases findInstruction instructions row.ip with
      | none => exact ih _ _
      | some found =>
        dsimp only
        cases searchStall fuel instructions found.2 found.1 with
        | none => rfl
        | some result =>
          cases result with
          | error e => rfl
          | ok s =>
            dsimp only
            rw [ih]
            cases sbidRows fuel instructions n (reported + 1)
              (some ⟨s.sourceLineStalled, s.sourceFileStalled⟩) rest with
            | error e => rfl
            | ok result => rfl

/-! ## The latest file -/

theorem strLt_trans {s t u : Str} (hst : strLt s t = true) (htu : strLt t u = true) :
    strLt s u = true := by
  induction s, t using strLt.induct generalizing u with
  | case1 s => simp [strLt] at hst
  | case2 b t =>
    cases u with
    | nil => simp [strLt] at htu
    | cons c u => rfl
  | case3 a s b t ih =>
    cases u with
    | nil => simp [strLt] at htu
    | cons c u =>
      simp only [strLt, Bool.or_eq_true, Bool.and_eq_true, decide_eq_true_eq] at hst htu ⊢
      rcases hst with hab | ⟨hab, hst⟩
      · rcases htu with hbc | ⟨hbc, -⟩ <;> exact Or.inl (by omega)
      · rcases htu with hbc | ⟨hbc, htu⟩
        · exact Or.inl (by omega)
        · exact Or.inr ⟨hab.trans hbc, ih hst htu⟩

theorem strLt_cotrans {s u : Str} (h : strLt s u = true) (t : Str) :
    strLt s t = true ∨ strLt t u = true := by
  induction s, u using strLt.induct generalizing t with
  | case1 s => simp [strLt] at h
  | case2 b u =>
    cases t with
    | nil => exact Or.inr rfl
    | cons c t => exact Or.inl rfl
  | case3 a s b u ih =>
    cases t with
    | nil => exact Or.inr rfl
    | cons c t =>
      simp only [strLt, Bool.or_eq_true, Bool.and_eq_true, decide_eq_true_eq] at h ⊢
      rcases Nat.lt_trichotomy a.toNat c.toNat with hac | hac | hac
      · exact Or.inl (Or.inl hac)
      · rcases h with hab | ⟨hab, h⟩
        · exact Or.inr (Or.inl (by omega))
        · rcases ih h t with h | h
          · exact Or.inl (Or.inr ⟨hac, h⟩)
          · exact Or.inr (Or.inr ⟨by omega, h⟩)
      · rcases h with hab | ⟨hab, -⟩ <;> exact Or.inr (Or.inl (by omega))

theorem strLt_irrefl (s : Str) : strLt s s = false := by
  induction s with
  | nil => rfl
  | cons a s ih => simp [strLt, ih]

theorem eq_of_not_strLt {s t : Str} (hst : strLt s t = false) (hts : strLt t s = false) : s = t := by
  induction s, t using strLt.induct with
  | case1 s =>
    cases s with
    | nil => rfl
    | cons a s => cases hts
  | case2 b t => cases hst
  | case3 a s b t ih =>
    simp only [strLt, Bool.or_eq_false_iff, Bool.and_eq_false_iff, decide_eq_false_iff_not] at hst hts
    have hab : a.toNat = b.toNat := by omega
    have hs : s = t := ih (hst.2.resolve_left fun h => h hab) (hts.2.resolve_left fun h => h hab.symm)
    rw [hs, Char.toNat_inj.mp hab]

/-- The file is the later one of the two, or they have the same path. -/
def NotBefore (path : Str → Str) (f g : Str) : Prop :=
  (path g).length < (path f).length ∨
    (path g).length = (path f).length ∧ strLt (path f) (path g) = false

variable {path : Str → Str}

theorem longer_foldl (files : List Str) {longest : Nat × Str}
    (h : longest.1 = (path longest.2).length) :
    (files.foldl (longer path) longest).1 = (path (files.foldl (longer path) longest).2).length ∧
      (files.foldl (longer path) longest).2 ∈ longest.2 :: files ∧
      ∀ g ∈ longest.2 :: files, (path g).length ≤ (files.foldl (longer path) longest).1 := by
  induction files generalizing longest with
  | nil => exact ⟨h, List.mem_singleton_self _, by simp [h]⟩
  | cons f files ih =>
    rw [List.foldl_cons]
    by_cases hlt : longest.1 < (path f).length
    · rw [longer, if_pos hlt]
      have hnext : ((path f).length, f).1 = (path ((path f).length, f).2).length := rfl
      obtain ⟨hlen, hmem, hall⟩ := ih hnext
      refine ⟨hlen, List.mem_cons_of_mem _ hmem, fun g hg => ?_⟩
      rcases List.mem_cons.mp hg with rfl | hg
      · have hf := hall f List.mem_cons_self
        omega
      · exact hall g hg
    · rw [longer, if_neg hlt]
      obtain ⟨hlen, hmem, hall⟩ := ih h
      refine ⟨hlen, ?_, fun g hg => ?_⟩
      · rcases List.mem_cons.mp hmem with hmem | hmem
        · exact List.mem_cons.mpr (Or.inl hmem)
        · exact List.mem_cons_of_mem _ (List.mem_cons_of_mem _ hmem)
      · rcases List.mem_cons.mp hg with rfl | hg
        · exact hall _ List.mem_cons_self
        · rcases List.mem_cons.mp hg with rfl | hg
          · have hfirst := hall _ List.mem_cons_self
            omega
          · exact hall g (List.mem_cons_of_mem _ hg)

/-- The last fold from a file of the length: its result is one of the files, and none of that
length is larger. -/
theorem larger_foldl {n : Nat} (files : List Str) {asm : Str} (hasm : (path asm).length = n) :
    (path (files.foldl (larger path n) asm)).length = n ∧
      files.foldl (larger path n) asm ∈ asm :: files ∧
      ∀ g ∈ asm :: files, (path g).length = n →
        strLt (path (files.foldl (larger path n) asm)) (path g) = false := by
  induction files generalizing asm with
  | nil =>
    refine ⟨hasm, List.mem_singleton_self _, fun g hg _ => ?_⟩
    obtain rfl := List.mem_singleton.mp hg
    exact strLt_irrefl _
  | cons f files ih =>
    rw [List.foldl_cons]
    by_cases hlater : (path f).length = n ∧ strLt (path asm) (path f) = true
    · rw [larger, if_pos hlater]
      obtain ⟨hlen, hmem, hall⟩ := ih hlater.1
      refine ⟨hlen, List.mem_cons_of_mem _ hmem, fun g hg hgn => ?_⟩
      rcases List.mem_cons.mp hg with rfl | hg
      · -- The file that was given up is not larger than the one that replaced it.
        rw [Bool.eq_false_iff]
        intro hlt
        have hf := hall f List.mem_cons_self hlater.1
        rw [strLt_trans hlt hlater.2] at hf
        cases hf
      · exact hall g hg hgn
    · rw [larger, if_neg hlater]
      obtain ⟨hlen, hmem, hall⟩ := ih hasm
      refine ⟨hlen, ?_, fun g hg hgn => ?_⟩
      · rcases List.mem_cons.mp hmem with hmem | hmem
        · exact List.mem_cons.mpr (Or.inl hmem)
        · exact List.mem_cons_of_mem _ (List.mem_cons_of_mem _ hmem)
      · rcases List.mem_cons.mp hg with rfl | hg
        · exact hall g List.mem_cons_self hgn
        · rcases List.mem_cons.mp hg with rfl | hg
          · rw [Bool.eq_false_iff]
            intro hlt
            rcases strLt_cotrans hlt (path asm) with hlt | hlt
            · rw [hall asm List.mem_cons_self hasm] at hlt
              cases hlt
            · exact hlater ⟨hgn, hlt⟩
          · exact hall g (List.mem_cons_of_mem _ hg) hgn

/-- The first file is the longest one so far, also if its path is empty. -/
theorem latest_cons (asm : Str) (more : List Str) : latest path (asm :: more) =
    some ((asm :: more).foldl
      (larger path (more.foldl (longer path) ((path asm).length, asm)).1)
      (more.foldl (longer path) ((path asm).length, asm)).2) := by
  have hfirst : longer path (0, asm) asm = ((path asm).length, asm) := by
    unfold longer
    split
    · rfl
    · rename_i hle
      have hzero : (path asm).length = 0 := Nat.eq_zero_of_not_pos hle
      rw [hzero]
  cases more with
  | nil =>
    have hsame : larger path (path asm).length asm asm = asm := by
      unfold larger
      split <;> rfl
    rw [List.foldl_nil, List.foldl_cons, hsame]
    rfl
  | cons f more =>
    have hlongest : (asm :: f :: more).foldl (longer path) (0, asm) =
        (f :: more).foldl (longer path) ((path asm).length, asm) := by
      rw [List.foldl_cons, hfirst]
    have hlatest : latest path (asm :: f :: more) = some ((asm :: f :: more).foldl
        (larger path ((asm :: f :: more).foldl (longer path) (0, asm)).1)
        ((asm :: f :: more).foldl (longer path) (0, asm)).2) := rfl
    rw [hlatest, hlongest]

/-- The file that is read is one of the files, and none of them is later. -/
theorem latest_spec {files : List Str} {asm : Str} (h : latest path files = some asm) :
    asm ∈ files ∧ ∀ g ∈ files, NotBefore path asm g := by
  cases files with
  | nil => cases h
  | cons f more =>
    rw [latest_cons] at h
    obtain rfl := Option.some.inj h
    have hstart : ((path f).length, f).1 = (path ((path f).length, f).2).length := rfl
    obtain ⟨hlen, hmem, hall⟩ := longer_foldl more hstart
    obtain ⟨hlen', hmem', hall'⟩ := larger_foldl (f :: more) hlen.symm
    constructor
    · rcases List.mem_cons.mp hmem' with heq | hmem'
      · rw [heq]
        exact hmem
      · exact hmem'
    · intro g hg
      rcases Nat.lt_or_eq_of_le (hall g hg) with hlt | heq
      · exact Or.inl (hlt.trans_eq hlen'.symm)
      · exact Or.inr ⟨heq.trans hlen'.symm, hall' g (List.mem_cons_of_mem _ hg) heq⟩

theorem notBefore_antisymm (hpath : Function.Injective path) {f g : Str} (hfg : NotBefore path f g)
    (hgf : NotBefore path g f) : f = g := by
  rcases hfg with hlt | ⟨hlen, hfg⟩
  · rcases hgf with hlt' | ⟨hlen', -⟩ <;> omega
  · rcases hgf with hlt' | ⟨-, hgf⟩
    · omega
    · exact hpath (eq_of_not_strLt hfg hgf)

/-- The latest file does not depend on the order of the files. -/
theorem latest_perm (hpath : Function.Injective path) {files files' : List Str}
    (h : files.Perm files') : latest path files = latest path files' := by
  cases hlatest : latest path files with
  | none =>
    cases files with
    | nil =>
      rw [← h.nil_eq]
      rfl
    | cons f more =>
      rw [latest_cons] at hlatest
      cases hlatest
  | some asm =>
    obtain ⟨hmem, hall⟩ := latest_spec hlatest
    cases hlatest' : latest path files' with
    | none =>
      cases files' with
      | nil =>
        rw [h.eq_nil] at hmem
        cases hmem
      | cons f more =>
        rw [latest_cons] at hlatest'
        cases hlatest'
    | some asm' =>
      obtain ⟨hmem', hall'⟩ := latest_spec hlatest'
      exact congrArg some (notBefore_antisymm hpath (hall asm' (h.mem_iff.mpr hmem'))
        (hall' asm (h.mem_iff.mp hmem)))

/-! ## The files of a kernel -/

theorem pathOf_injective (shaderdump : Str) : Function.Injective (pathOf shaderdump) :=
  fun _ _ h => (List.cons.inj (List.append_cancel_left h)).2

theorem nth_error {l : List Str} {i : Nat} {e : PyErr} (h : nth l i = .error e) : e = .indexError := by
  unfold nth at h
  split at h
  · cases h
  · exact (Except.error.inj h).symm

variable {demangle : Str → Str} {kernel : Str}

theorem asmFiles_error {folder : Folder} {e : PyErr} (h : asmFiles demangle kernel folder = .error e) :
    e = .indexError := by
  obtain ⟨f, -, hf⟩ := gather_error h
  obtain ⟨row, -, hrow⟩ := gather_error hf
  split at hrow
  · cases hname : nth (words row) 1 with
    | error e' =>
      rw [hname] at hrow
      cases hrow
      exact nth_error hname
    | ok kname =>
      rw [hname] at hrow
      cases hrow
  · cases hrow

/-- Folders with the same assembly files have the same ones of a kernel. -/
theorem asmFiles_perm (demangle : Str → Str) (kernel : Str) {folder folder' : Folder}
    (h : (folder.filter fun f => isAsm f.1).Perm (folder'.filter fun f => isAsm f.1)) :
    (∃ files files', asmFiles demangle kernel folder = .ok files ∧
      asmFiles demangle kernel folder' = .ok files' ∧ files.Perm files') ∨
    (asmFiles demangle kernel folder = .error .indexError ∧
      asmFiles demangle kernel folder' = .error .indexError) := by
  cases hfiles : asmFiles demangle kernel folder with
  | ok files =>
    obtain ⟨files', hfiles', hperm⟩ := gather_perm h hfiles
    exact Or.inl ⟨files, files', rfl, hfiles', hperm⟩
  | error e =>
    obtain rfl := asmFiles_error hfiles
    cases hfiles' : asmFiles demangle kernel folder' with
    | ok files' =>
      obtain ⟨files, hok, -⟩ := gather_perm h.symm hfiles'
      rw [asmFiles, hok] at hfiles
      cases hfiles
    | error e' =>
      obtain rfl := asmFiles_error hfiles'
      exact Or.inr ⟨rfl, rfl⟩

/-- A file of the kernel is an assembly file of the folder. -/
theorem mem_asmFiles {folder : Folder} {files : List Str}
    (h : asmFiles demangle kernel folder = .ok files) {asm : Str} (hasm : asm ∈ files) :
    ∃ text, (asm, text) ∈ folder.filter fun f => isAsm f.1 := by
  obtain ⟨hall, rfl⟩ := gather_eq_ok.mp h
  obtain ⟨f, hf, hmem⟩ := List.mem_flatMap.mp hasm
  obtain ⟨named, hnamed⟩ := hall f hf
  rw [hnamed] at hmem
  obtain ⟨-, hrows⟩ := gather_eq_ok.mp hnamed
  have hmem' : asm ∈ named := hmem
  rw [hrows] at hmem'
  obtain ⟨row, -, hrow⟩ := List.mem_flatMap.mp hmem'
  have heq : asm = f.1 := by
    split at hrow
    · cases hname : nth (words row) 1 with
      | error e =>
        rw [hname] at hrow
        cases hrow
      | ok kname =>
        rw [hname] at hrow
        by_cases hkernel : kernel = demangle kname
        · simpa [Except.map, hkernel, added, Except.toOption] using hrow
        · simp [Except.map, hkernel, added, Except.toOption] at hrow
    · simp [added, Except.toOption] at hrow
  exact ⟨f.2, heq ▸ hf⟩

/-- The assembly files of two folders have the same texts. -/
theorem textOf_perm {folder folder' : Folder} (hnodup : (folder.map Prod.fst).Nodup)
    (hnodup' : (folder'.map Prod.fst).Nodup)
    (h : (folder.filter fun f => isAsm f.1).Perm (folder'.filter fun f => isAsm f.1)) {asm text : Str}
    (hasm : (asm, text) ∈ folder.filter fun f => isAsm f.1) :
    textOf folder asm = textOf folder' asm := by
  have hmem := (List.mem_filter.mp hasm).1
  have hmem' := (List.mem_filter.mp (h.mem_iff.mp hasm)).1
  have hlookup : List.lookup asm folder = some text := Dict.lookup_of_mem hnodup hmem
  have hlookup' : List.lookup asm folder' = some text := Dict.lookup_of_mem hnodup' hmem'
  rw [textOf, textOf, hlookup, hlookup']

theorem isAsm_copyOf (f : Str) : isAsm (copyOf f) = false := by
  have hasm : chars ".asm" = ['.', 'a', 's', 'm'] := chars_ofList _
  have hip : chars ".ip" = ['.', 'i', 'p'] := chars_ofList _
  rw [isAsm, copyOf, hasm, hip, List.isSuffixOf, List.reverse_append]
  rfl

/-- A copy with addresses is not an assembly file. -/
theorem filter_set_copyOf (folder : Folder) (f text : Str) :
    ((Dict.set folder (copyOf f) text).filter fun f => isAsm f.1) =
      folder.filter fun f => isAsm f.1 := by
  have hcopy : isAsm (copyOf f) = false := isAsm_copyOf f
  generalize copyOf f = name at hcopy
  induction folder with
  | nil =>
    rw [Dict.set, List.filter_cons_of_neg (by simp [hcopy])]
  | cons e folder ih =>
    rw [Dict.set]
    split
    · rename_i hkey
      obtain rfl := eq_of_beq hkey
      rw [List.filter_cons_of_neg (by simp [hcopy]), List.filter_cons_of_neg (by simp [hcopy])]
    · rw [List.filter_cons, List.filter_cons, ih]

/-! ## One report -/

section

variable (fuel : Nat) (S : SortValues) (demangle : Str → Str) (args : Args)

/-- The report for the text of the latest file. -/
def reportOf (kernel : Str) (rows : StallTable) (asm text : Str) : Except Failure Str :=
  if checkAddresses 0 true (rowsOf text) then
    stallReport fuel S args kernel (pathOf args.shaderdump asm) (instructionsOf text) rows
  else
    stallReport fuel S args kernel (pathOf args.shaderdump (copyOf asm))
      (instructionsOf (addressedListing text)) rows

/-- What a report depends on. -/
theorem analyzeStalls_report (kernel : Str) (rows : StallTable) (folder : Folder) :
    (analyzeStalls fuel S demangle args kernel rows folder).map Prod.snd =
      match asmFiles demangle kernel folder with
      | .error e => .error (.raised e)
      | .ok asmfiles =>
        match latest (pathOf args.shaderdump) asmfiles with
        | none => .ok (chars "Not found .asm file for " ++ kernel)
        | some asm => reportOf fuel S args kernel rows asm (textOf folder asm) := by
  have hsnd (folder : Folder) (r : Except Failure Str) :
      (r.map fun report => (folder, report)).map Prod.snd = r := by
    cases r <;> rfl
  rw [analyzeStalls]
  cases asmFiles demangle kernel folder with
  | error e => rfl
  | ok asmfiles =>
    dsimp only
    cases latest (pathOf args.shaderdump) asmfiles with
    | none => rfl
    | some asm =>
      dsimp only
      rw [reportOf]
      split
      · exact hsnd _ _
      · rw [hsnd, textOf, Dict.lookup_set_self, Option.getD_some]

/-- Two folders with the same assembly files. -/
structure SameAsm (folder folder' : Folder) : Prop where
  nodup : (folder.map Prod.fst).Nodup
  nodup' : (folder'.map Prod.fst).Nodup
  perm : (folder.filter fun f => isAsm f.1).Perm (folder'.filter fun f => isAsm f.1)

variable {folder folder' : Folder}

theorem report_same (h : SameAsm folder folder') (kernel : Str) (rows : StallTable) :
    (analyzeStalls fuel S demangle args kernel rows folder).map Prod.snd =
      (analyzeStalls fuel S demangle args kernel rows folder').map Prod.snd := by
  rw [analyzeStalls_report, analyzeStalls_report]
  rcases asmFiles_perm demangle kernel h.perm with
    ⟨files, files', hfiles, hfiles', hperm⟩ | ⟨herror, herror'⟩
  · rw [hfiles, hfiles']
    dsimp only
    rw [← latest_perm (pathOf_injective args.shaderdump) hperm]
    cases hlatest : latest (pathOf args.shaderdump) files with
    | none => rfl
    | some asm =>
      obtain ⟨text, htext⟩ := mem_asmFiles hfiles (latest_spec hlatest).1
      dsimp only
      rw [textOf_perm h.nodup h.nodup' h.perm htext]
  · rw [herror, herror']

/-- An analysis leaves the assembly files as they were. -/
theorem analyzeStalls_keeps (hnodup : (folder.map Prod.fst).Nodup) {kernel report : Str}
    {rows : StallTable} {after : Folder}
    (h : analyzeStalls fuel S demangle args kernel rows folder = .ok (after, report)) :
    (after.map Prod.fst).Nodup ∧
      (after.filter fun f => isAsm f.1) = folder.filter fun f => isAsm f.1 := by
  have hmap {folder : Folder} {r : Except Failure Str}
      (h : r.map (fun report => (folder, report)) = .ok (after, report)) : after = folder := by
    cases r with
    | error e => cases h
    | ok report' =>
      cases h
      rfl
  rw [analyzeStalls] at h
  split at h
  · cases h
  · split at h
    · cases h
      exact ⟨hnodup, rfl⟩
    · split at h
      · rw [hmap h]
        exact ⟨hnodup, rfl⟩
      · rw [hmap h]
        exact ⟨Dict.nodup_set hnodup _ _, filter_set_copyOf folder _ _⟩

theorem SameAsm.after (h : SameAsm folder folder') {kernel report : Str} {rows : StallTable}
    {after : Folder}
    (hreport : analyzeStalls fuel S demangle args kernel rows folder = .ok (after, report)) :
    SameAsm after folder' := by
  obtain ⟨hnodup, hfilter⟩ := analyzeStalls_keeps fuel S demangle args h.nodup hreport
  exact ⟨hnodup, h.nodup', hfilter ▸ h.perm⟩

/-- The copies that one analysis leaves do not change the reports of the next ones. -/
theorem analyzeGroups_same (h : SameAsm folder folder') (groups : List (Str × StallTable)) :
    (analyzeGroups fuel S demangle args groups folder).map Prod.snd =
      (groups.filter fun g => !g.2.isEmpty).mapM fun g =>
        (analyzeStalls fuel S demangle args g.1 g.2 folder').map Prod.snd := by
  induction groups generalizing folder with
  | nil => rfl
  | cons g groups ih =>
    obtain ⟨kernel, rows⟩ := g
    rw [analyzeGroups]
    by_cases hrows : rows.isEmpty = true
    · rw [if_pos hrows, List.filter_cons_of_neg (by simp [hrows])]
      exact ih h
    · rw [if_neg hrows, List.filter_cons_of_pos (by simpa using hrows), List.mapM_cons,
        ← report_same fuel S demangle args h kernel rows]
      cases hreport : analyzeStalls fuel S demangle args kernel rows folder with
      | error e => rfl
      | ok result =>
        obtain ⟨after, report⟩ := result
        have hrest := ih (h.after fuel S demangle args hreport)
        have hcons : (Except.ok (after, report) : Except Failure (Folder × Str)).map Prod.snd =
            .ok report := rfl
        rw [hcons, ← hrest]
        dsimp only
        cases analyzeGroups fuel S demangle args groups after with
        | error e => rfl
        | ok result => rfl

/-! ## The result -/

/-- In a pass over all kernels each report is the one that its kernel gets alone in the folder
as it was at the start, whatever the order of the files in it is. It is about the latest of the
kernel's files: none has a longer path, and none with a path of that length a larger one. -/
theorem reports_alone (hnodup : (folder.map Prod.fst).Nodup) (hperm : folder.Perm folder')
    {rows : StallTable} {groups : List (Str × StallTable)} (hgroups : selectAll rows = some groups) :
    (analyzeStallMetrics fuel S demangle args rows folder).map Prod.snd =
      ((groups.filter fun g => !g.2.isEmpty).mapM fun g =>
        (analyzeStalls fuel S demangle args g.1 g.2 folder').map Prod.snd) ∧
    ∀ g ∈ groups, ∀ files, asmFiles demangle g.1 folder' = .ok files → files ≠ [] →
      ∃ asm ∈ files, (∀ f ∈ files, NotBefore (pathOf args.shaderdump) asm f) ∧
        (analyzeStalls fuel S demangle args g.1 g.2 folder').map Prod.snd =
          reportOf fuel S args g.1 g.2 asm (textOf folder' asm) := by
  constructor
  · rw [analyzeStallMetrics, hgroups]
    exact analyzeGroups_same fuel S demangle args
      ⟨hnodup, (hperm.map Prod.fst).nodup_iff.mp hnodup, hperm.filter _⟩ groups
  · intro g _ files hfiles hne
    cases hlatest : latest (pathOf args.shaderdump) files with
    | none =>
      obtain ⟨f, more, rfl⟩ := List.exists_cons_of_ne_nil hne
      rw [latest_cons] at hlatest
      cases hlatest
    | some asm =>
      obtain ⟨hmem, hall⟩ := latest_spec hlatest
      refine ⟨asm, hmem, hall, ?_⟩
      rw [analyzeStalls_report, hfiles]
      dsimp only
      rw [hlatest]

end

/-- Two files of a kernel that was retried. -/
def retried : Folder :=
  [(chars "k.asm", chars "//.kernel a\n"), (chars "kk.asm", chars "//.kernel a\nmov (8) // b\n")]

def sampleArgs : Args := ⟨chars "dump", 1⟩

theorem asmFiles_retried : asmFiles id (chars "a") retried.reverse = .ok [chars "kk.asm", chars "k.asm"] := by
  unfold retried
  repeat rw [chars_ofList]
  decide +kernel

theorem selectAll_kernelA : selectAll [some (stallRow KernelInstances.kernelA)] =
    some [(chars "a", [some (stallRow KernelInstances.kernelA)])] := by
  rfl

theorem reports_alone_retried :
    (analyzeStallMetrics 1 stableSort id sampleArgs [some (stallRow KernelInstances.kernelA)]
        retried).map Prod.snd =
      ([(chars "a", [some (stallRow KernelInstances.kernelA)])].filter fun g => !g.2.isEmpty).mapM
        (fun g => (analyzeStalls 1 stableSort id sampleArgs g.1 g.2 retried.reverse).map Prod.snd) ∧
    ∃ asm ∈ [chars "kk.asm", chars "k.asm"],
      (∀ f ∈ [chars "kk.asm", chars "k.asm"], NotBefore (pathOf sampleArgs.shaderdump) asm f) ∧
        (analyzeStalls 1 stableSort id sampleArgs (chars "a")
            [some (stallRow KernelInstances.kernelA)] retried.reverse).map Prod.snd =
          reportOf 1 stableSort sampleArgs (chars "a") [some (stallRow KernelInstances.kernelA)] asm
            (textOf retried.reverse asm) := by
  have hnodup : (retried.map Prod.fst).Nodup := by
    unfold retried
    repeat rw [chars_ofList]
    decide
  obtain ⟨hpass, hlatest⟩ := reports_alone 1 stableSort id sampleArgs hnodup
    (List.reverse_perm retried).symm selectAll_kernelA
  exact ⟨hpass, hlatest _ List.mem_cons_self _ asmFiles_retried (List.cons_ne_nil _ _)⟩

end Unitrace.Metrics.StallReport
