import Mathlib.Logic.Function.Basic
import Unitrace.Lib.FindLast
import Unitrace.Lib.Utf8

/-!
# The name of the log file

The process id and the rank are inserted before the last dot of the path, or behind
the path if it has no dot. They can be told from each other because a numeral has no
dot.
-/
namespace Unitrace.Trace.LogFileName

open Unitrace.Lib Unitrace.Lib.Text Unitrace.Lib.ByteString Unitrace.Lib.FindLast

def isDot (c : UInt8) : Bool := c == 46

/-- A slash or a backslash. -/
def isSeparator (c : UInt8) : Bool := c == 47 || c == 92

/-- `utils::GetFilePath`; the assertion fails for the empty name. -/
def getFilePath (filename : Bytes) : Option Bytes :=
  if filename = [] then none
  else
    match findLastOf isSeparator filename with
    | none => some []
    | some pos => some (filename.take (pos + 1))

def traceLogToFile : UInt32 := 14

structure TraceOptions where
  flags : UInt32
  logFile : Bytes

def TraceOptions.checkFlag (o : TraceOptions) (flag : UInt32) : Bool :=
  o.flags &&& (1 <<< flag) != 0

/-- The rank from the two variables, which are empty if they are not set. -/
def rankOf (pmiRank pmixRank : Bytes) : Bytes := if pmiRank = [] then pmixRank else pmiRank

def pidText (pid : UInt32) : Bytes := utf8 (decimal pid.toNat)

/-- The name that is put together for a path that is not empty. -/
def logFileName (logFile : Bytes) (pid : UInt32) (rank : Bytes) : Bytes :=
  let pos := findLastOf isDot logFile
  let result :=
    match pos with
    | none => logFile
    | some pos => logFile.take pos
  let result := result ++ 46 :: pidText pid
  let result := if rank ≠ [] then result ++ 46 :: rank else result
  match pos with
  | none => result
  | some pos => result ++ logFile.drop pos

/-- `GetLogFileName`. There is no result when an assertion fails. -/
def TraceOptions.getLogFileName (o : TraceOptions) (pid : UInt32) (pmiRank pmixRank : Bytes) :
    Option Bytes :=
  if !o.checkFlag traceLogToFile then
    if o.logFile = [] then some [] else none
  else if o.logFile = [] then none
  else some (logFileName o.logFile pid (rankOf pmiRank pmixRank))

/-! ## Directory, last component and extension -/

/-- The last component of a path. -/
def lastComponent (path : Bytes) : Bytes :=
  match findLastOf isSeparator path with
  | none => path
  | some pos => path.drop (pos + 1)

/-- The last component from its last dot on. -/
def extension (path : Bytes) : Bytes :=
  match findLastOf isDot (lastComponent path) with
  | none => []
  | some pos => (lastComponent path).drop pos

abbrev NoSeparator (s : Bytes) : Prop := ∀ c ∈ s, isSeparator c = false

/-- A path is a directory, which may be empty, and a last component; with another last
component the directory is the same. -/
theorem split_path (path : Bytes) : ∃ dir file, path = dir ++ file ∧ NoSeparator file ∧
    ∀ file', NoSeparator file' → dir ++ file' ≠ [] →
      getFilePath (dir ++ file') = some dir ∧ lastComponent (dir ++ file') = file' := by
  rcases split_last isSeparator path with hnone | ⟨a, c, file, hpath, hc, hfile⟩
  · refine ⟨[], path, rfl, hnone, fun file' hfile' hne => ?_⟩
    rw [List.nil_append] at hne ⊢
    rw [getFilePath, if_neg hne, lastComponent, findLastOf_eq_none hfile']
    exact ⟨rfl, rfl⟩
  · refine ⟨a ++ [c], file, ?_, hfile, fun file' hfile' hne => ?_⟩
    · rw [hpath, List.append_assoc, List.singleton_append]
    · have hpos := findLastOf_append (a := a) hc hfile'
      have hlen : (a ++ [c]).length = a.length + 1 := by rw [List.length_append]; rfl
      rw [getFilePath, if_neg hne, lastComponent]
      rw [List.append_assoc, List.singleton_append, hpos]
      show some ((a ++ c :: file').take (a.length + 1)) = _ ∧
        (a ++ c :: file').drop (a.length + 1) = _
      rw [← List.singleton_append, ← List.append_assoc, ← hlen, List.take_left, List.drop_left]
      exact ⟨rfl, rfl⟩

/-! ## Where the id stands -/

/-- What is inserted into the path. -/
def idText (pid : UInt32) (rank : Bytes) : Bytes :=
  46 :: (pidText pid ++ if rank ≠ [] then 46 :: rank else [])

theorem isDot_eq_false {c : UInt8} (h : c ≠ 46) : isDot c = false := beq_eq_false_iff_ne.mpr h

theorem logFileName_of_no_dot {p : Bytes} (h : 46 ∉ p) (pid : UInt32) (rank : Bytes) :
    logFileName p pid rank = p ++ idText pid rank := by
  have hpos : findLastOf isDot p = none :=
    findLastOf_eq_none fun c hc => isDot_eq_false fun he => h (he ▸ hc)
  rw [logFileName, hpos, idText]
  by_cases hrank : rank = []
  · simp only [hrank, ne_eq, not_true_eq_false, if_false, List.append_nil]
  · simp only [hrank, ne_eq, not_false_eq_true, if_true, List.append_assoc, List.cons_append]

theorem logFileName_of_dot {a b : Bytes} (hb : ∀ d ∈ b, isDot d = false) (pid : UInt32)
    (rank : Bytes) :
    logFileName (a ++ 46 :: b) pid rank = a ++ idText pid rank ++ 46 :: b := by
  have hpos : findLastOf isDot (a ++ 46 :: b) = some a.length := findLastOf_append rfl hb
  rw [logFileName, hpos, idText]
  by_cases hrank : rank = []
  · simp only [hrank, ne_eq, not_true_eq_false, if_false, List.append_nil, List.take_left,
      List.drop_left]
  · simp only [hrank, ne_eq, not_false_eq_true, if_true, List.append_assoc, List.cons_append,
      List.take_left, List.drop_left]

theorem notMem_pidText {c : Char} (hascii : c.toNat < 128) (hc : c.isDigit = false) (pid : UInt32) :
    UInt8.ofNat c.toNat ∉ pidText pid := by
  intro h
  exact notMem_decimal hc pid.toNat ((Utf8.mem_utf8 hascii).mp h)

theorem pidText_injective : Function.Injective pidText := by
  intro pid pid' h
  exact UInt32.toNat_inj.mp (decimal_injective (Utf8.utf8_injective h))

/-- The process id ends at the end or at the first dot. -/
theorem idText_injective : Function.Injective2 idText := by
  intro pid pid' rank rank' h
  have hdot (q : UInt32) : (46 : UInt8) ∉ pidText q := notMem_pidText (c := '.') (by decide) rfl q
  have h := (List.cons.inj h).2
  by_cases hrank : rank = []
  · by_cases hrank' : rank' = []
    · rw [if_neg (not_not_intro hrank), if_neg (not_not_intro hrank'), List.append_nil,
        List.append_nil] at h
      exact ⟨pidText_injective h, hrank.trans hrank'.symm⟩
    · rw [if_neg (not_not_intro hrank), if_pos hrank', List.append_nil] at h
      exact absurd (h ▸ List.mem_append_right _ List.mem_cons_self) (hdot pid)
  · by_cases hrank' : rank' = []
    · rw [if_pos hrank, if_neg (not_not_intro hrank'), List.append_nil] at h
      exact absurd (h ▸ List.mem_append_right _ List.mem_cons_self) (hdot pid')
    · rw [if_pos hrank, if_pos hrank'] at h
      obtain ⟨hpid, hrest⟩ := append_cons_cancel (hdot pid) (hdot pid') h
      exact ⟨pidText_injective hpid, hrest⟩

theorem noSeparator_idText (pid : UInt32) {rank : Bytes} (h : NoSeparator rank) :
    NoSeparator (idText pid rank) := by
  have hpid : NoSeparator (pidText pid) := by
    intro c hc
    have hslash : c ≠ 47 := by
      rintro rfl
      exact notMem_pidText (c := '/') (by decide) rfl pid hc
    have hbackslash : c ≠ 92 := by
      rintro rfl
      exact notMem_pidText (c := '\\') (by decide) rfl pid hc
    rw [isSeparator, beq_eq_false_iff_ne.mpr hslash, beq_eq_false_iff_ne.mpr hbackslash]
    rfl
  refine List.forall_mem_cons.mpr ⟨rfl, List.forall_mem_append.mpr ⟨hpid, ?_⟩⟩
  split
  · exact List.forall_mem_cons.mpr ⟨rfl, h⟩
  · exact fun c hc => absurd hc List.not_mem_nil

/-! ## What the name keeps -/

/-- The path is kept around the id, which can be read back from the name. -/
structure KeepsPath (p : Bytes) : Prop where
  directory : ∀ pid rank, NoSeparator rank → 46 ∈ lastComponent p ∨ 46 ∉ p →
    getFilePath (logFileName p pid rank) = getFilePath p
  extension : ∀ pid rank, NoSeparator rank → 46 ∈ lastComponent p →
    extension (logFileName p pid rank) = extension p
  appended : 46 ∉ p → ∀ pid rank, logFileName p pid rank = p ++ idText pid rank
  distinct : Function.Injective2 (logFileName p)

theorem logFileName_injective (p : Bytes) : Function.Injective2 (logFileName p) := by
  intro pid pid' rank rank' h
  rcases split_last isDot p with hnone | ⟨a, c, b, rfl, hc, hb⟩
  · have hdot : 46 ∉ p := fun hmem => absurd (hnone 46 hmem) (by decide)
    rw [logFileName_of_no_dot hdot, logFileName_of_no_dot hdot] at h
    exact idText_injective (List.append_cancel_left h)
  · obtain rfl := beq_iff_eq.mp hc
    rw [logFileName_of_dot hb, logFileName_of_dot hb] at h
    exact idText_injective (List.append_cancel_left (List.append_cancel_right h))

/-- The id is inserted into the last component. -/
theorem logFileName_of_mem (dir : Bytes) {file : Bytes} (h : 46 ∈ file) (pid : UInt32) (rank : Bytes) :
    ∃ a b, file = a ++ 46 :: b ∧ (∀ d ∈ b, isDot d = false) ∧
      logFileName (dir ++ file) pid rank = dir ++ (a ++ idText pid rank ++ 46 :: b) := by
  rcases split_last isDot file with hnone | ⟨a, c, b, rfl, hc, hb⟩
  · exact absurd (hnone 46 h) (by decide)
  · obtain rfl := beq_iff_eq.mp hc
    refine ⟨a, b, rfl, hb, ?_⟩
    rw [← List.append_assoc, logFileName_of_dot hb]
    simp only [List.append_assoc]

theorem extension_eq {path a b : Bytes} (h : lastComponent path = a ++ 46 :: b)
    (hb : ∀ d ∈ b, isDot d = false) : extension path = 46 :: b := by
  rw [extension, h, findLastOf_append (rfl : isDot 46 = true) hb]
  exact List.drop_left

theorem keepsPath {p : Bytes} (hne : p ≠ []) : KeepsPath p := by
  obtain ⟨dir, file, rfl, hfile, hdir⟩ := split_path p
  obtain ⟨hpath, hlast⟩ := hdir file hfile hne
  have hinserted {pid : UInt32} {rank : Bytes} (hrank : NoSeparator rank) (h : 46 ∈ file) :
      getFilePath (logFileName (dir ++ file) pid rank) = some dir ∧
        extension (logFileName (dir ++ file) pid rank) = extension (dir ++ file) := by
    obtain ⟨a, b, rfl, hb, hname⟩ := logFileName_of_mem dir h pid rank
    have hnew : NoSeparator (a ++ idText pid rank ++ 46 :: b) := by
      obtain ⟨ha, hb⟩ := List.forall_mem_append.mp hfile
      exact List.forall_mem_append.mpr
        ⟨List.forall_mem_append.mpr ⟨ha, noSeparator_idText pid hrank⟩, hb⟩
    obtain ⟨hpath', hlast'⟩ := hdir _ hnew (by simp)
    rw [hname, extension_eq hlast' hb, extension_eq hlast hb]
    exact ⟨hpath', rfl⟩
  constructor
  · intro pid rank hrank hdot
    rw [hlast] at hdot
    rw [hpath]
    rcases hdot with hdot | hdot
    · exact (hinserted hrank hdot).1
    · have hnew : NoSeparator (file ++ idText pid rank) :=
        List.forall_mem_append.mpr ⟨hfile, noSeparator_idText pid hrank⟩
      rw [logFileName_of_no_dot hdot, List.append_assoc]
      exact (hdir _ hnew (by simp [idText])).1
  · intro pid rank hrank hdot
    rw [hlast] at hdot
    exact (hinserted hrank hdot).2
  · intro hdot pid rank
    exact logFileName_of_no_dot hdot pid rank
  · exact logFileName_injective _

/-- Every name of the log file is made from the path, the process id and the rank, and
keeps the path. -/
theorem getLogFileName_keepsPath {o : TraceOptions} (hlog : o.checkFlag traceLogToFile = true)
    (hne : o.logFile ≠ []) :
    (∀ pid pmiRank pmixRank, o.getLogFileName pid pmiRank pmixRank =
      some (logFileName o.logFile pid (rankOf pmiRank pmixRank))) ∧ KeepsPath o.logFile := by
  refine ⟨fun pid pmiRank pmixRank => ?_, keepsPath hne⟩
  rw [TraceOptions.getLogFileName, hlog, Bool.not_true, if_neg Bool.false_ne_true, if_neg hne]

theorem getLogFileName_keepsPath_trace :
    KeepsPath (lit "out.d/trace.log") ∧
      (TraceOptions.mk 0x4000 (lit "out.d/trace.log")).getLogFileName 12 [] (lit "3") =
        some (lit "out.d/trace.12.3.log") := by
  have h := getLogFileName_keepsPath (o := ⟨0x4000, lit "out.d/trace.log"⟩) (by decide)
    (by decide +kernel)
  refine ⟨h.2, ?_⟩
  rw [h.1]
  decide +kernel

/-- The number that is put behind a path without a dot becomes its extension, and a rank
with a slash makes a new directory part. -/
theorem plain_name_extended :
    (TraceOptions.mk 0x4000 (lit "log")).getLogFileName 12 [] [] = some (lit "log.12") ∧
      extension (lit "log.12") ≠ extension (lit "log") ∧
      (TraceOptions.mk 0x4000 (lit "a.log")).getLogFileName 12 (lit "x/y") [] =
        some (lit "a.12.x/y.log") ∧
      getFilePath (lit "a.12.x/y.log") ≠ getFilePath (lit "a.log") := by
  decide +kernel

end Unitrace.Trace.LogFileName
