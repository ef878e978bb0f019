import Mathlib.Data.List.Nodup
import Unitrace.Launch.Options

/-!
# The launcher and the processes below it

The launcher puts the library of the tool behind the preload list of the user and replaces
itself by the application. The dynamic linker loads the library into the application and
into every program that the application starts, unless the library has restored the list.
What the dynamic linker does is as documented: the entries of the list are separated by
colons or spaces. No process runs with elevated privileges. The library ends a process in
which it cannot open the files of the tracer.
-/
namespace Unitrace.Launch.Processes

open Unitrace.Lib.Text Unitrace.Lib.ByteString Unitrace.Trace.LogFileName Unitrace.Launch.Options
open Relation (ReflTransGen)

def ldPreload : Bytes := lit "LD_PRELOAD"

def ldPreloadOld : Bytes := lit "UNITRACE_LD_PRELOAD_OLD"

def unitraceVersion : Bytes := lit "UNITRACE_VERSION"

def chromeIttLogging : Bytes := lit "UNITRACE_ChromeIttLogging"

def intelLibIttNotify : Bytes := lit "INTEL_LIBITTNOTIFY64"

def followChildProcess : Bytes := lit "UNITRACE_FollowChildProcess"

def unitraceLogToFile : Bytes := lit "UNITRACE_LogToFile"

def libUnitraceToolName : Bytes := lit "libunitrace_tool.so"

/-- The two builds, the files that the launcher finds, and the entries of a preload list that
name the library of the tool. -/
structure Machine where
  commitHash : Bytes
  toolCommitHash : Bytes
  executablePath : Bytes
  readable : Bytes → Bool
  isTool : Bytes → Bool

/-- The version text of a build. -/
def versionText (commitHash : Bytes) : Bytes := lit "2.2.2" ++ lit " (" ++ commitHash ++ lit ")"

def Machine.libPath (m : Machine) : Bytes :=
  let libPath := m.executablePath ++ libUnitraceToolName
  if m.readable libPath then libPath
  else
    let libPath := m.executablePath ++ lit "/../lib/" ++ libUnitraceToolName
    if m.readable libPath then libPath else libUnitraceToolName

/-- `ParseArgs` of the launcher -/
def parseArgs (env : Env) : Env :=
  setEnv (setEnv env chromeIttLogging (lit "1")) intelLibIttNotify libUnitraceToolName

/-- The library behind what is preloaded already. -/
def addPreload (preload libPath : Bytes) : Bytes :=
  if preload = [] then libPath else preload ++ lit ":" ++ libPath

/-- The environment that `main` of the launcher leaves to the application. -/
def Machine.launcherEnv (m : Machine) (env : Env) : Env :=
  let env := setEnv env unitraceVersion (versionText m.commitHash)
  let preload := getEnv env ldPreload
  let env := setEnv env ldPreloadOld preload
  parseArgs (setEnv env ldPreload (addPreload preload m.libPath))

/-- What a program finds at its start: its process id, its name in `/proc/self/comm`, and the
files that it can open for writing and for reading. -/
structure Start where
  pid : UInt32
  comm : Bytes
  writable : Bytes → Bool
  readable : Bytes → Bool

def pmiRank : Bytes := lit "PMI_RANK"

def pmixRank : Bytes := lit "PMIX_RANK"

def traceOutputDirPath : UInt32 := 16

def traceKernelNameFilter : UInt32 := 17

def traceKNameFilterFile : UInt32 := 18

def traceChromeIttLogging : UInt32 := 24

/-- The flags with which the tracer creates a `ChromeLogger`. -/
def chromeLoggings : List UInt32 := [5, 21, 22, 23, traceChromeIttLogging]

def chromeTraceFileExt : Bytes := lit "json"

/-- `TraceOptions::GetChromeTraceFileName` -/
def getChromeTraceFileName (filename : Bytes) (pid : UInt32) (rank : Bytes) : Bytes :=
  if rank ≠ [] then
    filename ++ lit "." ++ pidText pid ++ lit "." ++ rank ++ lit "." ++ chromeTraceFileExt
  else filename ++ lit "." ++ pidText pid ++ lit "." ++ chromeTraceFileExt

/-- The name of the process that the trace file gets. -/
def Start.processName (os : Start) : Bytes := if os.comm = [] then lit "unitrace" else os.comm

def Start.chromeTraceFileName (os : Start) (env : Env) (options : TraceOptions) : Bytes :=
  let name := getChromeTraceFileName os.processName os.pid
    (rankOf (getEnv env pmiRank) (getEnv env pmixRank))
  if options.checkFlag traceOutputDirPath then
    getEnv env (lit "UNITRACE_TraceOutputDir") ++ lit "/" ++ name
  else name

/-- The constructor of `Logger` ends the process if it cannot open a file that has a name. -/
def Start.logger (os : Start) (filename : Bytes) : Bool := filename == [] || os.writable filename

/-- The constructor of `ChromeLogger`, with its assertion on the file of kernel names. -/
def Start.chromeLogger (os : Start) (env : Env) (options : TraceOptions) : Bool :=
  let filterRead := options.checkFlag traceKernelNameFilter ||
    !options.checkFlag traceKNameFilterFile ||
    os.readable (getEnv env (lit "UNITRACE_TraceKernelFilePath"))
  filterRead && os.logger (os.chromeTraceFileName env options)

/-- `UniTracer::Create`. There is no result when the process ends. -/
def Start.create (os : Start) (env : Env) (options : TraceOptions) : Option TraceOptions :=
  match options.getLogFileName os.pid (getEnv env pmiRank) (getEnv env pmixRank) with
  | none => none
  | some logFile =>
    if !os.logger logFile then none
    else if chromeLoggings.any options.checkFlag && !os.chromeLogger env options then none
    else some options

/-- `Init` of the tool: the environment that it leaves, and the options of the tracer. There is
no result when the process ends. -/
def Machine.init (m : Machine) (os : Start) (env : Env) : Option (Env × TraceOptions) :=
  let version := getEnv env unitraceVersion
  if version ≠ [] ∧ version ≠ versionText m.toolCommitHash then none
  else
    match (readArgs env).bind (os.create env) with
    | none => none
    | some options =>
      if getEnv env followChildProcess = lit "0" then
        some (setEnv env ldPreload (getEnv env ldPreloadOld), options)
      else some (env, options)

/-- The entries of a preload list. -/
def preloadEntries (preload : Bytes) : List Bytes := preload.splitOnP fun c => c == 58 || c == 32

def Machine.loadsTool (m : Machine) (preload : Bytes) : Bool :=
  (preloadEntries preload).any m.isTool

inductive Program where
  | launcher
  | application
  deriving DecidableEq

/-- A process with the tracer that the tool has created in it, and the way in which its
program was started: first the last start. -/
structure Process where
  env : Env
  tracer : Option TraceOptions
  startedBy : List Program

/-- The start of a program up to its `main`. -/
def Machine.start (m : Machine) (os : Start) (env : Env) (startedBy : List Program) :
    Option Process :=
  if m.loadsTool (getEnv env ldPreload) then
    (m.init os env).map fun r => { env := r.1, tracer := some r.2, startedBy := startedBy }
  else some { env := env, tracer := none, startedBy := startedBy }

/-- A process replaces itself by an application. -/
def Machine.exec (m : Machine) (os : Start) (p : Process) : Option Process :=
  m.start os p.env (.application :: p.startedBy)

/-- A process replaces itself by the launcher, and this by the application; there is no start
of the application if it cannot be executed. The launcher is itself a program that is
started. -/
def Machine.launch (m : Machine) (launcher : Start) (application : Option Start) (p : Process) :
    Option Process :=
  (m.start launcher p.env p.startedBy).bind fun q =>
    application.bind fun os => m.start os (m.launcherEnv q.env) (.launcher :: p.startedBy)

/-- The variables that the tool relies on. -/
def reserved : List Bytes := [ldPreload, ldPreloadOld, chromeIttLogging, followChildProcess]

/-- The processes by their numbers. -/
abbrev System := Nat → Option Process

/-- One step of one process. An application may set and unset all variables but the reserved
ones. What a start finds is new each time; a start of an application that fails before its
program is executed is no step. -/
inductive Step (m : Machine) (s : System) : System → Prop where
  | setVariable (i : Nat) (p : Process) (name : Bytes) (value : Option Bytes) (hi : s i = some p)
      (hname : name ∉ reserved) :
      Step m s (Function.update s i (some { p with env := Function.update p.env name value }))
  | fork (i j : Nat) (p : Process) (hi : s i = some p) (hj : s j = none) :
      Step m s (Function.update s j (some p))
  | exec (i : Nat) (p : Process) (os : Start) (hi : s i = some p) :
      Step m s (Function.update s i (m.exec os p))
  | launch (i : Nat) (p : Process) (launcher : Start) (application : Option Start)
      (hi : s i = some p) : Step m s (Function.update s i (m.launch launcher application p))
  | exit (i : Nat) : Step m s (Function.update s i none)

abbrev Reachable (m : Machine) (s s' : System) : Prop := ReflTransGen (Step m) s s'

/-! ## One process -/

section

variable {m : Machine} {p p' : Process} {env : Env}

theorem names_nodup : [intelLibIttNotify, chromeIttLogging, ldPreload, ldPreloadOld,
    unitraceVersion, followChildProcess, unitraceLogToFile].Nodup := by
  decide +kernel

theorem followChildProcess_ne_ldPreload : followChildProcess ≠ ldPreload := by
  have h := names_nodup
  simp only [List.nodup_cons, List.mem_cons, not_or] at h
  exact Ne.symm h.2.2.1.2.2.1

theorem getEnv_launcherEnv_preload (m : Machine) (env : Env) :
    getEnv (m.launcherEnv env) ldPreload = addPreload (getEnv env ldPreload) m.libPath := by
  have h := names_nodup
  simp only [List.nodup_cons, List.mem_cons, not_or] at h
  rw [Machine.launcherEnv, parseArgs, getEnv_setEnv_ne _ (Ne.symm h.1.2.1),
    getEnv_setEnv_ne _ (Ne.symm h.2.1.1), getEnv_setEnv_self, getEnv_setEnv_ne _ h.2.2.1.2.1]

theorem getEnv_launcherEnv_old (m : Machine) (env : Env) :
    getEnv (m.launcherEnv env) ldPreloadOld = getEnv env ldPreload := by
  have h := names_nodup
  simp only [List.nodup_cons, List.mem_cons, not_or] at h
  rw [Machine.launcherEnv, parseArgs, getEnv_setEnv_ne _ (Ne.symm h.1.2.2.1),
    getEnv_setEnv_ne _ (Ne.symm h.2.1.2.1), getEnv_setEnv_ne _ (Ne.symm h.2.2.1.1),
    getEnv_setEnv_self, getEnv_setEnv_ne _ h.2.2.1.2.1]

theorem getEnv_launcherEnv_itt (m : Machine) (env : Env) :
    getEnv (m.launcherEnv env) chromeIttLogging = lit "1" := by
  have h := names_nodup
  simp only [List.nodup_cons, List.mem_cons, not_or] at h
  rw [Machine.launcherEnv, parseArgs, getEnv_setEnv_ne _ (Ne.symm h.1.1), getEnv_setEnv_self]

/-- The launcher leaves these variables alone. -/
theorem getEnv_launcherEnv_other (m : Machine) (env : Env) {name : Bytes}
    (h : name ∈ [followChildProcess, unitraceLogToFile]) :
    getEnv (m.launcherEnv env) name = getEnv env name := by
  have hne {name' : Bytes} (hname' : name' ∈ [intelLibIttNotify, chromeIttLogging, ldPreload,
      ldPreloadOld, unitraceVersion]) : name ≠ name' := fun heq =>
    List.disjoint_of_nodup_append names_nodup hname' (heq ▸ h)
  rw [Machine.launcherEnv, parseArgs, getEnv_setEnv_ne _ (hne (by simp)),
    getEnv_setEnv_ne _ (hne (by simp)), getEnv_setEnv_ne _ (hne (by simp)),
    getEnv_setEnv_ne _ (hne (by simp)), getEnv_setEnv_ne _ (hne (by simp))]

/-- A library path without separators is an entry of its own behind any list. -/
theorem loadsTool_addPreload {libPath : Bytes} (hsep : ∀ c ∈ libPath, (c == 58 || c == 32) = false)
    (htool : m.isTool libPath = true) (preload : Bytes) :
    m.loadsTool (addPreload preload libPath) = true := by
  have hone : preloadEntries libPath = [libPath] := List.splitOnP_eq_singleton hsep
  have hmem : libPath ∈ preloadEntries (addPreload preload libPath) := by
    rw [addPreload]
    split
    · rw [hone]
      exact List.mem_singleton_self _
    · have hcolon : lit ":" = [58] := by decide +kernel
      have hsplit : preloadEntries (preload ++ [58] ++ libPath) =
          preloadEntries preload ++ preloadEntries libPath := by
        rw [List.append_assoc]
        exact List.splitOnP_append_cons preload libPath rfl
      rw [hcolon, hsplit, hone]
      exact List.mem_append_right _ (List.mem_singleton_self _)
  exact List.any_eq_true.mpr ⟨libPath, hmem, htool⟩

theorem create_eq {os : Start} {options o : TraceOptions} (h : os.create env o = some options) :
    options = o := by
  rw [Start.create] at h
  split at h
  · cases h
  · split at h
    · cases h
    · split at h
      · cases h
      · exact (Option.some.inj h).symm

theorem init_cases {os : Start} {env' : Env} {options : TraceOptions}
    (h : m.init os env = some (env', options)) :
    readArgs env = some options ∧
      ((getEnv env followChildProcess = lit "0" ∧
        env' = setEnv env ldPreload (getEnv env ldPreloadOld)) ∨
      (getEnv env followChildProcess ≠ lit "0" ∧ env' = env)) := by
  rw [Machine.init] at h
  split at h
  · cases h
  · split at h
    · cases h
    · rename_i created hcreated
      obtain ⟨o, hread, hcreate⟩ := Option.bind_eq_some_iff.mp hcreated
      obtain rfl := create_eq hcreate
      split at h
      · rename_i hfollow
        obtain ⟨rfl, rfl⟩ := Prod.mk.inj (Option.some.inj h)
        exact ⟨hread, .inl ⟨hfollow, rfl⟩⟩
      · rename_i hfollow
        obtain ⟨rfl, rfl⟩ := Prod.mk.inj (Option.some.inj h)
        exact ⟨hread, .inr ⟨hfollow, rfl⟩⟩

end

/-- The library is found under one entry of a preload list. -/
structure Machine.Installed (m : Machine) : Prop where
  noSeparator : ∀ c ∈ m.libPath, (c == 58 || c == 32) = false
  isTool : m.isTool m.libPath = true

theorem Machine.Installed.loadsTool {m : Machine} (hm : m.Installed) (env : Env) :
    m.loadsTool (getEnv (m.launcherEnv env) ldPreload) = true := by
  rw [getEnv_launcherEnv_preload]
  exact loadsTool_addPreload hm.noSeparator hm.isTool _

/-- A tracer that is created while the variable is set logs the trace. -/
theorem checkFlag_itt {env : Env} {o : TraceOptions} (hread : readArgs env = some o)
    (hitt : getEnv env chromeIttLogging = lit "1") : o.checkFlag traceChromeIttLogging = true := by
  rcases readArgs_cases env with ⟨-, -, hnone⟩ | ⟨o', hsome, hr⟩
  · rw [hnone] at hread
    cases hread
  rw [hread] at hsome
  obtain rfl := Option.some.inj hsome
  refine (hr.checkFlag_iff (by decide)).mpr (.inl ?_)
  refine ⟨⟨chromeIttLogging, .isOne, traceChromeIttLogging⟩, ?_, rfl, ?_⟩
  · simp [argVariables, chromeIttLogging, traceChromeIttLogging]
  · rw [Variable.isSet, hitt]
    exact beq_self_eq_true _

theorem start_not_loaded {m : Machine} {os : Start} {env : Env} {startedBy : List Program}
    (h : m.loadsTool (getEnv env ldPreload) = false) :
    m.start os env startedBy = some { env := env, tracer := none, startedBy := startedBy } := by
  rw [Machine.start, h, if_neg Bool.false_ne_true]

theorem start_loaded {m : Machine} {os : Start} {env : Env} {startedBy : List Program}
    {p : Process} (h : m.loadsTool (getEnv env ldPreload) = true)
    (hp : m.start os env startedBy = some p) :
    ∃ o, m.init os env = some (p.env, o) ∧ p.tracer = some o ∧ p.startedBy = startedBy := by
  rw [Machine.start, h, if_pos rfl] at hp
  obtain ⟨⟨env', o⟩, hinit, rfl⟩ := Option.map_eq_some_iff.mp hp
  exact ⟨o, hinit, rfl, rfl⟩

/-- What every process has when the children are not followed. -/
structure Restored (m : Machine) (user : Env) (p : Process) : Prop where
  preload : getEnv p.env ldPreload = getEnv user ldPreload
  follow : getEnv p.env followChildProcess = lit "0"
  traced_iff : p.tracer.isSome = true ↔ p.startedBy.head? = some .launcher
  itt : ∀ o, p.tracer = some o → o.checkFlag traceChromeIttLogging = true

theorem Restored.exec {m : Machine} {user : Env}
    (huser : m.loadsTool (getEnv user ldPreload) = false) {os : Start} {p p' : Process}
    (h : Restored m user p) (hp : m.exec os p = some p') : Restored m user p' := by
  rw [Machine.exec, start_not_loaded (h.preload ▸ huser)] at hp
  obtain rfl := Option.some.inj hp
  exact ⟨h.preload, h.follow, by simp, fun o ho => by cases ho⟩

theorem Restored.launch {m : Machine} (hm : m.Installed) {user : Env}
    (huser : m.loadsTool (getEnv user ldPreload) = false) {launcher : Start}
    {application : Option Start} {p p' : Process} (h : Restored m user p)
    (hp : m.launch launcher application p = some p') : Restored m user p' := by
  rw [Machine.launch, start_not_loaded (h.preload ▸ huser), Option.bind_some] at hp
  obtain ⟨os, -, hp⟩ := Option.bind_eq_some_iff.mp hp
  obtain ⟨o, hinit, htracer, hby⟩ := start_loaded (hm.loadsTool p.env) hp
  have hfollow : getEnv (m.launcherEnv p.env) followChildProcess = lit "0" :=
    (getEnv_launcherEnv_other m p.env List.mem_cons_self).trans h.follow
  obtain ⟨hread, ⟨-, henv⟩ | ⟨hnot, -⟩⟩ := init_cases hinit
  · have hne : followChildProcess ≠ ldPreload := followChildProcess_ne_ldPreload
    refine ⟨?_, ?_, by simp [htracer, hby], ?_⟩
    · rw [henv, getEnv_setEnv_self, getEnv_launcherEnv_old, h.preload]
    · rw [henv, getEnv_setEnv_ne _ hne, hfollow]
    · intro o' ho
      obtain rfl := Option.some.inj (htracer.symm.trans ho)
      exact checkFlag_itt hread (getEnv_launcherEnv_itt m p.env)
  · exact absurd hfollow hnot

/-- A start in a directory where all files can be opened. -/
def openStart : Start where
  pid := 1
  comm := lit "app"
  writable _ := true
  readable _ := true

/-- The preload list of the user with the library once for each launcher. -/
def preloadBelow (libPath preload : Bytes) : Nat → Bytes
  | 0 => preload
  | n + 1 => addPreload (preloadBelow libPath preload n) libPath

def launchers (p : Process) : Nat := p.startedBy.count .launcher

/-- What every process has when the children are followed. -/
structure Followed (m : Machine) (user : Env) (p : Process) : Prop where
  preload : getEnv p.env ldPreload =
    preloadBelow m.libPath (getEnv user ldPreload) (launchers p)
  follow : getEnv p.env followChildProcess ≠ lit "0"
  ittVariable : 0 < launchers p → getEnv p.env chromeIttLogging = lit "1"
  traced_iff : p.tracer.isSome = true ↔ 0 < launchers p
  itt : ∀ o, p.tracer = some o → o.checkFlag traceChromeIttLogging = true

theorem Followed.start {m : Machine} (hm : m.Installed) {user : Env}
    (huser : m.loadsTool (getEnv user ldPreload) = false) {os : Start} {env : Env}
    {startedBy : List Program} {p' : Process} (hpreload : getEnv env ldPreload = preloadBelow m.libPath
      (getEnv user ldPreload) (startedBy.count .launcher))
    (hfollow : getEnv env followChildProcess ≠ lit "0")
    (hitt : 0 < startedBy.count .launcher → getEnv env chromeIttLogging = lit "1")
    (hp : m.start os env startedBy = some p') :
    Followed m user p' ∧ p'.env = env ∧ p'.startedBy = startedBy := by
  cases hn : startedBy.count .launcher with
  | zero =>
    rw [hn, preloadBelow] at hpreload
    rw [start_not_loaded (hpreload ▸ huser)] at hp
    obtain rfl := Option.some.inj hp
    have hlaunchers : launchers { env := env, tracer := none, startedBy := startedBy } = 0 := hn
    refine ⟨⟨?_, hfollow, hn ▸ hitt, ?_, fun o ho => by cases ho⟩, rfl, rfl⟩
    · rw [hlaunchers, hpreload, preloadBelow]
    · simp [hlaunchers]
  | succ n =>
    have hloads : m.loadsTool (getEnv env ldPreload) = true := by
      rw [hpreload, hn, preloadBelow]
      exact loadsTool_addPreload hm.noSeparator hm.isTool _
    obtain ⟨o, hinit, htracer, hby⟩ := start_loaded hloads hp
    obtain ⟨hread, ⟨hzero, -⟩ | ⟨-, henv⟩⟩ := init_cases hinit
    · exact absurd hzero hfollow
    · have hlaunchers : launchers p' = startedBy.count .launcher := by rw [launchers, hby]
      refine ⟨⟨?_, ?_, ?_, ?_, ?_⟩, henv, hby⟩
      · rw [henv, hlaunchers, hpreload]
      · rwa [henv]
      · rw [henv, hlaunchers]
        exact hitt
      · simp [htracer, hlaunchers, hn]
      · intro o' ho
        obtain rfl := Option.some.inj (htracer.symm.trans ho)
        exact checkFlag_itt hread (hitt (by omega))

theorem Followed.exec {m : Machine} (hm : m.Installed) {user : Env}
    (huser : m.loadsTool (getEnv user ldPreload) = false) {os : Start} {p p' : Process}
    (h : Followed m user p) (hp : m.exec os p = some p') : Followed m user p' := by
  have hcount : (Program.application :: p.startedBy).count .launcher = launchers p := by
    simp [launchers]
  exact (Followed.start hm huser (by rw [hcount, h.preload]) h.follow
    (by rw [hcount]; exact h.ittVariable) hp).1

theorem Followed.launch {m : Machine} (hm : m.Installed) {user : Env}
    (huser : m.loadsTool (getEnv user ldPreload) = false) {launcher : Start}
    {application : Option Start} {p p' : Process} (h : Followed m user p)
    (hp : m.launch launcher application p = some p') : Followed m user p' := by
  obtain ⟨q, hq, hp⟩ := Option.bind_eq_some_iff.mp hp
  obtain ⟨os, -, hp⟩ := Option.bind_eq_some_iff.mp hp
  obtain ⟨-, henv, -⟩ := Followed.start hm huser h.preload h.follow h.ittVariable hq
  have hcount : (Program.launcher :: p.startedBy).count .launcher = launchers p + 1 := by
    simp [launchers]
  refine (Followed.start hm huser ?_ ?_ (fun _ => getEnv_launcherEnv_itt m q.env) hp).1
  · rw [hcount, preloadBelow, getEnv_launcherEnv_preload, henv, h.preload]
  · rw [getEnv_launcherEnv_other m q.env List.mem_cons_self, henv]
    exact h.follow

end Unitrace.Launch.Processes
