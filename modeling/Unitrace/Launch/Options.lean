import Mathlib.Algebra.Group.Nat.Defs
import Mathlib.Data.Nat.Bitwise
import Mathlib.Logic.Function.Basic
import Unitrace.Trace.LogFileName

/-!
# The options of a traced process

The tool reads its options from the environment when it is loaded. Each option is a
variable and a bit of the flags, and some variables count as set with any value.
-/
namespace Unitrace.Launch.Options

open Unitrace.Lib.Text Unitrace.Lib.ByteString Unitrace.Trace.LogFileName

/-- The environment of a process: the values of the variables that are set. -/
abbrev Env := Bytes → Option Bytes

/-- `utils::GetEnv` -/
def getEnv (env : Env) (name : Bytes) : Bytes := (env name).getD []

/-- `utils::SetEnv` -/
def setEnv (env : Env) (name value : Bytes) : Env := Function.update env name (some value)

theorem getEnv_setEnv_self (env : Env) (name value : Bytes) :
    getEnv (setEnv env name value) name = value := by
  rw [getEnv, setEnv, Function.update_self, Option.getD_some]

theorem getEnv_setEnv_ne (env : Env) {name name' : Bytes} (h : name' ≠ name) (value : Bytes) :
    getEnv (setEnv env name value) name' = getEnv env name' := by
  rw [getEnv, setEnv, Function.update_of_ne h, getEnv]

/-- The two tests of a variable: the value is 1, or it is not empty. -/
inductive Test where
  | isOne
  | notEmpty

def Test.passes : Test → Bytes → Bool
  | .isOne, value => value == lit "1"
  | .notEmpty, value => value != []

structure Variable where
  name : Bytes
  test : Test
  flag : UInt32

/-- The blocks of `ReadArgs` in their order. -/
def argVariables : List Variable :=
  [⟨lit "UNITRACE_CallLogging", .isOne, 0⟩, ⟨lit "UNITRACE_HostTiming", .isOne, 1⟩,
    ⟨lit "UNITRACE_DeviceTiming", .isOne, 2⟩, ⟨lit "UNITRACE_DeviceTimeline", .isOne, 4⟩,
    ⟨lit "UNITRACE_KernelSubmission", .isOne, 3⟩, ⟨lit "UNITRACE_DeviceTimeline", .isOne, 4⟩,
    ⟨lit "UNITRACE_OpenCLTracing", .isOne, 25⟩, ⟨lit "UNITRACE_ChromeSyclLogging", .isOne, 23⟩,
    ⟨lit "UNITRACE_CclSummaryReport", .isOne, 30⟩, ⟨lit "UNITRACE_ChromeIttLogging", .isOne, 24⟩,
    ⟨lit "UNITRACE_ChromeCallLogging", .isOne, 5⟩,
    ⟨lit "UNITRACE_ChromeKernelLogging", .isOne, 21⟩,
    ⟨lit "UNITRACE_ChromeDeviceLogging", .isOne, 22⟩,
    ⟨lit "UNITRACE_ChromeNoThreadOnDevice", .isOne, 26⟩,
    ⟨lit "UNITRACE_ChromeNoEngineOnDevice", .isOne, 27⟩, ⟨lit "UNITRACE_Verbose", .isOne, 9⟩,
    ⟨lit "UNITRACE_Demangle", .isOne, 10⟩, ⟨lit "UNITRACE_KernelOnSeparateTiles", .isOne, 11⟩,
    ⟨lit "UNITRACE_Tid", .isOne, 12⟩, ⟨lit "UNITRACE_Pid", .isOne, 13⟩,
    ⟨lit "UNITRACE_LogToFile", .isOne, 14⟩, ⟨lit "UNITRACE_ConditionalCollection", .isOne, 15⟩,
    ⟨lit "UNITRACE_TraceOutputDirPath", .isOne, 16⟩, ⟨lit "UNITRACE_MetricQuery", .notEmpty, 28⟩,
    ⟨lit "UNITRACE_KernelMetrics", .notEmpty, 29⟩,
    ⟨lit "UNITRACE_ChromeMpiLogging", .notEmpty, 31⟩]

def Variable.isSet (v : Variable) (env : Env) : Bool := v.test.passes (getEnv env v.name)

/-- `flags |= (1 << flag)` -/
def setFlag (flags flag : UInt32) : UInt32 := flags ||| 1 <<< flag

def setFlags (env : Env) (vs : List Variable) (flags : UInt32) : UInt32 :=
  vs.foldl (fun flags v => if v.isSet env then setFlag flags v.flag else flags) flags

def traceHostTiming : UInt32 := 1

def traceDeviceTiming : UInt32 := 2

/-- The constructor of `TraceOptions`, without a result if its assertion fails. -/
def traceOptions (flags : UInt32) (logFile : Bytes) : Option TraceOptions :=
  if TraceOptions.checkFlag ⟨flags, logFile⟩ traceLogToFile && logFile == [] then none
  else if flags = 0 then some ⟨setFlag (setFlag flags traceHostTiming) traceDeviceTiming, logFile⟩
  else some ⟨flags, logFile⟩

def logToFile (env : Env) : Bool := getEnv env (lit "UNITRACE_LogToFile") == lit "1"

/-- `ReadArgs`. The assertion on the file name stands in the block of its variable. -/
def readArgs (env : Env) : Option TraceOptions :=
  let logFile := if logToFile env then getEnv env (lit "UNITRACE_LogFilename") else []
  if logToFile env && logFile == [] then none
  else traceOptions (setFlags env argVariables 0) logFile

/-! ## One bit -/

theorem toNat_bit {flag : UInt32} (h : flag < 32) : ((1 : UInt32) <<< flag).toNat = 2 ^ flag.toNat := by
  have hflag : flag.toNat < 32 := h
  rw [UInt32.toNat_shiftLeft, Nat.mod_eq_of_lt hflag, Nat.shiftLeft_eq, UInt32.toNat_one, Nat.one_mul]
  exact Nat.mod_eq_of_lt (Nat.pow_lt_pow_right (by decide) hflag)

theorem checkFlag_eq_testBit (o : TraceOptions) {flag : UInt32} (h : flag < 32) :
    o.checkFlag flag = o.flags.toNat.testBit flag.toNat := by
  rw [TraceOptions.checkFlag, bne, Bool.not_eq_eq_eq_not, Bool.eq_iff_iff, beq_iff_eq,
    ← UInt32.toNat_inj, UInt32.toNat_and, toNat_bit h, Nat.and_two_pow]
  cases o.flags.toNat.testBit flag.toNat <;> simp

theorem testBit_setFlag (flags : UInt32) {flag : UInt32} (h : flag < 32) (i : Nat) :
    (setFlag flags flag).toNat.testBit i = (flags.toNat.testBit i || decide (flag.toNat = i)) := by
  rw [setFlag, UInt32.toNat_or, toNat_bit h, Nat.testBit_or, Nat.testBit_two_pow]

theorem testBit_setFlags (env : Env) {vs : List Variable} (hvs : ∀ v ∈ vs, v.flag < 32)
    (flags : UInt32) (i : Nat) : (setFlags env vs flags).toNat.testBit i = true ↔
      flags.toNat.testBit i = true ∨ ∃ v ∈ vs, v.flag.toNat = i ∧ v.isSet env = true := by
  induction vs generalizing flags with
  | nil => simp [setFlags]
  | cons v vs ih =>
    have hv := hvs v List.mem_cons_self
    rw [setFlags, List.foldl_cons, ← setFlags, ih fun w hw => hvs w (List.mem_cons_of_mem _ hw)]
    simp only [List.mem_cons, exists_eq_or_imp]
    by_cases hset : v.isSet env = true
    · simp only [hset, if_true, testBit_setFlag _ hv, Bool.or_eq_true, decide_eq_true_eq, and_true,
        or_assoc]
    · simp only [hset, and_false, false_or, if_false, Bool.false_eq_true]

/-! ## All options -/

theorem argVariables_flag_lt : ∀ v ∈ argVariables, v.flag < 32 := by decide

theorem setFlags_eq_zero_iff (env : Env) :
    setFlags env argVariables 0 = 0 ↔ ∀ v ∈ argVariables, v.isSet env = false := by
  have hbits := testBit_setFlags env argVariables_flag_lt 0
  simp only [UInt32.toNat_zero, Nat.zero_testBit, Bool.false_eq_true, false_or] at hbits
  constructor
  · intro h v hv
    by_contra hset
    have hbit := (hbits v.flag.toNat).mpr ⟨v, hv, rfl, Bool.not_eq_false _ ▸ hset⟩
    rw [h, UInt32.toNat_zero, Nat.zero_testBit] at hbit
    cases hbit
  · intro h
    refine UInt32.toNat_inj.mp (Nat.eq_of_testBit_eq fun i => ?_)
    rw [UInt32.toNat_zero, Nat.zero_testBit, Bool.eq_false_iff]
    intro hbit
    obtain ⟨v, hv, -, hset⟩ := (hbits i).mp hbit
    rw [h v hv] at hset
    cases hset

/-- The log file is asked for by one variable. -/
theorem logToFile_isSet_iff (env : Env) :
    (∃ v ∈ argVariables, v.flag = traceLogToFile ∧ v.isSet env = true) ↔
      getEnv env (lit "UNITRACE_LogToFile") = lit "1" := by
  simp [argVariables, traceLogToFile, Variable.isSet, Test.passes]

theorem checkFlag_setFlags (env : Env) (logFile : Bytes) {flag : UInt32} (h : flag < 32) :
    TraceOptions.checkFlag ⟨setFlags env argVariables 0, logFile⟩ flag = true ↔
      ∃ v ∈ argVariables, v.flag = flag ∧ v.isSet env = true := by
  rw [checkFlag_eq_testBit _ h, testBit_setFlags env argVariables_flag_lt]
  simp only [UInt32.toNat_zero, Nat.zero_testBit, Bool.false_eq_true, false_or, UInt32.toNat_inj]

theorem checkFlag_logToFile (env : Env) (logFile : Bytes) :
    TraceOptions.checkFlag ⟨setFlags env argVariables 0, logFile⟩ traceLogToFile =
      logToFile env := by
  rw [Bool.eq_iff_iff, checkFlag_setFlags env logFile (by decide), logToFile_isSet_iff, logToFile,
    beq_iff_eq]

/-- The flags of the options, and the name that is read only for a log file. -/
structure Read (env : Env) (o : TraceOptions) : Prop where
  flags : (∃ v ∈ argVariables, v.isSet env = true) ∧ o.flags = setFlags env argVariables 0 ∨
    (∀ v ∈ argVariables, v.isSet env = false) ∧
      o.flags = setFlag (setFlag 0 traceHostTiming) traceDeviceTiming
  logFile : o.logFile = if logToFile env then getEnv env (lit "UNITRACE_LogFilename") else []
  named : logToFile env = true → o.logFile ≠ []

theorem traceOptions_eq {flags : UInt32} {logFile : Bytes}
    (h : TraceOptions.checkFlag ⟨flags, logFile⟩ traceLogToFile = true → logFile ≠ []) :
    traceOptions flags logFile = some ⟨if flags = 0 then
      setFlag (setFlag 0 traceHostTiming) traceDeviceTiming else flags, logFile⟩ := by
  have hpasses : ¬(TraceOptions.checkFlag ⟨flags, logFile⟩ traceLogToFile && logFile == []) = true := by
    simpa using h
  rw [traceOptions, if_neg hpasses]
  by_cases hzero : flags = 0
  · rw [if_pos hzero, if_pos hzero, hzero]
  · rw [if_neg hzero, if_neg hzero]

theorem read_mk {env : Env} {logFile : Bytes}
    (hname : logFile = if logToFile env then getEnv env (lit "UNITRACE_LogFilename") else [])
    (hnamed : logToFile env = true → logFile ≠ []) :
    Read env ⟨if setFlags env argVariables 0 = 0 then
      setFlag (setFlag 0 traceHostTiming) traceDeviceTiming else setFlags env argVariables 0,
      logFile⟩ := by
  refine ⟨?_, hname, hnamed⟩
  by_cases hzero : setFlags env argVariables 0 = 0
  · exact .inr ⟨(setFlags_eq_zero_iff env).mp hzero, if_pos hzero⟩
  · refine .inl ⟨?_, if_neg hzero⟩
    by_contra hnone
    exact hzero ((setFlags_eq_zero_iff env).mpr fun v hv =>
      Bool.eq_false_iff.mpr fun hset => hnone ⟨v, hv, hset⟩)

/-- The assertion on the name stands before that of the constructor, which always passes. -/
theorem readArgs_cases (env : Env) :
    (logToFile env = true ∧ getEnv env (lit "UNITRACE_LogFilename") = [] ∧ readArgs env = none) ∨
      ∃ o, readArgs env = some o ∧ Read env o := by
  by_cases hmissing : logToFile env = true ∧ getEnv env (lit "UNITRACE_LogFilename") = []
  · refine .inl ⟨hmissing.1, hmissing.2, if_pos ?_⟩
    rw [hmissing.1, if_pos rfl, hmissing.2]
    rfl
  · have hnamed : logToFile env = true →
        (if logToFile env then getEnv env (lit "UNITRACE_LogFilename") else []) ≠ [] := by
      intro hlog
      rw [hlog, if_pos rfl]
      exact fun hname => hmissing ⟨hlog, hname⟩
    have hread : readArgs env = traceOptions (setFlags env argVariables 0)
        (if logToFile env then getEnv env (lit "UNITRACE_LogFilename") else []) := by
      refine if_neg ?_
      rw [Bool.and_eq_true, not_and]
      exact fun hlog => mt beq_iff_eq.mp (hnamed hlog)
    right
    rw [hread, traceOptions_eq fun hcheck => hnamed ?_]
    · exact ⟨_, rfl, read_mk rfl hnamed⟩
    · rwa [checkFlag_logToFile] at hcheck

theorem Read.checkFlag_iff {env : Env} {o : TraceOptions} (h : Read env o) {flag : UInt32}
    (hflag : flag < 32) : o.checkFlag flag = true ↔
      (∃ v ∈ argVariables, v.flag = flag ∧ v.isSet env = true) ∨
      (∀ v ∈ argVariables, v.isSet env = false) ∧
          (flag = traceHostTiming ∨ flag = traceDeviceTiming) := by
  rcases h.flags with ⟨hsome, heq⟩ | ⟨hnone, heq⟩
  · have hnot : ¬∀ v ∈ argVariables, v.isSet env = false := by
      intro hall
      obtain ⟨v, hv, hset⟩ := hsome
      rw [hall v hv] at hset
      cases hset
    have hcheck := checkFlag_setFlags env o.logFile hflag
    rw [← heq] at hcheck
    simpa only [hnot, false_and, or_false] using hcheck
  · have hnot : ¬∃ v ∈ argVariables, v.flag = flag ∧ v.isSet env = true := by
      intro hsome
      obtain ⟨v, hv, -, hset⟩ := hsome
      rw [hnone v hv] at hset
      cases hset
    rw [checkFlag_eq_testBit _ hflag, heq, testBit_setFlag _ (by decide),
      testBit_setFlag _ (by decide)]
    simp only [hnot, false_or, UInt32.toNat_zero, Nat.zero_testBit, Bool.false_or,
      Bool.or_eq_true, decide_eq_true_eq, UInt32.toNat_inj]
    exact ⟨fun h => ⟨hnone, h.imp Eq.symm Eq.symm⟩, fun h => h.2.imp Eq.symm Eq.symm⟩

theorem Read.getLogFileName {env : Env} {o : TraceOptions} (h : Read env o) (pid : UInt32)
    (pmiRank pmixRank : Bytes) : (o.getLogFileName pid pmiRank pmixRank).isSome = true := by
  have hcheck : o.checkFlag traceLogToFile = logToFile env := by
    rw [Bool.eq_iff_iff, h.checkFlag_iff (by decide), logToFile_isSet_iff, logToFile, beq_iff_eq]
    exact or_iff_left fun hdefault => absurd hdefault.2 (by decide)
  rw [TraceOptions.getLogFileName, hcheck]
  cases hlog : logToFile env with
  | false => simp [h.logFile, hlog]
  | true => simp [h.named hlog]

/-- The tool does not start exactly when a log file is asked for without a name. Else its
flags are those whose variable is set, or the two timings if no variable is, and the name of
its log file never fails an assertion. -/
theorem readArgs_flags (env : Env) :
    (readArgs env = none ↔ logToFile env = true ∧ getEnv env (lit "UNITRACE_LogFilename") = []) ∧
    ∀ o, readArgs env = some o →
      (∀ flag < 32, o.checkFlag flag = true ↔
        (∃ v ∈ argVariables, v.flag = flag ∧ v.isSet env = true) ∨
        (∀ v ∈ argVariables, v.isSet env = false) ∧
          (flag = traceHostTiming ∨ flag = traceDeviceTiming)) ∧
      ∀ pid pmiRank pmixRank, (o.getLogFileName pid pmiRank pmixRank).isSome = true := by
  rcases readArgs_cases env with ⟨hlog, hname, hnone⟩ | ⟨o, hsome, hread⟩
  · rw [hnone]
    exact ⟨iff_of_true rfl ⟨hlog, hname⟩, fun o ho => by cases ho⟩
  · rw [hsome]
    refine ⟨iff_of_false (Option.some_ne_none o) ?_, ?_⟩
    · intro h
      exact hread.named h.1 (by rw [hread.logFile, if_pos h.1, h.2])
    · intro o' ho
      obtain rfl := Option.some.inj ho
      exact ⟨fun flag hflag => hread.checkFlag_iff hflag, hread.getLogFileName⟩

end Unitrace.Launch.Options
