import Mathlib.Analysis.SpecialFunctions.Log.Basic
import Unitrace.Lib.PyStr

/-!
# The points of the roofline plot

Every kernel that takes part of the time and does operations of the chosen precision
becomes a point in two series. The arithmetic is a parameter: the loop is the same for
floating-point numbers and for exact ones.
-/
namespace Unitrace.Roofline.Points

open Unitrace.Lib.Text Unitrace.Lib.PyStr

inductive PlotErr where
  | zeroDivisionError | valueError | typeError
  deriving DecidableEq

/-- The operations on numbers that the script uses. -/
structure Arithmetic (K : Type) where
  ofNat : Nat → K
  /-- The literal `0.001`. -/
  milli : K
  add : K → K → K
  mul : K → K → K
  div : K → K → Except PlotErr K
  lt : K → K → Bool
  log : K → Except PlotErr K

/-- What is read from the two profiles for one kernel. -/
structure Counters (K : Type) where
  kernelName : Str
  l3ByteRead : K
  l3ByteWrite : K
  gpuByteRead : K
  gpuByteWrite : K
  fp64 : K
  fp32 : K
  fp16 : K
  fp16Xmx : K
  bf16Xmx : K
  kernelTime : K
  totalGpuTime : K

/-- An entry, without the attributes that the plot does not use. -/
structure RooflineEntry (K : Type) where
  kernelName : Str
  L3 : K
  gpuMemory : K
  FP64 : K
  FP32 : K
  FP16 : K
  FP16_XMX : K
  BF16_XMX : K
  kernelTime : K
  totalGpuTime : K

inductive Precision where
  | FP16 | FP16_XMX | BF16_XMX | FP32 | FP64
  deriving DecidableEq

def Precision.name : Precision → Str
  | .FP16 => chars "FP16"
  | .FP16_XMX => chars "FP16_XMX"
  | .BF16_XMX => chars "BF16_XMX"
  | .FP32 => chars "FP32"
  | .FP64 => chars "FP64"

/-- A point of a data series. -/
structure Point (K : Type) where
  label : Str
  x : K
  y : K
  markerSize : K
  originalY : K
  order : Nat

section Code

variable {K : Type} (A : Arithmetic K)

/-- The entry that `read_unitrace_report` makes for a kernel. -/
def Counters.entry (c : Counters K) : RooflineEntry K where
  kernelName := c.kernelName
  L3 := A.add c.l3ByteWrite c.l3ByteRead
  gpuMemory := A.add c.gpuByteRead c.gpuByteWrite
  FP64 := A.mul c.fp64 (A.ofNat 32)
  FP32 := A.mul c.fp32 (A.ofNat 32)
  FP16 := A.mul c.fp16 (A.ofNat 64)
  FP16_XMX := A.mul c.fp16Xmx (A.ofNat 512)
  BF16_XMX := A.mul c.bf16Xmx (A.ofNat 512)
  kernelTime := c.kernelTime
  totalGpuTime := c.totalGpuTime

/-- `getattr(entry, precision)`. -/
def RooflineEntry.ops (entry : RooflineEntry K) : Precision → K
  | .FP16 => entry.FP16
  | .FP16_XMX => entry.FP16_XMX
  | .BF16_XMX => entry.BF16_XMX
  | .FP32 => entry.FP32
  | .FP64 => entry.FP64

def total (entries : List (RooflineEntry K)) (p : Precision) : K :=
  entries.foldl (fun s entry => A.add s (entry.ops p)) (A.ofNat 0)

/-- `max(variable_dict, key=variable_dict.get)`: the first one with the largest sum. -/
def precision (entries : List (RooflineEntry K)) : Precision :=
  [Precision.FP16_XMX, .BF16_XMX, .FP32, .FP64].foldl
    (fun best p => if A.lt (total A entries best) (total A entries p) then p else best) .FP16

/-- The variables of the loop. -/
structure Series (K : Type) where
  l3Roof : List (Point K) := []
  gpuMemoryRoof : List (Point K) := []
  order : Nat := 0

/-- The guard of the loop. -/
def passes (p : Precision) (entry : RooflineEntry K) : Except PlotErr Bool := do
  let share ← A.div (A.mul entry.kernelTime (A.ofNat 100)) entry.totalGpuTime
  pure (A.lt A.milli share && A.lt (A.ofNat 0) (entry.ops p))

def sizeCercle (entry : RooflineEntry K) : Except PlotErr K := do
  let ratio ← A.div (← A.log entry.totalGpuTime) (← A.log (A.ofNat 100))
  let scaleFactor := if A.lt ratio (A.ofNat 1) then ratio else A.ofNat 1
  let part ← A.div (A.mul (A.mul (A.ofNat (100 - 10)) scaleFactor) entry.kernelTime)
    entry.totalGpuTime
  pure (A.add (A.ofNat 10) part)

-- `"{:.2f}".format` is a parameter, too.
variable (format2f : K → Str)

/-- The point of an entry in the series with this memory traffic. -/
def newPoint (p : Precision) (entry : RooflineEntry K) (order : Nat) (size percentage bytes : K) :
    Except PlotErr (Point K) := do
  let x ← A.div (entry.ops p) bytes
  let y ← A.div (entry.ops p) entry.kernelTime
  let originalY ← A.div (entry.ops p) entry.kernelTime
  pure { label := format2f percentage ++ chars "  % " ++ entry.kernelName
         x, y, markerSize := size, originalY, order }

/-- One turn of the loop. -/
def addPoints (p : Precision) (s : Series K) (entry : RooflineEntry K) : Except PlotErr (Series K) := do
  if ← passes A p entry then
    let order := s.order + 1
    let size ← sizeCercle A entry
    let percentage ← A.div (A.mul entry.kernelTime (A.ofNat 100)) entry.totalGpuTime
    let newL3Point ← newPoint A format2f p entry order size percentage entry.L3
    let newGpuMemoryPoint ← newPoint A format2f p entry order size percentage entry.gpuMemory
    pure { l3Roof := s.l3Roof ++ [newL3Point]
           gpuMemoryRoof := s.gpuMemoryRoof ++ [newGpuMemoryPoint]
           order }
  else pure s

def pointLoop (p : Precision) (entries : List (RooflineEntry K)) : Except PlotErr (Series K) :=
  entries.foldlM (addPoints A format2f p) {}

end Code

/-! ## The labels -/

section Labels

variable {K : Type} {A : Arithmetic K} {format2f : K → Str} {p : Precision}

theorem newPoint_label {entry : RooflineEntry K} {order : Nat} {size percentage bytes : K}
    {point : Point K}
    (h : newPoint A format2f p entry order size percentage bytes = .ok point) :
    point.label = format2f percentage ++ chars "  % " ++ entry.kernelName := by
  obtain ⟨x, -, h⟩ := bind_eq_ok h
  obtain ⟨y, -, h⟩ := bind_eq_ok h
  obtain ⟨originalY, -, h⟩ := bind_eq_ok h
  cases h
  rfl

/-- What a turn that succeeds does. -/
theorem addPoints_cases {s s' : Series K} {entry : RooflineEntry K}
    (h : addPoints A format2f p s entry = .ok s') :
    passes A p entry = .ok false ∧ s' = s ∨
      passes A p entry = .ok true ∧ ∃ l3Point gpuMemoryPoint percentage,
        l3Point.label = format2f percentage ++ chars "  % " ++ entry.kernelName ∧
          s' = ⟨s.l3Roof ++ [l3Point], s.gpuMemoryRoof ++ [gpuMemoryPoint], s.order + 1⟩ := by
  obtain ⟨passed, hpass, h⟩ := bind_eq_ok h
  cases passed with
  | false =>
    cases h
    exact .inl ⟨hpass, rfl⟩
  | true =>
    obtain ⟨size, -, h⟩ := bind_eq_ok h
    obtain ⟨percentage, -, h⟩ := bind_eq_ok h
    obtain ⟨l3Point, hl3, h⟩ := bind_eq_ok h
    obtain ⟨gpuMemoryPoint, -, h⟩ := bind_eq_ok h
    cases h
    exact .inr ⟨hpass, l3Point, gpuMemoryPoint, percentage, newPoint_label hl3, rfl⟩

/-- The points of the first series carry the names of the entries that pass the guard, and
the second series has as many points. -/
structure Plots (A : Arithmetic K) (format2f : K → Str) (p : Precision)
    (entries : List (RooflineEntry K)) (s : Series K) : Prop where
  named : ∀ point ∈ s.l3Roof, ∃ entry ∈ entries, passes A p entry = .ok true ∧
    ∃ percentage, point.label = format2f percentage ++ chars "  % " ++ entry.kernelName
  plotted : ∀ entry ∈ entries, passes A p entry = .ok true → ∃ point ∈ s.l3Roof,
    ∃ percentage, point.label = format2f percentage ++ chars "  % " ++ entry.kernelName
  sameLength : s.gpuMemoryRoof.length = s.l3Roof.length

theorem Plots.turn {entries : List (RooflineEntry K)} {s s' : Series K} {entry : RooflineEntry K}
    (hs : Plots A format2f p entries s) (h : addPoints A format2f p s entry = .ok s') :
    Plots A format2f p (entries ++ [entry]) s' := by
  have hold : ∀ e ∈ entries, e ∈ entries ++ [entry] := fun e => List.mem_append_left _
  rcases addPoints_cases h with ⟨hpass, rfl⟩ | ⟨hpass, l3Point, _, percentage, hlabel, rfl⟩
  · refine ⟨?_, ?_, hs.sameLength⟩
    · intro point hpoint
      obtain ⟨e, he, hnamed⟩ := hs.named point hpoint
      exact ⟨e, hold e he, hnamed⟩
    · intro e he hplotted
      rcases List.mem_append.mp he with he | he
      · exact hs.plotted e he hplotted
      · rw [List.mem_singleton.mp he, hpass] at hplotted
        cases hplotted
  · refine ⟨?_, ?_, ?_⟩
    · intro point hpoint
      rcases List.mem_append.mp hpoint with hpoint | hpoint
      · obtain ⟨e, he, hnamed⟩ := hs.named point hpoint
        exact ⟨e, hold e he, hnamed⟩
      · obtain rfl := List.mem_singleton.mp hpoint
        exact ⟨entry, List.mem_append_right _ List.mem_cons_self, hpass, percentage, hlabel⟩
    · intro e he hplotted
      rcases List.mem_append.mp he with he | he
      · obtain ⟨point, hpoint, hnamed⟩ := hs.plotted e he hplotted
        exact ⟨point, List.mem_append_left _ hpoint, hnamed⟩
      · obtain rfl := List.mem_singleton.mp he
        exact ⟨l3Point, List.mem_append_right _ List.mem_cons_self, percentage, hlabel⟩
    · simp only [List.length_append, List.length_singleton, hs.sameLength]

theorem Plots.run {done entries : List (RooflineEntry K)} {start s : Series K}
    (hstart : Plots A format2f p done start)
    (h : entries.foldlM (addPoints A format2f p) start = .ok s) :
    Plots A format2f p (done ++ entries) s := by
  induction entries generalizing done start with
  | nil =>
    cases h
    rwa [List.append_nil]
  | cons entry entries ih =>
    rw [List.foldlM_cons] at h
    obtain ⟨next, hnext, h⟩ := bind_eq_ok h
    rw [← List.singleton_append, ← List.append_assoc]
    exact ih (hstart.turn hnext) h

theorem plots_pointLoop {entries : List (RooflineEntry K)} {s : Series K}
    (h : pointLoop A format2f p entries = .ok s) : Plots A format2f p entries s := by
  have hstart : Plots A format2f p [] {} := by
    refine ⟨?_, ?_, rfl⟩
    · intro point hpoint
      cases hpoint
    · intro entry hentry
      cases hentry
  exact hstart.run h

end Labels

/-! ## The turns that succeed -/

section Success

variable {K : Type} (A : Arithmetic K) (p : Precision)

/-- The numbers of the entry can be divided as its points need it, if it has any. -/
def Plottable (entry : RooflineEntry K) : Prop :=
  passes A p entry = .ok false ∨
    passes A p entry = .ok true ∧ (∃ size, sizeCercle A entry = .ok size) ∧
      (∃ x, A.div (entry.ops p) entry.L3 = .ok x) ∧
      (∃ x, A.div (entry.ops p) entry.gpuMemory = .ok x) ∧
      ∃ y, A.div (entry.ops p) entry.kernelTime = .ok y

variable {A p} {format2f : K → Str} {entry : RooflineEntry K}

theorem exists_newPoint_iff {order : Nat} {size percentage bytes : K} :
    (∃ point, newPoint A format2f p entry order size percentage bytes = .ok point) ↔
      (∃ x, A.div (entry.ops p) bytes = .ok x) ∧
        ∃ y, A.div (entry.ops p) entry.kernelTime = .ok y := by
  constructor
  · intro h
    obtain ⟨point, h⟩ := h
    obtain ⟨x, hx, h⟩ := bind_eq_ok h
    obtain ⟨y, hy, -⟩ := bind_eq_ok h
    exact ⟨⟨x, hx⟩, y, hy⟩
  · intro h
    obtain ⟨⟨x, hx⟩, y, hy⟩ := h
    rw [newPoint, hx, hy]
    exact ⟨_, rfl⟩

theorem exists_share {passed : Bool} (h : passes A p entry = .ok passed) :
    ∃ share, A.div (A.mul entry.kernelTime (A.ofNat 100)) entry.totalGpuTime = .ok share := by
  obtain ⟨share, hshare, -⟩ := bind_eq_ok h
  exact ⟨share, hshare⟩

theorem exists_addPoints_iff (s : Series K) (entry : RooflineEntry K) :
    (∃ s', addPoints A format2f p s entry = .ok s') ↔ Plottable A p entry := by
  constructor
  · intro h
    obtain ⟨s', h⟩ := h
    obtain ⟨passed, hpass, h⟩ := bind_eq_ok h
    cases passed with
    | false => exact .inl hpass
    | true =>
      obtain ⟨size, hsize, h⟩ := bind_eq_ok h
      obtain ⟨percentage, -, h⟩ := bind_eq_ok h
      obtain ⟨l3Point, hl3, h⟩ := bind_eq_ok h
      obtain ⟨gpuMemoryPoint, hgpu, -⟩ := bind_eq_ok h
      obtain ⟨hx, hy⟩ := exists_newPoint_iff.mp ⟨l3Point, hl3⟩
      exact .inr ⟨hpass, ⟨size, hsize⟩, hx, (exists_newPoint_iff.mp ⟨gpuMemoryPoint, hgpu⟩).1, hy⟩
  · intro h
    rcases h with hpass | ⟨hpass, ⟨size, hsize⟩, hl3, hgpu, htime⟩
    · rw [addPoints, hpass]
      exact ⟨s, rfl⟩
    · obtain ⟨percentage, hpercentage⟩ := exists_share hpass
      have hpoint {bytes : K} (hx : ∃ x, A.div (entry.ops p) bytes = .ok x) : ∃ point,
          newPoint A format2f p entry (s.order + 1) size percentage bytes = .ok point :=
        exists_newPoint_iff.mpr ⟨hx, htime⟩
      obtain ⟨l3Point, hl3Point⟩ := hpoint hl3
      obtain ⟨gpuMemoryPoint, hgpuPoint⟩ := hpoint hgpu
      rw [addPoints, hpass, hsize, hpercentage]
      show ∃ s', (newPoint A format2f p entry (s.order + 1) size percentage entry.L3 >>= _) = .ok s'
      rw [hl3Point]
      show ∃ s', (newPoint A format2f p entry (s.order + 1) size percentage entry.gpuMemory >>= _) =
        .ok s'
      rw [hgpuPoint]
      exact ⟨_, rfl⟩

end Success

/-! ## Exact arithmetic -/

section Exact

variable {K : Type} [Field K] [LinearOrder K]

/-- The operations of an ordered field with some logarithm. -/
def exactArithmetic (log : K → K) : Arithmetic K where
  ofNat n := n
  milli := 1 / 1000
  add a b := a + b
  mul a b := a * b
  div a b := if b = 0 then .error .zeroDivisionError else .ok (a / b)
  lt a b := a < b
  log a := if 0 < a then .ok (log a) else .error .valueError

/-- The share of the time is large enough, and there are operations. -/
def Passes (p : Precision) (entry : RooflineEntry K) : Prop :=
  1 / 1000 < entry.kernelTime * 100 / entry.totalGpuTime ∧ 0 < entry.ops p

instance (p : Precision) (entry : RooflineEntry K) : Decidable (Passes p entry) :=
  inferInstanceAs (Decidable (_ ∧ _))

/-- A plotted entry without traffic of one of the two kinds. -/
def NoTraffic (p : Precision) (entry : RooflineEntry K) : Prop :=
  Passes p entry ∧ (entry.L3 = 0 ∨ entry.gpuMemory = 0)

variable (log : K → K) (format2f : K → Str)

theorem div_ok {b : K} (hb : b ≠ 0) (a : K) :
    (exactArithmetic log).div a b = .ok (a / b) := if_neg hb

theorem div_error {b : K} (hb : b = 0) (a : K) :
    (exactArithmetic log).div a b = .error .zeroDivisionError := if_pos hb

variable {p : Precision} {entry : RooflineEntry K}

theorem passes_eq (htotal : entry.totalGpuTime ≠ 0) :
    passes (exactArithmetic log) p entry = .ok (decide (Passes p entry)) := by
  have hdiv := div_ok log htotal (entry.kernelTime * 100)
  have hcast : ((100 : Nat) : K) = 100 := Nat.cast_ofNat
  have hzero : ((0 : Nat) : K) = 0 := Nat.cast_zero
  unfold passes
  simp only [exactArithmetic, hcast, hzero] at hdiv ⊢
  rw [hdiv]
  exact congrArg Except.ok (Bool.decide_and _ _).symm

theorem newPoint_ok (htime : entry.kernelTime ≠ 0) {bytes : K} (hbytes : bytes ≠ 0) (order : Nat)
    (size percentage : K) : ∃ point,
      newPoint (exactArithmetic log) format2f p entry order size percentage bytes = .ok point := by
  unfold newPoint
  rw [div_ok log hbytes, div_ok log htime]
  exact ⟨_, rfl⟩

theorem newPoint_error {bytes : K} (hbytes : bytes = 0) (order : Nat) (size percentage : K) :
    newPoint (exactArithmetic log) format2f p entry order size percentage bytes =
      .error .zeroDivisionError := by
  unfold newPoint
  rw [div_error log hbytes]
  rfl

section Turn

variable [IsStrictOrderedRing K]

theorem kernelTime_ne_zero (h : Passes p entry) : entry.kernelTime ≠ 0 := by
  intro hzero
  have hshare := h.1
  rw [hzero, zero_mul, zero_div] at hshare
  have hpos : (0 : K) < 1 / 1000 := by positivity
  exact absurd hshare (not_lt_of_gt hpos)

variable {log} (hlog : log 100 ≠ 0) (htotal : 0 < entry.totalGpuTime)

include hlog htotal

theorem sizeCercle_ok : ∃ size, sizeCercle (exactArithmetic log) entry = .ok size := by
  have hcast : ((100 : Nat) : K) = 100 := Nat.cast_ofNat
  have hhundred : (0 : K) < 100 := by positivity
  unfold sizeCercle
  simp only [exactArithmetic, hcast, if_pos htotal, if_pos hhundred, bind, Except.bind, pure,
    Except.pure, if_neg hlog, if_neg htotal.ne']
  exact ⟨_, rfl⟩

/-- What a turn does for an entry that passes the guard: only the traffic can make it fail. -/
theorem addPoints_of_passes (hpass : Passes p entry) (s : Series K) : ∃ size percentage,
    addPoints (exactArithmetic log) format2f p s entry =
      (newPoint (exactArithmetic log) format2f p entry (s.order + 1) size percentage entry.L3 >>=
        fun newL3Point =>
          newPoint (exactArithmetic log) format2f p entry (s.order + 1) size percentage
              entry.gpuMemory >>= fun newGpuMemoryPoint =>
            pure ⟨s.l3Roof ++ [newL3Point], s.gpuMemoryRoof ++ [newGpuMemoryPoint],
              s.order + 1⟩) := by
  obtain ⟨size, hsize⟩ := sizeCercle_ok hlog htotal
  refine ⟨size, entry.kernelTime * ((100 : Nat) : K) / entry.totalGpuTime, ?_⟩
  unfold addPoints
  rw [passes_eq log htotal.ne', decide_eq_true hpass, hsize,
    div_ok log htotal.ne']
  rfl

theorem addPoints_of_noTraffic (h : NoTraffic p entry) (s : Series K) :
    addPoints (exactArithmetic log) format2f p s entry = .error .zeroDivisionError := by
  obtain ⟨hpass, hzero⟩ := h
  obtain ⟨size, percentage, hturn⟩ := addPoints_of_passes format2f hlog htotal hpass s
  rw [hturn]
  by_cases hL3 : entry.L3 = 0
  · rw [newPoint_error log format2f hL3]
    rfl
  · obtain ⟨point, hpoint⟩ := newPoint_ok log format2f (kernelTime_ne_zero hpass) hL3
      (s.order + 1) size percentage
    rw [hpoint, newPoint_error log format2f (hzero.resolve_left hL3)]
    rfl

theorem addPoints_ok (h : ¬ NoTraffic p entry) (s : Series K) :
    ∃ s', addPoints (exactArithmetic log) format2f p s entry = .ok s' := by
  by_cases hpass : Passes p entry
  · obtain ⟨size, percentage, hturn⟩ := addPoints_of_passes format2f hlog htotal hpass s
    have htraffic : entry.L3 ≠ 0 ∧ entry.gpuMemory ≠ 0 :=
      not_or.mp fun hzero => h ⟨hpass, hzero⟩
    obtain ⟨point, hpoint⟩ := newPoint_ok log format2f (kernelTime_ne_zero hpass) htraffic.1
      (s.order + 1) size percentage
    obtain ⟨point', hpoint'⟩ := newPoint_ok log format2f (kernelTime_ne_zero hpass) htraffic.2
      (s.order + 1) size percentage
    rw [hturn, hpoint, hpoint']
    exact ⟨_, rfl⟩
  · refine ⟨s, ?_⟩
    unfold addPoints
    rw [passes_eq log htotal.ne', decide_eq_false hpass]
    rfl

end Turn

/-- The loop divides by zero exactly if there is a plotted entry without traffic. -/
theorem pointLoop_error_iff [IsStrictOrderedRing K] {log} (hlog : log 100 ≠ 0) {p : Precision}
    {entries : List (RooflineEntry K)} (htotal : ∀ entry ∈ entries, 0 < entry.totalGpuTime) :
    pointLoop (exactArithmetic log) format2f p entries = .error .zeroDivisionError ↔
      ∃ entry ∈ entries, NoTraffic p entry := by
  have hrun (s : Series K) :
      entries.foldlM (addPoints (exactArithmetic log) format2f p) s = .error .zeroDivisionError ↔
        ∃ entry ∈ entries, NoTraffic p entry := by
    induction entries generalizing s with
    | nil => exact iff_of_false (fun h => by cases h) (fun h => by obtain ⟨_, hmem, -⟩ := h; cases hmem)
    | cons entry entries ih =>
      obtain ⟨hentry, hentries⟩ := List.forall_mem_cons.mp htotal
      rw [List.foldlM_cons, List.exists_mem_cons_iff]
      by_cases h : NoTraffic p entry
      · rw [addPoints_of_noTraffic format2f hlog hentry h s]
        exact iff_of_true rfl (.inl h)
      · obtain ⟨s', hs'⟩ := addPoints_ok format2f hlog hentry h s
        rw [hs', or_iff_right h]
        exact ih hentries s'
  exact hrun {}

end Exact

/-! ## The division by the traffic -/

/-- The counters and times of a kernel in a profile, none of which is negative. -/
structure Profile extends Counters ℝ where
  reads : 0 ≤ l3ByteRead ∧ 0 ≤ gpuByteRead
  writes : 0 ≤ l3ByteWrite ∧ 0 ≤ gpuByteWrite
  instructions : 0 ≤ fp64 ∧ 0 ≤ fp32 ∧ 0 ≤ fp16 ∧ 0 ≤ fp16Xmx ∧ 0 ≤ bf16Xmx
  time : 0 ≤ kernelTime
  totalTime : 0 < totalGpuTime

/-- Arithmetic on real numbers with the natural logarithm. -/
noncomputable def realArithmetic : Arithmetic ℝ := exactArithmetic Real.log

/-- The entries that `read_unitrace_report` makes. -/
noncomputable def entriesOf (profiles : List Profile) : List (RooflineEntry ℝ) :=
  profiles.map fun c => c.toCounters.entry realArithmetic

/-- The kernel has traffic in the L3 cache and in the memory. -/
def HasTraffic (c : Profile) : Prop :=
  (c.l3ByteRead ≠ 0 ∨ c.l3ByteWrite ≠ 0) ∧ (c.gpuByteRead ≠ 0 ∨ c.gpuByteWrite ≠ 0)

theorem log_hundred_ne_zero : Real.log 100 ≠ 0 :=
  (Real.log_pos (by norm_num)).ne'

theorem sum_eq_zero_iff {a b : ℝ} (ha : 0 ≤ a) (hb : 0 ≤ b) :
    a + b = 0 ↔ ¬ (a ≠ 0 ∨ b ≠ 0) := by
  rw [add_eq_zero_iff_of_nonneg ha hb, not_or, not_not, not_not]

theorem noTraffic_iff (p : Precision) (c : Profile) :
    NoTraffic p (c.toCounters.entry realArithmetic) ↔
      Passes p (c.toCounters.entry realArithmetic) ∧ ¬ HasTraffic c := by
  have hL3 : (c.toCounters.entry realArithmetic).L3 = 0 ↔
      ¬ (c.l3ByteRead ≠ 0 ∨ c.l3ByteWrite ≠ 0) := by
    rw [or_comm]
    exact sum_eq_zero_iff c.writes.1 c.reads.1
  have hmemory : (c.toCounters.entry realArithmetic).gpuMemory = 0 ↔
      ¬ (c.gpuByteRead ≠ 0 ∨ c.gpuByteWrite ≠ 0) := sum_eq_zero_iff c.reads.2 c.writes.2
  rw [NoTraffic, hL3, hmemory, ← not_and_or, HasTraffic]

theorem pointLoop_error_iff_profile (format2f : ℝ → Str) (p : Precision)
    (profiles : List Profile) :
    pointLoop realArithmetic format2f p (entriesOf profiles) =
        .error .zeroDivisionError ↔
      ∃ c ∈ profiles, Passes p (c.toCounters.entry realArithmetic) ∧ ¬ HasTraffic c := by
  have htotal : ∀ entry ∈ entriesOf profiles, 0 < entry.totalGpuTime := by
    intro entry hentry
    obtain ⟨c, -, rfl⟩ := List.mem_map.mp hentry
    exact c.totalTime
  unfold realArithmetic at htotal ⊢
  rw [pointLoop_error_iff format2f log_hundred_ne_zero htotal]
  constructor
  · rintro ⟨entry, hentry, h⟩
    obtain ⟨c, hc, rfl⟩ := List.mem_map.mp hentry
    exact ⟨c, hc, (noTraffic_iff p c).mp h⟩
  · rintro ⟨c, hc, h⟩
    exact ⟨_, List.mem_map_of_mem hc, (noTraffic_iff p c).mpr h⟩

/-- The loop does not divide by zero exactly if every kernel that is plotted has traffic of
both kinds; the kernel times and the total time are never the reason. -/
theorem no_division_by_zero_iff (format2f : ℝ → Str) (profiles : List Profile) :
    pointLoop realArithmetic format2f (precision realArithmetic (entriesOf profiles))
        (entriesOf profiles) ≠ .error .zeroDivisionError ↔
      ∀ c ∈ profiles,
        Passes (precision realArithmetic (entriesOf profiles))
          (c.toCounters.entry realArithmetic) → HasTraffic c := by
  rw [ne_eq, pointLoop_error_iff_profile]
  constructor
  · intro h c hc hpass
    by_contra hno
    exact h ⟨c, hc, hpass, hno⟩
  · rintro h ⟨c, hc, hpass, hno⟩
    exact hno (h c hc hpass)

/-- A kernel that finds all its data in the L3 cache. -/
noncomputable def cachedKernel : Profile where
  kernelName := chars "cached"
  l3ByteRead := 64
  l3ByteWrite := 0
  gpuByteRead := 0
  gpuByteWrite := 0
  fp64 := 1
  fp32 := 1
  fp16 := 1
  fp16Xmx := 1
  bf16Xmx := 1
  kernelTime := 100
  totalGpuTime := 100
  reads := by norm_num
  writes := by norm_num
  instructions := by norm_num
  time := by norm_num
  totalTime := by norm_num

theorem cached_kernel_divides_by_zero :
    pointLoop realArithmetic (fun _ => []) (precision realArithmetic (entriesOf [cachedKernel]))
        (entriesOf [cachedKernel]) = .error .zeroDivisionError := by
  rw [pointLoop_error_iff_profile]
  refine ⟨cachedKernel, List.mem_singleton_self _, ⟨?_, ?_⟩, fun h => h.2.elim (· rfl) (· rfl)⟩
  · show (1 : ℝ) / 1000 < 100 * 100 / 100
    norm_num
  · generalize precision realArithmetic (entriesOf [cachedKernel]) = p
    have hscaled (n : Nat) (hn : 0 < n) : (0 : ℝ) < 1 * (n : ℝ) := by positivity
    cases p with
    | FP16 => exact hscaled 64 (by decide)
    | FP16_XMX => exact hscaled 512 (by decide)
    | BF16_XMX => exact hscaled 512 (by decide)
    | FP32 => exact hscaled 32 (by decide)
    | FP64 => exact hscaled 32 (by decide)

end Unitrace.Roofline.Points
