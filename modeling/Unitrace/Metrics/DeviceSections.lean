import Mathlib.Data.List.Infix
import Unitrace.Lib.Text

/-!
# Device sections of a metrics file

`main` and `List` scan a metrics file for the banner of one device and stop at
the next banner. `PerfMetricsHTTPServer` scans it once and toggles a flag at
every banner. The two scans are put side by side on files made of complete
device sections.
-/
namespace Unitrace.Metrics.DeviceSections

open Unitrace.Lib.Text

abbrev Row := Str

/-- `("=== Device" in row) and ("Metrics ===" in row)` -/
def isBanner (row : Row) : Bool :=
  chars "=== Device" <:+: row && chars "Metrics ===" <:+: row

/-- `("OtherStall[Events]" in row) or (row.startswith("Kernel,"))` -/
def isHeader (row : Row) : Bool :=
  chars "OtherStall[Events]" <:+: row || chars "Kernel," <+: row

/-- `"=== Device #" + str(device) + " Metrics ==="` -/
def deviceBanner (device : Nat) : Row :=
  chars "=== Device #" ++ decimal device ++ chars " Metrics ==="

/-- The variables of the scan for one device. -/
structure Scan where
  header : Nat := 0
  devicefound : Bool := false
  eustall : Bool := false
  counting : Bool := false
  linenum : Nat := 0
  deriving DecidableEq

/-- The body of the loop below the banner test: take the header while counting. -/
def Scan.line (s : Scan) (row : Row) : Scan :=
  let s := if s.counting && isHeader row then
      { s with header := s.linenum, counting := false,
               eustall := s.eustall || chars "OtherStall[Events]" <:+: row }
    else s
  { s with linenum := s.linenum + 1 }

/-- The loop `for row in f`; a banner of another device ends it once the device
of interest has been found. -/
def deviceScan (banner : Row) : Scan → List Row → Scan
  | s, [] => s
  | s, row :: rest =>
    if isBanner row then
      if banner <:+: row then
        deviceScan banner ({ s with counting := true, devicefound := true }.line row) rest
      else if s.devicefound then s
      else deviceScan banner (s.line row) rest
    else deviceScan banner (s.line row) rest

/-- `header` and `last` as `main` leaves them for `--device device`. -/
def mainSection (device : Nat) (rows : List Row) : Nat × Nat :=
  let s := deviceScan (deviceBanner device) {} rows
  (s.header, s.linenum)

/-- The variables of the section scan of the server. -/
structure ServerScan where
  sections : List (Nat × Nat) := []
  linenum : Nat := 0
  header : Nat := 0
  devicefound : Bool := false
  eustall : Bool := false
  deriving DecidableEq

def ServerScan.line (s : ServerScan) (row : Row) : ServerScan :=
  let s := if isHeader row then
      { s with header := s.linenum, eustall := s.eustall || chars "OtherStall[Events]" <:+: row }
    else s
  let s := if isBanner row then
      if s.devicefound = false then { s with devicefound := true }
      else { s with sections := s.sections ++ [(s.header, s.linenum)], devicefound := false }
    else s
  { s with linenum := s.linenum + 1 }

/-- The list `sections` that `PerfMetricsHTTPServer` computes. -/
def serverSections (rows : List Row) : List (Nat × Nat) :=
  let s := rows.foldl ServerScan.line {}
  s.sections ++ [(s.header, s.linenum)]

/-- One complete section: the banner of its device, lines that are no header,
one header line and the data rows. -/
structure DeviceSection where
  device : Nat
  preamble : List Row
  headerRow : Row
  data : List Row
  preamble_plain : ∀ row ∈ preamble, isBanner row = false ∧ isHeader row = false
  header_ok : isBanner headerRow = false ∧ isHeader headerRow = true
  data_plain : ∀ row ∈ data, isBanner row = false ∧ isHeader row = false

def bannerRow (device : Nat) : Row := deviceBanner device ++ ['\n']

def DeviceSection.rows (s : DeviceSection) : List Row :=
  bannerRow s.device :: (s.preamble ++ s.headerRow :: s.data)

def rowsOf (file : List DeviceSection) : List Row := file.flatMap DeviceSection.rows

theorem isBanner_bannerRow (d : Nat) : isBanner (bannerRow d) = true := by
  have h₁ : chars "=== Device" <:+: bannerRow d := by
    refine ⟨[], chars " #" ++ decimal d ++ chars " Metrics ===" ++ ['\n'], ?_⟩
    have hd : chars "=== Device" ++ chars " #" = chars "=== Device #" := by
      rw [chars_ofList, chars_ofList, chars_ofList]
      rfl
    simp only [bannerRow, deviceBanner, List.nil_append, ← List.append_assoc, hd]
  have h₂ : chars "Metrics ===" <:+: bannerRow d := by
    refine ⟨chars "=== Device #" ++ decimal d ++ [' '], ['\n'], ?_⟩
    have hm : [' '] ++ chars "Metrics ===" = chars " Metrics ===" := by
      rw [chars_ofList, chars_ofList]
      rfl
    rw [bannerRow, deviceBanner, List.append_assoc _ [' '], hm]
  simp only [isBanner, h₁, h₂, decide_true, Bool.and_self]

theorem isHeader_bannerRow (d : Nat) : isHeader (bannerRow d) = false := by
  have hO : 'O' ∉ bannerRow d := by
    simp only [bannerRow, deviceBanner, List.mem_append, not_or]
    have hd : 'O' ∉ chars "=== Device #" := by
      rw [chars_ofList]
      decide
    have hm : 'O' ∉ chars " Metrics ===" := by
      rw [chars_ofList]
      decide
    exact ⟨⟨⟨hd, notMem_decimal (by decide) d⟩, hm⟩, by decide⟩
  have h₁ : ¬ chars "OtherStall[Events]" <:+: bannerRow d := by
    rw [chars_ofList]
    exact fun h => hO (h.subset (by decide))
  have h₂ : ¬ chars "Kernel," <+: bannerRow d := by
    rw [bannerRow, deviceBanner, chars_ofList, chars_ofList]
    intro h
    exact absurd (List.cons_prefix_cons.mp h).1 (by decide)
  simp only [isHeader, h₁, h₂, decide_false, Bool.or_self]

/-- The number sign and the blank around the numeral make a banner text occur
only in the banner row of its own device. -/
theorem deviceBanner_infix_iff (d e : Nat) : deviceBanner d <:+: bannerRow e ↔ d = e := by
  constructor
  · rintro ⟨p, q, h⟩
    have hd : chars "=== Device #" = chars "=== Device " ++ ['#'] := by
      rw [chars_ofList, chars_ofList]
      rfl
    have hm : chars " Metrics ===" = ' ' :: chars "Metrics ===" := by
      rw [chars_ofList, chars_ofList]
    have hsharp : '#' ∉ decimal e ++ (chars " Metrics ===" ++ ['\n']) := by
      simp only [List.mem_append, not_or]
      refine ⟨notMem_decimal (by decide) e, ?_, by decide⟩
      rw [chars_ofList]
      decide
    have hs : (p ++ chars "=== Device ") ++ '#' :: (decimal d ++ (chars " Metrics ===" ++ q)) =
        chars "=== Device " ++ '#' :: (decimal e ++ (chars " Metrics ===" ++ ['\n'])) := by
      simpa [bannerRow, deviceBanner, hd] using h
    have hhead : '#' ∉ chars "=== Device " := by
      rw [chars_ofList]
      decide
    have ht := ((List.append_cons_inj_of_notMem hhead hsharp).mp hs.symm).2.2
    rw [hm] at ht
    have hn := append_cons_cancel (notMem_decimal (by decide) e) (notMem_decimal (by decide) d) ht
    exact (decimal_injective hn.1).symm
  · rintro rfl
    exact ⟨[], ['\n'], rfl⟩

/-- The lines a section is made of beside its banner and its header. -/
def Plain (rows : List Row) : Prop := ∀ row ∈ rows, isBanner row = false ∧ isHeader row = false

/-- Lines that leave everything but the line number alone. -/
def Scan.advance (s : Scan) (n : Nat) : Scan := { s with linenum := s.linenum + n }

@[simp] theorem Scan.advance_advance (s : Scan) (m n : Nat) :
    (s.advance m).advance n = s.advance (m + n) := by
  simp only [Scan.advance, Nat.add_assoc]

theorem Scan.line_of_not_header {s : Scan} {row : Row} (h : isHeader row = false) :
    s.line row = s.advance 1 := by
  simp [Scan.line, Scan.advance, h]

theorem Scan.line_of_not_counting {s : Scan} (row : Row) (h : s.counting = false) :
    s.line row = s.advance 1 := by
  simp [Scan.line, Scan.advance, h]

theorem deviceScan_plain (banner : Row) (rows rest : List Row) (hp : Plain rows) (s : Scan) :
    deviceScan banner s (rows ++ rest) = deviceScan banner (s.advance rows.length) rest := by
  induction rows generalizing s with
  | nil => rfl
  | cons row rows ih =>
    obtain ⟨hb, hh⟩ := hp row List.mem_cons_self
    rw [List.cons_append, deviceScan, if_neg (by simp [hb]), Scan.line_of_not_header hh,
      ih (fun r hr => hp r (List.mem_cons_of_mem _ hr)), Scan.advance_advance, List.length_cons,
      Nat.add_comm]

theorem DeviceSection.length_rows (sec : DeviceSection) :
    sec.rows.length = 1 + sec.preamble.length + 1 + sec.data.length := by
  simp only [DeviceSection.rows, List.length_cons, List.length_append]
  omega

/-- The line after the banner line of the section that holds the header, and the
first line after the section, counted from the line the section starts at. -/
def DeviceSection.span (sec : DeviceSection) (start : Nat) : Nat × Nat :=
  (start + 1 + sec.preamble.length, start + sec.rows.length)

/-- A section of another device met before the device of interest is skipped. -/
theorem deviceScan_skip (d : Nat) (sec : DeviceSection) (rest : List Row) (hd : d ≠ sec.device)
    (s : Scan) (hf : s.devicefound = false) (hc : s.counting = false) :
    deviceScan (deviceBanner d) s (sec.rows ++ rest) =
      deviceScan (deviceBanner d) (s.advance sec.rows.length) rest := by
  have hn : ¬ deviceBanner d <:+: bannerRow sec.device :=
    fun h => hd ((deviceBanner_infix_iff d sec.device).mp h)
  rw [sec.length_rows, DeviceSection.rows, List.cons_append, deviceScan,
    if_pos (isBanner_bannerRow _), if_neg hn, if_neg (by simp [hf]),
    Scan.line_of_not_counting _ hc, List.append_assoc, deviceScan_plain _ _ _ sec.preamble_plain,
    List.cons_append, deviceScan, if_neg (by simp [sec.header_ok.1]),
    Scan.line_of_not_counting (s := (s.advance 1).advance sec.preamble.length) _ hc, deviceScan_plain _ _ _ sec.data_plain]
  simp only [Scan.advance_advance]

/-- The section of the device of interest fixes the header and ends the search. -/
theorem deviceScan_own (sec : DeviceSection) (rest : List Row) (s : Scan) :
    ∃ e, deviceScan (deviceBanner sec.device) s (sec.rows ++ rest) =
      deviceScan (deviceBanner sec.device)
        { header := s.linenum + 1 + sec.preamble.length, devicefound := true, eustall := e,
          counting := false, linenum := s.linenum + sec.rows.length } rest := by
  refine ⟨s.eustall || chars "OtherStall[Events]" <:+: sec.headerRow, ?_⟩
  have hb := (deviceBanner_infix_iff sec.device sec.device).mpr rfl
  rw [sec.length_rows, DeviceSection.rows, List.cons_append, deviceScan,
    if_pos (isBanner_bannerRow _), if_pos hb, Scan.line_of_not_header (isHeader_bannerRow _),
    List.append_assoc, deviceScan_plain _ _ _ sec.preamble_plain,
    List.cons_append, deviceScan, if_neg (by simp [sec.header_ok.1]),
    deviceScan_plain _ _ _ sec.data_plain]
  simp only [Scan.line, Scan.advance, sec.header_ok.2, Bool.and_self, ↓reduceIte, Nat.add_assoc]

/-- After the device of interest the next banner, of another device, stops the scan. -/
theorem deviceScan_stop (d : Nat) (file : List DeviceSection) (hd : ∀ sec ∈ file, d ≠ sec.device)
    (s : Scan) (hf : s.devicefound = true) : deviceScan (deviceBanner d) s (rowsOf file) = s := by
  cases file with
  | nil => rfl
  | cons sec file =>
    have hn : ¬ deviceBanner d <:+: bannerRow sec.device :=
      fun h => hd sec List.mem_cons_self ((deviceBanner_infix_iff d sec.device).mp h)
    rw [rowsOf, List.flatMap_cons, DeviceSection.rows, List.cons_append, deviceScan,
      if_pos (isBanner_bannerRow _), if_neg hn, if_pos hf]

theorem deviceScan_reach (pre : List DeviceSection) (d : Nat) (rest : List Row)
    (hd : ∀ sec ∈ pre, d ≠ sec.device) (s : Scan) (hf : s.devicefound = false)
    (hc : s.counting = false) :
    deviceScan (deviceBanner d) s (rowsOf pre ++ rest) =
      deviceScan (deviceBanner d) (s.advance (rowsOf pre).length) rest := by
  induction pre generalizing s with
  | nil => rfl
  | cons sec pre ih =>
    have hrest := ih (fun x hx => hd x (List.mem_cons_of_mem _ hx)) (s.advance sec.rows.length) hf hc
    rw [rowsOf, List.flatMap_cons, List.append_assoc, List.length_append,
      deviceScan_skip d sec _ (hd sec List.mem_cons_self) s hf hc, ← rowsOf, hrest,
      Scan.advance_advance]

/-- The section of every device, in the order of the file. -/
def spans : Nat → List DeviceSection → List (Nat × Nat)
  | _, [] => []
  | start, sec :: rest => sec.span start :: spans (start + sec.rows.length) rest

theorem length_spans (start : Nat) (file : List DeviceSection) :
    (spans start file).length = file.length := by
  induction file generalizing start with
  | nil => rfl
  | cons sec file ih => simp only [spans, List.length_cons, ih]

/-- `main` finds the section of a device wherever it stands in the file. -/
theorem mainSection_eq (pre post : List DeviceSection) (sec : DeviceSection)
    (hn : ((pre ++ sec :: post).map DeviceSection.device).Nodup) :
    mainSection sec.device (rowsOf (pre ++ sec :: post)) = sec.span (rowsOf pre).length := by
  rw [List.map_append, List.map_cons, List.nodup_append] at hn
  obtain ⟨-, hpost, hpre⟩ := hn
  have h₁ : ∀ x ∈ pre, sec.device ≠ x.device := fun x hx =>
    (hpre _ (List.mem_map_of_mem hx) _ List.mem_cons_self).symm
  have h₂ : ∀ x ∈ post, sec.device ≠ x.device := by
    intro x hx he
    exact (List.nodup_cons.mp hpost).1 (he ▸ List.mem_map_of_mem hx)
  have hrows : rowsOf (pre ++ sec :: post) = rowsOf pre ++ (sec.rows ++ rowsOf post) := by
    simp only [rowsOf, List.flatMap_append, List.flatMap_cons]
  obtain ⟨e, he⟩ := deviceScan_own sec (rowsOf post) (Scan.advance {} (rowsOf pre).length)
  rw [mainSection, hrows, deviceScan_reach pre _ _ h₁ _ rfl rfl, he, deviceScan_stop _ _ h₂ _ rfl]
  simp only [Scan.advance, Nat.zero_add, DeviceSection.span]

theorem map_mainSection (file : List DeviceSection)
    (hn : (file.map DeviceSection.device).Nodup) :
    file.map (fun sec => mainSection sec.device (rowsOf file)) = spans 0 file := by
  suffices h : ∀ pre post, file = pre ++ post →
      post.map (fun sec => mainSection sec.device (rowsOf file)) =
        spans (rowsOf pre).length post from h [] file rfl
  intro pre post hf
  induction post generalizing pre with
  | nil => rfl
  | cons sec post ih =>
    have hrest := ih (pre ++ [sec]) (by rw [hf, List.append_assoc, List.singleton_append])
    have hlen : (rowsOf (pre ++ [sec])).length = (rowsOf pre).length + sec.rows.length := by
      simp only [rowsOf, List.flatMap_append, List.flatMap_cons, List.flatMap_nil,
        List.append_nil, List.length_append]
    rw [List.map_cons, spans, ← hlen, hrest, hf, mainSection_eq pre post sec (hf ▸ hn)]

theorem server_plain (rows : List Row) (hp : Plain rows) (s : ServerScan) :
    rows.foldl ServerScan.line s = { s with linenum := s.linenum + rows.length } := by
  induction rows generalizing s with
  | nil => rfl
  | cons row rows ih =>
    obtain ⟨hb, hh⟩ := hp row List.mem_cons_self
    have hl : s.line row = { s with linenum := s.linenum + 1 } := by
      simp [ServerScan.line, hb, hh]
    rw [List.foldl_cons, hl, ih (fun r hr => hp r (List.mem_cons_of_mem _ hr))]
    simp only [List.length_cons, Nat.add_assoc, Nat.add_comm 1]

/-- A whole section flips the flag of the server. The section that ended at the
banner is emitted only when the flag was set. -/
theorem server_section (sec : DeviceSection) (s : ServerScan) :
    ∃ e, sec.rows.foldl ServerScan.line s =
      { sections := if s.devicefound then s.sections ++ [(s.header, s.linenum)] else s.sections
        linenum := s.linenum + sec.rows.length
        header := (sec.span s.linenum).1
        devicefound := !s.devicefound
        eustall := e } := by
  refine ⟨s.eustall || chars "OtherStall[Events]" <:+: sec.headerRow, ?_⟩
  rw [sec.length_rows, DeviceSection.rows, List.foldl_cons, List.foldl_append,
    server_plain _ sec.preamble_plain, List.foldl_cons, server_plain _ sec.data_plain]
  cases hf : s.devicefound <;>
    simp [ServerScan.line, isHeader_bannerRow, isBanner_bannerRow, sec.header_ok, hf,
      DeviceSection.span, Nat.add_assoc]

/-- Every second section is lost, up to the last one. -/
def everySecond : List (Nat × Nat) → List (Nat × Nat)
  | a :: _ :: c :: rest => a :: everySecond (c :: rest)
  | l => l

/-- What the server emits from a state in which its flag is down. -/
theorem server_emits (file : List DeviceSection) (hne : file ≠ []) (s : ServerScan)
    (hf : s.devicefound = false) :
    let t := (rowsOf file).foldl ServerScan.line s
    t.sections ++ [(t.header, t.linenum)] = s.sections ++ everySecond (spans s.linenum file) := by
  induction hlen : file.length using Nat.strong_induction_on generalizing file s with
  | h n ih =>
    match file with
    | [] => exact absurd rfl hne
    | [a] =>
      obtain ⟨e, he⟩ := server_section a s
      simp [rowsOf, he, hf, spans, everySecond, DeviceSection.span]
    | [a, b] =>
      obtain ⟨e, he⟩ := server_section a s
      obtain ⟨e', he'⟩ := server_section b (a.rows.foldl ServerScan.line s)
      simp only [rowsOf, List.flatMap_cons, List.flatMap_nil, List.append_nil, List.foldl_append]
      rw [he', he]
      simp [hf, spans, everySecond, DeviceSection.span]
    | a :: b :: c :: rest =>
      obtain ⟨e, he⟩ := server_section a s
      obtain ⟨e', he'⟩ := server_section b (a.rows.foldl ServerScan.line s)
      rw [he] at he'
      have hrest := ih (c :: rest).length (by rw [← hlen]; simp) (c :: rest) (by simp)
        ((a.rows ++ b.rows).foldl ServerScan.line s) (by rw [List.foldl_append, he, he']; simp [hf])
        rfl
      have hrows : rowsOf (a :: b :: c :: rest) = (a.rows ++ b.rows) ++ rowsOf (c :: rest) := by
        simp only [rowsOf, List.flatMap_cons, List.append_assoc]
      rw [hrows, List.foldl_append]
      refine hrest.trans ?_
      rw [List.foldl_append, he, he']
      simp [hf, spans, everySecond, DeviceSection.span, Nat.add_assoc]

theorem everySecond_eq_self_iff (l : List (Nat × Nat)) : everySecond l = l ↔ l.length ≤ 2 := by
  have hle (l : List (Nat × Nat)) : (everySecond l).length ≤ l.length := by
    induction l using everySecond.induct with
    | case1 a b c rest ih => simp only [everySecond, List.length_cons] at ih ⊢; omega
    | case2 l hl => rw [everySecond]; exact hl
  match l with
  | [] => simp [everySecond]
  | [a] => simp [everySecond]
  | [a, b] => simp [everySecond]
  | a :: b :: c :: rest =>
    have hlt : (everySecond (a :: b :: c :: rest)).length < (a :: b :: c :: rest).length := by
      have := hle (c :: rest)
      simp only [everySecond, List.length_cons] at this ⊢
      omega
    constructor
    · intro h
      rw [h] at hlt
      exact absurd hlt (Nat.lt_irrefl _)
    · intro h
      simp only [List.length_cons] at h
      omega

theorem serverSections_eq (file : List DeviceSection) (hne : file ≠ []) :
    serverSections (rowsOf file) = everySecond (spans 0 file) := server_emits file hne {} rfl

/-- The server lists the sections that `main` finds. -/
def SectionsAgree (file : List DeviceSection) : Prop :=
  serverSections (rowsOf file) = file.map (fun sec => mainSection sec.device (rowsOf file))

/-- The two scans agree on files of one or two devices and on no others: from the
third section on the toggled flag drops sections. -/
theorem sections_agree_iff (file : List DeviceSection) (hne : file ≠ [])
    (hn : (file.map DeviceSection.device).Nodup) : SectionsAgree file ↔ file.length ≤ 2 := by
  rw [SectionsAgree, serverSections_eq file hne, map_mainSection file hn, everySecond_eq_self_iff,
    length_spans]

/-- A section with one data row. -/
def oneRowSection (device : Nat) : DeviceSection where
  device := device
  preamble := [['\n']]
  headerRow := chars "Kernel,GpuTime[ns]\n"
  data := [chars "gemm,1\n"]
  preamble_plain := by decide +kernel
  header_ok := by decide +kernel
  data_plain := by decide +kernel

theorem sections_agree_two_devices :
    SectionsAgree [oneRowSection 0, oneRowSection 1] ↔ [oneRowSection 0, oneRowSection 1].length ≤ 2 :=
  sections_agree_iff [oneRowSection 0, oneRowSection 1] (by simp) (by decide)

/-- With three devices the section of the second one is missing. -/
theorem sections_disagree_three_devices :
    ¬ ∀ file : List DeviceSection, file ≠ [] → (file.map DeviceSection.device).Nodup →
      SectionsAgree file := by
  intro h
  have h₃ := h [oneRowSection 0, oneRowSection 1, oneRowSection 2] (by simp) (by decide)
  exact absurd (congrArg List.length h₃) (by decide +kernel)

end Unitrace.Metrics.DeviceSections
