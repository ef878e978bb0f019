import Unitrace.Lib.PyRepr
import Unitrace.Roofline.Points
import Unitrace.Roofline.Template

/-!
# The data points on the page

`add_to_html` looks for the name of a series from the start of the page. In front of the
entry of the series stand the title and the points that were inserted before.
-/
namespace Unitrace.Roofline.Html

open Unitrace.Lib.Text Unitrace.Lib.FindText Unitrace.Lib.PyRepr Unitrace.Lib.PyStr
open Unitrace.Lib.PyFloat (Number)
open Unitrace.Roofline.Points Unitrace.Roofline.Template

/-- Only the peak for `FP16` stays as it was read. -/
inductive Peak where
  | text (s : Str)
  | number (x : Number)

/-- A platform without its name. -/
structure Platform where
  FP16 : Peak
  FP16_XMX : Number
  FP32 : Number
  FP64 : Number
  BF16_XMX : Number
  GPU_MEMORY_BW : Number
  L3 : Number

/-- `getattr(platform, precision)` -/
def Platform.peak (platform : Platform) : Precision → Peak
  | .FP16 => platform.FP16
  | .FP16_XMX => .number platform.FP16_XMX
  | .BF16_XMX => .number platform.BF16_XMX
  | .FP32 => .number platform.FP32
  | .FP64 => .number platform.FP64

def addToHtml (htmlStr sep : Str) (dataToAdd : List Str) : Str :=
  let startIndex := find htmlStr sep 0 + sep.length
  let endIndex := find htmlStr [']'] startIndex.toNat
  let newStr := List.intercalate (chars ",\n\t\t") dataToAdd
  sliceTo htmlStr endIndex ++ newStr ++ sliceFrom htmlStr endIndex

/-- The text of a dictionary with these keys and texts of values. -/
def dictText (items : List (Str × Str)) : Str :=
  '\x7b' :: (List.intercalate [',', ' ']
    (items.map fun item => '\'' :: (item.1 ++ '\'' :: ':' :: ' ' :: item.2)) ++ ['\x7d'])

def roofText (x y : Number) : Str :=
  dictText [(chars "x", floatRepr x), (chars "y", floatRepr y)]

section Code

variable (A : Arithmetic Number) (printable : Char → Bool)

def pointText (point : Point Number) : Str :=
  dictText [(chars "label", strRepr printable point.label), (chars "x", floatRepr point.x),
    (chars "y", floatRepr point.y), (chars "markerSize", floatRepr point.markerSize),
    (chars "originalY", floatRepr point.originalY), (chars "order", decimal point.order)]

/-- `min(x, peak)` -/
def minimum (x : Number) : Peak → Except PlotErr Number
  | .text _ => .error .typeError
  | .number peak => .ok (if A.lt peak x then peak else x)

/-- The logarithm of `1000000 / 0.001` is between 29 and 30. -/
def ai : List Number := (List.range (29 + 1)).map fun n => A.mul A.milli (A.ofNat (2 ^ n))

/-- The points of a roof, given the bandwidth. -/
def htmlPeak (bandwidth : Number) (peak : Peak) : Except PlotErr (List Str) := do
  let peaks ← (ai A).mapM fun x => minimum A (A.mul x bandwidth) peak
  pure (((ai A).zip peaks).map fun point => roofText point.1 point.2)

def plotHtmlRoofline (entryList : List (RooflineEntry Number)) (platform : Platform)
    (testCase : Str) : Except PlotErr Str := do
  let p := precision A entryList
  let html := replace htmlCode emptyTitle (fullTitle (testCase ++ chars "  " ++ p.name))
  let htmlPeakL3 ← htmlPeak A platform.L3 (platform.peak p)
  let htmlPeakGpuMemory ← htmlPeak A platform.GPU_MEMORY_BW (platform.peak p)
  let html := addToHtml html (chars "L3_ROOF") htmlPeakL3
  let html := addToHtml html (chars "Gpu_memory_ROOF") htmlPeakGpuMemory
  let s ← pointLoop A format2f p entryList
  let html := addToHtml html (chars "L3_data") (s.l3Roof.map (pointText printable))
  let html := addToHtml html (chars "Gpu_memory_data") (s.gpuMemoryRoof.map (pointText printable))
  pure html

/-- The page that is meant: the points of each series in the entry with its name. -/
def filledPage (entryList : List (RooflineEntry Number)) (platform : Platform) (testCase : Str) :
    Except PlotErr Str := do
  let p := precision A entryList
  let htmlPeakL3 ← htmlPeak A platform.L3 (platform.peak p)
  let htmlPeakGpuMemory ← htmlPeak A platform.GPU_MEMORY_BW (platform.peak p)
  let s ← pointLoop A format2f p entryList
  let joinPoints := List.intercalate (chars ",\n\t\t")
  pure (page (testCase ++ chars "  " ++ p.name) (joinPoints htmlPeakL3)
    (joinPoints htmlPeakGpuMemory) (joinPoints (s.l3Roof.map (pointText printable)))
    (joinPoints (s.gpuMemoryRoof.map (pointText printable))))

/-- No name of a series comes before its entry and makes the search stop too early. -/
structure Clear (entryList : List (RooflineEntry Number)) (testCase : Str) : Prop where
  l3Roof : ¬ Behind (chars "L3_ROOF") ']' testCase
  gpuMemoryRoof : ¬ chars "Gpu_memory_ROOF" <:+: testCase
  data : ∀ entry ∈ entryList, passes A (precision A entryList) entry = .ok true →
    ¬ chars "L3_data" <:+: testCase ∧ ¬ chars "Gpu_memory_data" <:+: testCase ∧
      ¬ chars "Gpu_memory_data" <:+: entry.kernelName

/-- No exception is raised before the page is written: the peak is a number, and so is what
is computed for the points. -/
structure Drawable (entryList : List (RooflineEntry Number)) (platform : Platform) : Prop where
  peak : ∃ x, platform.peak (precision A entryList) = .number x
  points : ∀ entry ∈ entryList, Plottable A (precision A entryList) entry

end Code

/-! ## One insertion -/

/-- The points of a series, one in a line. -/
abbrev joinPoints (points : List Str) : Str := List.intercalate (chars ",\n\t\t") points

theorem addToHtml_nil (s sep : Str) : addToHtml s sep [] = s := by
  have hnone : List.intercalate (chars ",\n\t\t") [] = [] := rfl
  rw [addToHtml, hnone, List.append_nil]
  exact List.take_append_drop _ _

theorem addToHtml_eq {s u sep v rest : Str} (hs : s = u ++ sep ++ v ++ ']' :: rest) (hv : ']' ∉ v)
    (hfirst : indexOf sep s = some u.length) (points : List Str) :
    addToHtml s sep points = u ++ sep ++ v ++ joinPoints points ++ ']' :: rest := by
  have hstart : find s sep 0 = (u.length : Int) := by
    rw [find, List.drop_zero, hfirst]
    exact congrArg Int.ofNat (Nat.zero_add u.length)
  have hend : find s [']'] (u.length + sep.length) = ((u ++ sep ++ v).length : Int) := by
    have hdrop : s.drop (u.length + sep.length) = v ++ ']' :: rest := by
      rw [hs, List.append_assoc (u ++ sep), ← List.length_append, List.drop_left]
    rw [find, hdrop, indexOf_singleton hv]
    simp only [List.length_append]
  have hcut : cut s ((u ++ sep ++ v).length : Int) = (u ++ sep ++ v).length := by
    rw [cut, if_neg (by omega), Int.toNat_natCast]
  have hnat : ((u.length : Int) + sep.length).toNat = u.length + sep.length := by omega
  rw [addToHtml, hstart, hnat, hend, sliceTo, sliceFrom, hcut, hs, List.take_left, List.drop_left]

section Insertion

variable {sep l : Str} (rest : Str) (points : List Str)

/-- The points go to the first bracket behind the text that ends with the name. -/
theorem addToHtml_right (hsep : sep <:+: l) (h : ¬ Behind sep ']' l) :
    addToHtml (l ++ ']' :: rest) sep points = l ++ joinPoints points ++ ']' :: rest := by
  obtain ⟨u, v, hl, hindex, -⟩ := exists_first hsep
  have hv : ']' ∉ v := fun hmem => h ⟨u, v, hl, hmem⟩
  have hfirst : indexOf sep (l ++ ']' :: rest) = some u.length := by
    rw [indexOf_append hsep, hindex]
  rw [addToHtml_eq (by rw [hl]) hv hfirst, ← hl]

/-- There is a bracket before that one. -/
theorem addToHtml_wrong (h : Behind sep ']' l) : ∃ a b, l = a ++ ']' :: b ∧
    addToHtml (l ++ ']' :: rest) sep points = a ++ joinPoints points ++ ']' :: (b ++ ']' :: rest) := by
  obtain ⟨u, v, hl, hindex, hleast⟩ := exists_first h.occurs
  have hv : ']' ∈ v := by
    obtain ⟨u', v', hl', hmem⟩ := h
    have hle := hleast u' v' hl'
    have hlen := congrArg List.length (hl.symm.trans hl')
    simp only [List.length_append] at hlen
    have hsuffix : v' <:+ v := List.suffix_of_suffix_length_le (hl' ▸ List.suffix_append _ _)
      (hl ▸ List.suffix_append _ _) (by omega)
    exact hsuffix.subset hmem
  have hfirst : indexOf sep (l ++ ']' :: rest) = some u.length := by
    rw [indexOf_append h.occurs, hindex]
  obtain ⟨w, x, rfl, hw⟩ := List.eq_append_cons_of_mem hv
  have hs : l ++ ']' :: rest = u ++ sep ++ w ++ ']' :: (x ++ ']' :: rest) := by
    simp only [hl, List.append_assoc, List.cons_append]
  exact ⟨u ++ sep ++ w, x, hl.trans (List.append_assoc _ _ _).symm, addToHtml_eq hs hw hfirst points⟩

end Insertion

/-- Wherever the points go, a bracket follows, or no more than one character. -/
theorem addToHtml_split (s sep : Str) (points : List Str) : ∃ a b, s = a ++ b ∧
    addToHtml s sep points = a ++ joinPoints points ++ b ∧ ([']'] <+: b ∨ b.length ≤ 1) := by
  refine ⟨_, _, (List.take_append_drop _ s).symm, rfl, ?_⟩
  generalize (find s sep 0 + sep.length).toNat = start
  rw [find]
  cases hindex : indexOf [']'] (s.drop start) with
  | none =>
    right
    rw [List.length_drop]
    show s.length - cut s (-1) ≤ 1
    rw [cut, if_pos (by decide)]
    omega
  | some i =>
    left
    have hbracket := prefix_of_indexOf hindex
    rw [List.drop_drop] at hbracket
    exact hbracket

/-! ## An insertion at a wrong place -/

/-- There are points where the expected text has a bracket. -/
def Diverges (s expected : Str) : Prop :=
  ∃ u v w, s = u ++ '\x7b' :: v ∧ v ≠ [] ∧ expected = u ++ ']' :: w

theorem Diverges.ne {s expected : Str} (h : Diverges s expected) : s ≠ expected := by
  obtain ⟨u, v, w, rfl, -, rfl⟩ := h
  intro heq
  have hhead := (List.cons.inj (List.append_cancel_left heq)).1
  exact absurd hhead (by decide)

/-- Points as texts of dictionaries. -/
def AreDicts (points : List Str) : Prop := ∀ text ∈ points, ∃ rest, text = '\x7b' :: rest

theorem AreDicts.joined {points : List Str} (h : AreDicts points) (hne : points ≠ []) :
    ∃ rest, joinPoints points = '\x7b' :: rest := by
  cases points with
  | nil => exact absurd rfl hne
  | cons text points =>
    obtain ⟨rest, rfl⟩ := h text List.mem_cons_self
    rw [joinPoints, intercalate_cons]
    exact ⟨_, rfl⟩

/-- What follows a place of insertion begins with a bracket, if it has more than one character. -/
theorem bracket_of_split {b rest : Str} {c : Char} (hb : [']'] <+: b ∨ b.length ≤ 1)
    (h : b = c :: rest) (hrest : rest ≠ []) : c = ']' := by
  rcases hb with hbracket | hshort
  · rw [h, List.cons_prefix_cons] at hbracket
    exact hbracket.1.symm
  · have hpos := List.length_pos_of_ne_nil hrest
    rw [h, List.length_cons] at hshort
    omega

/-- A later insertion does not make up for it. -/
theorem Diverges.addToHtml {s expected : Str} (h : Diverges s expected) (sep : Str)
    {points : List Str} (hpoints : AreDicts points) :
    Diverges (addToHtml s sep points) expected := by
  by_cases hne : points = []
  · rwa [hne, addToHtml_nil]
  obtain ⟨text, htext⟩ := hpoints.joined hne
  obtain ⟨u, v, w, hs, hv, rfl⟩ := h
  obtain ⟨a, b, hab, heq, hb⟩ := addToHtml_split s sep points
  have hbrace : b ≠ '\x7b' :: v := fun hbv => absurd (bracket_of_split hb hbv hv) (by decide)
  rw [heq, htext]
  rcases List.append_eq_append_iff.mp (hab.symm.trans hs) with ⟨x, hu, hx⟩ | ⟨x, ha, hx⟩
  · -- The insertion comes first, so it stands in the text that both begin with.
    cases x with
    | nil => exact absurd hx hbrace
    | cons c x =>
      have hc : c = ']' :=
        bracket_of_split hb hx (List.append_ne_nil_of_right_ne_nil _ (List.cons_ne_nil _ _))
      refine ⟨a, text ++ b, x ++ ']' :: w, ?_, ?_, ?_⟩
      · simp only [List.append_assoc, List.cons_append]
      · rw [hx]
        exact List.append_ne_nil_of_right_ne_nil _ (List.cons_ne_nil _ _)
      · rw [hu, hc, List.append_assoc, List.cons_append]
  · cases x with
    | nil => exact absurd hx.symm hbrace
    | cons c x =>
      obtain ⟨rfl, rfl⟩ := List.cons.inj hx
      refine ⟨u, x ++ '\x7b' :: text ++ b, w, ?_, ?_, rfl⟩
      · rw [ha]
        simp only [List.append_assoc, List.cons_append]
      · rw [List.append_assoc]
        exact List.append_ne_nil_of_right_ne_nil _ (List.cons_ne_nil _ _)

/-! ## The four insertions -/

/-- The page with these entries. -/
def pageOf (title : Str) (slots : List (Slot × Str)) : Str := titled title ++ (filled slots ++ ending)

/-- What stands before the bracket of an entry that is still empty. -/
def lead (title : Str) (done : List (Slot × Str)) (slot : Slot) : Str :=
  titled title ++ (filled done ++ slot.opening [])

theorem pageOf_eq (title : Str) (done later : List (Slot × Str)) (slot : Slot) (points : Str) :
    pageOf title (done ++ (slot, points) :: later) =
      lead title done slot ++ points ++ ']' :: '\n' :: (filled later ++ ending) := by
  have hfilled : filled (done ++ (slot, points) :: later) =
      filled done ++ (slot.opening [] ++ points ++ ']' :: '\n' :: filled later) := by
    rw [slot.opening_append]
    induction done with
    | nil => rfl
    | cons first done ih => simp only [List.cons_append, filled, ih, List.append_assoc]
  simp only [pageOf, lead, hfilled, List.append_assoc, List.cons_append]

/-- The search for the name stops before the entry, and there is something to insert. -/
def Spoiled (title : Str) (done : List (Slot × Str)) (slot : Slot) (points : List Str) : Prop :=
  points ≠ [] ∧ Behind slot.name ']' (lead title done slot)

section Insertion

variable {title : Str} {done : List (Slot × Str)} {slot : Slot} {points : List Str}

theorem insert_right (h : ¬ Spoiled title done slot points) (later : List (Slot × Str)) :
    addToHtml (pageOf title (done ++ (slot, []) :: later)) slot.name points =
      pageOf title (done ++ (slot, joinPoints points) :: later) := by
  by_cases hne : points = []
  · rw [hne, addToHtml_nil]
    rfl
  have hname : slot.name <:+: lead title done slot := by
    rw [lead]
    apply List.infix_append_of_infix_right
    apply List.infix_append_of_infix_right
    rw [infix_opening slot.isName]
    exact .inl (List.infix_refl _)
  have hclear : ¬ Behind slot.name ']' (lead title done slot) := fun hbehind => h ⟨hne, hbehind⟩
  rw [pageOf_eq, pageOf_eq, List.append_nil]
  exact addToHtml_right _ points hname hclear

theorem insert_wrong (h : Spoiled title done slot points) (hdicts : AreDicts points)
    (later later' : List (Slot × Str)) :
    Diverges (addToHtml (pageOf title (done ++ (slot, []) :: later)) slot.name points)
      (pageOf title (done ++ (slot, joinPoints points) :: later')) := by
  obtain ⟨hne, hbehind⟩ := h
  obtain ⟨text, htext⟩ := hdicts.joined hne
  rw [pageOf_eq, pageOf_eq, List.append_nil]
  obtain ⟨a, b, hlead, heq⟩ :=
    addToHtml_wrong ('\n' :: (filled later ++ ending)) points hbehind
  rw [heq, htext, hlead]
  refine ⟨a, text ++ ']' :: (b ++ ']' :: '\n' :: (filled later ++ ending)),
    b ++ '\x7b' :: (text ++ ']' :: '\n' :: (filled later' ++ ending)), ?_, ?_, ?_⟩
  · simp only [List.append_assoc, List.cons_append]
  · exact List.append_ne_nil_of_right_ne_nil _ (List.cons_ne_nil _ _)
  · simp only [List.append_assoc, List.cons_append]

end Insertion

/-- One insertion after the other. -/
def insertAll (html : Str) (entries : List (Slot × List Str)) : Str :=
  entries.foldl (fun html entry => addToHtml html entry.1.name entry.2) html

theorem insertAll_nil (html : Str) : insertAll html [] = html := rfl

theorem insertAll_cons (html : Str) (entry : Slot × List Str) (entries : List (Slot × List Str)) :
    insertAll html (entry :: entries) =
      insertAll (addToHtml html entry.1.name entry.2) entries := rfl

/-- No insertion is spoiled, given that those before it are right. -/
def Unspoiled (title : Str) : List (Slot × Str) → List (Slot × List Str) → Prop
  | _, [] => True
  | done, entry :: entries => ¬ Spoiled title done entry.1 entry.2 ∧
      Unspoiled title (done ++ [(entry.1, joinPoints entry.2)]) entries

theorem Diverges.insertAll {s expected : Str} (h : Diverges s expected)
    {entries : List (Slot × List Str)} (hdicts : ∀ entry ∈ entries, AreDicts entry.2) :
    Diverges (insertAll s entries) expected := by
  induction entries generalizing s with
  | nil => exact h
  | cons entry entries ih =>
    obtain ⟨hentry, hentries⟩ := List.forall_mem_cons.mp hdicts
    exact ih (h.addToHtml entry.1.name hentry) hentries

/-- The insertions fill the entries exactly if none of them is spoiled. -/
theorem insertAll_iff (title : Str) (done : List (Slot × Str)) (entries : List (Slot × List Str))
    (hdicts : ∀ entry ∈ entries, AreDicts entry.2) :
    insertAll (pageOf title (done ++ entries.map fun entry => (entry.1, []))) entries =
        pageOf title (done ++ entries.map fun entry => (entry.1, joinPoints entry.2)) ↔
      Unspoiled title done entries := by
  induction entries generalizing done with
  | nil =>
    rw [List.map_nil, List.map_nil, insertAll_nil]
    exact iff_of_true rfl trivial
  | cons entry entries ih =>
    obtain ⟨hentry, hentries⟩ := List.forall_mem_cons.mp hdicts
    rw [List.map_cons, List.map_cons, insertAll_cons, Unspoiled]
    by_cases h : Spoiled title done entry.1 entry.2
    · refine iff_of_false ?_ fun hclear => hclear.1 h
      exact ((insert_wrong h hentry _ _).insertAll hentries).ne
    · rw [insert_right h, and_iff_right h]
      have hrest := ih (done ++ [(entry.1, joinPoints entry.2)]) hentries
      rw [List.append_assoc, List.append_assoc, List.singleton_append, List.singleton_append] at hrest
      exact hrest

/-! ## The texts of the points -/

theorem notMem_intercalate {c : Char} {sep : Str} (hsep : c ∉ sep) {parts : List Str}
    (h : ∀ part ∈ parts, c ∉ part) : c ∉ List.intercalate sep parts := by
  cases parts with
  | nil => exact List.not_mem_nil
  | cons part parts =>
    obtain ⟨hpart, hparts⟩ := List.forall_mem_cons.mp h
    rw [intercalate_cons, List.mem_append, not_or]
    refine ⟨hpart, fun hmem => ?_⟩
    obtain ⟨next, hnext, hmem⟩ := List.mem_flatMap.mp hmem
    exact (List.mem_append.mp hmem).elim hsep (hparts next hnext)

theorem underscore_notMem_item {key value : Str} (hkey : '_' ∉ key) (hvalue : '_' ∉ value) :
    '_' ∉ '\'' :: (key ++ '\'' :: ':' :: ' ' :: value) := by
  simp only [List.mem_cons, List.mem_append, not_or]
  exact ⟨by decide, hkey, by decide, by decide, by decide, hvalue⟩

theorem underscore_notMem_dictText {items : List (Str × Str)}
    (h : ∀ item ∈ items, '_' ∉ item.1 ∧ '_' ∉ item.2) : '_' ∉ dictText items := by
  simp only [dictText, List.mem_cons, List.mem_append, not_or]
  refine ⟨by decide, notMem_intercalate (by decide) ?_, by decide, List.not_mem_nil⟩
  intro part hpart
  obtain ⟨item, hitem, rfl⟩ := List.mem_map.mp hpart
  exact underscore_notMem_item (h item hitem).1 (h item hitem).2

theorem underscore_notMem_floatRepr (x : Number) : '_' ∉ floatRepr x :=
  notMem_number rfl (isNumberChar_floatRepr x)

theorem underscore_notMem_roofText (x y : Number) : '_' ∉ roofText x y := by
  apply underscore_notMem_dictText
  simp only [List.forall_mem_cons, List.not_mem_nil, false_imp_iff, implies_true, and_true]
  refine ⟨⟨?_, underscore_notMem_floatRepr x⟩, ?_, underscore_notMem_floatRepr y⟩
  · rw [chars_ofList]
    decide
  · rw [chars_ofList]
    decide

theorem name_l3Roof : l3RoofSlot.name = 'L' :: chars "3_ROOF" := by
  show chars "L3_ROOF" = _
  rw [chars_ofList, chars_ofList]

theorem name_gpuMemoryRoof : gpuMemoryRoofSlot.name = 'G' :: chars "pu_memory_ROOF" := by
  show chars "Gpu_memory_ROOF" = _
  rw [chars_ofList, chars_ofList]

theorem name_l3Data : l3DataSlot.name = 'L' :: chars "3_data" := by
  show chars "L3_data" = _
  rw [chars_ofList, chars_ofList]

theorem name_gpuMemoryData : gpuMemoryDataSlot.name = 'G' :: chars "pu_memory_data" := by
  show chars "Gpu_memory_data" = _
  rw [chars_ofList, chars_ofList]

/-- The name stays as it is between quotes, and no escape makes one. -/
theorem infix_strRepr (printable : Char → Bool) (s : Str) :
    gpuMemoryDataSlot.name <:+: s.flatMap (escapeChar printable (quoteOf s)) ↔
      gpuMemoryDataSlot.name <:+: s := by
  have hquote : quoteOf s = '\'' ∨ quoteOf s = '"' := by
    rw [quoteOf]
    split
    · exact .inr rfl
    · exact .inl rfl
  have hplain : ∀ c ∈ 'G' :: chars "pu_memory_data", c ≠ '\'' ∧ c ≠ '"' ∧ c ≠ '\\' ∧
      32 ≤ c.toNat ∧ c.toNat < 127 := by
    rw [chars_ofList]
    decide
  rw [name_gpuMemoryData]
  apply infix_flatMap_iff (escapeChar_cases printable hquote)
  · rw [chars_ofList]
    decide
  · intro c hc
    obtain ⟨hsingle, hdouble, hslash, hlow, hhigh⟩ := hplain c hc
    refine escapeChar_plain printable ?_ hslash hlow hhigh
    rcases hquote with h | h
    · rwa [h]
    · rwa [h]

/-- Between other texts without underscores only what stands in the quotes can hold a name. -/
theorem infix_dictText {name : Str} (hname : IsName name) (printable : Char → Bool) {key : Str}
    (hkey : '_' ∉ key) (s : Str) {items : List (Str × Str)}
    (hitems : ∀ item ∈ items, '_' ∉ item.1 ∧ '_' ∉ item.2) :
    name <:+: dictText ((key, strRepr printable s) :: items) ↔
      name <:+: s.flatMap (escapeChar printable (quoteOf s)) := by
  have hquote : quoteOf s ∉ name := by
    rw [quoteOf]
    split <;> exact hname.notMem rfl
  have hparts : ∃ a b, '_' ∉ a ∧ '_' ∉ b ∧ dictText ((key, strRepr printable s) :: items) =
      a ++ quoteOf s :: (s.flatMap (escapeChar printable (quoteOf s)) ++ quoteOf s :: b) := by
    refine ⟨'\x7b' :: '\'' :: (key ++ ['\'', ':', ' ']), (items.map fun item =>
      '\'' :: (item.1 ++ '\'' :: ':' :: ' ' :: item.2)).flatMap (fun part => [',', ' '] ++ part) ++
        ['\x7d'], ?_, ?_, ?_⟩
    · simp only [List.mem_cons, List.mem_append, not_or]
      exact ⟨by decide, by decide, hkey, by decide, by decide, by decide, List.not_mem_nil⟩
    · rw [List.mem_append, not_or]
      refine ⟨fun hmem => ?_, by decide⟩
      obtain ⟨part, hpart, hmem⟩ := List.mem_flatMap.mp hmem
      obtain ⟨item, hitem, rfl⟩ := List.mem_map.mp hpart
      rcases List.mem_append.mp hmem with hmem | hmem
      · exact absurd hmem (by decide)
      · exact underscore_notMem_item (hitems item hitem).1 (hitems item hitem).2 hmem
    · simp only [dictText, strRepr, List.map_cons, intercalate_cons, List.append_assoc,
        List.cons_append, List.nil_append]
  obtain ⟨a, b, ha, hb, heq⟩ := hparts
  rw [heq, infix_append_cons hquote, or_iff_right (absent_of_notMem hname.underscore ha),
    infix_append_cons hquote, or_iff_left (absent_of_notMem hname.underscore hb)]

/-- Of a point only the label can hold the name. -/
theorem infix_pointText (printable : Char → Bool) (point : Point Number) :
    gpuMemoryDataSlot.name <:+: pointText printable point ↔
      gpuMemoryDataSlot.name <:+: point.label := by
  rw [pointText, infix_dictText gpuMemoryDataSlot.isName printable, infix_strRepr]
  · rw [chars_ofList]
    decide
  · simp only [List.forall_mem_cons, List.not_mem_nil, false_imp_iff, implies_true, and_true]
    refine ⟨⟨?_, underscore_notMem_floatRepr _⟩, ⟨?_, underscore_notMem_floatRepr _⟩,
      ⟨?_, underscore_notMem_floatRepr _⟩, ⟨?_, underscore_notMem_floatRepr _⟩,
      ?_, notMem_decimal rfl _⟩
    all_goals
      rw [chars_ofList]
      decide

theorem infix_label {name : Str} (hname : IsName name) (percentage : Number) (kernelName : Str) :
    name <:+: format2f percentage ++ chars "  % " ++ kernelName ↔ name <:+: kernelName := by
  have hsplit : chars "  % " = [' ', ' ', '%', ' '] := by rw [chars_ofList]
  have hcut : format2f percentage ++ chars "  % " ++ kernelName =
      (format2f percentage ++ [' ', ' ', '%']) ++ ' ' :: kernelName := by
    rw [hsplit]
    simp only [List.append_assoc, List.cons_append, List.nil_append]
  have hleft : '_' ∉ format2f percentage ++ [' ', ' ', '%'] := by
    rw [List.mem_append, not_or]
    exact ⟨notMem_number rfl (isNumberChar_format2f percentage), by decide⟩
  rw [hcut, infix_append_cons (hname.notMem rfl), or_iff_right (absent_of_notMem hname.underscore hleft)]

theorem infix_joinPoints {name : Str} (hname : IsName name) (points : List Str) :
    name <:+: joinPoints points ↔ ∃ text ∈ points, name <:+: text := by
  apply infix_intercalate
  · rintro rfl
    exact List.not_mem_nil hname.underscore
  · rw [chars_ofList]
    exact List.cons_ne_nil _ _
  · have hsep : ∀ c ∈ chars ",\n\t\t", isWordChar c = false := by
      rw [chars_ofList]
      decide
    exact fun c hc => hname.notMem (hsep c hc)

/-! ## When an insertion is spoiled -/

theorem spoiled_first {title : Str} {slot : Slot} {points : List Str} :
    Spoiled title [] slot points ↔ points ≠ [] ∧ Behind slot.name ']' title :=
  and_congr_right fun _ => behind_titled slot.isName slot.bracket_notMem

theorem spoiled_next {title : Str} {done : List (Slot × Str)} (hdone : done ≠ []) {slot : Slot}
    {points : List Str} : Spoiled title done slot points ↔ points ≠ [] ∧ (slot.name <:+: title ∨
      ∃ entry ∈ done, slot.name <:+: entry.1.name ∨ slot.name <:+: entry.2) := by
  rw [Spoiled, lead, behind_filled slot.isName slot.bracket_notMem hdone, infix_titled slot.isName,
    infix_filled slot.isName]

theorem precision_name_plain (p : Precision) : 'L' ∉ p.name ∧ 'G' ∉ p.name ∧ ']' ∉ p.name := by
  cases p <;> (rw [Precision.name, chars_ofList]; decide)

theorem title_eq (testCase : Str) (p : Precision) :
    testCase ++ chars "  " ++ p.name = testCase ++ ' ' :: ([] ++ ' ' :: p.name) := by
  rw [chars_ofList, List.append_assoc]
  rfl

/-- The title is the name of the test case and the precision. -/
theorem infix_title {name : Str} (hname : IsName name) (hletter : 'L' ∈ name ∨ 'G' ∈ name)
    (testCase : Str) (p : Precision) :
    name <:+: testCase ++ chars "  " ++ p.name ↔ name <:+: testCase := by
  obtain ⟨hl, hg, -⟩ := precision_name_plain p
  have hprecision : ¬ name <:+: p.name :=
    hletter.elim (fun h => absent_of_notMem h hl) (fun h => absent_of_notMem h hg)
  have hempty : ¬ name <:+: [] := absent_of_notMem hname.underscore List.not_mem_nil
  rw [title_eq, infix_append_cons (hname.notMem rfl), infix_append_cons (hname.notMem rfl),
    or_iff_right hempty, or_iff_left hprecision]

theorem behind_title {name : Str} (hname : IsName name) (testCase : Str) (p : Precision) :
    Behind name ']' (testCase ++ chars "  " ++ p.name) ↔ Behind name ']' testCase := by
  have hrest : ']' ∉ [] ++ ' ' :: p.name :=
    List.not_mem_cons_of_ne_of_not_mem (by decide) (precision_name_plain p).2.2
  rw [title_eq, behind_append_cons (hname.notMem rfl)]
  constructor
  · intro h
    rcases h with hbehind | ⟨-, hmem⟩ | hbehind
    · exact hbehind
    · exact absurd hmem (List.not_mem_cons_of_ne_of_not_mem (by decide) hrest)
    · exact absurd hbehind.mem hrest
  · exact .inl

/-- The entries with the points that the script inserts. -/
def series (l3Roof gpuMemoryRoof l3Data gpuMemoryData : List Str) : List (Slot × List Str) :=
  [(l3RoofSlot, l3Roof), (gpuMemoryRoofSlot, gpuMemoryRoof), (l3DataSlot, l3Data),
    (gpuMemoryDataSlot, gpuMemoryData)]

theorem names_apart : ¬ gpuMemoryRoofSlot.name <:+: l3RoofSlot.name ∧
    ¬ l3DataSlot.name <:+: l3RoofSlot.name ∧ ¬ l3DataSlot.name <:+: gpuMemoryRoofSlot.name ∧
    ¬ gpuMemoryDataSlot.name <:+: l3RoofSlot.name ∧
    ¬ gpuMemoryDataSlot.name <:+: gpuMemoryRoofSlot.name ∧
    ¬ gpuMemoryDataSlot.name <:+: l3DataSlot.name := by
  rw [name_l3Roof, name_gpuMemoryRoof, name_l3Data, name_gpuMemoryData, chars_ofList, chars_ofList,
    chars_ofList, chars_ofList]
  decide

/-- The four conditions, one for each insertion. -/
theorem unspoiled_iff {testCase : Str} {p : Precision} {l3Roof gpuMemoryRoof : List Str}
    (hl3 : l3Roof ≠ [] ∧ ∀ text ∈ l3Roof, '_' ∉ text)
    (hgpu : gpuMemoryRoof ≠ [] ∧ ∀ text ∈ gpuMemoryRoof, '_' ∉ text)
    (l3Data gpuMemoryData : List Str) :
    Unspoiled (testCase ++ chars "  " ++ p.name) []
        (series l3Roof gpuMemoryRoof l3Data gpuMemoryData) ↔
      ¬ Behind l3RoofSlot.name ']' testCase ∧ ¬ gpuMemoryRoofSlot.name <:+: testCase ∧
        (l3Data ≠ [] → ¬ l3DataSlot.name <:+: testCase) ∧
        (gpuMemoryData ≠ [] → ¬ (gpuMemoryDataSlot.name <:+: testCase ∨
          ∃ text ∈ l3Data, gpuMemoryDataSlot.name <:+: text)) := by
  have hclean {name : Str} (hname : IsName name) {points : List Str}
      (hpoints : ∀ text ∈ points, '_' ∉ text) : ¬ name <:+: joinPoints points := by
    rw [infix_joinPoints hname]
    intro h
    obtain ⟨text, htext, hfound⟩ := h
    exact absent_of_notMem hname.underscore (hpoints text htext) hfound
  obtain ⟨h21, h31, h32, h41, h42, h43⟩ := names_apart
  have hletter2 : 'G' ∈ gpuMemoryRoofSlot.name := by
    rw [name_gpuMemoryRoof]
    exact List.mem_cons_self
  have hletter3 : 'L' ∈ l3DataSlot.name := by
    rw [name_l3Data]
    exact List.mem_cons_self
  have hletter4 : 'G' ∈ gpuMemoryDataSlot.name := by
    rw [name_gpuMemoryData]
    exact List.mem_cons_self
  simp only [series, Unspoiled, List.nil_append, List.cons_append]
  rw [spoiled_first, behind_title l3RoofSlot.isName, spoiled_next (List.cons_ne_nil _ _),
    spoiled_next (List.cons_ne_nil _ _), spoiled_next (List.cons_ne_nil _ _),
    infix_title gpuMemoryRoofSlot.isName (.inr hletter2),
    infix_title l3DataSlot.isName (.inl hletter3),
    infix_title gpuMemoryDataSlot.isName (.inr hletter4)]
  simp only [List.exists_mem_cons_iff, List.not_mem_nil, false_and, exists_false, or_false, h21, h31,
    h32, h41, h42, h43, hclean gpuMemoryRoofSlot.isName hl3.2, hclean l3DataSlot.isName hl3.2,
    hclean l3DataSlot.isName hgpu.2, hclean gpuMemoryDataSlot.isName hl3.2,
    hclean gpuMemoryDataSlot.isName hgpu.2, false_or, infix_joinPoints gpuMemoryDataSlot.isName,
    hl3.1, hgpu.1, ne_eq, not_false_iff, true_and, and_true, not_and]

theorem insertAll_series (html : Str) (l3Roof gpuMemoryRoof l3Data gpuMemoryData : List Str) :
    insertAll html (series l3Roof gpuMemoryRoof l3Data gpuMemoryData) =
      addToHtml (addToHtml (addToHtml (addToHtml html (chars "L3_ROOF") l3Roof)
        (chars "Gpu_memory_ROOF") gpuMemoryRoof) (chars "L3_data") l3Data)
        (chars "Gpu_memory_data") gpuMemoryData := rfl

theorem pageOf_empty (title : Str) (l3Roof gpuMemoryRoof l3Data gpuMemoryData : List Str) :
    pageOf title ((series l3Roof gpuMemoryRoof l3Data gpuMemoryData).map fun entry =>
      (entry.1, [])) = page title [] [] [] [] := rfl

theorem pageOf_series (title : Str) (l3Roof gpuMemoryRoof l3Data gpuMemoryData : List Str) :
    pageOf title ((series l3Roof gpuMemoryRoof l3Data gpuMemoryData).map fun entry =>
        (entry.1, joinPoints entry.2)) =
      page title (joinPoints l3Roof) (joinPoints gpuMemoryRoof) (joinPoints l3Data)
        (joinPoints gpuMemoryData) := rfl

/-- The run of the four insertions. -/
theorem insertAll_series_iff (title : Str) {l3Roof gpuMemoryRoof l3Data gpuMemoryData : List Str}
    (hdicts : ∀ entry ∈ series l3Roof gpuMemoryRoof l3Data gpuMemoryData, AreDicts entry.2) :
    insertAll (page title [] [] [] []) (series l3Roof gpuMemoryRoof l3Data gpuMemoryData) =
        page title (joinPoints l3Roof) (joinPoints gpuMemoryRoof) (joinPoints l3Data)
          (joinPoints gpuMemoryData) ↔
      Unspoiled title [] (series l3Roof gpuMemoryRoof l3Data gpuMemoryData) := by
  have hiff := insertAll_iff title [] (series l3Roof gpuMemoryRoof l3Data gpuMemoryData) hdicts
  rw [List.nil_append, List.nil_append, pageOf_empty, pageOf_series] at hiff
  exact hiff

/-! ## The whole page -/

section Page

variable {A : Arithmetic Number} {printable : Char → Bool} {entryList : List (RooflineEntry Number)}
  {platform : Platform} {testCase : Str}

theorem ai_eq_cons (A : Arithmetic Number) : ∃ x rest, ai A = x :: rest := ⟨_, _, rfl⟩

/-- The minimum of a number and a text is an exception. -/
theorem exists_htmlPeak_iff {bandwidth : Number} {peak : Peak} :
    (∃ texts, htmlPeak A bandwidth peak = .ok texts) ↔ ∃ x, peak = .number x := by
  cases peak with
  | text s =>
    obtain ⟨x, rest, hai⟩ := ai_eq_cons A
    refine iff_of_false (fun h => ?_) (fun h => ?_)
    · obtain ⟨texts, h⟩ := h
      rw [htmlPeak, hai, List.mapM_cons] at h
      cases h
    · obtain ⟨x, hx⟩ := h
      cases hx
  | number x =>
    have hpeaks (xs : List Number) :
        ∃ ys, xs.mapM (fun y => minimum A (A.mul y bandwidth) (.number x)) = .ok ys := by
      induction xs with
      | nil => exact ⟨[], rfl⟩
      | cons y xs ih =>
        obtain ⟨ys, hys⟩ := ih
        rw [List.mapM_cons, hys]
        exact ⟨_, rfl⟩
    obtain ⟨ys, hys⟩ := hpeaks (ai A)
    refine iff_of_true ?_ ⟨x, rfl⟩
    rw [htmlPeak, hys]
    exact ⟨_, rfl⟩

/-- The script raises an exception, or it makes its four insertions. -/
theorem plot_cases (A : Arithmetic Number) (printable : Char → Bool)
    (entryList : List (RooflineEntry Number)) (platform : Platform) (testCase : Str) :
    (∃ e, plotHtmlRoofline A printable entryList platform testCase = .error e ∧
      filledPage A printable entryList platform testCase = .error e) ∨
    ∃ l3Roof gpuMemoryRoof s,
      htmlPeak A platform.L3 (platform.peak (precision A entryList)) = .ok l3Roof ∧
      htmlPeak A platform.GPU_MEMORY_BW (platform.peak (precision A entryList)) =
        .ok gpuMemoryRoof ∧
      pointLoop A format2f (precision A entryList) entryList = .ok s ∧
      plotHtmlRoofline A printable entryList platform testCase =
        .ok (insertAll (page (testCase ++ chars "  " ++ (precision A entryList).name) [] [] [] [])
          (series l3Roof gpuMemoryRoof (s.l3Roof.map (pointText printable))
            (s.gpuMemoryRoof.map (pointText printable)))) ∧
      filledPage A printable entryList platform testCase =
        .ok (page (testCase ++ chars "  " ++ (precision A entryList).name) (joinPoints l3Roof)
          (joinPoints gpuMemoryRoof) (joinPoints (s.l3Roof.map (pointText printable)))
          (joinPoints (s.gpuMemoryRoof.map (pointText printable)))) := by
  simp only [plotHtmlRoofline, filledPage, replace_title]
  cases hl3 : htmlPeak A platform.L3 (platform.peak (precision A entryList)) with
  | error e => exact .inl ⟨e, rfl, rfl⟩
  | ok l3Roof =>
    cases hgpu : htmlPeak A platform.GPU_MEMORY_BW (platform.peak (precision A entryList)) with
    | error e => exact .inl ⟨e, rfl, rfl⟩
    | ok gpuMemoryRoof =>
      cases hloop : pointLoop A format2f (precision A entryList) entryList with
      | error e => exact .inl ⟨e, rfl, rfl⟩
      | ok s =>
        refine .inr ⟨l3Roof, gpuMemoryRoof, s, rfl, rfl, rfl, ?_, rfl⟩
        rw [insertAll_series]
        rfl

theorem htmlPeak_plain {bandwidth : Number} {peak : Peak} {texts : List Str}
    (h : htmlPeak A bandwidth peak = .ok texts) :
    (texts ≠ [] ∧ ∀ text ∈ texts, '_' ∉ text) ∧ AreDicts texts := by
  obtain ⟨peaks, hpeaks, h⟩ := bind_eq_ok h
  cases h
  have hne : ((ai A).zip peaks).map (fun point => roofText point.1 point.2) ≠ [] := by
    obtain ⟨x, rest, hai⟩ := ai_eq_cons A
    rw [hai, List.mapM_cons] at hpeaks
    obtain ⟨y, -, hpeaks⟩ := bind_eq_ok hpeaks
    obtain ⟨ys, -, hpeaks⟩ := bind_eq_ok hpeaks
    cases hpeaks
    rw [hai]
    exact List.cons_ne_nil _ _
  refine ⟨⟨hne, ?_⟩, ?_⟩
  · intro text htext
    obtain ⟨point, -, rfl⟩ := List.mem_map.mp htext
    exact underscore_notMem_roofText _ _
  · intro text htext
    obtain ⟨point, -, rfl⟩ := List.mem_map.mp htext
    exact ⟨_, rfl⟩

theorem areDicts_points (points : List (Point Number)) :
    AreDicts (points.map (pointText printable)) := by
  intro text htext
  obtain ⟨point, -, rfl⟩ := List.mem_map.mp htext
  exact ⟨_, rfl⟩

/-- There are points exactly if a kernel is plotted. -/
theorem points_ne_nil_iff {s : Series Number}
    (hs : Plots A format2f (precision A entryList) entryList s) :
    s.l3Roof.map (pointText printable) ≠ [] ↔
      ∃ entry ∈ entryList, passes A (precision A entryList) entry = .ok true := by
  rw [ne_eq, List.map_eq_nil_iff]
  constructor
  · intro hne
    obtain ⟨point, hpoint⟩ := List.exists_mem_of_ne_nil _ hne
    obtain ⟨entry, hentry, hpass, -⟩ := hs.named point hpoint
    exact ⟨entry, hentry, hpass⟩
  · intro h
    obtain ⟨entry, hentry, hpass⟩ := h
    obtain ⟨point, hpoint, -⟩ := hs.plotted entry hentry hpass
    exact List.ne_nil_of_mem hpoint

/-- A point holds the name exactly if its kernel does. -/
theorem points_infix_iff {s : Series Number}
    (hs : Plots A format2f (precision A entryList) entryList s) :
    (∃ text ∈ s.l3Roof.map (pointText printable), gpuMemoryDataSlot.name <:+: text) ↔
      ∃ entry ∈ entryList, passes A (precision A entryList) entry = .ok true ∧
        gpuMemoryDataSlot.name <:+: entry.kernelName := by
  have hlabel {point : Point Number} {percentage : Number} {entry : RooflineEntry Number}
      (h : point.label = format2f percentage ++ chars "  % " ++ entry.kernelName) :
      gpuMemoryDataSlot.name <:+: pointText printable point ↔
        gpuMemoryDataSlot.name <:+: entry.kernelName := by
    rw [infix_pointText, h, infix_label gpuMemoryDataSlot.isName]
  constructor
  · intro h
    obtain ⟨text, htext, hfound⟩ := h
    obtain ⟨point, hpoint, rfl⟩ := List.mem_map.mp htext
    obtain ⟨entry, hentry, hpass, percentage, hpointLabel⟩ := hs.named point hpoint
    exact ⟨entry, hentry, hpass, (hlabel hpointLabel).mp hfound⟩
  · intro h
    obtain ⟨entry, hentry, hpass, hfound⟩ := h
    obtain ⟨point, hpoint, percentage, hpointLabel⟩ := hs.plotted entry hentry hpass
    exact ⟨_, List.mem_map_of_mem hpoint, (hlabel hpointLabel).mpr hfound⟩

/-- The conditions on the points are conditions on the plotted kernels. -/
theorem data_iff {s : Series Number} (hs : Plots A format2f (precision A entryList) entryList s) :
    ((s.l3Roof.map (pointText printable) ≠ [] → ¬ l3DataSlot.name <:+: testCase) ∧
      (s.gpuMemoryRoof.map (pointText printable) ≠ [] → ¬ (gpuMemoryDataSlot.name <:+: testCase ∨
        ∃ text ∈ s.l3Roof.map (pointText printable), gpuMemoryDataSlot.name <:+: text))) ↔
      ∀ entry ∈ entryList, passes A (precision A entryList) entry = .ok true →
        ¬ l3DataSlot.name <:+: testCase ∧ ¬ gpuMemoryDataSlot.name <:+: testCase ∧
          ¬ gpuMemoryDataSlot.name <:+: entry.kernelName := by
  have hnil : s.gpuMemoryRoof.map (pointText printable) ≠ [] ↔
      s.l3Roof.map (pointText printable) ≠ [] := by
    rw [ne_eq, ne_eq, List.map_eq_nil_iff, List.map_eq_nil_iff, ← List.length_eq_zero_iff,
      ← List.length_eq_zero_iff, hs.sameLength]
  rw [hnil, points_ne_nil_iff hs, points_infix_iff hs]
  constructor
  · intro h entry hentry hpass
    obtain ⟨hl3, hgpu⟩ := h
    have hplotted := hgpu ⟨entry, hentry, hpass⟩
    exact ⟨hl3 ⟨entry, hentry, hpass⟩, fun hfound => hplotted (.inl hfound),
      fun hfound => hplotted (.inr ⟨entry, hentry, hpass, hfound⟩)⟩
  · intro h
    constructor
    · intro hplotted
      obtain ⟨entry, hentry, hpass⟩ := hplotted
      exact (h entry hentry hpass).1
    · intro hplotted hfound
      obtain ⟨entry, hentry, hpass⟩ := hplotted
      rcases hfound with hfound | ⟨other, hother, hpassOther, hfound⟩
      · exact (h entry hentry hpass).2.1 hfound
      · exact (h other hother hpassOther).2.2 hfound

theorem fills_page_of_ok {html : Str}
    (h : plotHtmlRoofline A printable entryList platform testCase = .ok html) :
    plotHtmlRoofline A printable entryList platform testCase =
        filledPage A printable entryList platform testCase ↔ Clear A entryList testCase := by
  rcases plot_cases A printable entryList platform testCase with ⟨e, he, -⟩ |
    ⟨l3Roof, gpuMemoryRoof, s, hl3, hgpu, hloop, hplot, hfilled⟩
  · rw [he] at h
    cases h
  · obtain ⟨hl3Plain, hl3Dicts⟩ := htmlPeak_plain hl3
    obtain ⟨hgpuPlain, hgpuDicts⟩ := htmlPeak_plain hgpu
    have hdicts : ∀ entry ∈ series l3Roof gpuMemoryRoof (s.l3Roof.map (pointText printable))
        (s.gpuMemoryRoof.map (pointText printable)), AreDicts entry.2 := by
      simp only [series, List.forall_mem_cons, List.not_mem_nil, false_imp_iff, implies_true,
        and_true]
      exact ⟨hl3Dicts, hgpuDicts, areDicts_points _, areDicts_points _⟩
    rw [hplot, hfilled, Except.ok.injEq, insertAll_series_iff _ hdicts,
      unspoiled_iff hl3Plain hgpuPlain, data_iff (plots_pointLoop hloop)]
    constructor
    · intro hclear
      exact ⟨hclear.1, hclear.2.1, hclear.2.2⟩
    · intro hclear
      exact ⟨hclear.l3Roof, hclear.gpuMemoryRoof, hclear.data⟩

variable (printable testCase) in
theorem drawable_iff : Drawable A entryList platform ↔
    ∃ html, plotHtmlRoofline A printable entryList platform testCase = .ok html := by
  have hloop : (∃ s, pointLoop A format2f (precision A entryList) entryList = .ok s) ↔
      ∀ entry ∈ entryList, Plottable A (precision A entryList) entry :=
    exists_foldlM_iff exists_addPoints_iff entryList {}
  constructor
  · intro h
    have hroof (bandwidth : Number) :
        ∃ texts, htmlPeak A bandwidth (platform.peak (precision A entryList)) = .ok texts :=
      exists_htmlPeak_iff.mpr h.peak
    obtain ⟨l3Roof, hl3⟩ := hroof platform.L3
    obtain ⟨gpuMemoryRoof, hgpu⟩ := hroof platform.GPU_MEMORY_BW
    obtain ⟨s, hs⟩ := hloop.mpr h.points
    simp only [plotHtmlRoofline, hl3, hgpu, hs]
    exact ⟨_, rfl⟩
  · intro h
    obtain ⟨html, hhtml⟩ := h
    rcases plot_cases A printable entryList platform testCase with ⟨e, he, -⟩ |
      ⟨l3Roof, -, s, hl3, -, hs, -, -⟩
    · rw [he] at hhtml
      cases hhtml
    · exact ⟨exists_htmlPeak_iff.mp ⟨l3Roof, hl3⟩, hloop.mp ⟨s, hs⟩⟩

/-- Unless it raises an exception, the script writes the page that is meant exactly if the
names are clear. -/
theorem fills_page_iff (A : Arithmetic Number) (printable : Char → Bool)
    (entryList : List (RooflineEntry Number)) (platform : Platform) (testCase : Str) :
    plotHtmlRoofline A printable entryList platform testCase =
        filledPage A printable entryList platform testCase ↔
      (Drawable A entryList platform → Clear A entryList testCase) := by
  rw [drawable_iff printable testCase]
  cases hplot : plotHtmlRoofline A printable entryList platform testCase with
  | error e =>
    refine iff_of_true ?_ ?_
    · rcases plot_cases A printable entryList platform testCase with ⟨e', he, hfilled⟩ |
        ⟨_, _, _, _, _, _, hreturns, -⟩
      · rw [← hplot, he, hfilled]
      · rw [hreturns] at hplot
        cases hplot
    · intro hreturns
      obtain ⟨html, hhtml⟩ := hreturns
      cases hhtml
  | ok html =>
    rw [← hplot, fills_page_of_ok hplot]
    constructor
    · intro hclear _
      exact hclear
    · intro h
      exact h ⟨html, hplot⟩

end Page

/-- The floats of the language, with some logarithm. -/
def floatArithmetic (log : Number → Number) : Arithmetic Number where
  ofNat n := Number.ofDecimal false n 0
  milli := Number.ofDecimal false 1 (-3)
  add := Number.add
  mul := Number.mul
  div x y := if y.isZero then .error .zeroDivisionError else .ok (x.div y)
  lt := Number.lt
  log x :=
    if x.isZero || x.lt (Number.ofDecimal false 0 0) then .error .valueError else .ok (log x)

/-- The logarithm of 100 is the only one that is needed here. -/
def witnessArithmetic : Arithmetic Number :=
  floatArithmetic fun _ => Number.ofDecimal false 4605170185988092 (-15)

def pvcOneTile : Platform where
  FP16 := .text (chars "39000")
  FP16_XMX := Number.ofDecimal false 314000 0
  FP32 := Number.ofDecimal false 32000 0
  FP64 := Number.ofDecimal false 32000 0
  BF16_XMX := Number.ofDecimal false 314000 0
  GPU_MEMORY_BW := Number.ofDecimal false 1055 0
  L3 := Number.ofDecimal false 2043 0

def gemm : RooflineEntry Number where
  kernelName := chars "gemm"
  L3 := Number.ofDecimal false 64 0
  gpuMemory := Number.ofDecimal false 64 0
  FP64 := Number.ofDecimal false 0 0
  FP32 := Number.ofDecimal false 32 0
  FP16 := Number.ofDecimal false 0 0
  FP16_XMX := Number.ofDecimal false 0 0
  BF16_XMX := Number.ofDecimal false 0 0
  kernelTime := Number.ofDecimal false 100 0
  totalGpuTime := Number.ofDecimal false 100 0

/-- The points of the second roof go to the entry of the first one. -/
theorem named_test_case_misplaced :
    plotHtmlRoofline witnessArithmetic (fun _ => true) [gemm] pvcOneTile
        (chars "Gpu_memory_ROOF") ≠
      filledPage witnessArithmetic (fun _ => true) [gemm] pvcOneTile (chars "Gpu_memory_ROOF") := by
  have hprecision : precision witnessArithmetic [gemm] = .FP32 := by decide +kernel
  have hreturns : ∃ html, plotHtmlRoofline witnessArithmetic (fun _ => true) [gemm] pvcOneTile
      (chars "Gpu_memory_ROOF") = .ok html := by
    have hroof (bandwidth : Number) : ∃ texts,
        htmlPeak witnessArithmetic bandwidth (.number pvcOneTile.FP32) = .ok texts :=
      exists_htmlPeak_iff.mpr ⟨_, rfl⟩
    obtain ⟨l3Roof, hl3⟩ := hroof pvcOneTile.L3
    obtain ⟨gpuMemoryRoof, hgpu⟩ := hroof pvcOneTile.GPU_MEMORY_BW
    have hloop : (pointLoop witnessArithmetic format2f .FP32 [gemm]).isOk = true := by
      decide +kernel
    cases hs : pointLoop witnessArithmetic format2f .FP32 [gemm] with
    | error e =>
      rw [hs] at hloop
      cases hloop
    | ok s =>
      simp only [plotHtmlRoofline, hprecision, Platform.peak, hl3, hgpu, hs]
      exact ⟨_, rfl⟩
  obtain ⟨html, hhtml⟩ := hreturns
  rw [ne_eq, fills_page_of_ok hhtml]
  exact fun hclear => hclear.gpuMemoryRoof (List.infix_refl _)

end Unitrace.Roofline.Html
