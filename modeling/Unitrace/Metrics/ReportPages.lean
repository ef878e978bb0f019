import Unitrace.Lib.Paging
import Unitrace.Lib.Text

/-!
# The pages of the stall report

The report is written on pages of the PDF, in lines of at most `line_width`
characters. The pages count the lines that are added to them; an empty line is added
as a line break that is followed by another one.
-/
namespace Unitrace.Metrics.ReportPages

open Unitrace.Lib.Text Unitrace.Lib.Paging

def pageSize : Nat := 48

def lineWidth : Nat := 160

/-- The variables of the loop, and the pages that have been drawn. -/
structure Writing where
  drawn : List Str := []
  page : Str := []
  num : Nat := 0

/-- Adds a part of a line to the page, which is drawn if that fills it. -/
def Writing.put (w : Writing) (part : Str) : Writing :=
  let page := w.page ++ part ++ ['\n']
  let num := w.num + 1
  if num = pageSize then { drawn := w.drawn ++ [page] } else { w with page, num }

/-- The loop over a line; `rest` is `line[s:]`. -/
def Writing.writeLine (w : Writing) (rest : Str) : Writing :=
  if lineWidth < rest.length then (w.put (rest.take lineWidth)).writeLine (rest.drop lineWidth)
  else if rest ≠ [] then w.put rest
  else w
termination_by rest.length
decreasing_by
  rw [List.length_drop]
  have : 0 < lineWidth := by decide
  omega

/-- The pages of the report, before the dollar signs are escaped. -/
def reportPages (report : Str) : List Str :=
  let w := (report.splitOn '\n').foldl
    (fun w line => w.writeLine (if line = [] then ['\n'] else line)) ({} : Writing)
  if w.num ≠ 0 then w.drawn ++ [w.page] else w.drawn

/-! ## The lines of the pages -/

/-- The parts that a line is cut into. -/
def cut (rest : Str) : List Str :=
  if lineWidth < rest.length then rest.take lineWidth :: cut (rest.drop lineWidth)
  else if rest ≠ [] then [rest]
  else []
termination_by rest.length
decreasing_by
  rw [List.length_drop]
  have : 0 < lineWidth := by decide
  omega

/-- The lines that a line of the report is displayed as; an empty one stays. -/
def linesOf (line : Str) : List Str := if line = [] then [[]] else cut line

/-- The lines of the report as they are to be displayed. -/
def displayLines (report : Str) : List Str :=
  (report.splitOn '\n').flatMap linesOf

/-- What is added to a page for a line. -/
def added (line : Str) : Str := if line = [] then ['\n'] else line

/-- The text of a page with these lines. -/
def pageText (lines : List Str) : Str := lines.flatMap fun line => added line ++ ['\n']

/-- The loop has put the lines on pages. -/
structure Shows (w : Writing) (s : Pages Str pageSize) : Prop where
  drawn : w.drawn = s.full.map pageText
  page : w.page = pageText s.rest
  num : w.num = s.rest.length

theorem Shows.put {w : Writing} {s : Pages Str pageSize} (h : Shows w s) (line : Str) :
    Shows (w.put (added line)) (s.add line) := by
  have hpage : w.page ++ added line ++ ['\n'] = pageText (s.rest ++ [line]) := by
    rw [h.page, pageText, pageText, List.flatMap_append, List.flatMap_singleton, List.append_assoc]
  unfold Writing.put Pages.add
  by_cases hfull : s.rest.length + 1 = pageSize
  · rw [if_pos (by rw [h.num]; exact hfull), dif_pos hfull, hpage, h.drawn]
    exact ⟨by rw [List.map_append, List.map_singleton], rfl, rfl⟩
  · rw [if_neg (by rw [h.num]; exact hfull), dif_neg hfull, hpage, h.num]
    exact ⟨h.drawn, rfl, by rw [List.length_append, List.length_singleton]⟩

theorem flatten_cut (rest : Str) : (cut rest).flatten = rest := by
  fun_induction cut rest with
  | case1 rest h ih => rw [List.flatten_cons, ih, List.take_append_drop]
  | case2 rest h hne => exact List.flatten_singleton
  | case3 rest h hempty => exact (not_not.mp hempty).symm

theorem take_lineWidth {rest : Str} (h : lineWidth < rest.length) :
    rest.take lineWidth ≠ [] ∧ (rest.take lineWidth).length = lineWidth := by
  have hlen : (rest.take lineWidth).length = lineWidth :=
    List.length_take_of_le (Nat.le_of_lt h)
  refine ⟨List.ne_nil_of_length_pos ?_, hlen⟩
  rw [hlen]
  decide

theorem of_mem_cut {rest part : Str} (h : part ∈ cut rest) :
    part ≠ [] ∧ part.length ≤ lineWidth := by
  fun_induction cut rest with
  | case1 rest hlong ih =>
    rcases List.mem_cons.mp h with rfl | h
    · obtain ⟨hne, hlen⟩ := take_lineWidth hlong
      exact ⟨hne, Nat.le_of_eq hlen⟩
    · exact ih h
  | case2 rest hshort hne =>
    rw [List.mem_singleton.mp h]
    exact ⟨hne, Nat.le_of_not_lt hshort⟩
  | case3 => exact absurd h List.not_mem_nil

theorem Shows.part {w : Writing} {s : Pages Str pageSize} (h : Shows w s) {line : Str}
    (hne : line ≠ []) : Shows (w.put line) (s.add line) := by
  have hput := h.put line
  rwa [added, if_neg hne] at hput

theorem Shows.cut {w : Writing} {s : Pages Str pageSize} (h : Shows w s) (rest : Str) :
    Shows (w.writeLine rest) ((ReportPages.cut rest).foldl Pages.add s) := by
  induction rest using cut.induct generalizing w s with
  | case1 rest hlong ih =>
    rw [Writing.writeLine, ReportPages.cut, if_pos hlong, if_pos hlong, List.foldl_cons]
    exact ih (h.part (take_lineWidth hlong).1)
  | case2 rest hshort hne =>
    rw [Writing.writeLine, ReportPages.cut, if_neg hshort, if_neg hshort, if_pos hne, if_pos hne]
    exact h.part hne
  | case3 rest hshort hempty =>
    rw [Writing.writeLine, ReportPages.cut, if_neg hshort, if_neg hshort, if_neg hempty,
      if_neg hempty]
    exact h

theorem Shows.line {w : Writing} {s : Pages Str pageSize} (h : Shows w s) (line : Str) :
    Shows (w.writeLine (if line = [] then ['\n'] else line))
      ((linesOf line).foldl Pages.add s) := by
  unfold linesOf
  by_cases hline : line = []
  · have hbreak : w.writeLine ['\n'] = w.put (added []) := by
      rw [Writing.writeLine, if_neg (by decide), if_pos (List.cons_ne_nil _ _)]
      rfl
    rw [if_pos hline, if_pos hline, hbreak]
    exact h.put []
  · rw [if_neg hline, if_neg hline]
    exact h.cut line

/-- The display lines of the report on pages. -/
def paged (report : Str) : Pages Str pageSize :=
  (displayLines report).foldl Pages.add (Pages.empty Str (by decide))

theorem items_paged (report : Str) : (paged report).items = displayLines report :=
  (items_addAll _ _).trans (List.nil_append _)

theorem reportPages_eq (report : Str) : reportPages report = (paged report).all.map pageText := by
  have hrun (ls : List Str) {w : Writing} {s : Pages Str pageSize} (h : Shows w s) :
      Shows (ls.foldl (fun w line => w.writeLine (if line = [] then ['\n'] else line)) w)
        ((ls.flatMap linesOf).foldl Pages.add s) := by
    induction ls generalizing w s with
    | nil => exact h
    | cons line ls ih =>
      rw [List.foldl_cons, List.flatMap_cons, List.foldl_append]
      exact ih (h.line line)
  have hstart : Shows ({} : Writing) (Pages.empty Str (by decide : 0 < pageSize)) := ⟨rfl, rfl, rfl⟩
  have h : Shows _ (paged report) := hrun (report.splitOn '\n') hstart
  unfold reportPages Pages.all
  simp only [h.num, h.drawn, h.page]
  by_cases hrest : (paged report).rest = []
  · rw [if_neg (by rw [hrest]; exact fun h => h rfl), if_pos hrest, List.append_nil]
  · rw [if_pos (fun h => hrest (List.length_eq_zero_iff.mp h)), if_neg hrest, List.map_append,
      List.map_singleton]

/-! ## What the pages hold -/

theorem flatten_linesOf (line : Str) : (linesOf line).flatten = line := by
  unfold linesOf
  split
  · next h => exact h.symm
  · exact flatten_cut line

/-- The display lines hold the report without its line breaks. -/
theorem flatten_displayLines (report : Str) :
    (displayLines report).flatten = report.filter (· ≠ '\n') := by
  have hlines (ls : List Str) : (ls.flatMap linesOf).flatten = ls.flatten := by
    induction ls with
    | nil => rfl
    | cons line ls ih =>
      rw [List.flatMap_cons, List.flatten_append, flatten_linesOf, ih, List.flatten_cons]
  rw [displayLines, hlines, flatten_splitOn]

theorem break_notMem {report line : Str} (h : line ∈ displayLines report) : '\n' ∉ line := by
  intro hc
  have hmem : '\n' ∈ (displayLines report).flatten := List.mem_flatten.mpr ⟨line, h, hc⟩
  rw [flatten_displayLines] at hmem
  exact of_decide_eq_true (List.mem_filter.mp hmem).2 rfl

theorem length_displayLine {report line : Str} (h : line ∈ displayLines report) :
    line.length ≤ lineWidth := by
  obtain ⟨source, -, h⟩ := List.mem_flatMap.mp h
  unfold linesOf at h
  split at h
  · rw [List.mem_singleton.mp h]
    exact Nat.zero_le _
  · exact (of_mem_cut h).2

/-- Lines without a line break in them. -/
abbrev Unbroken (lines : List Str) : Prop := ∀ line ∈ lines, '\n' ∉ line

theorem unbroken_page {report : Str} {lines : List Str} (h : lines ∈ (paged report).all) :
    Unbroken lines ∧ ∀ line ∈ lines, line.length ≤ lineWidth := by
  have hmem : ∀ line ∈ lines, line ∈ displayLines report := by
    intro line hline
    rw [← items_paged, ← flatten_all]
    exact List.mem_flatten.mpr ⟨lines, h, hline⟩
  exact ⟨fun line hline => break_notMem (hmem line hline),
    fun line hline => length_displayLine (hmem line hline)⟩

theorem pageText_cons (line : Str) (lines : List Str) :
    pageText (line :: lines) = added line ++ '\n' :: pageText lines := by
  rw [pageText, List.flatMap_cons, List.append_assoc, List.singleton_append]
  rfl

theorem filter_pageText {lines : List Str} (h : Unbroken lines) :
    (pageText lines).filter (· ≠ '\n') = lines.flatten := by
  induction lines with
  | nil => rfl
  | cons line lines ih =>
    obtain ⟨hline, hlines⟩ := List.forall_mem_cons.mp h
    have hadded : (added line).filter (· ≠ '\n') = line := by
      by_cases hempty : line = []
      · rw [hempty]
        rfl
      · rw [added, if_neg hempty, List.filter_eq_self]
        exact fun c hc => decide_eq_true fun he => hline (he ▸ hc)
    rw [pageText_cons, List.filter_append, hadded, List.filter_cons_of_neg (by decide), ih hlines,
      List.flatten_cons]

theorem splitOn_pageText {lines : List Str} (h : Unbroken lines) {line : Str}
    (hmem : line ∈ (pageText lines).splitOn '\n') : line = [] ∨ line ∈ lines := by
  induction lines with
  | nil => exact .inl (List.mem_singleton.mp hmem)
  | cons first lines ih =>
    obtain ⟨hfirst, hlines⟩ := List.forall_mem_cons.mp h
    rw [pageText_cons] at hmem
    by_cases hempty : first = []
    · have hbreaks : added first ++ '\n' :: pageText lines =
          [] ++ '\n' :: ([] ++ '\n' :: pageText lines) := by rw [hempty]; rfl
      rw [hbreaks, List.splitOn_append_cons_self_of_not_mem List.not_mem_nil,
        List.splitOn_append_cons_self_of_not_mem List.not_mem_nil] at hmem
      rcases List.mem_cons.mp hmem with hline | hmem
      · exact .inl hline
      · rcases List.mem_cons.mp hmem with hline | hmem
        · exact .inl hline
        · exact (ih hlines hmem).imp_right (List.mem_cons_of_mem first)
    · rw [added, if_neg hempty, List.splitOn_append_cons_self_of_not_mem hfirst] at hmem
      rcases List.mem_cons.mp hmem with hline | hmem
      · exact .inr (hline ▸ List.mem_cons_self)
      · exact (ih hlines hmem).imp_right (List.mem_cons_of_mem first)

/-- An empty line makes two line breaks. -/
theorem count_pageText {lines : List Str} (h : Unbroken lines) :
    (pageText lines).count '\n' = lines.length + lines.count [] := by
  induction lines with
  | nil => rfl
  | cons line lines ih =>
    obtain ⟨hline, hlines⟩ := List.forall_mem_cons.mp h
    rw [pageText_cons, List.count_append, List.count_cons_self, ih hlines, List.length_cons]
    by_cases hempty : line = []
    · have hone : (added line).count '\n' = 1 := by rw [hempty]; rfl
      rw [hone, hempty, List.count_cons_self]
      omega
    · rw [added, if_neg hempty, List.count_eq_zero.mpr hline, List.count_cons_of_ne hempty]
      omega

/-! ## Few enough line breaks -/

/-- The pages of the report have its characters, short lines, and few lines. -/
structure Proper (report : Str) : Prop where
  content : (reportPages report).flatten.filter (· ≠ '\n') = report.filter (· ≠ '\n')
  width : ∀ page ∈ reportPages report, ∀ line ∈ page.splitOn '\n', line.length ≤ lineWidth
  breaks : ∀ page ∈ reportPages report, page.count '\n' ≤ pageSize

/-- Empty lines stand only among the lines behind the full pages, and these lines and one
more for each of the empty ones are not too many for a page. -/
structure FewEmptyLines (report : Str) : Prop where
  full : [] ∉ (displayLines report).take (pageSize * ((displayLines report).length / pageSize))
  rest : (displayLines report).length % pageSize + (displayLines report).count [] ≤ pageSize

theorem reportPages_content (report : Str) :
    (reportPages report).flatten.filter (· ≠ '\n') = report.filter (· ≠ '\n') := by
  have hjoin : (reportPages report).flatten = pageText (displayLines report) := by
    rw [reportPages_eq, ← items_paged, ← flatten_all]
    induction (paged report).all with
    | nil => rfl
    | cons lines pages ih =>
      rw [List.map_cons, List.flatten_cons, List.flatten_cons, ih, pageText, pageText, pageText,
        List.flatMap_append]
  rw [hjoin, filter_pageText fun line hline => break_notMem hline, flatten_displayLines]

theorem reportPages_width {report page line : Str} (hpage : page ∈ reportPages report)
    (hline : line ∈ page.splitOn '\n') : line.length ≤ lineWidth := by
  rw [reportPages_eq] at hpage
  obtain ⟨lines, hlines, rfl⟩ := List.mem_map.mp hpage
  obtain ⟨hunbroken, hlength⟩ := unbroken_page hlines
  rcases splitOn_pageText hunbroken hline with rfl | hmem
  · exact Nat.zero_le _
  · exact hlength line hmem

/-- The text of a page has few enough line breaks exactly if its lines and its empty
lines together are few enough. -/
theorem breaks_iff (report : Str) : (∀ page ∈ reportPages report, page.count '\n' ≤ pageSize) ↔
    ∀ lines ∈ (paged report).all, lines.length + lines.count [] ≤ pageSize := by
  rw [reportPages_eq, List.forall_mem_map]
  refine forall₂_congr fun lines hlines => ?_
  rw [count_pageText (unbroken_page hlines).1]

theorem fewEmptyLines_iff (report : Str) : FewEmptyLines report ↔
    ∀ lines ∈ (paged report).all, lines.length + lines.count [] ≤ pageSize := by
  have hitems := items_paged report
  have hfull := flatten_full (paged report)
  have hrest := length_rest_eq (paged report)
  rw [hitems] at hfull hrest
  have hcount : (displayLines report).count [] =
      (paged report).full.flatten.count [] + (paged report).rest.count [] := by
    rw [← hitems, Pages.items, List.count_append]
  constructor
  · rintro ⟨hnone, hfew⟩ lines hlines
    rw [← hfull] at hnone
    rcases List.mem_append.mp hlines with hlines | hlines
    · have hempty : [] ∉ lines := fun h => hnone (List.mem_flatten.mpr ⟨lines, hlines, h⟩)
      rw [(paged report).length_full lines hlines, List.count_eq_zero.mpr hempty]
      omega
    · split at hlines
      · exact absurd hlines List.not_mem_nil
      · rw [List.mem_singleton.mp hlines]
        omega
  · intro h
    have hnone : [] ∉ (paged report).full.flatten := by
      intro hmem
      obtain ⟨lines, hlines, hempty⟩ := List.mem_flatten.mp hmem
      have hle := h lines (List.mem_append_left _ hlines)
      have hpos := List.count_pos_iff.mpr hempty
      rw [(paged report).length_full lines hlines] at hle
      omega
    refine ⟨by rwa [← hfull], ?_⟩
    rw [hcount, List.count_eq_zero.mpr hnone, ← hrest]
    by_cases hempty : (paged report).rest = []
    · rw [hempty]
      exact Nat.zero_le _
    · have hle := h (paged report).rest
        (List.mem_append_right _ (by rw [if_neg hempty]; exact List.mem_singleton_self _))
      omega

/-- The characters and the width are always right; the number of line breaks is, exactly
if the empty lines do not overfill a page. -/
theorem proper_iff_fewEmptyLines (report : Str) : Proper report ↔ FewEmptyLines report := by
  constructor
  · intro h
    exact (fewEmptyLines_iff report).mpr ((breaks_iff report).mp h.breaks)
  · intro h
    exact ⟨reportPages_content report, fun page hpage line hline => reportPages_width hpage hline,
      (breaks_iff report).mpr ((fewEmptyLines_iff report).mp h)⟩

/-- A page of empty lines has twice as many line breaks as it may have. -/
theorem empty_lines_overfill : ¬ Proper (List.replicate 47 '\n') ∧
    (reportPages (List.replicate 47 '\n')).map (List.count '\n') = [96] := by
  have hcounts : (reportPages (List.replicate 47 '\n')).map (List.count '\n') = [96] := by
    rw [reportPages_eq]
    decide +kernel
  refine ⟨fun h => ?_, hcounts⟩
  obtain ⟨page, hpage, hcount⟩ := List.mem_map.mp (hcounts ▸ List.mem_singleton_self 96)
  have hle := h.breaks page hpage
  rw [hcount] at hle
  exact absurd hle (by decide)

end Unitrace.Metrics.ReportPages
