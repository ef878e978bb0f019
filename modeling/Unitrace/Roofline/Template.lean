import Unitrace.Lib.FindText
import Unitrace.Lib.Text

/-!
# The page of the roofline plot

The template has one place for the title and four for data points, in the entries of the
four series. A page is the template with texts in these places.
-/
namespace Unitrace.Roofline.Template

open Unitrace.Lib.Text Unitrace.Lib.FindText

/-! ## The lines of the template -/

def joined (lines : List Str) : Str := lines.flatMap fun line => line ++ ['\n']

def headLines : List Str :=
  [ chars "",
    chars " <!DOCTYPE HTML>",
    chars "<html>",
    chars "<head>",
    chars "    <style>",
    chars "        .canvasjs-chart-credit \x7b",
    chars "            display: none !important;",
    chars "        \x7d",
    chars "        html, body \x7b",
    chars "            margin: 0;",
    chars "            padding: 0;",
    chars "            height: 100%;",
    chars "            overflow: hidden; /* Prevents page scrolling */",
    chars "        \x7d",
    chars "        #container \x7b",
    chars "            display: flex; /* Use Flexbox to align the chart and the container */",
    chars "            height: 100%; /* Use the full height of the window */",
    chars "        \x7d",
    chars "        #chartContainer \x7b",
    chars "            display: flex; /* Use Flexbox to center the chart */",
    chars "            justify-content: center; /* Center horizontally */",
    chars "            align-items: center; /* Center vertically */",
    chars "            position: relative; /* Relative position for the chart container */",
    chars "            flex-grow: 1; /* Allow the chart container to take the remaining space */",
    chars "            border: 1px solid #ccc; /* Border to visualize the container */",
    chars "            transition: flex-grow 0.3s ease; /* Animation when resizing */",
    chars "        \x7d",
    chars "        #chartContainer > div \x7b",
    chars "            width: 100%;",
    chars "            height: 100%;",
    chars "        \x7d",
    chars "        #dataContainer \x7b",
    chars "            position: relative; /* Relative position for the data container */",
    chars "            background-color: rgba(255, 255, 255, 0.9); /* Semi-transparent white " ++
      chars "background */",
    chars "            padding: 10px;",
    chars "            border: 1px solid #ccc;",
    chars "            z-index: 1000; /* Ensure the container is above the chart */",
    chars "            max-height: 100%; /* Maximum height to align with the chart */",
    chars "            overflow-y: auto; /* Add scrolling if necessary */",
    chars "            width: 25%; /* Width of the data container */",
    chars "            transition: width 0.3s ease, max-height 0.3s ease; /* Animation when " ++
      chars "resizing */",
    chars "        \x7d",
    chars "        .data-section \x7b",
    chars "            margin-bottom: 10px;",
    chars "        \x7d",
    chars "        .collapsed \x7b",
    chars "            max-height: 30px; /* Reduced height of the container when collapsed */",
    chars "            overflow: hidden; /* Hide any overflowing content */",
    chars "        \x7d",
    chars "    </style>",
    chars "    <script type=\"text/javascript\" " ++
      chars "src=\"https://cdn.canvasjs.com/canvasjs.min.js\"></script>",
    chars "    <script type=\"text/javascript\">",
    chars "        window.onload = function () \x7b",
    chars "            var chart = new CanvasJS.Chart(\"chartContent\", \x7b",
    chars "                exportEnabled: true,"]

def axesLines : List Str :=
  [ chars "                legend: \x7b",
    chars "                    cursor: \"pointer\",",
    chars "                    fontSize: 14,",
    chars "                    verticalAlign: \"top\",",
    chars "                    horizontalAlign: \"left\",",
    chars "                    itemclick: function (e) \x7b",
    chars "                        e.dataSeries.visible = !e.dataSeries.visible;",
    chars "                        e.chart.render();",
    chars "                    \x7d",
    chars "                \x7d,",
    chars "                toolTip: \x7b   ",
    chars "                    content: \"\x7blabel\x7d<br/> \x7by\x7d GF/s\"   ",
    chars "                \x7d,",
    chars "                axisX: \x7b",
    chars "                    logarithmic: true,",
    chars "                    minimum: 0.001,",
    chars "                    maximum: 100000,",
    chars "                    title: \"Arithmetic Intensity (Flop/Byte)\",",
    chars "                    titleFontSize: 20,",
    chars "                    labelFontSize: 16",
    chars "                \x7d,",
    chars "                axisY: \x7b",
    chars "                    logarithmic: true,",
    chars "                    minimum: 0.1,",
    chars "                    title: \"Performance (GFlop/s)\",",
    chars "                    titleFontSize: 20,",
    chars "                    labelFontSize: 16",
    chars "                \x7d,",
    chars "                data: [",
    chars "                    \x7b"]

def nextLines : List Str := [chars "                    \x7d,", chars "                    \x7b"]

def tailLines : List Str :=
  [ chars "                    \x7d",
    chars "                ]",
    chars "            \x7d);",
    chars "            ",
    chars "            chart.render();",
    chars "            generateDataList(chart);",
    chars "        \x7d",
    chars "",
    chars "        function generateDataList(chart) \x7b",
    chars "            var dataContainer = document.getElementById('dataContainer');",
    chars "            if (!dataContainer) return;",
    chars "        ",
    chars "            // Add a \"Select/Deselect All\" checkbox",
    chars "            var selectAllCheckbox = document.createElement('input');",
    chars "            selectAllCheckbox.type = 'checkbox';",
    chars "            selectAllCheckbox.id = 'selectAll';",
    chars "            selectAllCheckbox.checked = true; // By default, all checkboxes are " ++
      chars "checked",
    chars "        ",
    chars "            var selectAllLabel = document.createElement('label');",
    chars "            selectAllLabel.htmlFor = 'selectAll';",
    chars "            selectAllLabel.innerText = 'Select/Deselect All';",
    chars "        ",
    chars "            var selectAllItem = document.createElement('div');",
    chars "            selectAllItem.appendChild(selectAllCheckbox);",
    chars "            selectAllItem.appendChild(selectAllLabel);",
    chars "            dataContainer.appendChild(selectAllItem);",
    chars "        ",
    chars "            // Event handler for the \"Select/Deselect All\" checkbox",
    chars "            selectAllCheckbox.onchange = function() \x7b",
    chars "                var checkboxes = " ++
      chars "dataContainer.querySelectorAll('input[type=\"checkbox\"]');",
    chars "                checkboxes.forEach(function(checkbox) \x7b",
    chars "                    if (checkbox.id !== 'selectAll') \x7b",
    chars "                        checkbox.checked = selectAllCheckbox.checked;",
    chars "                        checkbox.dispatchEvent(new Event('change'));",
    chars "                    \x7d",
    chars "                \x7d);",
    chars "            \x7d;",
    chars "        ",
    chars "            // Only generate checkboxes for L3_data and Gpu_memory_data",
    chars "            for (var i = 0; i < chart.options.data.length; i++) \x7b",
    chars "                var dataSeries = chart.options.data[i];",
    chars "                if (dataSeries.name === \"L3_data\" || dataSeries.name === " ++
      chars "\"Gpu_memory_data\") \x7b",
    chars "                    var section = document.createElement('div');",
    chars "                    section.className = 'data-section';",
    chars "                    ",
    chars "                    var title = document.createElement('h3');",
    chars "                    title.innerText = dataSeries.name;",
    chars "                    section.appendChild(title);",
    chars "        ",
    chars "                    // Sort data points by the custom order tag",
    chars "                    var sortedDataPoints = " ++
      chars "dataSeries.dataPoints.slice().sort(function(a, b) \x7b",
    chars "                        return a.order - b.order;",
    chars "                    \x7d);",
    chars "        ",
    chars "                    // Log the order of data points for debugging",
    chars "                    console.log('Order of data points for series:', dataSeries.name);",
    chars "                    for (var j = 0; j < sortedDataPoints.length; j++) \x7b",
    chars "                        console.log('Data point', j, ':', sortedDataPoints[j]);",
    chars "        ",
    chars "                        var dataPoint = sortedDataPoints[j];",
    chars "                        var checkbox = document.createElement('input');",
    chars "                        checkbox.type = 'checkbox';",
    chars "                        checkbox.checked = true; // By default, all checkboxes are " ++
      chars "checked",
    chars "                        checkbox.id = dataSeries.name + '_' + j;",
    chars "        ",
    chars "                        // Use a closure to capture the current dataPoint",
    chars "                        (function(dp) \x7b",
    chars "                            checkbox.onchange = function() \x7b",
    chars "                                // Update data point visibility",
    chars "                                if (this.checked) \x7b",
    chars "                                    dp.visible = true;",
    chars "                                    dp.y = dp.originalY; // Restore original value",
    chars "                                \x7d else \x7b",
    chars "                                    dp.visible = false;",
    chars "                                    dp.y = null; // Set y to null to hide it",
    chars "                                \x7d",
    chars "                                ",
    chars "                                chart.render(); // Render the chart after " ++
      chars "modification",
    chars "                            \x7d;",
    chars "                        \x7d)(dataPoint);",
    chars "        ",
    chars "                        var label = document.createElement('label');",
    chars "                        label.htmlFor = checkbox.id;",
    chars "                        label.innerText = dataPoint.label;",
    chars "        ",
    chars "                        var listItem = document.createElement('div');",
    chars "                        listItem.appendChild(checkbox);",
    chars "                        listItem.appendChild(label);",
    chars "                        section.appendChild(listItem);",
    chars "                    \x7d",
    chars "        ",
    chars "                    dataContainer.appendChild(section);",
    chars "                \x7d",
    chars "            \x7d",
    chars "        \x7d",
    chars "",
    chars "",
    chars "        function toggleDataContainer() \x7b",
    chars "            var dataContainer = document.getElementById('dataContainer');",
    chars "            var chartContainer = document.getElementById('chartContainer');",
    chars "            if (dataContainer.classList.contains(\"collapsed\")) \x7b",
    chars "                dataContainer.classList.remove(\"collapsed\"); // Make the " ++
      chars "container visible",
    chars "                dataContainer.style.width = \"25%\"; // Restore the width",
    chars "                chartContainer.style.flexGrow = \"1\"; // Reduce the chart width",
    chars "            \x7d else \x7b",
    chars "                dataContainer.classList.add(\"collapsed\"); // Collapse the container",
    chars "                dataContainer.style.width = \"5%\"; // Reduce the container width",
    chars "                chartContainer.style.flexGrow = \"4\"; // Increase the chart width",
    chars "            \x7d",
    chars "            setTimeout(function() \x7b",
    chars "                chart.render(); // Redraw the chart after the transition",
    chars "            \x7d, 300); // Wait for the transition to complete",
    chars "        \x7d",
    chars "    </script>",
    chars "</head>",
    chars "<body>",
    chars "    <div id=\"container\">",
    chars "        <div id=\"chartContainer\">",
    chars "            <div id=\"chartContent\"></div> <!-- Container for the chart -->",
    chars "        </div> ",
    chars "        <div id=\"dataContainer\">",
    chars "            <button onclick=\"toggleDataContainer()\">Kernel Names</button> <!-- " ++
      chars "Button to collapse/expand -->",
    chars "        </div> ",
    chars "    </div>",
    chars "</body>",
    chars "</html>"]

def titleStart : Str := chars "                title: \x7b text: "

def titleEnd : Str := chars ", fontSize: 50 \x7d,"

def pointsStart : Str := chars ", dataPoints: [\n                        "

/-- The text of the title does not stand in this line. -/
def Untitled (line : Str) : Prop := '5' ∉ line ∨ '\x7b' ∉ line

instance (line : Str) : Decidable (Untitled line) := inferInstanceAs (Decidable (_ ∨ _))

/-- A text without the bracket, the names and the title that are searched. -/
structure Bare (s : Str) : Prop where
  bracket : ']' ∉ s
  underscore : '_' ∉ s
  untitled : '5' ∉ s

instance (s : Str) : Decidable (Bare s) :=
  decidable_of_iff (']' ∉ s ∧ '_' ∉ s ∧ '5' ∉ s)
    ⟨fun h => ⟨h.1, h.2.1, h.2.2⟩, fun h => ⟨h.bracket, h.underscore, h.untitled⟩⟩

set_option maxRecDepth 4000 in
theorem headLines_plain : ∀ line ∈ headLines, '_' ∉ line ∧ Untitled line := by
  unfold headLines
  repeat refine List.forall_mem_cons.mpr ⟨by (repeat rw [chars_ofList]); decide, ?_⟩
  exact fun line h => absurd h List.not_mem_nil

theorem axesLines_bare : ∀ line ∈ axesLines, Bare line := by
  unfold axesLines
  repeat refine List.forall_mem_cons.mpr ⟨by rw [chars_ofList]; decide, ?_⟩
  exact fun line h => absurd h List.not_mem_nil

theorem nextLines_bare : ∀ line ∈ nextLines, Bare line := by
  unfold nextLines
  repeat refine List.forall_mem_cons.mpr ⟨by rw [chars_ofList]; decide, ?_⟩
  exact fun line h => absurd h List.not_mem_nil

set_option maxRecDepth 4000 in
theorem tailLines_untitled : ∀ line ∈ tailLines, Untitled line := by
  unfold tailLines
  repeat refine List.forall_mem_cons.mpr ⟨by (repeat rw [chars_ofList]); decide, ?_⟩
  exact fun line h => absurd h List.not_mem_nil

theorem pointsStart_bare : Bare pointsStart := by
  unfold pointsStart
  rw [chars_ofList]
  decide

/-! ## The entries of the series -/

def isWordChar (c : Char) : Bool := c.isAlphanum || c = '_'

structure IsName (s : Str) : Prop where
  underscore : '_' ∈ s
  word : ∀ c ∈ s, isWordChar c = true

instance (s : Str) : Decidable (IsName s) :=
  decidable_of_iff ('_' ∈ s ∧ ∀ c ∈ s, isWordChar c = true)
    ⟨fun h => ⟨h.1, h.2⟩, fun h => ⟨h.underscore, h.word⟩⟩

/-- The entry of a series, with the lines in front of it. -/
structure Slot where
  lines : List Str
  style : Str
  name : Str
  lines_bare : ∀ line ∈ lines, Bare line
  style_bare : Bare style
  isName : IsName name
  untitled : '5' ∉ name

def l3RoofSlot : Slot where
  lines := axesLines
  style := chars "                        showInLegend: true, markerType: \"none\", " ++
    chars "markerColor: \"blue\", type: \"spline\", name: "
  name := chars "L3_ROOF"
  lines_bare := axesLines_bare
  style_bare := by rw [chars_ofList, chars_ofList]; decide
  isName := by rw [chars_ofList]; decide
  untitled := by rw [chars_ofList]; decide

def gpuMemoryRoofSlot : Slot where
  lines := nextLines
  style := chars "                        showInLegend: true, markerType: \"none\", " ++
    chars "markerColor: \"red\", type: \"spline\", name: "
  name := chars "Gpu_memory_ROOF"
  lines_bare := nextLines_bare
  style_bare := by rw [chars_ofList, chars_ofList]; decide
  isName := by rw [chars_ofList]; decide
  untitled := by rw [chars_ofList]; decide

def l3DataSlot : Slot where
  lines := nextLines
  style := chars "                        showInLegend: true, type: \"scatter\", " ++
    chars "markerColor: \"blue\", name: "
  name := chars "L3_data"
  lines_bare := nextLines_bare
  style_bare := by rw [chars_ofList, chars_ofList]; decide
  isName := by rw [chars_ofList]; decide
  untitled := by rw [chars_ofList]; decide

def gpuMemoryDataSlot : Slot where
  lines := nextLines
  style := chars "                        showInLegend: true, type: \"scatter\", " ++
    chars "markerColor: \"red\", name: "
  name := chars "Gpu_memory_data"
  lines_bare := nextLines_bare
  style_bare := by rw [chars_ofList, chars_ofList]; decide
  isName := by rw [chars_ofList]; decide
  untitled := by rw [chars_ofList]; decide

/-- Everything up to the bracket that closes the data points. -/
def Slot.opening (slot : Slot) (points : Str) : Str :=
  joined slot.lines ++ (slot.style ++ '"' :: (slot.name ++ '"' :: (pointsStart ++ points)))

/-! ## Pages -/

/-- The lines up to the title. -/
def titled (title : Str) : Str :=
  joined headLines ++ (titleStart ++ '"' :: (title ++ '"' :: (titleEnd ++ ['\n'])))

/-- Entries with their data points. -/
def filled : List (Slot × Str) → Str
  | [] => []
  | entry :: rest => entry.1.opening entry.2 ++ ']' :: '\n' :: filled rest

def ending : Str := joined tailLines ++ chars "    "

def page (title l3Roof gpuMemoryRoof l3Data gpuMemoryData : Str) : Str :=
  titled title ++ (filled [(l3RoofSlot, l3Roof), (gpuMemoryRoofSlot, gpuMemoryRoof),
    (l3DataSlot, l3Data), (gpuMemoryDataSlot, gpuMemoryData)] ++ ending)

/-- The template: nothing in any place. -/
def htmlCode : Str := page [] [] [] [] []

/-! ## Searching a page -/

theorem notMem_joined {c : Char} (hc : c ≠ '\n') {lines : List Str} (h : ∀ line ∈ lines, c ∉ line) :
    c ∉ joined lines := by
  intro hmem
  obtain ⟨line, hline, hmem⟩ := List.mem_flatMap.mp hmem
  rcases List.mem_append.mp hmem with hmem | hmem
  · exact h line hline hmem
  · exact hc (List.mem_singleton.mp hmem)

theorem joined_cons (line : Str) (lines : List Str) (s : Str) :
    joined (line :: lines) ++ s = line ++ '\n' :: (joined lines ++ s) := by
  simp only [joined, List.flatMap_cons, List.append_assoc, List.cons_append, List.nil_append]

theorem absent_of_notMem {c : Char} {sub s : Str} (hc : c ∈ sub) (hs : c ∉ s) : ¬ sub <:+: s :=
  fun h => hs (h.subset hc)

theorem IsName.notMem {name : Str} (h : IsName name) {c : Char} (hc : isWordChar c = false) :
    c ∉ name := by
  intro hmem
  rw [h.word c hmem] at hc
  cases hc

theorem Slot.notMem_opening (slot : Slot) {c : Char} (hline : c ≠ '\n') (hquote : c ≠ '"')
    (hlines : ∀ line ∈ slot.lines, c ∉ line) (hstyle : c ∉ slot.style) (hname : c ∉ slot.name)
    (hstart : c ∉ pointsStart) : c ∉ slot.opening [] := by
  simp only [Slot.opening, List.mem_append, List.mem_cons, List.not_mem_nil, not_or]
  exact ⟨notMem_joined hline hlines, hstyle, hquote, hname, hquote, hstart, not_false⟩

theorem Slot.bracket_notMem (slot : Slot) : ']' ∉ slot.opening [] :=
  slot.notMem_opening (by decide) (by decide) (fun line h => (slot.lines_bare line h).bracket)
    slot.style_bare.bracket (slot.isName.notMem rfl) pointsStart_bare.bracket

theorem Slot.opening_append (slot : Slot) (points : Str) :
    slot.opening [] ++ points = slot.opening points := by
  simp only [Slot.opening, List.append_assoc, List.cons_append, List.append_nil]

theorem filled_concat (done : List (Slot × Str)) (entry : Slot × Str) :
    filled (done ++ [entry]) = filled done ++ (entry.1.opening entry.2 ++ [']', '\n']) := by
  induction done with
  | nil => rfl
  | cons first done ih =>
    simp only [List.cons_append, filled, ih, List.append_assoc]

theorem titled_parts (title s : Str) : ∃ a b, '_' ∉ a ∧ '_' ∉ b ∧ ']' ∉ b ∧
    titled title ++ s = a ++ '"' :: (title ++ '"' :: (b ++ '\n' :: s)) := by
  refine ⟨joined headLines ++ titleStart, titleEnd, ?_, ?_, ?_, ?_⟩
  · rw [List.mem_append, not_or]
    refine ⟨notMem_joined (by decide) fun line h => (headLines_plain line h).1, ?_⟩
    unfold titleStart
    rw [chars_ofList]
    decide
  · unfold titleEnd
    rw [chars_ofList]
    decide
  · unfold titleEnd
    rw [chars_ofList]
    decide
  · simp only [titled, List.append_assoc, List.cons_append, List.nil_append]

section Names

variable {name : Str} (hname : IsName name)

include hname

theorem infix_opening (slot : Slot) (points : Str) :
    name <:+: slot.opening points ↔ name <:+: slot.name ∨ name <:+: points := by
  have hstart : ∃ a, pointsStart = a ++ [' '] ∧ '_' ∉ a := by
    refine ⟨pointsStart.dropLast, ?_⟩
    unfold pointsStart
    rw [chars_ofList]
    decide
  obtain ⟨a, hstart, ha⟩ := hstart
  have hlines : '_' ∉ joined slot.lines ++ slot.style := by
    rw [List.mem_append, not_or]
    exact ⟨notMem_joined (by decide) fun line h => (slot.lines_bare line h).underscore,
      slot.style_bare.underscore⟩
  rw [Slot.opening, hstart, ← List.append_assoc, infix_append_cons (hname.notMem rfl),
    or_iff_right (absent_of_notMem hname.underscore hlines), infix_append_cons (hname.notMem rfl),
    List.append_assoc, List.singleton_append, infix_append_cons (hname.notMem rfl),
    or_iff_right (absent_of_notMem hname.underscore ha)]

theorem infix_filled (done : List (Slot × Str)) :
    name <:+: filled done ↔ ∃ entry ∈ done, name <:+: entry.1.name ∨ name <:+: entry.2 := by
  induction done with
  | nil =>
    refine iff_of_false (absent_of_notMem hname.underscore List.not_mem_nil) ?_
    intro h
    obtain ⟨entry, hentry, -⟩ := h
    cases hentry
  | cons first done ih =>
    have hbreak : filled (first :: done) =
        (first.1.opening first.2 ++ ']' :: ([] ++ '\n' :: filled done)) := rfl
    rw [hbreak, infix_append_cons (hname.notMem rfl), infix_append_cons (hname.notMem rfl),
      or_iff_right (absent_of_notMem hname.underscore List.not_mem_nil), infix_opening hname, ih,
      List.exists_mem_cons_iff]

theorem infix_titled (title s : Str) :
    name <:+: titled title ++ s ↔ name <:+: title ∨ name <:+: s := by
  obtain ⟨a, b, ha, hb, -, h⟩ := titled_parts title s
  rw [h, infix_append_cons (hname.notMem rfl), or_iff_right (absent_of_notMem hname.underscore ha),
    infix_append_cons (hname.notMem rfl), infix_append_cons (hname.notMem rfl),
    or_iff_right (absent_of_notMem hname.underscore hb)]

/-- The bracket that is found for the first series can only stand in the title. -/
theorem behind_titled {title s : Str} (hs : ']' ∉ s) :
    Behind name ']' (titled title ++ s) ↔ Behind name ']' title := by
  obtain ⟨a, b, ha, -, hb, h⟩ := titled_parts title s
  have hrest : ']' ∉ b ++ '\n' :: s := by
    simp only [List.mem_append, List.mem_cons, not_or]
    exact ⟨hb, by decide, hs⟩
  have hfirst : ¬ name <:+: a := absent_of_notMem hname.underscore ha
  rw [h, behind_append_cons (hname.notMem rfl), behind_append_cons (hname.notMem rfl)]
  constructor
  · intro h'
    rcases h' with hbehind | ⟨hfound, -⟩ | hbehind | ⟨-, hmem⟩ | hbehind
    · exact absurd hbehind.occurs hfirst
    · exact absurd hfound hfirst
    · exact hbehind
    · exact absurd hmem (List.not_mem_cons_of_ne_of_not_mem (by decide) hrest)
    · exact absurd hbehind.mem hrest
  · intro hbehind
    exact .inr (.inr (.inl hbehind))

/-- A bracket stands behind everything in front of the last line of an entry. -/
theorem behind_filled {start s : Str} (hs : ']' ∉ s) {done : List (Slot × Str)} (hdone : done ≠ []) :
    Behind name ']' (start ++ (filled done ++ s)) ↔ name <:+: start ++ filled done := by
  obtain ⟨before, entry, rfl⟩ := List.eq_nil_or_concat done |>.resolve_left hdone
  have hcut (s : Str) : start ++ (filled (before.concat entry) ++ s) =
      (start ++ (filled before ++ entry.1.opening entry.2)) ++ ']' :: '\n' :: s := by
    simp only [List.concat_eq_append, filled_concat, List.append_assoc, List.cons_append,
      List.nil_append]
  have hrest : ']' ∉ '\n' :: s := List.not_mem_cons_of_ne_of_not_mem (by decide) hs
  have hend := hcut []
  rw [List.append_nil] at hend
  rw [hcut s, hend, behind_append_cons (hname.notMem rfl), infix_append_cons (hname.notMem rfl),
    or_iff_left (absent_of_notMem hname.underscore (by decide))]
  constructor
  · intro h
    rcases h with hbehind | ⟨hfound, -⟩ | hbehind
    · exact hbehind.occurs
    · exact hfound
    · exact absurd hbehind.mem hrest
  · intro hfound
    exact .inr (.inl ⟨hfound, List.mem_cons_self⟩)

end Names

/-! ## The title -/

theorem infix_joined {sub : Str} (hnewline : '\n' ∉ sub) {lines : List Str}
    (h : ∀ line ∈ lines, ¬ sub <:+: line) (s : Str) : sub <:+: joined lines ++ s ↔ sub <:+: s := by
  induction lines with
  | nil => rfl
  | cons line lines ih =>
    obtain ⟨hline, hlines⟩ := List.forall_mem_cons.mp h
    rw [joined_cons, infix_append_cons hnewline, or_iff_right hline, ih hlines]

theorem replace_joined {old : Str} (hnewline : '\n' ∉ old) (hne : old ≠ []) {lines : List Str}
    (h : ∀ line ∈ lines, ¬ old <:+: line) (new s : Str) :
    replace (joined lines ++ s) old new = joined lines ++ replace s old new := by
  induction lines with
  | nil => rfl
  | cons line lines ih =>
    obtain ⟨hline, hlines⟩ := List.forall_mem_cons.mp h
    rw [joined_cons, replace_append_cons new hnewline hne, replace_eq_self new hline, ih hlines,
      joined_cons]

/-- What stands for the title in the template. -/
def emptyTitle : Str := chars "title: \x7b text: \"\", fontSize: 50 \x7d"

theorem emptyTitle_chars : '5' ∈ emptyTitle ∧ '\x7b' ∈ emptyTitle ∧ ']' ∉ emptyTitle ∧
    '\n' ∉ emptyTitle ∧ ∃ rest, emptyTitle = 't' :: rest := by
  unfold emptyTitle
  rw [chars_ofList]
  exact ⟨by decide, by decide, by decide, by decide, _, rfl⟩

theorem Untitled.absent {line : Str} (h : Untitled line) : ¬ emptyTitle <:+: line := by
  obtain ⟨hdigit, hbrace, -⟩ := emptyTitle_chars
  exact h.elim (absent_of_notMem hdigit) (absent_of_notMem hbrace)

theorem Slot.untitled_opening (slot : Slot) : ¬ emptyTitle <:+: slot.opening [] := by
  apply Untitled.absent
  left
  exact slot.notMem_opening (by decide) (by decide) (fun line h => (slot.lines_bare line h).untitled)
    slot.style_bare.untitled slot.untitled pointsStart_bare.untitled

theorem untitled_entries (slots : List Slot) :
    ¬ emptyTitle <:+: filled (slots.map fun slot => (slot, [])) ++ ending := by
  obtain ⟨hdigit, -, hbracket, hnewline, -⟩ := emptyTitle_chars
  induction slots with
  | nil =>
    show ¬ emptyTitle <:+: joined tailLines ++ chars "    "
    rw [infix_joined hnewline fun line h => (tailLines_untitled line h).absent, chars_ofList]
    exact absent_of_notMem hdigit (by decide)
  | cons slot slots ih =>
    have hbreak : filled ((slot :: slots).map fun slot => (slot, [])) ++ ending =
        slot.opening [] ++ ']' ::
          ([] ++ '\n' :: (filled (slots.map fun slot => (slot, [])) ++ ending)) := by
      simp only [List.map_cons, filled, List.append_assoc, List.cons_append, List.nil_append]
    rw [hbreak, infix_append_cons hbracket, infix_append_cons hnewline, not_or, not_or]
    exact ⟨slot.untitled_opening, absent_of_notMem hdigit List.not_mem_nil, ih⟩

/-- The text that replaces it. -/
def fullTitle (title : Str) : Str :=
  chars "title: \x7b text: \"" ++ title ++ chars "\", fontSize: 50 \x7d"

theorem fullTitle_nil : fullTitle [] = emptyTitle := by
  unfold fullTitle emptyTitle
  rw [chars_ofList, chars_ofList, chars_ofList]
  rfl

theorem titled_eq (title : Str) : titled title =
    joined headLines ++ (List.replicate 16 ' ' ++ (fullTitle title ++ [',', '\n'])) := by
  have hstart : titleStart ++ ['"'] = List.replicate 16 ' ' ++ chars "title: \x7b text: \"" := by
    unfold titleStart
    rw [chars_ofList, chars_ofList]
    rfl
  have hend : '"' :: titleEnd = chars "\", fontSize: 50 \x7d" ++ [','] := by
    unfold titleEnd
    rw [chars_ofList, chars_ofList]
    rfl
  calc
    titled title =
        joined headLines ++ ((titleStart ++ ['"']) ++ title ++ ('"' :: titleEnd) ++ ['\n']) := by
      simp only [titled, List.append_assoc, List.cons_append, List.nil_append]
    _ = _ := by
      rw [hstart, hend]
      simp only [fullTitle, List.append_assoc, List.cons_append, List.nil_append]

/-- Only the title is replaced. -/
theorem replace_title (title : Str) :
    replace htmlCode emptyTitle (fullTitle title) = page title [] [] [] [] := by
  obtain ⟨hdigit, -, -, hnewline, rest, hrest⟩ := emptyTitle_chars
  have hlines : ∀ line ∈ headLines, ¬ emptyTitle <:+: line :=
    fun line h => (headLines_plain line h).2.absent
  have hentries := untitled_entries [l3RoofSlot, gpuMemoryRoofSlot, l3DataSlot, gpuMemoryDataSlot]
  simp only [List.map_cons, List.map_nil] at hentries
  rw [htmlCode, page, page, titled_eq, titled_eq, fullTitle_nil]
  generalize filled [(l3RoofSlot, []), (gpuMemoryRoofSlot, []), (l3DataSlot, []),
    (gpuMemoryDataSlot, [])] ++ ending = following at hentries ⊢
  have hfollowing : ¬ emptyTitle <:+: [','] ++ '\n' :: following := by
    rw [infix_append_cons hnewline, not_or]
    exact ⟨absent_of_notMem hdigit (by decide), hentries⟩
  have hsame := replace_eq_self (fullTitle title) hfollowing
  simp only [List.append_assoc]
  rw [replace_joined hnewline (by rw [hrest]; exact List.cons_ne_nil _ _) hlines]
  rw [hrest] at hsame ⊢
  rw [replace_append_left _ (by decide), replace_occurrence]
  exact congrArg (fun s => joined headLines ++ (List.replicate 16 ' ' ++ (fullTitle title ++ s)))
    hsame

end Unitrace.Roofline.Template
