import Mathlib.Algebra.BigOperators.Group.List.Basic
import Mathlib.Algebra.Order.Ring.Rat
import Mathlib.Algebra.Ring.Rat
import Unitrace.Lib.Tally
import Unitrace.Summary.SearchTree
import Unitrace.Summary.Sections

/-!
# The output of the summary

The script `summary` adds what its aggregator makes of the times and of the calls of every
name in the device section and in the communication section to the two entries of the
category of the name. The numbers are rationals and are not rounded, where the script has
floats.
-/
namespace Unitrace.Summary.Aggregate

open Unitrace.Lib Unitrace.Lib.Text Unitrace.Lib.PyStr
open Unitrace.Summary.SearchTree Unitrace.Summary.Sections

/-! ## Categories -/

/-- The schema that `categorize` writes. -/
structure Schema where
  ignoreSpaces : Bool
  direct : Tree
  reverse : Tree

def removeSpaces (name : Str) : Str := name.filter fun c => c ≠ ' ' ∧ c ≠ '\t'

/-- The search takes the missing name for an empty one, which cannot be reversed. -/
def categorize (schema : Schema) (name : Option Str) (default : Str) : Except PyErr Str := do
  match ← searchTree schema.direct (name.getD []) with
  | some category => return category
  | none =>
    match name with
    | none => .error .typeError
    | some name =>
      match ← searchTree schema.reverse name.reverse with
      | some category => return category
      | none => return default

/-- The name that is looked up for a recorded one. -/
def lookedUp (schema : Schema) (name : Option Str) : Except PyErr (Option Str) :=
  if schema.ignoreSpaces then
    match name with
    | none => .error .attributeError
    | some name => .ok (some (removeSpaces name))
  else .ok name

/-! ## Aggregators -/

def sorted (values : List Int) : List Int := values.mergeSort (· ≤ ·)

def fmean (values : List Int) : Except PyErr ℚ :=
  if values = [] then .error .valueError else .ok ((values.sum : ℚ) / values.length)

/-- The middle one of the sorted values, or the mean of the two in the middle. -/
def median (values : List Int) : Except PyErr ℚ :=
  let data := sorted values
  let n := data.length
  if n = 0 then .error .valueError
  else if n % 2 = 1 then .ok (data.getD (n / 2) 0)
  else .ok (((data.getD (n / 2 - 1) 0 : ℚ) + data.getD (n / 2) 0) / 2)

/-- The second least value. -/
def minP1 (valIter : List Int) : ℚ :=
  match sorted valIter with
  | [] => 0
  | [a] => a
  | [a, b] => ((a + b) / 2 : Int)
  | _ :: b :: _ => b

/-- The second greatest value. -/
def maxM1 (valIter : List Int) : ℚ :=
  match (sorted valIter).reverse with
  | [] => 0
  | [a] => a
  | [a, b] => ((a + b) / 2 : Int)
  | _ :: b :: _ => b

/-- The choices of the option `--aggregator`. -/
inductive Aggregator where
  | min | max | mean | median | sum | minP1 | maxM1

def Aggregator.apply (aggregator : Aggregator) (values : List Int) : Except PyErr ℚ :=
  match aggregator with
  | .min => match values.min? with
    | some value => .ok value
    | none => .error .valueError
  | .max => match values.max? with
    | some value => .ok value
    | none => .error .valueError
  | .mean => fmean values
  | .median => Aggregate.median values
  | .sum => .ok values.sum
  | .minP1 => .ok (Aggregate.minP1 values)
  | .maxM1 => .ok (Aggregate.maxM1 values)

theorem Aggregator.apply_ok (aggregator : Aggregator) {values : List Int} (h : values ≠ []) :
    ∃ value, aggregator.apply values = .ok value := by
  have hlength : (sorted values).length ≠ 0 := by
    rw [sorted, List.length_mergeSort]
    exact fun hlength => h (List.length_eq_zero_iff.mp hlength)
  cases aggregator with
  | min =>
    cases hmin : values.min? with
    | none => exact absurd (List.min?_eq_none_iff.mp hmin) h
    | some value => exact ⟨value, by rw [apply, hmin]⟩
  | max =>
    cases hmax : values.max? with
    | none => exact absurd (List.max?_eq_none_iff.mp hmax) h
    | some value => exact ⟨value, by rw [apply, hmax]⟩
  | mean => exact ⟨_, if_neg h⟩
  | median =>
    rw [apply, Aggregate.median, if_neg hlength]
    split
    · exact ⟨_, rfl⟩
    · exact ⟨_, rfl⟩
  | sum => exact ⟨_, rfl⟩
  | minP1 => exact ⟨_, rfl⟩
  | maxM1 => exact ⟨_, rfl⟩

/-- A single value is its own aggregate. -/
theorem Aggregator.apply_singleton (aggregator : Aggregator) (value : Int) :
    aggregator.apply [value] = .ok value := by
  have hsorted : sorted [value] = [value] := List.mergeSort_singleton value
  cases aggregator with
  | min => rfl
  | max => rfl
  | mean => simp [apply, fmean]
  | median => simp [apply, Aggregate.median, hsorted]
  | sum => simp [apply]
  | minP1 => simp [apply, Aggregate.minP1, hsorted]
  | maxM1 => simp [apply, Aggregate.maxM1, hsorted]

/-! ## The loop over the names -/

inductive Label where
  | time | calls
  deriving DecidableEq

def Label.text : Label → Str
  | .time => chars "time"
  | .calls => chars "calls"

/-- The extractor of the label. -/
def Label.get : Label → Int × Int → Int
  | .time => Prod.fst
  | .calls => Prod.snd

def extractors : List Label := [.time, .calls]

def suffix (label : Label) : Str := '_' :: label.text

def subCategory (category : Str) (label : Label) : Str := category ++ suffix label

abbrev Output := List (Str × ℚ)

/-- Index `-1` is that of the last entry. -/
def defaultCategory : Section → Str
  | .api => chars "host"
  | .device => chars "device"
  | .none | .comm => chars "comm"

section

variable (aggregator : List Int → Except PyErr ℚ) (schema : Schema)

/-- The entry of one label after the values of a name. -/
def addLabel (category : Str) (values : List (Int × Int)) (output : Output) (label : Label) :
    Except PyErr Output := do
  let value ← aggregator (values.map label.get)
  return Tally.add output (subCategory category label) value

/-- One turn of the loop over the items of a section. -/
def addItem (sect : Section) (output : Output) (item : Option Str × List (Int × Int)) :
    Except PyErr Output := do
  let name ← lookedUp schema item.1
  let category ← categorize schema name (defaultCategory sect)
  if category ≠ [] then extractors.foldlM (addLabel aggregator category item.2) output
  else return output

def addSection (metrics : Metrics) (output : Output) (sect : Section) : Except PyErr Output :=
  (metrics.table sect).foldlM (addItem aggregator schema sect) output

def output (metrics : Metrics) : Except PyErr Output :=
  [Section.device, .comm].foldlM (addSection aggregator schema metrics) []

end

/-! ## The category of a name -/

/-- No category in the tree is empty. -/
inductive Named : Tree → Prop
  | node {category : Option Str} {length : Option Nat} {next : Option (List (Str × Tree))}
      (hown : category ≠ some [])
      (hnext : ∀ nodes, next = some nodes → ∀ e ∈ nodes, Named e.2) :
      Named (.node category length next)

def Schema.Named (schema : Schema) : Prop :=
  Aggregate.Named schema.direct ∧ Aggregate.Named schema.reverse

theorem Named.category_ne {tree : Tree} (h : Named tree) : tree.category ≠ some [] := by
  cases h with
  | node hown _ => exact hown

theorem or_ne_empty {a b : Option Str} (ha : a ≠ some []) (hb : b ≠ some []) : a.or b ≠ some [] := by
  cases a with
  | none => exact hb
  | some a => exact ha

/-- The search from a node finds no empty category unless it had one before. -/
theorem searchFrom_ne {tree : Tree} (hnamed : Named tree) {category : Option Str}
    (hcategory : category ≠ some []) (tag : Str) :
    searchFrom category tree tag ≠ .ok (some []) := by
  have hok : ∀ result : Option Str, result ≠ some [] →
      (Except.ok result : Except PyErr (Option Str)) ≠ .ok (some []) :=
    fun _ hne h => hne (Except.ok.inj h)
  induction hnamed generalizing category tag with
  | @node own length next hown hnext ih =>
    have hsofar := or_ne_empty hown hcategory
    rw [searchFrom.eq_def]
    dsimp only
    split
    · cases length with
      | none => exact hok _ hsofar
      | some keyLength =>
        dsimp only
        split
        · exact hok _ hsofar
        · cases next with
          | none => simp
          | some nodes =>
            dsimp only
            split
            · exact hok _ hsofar
            · rename_i nextTree hlookup
              exact ih nodes rfl _ (Dict.mem_of_lookup hlookup) hsofar _
    · cases next with
      | none => exact hok _ hsofar
      | some nodes =>
        dsimp only
        split
        · simp
        · rename_i leaf hlookup
          have hleaf := (hnext nodes rfl _ (Dict.mem_of_lookup hlookup)).category_ne
          split
          · simp
          · rename_i category hcategory
            exact hok _ (hcategory ▸ hleaf)

theorem searchTree_ne {tree : Tree} (hnamed : Named tree) (tag : Str) :
    searchTree tree tag ≠ .ok (some []) :=
  searchFrom_ne hnamed (Option.some_ne_none []).symm tag

theorem defaultCategory_ne (sect : Section) : defaultCategory sect ≠ [] := by
  unfold defaultCategory
  split <;> rw [chars_ofList] <;> exact List.cons_ne_nil _ _

theorem categorize_ne {schema : Schema} (hnamed : schema.Named) {name : Option Str}
    {default category : Str} (hdefault : default ≠ [])
    (h : categorize schema name default = .ok category) : category ≠ [] := by
  obtain ⟨found, hdirect, h⟩ := bind_eq_ok h
  cases found with
  | some direct =>
    cases h
    rintro rfl
    exact searchTree_ne hnamed.1 _ hdirect
  | none =>
    cases name with
    | none => cases h
    | some name =>
      obtain ⟨found, hreverse, h⟩ := bind_eq_ok h
      cases found with
      | some reverse =>
        cases h
        rintro rfl
        exact searchTree_ne hnamed.2 _ hreverse
      | none =>
        cases h
        exact hdefault

/-- The category under which the values of a recorded name are added. -/
def categoryOf (schema : Schema) (sect : Section) (name : Option Str) : Except PyErr Str :=
  lookedUp schema name >>= fun name => categorize schema name (defaultCategory sect)

theorem categoryOf_ne {schema : Schema} (hnamed : schema.Named) {sect : Section}
    {name : Option Str} {category : Str} (h : categoryOf schema sect name = .ok category) :
    category ≠ [] := by
  obtain ⟨name, -, h⟩ := bind_eq_ok h
  exact categorize_ne hnamed (defaultCategory_ne sect) h

/-! ## The entries of a category -/

theorem suffix_getLast (label : Label) :
    (suffix label).getLast? = some (match label with | .time => 'e' | .calls => 's') := by
  cases label <;> simp only [suffix, Label.text] <;> rw [chars_ofList] <;> rfl

theorem suffix_ne (label : Label) : suffix label ≠ [] := List.cons_ne_nil _ _

theorem isSuffix_subCategory {category : Str} {label l : Label} :
    suffix l <:+ subCategory category label ↔ label = l := by
  constructor
  · intro ⟨t, ht⟩
    have hlast := congrArg List.getLast? ht
    rw [subCategory, List.getLast?_append_of_ne_nil _ (suffix_ne l),
      List.getLast?_append_of_ne_nil _ (suffix_ne label), suffix_getLast, suffix_getLast] at hlast
    cases label <;> cases l <;> simp at hlast ⊢
  · rintro rfl
    exact List.suffix_append _ _

theorem subCategory_inj {category c : Str} {label l : Label} :
    subCategory category label = subCategory c l ↔ category = c ∧ label = l := by
  constructor
  · intro h
    have hlabel : label = l := isSuffix_subCategory.mp ⟨c, h.symm⟩
    subst hlabel
    exact ⟨List.append_cancel_right h, rfl⟩
  · rintro ⟨rfl, rfl⟩
    rfl

/-- The sum of the entries of all categories. -/
def total (label : Label) (output : Output) : ℚ :=
  Tally.total (fun key => suffix label <:+ key) output

/-! ## What a run adds -/

/-- A name of a section with its values. -/
abbrev Row := Section × Option Str × List (Int × Int)

/-- The items of the two sections in the order of the loop. -/
def rows (metrics : Metrics) : List Row :=
  (metrics.table .device).map (Prod.mk .device) ++ (metrics.table .comm).map (Prod.mk .comm)

section

variable (aggregator : List Int → Except PyErr ℚ) (schema : Schema)

def category (row : Row) : Str := (categoryOf schema row.1 row.2.1).toOption.getD []

def amount (label : Label) (row : Row) : ℚ :=
  (aggregator (row.2.2.map label.get)).toOption.getD 0

def additions (row : Row) : Output :=
  extractors.map fun label => (subCategory (category schema row) label, amount aggregator label row)

/-- The name has a category and its values have aggregates. -/
structure Summarizable (row : Row) : Prop where
  categorized : ∃ category, categoryOf schema row.1 row.2.1 = .ok category ∧ category ≠ []
  aggregated : ∀ label : Label, ∃ value, aggregator (row.2.2.map label.get) = .ok value

end

section

variable {aggregator : List Int → Except PyErr ℚ} {schema : Schema}

theorem Summarizable.aggregate_eq {row : Row} (h : Summarizable aggregator schema row)
    (label : Label) : aggregator (row.2.2.map label.get) = .ok (amount aggregator label row) := by
  obtain ⟨value, hvalue⟩ := h.aggregated label
  rw [amount, hvalue]
  rfl

theorem addItem_eq {row : Row} (h : Summarizable aggregator schema row) (out : Output) :
    addItem aggregator schema row.1 out row.2 =
      .ok (Tally.addAll out (additions aggregator schema row)) := by
  obtain ⟨c, hcategory, hne⟩ := h.categorized
  have hc : category schema row = c := by
    rw [category, hcategory]
    rfl
  have hlabels : extractors.foldlM (addLabel aggregator c row.2.2) out =
      .ok (Tally.addAll out (additions aggregator schema row)) := by
    simp only [extractors, List.foldlM_cons, List.foldlM_nil, addLabel, h.aggregate_eq, additions,
      hc]
    rfl
  obtain ⟨name, hname, hcategorize⟩ := bind_eq_ok hcategory
  rw [addItem, hname]
  change (categorize schema name (defaultCategory row.1) >>= _) = _
  rw [hcategorize]
  change (if c ≠ [] then _ else _) = _
  rw [if_pos hne, hlabels]

/-- One section adds what its items add. -/
theorem addSection_eq {metrics : Metrics} {sect : Section}
    (h : ∀ item ∈ metrics.table sect, Summarizable aggregator schema (sect, item)) (out : Output) :
    addSection aggregator schema metrics out sect =
      .ok (Tally.addAll out (((metrics.table sect).map (Prod.mk sect)).flatMap
        (additions aggregator schema))) := by
  unfold addSection
  revert h
  induction metrics.table sect generalizing out with
  | nil => exact fun _ => rfl
  | cons item items ih =>
    intro h
    have hitem := addItem_eq (h item List.mem_cons_self) out
    rw [List.foldlM_cons, hitem]
    change items.foldlM (addItem aggregator schema sect) _ = _
    rw [ih _ (fun item hitem => h item (List.mem_cons_of_mem _ hitem)), List.map_cons,
      List.flatMap_cons, Tally.addAll_append]

theorem output_eq {metrics : Metrics}
    (h : ∀ row ∈ rows metrics, Summarizable aggregator schema row) :
    output aggregator schema metrics =
      .ok (Tally.addAll [] ((rows metrics).flatMap (additions aggregator schema))) := by
  have hdevice : ∀ item ∈ metrics.table .device, Summarizable aggregator schema (.device, item) :=
    fun item hitem => h _ (List.mem_append_left _ (List.mem_map_of_mem hitem))
  have hcomm : ∀ item ∈ metrics.table .comm, Summarizable aggregator schema (.comm, item) :=
    fun item hitem => h _ (List.mem_append_right _ (List.mem_map_of_mem hitem))
  rw [output, List.foldlM_cons, addSection_eq hdevice]
  change [Section.comm].foldlM (addSection aggregator schema metrics) _ = _
  rw [List.foldlM_cons, addSection_eq hcomm, rows, List.flatMap_append, Tally.addAll_append]
  rfl

theorem total_output {metrics : Metrics} {out : Output}
    (h : ∀ row ∈ rows metrics, Summarizable aggregator schema row)
    (hout : output aggregator schema metrics = .ok out) (label : Label) :
    total label out = ((rows metrics).map (amount aggregator label)).sum := by
  have hrow (row : Row) : ((additions aggregator schema row).map fun e =>
      if suffix label <:+ e.1 then e.2 else 0).sum = amount aggregator label row := by
    cases label <;> simp [additions, extractors, isSuffix_subCategory]
  rw [output_eq h] at hout
  obtain rfl := Except.ok.inj hout
  rw [total, Tally.total_addAll, Tally.sum_flatMap]
  simp only [decide_eq_true_eq, hrow]
  exact zero_add _

theorem value_output {metrics : Metrics} {out : Output}
    (h : ∀ row ∈ rows metrics, Summarizable aggregator schema row)
    (hout : output aggregator schema metrics = .ok out) (c : Str) (label : Label) :
    Tally.value out (subCategory c label) = ((rows metrics).map fun row =>
      if category schema row = c then amount aggregator label row else 0).sum := by
  have hrow (row : Row) : ((additions aggregator schema row).map fun e =>
      if e.1 = subCategory c label then e.2 else 0).sum =
        if category schema row = c then amount aggregator label row else 0 := by
    cases label <;> simp [additions, extractors, subCategory_inj]
  rw [output_eq h] at hout
  obtain rfl := Except.ok.inj hout
  rw [Tally.value_addAll, Tally.sum_flatMap]
  simp only [hrow]
  exact zero_add _

end

/-! ## The recorded values -/

/-- Values that the parser appended under one name of a section. -/
structure Recorded where
  sect : Section
  name : Option Str
  values : List (Int × Int)

def addValues (metrics : Metrics) (r : Recorded) : Metrics :=
  r.values.foldl (fun metrics value => metrics.append r.sect r.name value) metrics

/-- The metrics of a collection of records, grouped by section and name. -/
def collect (records : List Recorded) : Metrics := records.foldl addValues {}

/-- The values of the records of the two sections that are summarized; a record without a
section is one of the last section. -/
def summarized (records : List Recorded) : List (Int × Int) :=
  (records.filter fun r => r.sect ≠ .api).flatMap Recorded.values

/-- What the records append to the table of a section. -/
def appended (records : List Recorded) (sect : Section) : List (Option Str × (Int × Int)) :=
  (records.filter fun r => r.sect.stored = sect.stored).flatMap fun r =>
    r.values.map (Prod.mk r.name)

theorem table_append (metrics : Metrics) (sect s : Section) (name : Option Str)
    (value : Int × Int) :
    (metrics.append sect name value).table s =
      if sect.stored = s.stored then Dict.append (metrics.table s) name value
      else metrics.table s := by
  cases sect <;> cases s <;> rfl

theorem table_addValues (metrics : Metrics) (r : Recorded) (s : Section) :
    (addValues metrics r).table s =
      if r.sect.stored = s.stored then
        Dict.appendAll (metrics.table s) (r.values.map (Prod.mk r.name))
      else metrics.table s := by
  unfold addValues
  induction r.values generalizing metrics with
  | nil => exact (ite_self _).symm
  | cons value values ih =>
    rw [List.foldl_cons, ih, table_append]
    by_cases hsect : r.sect.stored = s.stored
    · rw [if_pos hsect, if_pos hsect, if_pos hsect]
      rfl
    · rw [if_neg hsect, if_neg hsect, if_neg hsect]

theorem appended_cons (r : Recorded) (records : List Recorded) (s : Section) :
    appended (r :: records) s =
      (if r.sect.stored = s.stored then r.values.map (Prod.mk r.name) else []) ++
        appended records s := by
  rw [appended, appended, List.filter_cons]
  by_cases hsect : r.sect.stored = s.stored
  · rw [if_pos hsect, if_pos (decide_eq_true hsect), List.flatMap_cons]
  · rw [if_neg hsect, if_neg (by simpa using hsect), List.nil_append]

theorem collect_table (records : List Recorded) (s : Section) :
    (collect records).table s = Dict.appendAll [] (appended records s) := by
  have hrun (metrics : Metrics) : (records.foldl addValues metrics).table s =
      Dict.appendAll (metrics.table s) (appended records s) := by
    induction records generalizing metrics with
    | nil => rfl
    | cons r records ih =>
      rw [List.foldl_cons, ih, table_addValues, appended_cons, Dict.appendAll_append]
      split <;> rfl
  have hempty : ({} : Metrics).table s = [] := by cases s <;> rfl
  rw [collect, hrun, hempty]

/-- What is appended to the tables of the two sections is what is summarized. -/
theorem appended_perm (records : List Recorded) :
    ((appended records .device).map Prod.snd ++ (appended records .comm).map Prod.snd).Perm
      (summarized records) := by
  have hvalues (r : Recorded) : (r.values.map (Prod.mk r.name)).map Prod.snd = r.values := by
    simp
  induction records with
  | nil => exact List.Perm.refl _
  | cons r records ih =>
    rw [appended_cons, appended_cons, summarized, List.filter_cons, List.map_append,
      List.map_append]
    cases hsect : r.sect with
    | api => exact ih
    | device =>
      rw [if_pos rfl, hvalues, if_neg (by decide), if_pos (by decide), List.append_assoc,
        List.flatMap_cons]
      exact ih.append_left _
    | none | comm =>
      rw [if_neg (by decide), if_pos (by decide), hvalues, if_pos (by decide), List.flatMap_cons]
      exact (List.perm_append_comm_assoc _ _ _).trans (ih.append_left _)

/-- The tables of the two sections hold every summarized value once. -/
theorem rows_perm (records : List Recorded) :
    ((rows (collect records)).flatMap fun row => row.2.2).Perm (summarized records) := by
  have htable (s : Section) : (((collect records).table s).map (Prod.mk s)).flatMap
      (fun row : Row => row.2.2) = ((collect records).table s).flatMap Prod.snd :=
    List.flatMap_map _ _ _
  have hvalues (s : Section) : (((collect records).table s).flatMap Prod.snd).Perm
      ((appended records s).map Prod.snd) := by
    rw [collect_table]
    exact Dict.flatMap_appendAll_perm [] _
  rw [rows, List.flatMap_append, htable, htable]
  exact ((hvalues .device).append (hvalues .comm)).trans (appended_perm records)

theorem nodup_collect (records : List Recorded) (s : Section) :
    (((collect records).table s).map Prod.fst).Nodup := by
  have hnil : (([] : Table).map Prod.fst).Nodup := List.nodup_nil
  rw [collect_table]
  exact Dict.nodup_appendAll hnil _

theorem mem_appended {records : List Recorded} {s : Section} {name : Option Str} :
    name ∈ (appended records s).map Prod.fst ↔
      ∃ r ∈ records, r.sect.stored = s.stored ∧ r.name = name ∧ r.values ≠ [] := by
  constructor
  · intro h
    obtain ⟨entry, hentry, rfl⟩ := List.mem_map.mp h
    obtain ⟨r, hr, hentry⟩ := List.mem_flatMap.mp hentry
    obtain ⟨value, hvalue, rfl⟩ := List.mem_map.mp hentry
    obtain ⟨hr, hsect⟩ := List.mem_filter.mp hr
    exact ⟨r, hr, of_decide_eq_true hsect, rfl, List.ne_nil_of_mem hvalue⟩
  · rintro ⟨r, hr, hsect, rfl, hne⟩
    obtain ⟨value, values, hvalues⟩ := List.exists_cons_of_ne_nil hne
    refine List.mem_map.mpr ⟨(r.name, value), List.mem_flatMap.mpr ⟨r, ?_, ?_⟩, rfl⟩
    · exact List.mem_filter.mpr ⟨hr, decide_eq_true hsect⟩
    · exact List.mem_map_of_mem (hvalues ▸ List.mem_cons_self)

/-- The names of a table are the recorded ones, and each has values. -/
theorem mem_keys_collect {records : List Recorded} {s : Section} {name : Option Str} :
    name ∈ ((collect records).table s).map Prod.fst ↔
      ∃ r ∈ records, r.sect.stored = s.stored ∧ r.name = name ∧ r.values ≠ [] := by
  rw [collect_table, Dict.mem_keys_appendAll, mem_appended]
  simp

theorem collect_values_ne {records : List Recorded} {s : Section}
    {item : Option Str × List (Int × Int)} (h : item ∈ (collect records).table s) :
    item.2 ≠ [] := by
  rw [collect_table] at h
  exact Dict.mem_appendAll_ne_nil h

/-! ## The metrics of the parser -/

def Collected (metrics : Metrics) : Prop := ∃ records, metrics = collect records

theorem Collected.append {metrics : Metrics} (h : Collected metrics) (sect : Section)
    (name : Option Str) (value : Int × Int) : Collected (metrics.append sect name value) := by
  obtain ⟨records, rfl⟩ := h
  refine ⟨records ++ [⟨sect, name, [value]⟩], ?_⟩
  rw [collect, collect, List.foldl_append]
  rfl

theorem Collected.addRecord {sect : Section} {nameLabel : Str} {metrics metrics' : Metrics}
    {r : Sections.Record} (hcollected : Collected metrics)
    (h : addRecord sect nameLabel metrics r = .ok metrics') : Collected metrics' := by
  obtain ⟨name, -, h⟩ := bind_eq_ok h
  obtain ⟨time, -, h⟩ := bind_eq_ok h
  obtain ⟨calls, -, h⟩ := bind_eq_ok h
  obtain rfl := Except.ok.inj h
  exact hcollected.append sect name (time, calls)

theorem Collected.addTable {sect : Section} {nameLabel : Str} {metrics metrics' : Metrics}
    {lines rest : List Str} (hcollected : Collected metrics)
    (h : addTable sect nameLabel metrics lines = .ok (metrics', rest)) : Collected metrics' := by
  unfold Sections.addTable at h
  split at h
  · cases h
  · split at h
    · cases h
    · rename_i hrecords
      cases h
      exact foldlM_invariant (fun _ _ _ => Collected.addRecord) hcollected hrecords

theorem Collected.addMetric {sect : Section} {name : Str} {metrics metrics' : Metrics} {line : Str}
    (hcollected : Collected metrics) (h : addMetric sect name metrics line = .ok metrics') :
    Collected metrics' := by
  unfold Sections.addMetric at h
  split at h
  · cases h
    exact hcollected.append _ _ _
  · cases h

theorem Collected.action {sect sect' : Section} {metrics metrics' : Metrics} {index : Nat}
    {line : Str} {rest rest' : List Str} (hcollected : Collected metrics)
    (h : action sect metrics index line rest = .ok (sect', metrics', rest')) :
    Collected metrics' := by
  rcases action_cases h with ⟨s, nameLabel, htable⟩ | ⟨name, hmetric, -⟩ | ⟨rfl, -⟩
  · exact hcollected.addTable htable
  · exact hcollected.addMetric hmetric
  · exact hcollected

theorem Collected.sectionLoop {sect : Section} {metrics metrics' : Metrics} {lines : List Str}
    (hcollected : Collected metrics) (h : sectionLoop sect metrics lines = .ok metrics') :
    Collected metrics' := by
  induction hlength : lines.length using Nat.strong_induction_on generalizing sect metrics lines with
  | _ n ih =>
    rw [Sections.sectionLoop] at h
    split at h
    · obtain rfl := Except.ok.inj h
      exact hcollected
    · rename_i hskip
      split at h
      · cases h
      · rename_i haction
        have hlt := Nat.lt_of_le_of_lt (action_length haction) (skipTo_length hskip)
        exact ih _ (hlength ▸ hlt) (hcollected.action haction) h rfl

/-- The metrics of the parser are those of some records. -/
theorem collected_aprocess {files : List ByteString.Bytes} {metrics : Metrics}
    (h : aprocess files = .ok metrics) : Collected metrics := by
  have hfile (metrics metrics' : Metrics) (file : ByteString.Bytes) (hm : Collected metrics)
      (hf : processFile metrics file = .ok metrics') : Collected metrics' := by
    unfold processFile at hf
    split at hf
    · cases hf
    · exact hm.sectionLoop hf
  exact foldlM_invariant (fun m file m' => hfile m m' file) ⟨[], rfl⟩ h

/-! ## Where a name contributes -/

def setName (metrics : Metrics) (sect : Section) (name : Option Str)
    (values : List (Int × Int)) : Metrics :=
  metrics.setTable (Dict.set (metrics.table sect) name values) sect

def eraseName (metrics : Metrics) (sect : Section) (name : Option Str) : Metrics :=
  metrics.setTable ((metrics.table sect).filter fun item => !item.1 == name) sect

/-- Whatever values the name has, their aggregates are in the entries of the category and in
no others. -/
def Contributes (aggregator : List Int → Except PyErr ℚ) (schema : Schema) (metrics : Metrics)
    (sect : Section) (name : Option Str) (category : Str) : Prop :=
  ∃ others, output aggregator schema (eraseName metrics sect name) = .ok others ∧
    ∀ values ≠ [], ∃ all, output aggregator schema (setName metrics sect name values) = .ok all ∧
      ∀ label : Label, ∃ value, aggregator (values.map label.get) = .ok value ∧
        ∀ c, Tally.value all (subCategory c label) =
          Tally.value others (subCategory c label) + if c = category then value else 0

/-- The table of a summarized section is one part of the rows. -/
theorem rows_setTable (metrics : Metrics) {sect : Section} (hsect : sect ≠ .api) :
    ∃ left right, ∀ table, rows (metrics.setTable table sect) =
      left ++ (table.map (Prod.mk sect.stored) ++ right) := by
  cases sect with
  | api => exact absurd rfl hsect
  | device => exact ⟨[], metrics.comm.map (Prod.mk .comm), fun _ => rfl⟩
  | none | comm =>
    refine ⟨metrics.device.map (Prod.mk .device), [], fun table => ?_⟩
    rw [List.append_nil]
    rfl

theorem setTable_table (metrics : Metrics) (sect : Section) :
    metrics.setTable (metrics.table sect) sect = metrics := by
  cases sect <;> rfl

/-- A name has one row, where its values are set, and erasing the name takes the row out. -/
theorem exists_row {metrics : Metrics} {sect : Section} (hsect : sect ≠ .api)
    (hnodup : ((metrics.table sect).map Prod.fst).Nodup) {name : Option Str}
    (hname : name ∈ (metrics.table sect).map Prod.fst) :
    ∃ before old after, rows metrics = before ++ (sect.stored, name, old) :: after ∧
      (∀ values, rows (setName metrics sect name values) =
        before ++ (sect.stored, name, values) :: after) ∧
      rows (eraseName metrics sect name) = before ++ after := by
  obtain ⟨before, old, after, htable, hset, herase⟩ := Dict.exists_place hnodup hname
  obtain ⟨left, right, hrows⟩ := rows_setTable metrics hsect
  refine ⟨left ++ before.map (Prod.mk sect.stored), old,
    after.map (Prod.mk sect.stored) ++ right, ?_, fun values => ?_, ?_⟩
  · rw [← setTable_table metrics sect, hrows, htable]
    simp
  · rw [setName, hrows, hset]
    simp
  · rw [eraseName, hrows, herase]
    simp

theorem defaultCategory_stored (sect : Section) :
    defaultCategory sect.stored = defaultCategory sect := by
  cases sect <;> rfl

theorem category_stored {schema : Schema} {sect : Section} {name : Option Str} {c : Str}
    (h : categoryOf schema sect name = .ok c) (values : List (Int × Int)) :
    category schema (sect.stored, name, values) = c := by
  rw [category, categoryOf, defaultCategory_stored, ← categoryOf, h]
  rfl

section

variable {aggregator : List Int → Except PyErr ℚ} {schema : Schema} {metrics : Metrics}
variable {sect : Section} {name : Option Str} {c : Str}

theorem contributes_of_category (hrows : ∀ row ∈ rows metrics, Summarizable aggregator schema row)
    (haggregator : ∀ values ≠ [], ∃ value, aggregator values = .ok value) (hsect : sect ≠ .api)
    (hnodup : ((metrics.table sect).map Prod.fst).Nodup)
    (hname : name ∈ (metrics.table sect).map Prod.fst)
    (hcategory : categoryOf schema sect name = .ok c) :
    Contributes aggregator schema metrics sect name c := by
  obtain ⟨before, old, after, hall, hset, herase⟩ := exists_row hsect hnodup hname
  simp only [hall, List.mem_append, List.mem_cons, or_imp, forall_and, forall_eq] at hrows
  obtain ⟨hbefore, hold, hafter⟩ := hrows
  have hothers : ∀ row ∈ rows (eraseName metrics sect name),
      Summarizable aggregator schema row := by
    simp only [herase, List.mem_append, or_imp, forall_and]
    exact ⟨hbefore, hafter⟩
  refine ⟨_, output_eq hothers, fun values hvalues => ?_⟩
  have hrow : Summarizable aggregator schema (sect.stored, name, values) :=
    ⟨hold.categorized, fun label => haggregator _ (by simpa using hvalues)⟩
  have hset_rows : ∀ row ∈ rows (setName metrics sect name values),
      Summarizable aggregator schema row := by
    simp only [hset, List.mem_append, List.mem_cons, or_imp, forall_and, forall_eq]
    exact ⟨hbefore, hrow, hafter⟩
  refine ⟨_, output_eq hset_rows, fun label => ⟨_, hrow.aggregate_eq label, fun c' => ?_⟩⟩
  rw [value_output hset_rows (output_eq hset_rows), value_output hothers (output_eq hothers), hset,
    herase, List.map_append, List.map_append, List.map_cons, List.sum_append, List.sum_append,
    List.sum_cons, category_stored hcategory, add_assoc, add_comm (List.sum _) (ite _ _ _)]
  simp only [eq_comm]

/-- The entries tell the category of a name, since a call that takes one nanosecond shows. -/
theorem contributes_unique {a : Aggregator} {c' : Str}
    (h : Contributes a.apply schema metrics sect name c)
    (h' : Contributes a.apply schema metrics sect name c') : c = c' := by
  obtain ⟨others, hothers, hvalues⟩ := h
  obtain ⟨others', hothers', hvalues'⟩ := h'
  obtain ⟨all, hall, hlabels⟩ := hvalues [(1, 1)] (List.cons_ne_nil _ _)
  obtain ⟨all', hall', hlabels'⟩ := hvalues' [(1, 1)] (List.cons_ne_nil _ _)
  obtain ⟨value, hvalue, hentries⟩ := hlabels .time
  obtain ⟨value', -, hentries'⟩ := hlabels' .time
  obtain rfl := Except.ok.inj (hothers.symm.trans hothers')
  obtain rfl := Except.ok.inj (hall.symm.trans hall')
  have hone : value = 1 := by
    have hsingle := a.apply_singleton 1
    exact Except.ok.inj (hvalue.symm.trans hsingle)
  by_contra hne
  have hentry := (hentries c).symm.trans (hentries' c)
  rw [if_pos rfl, if_neg hne, hone] at hentry
  exact one_ne_zero (add_left_cancel hentry)

end

/-! ## The main result -/

/-- Every row of the collected records has a category and aggregates. -/
theorem summarizable_collect (aggregator : Aggregator) {schema : Schema} (hnamed : schema.Named)
    {records : List Recorded}
    (hcategorized : ∀ r ∈ records, r.sect ≠ .api → r.values ≠ [] →
      ∃ category, categoryOf schema r.sect r.name = .ok category) :
    ∀ row ∈ rows (collect records), Summarizable aggregator.apply schema row := by
  have hsect (s : Section) (hs : s = .device ∨ s = .comm) :
      ∀ item ∈ (collect records).table s, Summarizable aggregator.apply schema (s, item) := by
    intro item hitem
    obtain ⟨r, hr, hstored, hname, hne⟩ :=
      mem_keys_collect.mp (List.mem_map_of_mem (f := Prod.fst) hitem)
    have hapi : r.sect ≠ .api := by
      intro hapi
      rcases hs with rfl | rfl <;> rw [hapi] at hstored <;> cases hstored
    obtain ⟨c, hc⟩ := hcategorized r hr hapi hne
    have hdefault : defaultCategory r.sect = defaultCategory s := by
      rw [← defaultCategory_stored, hstored, defaultCategory_stored]
    rw [hname, categoryOf, hdefault, ← categoryOf] at hc
    refine ⟨⟨c, hc, categoryOf_ne hnamed hc⟩, fun label => aggregator.apply_ok ?_⟩
    simpa using collect_values_ne hitem
  intro row hrow
  rcases List.mem_append.mp hrow with hrow | hrow
  · obtain ⟨item, hitem, rfl⟩ := List.mem_map.mp hrow
    exact hsect .device (Or.inl rfl) item hitem
  · obtain ⟨item, hitem, rfl⟩ := List.mem_map.mp hrow
    exact hsect .comm (Or.inr rfl) item hitem

/-- The aggregates of the aggregator `sum` add up to the sum of all values. -/
theorem sum_amounts (label : Label) (rows : List Row) :
    (rows.map (amount (Aggregator.apply .sum) label)).sum =
      (((rows.flatMap fun row => row.2.2).map label.get).sum : ℚ) := by
  induction rows with
  | nil => rfl
  | cons row rows ih =>
    have hrow : amount (Aggregator.apply .sum) label row =
        ((row.2.2.map label.get).sum : Int) := rfl
    rw [List.map_cons, List.sum_cons, ih, List.flatMap_cons, List.map_append, List.sum_append, hrow,
      Int.cast_add]

/-- The sums of times and of calls are conserved, and every name has one category. -/
theorem summary_conserves {schema : Schema} (hnamed : schema.Named) {records : List Recorded}
    (hcategorized : ∀ r ∈ records, r.sect ≠ .api → r.values ≠ [] →
      ∃ category, categoryOf schema r.sect r.name = .ok category) :
    (∃ out, output (Aggregator.apply .sum) schema (collect records) = .ok out ∧
      ∀ label : Label, total label out = ((summarized records).map label.get).sum) ∧
    ∀ (aggregator : Aggregator), ∀ r ∈ records, r.sect ≠ .api → r.values ≠ [] →
      ∃! category, Contributes aggregator.apply schema (collect records) r.sect r.name category := by
  have hrows (aggregator : Aggregator) := summarizable_collect aggregator hnamed hcategorized
  constructor
  · have hout := output_eq (hrows .sum)
    refine ⟨_, hout, fun label => ?_⟩
    rw [total_output (hrows .sum) hout, sum_amounts]
    exact congrArg _ (((rows_perm records).map label.get).sum_eq)
  · intro aggregator r hr hsect hne
    obtain ⟨c, hc⟩ := hcategorized r hr hsect hne
    have hname := mem_keys_collect.mpr ⟨r, hr, rfl, rfl, hne⟩
    have hcontributes := contributes_of_category (hrows aggregator)
      (fun _ => aggregator.apply_ok) hsect (nodup_collect records r.sect) hname hc
    exact ⟨c, hcontributes, fun _ hother => contributes_unique hother hcontributes⟩

/-! ## Names that merge -/

def gemmSchema : Schema where
  ignoreSpaces := true
  direct := .node none (some 4) (some [(chars "gemm", .node (some (chars "matmul")) none none)])
  reverse := .node none none none

/-- Two names that are the same without spaces, one without a rule and one of the host. -/
def gemmRecords : List Recorded :=
  [⟨.device, some (chars "ge mm"), [(2, 1)]⟩, ⟨.comm, some (chars "copy"), [(5, 1)]⟩,
    ⟨.api, some (chars "gemm"), [(7, 1)]⟩, ⟨.device, some (chars "gemm"), [(3, 1), (4, 2)]⟩]

theorem named_leaf {category : Option Str} (h : category ≠ some []) :
    Named (.node category none none) :=
  .node h (fun _ hnodes => by cases hnodes)

theorem gemmSchema_named : gemmSchema.Named := by
  have hmatmul : some (chars "matmul") ≠ some [] := by
    rw [chars_ofList]
    decide
  constructor
  · refine .node (by decide) fun nodes hnodes e he => ?_
    cases hnodes
    obtain rfl := List.mem_singleton.mp he
    exact named_leaf hmatmul
  · exact named_leaf (by decide)

theorem searchFrom_end (own category : Option Str) (tag : Str) :
    searchFrom category (.node own none none) tag = .ok (own.or category) := by
  rw [searchFrom.eq_def]
  dsimp only
  split <;> rfl

theorem gemm_searchTree {name : Str} (h : name ≠ []) :
    ∃ category, searchTree gemmSchema.direct name = .ok category := by
  rw [searchTree, gemmSchema, searchFrom.eq_def]
  dsimp only
  rw [if_pos h]
  split
  · exact ⟨_, rfl⟩
  · split
    · exact ⟨_, rfl⟩
    · rename_i hlookup
      obtain ⟨-, rfl⟩ := Prod.mk.inj (List.mem_singleton.mp (Dict.mem_of_lookup hlookup))
      exact ⟨_, searchFrom_end _ _ _⟩

theorem gemm_categoryOf (sect : Section) {name : Str} (h : removeSpaces name ≠ []) :
    ∃ category, categoryOf gemmSchema sect (some name) = .ok category := by
  have hreverse : searchTree gemmSchema.reverse (removeSpaces name).reverse = .ok none :=
    searchFrom_end none none _
  obtain ⟨found, hdirect⟩ := gemm_searchTree h
  change ∃ category, categorize gemmSchema (some (removeSpaces name)) _ = .ok category
  rw [categorize, Option.getD_some, hdirect]
  cases found with
  | some category => exact ⟨category, rfl⟩
  | none =>
    change ∃ category, (searchTree gemmSchema.reverse (removeSpaces name).reverse >>= _) = _
    rw [hreverse]
    exact ⟨_, rfl⟩

theorem summary_conserves_gemm :
    (∃ out, output (Aggregator.apply .sum) gemmSchema (collect gemmRecords) = .ok out ∧
      total .time out = 14 ∧ total .calls out = 5) ∧
    ∃! category, Contributes (Aggregator.apply .median) gemmSchema (collect gemmRecords) .device
      (some (chars "ge mm")) category := by
  have hcategorized : ∀ r ∈ gemmRecords, r.sect ≠ .api → r.values ≠ [] →
      ∃ category, categoryOf gemmSchema r.sect r.name = .ok category := by
    have hnames : ∀ name ∈ [chars "ge mm", chars "copy", chars "gemm"],
        removeSpaces name ≠ [] := by
      repeat rw [chars_ofList]
      decide
    intro r hr _ _
    simp only [gemmRecords, List.mem_cons, List.not_mem_nil, or_false] at hr
    rcases hr with rfl | rfl | rfl | rfl
    · exact gemm_categoryOf .device (hnames _ (by simp))
    · exact gemm_categoryOf .comm (hnames _ (by simp))
    · exact gemm_categoryOf .api (hnames _ (by simp))
    · exact gemm_categoryOf .device (hnames _ (by simp))
  obtain ⟨⟨out, hout, htotal⟩, hunique⟩ := summary_conserves gemmSchema_named hcategorized
  refine ⟨⟨out, hout, htotal .time, htotal .calls⟩, ?_⟩
  exact hunique .median ⟨.device, some (chars "ge mm"), [(2, 1)]⟩ (by simp [gemmRecords])
    (by decide) (by simp)

end Unitrace.Summary.Aggregate
