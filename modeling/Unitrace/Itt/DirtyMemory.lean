import Unitrace.Itt.Metadata

/-!
# Metadata in dirty memory

The flag `isIndirectData` of a node keeps the value that the block from `malloc` had.
If it is set, the first bytes of the data are taken for an address. A task with one
item has no node; with two items the text depends on the memory.
-/
namespace Unitrace.Itt.DirtyMemory

open Unitrace.Lib.Text Unitrace.Lib.ByteString Unitrace.Lib.Fixed Unitrace.Itt.Control
open Unitrace.Itt.Tasks Unitrace.Itt.Metadata
open Unitrace.Trace.Record

inductive Add where
  | metadata (key : CStr) (type : MetadataType) (count : Nat) (data : Option Bytes)
  | str (key : CStr) (data : Option Bytes) (length : Nat)

/-- The pointer is null or points to as many values as the call says. -/
def Add.Valid : Add → Prop
  | .metadata _ type count data => ∀ bytes, data = some bytes →
      bytes.length = count * metadataTypeSizes type ∧ bytes.length < 2 ^ 63
  | .str _ data length => ∀ bytes, data = some bytes → bytes.length = length ∧ length < 2 ^ 63

abbrev ValidAdd := { a : Add // a.Valid }

def Add.call (c : UniController) (collector : IttCollector) (behind : Behind) (block : Block)
    (taskDesc : List ThreadTaskDescriptor) : Add → List ThreadTaskDescriptor
  | .metadata key type count data =>
    metadataAdd c collector behind block key type count data taskDesc
  | .str key data length => metadataStrAdd c collector behind block key data length taskDesc

/-- The item that a call adds, unless it is rejected. -/
def ValidAdd.item : ValidAdd → Option Item
  | ⟨.metadata key type count (some data), h⟩ =>
    if ht : count ≠ 0 ∧ typeValue type > typeValue .unknown ∧ typeValue type < typeValue .double then
      some
        { key := key, type := type, count := count, data := data
          count_pos := Nat.pos_of_ne_zero ht.1
          length_eq := (h data rfl).1
          small := (h data rfl).2 }
    else none
  | ⟨.str key (some data) length, h⟩ =>
    if ht : length ≠ 0 then
      some
        { key := key, type := .unknown, count := length, data := data
          count_pos := Nat.pos_of_ne_zero ht
          length_eq := (h data rfl).1.trans (Nat.mul_one length).symm
          small := (h data rfl).1 ▸ (h data rfl).2 }
    else none
  | _ => none

/-- The calls in order; `blocks n` is what `malloc` returns in the call with number `n`. -/
def addAll (c : UniController) (collector : IttCollector) (behind : Behind) :
    (Nat → Block) → List ValidAdd → List ThreadTaskDescriptor → List ThreadTaskDescriptor
  | _, [], taskDesc => taskDesc
  | blocks, a :: adds, taskDesc =>
    addAll c collector behind (fun n => blocks (n + 1)) adds
      (a.val.call c collector behind (blocks 0) taskDesc)

/-- The arguments in the record that `__itt_task_end` logs after the calls. -/
def renderedText (c : UniController) (collector : IttCollector) (behind : Behind)
    (blocks : Nat → Block) (adds : List ValidAdd) (domain : CStr) (now : UInt64)
    (taskDesc : List ThreadTaskDescriptor) : Option Bytes :=
  match taskEnd c collector (some (some domain)) now
      (addAll c collector behind blocks adds taskDesc) with
  | some (_, report) => report.logged.bind renderArgs
  | none => none

variable {c : UniController} {collector : IttCollector} {behind : Behind}

theorem call_eq (hc : c.isCollectionEnabled = true) (htrace : collector.chromeLoggingOn = true)
    (a : ValidAdd) (block : Block) (task : ThreadTaskDescriptor) (rest : List ThreadTaskDescriptor) :
    a.val.call c collector behind block (task :: rest) =
      match a.item with
      | none => task :: rest
      | some i => { task with
          metadataArgs := addItem behind block i.key i.type i.count i.data task.metadataArgs } ::
            rest := by
  obtain ⟨a, h⟩ := a
  cases a with
  | metadata key type count data =>
    cases data with
    | none => simp [Add.call, metadataAdd, hc, htrace, ValidAdd.item]
    | some data =>
      simp only [Add.call, metadataAdd, ValidAdd.item, hc, htrace, Bool.not_true, Bool.and_false,
        Bool.false_eq_true, ↓reduceIte]
      by_cases ht : count ≠ 0 ∧ typeValue type > typeValue .unknown ∧ typeValue type < typeValue .double
      · rw [if_pos ht, dif_pos ht]
      · rw [if_neg ht, dif_neg ht]
  | str key data length =>
    cases data with
    | none => simp [Add.call, metadataStrAdd, hc, htrace, ValidAdd.item]
    | some data =>
      simp only [Add.call, metadataStrAdd, ValidAdd.item, hc, htrace, Bool.not_true, Bool.and_false,
        Bool.false_eq_true, ↓reduceIte]
      by_cases ht : length ≠ 0
      · rw [if_pos ht, dif_pos ht]
      · rw [if_neg ht, dif_neg ht]

theorem item_ne_double {a : ValidAdd} {i : Item} (h : a.item = some i) : i.type ≠ .double := by
  obtain ⟨a, hv⟩ := a
  cases a with
  | metadata key type count data =>
    cases data with
    | none => cases h
    | some data =>
      simp only [ValidAdd.item] at h
      split at h
      · rename_i ht
        cases h
        intro hd
        have hlt := ht.2.2
        simp only at hd
        rw [hd] at hlt
        exact Nat.lt_irrefl _ hlt
      · cases h
  | str key data length =>
    cases data with
    | none => cases h
    | some data =>
      simp only [ValidAdd.item] at h
      split at h
      · cases h
        exact MetadataType.noConfusion
      · cases h

/-- The calls leave the task with the accepted items, whatever the nodes look like. -/
theorem addAll_represents (hc : c.isCollectionEnabled = true)
    (htrace : collector.chromeLoggingOn = true) {node : Item → IttNode → Prop}
    {blocks : Nat → Block} (hnode : ∀ (i : Item) (n : Nat),
      node i (newNode behind (blocks n) i.key i.type i.count i.data))
    (adds : List ValidAdd) {items : List Item} {task : ThreadTaskDescriptor}
    (rest : List ThreadTaskDescriptor) (h : Represents node items task.metadataArgs) :
    ∃ args, addAll c collector behind blocks adds (task :: rest) =
        { task with metadataArgs := args } :: rest ∧
      Represents node (items ++ adds.filterMap ValidAdd.item) args := by
  induction adds generalizing blocks items task with
  | nil => exact ⟨task.metadataArgs, rfl, by simpa using h⟩
  | cons a adds ih =>
    rw [addAll, call_eq hc htrace]
    have hnext : ∀ (i : Item) (n : Nat),
        node i (newNode behind (blocks (n + 1)) i.key i.type i.count i.data) :=
      fun i n => hnode i (n + 1)
    cases ha : a.item with
    | none =>
      rw [List.filterMap_cons_none ha]
      exact ih hnext h
    | some i =>
      rw [List.filterMap_cons_some ha, List.append_cons]
      exact ih hnext (represents_addItem h (hnode i 0))

/-! ## The sum of the bytes of a text -/

def byteSum (bytes : Bytes) : Nat := (bytes.map UInt8.toNat).sum

theorem byteSum_append (s t : Bytes) : byteSum (s ++ t) = byteSum s + byteSum t := by
  rw [byteSum, List.map_append, List.sum_append_nat]
  rfl

/-- An item with all bytes of its data replaced. -/
def constant (v : UInt8) (i : Item) : Item :=
  { i with
    data := List.replicate i.data.length v
    length_eq := by rw [List.length_replicate, i.length_eq]
    small := by rw [List.length_replicate]; exact i.small }

theorem element_replicate {width count i : Nat} (v : UInt8) (hi : i < count) :
    element width i (List.replicate (count * width) v) = List.replicate width v := by
  have hle : i * width + width ≤ count * width := by
    rw [← Nat.succ_mul]
    exact Nat.mul_le_mul_right width hi
  unfold element
  rw [List.drop_replicate, List.take_replicate]
  exact congrArg (List.replicate · v) (by omega)

/-- The same number over and over. -/
theorem numbersText_replicate (width : Nat) (render : Bytes → Str) (count : Nat) (v : UInt8) :
    numbersText width render count (List.replicate (count * width) v) =
      commaSeparated (List.replicate count (render (List.replicate width v))) := by
  unfold numbersText
  refine congrArg commaSeparated (List.eq_replicate_iff.mpr ⟨by simp, fun text htext => ?_⟩)
  obtain ⟨i, hi, rfl⟩ := List.mem_map.mp htext
  rw [element_replicate v (List.mem_range.mp hi)]

theorem byteSum_commaSeparated (count : Nat) (s : Str) :
    byteSum (commaSeparated (List.replicate (count + 1) s)) =
      byteSum (utf8 s) + count * byteSum (utf8 (',' :: s)) := by
  have hmore : byteSum (utf8 ((List.replicate count s).flatMap fun t => [','] ++ t)) =
      count * byteSum (utf8 (',' :: s)) := by
    induction count with
    | zero => simp [byteSum]
    | succ count ih =>
      rw [List.replicate_succ, List.flatMap_cons, utf8_append, byteSum_append, ih, Nat.succ_mul,
        Nat.add_comm]
      rfl
  rw [commaSeparated, List.replicate_succ, intercalate_cons, utf8_append, byteSum_append, hmore]

/-- A greater number makes a greater list. -/
theorem byteSum_lt {count : Nat} (hcount : 0 < count) {s t : Str}
    (h : byteSum (utf8 s) < byteSum (utf8 t)) :
    byteSum (commaSeparated (List.replicate count s)) <
      byteSum (commaSeparated (List.replicate count t)) := by
  obtain ⟨n, rfl⟩ := Nat.exists_eq_add_of_lt hcount
  have hcomma : ∀ u : Str, byteSum (utf8 (',' :: u)) = byteSum (utf8 [',']) + byteSum (utf8 u) := by
    intro u
    rw [← byteSum_append, ← utf8_append]
    rfl
  have hmul : n * byteSum (utf8 (',' :: s)) ≤ n * byteSum (utf8 (',' :: t)) := by
    refine Nat.mul_le_mul_left n ?_
    rw [hcomma s, hcomma t]
    omega
  rw [Nat.zero_add, byteSum_commaSeparated, byteSum_commaSeparated]
  omega

/-- Bytes of 127 make greater numbers than zeros, in every format. -/
theorem numbers_lt :
    (∀ width ∈ [2, 4, 8],
      byteSum (utf8 (decimal (leNat (List.replicate width 0)))) <
          byteSum (utf8 (decimal (leNat (List.replicate width 127)))) ∧
        byteSum (utf8 (signedDecimal (leInt width (List.replicate width 0)))) <
          byteSum (utf8 (signedDecimal (leInt width (List.replicate width 127))))) ∧
      byteSum (utf8 (packedText .binary32 (leNat (List.replicate 4 0)))) <
        byteSum (utf8 (packedText .binary32 (leNat (List.replicate 4 127)))) := by
  decide +kernel

theorem byteSum_numbersText_lt {width count : Nat} {render : Bytes → Str} (hcount : 0 < count)
    (h : byteSum (utf8 (render (List.replicate width 0))) <
      byteSum (utf8 (render (List.replicate width 127)))) :
    byteSum (numbersText width render count (List.replicate (count * width) 0)) <
      byteSum (numbersText width render count (List.replicate (count * width) 127)) := by
  rw [numbersText_replicate, numbersText_replicate]
  exact byteSum_lt hcount h

theorem byteSum_replicate (n : Nat) (v : UInt8) :
    byteSum (List.replicate n v) = n * v.toNat := by
  rw [byteSum, List.map_replicate, List.sum_replicate_nat]

theorem byteSum_convert_lt {i : Item} (h : i.type ≠ .double) :
    byteSum (convertDataToString (constant 0 i).node) <
      byteSum (convertDataToString (constant 127 i).node) := by
  have hlen := i.length_eq
  have hpos : i.count ≠ 0 := Nat.ne_of_gt i.count_pos
  obtain ⟨hnumbers, hfloat⟩ := numbers_lt
  obtain ⟨hunsigned2, hsigned2⟩ := hnumbers 2 (by simp)
  obtain ⟨hunsigned4, hsigned4⟩ := hnumbers 4 (by simp)
  obtain ⟨hunsigned8, hsigned8⟩ := hnumbers 8 (by simp)
  simp only [convertDataToString, Item.node, constant, hpos, ↓reduceIte, Bool.false_eq_true]
  cases htype : i.type with
  | unknown =>
    rw [htype, metadataTypeSizes, Nat.mul_one] at hlen
    have hcount := i.count_pos
    have htext (v : UInt8) : byteSum (lit "\"" ++ List.take i.count (List.replicate i.data.length v) ++
        lit "\"") = byteSum (lit "\"") + i.count * v.toNat + byteSum (lit "\"") := by
      rw [byteSum_append, byteSum_append, List.take_replicate, hlen, Nat.min_self, byteSum_replicate]
    simp only [htext]
    have hzero : (0 : UInt8).toNat = 0 := rfl
    have hlarge : (127 : UInt8).toNat = 127 := rfl
    rw [hzero, hlarge]
    omega
  | u64 => rw [htype] at hlen; rw [hlen]; exact byteSum_numbersText_lt i.count_pos hunsigned8
  | s64 => rw [htype] at hlen; rw [hlen]; exact byteSum_numbersText_lt i.count_pos hsigned8
  | u32 => rw [htype] at hlen; rw [hlen]; exact byteSum_numbersText_lt i.count_pos hunsigned4
  | s32 => rw [htype] at hlen; rw [hlen]; exact byteSum_numbersText_lt i.count_pos hsigned4
  | u16 => rw [htype] at hlen; rw [hlen]; exact byteSum_numbersText_lt i.count_pos hunsigned2
  | s16 => rw [htype] at hlen; rw [hlen]; exact byteSum_numbersText_lt i.count_pos hsigned2
  | float => rw [htype] at hlen; rw [hlen]; exact byteSum_numbersText_lt i.count_pos hfloat
  | double => exact absurd htype h

theorem byteSum_text_lt {i : Item} (h : i.type ≠ .double) :
    byteSum (constant 0 i).text < byteSum (constant 127 i).text := by
  have hconvert := byteSum_convert_lt h
  have htext (v : UInt8) : byteSum (constant v i).text = byteSum (lit "\"") + byteSum i.key.val +
      byteSum (lit "\":[") + byteSum (convertDataToString (constant v i).node) +
      byteSum (lit "]") := by
    rw [Item.text, itemText, byteSum_append, byteSum_append, byteSum_append, byteSum_append]
    rfl
  rw [htext, htext]
  omega

/-! ## Two memories -/

/-- Every block has the flag set. -/
def dirty : Nat → Block := fun _ => ⟨true, []⟩

/-- The memory is filled with one value. -/
def filledWith (v : UInt8) : Behind := fun data => List.replicate data.length v

/-- A node in dirty memory is read as an item of constant bytes. -/
def ReadsConstant (v : UInt8) (i : Item) (n : IttNode) : Prop := Holds (constant v i) n

theorem readsConstant_newNode (v : UInt8) (i : Item) (n : Nat) :
    ReadsConstant v i (newNode (filledWith v) (dirty n) i.key i.type i.count i.data) := by
  refine ⟨rfl, rfl, rfl, ?_⟩
  have hnil : overwrite i.data [] = i.data := by simp [overwrite]
  simp only [newNode, dirty, filledWith, hnil, constant, ↓reduceIte]
  exact List.prefix_refl _

/-- The nodes that are read from the memory. -/
def nodesSum (v : UInt8) (items : List Item) : Nat :=
  (items.map fun i => byteSum (lit ",") + byteSum (constant v i).text).sum

theorem nodesSum_cons (v : UInt8) (i : Item) (items : List Item) :
    nodesSum v (i :: items) =
      byteSum (lit ",") + byteSum (constant v i).text + nodesSum v items := by
  rw [nodesSum, List.map_cons, List.sum_cons]
  rfl

theorem argsText_of_readsConstant {v : UInt8} {first : Item} {more : List Item} {args : IttArgs}
    (h : Represents (ReadsConstant v) (first :: more) args) :
    byteSum (argsText args) = byteSum first.text + nodesSum v more.reverse := by
  obtain ⟨hfirst, hmore⟩ := h
  have hnodes : byteSum (args.next.flatMap fun node => lit "," ++ itemText node) =
      nodesSum v more.reverse := by
    generalize more.reverse = items at hmore ⊢
    generalize args.next = nodes at hmore ⊢
    induction hmore with
    | nil => rfl
    | cons hnode _ ih =>
      rw [List.flatMap_cons, byteSum_append, byteSum_append, itemText_of_holds hnode, ih,
        nodesSum_cons]
  rw [argsText, byteSum_append, itemText_of_holds hfirst, hnodes]

theorem nodesSum_lt {first : Item} {more : List Item}
    (h : ∀ i ∈ first :: more, i.type ≠ .double) :
    nodesSum 0 (first :: more) < nodesSum 127 (first :: more) := by
  induction more generalizing first with
  | nil =>
    have := byteSum_text_lt (h first List.mem_cons_self)
    rw [nodesSum_cons, nodesSum_cons]
    simp only [nodesSum, List.map_nil, List.sum_nil]
    omega
  | cons i more ih =>
    have hfirst := byteSum_text_lt (h first List.mem_cons_self)
    have hmore := ih fun j hj => h j (List.mem_cons_of_mem first hj)
    rw [nodesSum_cons, nodesSum_cons 127]
    omega

/-! ## The result -/

/-- An open task: the domain that it was begun in, its name and no metadata so far. -/
structure Open (domain name : CStr) (task : ThreadTaskDescriptor) : Prop where
  domain : task.domain.text = some domain
  name : task.name.text = some name
  fresh : Fresh task.metadataArgs

/-- The end call logs the arguments that the calls before it left with the task. -/
theorem renderedText_of_represents (hc : c.isCollectionEnabled = true)
    (htrace : collector.chromeLoggingOn = true) {domain name : CStr} {task : ThreadTaskDescriptor}
    (hopen : Open domain name task) {node : Item → IttNode → Prop} {blocks : Nat → Block}
    (hnode : ∀ (i : Item) (n : Nat),
      node i (newNode behind (blocks n) i.key i.type i.count i.data))
    (adds : List ValidAdd) (now : UInt64) (rest : List ThreadTaskDescriptor) :
    ∃ e args, renderedText c collector behind blocks adds domain now (task :: rest) =
        renderArgs e ∧ e.metadataArgs = some args ∧
      Represents node (adds.filterMap ValidAdd.item) args := by
  obtain ⟨args, hadds, hargs⟩ :=
    addAll_represents hc htrace hnode adds rest
      (show Represents node [] task.metadataArgs from hopen.fresh)
  refine ⟨{ name := some (CStr.truncate (qualified domain name) 1055), startTs := task.startTime
            endTs := now, metadataArgs := some args }, args, ?_, rfl, hargs⟩
  unfold renderedText
  simp [hadds, taskEnd, hc, htrace, hopen.domain, hopen.name]

/-- Nodes are reached only from a first item. -/
theorem shown_of_represents {node : Item → IttNode → Prop} {first : Item} {more : List Item}
    {args : IttArgs} {e : IttEvent} (he : e.metadataArgs = some args)
    (h : Represents node (first :: more) args) : e.shown = some args := by
  have hcount : args.count ≠ 0 := by
    rw [h.1.count]
    exact Nat.ne_of_gt first.count_pos
  simp [IttEvent.shown, he, hcount]

/-- Nothing is known of a node. -/
def Unread (_ : Item) (_ : IttNode) : Prop := True

theorem unread_newNode (behind : Behind) (blocks : Nat → Block) (i : Item) (n : Nat) :
    Unread i (newNode behind (blocks n) i.key i.type i.count i.data) := trivial

/-- The items of a task that the memory cannot spoil. -/
def Safe (items : List Item) : Prop :=
  items.length ≤ 1 ∧ ∀ i ∈ items, i.type = .unknown ∨ i.count < 2 ^ 31

theorem renderArgs_of_safe {node : Item → IttNode → Prop} {items : List Item} {args : IttArgs}
    {e : IttEvent} (he : e.metadataArgs = some args) (h : Represents node items args)
    (hsafe : Safe items) : renderArgs e = some (items.flatMap Item.text) := by
  obtain ⟨hlen, hshort⟩ := hsafe
  match items, h with
  | [], h =>
    have hnone : e.shown = none := by simp [IttEvent.shown, he, h.1]
    rw [renderArgs, hnone]
    rfl
  | [i], h =>
    have hnext : args.next = [] := List.forall₂_nil_left_iff.mp h.2
    have hrender : Renderable args.toIttNode ∧ ∀ node ∈ args.next, Renderable node := by
      refine ⟨?_, by simp [hnext]⟩
      rw [Renderable, h.1.type, h.1.count]
      exact hshort i List.mem_cons_self
    simp only [renderArgs, shown_of_represents he h]
    rw [if_pos hrender, argsText, hnext, itemText_of_holds h.1]
    simp
  | _ :: _ :: _, _ =>
    simp only [List.length_cons] at hlen
    omega

/-- A text that can be rendered tells that the items are short. -/
theorem short_of_renderArgs {v : UInt8} {items : List Item} {args : IttArgs} {e : IttEvent}
    {text : Bytes} (he : e.metadataArgs = some args) (h : Represents (ReadsConstant v) items args)
    (htext : renderArgs e = some text) : ∀ i ∈ items, i.type = .unknown ∨ i.count < 2 ^ 31 := by
  cases items with
  | nil => simp
  | cons first more =>
    simp only [renderArgs, shown_of_represents he h] at htext
    split at htext
    · rename_i hrender
      obtain ⟨hfirst, hnodes⟩ := hrender
      have hmore : ∀ i ∈ more.reverse, i.type = .unknown ∨ i.count < 2 ^ 31 := by
        have hnext := h.2
        generalize more.reverse = items at hnext ⊢
        generalize args.next = nodes at hnext hnodes
        induction hnext with
        | nil => simp
        | cons hnode _ ih =>
          rw [List.forall_mem_cons] at hnodes ⊢
          refine ⟨?_, ih hnodes.2⟩
          have := hnodes.1
          rwa [Renderable, hnode.type, hnode.count] at this
      rw [List.forall_mem_cons]
      refine ⟨?_, fun i hi => hmore i (List.mem_reverse.mpr hi)⟩
      rwa [Renderable, h.1.type, h.1.count] at hfirst
    · cases htext

theorem byteSum_of_renderArgs {v : UInt8} {first : Item} {more : List Item} {args : IttArgs}
    {e : IttEvent} {text : Bytes} (he : e.metadataArgs = some args)
    (h : Represents (ReadsConstant v) (first :: more) args) (htext : renderArgs e = some text) :
    byteSum text = byteSum first.text + nodesSum v more.reverse := by
  simp only [renderArgs, shown_of_represents he h] at htext
  split at htext
  · cases htext
    exact argsText_of_readsConstant h
  · cases htext

/-- Two memories give texts whose bytes add up to different sums, if there is a node. -/
theorem length_le_one_of_const (hc : c.isCollectionEnabled = true)
    (htrace : collector.chromeLoggingOn = true) {domain name : CStr} {task : ThreadTaskDescriptor}
    (hopen : Open domain name task) {rest : List ThreadTaskDescriptor} {adds : List ValidAdd}
    {now : UInt64} {text : Bytes}
    (htext : ∀ behind blocks,
      renderedText c collector behind blocks adds domain now (task :: rest) = some text) :
    (adds.filterMap ValidAdd.item).length ≤ 1 := by
  have hmemory (v : UInt8) := renderedText_of_represents hc htrace hopen
    (readsConstant_newNode v) adds now rest
  obtain ⟨e, args, heq, he, hargs⟩ := hmemory 0
  obtain ⟨e', args', heq', he', hargs'⟩ := hmemory 127
  rw [htext] at heq heq'
  have hitem : ∀ i ∈ adds.filterMap ValidAdd.item, i.type ≠ .double := by
    intro i hi
    obtain ⟨a, -, ha⟩ := List.mem_filterMap.mp hi
    exact item_ne_double ha
  match hitems : adds.filterMap ValidAdd.item with
  | [] => exact Nat.zero_le 1
  | [i] => exact Nat.le_refl 1
  | first :: second :: more =>
    rw [hitems] at hargs hargs' hitem
    have hsum := byteSum_of_renderArgs he hargs heq.symm
    have hsum' := byteSum_of_renderArgs he' hargs' heq'.symm
    have hlt : nodesSum 0 (second :: more).reverse < nodesSum 127 (second :: more).reverse := by
      cases hrev : (second :: more).reverse with
      | nil => simp at hrev
      | cons last others =>
        refine nodesSum_lt fun i hi => hitem i (List.mem_cons_of_mem first ?_)
        rw [← hrev] at hi
        exact List.mem_reverse.mp hi
    omega

/-- The text of the arguments is the same in every memory if and only if at most one item is
accepted and it can be rendered. -/
theorem renderedText_const_iff (c : UniController) (hc : c.isCollectionEnabled = true)
    (collector : IttCollector) (htrace : collector.chromeLoggingOn = true) (domain name : CStr)
    (task : ThreadTaskDescriptor) (hopen : Open domain name task)
    (rest : List ThreadTaskDescriptor) (adds : List ValidAdd) (now : UInt64) :
    (∃ text, ∀ behind blocks,
        renderedText c collector behind blocks adds domain now (task :: rest) = some text) ↔
      Safe (adds.filterMap ValidAdd.item) := by
  constructor
  · rintro ⟨text, htext⟩
    refine ⟨length_le_one_of_const hc htrace hopen htext, ?_⟩
    obtain ⟨e, args, heq, he, hargs⟩ := renderedText_of_represents hc htrace
      hopen (readsConstant_newNode 0) adds now rest
    rw [htext] at heq
    exact short_of_renderArgs he hargs heq.symm
  · intro hsafe
    refine ⟨(adds.filterMap ValidAdd.item).flatMap Item.text, fun behind blocks => ?_⟩
    obtain ⟨e, args, heq, he, hargs⟩ := renderedText_of_represents hc htrace hopen
      (unread_newNode behind blocks) adds now rest
    rw [heq, renderArgs_of_safe he hargs hsafe]

open Unitrace.Itt.PausedTasks (taskA collecting collecting_enabled descriptor)

theorem open_descriptor (domain : ShortName) (b : PausedTasks.Begin) :
    Open domain.val b.name.val (descriptor domain b) :=
  ⟨text_store_short _ domain, text_store_short _ b.name, rfl, rfl, rfl⟩

/-- `__itt_metadata_add` of a single number, under an empty key. -/
def addNumber : ValidAdd :=
  ⟨.metadata ⟨[], zero_notMem_nil⟩ .u32 1 (some [1, 0, 0, 0]), by
    intro bytes h
    cases h
    decide⟩

theorem renderedText_const_iff_twoNumbers :
    (∃ text, ∀ behind blocks,
        renderedText collecting ⟨false, true⟩ behind blocks [addNumber, addNumber] taskA.name.val 4
          [descriptor taskA.name taskA] = some text) ↔
      Safe ([addNumber, addNumber].filterMap ValidAdd.item) :=
  renderedText_const_iff collecting collecting_enabled ⟨false, true⟩ rfl taskA.name.val
    taskA.name.val (descriptor taskA.name taskA) (open_descriptor taskA.name taskA) []
    [addNumber, addNumber] 4

/-- Two numbers are enough for a text that depends on the memory. -/
theorem not_renderedText_const :
    ¬ ∀ (c : UniController) (collector : IttCollector) (domain name : CStr)
        (task : ThreadTaskDescriptor) (rest : List ThreadTaskDescriptor) (adds : List ValidAdd)
        (now : UInt64),
      c.isCollectionEnabled = true → collector.chromeLoggingOn = true → Open domain name task →
      ∃ text, ∀ behind blocks,
        renderedText c collector behind blocks adds domain now (task :: rest) = some text := by
  intro h
  have hitem : addNumber.item.isSome = true := by decide
  obtain ⟨i, hi⟩ := Option.isSome_iff_exists.mp hitem
  have hitems : [addNumber, addNumber].filterMap ValidAdd.item = [i, i] := by
    rw [List.filterMap_cons_some hi, List.filterMap_cons_some hi]
    rfl
  obtain ⟨text, htext⟩ := h collecting ⟨false, true⟩ taskA.name.val taskA.name.val
    (descriptor taskA.name taskA) [] [addNumber, addNumber] 4 collecting_enabled rfl
    (open_descriptor taskA.name taskA)
  have hlen := length_le_one_of_const collecting_enabled rfl (open_descriptor taskA.name taskA) htext
  rw [hitems] at hlen
  exact Nat.not_succ_le_self 1 hlen

end Unitrace.Itt.DirtyMemory
