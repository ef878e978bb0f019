import Mathlib.Data.List.Forall2
import Unitrace.Itt.TaskEnds

/-!
# Metadata of a task

Metadata is added to the task on top of the stack. The first item is kept in the
descriptor, in place or in a block of its own; each further item becomes a node that
is linked right behind the first one. A node comes from `malloc`, and one of its
fields is not set.
-/
namespace Unitrace.Itt.Metadata

open Unitrace.Lib.Text Unitrace.Lib.ByteString Unitrace.Itt.Control Unitrace.Itt.Tasks
open Unitrace.Trace.Record

/-- The value of the enumeration. -/
def typeValue : MetadataType → Nat
  | .unknown => 0
  | .u64 => 1
  | .s64 => 2
  | .u32 => 3
  | .s32 => 4
  | .u16 => 5
  | .s16 => 6
  | .float => 7
  | .double => 8

def metadataTypeSizes : MetadataType → Nat
  | .unknown => 1
  | .u64 => 8
  | .s64 => 8
  | .u32 => 4
  | .s32 => 4
  | .u16 => 2
  | .s16 => 2
  | .float => 4
  | .double => 8

/-- What a block holds when `malloc` returns it: the flag that nobody sets, and the
bytes that the data of the item is copied over. -/
structure Block where
  isIndirectData : Bool
  data : Bytes

/-- The rest of the memory: what stands at the address that is formed by the first bytes. -/
abbrev Behind := Bytes → Bytes

/-- `memcpy` to the front of a block. -/
def overwrite (new old : Bytes) : Bytes := new ++ old.drop new.length

def newNode (behind : Behind) (block : Block) (key : CStr) (type : MetadataType) (count : Nat)
    (data : Bytes) : IttNode :=
  let data := overwrite data block.data
  { count := count, isIndirectData := block.isIndirectData, type := type, key := key, data := data
    indirect := behind data }

/-- What both functions do with an item that they accept. -/
def addItem (behind : Behind) (block : Block) (key : CStr) (type : MetadataType) (count : Nat)
    (data : Bytes) (args : IttArgs) : IttArgs :=
  let metadataSize := count * metadataTypeSizes type % 2 ^ 64
  let data := data.take metadataSize
  if args.count ≠ 0 then { args with next := newNode behind block key type count data :: args.next }
  else if metadataSize > 8 then
    { args with
      isIndirectData := true, indirect := overwrite data block.data
      key := key, count := count, type := type }
  else { args with data := overwrite data args.data, key := key, count := count, type := type }

/-- `__itt_metadata_add`; `data` is null or points to `count` values. -/
def metadataAdd (c : UniController) (collector : IttCollector) (behind : Behind) (block : Block)
    (key : CStr) (type : MetadataType) (count : Nat) (data : Option Bytes)
    (taskDesc : List ThreadTaskDescriptor) : List ThreadTaskDescriptor :=
  if !c.isCollectionEnabled then taskDesc
  else if !collector.cclSummaryOn && !collector.chromeLoggingOn then taskDesc
  else
    match data, taskDesc with
    | some data, task :: rest =>
      if count ≠ 0 ∧ typeValue type > typeValue .unknown ∧ typeValue type < typeValue .double then
        { task with metadataArgs := addItem behind block key type count data task.metadataArgs } ::
          rest
      else taskDesc
    | _, _ => taskDesc

/-- `__itt_metadata_str_add` -/
def metadataStrAdd (c : UniController) (collector : IttCollector) (behind : Behind) (block : Block)
    (key : CStr) (data : Option Bytes) (length : Nat) (taskDesc : List ThreadTaskDescriptor) :
    List ThreadTaskDescriptor :=
  if !c.isCollectionEnabled then taskDesc
  else if !collector.cclSummaryOn && !collector.chromeLoggingOn then taskDesc
  else
    match data, taskDesc with
    | some data, task :: rest =>
      if length ≠ 0 then
        { task with
          metadataArgs := addItem behind block key .unknown length data task.metadataArgs } :: rest
      else taskDesc
    | _, _ => taskDesc

/-! ## Rendering -/

/-- The loops over numbers count with an `int`, which overflows from 2³¹ values on. -/
def Renderable (node : IttNode) : Prop := node.type = .unknown ∨ node.count < 2 ^ 31

instance : DecidablePred Renderable := fun node =>
  inferInstanceAs (Decidable (node.type = .unknown ∨ node.count < 2 ^ 31))

/-- The list of arguments in the text of an event, if it can be rendered. -/
def renderArgs (e : IttEvent) : Option Bytes :=
  match e.shown with
  | none => some []
  | some args =>
    if Renderable args.toIttNode ∧ ∀ node ∈ args.next, Renderable node then some (argsText args)
    else none

/-! ## Items -/

/-- An item with its data: a string of type `unknown`, or numbers. -/
structure Item where
  key : CStr
  type : MetadataType
  count : Nat
  data : Bytes
  count_pos : 0 < count
  length_eq : data.length = count * metadataTypeSizes type
  /-- No object is larger than this. -/
  small : data.length < 2 ^ 63

/-- An item on its own. -/
def Item.node (i : Item) : IttNode where
  count := i.count
  isIndirectData := false
  type := i.type
  key := i.key
  data := i.data
  indirect := []

/-- The key and the values of an item. -/
def Item.text (i : Item) : Bytes := itemText i.node

/-- The node holds the item, in place or behind its pointer. -/
structure Holds (i : Item) (n : IttNode) : Prop where
  count : n.count = i.count
  type : n.type = i.type
  key : n.key = i.key
  data : i.data <+: if n.isIndirectData then n.indirect else n.data

theorem element_append {width i count : Nat} {data rest : Bytes} (hlen : data.length = count * width)
    (hi : i < count) : element width i (data ++ rest) = element width i data := by
  have hle : i * width + width ≤ data.length := by
    rw [hlen, ← Nat.succ_mul]
    exact Nat.mul_le_mul_right width hi
  unfold element
  rw [List.drop_append_of_le_length (by omega), List.take_append_of_le_length]
  rw [List.length_drop]
  omega

theorem numbersText_append (width : Nat) (render : Bytes → Str) {count : Nat} {data rest : Bytes}
    (hlen : data.length = count * width) :
    numbersText width render count (data ++ rest) = numbersText width render count data := by
  unfold numbersText
  refine congrArg commaSeparated (List.map_congr_left fun i hi => ?_)
  rw [element_append hlen (List.mem_range.mp hi)]

/-- The values of an item are read from the bytes of the item only. -/
theorem convertDataToString_of_holds {i : Item} {n : IttNode} (h : Holds i n) :
    convertDataToString n = convertDataToString i.node := by
  obtain ⟨hcount, htype, -, rest, hdata⟩ := h
  have hlen := i.length_eq
  have hpos : i.count ≠ 0 := Nat.ne_of_gt i.count_pos
  simp only [convertDataToString, Item.node, hcount, htype, hpos, ← hdata, ↓reduceIte,
    Bool.false_eq_true]
  cases htype : i.type with
  | unknown =>
    rw [htype, metadataTypeSizes, Nat.mul_one] at hlen
    simp only [List.take_append_of_le_length (Nat.le_of_eq hlen.symm)]
  | u64 => rw [htype] at hlen; exact numbersText_append 8 _ hlen
  | s64 => rw [htype] at hlen; exact numbersText_append 8 _ hlen
  | u32 => rw [htype] at hlen; exact numbersText_append 4 _ hlen
  | s32 => rw [htype] at hlen; exact numbersText_append 4 _ hlen
  | u16 => rw [htype] at hlen; exact numbersText_append 2 _ hlen
  | s16 => rw [htype] at hlen; exact numbersText_append 2 _ hlen
  | float => rw [htype] at hlen; exact numbersText_append 4 _ hlen
  | double => rw [htype] at hlen; exact numbersText_append 8 _ hlen

theorem itemText_of_holds {i : Item} {n : IttNode} (h : Holds i n) : itemText n = i.text := by
  rw [Item.text, itemText, itemText, convertDataToString_of_holds h, h.key]
  rfl

/-! ## What the arguments of a task hold -/

/-- The arguments of a task that has no metadata. -/
def Fresh (args : IttArgs) : Prop :=
  args.count = 0 ∧ args.isIndirectData = false ∧ args.next = []

/-- The first item is in front, and the nodes hold the others, the last one first. -/
def Represents (node : Item → IttNode → Prop) : List Item → IttArgs → Prop
  | [], args => Fresh args
  | i :: more, args => Holds i args.toIttNode ∧ List.Forall₂ node more.reverse args.next

/-- The size of an item does not overflow. -/
theorem size_eq (i : Item) : i.count * metadataTypeSizes i.type % 2 ^ 64 = i.data.length := by
  have := i.small
  rw [← i.length_eq, Nat.mod_eq_of_lt (by omega)]

theorem prefix_overwrite (new old : Bytes) : new <+: overwrite new old := List.prefix_append _ _

/-- Adding an item keeps the order, whatever form it is stored in. -/
theorem represents_addItem {node : Item → IttNode → Prop} {items : List Item} {args : IttArgs}
    {i : Item} {behind : Behind} {block : Block} (h : Represents node items args)
    (hnode : node i (newNode behind block i.key i.type i.count i.data)) :
    Represents node (items ++ [i]) (addItem behind block i.key i.type i.count i.data args) := by
  unfold addItem
  simp only [size_eq, List.take_length]
  cases items with
  | nil =>
    obtain ⟨hcount, hdirect, hnext⟩ := h
    rw [if_neg (by simp [hcount])]
    split
    · refine ⟨⟨rfl, rfl, rfl, ?_⟩, ?_⟩
      · exact prefix_overwrite i.data block.data
      · rw [hnext]
        exact List.Forall₂.nil
    · refine ⟨⟨rfl, rfl, rfl, ?_⟩, ?_⟩
      · simp only [hdirect]
        exact prefix_overwrite i.data args.data
      · rw [hnext]
        exact List.Forall₂.nil
  | cons first more =>
    obtain ⟨hfirst, hmore⟩ := h
    have hcount : args.count ≠ 0 := by
      rw [hfirst.count]
      exact Nat.ne_of_gt first.count_pos
    rw [if_pos hcount, List.cons_append]
    refine ⟨⟨hfirst.count, hfirst.type, hfirst.key, hfirst.data⟩, ?_⟩
    rw [List.reverse_append, List.reverse_singleton, List.singleton_append]
    exact List.Forall₂.cons hnode hmore

end Unitrace.Itt.Metadata
