import Unitrace.Lib.JsonNumbers
import Unitrace.Lib.PyJson
import Unitrace.Trace.ChromeLog

/-!
# The value of a trace file

What a trace file says, member by member. It is read back from the text of the logger if the
label of the process and the metadata may stand between quotes and no name needs an escape.
Metadata are strings or arrays of integers here.
-/
namespace Unitrace.Trace.TimelineValue

open Unitrace.Lib.Text Unitrace.Lib.ByteString Unitrace.Lib.Fixed Unitrace.Lib.Utf8
open Unitrace.Lib.Json Unitrace.Lib.JsonNumbers
open Unitrace.Trace.Record Unitrace.Trace.ChromeLog

/-- The characters of a string in UTF-8. -/
def plainText (bytes : Bytes) : Str := (decode bytes).getD []

/-- The text that a string stands for between quotes. -/
def quotedText (bytes : Bytes) : Str := (unescape (plainText bytes)).getD []

/-- The bytes of an integer type, and whether it has a sign. -/
def integerType : MetadataType → Option (Nat × Bool)
  | .u64 => some (8, false)
  | .s64 => some (8, true)
  | .u32 => some (4, false)
  | .s32 => some (4, true)
  | .u16 => some (2, false)
  | .s16 => some (2, true)
  | .unknown | .float | .double => none

def integers (width : Nat) (signed : Bool) (node : IttNode) : List Int :=
  (List.range node.count).map fun i =>
    let bytes := element width i (if node.isIndirectData then node.indirect else node.data)
    if signed then leInt width bytes else leNat bytes

def itemValue (node : IttNode) : Value :=
  match integerType node.type with
  | some (width, signed) => .arr ((integers width signed node).map fun n => .num (signedDecimal n))
  | none => if node.count = 0 then .arr [] else .arr [.str (quotedText (stringData node))]

def itemMember (node : IttNode) : Str × Value := (quotedText node.key.val, itemValue node)

def tailMember (e : IttEvent) : Str × Value :=
  match e.shown with
  | none => (chars "id", .num (decimal 0))
  | some args => (chars "args", .obj (itemMember args.toIttNode :: args.next.map itemMember))

def membersOf (o : Origin) (e : IttEvent) : List (Str × Value) :=
  [(chars "ph", .str (chars "X")), (chars "tid", .num (decimal o.tid.toNat)),
    (chars "pid", .num (decimal o.pid.toNat))] ++
  (e.name.map fun name => (chars "name", .str (plainText name.val))).toList ++
  [(chars "cat", .str (chars "cpu_op")),
    (chars "ts", .num (fixedText (getEpochTimeInUs o.epochStartTime e.startTs))),
    (chars "dur", .num (fixedText (getTimeInUs (e.endTs - e.startTs)))), tailMember e]

def objectOf (e : LoggedEvent) : Value := .obj (membersOf e.origin e.event)

def processObject (l : Launch) : Value :=
  .obj [(chars "ph", .str (chars "M")), (chars "name", .str (chars "process_name")),
    (chars "pid", .num (decimal l.pid.toNat)), (chars "ts", .num (decimal l.processStartTime.toNat)),
    (chars "args", .obj [(chars "name", .str (quotedText l.label))])]

/-- The entries of the array of events. -/
def entries (l : Launch) (events : List LoggedEvent) : List Value :=
  processObject l :: events.map objectOf

def timeline (l : Launch) (events : List LoggedEvent) : Value :=
  .obj [(chars "traceEvents", .arr (entries l events))]

/-! ## Events that read back -/

def isReadableItem (node : IttNode) : Bool :=
  isLiteralBody node.key.val && ((integerType node.type).isSome ||
    node.type = .unknown && isLiteralBody (stringData node))

def isReadable (e : IttEvent) : Bool :=
  isCleanName e && e.shown.all fun args => isReadableItem args.toIttNode && args.next.all isReadableItem

theorem plainText_utf8 (text : Str) : plainText (utf8 text) = text := by
  rw [plainText, decode_utf8, Option.getD_some]

theorem exists_quoted {bytes : Bytes} (h : isLiteralBody bytes = true) :
    ∃ text, utf8 text = bytes ∧ unescape text = some (quotedText bytes) := by
  obtain ⟨text, v, rfl, hv⟩ := exists_of_isLiteralBody h
  exact ⟨text, rfl, by rw [quotedText, plainText_utf8, hv, Option.getD_some]⟩

/-! ## The fields of a record -/

theorem convertDataToString_integers {node : IttNode} {width : Nat} {signed : Bool}
    (h : integerType node.type = some (width, signed)) :
    convertDataToString node =
      utf8 (List.intercalate [','] ((integers width signed node).map signedDecimal)) := by
  by_cases hcount : node.count = 0
  · simp [convertDataToString, integers, hcount]
  · cases htype : node.type <;> rw [htype] at h <;> cases h <;>
      simp [convertDataToString, numbersText, commaSeparated, integers, hcount, htype, signedDecimal,
        Function.comp_def]

theorem exists_itemField {node : IttNode} (h : isReadableItem node = true) :
    ∃ f : Field, f.Ok ∧ f.member = itemMember node ∧ itemText node = utf8 (pairText [] f) := by
  simp only [isReadableItem, Bool.and_eq_true, Bool.or_eq_true, decide_eq_true_eq] at h
  obtain ⟨hkey, hdata⟩ := h
  obtain ⟨key, hkeyText, hname⟩ := exists_quoted hkey
  cases htype : integerType node.type with
  | some size =>
    obtain ⟨width, signed⟩ := size
    have hwords : ∀ w ∈ (integers width signed node).map signedDecimal, isNumber w = true := by
      intro w hw
      obtain ⟨n, -, rfl⟩ := List.mem_map.mp hw
      exact Lib.PyJson.isNumber_signedDecimal n
    refine ⟨⟨key, quotedText node.key.val, _, _⟩, ⟨hname, reads_numberArray hwords⟩, ?_, ?_⟩
    · simp [Field.member, itemMember, itemValue, htype, Function.comp_def]
    · rw [itemText, convertDataToString_integers htype, ← hkeyText]
      simp [lit, chars, ← utf8_append, pairText]
  | none =>
    rw [htype] at hdata
    obtain ⟨hunknown, hbody⟩ := hdata.resolve_left (by simp)
    obtain ⟨data, hdataText, hvalue⟩ := exists_quoted hbody
    by_cases hcount : node.count = 0
    · refine ⟨⟨key, quotedText node.key.val, ['[', ']'], .arr []⟩, ⟨hname, reads_emptyArray⟩, ?_, ?_⟩
      · simp [Field.member, itemMember, itemValue, htype, hcount]
      · simp [itemText, convertDataToString, hcount, ← hkeyText, lit, chars, ← utf8_append, pairText]
    · refine ⟨⟨key, quotedText node.key.val, '[' :: '"' :: (data ++ ['"', ']']), _⟩,
        ⟨hname, reads_stringArray hvalue⟩, ?_, ?_⟩
      · simp [Field.member, itemMember, itemValue, htype, hcount]
      · have htext : convertDataToString node = utf8 ('"' :: (data ++ ['"'])) := by
          rw [stringData] at hdataText
          simp [convertDataToString, hcount, hunknown, ← hdataText, lit, chars, ← utf8_append]
        simp [itemText, htext, ← hkeyText, lit, chars, ← utf8_append, pairText]

theorem exists_itemFields {nodes : List IttNode} (h : ∀ node ∈ nodes, isReadableItem node = true) :
    ∃ fields : List Field, (∀ f ∈ fields, f.Ok) ∧ fields.map Field.member = nodes.map itemMember ∧
      (nodes.flatMap fun node => lit "," ++ itemText node) = utf8 (moreText [] fields) := by
  induction nodes with
  | nil => exact ⟨[], by simp, rfl, rfl⟩
  | cons node nodes ih =>
    obtain ⟨hnode, hnodes⟩ := List.forall_mem_cons.mp h
    obtain ⟨f, hf, hmember, hftext⟩ := exists_itemField hnode
    obtain ⟨fields, hfields, hmembers, htext⟩ := ih hnodes
    refine ⟨f :: fields, List.forall_mem_cons.mpr ⟨hf, hfields⟩, ?_, ?_⟩
    · rw [List.map_cons, List.map_cons, hmember, hmembers]
    · rw [List.flatMap_cons, htext, hftext]
      simp [lit, chars, ← utf8_append, moreText]

theorem exists_tailField {e : IttEvent}
    (h : ∀ args, e.shown = some args →
      isReadableItem args.toIttNode = true ∧ ∀ node ∈ args.next, isReadableItem node = true) :
    ∃ f : Field, f.Ok ∧ f.member = tailMember e ∧
      tailText 0 ((e.shown.map argsText).getD []) = utf8 (moreText spaces [f]) := by
  cases hshown : e.shown with
  | none =>
    refine ⟨numberField (chars "id") (decimal 0), decimalField_ok (plain_literal rfl) 0, ?_, ?_⟩
    · simp [Field.member, numberField, tailMember, hshown]
    · simp [tailText, lit, chars, ← utf8_append, moreText, pairText, spaces, numberField]
  | some args =>
    obtain ⟨hfirst, hnext⟩ := h args hshown
    obtain ⟨f, hf, hmember, hftext⟩ := exists_itemField hfirst
    obtain ⟨fields, hfields, hmembers, htext⟩ := exists_itemFields hnext
    have hne : argsText args ≠ [] := by
      have hquote : lit "\"" = [34] := congrArg utf8 (chars_ofList ['"'])
      simp [argsText, itemText, hquote]
    have hkey : (chars "args").all isPlain = true := plain_literal rfl
    refine ⟨⟨chars "args", chars "args", '{' :: (pairText [] f ++ (moreText [] fields ++ ['}'])),
      .obj ((f :: fields).map Field.member)⟩, ⟨unescape_of_plain hkey, ?_⟩, ?_, ?_⟩
    · exact reads_object (by simp) hf hfields
    · simp [Field.member, tailMember, hshown, ← hmember, ← hmembers]
    · rw [Option.map_some, Option.getD_some, tailText, if_pos hne, argsText, hftext, htext]
      simp [lit, chars, ← utf8_append, moreText, pairText, spaces]

/-! ## Records -/

/-- The fields behind the category. -/
def laterFields (o : Origin) (e : IttEvent) (tail : Field) : List Field :=
  [numberField (chars "ts") (fixedText (getEpochTimeInUs o.epochStartTime e.startTs)),
    numberField (chars "dur") (fixedText (getTimeInUs (e.endTs - e.startTs))), tail]

section

variable (o : Origin) {e : IttEvent} {f : Field} {name : Option Str}

theorem laterFields_ok (e : IttEvent) (hf : f.Ok) : ∀ g ∈ category :: laterFields o e f, g.Ok := by
  have hkeys : (chars "ts").all isPlain = true ∧ (chars "dur").all isPlain = true :=
    ⟨plain_literal rfl, plain_literal rfl⟩
  intro g hg
  simp only [laterFields, List.mem_cons, List.not_mem_nil, or_false] at hg
  rcases hg with rfl | rfl | rfl | rfl
  · exact stringField_ok (plain_literal rfl) (plain_literal rfl)
  · exact timeField_ok hkeys.1 _
  · exact timeField_ok hkeys.2 _
  · exact hf

theorem members_recordFields (hf : f.member = tailMember e)
    (hname : name.map utf8 = e.name.map Subtype.val) :
    (phase :: recordFields o name (laterFields o e f)).map Field.member = membersOf o e := by
  have hplain : e.name.map (fun name => plainText name.val) = name := by
    rw [← Function.comp_def plainText, ← Option.map_map, ← hname, Option.map_map]
    exact (Option.map_congr fun text _ => plainText_utf8 text).trans Option.map_id'
  have hmember : (e.name.map fun name => (chars "name", Value.str (plainText name.val))) =
      name.map fun text => (chars "name", Value.str text) := by
    rw [← hplain, Option.map_map]
    rfl
  rw [membersOf, hmember, ← hf]
  cases name <;> rfl

theorem text_recordFields
    (hname : nameText e.name = utf8 (moreText spaces (name.map (stringField (chars "name"))).toList))
    (htail : tailText 0 ((e.shown.map argsText).getD []) = utf8 (moreText spaces [f])) :
    e.text o = utf8 (',' :: '\n' :: '{' :: (pairText spaces phase ++
      (moreText spaces (recordFields o name (laterFields o e f)) ++ ['}']))) := by
  have hlater : timeText o .complete e.startTs e.endTs ++ (utf8 (moreText spaces [f]) ++ lit "\x7d") =
      utf8 (moreText spaces (laterFields o e f) ++ ['}']) := by
    simp [laterFields, timeText, lit, ← utf8_append, chars, pairText, moreText, spaces, numberField]
  have hfields : moreText spaces (recordFields o name (laterFields o e f)) =
      moreText spaces (originFields o) ++
        (moreText spaces (name.map (stringField (chars "name"))).toList ++
          (moreText spaces [category] ++ moreText spaces (laterFields o e f))) := by
    rw [recordFields, ← List.singleton_append, moreText_append, moreText_append, moreText_append]
  rw [text_around_name, htail, List.append_assoc, hname, hlater, hfields, ← utf8_append, ← utf8_append,
    ← utf8_append]
  simp

end

/-- A record is one more object in the array. -/
theorem exists_record (o : Origin) {e : IttEvent} (h : isReadable e = true) :
    ∃ text, utf8 text = e.text o ∧ ∀ items st rest,
      scan (.after, .arr items :: st) (text ++ rest) =
        scan (.after, .arr (.obj (membersOf o e) :: items) :: st) rest := by
  simp only [isReadable, Bool.and_eq_true, Option.all_eq_true, List.all_eq_true] at h
  obtain ⟨hclean, hmeta⟩ := h
  obtain ⟨f, hf, hmember, htail⟩ := exists_tailField hmeta
  obtain ⟨name, hname, hplain, hnameText⟩ := exists_nameField hclean
  refine ⟨_, (text_recordFields o hnameText htail).symm, fun items st rest => ?_⟩
  have hobject := scan_object spaces_space phase_ok
    (recordFields_ok (o := o) hplain (laterFields_ok o e hf)) (.arr items :: st) rest
  rw [members_recordFields o hmember hname] at hobject
  simp only [List.cons_append, List.append_assoc, List.nil_append]
  rw [scan_nextItem, hobject, fill]

theorem exists_records {events : List LoggedEvent} (h : ∀ e ∈ events, isReadable e.event = true) :
    ∃ text, utf8 text = events.flatMap LoggedEvent.text ++ closingText ∧ ∀ items,
      scan (.after, .arr items :: base) text =
        some (.obj [(chars "traceEvents", .arr (items.reverse ++ events.map objectOf))]) := by
  induction events with
  | nil =>
    refine ⟨chars "\n]\n\x7d\n", rfl, fun items => ?_⟩
    simp [chars, scan, step, stepAfter, isSpace, fill, finish, base]
  | cons e events ih =>
    obtain ⟨he, hevents⟩ := List.forall_mem_cons.mp h
    obtain ⟨text, htext, hscan⟩ := ih hevents
    obtain ⟨record, hrecord, hnext⟩ := exists_record e.origin he
    refine ⟨record ++ text, ?_, fun items => ?_⟩
    · rw [utf8_append, hrecord, htext, List.flatMap_cons, text_eq, List.append_assoc]
    · rw [hnext, hscan, List.reverse_cons, List.append_assoc, List.singleton_append]
      rfl

/-- The text of the logger is that of the value. -/
theorem parse_traceText {l : Launch} {events : List LoggedEvent} (hlabel : isLiteralBody l.label = true)
    (h : ∀ e ∈ events, isReadable e.event = true) :
    ∃ text, decode (traceText l events) = some text ∧ parse text = some (timeline l events) := by
  obtain ⟨label, hlabelText, hv⟩ := exists_quoted hlabel
  obtain ⟨rest, hrest, hscan⟩ := exists_records h
  have htext : traceText l events = utf8 (headerText l label (quotedText l.label) ++ rest) := by
    rw [utf8_append, utf8_headerText l _ hlabelText, hrest, traceText, List.append_assoc]
  refine ⟨_, by rw [htext, decode_utf8], ?_⟩
  exact (parse_headerText l hv rest).trans (hscan [processEntry l label (quotedText l.label)])

end Unitrace.Trace.TimelineValue
