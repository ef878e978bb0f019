import Unitrace.Lib.Json
import Unitrace.Lib.Utf8
import Unitrace.Trace.Record

/-!
# The trace file as a JSON text

The constructor of the logger opens the array of events, each logged record adds
one element, and the destructor closes the array. Nothing on the way escapes a
string, so the file is read back as it was meant exactly if the strings need no
escapes.
-/
namespace Unitrace.Trace.ChromeLog

open Unitrace.Lib.Text Unitrace.Lib.ByteString Unitrace.Lib.Fixed Unitrace.Lib.Utf8
open Unitrace.Lib.Json
open Unitrace.Trace.Record

/-- What the constructor asks the system for. An unset variable is empty. -/
structure Launch where
  pid : UInt32
  processStartTime : UInt64
  hostName : CStr
  pmiRank : CStr
  pmixRank : CStr

def Launch.rankStr (l : Launch) : Bytes :=
  if l.pmiRank.val = [] then l.pmixRank.val else l.pmiRank.val

def Launch.label (l : Launch) : Bytes :=
  if l.rankStr = [] then lit "HOST<" ++ l.hostName.val ++ lit ">"
  else lit "RANK " ++ l.rankStr ++ lit " HOST<" ++ l.hostName.val ++ lit ">"

/-- The text that the constructor logs. -/
def constructorText (l : Launch) : Bytes :=
  lit "\x7b \"traceEvents\":[\n" ++
    (lit "\x7b\"ph\": \"M\", \"name\": \"process_name\", \"pid\": " ++
      utf8 (decimal l.pid.toNat) ++ lit ", \"ts\": " ++ utf8 (decimal l.processStartTime.toNat) ++
      lit ", \"args\": \x7b\"name\": \"" ++ l.label ++ lit "\"\x7d\x7d")

def closingText : Bytes := lit "\n]\n\x7d\n"

/-- An event that was logged by the buffer of a thread, in a slot that held `slot`. -/
structure LoggedEvent where
  origin : Origin
  slot : HostEventRecord
  event : IttEvent

def LoggedEvent.text (e : LoggedEvent) : Bytes :=
  (stringifyHostEvent e.origin (e.event.fill e.slot)).1

/-- The file that the destructor leaves behind: none if no event was logged. -/
def closeLog (dataStart : Nat) (log : Bytes) : Option Bytes :=
  if log.length = dataStart then none else some (log ++ closingText)

def traceFile (l : Launch) (events : List LoggedEvent) : Option Bytes :=
  closeLog (constructorText l).length (constructorText l ++ events.flatMap LoggedEvent.text)

/-- What is written as long as at least one event is logged. -/
def traceText (l : Launch) (events : List LoggedEvent) : Bytes :=
  constructorText l ++ events.flatMap LoggedEvent.text ++ closingText

theorem text_eq (e : LoggedEvent) : e.text = e.event.text e.origin := stringify_fill ..

theorem text_ne_nil (e : LoggedEvent) : e.text ≠ [] := by
  have hlit : lit ",\n\x7b" = [44, 10, 123] := by decide +kernel
  rw [text_eq]
  simp [IttEvent.text, hlit]

theorem traceFile_eq (l : Launch) (events : List LoggedEvent) :
    traceFile l events = if events = [] then none else some (traceText l events) := by
  cases events with
  | nil => simp [traceFile, closeLog]
  | cons e events =>
    have hpos : 0 < e.text.length := List.length_pos_iff.mpr (text_ne_nil e)
    rw [traceFile, closeLog, if_neg, if_neg (List.cons_ne_nil _ _), traceText]
    rw [List.flatMap_cons, List.length_append, List.length_append]
    omega

/-! ## What the file is to say -/

/-- The name of an object is exactly the name that the event was given. -/
def IsNamed (name : Option CStr) (object : Value) : Prop :=
  ∃ members, object = .obj members ∧ ∃ text : Option Str,
    valuesOf (chars "name") members = (text.map Value.str).toList ∧ text.map utf8 = name.map Subtype.val

def IsProcessEntry (entry : Value) : Prop :=
  ∃ members, entry = .obj members ∧ valuesOf (chars "name") members = [.str (chars "process_name")]

/-- The file is a JSON object, and its array of events has the process entry and
one object for each event, under the name of the event. -/
def IsFaithful (file : Bytes) (events : List LoggedEvent) : Prop :=
  ∃ text members entry objects, decode file = some text ∧ parse text = some (.obj members) ∧
    valuesOf (chars "traceEvents") members = [.arr (entry :: objects)] ∧ IsProcessEntry entry ∧
    List.Forall₂ (fun e object => IsNamed e.event.name object) events objects

/-! ## Strings that need no escapes -/

/-- A text that stands for itself between quotes. -/
def isPlainText (bytes : Bytes) : Bool := (decode bytes).any fun text => text.all isPlain

/-- A text that may stand between quotes. -/
def isLiteralBody (bytes : Bytes) : Bool := (decode bytes).any fun text => (unescape text).isSome

/-- The string that a metadata item holds. -/
def stringData (node : IttNode) : Bytes :=
  (if node.isIndirectData then node.indirect else node.data).take node.count

def isCleanItem (node : IttNode) : Bool :=
  node.type = .unknown && isLiteralBody node.key.val && isLiteralBody (stringData node)

def isCleanMetadata (e : IttEvent) : Bool :=
  e.shown.all fun args => isCleanItem args.toIttNode && args.next.all isCleanItem

def isCleanName (e : IttEvent) : Bool := e.name.all fun name => isPlainText name.val

theorem isPlainText_iff {bytes : Bytes} :
    isPlainText bytes = true ↔ ∃ text, utf8 text = bytes ∧ text.all isPlain = true := by
  rw [isPlainText, Option.any_eq_true]
  constructor
  · intro ⟨text, htext, hplain⟩
    exact ⟨text, (decode_eq_some htext).symm, hplain⟩
  · intro ⟨text, htext, hplain⟩
    exact ⟨text, by rw [← htext, decode_utf8], hplain⟩

theorem exists_of_isLiteralBody {bytes : Bytes} (h : isLiteralBody bytes = true) :
    ∃ text v, utf8 text = bytes ∧ unescape text = some v := by
  rw [isLiteralBody, Option.any_eq_true] at h
  obtain ⟨text, htext, hsome⟩ := h
  obtain ⟨v, hv⟩ := Option.isSome_iff_exists.mp hsome
  exact ⟨text, v, (decode_eq_some htext).symm, hv⟩

/-! ## The members of a record -/

def stringField (key text : Str) : Field := ⟨key, key, '"' :: (text ++ ['"']), .str text⟩

def numberField (key text : Str) : Field := ⟨key, key, text, .num text⟩

theorem plain_literal {l : Str} (h : l.all isPlain = true) :
    (chars (String.ofList l)).all isPlain = true := by
  rw [chars_ofList]
  exact h

theorem literal_ne {s t : Str} (h : s ≠ t) : chars (String.ofList s) ≠ chars (String.ofList t) := by
  rw [chars_ofList, chars_ofList]
  exact h

theorem stringField_ok {key text : Str} (hkey : key.all isPlain = true)
    (htext : text.all isPlain = true) : (stringField key text).Ok :=
  ⟨unescape_of_plain hkey, reads_literal (unescape_of_plain htext)⟩

theorem decimalField_ok {key : Str} (hkey : key.all isPlain = true) (n : Nat) :
    (numberField key (decimal n)).Ok :=
  ⟨unescape_of_plain hkey, reads_decimal n⟩

theorem isNonneg_getTimeInUs (t : UInt64) : IsNonneg (getTimeInUs t) := by
  have hmilli : IsNonneg milli := by decide +kernel
  apply IsNonneg.add
  · exact isNonneg_ofUInt64 ..
  · exact (isNonneg_ofUInt64 ..).mul _ hmilli

theorem timeField_ok {key : Str} (hkey : key.all isPlain = true) (t : UInt64) :
    (numberField key (fixedText (getTimeInUs t))).Ok := by
  obtain ⟨n, hn⟩ := (isNonneg_getTimeInUs t).fixedText
  exact ⟨unescape_of_plain hkey, by rw [numberField, hn]; exact reads_pointText n⟩

def phase : Field := stringField (chars "ph") (chars "X")

def originFields (o : Origin) : List Field :=
  [numberField (chars "tid") (decimal o.tid.toNat), numberField (chars "pid") (decimal o.pid.toNat)]

def spaces : Str := [' ']

theorem spaces_space : ∀ c ∈ spaces, isSpace c = true := by simp [spaces, isSpace]

theorem before_text (o : Origin) : lit ",\n\x7b" ++ phaseText .complete ++ o.text =
    utf8 (',' :: '\n' :: '{' :: (pairText spaces phase ++ moreText spaces (originFields o))) := by
  simp [lit, phaseText, Origin.text, ← utf8_append, chars, pairText, moreText, phase, originFields,
    spaces, stringField, numberField]

theorem phase_ok : phase.Ok := stringField_ok (plain_literal rfl) (plain_literal rfl)

theorem originFields_ok (o : Origin) : ∀ f ∈ originFields o, f.Ok := by
  intro f hf
  have hkeys : (chars "tid").all isPlain = true ∧ (chars "pid").all isPlain = true :=
    ⟨plain_literal rfl, plain_literal rfl⟩
  simp only [originFields, List.mem_cons, List.not_mem_nil, or_false] at hf
  rcases hf with rfl | rfl
  · exact decimalField_ok hkeys.1 _
  · exact decimalField_ok hkeys.2 _

theorem before_names (o : Origin) : ∀ f ∈ phase :: originFields o, f.name ≠ chars "name" := by
  intro f hf
  have hnames : chars "ph" ≠ chars "name" ∧ chars "tid" ≠ chars "name" ∧ chars "pid" ≠ chars "name" :=
    ⟨literal_ne (by decide), literal_ne (by decide), literal_ne (by decide)⟩
  simp only [originFields, List.mem_cons, List.not_mem_nil, or_false] at hf
  rcases hf with rfl | rfl | rfl
  · exact hnames.1
  · exact hnames.2.1
  · exact hnames.2.2

/-- A clean item is a member whose value is an array of at most one string. -/
theorem exists_itemField {node : IttNode} (h : isCleanItem node = true) :
    ∃ f : Field, f.Ok ∧ itemText node = utf8 (pairText [] f) := by
  simp only [isCleanItem, Bool.and_eq_true, decide_eq_true_eq] at h
  obtain ⟨⟨htype, hkey⟩, hdata⟩ := h
  obtain ⟨key, name, hkeyText, hname⟩ := exists_of_isLiteralBody hkey
  obtain ⟨data, value, hdataText, hvalue⟩ := exists_of_isLiteralBody hdata
  by_cases hcount : node.count = 0
  · refine ⟨⟨key, name, ['[', ']'], .arr []⟩, ⟨hname, reads_emptyArray⟩, ?_⟩
    simp [itemText, convertDataToString, hcount, ← hkeyText, lit, chars, ← utf8_append, pairText]
  · refine ⟨⟨key, name, '[' :: '"' :: (data ++ ['"', ']']), .arr [.str value]⟩,
      ⟨hname, reads_stringArray hvalue⟩, ?_⟩
    have htext : convertDataToString node = utf8 ('"' :: (data ++ ['"'])) := by
      rw [stringData] at hdataText
      simp [convertDataToString, hcount, htype, ← hdataText, lit, chars, ← utf8_append]
    simp [itemText, htext, ← hkeyText, lit, chars, ← utf8_append, pairText]

theorem exists_moreItems {nodes : List IttNode} (h : ∀ node ∈ nodes, isCleanItem node = true) :
    ∃ fields : List Field, (∀ f ∈ fields, f.Ok) ∧
      (nodes.flatMap fun node => lit "," ++ itemText node) = utf8 (moreText [] fields) := by
  induction nodes with
  | nil => exact ⟨[], by simp, rfl⟩
  | cons node nodes ih =>
    obtain ⟨f, hf, hftext⟩ := exists_itemField (h node List.mem_cons_self)
    obtain ⟨fields, hfields, htext⟩ := ih fun n hn => h n (List.mem_cons_of_mem node hn)
    refine ⟨f :: fields, by simpa using ⟨hf, hfields⟩, ?_⟩
    rw [List.flatMap_cons, htext, hftext]
    simp [lit, chars, ← utf8_append, moreText]

/-- Clean metadata makes one member of the record. -/
theorem exists_argsField {args : IttArgs} (hfirst : isCleanItem args.toIttNode = true)
    (hnext : ∀ node ∈ args.next, isCleanItem node = true) :
    ∃ f : Field, f.Ok ∧ f.name = chars "args" ∧
      tailText 0 (argsText args) = utf8 (moreText spaces [f]) := by
  obtain ⟨f, hf, hftext⟩ := exists_itemField hfirst
  obtain ⟨fields, hfields, htext⟩ := exists_moreItems hnext
  have hne : argsText args ≠ [] := by
    have hquote : lit "\"" = [34] := congrArg utf8 (chars_ofList ['"'])
    simp [argsText, itemText, hquote]
  have hkey : (chars "args").all isPlain = true := plain_literal rfl
  refine ⟨⟨chars "args", chars "args", '{' :: (pairText [] f ++ (moreText [] fields ++ ['}'])),
    .obj ((f :: fields).map Field.member)⟩, ⟨unescape_of_plain hkey, ?_⟩, rfl, ?_⟩
  · exact reads_object (by simp) hf hfields
  · rw [tailText, if_pos hne, argsText, hftext, htext]
    simp [lit, chars, ← utf8_append, moreText, pairText, spaces]

theorem exists_tailField {e : IttEvent} (h : isCleanMetadata e = true) :
    ∃ f : Field, f.Ok ∧ f.name ≠ chars "name" ∧
      tailText 0 ((e.shown.map argsText).getD []) = utf8 (moreText spaces [f]) := by
  cases hshown : e.shown with
  | none =>
    refine ⟨numberField (chars "id") (decimal 0), decimalField_ok (plain_literal rfl) 0,
      literal_ne (by decide), ?_⟩
    simp [tailText, lit, chars, ← utf8_append, moreText, pairText, spaces, numberField]
  | some args =>
    simp only [isCleanMetadata, hshown, Option.all_some, Bool.and_eq_true, List.all_eq_true] at h
    obtain ⟨f, hf, hname, htext⟩ := exists_argsField h.1 h.2
    refine ⟨f, hf, ?_, htext⟩
    rw [hname]
    exact literal_ne (by decide)

def category : Field := stringField (chars "cat") (chars "cpu_op")

theorem text_around_name (o : Origin) (e : IttEvent) :
    e.text o = utf8 (',' :: '\n' :: '{' :: (pairText spaces phase ++ moreText spaces (originFields o))) ++
      (nameText e.name ++ (utf8 (moreText spaces [category]) ++
        (timeText o .complete e.startTs e.endTs ++ tailText 0 ((e.shown.map argsText).getD []) ++
          lit "\x7d"))) := by
  have hcategory : lit ", \"cat\": \"cpu_op\"" = utf8 (moreText spaces [category]) := by
    decide +kernel
  rw [IttEvent.text, before_text, hcategory]
  simp only [List.append_assoc]

theorem exists_laterFields (o : Origin) {e : IttEvent} (h : isCleanMetadata e = true) :
    ∃ fields : List Field, (∀ f ∈ category :: fields, f.Ok ∧ f.name ≠ chars "name") ∧
      e.text o = utf8 (',' :: '\n' :: '{' :: (pairText spaces phase ++ moreText spaces (originFields o))) ++
        (nameText e.name ++ utf8 (moreText spaces (category :: fields) ++ ['}'])) := by
  obtain ⟨f, hf, hname, htext⟩ := exists_tailField h
  have hkeys : (chars "ts").all isPlain = true ∧ (chars "dur").all isPlain = true :=
    ⟨plain_literal rfl, plain_literal rfl⟩
  have hnames : chars "cat" ≠ chars "name" ∧ chars "ts" ≠ chars "name" ∧ chars "dur" ≠ chars "name" :=
    ⟨literal_ne (by decide), literal_ne (by decide), literal_ne (by decide)⟩
  refine ⟨[numberField (chars "ts") (fixedText (getEpochTimeInUs o.epochStartTime e.startTs)),
    numberField (chars "dur") (fixedText (getTimeInUs (e.endTs - e.startTs))), f], ?_, ?_⟩
  · intro g hg
    simp only [List.mem_cons, List.not_mem_nil, or_false] at hg
    rcases hg with rfl | rfl | rfl | rfl
    · exact ⟨stringField_ok (plain_literal rfl) (plain_literal rfl), hnames.1⟩
    · exact ⟨timeField_ok hkeys.1 _, hnames.2.1⟩
    · exact ⟨timeField_ok hkeys.2 _, hnames.2.2⟩
    · exact ⟨hf, hname⟩
  · rw [text_around_name, htext]
    simp [timeText, lit, ← utf8_append, chars, pairText, moreText, category, spaces, stringField,
      numberField]

theorem exists_nameField {name : Option CStr} (h : name.all (fun n => isPlainText n.val) = true) :
    ∃ text : Option Str, text.map utf8 = name.map Subtype.val ∧
      (∀ t ∈ text, t.all isPlain = true) ∧
      nameText name = utf8 (moreText spaces (text.map (stringField (chars "name"))).toList) := by
  cases name with
  | none => exact ⟨none, rfl, by simp, rfl⟩
  | some name =>
    obtain ⟨text, htext, hplain⟩ := isPlainText_iff.mp h
    have hquote : name.val.head? ≠ some 34 := by
      intro hhead
      have hmem : UInt8.ofNat '"'.toNat ∈ utf8 text := by
        rw [htext]
        exact List.mem_of_mem_head? hhead
      have := List.all_eq_true.mp hplain '"' ((mem_utf8 (by decide)).mp hmem)
      cases this
    refine ⟨some text, by rw [Option.map_some, htext, Option.map_some], by simpa using hplain, ?_⟩
    rw [nameText, if_neg hquote]
    simp [← htext, lit, ← utf8_append, chars, pairText, moreText, spaces, stringField]

/-- The members of a record behind its phase. -/
def recordFields (o : Origin) (name : Option Str) (later : List Field) : List Field :=
  originFields o ++ ((name.map (stringField (chars "name"))).toList ++ category :: later)

theorem recordFields_ok {o : Origin} {name : Option Str} {later : List Field}
    (hname : ∀ t ∈ name, t.all isPlain = true) (hlater : ∀ f ∈ category :: later, f.Ok) :
    ∀ f ∈ recordFields o name later, f.Ok := by
  intro f hf
  rcases List.mem_append.mp hf with hf | hf
  · exact originFields_ok o f hf
  · rcases List.mem_append.mp hf with hf | hf
    · simp only [Option.mem_toList, Option.map_eq_some_iff] at hf
      obtain ⟨text, htext, rfl⟩ := hf
      exact stringField_ok (plain_literal rfl) (hname text htext)
    · exact hlater f hf

theorem names_of_recordFields (o : Origin) (name : Option Str) {later : List Field}
    (hlater : ∀ f ∈ category :: later, f.name ≠ chars "name") :
    valuesOf (chars "name") ((phase :: recordFields o name later).map Field.member) =
      (name.map Value.str).toList := by
  have hbefore : valuesOf (chars "name") ((phase :: originFields o).map Field.member) = [] :=
    valuesOf_eq_nil (before_names o)
  have hafter : valuesOf (chars "name") ((category :: later).map Field.member) = [] :=
    valuesOf_eq_nil hlater
  have hsplit : (phase :: recordFields o name later).map Field.member =
      (phase :: originFields o).map Field.member ++
        ((name.map (stringField (chars "name"))).toList.map Field.member ++
          (category :: later).map Field.member) := by simp [recordFields]
  rw [hsplit, valuesOf_append, valuesOf_append, hbefore, hafter, List.nil_append, List.append_nil]
  cases name with
  | none => rfl
  | some text => exact valuesOf_cons_self _ _ []

/-- A clean event is one more object in the array, under its own name. -/
theorem exists_object (o : Origin) {e : IttEvent} (hmeta : isCleanMetadata e = true)
    (hname : isCleanName e = true) :
    ∃ text object, utf8 text = e.text o ∧ IsNamed e.name object ∧ ∀ items st rest,
      scan (.after, .arr items :: st) (text ++ rest) =
        scan (.after, .arr (object :: items) :: st) rest := by
  obtain ⟨fields, hfields, htext⟩ := exists_laterFields o hmeta
  obtain ⟨name, hnameEq, hplain, hnameText⟩ := exists_nameField hname
  have hok := recordFields_ok (o := o) hplain fun f hf => (hfields f hf).1
  refine ⟨',' :: '\n' :: '{' :: (pairText spaces phase ++
      (moreText spaces (recordFields o name fields) ++ ['}'])),
    .obj ((phase :: recordFields o name fields).map Field.member), ?_,
    ⟨_, rfl, name, names_of_recordFields o name fun f hf => (hfields f hf).2, hnameEq⟩, ?_⟩
  · rw [htext, hnameText, ← utf8_append, ← utf8_append]
    simp [recordFields, moreText_append]
  · intro items st rest
    have hobject := scan_object spaces_space phase_ok hok (.arr items :: st) rest
    simp only [List.cons_append, List.append_assoc, List.nil_append]
    rw [scan_nextItem, hobject, fill]

/-! ## Names that need escapes -/

section Names

variable {k : Str} {members : List (Str × Value)} {st : List Frame} {j : Value}

/-- A literal that runs on into the category ends before a letter. -/
theorem scan_category (body : Str) (escaped : Bool) (rest : Str) :
    scan (.literal false body escaped, .key k :: .obj members :: st)
      (',' :: ' ' :: '"' :: 'c' :: rest) = none := by
  have hopen : scan (.literal false body escaped, .key k :: .obj members :: st)
      (',' :: ' ' :: '"' :: 'c' :: rest) =
        (endLiteral false (' ' :: ',' :: body) (.key k :: .obj members :: st)).bind fun σ =>
          scan σ ('c' :: rest) := by
    cases escaped <;> simp [scan, step]
  rw [hopen, endLiteral]
  cases unescape (' ' :: ',' :: body).reverse with
  | none => rfl
  | some v => rfl

/-- A closed literal has given the object a name no longer than its body. -/
theorem grows_of_closed {body rest : Str} {σ : State}
    (hend : endLiteral false body.reverse (.key k :: .obj members :: st) = some σ)
    (hscan : scan σ rest = some j) :
    ∃ v, unescape body = some v ∧ Grows (.obj ((k, .str v) :: members) :: st) j := by
  rw [endLiteral, List.reverse_reverse] at hend
  obtain ⟨v, hv, rfl⟩ := Option.map_eq_some_iff.mp hend
  exact ⟨v, hv, grows_of_scan hscan⟩

/-- A literal that a quote inside the name closes is shorter than the name. -/
theorem shorter_of_closed {name before after rest : Str} {σ : State}
    (hname : name = before ++ '"' :: after)
    (hend : endLiteral false (before.reverse ++ []) (.key k :: .obj members :: st) = some σ)
    (hscan : scan σ rest = some j) :
    ∃ v : Str, v.length < name.length ∧ Grows (.obj ((k, .str v) :: members) :: st) j := by
  rw [List.append_nil] at hend
  obtain ⟨v, hv, hgrows⟩ := grows_of_closed hend hscan
  have hle := unescape_length_le hv
  have hlen : name.length = before.length + (after.length + 1) := by
    rw [hname, List.length_append, List.length_cons]
  exact ⟨v, by omega, hgrows⟩

/-- Between quotes only a plain name is read as itself. -/
theorem plain_or_other (name rest : Str)
    (h : scan (.literal false [] false, .key k :: .obj members :: st)
      (name ++ '"' :: ',' :: ' ' :: '"' :: 'c' :: rest) = some j) :
    name.all isPlain = true ∨
      ∃ v, v ≠ name ∧ Grows (.obj ((k, .str v) :: members) :: st) j := by
  rcases scan_literal_cases h with ⟨before, after, σ, hname, hend, hscan⟩ | ⟨escaped, hscan⟩
  · obtain ⟨v, hlt, hgrows⟩ := shorter_of_closed hname hend hscan
    refine Or.inr ⟨v, ?_, hgrows⟩
    intro he
    rw [he] at hlt
    omega
  · rcases scan_open_literal hscan with ⟨-, σ, hend, hscan⟩ | ⟨-, hscan⟩
    · rw [List.append_nil] at hend
      obtain ⟨v, hv, hgrows⟩ := grows_of_closed hend hscan
      by_cases he : v = name
      · exact Or.inl (plain_of_unescape hv (by rw [he]))
      · exact Or.inr ⟨v, he, hgrows⟩
    · rw [scan_category] at hscan
      cases hscan

/-- A name that brings its own quote is read as something shorter. -/
theorem shorter_of_quoted (name rest : Str)
    (h : scan (.literal false [] false, .key k :: .obj members :: st)
      (name ++ ',' :: ' ' :: '"' :: 'c' :: rest) = some j) :
    ∃ v : Str, v.length < name.length ∧ Grows (.obj ((k, .str v) :: members) :: st) j := by
  rcases scan_literal_cases h with ⟨before, after, σ, hname, hend, hscan⟩ | ⟨escaped, hscan⟩
  · exact shorter_of_closed hname hend hscan
  · rw [scan_category] at hscan
    cases hscan

end Names

theorem moreText_category :
    ∃ rest, moreText spaces [category] = ',' :: ' ' :: '"' :: 'c' :: rest := by
  refine ⟨chars "at" ++ '"' :: ':' :: ' ' :: category.text, ?_⟩
  simp [moreText, pairText, category, stringField, spaces, chars]

theorem nameKey_scan (members : List (Str × Value)) (st : List Frame) (rest : Str) :
    scan (.after, .obj members :: st) (chars ", \"name\": " ++ rest) =
      scan (.value, .key (chars "name") :: .obj members :: st) rest := by
  have hplain : (chars "name").all isPlain = true := plain_literal rfl
  have hkey := scan_key spaces_space (unescape_of_plain hplain) members st rest
  have htext : chars ", \"name\": " = ',' :: ' ' :: '"' :: (chars "name" ++ '"' :: ':' :: spaces) := by
    rw [chars_ofList, chars_ofList]
    rfl
  rw [← hkey, htext]
  simp [scan, step, stepAfter, isSpace]

theorem delimited_of_nameText {name : CStr} {text : Str} {rest : Bytes}
    (h : utf8 text = nameText (some name) ++ rest) : Delimited text := by
  have hkey : lit ", \"name\": " = utf8 [','] ++ lit " \"name\": " := by
    rw [lit, lit, chars_ofList, chars_ofList, ← utf8_append]
    rfl
  have hopen : lit ", \"name\": \"" = utf8 [','] ++ lit " \"name\": \"" := by
    rw [lit, lit, chars_ofList, chars_ofList, ← utf8_append]
    rfl
  have hcomma : ∃ more, utf8 text = utf8 [','] ++ more := by
    by_cases hquote : name.val.head? = some 34
    · rw [h, nameText, if_pos hquote, hkey]
      exact ⟨lit " \"name\": " ++ (name.val ++ rest), by simp only [List.append_assoc]⟩
    · rw [h, nameText, if_neg hquote, hopen]
      exact ⟨lit " \"name\": \"" ++ (name.val ++ (lit "\"" ++ rest)), by simp only [List.append_assoc]⟩
  obtain ⟨more, hmore⟩ := hcomma
  obtain ⟨t, rfl, -⟩ := append_of_utf8 hmore
  exact delimited_cons rfl t

/-- After a name that is not clean the object has another name, if the text goes on
to be read at all. -/
theorem plain_or_other_of_text {name : CStr} {members : List (Str × Value)} {st : List Frame}
    {j : Value} {text : Str} {more : Bytes}
    (htext : utf8 text = nameText (some name) ++ (utf8 (moreText spaces [category]) ++ more))
    (hscan : scan (.after, .obj members :: st) text = some j) :
    isPlainText name.val = true ∨ ∃ n v, utf8 n = name.val ∧ v ≠ n ∧
      Grows (.obj ((chars "name", .str v) :: members) :: st) j := by
  obtain ⟨rest, hrest⟩ := moreText_category
  by_cases hquote : name.val.head? = some 34
  · -- the name is logged as it is, up to the comma of the category
    have hbytes : utf8 text = utf8 (chars ", \"name\": ") ++
        (name.val ++ (utf8 (',' :: ' ' :: '"' :: 'c' :: rest) ++ more)) := by
      rw [htext, nameText, if_pos hquote, hrest, lit]
      simp only [List.append_assoc]
    obtain ⟨t, rfl, ht⟩ := append_of_utf8 hbytes
    obtain ⟨n, t, rfl, hn, -⟩ := split_char (by decide) ht
    have hhead : utf8 n = utf8 ['"'] ++ name.val.tail := by
      rw [hn]
      exact (List.cons_head?_tail hquote).symm
    obtain ⟨n, rfl, -⟩ := append_of_utf8 hhead
    rw [nameKey_scan] at hscan
    obtain ⟨v, hlt, hgrows⟩ := shorter_of_quoted n (rest ++ t) hscan
    refine Or.inr ⟨'"' :: n, v, hn, ?_, hgrows⟩
    intro he
    rw [he, List.length_cons] at hlt
    omega
  · have hbytes : utf8 text = utf8 (chars ", \"name\": \"") ++
        (name.val ++ (utf8 ('"' :: ',' :: ' ' :: '"' :: 'c' :: rest) ++ more)) := by
      have hend : utf8 ('"' :: ',' :: ' ' :: '"' :: 'c' :: rest) =
          lit "\"" ++ utf8 (',' :: ' ' :: '"' :: 'c' :: rest) := by
        simp [lit, chars, ← utf8_append]
      rw [htext, nameText, if_neg hquote, hrest, hend, lit]
      simp only [List.append_assoc]
    obtain ⟨t, rfl, ht⟩ := append_of_utf8 hbytes
    obtain ⟨n, t, rfl, hn, -⟩ := split_char (by decide) ht
    have hopen : chars ", \"name\": \"" = chars ", \"name\": " ++ ['"'] := by
      rw [chars_ofList, chars_ofList]
      rfl
    rw [hopen, List.append_assoc, nameKey_scan] at hscan
    rcases plain_or_other n (rest ++ t) hscan with hplain | ⟨v, hne, hgrows⟩
    · exact Or.inl (isPlainText_iff.mpr ⟨n, hn, hplain⟩)
    · exact Or.inr ⟨n, v, hn, hne, hgrows⟩

/-- An object that starts with another name is not named as the event. -/
theorem not_isNamed {name : CStr} {n v : Str} {members more : List (Str × Value)}
    (hn : utf8 n = name.val) (hne : v ≠ n) (hbefore : valuesOf (chars "name") members = []) :
    ¬ IsNamed (some name) (.obj (members ++ (chars "name", .str v) :: more)) := by
  intro ⟨all, hall, text, hvalues, htext⟩
  obtain rfl := Value.obj.inj hall
  rw [valuesOf_append, hbefore, List.nil_append, valuesOf_cons_self] at hvalues
  cases text with
  | none => cases hvalues
  | some text =>
    have hv : v = text := Value.str.inj (List.cons.inj hvalues).1
    have hbytes : utf8 text = utf8 n := by
      rw [hn]
      exact Option.some.inj htext
    exact hne (hv.trans (utf8_injective hbytes))

/-! ## The array of events -/

/-- The stack below the array of events. -/
def base : List Frame := [.key (chars "traceEvents"), .obj []]

def HasItems (file : Value) (items : List Value) : Prop :=
  ∃ members, file = .obj members ∧ valuesOf (chars "traceEvents") members = [.arr items]

theorem items_of_holds {items all : List Value} {file : Value} (h : Holds base (.arr items) file)
    (hitems : HasItems file all) : all = items := by
  obtain ⟨more, hfile⟩ := h
  obtain ⟨members, rfl, hvalues⟩ := hitems
  obtain rfl := Value.obj.inj hfile
  rw [List.reverse_nil, List.nil_append, valuesOf_cons_self] at hvalues
  exact (Value.arr.inj (List.cons.inj hvalues).1).symm

/-- The items of the file start with the items that were read. -/
theorem items_of_grows {items all : List Value} {file : Value}
    (h : Grows (.arr items :: base) file) (hitems : HasItems file all) :
    ∃ more, all = items.reverse ++ more := by
  obtain ⟨more, h⟩ := h
  exact ⟨more, items_of_holds h hitems⟩

/-- An object that is being read becomes the next item of the file. -/
theorem next_of_grows {items all : List Value} {members : List (Str × Value)} {file : Value}
    (h : Grows (.obj members :: .arr items :: base) file) (hitems : HasItems file all) :
    ∃ later more, all = items.reverse ++ .obj (members.reverse ++ later) :: more := by
  obtain ⟨later, more, h⟩ := h
  exact ⟨later, more, items_of_holds h hitems⟩

/-- The record of an event is named as the event only if the event has a clean name. -/
theorem clean_of_named {o : Origin} {e : IttEvent} {text : Str} {rest : Bytes} {items objects : List Value} {object file : Value}
    (htext : utf8 text = e.text o ++ rest)
    (hscan : scan (.after, .arr items :: base) text = some file)
    (hitems : HasItems file (items.reverse ++ object :: objects)) (hnamed : IsNamed e.name object) :
    isCleanName e = true := by
  cases hname : e.name with
  | none => rw [isCleanName, hname, Option.all_none]
  | some name =>
    rw [hname] at hnamed
    rw [text_around_name, hname, List.append_assoc, List.append_assoc, List.append_assoc] at htext
    obtain ⟨t, rfl, ht⟩ := append_of_utf8 htext
    have hopen := scan_openObject spaces_space phase_ok (originFields_ok o) (.arr items :: base)
      (delimited_of_nameText ht)
    simp only [List.cons_append, List.append_assoc] at hscan
    rw [scan_nextItem, hopen] at hscan
    rcases plain_or_other_of_text ht hscan with hplain | ⟨n, v, hn, hne, hgrows⟩
    · rw [isCleanName, hname]
      exact hplain
    · obtain ⟨later, more, hall⟩ := next_of_grows hgrows hitems
      have hobject := (List.cons.inj (List.append_cancel_left hall)).1
      have hbefore : valuesOf (chars "name") ((phase :: originFields o).map Field.member) = [] :=
        valuesOf_eq_nil (before_names o)
      rw [List.reverse_cons, List.reverse_reverse, List.append_assoc] at hobject
      rw [hobject] at hnamed
      exact absurd hnamed (not_isNamed hn hne hbefore)

/-- Reading on, event by event, shows that every name is clean. -/
theorem clean_of_scan {events : List LoggedEvent}
    (hmeta : ∀ e ∈ events, isCleanName e.event = true → isCleanMetadata e.event = true) {text : Str}
    {items objects : List Value} {file : Value}
    (htext : utf8 text = events.flatMap LoggedEvent.text ++ closingText)
    (hscan : scan (.after, .arr items :: base) text = some file)
    (hitems : HasItems file (items.reverse ++ objects))
    (hnamed : List.Forall₂ (fun e object => IsNamed e.event.name object) events objects) :
    ∀ e ∈ events, isCleanName e.event = true := by
  induction hnamed generalizing text items with
  | nil => simp
  | @cons e object events objects hhead htail ih =>
    rw [List.flatMap_cons, List.append_assoc, text_eq] at htext
    have hclean := clean_of_named htext hscan hitems hhead
    obtain ⟨record, next, hrecord, -, hnext⟩ :=
      exists_object e.origin (hmeta e List.mem_cons_self hclean) hclean
    rw [← hrecord] at htext
    obtain ⟨rest, rfl, hrest⟩ := append_of_utf8 htext
    rw [hnext] at hscan
    obtain ⟨more, hmore⟩ := items_of_grows (grows_of_scan hscan) hitems
    rw [List.reverse_cons, List.append_assoc, List.singleton_append] at hmore
    obtain ⟨rfl, rfl⟩ := List.cons.inj (List.append_cancel_left hmore)
    have hlater : ∀ d ∈ events, isCleanName d.event = true := by
      apply ih (fun d hd => hmeta d (List.mem_cons_of_mem e hd)) hrest hscan
      rw [List.reverse_cons, List.append_assoc, List.singleton_append]
      exact hitems
    intro d hd
    rcases List.mem_cons.mp hd with rfl | hd
    · exact hclean
    · exact hlater d hd

/-- Clean events are read one by one up to the end of the file. -/
theorem exists_rest {events : List LoggedEvent}
    (hmeta : ∀ e ∈ events, isCleanMetadata e.event = true)
    (hname : ∀ e ∈ events, isCleanName e.event = true) :
    ∃ text objects, utf8 text = events.flatMap LoggedEvent.text ++ closingText ∧
      List.Forall₂ (fun e object => IsNamed e.event.name object) events objects ∧
      ∀ items, scan (.after, .arr items :: base) text =
        some (.obj [(chars "traceEvents", .arr (items.reverse ++ objects))]) := by
  induction events with
  | nil =>
    refine ⟨chars "\n]\n\x7d\n", [], rfl, List.Forall₂.nil, fun items => ?_⟩
    simp [chars, scan, step, stepAfter, isSpace, fill, finish, base]
  | cons e events ih =>
    obtain ⟨text, objects, htext, hnamed, hscan⟩ :=
      ih (fun d hd => hmeta d (List.mem_cons_of_mem e hd))
        (fun d hd => hname d (List.mem_cons_of_mem e hd))
    obtain ⟨record, object, hrecord, hobject, hnext⟩ :=
      exists_object e.origin (hmeta e List.mem_cons_self) (hname e List.mem_cons_self)
    refine ⟨record ++ text, object :: objects, ?_, List.Forall₂.cons hobject hnamed, ?_⟩
    · rw [utf8_append, hrecord, htext, List.flatMap_cons, text_eq, List.append_assoc]
    · intro items
      rw [hnext, hscan, List.reverse_cons, List.append_assoc, List.singleton_append]

/-! ## The process entry -/

def processPhase : Field := stringField (chars "ph") (chars "M")

def processName : Field := stringField (chars "name") (chars "process_name")

/-- The label of the process, whose text stands for `v`. -/
def labelField (label v : Str) : Field :=
  ⟨chars "name", chars "name", '"' :: (label ++ ['"']), .str v⟩

def processArgs (label v : Str) : Field :=
  ⟨chars "args", chars "args", '{' :: (pairText spaces (labelField label v) ++ (moreText spaces [] ++ ['}'])),
    .obj ([labelField label v].map Field.member)⟩

def processNumbers (l : Launch) : List Field :=
  [numberField (chars "pid") (decimal l.pid.toNat),
    numberField (chars "ts") (decimal l.processStartTime.toNat)]

def processFields (l : Launch) (label v : Str) : List Field :=
  processName :: (processNumbers l ++ [processArgs label v])

theorem processPhase_ok : processPhase.Ok := stringField_ok (plain_literal rfl) (plain_literal rfl)

theorem processArgs_ok {label v : Str} (hv : unescape label = some v) : (processArgs label v).Ok := by
  have hkeys : (chars "name").all isPlain = true ∧ (chars "args").all isPlain = true :=
    ⟨plain_literal rfl, plain_literal rfl⟩
  have hlabel : (labelField label v).Ok := ⟨unescape_of_plain hkeys.1, reads_literal hv⟩
  exact ⟨unescape_of_plain hkeys.2, reads_object spaces_space hlabel (by simp)⟩

theorem processFields_ok (l : Launch) {label v : Str} (hv : unescape label = some v) :
    ∀ f ∈ processFields l label v, f.Ok := by
  intro f hf
  simp only [processFields, processNumbers, List.cons_append, List.nil_append, List.mem_cons,
    List.not_mem_nil, or_false] at hf
  rcases hf with rfl | rfl | rfl | rfl
  · exact stringField_ok (plain_literal rfl) (plain_literal rfl)
  · exact decimalField_ok (plain_literal rfl) _
  · exact decimalField_ok (plain_literal rfl) _
  · exact processArgs_ok hv

def processEntry (l : Launch) (label v : Str) : Value :=
  .obj ((processPhase :: processFields l label v).map Field.member)

theorem isProcessEntry_processEntry (l : Launch) (label v : Str) :
    IsProcessEntry (processEntry l label v) := by
  have hnames : chars "ph" ≠ chars "name" ∧ chars "pid" ≠ chars "name" ∧ chars "ts" ≠ chars "name" ∧
      chars "args" ≠ chars "name" :=
    ⟨literal_ne (by decide), literal_ne (by decide), literal_ne (by decide), literal_ne (by decide)⟩
  obtain ⟨hph, hpid, hts, hargs⟩ := hnames
  refine ⟨_, rfl, ?_⟩
  have hfirst : valuesOf (chars "name") ([processPhase].map Field.member) = [] := by
    apply valuesOf_eq_nil
    intro f hf
    rw [List.mem_singleton.mp hf]
    exact hph
  have hlast : valuesOf (chars "name") ((processNumbers l ++ [processArgs label v]).map Field.member) = [] := by
    apply valuesOf_eq_nil
    intro f hf
    simp only [processNumbers, List.cons_append, List.nil_append, List.mem_cons, List.not_mem_nil,
      or_false] at hf
    rcases hf with rfl | rfl | rfl
    · exact hpid
    · exact hts
    · exact hargs
  calc
    valuesOf (chars "name") ((processPhase :: processFields l label v).map Field.member) =
        valuesOf (chars "name") ([processPhase].map Field.member) ++
          valuesOf (chars "name") (processName.member ::
            (processNumbers l ++ [processArgs label v]).map Field.member) := by
      rw [← valuesOf_append]
      rfl
    _ = [.str (chars "process_name")] := by
      have hself := valuesOf_cons_self (chars "name") processName.value
        ((processNumbers l ++ [processArgs label v]).map Field.member)
      rw [hlast] at hself
      rw [hfirst, List.nil_append]
      exact hself

/-- The text of the constructor, for a label that encodes `label`. -/
def headerText (l : Launch) (label v : Str) : Str :=
  '{' :: ' ' :: '"' :: (chars "traceEvents" ++ '"' :: ':' :: '[' :: '\n' :: '{' ::
    (pairText spaces processPhase ++ (moreText spaces (processFields l label v) ++ ['}'])))

theorem utf8_headerText (l : Launch) {label : Str} (v : Str) (hlabel : utf8 label = l.label) :
    utf8 (headerText l label v) = constructorText l := by
  simp [headerText, constructorText, ← hlabel, lit, ← utf8_append, chars, pairText, moreText,
    processPhase, processFields, processName, processNumbers, processArgs, labelField, spaces,
    stringField, numberField]

/-- The constructor opens the array and puts the process entry into it. -/
theorem parse_headerText (l : Launch) {label v : Str} (hv : unescape label = some v) (rest : Str) :
    parse (headerText l label v ++ rest) =
      scan (.after, .arr [processEntry l label v] :: base) rest := by
  have hkey : (chars "traceEvents").all isPlain = true := plain_literal rfl
  have hstart (t : Str) : scan (.value, []) ('{' :: ' ' :: '"' :: t) =
      scan (.key, [.obj []]) ('"' :: t) := by simp [scan, step, stepValue, isSpace]
  have hopen (t : Str) : scan (.value, base) ('[' :: '\n' :: '{' :: t) =
      scan (.value, .arr [] :: base) ('{' :: t) := by simp [scan, step, stepValue, isSpace]
  have hevents (t : Str) := scan_key (List.forall_mem_nil fun c => isSpace c = true)
    (unescape_of_plain hkey) [] [] t
  have hentry := scan_object spaces_space processPhase_ok (processFields_ok l hv)
    (.arr [] :: base) rest
  simp only [parse, headerText, List.cons_append, List.append_assoc, List.nil_append]
  rw [hstart]
  exact (hevents _).trans ((hopen _).trans hentry)

/-! ## When the file is faithful -/

section Faithful

variable {l : Launch} {events : List LoggedEvent} (hlabel : isLiteralBody l.label = true)
include hlabel

theorem clean_of_isFaithful
    (hmeta : ∀ e ∈ events, isCleanName e.event = true → isCleanMetadata e.event = true)
    (h : IsFaithful (traceText l events) events) : ∀ e ∈ events, isCleanName e.event = true := by
  obtain ⟨label, v, hlabelText, hv⟩ := exists_of_isLiteralBody hlabel
  obtain ⟨text, members, entry, objects, hdecode, hparse, hvalues, -, hnamed⟩ := h
  have htext : utf8 text = utf8 (headerText l label v) ++
      (events.flatMap LoggedEvent.text ++ closingText) := by
    rw [← decode_eq_some hdecode, traceText, utf8_headerText l v hlabelText, List.append_assoc]
  obtain ⟨rest, rfl, hrest⟩ := append_of_utf8 htext
  rw [parse_headerText l hv] at hparse
  have hitems : HasItems (.obj members) (entry :: objects) := ⟨members, rfl, hvalues⟩
  obtain ⟨more, hmore⟩ := items_of_grows (grows_of_scan hparse) hitems
  obtain ⟨rfl, -⟩ := List.cons.inj hmore
  exact clean_of_scan hmeta hrest hparse hitems hnamed

theorem isFaithful_of_clean (hmeta : ∀ e ∈ events, isCleanMetadata e.event = true)
    (hname : ∀ e ∈ events, isCleanName e.event = true) :
    IsFaithful (traceText l events) events := by
  obtain ⟨label, v, hlabelText, hv⟩ := exists_of_isLiteralBody hlabel
  obtain ⟨rest, objects, hrest, hnamed, hscan⟩ := exists_rest hmeta hname
  have htext : traceText l events = utf8 (headerText l label v ++ rest) := by
    rw [utf8_append, utf8_headerText l v hlabelText, hrest, traceText, List.append_assoc]
  exact ⟨headerText l label v ++ rest, _, processEntry l label v, objects,
    by rw [htext, decode_utf8],
    (parse_headerText l hv rest).trans (hscan [processEntry l label v]), valuesOf_cons_self _ _ [],
    isProcessEntry_processEntry l label v, hnamed⟩

end Faithful

/-- The file reads back as it was meant exactly if every name stands for itself
between quotes, given that the label of the process and the metadata of such events
may stand between quotes. -/
theorem isFaithful_iff (l : Launch) (events : List LoggedEvent)
    (hlabel : isLiteralBody l.label = true)
    (hmeta : ∀ e ∈ events, isCleanName e.event = true → isCleanMetadata e.event = true) :
    IsFaithful (traceText l events) events ↔ ∀ e ∈ events, isCleanName e.event = true :=
  ⟨clean_of_isFaithful hlabel hmeta,
    fun hname => isFaithful_of_clean hlabel (fun e he => hmeta e he (hname e he)) hname⟩

def sampleLaunch : Launch where
  pid := 7
  processStartTime := 1000
  hostName := ⟨lit "node", by decide +kernel⟩
  pmiRank := ⟨[], zero_notMem_nil⟩
  pmixRank := ⟨lit "3", by decide +kernel⟩

/-- One string of metadata. -/
def sampleArgs (key value : CStr) : IttArgs where
  count := value.val.length
  isIndirectData := true
  type := .unknown
  key := key
  data := []
  indirect := value.val
  next := []

/-- An event with one string of metadata, in a slot that was not used before. -/
def sampleEvent (name key value : CStr) : LoggedEvent where
  origin := ⟨8, 7, 5000⟩
  slot := ⟨0, 0, 0, none, .null, .none,
    { count := 0, isIndirectData := false, type := .unknown, key := key, data := [],
      indirect := [], next := [] }⟩
  event := ⟨some name, 1500, 2750, some (sampleArgs key value)⟩

def stage : CStr := ⟨lit "stage", by decide +kernel⟩

def sampleEvents : List LoggedEvent :=
  [sampleEvent ⟨lit "app::step", by decide +kernel⟩ stage ⟨lit "a\\tb", by decide +kernel⟩,
    sampleEvent ⟨lit "app::done", by decide +kernel⟩ stage ⟨lit "c", by decide +kernel⟩]

/-- Metadata may hold escapes, and a file of two events reads back. -/
theorem isFaithful_sample : IsFaithful (traceText sampleLaunch sampleEvents) sampleEvents :=
  (isFaithful_iff sampleLaunch sampleEvents (by decide +kernel) (by decide +kernel)).mpr
    (by decide +kernel)

def brokenEvents : List LoggedEvent :=
  [sampleEvent ⟨lit "app::a\"b", by decide +kernel⟩ stage ⟨lit "c", by decide +kernel⟩]

/-- A quote in a name ends the string, and the file does not read back. -/
theorem not_isFaithful_quote : ¬ IsFaithful (traceText sampleLaunch brokenEvents) brokenEvents := by
  intro h
  have hname : brokenEvents.all (fun e => isCleanName e.event) = false := by decide +kernel
  have hmeta : ∀ e ∈ brokenEvents, isCleanName e.event = true → isCleanMetadata e.event = true := by
    decide +kernel
  rw [List.all_eq_true.mpr (clean_of_isFaithful (by decide +kernel) hmeta h)] at hname
  cases hname

end Unitrace.Trace.ChromeLog
