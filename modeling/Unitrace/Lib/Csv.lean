import Mathlib.Data.List.Basic
import Unitrace.Lib.Text

/-!
# Reading comma-separated values

The reader of Python's `csv` module in its default dialect with blanks skipped at
the start of a field: fields are separated by commas, a field that starts with a
double quote ends at a single double quote, and two stand for one. No field may
be longer than the limit of the module.
-/
namespace Unitrace.Lib.Csv

open Unitrace.Lib.Text

inductive State where
  | startRecord | startField | inField | inQuotedField | quoteInQuotedField | eatCrnl
  deriving DecidableEq

structure Reader where
  state : State := .startRecord
  field : Str := []
  fields : List Str := []

/-- `csv.field_size_limit()` where no program has set it -/
def fieldSizeLimit : Nat := 131072

/-- There is no result when the field has its full length already. -/
def Reader.addChar (r : Reader) (c : Char) (state : State) : Option Reader :=
  if fieldSizeLimit ≤ r.field.length then none
  else some { r with field := r.field ++ [c], state := state }

def Reader.saveField (r : Reader) (state : State) : Reader :=
  { fields := r.fields ++ [r.field], field := [], state := state }

def isNewline (c : Char) : Bool := c = '\n' || c = '\r'

/-- One character of a line; there is no result when a character follows the newline or a
field grows over the limit. -/
def Reader.char (r : Reader) (c : Char) : Option Reader :=
  match r.state with
  | .startRecord | .startField =>
    if isNewline c then
      if r.state = .startRecord then some { r with state := .eatCrnl }
      else some (r.saveField .eatCrnl)
    else if c = '"' then some { r with state := .inQuotedField }
    else if c = ' ' then some { r with state := .startField }
    else if c = ',' then some (r.saveField .startField)
    else r.addChar c .inField
  | .inField =>
    if isNewline c then some (r.saveField .eatCrnl)
    else if c = ',' then some (r.saveField .startField)
    else r.addChar c .inField
  | .inQuotedField =>
    if c = '"' then some { r with state := .quoteInQuotedField }
    else r.addChar c .inQuotedField
  | .quoteInQuotedField =>
    if c = '"' then r.addChar c .inQuotedField
    else if c = ',' then some (r.saveField .startField)
    else if isNewline c then some (r.saveField .eatCrnl)
    else r.addChar c .inField
  | .eatCrnl => if isNewline c then some r else none

/-- The end of a line. -/
def Reader.endLine (r : Reader) : Reader :=
  match r.state with
  | .startRecord => r
  | .startField | .inField | .quoteInQuotedField => r.saveField .startRecord
  | .inQuotedField => r
  | .eatCrnl => { r with state := .startRecord }

def Reader.chars : Reader → Str → Option Reader
  | r, [] => some r
  | r, c :: rest => (r.char c).bind fun r => Reader.chars r rest

def Reader.line (r : Reader) (line : Str) : Option Reader := (r.chars line).map Reader.endLine

/-- The records of the lines; a quoted field may go on in the next line, and what is
left of it at the end of the input is a record. -/
def Reader.records : Reader → List Str → Option (List (List Str))
  | r, [] =>
    if r.field ≠ [] ∨ r.state = .inQuotedField then some [r.fields ++ [r.field]] else some []
  | r, line :: rest =>
    match r.line line with
    | none => none
    | some r =>
      if r.state = .startRecord then (Reader.records {} rest).map fun more => r.fields :: more
      else Reader.records r rest

/-! ## Plain fields -/

/-- A field that is read back as it is: it does not start with a blank or a quote, holds
no comma and no newline, and is not too long. -/
structure Plain (field : Str) : Prop where
  start : ∃ c rest, field = c :: rest ∧ c ≠ ' ' ∧ c ≠ '"'
  inside : ∀ c ∈ field, isNewline c = false ∧ c ≠ ','
  short : field.length ≤ fieldSizeLimit

theorem addChar_eq {r : Reader} (h : r.field.length < fieldSizeLimit) (c : Char) (state : State) :
    r.addChar c state = some { r with field := r.field ++ [c], state := state } := by
  rw [Reader.addChar, if_neg (Nat.not_le.mpr h)]

theorem addChar_cases {r r' : Reader} {c : Char} {state : State}
    (h : r.addChar c state = some r') : r.field.length < fieldSizeLimit ∧
      r' = { r with field := r.field ++ [c], state := state } := by
  rw [Reader.addChar] at h
  split at h
  · cases h
  · rename_i hlt
    exact ⟨Nat.not_le.mp hlt, (Option.some.inj h).symm⟩

theorem chars_append (r : Reader) (s t : Str) :
    r.chars (s ++ t) = (r.chars s).bind fun r => r.chars t := by
  induction s generalizing r with
  | nil => rfl
  | cons c s ih =>
    rw [List.cons_append, Reader.chars, Reader.chars]
    cases r.char c with
    | none => rfl
    | some r => exact ih r

theorem chars_inField {s : Str} (h : ∀ c ∈ s, isNewline c = false ∧ c ≠ ',') (r : Reader)
    (hr : r.state = .inField) (hshort : (r.field ++ s).length ≤ fieldSizeLimit) :
    r.chars s = some { r with field := r.field ++ s } := by
  induction s generalizing r with
  | nil => simp [Reader.chars]
  | cons c s ih =>
    obtain ⟨hnl, hcomma⟩ := h c List.mem_cons_self
    rw [List.append_cons] at hshort
    have hlt : r.field.length < fieldSizeLimit := by
      simp only [List.length_append, List.length_singleton] at hshort
      omega
    have hstep : r.char c = some { r with field := r.field ++ [c], state := .inField } := by
      rw [← addChar_eq hlt]
      simp [Reader.char, hr, hnl, hcomma]
    rw [Reader.chars, hstep, Option.bind_some,
      ih (fun d hd => h d (List.mem_cons_of_mem c hd)) _ rfl hshort]
    simp [hr]

/-- Where a field may start. -/
def Reader.Ready (r : Reader) : Prop :=
  (r.state = .startRecord ∨ r.state = .startField) ∧ r.field = []

theorem Reader.Ready.first {r : Reader} (hr : r.Ready) {c : Char} (hnl : isNewline c = false)
    (hquote : c ≠ '"') (hblank : c ≠ ' ') (hcomma : c ≠ ',') :
    r.char c = some { r with state := .inField, field := [c] } := by
  obtain ⟨hstate, hfield⟩ := hr
  have hadd := addChar_eq (r := r) (by rw [hfield]; decide) c .inField
  rw [hfield, List.nil_append] at hadd
  rcases hstate with hstate | hstate <;>
    simp [Reader.char, hstate, hnl, hquote, hblank, hcomma, hadd]

theorem chars_blanks (n : Nat) (r : Reader) (hr : r.Ready) (rest : Str) :
    ∃ r' : Reader, r'.Ready ∧ r'.fields = r.fields ∧ r.chars (List.replicate n ' ' ++ rest) = r'.chars rest := by
  induction n generalizing r with
  | zero => exact ⟨r, hr, rfl, rfl⟩
  | succ n ih =>
    have hstep : r.char ' ' = some { r with state := .startField } := by
      rcases hr.1 with hstate | hstate <;> simp [Reader.char, hstate, isNewline]
    obtain ⟨r', hready, hfields, hrun⟩ := ih { r with state := .startField } ⟨Or.inr rfl, hr.2⟩
    refine ⟨r', hready, hfields, ?_⟩
    rw [List.replicate_succ, List.cons_append, Reader.chars, hstep]
    exact hrun

/-- Reading blanks and a plain field. -/
theorem chars_field (n : Nat) {field : Str} (hf : Plain field) (r : Reader) (hr : r.Ready) (rest : Str) :
    r.chars (List.replicate n ' ' ++ (field ++ rest)) =
      ({ fields := r.fields, state := .inField, field := field } : Reader).chars rest := by
  obtain ⟨c, tail, rfl, hblank, hquote⟩ := hf.start
  obtain ⟨hnl, hcomma⟩ := hf.inside c List.mem_cons_self
  obtain ⟨r', hready, hfields, hrun⟩ := chars_blanks n r hr (c :: tail ++ rest)
  rw [hrun, List.cons_append, Reader.chars, hready.first hnl hquote hblank hcomma, Option.bind_some,
    chars_append, chars_inField (fun d hd => hf.inside d (List.mem_cons_of_mem c hd))
      { r' with state := .inField, field := [c] } rfl hf.short, Option.bind_some, hfields]
  rfl

/-- The text of a line, each field behind a number of blanks. -/
def lineText : List (Nat × Str) → Str
  | [] => ['\n']
  | [(n, field)] => List.replicate n ' ' ++ (field ++ ['\n'])
  | (n, field) :: rest => List.replicate n ' ' ++ (field ++ ',' :: lineText rest)

/-- A line ends with its newline, and holds fields, blanks and commas before it. -/
theorem lineText_body (fields : List (Nat × Str)) :
    ∃ body, lineText fields = body ++ ['\n'] ∧
      ∀ c ∈ body, c = ' ' ∨ c = ',' ∨ ∃ p ∈ fields, c ∈ p.2 := by
  have hfield (n : Nat) (field : Str) (rest : List (Nat × Str)) {c : Char}
      (hc : c ∈ List.replicate n ' ' ++ field) :
      c = ' ' ∨ c = ',' ∨ ∃ p ∈ (n, field) :: rest, c ∈ p.2 := by
    rcases List.mem_append.mp hc with hc | hc
    · exact Or.inl (List.eq_of_mem_replicate hc)
    · exact Or.inr (Or.inr ⟨(n, field), List.mem_cons_self, hc⟩)
  induction fields with
  | nil => exact ⟨[], rfl, by simp⟩
  | cons p fields ih =>
    obtain ⟨n, field⟩ := p
    cases fields with
    | nil =>
      refine ⟨List.replicate n ' ' ++ field, by simp [lineText], fun c hc => hfield n field [] hc⟩
    | cons q fields =>
      obtain ⟨body, hbody, hmem⟩ := ih
      refine ⟨(List.replicate n ' ' ++ field) ++ ',' :: body, by simp [lineText, hbody], ?_⟩
      intro c hc
      rcases List.mem_append.mp hc with hc | hc
      · exact hfield n field (q :: fields) hc
      · rcases List.mem_cons.mp hc with rfl | hc
        · exact Or.inr (Or.inl rfl)
        · refine (hmem c hc).imp id (Or.imp id ?_)
          intro ⟨p, hp, hcp⟩
          exact ⟨p, List.mem_cons_of_mem _ hp, hcp⟩

theorem chars_lineText (fields : List (Nat × Str)) (hne : fields ≠ [])
    (hplain : ∀ p ∈ fields, Plain p.2) (r : Reader) (hr : r.Ready) :
    r.chars (lineText fields) =
      some { fields := r.fields ++ fields.map Prod.snd, state := .eatCrnl, field := [] } := by
  induction fields generalizing r with
  | nil => exact absurd rfl hne
  | cons p fields ih =>
    obtain ⟨n, field⟩ := p
    have hf : Plain field := hplain (n, field) List.mem_cons_self
    cases fields with
    | nil =>
      rw [lineText, chars_field n hf r hr]
      simp [Reader.chars, Reader.char, isNewline, Reader.saveField]
    | cons q fields =>
      rw [lineText, chars_field n hf r hr, Reader.chars]
      · have hstep : ({ fields := r.fields, state := .inField, field := field } : Reader).char ',' =
            some { fields := r.fields ++ [field], state := .startField, field := [] } := by
          simp [Reader.char, isNewline, Reader.saveField]
        rw [hstep, Option.bind_some, ih (by simp)
          (fun p hp => hplain p (List.mem_cons_of_mem _ hp)) _ ⟨Or.inr rfl, rfl⟩]
        simp
      · simp

/-- A line of plain fields is one record. -/
theorem records_lineText (fields : List (Nat × Str)) (hne : fields ≠ [])
    (hplain : ∀ p ∈ fields, Plain p.2) (rest : List Str) :
    Reader.records {} (lineText fields :: rest) =
      (Reader.records {} rest).map fun more => fields.map Prod.snd :: more := by
  have hline : Reader.line {} (lineText fields) =
      some { fields := fields.map Prod.snd, state := .startRecord, field := [] } := by
    rw [Reader.line, chars_lineText fields hne hplain {} ⟨Or.inl rfl, rfl⟩]
    rfl
  rw [Reader.records, hline]
  simp

/-! ## The first field of a record -/

/-- The first field of the record that is being read is not quoted. -/
def Reader.FirstPlain (r : Reader) : Prop :=
  (r.fields = [] ∧ r.state = .inField ∧ ',' ∉ r.field) ∨
    ∃ field more, r.fields = field :: more ∧ ',' ∉ field

theorem FirstPlain.save {r : Reader} (h : r.FirstPlain) (state : State) :
    (r.saveField state).FirstPlain := by
  rcases h with ⟨hfields, -, hfield⟩ | ⟨field, more, hfields, hfield⟩
  · exact Or.inr ⟨r.field, [], by simp [Reader.saveField, hfields], hfield⟩
  · exact Or.inr ⟨field, more ++ [r.field], by simp [Reader.saveField, hfields], hfield⟩

/-- A character saves one field at most. -/
theorem char_fields {r r' : Reader} {c : Char} (h : r.char c = some r') :
    ∃ saved, r'.fields = r.fields ++ saved := by
  have hsame : ∀ q : Reader, some q = some r' → q.fields = r.fields →
      ∃ saved, r'.fields = r.fields ++ saved := by
    intro q hq hfields
    exact ⟨[], by rw [← Option.some.inj hq, hfields, List.append_nil]⟩
  have hsave : ∀ state, some (r.saveField state) = some r' →
      ∃ saved, r'.fields = r.fields ++ saved := by
    intro state hq
    exact ⟨[r.field], by rw [← Option.some.inj hq]; rfl⟩
  have hadd : ∀ state, r.addChar c state = some r' → ∃ saved, r'.fields = r.fields ++ saved := by
    intro state hq
    obtain ⟨-, rfl⟩ := addChar_cases hq
    exact ⟨[], (List.append_nil _).symm⟩
  unfold Reader.char at h
  split at h <;> repeat' split at h
  all_goals first
    | exact hsave _ h
    | exact hadd _ h
    | exact hsame _ h rfl
    | cases h

theorem FirstPlain.char {r r' : Reader} (h : r.FirstPlain) {c : Char} (hc : r.char c = some r') :
    r'.FirstPlain := by
  rcases h with ⟨hfields, hstate, hfield⟩ | ⟨field, more, hfields, hfield⟩
  · have hopen : r.FirstPlain := Or.inl ⟨hfields, hstate, hfield⟩
    rw [Reader.char, hstate] at hc
    dsimp only at hc
    split at hc
    · obtain rfl := Option.some.inj hc
      exact FirstPlain.save hopen _
    · split at hc
      · obtain rfl := Option.some.inj hc
        exact FirstPlain.save hopen _
      · rename_i hcomma
        obtain ⟨-, rfl⟩ := addChar_cases hc
        refine Or.inl ⟨hfields, rfl, ?_⟩
        simp [hfield, Ne.symm hcomma]
  · obtain ⟨saved, hsaved⟩ := char_fields hc
    exact Or.inr ⟨field, more ++ saved, by rw [hsaved, hfields, List.cons_append], hfield⟩

theorem FirstPlain.chars {r r' : Reader} (h : r.FirstPlain) {s : Str} (hs : r.chars s = some r') :
    r'.FirstPlain := by
  induction s generalizing r with
  | nil =>
    obtain rfl := Option.some.inj hs
    exact h
  | cons c s ih =>
    obtain ⟨q, hq, hrest⟩ := Option.bind_eq_some_iff.mp hs
    exact ih (FirstPlain.char h hq) hrest

theorem FirstPlain.endLine {r : Reader} (h : r.FirstPlain) : r.endLine.FirstPlain := by
  have hkeep (state : State) (hstate : r.state ≠ .inField) :
      ({ r with state := state } : Reader).FirstPlain := by
    rcases h with ⟨-, hin, -⟩ | h
    · exact absurd hin hstate
    · exact Or.inr h
  unfold Reader.endLine
  split
  · exact h
  · exact FirstPlain.save h _
  · exact FirstPlain.save h _
  · exact FirstPlain.save h _
  · exact h
  · rename_i hstate
    exact hkeep _ (by rw [hstate]; decide)

/-- The line starts with blanks and a character of a plain field. -/
def Starts (line : Str) : Prop :=
  ∃ n c rest, line = List.replicate n ' ' ++ c :: rest ∧ isNewline c = false ∧ c ≠ '"' ∧ c ≠ ' ' ∧
    c ≠ ','

/-- The first field of every record ends at the first comma: it cannot hold one. -/
theorem records_first {lines : List Str} (hlines : ∀ line ∈ lines, Starts line) {r : Reader}
    (hr : r = {} ∨ r.FirstPlain) {records : List (List Str)} (h : r.records lines = some records) :
    ∀ record ∈ records, ∃ field more, record = field :: more ∧ ',' ∉ field := by
  induction lines generalizing r records with
  | nil =>
    rw [Reader.records] at h
    split at h
    · rename_i hopen
      rcases hr with rfl | hr
      · simp at hopen
      · obtain rfl := Option.some.inj h
        intro record hrecord
        rw [List.mem_singleton.mp hrecord]
        rcases hr with ⟨hfields, -, hfield⟩ | ⟨field, more, hfields, hfield⟩
        · exact ⟨r.field, [], by rw [hfields]; rfl, hfield⟩
        · exact ⟨field, more ++ [r.field], by rw [hfields]; rfl, hfield⟩
    · obtain rfl := Option.some.inj h
      intro record hrecord
      cases hrecord
  | cons line lines ih =>
    have hrest : ∀ line ∈ lines, Starts line := fun l hl => hlines l (List.mem_cons_of_mem line hl)
    rw [Reader.records] at h
    cases hline : r.line line with
    | none => rw [hline] at h; cases h
    | some next =>
      rw [hline] at h
      dsimp only at h
      have hnext : next.FirstPlain := by
        obtain ⟨q, hq, rfl⟩ := Option.map_eq_some_iff.mp hline
        refine FirstPlain.endLine ?_
        rcases hr with rfl | hr
        · obtain ⟨n, c, rest, rfl, hnl, hquote, hblank, hcomma⟩ := hlines line List.mem_cons_self
          obtain ⟨r', hready, hfields, hrun⟩ := chars_blanks n {} ⟨Or.inl rfl, rfl⟩ (c :: rest)
          rw [hrun, Reader.chars, hready.first hnl hquote hblank hcomma, Option.bind_some] at hq
          have hfirst : ({ r' with state := .inField, field := [c] } : Reader).FirstPlain :=
            Or.inl ⟨hfields, rfl, by simpa using Ne.symm hcomma⟩
          exact FirstPlain.chars hfirst hq
        · exact FirstPlain.chars hr hq
      split at h
      · rename_i hdone
        obtain ⟨more, hmore, rfl⟩ := Option.map_eq_some_iff.mp h
        intro record hrecord
        rcases List.mem_cons.mp hrecord with rfl | hrecord
        · rcases hnext with ⟨-, hstate, -⟩ | ⟨field, tail, hfields, hfield⟩
          · rw [hdone] at hstate
            cases hstate
          · exact ⟨field, tail, hfields, hfield⟩
        · exact ih hrest (Or.inl rfl) hmore record hrecord
      · exact ih hrest (Or.inr hnext) h

/-! ## The length of a field -/

/-- No field is over the limit. -/
structure Reader.Short (r : Reader) : Prop where
  field : r.field.length ≤ fieldSizeLimit
  fields : ∀ field ∈ r.fields, field.length ≤ fieldSizeLimit

theorem Short.save {r : Reader} (h : r.Short) (state : State) : (r.saveField state).Short := by
  refine ⟨Nat.zero_le _, fun field hfield => ?_⟩
  rcases List.mem_append.mp hfield with hfield | hfield
  · exact h.fields field hfield
  · exact List.mem_singleton.mp hfield ▸ h.field

theorem Short.addChar {r r' : Reader} (h : r.Short) {c : Char} {state : State}
    (hadd : r.addChar c state = some r') : r'.Short := by
  obtain ⟨hlt, rfl⟩ := addChar_cases hadd
  exact ⟨by rw [List.length_append]; exact hlt, h.fields⟩

theorem Short.char {r r' : Reader} (h : r.Short) {c : Char} (hc : r.char c = some r') :
    r'.Short := by
  have hkeep : ∀ state, some { r with state := state } = some r' → r'.Short := by
    intro state hq
    obtain rfl := Option.some.inj hq
    exact ⟨h.field, h.fields⟩
  have hsave : ∀ state, some (r.saveField state) = some r' → r'.Short := by
    intro state hq
    obtain rfl := Option.some.inj hq
    exact Short.save h state
  have hsame : some r = some r' → r'.Short := by
    intro hq
    obtain rfl := Option.some.inj hq
    exact h
  unfold Reader.char at hc
  split at hc <;> repeat' split at hc
  all_goals first
    | exact Short.addChar h hc
    | exact hsave _ hc
    | exact hsame hc
    | exact hkeep _ hc
    | cases hc

theorem Short.chars {r r' : Reader} (h : r.Short) {s : Str} (hs : r.chars s = some r') :
    r'.Short := by
  induction s generalizing r with
  | nil =>
    obtain rfl := Option.some.inj hs
    exact h
  | cons c s ih =>
    obtain ⟨q, hq, hrest⟩ := Option.bind_eq_some_iff.mp hs
    exact ih (Short.char h hq) hrest

theorem Short.endLine {r : Reader} (h : r.Short) : r.endLine.Short := by
  unfold Reader.endLine
  split
  · exact h
  · exact Short.save h _
  · exact Short.save h _
  · exact Short.save h _
  · exact h
  · exact ⟨h.field, h.fields⟩

theorem Short.line {r r' : Reader} (h : r.Short) {line : Str} (hline : r.line line = some r') :
    r'.Short := by
  obtain ⟨q, hq, rfl⟩ := Option.map_eq_some_iff.mp hline
  exact Short.endLine (Short.chars h hq)

/-- The fields of all records are within the limit. -/
theorem records_short {lines : List Str} {r : Reader} (hr : r.Short) {records : List (List Str)}
    (h : r.records lines = some records) :
    ∀ record ∈ records, ∀ field ∈ record, field.length ≤ fieldSizeLimit := by
  induction lines generalizing r records with
  | nil =>
    rw [Reader.records] at h
    split at h
    · obtain rfl := Option.some.inj h
      intro record hrecord
      rw [List.mem_singleton.mp hrecord]
      exact (Short.save hr .startRecord).fields
    · obtain rfl := Option.some.inj h
      intro record hrecord
      cases hrecord
  | cons line lines ih =>
    rw [Reader.records] at h
    cases hline : r.line line with
    | none => rw [hline] at h; cases h
    | some next =>
      rw [hline] at h
      dsimp only at h
      have hnext := Short.line hr hline
      split at h
      · obtain ⟨more, hmore, rfl⟩ := Option.map_eq_some_iff.mp h
        intro record hrecord
        rcases List.mem_cons.mp hrecord with rfl | hrecord
        · exact hnext.fields
        · exact ih ⟨Nat.zero_le _, by simp⟩ hmore record hrecord
      · exact ih hnext h

end Unitrace.Lib.Csv
