import Unitrace.Lib.JsonReader

/-!
# Writing JSON texts

A `Doc` is what a writer puts out: words, quoted bodies, arrays and objects, with a
blank behind every comma and colon. Every reader reads the text of a document as
the document's value, or gets stuck in it if it has none.
-/
namespace Unitrace.Lib.JsonWriter

open Unitrace.Lib Unitrace.Lib.Text Unitrace.Lib.JsonReader
open Unitrace.Lib.Json (Mode units isEnd isSpace isPlain isPlain_of_hex4 Delimited delimited_cons)

/-- A word is read up to the character that ends it. -/
def isWord : Str → Bool
  | [] => false
  | c :: rest => c ≠ '"' && c ≠ '[' && c ≠ '{' && (c :: rest).all fun d => !isEnd d

abbrev Word := { w : Str // isWord w = true }

def isNumeric (c : Char) : Bool :=
  c.isDigit || c = '-' || c = '+' || c = '.' || c = 'e' || c = 'E'

theorem isWord_of_isNumeric {w : Str} (hne : w ≠ []) (h : ∀ c ∈ w, isNumeric c = true) :
    isWord w = true := by
  have hnot (d : Char) (hd : isNumeric d = false) {c : Char} (hc : c ∈ w) : c ≠ d := by
    intro he
    have hc := h c hc
    rw [he, hd] at hc
    cases hc
  have hend : ∀ c ∈ w, isEnd c = false := by
    intro c hc
    simp [isEnd, isSpace, hnot ' ' rfl hc, hnot '\t' rfl hc, hnot '\n' rfl hc, hnot '\r' rfl hc,
      hnot ',' rfl hc, hnot ']' rfl hc, hnot '\x7d' rfl hc]
  cases w with
  | nil => exact absurd rfl hne
  | cons c rest =>
    have hall : ((c :: rest).all fun d => !isEnd d) = true :=
      List.all_eq_true.mpr fun d hd => by rw [hend d hd]; rfl
    have hmem : c ∈ c :: rest := List.mem_cons_self
    simp [isWord, hnot '"' rfl hmem, hnot '[' rfl hmem, hnot '\x7b' rfl hmem, hall]

theorem isNumeric_of_isDigit {c : Char} (h : c.isDigit = true) : isNumeric c = true := by
  simp [isNumeric, h]

theorem isNumeric_of_isExponent {s : Str} (h : Json.isExponent s = true) :
    ∀ c ∈ s, isNumeric c = true := by
  cases s with
  | nil =>
    intro c hc
    cases hc
  | cons e rest =>
    simp only [Json.isExponent, Bool.and_eq_true, Bool.or_eq_true, decide_eq_true_eq,
      List.all_eq_true] at h
    obtain ⟨⟨he, -⟩, hdigits⟩ := h
    have he : isNumeric e = true := by
      rcases he with rfl | rfl <;> rfl
    refine List.forall_mem_cons.mpr ⟨he, fun c hc => ?_⟩
    split at hdigits
    · next hsign =>
      cases rest with
      | nil => cases hc
      | cons sign digits =>
        rcases List.mem_cons.mp hc with rfl | hc
        · rcases hsign with hsign | hsign <;> obtain rfl := Option.some.inj hsign <;> rfl
        · exact isNumeric_of_isDigit (hdigits c hc)
    · exact isNumeric_of_isDigit (hdigits c hc)

theorem isNumeric_of_takeWhile {s : Str} {c : Char} (h : c ∈ s.takeWhile Char.isDigit) :
    isNumeric c = true :=
  isNumeric_of_isDigit (List.mem_takeWhile_imp h)

theorem isNumeric_of_isFraction {s : Str} (h : Json.isFraction s = true) :
    ∀ c ∈ s, isNumeric c = true := by
  unfold Json.isFraction at h
  split at h
  · next rest =>
    simp only [Bool.and_eq_true] at h
    refine List.forall_mem_cons.mpr ⟨rfl, fun c hc => ?_⟩
    rw [← List.takeWhile_append_dropWhile (p := Char.isDigit) (l := rest)] at hc
    rcases List.mem_append.mp hc with hc | hc
    · exact isNumeric_of_takeWhile hc
    · exact isNumeric_of_isExponent h.2 c hc
  · exact isNumeric_of_isExponent h

theorem isNumeric_of_isNumber {w : Str} (h : Json.isNumber w = true) :
    w ≠ [] ∧ ∀ c ∈ w, isNumeric c = true := by
  have hbody {s : Str} (hwhole : (s.takeWhile Char.isDigit = ['0'] ∨
        s.takeWhile Char.isDigit ≠ [] ∧ (s.takeWhile Char.isDigit).head? ≠ some '0'))
      (hfrac : Json.isFraction (s.dropWhile Char.isDigit) = true) :
      s ≠ [] ∧ ∀ c ∈ s, isNumeric c = true := by
    constructor
    · rintro rfl
      simp at hwhole
    · intro c hc
      rw [← List.takeWhile_append_dropWhile (p := Char.isDigit) (l := s)] at hc
      rcases List.mem_append.mp hc with hc | hc
      · exact isNumeric_of_takeWhile hc
      · exact isNumeric_of_isFraction hfrac c hc
  simp only [Json.isNumber, Bool.and_eq_true, Bool.or_eq_true, decide_eq_true_eq] at h
  obtain ⟨hwhole, hfrac⟩ := h
  split at hwhole
  · next hminus =>
    rw [if_pos hminus] at hfrac
    obtain ⟨s, rfl⟩ := List.head?_eq_some_iff.mp hminus
    obtain ⟨-, hchars⟩ := hbody hwhole hfrac
    exact ⟨List.cons_ne_nil _ _, List.forall_mem_cons.mpr ⟨rfl, hchars⟩⟩
  · next hminus =>
    rw [if_neg hminus] at hfrac
    exact hbody hwhole hfrac

/-- A number is a word. -/
theorem isWord_of_isNumber {w : Str} (h : Json.isNumber w = true) : isWord w = true :=
  isWord_of_isNumeric (isNumeric_of_isNumber h).1 (isNumeric_of_isNumber h).2

/-- The body of a literal. -/
abbrev Body := { b : Str // (units b).isSome = true }

inductive Doc where
  | word (w : Word)
  | quoted (b : Body)
  | arr (items : List Doc)
  | obj (members : List (Body × Doc))

def quote (b : Body) : Str := '"' :: (b.val ++ ['"'])

mutual

def render : Doc → Str
  | .word w => w.val
  | .quoted b => quote b
  | .arr [] => ['[', ']']
  | .arr (d :: ds) => '[' :: (render d ++ renderItems ds)
  | .obj [] => ['{', '}']
  | .obj ((k, d) :: ms) => '{' :: (quote k ++ ':' :: ' ' :: (render d ++ renderMembers ms))

def renderItems : List Doc → Str
  | [] => [']']
  | d :: ds => ',' :: ' ' :: (render d ++ renderItems ds)

def renderMembers : List (Body × Doc) → Str
  | [] => ['}']
  | (k, d) :: ms => ',' :: ' ' :: (quote k ++ ':' :: ' ' :: (render d ++ renderMembers ms))

end

def Body.units (b : Body) : List Nat := (Json.units b.val).get b.property

section Eval

variable {S V : Type} (A : Algebra S V)

mutual

/-- What a reader makes of a document. -/
def eval : Doc → Option V
  | .word w => A.scalar w.val
  | .quoted b => some (A.str (A.text b.units))
  | .arr ds => (evalItems ds).map A.arr
  | .obj ms => (evalMembers ms).map A.obj

def evalItems : List Doc → Option (List V)
  | [] => some []
  | d :: ds => (eval d).bind fun v => (evalItems ds).map (v :: ·)

def evalMembers : List (Body × Doc) → Option (List (S × V))
  | [] => some []
  | (k, d) :: ms => (eval d).bind fun v => (evalMembers ms).map ((A.text k.units, v) :: ·)

end

end Eval

/-! ## Reading a document -/

variable {S V : Type} {A : Algebra S V}

theorem scan_plain {c : Char} (h : isPlain c = true) (k : Bool) (body : Str)
    (st : List (Frame S V)) (rest : Str) :
    scan A (.literal k body false, st) (c :: rest) =
      scan A (.literal k (c :: body) false, st) rest := by
  have hquote : c ≠ '"' := by
    intro he
    rw [he] at h
    cases h
  have hback : c ≠ '\\' := by
    intro he
    rw [he] at h
    cases h
  simp [scan, step, hquote, hback]

theorem scan_escape (e : Char) (k : Bool) (body : Str) (st : List (Frame S V)) (rest : Str) :
    scan A (.literal k body false, st) ('\\' :: e :: rest) =
      scan A (.literal k (e :: '\\' :: body) false, st) rest := by
  simp [scan, step]

/-- A body leaves the reader in the literal. -/
theorem scan_body {s : Str} {us : List Nat} (h : units s = some us) (k : Bool) (body : Str)
    (st : List (Frame S V)) (rest : Str) :
    scan A (.literal k body false, st) (s ++ rest) =
      scan A (.literal k (s.reverse ++ body) false, st) rest := by
  fun_induction units s generalizing us body with
  | case1 => rfl
  | case2 a b c d s ih =>
    obtain ⟨u, hu, h⟩ := Option.bind_eq_some_iff.mp h
    obtain ⟨vs, hvs, -⟩ := Option.map_eq_some_iff.mp h
    obtain ⟨ha, hb, hc, hd⟩ := isPlain_of_hex4 hu
    simp only [List.cons_append, scan_escape, scan_plain ha, scan_plain hb, scan_plain hc,
      scan_plain hd, ih hvs, List.reverse_cons, List.append_assoc, List.nil_append]
  | case3 e s hne ih =>
    obtain ⟨u, hu, h⟩ := Option.bind_eq_some_iff.mp h
    obtain ⟨vs, hvs, -⟩ := Option.map_eq_some_iff.mp h
    simp only [List.cons_append, scan_escape, ih hvs, List.reverse_cons, List.append_assoc,
      List.nil_append]
  | case4 c s hu hb hp ih =>
    obtain ⟨vs, hvs, -⟩ := Option.map_eq_some_iff.mp h
    simp only [List.cons_append, scan_plain hp, ih hvs, List.reverse_cons, List.append_assoc,
      List.nil_append]
  | case5 c s hu hb hp => cases h

theorem Body.units_eq (b : Body) : Json.units b.val = some b.units := (Option.some_get _).symm

theorem scan_closed (b : Body) (k : Bool) (st : List (Frame S V)) (rest : Str) :
    scan A (.literal k [] false, st) (b.val ++ '"' :: rest) =
      scan A (if k then (.colon, .key (A.text b.units) :: st)
        else (.after, fill (A.str (A.text b.units)) st)) rest := by
  have hend : step A (.literal k b.val.reverse false, st) '"' =
      some (if k then (.colon, .key (A.text b.units) :: st)
        else (.after, fill (A.str (A.text b.units)) st)) := by
    simp [step, endLiteral, b.units_eq]
  rw [scan_body b.units_eq, List.append_nil, scan, hend, Option.bind_some]

theorem scan_quoted (b : Body) (st : List (Frame S V)) (rest : Str) :
    scan A (.value, st) (quote b ++ rest) =
      scan A (.after, fill (A.str (A.text b.units)) st) rest := by
  have hclosed := scan_closed (A := A) b false st rest
  rw [if_neg Bool.false_ne_true] at hclosed
  rw [← hclosed]
  simp [quote, scan, step, stepValue, isSpace]

theorem scan_key {m : Mode} (hm : m = .key ∨ m = .firstKey) (k : Body) (st : List (Frame S V))
    (rest : Str) :
    scan A (m, st) (quote k ++ ':' :: ' ' :: rest) =
      scan A (.value, .key (A.text k.units) :: st) rest := by
  have hclosed := scan_closed (A := A) k true st (':' :: ' ' :: rest)
  rw [if_pos rfl] at hclosed
  have hcolon : scan A (.colon, .key (A.text k.units) :: st) (':' :: ' ' :: rest) =
      scan A (.value, .key (A.text k.units) :: st) rest := by
    simp [scan, step, isSpace]
  rw [← hcolon, ← hclosed]
  rcases hm with rfl | rfl <;> simp [quote, scan, step, stepKey, isSpace]

theorem scan_inWord {word : Str} (h : ∀ c ∈ word, isEnd c = false) (text : Str)
    (st : List (Frame S V)) (rest : Str) :
    scan A (.word text, st) (word ++ rest) = scan A (.word (word.reverse ++ text), st) rest := by
  induction word generalizing text with
  | nil => rfl
  | cons c word ih =>
    have hc : isEnd c = false := h c List.mem_cons_self
    have hstep : step A (.word text, st) c = some (.word (c :: text), st) := by simp [step, hc]
    rw [List.cons_append, scan, hstep, Option.bind_some,
      ih (fun d hd => h d (List.mem_cons_of_mem c hd)), List.reverse_cons, List.append_assoc,
      List.singleton_append]

theorem isSpace_of_not_isEnd {c : Char} (h : isEnd c = false) : isSpace c = false := by
  unfold isEnd at h
  simp only [Bool.or_eq_false_iff] at h
  exact h.1.1.1

theorem scan_word (w : Word) (st : List (Frame S V)) {rest : Str} (hrest : Delimited rest) :
    scan A (.value, st) (w.val ++ rest) =
      (A.scalar w.val).bind fun v => scan A (.after, fill v st) rest := by
  obtain ⟨w, hw⟩ := w
  obtain ⟨d, tail, rfl, hd⟩ := hrest
  cases w with
  | nil => cases hw
  | cons c word =>
    simp only [isWord, Bool.and_eq_true, decide_eq_true_eq, List.all_eq_true,
      Bool.not_eq_true'] at hw
    obtain ⟨⟨⟨hquote, hopen⟩, hbrace⟩, hchars⟩ := hw
    have hc : isEnd c = false := hchars c List.mem_cons_self
    have hfirst : step A (.value, st) c = some (.word [c], st) := by
      simp [step, stepValue, isSpace_of_not_isEnd hc, hquote, hopen, hbrace, hc]
    have hlast : step A (.word (word.reverse ++ [c]), st) d =
        (A.scalar (c :: word)).bind fun v => stepAfter A (fill v st) d := by
      rw [step, if_pos hd, List.reverse_append, List.reverse_reverse, List.reverse_singleton,
        List.singleton_append]
    rw [List.cons_append, scan, hfirst, Option.bind_some,
      scan_inWord (fun e he => hchars e (List.mem_cons_of_mem c he)), scan, hlast, Option.bind_assoc]
    rfl

theorem delimited_renderItems (ds : List Doc) (rest : Str) : Delimited (renderItems ds ++ rest) := by
  cases ds with
  | nil => exact delimited_cons rfl _
  | cons d ds => exact delimited_cons rfl _

theorem delimited_renderMembers (ms : List (Body × Doc)) (rest : Str) :
    Delimited (renderMembers ms ++ rest) := by
  cases ms with
  | nil => exact delimited_cons rfl _
  | cons m ms => exact delimited_cons rfl _

/-- A document does not start with a closing bracket or a blank. -/
theorem exists_render_cons (d : Doc) : ∃ c tail, render d = c :: tail ∧ isEnd c = false := by
  match d with
  | .word ⟨[], hw⟩ => cases hw
  | .word ⟨c :: word, hw⟩ =>
    simp only [isWord, Bool.and_eq_true, List.all_eq_true, Bool.not_eq_true'] at hw
    exact ⟨c, word, by rw [render], hw.2 c List.mem_cons_self⟩
  | .quoted b => exact ⟨'"', _, by rw [render, quote], rfl⟩
  | .arr [] => exact ⟨'[', _, by rw [render], rfl⟩
  | .arr (d :: ds) => exact ⟨'[', _, by rw [render], rfl⟩
  | .obj [] => exact ⟨'\x7b', _, by rw [render], rfl⟩
  | .obj ((k, d) :: ms) => exact ⟨'\x7b', _, by rw [render], rfl⟩

theorem scan_firstItem (d : Doc) (st : List (Frame S V)) (rest : Str) :
    scan A (.firstItem, st) (render d ++ rest) = scan A (.value, st) (render d ++ rest) := by
  obtain ⟨c, tail, hrender, hc⟩ := exists_render_cons d
  have hne : c ≠ ']' := by
    intro he
    rw [he] at hc
    cases hc
  rw [hrender, List.cons_append, scan, scan, step, step, isSpace_of_not_isEnd hc]
  simp [hne]

mutual

/-- A reader that comes to a document goes on behind it with its value. -/
theorem scan_render (d : Doc) (st : List (Frame S V)) {rest : Str} (hrest : Delimited rest) :
    scan A (.value, st) (render d ++ rest) =
      (eval A d).bind fun v => scan A (.after, fill v st) rest := by
  match d with
  | .word w =>
    rw [render, eval]
    exact scan_word w st hrest
  | .quoted b =>
    rw [render, eval]
    exact scan_quoted b st rest
  | .arr [] => rfl
  | .arr (d :: ds) =>
    have hopen : scan A (.value, st) (render (.arr (d :: ds)) ++ rest) =
        scan A (.firstItem, .arr [] :: st) (render d ++ (renderItems ds ++ rest)) := by
      rw [render, List.cons_append, List.append_assoc]
      rfl
    rw [hopen, scan_firstItem, scan_render d _ (delimited_renderItems ds rest), eval, evalItems,
      Option.map_bind, Option.bind_assoc]
    refine Option.bind_congr fun v _ => ?_
    show scan A (.after, .arr [v] :: st) (renderItems ds ++ rest) = _
    rw [scan_renderItems]
    cases evalItems A ds <;> rfl
  | .obj [] => rfl
  | .obj ((k, d) :: ms) =>
    have hopen : scan A (.value, st) (render (.obj ((k, d) :: ms)) ++ rest) =
        scan A (.firstKey, .obj [] :: st)
          (quote k ++ ':' :: ' ' :: (render d ++ (renderMembers ms ++ rest))) := by
      simp [render, scan, step, stepValue, isSpace]
    rw [hopen, scan_key (Or.inr rfl), scan_render d _ (delimited_renderMembers ms rest), eval,
      evalMembers, Option.map_bind, Option.bind_assoc]
    refine Option.bind_congr fun v _ => ?_
    show scan A (.after, .obj [(A.text k.units, v)] :: st) (renderMembers ms ++ rest) = _
    rw [scan_renderMembers]
    cases evalMembers A ms <;> rfl

theorem scan_renderItems (ds : List Doc) (items : List V) (st : List (Frame S V)) (rest : Str) :
    scan A (.after, .arr items :: st) (renderItems ds ++ rest) =
      (evalItems A ds).bind fun vs =>
        scan A (.after, fill (A.arr (items.reverse ++ vs)) st) rest := by
  match ds with
  | [] => simp [renderItems, evalItems, scan, step, stepAfter]
  | d :: ds =>
    have hcomma : scan A (.after, .arr items :: st) (renderItems (d :: ds) ++ rest) =
        scan A (.value, .arr items :: st) (render d ++ (renderItems ds ++ rest)) := by
      rw [renderItems, List.cons_append, List.cons_append, List.append_assoc]
      rfl
    rw [hcomma, scan_render d _ (delimited_renderItems ds rest), evalItems, Option.bind_assoc]
    refine Option.bind_congr fun v _ => ?_
    show scan A (.after, .arr (v :: items) :: st) (renderItems ds ++ rest) = _
    rw [scan_renderItems]
    cases evalItems A ds with
    | none => rfl
    | some vs => simp

theorem scan_renderMembers (ms : List (Body × Doc)) (members : List (S × V))
    (st : List (Frame S V)) (rest : Str) :
    scan A (.after, .obj members :: st) (renderMembers ms ++ rest) =
      (evalMembers A ms).bind fun vs =>
        scan A (.after, fill (A.obj (members.reverse ++ vs)) st) rest := by
  match ms with
  | [] => simp [renderMembers, evalMembers, scan, step, stepAfter]
  | (k, d) :: ms =>
    have hcomma : scan A (.after, .obj members :: st) (renderMembers ((k, d) :: ms) ++ rest) =
        scan A (.key, .obj members :: st)
          (quote k ++ ':' :: ' ' :: (render d ++ (renderMembers ms ++ rest))) := by
      rw [renderMembers, List.cons_append, List.cons_append]
      simp only [List.append_assoc, List.cons_append]
      rfl
    rw [hcomma, scan_key (Or.inl rfl), scan_render d _ (delimited_renderMembers ms rest),
      evalMembers, Option.bind_assoc]
    refine Option.bind_congr fun v _ => ?_
    show scan A (.after, .obj ((A.text k.units, v) :: members) :: st) (renderMembers ms ++ rest) = _
    rw [scan_renderMembers]
    cases evalMembers A ms with
    | none => rfl
    | some vs => simp

end

end Unitrace.Lib.JsonWriter
