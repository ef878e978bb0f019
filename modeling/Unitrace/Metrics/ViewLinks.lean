import Unitrace.Lib.PyStr
import Unitrace.Lib.PyUrl
import Unitrace.Trace.EncodeUri

/-!
# The links to metric views

The trace links a kernel instance to the metrics server by the encoded name of the
kernel and the number of the instance. The server decodes the whole path before it
splits it at the slashes.
-/
namespace Unitrace.Metrics.ViewLinks

open Unitrace.Lib Unitrace.Lib.Text Unitrace.Lib.ByteString Unitrace.Lib.PyStr Unitrace.Lib.PyUrl
open Unitrace.Trace.EncodeUri

/-! ## The server -/

/-- The characters that are digits without being decimal digits, as ranges. -/
def otherDigits : List (Nat × Nat) :=
  [(0xb2, 0xb3), (0xb9, 0xb9), (0x1369, 0x1371), (0x19da, 0x19da), (0x2070, 0x2070),
   (0x2074, 0x2079), (0x2080, 0x2089), (0x2460, 0x2468), (0x2474, 0x247c), (0x2488, 0x2490),
   (0x24ea, 0x24ea), (0x24f5, 0x24fd), (0x24ff, 0x24ff), (0x2776, 0x277e), (0x2780, 0x2788),
   (0x278a, 0x2792), (0x10a40, 0x10a43), (0x10e60, 0x10e68), (0x11052, 0x1105a),
   (0x1f100, 0x1f10a)]

/-- `str.isdigit` of one character. -/
def isDigitChar (c : Char) : Bool :=
  (digitValue c).isSome || otherDigits.any fun r => r.1 ≤ c.toNat && c.toNat ≤ r.2

def isdigit (s : Str) : Bool := s ≠ [] && s.all isDigitChar

/-- `s.strip('"')`. -/
def stripQuotes (s : Str) : Str :=
  ((s.dropWhile (· = '"')).reverse.dropWhile (· = '"')).reverse

/-- The text before the last opening bracket, the whole text without one. -/
def withoutShape (kname : Str) : Str :=
  if '[' ∈ kname then ((kname.reverse.dropWhile (· ≠ '[')).drop 1).reverse else kname

/-- What a request asks for. -/
inductive Request where
  | ignored
  | invalid
  | view (kname inst : Str)
  deriving DecidableEq

/-- What `do_GET` reads from the parts of a path. -/
def readParts (eustall : Bool) (request : List Str) : Except PyErr Request := do
  let name ← nth request 1
  if name = chars "favicon.ico" then pure .ignored
  else if request.length < 3 then pure .invalid
  else
    let inst ← nth request 2
    let kname := stripQuotes name
    if inst = [] ∨ isdigit inst = false then pure .invalid
    else if eustall then pure (.view (withoutShape kname) inst)
    else pure (.view kname inst)

def readRequest (client : Str) (eustall : Bool) (path : Str) : Except PyErr Request :=
  if client ≠ chars "127.0.0.1" then .ok .ignored
  else readParts eustall ((unquote path).splitOn '/')

/-! ## The links -/

/-- Printable ASCII characters without the double quote. -/
def isNameChar (c : Char) : Bool := 32 ≤ c.toNat && c.toNat ≤ 126 && c ≠ '"'

abbrev KernelName := { name : Str // name ≠ [] ∧ ∀ c ∈ name, isNameChar c = true }

abbrev InstanceNumber := { n : Str // n ≠ [] ∧ ∀ c ∈ n, c.isDigit = true }

/-- The path that the server is sent for a link. -/
def viewLink (name : KernelName) (n : InstanceNumber) : Str :=
  '/' :: latin1 (encodeURI (utf8 name.val)) ++ '/' :: n.val

/-- The server reads the name and the number that the link was made from. -/
def Recovers (name : KernelName) (n : InstanceNumber) : Prop :=
  readRequest (chars "127.0.0.1") false (viewLink name n) = .ok (.view name.val n.val)

/-! ## What the server decodes -/

theorem isNameChar_ascii {c : Char} (h : isNameChar c = true) : c.toNat < 128 := by
  simp only [isNameChar, Bool.and_eq_true, decide_eq_true_eq] at h
  omega

theorem isDigit_bounds {c : Char} (h : c.isDigit = true) : 48 ≤ c.toNat ∧ c.toNat ≤ 57 := by
  simp only [Char.isDigit, Bool.and_eq_true, decide_eq_true_eq] at h
  exact ⟨UInt32.le_iff_toNat_le.mp h.1, UInt32.le_iff_toNat_le.mp h.2⟩

theorem isDigitChar_of_isDigit {c : Char} (h : c.isDigit = true) : isDigitChar c = true := by
  obtain ⟨hlow, hhigh⟩ := isDigit_bounds h
  let p := fun z => decide (z ≤ c.toNat) && decide (c.toNat < z + 10)
  have hzero : p 0x30 = true := by
    simp only [p, Bool.and_eq_true, decide_eq_true_eq]
    omega
  have hfind : digitZeros.find? p = some 0x30 := List.find?_cons_of_pos hzero
  have hvalue : digitValue c = some (c.toNat - 0x30) := congrArg (Option.map _) hfind
  rw [isDigitChar, hvalue]
  rfl

theorem name_ascii (name : KernelName) : ∀ c ∈ name.val, c.toNat < 128 :=
  fun c hc => isNameChar_ascii (name.property.2 c hc)

theorem number_ascii (n : InstanceNumber) : ∀ c ∈ n.val, c.toNat < 128 := by
  intro c hc
  have hbounds := isDigit_bounds (n.property.2 c hc)
  omega

theorem decode_link (name : KernelName) (n : InstanceNumber) :
    Percent.decode (47 :: (encodeURI (ascii name.val) ++ 47 :: ascii n.val)) =
      47 :: (ascii name.val ++ 47 :: ascii n.val) := by
  have hslash : (47 : UInt8) ≠ Percent.percent := by decide
  have hnumber : Percent.percent ∉ ascii n.val := by
    intro h
    obtain ⟨c, hc, hpercent⟩ := List.mem_map.mp h
    have hbounds := isDigit_bounds (n.property.2 c hc)
    have hval := congrArg UInt8.toNat hpercent
    rw [UInt8.toNat_ofNat'] at hval
    change _ = 37 at hval
    omega
  rw [Percent.decode_cons hslash, Percent.decode_append (encoded_encodeURI _),
    decode_encodeURI_ascii (isAscii_ascii (name_ascii name)), Percent.decode_cons hslash,
    Percent.decode_of_notMem hnumber]

/-- The server sees the name as it was before it was encoded. -/
theorem unquote_viewLink (name : KernelName) (n : InstanceNumber) :
    unquote (viewLink name n) = '/' :: (name.val ++ '/' :: n.val) := by
  have hsent : ascii (viewLink name n) =
      47 :: (encodeURI (ascii name.val) ++ 47 :: ascii n.val) := by
    show 47 :: ascii (latin1 (encodeURI (utf8 name.val)) ++ '/' :: n.val) = _
    rw [ascii, List.map_append, utf8_eq_ascii (name_ascii name)]
    show 47 :: (ascii (latin1 _) ++ 47 :: ascii n.val) = _
    rw [ascii_latin1]
  have hplain : ∀ c ∈ '/' :: (name.val ++ '/' :: n.val), c.toNat < 128 := by
    refine List.forall_mem_cons.mpr ⟨by decide, List.forall_mem_append.mpr ⟨name_ascii name, ?_⟩⟩
    exact List.forall_mem_cons.mpr ⟨by decide, number_ascii n⟩
  have hlink : ∀ c ∈ viewLink name n, c.toNat < 128 := by
    have hencoded := (encoded_encodeURI (utf8 name.val)).ascii
    refine List.forall_mem_cons.mpr ⟨by decide, List.forall_mem_append.mpr ⟨?_, ?_⟩⟩
    · intro c hc
      obtain ⟨b, hb, rfl⟩ := List.mem_map.mp hc
      rw [toNat_ofNat_byte]
      exact hencoded b hb
    · exact List.forall_mem_cons.mpr ⟨by decide, number_ascii n⟩
  have hdecoded : ascii ('/' :: (name.val ++ '/' :: n.val)) =
      47 :: (ascii name.val ++ 47 :: ascii n.val) := by
    show 47 :: ascii (name.val ++ '/' :: n.val) = _
    rw [ascii, List.map_append]
    rfl
  rw [unquote_ascii hlink, hsent, decode_link, ← hdecoded, decodeReplace_ascii (isAscii_ascii hplain),
    latin1_ascii hplain]

/-! ## What it reads -/

theorem stripQuotes_of_notMem {s : Str} (h : '"' ∉ s) : stripQuotes s = s := by
  have hdrop {t : Str} (ht : '"' ∉ t) : t.dropWhile (· = '"') = t := by
    cases t with
    | nil => rfl
    | cons c t =>
      have hc : ¬ decide (c = '"') = true := by
        intro he
        exact ht (of_decide_eq_true he ▸ List.mem_cons_self)
      exact List.dropWhile_cons_of_neg hc
  rw [stripQuotes, hdrop h, hdrop (fun hmem => h (List.mem_reverse.mp hmem)), List.reverse_reverse]

theorem length_stripQuotes_le (s : Str) : (stripQuotes s).length ≤ s.length := by
  have hleft := List.length_dropWhile_le (fun c : Char => decide (c = '"')) s
  have hright := List.length_dropWhile_le (fun c : Char => decide (c = '"'))
    (s.dropWhile (· = '"')).reverse
  rw [List.length_reverse] at hright
  rw [stripQuotes, List.length_reverse]
  omega

theorem readRequest_viewLink (name : KernelName) (n : InstanceNumber) :
    readRequest (chars "127.0.0.1") false (viewLink name n) =
      readParts false ([] :: (name.val ++ '/' :: n.val).splitOn '/') := by
  have hslash : ('/' :: (name.val ++ '/' :: n.val)).splitOn '/' =
      [] :: (name.val ++ '/' :: n.val).splitOn '/' :=
    List.splitOn_append_cons_self_of_not_mem List.not_mem_nil _
  rw [readRequest, if_neg (fun h => h rfl), unquote_viewLink, hslash]

/-- Only the text up to the first slash of the name is taken as the name. -/
theorem readParts_view {name : Str} {parts : List Str} {kname inst : Str}
    (h : readParts false ([] :: name :: parts) = .ok (.view kname inst)) :
    kname = stripQuotes name := by
  unfold readParts at h
  obtain ⟨part, hpart, h⟩ := bind_eq_ok h
  obtain rfl := Except.ok.inj hpart
  split at h
  · cases h
  · split at h
    · cases h
    · obtain ⟨part, -, h⟩ := bind_eq_ok h
      split at h
      · cases h
      · injection Except.ok.inj h with hname
        exact hname.symm

theorem readParts_favicon (parts : List Str) :
    readParts false ([] :: chars "favicon.ico" :: parts) = .ok .ignored := by
  show (if chars "favicon.ico" = chars "favicon.ico" then _ else _) = _
  rw [if_pos rfl]
  rfl

theorem readParts_pair {name : Str} (hfavicon : name ≠ chars "favicon.ico") (hquote : '"' ∉ name)
    (n : InstanceNumber) : readParts false [[], name, n.val] = .ok (.view name n.val) := by
  have hdigits : isdigit n.val = true :=
    Bool.and_eq_true_iff.mpr ⟨decide_eq_true n.property.1,
      List.all_eq_true.mpr fun c hc => isDigitChar_of_isDigit (n.property.2 c hc)⟩
  have hvalid : ¬ (n.val = [] ∨ isdigit n.val = false) := by
    rintro (h | h)
    · exact n.property.1 h
    · rw [hdigits] at h
      cases h
  show (if name = chars "favicon.ico" then _ else _) = _
  rw [if_neg hfavicon]
  show (if n.val = [] ∨ isdigit n.val = false then _ else _) = _
  rw [if_neg hvalid, stripQuotes_of_notMem hquote]
  rfl

/-- The link leads back to the kernel exactly if its name has no slash and is not the
name that the server ignores. -/
theorem recovers_iff (name : KernelName) (n : InstanceNumber) :
    Recovers name n ↔ '/' ∉ name.val ∧ name.val ≠ chars "favicon.ico" := by
  have hquote : '"' ∉ name.val := fun h => absurd (name.property.2 _ h) (by decide)
  have hnumber : '/' ∉ n.val := fun h => absurd (n.property.2 _ h) (by decide)
  rw [Recovers, readRequest_viewLink]
  constructor
  · intro h
    have hslash : '/' ∉ name.val := by
      intro hmem
      obtain ⟨front, back, hsplit, hfront⟩ := List.eq_append_cons_of_mem hmem
      rw [hsplit, List.append_assoc, List.cons_append,
        List.splitOn_append_cons_self_of_not_mem hfront] at h
      have hkname := congrArg List.length (readParts_view h)
      have hle := length_stripQuotes_le front
      rw [List.length_append, List.length_cons] at hkname
      omega
    refine ⟨hslash, fun hfavicon => ?_⟩
    rw [List.splitOn_append_cons_self_of_not_mem hslash, hfavicon, readParts_favicon] at h
    cases h
  · rintro ⟨hslash, hfavicon⟩
    rw [List.splitOn_append_cons_self_of_not_mem hslash, List.splitOn_eq_singleton hnumber]
    exact readParts_pair hfavicon hquote n

/-- The name of an operator: the server looks for the metrics of `div` and takes the
rest of the name as the number. -/
theorem slash_not_recovered :
    ¬ Recovers ⟨chars "div/7", by decide +kernel⟩ ⟨chars "3", by decide +kernel⟩ ∧
      readRequest (chars "127.0.0.1") false
        (viewLink ⟨chars "div/7", by decide +kernel⟩ ⟨chars "3", by decide +kernel⟩) =
          .ok (.view (chars "div") (chars "7")) := by
  have hread : readRequest (chars "127.0.0.1") false
      (viewLink ⟨chars "div/7", by decide +kernel⟩ ⟨chars "3", by decide +kernel⟩) =
        .ok (.view (chars "div") (chars "7")) := by decide +kernel
  refine ⟨fun h => ?_, hread⟩
  rw [Recovers, hread] at h
  have hname : chars "div" ≠ chars "div/7" := by decide +kernel
  injection Except.ok.inj h with hdiv
  exact hname hdiv

end Unitrace.Metrics.ViewLinks
