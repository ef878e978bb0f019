import Unitrace.Lib.ByteString
import Unitrace.Lib.CriticalSection

/-!
# The logger of the text reports

`Logger::Log` inserts a text into a buffered file stream while it holds the lock of the
logger, and flushes the stream unless flushes are lazy. The stream may write a part of its
buffer to the file at any time. The file is open, and the logger is not lock free; without
a file the texts go to the standard error stream, which has no lock.
-/
namespace Unitrace.Utils.Logger

open Unitrace.Lib Unitrace.Lib.ByteString
open Unitrace.Lib.CriticalSection (Body State Alone Serial Initial Inv Reachable Caller callsOf)
open Relation (ReflTransGen)

/-- What has reached the file, and what is still in memory. -/
structure OFStream where
  file : Bytes
  buffer : Bytes

def OFStream.text (s : OFStream) : Bytes := s.file ++ s.buffer

theorem file_of_buffer {s : OFStream} (h : s.buffer = []) : s.text = s.file := by
  rw [OFStream.text, h, List.append_nil]

def OFStream.flush (s : OFStream) : OFStream := { file := s.file ++ s.buffer, buffer := [] }

/-- Where `Log` is between the lock and the unlock. -/
inductive Local where
  | insert (rest : Bytes)
  | flush
  | unlock

/-- The stream of a file that was opened for writing, and the texts of the threads. -/
def opened {τ : Type*} (texts : τ → List Bytes) : State τ Bytes Local OFStream Unit where
  mutex := none
  shared := { file := [], buffer := [] }
  callers i := ⟨texts i, none⟩
  left := []

theorem opened_initial {τ : Type*} (texts : τ → List Bytes) : Initial (opened texts) :=
  ⟨rfl, fun _ => rfl, rfl⟩

/-- The turns of `Log`. The stream decides how much of the buffer it writes, and when. -/
inductive Turn (lazyFlush : Bool) : Local × OFStream → Local × OFStream → Prop where
  | put (c : UInt8) (rest : Bytes) (s : OFStream) :
      Turn lazyFlush (.insert (c :: rest), s) (.insert rest, { s with buffer := s.buffer ++ [c] })
  | overflow (l : Local) (s : OFStream) (n : Nat) :
      Turn lazyFlush (l, s) (l, { file := s.file ++ s.buffer.take n, buffer := s.buffer.drop n })
  | inserted (s : OFStream) :
      Turn lazyFlush (.insert [], s) (if lazyFlush then .unlock else .flush, s)
  | flush (s : OFStream) : Turn lazyFlush (.flush, s) (.unlock, s.flush)

def log (lazyFlush : Bool) : Body Bytes Local OFStream Unit where
  enter text := .insert text
  turn := Turn lazyFlush
  leave
    | .unlock => some ()
    | _ => none

/-- The texts whose `Log` has returned, in the order of the unlocks. -/
def logged {τ : Type*} (left : List (τ × Bytes × Unit)) : List Bytes := left.map fun e => e.2.1

/-- What is still to be inserted. -/
def Local.rest : Local → Bytes
  | .insert rest => rest
  | .flush => []
  | .unlock => []

/-! ## One text -/

section

variable {lazyFlush : Bool} {s : OFStream} {text : Bytes}

/-- What holds at each turn: a part of the text stands behind the text that was there, and
with eager flushes nothing is left in memory when the call is through. -/
structure Inserting (lazyFlush : Bool) (s : OFStream) (text : Bytes) (x : Local × OFStream) :
    Prop where
  part : ∃ part, part ++ x.1.rest = text ∧ x.2.text = s.text ++ part
  flushed : lazyFlush = false → x.1 = .unlock → x.2.buffer = []
  file_prefix : s.file <+: x.2.file

theorem Inserting.start (lazyFlush : Bool) (s : OFStream) (text : Bytes) :
    Inserting lazyFlush s text (.insert text, s) :=
  ⟨⟨[], rfl, (List.append_nil _).symm⟩, (fun _ hl => by cases hl), List.prefix_rfl⟩

theorem Inserting.turn {x y : Local × OFStream} (h : Inserting lazyFlush s text x)
    (ht : Turn lazyFlush x y) : Inserting lazyFlush s text y := by
  obtain ⟨part, hrest, htext⟩ := h.part
  cases ht with
  | put c rest s' =>
    refine ⟨⟨part ++ [c], ?_, ?_⟩, (fun _ hl => by cases hl), h.file_prefix⟩
    · rw [← hrest, Local.rest, Local.rest, List.append_assoc, List.singleton_append]
    · rw [← List.append_assoc, ← htext, OFStream.text, OFStream.text, List.append_assoc]
  | overflow l s' n =>
    refine ⟨⟨part, hrest, ?_⟩, fun hlazy hl => ?_, h.file_prefix.trans (List.prefix_append _ _)⟩
    · rw [← htext, OFStream.text, OFStream.text, List.append_assoc, List.take_append_drop]
    · rw [h.flushed hlazy hl, List.drop_nil]
  | inserted s' =>
    refine ⟨⟨part, ?_, htext⟩, fun hlazy hl => ?_, h.file_prefix⟩
    · cases lazyFlush <;> exact hrest
    · subst hlazy
      cases hl
  | flush s' =>
    refine ⟨⟨part, hrest, ?_⟩, fun _ _ => rfl, h.file_prefix.trans (List.prefix_append _ _)⟩
    rw [← htext, OFStream.text, OFStream.flush, OFStream.text, List.append_nil]

theorem alone_log {r : Unit} {s' : OFStream} (h : Alone (log lazyFlush) text s r s') :
    s'.text = s.text ++ text ∧ (lazyFlush = false → s'.buffer = []) := by
  obtain ⟨l, hat, hleave⟩ := h.keep (fun _ _ => Inserting.turn) (Inserting.start lazyFlush s text)
  obtain ⟨part, hrest, htext⟩ := hat.part
  cases l with
  | unlock =>
    rw [Local.rest, List.append_nil] at hrest
    exact ⟨hrest ▸ htext, fun hlazy => hat.flushed hlazy rfl⟩
  | insert _ => cases hleave
  | flush => cases hleave

/-! ## The texts of many threads -/

theorem serial_log {τ : Type*} {left : List (τ × Bytes × Unit)} {s' : OFStream}
    (h : Serial (log lazyFlush) s left s') :
    s'.text = s.text ++ (logged left).flatten ∧
      (lazyFlush = false → s.buffer = [] → s'.buffer = []) := by
  induction h with
  | nil => exact ⟨(List.append_nil _).symm, fun _ hb => hb⟩
  | snoc _ hc ih =>
    obtain ⟨htext, hbuffer⟩ := alone_log hc
    refine ⟨?_, fun hlazy _ => hbuffer hlazy⟩
    rw [htext, ih.1, logged, logged, List.map_append, List.flatten_append, List.append_assoc]
    simp

/-- In every interleaving, the stream holds the whole texts of the calls that have returned, in
the order of the unlocks, and behind them a part of the text of the call that is inside, if
there is one. With eager flushes the file itself holds the whole texts. -/
theorem interleaving_whole_texts {τ : Type*} [DecidableEq τ]
    {start s : State τ Bytes Local OFStream Unit} (hstart : Initial start)
    (hs : Reachable (log lazyFlush) start s) :
    (∃ part, s.shared.text = start.shared.text ++ (logged s.left).flatten ++ part ∧
      (s.mutex = none → part = []) ∧ ∀ i, s.mutex = some i → ∃ text b,
        (s.callers i).inside = some (text, b) ∧ part <+: text) ∧
    (lazyFlush = false → start.shared.buffer = [] →
      start.shared.file ++ (logged s.left).flatten <+: s.shared.file) ∧
    ∀ i, callsOf i s.left <+: (start.callers i).todo := by
  obtain ⟨unlocked, hinv⟩ := Reachable.inv hstart hs
  obtain ⟨htext, hbuffer⟩ := serial_log hinv.serial
  cases hmutex : s.mutex with
  | none =>
    have hsame := hinv.free hmutex
    refine ⟨⟨[], ?_, fun _ => rfl, fun i hi => by cases hi⟩, ?_, hinv.callsOf_prefix hstart⟩
    · rw [hsame, htext, List.append_nil]
    · intro hlazy hempty
      have hfile : start.shared.file ++ (logged s.left).flatten = unlocked.file := by
        rw [← file_of_buffer hempty, ← htext, file_of_buffer (hbuffer hlazy hempty)]
      simp only [hsame, hfile, List.prefix_rfl]
  | some i =>
    obtain ⟨text, b, hin, hturns⟩ := hinv.held i hmutex
    have hat := CriticalSection.turns_keep (fun _ _ => Inserting.turn) hturns
      (Inserting.start lazyFlush unlocked text)
    obtain ⟨part, hrest, hpart⟩ := hat.part
    refine ⟨⟨part, by rw [hpart, htext], fun hn => (by cases hn), fun j hj => ?_⟩, ?_,
      hinv.callsOf_prefix hstart⟩
    · obtain rfl := Option.some.inj hj
      exact ⟨text, b, hin, _, hrest⟩
    · intro hlazy hempty
      rw [← file_of_buffer hempty, ← htext, file_of_buffer (hbuffer hlazy hempty)]
      exact hat.file_prefix

/-- One thread has logged a text, and a second one has inserted one byte of its text. -/
theorem interleaving_whole_texts_second_inside : ∃ s, Reachable (log false)
    (opened fun i => if i = 1 then [[65]] else [[66, 67]]) s ∧ s.mutex = some 2 ∧
    s.shared.text = [65, 66] ∧ [65] <+: s.shared.file := by
  have hlocked : Reachable (log false) (opened fun i => if i = 1 then [[65]] else [[66, 67]]) _ :=
    .single (.lock 1 _ _ rfl rfl rfl)
  have hleft := (((hlocked.tail (.turn 1 _ _ _ _ rfl (.put _ _ _))).tail
    (.turn 1 _ _ _ _ rfl (.inserted _))).tail (.turn 1 _ _ _ _ rfl (.flush _))).tail
    (.unlock 1 _ _ _ rfl rfl)
  have hs := (hleft.tail (.lock 2 _ _ rfl rfl rfl)).tail (.turn 2 _ _ _ _ rfl (.put _ _ _))
  obtain ⟨-, hfile, -⟩ := interleaving_whole_texts (opened_initial _) hs
  exact ⟨_, hs, rfl, rfl, hfile rfl rfl⟩

end

end Unitrace.Utils.Logger
