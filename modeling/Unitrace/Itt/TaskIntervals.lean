import Unitrace.Itt.TaskEnds
import Unitrace.Lib.OpenIntervals

/-!
# The intervals of the logged tasks

The stack of a thread holds intervals that are open. Whatever the calls of a thread
are, a begin call opens an interval or does nothing, and an end call closes or drops
the one that was opened last.
-/
namespace Unitrace.Itt.TaskIntervals

open Unitrace.Itt.Control Unitrace.Itt.Tasks Unitrace.Itt.TaskEnds
open Unitrace.Itt.PausedTasks (Thread)
open Unitrace.Lib Unitrace.Lib.OpenIntervals

/-- The value of `GetHostTimestamp` during the call. -/
def clock : Call → Option UInt64
  | .taskBegin _ _ now _ => some now
  | .taskEnd _ _ now => some now
  | _ => none

/-- The interval that a call logs, with the number of the begin call that opened it. -/
def interval (effect : Effect) : Option (OpenIntervals.Interval Nat) :=
  match effect.popped, effect.logged with
  | some id, some l => some ⟨⟨id, l.startTs.toNat⟩, l.endTs.toNat⟩
  | _, _ => none

/-- The end points that a call passes to `Log`. -/
def endPoints (effect : Effect) : Option (Nat × Nat) :=
  effect.logged.map fun l => (l.startTs.toNat, l.endTs.toNat)

/-- The entries of the stack as open intervals. -/
def opened (s : Trail) : List (Opened Nat) :=
  s.pushedBy.zipWith (fun id d => ⟨id, d.startTime.toNat⟩) s.thread.taskDesc

/-- An interval was opened by the begin call of its number. -/
def Begun (calls : List Call) (e : Opened Nat) : Prop :=
  ∃ domain name now memory, calls[e.id]? = some (.taskBegin domain name now memory) ∧
    e.start = now.toNat

structure Inv (calls : List Call) (s : Trail) (now : Nat) (closed : List (OpenIntervals.Interval Nat)) : Prop where
  aligned : s.pushedBy.length = s.thread.taskDesc.length
  nested : Nested s.next now (opened s) closed
  opened_begun : ∀ e ∈ opened s, Begun calls e
  closed_begun : ∀ i ∈ closed, Begun calls i.toOpened

theorem start_inv (calls : List Call) (c : UniController) (collector : IttCollector) :
    Inv calls (Trail.start ⟨c, collector, []⟩) 0 [] where
  aligned := rfl
  nested := nested_start 0 0
  opened_begun := by simp [opened, Trail.start]
  closed_begun := by simp

section Step

variable {calls : List Call} {s s' : Trail} {now now' : Nat}
  {closed : List (OpenIntervals.Interval Nat)}
  (hi : Inv calls s now closed) (hnext : s'.next = s.next + 1) (hnow : now ≤ now')

include hi hnext

/-- A begin call that pushes its entry opens an interval. -/
theorem Inv.push {domain name : Option (Option ByteString.CStr)} {t : UInt64}
    {memory d : ThreadTaskDescriptor}
    (hx : calls[s.next]? = some (.taskBegin domain name t memory)) (hnow : now ≤ t.toNat)
    (hstart : d.startTime = t) (hstack : s'.thread.taskDesc = d :: s.thread.taskDesc)
    (hpushed : s'.pushedBy = s.next :: s.pushedBy) : Inv calls s' t.toNat closed := by
  have hopened : opened s' = ⟨s.next, t.toNat⟩ :: opened s := by
    simp only [opened, hstack, hpushed, List.zipWith_cons_cons, hstart]
  refine ⟨?_, ?_, ?_, hi.closed_begun⟩
  · rw [hstack, hpushed, List.length_cons, List.length_cons, hi.aligned]
  · rw [hopened, hnext]
    exact hi.nested.open hnow
  · intro e he
    rw [hopened] at he
    rcases List.mem_cons.mp he with rfl | he
    · exact ⟨domain, name, t, memory, hx, rfl⟩
    · exact hi.opened_begun e he

include hnow

theorem Inv.wait (hstack : s'.thread.taskDesc = s.thread.taskDesc)
    (hpushed : s'.pushedBy = s.pushedBy) : Inv calls s' now' closed := by
  have hopened : opened s' = opened s := by simp only [opened, hstack, hpushed]
  refine ⟨?_, ?_, ?_, hi.closed_begun⟩
  · rw [hstack, hpushed, hi.aligned]
  · rw [hopened, hnext]
    exact hi.nested.wait (Nat.le_succ _) hnow
  · rw [hopened]
    exact hi.opened_begun

/-- An entry that leaves the stack is dropped, or its interval is closed. -/
theorem Inv.pop {id : Nat} {top : ThreadTaskDescriptor}
    (hstack : s.thread.taskDesc = top :: s'.thread.taskDesc) (hid : s.pushedBy = id :: s'.pushedBy) :
    Inv calls s' now' closed ∧
      Inv calls s' now' (closed ++ [⟨⟨id, top.startTime.toNat⟩, now'⟩]) := by
  have hopened : opened s = ⟨id, top.startTime.toNat⟩ :: opened s' := by
    simp only [opened, hstack, hid, List.zipWith_cons_cons]
  have haligned : s'.pushedBy.length = s'.thread.taskDesc.length := by
    have hlen := hi.aligned
    rw [hstack, hid, List.length_cons, List.length_cons] at hlen
    omega
  have hnested := hi.nested
  have hbegun := hi.opened_begun
  rw [hopened] at hnested hbegun
  obtain ⟨hfirst, hrest⟩ := List.forall_mem_cons.mp hbegun
  refine ⟨⟨haligned, ?_, hrest, hi.closed_begun⟩, ⟨haligned, ?_, hrest, ?_⟩⟩
  · rw [hnext]
    exact hnested.drop.wait (Nat.le_succ _) hnow
  · rw [hnext]
    exact (hnested.close hnow).wait (Nat.le_succ _) (Nat.le_refl _)
  · intro i hmem
    rcases List.mem_append.mp hmem with hmem | hmem
    · exact hi.closed_begun i hmem
    · rw [List.mem_singleton.mp hmem]
      exact hfirst

end Step

theorem pushedBy_of_pop {calls : List Call} {s s' : Trail} {now : Nat}
    {closed : List (OpenIntervals.Interval Nat)} (hi : Inv calls s now closed)
    {top : ThreadTaskDescriptor} (hstack : s.thread.taskDesc = top :: s'.thread.taskDesc)
    (hpushed : s'.pushedBy = s.pushedBy.tail) : ∃ id, s.pushedBy = id :: s'.pushedBy := by
  have hlen := hi.aligned
  rw [hstack, List.length_cons] at hlen
  cases hp : s.pushedBy with
  | nil =>
    rw [hp] at hlen
    cases hlen
  | cons id rest => exact ⟨id, by rw [hpushed, hp]; rfl⟩

/-- A step keeps the invariant and logs nothing but the interval that it closes. -/
theorem step_inv {calls : List Call} {s s' : Trail} {now : Nat} {closed : List (OpenIntervals.Interval Nat)}
    {x : Call} {effect : Effect} (hi : Inv calls s now closed) (hx : calls[s.next]? = some x)
    (hclock : ∀ t, clock x = some t → now ≤ t.toNat) (h : s.step x = some (s', effect)) :
    Inv calls s' (((clock x).map UInt64.toNat).getD now) (closed ++ (interval effect).toList) ∧
      (interval effect).map (fun i => (i.start, i.stop)) = endPoints effect := by
  obtain ⟨hnext, hcases⟩ := step_cases h
  have hnow : now ≤ ((clock x).map UInt64.toNat).getD now := by
    cases hc : clock x with
    | none => exact Nat.le_refl now
    | some t => exact hclock t hc
  have hsilent : closed ++ (interval ⟨none, none⟩).toList = closed := List.append_nil closed
  rcases hcases with ⟨domain, name, t, memory, d, rfl, hstart, hstack, hpushed, rfl⟩ |
    ⟨ending, domain, t, top, rfl, hstack, hpushed, hpopped, hlog⟩ | ⟨hstack, hpushed, rfl⟩
  · rw [hsilent]
    exact ⟨hi.push hnext hx hnow hstart hstack hpushed, rfl⟩
  · obtain ⟨id, hid⟩ := pushedBy_of_pop hi hstack hpushed
    obtain ⟨hdropped, hclosed⟩ := hi.pop hnext hnow hstack hid
    rw [hid] at hpopped
    cases hl : effect.logged with
    | none =>
      have hnone : interval effect = none := by simp [interval, hpopped, hl]
      rw [hnone, endPoints, hl, Option.toList_none, List.append_nil]
      exact ⟨hdropped, rfl⟩
    | some l =>
      obtain ⟨hstart, hend, -⟩ := hlog l hl
      have hsome : interval effect = some ⟨⟨id, top.startTime.toNat⟩, t.toNat⟩ := by
        simp [interval, hpopped, hl, hstart, hend]
      rw [hsome, endPoints, hl]
      exact ⟨hclosed, by simp [hstart, hend]⟩
  · rw [hsilent]
    exact ⟨hi.wait hnext hnow hstack hpushed, rfl⟩

theorem filterMap_cons_toList {α β : Type*} (f : α → Option β) (x : α) (l : List α) :
    (x :: l).filterMap f = (f x).toList ++ l.filterMap f := by
  cases h : f x with
  | none => rw [List.filterMap_cons_none h]; rfl
  | some b => rw [List.filterMap_cons_some h]; rfl

theorem run_inv {calls : List Call} {s : Trail} {now : Nat} {closed : List (OpenIntervals.Interval Nat)}
    (rest : List Call) (hi : Inv calls s now closed) (hrest : calls.drop s.next = rest)
    (hclock : (rest.filterMap clock).Pairwise (· ≤ ·))
    (hnow : ∀ t ∈ rest.filterMap clock, now ≤ t.toNat) :
    (∃ last, Inv calls (s.run rest).1 last (closed ++ (s.run rest).2.filterMap interval)) ∧
      ((s.run rest).2.filterMap interval).map (fun i => (i.start, i.stop)) =
        (s.run rest).2.filterMap endPoints := by
  induction rest generalizing s now closed with
  | nil => exact ⟨⟨now, by simpa [Trail.run] using hi⟩, rfl⟩
  | cons x rest ih =>
    have hx : calls[s.next]? = some x := by
      rw [← Nat.add_zero s.next, ← List.getElem?_drop, hrest]
      rfl
    have hdrop : calls.drop (s.next + 1) = rest := by
      rw [← List.drop_drop, hrest]
      rfl
    simp only [Trail.run]
    cases hstep : s.step x with
    | none => exact ⟨⟨now, by simpa using hi⟩, rfl⟩
    | some result =>
      obtain ⟨s', effect⟩ := result
      have hclockx : ∀ t, clock x = some t → now ≤ t.toNat := fun t ht =>
        hnow t (by simp [ht])
      obtain ⟨hi', hpoints⟩ := step_inv hi hx hclockx hstep
      have hclock' : (rest.filterMap clock).Pairwise (· ≤ ·) := by
        cases hc : clock x with
        | none => simpa [hc] using hclock
        | some t =>
          rw [List.filterMap_cons_some hc] at hclock
          exact (List.pairwise_cons.mp hclock).2
      have hnow' : ∀ t ∈ rest.filterMap clock, ((clock x).map UInt64.toNat).getD now ≤ t.toNat := by
        intro t ht
        cases hc : clock x with
        | none => exact hnow t (by rw [List.filterMap_cons_none hc]; exact ht)
        | some t₀ =>
          rw [List.filterMap_cons_some hc] at hclock
          exact UInt64.le_iff_toNat_le.mp ((List.pairwise_cons.mp hclock).1 t ht)
      obtain ⟨⟨last, hlast⟩, hmap⟩ :=
        ih hi' ((step_cases hstep).1 ▸ hdrop) hclock' hnow'
      simp only [filterMap_cons_toList]
      refine ⟨⟨last, by rwa [List.append_assoc] at hlast⟩, ?_⟩
      rw [List.map_append, hmap, ← hpoints]
      cases interval effect <;> rfl

/-- What a run logs is a laminar family of intervals, at most one for each begin call. -/
structure LaminarLog (calls : List Call) (effects : List Effect) : Prop where
  all_logged : (effects.filterMap interval).map (fun i => (i.start, i.stop)) =
    effects.filterMap endPoints
  laminar : (effects.filterMap interval).Pairwise OpenIntervals.Interval.Laminar
  ordered : ∀ i ∈ effects.filterMap interval, i.start ≤ i.stop
  begun : ∀ i ∈ effects.filterMap interval, Begun calls i.toOpened
  once : ((effects.filterMap interval).map fun i => i.id).Nodup

/-- Whatever calls a thread makes while its clock does not go back, the logged intervals
are laminar, and they come from begin calls of their own. -/
theorem logged_intervals_laminar (c : UniController) (collector : IttCollector) (calls : List Call)
    (hclock : (calls.filterMap clock).Pairwise (· ≤ ·)) :
    LaminarLog calls ((Trail.start ⟨c, collector, []⟩).run calls).2 := by
  obtain ⟨⟨last, hinv⟩, hpoints⟩ :=
    run_inv calls (start_inv calls c collector) (by rfl) hclock (fun _ _ => Nat.zero_le _)
  rw [List.nil_append] at hinv
  refine ⟨hpoints, hinv.nested.laminar, fun i hi => (hinv.nested.closed_before i hi).2.1,
    hinv.closed_begun, ?_⟩
  refine List.pairwise_map.mpr (hinv.nested.laminar.imp fun {a b} h => ?_)
  rcases h with ⟨hlt, -⟩ | ⟨hlt, -⟩
  · exact Nat.ne_of_lt hlt
  · exact Nat.ne_of_gt hlt

open Unitrace.Itt.PausedTasks (taskA taskB collecting)

/-- `A` begins, `B` begins in another domain, and then `A` is ended, `B` is ended twice
and `A` is ended again. -/
def wrongOrder : List Call :=
  [.taskBegin (some (some taskA.name.val)) none 1 taskA.memory,
    .taskBegin (some (some taskB.name.val)) none 2 taskB.memory,
    .taskEnd .plain (some (some taskA.name.val)) 3,
    .taskEnd (.callbackInfo ⟨0, 8, 8⟩) (some (some taskB.name.val)) 3,
    .taskEnd .plain (some (some taskB.name.val)) 4,
    .taskEnd .plain (some (some taskA.name.val)) 5]

theorem logged_intervals_laminar_wrongOrder :
    LaminarLog wrongOrder ((Trail.start ⟨collecting, ⟨true, true⟩, []⟩).run wrongOrder).2 :=
  logged_intervals_laminar collecting ⟨true, true⟩ wrongOrder (by decide)

end Unitrace.Itt.TaskIntervals
