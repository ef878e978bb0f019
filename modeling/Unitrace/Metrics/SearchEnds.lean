import Mathlib.Algebra.Order.BigOperators.Group.List
import Mathlib.Algebra.Order.Ring.Nat
import Mathlib.Data.List.Chain
import Unitrace.Metrics.SbidSearch

/-!
# When the backward search ends

The search keeps no set of the blocks it has checked. It ends exactly if no loop lies
behind the block of the stalled instruction, or if the lines that it reads use up the
tokens before it goes round a loop for ever.
-/
namespace Unitrace.Metrics.SearchEnds

open Unitrace.Lib Unitrace.Lib.Text Unitrace.Lib.PyStr Unitrace.Metrics.ControlFlow
open Unitrace.Metrics.SbidSearch

/-! ## Tokens and one line -/

/-- How many tokens of the line resolve the token. -/
def resolvers (ins : Str) (sbid : Str) : Nat := (sbidsStall ins).countP (resolves (hasSync ins) sbid)

/-- The line sets the token. -/
def Sets (ins : Str) (sbid : Str) : Prop := 0 < resolvers ins sbid

instance (ins sbid : Str) : Decidable (Sets ins sbid) := inferInstanceAs (Decidable (0 < _))

theorem removeResolved_none {sync : Bool} {sbid : Str} {stall : List Str}
    (h : stall.countP (resolves sync sbid) = 0) (result : List Str × Nat) :
    removeResolved sync sbid stall result = .ok result := by
  induction stall generalizing result with
  | nil => rfl
  | cons sbid2 more ih =>
    rw [List.countP_cons] at h
    split at h
    · omega
    · rename_i hres
      obtain ⟨sbids, removed⟩ := result
      rw [removeResolved, if_neg hres]
      exact ih (by omega) _

theorem removeResolved_one {sync : Bool} {sbid : Str} {stall sbids : List Str}
    (h : stall.countP (resolves sync sbid) = 1) (hmem : sbid ∈ sbids) (removed : Nat) :
    removeResolved sync sbid stall (sbids, removed) = .ok (sbids.erase sbid, removed + 1) := by
  induction stall with
  | nil => cases h
  | cons sbid2 more ih =>
    rw [List.countP_cons] at h
    split at h
    · rename_i hres
      rw [removeResolved, if_pos hres, if_pos hmem]
      exact removeResolved_none (by omega) _
    · rename_i hres
      rw [removeResolved, if_neg hres]
      exact ih (by omega)

theorem removeFrom_end (sync : Bool) (stall : List Str) {sbids : List Str} {i : Nat}
    (h : sbids.length ≤ i) (removed : Nat) :
    removeFrom sync stall i sbids removed = .ok (sbids, removed) := by
  rw [removeFrom]
  split
  · rfl
  · rename_i hget
    rw [List.getElem?_eq_none h] at hget
    cases hget

/-- One turn of the loop. -/
theorem removeFrom_bind {sync : Bool} {stall sbids : List Str} {i removed : Nat} {sbid : Str}
    (hget : sbids[i]? = some sbid) :
    removeFrom sync stall i sbids removed =
      removeResolved sync sbid stall (sbids, removed) >>= fun (sbids, removed) =>
        removeFrom sync stall (i + 1) sbids removed := by
  rw [removeFrom]
  split
  · rename_i hnone
    rw [hget] at hnone
    cases hnone
  · rename_i hsome
    rw [hget] at hsome
    obtain rfl := Option.some.inj hsome
    split
    · rename_i herror
      rw [herror]
      rfl
    · rename_i hok
      rw [hok]
      rfl

theorem removeFrom_step {sync : Bool} {stall sbids sbids' : List Str} {i removed removed' : Nat}
    {sbid : Str} (hget : sbids[i]? = some sbid)
    (hremove : removeResolved sync sbid stall (sbids, removed) = .ok (sbids', removed')) :
    removeFrom sync stall i sbids removed = removeFrom sync stall (i + 1) sbids' removed' := by
  rw [removeFrom_bind hget, hremove]
  rfl

/-- Tokens that the line does not set stay. -/
theorem removeFrom_unset {sync : Bool} {stall : List Str} (visited : List Str) {rest : List Str}
    (h : ∀ sbid ∈ rest, stall.countP (resolves sync sbid) = 0) (removed : Nat) :
    removeFrom sync stall visited.length (visited ++ rest) removed = .ok (visited ++ rest, removed) := by
  induction rest generalizing visited with
  | nil =>
    rw [List.append_nil]
    exact removeFrom_end sync stall (Nat.le_refl _) removed
  | cons sbid rest ih =>
    have hget : (visited ++ sbid :: rest)[visited.length]? = some sbid := by simp
    rw [removeFrom_step hget (removeResolved_none (h sbid List.mem_cons_self) _)]
    have hnext := ih (visited ++ [sbid]) fun t ht => h t (List.mem_cons_of_mem sbid ht)
    rwa [List.length_append, List.append_assoc] at hnext

/-- If no two neighbours are resolved, and no token twice, the resolved tokens go and the
others stay: the token that is skipped behind a removed one is none of the resolved. -/
theorem removeFrom_apart {sync : Bool} {stall : List Str} (visited : List Str) {rest : List Str}
    (hvisited : ∀ sbid ∈ visited, stall.countP (resolves sync sbid) = 0)
    (hrest : ∀ sbid ∈ rest, stall.countP (resolves sync sbid) ≤ 1)
    (hapart : rest.IsChain fun a b =>
      ¬ (0 < stall.countP (resolves sync a) ∧ 0 < stall.countP (resolves sync b)))
    (removed : Nat) :
    removeFrom sync stall visited.length (visited ++ rest) removed =
      .ok (visited ++ rest.filter (fun sbid => ¬ 0 < stall.countP (resolves sync sbid)),
        removed + rest.countP fun sbid => 0 < stall.countP (resolves sync sbid)) := by
  induction rest generalizing visited removed with
  | nil =>
    rw [List.append_nil, List.filter_nil, List.append_nil]
    exact removeFrom_end sync stall (Nat.le_refl _) removed
  | cons sbid rest ih =>
    have hget : (visited ++ sbid :: rest)[visited.length]? = some sbid := by simp
    obtain ⟨hfirst, hrest⟩ := List.forall_mem_cons.mp hrest
    obtain ⟨hnext, hapart⟩ := List.isChain_cons.mp hapart
    by_cases hzero : stall.countP (resolves sync sbid) = 0
    · rw [removeFrom_step hget (removeResolved_none hzero _),
        List.filter_cons_of_pos (by simp [hzero]), List.countP_cons_of_neg (by simp [hzero])]
      have hvisited' : ∀ t ∈ visited ++ [sbid], stall.countP (resolves sync t) = 0 := by
        intro t ht
        rcases List.mem_append.mp ht with ht | ht
        · exact hvisited t ht
        · rw [List.mem_singleton.mp ht, hzero]
      have hmore := ih (visited ++ [sbid]) hvisited' hrest hapart removed
      rwa [List.length_append, List.append_assoc, List.append_assoc] at hmore
    · have hone : stall.countP (resolves sync sbid) = 1 := by omega
      have hnot : sbid ∉ visited := fun hmem => hzero (hvisited sbid hmem)
      have herase : (visited ++ sbid :: rest).erase sbid = visited ++ rest := by
        rw [List.erase_append_right _ hnot, List.erase_cons_head]
      have hmem : sbid ∈ visited ++ sbid :: rest := by simp
      rw [removeFrom_step hget (removeResolved_one hone hmem removed), herase,
        List.filter_cons_of_neg (by simp [hone]), List.countP_cons_of_pos (by simp [hone])]
      have hmore := ih visited hvisited hrest hapart (removed + 1)
      rw [Nat.add_right_comm, Nat.add_assoc] at hmore
      cases rest with
      | nil =>
        rw [List.append_nil, List.filter_nil, List.append_nil]
        exact removeFrom_end sync stall (Nat.le_succ _) (removed + 1)
      | cons t rest =>
        -- the loop skips the token that has moved up
        have ht : stall.countP (resolves sync t) = 0 := by
          have := hnext t rfl
          omega
        have hget' : (visited ++ t :: rest)[visited.length]? = some t := by simp
        rw [removeFrom_step hget' (removeResolved_none ht _)] at hmore
        exact hmore

theorem takeSbids_unset {ins : Str} {sbids : List Str} (h : ∀ sbid ∈ sbids, ¬ Sets ins sbid) :
    takeSbids ins sbids = .ok (sbids, 0) :=
  removeFrom_unset [] (fun sbid hsbid => Nat.eq_zero_of_not_pos (h sbid hsbid)) 0

/-- No two neighbours among the tokens are set by the line, and its braces name none of
them twice. -/
structure Apart (ins : Str) (sbids : List Str) : Prop where
  once : ∀ sbid ∈ sbids, resolvers ins sbid ≤ 1
  apart : sbids.IsChain fun a b => ¬ (Sets ins a ∧ Sets ins b)

theorem takeSbids_apart {ins : Str} {sbids : List Str} (h : Apart ins sbids) :
    takeSbids ins sbids =
      .ok (sbids.filter (fun sbid => ¬ Sets ins sbid), sbids.countP fun sbid => Sets ins sbid) := by
  have hremove := removeFrom_apart [] (by simp) h.once h.apart 0
  rwa [Nat.zero_add] at hremove

/-- The line resolves one of the tokens at most, and once. -/
def SetsOnce (ins : Str) (sbids : List Str) : Prop := (sbids.map (resolvers ins)).sum ≤ 1

theorem SetsOnce.apart {ins : Str} {sbids : List Str} (h : SetsOnce ins sbids) : Apart ins sbids := by
  unfold SetsOnce at h
  induction sbids with
  | nil => exact ⟨by simp, List.IsChain.nil⟩
  | cons sbid sbids ih =>
    rw [List.map_cons, List.sum_cons] at h
    obtain ⟨honce, hapart⟩ := ih (by omega)
    refine ⟨List.forall_mem_cons.mpr ⟨by omega, honce⟩, List.isChain_cons.mpr ⟨?_, hapart⟩⟩
    intro next hnext
    have hle := List.single_le_sum (l := sbids.map (resolvers ins)) (by simp) _
      (List.mem_map_of_mem (List.mem_of_mem_head? hnext))
    unfold Sets
    omega

theorem takeSbids_once {ins : Str} {sbids : List Str} (h : SetsOnce ins sbids) :
    ∃ removed, takeSbids ins sbids = .ok (sbids.filter fun sbid => ¬ Sets ins sbid, removed) :=
  ⟨_, takeSbids_apart h.apart⟩

/-! ## When a line skips a token -/

theorem removeResolved_absent {sync : Bool} {sbid : Str} {stall sbids : List Str}
    (hmem : sbid ∉ sbids) {removed : Nat} {result : List Str × Nat}
    (h : removeResolved sync sbid stall (sbids, removed) = .ok result) :
    stall.countP (resolves sync sbid) = 0 := by
  induction stall with
  | nil => rfl
  | cons sbid2 more ih =>
    rw [removeResolved] at h
    split at h
    · cases h
    · rename_i hres
      rw [List.countP_cons_of_neg hres]
      exact ih h

/-- Among tokens that differ, one that a line holds twice fails to be removed again. -/
theorem removeResolved_ok {sync : Bool} {sbid : Str} {stall sbids : List Str} (hnodup : sbids.Nodup)
    {removed : Nat} {result : List Str × Nat}
    (h : removeResolved sync sbid stall (sbids, removed) = .ok result) :
    stall.countP (resolves sync sbid) ≤ 1 := by
  induction stall with
  | nil => exact Nat.zero_le 1
  | cons sbid2 more ih =>
    rw [removeResolved] at h
    split at h
    · rename_i hres
      split at h
      · rw [List.countP_cons_of_pos hres, removeResolved_absent hnodup.not_mem_erase h]
      · cases h
    · rename_i hres
      rw [List.countP_cons_of_neg hres]
      exact ih h

theorem removeFrom_ok {sync : Bool} {stall sbids : List Str} (hnodup : sbids.Nodup) {i removed : Nat}
    {sbid : Str} (hget : sbids[i]? = some sbid) {result : List Str × Nat}
    (h : removeFrom sync stall i sbids removed = .ok result) :
    stall.countP (resolves sync sbid) ≤ 1 := by
  rw [removeFrom_bind hget] at h
  obtain ⟨next, hok, -⟩ := bind_eq_ok h
  exact removeResolved_ok hnodup hok

/-- The loop goes on behind a token that stays, and skips the one behind a token that goes. -/
theorem removeFrom_next {sync : Bool} {stall visited rest : List Str} {sbid : Str}
    (hnodup : (visited ++ sbid :: rest).Nodup) {removed : Nat} {result : List Str × Nat}
    (h : removeFrom sync stall visited.length (visited ++ sbid :: rest) removed = .ok result) :
    (stall.countP (resolves sync sbid) = 0 ∧
      removeFrom sync stall (visited.length + 1) (visited ++ sbid :: rest) removed = .ok result) ∨
    (stall.countP (resolves sync sbid) = 1 ∧
      removeFrom sync stall (visited.length + 1) (visited ++ rest) (removed + 1) = .ok result) := by
  have hget : (visited ++ sbid :: rest)[visited.length]? = some sbid := by simp
  have hle := removeFrom_ok hnodup hget h
  rcases Nat.le_one_iff_eq_zero_or_eq_one.mp hle with hzero | hone
  · rw [removeFrom_step hget (removeResolved_none hzero _)] at h
    exact Or.inl ⟨hzero, h⟩
  · have hnot : sbid ∉ visited := fun hmem =>
      (List.nodup_append.mp hnodup).2.2 sbid hmem sbid List.mem_cons_self rfl
    have herase : (visited ++ sbid :: rest).erase sbid = visited ++ rest := by
      rw [List.erase_append_right _ hnot, List.erase_cons_head]
    rw [removeFrom_step hget (removeResolved_one hone (by simp) removed), herase] at h
    exact Or.inr ⟨hone, h⟩

theorem removeFrom_keeps {sync : Bool} {stall rest : List Str} (visited : List Str)
    (hnodup : (visited ++ rest).Nodup) {removed n : Nat} {left : List Str}
    (h : removeFrom sync stall visited.length (visited ++ rest) removed = .ok (left, n)) :
    visited ⊆ left := by
  induction rest using List.twoStepInduction generalizing visited removed with
  | nil =>
    rw [List.append_nil, removeFrom_end sync stall (Nat.le_refl _)] at h
    cases h
    exact List.Subset.refl _
  | singleton sbid =>
    rcases removeFrom_next hnodup h with ⟨-, h⟩ | ⟨-, h⟩
    · rw [removeFrom_end sync stall (by simp)] at h
      cases h
      exact List.subset_append_left visited [sbid]
    · rw [removeFrom_end sync stall (by simp)] at h
      cases h
      exact List.subset_append_left visited []
  | cons_cons sbid next rest ih ih' =>
    rcases removeFrom_next hnodup h with ⟨-, h⟩ | ⟨-, h⟩
    · have hkeep := ih' next (visited ++ [sbid]) (by simpa using hnodup) (by simpa using h)
      exact List.Subset.trans (List.subset_append_left visited [sbid]) hkeep
    · have hsub : (visited ++ next :: rest).Sublist (visited ++ sbid :: next :: rest) :=
        (List.sublist_cons_self sbid _).append_left visited
      have hkeep := ih (visited ++ [next]) (by simpa using hnodup.sublist hsub) (by simpa using h)
      exact List.Subset.trans (List.subset_append_left visited [next]) hkeep

/-- If the loop removes all resolved tokens and no other, no two neighbours are resolved,
since the second of them would be skipped. -/
theorem apart_of_removeFrom {sync : Bool} {stall rest : List Str} (visited : List Str)
    (hnodup : (visited ++ rest).Nodup) {removed n : Nat}
    (h : removeFrom sync stall visited.length (visited ++ rest) removed =
      .ok (visited ++ rest.filter (fun sbid => ¬ 0 < stall.countP (resolves sync sbid)), n)) :
    (∀ sbid ∈ rest, stall.countP (resolves sync sbid) ≤ 1) ∧ rest.IsChain fun a b =>
      ¬ (0 < stall.countP (resolves sync a) ∧ 0 < stall.countP (resolves sync b)) := by
  induction rest using List.twoStepInduction generalizing visited removed with
  | nil => exact ⟨by simp, List.IsChain.nil⟩
  | singleton sbid =>
    have hget : (visited ++ [sbid])[visited.length]? = some sbid := by simp
    exact ⟨by simpa using removeFrom_ok hnodup hget h, List.IsChain.singleton sbid⟩
  | cons_cons sbid next rest ih ih' =>
    rcases removeFrom_next hnodup h with ⟨hzero, hstep⟩ | ⟨hone, hstep⟩
    · rw [List.filter_cons_of_pos (by simp [hzero])] at hstep
      obtain ⟨honce, hapart⟩ :=
        ih' next (visited ++ [sbid]) (by simpa using hnodup) (by simpa using hstep)
      refine ⟨List.forall_mem_cons.mpr ⟨by omega, honce⟩, List.isChain_cons_cons.mpr ⟨?_, hapart⟩⟩
      omega
    · have hsub : (visited ++ next :: rest).Sublist (visited ++ sbid :: next :: rest) :=
        (List.sublist_cons_self sbid _).append_left visited
      have hnodup' := hnodup.sublist hsub
      rw [List.filter_cons_of_neg (by simp [hone])] at hstep
      have hnext : next ∈ visited ++
          (next :: rest).filter fun sbid => ¬ 0 < stall.countP (resolves sync sbid) :=
        removeFrom_keeps (visited ++ [next]) (by simpa using hnodup') (by simpa using hstep)
          (by simp)
      have hnot : next ∉ visited := fun hmem =>
        (List.nodup_append.mp hnodup').2.2 next hmem next List.mem_cons_self rfl
      have hzero : stall.countP (resolves sync next) = 0 := by
        have hmem := (List.mem_append.mp hnext).resolve_left hnot
        have := of_decide_eq_true (List.mem_filter.mp hmem).2
        omega
      rw [List.filter_cons_of_pos (by simp [hzero])] at hstep
      obtain ⟨honce, hapart⟩ :=
        ih (visited ++ [next]) (by simpa using hnodup') (by simpa using hstep)
      have hapart' : (next :: rest).IsChain fun a b =>
          ¬ (0 < stall.countP (resolves sync a) ∧ 0 < stall.countP (resolves sync b)) :=
        List.isChain_cons.mpr ⟨fun _ _ => by omega, hapart⟩
      refine ⟨?_, List.isChain_cons_cons.mpr ⟨by omega, hapart'⟩⟩
      exact List.forall_mem_cons.mpr ⟨by omega, List.forall_mem_cons.mpr ⟨by omega, honce⟩⟩

/-- Among tokens that differ, a line takes exactly those that it sets only if none of them
are neighbours and none is held twice. -/
theorem takeSbids_iff_apart {ins : Str} {sbids : List Str} (hnodup : sbids.Nodup) :
    (∃ n, takeSbids ins sbids = .ok (sbids.filter fun sbid => ¬ Sets ins sbid, n)) ↔
      Apart ins sbids := by
  constructor
  · rintro ⟨n, h⟩
    obtain ⟨honce, hapart⟩ := apart_of_removeFrom [] hnodup h
    exact ⟨honce, hapart⟩
  · exact fun h => ⟨_, takeSbids_apart h⟩

/-! ## Tokens and the lines of blocks -/

/-- The tokens left after the lines. -/
def takeAll : List Str → List Str → Except PyErr (List Str)
  | [], sbids => .ok sbids
  | ins :: lines, sbids =>
    match takeSbids ins sbids with
    | .error e => .error e
    | .ok (sbids, _) => takeAll lines sbids

/-- No token is left, or the removal of a token failed. -/
def Exhausted (result : Except PyErr (List Str)) : Prop := ∀ sbids, result = .ok sbids → sbids = []

theorem takeAll_append (lines more : List Str) (sbids : List Str) :
    takeAll (lines ++ more) sbids =
      match takeAll lines sbids with
      | .error e => .error e
      | .ok sbids => takeAll more sbids := by
  induction lines generalizing sbids with
  | nil => rfl
  | cons ins lines ih =>
    rw [List.cons_append, takeAll, takeAll]
    cases takeSbids ins sbids with
    | error e => rfl
    | ok result => exact ih result.1

theorem takeAll_nil (lines : List Str) : takeAll lines [] = .ok [] := by
  induction lines with
  | nil => rfl
  | cons ins lines ih =>
    rw [takeAll, takeSbids_unset (by simp)]
    exact ih

theorem Exhausted.append {lines : List Str} {sbids : List Str} (h : Exhausted (takeAll lines sbids))
    (more : List Str) : Exhausted (takeAll (lines ++ more) sbids) := by
  rw [takeAll_append]
  cases htake : takeAll lines sbids with
  | error e =>
    intro left hleft
    cases hleft
  | ok left =>
    rw [h left htake]
    show Exhausted (takeAll more [])
    rw [takeAll_nil]
    intro left' hleft'
    exact (Except.ok.inj hleft').symm

/-- Tokens that no line sets stay. -/
theorem takeAll_unset {lines sbids : List Str} (h : ∀ ins ∈ lines, ∀ sbid ∈ sbids, ¬ Sets ins sbid) :
    takeAll lines sbids = .ok sbids := by
  induction lines with
  | nil => rfl
  | cons ins lines ih =>
    rw [takeAll, takeSbids_unset (h ins List.mem_cons_self)]
    exact ih fun i hi => h i (List.mem_cons_of_mem ins hi)

theorem SetsOnce.filter {ins : Str} {sbids : List Str} (h : SetsOnce ins sbids) (p : Str → Bool) :
    SetsOnce ins (sbids.filter p) := by
  have hsub := (List.filter_sublist (p := p) (l := sbids)).map (resolvers ins)
  exact Nat.le_trans (hsub.sum_le_sum fun _ _ => Nat.zero_le _) h

/-- Lines that resolve one token at most each take exactly the tokens that they set. -/
theorem takeAll_once {lines sbids : List Str} (h : ∀ ins ∈ lines, SetsOnce ins sbids) :
    takeAll lines sbids = .ok (sbids.filter fun sbid => ∀ ins ∈ lines, ¬ Sets ins sbid) := by
  induction lines generalizing sbids with
  | nil =>
    rw [takeAll, List.filter_eq_self.mpr (by simp)]
  | cons ins lines ih =>
    obtain ⟨removed, htake⟩ := takeSbids_once (h ins List.mem_cons_self)
    rw [takeAll, htake]
    show takeAll lines _ = _
    rw [ih fun i hi => (h i (List.mem_cons_of_mem ins hi)).filter _, List.filter_filter]
    congr 1
    apply List.filter_congr
    intro sbid _
    rw [← Bool.decide_and, decide_eq_decide, List.forall_mem_cons, and_comm]

/-! ## Reading a block -/

theorem sbids_resolve (s : Search) (pos : Int) (ins : Str) :
    ((s.resolveLine pos ins).resolveFile pos ins).sbidsStalled = s.sbidsStalled := by
  unfold Search.resolveFile Search.resolveLine
  split <;> split <;> rfl

theorem take_sbids (s : Search) (pos : Int) (ins : Str) :
    (∀ s', s.take pos ins = .ok s' → ∃ removed, takeSbids ins s.sbidsStalled = .ok (s'.sbidsStalled, removed)) ∧
      ∀ e, s.take pos ins = .error e → takeSbids ins s.sbidsStalled = .error e := by
  unfold Search.take
  split
  · rename_i hnil
    rw [hnil, takeSbids_unset (by simp)]
    refine ⟨fun s' hs' => ⟨0, ?_⟩, fun e he => nomatch he⟩
    rw [← Except.ok.inj hs', hnil]
  · split
    · rename_i e htake
      refine ⟨fun s' hs' => (nomatch hs'), fun e' he' => ?_⟩
      rw [htake, Except.error.inj he']
    · rename_i sbids removed htake
      refine ⟨fun s' hs' => ⟨removed, ?_⟩, fun e he => nomatch he⟩
      rw [htake, ← Except.ok.inj hs']

/-- What reading lines does to the tokens. -/
def ReadsTo (lines sbids : List Str) : Except PyErr (Search × Option (Bool × Int)) → Prop
  | .error e => takeAll lines sbids = .error e
  | .ok (s, none) =>
    takeAll lines sbids = .ok s.sbidsStalled ∧ (sbids ≠ [] → s.sbidsStalled ≠ [])
  | .ok (s, some _) => takeAll lines sbids = .ok [] ∧ s.sbidsStalled = []

theorem ReadsTo.cons {ins : Str} {lines sbids sbids' : List Str} {removed : Nat}
    {result : Except PyErr (Search × Option (Bool × Int))}
    (htake : takeSbids ins sbids = .ok (sbids', removed)) (hne : sbids' ≠ [])
    (h : ReadsTo lines sbids' result) : ReadsTo (ins :: lines) sbids result := by
  have hall : takeAll (ins :: lines) sbids = takeAll lines sbids' := by rw [takeAll, htake]
  match result, h with
  | .error e, h => exact hall.trans h
  | .ok (s, none), h => exact ⟨hall.trans h.1, fun _ => h.2 hne⟩
  | .ok (s, some _), h => exact ⟨hall.trans h.1, h.2⟩

theorem readLines_sbids (sourceAvailable : Bool) (lines : List (Int × Str)) (s : Search) :
    ReadsTo (lines.map Prod.snd) s.sbidsStalled (readLines sourceAvailable lines s) := by
  induction lines generalizing s with
  | nil => exact ⟨rfl, id⟩
  | cons line lines ih =>
    obtain ⟨pos, ins⟩ := line
    obtain ⟨hok, herror⟩ := take_sbids s pos ins
    rw [readLines, List.map_cons]
    cases htake : s.take pos ins with
    | error e =>
      show takeAll (ins :: lines.map Prod.snd) s.sbidsStalled = .error e
      rw [takeAll, herror e htake]
    | ok s' =>
      obtain ⟨removed, hsbids⟩ := hok s' htake
      have hkeep := sbids_resolve s' pos ins
      dsimp only
      by_cases hnil : s'.sbidsStalled = []
      · rw [if_pos (hkeep.trans hnil)]
        show takeAll (ins :: lines.map Prod.snd) s.sbidsStalled = .ok [] ∧ _ = []
        rw [takeAll, hsbids, hnil]
        exact ⟨takeAll_nil _, hkeep.trans hnil⟩
      · rw [if_neg fun h => hnil (hkeep.symm.trans h)]
        have hrest := ih ((s'.resolveLine pos ins).resolveFile pos ins)
        rw [hkeep] at hrest
        exact hrest.cons hsbids hnil

/-- The lines that are read for an entry. -/
def entryLines (instructions : List Str) (entry : Entry) : List Str :=
  (slice instructions entry.2.1 (entry.2.2 + 1)).reverse

theorem upward_snd (instructions : List Str) (lo last : Int) :
    (upward instructions lo last).map Prod.snd = (slice instructions lo (last + 1)).reverse := by
  rw [upward, List.map_map]
  exact List.zipIdx_map_fst 0 _

theorem exhausted_error (e : PyErr) : Exhausted (.error e) := fun _ h => nomatch h

theorem exhausted_nil : Exhausted (.ok []) := fun _ h => (Except.ok.inj h).symm

theorem checkBlock_ok {instructions : List Str} {sourceAvailable : Bool} {entry : Entry} {s s' : Search}
    (h : checkBlock instructions sourceAvailable entry s = .ok s') :
    takeAll (entryLines instructions entry) s.sbidsStalled = .ok s'.sbidsStalled ∧
      s'.sbidsStalled ≠ [] := by
  obtain ⟨bid, start, last⟩ := entry
  have hread := readLines_sbids sourceAvailable (upward instructions start last) s
  rw [upward_snd] at hread
  rw [checkBlock] at h
  dsimp only at h
  cases hlines : readLines sourceAvailable (upward instructions start last) s with
  | error e =>
    rw [hlines] at h
    cases h
  | ok result =>
    obtain ⟨t, broken⟩ := result
    rw [hlines] at h hread
    dsimp only at h
    split at h
    · cases h
    · split at h
      · cases h
      · rename_i hne
        obtain rfl := Except.ok.inj h
        cases broken with
        | none => exact ⟨hread.1, hne⟩
        | some _ => exact absurd hread.2 hne

/-- A block that ends the search uses up the tokens, or fails as their removal does. -/
theorem checkBlock_error {instructions : List Str} {sourceAvailable : Bool} {entry : Entry}
    {s : Search} {result : Except PyErr Search}
    (h : checkBlock instructions sourceAvailable entry s = .error result) :
    takeAll (entryLines instructions entry) s.sbidsStalled = result.map fun _ => [] := by
  obtain ⟨bid, start, last⟩ := entry
  have hread := readLines_sbids sourceAvailable (upward instructions start last) s
  rw [upward_snd] at hread
  rw [checkBlock] at h
  dsimp only at h
  rw [entryLines]
  cases hlines : readLines sourceAvailable (upward instructions start last) s with
  | error e =>
    rw [hlines] at h hread
    obtain rfl := Except.error.inj h
    exact hread
  | ok read =>
    obtain ⟨t, broken⟩ := read
    rw [hlines] at h hread
    dsimp only at h
    have hnil : result.map (fun _ => ([] : List Str)) = .ok [] ∧ t.sbidsStalled = [] := by
      split at h
      · rename_i hdone
        obtain rfl := Except.error.inj h
        cases broken with
        | none => cases hdone
        | some _ => exact ⟨rfl, hread.2⟩
      · split at h
        · rename_i hempty
          obtain rfl := Except.error.inj h
          exact ⟨rfl, hempty⟩
        · cases h
    rw [hnil.1]
    cases broken with
    | some _ => exact hread.1
    | none => exact hread.1.trans (congrArg Except.ok hnil.2)

/-! ## The blocks behind a block -/

def entryOf (bbs : Blocks) (b : Str) : Entry :=
  match List.lookup b bbs with
  | some bb => (b, bb.head, bb.tail)
  | none => (b, 0, -1)

/-- The entries that follow an entry in the list of blocks to check. -/
def behind (bbs : Blocks) (entry : Entry) : List Entry := (predsOf bbs entry.1).map (entryOf bbs)

theorem entryOf_fst (bbs : Blocks) (b : Str) : (entryOf bbs b).1 = b := by
  unfold entryOf
  split <;> rfl

theorem predEntries_eq {bbs : Blocks} (hclosed : Closed bbs) {entry : Entry}
    (hmem : entry.1 ∈ bbs.map Prod.fst) : predEntries bbs entry.1 = .ok (behind bbs entry) := by
  obtain ⟨bb, hbb⟩ := lookup_of_mem_keys hmem
  have hpreds : predsOf bbs entry.1 = bb.preds := by rw [predsOf, hbb]
  have hids : ∀ b ∈ bb.preds, b ∈ bbs.map Prod.fst :=
    fun b hb => hclosed.mem_preds (hpreds ▸ hb)
  simp only [predEntries, hbb, behind, hpreds]
  generalize bb.preds = ids at hids
  induction ids with
  | nil => rfl
  | cons b ids ih =>
    obtain ⟨bb, hbb⟩ := lookup_of_mem_keys (hids b List.mem_cons_self)
    rw [List.mapM_cons, ih fun c hc => hids c (List.mem_cons_of_mem b hc), hbb, List.map_cons,
      entryOf, hbb]
    rfl

/-- Where the predecessors of a block are found, these are the entries behind it. -/
theorem predEntries_ok {bbs : Blocks} {entry : Entry} {entries : List Entry}
    (h : predEntries bbs entry.1 = .ok entries) : entries = behind bbs entry := by
  cases hbb : List.lookup entry.1 bbs with
  | none =>
    simp only [predEntries, hbb] at h
    cases h
  | some bb =>
    have hpreds : predsOf bbs entry.1 = bb.preds := by rw [predsOf, hbb]
    simp only [predEntries, hbb] at h
    rw [behind, hpreds]
    generalize bb.preds = ids at h
    induction ids generalizing entries with
    | nil => exact (Except.ok.inj h).symm
    | cons b ids ih =>
      rw [List.mapM_cons] at h
      obtain ⟨e, he, h⟩ := bind_eq_ok h
      obtain ⟨more, hmore, h⟩ := bind_eq_ok h
      obtain rfl := Except.ok.inj h
      rw [List.map_cons, ← ih hmore, entryOf]
      cases hlookup : List.lookup b bbs with
      | none =>
        rw [hlookup] at he
        cases he
      | some bb =>
        rw [hlookup] at he
        rw [← Except.ok.inj he]

/-- Checks a block, and looks its predecessors up where the search goes on. -/
def visitBlock (instructions : List Str) (sourceAvailable : Bool) (bbs : Blocks) (entry : Entry)
    (s : Search) : Except (Except PyErr Search) Search :=
  match checkBlock instructions sourceAvailable entry s with
  | .error result => .error result
  | .ok s =>
    match predEntries bbs entry.1 with
    | .error e => .error (.error e)
    | .ok _ => .ok s

/-- What the search returns when the run of the work list is stopped, or through. -/
def runResult : Except (Except PyErr Search) Search → Except PyErr Search
  | .error result => result
  | .ok s => .ok s

/-- The loop is a run of the work list. -/
theorem searchLoop_eq_run (instructions : List Str) (sourceAvailable : Bool) (bbs : Blocks)
    (fuel : Nat) (bbsToCheck : List Entry) (j : Nat) (s : Search) :
    searchLoop instructions sourceAvailable bbs fuel bbsToCheck j s =
      (Worklist.run (behind bbs) (visitBlock instructions sourceAvailable bbs) fuel
        (bbsToCheck.drop j) s).map runResult := by
  induction fuel generalizing bbsToCheck j s with
  | zero =>
    unfold searchLoop
    cases hget : bbsToCheck[j]? with
    | none =>
      rw [List.drop_eq_nil_of_le (List.getElem?_eq_none_iff.mp hget)]
      rfl
    | some entry =>
      obtain ⟨hlt, heq⟩ := List.getElem?_eq_some_iff.mp hget
      rw [List.drop_eq_getElem_cons hlt]
      rfl
  | succ fuel ih =>
    unfold searchLoop
    cases hget : bbsToCheck[j]? with
    | none =>
      rw [List.drop_eq_nil_of_le (List.getElem?_eq_none_iff.mp hget)]
      rfl
    | some entry =>
      obtain ⟨hlt, heq⟩ := List.getElem?_eq_some_iff.mp hget
      rw [List.drop_eq_getElem_cons hlt, heq, Worklist.run, visitBlock]
      dsimp only
      cases checkBlock instructions sourceAvailable entry s with
      | error result => rfl
      | ok s' =>
        dsimp only
        cases hpreds : predEntries bbs entry.1 with
        | error e => rfl
        | ok entries =>
          obtain rfl := predEntries_ok hpreds
          dsimp only
          rw [ih, List.drop_append_of_le_length hlt]

/-! ## The tokens along the blocks -/

/-- The tokens left after blocks; the reading ends when there are none. -/
def takeBlocks (instructions : List Str) (bbs : Blocks) :
    List Entry → List Str → Except PyErr (List Str)
  | [], sbids => .ok sbids
  | entry :: entries, sbids =>
    match takeAll (entryLines instructions entry) sbids with
    | .error e => .error e
    | .ok left =>
      if left = [] then .ok []
      else
        match predEntries bbs entry.1 with
        | .error e => .error e
        | .ok _ => takeBlocks instructions bbs entries left

/-- In a closed graph no predecessor is missing, and the lines alone decide. -/
theorem takeBlocks_closed {bbs : Blocks} (hclosed : Closed bbs) (instructions : List Str)
    {entries : List Entry} (hmem : ∀ entry ∈ entries, entry.1 ∈ bbs.map Prod.fst)
    (sbids : List Str) : takeBlocks instructions bbs entries sbids =
      takeAll (entries.flatMap (entryLines instructions)) sbids := by
  induction entries generalizing sbids with
  | nil => rfl
  | cons entry entries ih =>
    obtain ⟨hentry, hmem⟩ := List.forall_mem_cons.mp hmem
    rw [takeBlocks, List.flatMap_cons, takeAll_append]
    cases takeAll (entryLines instructions entry) sbids with
    | error e => rfl
    | ok left =>
      dsimp only
      by_cases hnil : left = []
      · rw [if_pos hnil, hnil, takeAll_nil]
      · rw [if_neg hnil, predEntries_eq hclosed hentry]
        exact ih hmem left

theorem visitAll_ok {instructions : List Str} {sourceAvailable : Bool} {bbs : Blocks}
    {entries : List Entry} {s s' : Search}
    (h : Worklist.visitAll (visitBlock instructions sourceAvailable bbs) entries s = .ok s') :
    takeBlocks instructions bbs entries s.sbidsStalled = .ok s'.sbidsStalled ∧
      (entries ≠ [] → s'.sbidsStalled ≠ []) := by
  induction entries generalizing s with
  | nil =>
    obtain rfl := Except.ok.inj h
    exact ⟨rfl, fun hne => absurd rfl hne⟩
  | cons entry entries ih =>
    rw [Worklist.visitAll, visitBlock] at h
    rw [takeBlocks]
    cases hcheck : checkBlock instructions sourceAvailable entry s with
    | error result =>
      rw [hcheck] at h
      cases h
    | ok t =>
      rw [hcheck] at h
      obtain ⟨htake, hne⟩ := checkBlock_ok hcheck
      rw [htake]
      dsimp only at h ⊢
      rw [if_neg hne]
      cases hpreds : predEntries bbs entry.1 with
      | error e =>
        rw [hpreds] at h
        cases h
      | ok _ =>
        rw [hpreds] at h
        obtain ⟨hall, hleft⟩ := ih h
        refine ⟨hall, fun _ => ?_⟩
        cases entries with
        | nil =>
          obtain rfl := Except.ok.inj h
          exact hne
        | cons entry' entries => exact hleft (List.cons_ne_nil _ _)

theorem visitAll_error {instructions : List Str} {sourceAvailable : Bool} {bbs : Blocks}
    {entries : List Entry} {s : Search} {result : Except PyErr Search}
    (h : Worklist.visitAll (visitBlock instructions sourceAvailable bbs) entries s =
      .error result) :
    takeBlocks instructions bbs entries s.sbidsStalled = result.map fun _ => [] := by
  induction entries generalizing s with
  | nil => cases h
  | cons entry entries ih =>
    rw [Worklist.visitAll, visitBlock] at h
    rw [takeBlocks]
    cases hcheck : checkBlock instructions sourceAvailable entry s with
    | error result' =>
      rw [hcheck] at h
      obtain rfl := Except.error.inj h
      rw [checkBlock_error hcheck]
      cases result' with
      | error e => rfl
      | ok t => exact if_pos rfl
    | ok t =>
      rw [hcheck] at h
      obtain ⟨htake, hne⟩ := checkBlock_ok hcheck
      rw [htake]
      dsimp only at h ⊢
      rw [if_neg hne]
      cases hpreds : predEntries bbs entry.1 with
      | error e =>
        rw [hpreds] at h
        obtain rfl := Except.error.inj h
        rfl
      | ok _ =>
        rw [hpreds] at h
        exact ih h

theorem exhausted_map (result : Except PyErr Search) :
    Exhausted (result.map fun _ => ([] : List Str)) := by
  cases result with
  | error e => exact exhausted_error e
  | ok t => exact exhausted_nil

/-! ## The levels of the graph -/

theorem keys_levels {bbs : Blocks} (hclosed : Closed bbs) {entries : List Entry}
    (hmem : ∀ entry ∈ entries, entry.1 ∈ bbs.map Prod.fst) (k : Nat) :
    ∀ entry ∈ Worklist.levels (behind bbs) entries k, entry.1 ∈ bbs.map Prod.fst := by
  induction k generalizing entries with
  | zero =>
    intro entry hentry
    cases hentry
  | succ k ih =>
    intro entry hentry
    rcases List.mem_append.mp hentry with hentry | hentry
    · exact hmem entry hentry
    · refine ih (fun e he => ?_) entry hentry
      obtain ⟨from', -, he⟩ := List.mem_flatMap.mp he
      obtain ⟨b, hb, rfl⟩ := List.mem_map.mp he
      rw [entryOf_fst]
      exact hclosed.mem_preds hb

theorem level_entries (bbs : Blocks) (ids : List Str) (k : Nat) :
    Worklist.level (behind bbs) (ids.map (entryOf bbs)) k =
      (Worklist.level (predsOf bbs) ids k).map (entryOf bbs) := by
  induction k generalizing ids with
  | zero => rfl
  | succ k ih =>
    have hnext : (ids.map (entryOf bbs)).flatMap (behind bbs) =
        (ids.flatMap (predsOf bbs)).map (entryOf bbs) := by
      rw [List.flatMap_map, List.map_flatMap]
      congr 1
      funext b
      rw [behind, entryOf_fst]
    rw [Worklist.level, hnext, ih]
    rfl

theorem levels_end_iff_noLoop {bbs : Blocks} (hclosed : Closed bbs) (entry : Entry) :
    (∃ k, Worklist.level (behind bbs) [entry] k = []) ↔ NoLoopBehind bbs entry.1 := by
  have hsucc (k : Nat) : Worklist.level (behind bbs) [entry] (k + 1) =
      (Worklist.level (predsOf bbs) [entry.1] (k + 1)).map (entryOf bbs) := by
    rw [Worklist.level, Worklist.level, List.flatMap_singleton, List.flatMap_singleton, behind,
      level_entries]
  rw [NoLoopBehind, ← Worklist.levels_end_iff (hclosed.finite_reachable entry.1)]
  constructor
  · rintro ⟨k, hk⟩
    cases k with
    | zero => cases hk
    | succ k => exact ⟨k + 1, List.map_eq_nil_iff.mp ((hsucc k).symm.trans hk)⟩
  · rintro ⟨k, hk⟩
    cases k with
    | zero => cases hk
    | succ k => exact ⟨k + 1, by rw [hsucc, hk]; rfl⟩

/-! ## The end of the search -/

/-- The lines of the blocks behind an entry by fewer than `k` steps, in the order of the
search. -/
def searchedLines (instructions : List Str) (bbs : Blocks) (entry : Entry) (k : Nat) : List Str :=
  (Worklist.levels (behind bbs) [entry] k).flatMap (entryLines instructions)

/-- Reading the lines behind an entry far enough leaves no token. -/
def UsedUp (instructions : List Str) (bbs : Blocks) (entry : Entry) (sbids : List Str) : Prop :=
  ∃ k, Exhausted (takeAll (searchedLines instructions bbs entry k) sbids)

theorem usedUp_iff_stops (instructions : List Str) (sourceAvailable : Bool) {bbs : Blocks}
    (hclosed : Closed bbs) {entry : Entry} (hentry : entry.1 ∈ bbs.map Prod.fst) (s : Search) :
    UsedUp instructions bbs entry s.sbidsStalled ↔ ∃ k, ∃ result,
      Worklist.visitAll (visitBlock instructions sourceAvailable bbs)
        (Worklist.levels (behind bbs) [entry] k) s = .error result := by
  have hblocks (k : Nat) : takeBlocks instructions bbs (Worklist.levels (behind bbs) [entry] k)
      s.sbidsStalled = takeAll (searchedLines instructions bbs entry k) s.sbidsStalled :=
    takeBlocks_closed hclosed instructions
      (keys_levels hclosed (List.forall_mem_singleton.mpr hentry) k) _
  constructor
  · intro ⟨k, hk⟩
    refine ⟨k + 1, ?_⟩
    have hmore : Exhausted (takeAll (searchedLines instructions bbs entry (k + 1)) s.sbidsStalled) := by
      rw [searchedLines, Worklist.levels_succ, List.flatMap_append]
      exact hk.append _
    cases hvisit : Worklist.visitAll (visitBlock instructions sourceAvailable bbs)
        (Worklist.levels (behind bbs) [entry] (k + 1)) s with
    | error result => exact ⟨result, rfl⟩
    | ok s' =>
      obtain ⟨hall, hne⟩ := visitAll_ok hvisit
      rw [hblocks] at hall
      exact absurd (hmore _ hall) (hne (List.cons_ne_nil _ _))
  · intro ⟨k, result, h⟩
    refine ⟨k, ?_⟩
    rw [← hblocks, visitAll_error h]
    exact exhausted_map result

theorem searchLoop_ends_iff (instructions : List Str) (sourceAvailable : Bool) {bbs : Blocks}
    (hclosed : Closed bbs) {entry : Entry} (hentry : entry.1 ∈ bbs.map Prod.fst) (s : Search) :
    (∃ fuel, (searchLoop instructions sourceAvailable bbs fuel [entry] 0 s).isSome) ↔
      NoLoopBehind bbs entry.1 ∨ UsedUp instructions bbs entry s.sbidsStalled := by
  simp only [searchLoop_eq_run, List.drop_zero, Option.isSome_map, Worklist.run_ends_iff]
  rw [exists_or, levels_end_iff_noLoop hclosed, ← usedUp_iff_stops instructions _ hclosed hentry]

theorem searchedLines_mono {instructions : List Str} {bbs : Blocks} {entry : Entry} {k k' : Nat}
    (hle : k ≤ k') {ins : Str} (h : ins ∈ searchedLines instructions bbs entry k) :
    ins ∈ searchedLines instructions bbs entry k' := by
  obtain ⟨e, he, hins⟩ := List.mem_flatMap.mp h
  obtain ⟨i, hi, he⟩ := Worklist.mem_levels.mp he
  exact List.mem_flatMap.mpr ⟨e, Worklist.mem_levels.mpr ⟨i, by omega, he⟩, hins⟩

theorem searchedLines_subset {instructions : List Str} {bbs : Blocks} {entry : Entry} {k : Nat}
    {ins : Str} (h : ins ∈ searchedLines instructions bbs entry k) : ins ∈ instructions := by
  obtain ⟨e, -, hins⟩ := List.mem_flatMap.mp h
  exact List.mem_of_mem_take (List.mem_of_mem_drop (List.mem_reverse.mp hins))

/-- Where no searched line resolves more than one token, the tokens are used up exactly if
each of them is set by a searched line. -/
theorem usedUp_iff_all_set {instructions : List Str} {bbs : Blocks} {entry : Entry} {sbids : List Str}
    (honce : ∀ k, ∀ ins ∈ searchedLines instructions bbs entry k, SetsOnce ins sbids) :
    UsedUp instructions bbs entry sbids ↔
      ∀ sbid ∈ sbids, ∃ k, ∃ ins ∈ searchedLines instructions bbs entry k, Sets ins sbid := by
  constructor
  · intro ⟨k, hk⟩ sbid hsbid
    have hnil := hk _ (takeAll_once (honce k))
    have hset := List.filter_eq_nil_iff.mp hnil sbid hsbid
    simp only [decide_eq_true_eq, not_forall, not_not] at hset
    obtain ⟨ins, hins, hset⟩ := hset
    exact ⟨k, ins, hins, hset⟩
  · intro h
    have hcommon (tokens : List Str) (hsub : ∀ sbid ∈ tokens, sbid ∈ sbids) : ∃ k, ∀ sbid ∈ tokens,
        ∃ ins ∈ searchedLines instructions bbs entry k, Sets ins sbid := by
      induction tokens with
      | nil => exact ⟨0, fun sbid hsbid => nomatch hsbid⟩
      | cons token tokens ih =>
        obtain ⟨k, ins, hins, hset⟩ := h token (hsub token List.mem_cons_self)
        obtain ⟨k', hk'⟩ := ih fun t ht => hsub t (List.mem_cons_of_mem token ht)
        refine ⟨max k k', fun sbid hsbid => ?_⟩
        rcases List.mem_cons.mp hsbid with rfl | hsbid
        · exact ⟨ins, searchedLines_mono (le_max_left k k') hins, hset⟩
        · obtain ⟨ins', hins', hset'⟩ := hk' sbid hsbid
          exact ⟨ins', searchedLines_mono (le_max_right k k') hins', hset'⟩
    obtain ⟨k, hk⟩ := hcommon sbids fun _ hsbid => hsbid
    refine ⟨k, ?_⟩
    rw [takeAll_once (honce k)]
    intro left hleft
    rw [← Except.ok.inj hleft, List.filter_eq_nil_iff]
    intro sbid hsbid hunset
    obtain ⟨ins, hins, hset⟩ := hk sbid hsbid
    exact of_decide_eq_true hunset ins hins hset

/-- The search for the instruction at a line comes to an end, with a result or an exception. -/
def Ends (instructions : List Str) (addr : Nat) (ins : Str) : Prop :=
  ∃ fuel, (searchStall fuel instructions addr ins).isSome

theorem ends_iff {instructions : List Str} {bbs : Blocks} (hcfg : constructCFG instructions = .ok bbs)
    (hclosed : Closed bbs) (addr : Nat) (ins : Str) :
    Ends instructions addr ins ↔ ∀ bid bb, findBB bbs addr = some (bid, bb) →
      NoLoopBehind bbs bid ∨
        UsedUp instructions bbs (bid, bb.head, addr - 1) (stalledSbids ins) := by
  simp only [Ends, searchStall, hcfg]
  cases hfind : findBB bbs addr with
  | none => simp
  | some e =>
    obtain ⟨bid, bb⟩ := e
    have hmem : bid ∈ bbs.map Prod.fst :=
      List.mem_map_of_mem (f := Prod.fst) (List.mem_of_find?_eq_some hfind)
    have hloop := @searchLoop_ends_iff instructions (instructions.any (comment (chars "Line"))) bbs
      hclosed (bid, bb.head, (addr : Int) - 1) hmem (Search.start addr ins)
    constructor
    · intro hends bid' bb' heq
      cases heq
      exact hloop.mp hends
    · intro h
      exact hloop.mpr (h bid bb rfl)

/-- In a listing with a closed graph the search ends exactly if no loop lies behind the block
of the stalled instruction or the searched lines use up its tokens; where no searched line
resolves more than one token, that means that each token is set by a searched line. -/
theorem search_ends_iff (instructions : List Str) (bbs : Blocks)
    (hcfg : constructCFG instructions = .ok bbs) (hclosed : Closed bbs) (addr : Nat) (ins : Str) :
    (Ends instructions addr ins ↔ ∀ bid bb, findBB bbs addr = some (bid, bb) →
      NoLoopBehind bbs bid ∨
        UsedUp instructions bbs (bid, bb.head, addr - 1) (stalledSbids ins)) ∧
    ∀ entry sbids, (∀ k, ∀ ins ∈ searchedLines instructions bbs entry k, SetsOnce ins sbids) →
      (UsedUp instructions bbs entry sbids ↔
        ∀ sbid ∈ sbids, ∃ k, ∃ ins ∈ searchedLines instructions bbs entry k, Sets ins sbid) :=
  ⟨ends_iff hcfg hclosed addr ins, fun _ _ honce => usedUp_iff_all_set honce⟩

/-- An instruction that waits for the token `$1`. -/
def waiting : Str := chars "/* [00000000] */ mov (8) r1 r2 \x7b$1.dst\x7d // a"

def straightListing : List Str := [chars "// B1: Preds:\x7b\x7d, Succs:\x7bB2\x7d",
  chars "// B2: Preds:\x7bB1\x7d, Succs:\x7b\x7d", waiting]

def straightBlocks : Blocks := [(chars "B1", ⟨chars "B1", 0, 0, [], [chars "B2"]⟩),
  (chars "B2", ⟨chars "B2", 1, 2, [chars "B1"], []⟩)]

theorem search_ends_straight : Ends straightListing 2 waiting := by
  have hcfg : constructCFG straightListing = .ok straightBlocks := by
    unfold straightListing straightBlocks waiting
    repeat rw [chars_ofList]
    decide +kernel
  have hclosed : Closed straightBlocks := by
    unfold Closed straightBlocks
    repeat rw [chars_ofList]
    decide +kernel
  have hlevels : ∀ e ∈ straightBlocks,
      Worklist.level (predsOf straightBlocks) [e.1] 2 = [] := by
    unfold straightBlocks
    repeat rw [chars_ofList]
    decide +kernel
  refine ((search_ends_iff straightListing straightBlocks hcfg hclosed 2 waiting).1).mpr ?_
  intro bid bb hfind
  refine Or.inl ((Worklist.levels_end_iff (hclosed.finite_reachable bid)).mp ⟨2, ?_⟩)
  exact hlevels (bid, bb) (List.mem_of_find?_eq_some hfind)

def loopListing : List Str := [chars "// B1: Preds:\x7bB1\x7d, Succs:\x7bB1\x7d", waiting]

def loopBlocks : Blocks := [(chars "B1", ⟨chars "B1", 0, 1, [chars "B1"], [chars "B1"]⟩)]

/-- The block is its own predecessor and sets no token, so it is checked for ever. -/
theorem search_runs_forever : ∃ instructions bbs addr ins,
    constructCFG instructions = .ok bbs ∧ Closed bbs ∧ instructions[addr]? = some ins ∧
      ¬ Ends instructions addr ins := by
  have hcfg : constructCFG loopListing = .ok loopBlocks := by
    unfold loopListing loopBlocks waiting
    repeat rw [chars_ofList]
    decide +kernel
  have hclosed : Closed loopBlocks := by
    unfold Closed loopBlocks
    rw [chars_ofList]
    decide
  refine ⟨loopListing, loopBlocks, 1, waiting, hcfg, hclosed, rfl, fun hends => ?_⟩
  have hfind : findBB loopBlocks (1 : Nat) = some (chars "B1",
      ⟨chars "B1", 0, 1, [chars "B1"], [chars "B1"]⟩) := by decide +kernel
  rcases (ends_iff hcfg hclosed 1 waiting).mp hends _ _ hfind with hacyclic | hused
  · have hstep : Worklist.Step (predsOf loopBlocks) (chars "B1") (chars "B1") := by
      have hmem : chars "B1" ∈ predsOf loopBlocks (chars "B1") := by simp [predsOf, loopBlocks]
      exact hmem
    exact hacyclic (chars "B1") ⟨_, List.mem_singleton_self _, Relation.ReflTransGen.refl⟩
      (Relation.TransGen.single hstep)
  · obtain ⟨k, hk⟩ := hused
    have hunset : ∀ ins ∈ loopListing, ∀ sbid ∈ stalledSbids waiting, ¬ Sets ins sbid := by
      unfold loopListing waiting
      repeat rw [chars_ofList]
      decide +kernel
    have htokens : stalledSbids waiting ≠ [] := by
      unfold waiting
      rw [chars_ofList]
      decide +kernel
    exact htokens (hk _ (takeAll_unset fun ins hins => hunset ins (searchedLines_subset hins)))

end Unitrace.Metrics.SearchEnds
