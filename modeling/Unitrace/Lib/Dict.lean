import Mathlib.Data.List.Basic

/-!
# Insertion-ordered dictionaries

A dictionary is the list of its entries in insertion order: setting a key that
is present keeps its place, a new key goes to the end. Reading is
`List.lookup`.
-/
namespace Unitrace.Lib.Dict

variable {κ ν : Type*} [BEq κ]

def set : List (κ × ν) → κ → ν → List (κ × ν)
  | [], k, v => [(k, v)]
  | (k', v') :: d, k, v => if k' == k then (k, v) :: d else (k', v') :: set d k v

theorem mem_set {d : List (κ × ν)} {k : κ} {v : ν} {e : κ × ν} (h : e ∈ set d k v) :
    e = (k, v) ∨ e ∈ d := by
  induction d with
  | nil => exact Or.inl (List.mem_singleton.mp h)
  | cons e' d ih =>
    obtain ⟨l, w⟩ := e'
    rw [set] at h
    split at h
    · rcases List.mem_cons.mp h with h | h
      · exact Or.inl h
      · exact Or.inr (List.mem_cons_of_mem _ h)
    · rcases List.mem_cons.mp h with rfl | h
      · exact Or.inr List.mem_cons_self
      · exact (ih h).imp id (List.mem_cons_of_mem _)

variable [LawfulBEq κ]

@[simp] theorem lookup_set_self (d : List (κ × ν)) (k : κ) (v : ν) :
    List.lookup k (set d k v) = some v := by
  induction d with
  | nil => simp [set]
  | cons e d ih =>
    obtain ⟨l, w⟩ := e
    by_cases hl : l = k
    · simp [set, hl]
    · have hk : (k == l) = false := beq_false_of_ne (Ne.symm hl)
      simp [set, beq_false_of_ne hl, List.lookup_cons, hk, ih]

theorem lookup_set_ne (d : List (κ × ν)) {k k' : κ} (h : k' ≠ k) (v : ν) :
    List.lookup k' (set d k v) = List.lookup k' d := by
  induction d with
  | nil => simp [set, List.lookup_cons, beq_false_of_ne h]
  | cons e d ih =>
    obtain ⟨l, w⟩ := e
    by_cases hl : l = k
    · subst hl
      simp [set, List.lookup_cons, beq_false_of_ne h]
    · simp [set, beq_false_of_ne hl, List.lookup_cons, ih]

theorem mem_of_lookup {d : List (κ × ν)} {k : κ} {v : ν} (h : List.lookup k d = some v) :
    (k, v) ∈ d := by
  obtain ⟨l, r, rfl, -⟩ := List.lookup_eq_some_iff.mp h
  simp

theorem mem_keys_of_lookup {d : List (κ × ν)} {k : κ} {v : ν} (h : List.lookup k d = some v) :
    k ∈ d.map Prod.fst :=
  List.mem_map_of_mem (f := Prod.fst) (mem_of_lookup h)

theorem mem_keys_set {d : List (κ × ν)} {k k' : κ} {v : ν} :
    k' ∈ (set d k v).map Prod.fst ↔ k' = k ∨ k' ∈ d.map Prod.fst := by
  induction d with
  | nil => simp [set]
  | cons e d ih =>
    obtain ⟨l, w⟩ := e
    by_cases hl : l = k
    · subst hl
      rw [set, if_pos (beq_self_eq_true l)]
      simp
    · rw [set, if_neg (by simpa using hl), List.map_cons, List.mem_cons, ih, List.map_cons,
        List.mem_cons]
      exact or_left_comm

theorem nodup_set {d : List (κ × ν)} (h : (d.map Prod.fst).Nodup) (k : κ) (v : ν) :
    ((set d k v).map Prod.fst).Nodup := by
  induction d with
  | nil => simp [set]
  | cons e d ih =>
    obtain ⟨l, w⟩ := e
    obtain ⟨hnew, hd⟩ := List.nodup_cons.mp h
    by_cases hl : l = k
    · subst hl
      rwa [set, if_pos (beq_self_eq_true l)]
    · rw [set, if_neg (by simpa using hl)]
      refine List.nodup_cons.mpr ⟨fun hmem => ?_, ih hd⟩
      rcases mem_keys_set.mp hmem with rfl | hmem
      · exact hl rfl
      · exact hnew hmem

/-! ## Several entries -/

/-- The dictionary after setting the entries of the list in turn. -/
def setAll (d : List (κ × ν)) (entries : List (κ × ν)) : List (κ × ν) :=
  entries.foldl (fun d e => set d e.1 e.2) d

/-- The last entry of a key counts. -/
theorem lookup_setAll (d entries : List (κ × ν)) (k : κ) :
    List.lookup k (setAll d entries) =
      ((entries.filter fun e => e.1 == k).getLast?.map Prod.snd).or (List.lookup k d) := by
  induction entries generalizing d with
  | nil => rfl
  | cons e entries ih =>
    rw [setAll, List.foldl_cons, ← setAll, ih]
    by_cases hk : e.1 = k
    · subst hk
      cases hlast : (entries.filter fun e' => e'.1 == e.1).getLast? with
      | none => simp [List.getLast?_eq_none_iff.mp hlast]
      | some last => simp [List.getLast?_cons, hlast]
    · rw [lookup_set_ne d (Ne.symm hk), List.filter_cons_of_neg (by simpa using hk)]

omit [LawfulBEq κ] in
theorem mem_setAll {d entries : List (κ × ν)} {e : κ × ν} (h : e ∈ setAll d entries) :
    e ∈ d ∨ e ∈ entries := by
  induction entries generalizing d with
  | nil => exact Or.inl h
  | cons e' entries ih =>
    rcases ih h with h | h
    · rcases mem_set h with rfl | h
      · exact Or.inr List.mem_cons_self
      · exact Or.inl h
    · exact Or.inr (List.mem_cons_of_mem _ h)

theorem mem_keys_setAll {d entries : List (κ × ν)} {k : κ} :
    k ∈ (setAll d entries).map Prod.fst ↔ k ∈ d.map Prod.fst ∨ k ∈ entries.map Prod.fst := by
  induction entries generalizing d with
  | nil => simp [setAll]
  | cons e entries ih =>
    rw [setAll, List.foldl_cons, ← setAll, ih, mem_keys_set, List.map_cons, List.mem_cons,
      or_comm (a := k = e.1), or_assoc]

theorem nodup_setAll {d : List (κ × ν)} (h : (d.map Prod.fst).Nodup) (entries : List (κ × ν)) :
    ((setAll d entries).map Prod.fst).Nodup := by
  induction entries generalizing d with
  | nil => exact h
  | cons e entries ih => exact ih (nodup_set h e.1 e.2)

theorem set_new {d : List (κ × ν)} {k : κ} (h : k ∉ d.map Prod.fst) (v : ν) :
    set d k v = d ++ [(k, v)] := by
  induction d with
  | nil => rfl
  | cons e d ih =>
    rw [List.map_cons, List.mem_cons, not_or] at h
    rw [set, if_neg (by simpa using Ne.symm h.1), ih h.2, List.cons_append]

/-- Entries with different keys stay in their order. -/
theorem setAll_append {d entries : List (κ × ν)} (h : ((d ++ entries).map Prod.fst).Nodup) :
    setAll d entries = d ++ entries := by
  induction entries generalizing d with
  | nil => exact (List.append_nil d).symm
  | cons e entries ih =>
    have hnew : e.1 ∉ d.map Prod.fst := by
      rw [List.map_append, List.map_cons] at h
      exact fun hmem => (List.nodup_append.mp h).2.2 e.1 hmem e.1 List.mem_cons_self rfl
    have hsplit : d ++ e :: entries = (d ++ [(e.1, e.2)]) ++ entries := by simp
    rw [hsplit] at h
    rw [setAll, List.foldl_cons, ← setAll, set_new hnew, ih h, hsplit]

theorem setAll_nodup {entries : List (κ × ν)} (h : (entries.map Prod.fst).Nodup) :
    setAll [] entries = entries :=
  setAll_append h

/-- A key that is present has one place, where its value is set, and erasing the key takes
the entry out. -/
theorem exists_place {d : List (κ × ν)} (hnd : (d.map Prod.fst).Nodup) {k : κ}
    (hk : k ∈ d.map Prod.fst) :
    ∃ before old after, d = before ++ (k, old) :: after ∧
      (∀ v, set d k v = before ++ (k, v) :: after) ∧
      (d.filter fun e => !e.1 == k) = before ++ after := by
  induction d with
  | nil => cases hk
  | cons e d ih =>
    obtain ⟨l, w⟩ := e
    obtain ⟨hnew, hnd⟩ := List.nodup_cons.mp hnd
    by_cases hl : l = k
    · subst hl
      have hrest : (d.filter fun e => !e.1 == l) = d := by
        refine List.filter_eq_self.mpr fun e he => ?_
        have hne : e.1 ≠ l := fun hel => hnew (List.mem_map.mpr ⟨e, he, hel⟩)
        simpa using hne
      refine ⟨[], w, d, rfl, fun v => by simp [set], ?_⟩
      rw [List.filter_cons_of_neg (by simp), hrest, List.nil_append]
    · have hmem : k ∈ d.map Prod.fst := (List.mem_cons.mp hk).resolve_left (Ne.symm hl)
      obtain ⟨before, old, after, hd, hset, herase⟩ := ih hnd hmem
      refine ⟨(l, w) :: before, old, after, by rw [hd, List.cons_append], fun v => ?_, ?_⟩
      · rw [set, if_neg (by simpa using hl), hset, List.cons_append]
      · rw [List.filter_cons_of_pos (by simpa using hl), herase, List.cons_append]

theorem filter_key {entries : List (κ × ν)} (hnd : (entries.map Prod.fst).Nodup) {k : κ}
    {v : ν} (h : (k, v) ∈ entries) : (entries.filter fun e => e.1 == k) = [(k, v)] := by
  induction entries with
  | nil => cases h
  | cons e entries ih =>
    obtain ⟨hnew, hnd⟩ := List.nodup_cons.mp hnd
    rcases List.mem_cons.mp h with he | h
    · obtain rfl := he
      have hrest : (entries.filter fun e => e.1 == k) = [] := by
        refine List.filter_eq_nil_iff.mpr fun e he hek => hnew ?_
        exact List.mem_map.mpr ⟨e, he, by simpa using hek⟩
      rw [List.filter_cons_of_pos (by simp), hrest]
    · have hne : e.1 ≠ k := fun he => hnew (he ▸ List.mem_map_of_mem h)
      rw [List.filter_cons_of_neg (by simpa using hne), ih hnd h]

theorem lookup_of_mem {d : List (κ × ν)} (hnd : (d.map Prod.fst).Nodup) {e : κ × ν} (h : e ∈ d) :
    List.lookup e.1 d = some e.2 := by
  induction d with
  | nil => cases h
  | cons e' d ih =>
    obtain ⟨hnew, hnd⟩ := List.nodup_cons.mp hnd
    rcases List.mem_cons.mp h with rfl | h
    · exact List.lookup_cons_self
    · have hne : e.1 ≠ e'.1 := fun he => hnew (he ▸ List.mem_map_of_mem h)
      rw [List.lookup_cons, beq_false_of_ne hne]
      exact ih hnd h

theorem lookup_setAll_of_nodup (d : List (κ × ν)) {entries : List (κ × ν)}
    (hnd : (entries.map Prod.fst).Nodup) {k : κ} {v : ν} (h : (k, v) ∈ entries) :
    List.lookup k (setAll d entries) = some v := by
  rw [lookup_setAll, filter_key hnd h]
  rfl

/-! ## Dictionaries of lists -/

/-- Adds a value to the list under a key, which is empty by default. -/
def append (d : List (κ × List ν)) (k : κ) (v : ν) : List (κ × List ν) :=
  set d k ((List.lookup k d).getD [] ++ [v])

def appendAll (d : List (κ × List ν)) (entries : List (κ × ν)) : List (κ × List ν) :=
  entries.foldl (fun d e => append d e.1 e.2) d

omit [LawfulBEq κ] in
theorem appendAll_append (d : List (κ × List ν)) (entries entries' : List (κ × ν)) :
    appendAll d (entries ++ entries') = appendAll (appendAll d entries) entries' :=
  List.foldl_append

/-- A key has all its values in order. -/
theorem lookup_appendAll (d : List (κ × List ν)) (entries : List (κ × ν)) (k : κ) :
    List.lookup k (appendAll d entries) =
      if (entries.filter fun e => e.1 == k) = [] then List.lookup k d
      else some ((List.lookup k d).getD [] ++ (entries.filter fun e => e.1 == k).map Prod.snd) := by
  induction entries generalizing d with
  | nil => rfl
  | cons e entries ih =>
    rw [appendAll, List.foldl_cons, ← appendAll, ih, append]
    by_cases hk : e.1 = k
    · subst hk
      rw [lookup_set_self, List.filter_cons_of_pos (by simp), if_neg (List.cons_ne_nil _ _)]
      split
      · rename_i hnil
        rw [hnil]
        rfl
      · simp
    · rw [lookup_set_ne d (Ne.symm hk), List.filter_cons_of_neg (by simpa using hk)]

theorem lookup_appendAll_of_nodup {entries : List (κ × ν)} (hnd : (entries.map Prod.fst).Nodup)
    {k : κ} {v : ν} (h : (k, v) ∈ entries) :
    List.lookup k (appendAll [] entries) = some [v] := by
  rw [lookup_appendAll, filter_key hnd h]
  rfl

theorem mem_keys_appendAll {d : List (κ × List ν)} {entries : List (κ × ν)} {k : κ} :
    k ∈ (appendAll d entries).map Prod.fst ↔ k ∈ d.map Prod.fst ∨ k ∈ entries.map Prod.fst := by
  induction entries generalizing d with
  | nil => simp [appendAll]
  | cons e entries ih =>
    rw [appendAll, List.foldl_cons, ← appendAll, ih, append, mem_keys_set, List.map_cons,
      List.mem_cons, or_comm (a := k = e.1), or_assoc]

theorem nodup_appendAll {d : List (κ × List ν)} (h : (d.map Prod.fst).Nodup) (entries : List (κ × ν)) :
    ((appendAll d entries).map Prod.fst).Nodup := by
  induction entries generalizing d with
  | nil => exact h
  | cons e entries ih => exact ih (nodup_set h e.1 _)

/-- The values under all keys, each as often as it was added. -/
theorem flatMap_append_perm (d : List (κ × List ν)) (k : κ) (v : ν) :
    ((append d k v).flatMap Prod.snd).Perm (v :: d.flatMap Prod.snd) := by
  induction d with
  | nil => exact List.Perm.refl _
  | cons e d ih =>
    obtain ⟨l, vs⟩ := e
    by_cases hl : l = k
    · subst hl
      have happend : append ((l, vs) :: d) l v = (l, vs ++ [v]) :: d := by simp [append, set]
      rw [happend, List.flatMap_cons, List.append_assoc]
      exact List.perm_middle
    · have hk : (k == l) = false := beq_false_of_ne (Ne.symm hl)
      have happend : append ((l, vs) :: d) k v = (l, vs) :: append d k v := by
        simp [append, set, hl, List.lookup_cons, hk]
      rw [happend, List.flatMap_cons, List.flatMap_cons]
      exact (ih.append_left vs).trans List.perm_middle

theorem flatMap_appendAll_perm (d : List (κ × List ν)) (entries : List (κ × ν)) :
    ((appendAll d entries).flatMap Prod.snd).Perm (d.flatMap Prod.snd ++ entries.map Prod.snd) := by
  induction entries generalizing d with
  | nil => simp [appendAll]
  | cons e entries ih =>
    rw [appendAll, List.foldl_cons, ← appendAll, List.map_cons]
    exact (ih _).trans (((flatMap_append_perm d e.1 e.2).append_right _).trans
      List.perm_middle.symm)

/-- Every value under its key, each as often as it was added. -/
theorem entries_append_perm (d : List (κ × List ν)) (k : κ) (v : ν) :
    ((append d k v).flatMap fun e => e.2.map (Prod.mk e.1)).Perm
      ((k, v) :: d.flatMap fun e => e.2.map (Prod.mk e.1)) := by
  induction d with
  | nil => exact List.Perm.refl _
  | cons e d ih =>
    obtain ⟨l, vs⟩ := e
    by_cases hl : l = k
    · subst hl
      have happend : append ((l, vs) :: d) l v = (l, vs ++ [v]) :: d := by simp [append, set]
      rw [happend, List.flatMap_cons, List.map_append, List.append_assoc]
      exact List.perm_middle
    · have hk : (k == l) = false := beq_false_of_ne (Ne.symm hl)
      have happend : append ((l, vs) :: d) k v = (l, vs) :: append d k v := by
        simp [append, set, hl, List.lookup_cons, hk]
      rw [happend, List.flatMap_cons, List.flatMap_cons]
      exact (ih.append_left _).trans List.perm_middle

theorem entries_appendAll_perm (d : List (κ × List ν)) (entries : List (κ × ν)) :
    ((appendAll d entries).flatMap fun e => e.2.map (Prod.mk e.1)).Perm
      ((d.flatMap fun e => e.2.map (Prod.mk e.1)) ++ entries) := by
  induction entries generalizing d with
  | nil => simp [appendAll]
  | cons e entries ih =>
    rw [appendAll, List.foldl_cons, ← appendAll]
    exact (ih _).trans (((entries_append_perm d e.1 e.2).append_right _).trans
      List.perm_middle.symm)

/-- The lists are read off the entries, key by key. -/
theorem appendAll_eq_map (entries : List (κ × ν)) :
    appendAll [] entries = ((appendAll [] entries).map Prod.fst).map fun k =>
      (k, (entries.filter fun e => e.1 == k).map Prod.snd) := by
  have hnodup : (([] : List (κ × List ν)).map Prod.fst).Nodup := List.nodup_nil
  rw [List.map_map]
  refine (List.map_id _).symm.trans (List.map_congr_left fun e he => ?_)
  have hlookup := lookup_of_mem (nodup_appendAll hnodup entries) he
  rw [lookup_appendAll] at hlookup
  split at hlookup
  · cases hlookup
  · exact Prod.ext rfl (Option.some.inj hlookup).symm

theorem keys_appendAll_perm {entries entries' : List (κ × ν)} (h : entries.Perm entries') :
    ((appendAll [] entries).map Prod.fst).Perm ((appendAll [] entries').map Prod.fst) := by
  have hnodup : (([] : List (κ × List ν)).map Prod.fst).Nodup := List.nodup_nil
  refine (List.perm_ext_iff_of_nodup (nodup_appendAll hnodup _) (nodup_appendAll hnodup _)).mpr
    fun k => ?_
  rw [mem_keys_appendAll, mem_keys_appendAll, (h.map Prod.fst).mem_iff]

theorem mem_appendAll_ne_nil {entries : List (κ × ν)} {e : κ × List ν}
    (h : e ∈ appendAll [] entries) : e.2 ≠ [] := by
  have hnodup : (([] : List (κ × List ν)).map Prod.fst).Nodup := List.nodup_nil
  have hlookup := lookup_of_mem (nodup_appendAll hnodup entries) h
  rw [lookup_appendAll] at hlookup
  split at hlookup
  · cases hlookup
  · rename_i hne
    rw [← Option.some.inj hlookup]
    simpa using hne

end Unitrace.Lib.Dict
