import Mathlib.Data.List.Infix
import Unitrace.Summary.SearchTree

/-!
# What the search tree finds

The search gives a name the category that the rules themselves give it, if it gives
one at all: it fails on a name that is used up at an inner node of the tree without a
rule for exactly that name.
-/
namespace Unitrace.Summary.Categories

open Unitrace.Lib Unitrace.Lib.Text Unitrace.Lib.PyStr Unitrace.Summary.SearchTree

/-! ## The categories by the rules -/

/-- Of the rules with the same tag the one listed last counts. -/
def kept (rules : List Rule) (tag : Str) : Option Rule :=
  (rules.filter fun rule => rule.tag = tag).getLast?

def exactCategory (rule : Rule) : Option Str := if rule.isExact then some rule.category else none

def prefixCategory (rule : Rule) : Option Str := if rule.isExact then none else some rule.category

def exactOf (rules : List Rule) (tag : Str) : Option Str := (kept rules tag).bind exactCategory

def prefixOf (rules : List Rule) (tag : Str) : Option Str := (kept rules tag).bind prefixCategory

/-- The category of the rule for exactly this name, or else of the longest prefix of the
name that has a rule. -/
def reference (rules : List Rule) (name : Str) : Option Str :=
  (exactOf rules name).or (name.inits.reverse.findSome? (prefixOf rules))

/-! ## The rules of a group -/

theorem mem_group {length : Nat} {rules : List Rule} {key : Str} {rule : Rule} :
    rule ∈ group length rules key ↔ ∃ r ∈ rules, r.tag.take length = key ∧
      r.tag.drop length ≠ [] ∧ rule = r.nextTag length := by
  constructor
  · intro h
    obtain ⟨r, hr, rfl⟩ := List.mem_map.mp h
    obtain ⟨hr, hkey⟩ := List.mem_filter.mp hr
    obtain ⟨hkey, hnext⟩ := of_decide_eq_true hkey
    exact ⟨r, hr, hkey, hnext, rfl⟩
  · intro ⟨r, hr, hkey, hnext, heq⟩
    exact List.mem_map.mpr ⟨r, List.mem_filter.mpr ⟨hr, decide_eq_true ⟨hkey, hnext⟩⟩, heq.symm⟩

theorem group_tags {length : Nat} {rules : List Rule} {key : Str} :
    ∀ rule ∈ group length rules key, rule.tag ≠ [] := by
  intro rule hrule
  obtain ⟨r, -, -, hnext, rfl⟩ := mem_group.mp hrule
  exact hnext

theorem append_eq_iff {length : Nat} {tag key rest : Str} (hkey : key.length = length) :
    tag = key ++ rest ↔ tag.take length = key ∧ tag.drop length = rest := by
  constructor
  · intro h
    subst h hkey
    exact ⟨List.take_left, List.drop_left⟩
  · intro ⟨hleft, hright⟩
    rw [← hleft, ← hright, List.take_append_drop]

/-- A tag of the group is kept as the tag behind the key is. -/
theorem kept_group {length : Nat} (rules : List Rule) {key rest : Str} (hkey : key.length = length)
    (hrest : rest ≠ []) :
    kept (group length rules key) rest = (kept rules (key ++ rest)).map (Rule.nextTag length) := by
  rw [kept, kept, group, List.filter_map, List.getLast?_map, List.filter_filter]
  congr 2
  apply List.filter_congr
  intro rule _
  rw [Function.comp_apply, ← Bool.decide_and, decide_eq_decide, append_eq_iff hkey]
  constructor
  · rintro ⟨hdrop, htake, -⟩
    exact ⟨htake, hdrop⟩
  · rintro ⟨htake, hdrop⟩
    exact ⟨hdrop, htake, fun hnil => hrest (hdrop.symm.trans hnil)⟩

theorem exactOf_group {length : Nat} (rules : List Rule) {key rest : Str} (hkey : key.length = length)
    (hrest : rest ≠ []) : exactOf (group length rules key) rest = exactOf rules (key ++ rest) := by
  rw [exactOf, exactOf, kept_group rules hkey hrest, Option.bind_map]
  rfl

theorem prefixOf_group {length : Nat} (rules : List Rule) {key rest : Str} (hkey : key.length = length)
    (hrest : rest ≠ []) : prefixOf (group length rules key) rest = prefixOf rules (key ++ rest) := by
  rw [prefixOf, prefixOf, kept_group rules hkey hrest, Option.bind_map]
  rfl

theorem kept_eq_none {rules : List Rule} {tag : Str} (h : ∀ rule ∈ rules, rule.tag ≠ tag) :
    kept rules tag = none := by
  rw [kept, List.filter_eq_nil_iff.mpr fun rule hrule => by simp [h rule hrule]]
  rfl

theorem kept_short {rules : List Rule} {tag : Str} (h : tag.length < keyLength rules) :
    kept rules tag = none := by
  apply kept_eq_none
  intro rule hrule heq
  have hle := keyLength_le hrule
  rw [heq] at hle
  omega

theorem endsAt_eq_kept {length : Nat} (rules : List Rule) {key : Str} (hkey : key.length = length) :
    endsAt length rules key = kept rules key := by
  rw [endsAt, kept]
  congr 1
  apply List.filter_congr
  intro rule _
  have hiff := @append_eq_iff length rule.tag key [] hkey
  rw [List.append_nil] at hiff
  exact decide_eq_decide.mpr hiff.symm

/-! ## The categories of a name behind a key -/

theorem findSome_short {rules : List Rule} {name : Str} (h : name.length < keyLength rules) :
    name.inits.reverse.findSome? (prefixOf rules) = none := by
  rw [List.findSome?_eq_none_iff]
  intro tag htag
  have hprefix : tag <+: name := (List.mem_inits tag name).mp (List.mem_reverse.mp htag)
  have hle := hprefix.length_le
  rw [prefixOf, kept_short (by omega)]
  rfl

theorem reference_short {rules : List Rule} {name : Str} (h : name.length < keyLength rules) :
    reference rules name = none := by
  rw [reference, findSome_short h, exactOf, kept_short h]
  rfl

theorem findSome_key {rules : List Rule} {key : Str} (hkey : key.length = keyLength rules)
    (hne : key ≠ []) : key.inits.reverse.findSome? (prefixOf rules) = prefixOf rules key := by
  obtain ⟨init, last, rfl⟩ := (List.eq_nil_or_concat' key).resolve_left hne
  have hlist : (init ++ [last]).inits.reverse = (init ++ [last]) :: init.inits.reverse := by
    simp [List.inits_append]
  rw [List.length_append, List.length_singleton] at hkey
  rw [hlist, List.findSome?_cons, findSome_short (by omega)]
  cases prefixOf rules (init ++ [last]) <;> rfl

theorem reference_key {rules : List Rule} {key : Str} (hkey : key.length = keyLength rules)
    (hne : key ≠ []) : reference rules key = (exactOf rules key).or (prefixOf rules key) := by
  rw [reference, findSome_key hkey hne]

theorem reference_append {rules : List Rule} {key rest : Str} (hkey : key.length = keyLength rules)
    (hne : key ≠ []) (hrest : rest ≠ []) :
    reference rules (key ++ rest) =
      (reference (group (keyLength rules) rules key) rest).or (prefixOf rules key) := by
  cases rest with
  | nil => exact absurd rfl hrest
  | cons c rest =>
    have hgroup (tag : Str) : prefixOf (group (keyLength rules) rules key) (c :: tag) =
        prefixOf rules (key ++ c :: tag) := prefixOf_group rules hkey (List.cons_ne_nil c tag)
    have hnil : prefixOf (group (keyLength rules) rules key) [] = none := by
      rw [prefixOf, kept_eq_none group_tags]
      rfl
    rw [reference, reference, exactOf_group rules hkey hrest, Option.or_assoc]
    congr 1
    rw [List.inits_append, List.inits_cons, List.reverse_append, List.findSome?_append,
      findSome_key hkey hne]
    rw [List.tail_cons, List.map_map, ← List.map_reverse, List.findSome?_map, List.reverse_cons,
      List.findSome?_append, ← List.map_reverse, List.findSome?_map]
    simp [hnil, Function.comp_def, hgroup]

/-! ## Searching a node -/

theorem searchFrom_cons (category own : Option Str) (length : Nat) (nodes : List (Str × Tree))
    {name : Str} (hname : name ≠ []) :
    searchFrom category (.node own (some length) (some nodes)) name =
      if name.length < length then .ok (own.or category)
      else
        match List.lookup (name.take length) nodes with
        | none => .ok (own.or category)
        | some nextTree => searchFrom (own.or category) nextTree (name.drop length) := by
  rw [searchFrom]
  simp only [ne_eq, hname, not_false_eq_true, if_true]
  split
  · rfl
  · split
    · rename_i hlookup
      rw [hlookup]
    · rename_i hlookup
      rw [hlookup]

/-- Behind a leaf the search goes on only if the node has the entries of a subtree too. -/
theorem searchFrom_leaf (category : Option Str) (rule : Rule) {name : Str} (hname : name ≠ []) :
    searchFrom category rule.leaf name = .ok ((prefixCategory rule).or category) := by
  unfold Rule.leaf prefixCategory
  cases rule.isExact with
  | true => simp [searchFrom, hname]
  | false => simp [searchFrom, hname]

theorem searchFrom_leaf_nil (category : Option Str) (rule : Rule) :
    searchFrom category rule.leaf [] = .ok (some rule.category) := by
  unfold Rule.leaf
  cases rule.isExact with
  | true => simp [searchFrom, Tree.category]
  | false => simp [searchFrom]

/-- The nodes of a tree whose keys have a positive length, none of them empty. -/
structure Branching (length : Nat) (nodes : List (Str × Tree)) : Prop where
  pos : 0 < length
  lookup_nil : List.lookup [] nodes = none

theorem searchFrom_merge {length : Nat} {nodes : List (Str × Tree)} (h : Branching length nodes)
    (category : Option Str) (rule : Option Rule) {name : Str} (hname : name ≠ []) :
    searchFrom category (Tree.merge (rule.map Rule.leaf) (.node none (some length) (some nodes))) name =
      searchFrom ((rule.bind prefixCategory).or category)
        (.node none (some length) (some nodes)) name := by
  cases rule with
  | none => rfl
  | some rule =>
    show searchFrom category (Tree.merge (some rule.leaf) _) name =
      searchFrom ((prefixCategory rule).or category) _ name
    unfold Rule.leaf prefixCategory
    cases rule.isExact with
    | true =>
      have hkey : name.take length ≠ [] := by
        have := h.pos
        simp only [ne_eq, List.take_eq_nil_iff, not_or]
        exact ⟨by omega, hname⟩
      show searchFrom category (.node none (some length) (some (Dict.set nodes [] _))) name =
        searchFrom category (.node none (some length) (some nodes)) name
      rw [searchFrom_cons _ _ _ _ hname, searchFrom_cons _ _ _ _ hname, Dict.lookup_set_ne nodes hkey]
    | false =>
      show searchFrom category (.node (some rule.category) (some length) (some nodes)) name =
        searchFrom (some rule.category) (.node none (some length) (some nodes)) name
      rw [searchFrom_cons _ _ _ _ hname, searchFrom_cons _ _ _ _ hname]
      rfl

/-- A name that is used up at such a node is found only if a rule for exactly it ends there. -/
theorem searchFrom_merge_nil {length : Nat} {nodes : List (Str × Tree)} (h : Branching length nodes)
    (category : Option Str) (rule : Option Rule) :
    searchFrom category (Tree.merge (rule.map Rule.leaf) (.node none (some length) (some nodes))) [] =
      match rule.bind exactCategory with
      | some found => .ok (some found)
      | none => .error .keyError := by
  cases rule with
  | none => simp [Tree.merge, searchFrom, h.lookup_nil]
  | some rule =>
    show searchFrom category (Tree.merge (some rule.leaf) _) [] = match exactCategory rule with
      | some found => .ok (some found)
      | none => .error .keyError
    unfold Rule.leaf exactCategory
    cases rule.isExact with
    | true =>
      show searchFrom category (.node none (some length) (some (Dict.set nodes [] _))) [] = _
      simp [searchFrom, Tree.category]
    | false =>
      show searchFrom category (.node (some rule.category) (some length) (some nodes)) [] = _
      simp [searchFrom, h.lookup_nil]

/-! ## Names that are used up inside the tree -/

/-- The name ends where the tree is cut: the shortest tag of the rules, or that of a group
below, is as long as what is left of the name. -/
inductive AtCut : List Rule → Str → Prop
  | here {rules : List Rule} {name : Str} (h : name.length = keyLength rules) : AtCut rules name
  | deeper {rules : List Rule} {name : Str} (h : keyLength rules < name.length)
      (hbelow : AtCut (group (keyLength rules) rules (name.take (keyLength rules)))
        (name.drop (keyLength rules))) : AtCut rules name

/-- A tag goes on behind the name. -/
def Continued (rules : List Rule) (name : Str) : Prop :=
  ∃ rule ∈ rules, ∃ more, more ≠ [] ∧ rule.tag = name ++ more

/-- The name is used up at an inner node, and no rule is for exactly it. -/
structure Stuck (rules : List Rule) (name : Str) : Prop where
  at_cut : AtCut rules name
  continued : Continued rules name
  not_exact : exactOf rules name = none

theorem atCut_append {rules : List Rule} {key rest : Str} (hkey : key.length = keyLength rules)
    (hrest : rest ≠ []) :
    AtCut rules (key ++ rest) ↔ AtCut (group (keyLength rules) rules key) rest := by
  have hpos : 0 < rest.length := List.length_pos_of_ne_nil hrest
  have htake : (key ++ rest).take (keyLength rules) = key := hkey ▸ List.take_left
  have hdrop : (key ++ rest).drop (keyLength rules) = rest := hkey ▸ List.drop_left
  constructor
  · intro h
    cases h with
    | here h =>
      rw [List.length_append] at h
      omega
    | deeper h hbelow => rwa [htake, hdrop] at hbelow
  · intro h
    refine AtCut.deeper ?_ (by rwa [htake, hdrop])
    rw [List.length_append]
    omega

theorem continued_key {rules : List Rule} {length : Nat} {key : Str} (hkey : key.length = length) :
    Continued rules key ↔ group length rules key ≠ [] := by
  constructor
  · intro ⟨rule, hrule, more, hmore, htag⟩
    obtain ⟨htake, hdrop⟩ := (append_eq_iff hkey).mp htag
    have hmem : rule.nextTag length ∈ group length rules key :=
      mem_group.mpr ⟨rule, hrule, htake, by rwa [hdrop], rfl⟩
    exact List.ne_nil_of_mem hmem
  · intro h
    obtain ⟨rule, hrule⟩ := List.exists_mem_of_ne_nil _ h
    obtain ⟨r, hr, htake, hdrop, -⟩ := mem_group.mp hrule
    exact ⟨r, hr, r.tag.drop length, hdrop, (append_eq_iff hkey).mpr ⟨htake, rfl⟩⟩

theorem continued_append {rules : List Rule} {length : Nat} {key rest : Str}
    (hkey : key.length = length) (hrest : rest ≠ []) :
    Continued rules (key ++ rest) ↔ Continued (group length rules key) rest := by
  constructor
  · intro ⟨rule, hrule, more, hmore, htag⟩
    rw [List.append_assoc] at htag
    obtain ⟨htake, hdrop⟩ := (append_eq_iff hkey).mp htag
    refine ⟨rule.nextTag length, mem_group.mpr ⟨rule, hrule, htake, ?_, rfl⟩, more, hmore, hdrop⟩
    rw [hdrop]
    exact List.append_ne_nil_of_left_ne_nil hrest more
  · intro ⟨rule, hrule, more, hmore, htag⟩
    obtain ⟨r, hr, htake, hdrop, rfl⟩ := mem_group.mp hrule
    refine ⟨r, hr, more, hmore, ?_⟩
    rw [List.append_assoc]
    exact (append_eq_iff hkey).mpr ⟨htake, htag⟩

theorem stuck_append {rules : List Rule} {key rest : Str} (hkey : key.length = keyLength rules)
    (hrest : rest ≠ []) :
    Stuck rules (key ++ rest) ↔ Stuck (group (keyLength rules) rules key) rest := by
  constructor
  · intro ⟨hcut, hcontinued, hexact⟩
    exact ⟨(atCut_append hkey hrest).mp hcut, (continued_append hkey hrest).mp hcontinued,
      (exactOf_group rules hkey hrest).trans hexact⟩
  · intro ⟨hcut, hcontinued, hexact⟩
    exact ⟨(atCut_append hkey hrest).mpr hcut, (continued_append hkey hrest).mpr hcontinued,
      (exactOf_group rules hkey hrest).symm.trans hexact⟩

theorem keyLength_pos {rules : List Rule} (hne : rules ≠ []) (htags : ∀ rule ∈ rules, rule.tag ≠ []) :
    0 < keyLength rules := by
  obtain ⟨rule, hrule, hlength⟩ := exists_keyLength hne
  rw [← hlength]
  exact List.length_pos_of_ne_nil (htags rule hrule)

/-! ## Searching the tree of the rules -/

/-- A tree that was built from rules with non-empty tags. -/
theorem built_nodes {rules : List Rule} (hne : rules ≠ []) (htags : ∀ rule ∈ rules, rule.tag ≠ [])
    {tree : Tree} (hbuild : buildSearchTree rules = .ok tree) :
    ∃ nodes, tree = .node none (some (keyLength rules)) (some nodes) ∧
      Branching (keyLength rules) nodes ∧ ∀ key, key.length = keyLength rules →
        (group (keyLength rules) rules key = [] →
          List.lookup key nodes = (kept rules key).map Rule.leaf) ∧
        (group (keyLength rules) rules key ≠ [] → ∃ subTree,
          buildSearchTree (group (keyLength rules) rules key) = .ok subTree ∧
          List.lookup key nodes = some (Tree.merge ((kept rules key).map Rule.leaf) subTree)) := by
  obtain ⟨nodes, rfl, hnodes⟩ := buildSearchTree_nodes hne hbuild
  have hpos := keyLength_pos hne htags
  have hno : ∀ rule ∈ rules, rule.tag.take (keyLength rules) ≠ [] := by
    intro rule hrule hnil
    rcases List.take_eq_nil_iff.mp hnil with h | h
    · omega
    · exact htags rule hrule h
  refine ⟨nodes, rfl, ⟨hpos, ?_⟩, ?_⟩
  · have hgroup : group (keyLength rules) rules [] = [] := by
      refine List.eq_nil_iff_forall_not_mem.mpr fun rule hrule => ?_
      obtain ⟨r, hr, hkey, -⟩ := mem_group.mp hrule
      exact hno r hr hkey
    have hends : endsAt (keyLength rules) rules [] = none := by
      rw [endsAt, List.getLast?_eq_none_iff, List.filter_eq_nil_iff]
      intro rule hrule hkey
      exact hno rule hrule (of_decide_eq_true hkey).1
    rw [(hnodes []).1 hgroup, hends]
    rfl
  · intro key hkey
    rw [← endsAt_eq_kept rules hkey]
    exact hnodes key

/-- A name whose first part leads to a node goes on from there. -/
theorem searchFrom_append {length : Nat} {nodes : List (Str × Tree)} (category : Option Str)
    {key rest : Str} (hkey : key.length = length) (hne : key ≠ []) :
    searchFrom category (.node none (some length) (some nodes)) (key ++ rest) =
      match List.lookup key nodes with
      | none => .ok category
      | some nextTree => searchFrom category nextTree rest := by
  have htake : (key ++ rest).take length = key := hkey ▸ List.take_left
  have hdrop : (key ++ rest).drop length = rest := hkey ▸ List.drop_left
  have hlength : ¬ (key ++ rest).length < length := by
    rw [List.length_append]
    omega
  rw [searchFrom_cons _ _ _ _ (List.append_ne_nil_of_left_ne_nil hne rest), if_neg hlength, htake,
    hdrop]
  rfl

theorem not_stuck_short {rules : List Rule} {name : Str} (h : name.length < keyLength rules) :
    ¬ Stuck rules name := by
  intro hstuck
  cases hstuck.at_cut with
  | here h' => omega
  | deeper h' _ => omega

theorem not_continued_of_group {rules : List Rule} {length : Nat} {key : Str}
    (hkey : key.length = length) (hgroup : group length rules key = []) (rest : Str) :
    ¬ Continued rules (key ++ rest) := by
  intro hcontinued
  obtain ⟨rule, hrule, more, hmore, htag⟩ := hcontinued
  rw [List.append_assoc] at htag
  obtain ⟨htake, hdrop⟩ := (append_eq_iff hkey).mp htag
  have hmem : rule.nextTag length ∈ group length rules key :=
    mem_group.mpr ⟨rule, hrule, htake, by simp [hdrop, hmore], rfl⟩
  rw [hgroup] at hmem
  cases hmem

/-- Behind a key without a subtree the search is at the leaf of its rule, or past the tree. -/
theorem searchFrom_ended (category : Option Str) {rules : List Rule} {nodes : List (Str × Tree)}
    {key : Str} (hkey : key.length = keyLength rules) (hne : key ≠ [])
    (hgroup : group (keyLength rules) rules key = [])
    (hends : List.lookup key nodes = (kept rules key).map Rule.leaf) (rest : Str) :
    searchFrom category (.node none (some (keyLength rules)) (some nodes)) (key ++ rest) =
      .ok ((reference rules (key ++ rest)).or category) := by
  rw [searchFrom_append category hkey hne, hends]
  by_cases hrest : rest = []
  · subst hrest
    rw [List.append_nil, reference_key hkey hne, exactOf, prefixOf]
    cases kept rules key with
    | none => rfl
    | some rule =>
      show searchFrom category rule.leaf [] = _
      rw [searchFrom_leaf_nil, Option.bind_some, Option.bind_some, exactCategory, prefixCategory]
      cases rule.isExact <;> rfl
  · rw [reference_append hkey hne hrest, hgroup, reference, prefixOf]
    have hnone : exactOf [] rest = none ∧ rest.inits.reverse.findSome? (prefixOf []) = none := by
      refine ⟨rfl, List.findSome?_eq_none_iff.mpr fun _ _ => rfl⟩
    rw [hnone.1, hnone.2]
    cases kept rules key with
    | none => rfl
    | some rule => exact searchFrom_leaf category rule hrest

theorem searchFrom_built {name : Str} (hname : name ≠ []) {rules : List Rule} (hne : rules ≠ [])
    (htags : ∀ rule ∈ rules, rule.tag ≠ []) {tree : Tree}
    (hbuild : buildSearchTree rules = .ok tree) (category : Option Str) :
    (Stuck rules name → searchFrom category tree name = .error .keyError) ∧
      (¬ Stuck rules name → searchFrom category tree name = .ok ((reference rules name).or category)) := by
  induction hsize : name.length using Nat.strong_induction_on generalizing name rules tree category with
  | _ n ih =>
    subst hsize
    obtain ⟨nodes, rfl, hbranching, hlookup⟩ := built_nodes hne htags hbuild
    have hpos := hbranching.pos
    rcases Nat.lt_or_ge name.length (keyLength rules) with hshort | hlong
    · -- every tag is longer than the name
      refine ⟨fun h => absurd h (not_stuck_short hshort), fun _ => ?_⟩
      rw [searchFrom_cons _ _ _ _ hname, if_pos hshort, reference_short hshort]
    obtain ⟨key, rest, hkey, rfl⟩ : ∃ key rest, key.length = keyLength rules ∧ name = key ++ rest :=
      ⟨name.take (keyLength rules), name.drop (keyLength rules), List.length_take_of_le hlong,
        (List.take_append_drop _ name).symm⟩
    have hkey_ne : key ≠ [] := List.ne_nil_of_length_pos (by omega)
    obtain ⟨hends, hgoes⟩ := hlookup key hkey
    by_cases hgroup : group (keyLength rules) rules key = []
    · -- no tag goes on behind the key
      have hfree := not_continued_of_group hkey hgroup rest
      refine ⟨fun h => absurd h.continued hfree, fun _ => ?_⟩
      exact searchFrom_ended category hkey hkey_ne hgroup (hends hgroup) rest
    · -- the node has a subtree for the longer tags
      obtain ⟨subTree, hsub, hnode⟩ := hgoes hgroup
      obtain ⟨subNodes, rfl, hsubBranching, -⟩ := built_nodes hgroup group_tags hsub
      rw [searchFrom_append category hkey hkey_ne, hnode]
      show (Stuck rules (key ++ rest) → searchFrom category (Tree.merge _ _) rest = _) ∧
        (¬ Stuck rules (key ++ rest) → searchFrom category (Tree.merge _ _) rest = _)
      by_cases hrest : rest = []
      · subst hrest
        rw [searchFrom_merge_nil hsubBranching, ← exactOf, List.append_nil,
          reference_key hkey hkey_ne]
        constructor
        · intro h
          rw [h.not_exact]
        · intro h
          cases hexact : exactOf rules key with
          | none =>
            exact absurd ⟨AtCut.here hkey, (continued_key hkey).mpr hgroup, hexact⟩ h
          | some found => rfl
      · have hlt : rest.length < (key ++ rest).length := by
          rw [List.length_append]
          omega
        obtain ⟨hstuck, hfree⟩ := ih rest.length hlt hrest hgroup group_tags hsub
          ((prefixOf rules key).or category) rfl
        rw [searchFrom_merge hsubBranching _ _ hrest, ← prefixOf, stuck_append hkey hrest,
          reference_append hkey hkey_ne hrest, Option.or_assoc]
        exact ⟨hstuck, hfree⟩

/-- The root has no entry for an empty name. -/
theorem searchTree_nil {rules : List Rule} (hne : rules ≠ []) (htags : ∀ rule ∈ rules, rule.tag ≠ [])
    {tree : Tree} (hbuild : buildSearchTree rules = .ok tree) :
    searchTree tree [] = .error .keyError := by
  obtain ⟨nodes, rfl, hbranching, -⟩ := built_nodes hne htags hbuild
  simp [searchTree, searchFrom, hbranching.lookup_nil]

theorem searchTree_built {rules : List Rule} (hne : rules ≠ [])
    (htags : ∀ rule ∈ rules, rule.tag ≠ []) {tree : Tree} (hbuild : buildSearchTree rules = .ok tree)
    {name : Str} (hname : name ≠ []) (hfree : ¬ Stuck rules name) :
    searchTree tree name = .ok (reference rules name) := by
  rw [searchTree, (searchFrom_built hname hne htags hbuild none).2 hfree, Option.or_none]

/-- What the search returns is the category by the rules. -/
theorem search_tree_reference (rules : List Rule) (name : Str) (hne : rules ≠ [])
    (htags : ∀ rule ∈ rules, rule.tag ≠ []) (tree : Tree) (hbuild : buildSearchTree rules = .ok tree)
    (value : Option Str) (h : searchTree tree name = .ok value) : value = reference rules name := by
  by_cases hname : name = []
  · rw [hname, searchTree_nil hne htags hbuild] at h
    cases h
  · by_cases hstuck : Stuck rules name
    · rw [searchTree, (searchFrom_built hname hne htags hbuild none).1 hstuck] at h
      cases h
    · rw [searchTree_built hne htags hbuild hname hstuck] at h
      exact (Except.ok.inj h).symm

/-- Names that start with `ab` are of category `c`, and `abc` itself is of category `d`. -/
def sampleRules : List Rule :=
  [⟨chars "ab", chars "c", false⟩, ⟨chars "abc", chars "d", true⟩]

theorem sampleRules_tags : ∀ rule ∈ sampleRules, rule.tag ≠ [] := by decide +kernel

theorem sampleRules_free : ¬ Stuck sampleRules (chars "abd") := by
  intro ⟨_, ⟨rule, hrule, more, hmore, htag⟩, _⟩
  have hprefix : chars "abd" <+: rule.tag := ⟨more, htag.symm⟩
  have hno : ∀ rule ∈ sampleRules, ¬ chars "abd" <+: rule.tag := by decide +kernel
  exact hno rule hrule hprefix

theorem search_tree_reference_longest_prefix : ∃ tree value,
    buildSearchTree sampleRules = .ok tree ∧ searchTree tree (chars "abd") = .ok value ∧
      value = some (chars "c") := by
  have hne : sampleRules ≠ [] := List.cons_ne_nil _ _
  have hname : chars "abd" ≠ [] := by decide +kernel
  have hvalue : reference sampleRules (chars "abd") = some (chars "c") := by decide +kernel
  obtain ⟨tree, hbuild⟩ := buildSearchTree_total hne
  have hsearch := searchTree_built hne sampleRules_tags hbuild hname sampleRules_free
  exact ⟨tree, _, hbuild, hsearch, (search_tree_reference sampleRules (chars "abd") hne
    sampleRules_tags tree hbuild _ hsearch).trans hvalue⟩

/-- The search in the tree of the rules comes back with a category or with `None`. -/
def Finds (rules : List Rule) (name : Str) : Prop :=
  ∃ tree value, buildSearchTree rules = .ok tree ∧ searchTree tree name = .ok value

/-- The search fails exactly on the empty name and on the names that are used up at an inner
node without a rule for exactly that name. -/
theorem finds_iff_not_stuck (rules : List Rule) (name : Str) (hne : rules ≠ [])
    (htags : ∀ rule ∈ rules, rule.tag ≠ []) :
    Finds rules name ↔ name ≠ [] ∧ ¬ Stuck rules name := by
  constructor
  · intro ⟨tree, value, hbuild, h⟩
    have hname : name ≠ [] := by
      intro hnil
      rw [hnil, searchTree_nil hne htags hbuild] at h
      cases h
    refine ⟨hname, fun hstuck => ?_⟩
    rw [searchTree, (searchFrom_built hname hne htags hbuild none).1 hstuck] at h
    cases h
  · intro ⟨hname, hfree⟩
    obtain ⟨tree, hbuild⟩ := buildSearchTree_total hne
    exact ⟨tree, _, hbuild, searchTree_built hne htags hbuild hname hfree⟩

theorem finds_abd : Finds sampleRules (chars "abd") :=
  (finds_iff_not_stuck sampleRules (chars "abd") (List.cons_ne_nil _ _) sampleRules_tags).mpr
    ⟨by decide +kernel, sampleRules_free⟩

/-- `ab` has a category by the rules, but `abc` makes its node an inner one. -/
theorem not_finds_ab : ∃ rules name, rules ≠ [] ∧ (∀ rule ∈ rules, rule.tag ≠ []) ∧ name ≠ [] ∧
    reference rules name = some (chars "c") ∧ ¬ Finds rules name := by
  have hne : sampleRules ≠ [] := List.cons_ne_nil _ _
  have hname : chars "ab" ≠ [] := by decide +kernel
  refine ⟨sampleRules, chars "ab", hne, sampleRules_tags, hname, by decide +kernel, ?_⟩
  have hcut : AtCut sampleRules (chars "ab") := AtCut.here (by decide +kernel)
  have htag : chars "abc" = chars "ab" ++ ['c'] := by decide +kernel
  have hcontinued : Continued sampleRules (chars "ab") :=
    ⟨_, List.mem_cons_of_mem _ List.mem_cons_self, ['c'], List.cons_ne_nil _ _, htag⟩
  have hexact : exactOf sampleRules (chars "ab") = none := by decide +kernel
  intro ⟨tree, value, hbuild, h⟩
  rw [searchTree, (searchFrom_built hname hne sampleRules_tags hbuild none).1
    ⟨hcut, hcontinued, hexact⟩] at h
  cases h

end Unitrace.Summary.Categories
