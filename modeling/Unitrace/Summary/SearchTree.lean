import Mathlib.Algebra.BigOperators.Group.List.Basic
import Unitrace.Lib.Dict
import Unitrace.Lib.PyStr

/-!
# The search tree of the categories

The script `categorize` turns the rules of a schema into a tree of dictionaries, and
the script `summary` looks kernel names up in it. A node tells how many characters of
the name choose the next node, and that number is the least length of the tags below.
-/
namespace Unitrace.Summary.SearchTree

open Unitrace.Lib Unitrace.Lib.Text Unitrace.Lib.PyStr

structure Rule where
  tag : Str
  category : Str
  isExact : Bool

/-- A node, with those of the keys `category`, `length` and `next` that it has. -/
inductive Tree where
  | node (category : Option Str) (length : Option Nat) (next : Option (List (Str × Tree)))

def Tree.category : Tree → Option Str
  | .node category _ _ => category

def Tree.length : Tree → Option Nat
  | .node _ length _ => length

def Tree.next : Tree → Option (List (Str × Tree))
  | .node _ _ next => next

/-! ## Building -/

/-- `node.update( sub_tree )` -/
def Tree.update (node subTree : Tree) : Tree :=
  .node (subTree.category.or node.category) (subTree.length.or node.length)
    (subTree.next.or node.next)

/-- The node of a rule whose tag ends there. -/
def Rule.leaf (rule : Rule) : Tree :=
  if rule.isExact then
    .node none none (some [([], .node (some rule.category) none none)])
  else .node (some rule.category) none none

/-- The length of the shortest tag. -/
def keyLength (tags : List Rule) : Nat := ((tags.map fun rule => rule.tag.length).min?).getD 0

def Rule.key (length : Nat) (rule : Rule) : Str := rule.tag.take length

def Rule.nextTag (length : Nat) (rule : Rule) : Rule := { rule with tag := rule.tag.drop length }

abbrev Groups := List (Str × List Rule)

/-- One turn of the loop over the tags. -/
def split (length : Nat) : List (Str × Tree) × Groups → Rule → List (Str × Tree) × Groups
  | (nextNodes, nextTags), rule =>
    if (rule.nextTag length).tag ≠ [] then
      (nextNodes, Dict.append nextTags (rule.key length) (rule.nextTag length))
    else (Dict.set nextNodes (rule.key length) rule.leaf, nextTags)

/-- The subtree with the entries of the node of the same key. -/
def Tree.merge (node : Option Tree) (subTree : Tree) : Tree :=
  match node with
  | none => subTree
  | some node =>
    match node.next, subTree.next with
    | some entries, some nodes =>
      node.update (.node subTree.category subTree.length (some (Dict.setAll nodes entries)))
    | _, _ => node.update subTree

def mergeInto (nextNodes : List (Str × Tree)) (key : Str) (subTree : Tree) : List (Str × Tree) :=
  Dict.set nextNodes key (Tree.merge (List.lookup key nextNodes) subTree)

/-! ## The groups of the rules -/

/-- The rules whose tags go on behind the key. -/
def group (length : Nat) (rules : List Rule) (key : Str) : List Rule :=
  (rules.filter fun rule => rule.key length = key ∧ (rule.nextTag length).tag ≠ []).map
    (Rule.nextTag length)

def leaves (length : Nat) (rules : List Rule) : List (Str × Tree) :=
  (rules.filter fun rule => (rule.nextTag length).tag = []).map fun rule =>
    (rule.key length, rule.leaf)

def longer (length : Nat) (rules : List Rule) : List (Str × Rule) :=
  (rules.filter fun rule => (rule.nextTag length).tag ≠ []).map fun rule =>
    (rule.key length, rule.nextTag length)

theorem foldl_split (length : Nat) (rules : List Rule) (nextNodes : List (Str × Tree))
    (nextTags : Groups) :
    rules.foldl (split length) (nextNodes, nextTags) =
      (Dict.setAll nextNodes (leaves length rules), Dict.appendAll nextTags (longer length rules)) := by
  induction rules generalizing nextNodes nextTags with
  | nil => rfl
  | cons rule rules ih =>
    rw [List.foldl_cons, split]
    split
    · rename_i hlonger
      rw [ih]
      simp [leaves, longer, hlonger, Dict.appendAll]
    · rename_i hends
      rw [ih]
      simp [leaves, longer, not_not.mp hends, Dict.setAll]

theorem filter_longer (length : Nat) (rules : List Rule) (key : Str) :
    ((longer length rules).filter fun e => e.1 == key).map Prod.snd = group length rules key := by
  rw [longer, group, List.filter_map, List.map_map, List.filter_filter]
  congr 1
  apply List.filter_congr
  intro rule _
  simp [beq_eq_decide]

theorem lookup_nextTags (length : Nat) (rules : List Rule) (key : Str) :
    List.lookup key (Dict.appendAll [] (longer length rules)) =
      if group length rules key = [] then none else some (group length rules key) := by
  rw [Dict.lookup_appendAll, ← filter_longer]
  simp only [List.map_eq_nil_iff]
  rfl

theorem lookup_nextNodes (length : Nat) (rules : List Rule) (key : Str) :
    List.lookup key (Dict.setAll [] (leaves length rules)) =
      (rules.filter fun rule => rule.key length = key ∧ (rule.nextTag length).tag = []).getLast?.map
        Rule.leaf := by
  rw [Dict.lookup_setAll, leaves, List.filter_map, List.getLast?_map, Option.map_map,
    List.filter_filter]
  simp only [List.lookup_nil, Option.or_none]
  congr 2
  apply List.filter_congr
  intro rule _
  simp [beq_eq_decide]

/-- A bound on the recursion: the number of the rules and of their characters. -/
def size (rules : List Rule) : Nat := (rules.map fun rule => rule.tag.length + 1).sum

theorem size_group_le (length : Nat) (rules : List Rule) (key : Str) :
    size (group length rules key) ≤ size rules := by
  induction rules with
  | nil => exact Nat.le_refl 0
  | cons rule rules ih =>
    simp only [size, group] at ih ⊢
    rw [List.map_cons, List.sum_cons, List.filter_cons]
    split
    · simp only [List.map_cons, List.sum_cons, Rule.nextTag, List.length_drop] at ih ⊢
      omega
    · omega

/-- A rule that ends at the key is in no group. -/
theorem size_group_lt {length : Nat} {rules : List Rule} {rule : Rule} (hmem : rule ∈ rules)
    (hends : (rule.nextTag length).tag = []) (key : Str) :
    size (group length rules key) < size rules := by
  induction rules with
  | nil => cases hmem
  | cons r rules ih =>
    have hle := size_group_le length rules key
    simp only [size, group] at ih hle ⊢
    rw [List.map_cons, List.sum_cons, List.filter_cons]
    rcases List.mem_cons.mp hmem with rfl | hmem
    · rw [if_neg (by simp [hends])]
      omega
    · have hlt := ih hmem
      split
      · simp only [List.map_cons, List.sum_cons, Rule.nextTag, List.length_drop] at hlt ⊢
        omega
      · omega

theorem exists_keyLength {rules : List Rule} (hne : rules ≠ []) :
    ∃ rule ∈ rules, rule.tag.length = keyLength rules := by
  cases hmin : (rules.map fun rule => rule.tag.length).min? with
  | none => exact absurd (List.map_eq_nil_iff.mp (List.min?_eq_none_iff.mp hmin)) hne
  | some n =>
    obtain ⟨rule, hmem, hlength⟩ := List.mem_map.mp (List.min?_mem hmin)
    exact ⟨rule, hmem, by rw [keyLength, hmin, Option.getD_some, hlength]⟩

theorem keyLength_le {rules : List Rule} {rule : Rule} (h : rule ∈ rules) :
    keyLength rules ≤ rule.tag.length := by
  cases hmin : (rules.map fun rule => rule.tag.length).min? with
  | none =>
    rw [List.map_eq_nil_iff.mp (List.min?_eq_none_iff.mp hmin)] at h
    cases h
  | some n =>
    rw [keyLength, hmin, Option.getD_some]
    exact (List.min?_eq_some_iff.mp hmin).2 _ (List.mem_map_of_mem h)

theorem size_group_keyLength {rules : List Rule} (hne : rules ≠ []) (key : Str) :
    size (group (keyLength rules) rules key) < size rules := by
  obtain ⟨rule, hmem, hlength⟩ := exists_keyLength hne
  exact size_group_lt hmem (by simp [Rule.nextTag, ← hlength]) key

theorem nextTags_eq {length : Nat} {rules : List Rule} {e : Str × List Rule}
    (h : e ∈ (rules.foldl (split length) ([], [])).2) :
    e.2 = group length rules e.1 ∧ e.2 ≠ [] := by
  rw [foldl_split] at h
  have hnodup : (([] : Groups).map Prod.fst).Nodup := List.nodup_nil
  have hlookup := Dict.lookup_of_mem (Dict.nodup_appendAll hnodup (longer length rules)) h
  rw [lookup_nextTags] at hlookup
  split at hlookup
  · cases hlookup
  · rename_i hne
    have heq := (Option.some.inj hlookup).symm
    exact ⟨heq, heq ▸ hne⟩

def buildSearchTree : List Rule → Except PyErr Tree
  | [] => .error .valueError
  | rule :: rules =>
    let tags := rule :: rules
    let length := keyLength tags
    let parts := tags.foldl (split length) ([], [])
    (parts.2.attach.foldlM (fun nextNodes e =>
        (buildSearchTree e.1.2).map fun subTree => mergeInto nextNodes e.1.1 subTree) parts.1).map
      fun nextNodes => .node none (some length) (some nextNodes)
termination_by tags => size tags
decreasing_by
  rw [(nextTags_eq e.2).1]
  exact size_group_keyLength (List.cons_ne_nil _ _) _

theorem buildSearchTree_eq {rules : List Rule} (hne : rules ≠ []) :
    buildSearchTree rules =
      ((Dict.appendAll [] (longer (keyLength rules) rules)).foldlM (fun nextNodes e =>
        (buildSearchTree e.2).map fun subTree => mergeInto nextNodes e.1 subTree)
        (Dict.setAll [] (leaves (keyLength rules) rules))).map
      fun nextNodes => .node none (some (keyLength rules)) (some nextNodes) := by
  cases rules with
  | nil => exact absurd rfl hne
  | cons rule rules =>
    rw [buildSearchTree, List.foldlM_subtype (g := fun nextNodes e =>
      (buildSearchTree e.2).map fun subTree => mergeInto nextNodes e.1 subTree) (fun _ _ _ => rfl),
      List.unattach_attach, foldl_split]

/-! ## The nodes of a built tree -/

theorem foldlM_mergeInto {groups : Groups} (hnd : (groups.map Prod.fst).Nodup)
    {nodes nodes' : List (Str × Tree)}
    (h : groups.foldlM (fun nextNodes e =>
      (buildSearchTree e.2).map fun subTree => mergeInto nextNodes e.1 subTree) nodes = .ok nodes')
    (key : Str) :
    (List.lookup key groups = none → List.lookup key nodes' = List.lookup key nodes) ∧
      ∀ rules, List.lookup key groups = some rules → ∃ subTree, buildSearchTree rules = .ok subTree ∧
        List.lookup key nodes' = some (Tree.merge (List.lookup key nodes) subTree) := by
  induction groups generalizing nodes with
  | nil =>
    obtain rfl := Except.ok.inj h
    exact ⟨fun _ => rfl, fun rules hrules => by cases hrules⟩
  | cons e groups ih =>
    obtain ⟨key', rules'⟩ := e
    obtain ⟨hnew, hnd⟩ := List.nodup_cons.mp hnd
    rw [List.foldlM_cons] at h
    obtain ⟨merged, hmerged, hrest⟩ := bind_eq_ok h
    obtain ⟨subTree, hbuild, rfl⟩ := map_eq_ok hmerged
    obtain ⟨hnone, hsome⟩ := ih hnd hrest
    by_cases hk : key = key'
    · subst hk
      have hlookup : List.lookup key groups = none := by
        refine List.lookup_eq_none_iff.mpr fun e he => ?_
        simp only [bne_iff_ne]
        exact fun hke => hnew (List.mem_map.mpr ⟨e, he, hke.symm⟩)
      rw [List.lookup_cons_self, hnone hlookup, mergeInto, Dict.lookup_set_self]
      refine ⟨fun hnil => absurd hnil (Option.some_ne_none _), fun rules hrules => ⟨subTree, ?_, rfl⟩⟩
      rw [← Option.some.inj hrules, hbuild]
    · rw [List.lookup_cons, beq_false_of_ne hk]
      rw [mergeInto, Dict.lookup_set_ne nodes hk] at hnone hsome
      exact ⟨hnone, hsome⟩

/-- The rule that is listed last among those that end at the key. -/
def endsAt (length : Nat) (rules : List Rule) (key : Str) : Option Rule :=
  (rules.filter fun rule => rule.key length = key ∧ (rule.nextTag length).tag = []).getLast?

/-- The node below a key has the entries of the last rule that ends there and those of the
tree of its group. -/
theorem buildSearchTree_nodes {rules : List Rule} (hne : rules ≠ []) {tree : Tree}
    (h : buildSearchTree rules = .ok tree) :
    ∃ nodes, tree = .node none (some (keyLength rules)) (some nodes) ∧ ∀ key,
      (group (keyLength rules) rules key = [] →
        List.lookup key nodes = (endsAt (keyLength rules) rules key).map Rule.leaf) ∧
      (group (keyLength rules) rules key ≠ [] → ∃ subTree,
        buildSearchTree (group (keyLength rules) rules key) = .ok subTree ∧
        List.lookup key nodes =
          some (Tree.merge ((endsAt (keyLength rules) rules key).map Rule.leaf) subTree)) := by
  rw [buildSearchTree_eq hne] at h
  obtain ⟨nodes, hfold, rfl⟩ := map_eq_ok h
  have hnodup : (([] : Groups).map Prod.fst).Nodup := List.nodup_nil
  refine ⟨nodes, rfl, fun key => ?_⟩
  obtain ⟨hnone, hsome⟩ := foldlM_mergeInto
    (Dict.nodup_appendAll hnodup (longer (keyLength rules) rules)) hfold key
  rw [lookup_nextNodes, ← endsAt] at hnone hsome
  rw [lookup_nextTags] at hnone hsome
  constructor
  · intro hgroup
    exact hnone (if_pos hgroup)
  · intro hgroup
    exact hsome _ (if_neg hgroup)

/-- The tree of a non-empty list of rules is built. -/
theorem buildSearchTree_total {rules : List Rule} (hne : rules ≠ []) :
    ∃ tree, buildSearchTree rules = .ok tree := by
  have hfold (groups : Groups) (hgroups : ∀ e ∈ groups, ∃ tree, buildSearchTree e.2 = .ok tree)
      (nodes : List (Str × Tree)) : ∃ nodes', groups.foldlM (fun nextNodes e =>
        (buildSearchTree e.2).map fun subTree => mergeInto nextNodes e.1 subTree) nodes =
          .ok nodes' := by
    induction groups generalizing nodes with
    | nil => exact ⟨nodes, rfl⟩
    | cons e groups ih =>
      obtain ⟨tree, htree⟩ := hgroups e List.mem_cons_self
      rw [List.foldlM_cons, htree]
      exact ih (fun e he => hgroups e (List.mem_cons_of_mem _ he)) _
  induction hsize : size rules using Nat.strong_induction_on generalizing rules with
  | _ n ih =>
    obtain ⟨nodes, hnodes⟩ := hfold (Dict.appendAll [] (longer (keyLength rules) rules)) (by
      intro e he
      have hmem : e ∈ (rules.foldl (split (keyLength rules)) ([], [])).2 := by rwa [foldl_split]
      obtain ⟨hgroup, hgroup_ne⟩ := nextTags_eq hmem
      refine ih (size e.2) ?_ hgroup_ne rfl
      rw [hgroup, ← hsize]
      exact size_group_keyLength hne e.1) (Dict.setAll [] (leaves (keyLength rules) rules))
    rw [buildSearchTree_eq hne, hnodes]
    exact ⟨_, rfl⟩

/-! ## Searching -/

theorem sizeOf_lookup {nodes : List (Str × Tree)} {key : Str} {tree : Tree}
    (h : List.lookup key nodes = some tree) : sizeOf tree < sizeOf nodes := by
  have hlt := List.sizeOf_lt_of_mem (Dict.mem_of_lookup h)
  simp only [Prod.mk.sizeOf_spec] at hlt
  omega

/-- The loop of `search_tree` from a node, with the category so far. -/
def searchFrom (category : Option Str) : Tree → Str → Except PyErr (Option Str)
  | .node own length next, tag =>
    let category := own.or category
    if tag ≠ [] then
      match length with
      | none => .ok category
      | some keyLength =>
        if tag.length < keyLength then .ok category
        else
          match next with
          | none => .error .keyError
          | some nodes =>
            match _h : List.lookup (tag.take keyLength) nodes with
            | none => .ok category
            | some nextTree => searchFrom category nextTree (tag.drop keyLength)
    else
      match next with
      | none => .ok category
      | some nodes =>
        match List.lookup [] nodes with
        | none => .error .keyError
        | some leaf =>
          match leaf.category with
          | none => .error .keyError
          | some category => .ok (some category)
termination_by tree => sizeOf tree
decreasing_by
  have hlt := sizeOf_lookup _h
  simp only [Tree.node.sizeOf_spec, Option.some.sizeOf_spec]
  omega

def searchTree (tree : Tree) (tag : Str) : Except PyErr (Option Str) := searchFrom none tree tag

end Unitrace.Summary.SearchTree
