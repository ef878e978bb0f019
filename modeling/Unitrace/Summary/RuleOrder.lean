import Unitrace.Summary.Categories

/-!
# The order of the rules

Rules with different tags may be listed in any order. Of two rules with the same tag, one
for exactly the tag and one for what starts with it, only the one listed last is kept, so
the order shows unless the kept one does what both would do.
-/
namespace Unitrace.Summary.RuleOrder

open Unitrace.Lib Unitrace.Lib.Text Unitrace.Lib.PyStr Unitrace.Summary.SearchTree
open Unitrace.Summary.Categories

/-- The search for a name in the tree that is built from the rules. -/
def search (rules : List Rule) (name : Str) : Except PyErr (Option Str) := do
  let tree ← buildSearchTree rules
  searchTree tree name

/-- No two rules have both the same tag and the same condition. -/
def Distinct (rules : List Rule) : Prop :=
  rules.Pairwise fun a b => ¬ (a.tag = b.tag ∧ a.isExact = b.isExact)

/-- Every permutation of the rules finds the same for every name. -/
def OrderFree (rules : List Rule) : Prop :=
  ∀ rules', rules.Perm rules' → ∀ name, search rules name = search rules' name

/-- The category of the longest prefix of the name that has a rule. -/
def inherited (rules : List Rule) (name : Str) : Option Str :=
  name.inits.reverse.findSome? (prefixOf rules)

/-- The two rules for one tag do the same whichever of them is kept: the tag is not empty,
no other tag begins with it, and a name that goes on behind it is of their category by a
shorter tag anyway. -/
structure Harmless (rules : List Rule) (equals starts : Rule) : Prop where
  tag_ne : equals.tag ≠ []
  same : equals.category = starts.category
  last : ¬ Continued rules equals.tag
  above : inherited rules equals.tag.dropLast = some equals.category

/-- Two rules for the same tag, one of each kind. -/
structure Clash (rules : List Rule) (equals starts : Rule) : Prop where
  equals_mem : equals ∈ rules
  starts_mem : starts ∈ rules
  tag_eq : equals.tag = starts.tag
  is_exact : equals.isExact = true
  not_exact : starts.isExact = false

/-! ## Rules with empty tags -/

/-- The rules whose tags are not empty. -/
def inner (rules : List Rule) : List Rule := rules.filter fun rule => rule.tag ≠ []

theorem inner_tags {rules : List Rule} : ∀ rule ∈ inner rules, rule.tag ≠ [] :=
  fun _ hrule => of_decide_eq_true (List.mem_filter.mp hrule).2

theorem group_zero (rules : List Rule) : group 0 rules [] = inner rules := by
  have hnext : ∀ rule : Rule, rule.nextTag 0 = rule := fun _ => rfl
  rw [group, inner, List.map_congr_left (fun rule _ => hnext rule), List.map_id'']
  · refine List.filter_congr fun rule _ => ?_
    simp [Rule.key, Rule.nextTag]
  · exact fun _ => rfl

theorem inner_eq_self {rules : List Rule} (h : ∀ rule ∈ rules, rule.tag ≠ []) :
    inner rules = rules :=
  List.filter_eq_self.mpr fun rule hrule => decide_eq_true (h rule hrule)

theorem kept_inner {rules : List Rule} {tag : Str} (h : tag ≠ []) :
    kept (inner rules) tag = kept rules tag := by
  rw [kept, kept, inner, List.filter_filter]
  congr 1
  refine List.filter_congr fun rule _ => ?_
  rw [← Bool.decide_and, decide_eq_decide]
  exact ⟨And.left, fun htag => ⟨htag, htag ▸ h⟩⟩

/-- The category that the root gives to all names. -/
theorem inherited_inner (rules : List Rule) (name : Str) :
    (inherited (inner rules) name).or (prefixOf rules []) = inherited rules name := by
  have hnil : prefixOf (inner rules) [] = none := by
    rw [prefixOf, kept_eq_none inner_tags]
    rfl
  cases name with
  | nil => simp [inherited, hnil]
  | cons c name =>
    have hcons (tag : Str) : prefixOf (inner rules) (c :: tag) = prefixOf rules (c :: tag) := by
      rw [prefixOf, prefixOf, kept_inner (List.cons_ne_nil c tag)]
    rw [inherited, inherited, List.inits_cons, List.reverse_cons, List.findSome?_append,
      List.findSome?_append, ← List.map_reverse, List.findSome?_map, List.findSome?_map]
    simp [hnil, Function.comp_def, hcons]

theorem reference_inner (rules : List Rule) {name : Str} (hname : name ≠ []) :
    (reference (inner rules) name).or (prefixOf rules []) = reference rules name := by
  rw [reference, reference, Option.or_assoc, exactOf, exactOf, kept_inner hname]
  exact congrArg _ (inherited_inner rules name)

theorem not_stuck_nil (name : Str) : ¬ Stuck [] name := by
  rintro ⟨-, ⟨rule, hrule, -⟩, -⟩
  cases hrule

/-- The tree of rules some of which have an empty tag. -/
theorem root_nodes {rules : List Rule} {rule : Rule} (hmem : rule ∈ rules) (htag : rule.tag = [])
    {tree : Tree} (hbuild : buildSearchTree rules = .ok tree) :
    ∃ nodes, tree = .node none (some 0) (some nodes) ∧ ∃ last, kept rules [] = some last ∧
      (inner rules = [] → List.lookup [] nodes = some last.leaf) ∧
      (inner rules ≠ [] → ∃ subTree, buildSearchTree (inner rules) = .ok subTree ∧
        List.lookup [] nodes = some (Tree.merge (some last.leaf) subTree)) := by
  have hzero : keyLength rules = 0 := by
    have hle := keyLength_le hmem
    rw [htag] at hle
    exact Nat.le_zero.mp hle
  obtain ⟨nodes, rfl, hnodes⟩ := buildSearchTree_nodes (List.ne_nil_of_mem hmem) hbuild
  rw [hzero] at hnodes
  obtain ⟨hends, hgoes⟩ := hnodes []
  have hlength : ([] : Str).length = 0 := rfl
  rw [group_zero, endsAt_eq_kept rules hlength] at hends hgoes
  have hkept : kept rules [] ≠ none := by
    rw [kept, ne_eq, List.getLast?_eq_none_iff]
    exact List.ne_nil_of_mem (List.mem_filter.mpr ⟨hmem, decide_eq_true htag⟩)
  obtain ⟨last, hlast⟩ := Option.ne_none_iff_exists'.mp hkept
  rw [hlast] at hends hgoes
  exact ⟨nodes, by rw [hzero], last, hlast, hends, hgoes⟩

/-- The search for a name that is not empty. -/
theorem search_eq {rules : List Rule} (hne : rules ≠ []) {name : Str} (hname : name ≠ []) :
    (Stuck (inner rules) name → search rules name = .error .keyError) ∧
      (¬ Stuck (inner rules) name → search rules name = .ok (reference rules name)) := by
  obtain ⟨tree, hbuild⟩ := buildSearchTree_total hne
  have hsearch : search rules name = searchTree tree name := by
    rw [search, hbuild]
    rfl
  rw [hsearch, searchTree]
  by_cases hempty : ∃ rule ∈ rules, rule.tag = []
  · obtain ⟨rule, hmem, htag⟩ := hempty
    obtain ⟨nodes, rfl, last, hlast, hleaf, hmerge⟩ := root_nodes hmem htag hbuild
    rw [searchFrom_cons _ _ _ _ hname, if_neg (Nat.not_lt_zero _), List.take_zero, List.drop_zero,
      ← reference_inner rules hname, prefixOf, hlast]
    by_cases hinner : inner rules = []
    · rw [hleaf hinner, hinner]
      refine ⟨fun h => absurd h (not_stuck_nil name), fun _ => ?_⟩
      have hnone : reference [] name = none :=
        Option.or_eq_none_iff.mpr ⟨rfl, List.findSome?_eq_none_iff.mpr fun _ _ => rfl⟩
      show searchFrom none last.leaf name = _
      rw [searchFrom_leaf _ _ hname, hnone, Option.or_none]
      rfl
    · obtain ⟨subTree, hsub, hnode⟩ := hmerge hinner
      obtain ⟨subNodes, rfl, hbranching, -⟩ := built_nodes hinner inner_tags hsub
      rw [hnode]
      have hgo := searchFrom_merge hbranching none (some last) hname
      have hbuilt := searchFrom_built hname hinner inner_tags hsub (prefixCategory last)
      rw [Option.bind_some, Option.or_none] at hgo
      rw [← hgo] at hbuilt
      exact hbuilt
  · have htags : ∀ rule ∈ rules, rule.tag ≠ [] := fun rule hmem htag => hempty ⟨rule, hmem, htag⟩
    have hbuilt := searchFrom_built hname hne htags hbuild none
    rw [Option.or_none] at hbuilt
    rw [inner_eq_self htags]
    exact hbuilt

theorem category_leaf (rule : Rule) : rule.leaf.category = prefixCategory rule := by
  unfold Rule.leaf prefixCategory
  cases rule.isExact <;> rfl

theorem category_merge (rule : Rule) (length : Nat) (nodes : List (Str × Tree)) :
    (Tree.merge (some rule.leaf) (.node none (some length) (some nodes))).category =
      prefixCategory rule := by
  unfold Rule.leaf prefixCategory
  cases rule.isExact <;> rfl

/-- The root finds the empty name if the rule that is kept for the empty tag is one for what
starts with it. -/
theorem search_nil {rules : List Rule} (hne : rules ≠ []) :
    search rules [] = match prefixOf rules [] with
      | some category => .ok (some category)
      | none => .error .keyError := by
  obtain ⟨tree, hbuild⟩ := buildSearchTree_total hne
  have hsearch : search rules [] = searchTree tree [] := by
    rw [search, hbuild]
    rfl
  rw [hsearch]
  by_cases hempty : ∃ rule ∈ rules, rule.tag = []
  · obtain ⟨rule, hmem, htag⟩ := hempty
    obtain ⟨nodes, rfl, last, hlast, hleaf, hmerge⟩ := root_nodes hmem htag hbuild
    have hnode : ∃ node, List.lookup [] nodes = some node ∧ node.category = prefixCategory last := by
      by_cases hinner : inner rules = []
      · exact ⟨_, hleaf hinner, category_leaf last⟩
      · obtain ⟨subTree, hsub, hnode⟩ := hmerge hinner
        obtain ⟨subNodes, rfl, -, -⟩ := built_nodes hinner inner_tags hsub
        exact ⟨_, hnode, category_merge last _ subNodes⟩
    obtain ⟨node, hnode, hcategory⟩ := hnode
    rw [prefixOf, hlast, Option.bind_some, ← hcategory]
    cases hfound : node.category with
    | none => simp [searchTree, searchFrom, hnode, hfound]
    | some category => simp [searchTree, searchFrom, hnode, hfound]
  · have htags : ∀ rule ∈ rules, rule.tag ≠ [] := fun rule hmem htag => hempty ⟨rule, hmem, htag⟩
    rw [searchTree_nil hne htags hbuild, prefixOf, kept_eq_none htags]
    rfl

/-! ## Permutations -/

theorem keyLength_perm {rules rules' : List Rule} (h : rules.Perm rules') :
    keyLength rules = keyLength rules' := by
  have hle {l l' : List Rule} (h : l.Perm l') (hne : l' ≠ []) : keyLength l ≤ keyLength l' := by
    obtain ⟨rule, hrule, hlength⟩ := exists_keyLength hne
    rw [← hlength]
    exact keyLength_le (h.symm.subset hrule)
  by_cases hne : rules = []
  · subst hne
    rw [h.nil_eq]
  · have hne' : rules' ≠ [] := fun hnil => hne (List.perm_nil.mp (hnil ▸ h))
    exact Nat.le_antisymm (hle h hne') (hle h.symm hne)

theorem group_perm {rules rules' : List Rule} (h : rules.Perm rules') (length : Nat) (key : Str) :
    (group length rules key).Perm (group length rules' key) :=
  (h.filter _).map _

theorem inner_perm {rules rules' : List Rule} (h : rules.Perm rules') :
    (inner rules).Perm (inner rules') :=
  h.filter _

/-- The tree is cut by the lengths of the tags, whatever their order. -/
theorem atCut_perm {rules : List Rule} {name : Str} (hcut : AtCut rules name) {rules' : List Rule}
    (h : rules.Perm rules') : AtCut rules' name := by
  induction hcut generalizing rules' with
  | here hlength => exact AtCut.here (hlength.trans (keyLength_perm h))
  | @deeper rules name hlength _ ih =>
    rw [keyLength_perm h] at hlength ih
    exact AtCut.deeper hlength (ih (group_perm h _ _))

theorem continued_perm {rules rules' : List Rule} {name : Str} (hname : Continued rules name)
    (h : rules.Perm rules') : Continued rules' name := by
  obtain ⟨rule, hrule, hmore⟩ := hname
  exact ⟨rule, h.subset hrule, hmore⟩

/-- A tag ends where the tree is cut. -/
theorem atCut_of_mem {rules : List Rule} (htags : ∀ rule ∈ rules, rule.tag ≠ []) {rule : Rule}
    (hrule : rule ∈ rules) : AtCut rules rule.tag := by
  induction hsize : rule.tag.length using Nat.strong_induction_on generalizing rules rule with
  | _ n ih =>
    rcases Nat.eq_or_lt_of_le (keyLength_le hrule) with heq | hlt
    · exact AtCut.here heq.symm
    · have hpos := keyLength_pos (List.ne_nil_of_mem hrule) htags
      have hdrop : rule.tag.drop (keyLength rules) ≠ [] := by
        rw [ne_eq, List.drop_eq_nil_iff]
        omega
      have hmem : rule.nextTag (keyLength rules) ∈
          group (keyLength rules) rules (rule.tag.take (keyLength rules)) :=
        mem_group.mpr ⟨rule, hrule, rfl, hdrop, rfl⟩
      have hlength : (rule.nextTag (keyLength rules)).tag.length < n := by
        rw [Rule.nextTag, List.length_drop]
        omega
      exact AtCut.deeper hlt (ih _ hlength group_tags hmem rfl)

/-- Without a clash at a tag the order does not matter for it. -/
theorem kept_perm {rules rules' : List Rule} (h : rules.Perm rules')
    (hdistinct : Distinct rules) {tag : Str}
    (hfree : ¬ ∃ equals starts, Clash rules equals starts ∧ equals.tag = tag) :
    kept rules tag = kept rules' tag := by
  have hperm := h.filter fun rule => decide (rule.tag = tag)
  rw [kept, kept]
  cases hfilter : rules.filter fun rule => rule.tag = tag with
  | nil =>
    rw [hfilter] at hperm
    rw [hperm.nil_eq]
  | cons a more =>
    cases more with
    | nil =>
      rw [hfilter] at hperm
      rw [hperm.singleton_eq]
    | cons b more =>
      exfalso
      have hpair := hdistinct.filter fun rule => decide (rule.tag = tag)
      have hmem : ∀ r ∈ a :: b :: more, r ∈ rules ∧ r.tag = tag := by
        intro r hr
        rw [← hfilter] at hr
        obtain ⟨hr, htag⟩ := List.mem_filter.mp hr
        exact ⟨hr, of_decide_eq_true htag⟩
      obtain ⟨ha, hatag⟩ := hmem a List.mem_cons_self
      obtain ⟨hb, hbtag⟩ := hmem b (List.mem_cons_of_mem a List.mem_cons_self)
      rw [hfilter] at hpair
      have hne := (List.pairwise_cons.mp hpair).1 b List.mem_cons_self
      have htags : a.tag = b.tag := hatag.trans hbtag.symm
      have hkinds : a.isExact ≠ b.isExact := fun he => hne ⟨htags, he⟩
      cases hexact : a.isExact with
      | true =>
        have hstarts : b.isExact = false := by simpa [hexact] using hkinds
        exact hfree ⟨a, b, ⟨ha, hb, htags, hexact, hstarts⟩, hatag⟩
      | false =>
        have hequals : b.isExact = true := by simpa [hexact] using hkinds
        exact hfree ⟨b, a, ⟨hb, ha, htags.symm, hequals, hexact⟩, hbtag⟩

/-! ## Rules that clash -/

theorem Distinct.eq {rules : List Rule} (h : Distinct rules) {a b : Rule} (ha : a ∈ rules)
    (hb : b ∈ rules) (htag : a.tag = b.tag) (hexact : a.isExact = b.isExact) : a = b := by
  have hsame := List.Pairwise.forall_of_forall_of_flip
    (R := fun a b => a.tag = b.tag → a.isExact = b.isExact → a = b) (fun _ _ _ _ => rfl)
    (h.imp fun hne htag hexact => absurd ⟨htag, hexact⟩ hne)
    (h.imp fun hne htag hexact => absurd ⟨htag.symm, hexact.symm⟩ hne)
  exact hsame ha hb htag hexact

theorem Distinct.perm {rules rules' : List Rule} (h : Distinct rules) (hperm : rules.Perm rules') :
    Distinct rules' :=
  (hperm.pairwise_iff fun hne heq => hne ⟨heq.1.symm, heq.2.symm⟩).mp h

theorem Clash.perm {rules rules' : List Rule} {equals starts : Rule} (h : Clash rules equals starts)
    (hperm : rules.Perm rules') : Clash rules' equals starts :=
  { h with equals_mem := hperm.subset h.equals_mem, starts_mem := hperm.subset h.starts_mem }

/-- Of two rules that clash one is kept. -/
theorem Clash.kept {rules : List Rule} {equals starts : Rule} (h : Clash rules equals starts)
    (hdistinct : Distinct rules) :
    kept rules equals.tag = some equals ∨ kept rules equals.tag = some starts := by
  cases hkept : Categories.kept rules equals.tag with
  | none =>
    rw [Categories.kept, List.getLast?_eq_none_iff, List.filter_eq_nil_iff] at hkept
    exact absurd (decide_eq_true rfl) (hkept equals h.equals_mem)
  | some rule =>
    obtain ⟨hmem, htag⟩ := List.mem_filter.mp (List.mem_of_getLast? hkept)
    have htag : rule.tag = equals.tag := of_decide_eq_true htag
    cases hexact : rule.isExact with
    | true =>
      rw [hdistinct.eq hmem h.equals_mem htag (hexact.trans h.is_exact.symm)]
      exact Or.inl rfl
    | false =>
      rw [hdistinct.eq hmem h.starts_mem (htag.trans h.tag_eq) (hexact.trans h.not_exact.symm)]
      exact Or.inr rfl

theorem inherited_concat (rules : List Rule) (name : Str) (c : Char) :
    inherited rules (name ++ [c]) = (prefixOf rules (name ++ [c])).or (inherited rules name) := by
  have hlist : (name ++ [c]).inits.reverse = (name ++ [c]) :: name.inits.reverse := by
    simp [List.inits_append]
  rw [inherited, inherited, hlist, List.findSome?_cons]
  cases prefixOf rules (name ++ [c]) <;> rfl

theorem inherited_of_prefixOf {rules : List Rule} {name : Str} {category : Str}
    (h : prefixOf rules name = some category) : inherited rules name = some category := by
  rcases List.eq_nil_or_concat' name with rfl | ⟨start, c, rfl⟩
  · simpa [inherited] using h
  · rw [inherited_concat, h]
    rfl

theorem exactOf_of_kept {rules : List Rule} {tag : Str} {rule : Rule}
    (hkept : kept rules tag = some rule) : exactOf rules tag = exactCategory rule := by
  rw [exactOf, hkept, Option.bind_some]

theorem prefixOf_of_kept {rules : List Rule} {tag : Str} {rule : Rule}
    (hkept : kept rules tag = some rule) : prefixOf rules tag = prefixCategory rule := by
  rw [prefixOf, hkept, Option.bind_some]

section Categories

variable {rules : List Rule} {equals starts : Rule} (h : Clash rules equals starts)

include h

theorem Clash.exactCategory_equals : exactCategory equals = some equals.category := by
  rw [exactCategory, h.is_exact]
  rfl

theorem Clash.exactCategory_starts : exactCategory starts = none := by
  rw [exactCategory, h.not_exact]
  rfl

theorem Clash.prefixCategory_equals : prefixCategory equals = none := by
  rw [prefixCategory, h.is_exact]
  rfl

theorem Clash.prefixCategory_starts : prefixCategory starts = some starts.category := by
  rw [prefixCategory, h.not_exact]
  rfl

end Categories

/-- What a kept rule that clashes gives to the names that start with its tag. -/
theorem prefixOf_clash {rules : List Rule} {equals starts : Rule} (h : Clash rules equals starts)
    (hdistinct : Distinct rules) (hsame : equals.category = starts.category) :
    prefixOf rules equals.tag = none ∨ prefixOf rules equals.tag = some equals.category := by
  rcases h.kept hdistinct with hkept | hkept
  · exact Or.inl ((prefixOf_of_kept hkept).trans h.prefixCategory_equals)
  · rw [hsame]
    exact Or.inr ((prefixOf_of_kept hkept).trans h.prefixCategory_starts)

theorem reference_clash {rules : List Rule} {equals starts : Rule} (h : Clash rules equals starts)
    (hdistinct : Distinct rules) (hsame : equals.category = starts.category) :
    reference rules equals.tag = some equals.category := by
  rw [reference]
  rcases h.kept hdistinct with hkept | hkept
  · rw [exactOf_of_kept hkept, h.exactCategory_equals, Option.some_or]
  · have hprefix : prefixOf rules equals.tag = some starts.category :=
      (prefixOf_of_kept hkept).trans h.prefixCategory_starts
    rw [exactOf_of_kept hkept, h.exactCategory_starts, Option.none_or, hsame]
    exact inherited_of_prefixOf hprefix

theorem continued_of_inner {rules : List Rule} {name : Str} (h : Continued (inner rules) name) :
    Continued rules name := by
  obtain ⟨rule, hrule, hmore⟩ := h
  exact ⟨rule, List.mem_of_mem_filter hrule, hmore⟩

section Free

variable {rules rules' : List Rule} (hperm : rules.Perm rules') (hdistinct : Distinct rules)
  (hharmless : ∀ equals starts, Clash rules equals starts → Harmless rules equals starts)

include hperm hdistinct hharmless

theorem prefixOf_nil_perm : prefixOf rules [] = prefixOf rules' [] := by
  rw [prefixOf, prefixOf, kept_perm hperm hdistinct]
  rintro ⟨equals, starts, hclash, htag⟩
  exact (hharmless equals starts hclash).tag_ne htag

theorem inherited_perm (name : Str) : inherited rules name = inherited rules' name := by
  induction name using List.reverseRecOn with
  | nil =>
    have hnil := prefixOf_nil_perm hperm hdistinct hharmless
    simpa [inherited] using hnil
  | append_singleton name c ih =>
    rw [inherited_concat, inherited_concat, ← ih]
    by_cases hclash : ∃ equals starts, Clash rules equals starts ∧ equals.tag = name ++ [c]
    · obtain ⟨equals, starts, hclash, htag⟩ := hclash
      obtain ⟨-, hsame, -, habove⟩ := hharmless equals starts hclash
      rw [htag, List.dropLast_concat] at habove
      rw [habove, ← htag]
      rcases prefixOf_clash hclash hdistinct hsame with h | h <;>
        rcases prefixOf_clash (hclash.perm hperm) (hdistinct.perm hperm) hsame with h' | h' <;>
        rw [h, h'] <;> rfl
    · rw [prefixOf, prefixOf, kept_perm hperm hdistinct hclash]

theorem reference_perm {name : Str} (hname : name ≠ []) : reference rules name = reference rules' name := by
  have hinherited := inherited_perm hperm hdistinct hharmless name
  by_cases hclash : ∃ equals starts, Clash rules equals starts ∧ equals.tag = name
  · obtain ⟨equals, starts, hclash, rfl⟩ := hclash
    have hsame := (hharmless equals starts hclash).same
    rw [reference_clash hclash hdistinct hsame,
      reference_clash (hclash.perm hperm) (hdistinct.perm hperm) hsame]
  · rw [reference, reference, exactOf, exactOf, kept_perm hperm hdistinct hclash]
    exact congrArg _ hinherited

theorem stuck_perm {name : Str} (hname : name ≠ []) :
    Stuck (inner rules) name ↔ Stuck (inner rules') name := by
  have hkeep (hcontinued : Continued rules name) :
      exactOf (inner rules) name = exactOf (inner rules') name := by
    have hfree : ¬ ∃ equals starts, Clash rules equals starts ∧ equals.tag = name := by
      rintro ⟨equals, starts, hclash, rfl⟩
      exact (hharmless equals starts hclash).last hcontinued
    rw [exactOf, exactOf, kept_inner hname, kept_inner hname, kept_perm hperm hdistinct hfree]
  constructor
  · rintro ⟨hcut, hcontinued, hexact⟩
    have hkeep := hkeep (continued_of_inner hcontinued)
    exact ⟨atCut_perm hcut (inner_perm hperm), continued_perm hcontinued (inner_perm hperm),
      hkeep.symm.trans hexact⟩
  · rintro ⟨hcut, hcontinued, hexact⟩
    have hcontinued' := continued_perm hcontinued (inner_perm hperm).symm
    exact ⟨atCut_perm hcut (inner_perm hperm).symm, hcontinued',
      (hkeep (continued_of_inner hcontinued')).trans hexact⟩

theorem search_perm (name : Str) : search rules name = search rules' name := by
  by_cases hne : rules = []
  · subst hne
    rw [hperm.nil_eq]
  have hne' : rules' ≠ [] := fun hnil => hne (List.perm_nil.mp (hnil ▸ hperm))
  by_cases hname : name = []
  · rw [hname, search_nil hne, search_nil hne', prefixOf_nil_perm hperm hdistinct hharmless]
  by_cases hstuck : Stuck (inner rules) name
  · rw [(search_eq hne hname).1 hstuck,
      (search_eq hne' hname).1 ((stuck_perm hperm hdistinct hharmless hname).mp hstuck)]
  · have hstuck' := mt (stuck_perm hperm hdistinct hharmless hname).mpr hstuck
    rw [(search_eq hne hname).2 hstuck, (search_eq hne' hname).2 hstuck',
      reference_perm hperm hdistinct hharmless hname]

end Free

/-! ## The two orders of rules that clash -/

/-- A rule that is moved to the end is kept for its tag, and nothing changes for the others. -/
theorem exists_last {rules : List Rule} {rule : Rule} (hmem : rule ∈ rules) :
    ∃ rules', rules.Perm rules' ∧ kept rules' rule.tag = some rule ∧
      ∀ tag ≠ rule.tag, kept rules' tag = kept rules tag := by
  obtain ⟨l, r, rfl⟩ := List.append_of_mem hmem
  refine ⟨l ++ r ++ [rule], ?_, ?_, fun tag htag => ?_⟩
  · rw [List.append_assoc]
    exact (List.perm_append_singleton rule r).symm.append_left l
  · rw [kept, List.filter_append, List.filter_cons_of_pos (by simp), List.filter_nil,
      List.getLast?_concat]
  · rw [kept, kept, List.filter_append, List.filter_append, List.filter_append,
      List.filter_cons_of_neg (by simpa using Ne.symm htag),
      List.filter_cons_of_neg (by simpa using Ne.symm htag), List.filter_nil, List.append_nil]

theorem inherited_congr {rules rules' : List Rule} {name : Str}
    (h : ∀ tag, tag <+: name → kept rules tag = kept rules' tag) :
    inherited rules name = inherited rules' name := by
  induction name using List.reverseRecOn with
  | nil =>
    have hnil : prefixOf rules [] = prefixOf rules' [] := by
      rw [prefixOf, prefixOf, h [] List.nil_prefix]
    simpa [inherited] using hnil
  | append_singleton name c ih =>
    rw [inherited_concat, inherited_concat, prefixOf, prefixOf, h _ List.prefix_rfl,
      ih fun tag htag => h tag (htag.trans (List.prefix_append name [c]))]

section Behind

variable {rules : List Rule} {tag : Str} (htag : ¬ Continued rules tag)

include htag

theorem not_stuck_of_not_continued : ¬ Stuck (inner rules) tag :=
  fun hstuck => htag (continued_of_inner hstuck.continued)

/-- A name that goes on by one character behind a tag that no other one begins with is of the
category that the tag gives to longer names. -/
theorem search_concat (hne : rules ≠ []) (c : Char) :
    search rules (tag ++ [c]) = .ok (inherited rules tag) := by
  have hlonger : ¬ Continued rules (tag ++ [c]) := by
    intro hmore
    obtain ⟨rule, hrule, more, -, hmore⟩ := hmore
    exact htag ⟨rule, hrule, c :: more, List.cons_ne_nil c more, by simpa using hmore⟩
  have hnone : kept rules (tag ++ [c]) = none :=
    kept_eq_none fun rule hrule hmore => htag ⟨rule, hrule, [c], List.cons_ne_nil c [], hmore⟩
  rw [(search_eq hne (by simp)).2 (not_stuck_of_not_continued hlonger), reference, exactOf, hnone,
    Option.bind_none, Option.none_or]
  show Except.ok (inherited rules (tag ++ [c])) = _
  rw [inherited_concat, prefixOf, hnone]
  rfl

end Behind

section Kept

variable {rules : List Rule} {equals starts : Rule} (hclash : Clash rules equals starts)

include hclash

/-- With the rule for the name itself kept, the name is found. -/
theorem search_keeps_equals (htag : equals.tag ≠ []) {first : List Rule} (hne : first ≠ [])
    (hkept : kept first equals.tag = some equals) :
    search first equals.tag = .ok (some equals.category) := by
  have hexact : exactOf first equals.tag = some equals.category :=
    (exactOf_of_kept hkept).trans hclash.exactCategory_equals
  have hfree : ¬ Stuck (inner first) equals.tag := by
    intro hstuck
    have hnone := hstuck.not_exact
    rw [exactOf, kept_inner htag, ← exactOf, hexact] at hnone
    cases hnone
  rw [(search_eq hne htag).2 hfree, reference, hexact, Option.some_or]

/-- With the other one kept, the search ends in an exception if a longer tag begins with it. -/
theorem stuck_keeps_starts (htag : equals.tag ≠ []) (hcontinued : Continued rules equals.tag)
    {last : List Rule} (hperm : rules.Perm last) (hkept : kept last equals.tag = some starts) :
    Stuck (inner last) equals.tag := by
  have hmem : equals ∈ inner rules :=
    List.mem_filter.mpr ⟨hclash.equals_mem, decide_eq_true htag⟩
  obtain ⟨rule, hrule, more, hmore, hlonger⟩ := hcontinued
  have hinner : rule ∈ inner last := by
    refine (inner_perm hperm).subset (List.mem_filter.mpr ⟨hrule, ?_⟩)
    rw [hlonger]
    exact decide_eq_true (List.append_ne_nil_of_left_ne_nil htag more)
  refine ⟨atCut_perm (atCut_of_mem inner_tags hmem) (inner_perm hperm),
    ⟨rule, hinner, more, hmore, hlonger⟩, ?_⟩
  rw [exactOf, kept_inner htag, ← exactOf, exactOf_of_kept hkept, hclash.exactCategory_starts]

end Kept

/-- If the order never shows, rules that clash are harmless. -/
theorem harmless_of_orderFree {rules : List Rule} (h : OrderFree rules) {equals starts : Rule}
    (hclash : Clash rules equals starts) : Harmless rules equals starts := by
  have hne := List.ne_nil_of_mem hclash.equals_mem
  obtain ⟨first, hfirst, hkeptFirst, hotherFirst⟩ := exists_last hclash.equals_mem
  obtain ⟨last, hlast, hkeptLast, -⟩ := exists_last hclash.starts_mem
  rw [← hclash.tag_eq] at hkeptLast
  have hsearch (name : Str) : search first name = search last name :=
    (h first hfirst name).symm.trans (h last hlast name)
  have hneFirst : first ≠ [] := fun hnil => hne (List.perm_nil.mp (hnil ▸ hfirst))
  have hneLast : last ≠ [] := fun hnil => hne (List.perm_nil.mp (hnil ▸ hlast))
  have hprefixFirst : prefixOf first equals.tag = none :=
    (prefixOf_of_kept hkeptFirst).trans hclash.prefixCategory_equals
  have hprefixLast : prefixOf last equals.tag = some starts.category :=
    (prefixOf_of_kept hkeptLast).trans hclash.prefixCategory_starts
  have hinherited := inherited_of_prefixOf hprefixLast
  have htag : equals.tag ≠ [] := by
    intro hnil
    have hempty := hsearch []
    rw [search_nil hneFirst, search_nil hneLast, ← hnil, hprefixFirst, hprefixLast] at hempty
    cases hempty
  have hfound := hsearch equals.tag
  rw [search_keeps_equals hclash htag hneFirst hkeptFirst] at hfound
  have hcontinued : ¬ Continued rules equals.tag := by
    intro hcontinued
    have hstuck := stuck_keeps_starts hclash htag hcontinued hlast hkeptLast
    rw [(search_eq hneLast htag).1 hstuck] at hfound
    cases hfound
  have hfree {rules' : List Rule} (hperm : rules.Perm rules') : ¬ Continued rules' equals.tag :=
    fun hmore => hcontinued (continued_perm hmore hperm.symm)
  have hsame : equals.category = starts.category := by
    rw [(search_eq hneLast htag).2 (not_stuck_of_not_continued (hfree hlast)), reference,
      exactOf_of_kept hkeptLast, hclash.exactCategory_starts, Option.none_or] at hfound
    exact Option.some.inj ((Except.ok.inj hfound).trans hinherited)
  refine ⟨htag, hsame, hcontinued, ?_⟩
  -- a name that goes on behind the tag by one character
  obtain ⟨start, c, hsplit⟩ := (List.eq_nil_or_concat' equals.tag).resolve_left htag
  have hboth := hsearch (equals.tag ++ [c])
  rw [search_concat (hfree hfirst) hneFirst, search_concat (hfree hlast) hneLast, hinherited,
    ← hsame] at hboth
  have habove : inherited first equals.tag = inherited first equals.tag.dropLast := by
    rw [hsplit] at hprefixFirst
    rw [hsplit, List.dropLast_concat, inherited_concat, hprefixFirst, Option.none_or]
  have hshort : ∀ tag, tag <+: equals.tag.dropLast → kept first tag = kept rules tag := by
    intro tag hprefix
    refine hotherFirst tag fun heq => ?_
    have hle := hprefix.length_le
    rw [heq, List.length_dropLast] at hle
    have hpos := List.length_pos_of_ne_nil htag
    omega
  rw [← inherited_congr hshort, ← habove]
  exact Except.ok.inj hboth

/-! ## The result -/

/-- The order of the rules makes no difference exactly if all rules that clash are harmless. -/
theorem order_free_iff (rules : List Rule) (hdistinct : Distinct rules) :
    OrderFree rules ↔
      ∀ equals starts, Clash rules equals starts → Harmless rules equals starts := by
  constructor
  · exact fun h equals starts hclash => harmless_of_orderFree h hclash
  · exact fun h rules' hperm name => search_perm hperm hdistinct h name

/-- The tag `ab` has both rules, which agree with the rule for what starts with `a`. -/
def agreeing : List Rule :=
  [⟨['a'], ['c'], false⟩, ⟨['a', 'b'], ['c'], true⟩, ⟨['a', 'b'], ['c'], false⟩]

theorem order_free_agreeing : OrderFree agreeing := by
  have hdistinct : Distinct agreeing := by
    unfold Distinct
    decide
  refine (order_free_iff agreeing hdistinct).mpr fun equals starts hclash => ?_
  have hequals : ∀ rule ∈ agreeing, rule.isExact = true → rule = ⟨['a', 'b'], ['c'], true⟩ := by
    simp [agreeing]
  have hcategory : ∀ rule ∈ agreeing, rule.category = ['c'] := by simp [agreeing]
  have hlength : ∀ rule ∈ agreeing, rule.tag.length ≤ 2 := by decide
  obtain rfl := hequals equals hclash.equals_mem hclash.is_exact
  refine ⟨by decide, (hcategory starts hclash.starts_mem).symm, ?_, by decide⟩
  rintro ⟨rule, hrule, more, hmore, htag⟩
  have hle := hlength rule hrule
  have hpos := List.length_pos_of_ne_nil hmore
  rw [htag, List.length_append] at hle
  change 2 + more.length ≤ 2 at hle
  omega

/-- The tag `ab` is of one category, and what starts with it of another. -/
def clashing : List Rule := [⟨['a', 'b'], ['c'], true⟩, ⟨['a', 'b'], ['d'], false⟩]

theorem not_order_free : ¬ ∀ rules, Distinct rules → OrderFree rules := by
  intro h
  have hdistinct : Distinct clashing := by
    unfold Distinct
    decide
  have hclash : Clash clashing ⟨['a', 'b'], ['c'], true⟩ ⟨['a', 'b'], ['d'], false⟩ :=
    ⟨List.mem_cons_self, List.mem_cons_of_mem _ List.mem_cons_self, rfl, rfl, rfl⟩
  have hsame := (harmless_of_orderFree (h clashing hdistinct) hclash).same
  have hne : ['c'] ≠ ['d'] := by decide
  exact hne hsame

end Unitrace.Summary.RuleOrder
