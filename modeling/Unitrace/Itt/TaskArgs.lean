import Unitrace.Itt.Metadata

/-!
# The arguments of a logged task

Along a run every entry of the task stack is followed by the items that were added
while it was on top. Fresh memory is zero-filled. The event that an end call logs has
all these items as arguments, unless one of them has the type `double`.
-/
namespace Unitrace.Itt.TaskArgs

open Unitrace.Lib.Text Unitrace.Lib.ByteString Unitrace.Itt.Control Unitrace.Itt.Tasks
open Unitrace.Itt.TaskEnds Unitrace.Itt.Metadata
open Unitrace.Trace.Record

inductive Call where
  | taskBegin (domain name : Option (Option CStr)) (now : UInt64) (memory : ThreadTaskDescriptor)
  | taskEnd (ending : Ending) (domain : Option (Option CStr)) (now : UInt64)
  | metadata (i : Item)

/-- A fresh block for `size` bytes of data. -/
def zeroFilled (size : Nat) : Block where
  isIndirectData := false
  data := List.replicate (max size 8) 0

/-- The call that adds an item: strings have a function of their own. -/
def addCall (c : UniController) (collector : IttCollector) (behind : Behind) (i : Item)
    (taskDesc : List ThreadTaskDescriptor) : List ThreadTaskDescriptor :=
  if i.type = .unknown then
    metadataStrAdd c collector behind (zeroFilled i.data.length) i.key (some i.data) i.count taskDesc
  else
    metadataAdd c collector behind (zeroFilled i.data.length) i.key i.type i.count (some i.data)
      taskDesc

/-- The task stack, and beside every entry the items that were added to it. -/
structure State where
  taskDesc : List ThreadTaskDescriptor
  items : List (List Item)

/-- A begin or end call. An event is logged together with the items of its entry. -/
def stackCall (c : UniController) (collector : IttCollector) (s : State) (x : TaskEnds.Call) :
    Option (State × Option (List Item × IttEvent)) :=
  (call ⟨c, collector, s.taskDesc⟩ x).map fun (t, logged) =>
    let before := s.taskDesc.length
    let after := t.taskDesc.length
    ({ taskDesc := t.taskDesc
       items := if before < after then [] :: s.items
         else if after < before then s.items.tail else s.items },
      match logged with
      | some (.itt e) => some (s.items.headD [], e)
      | _ => none)

def State.step (c : UniController) (collector : IttCollector) (behind : Behind) (s : State) :
    Call → Option (State × Option (List Item × IttEvent))
  | .taskBegin domain name now memory => stackCall c collector s (.taskBegin domain name now memory)
  | .taskEnd ending domain now => stackCall c collector s (.taskEnd ending domain now)
  | .metadata i =>
    some ({ taskDesc := addCall c collector behind i s.taskDesc
            items := match s.items with
              | items :: rest => (items ++ [i]) :: rest
              | [] => [] }, none)

/-- The logged events of a run, which goes on until a call has undefined behaviour. -/
def State.run (c : UniController) (collector : IttCollector) (behind : Behind) :
    State → List Call → List (List Item × IttEvent)
  | _, [] => []
  | s, x :: calls =>
    match s.step c collector behind x with
    | none => []
    | some (s', logged) => logged.toList ++ State.run c collector behind s' calls

/-- The arguments of the event are the items, each of them once and with all its values,
and nothing else. -/
def ArgsComplete (items : List Item) (e : IttEvent) : Prop :=
  ∃ l : List Item, l.Perm items ∧ renderArgs e = some (List.intercalate (lit ",") (l.map Item.text))

/-- The item is neither dropped nor too long to be rendered. -/
def Supported (i : Item) : Prop := i.type ≠ .double ∧ (i.type = .unknown ∨ i.count < 2 ^ 31)

/-! ## The invariant -/

def kept (items : List Item) : List Item := items.filter fun i => decide (i.type ≠ .double)

/-- Every entry represents the items that were added to it, but for those of type `double`. -/
def Inv (s : State) : Prop :=
  List.Forall₂ (fun items d => Represents Holds (kept items) d.metadataArgs) s.items s.taskDesc

theorem empty_inv : Inv ⟨[], []⟩ := List.Forall₂.nil

variable {c : UniController} {collector : IttCollector} {behind : Behind}

/-- An item of type `double` is dropped, all others are added. -/
theorem addCall_eq (hc : c.isCollectionEnabled = true) (htrace : collector.chromeLoggingOn = true)
    (i : Item) (task : ThreadTaskDescriptor) (rest : List ThreadTaskDescriptor) :
    addCall c collector behind i (task :: rest) =
      if i.type = .double then task :: rest
      else { task with
        metadataArgs := addItem behind (zeroFilled i.data.length) i.key i.type i.count i.data
          task.metadataArgs } :: rest := by
  have hcount : i.count ≠ 0 := Nat.ne_of_gt i.count_pos
  unfold addCall metadataStrAdd metadataAdd
  cases htype : i.type <;> simp [hc, htrace, hcount, typeValue]

theorem holds_newNode (i : Item) :
    Holds i (newNode behind (zeroFilled i.data.length) i.key i.type i.count i.data) :=
  ⟨rfl, rfl, rfl, prefix_overwrite i.data _⟩

theorem kept_append (items : List Item) (i : Item) :
    kept (items ++ [i]) = if i.type = .double then kept items else kept items ++ [i] := by
  unfold kept
  rw [List.filter_append]
  by_cases h : i.type = .double <;> simp [h]

theorem stackCall_inv {s s' : State} {x : TaskEnds.Call} {logged : Option (List Item × IttEvent)}
    (hi : Inv s) (h : stackCall c collector s x = some (s', logged)) :
    Inv s' ∧ ∀ items e, logged = some (items, e) →
      ∃ args, e.metadataArgs = some args ∧ Represents Holds (kept items) args := by
  obtain ⟨⟨t, log⟩, hcall, heq⟩ := Option.map_eq_some_iff.mp h
  rcases call_cases hcall with ⟨domain, name, now, memory, d, -, hpush, hlog, -, hfresh⟩ |
    ⟨ending, domain, now, top, -, hpop, hlog⟩ | ⟨hsame, hlog⟩
  · subst hlog
    simp only at hpush
    simp only [hpush, List.length_cons] at heq
    rw [if_pos (by omega)] at heq
    cases heq
    refine ⟨List.Forall₂.cons ?_ hi, by simp⟩
    rw [hfresh]
    exact ⟨rfl, rfl, rfl⟩
  · simp only at hpop
    simp only [hpop, List.length_cons] at heq
    rw [if_neg (by omega), if_pos (by omega)] at heq
    unfold Inv at hi
    rw [hpop] at hi
    cases hitems : s.items with
    | nil =>
      rw [hitems] at hi
      cases hi
    | cons items rest =>
      rw [hitems] at hi heq
      obtain ⟨htop, hrest⟩ := List.forall₂_cons.mp hi
      cases heq
      refine ⟨hrest, fun items' e he => ?_⟩
      split at he
      · rename_i e'
        cases he
        exact ⟨top.metadataArgs, (hlog _ rfl).2.2 e rfl, htop⟩
      · cases he
  · subst hlog
    simp only at hsame
    simp only [hsame, Nat.lt_irrefl, ↓reduceIte] at heq
    cases heq
    exact ⟨hi, by simp⟩

theorem step_inv (hc : c.isCollectionEnabled = true) (htrace : collector.chromeLoggingOn = true)
    {s s' : State} {x : Call} {logged : Option (List Item × IttEvent)} (hi : Inv s)
    (h : s.step c collector behind x = some (s', logged)) :
    Inv s' ∧ ∀ items e, logged = some (items, e) →
      ∃ args, e.metadataArgs = some args ∧ Represents Holds (kept items) args := by
  cases x with
  | taskBegin domain name now memory => exact stackCall_inv hi h
  | taskEnd ending domain now => exact stackCall_inv hi h
  | metadata i =>
    cases h
    refine ⟨?_, by simp⟩
    unfold Inv at hi ⊢
    cases hstack : s.taskDesc with
    | nil =>
      rw [hstack] at hi
      have hnone : s.items = [] := List.forall₂_nil_right_iff.mp hi
      have hsame : addCall c collector behind i [] = [] := by
        unfold addCall metadataStrAdd metadataAdd
        simp
      rw [hnone, hsame]
      exact List.Forall₂.nil
    | cons task rest =>
      rw [hstack] at hi
      obtain ⟨items, more, htop, hrest, hitems⟩ := List.forall₂_cons_right_iff.mp hi
      rw [hitems, addCall_eq hc htrace]
      split
      · rename_i hdouble
        refine List.Forall₂.cons ?_ hrest
        rw [kept_append, if_pos hdouble]
        exact htop
      · rename_i hkept
        refine List.Forall₂.cons ?_ hrest
        rw [kept_append, if_neg hkept]
        exact represents_addItem htop (holds_newNode i)

/-! ## The text of the arguments -/

/-- The order in which the items are rendered. -/
def rendered : List Item → List Item
  | [] => []
  | first :: more => first :: more.reverse

theorem rendered_perm (items : List Item) : (rendered items).Perm items := by
  cases items with
  | nil => exact List.Perm.refl _
  | cons first more => exact (List.reverse_perm more).cons first

theorem flatMap_itemText {items : List Item} {nodes : List IttNode}
    (h : List.Forall₂ Holds items nodes) :
    (nodes.flatMap fun node => lit "," ++ itemText node) =
      items.flatMap fun i => lit "," ++ i.text := by
  induction h with
  | nil => rfl
  | cons hnode _ ih => rw [List.flatMap_cons, List.flatMap_cons, ih, itemText_of_holds hnode]

theorem argsText_of_represents {first : Item} {more : List Item} {args : IttArgs}
    (h : Represents Holds (first :: more) args) :
    argsText args = List.intercalate (lit ",") ((rendered (first :: more)).map Item.text) := by
  obtain ⟨hfirst, hmore⟩ := h
  rw [argsText, itemText_of_holds hfirst, flatMap_itemText hmore, rendered, List.map_cons,
    intercalate_cons, List.flatMap_map]

theorem renderable_iff {i : Item} {n : IttNode} (h : Holds i n) :
    Renderable n ↔ i.type = .unknown ∨ i.count < 2 ^ 31 := by
  rw [Renderable, h.type, h.count]

theorem forall_renderable {items : List Item} {nodes : List IttNode}
    (h : List.Forall₂ Holds items nodes) :
    (∀ n ∈ nodes, Renderable n) ↔ ∀ i ∈ items, i.type = .unknown ∨ i.count < 2 ^ 31 := by
  induction h with
  | nil => simp
  | cons hnode _ ih => rw [List.forall_mem_cons, List.forall_mem_cons, ih, renderable_iff hnode]

/-- An event renders the items that its arguments represent, unless one of them has too
many values. -/
theorem renderArgs_of_represents {items : List Item} {args : IttArgs} {e : IttEvent}
    (he : e.metadataArgs = some args) (h : Represents Holds items args) :
    ((∀ i ∈ items, i.type = .unknown ∨ i.count < 2 ^ 31) →
        renderArgs e = some (List.intercalate (lit ",") ((rendered items).map Item.text))) ∧
      (¬ (∀ i ∈ items, i.type = .unknown ∨ i.count < 2 ^ 31) → renderArgs e = none) := by
  cases items with
  | nil =>
    have hnone : e.shown = none := by simp [IttEvent.shown, he, h.1]
    refine ⟨fun _ => ?_, fun h => absurd (by simp) h⟩
    rw [renderArgs, hnone]
    rfl
  | cons first more =>
    have hcount : args.count ≠ 0 := by
      rw [h.1.count]
      exact Nat.ne_of_gt first.count_pos
    have hsome : e.shown = some args := by simp [IttEvent.shown, he, hcount]
    have hiff : (Renderable args.toIttNode ∧ ∀ node ∈ args.next, Renderable node) ↔
        ∀ i ∈ first :: more, i.type = .unknown ∨ i.count < 2 ^ 31 := by
      rw [List.forall_mem_cons, renderable_iff h.1, forall_renderable h.2]
      simp only [List.mem_reverse]
    constructor
    · intro hall
      simp only [renderArgs, hsome]
      rw [if_pos (hiff.mpr hall), argsText_of_represents h]
    · intro hnot
      simp only [renderArgs, hsome]
      rw [if_neg fun hr => hnot (hiff.mp hr)]

/-! ## No item is left out -/

/-- The length of the items with a separator behind each of them. -/
def weight (items : List Item) : Nat := (items.map fun i => i.text.length + 1).sum

theorem weight_append (xs ys : List Item) : weight (xs ++ ys) = weight xs + weight ys := by
  rw [weight, List.map_append, List.sum_append_nat]
  rfl

theorem length_text_pos (i : Item) : 0 < i.text.length := by
  have hquote : (lit "\"").length = 1 := by decide +kernel
  rw [Item.text, itemText, List.append_assoc, List.append_assoc, List.append_assoc,
    List.length_append, hquote]
  omega

theorem length_intercalate (items : List Item) :
    (List.intercalate (lit ",") (items.map Item.text)).length = weight items - 1 := by
  have hcomma : (lit ",").length = 1 := by decide +kernel
  cases items with
  | nil => rfl
  | cons first more =>
    have hmore : ((more.map Item.text).flatMap fun y => lit "," ++ y).length = weight more := by
      induction more with
      | nil => rfl
      | cons i more ih =>
        rw [List.map_cons, List.flatMap_cons, List.length_append, List.length_append, hcomma, ih]
        simp only [weight, List.map_cons, List.sum_cons]
        omega
    rw [List.map_cons, intercalate_cons, List.length_append, hmore]
    simp only [weight, List.map_cons, List.sum_cons]
    omega

theorem weight_kept_le (items : List Item) : weight (kept items) ≤ weight items := by
  induction items with
  | nil => exact Nat.le_refl _
  | cons i items ih =>
    have hcons : weight (i :: items) = i.text.length + 1 + weight items := by simp [weight]
    have hkept : weight (kept (i :: items)) ≤ i.text.length + 1 + weight (kept items) := by
      unfold kept
      rw [List.filter_cons]
      split
      · simp [weight]
      · omega
    omega

/-- A dropped item is missed in the length. -/
theorem weight_kept_lt {items : List Item} {i : Item} (hi : i ∈ items) (h : i.type = .double) :
    weight (kept items) + 2 ≤ weight items := by
  obtain ⟨before, after, rfl⟩ := List.append_of_mem hi
  have hkept : kept (before ++ i :: after) = kept before ++ kept after := by
    simp [kept, h]
  have hbefore := weight_kept_le before
  have hafter := weight_kept_le after
  have hpos := length_text_pos i
  have hcons : weight (i :: after) = i.text.length + 1 + weight after := by
    simp [weight]
  rw [hkept, weight_append, weight_append, hcons]
  omega

theorem weight_perm {xs ys : List Item} (h : xs.Perm ys) : weight xs = weight ys :=
  (h.map _).sum_nat

theorem kept_eq_self {items : List Item} (h : ∀ i ∈ items, i.type ≠ .double) : kept items = items :=
  List.filter_eq_self.mpr fun i hi => decide_eq_true (h i hi)

theorem argsComplete_iff {items : List Item} {args : IttArgs} {e : IttEvent}
    (he : e.metadataArgs = some args) (h : Represents Holds (kept items) args) :
    ArgsComplete items e ↔ ∀ i ∈ items, Supported i := by
  obtain ⟨hall, hnone⟩ := renderArgs_of_represents he h
  constructor
  · rintro ⟨l, hperm, htext⟩
    have hshort : ∀ i ∈ kept items, i.type = .unknown ∨ i.count < 2 ^ 31 := by
      by_contra hlong
      rw [hnone hlong] at htext
      cases htext
    have hlen := congrArg List.length (Option.some.inj ((hall hshort).symm.trans htext))
    rw [length_intercalate, length_intercalate, weight_perm (rendered_perm _),
      weight_perm hperm] at hlen
    intro i hi
    have hdouble : i.type ≠ .double := by
      intro hd
      have := weight_kept_lt hi hd
      omega
    exact ⟨hdouble, hshort i (List.mem_filter.mpr ⟨hi, decide_eq_true hdouble⟩)⟩
  · intro hsupported
    have hkept : kept items = items := kept_eq_self fun i hi => (hsupported i hi).1
    rw [hkept] at hall
    exact ⟨rendered items, rendered_perm items, hall fun i hi => (hsupported i hi).2⟩

/-! ## The result -/

theorem run_argsComplete (hc : c.isCollectionEnabled = true)
    (htrace : collector.chromeLoggingOn = true) {s : State} (hi : Inv s) (calls : List Call) :
    ∀ p ∈ s.run c collector behind calls, ArgsComplete p.1 p.2 ↔ ∀ i ∈ p.1, Supported i := by
  induction calls generalizing s with
  | nil => simp [State.run]
  | cons x calls ih =>
    intro p hp
    simp only [State.run] at hp
    cases hstep : s.step c collector behind x with
    | none => simp [hstep] at hp
    | some result =>
      obtain ⟨s', logged⟩ := result
      obtain ⟨hi', hlogged⟩ := step_inv hc htrace hi hstep
      simp only [hstep, List.mem_append, Option.mem_toList] at hp
      rcases hp with hp | hp
      · obtain ⟨args, he, hargs⟩ := hlogged p.1 p.2 hp
        exact argsComplete_iff he hargs
      · exact ih hi' p hp

/-- Of every event that a thread logs, the arguments are complete if none of the items
has the type `double` or more than `int` many values, and only then. -/
theorem logged_args_complete_iff (c : UniController) (hc : c.isCollectionEnabled = true)
    (collector : IttCollector) (htrace : collector.chromeLoggingOn = true) (behind : Behind)
    (calls : List Call) :
    ∀ p ∈ State.run c collector behind ⟨[], []⟩ calls,
      ArgsComplete p.1 p.2 ↔ ∀ i ∈ p.1, Supported i :=
  run_argsComplete hc htrace empty_inv calls

open Unitrace.Itt.PausedTasks (taskA collecting collecting_enabled descriptor taskBegin_eq)

def emptyKey : CStr := ⟨[], zero_notMem_nil⟩

/-- Three numbers, a string of nine bytes and a single number. -/
def threeItems : List Item :=
  [{ key := emptyKey, type := .u32, count := 3, data := List.replicate 12 1
     count_pos := by decide, length_eq := rfl, small := by decide },
    { key := emptyKey, type := .unknown, count := 9, data := List.replicate 9 65
      count_pos := by decide, length_eq := rfl, small := by decide },
    { key := emptyKey, type := .s16, count := 1, data := [1, 0]
      count_pos := by decide, length_eq := rfl, small := by decide }]

/-- The task `A` in a domain of the same name, with metadata. -/
def taskWith (items : List Item) : List Call :=
  .taskBegin (some (some taskA.name.val)) (some (some taskA.name.val)) taskA.startTs taskA.memory ::
    (items.map Call.metadata ++ [.taskEnd .plain (some (some taskA.name.val)) 4])

theorem run_metadata (d : ThreadTaskDescriptor) (items added : List Item) (calls : List Call) :
    ∃ args, State.run collecting ⟨false, true⟩ id ⟨[d], [added]⟩ (items.map Call.metadata ++ calls) =
      State.run collecting ⟨false, true⟩ id ⟨[{ d with metadataArgs := args }], [added ++ items]⟩
        calls := by
  induction items generalizing d added with
  | nil => exact ⟨d.metadataArgs, by rw [List.append_nil]; rfl⟩
  | cons i items ih =>
    have hadd : ∃ args, addCall collecting ⟨false, true⟩ id i [d] =
        [{ d with metadataArgs := args }] := by
      rw [addCall_eq collecting_enabled rfl]
      split
      · exact ⟨d.metadataArgs, rfl⟩
      · exact ⟨_, rfl⟩
    obtain ⟨args, hadd⟩ := hadd
    obtain ⟨args', hrest⟩ := ih { d with metadataArgs := args } (added ++ [i])
    refine ⟨args', ?_⟩
    rw [List.append_assoc] at hrest
    simp only [List.map_cons, List.cons_append, State.run, State.step, hadd]
    exact hrest

/-- The task is logged with all its items beside the event. -/
theorem logged_taskWith (items : List Item) :
    ∃ e, (items, e) ∈ State.run collecting ⟨false, true⟩ id ⟨[], []⟩ (taskWith items) := by
  obtain ⟨args, hrun⟩ :=
    run_metadata (descriptor taskA.name taskA) items [] [.taskEnd .plain (some (some taskA.name.val)) 4]
  have hbegin := taskBegin_eq taskA.name collecting false taskA []
  have hdomain : (descriptor taskA.name taskA).domain.text = some taskA.name.val :=
    text_store_short _ taskA.name
  have hname : (descriptor taskA.name taskA).name.text = some taskA.name.val :=
    text_store_short _ taskA.name
  simp only [collecting_enabled, ↓reduceIte] at hbegin
  have hstart : State.run collecting ⟨false, true⟩ id ⟨[], []⟩ (taskWith items) =
      State.run collecting ⟨false, true⟩ id ⟨[descriptor taskA.name taskA], [[]]⟩
        (items.map Call.metadata ++ [.taskEnd .plain (some (some taskA.name.val)) 4]) := by
    simp [taskWith, State.run, State.step, stackCall, call, hbegin]
  rw [hstart, hrun]
  simp [State.run, State.step, stackCall, call, Ending.call, Tasks.taskEnd, collecting_enabled,
    hdomain, hname]

theorem logged_args_complete_iff_threeItems :
    ∃ e, (threeItems, e) ∈ State.run collecting ⟨false, true⟩ id ⟨[], []⟩ (taskWith threeItems) ∧
      ArgsComplete threeItems e := by
  obtain ⟨e, he⟩ := logged_taskWith threeItems
  have hsupported : ∀ i ∈ threeItems, Supported i := by
    simp [threeItems, Supported]
  exact ⟨e, he, (logged_args_complete_iff collecting collecting_enabled ⟨false, true⟩ rfl id
    (taskWith threeItems) _ he).mpr hsupported⟩

def doubleItem : Item where
  key := emptyKey
  type := .double
  count := 1
  data := List.replicate 8 0
  count_pos := by decide
  length_eq := rfl
  small := by decide

/-- An item of type `double` is dropped without notice. -/
theorem not_argsComplete_double :
    ¬ ∀ (c : UniController) (collector : IttCollector) (behind : Behind) (calls : List Call),
      c.isCollectionEnabled = true → collector.chromeLoggingOn = true →
      ∀ p ∈ State.run c collector behind ⟨[], []⟩ calls, ArgsComplete p.1 p.2 := by
  intro h
  obtain ⟨e, he⟩ := logged_taskWith [doubleItem]
  have hcomplete := h collecting ⟨false, true⟩ id (taskWith [doubleItem]) collecting_enabled rfl _ he
  have hsupported := (run_argsComplete collecting_enabled rfl empty_inv (taskWith [doubleItem]) _
    he).mp hcomplete
  exact (hsupported doubleItem List.mem_cons_self).1 rfl

end Unitrace.Itt.TaskArgs
