import Mathlib.Data.List.MinMax
import Mathlib.Logic.Function.Basic
import Mathlib.Order.Nat
import Unitrace.Lib.ByteString
import Unitrace.Lib.Intern
import Unitrace.Lib.LinkedList

/-!
# Domains and string handles

`__itt_domain_create` and `__itt_string_handle_create` return the node of a name in a
linked list of the ITT global, a new one for a new name. The string comparison and the
macros that add a node come from a header outside of the repository, so they are a
parameter here. The mutex serializes the calls of all threads.
-/
namespace Unitrace.Itt.Handles

open Unitrace.Lib Unitrace.Lib.ByteString
open Unitrace.Lib.LinkedList (Memory Linked Appended search lastOr)
open Unitrace.Lib.Intern (Table Request Requests names)

abbrev Address := Nat

abbrev Thread := Nat

/-- The nodes of one type and the pointer to the first one. The value of a node is its
name, which may be null. -/
structure NodeList where
  first : Option Address
  nodes : Memory Address (Option CStr)

structure IttGlobal where
  mutex : Option Thread
  domainList : NodeList
  stringList : NodeList

/-- What comes from `ittnotify_config.h`. A macro is given the list, the tail and the
name. -/
structure Config where
  fstrcmp : CStr → CStr → Int
  newDomainA : NodeList → Option Address → CStr → NodeList × Address
  newStringHandleA : NodeList → Option Address → CStr → NodeList × Address

/-- There is no result while the mutex is held, the call waits. -/
def IttGlobal.mutexLock (g : IttGlobal) (thread : Thread) : Option IttGlobal :=
  if g.mutex = none then some { g with mutex := some thread } else none

def IttGlobal.mutexUnlock (g : IttGlobal) : IttGlobal := { g with mutex := none }

/-- The test of the search loops. -/
def holds (config : Config) (name : CStr) : Option CStr → Bool
  | none => false
  | some stored => config.fstrcmp stored name == 0

/-- The search loop and the macro behind it. A search that has not ended after all the
nodes in memory never ends. -/
def findOrNew (config : Config) (new : NodeList → Option Address → CStr → NodeList × Address)
    (list : NodeList) (name : CStr) : Option (NodeList × Address) :=
  match search (holds config name) list.nodes (list.nodes.length + 1) none list.first with
  | none => none
  | some (_, some h) => some (list, h)
  | some (hTail, none) => some (new list hTail name)

/-- `__itt_domain_create`, with the global before and after the call. -/
def domainCreate (config : Config) (thread : Thread) (name : CStr) :
    Option IttGlobal → Option (Option IttGlobal × Option Address)
  | none => some (none, none)
  | some ittGlobal => do
    let locked ← ittGlobal.mutexLock thread
    let (domainList, h) ← findOrNew config config.newDomainA locked.domainList name
    some (some ({ locked with domainList := domainList }.mutexUnlock), some h)

/-- `__itt_string_handle_create`, with the global before and after the call. -/
def stringHandleCreate (config : Config) (thread : Thread) (name : CStr) :
    Option IttGlobal → Option (Option IttGlobal × Option Address)
  | none => some (none, none)
  | some ittGlobal => do
    let locked ← ittGlobal.mutexLock thread
    let (stringList, h) ← findOrNew config config.newStringHandleA locked.stringList name
    some (some ({ locked with stringList := stringList }.mutexUnlock), some h)

inductive Kind where
  | domain
  | stringHandle
  deriving DecidableEq

/-- A call of one of the two functions. -/
structure Call where
  kind : Kind
  thread : Thread
  name : CStr

def Call.execute (config : Config) (c : Call) :
    Option IttGlobal → Option (Option IttGlobal × Option Address) :=
  match c.kind with
  | .domain => domainCreate config c.thread c.name
  | .stringHandle => stringHandleCreate config c.thread c.name

/-- Calls one after the other, with the pointers that they return. -/
def run (config : Config) :
    List Call → Option IttGlobal → Option (Option IttGlobal × List (Option Address))
  | [], g => some (g, [])
  | c :: calls, g => do
    let (g', h) ← c.execute config g
    let (g'', handles) ← run config calls g'
    some (g'', h :: handles)

/-! ## The header -/

/-- A macro adds a node with the name behind the tail, or as the first one. -/
structure AddsNode (new : NodeList → Option Address → CStr → NodeList × Address) : Prop where
  appended : ∀ list tail name,
    Appended list.nodes (new list tail name).1.nodes tail (new list tail name).2 (some name)
  first_null : ∀ list name, (new list none name).1.first = some (new list none name).2
  first_tail : ∀ list tail name, (new list (some tail) name).1.first = list.first

structure Config.Documented (config : Config) : Prop where
  fstrcmp_eq_zero : ∀ s t, config.fstrcmp s t = 0 ↔ s = t
  newDomainA : AddsNode config.newDomainA
  newStringHandleA : AddsNode config.newStringHandleA

/-! ## A header as documented -/

def strcmp : Bytes → Bytes → Int
  | [], [] => 0
  | [], b :: _ => -(b.toNat : Int)
  | a :: _, [] => a.toNat
  | a :: s, b :: t => if a = b then strcmp s t else (a.toNat : Int) - b.toNat

theorem strcmp_eq_zero {s t : Bytes} (hs : 0 ∉ s) (ht : 0 ∉ t) : strcmp s t = 0 ↔ s = t := by
  have hzero : ∀ {b : UInt8}, b.toNat = 0 → b = 0 := fun h => UInt8.toNat_inj.mp h
  fun_induction strcmp s t with
  | case1 => simp
  | case2 b t =>
    have hb : b.toNat ≠ 0 := fun h => ht (hzero h ▸ List.mem_cons_self)
    simp only [reduceCtorEq, iff_false]
    omega
  | case3 a s =>
    have ha : a.toNat ≠ 0 := fun h => hs (hzero h ▸ List.mem_cons_self)
    simp only [reduceCtorEq, iff_false]
    omega
  | case4 s b t ih =>
    have hmore := ih (fun h => hs (List.mem_cons_of_mem _ h)) (fun h => ht (List.mem_cons_of_mem _ h))
    simp only [hmore, List.cons.injEq, true_and]
  | case5 a s b t hne =>
    have hne' : a.toNat ≠ b.toNat := fun h => hne (UInt8.toNat_inj.mp h)
    simp only [List.cons.injEq, hne, false_and, iff_false]
    omega

/-- An address behind all nodes. -/
def newAddress (nodes : Memory Address (Option CStr)) : Address :=
  (nodes.map Prod.fst).foldr max 0 + 1

theorem newAddress_unused (nodes : Memory Address (Option CStr)) :
    List.lookup (newAddress nodes) nodes = none := by
  cases h : List.lookup (newAddress nodes) nodes with
  | none => rfl
  | some node =>
    have hle : newAddress nodes ≤ (nodes.map Prod.fst).foldr max 0 :=
      List.le_max_of_le (Dict.mem_keys_of_lookup h) (Nat.le_refl _)
    exact absurd hle (Nat.not_succ_le_self _)

/-- The node at the tail gets a next node. -/
def setNext (nodes : Memory Address (Option CStr)) (tail : Option Address) (a : Address) :
    Memory Address (Option CStr) :=
  match tail with
  | none => nodes
  | some t =>
    match List.lookup t nodes with
    | none => nodes
    | some node => Dict.set nodes t { node with next := some a }

def newNode (list : NodeList) (tail : Option Address) (name : CStr) : NodeList × Address :=
  let a := newAddress list.nodes
  ({ first := if tail = none then some a else list.first
     nodes := Dict.set (setNext list.nodes tail a) a { value := some name, next := none } }, a)

theorem newNode_adds : AddsNode newNode where
  appended list tail name := by
    have hunused := newAddress_unused list.nodes
    refine ⟨hunused, Dict.lookup_set_self _ _ _, ?_, ?_⟩
    · intro t node ht hread
      have hne : t ≠ newAddress list.nodes := by
        intro he
        rw [← he, hread] at hunused
        cases hunused
      subst ht
      simp only [newNode, Dict.lookup_set_ne _ hne, setNext, hread, Dict.lookup_set_self]
    · intro b hb ht
      refine (Dict.lookup_set_ne _ hb _).trans ?_
      cases tail with
      | none => rfl
      | some t =>
        have hbt : b ≠ t := fun he => ht (congrArg some he.symm)
        cases hread : List.lookup t list.nodes with
        | none => simp only [setNext, hread]
        | some node => simp only [setNext, hread, Dict.lookup_set_ne _ hbt]
  first_null list name := by simp [newNode]
  first_tail list tail name := by simp [newNode]

def header : Config where
  fstrcmp s t := strcmp s.val t.val
  newDomainA := newNode
  newStringHandleA := newNode

theorem header_documented : header.Documented where
  fstrcmp_eq_zero s t := (strcmp_eq_zero s.property t.property).trans Subtype.ext_iff.symm
  newDomainA := newNode_adds
  newStringHandleA := newNode_adds

/-! ## One call -/

theorem holds_iff {config : Config} (hc : config.Documented) (name : CStr) (stored : Option CStr) :
    holds config name stored = true ↔ stored = some name := by
  cases stored with
  | none => simp [holds]
  | some stored => simp [holds, hc.fstrcmp_eq_zero]

/-- A call requests its name from the table that the list represents. -/
theorem findOrNew_request {config : Config} (hc : config.Documented)
    {new : NodeList → Option Address → CStr → NodeList × Address} (hnew : AddsNode new)
    {list : NodeList} {t : Table Address CStr} (hl : Linked list.nodes list.first t) (name : CStr) :
    ∃ list' h t', findOrNew config new list name = some (list', h) ∧ Request t name h t' ∧
      Linked list'.nodes list'.first t' := by
  rcases hl.search_cases (holds config name) (Nat.lt_succ_of_le hl.length_le) none with hhit | hmiss
  · obtain ⟨tail, h, stored, hs, hmem, hv⟩ := hhit
    obtain rfl := (holds_iff hc name stored).mp hv
    exact ⟨list, h, t, by rw [findOrNew, hs], .found hmem, hl⟩
  · obtain ⟨hs, habsent⟩ := hmiss
    have happ := hnew.appended list (lastOr none t) name
    refine ⟨(new list (lastOr none t) name).1, (new list (lastOr none t) name).2, _,
      by rw [findOrNew, hs], .added ?_ ?_, ?_⟩
    · intro hn
      obtain ⟨k, hk⟩ := Intern.mem_names.mp hn
      exact habsent _ hk ((holds_iff hc name _).mpr rfl)
    · intro hk
      obtain ⟨node, hread⟩ := hl.exists_node hk
      rw [happ.unused] at hread
      cases hread
    · have hfirst : (new list (lastOr none t) name).1.first =
          list.first.or (some (new list (lastOr none t) name).2) := by
        rw [hl.start]
        cases t with
        | nil => exact hnew.first_null list name
        | cons e t =>
          obtain ⟨tail, htail⟩ := LinkedList.exists_lastOr_cons none e t
          rw [htail, hnew.first_tail, hl.start]
          rfl
      rw [hfirst]
      exact hl.append happ

def IttGlobal.list (g : IttGlobal) : Kind → NodeList
  | .domain => g.domainList
  | .stringHandle => g.stringList

/-- The mutex is free, and each list holds the entries of its table. -/
structure Represents (g : IttGlobal) (tables : Kind → Table Address CStr) : Prop where
  free : g.mutex = none
  linked : ∀ k, Linked (g.list k).nodes (g.list k).first (tables k)

theorem Represents.replace {g g' : IttGlobal} {tables : Kind → Table Address CStr}
    (hg : Represents g tables) {k : Kind} {t : Table Address CStr} (hfree : g'.mutex = none)
    (hk : Linked (g'.list k).nodes (g'.list k).first t)
    (hothers : ∀ k', k' ≠ k → g'.list k' = g.list k') :
    Represents g' (Function.update tables k t) := by
  refine ⟨hfree, ?_⟩
  intro k'
  by_cases h : k' = k
  · subst h
    rwa [Function.update_self]
  · rw [Function.update_of_ne h, hothers k' h]
    exact hg.linked k'

theorem mutexLock_free {g : IttGlobal} (h : g.mutex = none) (thread : Thread) :
    g.mutexLock thread = some { g with mutex := some thread } := if_pos h

theorem domainCreate_eq {config : Config} {g : IttGlobal} (hfree : g.mutex = none) (thread : Thread)
    {name : CStr} {list : NodeList} {h : Address}
    (hf : findOrNew config config.newDomainA g.domainList name = some (list, h)) :
    domainCreate config thread name (some g) =
      some (some { g with mutex := none, domainList := list }, some h) := by
  rw [domainCreate, mutexLock_free hfree]
  change (findOrNew config config.newDomainA g.domainList name).bind _ = _
  rw [hf]
  rfl

theorem stringHandleCreate_eq {config : Config} {g : IttGlobal} (hfree : g.mutex = none)
    (thread : Thread) {name : CStr} {list : NodeList} {h : Address}
    (hf : findOrNew config config.newStringHandleA g.stringList name = some (list, h)) :
    stringHandleCreate config thread name (some g) =
      some (some { g with mutex := none, stringList := list }, some h) := by
  rw [stringHandleCreate, mutexLock_free hfree]
  change (findOrNew config config.newStringHandleA g.stringList name).bind _ = _
  rw [hf]
  rfl

/-- A call by any thread returns, and it requests its name from the table of its kind. -/
theorem execute_request {config : Config} (hc : config.Documented) {g : IttGlobal}
    {tables : Kind → Table Address CStr} (hg : Represents g tables) (c : Call) :
    ∃ g' h t', c.execute config (some g) = some (some g', some h) ∧
      Request (tables c.kind) c.name h t' ∧ Represents g' (Function.update tables c.kind t') := by
  obtain ⟨kind, thread, name⟩ := c
  cases kind with
  | domain =>
    obtain ⟨list, h, t', hf, hr, hl⟩ := findOrNew_request hc hc.newDomainA (hg.linked .domain) name
    refine ⟨_, h, t', domainCreate_eq hg.free thread hf, hr, hg.replace rfl hl ?_⟩
    intro k hk
    cases k with
    | domain => exact absurd rfl hk
    | stringHandle => rfl
  | stringHandle =>
    obtain ⟨list, h, t', hf, hr, hl⟩ :=
      findOrNew_request hc hc.newStringHandleA (hg.linked .stringHandle) name
    refine ⟨_, h, t', stringHandleCreate_eq hg.free thread hf, hr, hg.replace rfl hl ?_⟩
    intro k hk
    cases k with
    | domain => rfl
    | stringHandle => exact absurd rfl hk

/-! ## Runs -/

/-- The names that the calls of one kind request, with the handles that they get. -/
def requested (k : Kind) (calls : List Call) (handles : List Address) : List (CStr × Address) :=
  ((calls.zip handles).filter fun e => e.1.kind = k).map fun e => (e.1.name, e.2)

theorem mem_requested {k : Kind} {calls : List Call} {handles : List Address} {name : CStr}
    {h : Address} : (name, h) ∈ requested k calls handles ↔
      ∃ c, (c, h) ∈ calls.zip handles ∧ c.kind = k ∧ c.name = name := by
  simp only [requested, List.mem_map, List.mem_filter, decide_eq_true_eq, Prod.mk.injEq,
    Prod.exists]
  constructor
  · intro hm
    obtain ⟨c, h', ⟨hz, hk⟩, hn, rfl⟩ := hm
    exact ⟨c, hz, hk, hn⟩
  · intro hm
    obtain ⟨c, hz, hk, hn⟩ := hm
    exact ⟨c, h, ⟨hz, hk⟩, hn, rfl⟩

theorem mem_names_requested {k : Kind} {calls : List Call} {handles : List Address}
    (hlen : handles.length = calls.length) {name : CStr} :
    name ∈ (requested k calls handles).map Prod.fst ↔ ∃ c ∈ calls, c.kind = k ∧ c.name = name := by
  constructor
  · intro hm
    obtain ⟨⟨stored, h⟩, hr, rfl⟩ := List.mem_map.mp hm
    obtain ⟨c, hz, hc⟩ := mem_requested.mp hr
    exact ⟨c, (List.of_mem_zip hz).1, hc⟩
  · intro hm
    obtain ⟨c, hc, hk⟩ := hm
    rw [← List.map_fst_zip (Nat.le_of_eq hlen.symm)] at hc
    obtain ⟨⟨c, h⟩, hz, rfl⟩ := List.mem_map.mp hc
    exact List.mem_map.mpr ⟨(name, h), mem_requested.mpr ⟨c, hz, hk⟩, rfl⟩

theorem run_cons {config : Config} {c : Call} {calls : List Call} {g g' g'' : Option IttGlobal}
    {h : Option Address} {handles : List (Option Address)}
    (hc : c.execute config g = some (g', h)) (hr : run config calls g' = some (g'', handles)) :
    run config (c :: calls) g = some (g'', h :: handles) := by
  rw [run, hc]
  change (run config calls g').bind _ = _
  rw [hr]
  rfl

/-- All the calls of a run return, and those of one kind are requests to its table. -/
theorem run_requests {config : Config} (hc : config.Documented) (calls : List Call)
    {g : IttGlobal} {tables : Kind → Table Address CStr} (hg : Represents g tables) :
    ∃ g' tables' handles, run config calls (some g) = some (some g', handles.map some) ∧
      handles.length = calls.length ∧ Represents g' tables' ∧
      ∀ k, Requests (tables k) (requested k calls handles) (tables' k) := by
  induction calls generalizing g tables with
  | nil => exact ⟨g, tables, [], rfl, rfl, hg, fun k => .nil⟩
  | cons c calls ih =>
    obtain ⟨g', h, t', hx, hr, hg'⟩ := execute_request hc hg c
    obtain ⟨g'', tables'', handles, hrun, hlen, hg'', hmore⟩ := ih hg'
    refine ⟨g'', tables'', h :: handles, run_cons hx hrun, congrArg Nat.succ hlen, hg'', ?_⟩
    intro k
    have hk := hmore k
    by_cases hck : c.kind = k
    · subst hck
      rw [Function.update_self] at hk
      have hreq : requested c.kind (c :: calls) (h :: handles) =
          (c.name, h) :: requested c.kind calls handles := by simp [requested]
      rw [hreq]
      exact .cons hr hk
    · rw [Function.update_of_ne (Ne.symm hck)] at hk
      have hreq : requested k (c :: calls) (h :: handles) = requested k calls handles := by
        simp [requested, hck]
      rwa [hreq]

theorem run_append {config : Config} {calls more : List Call} {g g' g'' : Option IttGlobal}
    {handles handles' : List (Option Address)} (h : run config calls g = some (g', handles))
    (hmore : run config more g' = some (g'', handles')) :
    run config (calls ++ more) g = some (g'', handles ++ handles') := by
  induction calls generalizing g handles with
  | nil =>
    obtain ⟨rfl, rfl⟩ := Prod.mk.inj (Option.some.inj h)
    exact hmore
  | cons c calls ih =>
    obtain ⟨⟨g₁, p⟩, hx, h⟩ := Option.bind_eq_some_iff.mp h
    obtain ⟨⟨g₂, ps⟩, hr, he⟩ := Option.bind_eq_some_iff.mp h
    obtain ⟨rfl, rfl⟩ := Prod.mk.inj (Option.some.inj he)
    exact run_cons hx (ih hr)

theorem Represents.unique {g : IttGlobal} {tables tables' : Kind → Table Address CStr}
    (h : Represents g tables) (h' : Represents g tables') : tables = tables' :=
  funext fun k => (h.linked k).unique (h'.linked k)

/-- After the first calls of a run, the lists are initial parts of those at its end. -/
theorem run_take {config : Config} (hc : config.Documented) {calls : List Call} {g g' : IttGlobal}
    {tables tables' : Kind → Table Address CStr} {handles : List Address}
    (hg : Represents g tables) (hrun : run config calls (some g) = some (some g', handles.map some))
    (hg' : Represents g' tables') {n : Nat} (hn : n ≤ calls.length) :
    ∃ gₙ tablesₙ, run config (calls.take n) (some g) = some (some gₙ, (handles.take n).map some) ∧
      Represents gₙ tablesₙ ∧ ∀ k, tablesₙ k <+: tables' k := by
  obtain ⟨g₁, tables₁, handles₁, hrun₁, hlen₁, hg₁, -⟩ := run_requests hc (calls.take n) hg
  obtain ⟨g₂, tables₂, handles₂, hrun₂, -, hg₂, hmore⟩ := run_requests hc (calls.drop n) hg₁
  have hall := run_append hrun₁ hrun₂
  rw [List.take_append_drop, hrun, ← List.map_append] at hall
  obtain ⟨hsome, hhandles⟩ := Prod.mk.inj (Option.some.inj hall)
  obtain rfl := Option.some.inj hsome
  have hsplit : handles = handles₁ ++ handles₂ :=
    List.map_injective_iff.mpr (fun _ _ => Option.some.inj) hhandles
  have htake : handles.take n = handles₁ := by
    rw [List.length_take, Nat.min_eq_left hn] at hlen₁
    rw [hsplit, ← hlen₁, List.take_left]
  refine ⟨g₁, tables₁, by rw [htake]; exact hrun₁, hg₁, ?_⟩
  intro k
  rw [hg'.unique hg₂]
  exact (hmore k).isPrefix

/-- From lists without duplicates, the calls of any threads in any order all return. Calls
of one function return the same handle exactly for the same name. A list holds the names
that it held before or that were requested, each once, and it only grows at its end. -/
theorem handle_eq_iff_name_eq {config : Config} (hc : config.Documented) {g : IttGlobal}
    {tables : Kind → Table Address CStr} (hg : Represents g tables)
    (hnames : ∀ k, (names (tables k)).Nodup) (calls : List Call) :
    ∃ g' tables' handles, run config calls (some g) = some (some g', handles.map some) ∧
      handles.length = calls.length ∧ Represents g' tables' ∧
      (∀ c h c' h', (c, h) ∈ calls.zip handles → (c', h') ∈ calls.zip handles →
        c.kind = c'.kind → (h = h' ↔ c.name = c'.name)) ∧
      (∀ k, (names (tables' k)).Nodup ∧ ∀ name, name ∈ names (tables' k) ↔
        name ∈ names (tables k) ∨ ∃ c ∈ calls, c.kind = k ∧ c.name = name) ∧
      (∀ c h, (c, h) ∈ calls.zip handles → (h, some c.name) ∈ tables' c.kind) ∧
      ∀ n, n ≤ calls.length → ∃ gₙ tablesₙ,
        run config (calls.take n) (some g) = some (some gₙ, (handles.take n).map some) ∧
        Represents gₙ tablesₙ ∧ ∀ k, tablesₙ k <+: tables' k := by
  obtain ⟨g', tables', handles, hrun, hlen, hg', hreq⟩ := run_requests hc calls hg
  have hw : ∀ k, Intern.WellFormed (tables' k) := fun k =>
    (hreq k).wellFormed ⟨(hg.linked k).nodup, hnames k⟩
  have hmem : ∀ c h, (c, h) ∈ calls.zip handles → (h, some c.name) ∈ tables' c.kind :=
    fun c h hz => (hreq c.kind).mem (mem_requested.mpr ⟨c, hz, rfl, rfl⟩)
  refine ⟨g', tables', handles, hrun, hlen, hg', ?_, ?_, hmem, ?_⟩
  · intro c h c' h' hz hz' hk
    exact (hw c.kind).key_eq_iff (hmem c h hz) (hk ▸ hmem c' h' hz')
  · intro k
    refine ⟨(hw k).names_nodup, fun name => ?_⟩
    rw [(hreq k).mem_names_iff, mem_names_requested hlen]
  · intro n hn
    exact run_take hc hg hrun hg' hn

/-- Two threads ask for two names, and the second one again for the name of the first. -/
theorem handle_eq_iff_name_eq_threads : ∃ g' h₁ h₂ h₃,
    run header [⟨.domain, 1, ⟨[65], by decide⟩⟩, ⟨.domain, 2, ⟨[66], by decide⟩⟩,
        ⟨.domain, 2, ⟨[65], by decide⟩⟩]
      (some { mutex := none, domainList := ⟨none, []⟩, stringList := ⟨none, []⟩ }) =
      some (some g', [some h₁, some h₂, some h₃]) ∧ h₁ ≠ h₂ ∧ h₁ = h₃ := by
  have hempty : Represents
      { mutex := none, domainList := ⟨none, []⟩, stringList := ⟨none, []⟩ } fun _ => [] :=
    ⟨rfl, fun k => by cases k <;> exact .nil⟩
  obtain ⟨g', tables', handles, hrun, hlen, -, hiff, -⟩ :=
    handle_eq_iff_name_eq header_documented hempty (fun _ => List.nodup_nil)
      [⟨.domain, 1, ⟨[65], by decide⟩⟩, ⟨.domain, 2, ⟨[66], by decide⟩⟩,
        ⟨.domain, 2, ⟨[65], by decide⟩⟩]
  obtain ⟨h₁, h₂, h₃, rfl⟩ := List.length_eq_three.mp hlen
  refine ⟨g', h₁, h₂, h₃, hrun, ?_, ?_⟩
  · exact mt (hiff _ h₁ _ h₂ (.head _) (.tail _ (.head _)) rfl).mp (by decide)
  · exact (hiff _ h₁ _ h₃ (.head _) (.tail _ (.tail _ (.head _))) rfl).mpr rfl

end Unitrace.Itt.Handles
