import Unitrace.Itt.Tasks

/-!
# Long names

A descriptor takes 510 bytes of a name. The last two bytes of its arrays are never
written, so what they happen to hold decides whether a longer name is terminated, and
whether the end call recognizes it.
-/
namespace Unitrace.Itt.LongNames

open Unitrace.Lib.ByteString Unitrace.Itt.Control Unitrace.Itt.Tasks

/-- The two bytes of an array that storing a name leaves as they are. -/
def CharArray.unwritten (a : CharArray) : Bytes := a.val.drop 510

/-- After the begin call both strings are terminated, and the end call for the same domain
logs the task and takes it from the stack. -/
def EndsOwn (c : UniController) (collector : IttCollector) (domain name : CStr)
    (desc : ThreadTaskDescriptor) : Prop :=
  ∀ (start now : UInt64) (taskDesc : List ThreadTaskDescriptor), ∃ top,
    taskBegin c collector (some (some domain)) (some (some name)) start desc taskDesc =
        top :: taskDesc ∧
      0 ∈ top.domain.val ∧ 0 ∈ top.name.val ∧
      ∃ report event, taskEnd c collector (some (some domain)) now (top :: taskDesc) =
        some (taskDesc, report) ∧ report.logged = some event

/-- The names are short, or the unwritten bytes fit to them: those of the domain complete
and terminate it, those of the name have a NUL. -/
structure Fits (domain name : CStr) (desc : ThreadTaskDescriptor) : Prop where
  domain : domain.val.length < 510 ∨
    domain.val.drop 510 ++ [0] <+: CharArray.unwritten desc.domain
  name : name.val.length < 510 ∨ 0 ∈ CharArray.unwritten desc.name

/-! ## The stored strings -/

theorem text_of_mem {a : CharArray} (h : 0 ∈ a.val) : ∃ s rest, a.text = some s ∧
    a.val = s.val ++ 0 :: rest := by
  obtain ⟨s, rest, hsplit, hs⟩ := List.eq_append_cons_of_mem h
  have htext : a.text = some ⟨s, hs⟩ := text_of_terminated hsplit
  exact ⟨⟨s, hs⟩, rest, htext, hsplit⟩

theorem text_eq_some_iff {a : CharArray} {s : CStr} : a.text = some s ↔ s.val ++ [0] <+: a.val := by
  constructor
  · intro h
    have hzero : 0 ∈ a.val := by
      by_contra hno
      rw [CharArray.text, if_neg hno] at h
      cases h
    obtain ⟨t, rest, htext, hsplit⟩ := text_of_mem hzero
    rw [htext] at h
    obtain rfl := Option.some.inj h
    refine ⟨rest, ?_⟩
    rw [hsplit, List.append_assoc, List.singleton_append]
  · rintro ⟨rest, h⟩
    rw [List.append_assoc, List.singleton_append] at h
    exact text_of_terminated h.symm

/-- A long name fills the written part. -/
theorem store_long {s : CStr} (h : 510 ≤ s.val.length) (dst : CharArray) :
    (dst.store (some (some s))).val = s.val.take 510 ++ CharArray.unwritten dst := by
  have hzeros : 510 - s.val.length = 0 := by omega
  simp only [CharArray.store, CharArray.strncpy, hzeros, List.replicate_zero, List.append_nil,
    CharArray.unwritten]

theorem text_store_eq_iff (dst : CharArray) (s : CStr) :
    (dst.store (some (some s))).text = some s ↔
      s.val.length < 510 ∨ s.val.drop 510 ++ [0] <+: CharArray.unwritten dst := by
  by_cases hs : s.val.length < 510
  · exact iff_of_true (text_store_short dst ⟨s, hs⟩) (.inl hs)
  · have hsplit : s.val ++ [0] = s.val.take 510 ++ (s.val.drop 510 ++ [0]) := by
      rw [← List.append_assoc, List.take_append_drop]
    rw [text_eq_some_iff, store_long (by omega), hsplit, List.prefix_append_right_inj,
      or_iff_right hs]

theorem terminated_store_iff (dst : CharArray) (s : CStr) :
    0 ∈ (dst.store (some (some s))).val ↔
      s.val.length < 510 ∨ 0 ∈ CharArray.unwritten dst := by
  by_cases hs : s.val.length < 510
  · obtain ⟨rest, hrest⟩ := text_eq_some_iff.mp (text_store_short dst ⟨s, hs⟩)
    refine iff_of_true ?_ (.inl hs)
    rw [← hrest]
    exact List.mem_append_left _ (List.mem_append_right _ (List.mem_singleton_self 0))
  · have hcut : 0 ∉ s.val.take 510 := fun h => s.property (List.mem_of_mem_take h)
    rw [store_long (by omega), List.mem_append, or_iff_right hcut, or_iff_right hs]

/-! ## The two calls -/

/-- The entry of a begin call. -/
def pushed (domain name : CStr) (start : UInt64) (desc : ThreadTaskDescriptor) :
    ThreadTaskDescriptor where
  domain := desc.domain.store (some (some domain))
  name := desc.name.store (some (some name))
  startTime := start
  metadataArgs := { desc.metadataArgs with count := 0, isIndirectData := false, next := [] }

section Calls

variable {c : UniController} {collector : IttCollector}
variable (hc : c.isCollectionEnabled = true) (hlog : collector.chromeLoggingOn = true)

include hc hlog

/-- Neither of the two tests at the start of a call makes it return. -/
theorem guards_passed : (!c.isCollectionEnabled) = false ∧
    (!collector.cclSummaryOn && !collector.chromeLoggingOn) = false := by
  rw [hc, hlog, Bool.not_true, Bool.and_false]
  exact ⟨rfl, rfl⟩

theorem taskBegin_eq (domain name : CStr) (desc : ThreadTaskDescriptor) (start : UInt64)
    (taskDesc : List ThreadTaskDescriptor) :
    taskBegin c collector (some (some domain)) (some (some name)) start desc taskDesc =
      pushed domain name start desc :: taskDesc := by
  obtain ⟨hcollect, hreport⟩ := guards_passed hc hlog
  rw [taskBegin, hcollect, hreport]
  rfl

/-- The entry is taken if its domain is the one that ends and its name can be read. -/
theorem taskEnd_pops_iff (domain : CStr) (now : UInt64) {top : ThreadTaskDescriptor}
    (taskDesc : List ThreadTaskDescriptor) (hdomain : 0 ∈ top.domain.val)
    (hname : 0 ∈ top.name.val) :
    (∃ report event, taskEnd c collector (some (some domain)) now (top :: taskDesc) =
        some (taskDesc, report) ∧ report.logged = some event) ↔ top.domain.text = some domain := by
  obtain ⟨hcollect, hreport⟩ := guards_passed hc hlog
  obtain ⟨stored, -, hstored, -⟩ := text_of_mem hdomain
  obtain ⟨topName, -, htopName, -⟩ := text_of_mem hname
  have htext : top.domain.text = some domain ↔ stored = domain := by
    rw [hstored, Option.some.injEq]
  rw [htext]
  unfold taskEnd
  rw [hcollect, hreport]
  simp only [Bool.false_eq_true, if_false, hstored, htopName, hlog]
  constructor
  · rintro ⟨report, event, h, -⟩
    by_contra hne
    rw [if_neg hne] at h
    have hstack : top :: taskDesc = taskDesc := congrArg Prod.fst (Option.some.inj h)
    have hlength := congrArg List.length hstack
    rw [List.length_cons] at hlength
    omega
  · intro he
    rw [if_pos he]
    exact ⟨_, _, rfl, rfl⟩

/-- With any other content of the unwritten bytes a string is not terminated, or the
domain of the entry is not the one that is ended. -/
theorem endsOwn_iff_fits (domain name : CStr) (desc : ThreadTaskDescriptor) :
    EndsOwn c collector domain name desc ↔ Fits domain name desc := by
  constructor
  · intro h
    obtain ⟨top, hbegin, hdomain, hname, hend⟩ := h 0 0 []
    rw [taskBegin_eq hc hlog] at hbegin
    obtain rfl := (List.cons.inj hbegin).1
    rw [taskEnd_pops_iff hc hlog domain 0 [] hdomain hname] at hend
    exact ⟨(text_store_eq_iff _ _).mp hend, (terminated_store_iff _ _).mp hname⟩
  · rintro ⟨hdomain, hname⟩ start now taskDesc
    have htext := (text_store_eq_iff desc.domain domain).mpr hdomain
    have hzero : 0 ∈ (pushed domain name start desc).domain.val := by
      obtain ⟨rest, hrest⟩ := text_eq_some_iff.mp htext
      show 0 ∈ (desc.domain.store (some (some domain))).val
      rw [← hrest]
      exact List.mem_append_left _ (List.mem_append_right _ (List.mem_singleton_self 0))
    have hnul : 0 ∈ (pushed domain name start desc).name.val :=
      (terminated_store_iff desc.name name).mpr hname
    exact ⟨pushed domain name start desc, taskBegin_eq hc hlog domain name desc start taskDesc,
      hzero, hnul, (taskEnd_pops_iff hc hlog domain now taskDesc hzero hnul).mpr htext⟩

end Calls

/-- A name of `n` letters. -/
def letters (n : Nat) : CStr :=
  ⟨List.replicate n 97, fun h => absurd (List.eq_of_mem_replicate h) (by decide)⟩

theorem length_letters (n : Nat) : (letters n).val.length = n := List.length_replicate

def filledWith (b : UInt8) : CharArray := ⟨List.replicate 512 b, List.length_replicate⟩

/-- A descriptor in memory that holds zeros. -/
def zeros : ThreadTaskDescriptor where
  domain := filledWith 0
  name := filledWith 0
  startTime := 0
  metadataArgs :=
    { count := 0, isIndirectData := false, type := .unknown, key := ⟨[], zero_notMem_nil⟩
      data := [], indirect := [], next := [] }

theorem endsOwn_short :
    EndsOwn ⟨false, false, none⟩ ⟨false, true⟩ (letters 509) (letters 600) zeros :=
  (endsOwn_iff_fits rfl rfl _ _ _).mpr
    ⟨.inl (by rw [length_letters]; decide), .inr (by decide +kernel)⟩

/-- A domain with a name of 511 letters is cut to 510, so that its task is not ended. -/
theorem long_domain_not_ended :
    ¬ EndsOwn ⟨false, false, none⟩ ⟨false, true⟩ (letters 511) (letters 1) zeros := by
  intro h
  obtain ⟨top, hbegin, -, -, report, event, hend, -⟩ := h 0 0 []
  obtain rfl := (List.cons.inj hbegin).1
  have hlength : (taskEnd ⟨false, false, none⟩ ⟨false, true⟩ (some (some (letters 511))) 0
      (taskBegin ⟨false, false, none⟩ ⟨false, true⟩ (some (some (letters 511)))
        (some (some (letters 1))) 0 zeros [])).map (fun result => result.1.length) = some 1 := by
    decide +kernel
  rw [hbegin, hend] at hlength
  cases hlength

end Unitrace.Itt.LongNames
