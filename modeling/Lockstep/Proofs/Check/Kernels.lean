import Lockstep.Proofs.Analysis.Sorted
import Lockstep.Proofs.Calls.Sites
import Lockstep.Proofs.Check.Counted
import Lockstep.Proofs.Grammar.Ranges
import Lockstep.Proofs.Grammar.Skipping
import Lockstep.Proofs.Naming.Order
import Mathlib.Data.List.Forall2
/-!
Kernels that could run as a single work-item. One finding is made for each kernel that waits at a
barrier and never asks which work-item it runs as; it stands at the name of the kernel and says where
the first barrier is. But a function is taken for a kernel only where its definition itself says so:
a qualifier on another declaration of the name, which the resolution knows of, is not asked for.
-/

set_option autoImplicit false
set_option relaxedAutoImplicit false

namespace Lockstep

def Item.function? : Item → Option Function
  | function f => some f
  | _ => none

private theorem Item.function?_eq_some_iff {item : Item} {f : Function} :
    item.function? = some f ↔ item = .function f := by
  cases item with
  | function g => simp [function?]
  | _ => simp [function?]

def SourceUnit.functions (unit : SourceUnit) : List Function := unit.items.filterMap Item.function?

private theorem SourceUnit.mem_functions_iff {unit : SourceUnit} {f : Function} :
    f ∈ unit.functions ↔ .function f ∈ unit.items := by
  simp [functions, List.mem_filterMap, Item.function?_eq_some_iff]

instance (unit : SourceUnit) (n : String) : Decidable (unit.HasKernel n) :=
  decidable_of_iff _ (Resolution.any_kernels_iff unit n)

section Headers

open Grammar

/-- The function starts at one of the tokens, with its type and then its name. -/
def Function.Headed (tokens : List Lexeme) (f : Function) : Prop :=
  ∃ x type rest, tokens = x ++ (type ++ f.name.lexeme :: rest) ∧
    (type.head?.map fun l => l.span.start) = some f.span.start ∧
    Typed f.isKernel (type.map Lexeme.token)

private theorem reads_signature : Parser.Reads signature fun r u =>
    ∃ type, Typed r.1.1 (type.map Lexeme.token) ∧ u = type ++ [r.2.lexeme] := by
  refine .bind reads_typeSpec_typed fun _ type typed => .bind reads_ident fun _ u single => .pure ?_
  exact ⟨type, typed, by rw [single, List.append_nil]⟩

private theorem headed_of_parse {text : String} {unit : SourceUnit}
    (parsed : (parse text).unit = some unit)
    {f : Function} (member : .function f ∈ unit.items) : f.Headed (lex text).tokens := by
  obtain ⟨x, u, rest, split, takes⟩ := exists_takes_function_of_parse parsed member
  obtain ⟨parts⟩ := exists_functionParts takes
  obtain ⟨type, typed, front⟩ := parts.takes_front.reads reads_signature
  obtain ⟨tail, split'⟩ : ∃ tail, u = type ++ f.name.lexeme :: tail :=
    ⟨_, parts.split.trans (by rw [front, List.append_assoc, List.singleton_append])⟩
  refine ⟨x, type, tail ++ rest, ?_, ?_, typed⟩
  · rw [split, split', List.append_assoc, List.cons_append]
  · cases type with
    | nil => exact absurd rfl typed.ne_nil
    | cons first others =>
      rw [parts.spans first _ split']
      rfl

end Headers

def Function.calls (f : Function) : List Expr := (Item.function f).nodes.filterMap Node.call?

def Function.couldRunAlone (f : Function) (source : SourceText) (barrier : Expr) : Finding where
  check := some .singleWorkItem
  severity := .warning
  span := f.name.span
  message :=
    "kernel function '" ++ f.name.name ++ "' does not call an identity function and may be " ++
      "treated as single-work-item; barrier call at " ++
      (source.spanLocation barrier.span).toText ++ " forces NDRange execution"
  notes := []

namespace Context

variable {x : Context} {source : SourceText} {f : Function} {b e : Expr}

/-- The function waits at a barrier and never asks which work-item it runs as. -/
structure WaitsBlindly (x : Context) (f : Function) : Prop where
  waits : ∃ e ∈ f.calls, ∃ name, x.callTarget e = some (.barrier name)
  blind : ∀ e ∈ f.calls, ∀ name, x.callTarget e ≠ some (.identity name)

/-- No call of a barrier inside the function starts before this one. -/
structure FirstBarrier (x : Context) (f : Function) (b : Expr) : Prop where
  inside : b ∈ f.calls
  barrier : ∃ name, x.callTarget b = some (.barrier name)
  first : ∀ e ∈ f.calls, ∀ name, x.callTarget e = some (.barrier name) →
    b.span.start ≤ e.span.start

/-- The finding is about this function and names its first barrier. -/
def Reports (x : Context) (source : SourceText) (f : Function) (d : Finding) : Prop :=
  ∃ b, x.FirstBarrier f b ∧ d = f.couldRunAlone source b

private theorem waitsBlindly_iff : x.WaitsBlindly f ↔
    (f.calls.any x.isBarrierCall && !f.calls.any fun e => (x.identityCallee e).isSome) = true := by
  rw [Bool.and_eq_true, List.any_eq_true, Bool.not_eq_true', List.any_eq_false]
  simp only [isBarrierCall_iff, isSome_identityCallee_iff, not_exists]
  constructor
  · rintro ⟨waits, blind⟩
    exact ⟨waits, blind⟩
  · rintro ⟨waits, blind⟩
    exact ⟨waits, blind⟩

instance (x : Context) (f : Function) : Decidable (x.WaitsBlindly f) :=
  decidable_of_iff _ (Iff.symm waitsBlindly_iff)

/-- The findings are about those of the functions that count as kernels and wait blindly, one about
each and in the same order. -/
def ReportsEach (x : Context) (source : SourceText) (fs : List Function) (kernel : Function → Prop)
    [DecidablePred kernel] (ds : List Finding) : Prop :=
  List.Forall₂ (x.Reports source) (fs.filter fun f => kernel f ∧ x.WaitsBlindly f) ds

private theorem checkKernel_eq :
    checkKernel x source f = (f.calls.find? x.isBarrierCall).bind fun b =>
    if f.isKernel && !f.calls.any fun e => (x.identityCallee e).isSome then
      some (f.couldRunAlone source b)
    else none := by
  cases given : f.body with
  | none =>
    have none : f.calls = [] := by simp [Function.calls, Item.nodes, given]
    rw [none, checkKernel, given]
    rfl
  | some body =>
    have calls : f.calls = body.nodes.filterMap Node.call? := by
      simp [Function.calls, Item.nodes, given]
    rw [calls, checkKernel, given]
    rfl

private theorem span_of_checkKernel {d : Finding} (found : checkKernel x source f = some d) :
    d.span = f.name.span := by
  rw [checkKernel_eq, Option.bind_eq_some_iff] at found
  obtain ⟨b, -, made⟩ := found
  rw [Option.ite_none_right_eq_some, Option.some.injEq] at made
  rw [← made.2]
  rfl

private theorem reports_of_checkKernel
    (rising : f.calls.Pairwise fun d e => d.span.start ≤ e.span.start)
    (kernel : f.isKernel = true) (blindly : x.WaitsBlindly f) :
    ∃ d, checkKernel x source f = some d ∧ x.Reports source f d := by
  have tests := waitsBlindly_iff.mp blindly
  rw [Bool.and_eq_true] at tests
  obtain ⟨b, found⟩ := Option.isSome_iff_exists.mp (List.find?_isSome.mpr (List.any_eq_true.mp tests.1))
  refine ⟨f.couldRunAlone source b, ?_, b, ⟨?_, ?_, ?_⟩, rfl⟩
  · rw [checkKernel_eq, found, kernel, tests.2]
    rfl
  · exact List.mem_of_find?_eq_some found
  · exact isBarrierCall_iff.mp (List.find?_some found)
  · intro e inside name target
    -- The search stops at the first barrier call of the row, and the row rises.
    obtain ⟨_, before, behind, split, others⟩ := List.find?_eq_some_iff_append.mp found
    rw [split] at rising inside
    rcases List.mem_append.mp inside with early | late
    · have not := others e early
      rw [isBarrierCall_iff.mpr ⟨name, target⟩] at not
      cases not
    · rcases List.mem_cons.mp late with rfl | later
      · exact Nat.le_refl _
      · exact (List.pairwise_cons.mp (List.pairwise_append.mp rising).2.1).1 e later

private theorem checkKernel_eq_none (excused : ¬ (f.isKernel = true ∧ x.WaitsBlindly f)) :
    checkKernel x source f = none := by
  rw [checkKernel_eq, Option.bind_eq_none_iff]
  intro b found
  rw [if_neg]
  intro tests
  rw [Bool.and_eq_true] at tests
  refine excused ⟨tests.1, waitsBlindly_iff.mpr ?_⟩
  rw [Bool.and_eq_true, List.any_eq_true]
  exact ⟨⟨b, List.mem_of_find?_eq_some found, List.find?_some found⟩, tests.2⟩

end Context

section Row

variable {α β : Type} {R : α → β → Prop} {p : α → Bool} {g : α → Option β} {as : List α}

private theorem forall₂_filter_filterMap
    (kept : ∀ a ∈ as, p a = true → ∃ b, g a = some b ∧ R a b)
    (left : ∀ a ∈ as, p a = false → g a = none) :
    List.Forall₂ R (as.filter p) (as.filterMap g) := by
  induction as with
  | nil => exact .nil
  | cons a as ih =>
    have later := ih (fun b member => kept b (List.mem_cons_of_mem a member))
      fun b member => left b (List.mem_cons_of_mem a member)
    cases keeps : p a with
    | true =>
      obtain ⟨b, made, related⟩ := kept a List.mem_cons_self keeps
      rw [List.filter_cons_of_pos keeps, List.filterMap_cons_some made]
      exact .cons related later
    | false =>
      rw [List.filter_cons_of_neg (by simp [keeps]),
        List.filterMap_cons_none (left a List.mem_cons_self keeps)]
      exact later

end Row

section Findings

variable (s : Subject)

private theorem Item.filterMap_definition? (item : Item) :
    item.events.filterMap Event.definition? =
      (item.function?.filter fun f => f.body.isSome).toList := by
  have silent {events : List Event} (undefined : ∀ ev ∈ events, ev.definition? = none) :
      events.filterMap Event.definition? = [] := List.filterMap_eq_nil_iff.mpr undefined
  cases item with
  | function f =>
    rw [Item.events, List.filterMap_cons, silent fun ev member => definition?_of_mem_body member]
    cases given : f.body <;> simp [Event.definition?, Item.function?, Option.filter_some, given]
  | global d => exact silent fun ev member => definition?_of_mem_global member
  | struct d => rfl
  | typedef d => rfl

private theorem Analysis.raisedBy_singleWorkItem
    (enabled : s.context.settings.enabled .singleWorkItem = true) (events : List Event) :
    raisedBy s .singleWorkItem events =
      (events.filterMap Event.definition?).filterMap (checkKernel s.context s.source) := by
  induction events using List.reverseRecOn with
  | nil => rfl
  | append_singleton events ev ih =>
    rw [raisedBy_append_singleton, ih, List.filterMap_append, List.filterMap_append, heard,
      if_pos enabled, raised, ← List.filterMap_eq_flatMap_toList,
      List.filterMap_eq_flatMap_toList Event.definition? [ev], List.flatMap_singleton]

private theorem Analysis.filter_findings_singleWorkItem (source : SourceText) {settings : Settings}
    (unit : SourceUnit) (enabled : settings.enabled .singleWorkItem = true) :
    (analyze source settings unit).findings.filter (fun d => d.check = some .singleWorkItem) =
      unit.functions.filterMap (checkKernel (unit.subject source settings).context source) := by
  have raised := raisedBy_singleWorkItem (unit.subject source settings) enabled unit.events
  refine raised.trans ?_
  rw [SourceUnit.events, SourceUnit.functions, List.filterMap_flatMap]
  simp only [Item.filterMap_definition?, ← List.filterMap_eq_flatMap_toList, List.filterMap_filterMap]
  refine List.filterMap_congr fun item _ => ?_
  cases item.function? with
  | none => rfl
  | some f =>
    cases given : f.body with
    | none => simp [Option.filter_some, given, checkKernel]
    | some body => simp [Option.filter_some, given, SourceUnit.subject]

end Findings

namespace SourceUnit

variable {text : String} {unit : SourceUnit} (parsed : (parse text).unit = some unit)

include parsed

private theorem functions_rising_of_parse :
    unit.functions.Pairwise fun f g => f.name.span.start ≤ g.name.span.start := by
  obtain ⟨u, v, tokens, within, -, each⟩ := exists_tokens_of_parse parsed
  have ordered := (lex_ordered text).sublist (within.trans tokens)
  rw [functions, List.pairwise_filterMap]
  refine (titles_rising each ordered).imp fun {x y} rising f here g there => ?_
  rw [Item.function?_eq_some_iff.mp here, Item.function?_eq_some_iff.mp there] at rising
  exact rising f.name List.mem_cons_self g.name List.mem_cons_self

private theorem calls_rising_of_parse {f : Function} (member : f ∈ unit.functions) :
    f.calls.Pairwise fun d e => d.span.start ≤ e.span.start := by
  have known := mem_functions_iff.mp member
  have laid : ∀ n ∈ (Item.function f).nodes, n.Laid := fun n inside =>
    laid_of_parse parsed n (List.mem_flatMap.mpr ⟨_, known, inside⟩)
  have apart := (laidOut_of_parse parsed).rootsApart _ known
  rw [Item.nodes_eq_flatMap] at laid
  rw [Function.calls, List.pairwise_filterMap, Item.nodes_eq_flatMap]
  refine (Node.forest_rising apart laid).imp fun {a b} rising d here e there => ?_
  rwa [Node.eq_expr_of_call? here, Node.eq_expr_of_call? there] at rising

variable (source : SourceText) {settings : Settings}
  (enabled : settings.enabled .singleWorkItem = true)

include enabled

private theorem sortedFindings_singleWorkItem_of_parse :
    ((analyze source settings unit).sortedFindings.filter fun d => d.code = some "W0401") =
      unit.functions.filterMap (checkKernel (unit.subject source settings).context source) := by
  have code : (fun d : Finding => decide (d.code = some "W0401")) =
      fun d => decide (d.check = some .singleWorkItem) := by
    funext d
    exact decide_eq_decide.mpr (d.code_eq_iff .singleWorkItem)
  have made := Analysis.filter_findings_singleWorkItem source unit enabled
  have rising : (unit.functions.filterMap
      (checkKernel (unit.subject source settings).context source)).Pairwise
        fun d e => d.span.start ≤ e.span.start := by
    rw [List.pairwise_filterMap]
    refine (functions_rising_of_parse parsed).imp fun {f g} rising d here e there => ?_
    rwa [Context.span_of_checkKernel here, Context.span_of_checkKernel there]
  let reported : Analysis :=
    { analyze source settings unit with
      findings := unit.functions.filterMap
        (checkKernel (unit.subject source settings).context source) }
  rw [code, ← Analysis.sortedFindings_of_filter (b := reported) _ made.symm]
  exact reported.sortedFindings_of_rising rising

private theorem reportsEach_of_parse :
    (unit.subject source settings).context.ReportsEach source unit.functions
      (fun f => f.isKernel = true)
      ((analyze source settings unit).sortedFindings.filter fun d => d.code = some "W0401") := by
  rw [Context.ReportsEach, sortedFindings_singleWorkItem_of_parse parsed source enabled]
  refine forall₂_filter_filterMap (fun f member counts => ?_) fun f member excused => ?_
  · obtain ⟨kernel, blindly⟩ := of_decide_eq_true counts
    exact Context.reports_of_checkKernel (calls_rising_of_parse parsed member) kernel blindly
  · exact Context.checkKernel_eq_none (of_decide_eq_false excused)

end SourceUnit

private theorem Context.ReportsEach.iff_of_imp {x : Context} {source : SourceText}
    {fs : List Function}
    {ds : List Finding} {narrow wide : Function → Prop} [DecidablePred narrow] [DecidablePred wide]
    (reports : x.ReportsEach source fs narrow ds) (imp : ∀ f ∈ fs, narrow f → wide f) :
    x.ReportsEach source fs wide ds ↔ ∀ f ∈ fs, wide f → x.WaitsBlindly f → narrow f := by
  constructor
  · intro reports' f member counts blindly
    have kept : ((fs.filter fun f => wide f ∧ x.WaitsBlindly f).filter
        fun f => narrow f ∧ x.WaitsBlindly f) = fs.filter fun f => narrow f ∧ x.WaitsBlindly f := by
      rw [List.filter_filter]
      refine List.filter_congr fun g known => ?_
      rw [← Bool.decide_and]
      exact decide_eq_decide.mpr ⟨And.left, fun both => ⟨both, imp g known both.1, both.2⟩⟩
    -- Both rows are as long as the findings, so nothing of the longer one is left out.
    have lengths := reports.length_eq.trans reports'.length_eq.symm
    rw [← kept] at lengths
    have same := List.Sublist.eq_of_length List.filter_sublist lengths
    have inside : f ∈ fs.filter fun f => wide f ∧ x.WaitsBlindly f :=
      List.mem_filter.mpr ⟨member, decide_eq_true ⟨counts, blindly⟩⟩
    rw [← same] at inside
    exact (of_decide_eq_true (List.mem_filter.mp inside).2).1
  · intro agree
    have same : (fs.filter fun f => wide f ∧ x.WaitsBlindly f) =
        fs.filter fun f => narrow f ∧ x.WaitsBlindly f := by
      refine List.filter_congr fun f member => decide_eq_decide.mpr ?_
      exact ⟨fun both => ⟨agree f member both.1 both.2, both.2⟩,
        fun both => ⟨imp f member both.1, both.2⟩⟩
    rw [Context.ReportsEach, same]
    exact reports

/-- Whether a function is a kernel stands in front of its name. The kernels that wait at a barrier
and ask for no identity are reported once each, with their first barrier, but they are known by
their definition alone: the functions that some declaration of the name makes a kernel, as the
resolution knows, are reported if and only if each such definition repeats the qualifier. -/
theorem kernels_reported_by_own_qualifier (source : SourceText) (settings : Settings)
    (text : String) (unit : SourceUnit) (parsed : (parse text).unit = some unit)
    (enabled : settings.enabled .singleWorkItem = true) :
    (∀ f ∈ unit.functions, f.Headed (lex text).tokens) ∧
    (unit.subject source settings).context.ReportsEach source unit.functions
      (fun f => f.isKernel = true)
      ((analyze source settings unit).sortedFindings.filter fun d => d.code = some "W0401") ∧
    (∀ n, (resolve unit).functions.any (fun g => g.name == n && g.isKernel) = true ↔
      unit.HasKernel n) ∧
    ((unit.subject source settings).context.ReportsEach source unit.functions
        (fun f => unit.HasKernel f.name.name)
        ((analyze source settings unit).sortedFindings.filter fun d => d.code = some "W0401") ↔
      ∀ f ∈ unit.functions, unit.HasKernel f.name.name →
        (unit.subject source settings).context.WaitsBlindly f → f.isKernel = true) := by
  have reports := SourceUnit.reportsEach_of_parse parsed source enabled
  refine ⟨fun f member => ?_, reports, Resolution.any_kernels_iff unit, ?_⟩
  · exact headed_of_parse parsed (SourceUnit.mem_functions_iff.mp member)
  · refine reports.iff_of_imp fun f member kernel => ?_
    exact ⟨f, SourceUnit.mem_functions_iff.mp member, rfl, kernel⟩

/-- A kernel that is declared again without the qualifier, with a barrier inside a call of another,
and a kernel that asks for an identity. -/
def kernelSample : String := "a kernel f()\n{b(b());}a f();kernel a k(){b(i());}"

def kernelSettings : Settings := { identityFunctions := ["i"], barrierFunctions := ["b"] }

theorem kernels_reported_by_own_qualifier_sample : ∃ unit, (parse kernelSample).unit = some unit ∧
    kernelSettings.enabled .singleWorkItem = true ∧
    unit.functions.map (fun f => (f.name.name, f.isKernel, decide (unit.HasKernel f.name.name))) =
      [("f", true, true), ("f", false, true), ("k", true, true)] ∧
    (analyze (.ofText "k.cl" kernelSample) kernelSettings unit).sortedFindings.map
        (fun d => (d.code, d.span, d.message)) =
      [(some "W0401", ⟨9, 10⟩,
        "kernel function 'f' does not call an identity function and may be treated as " ++
          "single-work-item; barrier call at k.cl:2:2 forces NDRange execution")] ∧
    (unit.subject (.ofText "k.cl" kernelSample) kernelSettings).context.ReportsEach
      (.ofText "k.cl" kernelSample) unit.functions (fun f => unit.HasKernel f.name.name)
      ((analyze (.ofText "k.cl" kernelSample) kernelSettings unit).sortedFindings.filter
        fun d => d.code = some "W0401") := by
  have evaluated : ((parse kernelSample).unit.map fun unit =>
      (decide (unit.functions.map
          (fun f => (f.name.name, f.isKernel, decide (unit.HasKernel f.name.name))) =
        [("f", true, true), ("f", false, true), ("k", true, true)]),
      decide ((analyze (.ofText "k.cl" kernelSample) kernelSettings unit).sortedFindings.map
          (fun d => (d.code, d.span, d.message)) =
        [(some "W0401", ⟨9, 10⟩,
          "kernel function 'f' does not call an identity function and may be treated as " ++
            "single-work-item; barrier call at k.cl:2:2 forces NDRange execution")]),
      decide (∀ f ∈ unit.functions, unit.HasKernel f.name.name →
        (unit.subject (.ofText "k.cl" kernelSample) kernelSettings).context.WaitsBlindly f →
          f.isKernel = true))) = some (true, true, true) := by
    decide +kernel
  obtain ⟨unit, parsed, facts⟩ := Option.map_eq_some_iff.mp evaluated
  simp only [Prod.mk.injEq, decide_eq_true_eq] at facts
  obtain ⟨functions, findings, repeated⟩ := facts
  refine ⟨unit, parsed, rfl, functions, findings, ?_⟩
  have exactly := kernels_reported_by_own_qualifier (.ofText "k.cl" kernelSample) kernelSettings
    kernelSample unit parsed rfl
  exact exactly.2.2.2.mpr repeated

/-- A kernel by its prototype: nothing is said of it, though it waits blindly. -/
theorem kernel_by_prototype_unreported : ∃ unit,
    (parse "__kernel void k(); void k() { barrier(1); }").unit = some unit ∧
    Settings.enabled {} .singleWorkItem = true ∧
    (∃ f ∈ unit.functions, unit.HasKernel f.name.name ∧
      (unit.subject (.ofText "k.cl" "__kernel void k(); void k() { barrier(1); }")
        {}).context.WaitsBlindly f) ∧
    (analyze (.ofText "k.cl" "__kernel void k(); void k() { barrier(1); }") {} unit).sortedFindings =
      [] ∧
    ¬ (unit.subject (.ofText "k.cl" "__kernel void k(); void k() { barrier(1); }")
        {}).context.ReportsEach (.ofText "k.cl" "__kernel void k(); void k() { barrier(1); }")
      unit.functions (fun f => unit.HasKernel f.name.name) [] := by
  have evaluated : ((parse "__kernel void k(); void k() { barrier(1); }").unit.map fun unit =>
      (decide (∃ f ∈ unit.functions, unit.HasKernel f.name.name ∧
          (unit.subject (.ofText "k.cl" "__kernel void k(); void k() { barrier(1); }")
            {}).context.WaitsBlindly f),
        (analyze (.ofText "k.cl" "__kernel void k(); void k() { barrier(1); }") {}
          unit).sortedFindings)) =
      some (true, []) := by
    decide +kernel
  obtain ⟨unit, parsed, facts⟩ := Option.map_eq_some_iff.mp evaluated
  obtain ⟨blindly, findings⟩ := Prod.mk.inj facts
  obtain ⟨f, member, kernel, waits⟩ := of_decide_eq_true blindly
  refine ⟨unit, parsed, rfl, ⟨f, member, kernel, waits⟩, findings, fun reports => ?_⟩
  have excused := List.filter_eq_nil_iff.mp (List.forall₂_nil_right_iff.mp reports) f member
  exact excused (decide_eq_true ⟨kernel, waits⟩)

end Lockstep
