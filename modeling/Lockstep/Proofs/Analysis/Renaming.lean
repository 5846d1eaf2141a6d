import Lockstep.Proofs.Analysis.Raised
import Lockstep.Proofs.Naming.Renaming
import Lockstep.Proofs.Taint.Visible
/-!
The analysis under new names for variables. No phase tells variables apart by their names: calls
reach the same targets, expressions denote the same declarations, and constructs get the same
verdicts. So the same declarations go on record, each with the same one it was copied from, the same
calls are met, and the findings are the same but for what their messages call the variables.
-/

set_option autoImplicit false
set_option relaxedAutoImplicit false

namespace Lockstep

private theorem cases_of_map_eq {α β γ : Type} {f : α → γ} {g : β → γ} {a : Option α} {b : Option β}
    (alike : b.map g = a.map f) :
    (a = none ∧ b = none) ∨ ∃ u v, a = some u ∧ b = some v ∧ g v = f u := by
  cases a with
  | none => exact .inl ⟨rfl, Option.map_eq_none_iff.mp alike⟩
  | some u =>
    obtain ⟨v, there, same⟩ := Option.map_eq_some_iff.mp alike
    exact .inr ⟨u, v, rfl, there, same⟩

/-! ### What is left of records and findings without their messages -/

namespace TaintStore

/-- The declarations on record in order, each with its event and the declaration it was copied
from. -/
def links (s : TaintStore) : List (Key × Span × Option Key) :=
  s.records.map fun record => (record.1, record.2.span, record.2.copiedFrom)

private theorem lookup_links (s : TaintStore) (k : Key) :
    s.links.lookup k = (s.get? k).map fun p => (p.span, p.copiedFrom) := by
  rw [links, get?]
  induction s.records with
  | nil => rfl
  | cons record records ih =>
    rw [List.map_cons, List.lookup_cons, List.lookup_cons, ih]
    cases k == record.1 <;> rfl

variable {s t : TaintStore} (same : t.links = s.links)

include same

private theorem get?_of_links (k : Key) :
    (t.get? k).map (fun p => (p.span, p.copiedFrom)) =
      (s.get? k).map fun p => (p.span, p.copiedFrom) := by
  rw [← lookup_links, same, lookup_links]

private theorem contains_of_links (k : Key) : t.contains k = s.contains k := by
  have found := congrArg Option.isSome (get?_of_links same k)
  rwa [Option.isSome_map, Option.isSome_map] at found

private theorem record_of_links {k : Key} {p q : Provenance} (span : q.span = p.span)
    (copied : q.copiedFrom = p.copiedFrom) : (t.record k q).links = (s.record k p).links := by
  rw [record, record, contains_of_links same]
  split
  · exact same
  · simp only [links, List.map_append, List.map_singleton, span, copied]
    exact congrArg (· ++ _) same

private theorem trace_of_links (k : Key) :
    (t.trace k).map Note.span = (s.trace k).map Note.span := by
  have follow (steps : Nat) (cursor : Option Key) :
      (t.follow steps cursor).map Note.span = (s.follow steps cursor).map Note.span := by
    induction steps generalizing cursor with
    | zero => rfl
    | succ steps ih =>
      cases cursor with
      | none => rfl
      | some j =>
        rw [TaintStore.follow, TaintStore.follow]
        rcases cases_of_map_eq (get?_of_links same j) with ⟨old, new⟩ | ⟨p, q, old, new, both⟩
        · rw [old, new]
        · obtain ⟨span, copied⟩ := Prod.mk.inj both
          rw [old, new]
          simp only [List.map_cons, span, copied, ih]
  have sizes : t.size = s.size := by
    have lengths := congrArg List.length same
    rwa [links, links, List.length_map, List.length_map] at lengths
  rw [trace, trace, sizes, follow]

end TaintStore

def Finding.outline (f : Finding) : Option String × Severity × Span × List Span :=
  (f.code, f.severity, f.span, f.notes.map Note.span)

private theorem Analysis.sortedFindings_outline {a b : Analysis}
    (same : b.findings.map Finding.outline = a.findings.map Finding.outline) :
    b.sortedFindings.map Finding.outline = a.sortedFindings.map Finding.outline := by
  -- The order asks for nothing but what the outlines show.
  have sorted (c : Analysis) : c.sortedFindings.map Finding.outline =
      (c.findings.map Finding.outline).mergeSort fun f g => f.2.2.1.start ≤ g.2.2.1.start :=
    List.map_mergeSort fun _ _ _ _ => rfl
  rw [sorted, sorted, same]

/-! ### Questions about expressions -/

namespace Expr

private theorem visibleChildren_rename (ρ : Renaming) (policy : IndexPolicy) (e : Expr) :
    (e.rename ρ).visibleChildren policy = (e.visibleChildren policy).map (rename ρ) := by
  cases e with
  | index span base sub => cases policy <;> rfl
  | _ => simp [rename, visibleChildren, children, renameAll_eq_map]

private theorem firstVisible_rename {ρ : Renaming} {β γ δ : Type} {ask : Expr → Option β}
    {ask' : Expr → Option γ} {f : β → δ} {g : γ → δ} (policy : IndexPolicy)
    (each : ∀ e : Expr, (ask' (e.rename ρ)).map g = (ask e).map f) (e : Expr) :
    ((e.rename ρ).firstVisible policy ask').map g = (e.firstVisible policy ask).map f := by
  induction e using children_induction with
  | step e ih =>
    have among (es : List Expr) (within : es ⊆ e.children) :
        (firstVisibleAmong policy ask' (es.map (rename ρ))).map g =
          (firstVisibleAmong policy ask es).map f := by
      induction es with
      | nil => rfl
      | cons c es ihAmong =>
        obtain ⟨child, others⟩ := List.cons_subset.mp within
        simp only [List.map_cons, firstVisibleAmong, Option.orElse_eq_orElse, Option.orElse_eq_or,
          Option.map_or, ih c child, ihAmong others]
    simp only [firstVisible_eq, visibleChildren_rename, Option.orElse_eq_orElse,
      Option.orElse_eq_or, Option.map_or, each, among _ (visibleChildren_subset policy e)]

end Expr

namespace Context

private theorem outline_barrierFindings (source : SourceText) (store : TaintStore)
    (kind : Conditional) (cond : Expr) (d : Dependence) (barriers : List Expr)
    (verdict : Option Verdict) :
    (barrierFindings source store kind cond d barriers verdict).map Finding.outline =
      (barriers.map Expr.span).map fun place => (some Check.barrier.code, .warning, place,
        d.copiedFrom.toList.flatMap (fun k => (store.trace k).map Note.span) ++
          (verdict.toList.flatMap (Verdict.note cond.span)).map Note.span) := by
  cases d <;>
    simp [barrierFindings, Finding.outline, Finding.code, Dependence.copiedFrom, Function.comp_def]

/-- The second context says of everything under its new name what the first says of it under its
old one. -/
structure Renamed (ρ : Renaming) (x y : Context) : Prop where
  settings : y.settings = x.settings
  varDecls : y.names.varDecls = x.names.varDecls
  keyOf : ∀ e : Expr, y.keyOf (e.rename ρ) = x.keyOf e
  calleeName : ∀ e : Expr, y.names.calleeName (e.rename ρ) = x.names.calleeName e
  functionRef : ∀ e : Expr, y.names.functionRef (e.rename ρ) = x.names.functionRef e

namespace Renamed

variable {ρ : Renaming} {x y : Context} (renamed : Renamed ρ x y)

include renamed

theorem callTarget (e : Expr) : y.callTarget (e.rename ρ) = x.callTarget e := by
  cases e with
  | call span callee args =>
    simp only [Expr.rename, Context.callTarget, renamed.calleeName, renamed.settings]
  | _ => rfl

theorem identityCallee (e : Expr) : y.identityCallee (e.rename ρ) = x.identityCallee e := by
  simp only [Context.identityCallee, renamed.callTarget]

theorem isBarrierCall (e : Expr) : y.isBarrierCall (e.rename ρ) = x.isBarrierCall e := by
  simp only [Context.isBarrierCall, renamed.callTarget]

theorem barrierCalls (s : Stmt) :
    y.barrierCalls (s.rename ρ) = (x.barrierCalls s).map (Expr.rename ρ) := by
  rw [Context.barrierCalls, Stmt.preorder_rename, Node.filterMap_call?_rename, List.filter_map, Context.barrierCalls]
  refine congrArg (List.map _) (List.filter_congr fun e _ => ?_)
  exact renamed.isBarrierCall e

theorem dependence {store store' : TaintStore} (same : store'.links = store.links) (e : Expr) :
    (y.dependence store' (e.rename ρ)).map Dependence.copiedFrom =
      (x.dependence store e).map Dependence.copiedFrom := by
  have visible : y.settings.indexPolicy = x.settings.indexPolicy := by rw [renamed.settings]
  have called : (y.findIdentityCall (e.rename ρ)).map Expr.span =
      (x.findIdentityCall e).map Expr.span := by
    rw [findIdentityCall, findIdentityCall, visible]
    refine Expr.firstVisible_rename _ (fun v => ?_) e
    rw [renamed.identityCallee]
    split <;> simp
  have scanned : (y.scan store' (e.rename ρ)).map TaintedRef.key =
      (x.scan store e).map TaintedRef.key := by
    rw [scan, scan, visible]
    refine Expr.firstVisible_rename _ (fun v => ?_) e
    rw [taintedRef, taintedRef, renamed.keyOf]
    cases x.keyOf v with
    | none => rfl
    | some k =>
      simp only [TaintStore.contains_of_links same]
      split <;> rfl
  rw [Context.dependence, Context.dependence]
  rcases cases_of_map_eq called with ⟨old, new⟩ | ⟨call, call', old, new, -⟩
  · rw [old, new]
    have keys := congrArg (Option.map some) scanned
    rw [Option.map_map, Option.map_map] at keys
    simp only [Option.map_map]
    exact keys
  · rw [old, new]
    rfl

theorem propagate {store store' : TaintStore} (same : store'.links = store.links) (k : Key)
    (value : Expr) (span : Span) :
    (y.propagate store' k (value.rename ρ) span).links = (x.propagate store k value span).links := by
  rw [Context.propagate, Context.propagate, influx, influx, TaintStore.contains_of_links same]
  by_cases recorded : store.contains k = true
  · rw [if_pos recorded, if_pos recorded]
    exact same
  · rw [if_neg recorded, if_neg recorded]
    rcases cases_of_map_eq (renamed.dependence same value) with ⟨old, new⟩ | ⟨d, d', old, new, copied⟩
    · rw [old, new]
      exact same
    · rw [old, new]
      exact TaintStore.record_of_links same rfl copied

/-! ### Verdicts -/

theorem step (n : Node) : y.step (n.rename ρ) = x.step n := by
  cases n with
  | stmt s => cases s <;> rfl
  | expr e => simp only [Node.rename, Context.step, renamed.callTarget, Expr.span_rename]

theorem judgeChain (flat : Flat) : y.judgeChain (flat.rename ρ) = x.judgeChain flat := by
  have nodes (t : Tally) (ns : List (Mark × Node)) :
      y.judgeChainNodes t (ns.map (renameMarked ρ)) = x.judgeChainNodes t ns := by
    induction ns generalizing t with
    | nil => rfl
    | cons first ns ih =>
      obtain ⟨mark, node⟩ := first
      rw [List.map_cons, renameMarked]
      cases mark with
      | condition =>
        rw [judgeChainNodes, judgeChainNodes, Node.call?_rename]
        cases node.call? <;>
          simp only [Option.map_none, Option.map_some, renamed.identityCallee, Expr.span_rename, ih]
      | _ => simp only [judgeChainNodes, renamed.step, Node.span_rename, ih]
  simp only [Context.judgeChain, Flat.rename, nodes]

theorem judgeSwitch (flat : Flat) : y.judgeSwitch (flat.rename ρ) = x.judgeSwitch flat := by
  have nodes (t : Tally) (next : Nat) (ns : List (Mark × Node)) :
      y.judgeSwitchNodes t next (ns.map (renameMarked ρ)) = x.judgeSwitchNodes t next ns := by
    induction ns generalizing t next with
    | nil => rfl
    | cons first ns ih =>
      obtain ⟨mark, node⟩ := first
      rw [List.map_cons, renameMarked]
      cases mark <;> simp only [judgeSwitchNodes, renamed.step, Node.span_rename, ih]
  simp only [Context.judgeSwitch, Flat.rename, nodes]

/-! ### Findings -/

section Findings

variable {store store' : TaintStore} (same : store'.links = store.links)
  (source source' : SourceText)

include same

theorem checkLoopCondition (kind : LoopKind) (cond : Expr) :
    (Lockstep.checkLoopCondition y store' kind (cond.rename ρ)).map Finding.outline =
      (Lockstep.checkLoopCondition x store kind cond).map Finding.outline := by
  rw [Lockstep.checkLoopCondition, Lockstep.checkLoopCondition]
  rcases cases_of_map_eq (renamed.dependence same cond) with ⟨old, new⟩ | ⟨d, d', old, new, copied⟩
  · rw [old, new]
    rfl
  · rw [old, new, Option.map_some, Option.map_some, Option.map_some, Option.map_some]
    cases d <;> cases d' <;>
      simp_all [Dependence.copiedFrom, Finding.outline, Finding.code, TaintStore.trace_of_links same]

omit renamed in
private theorem barrierFindings (kind : Conditional) {cond cond' : Expr}
    (place : cond'.span = cond.span) {d d' : Dependence} (copied : d'.copiedFrom = d.copiedFrom)
    (barriers : List Expr) (verdict : Option Verdict) :
    (Context.barrierFindings source' store' kind cond' d' (barriers.map (Expr.rename ρ))
        verdict).map Finding.outline =
      (Context.barrierFindings source store kind cond d barriers verdict).map Finding.outline := by
  simp [outline_barrierFindings, place, copied, TaintStore.trace_of_links same]

theorem checkLoopBarriers (kind : LoopKind) (s : Stmt) (cond : Expr) :
    (y.checkLoopBarriers source' store' kind (s.rename ρ) (cond.rename ρ)).map Finding.outline =
      (x.checkLoopBarriers source store kind s cond).map Finding.outline := by
  rw [Context.checkLoopBarriers, renamed.barrierCalls, Context.checkLoopBarriers]
  cases listed : x.barrierCalls s with
  | nil => rfl
  | cons b bs =>
    rcases cases_of_map_eq (renamed.dependence same cond) with
      ⟨old, new⟩ | ⟨d, d', old, new, copied⟩
    · rw [old, new]
      rfl
    · rw [old, new]
      exact barrierFindings same source source' _ (cond.span_rename ρ) copied (b :: bs) none

theorem dependentLink (c : Chain) (final : Option Stmt) :
    (y.dependentLink store' ⟨c.links.map (Link.rename ρ), final⟩).map
        (Prod.map id Dependence.copiedFrom) =
      (x.dependentLink store c).map (Prod.map (Expr.rename ρ) Dependence.copiedFrom) := by
  rw [Context.dependentLink, Context.dependentLink]
  induction c.links with
  | nil => rfl
  | cons l ls ih =>
    have here : (l.rename ρ).cond = l.cond.rename ρ := rfl
    rw [List.map_cons, List.findSome?_cons, List.findSome?_cons, here]
    rcases cases_of_map_eq (renamed.dependence same l.cond) with
      ⟨old, new⟩ | ⟨d, d', old, new, copied⟩
    · rw [old, new]
      exact ih
    · rw [old, new]
      simp [copied]

theorem checkChain (s : Stmt) :
    (y.checkChain source' store' (s.rename ρ)).map Finding.outline =
      (x.checkChain source store s).map Finding.outline := by
  rw [Context.checkChain, Context.checkChain, chainVerdict, chainVerdict, renamed.barrierCalls,
    Stmt.flatten_rename, renamed.judgeChain, Stmt.chain_rename]
  cases listed : x.barrierCalls s with
  | nil => rfl
  | cons b bs =>
    rcases cases_of_map_eq (renamed.dependentLink same s.chain _) with
      ⟨old, new⟩ | ⟨⟨cond, d⟩, ⟨cond', d'⟩, old, new, both⟩
    · rw [old, new]
      rfl
    · obtain ⟨place, copied⟩ := Prod.mk.inj both
      rw [old, new]
      have findings := barrierFindings (ρ := ρ) same source source' .ifElse
        ((congrArg Expr.span place).trans (cond.span_rename ρ)) copied (b :: bs)
      cases x.judgeChain s.chain.flatten with
      | balanced => rfl
      | unbalanced why => exact findings _
      | unknown span why => exact findings _

theorem checkSwitch (s : Stmt) (cond : Expr) (body : Stmt) :
    (y.checkSwitch source' store' (s.rename ρ) (cond.rename ρ) (body.rename ρ)).map Finding.outline =
      (x.checkSwitch source store s cond body).map Finding.outline := by
  rw [Context.checkSwitch, Context.checkSwitch, switchVerdict, switchVerdict, renamed.barrierCalls,
    Stmt.flattenSwitch_rename, renamed.judgeSwitch]
  cases listed : x.barrierCalls s with
  | nil => rfl
  | cons b bs =>
    rcases cases_of_map_eq (renamed.dependence same cond) with
      ⟨old, new⟩ | ⟨d, d', old, new, copied⟩
    · rw [old, new]
      rfl
    · rw [old, new]
      have findings := barrierFindings (ρ := ρ) same source source' .switch (cond.span_rename ρ)
        copied (b :: bs)
      cases x.judgeSwitch body.flattenSwitch with
      | balanced => rfl
      | unbalanced why => exact findings _
      | unknown span why => exact findings _

end Findings

theorem checkKernel (source source' : SourceText) (f : Function) :
    (Lockstep.checkKernel y source' (f.rename ρ)).map Finding.outline =
      (Lockstep.checkKernel x source f).map Finding.outline := by
  have calls (b : Block) : (b.rename ρ).nodes.filterMap Node.call? =
      (b.nodes.filterMap Node.call?).map (Expr.rename ρ) := by
    have nodes : (b.rename ρ).nodes = b.nodes.map (Node.rename ρ) := by
      simp [Block.nodes, Block.rename, List.flatMap_map, List.map_flatMap, Stmt.preorder_rename]
    rw [nodes, Node.filterMap_call?_rename]
  cases given : f.body with
  | none => simp [Lockstep.checkKernel, Function.rename, given]
  | some body =>
    have barrier : (y.isBarrierCall ∘ Expr.rename ρ) = x.isBarrierCall := funext renamed.isBarrierCall
    simp only [Lockstep.checkKernel, Function.rename, given, Option.map_some, Option.bind_eq_bind,
      Option.bind_some, calls, List.find?_map, barrier]
    cases (body.nodes.filterMap Node.call?).find? x.isBarrierCall with
    | none => rfl
    | some b =>
      simp only [Option.map_some, Option.bind_some, List.any_map, Function.comp_def,
        renamed.identityCallee]
      split <;> rfl

end Renamed

end Context

/-! ### The run -/

namespace Event

variable {ρ : Renaming} {x y : Context} (renamed : x.Renamed ρ y) (ev : Event)

private theorem definition?_rename (ρ : Renaming) (ev : Event) :
    (ev.rename ρ).definition? = ev.definition?.map (Function.rename ρ) := by
  cases ev with
  | function f => cases given : f.body <;> simp [rename, definition?, Function.rename, given]
  | _ => rfl

include renamed

private theorem site?_rename : (ev.rename ρ).site? y.names = ev.site? x.names := by
  cases ev <;> simp [rename, site?, renamed.calleeName, renamed.functionRef]

private theorem receipt_rename : (ev.rename ρ).receipt y =
    (ev.receipt x).map fun r => ⟨r.key, r.value.rename ρ, r.span⟩ := by
  cases ev <;>
    simp [rename, receipt, Declarator.rename, Ident.rename, renamed.varDecls, renamed.keyOf,
      Function.comp_def]

end Event

namespace Analysis

/-- Two runs that differ in nothing but messages and commentary. -/
structure Matches (a b : Analysis) : Prop where
  links : b.store.links = a.store.links
  calls : b.calls = a.calls
  outlines : b.findings.map Finding.outline = a.findings.map Finding.outline

namespace Matches

variable {ρ : Renaming} {s t : Subject} (renamed : s.context.Renamed ρ t.context) {a b : Analysis}

include renamed

theorem raised (same : Matches a b) (check : Check) (ev : Event) :
    (Analysis.raised t b check (ev.rename ρ)).map Finding.outline =
      (Analysis.raised s a check ev).map Finding.outline := by
  cases check with
  | singleWorkItem =>
    simp only [Analysis.raised, Event.definition?_rename]
    cases ev.definition? with
    | none => simp only [Option.map_none, Option.toList_none, List.flatMap_nil]
    | some f => simp [← Option.toList_map, renamed.checkKernel s.source t.source]
  | recursion =>
    have site : raisedAtCall t b = raisedAtCall s a := by
      funext site
      simp only [raisedAtCall, same.calls, renamed.settings]
    simp only [Analysis.raised, Event.site?_rename renamed, site]
  | backwardBranch =>
    cases ev with
    | loop kind stmt cond =>
      simp only [Analysis.raised, Event.rename, ← Option.toList_map,
        renamed.checkLoopCondition same.links]
    | _ => rfl
  | barrier =>
    cases ev with
    | loop kind stmt cond => exact renamed.checkLoopBarriers same.links s.source t.source kind stmt cond
    | ifChain stmt => exact renamed.checkChain same.links s.source t.source stmt
    | switch stmt cond body => exact renamed.checkSwitch same.links s.source t.source stmt cond body
    | _ => rfl

/-- One event keeps the two runs together. -/
theorem step (same : Matches a b) (ev : Event) :
    Matches (Analysis.step s a ev) (Analysis.step t b (ev.rename ρ)) where
  links := by
    rw [step_store, step_store, Event.receipt_rename renamed]
    cases ev.receipt s.context with
    | none => exact same.links
    | some r => exact renamed.propagate same.links r.key r.value r.span
  calls := by
    rw [step_calls, step_calls, CallMap.record, CallMap.record, Event.site?_rename renamed,
      Event.definition?_rename, same.calls]
    cases ev.definition? <;> rfl
  outlines := by
    have each (check : Check) :
        (heard t check (Analysis.raised t b check (ev.rename ρ))).map Finding.outline =
          (heard s check (Analysis.raised s a check ev)).map Finding.outline := by
      unfold heard
      rw [renamed.settings]
      split
      · exact same.raised renamed check ev
      · rfl
    simp only [step_findings, found_eq, List.map_append, same.outlines, each]

theorem after (events : List Event) :
    Matches (Analysis.after s events) (Analysis.after t (events.map (Event.rename ρ))) := by
  induction events using List.reverseRecOn with
  | nil =>
    rw [List.map_nil, after_nil, after_nil]
    exact ⟨rfl, rfl, rfl⟩
  | append_singleton events ev ih =>
    rw [List.map_append, List.map_singleton, after_append_singleton, after_append_singleton]
    exact ih.step renamed ev

end Matches

end Analysis

private theorem SourceUnit.renamed_context (unit : SourceUnit) (r : String → String)
    (settings : Settings) :
    Context.Renamed (unit.variableNames r) ⟨resolve unit, settings⟩
      ⟨(resolve unit).rename r, settings⟩ := by
  have callee (e : Expr) : ((resolve unit).rename r).calleeName (e.rename (unit.variableNames r)) =
      (resolve unit).calleeName e := by
    cases e with
    | name span n =>
      simp only [Expr.rename, Resolution.calleeName, Resolution.rename, variableNames]
      by_cases free : (resolve unit).varRefs.lookup span = none <;> simp [free]
    | _ => rfl
  refine ⟨rfl, rfl, fun e => ?_, callee, fun e => ?_⟩
  · cases e <;> rfl
  · show (((resolve unit).rename r).calleeName _).filter _ = _
    rw [callee]
    rfl

/--
Let no two uses of names in a file have one range, and let new names for its variables keep them
apart, and apart from the names that stand for no variable. Then the file is resolved as before: its
tables differ in the names of the variables alone. Whatever the settings and the text, the analysis
puts the same declarations on record in the same events, each with the same one it was copied from,
and meets the same calls. It finds the same, with the same codes, severities, ranges and ranges of
notes, in the order in which findings are made and in the one in which they come out.
-/
theorem renaming_invariant (unit : SourceUnit) (distinct : (unit.names.map Prod.fst).Nodup)
    (r : String → String) (renamable : unit.Renamable r) :
    resolve (unit.renameVariables r) = (resolve unit).rename r ∧
      ∀ (settings : Settings) (source source' : SourceText),
        let a := analyze source settings unit
        let b := analyze source' settings (unit.renameVariables r)
        b.store.links = a.store.links ∧ b.calls = a.calls ∧
          b.findings.map Finding.outline = a.findings.map Finding.outline ∧
          b.sortedFindings.map Finding.outline = a.sortedFindings.map Finding.outline := by
  have resolved := SourceUnit.resolve_renameVariables distinct renamable
  refine ⟨resolved, fun settings source source' => ?_⟩
  intro a b
  have context : Context.Renamed (unit.variableNames r) (unit.subject source settings).context
      ((unit.renameVariables r).subject source' settings).context := by
    have same := unit.renamed_context r settings
    rw [← resolved] at same
    exact same
  have run := Analysis.Matches.after context unit.events
  rw [← SourceUnit.events_rename] at run
  exact ⟨run.links, run.calls, run.outlines, Analysis.sortedFindings_outline run.outlines⟩

/-- `int v = get_global_id(); void g() { int w = v; while (w) g(); }` -/
def exchangeSample : SourceUnit :=
  let declare (name : String) (start : Nat) (value : Expr) : Decl :=
    ⟨⟨.named ⟨"int", ⟨start, start + 3⟩⟩, 0, ⟨start, start + 3⟩⟩,
      [⟨0, ⟨name, ⟨start + 4, start + 5⟩⟩, [], some value, ⟨start + 4, value.span.stop⟩⟩],
      ⟨start, value.span.stop + 1⟩⟩
  ⟨[.global (declare "v" 0 (.call ⟨8, 23⟩ (.name ⟨8, 21⟩ "get_global_id") [])),
    .function ⟨false, ⟨.named ⟨"void", ⟨25, 29⟩⟩, 0, ⟨25, 29⟩⟩, ⟨"g", ⟨30, 31⟩⟩, [],
      some ⟨[.decl ⟨36, 46⟩ (declare "w" 36 (.name ⟨44, 45⟩ "v")),
        .whileLoop ⟨47, 61⟩ (.name ⟨54, 55⟩ "w")
          (.expr ⟨57, 61⟩ (.call ⟨57, 60⟩ (.name ⟨57, 58⟩ "g") []))], ⟨34, 63⟩⟩, ⟨25, 63⟩⟩],
    ⟨0, 63⟩⟩

theorem renaming_invariant_sample :
    let exchange : String → String := fun n => if n = "v" then "w" else "v"
    (exchangeSample.names.map Prod.fst).Nodup ∧ exchangeSample.Renamable exchange ∧
      resolve (exchangeSample.renameVariables exchange) =
        (resolve exchangeSample).rename exchange ∧
      (analyze ⟨"k.cl", 1, [0]⟩ {} (exchangeSample.renameVariables exchange)).store.links =
        [(.var 0, ⟨4, 23⟩, none), (.var 1, ⟨40, 45⟩, some (.var 0))] ∧
      (analyze ⟨"k.cl", 1, [0]⟩ {} (exchangeSample.renameVariables exchange)).findings.map
          Finding.outline =
        [(some "W0101", .warning, ⟨54, 55⟩, [⟨40, 45⟩, ⟨4, 23⟩]),
          (some "E0301", .error, ⟨57, 58⟩, [⟨57, 58⟩])] := by
  intro exchange
  have distinct : (exchangeSample.names.map Prod.fst).Nodup := by decide
  have renamable : exchangeSample.Renamable exchange :=
    ⟨by decide +kernel, by decide +kernel⟩
  obtain ⟨resolved, run⟩ := renaming_invariant exchangeSample distinct exchange renamable
  obtain ⟨links, -, outlines, -⟩ := run {} ⟨"k.cl", 1, [0]⟩ ⟨"k.cl", 1, [0]⟩
  exact ⟨distinct, renamable, resolved, links.trans (by decide +kernel),
    outlines.trans (by decide +kernel)⟩

end Lockstep
