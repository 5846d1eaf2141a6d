import Lockstep.Proofs.Analysis.Raised
import Lockstep.Proofs.Branch.Switch
import Lockstep.Proofs.Check.Constructs
import Lockstep.Proofs.Grammar.Placement
import Mathlib.Data.List.Induction
import Mathlib.Data.List.Nodup
/-!
Barriers counted. A barrier is reported once for each construct around it that work-items may leave
on different ways: one of its conditions depends on an identity when the construct is met, and it is
not known to be balanced. So no report is lost and none is made twice, and the links of a chain are
not counted on their own.
-/

set_option autoImplicit false
set_option relaxedAutoImplicit false

namespace Lockstep

/-- What decides about the code inside a construct; in a chain these are the conditions of all its
links. -/
def Stmt.conditions : Stmt → List Expr
  | s@(ifThen _ _ _) | s@(ifElse _ _ _ _) => s.chain.links.map Link.cond
  | forLoop _ _ cond _ _ => cond.toList
  | whileLoop _ cond _ | doLoop _ _ cond | switch _ cond _ => [cond]
  | _ => []

namespace Context

/-- The construct is known to make all work-items meet the same barriers. Loops never are. -/
def Excuses (x : Context) : Stmt → Prop
  | s@(.ifThen _ _ _) | s@(.ifElse _ _ _ _) => x.judgeChain s.chain.flatten = .balanced
  | .switch _ _ body => x.judgeSwitch body.flattenSwitch = .balanced
  | _ => False

/-- As far as the store knows, work-items may take different ways at the construct. -/
structure Diverges (x : Context) (store : TaintStore) (s : Stmt) : Prop where
  dependent : ∃ cond ∈ s.conditions, (x.dependence store cond).isSome = true
  unexcused : ¬ x.Excuses s

variable {x : Context} {store : TaintStore} {s : Stmt}

private theorem spans_barrierFindings (source : SourceText) (kind : Conditional) (cond : Expr)
    (d : Dependence) (barriers : List Expr) (verdict : Option Verdict) :
    (barrierFindings source store kind cond d barriers verdict).map Finding.span =
      barriers.map Expr.span := by
  simp [barrierFindings]

/-- The findings at a construct stand at its barriers if it diverges, and else there are none. -/
def Reported (x : Context) (store : TaintStore) (s : Stmt) (findings : List Finding) : Prop :=
  (x.Diverges store s → findings.map Finding.span = (x.barrierCalls s).map Expr.span) ∧
    (¬ x.Diverges store s → findings = [])

private theorem reported_loop (source : SourceText) (kind : LoopKind) {cond : Expr}
    (single : s.conditions = [cond]) (never : ¬ x.Excuses s) :
    x.Reported store s (x.checkLoopBarriers source store kind s cond) := by
  have diverges : x.Diverges store s ↔ (x.dependence store cond).isSome = true := by
    constructor
    · rintro ⟨⟨c, member, depends⟩, -⟩
      rw [single, List.mem_singleton] at member
      rwa [← member]
    · intro depends
      exact ⟨⟨cond, by rw [single]; exact List.mem_cons_self, depends⟩, never⟩
  rw [Reported, diverges]
  cases dependence : x.dependence store cond with
  | none =>
    constructor
    · intro impossible
      cases impossible
    · intro _
      cases barriers : x.barrierCalls s <;> simp [checkLoopBarriers, dependence, barriers]
  | some d =>
    constructor
    · intro _
      cases barriers : x.barrierCalls s with
      | nil => simp [checkLoopBarriers, barriers]
      | cons b bs =>
        simp only [checkLoopBarriers, barriers, dependence]
        exact spans_barrierFindings _ _ _ _ _ _
    · intro impossible
      exact absurd rfl impossible

private theorem reported_chain (source : SourceText)
    (links : s.conditions = s.chain.links.map Link.cond)
    (excuse : x.Excuses s ↔ x.judgeChain s.chain.flatten = .balanced) :
    x.Reported store s (x.checkChain source store s) := by
  have dependent : (∃ cond ∈ s.conditions, (x.dependence store cond).isSome = true) ↔
      (x.dependentLink store s.chain).isSome = true := by
    rw [links, dependentLink, List.findSome?_isSome_iff]
    simp
  have diverges : x.Diverges store s ↔ (x.dependentLink store s.chain).isSome = true ∧
      x.judgeChain s.chain.flatten ≠ .balanced := by
    rw [← dependent, Ne, ← excuse]
    exact ⟨fun h => ⟨h.1, h.2⟩, fun h => ⟨h.1, h.2⟩⟩
  rw [Reported, diverges]
  cases link : x.dependentLink store s.chain with
  | none =>
    constructor
    · rintro ⟨impossible, -⟩
      cases impossible
    · intro _
      cases barriers : x.barrierCalls s <;> simp [checkChain, chainVerdict, link, barriers]
  | some found =>
    obtain ⟨cond, d⟩ := found
    rw [x.checkChain_of_dependentLink source link]
    constructor
    · rintro ⟨-, unbalanced⟩
      rw [if_neg unbalanced]
      exact spans_barrierFindings _ _ _ _ _ _
    · intro silent
      rw [if_pos (by_contra fun unbalanced => silent ⟨rfl, unbalanced⟩)]

private theorem reported_switch (source : SourceText) (span : Span) (cond : Expr) (body : Stmt) :
    x.Reported store (.switch span cond body)
      (x.checkSwitch source store (.switch span cond body) cond body) := by
  have diverges : x.Diverges store (.switch span cond body) ↔
      (x.dependence store cond).isSome = true ∧ x.judgeSwitch body.flattenSwitch ≠ .balanced := by
    constructor
    · rintro ⟨⟨c, member, depends⟩, unexcused⟩
      cases List.mem_singleton.mp member
      exact ⟨depends, unexcused⟩
    · rintro ⟨depends, unbalanced⟩
      exact ⟨⟨cond, List.mem_cons_self, depends⟩, unbalanced⟩
  rw [Reported, diverges]
  cases dependence : x.dependence store cond with
  | none =>
    constructor
    · rintro ⟨impossible, -⟩
      cases impossible
    · intro _
      cases barriers : x.barrierCalls (.switch span cond body) <;>
        simp [checkSwitch, switchVerdict, dependence, barriers]
  | some d =>
    rw [x.checkSwitch_of_dependence source body dependence]
    constructor
    · rintro ⟨-, unbalanced⟩
      rw [if_neg unbalanced]
      exact spans_barrierFindings _ _ _ _ _ _
    · intro silent
      rw [if_pos (by_contra fun unbalanced => silent ⟨rfl, unbalanced⟩)]

private theorem reported_raised (sub : Subject) (a : Analysis) {ev : Event}
    (own : s.event? = some ev) :
    sub.context.Reported a.store s (Analysis.raised sub a .barrier ev) := by
  cases s with
  | ifThen span cond t =>
    cases own
    exact reported_chain sub.source rfl Iff.rfl
  | ifElse span cond t e =>
    cases own
    exact reported_chain sub.source rfl Iff.rfl
  | forLoop span init cond step body =>
    obtain ⟨c, rfl, rfl⟩ := Option.map_eq_some_iff.mp own
    exact reported_loop sub.source .forLoop rfl id
  | whileLoop span cond body =>
    cases own
    exact reported_loop sub.source .whileLoop rfl id
  | doLoop span body cond =>
    cases own
    exact reported_loop sub.source .doLoop rfl id
  | switch span cond body =>
    cases own
    exact reported_switch sub.source span cond body
  | _ => cases own

end Context

/-- A construct that is met, and the events before it. -/
structure Firing where
  before : List Event
  construct : Stmt

/-- The constructs that are met in the events, behind those that were met before. -/
def firings (before : List Event) : List Event → List Firing
  | [] => []
  | ev :: events => (ev.construct?.map (Firing.mk before)).toList ++ firings (before ++ [ev]) events

private theorem firings_append_singleton (before events : List Event) (ev : Event) :
    firings before (events ++ [ev]) =
      firings before events ++ (ev.construct?.map (Firing.mk (before ++ events))).toList := by
  induction events generalizing before with
  | nil => simp [firings]
  | cons first events ih => simp [firings, ih]

private theorem map_construct_firings (before events : List Event) :
    (firings before events).map Firing.construct = events.filterMap Event.construct? := by
  induction events generalizing before with
  | nil => rfl
  | cons ev events ih =>
    rw [firings, List.map_append, ih]
    cases construct : ev.construct? <;> simp [construct]

private theorem split_of_mem_firings {before events : List Event} {f : Firing}
    (member : f ∈ firings before events) :
    ∃ ev later, before ++ events = f.before ++ ev :: later ∧ ev.construct? = some f.construct := by
  induction events generalizing before with
  | nil => cases member
  | cons ev events ih =>
    rcases List.mem_append.mp member with here | there
    · obtain ⟨s, met, rfl⟩ := Option.map_eq_some_iff.mp (Option.mem_toList.mp here)
      exact ⟨ev, events, rfl, met⟩
    · obtain ⟨ev', later, split, met⟩ := ih there
      rw [List.append_assoc, List.singleton_append] at split
      exact ⟨ev', later, split, met⟩

namespace SourceUnit

/-- The constructs of a source file as they are met. -/
def firings (unit : SourceUnit) : List Firing := Lockstep.firings [] unit.events

end SourceUnit

private theorem Context.isCall_of_isBarrierCall {x : Context} {b : Expr}
    (barrier : x.isBarrierCall b = true) : b.isCall = true := by
  cases b with
  | call span callee args => rfl
  | _ => cases barrier

theorem Node.eq_expr_of_call? {n : Node} {e : Expr} (own : n.call? = some e) : n = .expr e := by
  cases n with
  | stmt s => cases own
  | expr v =>
    simp only [Node.call?, Option.ite_none_right_eq_some, Option.some.injEq] at own
    rw [own.2]

section Counting

variable {unit : SourceUnit} {x : Context} {b : Expr}
  (distinct : ((unit.nodes.filterMap Node.call?).map Expr.span).Nodup)
  (known : .expr b ∈ unit.nodes)

include distinct known

open Classical in
private theorem count_spans_barrierCalls (barrier : x.isBarrierCall b = true) {s : Stmt}
    (inside : .stmt s ∈ unit.nodes) :
    ((x.barrierCalls s).map Expr.span).count b.span = if .expr b ∈ s.preorder then 1 else 0 := by
  have called : (Node.expr b).call? = some b := by
    rw [Node.call?, if_pos (Context.isCall_of_isBarrierCall barrier)]
  have within : (x.barrierCalls s).Sublist (unit.nodes.filterMap Node.call?) :=
    List.filter_sublist.trans ((SourceUnit.preorder_sublist inside).filterMap _)
  have apart : ((x.barrierCalls s).map Expr.span).Nodup := distinct.sublist (within.map _)
  split
  · rename_i below
    refine List.count_eq_one_of_mem apart (List.mem_map_of_mem ?_)
    exact List.mem_filter.mpr ⟨List.mem_filterMap.mpr ⟨_, below, called⟩, barrier⟩
  · rename_i outside
    refine List.count_eq_zero_of_not_mem fun member => outside ?_
    obtain ⟨c, listed, same⟩ := List.mem_map.mp member
    have there : b ∈ unit.nodes.filterMap Node.call? := List.mem_filterMap.mpr ⟨_, known, called⟩
    -- A barrier with the range of `b` is `b`, as the ranges of calls are told apart.
    obtain rfl : c = b := List.inj_on_of_nodup_map distinct (within.subset listed) there same
    obtain ⟨n, below, own⟩ := List.mem_filterMap.mp (List.mem_filter.mp listed).1
    rwa [← Node.eq_expr_of_call? own]

open Classical in
private theorem count_spans_raised (sub : Subject) (barrier : sub.context.isBarrierCall b = true)
    (a : Analysis) {ev : Event} (member : ev ∈ unit.events) :
    ((Analysis.raised sub a .barrier ev).map Finding.span).count b.span =
      ev.construct?.toList.countP fun s =>
        .expr b ∈ s.preorder ∧ sub.context.Diverges a.store s := by
  cases met : ev.construct? with
  | none =>
    have silent : Analysis.raised sub a .barrier ev = [] := by
      cases ev with
      | loop kind s cond => cases met
      | ifChain s => cases met
      | switch s cond body => cases met
      | _ => rfl
    rw [silent]
    rfl
  | some s =>
    obtain ⟨inside, own⟩ := SourceUnit.exists_construct member met
    obtain ⟨loud, silent⟩ := Context.reported_raised sub a own
    by_cases diverges : sub.context.Diverges a.store s
    · rw [loud diverges, count_spans_barrierCalls distinct known barrier inside]
      simp [diverges]
    · rw [silent diverges]
      simp [diverges]

open Classical in
private theorem count_spans_raisedBy (sub : Subject) (barrier : sub.context.isBarrierCall b = true)
    (enabled : sub.context.settings.enabled .barrier = true) (events : List Event)
    (all : ∀ ev ∈ events, ev ∈ unit.events) :
    ((Analysis.raisedBy sub .barrier events).map Finding.span).count b.span =
      (firings [] events).countP fun f => .expr b ∈ f.construct.preorder ∧
        sub.context.Diverges (Analysis.after sub f.before).store f.construct := by
  -- The constructs met last come last on both sides.
  induction events using List.reverseRecOn with
  | nil => rfl
  | append_singleton events ev ih =>
    have member : ev ∈ unit.events := all ev (by simp)
    have added := count_spans_raised distinct known sub barrier (Analysis.after sub events) member
    rw [Analysis.raisedBy_append_singleton, List.map_append, List.count_append,
      ih fun ev' member => all ev' (List.mem_append_left _ member), firings_append_singleton,
      List.countP_append, Analysis.heard, if_pos enabled, added]
    cases ev.construct? <;> rfl

end Counting

open Classical in
/-- In a file that was read, with the check switched on, each loop with a condition, each switch and
each `if` is met once, in its own event, but for the `if`s behind an `else`, which are not met on
their own. A barrier is reported as often as a construct around it is met that diverges, as far as
is known by then. -/
theorem barriers_counted_exactly (source : SourceText) (settings : Settings) (text : String)
    (unit : SourceUnit) (parsed : (parse text).unit = some unit)
    (enabled : settings.enabled .barrier = true) :
    (unit.firings.map Firing.construct ++ unit.elseIfs).Perm unit.constructs ∧
    (∀ f ∈ unit.firings, ∃ ev later,
      unit.events = f.before ++ ev :: later ∧ f.construct.event? = some ev) ∧
    ∀ b, .expr b ∈ unit.nodes → (unit.subject source settings).context.isBarrierCall b = true →
      ((analyze source settings unit).findings.countP fun f =>
          f.code = some "W0201" ∧ f.span = b.span) =
        unit.firings.countP fun f => .expr b ∈ f.construct.preorder ∧
          (unit.subject source settings).context.Diverges
            (Analysis.after (unit.subject source settings) f.before).store f.construct := by
  refine ⟨?_, ?_, ?_⟩
  · rw [SourceUnit.firings, map_construct_firings]
    exact unit.constructs_perm
  · intro f member
    obtain ⟨ev, later, split, met⟩ := split_of_mem_firings member
    have within : ev ∈ unit.events := by
      rw [← List.nil_append unit.events, split]
      simp
    exact ⟨ev, later, split, (SourceUnit.exists_construct within met).2⟩
  · intro b known barrier
    have counted := count_spans_raisedBy (SourceUnit.nodup_calls_of_parse parsed) known
      (unit.subject source settings) barrier enabled unit.events fun _ => id
    rw [SourceUnit.firings, ← counted, analyze_eq_after, Analysis.raisedBy, List.count,
      List.countP_map, List.countP_filter]
    refine List.countP_congr fun f _ => ?_
    have coded : f.code = some "W0201" ↔ f.check = some .barrier := f.code_eq_iff .barrier
    simp [coded, and_comm]

def nestedSample : String :=
  "void k(){int x=get_local_id(0);while(x){if(x){barrier(1);}else if(x){}}}"

open Classical in
theorem barriers_counted_exactly_sample : ∃ unit b, (parse nestedSample).unit = some unit ∧
    Settings.enabled {} .barrier = true ∧ .expr b ∈ unit.nodes ∧
    (unit.subject ⟨"k.cl", 72, [0]⟩ {}).context.isBarrierCall b = true ∧
    unit.constructs.length = 3 ∧ unit.elseIfs.length = 1 ∧
    (unit.firings.countP fun f => .expr b ∈ f.construct.preorder ∧
      (unit.subject ⟨"k.cl", 72, [0]⟩ {}).context.Diverges
        (Analysis.after (unit.subject ⟨"k.cl", 72, [0]⟩ {}) f.before).store f.construct) = 2 := by
  have evaluated : ((parse nestedSample).unit.map fun unit =>
      (((unit.nodes.filterMap Node.call?).filter
          (unit.subject ⟨"k.cl", 72, [0]⟩ {}).context.isBarrierCall).map Expr.span,
        (analyze ⟨"k.cl", 72, [0]⟩ {} unit).findings.map fun f => (f.code, f.span),
        unit.constructs.length, unit.elseIfs.length)) =
      some ([⟨46, 56⟩],
        [(some "W0101", ⟨37, 38⟩), (some "W0201", ⟨46, 56⟩), (some "W0201", ⟨46, 56⟩)],
        3, 1) := by
    decide +kernel
  obtain ⟨unit, parsed, facts⟩ := Option.map_eq_some_iff.mp evaluated
  simp only [Prod.mk.injEq] at facts
  obtain ⟨spans, findings, constructs, elseIfs⟩ := facts
  have listed : (⟨46, 56⟩ : Span) ∈ [(⟨46, 56⟩ : Span)] := List.mem_cons_self
  rw [← spans] at listed
  obtain ⟨b, member, span⟩ := List.mem_map.mp listed
  obtain ⟨called, barrier⟩ := List.mem_filter.mp member
  obtain ⟨n, known, own⟩ := List.mem_filterMap.mp called
  rw [Node.eq_expr_of_call? own] at known
  have counted := (barriers_counted_exactly ⟨"k.cl", 72, [0]⟩ {} nestedSample unit parsed rfl).2.2 b
    known barrier
  refine ⟨unit, b, parsed, rfl, known, barrier, constructs, elseIfs, counted.symm.trans ?_⟩
  have twice := congrArg (List.countP fun p => p.1 = some "W0201" ∧ p.2 = b.span) findings
  rw [List.countP_map] at twice
  refine twice.trans ?_
  rw [span]
  decide

end Lockstep
