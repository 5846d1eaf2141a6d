import Lockstep.Proofs.Check.Wording
/-!
The findings of a whole run. An event is about parts of the file; so what one event leaves behind,
in the records, in the call map and among the findings, holds no line break, and after all events
nothing does. The severity of a finding is that of its check.
-/

set_option autoImplicit false
set_option relaxedAutoImplicit false

namespace Lockstep

def Event.Inside (unit : SourceUnit) : Event → Prop
  | function f => .function f ∈ unit.items
  | init _ value => .expr value ∈ unit.nodes
  | assign _ _ value => .expr value ∈ unit.nodes
  | call _ callee => .expr callee ∈ unit.nodes
  | name e => .expr e ∈ unit.nodes
  | loop _ _ cond => .expr cond ∈ unit.nodes
  | ifChain s => .stmt s ∈ unit.nodes
  | switch _ cond body => .expr cond ∈ unit.nodes ∧ .stmt body ∈ unit.nodes

private theorem SourceUnit.inside_of_mem_events {unit : SourceUnit} {ev : Event}
    (member : ev ∈ unit.events) :
    ev.Inside unit := by
  have below {n c : Node} (inside : n ∈ unit.nodes) (child : c ∈ n.children) : c ∈ unit.nodes :=
    (preorder_sublist inside).subset
      (Node.mem_preorder_iff.mpr (.inr ⟨c, child, Node.mem_preorder_iff.mpr (.inl rfl)⟩))
  have inits {d : Decl} (exprs : ∀ e ∈ d.exprs, .expr e ∈ unit.nodes) (own : ev ∈ d.inits) :
      ev.Inside unit := by
    obtain ⟨x, declared, own⟩ := List.mem_flatMap.mp own
    obtain ⟨value, given, rfl⟩ := Option.map_eq_some_iff.mp (Option.mem_toList.mp own)
    refine exprs value (List.mem_flatMap.mpr ⟨x, declared, ?_⟩)
    exact List.mem_append_right _ (Option.mem_toList.mpr given)
  have told := unit.announced.subset (List.mem_append_left _ member)
  rcases List.mem_append.mp told with top | deeper
  · obtain ⟨item, listed, own⟩ := List.mem_flatMap.mp top
    cases item with
    | function f =>
      rw [List.mem_singleton.mp own]
      exact listed
    | global d =>
      refine inits (fun e written => ?_) own
      refine List.mem_flatMap.mpr ⟨.global d, listed, List.mem_flatMap.mpr ⟨e, written, ?_⟩⟩
      exact List.mem_map_of_mem (e.preorder_eq_cons ▸ List.mem_cons_self)
    | struct d => cases own
    | typedef d => cases own
  · obtain ⟨n, inside, own⟩ := List.mem_flatMap.mp deeper
    cases n with
    | expr e =>
      cases e with
      | name span m =>
        rw [List.mem_singleton.mp own]
        exact inside
      | call span callee args =>
        rw [List.mem_singleton.mp own]
        exact below inside (List.mem_map_of_mem List.mem_cons_self)
      | assign span op target value =>
        rw [List.mem_singleton.mp own]
        exact below inside (List.mem_map_of_mem (List.mem_cons_of_mem _ List.mem_cons_self))
      | _ => cases own
    | stmt s =>
      cases s with
      | decl span d => exact inits (fun e written => below inside (List.mem_map_of_mem written)) own
      | ifThen span cond t =>
        rw [List.mem_singleton.mp own]
        exact inside
      | ifElse span cond t e =>
        rw [List.mem_singleton.mp own]
        exact inside
      | forLoop span init cond step body =>
        cases cond with
        | none => cases own
        | some c =>
          rw [List.mem_singleton.mp own]
          exact below inside (by simp [Node.children, Stmt.children])
      | whileLoop span cond body =>
        rw [List.mem_singleton.mp own]
        exact below inside List.mem_cons_self
      | doLoop span body cond =>
        rw [List.mem_singleton.mp own]
        exact below inside (List.mem_cons_of_mem _ List.mem_cons_self)
      | switch span cond body =>
        rw [List.mem_singleton.mp own]
        exact ⟨below inside List.mem_cons_self,
          below inside (List.mem_cons_of_mem _ List.mem_cons_self)⟩
      | _ => cases own

namespace CallMap.OneLined

variable {m : CallMap} (lined : m.OneLined)

include lined

theorem recordFunction {name : String} (told : OneLine name) (range : Span) :
    (m.recordFunction name range).OneLined := by
  refine ⟨?_, lined.calls⟩
  have set (rs : List (String × Span)) (each : ∀ r ∈ rs, OneLine r.1) :
      ∀ r ∈ setRange name range rs, OneLine r.1 := by
    fun_induction setRange name range rs with
    | case1 => exact List.forall_mem_singleton.mpr told
    | case2 n r rest before => exact List.forall_mem_cons.mpr ⟨told, each⟩
    | case3 range' rest later => exact List.forall_mem_cons.mpr ⟨told, (List.forall_mem_cons.mp each).2⟩
    | case4 n r rest _ _ ih =>
      obtain ⟨first, others⟩ := List.forall_mem_cons.mp each
      exact List.forall_mem_cons.mpr ⟨first, ih others⟩
  exact set m.ranges lined.ranges

theorem recordCall {callee : String} (told : OneLine callee) (span : Span) :
    (m.recordCall callee span).OneLined := by
  refine ⟨lined.ranges, fun c recorded => ?_⟩
  rcases mem_recordCall_iff.mp recorded with known | ⟨rfl, -, around⟩
  · exact lined.calls c known
  · obtain ⟨r, ranged, caller⟩ := List.mem_map.mp around
    rw [← caller]
    exact ⟨told, lined.ranges r (List.mem_of_mem_filter ranged)⟩

theorem checkCycle {callee : String} (told : OneLine callee) {span : Span} {maxHops : Nat}
    {f : Finding} (found : Lockstep.checkCycle m callee span maxHops = some f) : f.OneLined := by
  obtain ⟨hops, cycle, rfl⟩ := Option.map_eq_some_iff.mp found
  have recorded := (cycle_of_findCycle cycle).closed.recorded
  refine ⟨.append (.append (by decide) told) (by decide), fun n member => ?_⟩
  obtain ⟨c, hop, rfl⟩ := List.mem_map.mp member
  obtain ⟨calls, called⟩ := lined.calls c (recorded c hop)
  exact .append (.append calls (by decide)) called

end CallMap.OneLined

namespace Analysis

/-- Nothing that has come out so far holds a line break. -/
structure OneLined (a : Analysis) : Prop where
  store : a.store.OneLined
  calls : a.calls.OneLined
  findings : ∀ f ∈ a.findings, f.OneLined

variable {unit : SourceUnit} {s : Subject} {a : Analysis} {ev : Event} (lined : a.OneLined)
  (names : s.context.OneLined unit.nodes)
  (titles : ∀ item ∈ unit.items, ∀ id ∈ item.titles, OneLine id.name) (inside : ev.Inside unit)

include names inside in
private theorem oneLine_site {site : String × Span}
    (called : ev.site? s.context.names = some site) :
    OneLine site.1 := by
  cases ev with
  | call e callee =>
    obtain ⟨n, named, rfl⟩ := Option.map_eq_some_iff.mp called
    exact names.calleeName inside named
  | name e =>
    obtain ⟨n, referred, rfl⟩ := Option.map_eq_some_iff.mp called
    exact names.calleeName inside (Option.filter_eq_some_iff.mp referred).1
  | _ => cases called

include titles inside in
private theorem oneLine_definition {fn : Function} (defined : ev.definition? = some fn) :
    OneLine fn.name.name := by
  cases ev with
  | function f =>
    simp only [Event.definition?, Option.ite_none_left_eq_some] at defined
    cases defined.2
    exact titles _ inside fn.name List.mem_cons_self
  | _ => cases defined

include lined names titles inside

private theorem oneLined_raised (file : OneLine s.source.name) {check : Check} {f : Finding}
    (member : f ∈ raised s a check ev) : f.OneLined := by
  cases check with
  | singleWorkItem =>
    obtain ⟨fn, defined, member⟩ := List.mem_flatMap.mp member
    have titled := oneLine_definition titles inside (Option.mem_toList.mp defined)
    exact Context.OneLined.checkKernel file titled (Option.mem_toList.mp member)
  | recursion =>
    obtain ⟨site, called, member⟩ := List.mem_flatMap.mp member
    have told := oneLine_site names inside (Option.mem_toList.mp called)
    unfold raisedAtCall at member
    split at member
    · cases member
    · exact (lined.calls.recordCall told site.2).checkCycle told (Option.mem_toList.mp member)
  | backwardBranch =>
    cases ev with
    | loop kind stmt cond =>
      exact names.checkLoopCondition lined.store inside (Option.mem_toList.mp member)
    | _ => cases member
  | barrier =>
    cases ev with
    | loop kind stmt cond => exact names.checkLoopBarriers file lined.store inside member
    | ifChain stmt => exact names.checkChain file lined.store inside member
    | switch stmt cond body => exact names.checkSwitch file lined.store inside.1 inside.2 member
    | _ => cases member

private theorem oneLined_step (file : OneLine s.source.name) : (step s a ev).OneLined := by
  refine ⟨?_, ?_, ?_⟩
  · rw [step_store]
    cases received : ev.receipt s.context with
    | none => exact lined.store
    | some r =>
      have value : .expr r.value ∈ unit.nodes := by
        cases ev with
        | init d value =>
          obtain ⟨i, -, rfl⟩ := Option.map_eq_some_iff.mp received
          exact inside
        | assign e target value =>
          obtain ⟨k, -, rfl⟩ := Option.map_eq_some_iff.mp received
          exact inside
        | _ => cases received
      exact names.propagate lined.store value r.span
  · rw [step_calls, CallMap.record]
    have defined : ((ev.definition?.map fun f => a.calls.recordFunction f.name.name f.span).getD
        a.calls).OneLined := by
      cases defined : ev.definition? with
      | none => exact lined.calls
      | some fn =>
        exact lined.calls.recordFunction (oneLine_definition titles inside defined) fn.span
    cases called : ev.site? s.context.names with
    | none => exact defined
    | some site => exact defined.recordCall (oneLine_site names inside called) site.2
  · rw [step_findings, found_eq]
    have heard {check : Check} : ∀ f ∈ heard s check (raised s a check ev), f.OneLined :=
      fun f member => oneLined_raised lined names titles inside file (mem_heard_iff.mp member).2
    simp only [List.forall_mem_append]
    exact ⟨lined.findings, heard, heard, heard, heard⟩

end Analysis

/-- No finding about a file holds a line break, if the names of the file do not. -/
theorem SourceUnit.OneLined.analyze {unit : SourceUnit} (lined : unit.OneLined)
    {source : SourceText} (file : OneLine source.name) (settings : Settings) :
    ∀ f ∈ (Lockstep.analyze source settings unit).findings, f.OneLined := by
  have names : (unit.subject source settings).context.OneLined unit.nodes :=
    ⟨lined.resolve, lined.words, fun n inside => (preorder_sublist inside).subset⟩
  have run : (Lockstep.analyze source settings unit).OneLined :=
    List.foldlRecOn unit.events _ (motive := Analysis.OneLined)
      ⟨nofun, ⟨nofun, nofun⟩, nofun⟩ fun a before ev member =>
        Analysis.oneLined_step before names lined.titles (inside_of_mem_events member) file
  exact run.findings

def Check.severity : Check → Severity
  | recursion => .error
  | barrier | backwardBranch | singleWorkItem => .warning

private theorem Analysis.severity_of_mem_raised {s : Subject} {a : Analysis} {check : Check}
    {ev : Event}
    {f : Finding} (member : f ∈ raised s a check ev) : f.severity = check.severity := by
  have barriers {source : SourceText} {store : TaintStore} {kind : Conditional} {cond : Expr}
      {d : Dependence} {bs : List Expr} {verdict : Option Verdict}
      (found : f ∈ Context.barrierFindings source store kind cond d bs verdict) :
      f.severity = Check.barrier.severity := by
    obtain ⟨b, -, rfl⟩ := List.mem_map.mp found
    rfl
  cases check with
  | singleWorkItem =>
    obtain ⟨fn, -, member⟩ := List.mem_flatMap.mp member
    have found := Option.mem_toList.mp member
    simp only [checkKernel, Option.bind_eq_bind, Option.bind_eq_some_iff] at found
    obtain ⟨body, -, barrier, -, found⟩ := found
    split_ifs at found
    cases found
    rfl
  | recursion =>
    obtain ⟨site, -, member⟩ := List.mem_flatMap.mp member
    obtain ⟨-, hops, -, rfl⟩ := mem_raisedAtCall_iff.mp member
    rfl
  | backwardBranch =>
    cases ev with
    | loop kind stmt cond =>
      obtain ⟨d, -, rfl⟩ := Option.map_eq_some_iff.mp (Option.mem_toList.mp member)
      rfl
    | _ => cases member
  | barrier =>
    cases ev with
    | loop kind stmt cond =>
      simp only [raised, Context.checkLoopBarriers] at member
      split at member
      · cases member
      · exact barriers member
      · cases member
    | ifChain stmt =>
      simp only [raised, Context.checkChain] at member
      split at member
      · cases member
      · cases member
      · exact barriers member
    | switch stmt cond body =>
      simp only [raised, Context.checkSwitch] at member
      split at member
      · cases member
      · cases member
      · exact barriers member
    | _ => cases member

theorem Analysis.exists_check_of_mem_findings {s : Subject} {events : List Event} {f : Finding}
    (member : f ∈ (after s events).findings) :
    ∃ check, f.check = some check ∧ f.severity = check.severity := by
  induction events using List.reverseRecOn with
  | nil => cases member
  | append_singleton events ev ih =>
    rw [after_append_singleton, step_findings, found_eq] at member
    have own {check : Check} (heard : f ∈ heard s check (raised s (after s events) check ev)) :
        ∃ check, f.check = some check ∧ f.severity = check.severity :=
      ⟨check, check_of_mem_raised (mem_heard_iff.mp heard).2,
        severity_of_mem_raised (mem_heard_iff.mp heard).2⟩
    simp only [List.mem_append] at member
    rcases member with earlier | first | second | third | fourth
    · exact ih earlier
    · exact own first
    · exact own second
    · exact own third
    · exact own fourth

end Lockstep
