import Lockstep.Analysis
import Lockstep.Proofs.Check.Findings
/-!
What one event does to an analysis: the value a declaration receives, which is all that can change
the store, and the findings that are added behind those made before. Each finding carries the check
it comes from.
-/

set_option autoImplicit false
set_option relaxedAutoImplicit false

namespace Lockstep

/-- A declaration receives a value. -/
structure Receipt where
  key : Key
  value : Expr
  span : Span

/-- What is received in the event: an initial value by a declared variable, an assigned value by a
variable or a field. -/
def Event.receipt (x : Context) : Event → Option Receipt
  | init d value => (x.names.varDecls.lookup d.name.span).map fun i => ⟨.var i, value, d.span⟩
  | assign e target value => (x.keyOf target).map fun k => ⟨k, value, e.span⟩
  | _ => none

namespace Analysis

@[simp] theorem note_store (a : Analysis) (topic : JournalTopic) (message : String) :
    (a.note topic message).store = a.store := rfl

@[simp] theorem note_findings (a : Analysis) (topic : JournalTopic) (message : String) :
    (a.note topic message).findings = a.findings := rfl

@[simp] theorem emit_store (a : Analysis) (source : SourceText) (fs : List Finding) :
    (a.emit source fs).store = a.store := by
  induction fs generalizing a with
  | nil => rfl
  | cons f fs ih => exact ih _

@[simp] theorem emit_findings (a : Analysis) (source : SourceText) (fs : List Finding) :
    (a.emit source fs).findings = a.findings ++ fs := by
  induction fs generalizing a with
  | nil => simp [emit]
  | cons f fs ih =>
    have rest := ih ({ a with findings := a.findings ++ [f] }.note .analysis
      ("finding at " ++ (source.spanLocation f.span).toText ++ ": " ++ f.toText))
    rw [note_findings, List.append_assoc] at rest
    exact rest

def heard (s : Subject) (check : Check) (fs : List Finding) : List Finding :=
  if s.context.settings.enabled check then fs else []

@[simp] theorem emitIf_store (a : Analysis) (s : Subject) (check : Check) (fs : List Finding) :
    (a.emitIf s check fs).store = a.store := by
  unfold emitIf
  split <;> simp

@[simp] theorem emitIf_findings (a : Analysis) (s : Subject) (check : Check) (fs : List Finding) :
    (a.emitIf s check fs).findings = a.findings ++ heard s check fs := by
  unfold emitIf heard
  split <;> simp

@[simp] theorem noteVerdict_store (a : Analysis) (s : Subject) (construct : String)
    (verdict : Option Verdict) : (a.noteVerdict s construct verdict).store = a.store := by
  unfold noteVerdict
  split
  · split <;> rfl
  · rfl

@[simp] theorem noteVerdict_findings (a : Analysis) (s : Subject) (construct : String)
    (verdict : Option Verdict) : (a.noteVerdict s construct verdict).findings = a.findings := by
  unfold noteVerdict
  split
  · split <;> rfl
  · rfl

def foundAtCall (s : Subject) (a : Analysis) (callee : String) (span : Span) : List Finding :=
  if (a.calls.enclosing span).isEmpty then []
  else heard s .recursion (checkCycle (a.calls.recordCall callee span) callee span
    s.context.settings.maxRecursionDepth).toList

def found (s : Subject) (a : Analysis) : Event → List Finding
  | .function f =>
    if f.body.isNone then [] else heard s .singleWorkItem (checkKernel s.context s.source f).toList
  | .init _ _ | .assign _ _ _ => []
  | .call _ callee =>
    ((s.context.names.calleeName callee).map fun name => foundAtCall s a name callee.span).getD []
  | .name e => ((s.context.names.functionRef e).map fun name => foundAtCall s a name e.span).getD []
  | .loop kind stmt cond =>
    heard s .backwardBranch (checkLoopCondition s.context a.store kind cond).toList ++
      heard s .barrier (s.context.checkLoopBarriers s.source a.store kind stmt cond)
  | .ifChain stmt => heard s .barrier (s.context.checkChain s.source a.store stmt)
  | .switch stmt cond body =>
    heard s .barrier (s.context.checkSwitch s.source a.store stmt cond body)

private theorem callSite_store (a : Analysis) (s : Subject) (callee : String) (span : Span) :
    (a.callSite s callee span).store = a.store := by
  unfold callSite
  split <;> simp

private theorem callSite_findings (a : Analysis) (s : Subject) (callee : String) (span : Span) :
    (a.callSite s callee span).findings = a.findings ++ foundAtCall s a callee span := by
  unfold callSite foundAtCall
  split <;> simp

private theorem receive_findings (a : Analysis) (x : Context) (k : Key) (value : Expr)
    (span : Span) : (a.receive x k value span).findings = a.findings := by
  simp only [receive]
  split <;> rfl

theorem step_findings (s : Subject) (a : Analysis) (ev : Event) :
    (step s a ev).findings = a.findings ++ found s a ev := by
  cases ev with
  | function f =>
    simp only [step, found]
    split <;> simp
  | init d value =>
    simp only [step, found]
    split <;> simp [receive_findings]
  | assign e target value =>
    simp only [step, found]
    split <;> simp [receive_findings]
  | call e callee =>
    simp only [step, found]
    split <;> simp [*, callSite_findings]
  | name e =>
    simp only [step, found]
    split <;> simp [*, callSite_findings]
  | loop kind stmt cond => simp [step, found]
  | ifChain stmt => simp [step, found]
  | switch stmt cond body => simp [step, found]

theorem mem_heard_iff {s : Subject} {check : Check} {fs : List Finding} {f : Finding} :
    f ∈ heard s check fs ↔ s.context.settings.enabled check = true ∧ f ∈ fs := by
  unfold heard
  split <;> simp [*]

private theorem check_of_mem_foundAtCall {s : Subject} {a : Analysis} {callee : String}
    {span : Span} {f : Finding} (member : f ∈ foundAtCall s a callee span) :
    f.check = some .recursion := by
  unfold foundAtCall at member
  split at member
  · cases member
  · exact check_of_checkCycle (Option.mem_toList.mp (mem_heard_iff.mp member).2)

private theorem check_of_mem_foundAtReference {s : Subject} {a : Analysis}
    {callee : Option String} {span : Span} {f : Finding}
    (member : f ∈ (callee.map fun name => foundAtCall s a name span).getD []) :
    f.check = some .recursion := by
  cases callee with
  | none => cases member
  | some name => exact check_of_mem_foundAtCall member

theorem mem_found_backwardBranch_iff {s : Subject} {a : Analysis} {ev : Event} {f : Finding} :
    f ∈ found s a ev ∧ f.check = some .backwardBranch ↔
      s.context.settings.enabled .backwardBranch = true ∧ ∃ kind stmt cond,
        ev = .loop kind stmt cond ∧ checkLoopCondition s.context a.store kind cond = some f := by
  constructor
  · rintro ⟨member, check⟩
    -- All other events speak for another check, which `member` then contradicts.
    have other {c : Check} (named : f.check = some c) (different : c ≠ .backwardBranch) : False :=
      different (Option.some.inj (named.symm.trans check))
    cases ev with
    | function fn =>
      simp only [found] at member
      split at member
      · cases member
      · have kernel := check_of_checkKernel (Option.mem_toList.mp (mem_heard_iff.mp member).2)
        exact (other kernel (by decide)).elim
    | init d value => cases member
    | assign e target value => cases member
    | call e callee =>
      have recursion := check_of_mem_foundAtReference member
      exact (other recursion (by decide)).elim
    | name e =>
      have recursion := check_of_mem_foundAtReference member
      exact (other recursion (by decide)).elim
    | loop kind stmt cond =>
      rcases List.mem_append.mp member with inCondition | atBarrier
      · obtain ⟨enabled, inCondition⟩ := mem_heard_iff.mp inCondition
        exact ⟨enabled, kind, stmt, cond, rfl, Option.mem_toList.mp inCondition⟩
      · have barrier := Context.check_of_mem_checkLoopBarriers (mem_heard_iff.mp atBarrier).2
        exact (other barrier (by decide)).elim
    | ifChain stmt =>
      have barrier := Context.check_of_mem_checkChain (mem_heard_iff.mp member).2
      exact (other barrier (by decide)).elim
    | switch stmt cond body =>
      have barrier := Context.check_of_mem_checkSwitch (mem_heard_iff.mp member).2
      exact (other barrier (by decide)).elim
  · rintro ⟨enabled, kind, stmt, cond, rfl, condition⟩
    have member := mem_heard_iff.mpr ⟨enabled, Option.mem_toList.mpr condition⟩
    exact ⟨List.mem_append_left _ member, check_of_checkLoopCondition condition⟩

theorem step_store (s : Subject) (a : Analysis) (ev : Event) :
    (step s a ev).store =
      ((ev.receipt s.context).map fun r =>
        s.context.propagate a.store r.key r.value r.span).getD a.store := by
  cases ev with
  | function f =>
    simp only [step, Event.receipt]
    split <;> simp
  | init d value =>
    simp only [step, Event.receipt]
    split <;> simp [*, receive]
  | assign e target value =>
    simp only [step, Event.receipt]
    split <;> simp [*, receive]
  | call e callee =>
    simp only [step, Event.receipt]
    split <;> simp [callSite_store]
  | name e =>
    simp only [step, Event.receipt]
    split <;> simp [callSite_store]
  | loop kind stmt cond => simp [step, Event.receipt]
  | ifChain stmt => simp [step, Event.receipt]
  | switch stmt cond body => simp [step, Event.receipt]

def after (s : Subject) (events : List Event) : Analysis := events.foldl (step s) {}

theorem after_nil (s : Subject) : after s [] = {} := rfl

theorem after_append_singleton (s : Subject) (events : List Event) (ev : Event) :
    after s (events ++ [ev]) = step s (after s events) ev := by
  rw [after, after, List.foldl_append, List.foldl_cons, List.foldl_nil]

private theorem findings_foldl_prefix (s : Subject) (events : List Event) (a : Analysis) :
    a.findings <+: (events.foldl (step s) a).findings := by
  induction events generalizing a with
  | nil => exact List.prefix_rfl
  | cons ev events ih =>
    have first : a.findings <+: (step s a ev).findings := by
      rw [step_findings]
      exact List.prefix_append _ _
    exact first.trans (ih (step s a ev))

theorem findings_after_prefix (s : Subject) (events more : List Event) :
    (after s events).findings <+: (after s (events ++ more)).findings := by
  rw [after, after, List.foldl_append]
  exact findings_foldl_prefix s more _

end Analysis

def SourceUnit.subject (source : SourceText) (settings : Settings) (unit : SourceUnit) : Subject :=
  ⟨⟨resolve unit, settings⟩, source⟩

theorem analyze_eq_after (source : SourceText) (settings : Settings) (unit : SourceUnit) :
    analyze source settings unit = Analysis.after (unit.subject source settings) unit.events := rfl

end Lockstep
