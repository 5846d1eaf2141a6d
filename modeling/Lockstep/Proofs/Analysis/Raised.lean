import Lockstep.Proofs.Analysis.Step
import Mathlib.Data.List.Basic
/-!
An analysis told apart by its parts. The call map changes where a function is defined, called or
referred to. The findings of one check are those that this check raises at each event, if it is
switched on; the other checks have no part in them.
-/

set_option autoImplicit false
set_option relaxedAutoImplicit false

namespace Lockstep

namespace Event

/-- The function that is called or referred to in the event, and where. -/
def site? (r : Resolution) : Event → Option (String × Span)
  | call _ callee => (r.calleeName callee).map fun name => (name, callee.span)
  | name e => (r.functionRef e).map fun name => (name, e.span)
  | _ => none

def definition? : Event → Option Function
  | function f => if f.body.isNone then none else some f
  | _ => none

end Event

def CallMap.record (r : Resolution) (m : CallMap) (ev : Event) : CallMap :=
  let m := (ev.definition?.map fun f => m.recordFunction f.name.name f.span).getD m
  ((ev.site? r).map fun site => m.recordCall site.1 site.2).getD m

namespace Analysis

@[simp] theorem note_calls (a : Analysis) (topic : JournalTopic) (message : String) :
    (a.note topic message).calls = a.calls := rfl

@[simp] theorem emit_calls (a : Analysis) (source : SourceText) (fs : List Finding) :
    (a.emit source fs).calls = a.calls := by
  induction fs generalizing a with
  | nil => rfl
  | cons f fs ih => exact ih _

@[simp] theorem emitIf_calls (a : Analysis) (s : Subject) (check : Check) (fs : List Finding) :
    (a.emitIf s check fs).calls = a.calls := by
  unfold emitIf
  split <;> simp

@[simp] theorem noteVerdict_calls (a : Analysis) (s : Subject) (construct : String)
    (verdict : Option Verdict) : (a.noteVerdict s construct verdict).calls = a.calls := by
  unfold noteVerdict
  split
  · split <;> rfl
  · rfl

private theorem receive_calls (a : Analysis) (x : Context) (k : Key) (value : Expr) (span : Span) :
    (a.receive x k value span).calls = a.calls := by
  simp only [receive]
  split <;> rfl

private theorem callSite_calls (a : Analysis) (s : Subject) (callee : String) (span : Span) :
    (a.callSite s callee span).calls = a.calls.recordCall callee span := by
  unfold callSite
  split
  · rename_i outside
    rw [CallMap.recordCall, List.isEmpty_iff.mp outside, List.map_nil, List.append_nil]
  · rw [emitIf_calls]

theorem step_calls (s : Subject) (a : Analysis) (ev : Event) :
    (step s a ev).calls = a.calls.record s.context.names ev := by
  cases ev with
  | function f =>
    simp only [step, CallMap.record, Event.definition?, Event.site?]
    split <;> simp
  | init d value =>
    simp only [step]
    split <;> simp [receive_calls, CallMap.record, Event.definition?, Event.site?]
  | assign e target value =>
    simp only [step]
    split <;> simp [receive_calls, CallMap.record, Event.definition?, Event.site?]
  | call e callee =>
    simp only [step, CallMap.record, Event.definition?, Event.site?]
    split <;> simp [*, callSite_calls]
  | name e =>
    simp only [step, CallMap.record, Event.definition?, Event.site?]
    split <;> simp [*, callSite_calls]
  | loop kind stmt cond => simp [step, CallMap.record, Event.definition?, Event.site?]
  | ifChain stmt => simp [step, CallMap.record, Event.definition?, Event.site?]
  | switch stmt cond body => simp [step, CallMap.record, Event.definition?, Event.site?]

def raisedAtCall (s : Subject) (a : Analysis) (site : String × Span) : List Finding :=
  if (a.calls.enclosing site.2).isEmpty then []
  else (checkCycle (a.calls.recordCall site.1 site.2) site.1 site.2
    s.context.settings.maxRecursionDepth).toList

def raised (s : Subject) (a : Analysis) : Check → Event → List Finding
  | .singleWorkItem, ev => ev.definition?.toList.flatMap fun f =>
    (checkKernel s.context s.source f).toList
  | .recursion, ev => (ev.site? s.context.names).toList.flatMap (raisedAtCall s a)
  | .backwardBranch, .loop kind _ cond => (checkLoopCondition s.context a.store kind cond).toList
  | .barrier, .loop kind stmt cond => s.context.checkLoopBarriers s.source a.store kind stmt cond
  | .barrier, .ifChain stmt => s.context.checkChain s.source a.store stmt
  | .barrier, .switch stmt cond body => s.context.checkSwitch s.source a.store stmt cond body
  | _, _ => []

theorem mem_raisedAtCall_iff {s : Subject} {a : Analysis} {site : String × Span} {f : Finding} :
    f ∈ raisedAtCall s a site ↔ a.calls.enclosing site.2 ≠ [] ∧
      ∃ hops, (a.calls.recordCall site.1 site.2).findCycle site.1
          s.context.settings.maxRecursionDepth = some hops ∧
        f = recursiveCall site.1 site.2 hops := by
  unfold raisedAtCall
  split
  · rename_i outside
    simp [List.isEmpty_iff.mp outside]
  · rename_i inside
    rw [List.isEmpty_iff] at inside
    rw [Option.mem_toList, checkCycle, Option.map_eq_some_iff]
    constructor
    · rintro ⟨hops, found, rfl⟩
      exact ⟨inside, hops, found, rfl⟩
    · rintro ⟨-, hops, found, rfl⟩
      exact ⟨hops, found, rfl⟩

theorem check_of_mem_raised {s : Subject} {a : Analysis} {check : Check} {ev : Event}
    {f : Finding} (member : f ∈ raised s a check ev) : f.check = some check := by
  cases check with
  | singleWorkItem =>
    obtain ⟨fn, -, member⟩ := List.mem_flatMap.mp member
    exact check_of_checkKernel (Option.mem_toList.mp member)
  | recursion =>
    obtain ⟨site, -, member⟩ := List.mem_flatMap.mp member
    obtain ⟨-, hops, -, rfl⟩ := mem_raisedAtCall_iff.mp member
    rfl
  | backwardBranch =>
    cases ev with
    | loop kind stmt cond => exact check_of_checkLoopCondition (Option.mem_toList.mp member)
    | _ => cases member
  | barrier =>
    cases ev with
    | loop kind stmt cond => exact Context.check_of_mem_checkLoopBarriers member
    | ifChain stmt => exact Context.check_of_mem_checkChain member
    | switch stmt cond body => exact Context.check_of_mem_checkSwitch member
    | _ => cases member

theorem found_eq (s : Subject) (a : Analysis) (ev : Event) :
    found s a ev = heard s .singleWorkItem (raised s a .singleWorkItem ev) ++
      (heard s .recursion (raised s a .recursion ev) ++
        (heard s .backwardBranch (raised s a .backwardBranch ev) ++
          heard s .barrier (raised s a .barrier ev))) := by
  have silent (check : Check) : heard s check [] = [] := by simp [heard]
  have site (callee : String) (span : Span) :
      foundAtCall s a callee span = heard s .recursion (raisedAtCall s a (callee, span)) := by
    unfold foundAtCall raisedAtCall
    split <;> simp [silent]
  cases ev with
  | function f =>
    by_cases prototype : f.body.isNone = true <;>
      simp [found, raised, Event.definition?, Event.site?, silent, prototype]
  | call e callee =>
    cases named : s.context.names.calleeName callee <;>
      simp [found, raised, Event.definition?, Event.site?, silent, site, named]
  | name e =>
    cases named : s.context.names.functionRef e <;>
      simp [found, raised, Event.definition?, Event.site?, silent, site, named]
  | _ => simp [found, raised, Event.definition?, Event.site?, silent]

theorem filter_found (s : Subject) (a : Analysis) (check : Check) (ev : Event) :
    (found s a ev).filter (fun f => f.check = some check) =
      heard s check (raised s a check ev) := by
  have own (c : Check) : (heard s c (raised s a c ev)).filter (fun f => f.check = some check) =
      if c = check then heard s c (raised s a c ev) else [] := by
    have named : ∀ f ∈ heard s c (raised s a c ev), f.check = some c :=
      fun f member => check_of_mem_raised (mem_heard_iff.mp member).2
    split
    · rename_i same
      rw [List.filter_eq_self]
      intro f member
      simpa [same] using named f member
    · rename_i different
      rw [List.filter_eq_nil_iff]
      intro f member
      simpa [named f member] using different
  rw [found_eq, List.filter_append, List.filter_append, List.filter_append, own, own, own, own]
  cases check <;> simp

def raisedBy (s : Subject) (check : Check) (events : List Event) : List Finding :=
  (after s events).findings.filter fun f => f.check = some check

theorem raisedBy_append_singleton (s : Subject) (check : Check) (events : List Event) (ev : Event) :
    raisedBy s check (events ++ [ev]) =
      raisedBy s check events ++ heard s check (raised s (after s events) check ev) := by
  rw [raisedBy, after_append_singleton, step_findings, List.filter_append, filter_found, raisedBy]

theorem mem_raisedBy_iff {s : Subject} {check : Check} {events : List Event} {f : Finding} :
    f ∈ raisedBy s check events ↔
      f ∈ (after s events).findings ∧ f.code = some check.code := by
  rw [raisedBy, List.mem_filter, Finding.code_eq_iff, decide_eq_true_eq]

end Analysis

end Lockstep
