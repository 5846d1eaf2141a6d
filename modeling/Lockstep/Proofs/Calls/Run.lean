import Lockstep.Proofs.Analysis.Raised
import Lockstep.Proofs.Calls.Paths
/-!
Cycles of calls over a whole run. Each search sees only the calls that were met so far; still, the
last call of a cycle to be met closes it, and the search that starts there finds it. So something is
reported exactly if the calls that were met in the end hold a cycle that is short enough.
-/

set_option autoImplicit false
set_option relaxedAutoImplicit false

namespace Lockstep

namespace CallMap

variable {r : Resolution} {m : CallMap} {ev : Event} {site : String × Span}

theorem record_of_site (called : ev.site? r = some site) :
    m.record r ev = m.recordCall site.1 site.2 := by
  have undefined : ev.definition? = none := by
    cases ev with
    | function f => cases called
    | _ => rfl
  rw [record, undefined, called]
  rfl

private theorem calls_record_of_no_site (silent : ev.site? r = none) :
    (m.record r ev).calls = m.calls := by
  rw [record, silent]
  cases ev.definition? <;> rfl

private theorem calls_subset_record (c : Call) (known : c ∈ m.calls) :
    c ∈ (m.record r ev).calls := by
  cases called : ev.site? r with
  | none => rwa [calls_record_of_no_site called]
  | some site =>
    rw [record_of_site called]
    exact List.mem_append_left _ known

theorem mem_recordCall_iff {callee : String} {span : Span} {c : Call} :
    c ∈ (m.recordCall callee span).calls ↔
      c ∈ m.calls ∨ c.callee = callee ∧ c.span = span ∧ c.caller ∈ m.enclosing span := by
  rw [recordCall, List.mem_append, List.mem_map]
  refine or_congr Iff.rfl ?_
  constructor
  · rintro ⟨caller, around, rfl⟩
    exact ⟨rfl, rfl, around⟩
  · rintro ⟨rfl, rfl, around⟩
    exact ⟨c.caller, around, rfl⟩

end CallMap

namespace Analysis

theorem calls_after_append_singleton (s : Subject) (events : List Event) (ev : Event) :
    (after s (events ++ [ev])).calls = (after s events).calls.record s.context.names ev := by
  rw [after_append_singleton, step_calls]

theorem cycle_of_mem_raisedBy {s : Subject} {events : List Event} {f : Finding}
    (member : f ∈ raisedBy s .recursion events) :
    ∃ callee span hops, f = recursiveCall callee span hops ∧
      (after s events).calls.Cycle s.context.settings.maxRecursionDepth callee hops := by
  induction events using List.reverseRecOn with
  | nil => cases member
  | append_singleton events ev ih =>
    rw [calls_after_append_singleton]
    rw [raisedBy_append_singleton] at member
    rcases List.mem_append.mp member with old | new
    · obtain ⟨callee, span, hops, rfl, cycle⟩ := ih old
      refine ⟨callee, span, hops, rfl, cycle.transfer fun c on => ?_⟩
      exact CallMap.calls_subset_record c (cycle.closed.recorded c on)
    · obtain ⟨site, called, raised⟩ := List.mem_flatMap.mp (mem_heard_iff.mp new).2
      obtain ⟨-, hops, found, rfl⟩ := mem_raisedAtCall_iff.mp raised
      rw [CallMap.record_of_site (Option.mem_toList.mp called)]
      exact ⟨site.1, site.2, hops, rfl, CallMap.cycle_of_findCycle found⟩

/-- The call that is met last closes the cycle. -/
private theorem exists_raised_of_new_cycle {s : Subject} {a : Analysis} {ev : Event}
    {g : String} {hops : List Call} {c : Call}
    (cycle : (a.calls.record s.context.names ev).Cycle s.context.settings.maxRecursionDepth g hops)
    (on : c ∈ hops) (new : c ∉ a.calls.calls) : ∃ f, f ∈ raised s a .recursion ev := by
  have recorded := cycle.closed.recorded c on
  obtain ⟨turned, cycle⟩ := cycle.rotate on
  cases called : ev.site? s.context.names with
  | none =>
    rw [CallMap.calls_record_of_no_site called] at recorded
    exact absurd recorded new
  | some site =>
    rw [CallMap.record_of_site called] at recorded cycle
    obtain ⟨callee, -, caller⟩ := (CallMap.mem_recordCall_iff.mp recorded).resolve_left new
    rw [callee] at cycle
    obtain ⟨found, search⟩ := CallMap.findCycle_isSome_of_cycle cycle
    refine ⟨recursiveCall site.1 site.2 found, List.mem_flatMap.mpr ⟨site, ?_, ?_⟩⟩
    · exact Option.mem_toList.mpr called
    · exact mem_raisedAtCall_iff.mpr ⟨List.ne_nil_of_mem caller, found, search, rfl⟩

/-- A cycle among the calls that were met was reported. -/
theorem exists_mem_raisedBy_of_cycle {s : Subject} {events : List Event} {g : String}
    {hops : List Call} (enabled : s.context.settings.enabled .recursion = true)
    (cycle : (after s events).calls.Cycle s.context.settings.maxRecursionDepth g hops) :
    ∃ f, f ∈ raisedBy s .recursion events := by
  induction events using List.reverseRecOn generalizing g hops with
  | nil =>
    have nothing := cycle.closed.recorded
    have positive := cycle.positive
    cases hops with
    | nil => simp at positive
    | cons c hops => cases nothing c List.mem_cons_self
  | append_singleton events ev ih =>
    rw [calls_after_append_singleton] at cycle
    rw [raisedBy_append_singleton]
    by_cases old : ∀ c ∈ hops, c ∈ (after s events).calls.calls
    · obtain ⟨f, member⟩ := ih (cycle.transfer old)
      exact ⟨f, List.mem_append_left _ member⟩
    · obtain ⟨c, on, new⟩ : ∃ c ∈ hops, c ∉ (after s events).calls.calls := by
        simpa using old
      obtain ⟨f, member⟩ := exists_raised_of_new_cycle cycle on new
      exact ⟨f, List.mem_append_right _ (mem_heard_iff.mpr ⟨enabled, member⟩)⟩

end Analysis

end Lockstep
