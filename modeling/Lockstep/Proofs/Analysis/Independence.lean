import Lockstep.Proofs.Analysis.Agreement
import Lockstep.Proofs.Analysis.Sorted
import Mathlib.Data.List.Induction
/-!
Checks do not interfere. Switching some of them off leaves the store and the call map as they are
at every point of a run, and takes away the findings of these checks and no others. What is left
comes out in the same order.
-/

set_option autoImplicit false
set_option relaxedAutoImplicit false

namespace Lockstep

namespace Settings

def without (s : Settings) (off : List Check) : Settings := off.foldl disable s

private theorem exists_without_eq (s : Settings) (off : List Check) :
    ∃ checks, s.without off = { s with checks } := by
  induction off generalizing s with
  | nil => exact ⟨s.checks, rfl⟩
  | cons c off ih => exact ih (s.disable c)

private theorem enabled_disable (s : Settings) (c d : Check) :
    (s.disable c).enabled d = (s.enabled d && d != c) := by
  cases c <;> cases d <;> simp [enabled, disable, EnabledChecks.isEnabled, EnabledChecks.disable]

private theorem enabled_without (s : Settings) (off : List Check) (c : Check) :
    (s.without off).enabled c = (s.enabled c && !off.contains c) := by
  induction off generalizing s with
  | nil => simp [without]
  | cons d off ih =>
    have first := ih (s.disable d)
    rw [enabled_disable] at first
    rw [without, List.foldl_cons, ← without, first]
    by_cases same : c = d
    · simp [same]
    · have different : (c != d) = true := bne_iff_ne.mpr same
      have apart : (d :: off).contains c = off.contains c := by simp [same]
      rw [different, Bool.and_true, apart]

end Settings

def Finding.isOf (off : List Check) (f : Finding) : Bool :=
  off.any fun c => f.code = some c.code

private theorem Finding.isOf_of_check {f : Finding} {c : Check} (own : f.check = some c)
    (off : List Check) : f.isOf off = off.contains c := by
  have named (d : Check) : f.code = some d.code ↔ c = d := by
    rw [f.code_eq_iff, own, Option.some.injEq]
  rw [isOf, Bool.eq_iff_iff]
  simp [named]

namespace Analysis

variable {s t : Subject} {a b : Analysis}

private theorem raised_congr (alike : s.context.Alike t.context)
    (visible : s.context.settings.indexPolicy = t.context.settings.indexPolicy)
    (depth : s.context.settings.maxRecursionDepth = t.context.settings.maxRecursionDepth)
    (source : s.source = t.source) (store : a.store = b.store) (calls : a.calls = b.calls)
    (check : Check) (ev : Event) : raised s a check ev = raised t b check ev := by
  cases check with
  | singleWorkItem => exact raised_singleWorkItem_congr alike source ev
  | recursion => exact raised_recursion_congr alike.names depth calls ev
  | backwardBranch =>
    cases ev with
    | loop kind stmt cond => simp only [raised, store, alike.checkLoopCondition visible]
    | _ => rfl
  | barrier =>
    cases ev with
    | loop kind stmt cond => simp only [raised, store, source, alike.checkLoopBarriers visible]
    | ifChain stmt => simp only [raised, store, source, alike.checkChain visible]
    | switch stmt cond body => simp only [raised, store, source, alike.checkSwitch visible]
    | _ => rfl

private theorem heard_eq_filter {off : List Check} {check : Check} {fs : List Finding}
    (own : ∀ f ∈ fs, f.check = some check)
    (enabled : t.context.settings.enabled check =
      (s.context.settings.enabled check && !off.contains check)) :
    heard t check fs = (heard s check fs).filter fun f => !f.isOf off := by
  unfold heard
  rw [enabled]
  by_cases on : s.context.settings.enabled check = true
  · rw [if_pos on, on, Bool.true_and]
    by_cases without : off.contains check = true
    · rw [without, Bool.not_true, if_neg Bool.false_ne_true]
      symm
      rw [List.filter_eq_nil_iff]
      intro f member
      rw [Finding.isOf_of_check (own f member), without]
      exact Bool.false_ne_true
    · rw [Bool.not_eq_true] at without
      rw [without, Bool.not_false, if_pos rfl]
      symm
      rw [List.filter_eq_self]
      intro f member
      rw [Finding.isOf_of_check (own f member), without]
      rfl
  · rw [if_neg on, if_neg (by simp [on]), List.filter_nil]

end Analysis

namespace SourceUnit

variable (source : SourceText) (settings : Settings) (unit : SourceUnit) (off : List Check)

private theorem after_without (events : List Event) :
    let a := Analysis.after (unit.subject source settings) events
    let b := Analysis.after (unit.subject source (settings.without off)) events
    b.store = a.store ∧ b.calls = a.calls ∧ b.findings = a.findings.filter fun f => !f.isOf off := by
  obtain ⟨checks, others⟩ := settings.exists_without_eq off
  have alike : (unit.subject source (settings.without off)).context.Alike
      (unit.subject source settings).context := by
    rw [others]
    exact Context.alike_of_settings _ rfl rfl
  have visible : (unit.subject source (settings.without off)).context.settings.indexPolicy =
      (unit.subject source settings).context.settings.indexPolicy := by
    rw [others]
    rfl
  have depth : (settings.without off).maxRecursionDepth = settings.maxRecursionDepth := by
    rw [others]
  induction events using List.reverseRecOn with
  | nil => exact ⟨rfl, rfl, rfl⟩
  | append_singleton events ev ih =>
    obtain ⟨store, calls, findings⟩ := ih
    simp only [Analysis.after_append_singleton]
    refine ⟨?_, ?_, ?_⟩
    · simp only [Analysis.step_store, store, alike.receipt, alike.propagate visible]
    · simp only [Analysis.step_calls, calls, alike.names]
    · have each (check : Check) :
          Analysis.heard (unit.subject source (settings.without off)) check (Analysis.raised
            (unit.subject source (settings.without off))
            (Analysis.after (unit.subject source (settings.without off)) events) check ev) =
          (Analysis.heard (unit.subject source settings) check (Analysis.raised
            (unit.subject source settings) (Analysis.after (unit.subject source settings) events)
            check ev)).filter fun f => !f.isOf off := by
        rw [Analysis.raised_congr alike visible depth rfl store calls]
        exact Analysis.heard_eq_filter (fun _ => Analysis.check_of_mem_raised)
          (settings.enabled_without off check)
      simp only [Analysis.step_findings, Analysis.found_eq, List.filter_append, findings, each]

end SourceUnit

/-- Whatever checks are switched off besides, the store and the call map are the same, and so are
the findings but for those with the codes of these checks, in the order in which they are made and
in the one in which they come out. The findings come out by where they start, those that start
together in the order in which they were made. -/
theorem checks_independent (source : SourceText) (settings : Settings) (unit : SourceUnit)
    (off : List Check) :
    let a := analyze source settings unit
    let b := analyze source (settings.without off) unit
    b.store = a.store ∧ b.calls = a.calls ∧
      b.findings = a.findings.filter (fun f => !f.isOf off) ∧
      b.sortedFindings = a.sortedFindings.filter (fun f => !f.isOf off) ∧
      a.sortedFindings.Perm a.findings ∧
      a.sortedFindings.Pairwise (fun f g => f.span.start ≤ g.span.start) ∧
      ∀ n, a.sortedFindings.filter (fun f => f.span.start = n) =
        a.findings.filter (fun f => f.span.start = n) := by
  intro a b
  obtain ⟨store, calls, findings⟩ := unit.after_without source settings off unit.events
  exact ⟨store, calls, findings, a.sortedFindings_of_filter findings, a.sortedFindings_perm,
    a.sortedFindings_rising, a.filter_start_sortedFindings⟩

end Lockstep
