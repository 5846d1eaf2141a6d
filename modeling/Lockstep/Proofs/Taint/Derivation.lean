import Lockstep.Proofs.Analysis.Step
import Lockstep.Proofs.Taint.Visible
import Mathlib.Data.List.Chain
import Mathlib.Data.List.Induction
/-!
What it means to be on record. A declaration is on record after some events exactly if a
subsequence of what was received in them leads to it: the first value asks for an identity, each
later one refers to the declaration before it, and the last one is received by the declaration in
question. A loop is reported exactly if its condition asks for an identity or refers to a
declaration that the events before the loop lead to.
-/

set_option autoImplicit false
set_option relaxedAutoImplicit false

namespace Lockstep

namespace TaintStore

theorem contains_record (store : TaintStore) (k j : Key) (p : Provenance) :
    (store.record k p).contains j = true ↔ store.contains j = true ∨ k = j := by
  by_cases known : store.contains k = true
  · rw [record, if_pos known]
    constructor
    · exact .inl
    · intro either
      rcases either with recorded | rfl
      · exact recorded
      · exact known
  · rw [record, if_neg known]
    simp only [contains, get?, List.lookup_append, Option.isSome_or, Bool.or_eq_true]
    by_cases same : k = j
    · simp [same]
    · simp [same, Ne.symm same]

end TaintStore

namespace Context

variable (x : Context)

def receipts (events : List Event) : List Receipt := events.filterMap (Event.receipt x)

/-- The steps lead from an identity to the declaration: the first value asks for an identity, each
later one refers to the declaration of the step before it, and the last one is received by the
declaration itself. -/
structure Leads (steps : List Receipt) (k : Key) : Prop where
  start : ∃ first ∈ steps.head?, x.CallsIdentity first.value
  linked : steps.IsChain fun r next => x.RefersTo next.value r.key
  arrives : ∃ last ∈ steps.getLast?, last.key = k

def Derives (received : List Receipt) (k : Key) : Prop :=
  ∃ steps, List.Sublist steps received ∧ x.Leads steps k

private theorem not_leads_nil (k : Key) : ¬ x.Leads [] k := by
  intro leads
  obtain ⟨first, head, -⟩ := leads.start
  cases head

private theorem leads_append_singleton (steps : List Receipt) (r : Receipt) (k : Key) :
    x.Leads (steps ++ [r]) k ↔
      r.key = k ∧ ((steps = [] ∧ x.CallsIdentity r.value) ∨
        ∃ j, x.Leads steps j ∧ x.RefersTo r.value j) := by
  have last : (steps ++ [r]).getLast? = some r := by simp
  constructor
  · rintro ⟨start, linked, arrives⟩
    have key : r.key = k := by
      obtain ⟨final, isLast, key⟩ := arrives
      rw [Option.mem_unique last isLast]
      exact key
    refine ⟨key, ?_⟩
    cases before : steps.getLast? with
    | none =>
      have empty : steps = [] := List.getLast?_eq_none_iff.mp before
      subst empty
      obtain ⟨first, head, identity⟩ := start
      cases head
      exact .inl ⟨rfl, identity⟩
    | some previous =>
      obtain ⟨earlier, -, between⟩ := List.isChain_append.mp linked
      have nonempty : steps ≠ [] := by
        rintro rfl
        cases before
      rw [List.head?_append_of_ne_nil _ nonempty] at start
      exact .inr ⟨previous.key, ⟨start, earlier, previous, before, rfl⟩,
        between previous before r rfl⟩
  · intro parts
    rcases parts with ⟨key, ⟨rfl, identity⟩ | ⟨j, leads, refers⟩⟩
    · exact ⟨⟨r, rfl, identity⟩, .singleton r, r, last, key⟩
    · obtain ⟨first, head, identity⟩ := leads.start
      obtain ⟨previous, before, rfl⟩ := leads.arrives
      refine ⟨⟨first, ?_, identity⟩, ?_, r, last, key⟩
      · rw [List.head?_append, Option.mem_def.mp head]
        rfl
      · refine List.isChain_append.mpr ⟨leads.linked, .singleton r, ?_⟩
        intro final isLast next isNext
        cases isNext
        rw [Option.mem_unique isLast before]
        exact refers

private theorem not_derives_nil (k : Key) : ¬ x.Derives [] k := by
  rintro ⟨steps, sublist, leads⟩
  rw [List.sublist_nil.mp sublist] at leads
  exact x.not_leads_nil k leads

private theorem derives_append_singleton (received : List Receipt) (r : Receipt) (k : Key) :
    x.Derives (received ++ [r]) k ↔
      x.Derives received k ∨ (r.key = k ∧
        (x.CallsIdentity r.value ∨ ∃ j, x.Derives received j ∧ x.RefersTo r.value j)) := by
  constructor
  · rintro ⟨steps, sublist, leads⟩
    obtain ⟨before, after, rfl, earlier, final⟩ := List.sublist_append_iff.mp sublist
    rcases List.sublist_singleton.mp final with rfl | rfl
    · rw [List.append_nil] at leads
      exact .inl ⟨before, earlier, leads⟩
    · obtain ⟨key, ⟨-, identity⟩ | ⟨j, leads, refers⟩⟩ :=
        (x.leads_append_singleton before r k).mp leads
      · exact .inr ⟨key, .inl identity⟩
      · exact .inr ⟨key, .inr ⟨j, ⟨before, earlier, leads⟩, refers⟩⟩
  · intro derived
    rcases derived with ⟨steps, sublist, leads⟩ |
      ⟨key, identity | ⟨j, ⟨steps, sublist, leads⟩, refers⟩⟩
    · exact ⟨steps, sublist.trans (List.sublist_append_left _ _), leads⟩
    · exact ⟨[r], List.sublist_append_right _ _,
        (x.leads_append_singleton [] r k).mpr ⟨key, .inl ⟨rfl, identity⟩⟩⟩
    · exact ⟨steps ++ [r], sublist.append (List.Sublist.refl [r]),
        (x.leads_append_singleton steps r k).mpr ⟨key, .inr ⟨j, leads, refers⟩⟩⟩

def DependsAfter (events : List Event) (value : Expr) : Prop :=
  x.CallsIdentity value ∨ ∃ k, x.Derives (x.receipts events) k ∧ x.RefersTo value k

theorem contains_propagate (store : TaintStore) (target : Key) (value : Expr) (span : Span)
    (k : Key) :
    (x.propagate store target value span).contains k = true ↔
      store.contains k = true ∨ (target = k ∧ (x.dependence store value).isSome = true) := by
  by_cases known : store.contains target = true
  · have influx : x.influx store target value = none := by rw [influx, if_pos known]
    rw [propagate, influx]
    constructor
    · exact .inl
    · intro either
      rcases either with recorded | ⟨rfl, -⟩
      · exact recorded
      · exact known
  · have influx : x.influx store target value = x.dependence store value := by
      rw [influx, if_neg known]
    rw [propagate, influx]
    cases x.dependence store value with
    | none => simp
    | some d => simp [TaintStore.contains_record]

end Context

namespace Analysis

variable (s : Subject)

/-- An event puts a declaration on record if it receives a value that depends on an identity. -/
theorem contains_step_iff (a : Analysis) (ev : Event) (k : Key) :
    (step s a ev).store.contains k = true ↔
      a.store.contains k = true ∨ ∃ r ∈ ev.receipt s.context, r.key = k ∧
        (s.context.dependence a.store r.value).isSome = true := by
  rw [step_store]
  cases ev.receipt s.context with
  | none => simp
  | some r => simp [Context.contains_propagate]

private theorem contains_after_iff (events : List Event) (k : Key) :
    (after s events).store.contains k = true ↔
      s.context.Derives (s.context.receipts events) k := by
  -- From the end: what one more event adds to the record is what one more step adds to the ways.
  induction events using List.reverseRecOn generalizing k with
  | nil =>
    constructor
    · intro recorded
      cases recorded
    · intro derived
      exact (s.context.not_derives_nil k derived).elim
  | append_singleton events ev ih =>
    rw [after_append_singleton, contains_step_iff, ih]
    cases received : ev.receipt s.context with
    | none =>
      have same : s.context.receipts (events ++ [ev]) = s.context.receipts events := by
        simp [Context.receipts, received]
      simp [same]
    | some r =>
      have longer : s.context.receipts (events ++ [ev]) = s.context.receipts events ++ [r] := by
        simp [Context.receipts, received]
      rw [longer, Context.derives_append_singleton]
      simp [Context.dependence_isSome_iff, ih]

private theorem dependence_after_iff (events : List Event) (value : Expr) :
    (s.context.dependence (after s events).store value).isSome = true ↔
      s.context.DependsAfter events value := by
  rw [Context.dependence_isSome_iff, Context.DependsAfter]
  simp only [contains_after_iff]

private theorem reported_iff (events : List Event) (ev : Event) (span : Span) :
    (∃ f ∈ found s (after s events) ev, f.code = some "W0101" ∧ f.span = span) ↔
      s.context.settings.enabled .backwardBranch = true ∧ ∃ kind stmt cond,
        ev = .loop kind stmt cond ∧ cond.span = span ∧ s.context.DependsAfter events cond := by
  have named (f : Finding) : f.code = some "W0101" ↔ f.check = some .backwardBranch :=
    f.code_eq_iff .backwardBranch
  constructor
  · rintro ⟨f, member, code, rfl⟩
    obtain ⟨enabled, kind, stmt, cond, rfl, condition⟩ :=
      mem_found_backwardBranch_iff.mp ⟨member, (named f).mp code⟩
    obtain ⟨depends, place⟩ := exists_checkLoopCondition_iff.mp ⟨f, condition, rfl⟩
    exact ⟨enabled, kind, stmt, cond, rfl, place, (dependence_after_iff s events cond).mp depends⟩
  · rintro ⟨enabled, kind, stmt, cond, rfl, place, depends⟩
    obtain ⟨f, condition, spot⟩ := exists_checkLoopCondition_iff.mpr
      ⟨(dependence_after_iff s events cond).mpr depends, place⟩
    obtain ⟨member, check⟩ := mem_found_backwardBranch_iff.mpr
      ⟨enabled, kind, stmt, cond, rfl, condition⟩
    exact ⟨f, member, (named f).mpr check, spot⟩

end Analysis

/-- After any part of the events of a source file, and after all of them, the declarations on
record are those that the events lead to. An event is reported as a backward branch exactly if it
is a loop whose condition depends on an identity after the events before it; the report is kept. -/
theorem dependence_followed_exactly (source : SourceText) (settings : Settings)
    (unit : SourceUnit) :
    let s := unit.subject source settings
    (∀ events, events <+: unit.events → ∀ k,
      (Analysis.after s events).store.contains k = true ↔
        s.context.Derives (s.context.receipts events) k) ∧
    (∀ k, (analyze source settings unit).store.contains k = true ↔
      s.context.Derives (s.context.receipts unit.events) k) ∧
    ∀ events ev more, unit.events = events ++ ev :: more → ∃ fs,
      (Analysis.after s (events ++ [ev])).findings = (Analysis.after s events).findings ++ fs ∧
      (Analysis.after s (events ++ [ev])).findings <+: (analyze source settings unit).findings ∧
      ∀ span, (∃ f ∈ fs, f.code = some "W0101" ∧ f.span = span) ↔
        settings.enabled .backwardBranch = true ∧ ∃ kind stmt cond,
          ev = .loop kind stmt cond ∧ cond.span = span ∧ s.context.DependsAfter events cond := by
  intro s
  refine ⟨fun events _ k => Analysis.contains_after_iff s events k,
    fun k => Analysis.contains_after_iff s unit.events k, fun events ev more split => ?_⟩
  refine ⟨Analysis.found s (Analysis.after s events) ev, ?_, ?_, fun span =>
    Analysis.reported_iff s events ev span⟩
  · rw [Analysis.after_append_singleton, Analysis.step_findings]
  · rw [analyze_eq_after, split, List.append_cons events ev more]
    exact Analysis.findings_after_prefix s (events ++ [ev]) more

/-- `int t = get_global_id(); int u = t; void f() { while (u) ; }` -/
def copySample : SourceUnit :=
  let declare (name : String) (start : Nat) (value : Expr) : Item :=
    .global ⟨⟨.named ⟨"int", ⟨start, start⟩⟩, 0, ⟨start, start⟩⟩,
      [⟨0, ⟨name, ⟨start, start + 1⟩⟩, [], some value, ⟨start, start + 2⟩⟩], ⟨start, start + 3⟩⟩
  ⟨[declare "t" 0 (.call ⟨5, 9⟩ (.name ⟨5, 8⟩ "get_global_id") []),
    declare "u" 10 (.name ⟨15, 16⟩ "t"),
    .function ⟨false, ⟨.named ⟨"void", ⟨20, 21⟩⟩, 0, ⟨20, 21⟩⟩, ⟨"f", ⟨22, 23⟩⟩, [],
      some ⟨[.whileLoop ⟨25, 30⟩ (.name ⟨27, 28⟩ "u") (.empty ⟨29, 30⟩)], ⟨24, 31⟩⟩, ⟨20, 31⟩⟩],
    ⟨0, 31⟩⟩

theorem dependence_followed_exactly_sample :
    copySample.events.take 5 <+: copySample.events ∧
      (Analysis.after (copySample.subject ⟨"k.cl", 1, [0]⟩ {})
        (copySample.events.take 5)).store.contains (.var 1) = true ∧
      ∃ f ∈ (analyze ⟨"k.cl", 1, [0]⟩ {} copySample).findings,
        f.code = some "W0101" ∧ f.span = ⟨27, 28⟩ := by
  have followed := dependence_followed_exactly ⟨"k.cl", 1, [0]⟩ {} copySample
  have start : copySample.events.take 5 <+: copySample.events := List.take_prefix 5 _
  obtain ⟨recorded, -, reported⟩ := followed
  have derived : (copySample.subject ⟨"k.cl", 1, [0]⟩ {}).context.Derives
      ((copySample.subject ⟨"k.cl", 1, [0]⟩ {}).context.receipts (copySample.events.take 5))
      (.var 1) := by
    refine ⟨_, List.Sublist.refl _, ⟨_, rfl, ?_⟩, ?_, _, rfl, rfl⟩
    · exact ⟨_, .here, rfl⟩
    · exact .cons_cons ⟨_, .here, rfl⟩ (.singleton _)
  obtain ⟨fs, grown, kept, loops⟩ := reported (copySample.events.take 5)
    (.loop .whileLoop (.whileLoop ⟨25, 30⟩ (.name ⟨27, 28⟩ "u") (.empty ⟨29, 30⟩))
      (.name ⟨27, 28⟩ "u")) (copySample.events.drop 6) rfl
  obtain ⟨f, member, code, span⟩ := (loops ⟨27, 28⟩).mpr
    ⟨rfl, _, _, _, rfl, rfl, .inr ⟨.var 1, derived, _, .here, rfl⟩⟩
  rw [grown] at kept
  exact ⟨start, (recorded _ start _).mpr derived, f,
    kept.subset (List.mem_append_right _ member), code, span⟩

end Lockstep
