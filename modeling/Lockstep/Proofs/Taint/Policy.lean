import Lockstep.Proofs.Analysis.Agreement
import Lockstep.Proofs.Analysis.Sorted
import Lockstep.Proofs.Branch.Chain
import Lockstep.Proofs.Branch.Switch
import Lockstep.Proofs.Taint.Derivation
import Mathlib.Data.List.Perm.Subperm
/-!
Two runs over one source file, one with indices hidden and one with indices in sight. At every point
of the way the first run has no more declarations on record than the second, and whatever it finds
the second finds at the same place. Calls, recursion and kernels come out the same.
-/

set_option autoImplicit false
set_option relaxedAutoImplicit false

namespace Lockstep

namespace Expr

private theorem Visible.with_indices {v e : Expr} {policy : IndexPolicy}
    (visible : Visible policy v e) :
    Visible .propagate v e := by
  induction visible with
  | here => exact .here
  | @within c e child _ ih =>
    have operand : c ∈ e.visibleChildren .propagate := by
      have below := visibleChildren_subset policy e child
      cases e <;> exact below
    exact .within operand ih

end Expr

namespace Context

variable {x y : Context} {store store' : TaintStore}

private theorem dependence_mono (alike : Alike x y) (open' : y.settings.indexPolicy = .propagate)
    (fewer : ∀ k, store.contains k = true → store'.contains k = true) {e : Expr}
    (depends : (x.dependence store e).isSome = true) :
    (y.dependence store' e).isSome = true := by
  rw [dependence_isSome_iff] at depends ⊢
  rcases depends with ⟨v, visible, called⟩ | ⟨k, recorded, v, visible, key⟩
  · refine .inl ⟨v, ?_, ?_⟩
    · rw [open']
      exact visible.with_indices
    · rwa [← alike.identityCallee]
  · refine .inr ⟨k, fewer k recorded, v, ?_, ?_⟩
    · rw [open']
      exact visible.with_indices
    · rwa [← alike.keyOf]

end Context

def Finding.place (f : Finding) : Option String × Span := (f.code, f.span)

section Places

variable (x : Context) (source : SourceText) (store : TaintStore)

private theorem places_checkLoopCondition (kind : LoopKind) (cond : Expr) :
    (checkLoopCondition x store kind cond).toList.map Finding.place =
      if (x.dependence store cond).isSome then [(some "W0101", cond.span)] else [] := by
  cases dependence : x.dependence store cond <;>
    simp [checkLoopCondition, dependence, Finding.place, Finding.code, Check.code]

namespace Context

def barrierPlaces (s : Stmt) : List (Option String × Span) :=
  (x.barrierCalls s).map fun b => (some "W0201", b.span)

private theorem places_checkLoopBarriers (kind : LoopKind) (s : Stmt) (cond : Expr) :
    (x.checkLoopBarriers source store kind s cond).map Finding.place =
      if (x.dependence store cond).isSome then x.barrierPlaces s else [] := by
  cases dependence : x.dependence store cond with
  | none => cases barriers : x.barrierCalls s <;> simp [checkLoopBarriers, dependence, barriers]
  | some d =>
    cases barriers : x.barrierCalls s with
    | nil => simp [checkLoopBarriers, barriers, barrierPlaces]
    | cons b bs =>
      simp only [checkLoopBarriers, dependence, barriers, Option.isSome_some, if_true,
        barrierPlaces]
      exact map_barrierFindings _ _ _ _ _ _ _

private theorem places_checkChain (s : Stmt) :
    (x.checkChain source store s).map Finding.place =
      if (x.dependentLink store s.chain).isSome ∧ x.judgeChain s.chain.flatten ≠ .balanced then
        x.barrierPlaces s
      else [] := by
  cases link : x.dependentLink store s.chain with
  | none => cases barriers : x.barrierCalls s <;> simp [checkChain, chainVerdict, link, barriers]
  | some found =>
    rw [x.checkChain_of_dependentLink source link]
    by_cases balanced : x.judgeChain s.chain.flatten = .balanced
    · simp [balanced]
    · simp only [balanced, if_false, Option.isSome_some, ne_eq, not_false_eq_true, and_self,
        if_true]
      exact map_barrierFindings _ _ _ _ _ _ _

private theorem places_checkSwitch (s : Stmt) (cond : Expr) (body : Stmt) :
    (x.checkSwitch source store s cond body).map Finding.place =
      if (x.dependence store cond).isSome ∧ x.judgeSwitch body.flattenSwitch ≠ .balanced then
        x.barrierPlaces s
      else [] := by
  cases dependence : x.dependence store cond with
  | none =>
    cases barriers : x.barrierCalls s <;> simp [checkSwitch, switchVerdict, dependence, barriers]
  | some d =>
    rw [x.checkSwitch_of_dependence source body dependence]
    by_cases balanced : x.judgeSwitch body.flattenSwitch = .balanced
    · simp [balanced]
    · simp only [balanced, if_false, Option.isSome_some, ne_eq, not_false_eq_true, and_self,
        if_true]
      exact map_barrierFindings _ _ _ _ _ _ _

end Context

end Places

/-- Two subjects that differ in nothing but that indices are in sight for the second. -/
structure Subject.Opens (s t : Subject) : Prop where
  alike : s.context.Alike t.context
  sight : t.context.settings.indexPolicy = .propagate
  source : s.source = t.source
  depth : s.context.settings.maxRecursionDepth = t.context.settings.maxRecursionDepth
  enabled : s.context.settings.enabled = t.context.settings.enabled

namespace Analysis

/-- One analysis has nothing on record and nothing found that the other one has not, and the same
calls, recursion and kernels. -/
structure Behind (a b : Analysis) : Prop where
  store : ∀ k, a.store.contains k = true → b.store.contains k = true
  calls : a.calls = b.calls
  places : (a.findings.map Finding.place).Sublist (b.findings.map Finding.place)
  fixed : ∀ check ∈ [Check.recursion, Check.singleWorkItem],
    a.findings.filter (fun f => f.check = some check) =
      b.findings.filter (fun f => f.check = some check)

namespace Behind

variable {s t : Subject} {a b : Analysis}

private theorem sublist_ite {α : Type} {p q : Prop} [Decidable p] [Decidable q] (l : List α)
    (weaker : p → q) : (if p then l else []).Sublist (if q then l else []) := by
  by_cases holds : p
  · rw [if_pos holds, if_pos (weaker holds)]
  · rw [if_neg holds]
    exact List.nil_sublist _

private theorem raised_fixed (opens : s.Opens t) (behind : Behind a b) (ev : Event) {check : Check}
    (one : check ∈ [Check.recursion, Check.singleWorkItem]) :
    raised s a check ev = raised t b check ev := by
  simp only [List.mem_cons, List.not_mem_nil, or_false] at one
  rcases one with rfl | rfl
  · exact raised_recursion_congr opens.alike.names opens.depth behind.calls ev
  · exact raised_singleWorkItem_congr opens.alike opens.source ev

private theorem raised_places (opens : s.Opens t) (behind : Behind a b) (ev : Event)
    (check : Check) :
    ((raised s a check ev).map Finding.place).Sublist ((raised t b check ev).map Finding.place) := by
  have depends {cond : Expr} : (s.context.dependence a.store cond).isSome = true →
      (t.context.dependence b.store cond).isSome = true :=
    Context.dependence_mono opens.alike opens.sight behind.store
  have barriers (stmt : Stmt) : s.context.barrierPlaces stmt = t.context.barrierPlaces stmt := by
    rw [Context.barrierPlaces, Context.barrierPlaces, opens.alike.barrierCalls]
  cases check with
  | singleWorkItem =>
    rw [behind.raised_fixed opens ev (by simp)]
  | recursion =>
    rw [behind.raised_fixed opens ev (by simp)]
  | backwardBranch =>
    cases ev with
    | loop kind stmt cond =>
      simp only [raised, places_checkLoopCondition]
      exact sublist_ite _ depends
    | _ => exact List.Sublist.refl _
  | barrier =>
    cases ev with
    | loop kind stmt cond =>
      simp only [raised, Context.places_checkLoopBarriers, barriers]
      exact sublist_ite _ depends
    | ifChain stmt =>
      simp only [raised, Context.places_checkChain, barriers, opens.alike.judgeChain]
      refine sublist_ite _ fun open' => ⟨?_, open'.2⟩
      -- The link that depends on an identity need not be the first one with indices in sight.
      have link := open'.1
      rw [Context.dependentLink, List.findSome?_isSome_iff] at link ⊢
      obtain ⟨l, member, found⟩ := link
      rw [Option.isSome_map] at found
      exact ⟨l, member, by rw [Option.isSome_map]; exact depends found⟩
    | switch stmt cond body =>
      simp only [raised, Context.places_checkSwitch, barriers, opens.alike.judgeSwitch]
      exact sublist_ite _ fun open' => ⟨depends open'.1, open'.2⟩
    | _ => exact List.Sublist.refl _

private theorem found_places (opens : s.Opens t) (behind : Behind a b) (ev : Event) :
    ((found s a ev).map Finding.place).Sublist ((found t b ev).map Finding.place) := by
  have each (check : Check) : ((heard s check (raised s a check ev)).map Finding.place).Sublist
      ((heard t check (raised t b check ev)).map Finding.place) := by
    unfold heard
    rw [opens.enabled]
    split
    · exact behind.raised_places opens ev check
    · exact List.Sublist.refl _
  simp only [found_eq, List.map_append]
  exact (each _).append ((each _).append ((each _).append (each _)))

/-- One event keeps the first run behind the second. -/
theorem step (opens : s.Opens t) (behind : Behind a b) (ev : Event) :
    Behind (Analysis.step s a ev) (Analysis.step t b ev) where
  store := by
    intro k recorded
    rw [contains_step_iff] at recorded ⊢
    rw [← opens.alike.receipt]
    rcases recorded with old | ⟨r, received, key, depends⟩
    · exact .inl (behind.store k old)
    · exact .inr ⟨r, received, key,
        Context.dependence_mono opens.alike opens.sight behind.store depends⟩
  calls := by
    rw [step_calls, step_calls, behind.calls, opens.alike.names]
  places := by
    rw [step_findings, step_findings, List.map_append, List.map_append]
    exact behind.places.append (behind.found_places opens ev)
  fixed := by
    intro check one
    rw [step_findings, step_findings, List.filter_append, List.filter_append, filter_found,
      filter_found, behind.fixed check one, behind.raised_fixed opens ev one]
    unfold heard
    rw [opens.enabled]

theorem after (opens : s.Opens t) (events : List Event) :
    Behind (Analysis.after s events) (Analysis.after t events) := by
  induction events using List.reverseRecOn with
  | nil =>
    rw [after_nil, after_nil]
    exact ⟨fun _ recorded => recorded, rfl, List.Sublist.refl _, fun _ _ => rfl⟩
  | append_singleton events ev ih =>
    rw [after_append_singleton, after_append_singleton]
    exact ih.step opens ev

end Behind

end Analysis

namespace Settings

/-- The settings under which an index is not looked into. -/
def hidingIndices (s : Settings) : Settings := { s with indexPolicy := .exclude }

def showingIndices (s : Settings) : Settings := { s with indexPolicy := .propagate }

end Settings

/-- With indices hidden, at every point of the way no declaration is on record that is not on record
with indices in sight. All that is found is then found at the same places, each as often. The calls,
the findings of recursion and those about kernels are the same. -/
theorem hiding_indices_narrows (source : SourceText) (settings : Settings) (unit : SourceUnit) :
    let s := unit.subject source settings.hidingIndices
    let t := unit.subject source settings.showingIndices
    let a := analyze source settings.hidingIndices unit
    let b := analyze source settings.showingIndices unit
    (∀ events, events <+: unit.events → ∀ k,
      (Analysis.after s events).store.contains k = true →
        (Analysis.after t events).store.contains k = true) ∧
    (∀ k, a.store.contains k = true → b.store.contains k = true) ∧
    (a.findings.map Finding.place).Sublist (b.findings.map Finding.place) ∧
    (a.sortedFindings.map Finding.place).Subperm (b.sortedFindings.map Finding.place) ∧
    (∀ code ∈ ["E0301", "W0401"],
      a.findings.filter (fun f => f.code = some code) =
        b.findings.filter (fun f => f.code = some code) ∧
      a.sortedFindings.filter (fun f => f.code = some code) =
        b.sortedFindings.filter (fun f => f.code = some code)) ∧
    a.calls = b.calls := by
  intro s t a b
  have opens : s.Opens t := ⟨Context.alike_of_settings _ rfl rfl, rfl, rfl, rfl, rfl⟩
  have behind : Analysis.Behind a b := Analysis.Behind.after opens unit.events
  have same (check : Check) (one : check ∈ [Check.recursion, Check.singleWorkItem]) :
      a.findings.filter (fun f => f.code = some check.code) =
        b.findings.filter (fun f => f.code = some check.code) := by
    simp only [Finding.code_eq_iff]
    exact behind.fixed check one
  refine ⟨fun events _ => (Analysis.Behind.after opens events).store, behind.store, behind.places,
    ?_, ?_, behind.calls⟩
  · have sorted (c : Analysis) :
        (c.sortedFindings.map Finding.place).Perm (c.findings.map Finding.place) :=
      c.sortedFindings_perm.map _
    exact ((sorted a).subperm.trans behind.places.subperm).trans (sorted b).symm.subperm
  · have each (check : Check) (one : check ∈ [Check.recursion, Check.singleWorkItem]) :
        a.findings.filter (fun f => f.code = some check.code) =
            b.findings.filter (fun f => f.code = some check.code) ∧
          a.sortedFindings.filter (fun f => f.code = some check.code) =
            b.sortedFindings.filter (fun f => f.code = some check.code) := by
      refine ⟨same check one, ?_⟩
      rw [← a.sortedFindings_of_filter (b := { a with findings := _ }) rfl,
        ← b.sortedFindings_of_filter (b := { b with findings := _ }) rfl]
      unfold Analysis.sortedFindings
      simp only [same check one]
    intro code one
    simp only [List.mem_cons, List.not_mem_nil, or_false] at one
    rcases one with rfl | rfl
    · exact each .recursion (by simp)
    · exact each .singleWorkItem (by simp)

/-- `int t = get_global_id(); int u = p[t]; void f() { while (u) ; while (t) ; }` -/
def indexSample : SourceUnit :=
  let declare (name : String) (start : Nat) (value : Expr) : Item :=
    .global ⟨⟨.named ⟨"int", ⟨start, start⟩⟩, 0, ⟨start, start⟩⟩,
      [⟨0, ⟨name, ⟨start, start + 1⟩⟩, [], some value, ⟨start, start + 2⟩⟩], ⟨start, start + 3⟩⟩
  ⟨[declare "t" 0 (.call ⟨5, 9⟩ (.name ⟨5, 8⟩ "get_global_id") []),
    declare "u" 10 (.index ⟨15, 19⟩ (.name ⟨15, 16⟩ "p") (.name ⟨17, 18⟩ "t")),
    .function ⟨false, ⟨.named ⟨"void", ⟨20, 21⟩⟩, 0, ⟨20, 21⟩⟩, ⟨"f", ⟨22, 23⟩⟩, [],
      some ⟨[.whileLoop ⟨25, 30⟩ (.name ⟨27, 28⟩ "u") (.empty ⟨29, 30⟩),
        .whileLoop ⟨31, 36⟩ (.name ⟨33, 34⟩ "t") (.empty ⟨35, 36⟩)], ⟨24, 37⟩⟩, ⟨20, 37⟩⟩],
    ⟨0, 37⟩⟩

theorem hiding_indices_narrows_sample :
    let source : SourceText := ⟨"k.cl", 1, [0]⟩
    let s := indexSample.subject source (Settings.hidingIndices {})
    let t := indexSample.subject source (Settings.showingIndices {})
    indexSample.events.take 3 <+: indexSample.events ∧
      (Analysis.after s (indexSample.events.take 3)).store.contains (.var 0) = true ∧
      (Analysis.after t (indexSample.events.take 3)).store.contains (.var 0) = true ∧
      (analyze source (Settings.hidingIndices {}) indexSample).findings.map Finding.place =
        [(some "W0101", ⟨33, 34⟩)] ∧
      (analyze source (Settings.showingIndices {}) indexSample).findings.map Finding.place =
        [(some "W0101", ⟨27, 28⟩), (some "W0101", ⟨33, 34⟩)] ∧
      (analyze source (Settings.hidingIndices {}) indexSample).findings.filter
          (fun f => f.code = some "W0401") =
        (analyze source (Settings.showingIndices {}) indexSample).findings.filter
          (fun f => f.code = some "W0401") := by
  intro source s t
  obtain ⟨store, -, -, -, same, -⟩ := hiding_indices_narrows source {} indexSample
  have start : indexSample.events.take 3 <+: indexSample.events := List.take_prefix 3 _
  have recorded : (Analysis.after s (indexSample.events.take 3)).store.contains (.var 0) = true := by
    decide +kernel
  exact ⟨start, recorded, store _ start _ recorded, by decide +kernel, by decide +kernel,
    (same "W0401" (by simp)).1⟩

end Lockstep
