import Lockstep.Proofs.Branch.Chain
import Lockstep.Proofs.Branch.Straight
import Lockstep.Proofs.Branch.Switch
/-!
What the verdict on a construct says about its executions. The pass counts every barrier call that
is written down, an execution meets those that are evaluated; the two part ways where an operand
can be left out. `certainBarriers` is the number of barriers that all evaluations of an expression
have in common, if there is one. A construct that was found balanced makes all its executions meet
the same positive number of barriers exactly if this number is the same for all its branches.
-/

set_option autoImplicit false
set_option relaxedAutoImplicit false

namespace Lockstep

def addKnown : Option Nat → Option Nat → Option Nat
  | some m, some n => some (m + n)
  | _, _ => none

private theorem addKnown_zero (o : Option Nat) : addKnown o (some 0) = o := by
  cases o <;> rfl

private theorem addKnown_eq_some_iff {o o' : Option Nat} {n : Nat} :
    addKnown o o' = some n ↔ ∃ m k, o = some m ∧ o' = some k ∧ m + k = n := by
  cases o <;> cases o' <;> simp [addKnown]

namespace Context

variable (x : Context)

/-- The barriers among the calls that were made. -/
def barriersIn (calls : List Expr) : Nat := calls.countP x.isBarrierCall

mutual

/-- The number of barriers that every evaluation of the expression meets, if there is one. -/
def certainBarriers : Expr → Option Nat
  | .int _ _ | .float _ _ | .char _ | .str _ _ | .name _ _ | .sizeofType _ _ | .sizeofExpr _ _ =>
    some 0
  | e@(.call _ callee args) =>
    (addKnown (certainBarriers callee) (certainBarriersAll args)).map
      (· + if x.isBarrierCall e then 1 else 0)
  | .member _ operand _ _ | .unary _ _ operand | .post _ _ operand | .cast _ _ operand =>
    certainBarriers operand
  | .index _ lhs rhs | .assign _ _ lhs rhs => addKnown (certainBarriers lhs) (certainBarriers rhs)
  | .binary _ op lhs rhs =>
    if op.isLogical then
      if certainBarriers rhs = some 0 then certainBarriers lhs else none
    else addKnown (certainBarriers lhs) (certainBarriers rhs)
  | .conditional _ cond t e =>
    if certainBarriers t = certainBarriers e then
      addKnown (certainBarriers cond) (certainBarriers t)
    else none
  | .initList _ items => certainBarriersAll items

/-- The number of barriers that every evaluation of these expressions meets, if there is one. -/
def certainBarriersAll : List Expr → Option Nat
  | [] => some 0
  | e :: es => addKnown (certainBarriers e) (certainBarriersAll es)

end

/-- All ways to make calls that `made` admits meet `n` barriers. -/
private def Always (made : List Expr → Prop) (n : Nat) : Prop :=
  ∀ calls, made calls → x.barriersIn calls = n

private theorem barriersIn_append (a b : List Expr) :
    x.barriersIn (a ++ b) = x.barriersIn a + x.barriersIn b := List.countP_append

private theorem barriersIn_ownCall (e : Expr) :
    x.barriersIn e.ownCall = if x.isBarrierCall e then 1 else 0 := by
  cases call : e.isCall with
  | true => simp [barriersIn, Expr.ownCall, call, List.countP_cons]
  | false =>
    have other : x.isBarrierCall e = false := by
      cases e <;> simp_all [isBarrierCall, callTarget, Expr.isCall]
    simp [barriersIn, Expr.ownCall, call, other]

private theorem always_append_iff {whole first second : List Expr → Prop} {n : Nat}
    (split : ∀ calls, whole calls ↔ ∃ a b, first a ∧ second b ∧ calls = a ++ b)
    (some_first : ∃ a, first a) (some_second : ∃ b, second b) :
    x.Always whole n ↔ ∃ m k, x.Always first m ∧ x.Always second k ∧ m + k = n := by
  obtain ⟨a, made⟩ := some_first
  obtain ⟨b, made'⟩ := some_second
  constructor
  · intro always
    have sum {c d : List Expr} (h : first c) (h' : second d) :
        x.barriersIn c + x.barriersIn d = n := by
      rw [← barriersIn_append]
      exact always _ ((split _).mpr ⟨c, d, h, h', rfl⟩)
    -- One part kept as it is, the sums leave a single value for the other.
    have both := sum made made'
    refine ⟨x.barriersIn a, x.barriersIn b, fun c h => ?_, fun d h => ?_, both⟩
    · have other := sum h made'
      omega
    · have other := sum made h
      omega
  · rintro ⟨m, k, always, always', rfl⟩ calls made
    obtain ⟨c, d, h, h', rfl⟩ := (split calls).mp made
    rw [barriersIn_append, always c h, always' d h']

private theorem certainBarriers_eager {e : Expr} (eager : e.isEager = true) :
    x.certainBarriers e =
      (x.certainBarriersAll e.children).map (· + if x.isBarrierCall e then 1 else 0) := by
  cases e with
  | binary span op lhs rhs =>
    have strict : op.isLogical = false := by simpa [Expr.isEager] using eager
    simp [certainBarriers, certainBarriersAll, Expr.children, addKnown_zero, strict, isBarrierCall,
      callTarget]
  | conditional | sizeofExpr => cases eager
  | _ => simp [certainBarriers, certainBarriersAll, Expr.children, addKnown_zero, isBarrierCall,
      callTarget]

private theorem always_eq_iff (calls : List Expr) (n : Nat) :
    x.Always (· = calls) n ↔ x.barriersIn calls = n :=
  ⟨fun always => always calls rfl, fun count _ same => same ▸ count⟩

private theorem always_evaluatesAll_of_forall {es : List Expr}
    (each : ∀ e ∈ es, ∀ n, x.Always (Evaluates e) n ↔ x.certainBarriers e = some n) (n : Nat) :
    x.Always (EvaluatesAll es) n ↔ x.certainBarriersAll es = some n := by
  induction es generalizing n with
  | nil => simp [Always, evaluatesAll_nil_iff, certainBarriersAll, barriersIn]
  | cons e es ih =>
    have rest := ih fun e member => each e (by simp [member])
    rw [x.always_append_iff (fun _ => evaluatesAll_cons_iff) (exists_evaluates e)
      (exists_evaluatesAll es), certainBarriersAll, addKnown_eq_some_iff]
    simp only [each e (by simp), rest]

private theorem always_or_iff {first second : List Expr → Prop} (n : Nat) :
    x.Always (fun calls => first calls ∨ second calls) n ↔
      x.Always first n ∧ x.Always second n := by
  constructor
  · intro always
    exact ⟨fun calls made => always calls (.inl made), fun calls made => always calls (.inr made)⟩
  · rintro ⟨always, always'⟩ calls (made | made)
    · exact always calls made
    · exact always' calls made

private theorem always_logical_iff {span : Span} {op : BinaryOp} {lhs rhs : Expr}
    (logical : op.isLogical = true)
    (left : ∀ n, x.Always (Evaluates lhs) n ↔ x.certainBarriers lhs = some n)
    (right : ∀ n, x.Always (Evaluates rhs) n ↔ x.certainBarriers rhs = some n) (n : Nat) :
    x.Always (Evaluates (.binary span op lhs rhs)) n ↔
      x.certainBarriers (.binary span op lhs rhs) = some n := by
  have both : x.Always (fun calls => ∃ a b, Evaluates lhs a ∧ Evaluates rhs b ∧
      calls = a ++ b) n ↔ addKnown (x.certainBarriers lhs) (x.certainBarriers rhs) = some n := by
    rw [x.always_append_iff (fun _ => Iff.rfl) (exists_evaluates lhs) (exists_evaluates rhs),
      addKnown_eq_some_iff]
    simp only [left, right]
  have either : x.Always (Evaluates (.binary span op lhs rhs)) n ↔
      x.certainBarriers lhs = some n ∧
        addKnown (x.certainBarriers lhs) (x.certainBarriers rhs) = some n := by
    rw [← left, ← both, ← always_or_iff]
    simp only [Always, evaluates_logical_iff logical]
  -- With and without the right operand the number is the same only if that operand adds none.
  rw [either, certainBarriers, if_pos logical]
  cases x.certainBarriers lhs with
  | none => simp [addKnown]
  | some m =>
    cases x.certainBarriers rhs with
    | none => simp [addKnown]
    | some k =>
      simp only [addKnown, Option.some.injEq]
      split
      · simp [*]
      · simp only [reduceCtorEq, iff_false]
        omega

private theorem always_conditional_iff {span : Span} {cond t f : Expr}
    (test : ∀ n, x.Always (Evaluates cond) n ↔ x.certainBarriers cond = some n)
    (first : ∀ n, x.Always (Evaluates t) n ↔ x.certainBarriers t = some n)
    (second : ∀ n, x.Always (Evaluates f) n ↔ x.certainBarriers f = some n) (n : Nat) :
    x.Always (Evaluates (.conditional span cond t f)) n ↔
      x.certainBarriers (.conditional span cond t f) = some n := by
  obtain ⟨a, made⟩ := exists_evaluates t
  rw [x.always_append_iff (fun _ => evaluates_conditional_iff) (exists_evaluates cond)
    ⟨a, .inl made⟩, certainBarriers]
  simp only [test, always_or_iff, first, second]
  by_cases same : x.certainBarriers t = x.certainBarriers f
  · simp [same, addKnown_eq_some_iff]
  · rw [if_neg same]
    constructor
    · rintro ⟨m, k, -, ⟨chosen, chosen'⟩, -⟩
      exact absurd (chosen.trans chosen'.symm) same
    · intro impossible
      cases impossible

/-- `certainBarriers` is exact: it is the number that all evaluations meet, and there is none if
two evaluations differ. -/
private theorem always_evaluates_iff (e : Expr) (n : Nat) :
    x.Always (Evaluates e) n ↔ x.certainBarriers e = some n := by
  induction e using Expr.children_induction generalizing n with
  | step e ih =>
    obtain eager | ⟨span, op, lhs, rhs, rfl, logical⟩ | ⟨span, cond, t, f, rfl⟩ |
      ⟨span, operand, rfl⟩ := e.eager_cases
    · have split (calls : List Expr) : Evaluates e calls ↔
          ∃ a b, EvaluatesAll e.children a ∧ b = e.ownCall ∧ calls = a ++ b := by
        simp [evaluates_eager_iff eager]
      rw [x.always_append_iff split (exists_evaluatesAll _) ⟨_, rfl⟩,
        x.certainBarriers_eager eager]
      simp [always_evaluatesAll_of_forall x ih, always_eq_iff, barriersIn_ownCall]
    · exact x.always_logical_iff logical (ih lhs (by simp [Expr.children]))
        (ih rhs (by simp [Expr.children])) n
    · exact x.always_conditional_iff (ih cond (by simp [Expr.children]))
        (ih t (by simp [Expr.children])) (ih f (by simp [Expr.children])) n
    · simp [Always, evaluates_sizeof_iff, certainBarriers, barriersIn]

private theorem evaluations_meet_iff (es : List Expr) (n : Nat) :
    (∀ calls, EvaluatesAll es calls → x.barriersIn calls = n) ↔
      x.certainBarriersAll es = some n :=
  x.always_evaluatesAll_of_forall (fun e _ => x.always_evaluates_iff e) n

private theorem barriersIn_condition {cond : Expr} {calls : List Expr}
    (asks : x.AsksIdentityOnly cond) (evaluation : Evaluates cond calls) :
    x.barriersIn calls = 0 := by
  rw [barriersIn, List.countP_eq_zero]
  intro c member
  obtain ⟨inside, call⟩ := mem_preorder_of_evaluates evaluation c member
  have identity := asks c inside call
  cases target : x.callTarget c with
  | none => simp [isBarrierCall, target]
  | some t => cases t <;> simp_all [isBarrierCall, identityCallee]

private theorem chain_runs_iff {s : Stmt} (closed : s.chain.final.isSome = true)
    (asks : ∀ l ∈ s.chain.links, x.AsksIdentityOnly l.cond) (n : Nat) :
    (∃ calls o, Runs s calls o ∧ x.barriersIn calls = n) ↔
      ∃ b ∈ s.chain.blocks, ∃ calls o, Runs b calls o ∧ x.barriersIn calls = n := by
  induction s using Stmt.chain.induct with
  | case1 span cond t => cases closed
  | case2 span cond t e ih =>
    have blocks : (Stmt.ifElse span cond t e).chain.blocks = t :: e.chain.blocks := rfl
    have test : x.AsksIdentityOnly cond := asks ⟨.ifElse span cond t e, cond, t⟩ List.mem_cons_self
    have rest := ih closed fun l member => asks l (List.mem_cons_of_mem _ member)
    obtain ⟨a, evaluation⟩ := exists_evaluates cond
    rw [blocks]
    constructor
    · rintro ⟨calls, o, run, count⟩
      cases run with
      | thenBranch evaluation run =>
        rw [barriersIn_append, x.barriersIn_condition test evaluation, Nat.zero_add] at count
        exact ⟨t, List.mem_cons_self, _, o, run, count⟩
      | elseBranch evaluation run =>
        rw [barriersIn_append, x.barriersIn_condition test evaluation, Nat.zero_add] at count
        obtain ⟨b, member, others⟩ := rest.mp ⟨_, o, run, count⟩
        exact ⟨b, List.mem_cons_of_mem t member, others⟩
    · have silent (b : List Expr) : x.barriersIn (a ++ b) = x.barriersIn b := by
        rw [barriersIn_append, x.barriersIn_condition test evaluation, Nat.zero_add]
      rintro ⟨b, member, calls, o, run, count⟩
      rcases List.mem_cons.mp member with rfl | member
      · exact ⟨_, o, .thenBranch evaluation run, (silent calls).trans count⟩
      · obtain ⟨calls, o, run, count⟩ := rest.mpr ⟨b, member, calls, o, run, count⟩
        exact ⟨_, o, .elseBranch evaluation run, (silent calls).trans count⟩
  | case3 s noThen noElse =>
    have single : s.chain.blocks = [s] := by simp [Stmt.chain, Chain.blocks]
    simp [single]

private theorem chain_meets_iff {s : Stmt} (balanced : x.ChainBalanced s.chain) (n : Nat) :
    (∀ calls o, Runs s calls o → x.barriersIn calls = n) ↔
      ∀ b ∈ s.chain.blocks, x.certainBarriersAll (evaluatedUntilBreak b.leaves) = some n := by
  obtain ⟨⟨e, final, -⟩, asks, k, -, steady⟩ := balanced
  have runs := x.chain_runs_iff (by simp [final]) asks
  have block (b : Stmt) (member : b ∈ s.chain.blocks) :
      (∀ calls o, Runs b calls o → x.barriersIn calls = n) ↔
        x.certainBarriersAll (evaluatedUntilBreak b.leaves) = some n := by
    have straight (l : Stmt) (leaf : l ∈ b.leaves) : l.isBranching = false :=
      ((steady b member).2.2 l (b.mem_preorder_of_mem_leaves l leaf)).1
    rw [← evaluations_meet_iff]
    simp only [runs_iff straight, RunsThrough]
    exact ⟨fun meets calls evaluation => meets calls _ ⟨evaluation, rfl⟩,
      fun meets calls _ run => meets calls run.1⟩
  constructor
  · intro meets b member
    rw [← block b member]
    intro calls o run
    obtain ⟨whole, o', run', count⟩ := (runs _).mpr ⟨b, member, calls, o, run, rfl⟩
    rw [← count, meets whole o' run']
  · intro certain calls o run
    obtain ⟨b, member, part, o', run', count⟩ := (runs _).mp ⟨calls, o, run, rfl⟩
    rw [← count, (block b member).mpr (certain b member) part o' run']

private theorem switch_meets_iff {body : Stmt} (balanced : x.SwitchBalanced body) (n : Nat) :
    (∀ calls o, Enters body calls o → x.barriersIn calls = n) ↔
      ∀ post ∈ behindLabels body.leaves,
        x.certainBarriersAll (evaluatedUntilBreak post) = some n := by
  have straight (l : Stmt) (leaf : l ∈ body.leaves) : l.isBranching = false :=
    balanced.straight l (body.mem_preorder_of_mem_leaves l leaf)
  simp only [enters_iff straight, EntersAmong, RunsThrough, ← evaluations_meet_iff]
  constructor
  · intro meets post behind calls evaluation
    exact meets calls _ ⟨post, behind, evaluation, rfl⟩
  · rintro meets calls o ⟨post, behind, evaluation, -⟩
    exact meets post behind calls evaluation

/-- A construct that was found balanced makes all its executions meet the same positive number of
barriers exactly if that number is certain for every block of the chain, or behind every label of
the switch. -/
theorem balanced_executions_iff :
    (∀ s : Stmt, x.judgeChain s.chain.flatten = .balanced →
      ((∃ k, 1 ≤ k ∧ ∀ calls o, Runs s calls o → x.barriersIn calls = k) ↔
        ∃ k, 1 ≤ k ∧ ∀ b ∈ s.chain.blocks,
          x.certainBarriersAll (evaluatedUntilBreak b.leaves) = some k)) ∧
    (∀ body : Stmt, x.judgeSwitch body.flattenSwitch = .balanced →
      ((∃ k, 1 ≤ k ∧ ∀ calls o, Enters body calls o → x.barriersIn calls = k) ↔
        ∃ k, 1 ≤ k ∧ ∀ post ∈ behindLabels body.leaves,
          x.certainBarriersAll (evaluatedUntilBreak post) = some k)) := by
  constructor
  · intro s judged
    simp only [x.chain_meets_iff ((x.judgeChain_flatten_iff s).mp judged)]
  · intro body judged
    simp only [x.switch_meets_iff ((x.judgeSwitch_flatten_iff body).mp judged)]

theorem balanced_executions_iff_sample :
    (Context.mk {} {}).judgeChain chainSample.chain.flatten = .balanced ∧
      (∃ k, 1 ≤ k ∧ ∀ calls o, Runs chainSample calls o →
        (Context.mk {} {}).barriersIn calls = k) ∧
      (Context.mk {} {}).judgeSwitch switchSample.flattenSwitch = .balanced ∧
      ∃ k, 1 ≤ k ∧ ∀ calls o, Enters switchSample calls o →
        (Context.mk {} {}).barriersIn calls = k := by
  have chain : (Context.mk {} {}).judgeChain chainSample.chain.flatten = .balanced := by decide
  have switch : (Context.mk {} {}).judgeSwitch switchSample.flattenSwitch = .balanced := by decide
  have executions := balanced_executions_iff (Context.mk {} {})
  refine ⟨chain, (executions.1 _ chain).mpr ⟨1, Nat.le_refl 1, ?_⟩, switch,
    (executions.2 _ switch).mpr ⟨1, Nat.le_refl 1, ?_⟩⟩
  · decide
  · decide

/-- `if (0) 0 ? barrier() : barrier(); else { barrier(); barrier(); }` -/
private def lopsided : Stmt :=
  .ifElse ⟨0, 1⟩ (.int ⟨0, 1⟩ 0)
    (.expr ⟨0, 1⟩ (.conditional ⟨0, 1⟩ (.int ⟨0, 1⟩ 0) (.invoke "barrier") (.invoke "barrier")))
    (.compound ⟨0, 1⟩ [.expr ⟨0, 1⟩ (.invoke "barrier"), .expr ⟨0, 1⟩ (.invoke "barrier")])

/-- A chain can be found balanced although one branch meets a barrier less than the other. -/
theorem balanced_executions_differ :
    (Context.mk {} {}).judgeChain lopsided.chain.flatten = .balanced ∧
      ¬ ∃ k, 1 ≤ k ∧ ∀ calls o, Runs lopsided calls o →
        (Context.mk {} {}).barriersIn calls = k := by
  have judged : (Context.mk {} {}).judgeChain lopsided.chain.flatten = .balanced := by decide
  have balanced := (judgeChain_flatten_iff (Context.mk {} {}) lopsided).mp judged
  refine ⟨judged, ?_⟩
  rintro ⟨k, -, meets⟩
  have certain := (chain_meets_iff (Context.mk {} {}) balanced k).mp meets
  have first := certain _ List.mem_cons_self
  have second := certain _ (List.mem_cons_of_mem _ List.mem_cons_self)
  have one : some 1 = some k := first
  have two : some 2 = some k := second
  cases one.trans two.symm

end Context

end Lockstep
