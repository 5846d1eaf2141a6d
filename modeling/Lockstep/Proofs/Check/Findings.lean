import Lockstep.Check.Barriers
import Lockstep.Check.Cycles
import Lockstep.Check.Kernels
import Lockstep.Check.Loops
/-!
Every finding names the check it comes from, and the codes of the checks are told apart. A finding
about barriers stands at a barrier, one about a loop at the condition of the loop.
-/

set_option autoImplicit false
set_option relaxedAutoImplicit false

namespace Lockstep

private theorem Check.code_injective {c d : Check} (same : c.code = d.code) : c = d := by
  revert same
  cases c <;> cases d <;> decide

theorem Finding.code_eq_iff (f : Finding) (c : Check) :
    f.code = some c.code ↔ f.check = some c := by
  rw [code, Option.map_eq_some_iff]
  constructor
  · rintro ⟨d, check, same⟩
    rw [check, Check.code_injective same]
  · intro check
    exact ⟨c, check, rfl⟩

theorem check_of_checkKernel {x : Context} {source : SourceText} {fn : Function} {f : Finding}
    (found : checkKernel x source fn = some f) : f.check = some .singleWorkItem := by
  simp only [checkKernel, Option.bind_eq_bind, Option.bind_eq_some_iff] at found
  obtain ⟨body, -, barrier, -, found⟩ := found
  split at found
  · cases found
    rfl
  · cases found

theorem check_of_checkCycle {m : CallMap} {callee : String} {span : Span} {maxHops : Nat}
    {f : Finding} (found : checkCycle m callee span maxHops = some f) :
    f.check = some .recursion := by
  obtain ⟨hops, -, rfl⟩ := Option.map_eq_some_iff.mp found
  rfl

theorem exists_checkLoopCondition_iff {x : Context} {store : TaintStore} {kind : LoopKind}
    {cond : Expr} {span : Span} :
    (∃ f, checkLoopCondition x store kind cond = some f ∧ f.span = span) ↔
      (x.dependence store cond).isSome = true ∧ cond.span = span := by
  cases dependence : x.dependence store cond <;> simp [checkLoopCondition, dependence]

theorem check_of_checkLoopCondition {x : Context} {store : TaintStore} {kind : LoopKind}
    {cond : Expr} {f : Finding} (found : checkLoopCondition x store kind cond = some f) :
    f.check = some .backwardBranch := by
  obtain ⟨d, -, rfl⟩ := Option.map_eq_some_iff.mp found
  rfl

namespace Context

theorem map_barrierFindings (source : SourceText) (store : TaintStore) (kind : Conditional)
    (cond : Expr) (d : Dependence) (barriers : List Expr) (verdict : Option Verdict) :
    (barrierFindings source store kind cond d barriers verdict).map (fun f => (f.code, f.span)) =
      barriers.map fun b => (some "W0201", b.span) := by
  simp [barrierFindings, Finding.code, Check.code]

private theorem check_of_mem_barrierFindings {source : SourceText} {store : TaintStore}
    {kind : Conditional} {cond : Expr} {d : Dependence} {barriers : List Expr}
    {verdict : Option Verdict} {f : Finding}
    (found : f ∈ barrierFindings source store kind cond d barriers verdict) :
    f.check = some .barrier := by
  obtain ⟨b, -, rfl⟩ := List.mem_map.mp found
  rfl

variable {x : Context} {source : SourceText} {store : TaintStore} {s : Stmt} {f : Finding}

theorem check_of_mem_checkLoopBarriers {kind : LoopKind} {cond : Expr}
    (found : f ∈ x.checkLoopBarriers source store kind s cond) : f.check = some .barrier := by
  unfold checkLoopBarriers at found
  split at found
  · cases found
  · exact check_of_mem_barrierFindings found
  · cases found

theorem check_of_mem_checkChain (found : f ∈ x.checkChain source store s) :
    f.check = some .barrier := by
  unfold checkChain at found
  split at found
  · cases found
  · cases found
  · exact check_of_mem_barrierFindings found

theorem check_of_mem_checkSwitch {cond : Expr} {body : Stmt}
    (found : f ∈ x.checkSwitch source store s cond body) : f.check = some .barrier := by
  unfold checkSwitch at found
  split at found
  · cases found
  · cases found
  · exact check_of_mem_barrierFindings found

end Context

end Lockstep
