import Lockstep.Proofs.Analysis.Raised
/-!
Contexts that agree. Where names stand for the same declarations and calls reach the same targets,
a construct gets the same verdict, the same barriers stand inside it, and the same kernels are
found. Neither the policy for indices nor the choice of checks has a say in these. Recursion depends
on the calls that were met, and on nothing else.
-/

set_option autoImplicit false
set_option relaxedAutoImplicit false

namespace Lockstep

namespace Context

/-- Names stand for the same declarations and calls reach the same targets. -/
structure Alike (x y : Context) : Prop where
  names : x.names = y.names
  callTarget : x.callTarget = y.callTarget

theorem alike_of_settings (names : Resolution) {s t : Settings}
    (identities : s.identityFunctions = t.identityFunctions)
    (barriers : s.barrierFunctions = t.barrierFunctions) : Alike ⟨names, s⟩ ⟨names, t⟩ where
  names := rfl
  callTarget := by
    have identity : s.isIdentity = t.isIdentity := by
      funext name
      rw [Settings.isIdentity, Settings.isIdentity, identities]
    have barrier : s.isBarrier = t.isBarrier := by
      funext name
      rw [Settings.isBarrier, Settings.isBarrier, barriers]
    funext e
    cases e with
    | call span callee args =>
      cases named : names.calleeName callee <;>
        simp [Context.callTarget, named, identity, barrier]
    | _ => rfl

namespace Alike

variable {x y : Context} (alike : Alike x y)

include alike

theorem identityCallee : x.identityCallee = y.identityCallee := by
  funext e
  simp only [Context.identityCallee, alike.callTarget]

theorem isBarrierCall : x.isBarrierCall = y.isBarrierCall := by
  funext e
  simp only [Context.isBarrierCall, alike.callTarget]

theorem keyOf : x.keyOf = y.keyOf := by
  funext e
  simp only [Context.keyOf, alike.names]

theorem nameOf : x.nameOf = y.nameOf := by
  funext k
  cases k <;> simp only [Context.nameOf, alike.names]

theorem receipt (ev : Event) : ev.receipt x = ev.receipt y := by
  cases ev <;> simp only [Event.receipt, alike.keyOf, alike.names]

theorem barrierCalls (s : Stmt) : x.barrierCalls s = y.barrierCalls s := by
  simp only [Context.barrierCalls, alike.isBarrierCall]

theorem step (n : Node) : x.step n = y.step n := by
  cases n with
  | stmt s => rfl
  | expr e => simp only [Context.step, alike.callTarget]

theorem judgeChain (flat : Flat) : x.judgeChain flat = y.judgeChain flat := by
  have nodes (t : Tally) (ns : List (Mark × Node)) :
      x.judgeChainNodes t ns = y.judgeChainNodes t ns := by
    induction ns generalizing t with
    | nil => rfl
    | cons first ns ih =>
      obtain ⟨mark, node⟩ := first
      cases mark <;> simp only [judgeChainNodes, ih, alike.identityCallee, alike.step]
  simp only [Context.judgeChain, nodes]

theorem judgeSwitch (flat : Flat) : x.judgeSwitch flat = y.judgeSwitch flat := by
  have nodes (t : Tally) (next : Nat) (ns : List (Mark × Node)) :
      x.judgeSwitchNodes t next ns = y.judgeSwitchNodes t next ns := by
    induction ns generalizing t next with
    | nil => rfl
    | cons first ns ih =>
      obtain ⟨mark, node⟩ := first
      cases mark <;> simp only [judgeSwitchNodes, ih, alike.step]
  simp only [Context.judgeSwitch, nodes]

theorem checkKernel (source : SourceText) (f : Function) :
    Lockstep.checkKernel x source f = Lockstep.checkKernel y source f := by
  simp only [Lockstep.checkKernel, alike.identityCallee, alike.isBarrierCall]

section Visible

variable (visible : x.settings.indexPolicy = y.settings.indexPolicy) (source : SourceText) (store : TaintStore)

include visible

theorem dependence (e : Expr) : x.dependence store e = y.dependence store e := by
  have reference : x.taintedRef store = y.taintedRef store := by
    funext v
    simp only [taintedRef, alike.keyOf, alike.nameOf]
  simp only [Context.dependence, findIdentityCall, scan, visible, alike.identityCallee, reference]

theorem propagate (target : Key) (value : Expr) (span : Span) :
    x.propagate store target value span = y.propagate store target value span := by
  simp only [Context.propagate, influx, describe, alike.nameOf, alike.dependence visible]

theorem checkLoopBarriers (kind : LoopKind) (s : Stmt) (cond : Expr) :
    x.checkLoopBarriers source store kind s cond = y.checkLoopBarriers source store kind s cond := by
  simp only [Context.checkLoopBarriers, alike.barrierCalls, alike.dependence visible]

theorem checkChain (s : Stmt) : x.checkChain source store s = y.checkChain source store s := by
  simp only [Context.checkChain, chainVerdict, dependentLink, alike.barrierCalls, alike.judgeChain,
    alike.dependence visible]

theorem checkSwitch (s : Stmt) (cond : Expr) (body : Stmt) :
    x.checkSwitch source store s cond body = y.checkSwitch source store s cond body := by
  simp only [Context.checkSwitch, switchVerdict, alike.barrierCalls, alike.judgeSwitch,
    alike.dependence visible]

theorem checkLoopCondition (kind : LoopKind) (cond : Expr) :
    Lockstep.checkLoopCondition x store kind cond =
      Lockstep.checkLoopCondition y store kind cond := by
  simp only [Lockstep.checkLoopCondition, alike.dependence visible]

end Visible

end Alike

end Context

namespace Analysis

variable {s t : Subject} {a b : Analysis}

theorem raised_singleWorkItem_congr (alike : s.context.Alike t.context) (source : s.source = t.source)
    (ev : Event) : raised s a .singleWorkItem ev = raised t b .singleWorkItem ev := by
  simp only [raised, source, alike.checkKernel]

theorem raised_recursion_congr (names : s.context.names = t.context.names)
    (depth : s.context.settings.maxRecursionDepth = t.context.settings.maxRecursionDepth)
    (calls : a.calls = b.calls) (ev : Event) :
    raised s a .recursion ev = raised t b .recursion ev := by
  have site : raisedAtCall s a = raisedAtCall t b := by
    funext site
    simp only [raisedAtCall, calls, depth]
  simp only [raised, names, site]

end Analysis

end Lockstep
