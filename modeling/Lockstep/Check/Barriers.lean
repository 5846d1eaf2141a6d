import Lockstep.Branch.Verdict
import Lockstep.Check.Finding
import Lockstep.Text.Location
/-!
Barriers under a condition that differs between work-items: unless the construct is known to make
all of them meet the same positive number of barriers, each barrier inside it is a finding. Loops
are never excused.
-/

set_option autoImplicit false
set_option relaxedAutoImplicit false

namespace Lockstep

/-- The constructs a barrier can stand under. -/
inductive Conditional where
  | loop (kind : LoopKind)
  | ifElse
  | switch
deriving DecidableEq, Repr

def Conditional.words : Conditional → String
  | loop .forLoop => "for loop"
  | loop .whileLoop => "while loop"
  | loop .doLoop => "do loop"
  | ifElse => "if/else"
  | switch => "switch"

/-- The note that a verdict adds to a finding about the condition at `cond`. -/
def Verdict.note (cond : Span) : Verdict → List Note
  | balanced => []
  | unbalanced why =>
    [⟨cond, "not every work-item is guaranteed to reach a barrier: " ++ why.message⟩]
  | unknown span why =>
    [⟨span, "cannot prove that every path reaches the same number of barriers: " ++ why.message⟩]

namespace Context

def barrierCalls (x : Context) (s : Stmt) : List Expr :=
  (s.preorder.filterMap Node.call?).filter x.isBarrierCall

/-- One finding for each barrier under the condition `cond`. -/
def barrierFindings (source : SourceText) (store : TaintStore) (kind : Conditional) (cond : Expr)
    (d : Dependence) (barriers : List Expr) (verdict : Option Verdict) : List Finding :=
  let (reason, trace) := match d with
    | .identityCall _ _ => ("identity function call", [])
    | .reference r => ("reference to identity-dependent " ++ r.describe, store.trace r.key)
  let message :=
    "barrier inside " ++ kind.words ++ " may not be reachable by all work-items due to " ++ reason ++
      " in condition at " ++ (source.spanLocation cond.span).toText
  let notes := trace ++ verdict.toList.flatMap (Verdict.note cond.span)
  barriers.map fun b => ⟨some .barrier, .warning, b.span, message, notes⟩

/-- The barriers inside a loop whose condition depends on an identity. -/
def checkLoopBarriers (x : Context) (source : SourceText) (store : TaintStore) (kind : LoopKind)
    (s : Stmt) (cond : Expr) : List Finding :=
  match x.barrierCalls s, x.dependence store cond with
  | [], _ => []
  | barriers, some d => barrierFindings source store (.loop kind) cond d barriers none
  | _, none => []

def dependentLink (x : Context) (store : TaintStore) (c : Chain) : Option (Expr × Dependence) :=
  c.links.findSome? fun l => (x.dependence store l.cond).map fun d => (l.cond, d)

/-- The verdict on a chain, if it holds a barrier and one of its conditions depends on an identity;
with it that condition and the barriers. -/
def chainVerdict (x : Context) (store : TaintStore) (s : Stmt) :
    Option (Verdict × Expr × Dependence × List Expr) :=
  match x.barrierCalls s, x.dependentLink store s.chain with
  | [], _ => none
  | barriers, some (cond, d) => some (x.judgeChain s.chain.flatten, cond, d, barriers)
  | _, none => none

/-- The barriers inside a chain that is not known to balance them. -/
def checkChain (x : Context) (source : SourceText) (store : TaintStore) (s : Stmt) : List Finding :=
  match x.chainVerdict store s with
  | none | some (.balanced, _) => []
  | some (verdict, cond, d, barriers) =>
    barrierFindings source store .ifElse cond d barriers (some verdict)

/-- The verdict on a switch, if it holds a barrier and its condition depends on an identity. -/
def switchVerdict (x : Context) (store : TaintStore) (s : Stmt) (cond : Expr) (body : Stmt) :
    Option (Verdict × Dependence × List Expr) :=
  match x.barrierCalls s, x.dependence store cond with
  | [], _ => none
  | barriers, some d => some (x.judgeSwitch body.flattenSwitch, d, barriers)
  | _, none => none

/-- The barriers inside a switch that is not known to balance them. -/
def checkSwitch (x : Context) (source : SourceText) (store : TaintStore) (s : Stmt) (cond : Expr)
    (body : Stmt) : List Finding :=
  match x.switchVerdict store s cond body with
  | none | some (.balanced, _) => []
  | some (verdict, d, barriers) =>
    barrierFindings source store .switch cond d barriers (some verdict)

end Context

end Lockstep
