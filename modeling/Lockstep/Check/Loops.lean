import Lockstep.Check.Finding
import Lockstep.Taint.Scan
/-!
Loops whose condition differs between work-items run a different number of rounds for each.
-/

set_option autoImplicit false
set_option relaxedAutoImplicit false

namespace Lockstep

def LoopKind.word : LoopKind → String
  | forLoop => "for"
  | whileLoop => "while"
  | doLoop => "do"

/-- The finding about a loop condition, if it depends on an identity. -/
def checkLoopCondition (x : Context) (store : TaintStore) (kind : LoopKind) (cond : Expr) :
    Option Finding :=
  (x.dependence store cond).map fun d =>
    let (reason, notes) := match d with
      | .identityCall _ _ => ("identity function call", [])
      | .reference r => ("reference to " ++ r.describe, store.trace r.key)
    { check := some .backwardBranch
      severity := .warning
      span := cond.span
      message :=
        "backward branch (" ++ kind.word ++ " loop) is identity-dependent due to " ++ reason ++
          " and may cause performance degradation"
      notes }

end Lockstep
