import Lockstep.Check.Finding
import Lockstep.Taint.Scan
import Lockstep.Text.Location
/-!
Kernels that never ask which work-item they run as could run as a single one, but for a barrier.
-/

set_option autoImplicit false
set_option relaxedAutoImplicit false

namespace Lockstep

/-- The finding about a kernel that holds a barrier and no call of an identity function. -/
def checkKernel (x : Context) (source : SourceText) (f : Function) : Option Finding := do
  let body ← f.body
  let calls := body.nodes.filterMap Node.call?
  let barrier ← calls.find? x.isBarrierCall
  if f.isKernel && !calls.any (fun e => (x.identityCallee e).isSome) then
    some {
      check := some .singleWorkItem
      severity := .warning
      span := f.name.span
      message :=
        "kernel function '" ++ f.name.name ++ "' does not call an identity function and may be " ++
          "treated as single-work-item; barrier call at " ++
          (source.spanLocation barrier.span).toText ++ " forces NDRange execution"
      notes := [] }
  else none

end Lockstep
