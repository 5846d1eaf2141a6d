import Lockstep.Calls.CallMap
import Lockstep.Check.Finding
/-!
Calls that lead back to the function called, which kernel code does not allow.
-/

set_option autoImplicit false
set_option relaxedAutoImplicit false

namespace Lockstep

def Call.note (c : Call) : Note := ⟨c.span, c.callee ++ " is called by " ++ c.caller⟩

/-- The finding about a call that closes the cycle `hops`. -/
def recursiveCall (callee : String) (span : Span) (hops : List Call) : Finding where
  check := some .recursion
  severity := .error
  span := span
  message :=
    "the call to function '" ++ callee ++ "' is recursive, which is not supported in kernel code"
  notes := hops.map Call.note

/-- The finding about a call, if it closes a cycle of at most `maxHops` calls. -/
def checkCycle (m : CallMap) (callee : String) (span : Span) (maxHops : Nat) : Option Finding :=
  (m.findCycle callee maxHops).map (recursiveCall callee span)

end Lockstep
