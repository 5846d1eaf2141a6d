import Lockstep.Text.Span
/-!
Who calls whom, as far as it was met. A call counts for every function whose range holds the start
of the call; a function defined twice keeps its latest range. Cycles are searched backward, from a
callee to its callers, up to a given number of hops.
-/

set_option autoImplicit false
set_option relaxedAutoImplicit false

namespace Lockstep

/-- `callee` is called by `caller` at `span`. -/
structure Call where
  callee : String
  caller : String
  span : Span
deriving DecidableEq, Repr

/-- Functions with their ranges, ordered by name, and calls in the order in which they were met. -/
structure CallMap where
  ranges : List (String × Span) := []
  calls : List Call := []
deriving DecidableEq, Repr

/-- Set the range of a function, keeping the order by name. -/
def setRange (name : String) (range : Span) : List (String × Span) → List (String × Span)
  | [] => [(name, range)]
  | (n, r) :: rest =>
    if name < n then (name, range) :: (n, r) :: rest
    else if name = n then (name, range) :: rest
    else (n, r) :: setRange name range rest

namespace CallMap

def recordFunction (m : CallMap) (name : String) (range : Span) : CallMap :=
  { m with ranges := setRange name range m.ranges }

def enclosing (m : CallMap) (span : Span) : List String :=
  (m.ranges.filter fun (_, r) => r.start ≤ span.start && span.start ≤ r.stop).map Prod.fst

def recordCall (m : CallMap) (callee : String) (span : Span) : CallMap :=
  { m with calls := m.calls ++ (m.enclosing span).map fun caller => ⟨callee, caller, span⟩ }

def callersOf (m : CallMap) (callee : String) : List Call := m.calls.filter (·.callee == callee)

/-- A chain of at most `hops` calls from `current` back to `target`, the first that is found. -/
def search (m : CallMap) (target : String) : Nat → String → Option (List Call)
  | 0, _ => none
  | hops + 1, current =>
    (m.callersOf current).findSome? fun call =>
      if call.caller = target then some [call]
      else (m.search target hops call.caller).map (call :: ·)

/-- A chain of at most `maxHops` calls from a function back to itself. -/
def findCycle (m : CallMap) (target : String) (maxHops : Nat) : Option (List Call) :=
  m.search target maxHops target

end CallMap

end Lockstep
