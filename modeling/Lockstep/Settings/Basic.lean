/-!
What a run is told: which functions tell work-items apart, which ones synchronise them, how far call
cycles are followed, whether an array index carries dependence, and which checks run.
-/

set_option autoImplicit false
set_option relaxedAutoImplicit false

namespace Lockstep

/-- Does an index that differs between work-items make the indexed value differ? -/
inductive IndexPolicy where
  | propagate | exclude
deriving DecidableEq, Repr

/-- The checks, each of which can be switched off. -/
inductive Check where
  | backwardBranch | barrier | recursion | singleWorkItem
deriving DecidableEq, Repr

def Check.code : Check → String
  | backwardBranch => "W0101"
  | barrier => "W0201"
  | recursion => "E0301"
  | singleWorkItem => "W0401"

structure EnabledChecks where
  backwardBranch : Bool := true
  barrier : Bool := true
  recursion : Bool := true
  singleWorkItem : Bool := true
deriving DecidableEq, Repr

namespace EnabledChecks

def isEnabled (c : EnabledChecks) : Check → Bool
  | .backwardBranch => c.backwardBranch
  | .barrier => c.barrier
  | .recursion => c.recursion
  | .singleWorkItem => c.singleWorkItem

def disable (c : EnabledChecks) : Check → EnabledChecks
  | .backwardBranch => { c with backwardBranch := false }
  | .barrier => { c with barrier := false }
  | .recursion => { c with recursion := false }
  | .singleWorkItem => { c with singleWorkItem := false }

end EnabledChecks

structure Settings where
  /-- Functions that return an index of their own for every work-item. -/
  identityFunctions : List String := ["get_global_id", "get_local_id"]
  /-- Functions that all work-items of a group have to reach together. -/
  barrierFunctions : List String := ["barrier", "work_group_barrier"]
  /-- Longer cycles of calls go unreported. -/
  maxRecursionDepth : Nat := 5
  indexPolicy : IndexPolicy := .propagate
  checks : EnabledChecks := {}
deriving DecidableEq, Repr

namespace Settings

def isIdentity (s : Settings) (name : String) : Bool := s.identityFunctions.contains name

def isBarrier (s : Settings) (name : String) : Bool := s.barrierFunctions.contains name

def enabled (s : Settings) (check : Check) : Bool := s.checks.isEnabled check

def disable (s : Settings) (check : Check) : Settings := { s with checks := s.checks.disable check }

end Settings

end Lockstep
