import Lockstep.Taint.Scan
/-!
How dependence spreads: a declaration that receives a dependent value is put on record, unless it
is on record already. Values that depend on nothing leave no trace.
-/

set_option autoImplicit false
set_option relaxedAutoImplicit false

namespace Lockstep

/-- What is said about a declaration, described by `target`, that receives a dependent value. -/
def Dependence.message (d : Dependence) (target : String) : String :=
  match d with
  | identityCall callee _ =>
    "assignment of identity-dependent " ++ target ++ " from identity function call '" ++ callee ++ "'"
  | reference r =>
    "inferred assignment of identity-dependent value to " ++ target ++ ", copied from " ++ r.describe

def Dependence.copiedFrom : Dependence → Option Key
  | identityCall _ _ => none
  | reference r => some r.key

namespace Context

/-- What makes `target` depend on an identity once it receives `value`; `none` if nothing does or
if it is on record already. -/
def influx (x : Context) (store : TaintStore) (target : Key) (value : Expr) : Option Dependence :=
  if store.contains target then none else x.dependence store value

/-- The store after `target` has received `value` in the event at `span`. -/
def propagate (x : Context) (store : TaintStore) (target : Key) (value : Expr) (span : Span) :
    TaintStore :=
  match x.influx store target value with
  | some d => store.record target ⟨span, d.message (x.describe target), d.copiedFrom⟩
  | none => store

end Context

end Lockstep
