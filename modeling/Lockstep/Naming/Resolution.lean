import Lockstep.Tree.Item
/-!
What the names of a source file stand for. Declarations are numbered as they are met, each kind by a
counter of its own, and variables and fields are known by their numbers; so two variables of one name
stay apart and two ways to one field come together. References are looked up by the range of the
expression.
-/

set_option autoImplicit false
set_option relaxedAutoImplicit false

namespace Lockstep

/-- A declared variable or parameter. Its structure, if it has one, is a position in the table of
structures. -/
structure Variable where
  name : String
  span : Span
  struct : Option Nat
deriving DecidableEq, Repr

/-- A field; one that no structure declares has neither owner nor range. -/
structure FieldInfo where
  name : String
  owner : Option String
  span : Option Span
  struct : Option Nat
deriving DecidableEq, Repr

/-- A structure with the numbers of its fields. -/
structure StructInfo where
  name : String
  fields : List (String × Nat)
deriving DecidableEq, Repr

/-- A function: where it is first named, and what any of its declarations says about it. -/
structure FunctionInfo where
  number : Nat
  name : String
  nameSpan : Span
  isKernel : Bool
  hasBody : Bool
deriving DecidableEq, Repr

/-- The tables of one source file. Lists of references hold the newest entry first. -/
structure Resolution where
  vars : List Variable := []
  fields : List FieldInfo := []
  structs : List StructInfo := []
  functions : List FunctionInfo := []
  varDecls : List (Span × Nat) := []
  varRefs : List (Span × Nat) := []
  memberRefs : List (Span × Nat) := []

/-- The name, if the expression is nothing but one. -/
def Expr.bareName? : Expr → Option String
  | .name _ n => some n
  | _ => none

namespace Resolution

def varRef (r : Resolution) : Expr → Option Nat
  | .name span _ => r.varRefs.lookup span
  | _ => none

def memberRef (r : Resolution) : Expr → Option Nat
  | .member span _ _ _ => r.memberRefs.lookup span
  | _ => none

/-- The function that a callee names: a bare name that stands for no variable. -/
def calleeName (r : Resolution) : Expr → Option String
  | .name span n => if (r.varRefs.lookup span).isNone then some n else none
  | _ => none

def functionRef (r : Resolution) (e : Expr) : Option String :=
  (r.calleeName e).filter fun n => r.functions.any (·.name == n)

def varNamed (r : Resolution) (name : String) : Option Nat :=
  r.vars.findIdx? (·.name == name)

def fieldNamed (r : Resolution) (name : String) : Option Nat :=
  r.fields.findIdx? (·.name == name)

end Resolution

inductive DeclKind where
  | var | field | function
deriving DecidableEq, Repr

/-- The numbers that the next declaration of each kind gets. -/
structure Counters where
  var : Nat := 0
  field : Nat := 0
  function : Nat := 0
deriving DecidableEq, Repr

namespace Counters

def next (k : Counters) : DeclKind → Nat
  | .var => k.var
  | .field => k.field
  | .function => k.function

def advance (k : Counters) : DeclKind → Counters
  | .var => { k with var := k.var + 1 }
  | .field => { k with field := k.field + 1 }
  | .function => { k with function := k.function + 1 }

end Counters

/-- The numbers that declarations get in order of appearance. -/
def numbers : List DeclKind → List Nat :=
  let rec go (k : Counters) : List DeclKind → List Nat
    | [] => []
    | d :: ds => k.next d :: go (k.advance d) ds
  go {}

end Lockstep
