import Lockstep.Settings.Basic
import Lockstep.Text.Span
/-!
Findings: what a check has to say about a place, and the notes that explain how it came about.
-/

set_option autoImplicit false
set_option relaxedAutoImplicit false

namespace Lockstep

inductive Severity where
  | note | warning | error
deriving DecidableEq, Repr

def Severity.word : Severity → String
  | note => "note"
  | warning => "warning"
  | error => "error"

/-- A finding; its code is that of the check it comes from. -/
structure Finding where
  check : Option Check
  severity : Severity
  span : Span
  message : String
  notes : List Note
deriving DecidableEq, Repr

namespace Finding

def code (f : Finding) : Option String := f.check.map Check.code

def isError (f : Finding) : Bool := f.severity = .error

def toText (f : Finding) : String :=
  let code := match f.code with
    | some code => "[" ++ code ++ "]"
    | none => ""
  f.severity.word ++ code ++ ": " ++ f.message

end Finding

end Lockstep
