import Lockstep.Token.Basic
/-!
What can be wrong at a point of the token sequence. Of all points where reading got stuck the
furthest one counts; what was tried there is collected into one failure, and its message lists the
alternatives in the order in which they were tried.
-/

set_option autoImplicit false
set_option relaxedAutoImplicit false

namespace Lockstep

inductive Expected where
  | token (t : Token)
  | identifier
  | anyToken
  | somethingElse
  | endOfInput
deriving DecidableEq, Repr

inductive Reason where
  /-- A type in a cast position that names no type known to be one. -/
  | notAType
  | unexpected (expected : List Expected) (found : Option Token)
deriving DecidableEq, Repr

/-- A point where reading got stuck: its byte offset, the range to report, and the reason. -/
structure Failure where
  offset : Nat
  span : Span
  reason : Reason
deriving DecidableEq, Repr

def Expected.display : Expected → String
  | token t => "'" ++ t.display ++ "'"
  | identifier => "'<ident>'"
  | anyToken => "any"
  | somethingElse => "something else"
  | endOfInput => "end of input"

/-- Items of a list as an English enumeration; an empty list stands for anything else. -/
def enumerate : List String → String
  | [] => "something else"
  | [x] => x
  | xs => ", ".intercalate xs.dropLast ++ ", or " ++ xs.getLastD ""

def Reason.message : Reason → String
  | notAType => "expected a type name"
  | unexpected expected found =>
    let seen := match found with
      | some t => "'" ++ t.display ++ "'"
      | none => "end of input"
    "found " ++ seen ++ " expected " ++ enumerate (expected.map Expected.display)

/-- The elements of `xs`, then those of `ys` that are not among them. -/
def unite (xs ys : List Expected) : List Expected :=
  xs ++ ys.filter fun y => !xs.contains y

/-- Two reasons at one point: a bad type outweighs a list of alternatives, the longer list leads. -/
def Reason.merge : Reason → Reason → Reason
  | notAType, _ => notAType
  | unexpected _ _, notAType => notAType
  | unexpected old found, unexpected new _ =>
    if old.length < new.length then unexpected (unite new old) found
    else unexpected (unite old new) found

namespace Failure

/-- The further of two failures; at one point the reasons merge and the older range stays. -/
def furthest (old : Option Failure) (new : Failure) : Failure :=
  match old with
  | none => new
  | some f =>
    if f.offset < new.offset then new
    else if f.offset = new.offset then { f with reason := f.reason.merge new.reason }
    else f

/-- Note that `expected` was tried at `offset`, where `found` stands. -/
def tried (old : Option Failure) (offset : Nat) (span : Span) (expected : Expected)
    (found : Option Token) : Failure :=
  let new : Failure := ⟨offset, span, .unexpected [expected] found⟩
  match old with
  | none => new
  | some f =>
    if f.offset < offset then new
    else if f.offset = offset then
      match f.reason with
      | .notAType => f
      | .unexpected es seen =>
        let es := if es.contains expected then es else es ++ [expected]
        { f with reason := .unexpected es (seen <|> found) }
    else f

end Failure

end Lockstep
