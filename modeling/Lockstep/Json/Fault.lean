import Lockstep.Number.Shortest
import Lockstep.Text.Escaped
/-!
What can be wrong with a JSON text that is read for data of a known shape: it ends too early, it is
not JSON, or it is JSON of another shape. The first fault from the left is the one reported.
-/

set_option autoImplicit false
set_option relaxedAutoImplicit false

namespace Lockstep

inductive Unfinished where
  | list | object | string | value
deriving DecidableEq, Repr

inductive Malformed where
  | expectedColon
  | expectedListCommaOrEnd
  | expectedObjectCommaOrEnd
  | expectedIdent
  | expectedValue
  | invalidEscape
  | invalidNumber
  | numberOutOfRange
  | controlCharacter
  | keyMustBeString
  | loneSurrogate
  | trailingComma
  | trailingCharacters
  | unexpectedEndOfHexEscape
deriving DecidableEq, Repr

/-- A number as it was read. Whole numbers of up to 64 bits stay exact. -/
inductive JsonNumber where
  | natural (n : Nat)
  | negative (n : Nat)
  | floating (isNegative : Bool) (magnitude : Binary64)
deriving DecidableEq, Repr

/-- A value that was found where another was expected. -/
inductive Found where
  | null
  | boolean (b : Bool)
  | number (n : JsonNumber)
  | string (s : String)
  | sequence
  | map
deriving DecidableEq, Repr

/-- Data of another shape than the one wanted. -/
inductive Misfit where
  | wrongType (found : Found) (expected : String)
  | wrongValue (found : Found) (expected : String)
  | unknownField (name : String) (expected : List String)
  | duplicateField (name : String)
  | unknownVariant (name : String) (expected : List String)
deriving DecidableEq, Repr

inductive JsonFault where
  | unfinished (what : Unfinished)
  | malformed (what : Malformed)
  | misfit (what : Misfit)
deriving DecidableEq, Repr

def Unfinished.message : Unfinished → String
  | list => "EOF while parsing a list"
  | object => "EOF while parsing an object"
  | string => "EOF while parsing a string"
  | value => "EOF while parsing a value"

def Malformed.message : Malformed → String
  | expectedColon => "expected `:`"
  | expectedListCommaOrEnd => "expected `,` or `]`"
  | expectedObjectCommaOrEnd => "expected `,` or `\x7d`"
  | expectedIdent => "expected ident"
  | expectedValue => "expected value"
  | invalidEscape => "invalid escape"
  | invalidNumber => "invalid number"
  | numberOutOfRange => "number out of range"
  | controlCharacter => "control character (\\u0000-\\u001F) found while parsing a string"
  | keyMustBeString => "key must be a string"
  | loneSurrogate => "lone leading surrogate in hex escape"
  | trailingComma => "trailing comma"
  | trailingCharacters => "trailing characters"
  | unexpectedEndOfHexEscape => "unexpected end of hex escape"

def JsonNumber.describe : JsonNumber → String
  | natural n => "integer `" ++ toString n ++ "`"
  | negative n => "integer `-" ++ toString n ++ "`"
  | floating isNegative magnitude =>
    let digits := match magnitude.shortest .toEven with
      | some d => d.scientific
      | none => "inf"
    "floating point `" ++ (if isNegative then "-" else "") ++ digits ++ "`"

def Found.describe : Found → String
  | null => "null"
  | boolean b => "boolean `" ++ (if b then "true" else "false") ++ "`"
  | number n => n.describe
  | string s => "string " ++ escaped s
  | sequence => "sequence"
  | map => "map"

def acceptedNames (names : List String) : String :=
  match names.map fun n => "`" ++ n ++ "`" with
  | [a] => a
  | [a, b] => a ++ " or " ++ b
  | quoted => "one of " ++ ", ".intercalate quoted

def Misfit.message : Misfit → String
  | wrongType found expected => "invalid type: " ++ found.describe ++ ", expected " ++ expected
  | wrongValue found expected => "invalid value: " ++ found.describe ++ ", expected " ++ expected
  | unknownField name expected => "unknown field `" ++ name ++ "`, expected " ++ acceptedNames expected
  | duplicateField name => "duplicate field `" ++ name ++ "`"
  | unknownVariant name expected =>
    "unknown variant `" ++ name ++ "`, expected " ++ acceptedNames expected

def JsonFault.message : JsonFault → String
  | unfinished what => what.message
  | malformed what => what.message
  | misfit what => what.message

end Lockstep
