import Lockstep.Token.Basic
import Lockstep.Token.Pattern
/-!
The lexical rules: one pattern per spelling or kind of literal, with the token that a match stands
for. Fixed spellings come before identifiers, so a word that is both is read as the fixed one.
-/

set_option autoImplicit false
set_option relaxedAutoImplicit false

namespace Lockstep

/-- The value of a digit in a base up to sixteen; other characters count as zero. -/
def digitValue (c : Char) : Nat :=
  if c.isDigit then c.toNat - '0'.toNat
  else if 'a' ≤ c && c ≤ 'f' then c.toNat - 'a'.toNat + 10
  else if 'A' ≤ c && c ≤ 'F' then c.toNat - 'A'.toNat + 10
  else 0

def numeral (base : Nat) (digits : List Char) : Nat :=
  digits.foldl (fun n c => n * base + digitValue c) 0

/-- A list without its longest tail of elements that satisfy `p`. -/
def dropTail {α : Type} (p : α → Bool) (xs : List α) : List α :=
  (xs.reverse.dropWhile p).reverse

/-- What a match becomes: nothing at all, or a token, which may fail to exist. -/
inductive Reading where
  | skip
  | token (read : List Char → Option Token)

namespace Reading

def fixed (t : Token) : Reading := token fun _ => some t

/-- An integer below `2 ^ 64`; its suffix is dropped. -/
def integer (base : Nat) (lead : Nat) : Reading :=
  token fun cs =>
    let n := numeral base (dropTail (fun c => "uUlL".toList.contains c) (cs.drop lead))
    if n < Nat.pow 2 64 then some (.int n) else none

/-- The decimal that a floating literal without its suffix spells. -/
def decimalOf (cs : List Char) : Decimal :=
  let isMark : Char → Bool := fun c => c == 'e' || c == 'E'
  let significand := cs.takeWhile (!isMark ·)
  let whole := significand.takeWhile (· != '.')
  let fraction := (significand.dropWhile (· != '.')).drop 1
  let power : Int := match (cs.dropWhile (!isMark ·)).drop 1 with
    | '-' :: ds => -(numeral 10 ds : Int)
    | '+' :: ds => numeral 10 ds
    | ds => numeral 10 ds
  ⟨numeral 10 (whole ++ fraction), power - fraction.length⟩

def floating : Reading :=
  token fun cs =>
    some (.float (.ofDecimal (decimalOf (dropTail (fun c => "fFhH".toList.contains c) cs))))

def quoted : Reading := token fun cs => some (.str (String.ofList (cs.drop 1).dropLast))

end Reading

namespace Lexical

open Pattern

def digit : Pattern := one Char.isDigit

def letter : Pattern := one fun c => c.isAlpha || c == '_'

def exponent : Pattern := seqs [oneOf "eE", option (oneOf "+-"), plus digit]

def floatSuffix : Pattern := option (oneOf "fFhH")

def intSuffix : Pattern := star (oneOf "uUlL")

/-- A quoted text: no line break, and a backslash takes the next character with it. -/
def quotedBy (quote : String) (repeatBody : Pattern → Pattern) : Pattern :=
  seqs [text quote,
    repeatBody (alt (noneOf (quote ++ "\\\n")) (seq (text "\\") (noneOf "\n"))),
    text quote]

/-- Blanks, comments and directive lines. A block comment ends at its first closing mark. -/
def gap : Pattern :=
  alts [
    plus (oneOf " \t\r\n\x0c"),
    seq (text "//") (star (noneOf "\n")),
    seqs [text "/*",
      star (alt (noneOf "*") (seq (plus (oneOf "*")) (noneOf "*/"))),
      plus (oneOf "*"), text "/"],
    seq (text "#") (star (noneOf "\n"))]

def kernelWords : List String := ["__kernel", "kernel"]

def qualifierWords : List String :=
  ["__global", "global", "__local", "local", "__constant", "constant", "__private", "private",
    "const", "volatile", "restrict", "static", "inline"]

def attributeWords : List String := ["__attribute__", "__attribute"]

def fixedRules : List (Pattern × Reading) :=
  Keyword.all.map (fun k => (text k.spelling, .fixed (.keyword k))) ++
  kernelWords.map (fun w => (text w, .fixed .kernel)) ++
  qualifierWords.map (fun w => (text w, .fixed .qualifier)) ++
  attributeWords.map (fun w => (text w, .fixed .attr)) ++
  Sign.all.map (fun s => (text s.spelling, .fixed (.sign s)))

def valueRules : List (Pattern × Reading) := [
  (seqs [plus digit, text ".", star digit, option exponent, floatSuffix], .floating),
  (seqs [text ".", plus digit, option exponent, floatSuffix], .floating),
  (seqs [plus digit, exponent, floatSuffix], .floating),
  (seqs [text "0", oneOf "xX", plus (oneOf "0123456789abcdefABCDEF"), intSuffix], .integer 16 2),
  (seq (plus digit) intSuffix, .integer 10 0),
  (quotedBy "'" plus, .fixed .char),
  (quotedBy "\"" star, .quoted),
  (seq letter (star (alt letter digit)), .token fun cs => some (.ident (String.ofList cs)))]

def rules : List (Pattern × Reading) := (gap, .skip) :: fixedRules ++ valueRules

end Lexical

end Lockstep
