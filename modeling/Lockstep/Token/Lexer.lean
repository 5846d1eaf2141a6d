import Lockstep.Text.Escaped
import Lockstep.Token.Rules
/-!
Splitting a text into tokens. From each position the longest match of the lexical rules is taken;
where no rule matches, the characters up to the point where every rule has given up are reported as
one stray piece. The pieces cover the text without gaps.
-/

set_option autoImplicit false
set_option relaxedAutoImplicit false

namespace Lockstep

inductive Piece where
  | gap
  | token (t : Token)
  | stray (text : List Char)

/-- The first piece of a text that starts with `c`, and how many characters it takes after `c`. -/
def firstPiece (c : Char) (rest : List Char) : Piece × Nat :=
  let bite := munch Lexical.rules 0 none (c :: rest)
  match bite.longest with
  | none =>
    let extra := bite.reach - 1
    (.stray (c :: rest.take extra), extra)
  | some (.skip, n) => (.gap, n - 1)
  | some (.token read, n) =>
    let cs := c :: rest.take (n - 1)
    match read cs with
    | some t => (.token t, n - 1)
    | none => (.stray cs, n - 1)

/-- All pieces of a text that starts at byte `offset`, each with its range. -/
def pieces (offset : Nat) : List Char → List (Piece × Span)
  | [] => []
  | c :: rest =>
    let (piece, extra) := firstPiece c rest
    let stop := offset + byteLength (c :: rest.take extra)
    (piece, ⟨offset, stop⟩) :: pieces stop (rest.drop extra)
termination_by cs => cs.length
decreasing_by simp only [List.length_drop, List.length_cons]; omega

/-- The tokens of a text and the pieces that are none. -/
structure Lexed where
  tokens : List Lexeme
  strays : List (Span × String)

def lex (source : String) : Lexed :=
  let ps := pieces 0 source.toList
  { tokens := ps.filterMap fun
      | (.token t, span) => some ⟨t, span⟩
      | _ => none
    strays := ps.filterMap fun
      | (.stray cs, span) => some (span, String.ofList cs)
      | _ => none }

def strayMessage (text : String) : String := "unexpected character: " ++ escaped text

end Lockstep
