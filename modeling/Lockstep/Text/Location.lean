import Lockstep.Text.Span
/-!
Lines and columns of byte offsets. Both count from one, and columns count bytes.
-/

set_option autoImplicit false
set_option relaxedAutoImplicit false

namespace Lockstep

structure Location where
  file : String
  line : Nat
  column : Nat
deriving DecidableEq, Repr

def Location.toText (l : Location) : String :=
  l.file ++ ":" ++ toString l.line ++ ":" ++ toString l.column

/-- A named text, as far as locations need it: its length and where its lines start. -/
structure SourceText where
  name : String
  length : Nat
  lineStarts : List Nat
deriving DecidableEq, Repr

/-- The offsets behind the line breaks of a text that starts at byte `offset`. -/
def startsAfterBreaks (offset : Nat) : List Char → List Nat
  | [] => []
  | c :: cs =>
    let next := offset + c.utf8Size
    if c = '\n' then next :: startsAfterBreaks next cs else startsAfterBreaks next cs

/-- Where a number stands among rising ones: at an index, or nowhere, and then it would have to be
put in at the index. -/
inductive Rank where
  | present (index : Nat)
  | absent (index : Nat)
deriving DecidableEq, Repr

/-- Look for a number among rising ones, from index `low` up to, and not including, `high`. -/
def bisect (xs : List Nat) (key low high : Nat) : Rank :=
  if low < high then
    let middle := (low + high) / 2
    let x := xs.getD middle 0
    if x < key then bisect xs key (middle + 1) high
    else if key < x then bisect xs key low middle
    else .present middle
  else .absent low
termination_by high - low

namespace SourceText

def ofText (name text : String) : SourceText :=
  ⟨name, text.utf8ByteSize, 0 :: startsAfterBreaks 0 text.toList⟩

/-- The line of an offset, counted from zero: the one that starts there, or the last one that starts
before. -/
def lineIndex (t : SourceText) (offset : Nat) : Nat :=
  match bisect t.lineStarts offset 0 t.lineStarts.length with
  | .present i => i
  | .absent i => i - 1

/-- The place of a byte offset; offsets past the end stand for the end. -/
def location (t : SourceText) (offset : Nat) : Location :=
  let o := min offset t.length
  let line := t.lineIndex o
  ⟨t.name, line + 1, o - t.lineStarts.getD line 0 + 1⟩

def spanLocation (t : SourceText) (span : Span) : Location := t.location span.start

end SourceText

end Lockstep
