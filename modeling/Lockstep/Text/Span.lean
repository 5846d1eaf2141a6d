/-!
Byte ranges of a source text. Every part of a program under check carries the range it was read
from, and every finding points back through one.
-/

set_option autoImplicit false
set_option relaxedAutoImplicit false

namespace Lockstep

def byteLength (cs : List Char) : Nat := cs.foldl (fun n c => n + c.utf8Size) 0

/-- The bytes from `start` up to, and not including, `stop`. -/
structure Span where
  start : Nat
  stop : Nat
deriving DecidableEq, Inhabited, Repr

namespace Span

def through (a b : Span) : Span := ⟨a.start, b.stop⟩

def le (a b : Span) : Bool :=
  a.start < b.start || (a.start == b.start && a.stop ≤ b.stop)

end Span

structure Note where
  span : Span
  message : String
deriving DecidableEq, Repr

end Lockstep
