import Lockstep.Text.Span
/-!
Which declarations hold values that differ between work-items, and since when. A declaration is
recorded once, by the first event that makes it depend on an identity; records stay in the order in
which they were made. A record may name the declaration its value was copied from, and `trace`
follows these links.
-/

set_option autoImplicit false
set_option relaxedAutoImplicit false

namespace Lockstep

/-- A declaration by its position among the variables or the fields. -/
inductive Key where
  | var (position : Nat)
  | field (position : Nat)
deriving DecidableEq, Repr

namespace Key

def isVar : Key → Bool
  | var _ => true
  | field _ => false

def le : Key → Key → Bool
  | var i, var j => i ≤ j
  | var _, field _ => true
  | field _, var _ => false
  | field i, field j => i ≤ j

end Key

/-- Why a declaration depends on an identity: the event, what is said about it, and the declaration
that the value came from, if it was one. -/
structure Provenance where
  span : Span
  message : String
  copiedFrom : Option Key
deriving DecidableEq, Repr

structure TaintStore where
  records : List (Key × Provenance) := []
deriving DecidableEq, Repr

namespace TaintStore

def get? (s : TaintStore) (k : Key) : Option Provenance := s.records.lookup k

def contains (s : TaintStore) (k : Key) : Bool := (s.get? k).isSome

def size (s : TaintStore) : Nat := s.records.length

def varCount (s : TaintStore) : Nat := s.records.countP (·.1.isVar)

def fieldCount (s : TaintStore) : Nat := s.records.countP (!·.1.isVar)

/-- Add a record unless the declaration has one. -/
def record (s : TaintStore) (k : Key) (p : Provenance) : TaintStore :=
  if s.contains k then s else ⟨s.records ++ [(k, p)]⟩

/-- The records on the way from `cursor` along the links, `steps` at most. -/
def follow (s : TaintStore) : Nat → Option Key → List Note
  | 0, _ => []
  | _ + 1, none => []
  | steps + 1, some k =>
    match s.get? k with
    | none => []
    | some p => ⟨p.span, p.message⟩ :: s.follow steps p.copiedFrom

/-- How the dependence of a declaration came about, latest event first. Links that run in a circle
are cut one step past the number of records. -/
def trace (s : TaintStore) (k : Key) : List Note := s.follow (s.size + 1) (some k)

def sorted (s : TaintStore) : List (Key × Provenance) := s.records.mergeSort fun a b => a.1.le b.1

end TaintStore

end Lockstep
