/-!
Regular patterns over characters, and the longest match of a table of them.

A pattern is read one character at a time: `Pattern.derive c p` matches what may follow `c` in a
text of `p`. Dead parts are dropped as they arise, so a pattern that has become `nothing` is one
that no continuation can complete. `munch` runs a whole table at once and reports both the longest
match and how far the text stayed the beginning of some match.
-/

set_option autoImplicit false
set_option relaxedAutoImplicit false

namespace Lockstep

inductive Pattern where
  | nothing
  | blank
  | one (accepts : Char → Bool)
  | seq (first second : Pattern)
  | alt (left right : Pattern)
  | star (body : Pattern)

namespace Pattern

def text (s : String) : Pattern :=
  s.toList.foldr (fun c p => seq (one (· == c)) p) blank

def plus (p : Pattern) : Pattern := seq p (star p)

def option (p : Pattern) : Pattern := alt p blank

def seqs (ps : List Pattern) : Pattern := ps.foldr seq blank

def alts (ps : List Pattern) : Pattern := ps.foldr alt nothing

def oneOf (s : String) : Pattern :=
  let cs := s.toList
  one fun c => cs.contains c

def noneOf (s : String) : Pattern :=
  let cs := s.toList
  one fun c => !cs.contains c

def nullable : Pattern → Bool
  | nothing => false
  | blank => true
  | one _ => false
  | seq p q => p.nullable && q.nullable
  | alt p q => p.nullable || q.nullable
  | star _ => true

/-- A sequence whose first part may have died or been used up. -/
def andThen (p q : Pattern) : Pattern :=
  match p with
  | nothing => nothing
  | blank => q
  | p => seq p q

def orElse (p q : Pattern) : Pattern :=
  match p, q with
  | nothing, q => q
  | p, nothing => p
  | p, q => alt p q

/-- What may follow `c` in a text of the pattern. -/
def derive (c : Char) : Pattern → Pattern
  | nothing => nothing
  | blank => nothing
  | one accepts => if accepts c then blank else nothing
  | seq p q =>
    if p.nullable then orElse (andThen (derive c p) q) (derive c q)
    else andThen (derive c p) q
  | alt p q => orElse (derive c p) (derive c q)
  | star p => andThen (derive c p) (star p)

def isDead : Pattern → Bool
  | nothing => true
  | _ => false

end Pattern

/-- Where reading a table from the start of a text ended. -/
structure Bite (α : Type) where
  /-- The value of the longest match and its length; of equal matches the first of the table. -/
  longest : Option (α × Nat)
  /-- The number of leading characters that begin a text of some pattern. -/
  reach : Nat

/-- Run the patterns of a table side by side, `done` characters into the text. -/
def munch {α : Type} (live : List (Pattern × α)) (done : Nat) (best : Option (α × Nat)) :
    List Char → Bite α
  | [] => ⟨best, done⟩
  | c :: rest =>
    let next := (live.map fun (p, a) => (p.derive c, a)).filter fun (p, _) => !p.isDead
    if next.isEmpty then ⟨best, done⟩
    else
      let best' := match next.find? (·.1.nullable) with
        | some (_, a) => some (a, done + 1)
        | none => best
      munch next (done + 1) best' rest

end Lockstep
