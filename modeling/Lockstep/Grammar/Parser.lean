import Lockstep.Grammar.Failure
/-!
Ordered-choice parsers over tokens.

A parser takes a cursor and a log. It either yields a value with the cursor behind what it read, or
fails. The log remembers the furthest failure, whether or not the failure was caught by an
alternative, and the failures that recovery has reported; a report made on a path that fails is
withdrawn when the failure is caught.

`many` and `fix` run a bounded number of rounds, one more than there are tokens left. Every rule
that is repeated or refers to itself reads a token first, so the bound is never what ends it.
-/

set_option autoImplicit false
set_option relaxedAutoImplicit false

namespace Lockstep

/-- A position between two tokens of a text of `length` bytes. -/
structure Cursor where
  rest : List Lexeme
  /-- Where the last token read ends; the end of the text as long as none was read. -/
  lastStop : Nat
  length : Nat

namespace Cursor

def start (tokens : List Lexeme) (length : Nat) : Cursor := ⟨tokens, length, length⟩

def offset (c : Cursor) : Nat :=
  match c.rest with
  | [] => c.length
  | l :: _ => l.span.start

/-- The range of the next token; at the end of the text an empty one. -/
def here (c : Cursor) : Span :=
  match c.rest with
  | [] => ⟨c.length, c.length⟩
  | l :: _ => l.span

def upTo (c d : Cursor) : Span :=
  match c.rest with
  | [] => ⟨c.length, c.length⟩
  | l :: _ => ⟨l.span.start, d.lastStop⟩

end Cursor

/-- What reading leaves behind besides its value. -/
structure Log where
  furthest : Option Failure := none
  reported : List Failure := []

namespace Log

/-- Note at `c` that `expected` was tried. -/
def tried (log : Log) (c : Cursor) (span : Span) (expected : Expected) (found : Option Token) :
    Log :=
  { log with furthest := some (.tried log.furthest c.offset span expected found) }

def failed (log : Log) (f : Failure) : Log :=
  { log with furthest := some (.furthest log.furthest f) }

/-- Withdraw the reports made since `before`. -/
def backTo (log before : Log) : Log := { log with reported := before.reported }

end Log

def Parser (α : Type) : Type := Cursor → Log → Option (α × Cursor) × Log

namespace Parser

variable {α β : Type}

instance : Monad Parser where
  pure a := fun c log => (some (a, c), log)
  bind p f := fun c log =>
    match p c log with
    | (some (a, c'), log') => f a c' log'
    | (none, log') => (none, log')

def fail : Parser α := fun _ log => (none, log)

/-- Reads one token that `read` accepts, noting `expected` otherwise. -/
def next (expected : Expected) (read : Token → Option α) : Parser α := fun c log =>
  match c.rest with
  | l :: rest =>
    match read l.token with
    | some a => (some (a, { c with rest := rest, lastStop := l.span.stop }), log)
    | none => (none, log.tried c c.here expected (some l.token))
  | [] => (none, log.tried c c.here expected none)

def token (t : Token) : Parser Unit := next (.token t) fun u => if u = t then some () else none

def sign (s : Sign) : Parser Unit := token (.sign s)

def keyword (k : Keyword) : Parser Unit := token (.keyword k)

/-- Reads a token by its value; a refusal does not name what would have been accepted. -/
def select (read : Token → Option α) : Parser α := next .somethingElse read

def anyToken : Parser Token := next .anyToken some

def spanned (p : Parser α) : Parser (α × Span) := fun c log =>
  match p c log with
  | (some (a, c'), log') => (some ((a, c.upTo c'), c'), log')
  | (none, log') => (none, log')

/-- Succeeds at the end of the text only. -/
def atEnd : Parser Unit := fun c log =>
  match c.rest with
  | [] => (some ((), c), log)
  | l :: _ => (none, log.tried c c.here .endOfInput (some l.token))

/-- Refuses values that fail the test; the refusal is noted behind what was read. -/
def guard (p : Parser α) (accepts : α → Bool) : Parser α := fun c log =>
  match p c log with
  | (some (a, c'), log') =>
    if accepts a then (some (a, c'), log')
    else (none, log'.tried c' (c.upTo c') .somethingElse none)
  | (none, log') => (none, log')

/--
Refuses values that fail the test, for the reason given; all that happens inside is noted at the
point where it started.
-/
def demand (p : Parser α) (accepts : α → Bool) (reason : Reason) : Parser α := fun c log =>
  match p c { log with furthest := none } with
  | (some (a, c'), inner) =>
    let back := { inner with furthest := log.furthest }
    if accepts a then
      match inner.furthest with
      | some f => (some (a, c'), back.failed { f with offset := c.offset })
      | none => (some (a, c'), back)
    else (none, back.failed ⟨c.offset, c.upTo c', reason⟩)
  | (none, inner) => (none, inner)

/-- The first parser, or where it fails the second from the same cursor. -/
def or (p q : Parser α) : Parser α := fun c log =>
  match p c log with
  | (some r, log') => (some r, log')
  | (none, log') => q c (log'.backTo log)

def choice : List (Parser α) → Parser α
  | [] => fail
  | p :: ps => or p (choice ps)

/-- The value, or `none` without moving where the parser fails. -/
def optional (p : Parser α) : Parser (Option α) := or (some <$> p) (pure none)

def manyWithin (p : Parser α) : Nat → Cursor → Log → (List α × Cursor) × Log
  | 0, c, log => (([], c), log)
  | rounds + 1, c, log =>
    match p c log with
    | (some (a, c'), log') =>
      let ((as, c''), log'') := manyWithin p rounds c' log'
      ((a :: as, c''), log'')
    | (none, log') => (([], c), log'.backTo log)

def many (p : Parser α) : Parser (List α) := fun c log =>
  let (r, log') := manyWithin p (c.rest.length + 1) c log
  (some r, log')

def many1 (p : Parser α) : Parser (List α) := do
  let a ← p
  let as ← many p
  return a :: as

def before (p : Parser α) (q : Parser β) : Parser α := do
  let a ← p
  let _ ← q
  return a

def after (p : Parser α) (q : Parser β) : Parser β := do
  let _ ← p
  q

def between (opening : Sign) (p : Parser α) (closing : Sign) : Parser α := do
  sign opening
  let a ← p
  sign closing
  return a

def commaSep1 (p : Parser α) : Parser (List α) := do
  let a ← p
  let as ← many (after (sign .comma) p)
  return a :: as

def commaSep (p : Parser α) : Parser (List α) := or (commaSep1 p) (pure [])

/-- Values with commas between; behind the last a further comma is allowed. -/
def commaSepEnd (p : Parser α) : Parser (List α) :=
  or (before (commaSep1 p) (optional (sign .comma))) (pure [])

def chainLeft (operand : Parser α) (operator : Parser β) (join : α → β → α → α) : Parser α := do
  let first ← operand
  let rest ← many do
    let op ← operator
    let rhs ← operand
    return (op, rhs)
  return rest.foldl (fun lhs (op, rhs) => join lhs op rhs) first

def lookAhead (p : Parser α) : Parser α := fun c log =>
  match p c log with
  | (some (a, _), log') => (some (a, c), log'.backTo log)
  | (none, log') => (none, log')

/--
Where `p` fails and `skip` succeeds from the same cursor, reports the failure of `p` and goes on
behind what was skipped.
-/
def recover (p skip : Parser α) : Parser α := fun c log =>
  match p c log with
  | (some r, log') => (some r, log')
  | (none, log') =>
    match skip c ⟨none, log.reported⟩ with
    | (some r, after) =>
      (some r, { after with reported := after.reported ++ log'.furthest.toList })
    | (none, _) => (none, ⟨log'.furthest, log.reported⟩)

/-- `depth` unfoldings of a rule that refers to itself. -/
def unfold (rule : Parser α → Parser α) : Nat → Cursor → Log → Option (α × Cursor) × Log
  | 0, c, log => fail c log
  | depth + 1, c, log => rule (unfold rule depth) c log

/-- A rule that refers to itself, always behind at least one token. -/
def fix (rule : Parser α → Parser α) : Parser α := fun c log =>
  unfold rule (c.rest.length + 1) c log

end Parser

end Lockstep
