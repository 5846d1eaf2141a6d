/-!
Text without the sequences that a terminal obeys instead of showing them. A sequence starts with an
escape character; what follows decides where it ends.
-/

set_option autoImplicit false
set_option relaxedAutoImplicit false

namespace Lockstep

/-- How far a control sequence has been read. -/
inductive SequenceState where
  | outside
  | escape
  | escapeIntermediate
  /-- After `ESC [`, up to a letter or another character from `@` on. -/
  | control
  /-- After `ESC ]`, up to a bell. -/
  | command
  /-- After `ESC P`, where parameters and a final character come before the string. -/
  | device
  | deviceParameter
  | deviceIntermediate
  /-- In a string, up to its terminator. -/
  | string
deriving DecidableEq, Repr

/-- Is the character one of those from `lo` to `hi`? -/
def isBetween (lo hi c : Char) : Bool :=
  lo.toNat ≤ c.toNat && c.toNat ≤ hi.toNat

/-- The blanks other than the space, which a terminal obeys in the middle of a sequence too. -/
def isLayout (c : Char) : Bool :=
  c = '\t' || c = '\n' || c = '\x0c' || c = '\r'

def isShowable (c : Char) : Bool :=
  isLayout c || (0x20 ≤ c.toNat && c.toNat ≠ 0x7f)

def holdsTerminator (c : Char) : Bool :=
  (String.utf8EncodeChar c).contains 0x9c

namespace SequenceState

/-- The state behind a character. Two control characters break off any sequence, and an escape
starts a new one. -/
def next (s : SequenceState) (c : Char) : SequenceState :=
  if c = '\x18' || c = '\x1a' then outside
  else if c = '\x1b' then escape
  else match s with
  | outside => outside
  | escape =>
    if isBetween ' ' '/' c then escapeIntermediate
    else if c = '[' then control
    else if c = ']' then command
    else if c = 'P' then device
    else if c = 'X' || c = '^' || c = '_' then string
    else if isBetween '0' '~' c then outside
    else s
  | escapeIntermediate => if isBetween '0' '~' c then outside else s
  | control => if isBetween '@' '~' c then outside else s
  | command => if c = '\x07' then outside else s
  | device =>
    if isBetween ' ' '/' c then deviceIntermediate
    else if isBetween '0' '?' c then deviceParameter
    else if isBetween '@' '~' c then string
    else s
  | deviceParameter =>
    if isBetween ' ' '/' c then deviceIntermediate
    else if isBetween '<' '~' c then string
    else s
  | deviceIntermediate => if isBetween '0' '~' c then string else s
  | string => if holdsTerminator c then outside else s

def shows (s : SequenceState) (c : Char) : Bool :=
  match s with
  | outside => isShowable c
  | escape | escapeIntermediate | control => isLayout c
  | _ => false

end SequenceState

structure Display where
  state : SequenceState := .outside
  /-- Was the last character shown? Then so are those behind it, up to a control character; only
  there does a sequence that a blank has interrupted go on. -/
  showing : Bool := false
  /-- What has been shown, the last character first. -/
  shown : List Char := []
deriving DecidableEq, Repr

/-- Take one more character. One beyond ASCII that is shown ends an interrupted sequence. -/
def Display.step (d : Display) (c : Char) : Display :=
  if (if d.showing then isShowable c else d.state.shows c) then
    ⟨if c.toNat < 0x80 then d.state else .outside, true, c :: d.shown⟩
  else ⟨d.state.next c, false, d.shown⟩

/-- The text without its control sequences and without control characters other than blanks. -/
def withoutControlSequences (text : String) : String :=
  String.ofList (text.toList.foldl Display.step {}).shown.reverse

end Lockstep
