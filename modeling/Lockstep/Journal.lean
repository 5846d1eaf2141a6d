import Lockstep.Branch.Verdict
import Lockstep.Text.ControlSequence
import Lockstep.Text.Escaped
/-!
The running commentary on an analysis: one line per entry, with its level and the part of the
program that speaks.
-/

set_option autoImplicit false
set_option relaxedAutoImplicit false

namespace Lockstep

inductive JournalLevel where
  | warn | info | debug
deriving DecidableEq, Repr

def JournalLevel.word : JournalLevel → String
  | warn => "WARN "
  | info => "INFO "
  | debug => "DEBUG"

/-- The part of the program that an entry comes from. -/
inductive JournalTopic where
  | command | files | analysis | taint | barriers
deriving DecidableEq, Repr

def JournalTopic.path : JournalTopic → String
  | command => "simtlint"
  | files => "simtlint::driver"
  | analysis => "simtlint::engine"
  | taint => "simtlint::taint"
  | barriers => "simtlint::barrier"

structure JournalEntry where
  level : JournalLevel
  topic : JournalTopic
  message : String
deriving DecidableEq, Repr

/-- Level, topic and message; further lines of a message are indented. -/
def JournalEntry.toText (e : JournalEntry) : String :=
  "[" ++ e.level.word ++ " " ++ e.topic.path ++ "] " ++ "\n    ".intercalate (e.message.splitOn "\n")

/-- The entry with the end of its line, as it is shown. A control sequence that the message leaves
open may take the end of the line with it. -/
def JournalEntry.line (e : JournalEntry) : String := withoutControlSequences (e.toText ++ "\n")

def spellRecord (name : String) (fields : List (String × String)) : String :=
  name ++ " \x7b " ++ ", ".intercalate (fields.map fun (k, v) => k ++ ": " ++ v) ++ " \x7d"

def Imbalance.spelled : Imbalance → String
  | missingElse => "MissingElse"
  | missingDefault => "MissingDefault"
  | noBarrier segment => spellRecord "NoBarrier" [("segment", toString segment)]
  | countMismatch segment expected found =>
    spellRecord "CountMismatch"
      [("segment", toString segment), ("expected", toString expected), ("found", toString found)]

def Obstacle.spelled : Obstacle → String
  | nestedBranch => "NestedBranch"
  | jump => "Jump"
  | nonBarrierCall name => "NonBarrierCall(" ++ escaped name ++ ")"
  | unresolvedCallee => "UnresolvedCallee"
  | callInCondition => "CallInCondition"
  | fallthroughAfterBarrier => "FallthroughAfterBarrier"
  | barrierOutsideCase => "BarrierOutsideCase"

def Verdict.spelled : Verdict → String
  | balanced => "ProvenSafe"
  | unbalanced why => "ProvenUnsafe(" ++ why.spelled ++ ")"
  | unknown span why =>
    spellRecord "Unknown"
      [("span", toString span.start ++ ".." ++ toString span.stop), ("reason", why.spelled)]

end Lockstep
