import Lockstep.Analysis
import Lockstep.Digest.Sha256
import Lockstep.Grammar.Item
/-!
The check of one named source text, and what comes of it: the defects of its syntax, and the
findings of the analysis, which runs on whatever part of the text could be made out.
-/

set_option autoImplicit false
set_option relaxedAutoImplicit false

namespace Lockstep

structure FileReport where
  source : SourceText
  /-- The SHA-256 digest of the text, in hexadecimal. -/
  digest : String
  defects : List Note
  findings : List Finding
deriving DecidableEq, Repr

namespace FileReport

def hasErrors (r : FileReport) : Bool := !r.defects.isEmpty || r.findings.any Finding.isError

end FileReport

/-- A checked source: the report, and the commentary on the way to it. -/
structure Checked where
  report : FileReport
  journal : List JournalEntry

def checkSource (settings : Settings) (name text : String) : Checked :=
  let source := SourceText.ofText name text
  let parsed := parse text
  let defects := parsed.notes
  let analysis := match parsed.unit with
    | some unit => analyze source settings unit
    | none => {}
  let findings := analysis.sortedFindings
  let complaint : List JournalEntry :=
    if defects.isEmpty then []
    else [⟨.warn, .files, name ++ ": " ++ toString defects.length ++ " syntax error(s)"⟩]
  let outcome : JournalEntry :=
    ⟨.info, .files, name ++ ": " ++ toString findings.length ++ " finding(s)"⟩
  ⟨⟨source, sha256Hex text, defects, findings⟩, complaint ++ analysis.journal ++ [outcome]⟩

end Lockstep
