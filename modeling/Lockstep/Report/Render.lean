import Lockstep.Json.Value
import Lockstep.Report.Basic
/-!
Reports as lines of text, as a one-line summary, and as JSON. All follow the order of the reports,
and within a report that of its defects and then of its findings.
-/

set_option autoImplicit false
set_option relaxedAutoImplicit false

namespace Lockstep

def placed (place : Location) (what : String) : String := place.toText ++ ": " ++ what

namespace FileReport

def findingLines (source : SourceText) (f : Finding) : List String :=
  placed (source.spanLocation f.span) f.toText ::
    f.notes.map fun n =>
      placed (source.spanLocation n.span) (Severity.note.word ++ ": " ++ n.message)

/-- The lines of a report: one per defect, then those of the findings. -/
def lines (r : FileReport) : List String :=
  (r.defects.map fun d => placed (r.source.spanLocation d.span) ("error: " ++ d.message)) ++
    r.findings.flatMap (findingLines r.source)

def errorCount (r : FileReport) : Nat := r.defects.length + r.findings.countP Finding.isError

def warningCount (r : FileReport) : Nat := r.findings.countP fun f => f.severity = .warning

end FileReport

def renderText (reports : List FileReport) : String :=
  String.join ((reports.flatMap FileReport.lines).map (· ++ "\n"))

def total (count : FileReport → Nat) (reports : List FileReport) : Nat :=
  reports.foldr (fun r n => count r + n) 0

def summary (reports : List FileReport) : String :=
  toString (total FileReport.warningCount reports) ++ " warning(s), " ++
    toString (total FileReport.errorCount reports) ++ " error(s)"

def Location.toJson (l : Location) : Json :=
  .obj [("file", .str l.file), ("line", .nat l.line), ("column", .nat l.column)]

structure NoteView where
  location : Location
  message : String
deriving DecidableEq, Repr

structure FindingView where
  code : Option String
  severity : Severity
  location : Location
  message : String
  notes : List NoteView
deriving DecidableEq, Repr

/-- What the JSON form shows of the results for one file. -/
structure ReportView where
  file : String
  digest : String
  defects : List NoteView
  findings : List FindingView
deriving DecidableEq, Repr

def Note.view (source : SourceText) (n : Note) : NoteView :=
  ⟨source.spanLocation n.span, n.message⟩

def Finding.view (source : SourceText) (f : Finding) : FindingView :=
  ⟨f.code, f.severity, source.spanLocation f.span, f.message, f.notes.map (Note.view source)⟩

def FileReport.view (r : FileReport) : ReportView :=
  ⟨r.source.name, r.digest, r.defects.map (Note.view r.source),
    r.findings.map (Finding.view r.source)⟩

def NoteView.toJson (n : NoteView) : Json :=
  .obj [("location", n.location.toJson), ("message", .str n.message)]

def FindingView.toJson (f : FindingView) : Json :=
  .obj [
    ("code", match f.code with
      | some code => .str code
      | none => .null),
    ("severity", .str f.severity.word),
    ("location", f.location.toJson),
    ("message", .str f.message),
    ("notes", .arr (f.notes.map NoteView.toJson))]

def ReportView.toJson (r : ReportView) : Json :=
  .obj [
    ("file", .str r.file),
    ("source_sha256", .str r.digest),
    ("parse_errors", .arr (r.defects.map NoteView.toJson)),
    ("diagnostics", .arr (r.findings.map FindingView.toJson))]

def FileReport.toJson (r : FileReport) : Json := r.view.toJson

def renderJson (reports : List FileReport) : String :=
  (Json.arr (reports.map FileReport.toJson)).pretty 0

end Lockstep
