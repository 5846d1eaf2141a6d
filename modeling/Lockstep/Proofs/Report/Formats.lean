import Lockstep.Command.Run
import Lockstep.Proofs.Analysis.Sorted
import Lockstep.Proofs.Analysis.Wording
import Lockstep.Proofs.Json.Document
/-!
The forms of a report against each other. The JSON text is read back as the reports, the summary
counts all that the reports hold and tells whether the run ends with an error, and the plain text
has exactly the lines that the defects, findings and notes call for.
-/

set_option autoImplicit false
set_option relaxedAutoImplicit false

namespace Lockstep

/-- The report comes of the check of some text. -/
def FileReport.Produced (r : FileReport) : Prop :=
  ∃ settings name text, r = (checkSource settings name text).report

/-! ### JSON -/

namespace Json

def field? (key : String) : Json → Option Json
  | obj fields => fields.lookup key
  | _ => none

def nat? : Json → Option Nat
  | nat n => some n
  | _ => none

def str? : Json → Option String
  | str s => some s
  | _ => none

def list? {α : Type} (read : Json → Option α) : Json → Option (List α)
  | arr items => items.mapM read
  | _ => none

def code? : Json → Option (Option String)
  | null => some none
  | str s => some (some s)
  | _ => none

private theorem list?_map {α : Type} {read : Json → Option α} {write : α → Json}
    (back : ∀ a, read (write a) = some a) (as : List α) :
    list? read (arr (as.map write)) = some as := by
  rw [list?, List.mapM_map]
  induction as with
  | nil => rfl
  | cons a as ih => simp [back, ih]

end Json

def Severity.ofWord? (word : String) : Option Severity :=
  [Severity.note, .warning, .error].find? fun s => s.word == word

private theorem Severity.ofWord?_word (s : Severity) : ofWord? s.word = some s := by
  cases s <;> decide

def Location.ofJson? (v : Json) : Option Location := do
  let file ← v.field? "file" >>= Json.str?
  let line ← v.field? "line" >>= Json.nat?
  let column ← v.field? "column" >>= Json.nat?
  return ⟨file, line, column⟩

namespace NoteView

def ofJson? (v : Json) : Option NoteView := do
  let location ← v.field? "location" >>= Location.ofJson?
  let message ← v.field? "message" >>= Json.str?
  return ⟨location, message⟩

private theorem ofJson?_toJson (n : NoteView) : ofJson? n.toJson = some n := rfl

end NoteView

namespace FindingView

def ofJson? (v : Json) : Option FindingView := do
  let code ← v.field? "code" >>= Json.code?
  let severity ← v.field? "severity" >>= Json.str? >>= Severity.ofWord?
  let location ← v.field? "location" >>= Location.ofJson?
  let message ← v.field? "message" >>= Json.str?
  let notes ← v.field? "notes" >>= Json.list? NoteView.ofJson?
  return ⟨code, severity, location, message, notes⟩

private theorem ofJson?_toJson (f : FindingView) : ofJson? f.toJson = some f := by
  obtain ⟨code, severity, location, message, notes⟩ := f
  have listed := Json.list?_map NoteView.ofJson?_toJson notes
  have word := severity.ofWord?_word
  cases code <;>
    simp [ofJson?, toJson, Json.field?, Json.code?, Json.str?, List.lookup_cons, word, listed] <;>
    rfl

end FindingView

namespace ReportView

def ofJson? (v : Json) : Option ReportView := do
  let file ← v.field? "file" >>= Json.str?
  let digest ← v.field? "source_sha256" >>= Json.str?
  let defects ← v.field? "parse_errors" >>= Json.list? NoteView.ofJson?
  let findings ← v.field? "diagnostics" >>= Json.list? FindingView.ofJson?
  return ⟨file, digest, defects, findings⟩

private theorem ofJson?_toJson (r : ReportView) : ofJson? r.toJson = some r := by
  obtain ⟨file, digest, defects, findings⟩ := r
  have first := Json.list?_map NoteView.ofJson?_toJson defects
  have second := Json.list?_map FindingView.ofJson?_toJson findings
  simp [ofJson?, toJson, Json.field?, Json.str?, List.lookup_cons, first, second]

end ReportView

namespace FileReport

private theorem nested_location (l : Location) : Json.Nested 1 l.toJson := by
  refine .obj ?_
  simp only [List.forall_mem_cons, List.not_mem_nil, false_imp_iff, implies_true, and_true]
  exact ⟨.str _, .nat _, .nat _⟩

private theorem nested_note (n : NoteView) : Json.Nested 2 n.toJson := by
  refine .obj ?_
  simp only [List.forall_mem_cons, List.not_mem_nil, false_imp_iff, implies_true, and_true]
  exact ⟨nested_location _, .str _⟩

private theorem nested_notes (ns : List NoteView) :
    Json.Nested 3 (.arr (ns.map NoteView.toJson)) := by
  refine .arr fun v member => ?_
  obtain ⟨n, -, rfl⟩ := List.mem_map.mp member
  exact nested_note n

private theorem nested_finding (f : FindingView) : Json.Nested 4 f.toJson := by
  refine .obj ?_
  simp only [List.forall_mem_cons, List.not_mem_nil, false_imp_iff, implies_true, and_true]
  refine ⟨?_, .str _, (nested_location _).mono (by decide), .str _, nested_notes f.notes⟩
  cases f.code with
  | none => exact .null
  | some code => exact .str code

private theorem nested_toJson (r : FileReport) : Json.Nested 6 r.toJson := by
  refine .obj ?_
  simp only [List.forall_mem_cons, List.not_mem_nil, false_imp_iff, implies_true, and_true]
  refine ⟨.str _, .str _, (nested_notes _).mono (by decide), .arr fun v member => ?_⟩
  obtain ⟨f, -, rfl⟩ := List.mem_map.mp member
  exact nested_finding f

/-! ### Findings -/

private theorem exists_unit_of_mem_findings {settings : Settings} {name text : String} {f : Finding}
    (member : f ∈ (checkSource settings name text).report.findings) :
    ∃ unit, (parse text).unit = some unit ∧
      f ∈ (analyze (SourceText.ofText name text) settings unit).findings := by
  rw [checkSource] at member
  dsimp only at member
  cases read : (parse text).unit with
  | none =>
    rw [read] at member
    cases (Analysis.sortedFindings_perm {}).mem_iff.mp member
  | some unit =>
    rw [read] at member
    exact ⟨unit, rfl, (Analysis.sortedFindings_perm _).mem_iff.mp member⟩

variable {r : FileReport} (produced : r.Produced)

include produced

private theorem severity_of_mem_findings {f : Finding} (member : f ∈ r.findings) :
    f.severity = .warning ∨ f.severity = .error := by
  obtain ⟨settings, name, text, rfl⟩ := produced
  obtain ⟨unit, -, found⟩ := exists_unit_of_mem_findings member
  obtain ⟨check, -, severity⟩ := Analysis.exists_check_of_mem_findings found
  rw [severity]
  cases check <;> decide

private theorem warningCount_add_errorCount :
    r.warningCount + r.errorCount = r.defects.length + r.findings.length := by
  have parted : r.findings.countP Finding.isError +
      r.findings.countP (fun f => f.severity = .warning) = r.findings.length := by
    rw [r.findings.length_eq_countP_add_countP Finding.isError]
    congr 1
    refine List.countP_congr fun f member => ?_
    rcases severity_of_mem_findings produced member with warning | error
    · simp [Finding.isError, warning]
    · simp [Finding.isError, error]
  rw [warningCount, errorCount]
  omega

omit produced in
private theorem errorCount_pos_iff : 0 < r.errorCount ↔ r.hasErrors = true := by
  rw [errorCount, hasErrors, Nat.add_pos_iff_pos_or_pos, List.countP_pos_iff, Bool.or_eq_true,
    List.any_eq_true, List.length_pos_iff, Bool.not_eq_true', List.isEmpty_eq_false_iff]

private theorem oneLine_of_mem_defects {d : Note} (member : d ∈ r.defects) : OneLine d.message := by
  obtain ⟨settings, name, text, rfl⟩ := produced
  have notes : (checkSource settings name text).report.defects = (parse text).notes := by
    rw [checkSource]
  rw [notes] at member
  exact oneLine_of_mem_notes member

private theorem oneLined_of_mem_findings (file : OneLine r.source.name) {f : Finding}
    (member : f ∈ r.findings) : f.OneLined := by
  obtain ⟨settings, name, text, rfl⟩ := produced
  obtain ⟨unit, read, found⟩ := exists_unit_of_mem_findings member
  rw [checkSource] at file
  exact (SourceUnit.oneLined_of_parse read).analyze file settings f found

private theorem oneLine_of_mem_lines (file : OneLine r.source.name) :
    ∀ line ∈ r.lines, OneLine line := by
  have line {span : Span} {what : String} (told : OneLine what) :
      OneLine (placed (r.source.spanLocation span) what) :=
    .append (.append (SourceText.oneLine_location file span) (by decide)) told
  refine List.forall_mem_append.mpr ⟨fun l member => ?_, fun l member => ?_⟩
  · obtain ⟨d, defect, rfl⟩ := List.mem_map.mp member
    exact line (.append (by decide) (oneLine_of_mem_defects produced defect))
  · obtain ⟨f, listed, own⟩ := List.mem_flatMap.mp member
    have told := oneLined_of_mem_findings produced file listed
    have severity : OneLine f.severity.word := by cases f.severity <;> decide
    have text : OneLine f.toText := by
      refine .append (.append (.append severity ?_) (by decide)) told.message
      rw [Finding.code]
      rcases f.check with - | (_ | _ | _ | _) <;> decide
    rcases List.mem_cons.mp own with rfl | noted
    · exact line text
    · obtain ⟨n, note, rfl⟩ := List.mem_map.mp noted
      exact line (.append (by decide) (told.notes n note))

end FileReport

private theorem total_congr {count count' : FileReport → Nat} {reports : List FileReport}
    (same : ∀ r ∈ reports, count r = count' r) : total count reports = total count' reports := by
  induction reports with
  | nil => rfl
  | cons r reports ih =>
    obtain ⟨first, others⟩ := List.forall_mem_cons.mp same
    rw [total, List.foldr_cons, first]
    exact congrArg (count' r + ·) (ih others)

private theorem total_add (count count' : FileReport → Nat) (reports : List FileReport) :
    total count reports + total count' reports = total (fun r => count r + count' r) reports := by
  induction reports with
  | nil => rfl
  | cons r reports ih =>
    simp only [total, List.foldr_cons] at ih ⊢
    omega

private theorem total_pos_iff {count : FileReport → Nat} {reports : List FileReport} :
    0 < total count reports ↔ ∃ r ∈ reports, 0 < count r := by
  induction reports with
  | nil => simp [total]
  | cons r reports ih =>
    rw [total, List.foldr_cons, Nat.add_pos_iff_pos_or_pos, List.exists_mem_cons_iff]
    exact or_congr Iff.rfl ih

private theorem splitOn_join_lines {lines : List String} (each : ∀ line ∈ lines, OneLine line) :
    (String.join (lines.map (· ++ "\n"))).toList.splitOn '\n' = lines.map String.toList ++ [[]] := by
  have joined : (String.join (lines.map (· ++ "\n"))).toList =
      ['\n'].intercalate (lines.map String.toList ++ [[]]) := by
    rw [String.toList_join, List.flatMap_map]
    induction lines with
    | nil => rfl
    | cons line lines ih =>
      have others := ih (List.forall_mem_cons.mp each).2
      obtain ⟨first, rest, split⟩ := List.exists_cons_of_ne_nil
        (List.append_ne_nil_of_right_ne_nil (lines.map String.toList) (List.cons_ne_nil [] []))
      rw [List.flatMap_cons, others, String.toList_append, List.map_cons, List.cons_append, split,
        List.intercalate_cons_cons]
      rfl
  rw [joined, List.splitOn_intercalate]
  · intro cs member
    rcases List.mem_append.mp member with line | last
    · obtain ⟨l, listed, rfl⟩ := List.mem_map.mp line
      exact each l listed
    · rw [List.mem_singleton.mp last]
      exact List.not_mem_nil
  · simp

/-- The forms of a report agree. The JSON text stands for the reports, and the views of all reports
are read back from it by the keys of its objects. All findings are warnings or
errors; the summary counts each defect and each finding once, and a run that went through ends with
an error status exactly if the summary counts an error. Where no name of a file holds a line break,
the lines of the plain text are one for each defect and, for each finding, one and then one for each
of its notes. -/
theorem formats_agree (reports : List FileReport) (produced : ∀ r ∈ reports, r.Produced) :
    Json.ofText (renderJson reports) = .ok (.arr (reports.map FileReport.toJson)) ∧
    ((Json.ofText (renderJson reports)).toOption.bind (Json.list? ReportView.ofJson?) =
      some (reports.map FileReport.view)) ∧
    (∀ r ∈ reports, ∀ f ∈ r.findings, f.severity = .warning ∨ f.severity = .error) ∧
    (∃ W E, summary reports = toString W ++ " warning(s), " ++ toString E ++ " error(s)" ∧
      W + E = total (fun r => r.defects.length + r.findings.length) reports ∧
      (0 < E ↔ ∃ r ∈ reports, r.hasErrors = true) ∧
      ∀ (o : Options) (journal : List JournalEntry),
        (o.success journal reports).status = if 0 < E then 1 else 0) ∧
    ((∀ r ∈ reports, OneLine r.source.name) →
      (renderText reports).toList.splitOn '\n' = (reports.flatMap fun r =>
        (r.defects.map fun d => placed (r.source.spanLocation d.span) ("error: " ++ d.message)) ++
          r.findings.flatMap fun f => placed (r.source.spanLocation f.span) f.toText ::
            f.notes.map fun n =>
              placed (r.source.spanLocation n.span) ("note: " ++ n.message)).map String.toList ++
        [[]]) := by
  have nested : Json.Nested 7 (.arr (reports.map FileReport.toJson)) := by
    refine .arr fun v member => ?_
    obtain ⟨r, -, rfl⟩ := List.mem_map.mp member
    exact r.nested_toJson
  have read : Json.ofText (renderJson reports) = .ok (.arr (reports.map FileReport.toJson)) :=
    Json.ofText_eq (nested.mono (by decide)) (Json.spelling_pretty _ 0).spelledBy
  refine ⟨read, ?_, fun r member f => FileReport.severity_of_mem_findings (produced r member),
    ⟨total FileReport.warningCount reports, total FileReport.errorCount reports, rfl, ?_, ?_, ?_⟩, ?_⟩
  · have views := Json.list?_map ReportView.ofJson?_toJson (reports.map FileReport.view)
    rw [List.map_map] at views
    rw [read]
    exact views
  · rw [total_add]
    exact total_congr fun r member => FileReport.warningCount_add_errorCount (produced r member)
  · simp only [total_pos_iff, FileReport.errorCount_pos_iff]
  · intro o journal
    have errors : reports.any FileReport.hasErrors = decide (0 < total FileReport.errorCount reports) := by
      rw [Bool.eq_iff_iff, List.any_eq_true, decide_eq_true_eq, total_pos_iff]
      simp only [FileReport.errorCount_pos_iff]
    rw [Options.success, errors]
    cases o.format.getD .text <;> simp
  · intro files
    refine splitOn_join_lines fun line member => ?_
    obtain ⟨r, listed, own⟩ := List.mem_flatMap.mp member
    exact FileReport.oneLine_of_mem_lines (produced r listed) (files r listed) line own

/-- The report on a function that calls itself, with a stray line break in a character behind it. -/
def recursiveSample : FileReport := (checkSource {} "k.cl" "void k() { k(); } '\n'").report

theorem formats_agree_sample : recursiveSample.Produced ∧ OneLine recursiveSample.source.name ∧
    Json.ofText (renderJson [recursiveSample]) = .ok (.arr [recursiveSample.toJson]) ∧
    ((Json.ofText (renderJson [recursiveSample])).toOption.bind (Json.list? ReportView.ofJson?) =
      some [recursiveSample.view]) ∧
    (renderText [recursiveSample]).toList.splitOn '\n' =
      recursiveSample.lines.map String.toList ++ [[]] := by
  have produced : recursiveSample.Produced := ⟨{}, "k.cl", _, rfl⟩
  have name : OneLine recursiveSample.source.name := by
    rw [recursiveSample, checkSource]
    exact (by decide : OneLine "k.cl")
  obtain ⟨json, views, -, -, text⟩ := formats_agree [recursiveSample] (List.forall_mem_singleton.mpr produced)
  have lines := text (List.forall_mem_singleton.mpr name)
  rw [List.flatMap_singleton] at lines
  exact ⟨produced, name, json, views, lines⟩

end Lockstep
