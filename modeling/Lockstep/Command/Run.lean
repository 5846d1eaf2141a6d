import Lockstep.Command.Options
import Lockstep.Files.Check
import Lockstep.Report.Render
/-!
One run of the program: from its arguments, and the texts that paths lead to, to what it prints and
the status it ends with. The status is zero without errors, one if a report has some, and two if
the run could not be made.
-/

set_option autoImplicit false
set_option relaxedAutoImplicit false

namespace Lockstep

def programName : String := "simtlint"

def programVersion : String := "0.3.1"

def helpText : String := "simtlint — checks SIMT kernel sources for divergent loops, unreachable barriers and recursion

Usage: simtlint [OPTIONS] <SOURCES>...

Arguments:
  <SOURCES>...  Kernel source files

Options:
      --config <CONFIG>                            JSON configuration file
      --identity-fn <IDENTITY_FN>                  Identity function name (repeatable; replaces the defaults)
      --barrier-fn <BARRIER_FN>                    Barrier function name (repeatable; replaces the defaults)
      --max-recursion-depth <MAX_RECURSION_DEPTH>  Longest call cycle, in hops, that is reported
      --index-policy <INDEX_POLICY>                Whether an identity-dependent array index taints the access [possible values: propagate, exclude]
      --disable <DISABLE>                          Check to skip (repeatable) [possible values: backward-branch, barrier, recursion, single-work-item]
      --format <FORMAT>                            Output format [default: text] [possible values: text, json]
      --verbose                                    Log analysis progress to stderr
  -h, --help                                       Print help
  -V, --version                                    Print version
"

structure Outcome where
  status : Nat
  output : String
  /-- The text for the error channel. -/
  messages : String
deriving DecidableEq, Repr

def IndexPolicy.spelled : IndexPolicy → String
  | propagate => "Propagate"
  | exclude => "Exclude"

def Settings.spelled (s : Settings) : String :=
  let flag (b : Bool) := if b then "true" else "false"
  let names (ns : List String) := "[" ++ ", ".intercalate (ns.map escaped) ++ "]"
  spellRecord "CheckConfig" [
    ("identity_functions", names s.identityFunctions),
    ("barrier_functions", names s.barrierFunctions),
    ("max_recursion_depth", toString s.maxRecursionDepth),
    ("index_policy", s.indexPolicy.spelled),
    ("checks", spellRecord "EnabledChecks" [
      ("backward_branch", flag s.checks.backwardBranch),
      ("barrier", flag s.checks.barrier),
      ("recursion", flag s.checks.recursion),
      ("single_work_item", flag s.checks.singleWorkItem)])]

namespace Options

/-- The settings of a run: those of the settings file, or else the defaults, as far as the command
line does not say otherwise. -/
def settings (o : Options) (read : TextLookup) : Except FileFailure Settings :=
  match o.settingsPath with
  | none => .ok (o.override {})
  | some path => o.override <$> loadSettings read path

def shown (o : Options) (journal : List JournalEntry) : String :=
  String.join ((journal.filter fun e => o.verbose || e.level = .warn).map JournalEntry.line)

def notice (text : String) : String := programName ++ ": " ++ text ++ "\n"

def failure (o : Options) (journal : List JournalEntry) (reason : String) : Outcome :=
  ⟨2, "", o.shown journal ++ notice ("error: " ++ reason)⟩

def success (o : Options) (journal : List JournalEntry) (reports : List FileReport) : Outcome :=
  let status := if reports.any FileReport.hasErrors then 1 else 0
  match o.format.getD .text with
  | .text => ⟨status, renderText reports, o.shown journal ++ notice (summary reports)⟩
  | .json => ⟨status, renderJson reports ++ "\n", o.shown journal⟩

/-- Check all sources. The first that cannot be read fails the run, after the others have been
checked as well. -/
def run (o : Options) (read : TextLookup) : Outcome :=
  match o.settings read with
  | .error f => o.failure [] ("loading configuration: " ++ f.chain)
  | .ok settings =>
    let results := o.sources.map (checkFile read settings)
    let journal := results.flatMap fun
      | .ok checked => checked.journal
      | .error _ => []
    let journal := ⟨.debug, .command, "configuration: " ++ settings.spelled⟩ :: journal
    match results.mapM id with
    | .error f => o.failure journal f.chain
    | .ok all => o.success journal (all.map Checked.report)

end Options

def run (read : TextLookup) (arguments : List String) : Outcome :=
  match readArguments arguments with
  | .error .help => ⟨0, helpText, ""⟩
  | .error .version => ⟨0, programName ++ " " ++ programVersion ++ "\n", ""⟩
  | .error (.usage _) => ⟨2, "", ""⟩
  | .ok options => options.run read

def requestedPaths (arguments : List String) : List String :=
  match readArguments arguments with
  | .error _ => []
  | .ok options => options.settingsPath.toList ++ options.sources

end Lockstep
