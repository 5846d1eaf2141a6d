import Lockstep.Settings.Text
import Lockstep.Token.Rules
/-!
The command line. Arguments are read from the left: options may stand before, between and behind
the sources, a valued option takes its value behind `=` or as the next argument, and `--` makes
everything after it a source.
-/

set_option autoImplicit false
set_option relaxedAutoImplicit false

namespace Lockstep

inductive OutputFormat where
  | text | json
deriving DecidableEq, Repr

def OutputFormat.table : List (String × OutputFormat) := [("text", .text), ("json", .json)]

def Check.table : List (String × Check) := [
  ("backward-branch", .backwardBranch),
  ("barrier", .barrier),
  ("recursion", .recursion),
  ("single-work-item", .singleWorkItem)]

structure Options where
  sources : List String := []
  settingsPath : Option String := none
  identityFunctions : List String := []
  barrierFunctions : List String := []
  maxRecursionDepth : Option Nat := none
  indexPolicy : Option IndexPolicy := none
  disabled : List Check := []
  format : Option OutputFormat := none
  verbose : Bool := false
deriving DecidableEq, Repr

inductive ValuedOption where
  | config | identityFn | barrierFn | maxRecursionDepth | indexPolicy | disable | format
deriving DecidableEq, Repr

def ValuedOption.table : List (String × ValuedOption) := [
  ("config", .config),
  ("identity-fn", .identityFn),
  ("barrier-fn", .barrierFn),
  ("max-recursion-depth", .maxRecursionDepth),
  ("index-policy", .indexPolicy),
  ("disable", .disable),
  ("format", .format)]

inductive FlagOption where
  | verbose | help | version
deriving DecidableEq, Repr

def FlagOption.table : List (String × FlagOption) :=
  [("verbose", .verbose), ("help", .help), ("version", .version)]

inductive UsageError where
  | unknownOption (argument : String)
  | missingValue (option : ValuedOption)
  | invalidValue (option : ValuedOption) (value : String)
  | unexpectedValue (option : FlagOption)
  | repeatedOption (option : ValuedOption)
  | repeatedFlag (option : FlagOption)
  | emptySource
  | noSource
deriving DecidableEq, Repr

/-- Why reading the command line stops before there is anything to check. -/
inductive Halt where
  | help
  | version
  | usage (error : UsageError)
deriving DecidableEq, Repr

/-- A decimal number of up to 64 bits, with or without a plus sign. -/
def readDepth (text : String) : Option Nat :=
  let digits := match text.toList with
    | '+' :: rest => rest
    | cs => cs
  if digits.isEmpty || !digits.all Char.isDigit then none
  else
    let n := numeral 10 digits
    if n < Nat.pow 2 64 then some n else none

namespace Options

def setOnce {α : Type} (option : ValuedOption) (old : Option α) (value : String)
    (read : String → Option α) : Except Halt (Option α) :=
  match old, read value with
  | some _, _ => .error (.usage (.repeatedOption option))
  | none, none => .error (.usage (.invalidValue option value))
  | none, some a => .ok (some a)

def set (o : Options) (option : ValuedOption) (value : String) : Except Halt Options := do
  match option with
  | .config =>
    let read (path : String) := if path = "" then none else some path
    return { o with settingsPath := ← setOnce option o.settingsPath value read }
  | .identityFn => return { o with identityFunctions := o.identityFunctions ++ [value] }
  | .barrierFn => return { o with barrierFunctions := o.barrierFunctions ++ [value] }
  | .maxRecursionDepth =>
    return { o with maxRecursionDepth := ← setOnce option o.maxRecursionDepth value readDepth }
  | .indexPolicy =>
    return { o with indexPolicy := ← setOnce option o.indexPolicy value (IndexPolicy.table.lookup ·) }
  | .disable =>
    match Check.table.lookup value with
    | some check => return { o with disabled := o.disabled ++ [check] }
    | none => throw (.usage (.invalidValue option value))
  | .format =>
    return { o with format := ← setOnce option o.format value (OutputFormat.table.lookup ·) }

/-- Raise a flag; two of them end the reading. -/
def raiseFlag (o : Options) : FlagOption → Except Halt Options
  | .help => .error .help
  | .version => .error .version
  | .verbose =>
    if o.verbose then .error (.usage (.repeatedFlag .verbose)) else .ok { o with verbose := true }

def addSource (o : Options) (path : String) : Except Halt Options :=
  if path = "" then .error (.usage .emptySource) else .ok { o with sources := o.sources ++ [path] }

/-- The settings after the command line has had its say; its lists of functions, if not empty,
replace those of the settings. -/
def override (o : Options) (s : Settings) : Settings :=
  let s := { s with
    identityFunctions := if o.identityFunctions.isEmpty then s.identityFunctions else o.identityFunctions
    barrierFunctions := if o.barrierFunctions.isEmpty then s.barrierFunctions else o.barrierFunctions
    maxRecursionDepth := o.maxRecursionDepth.getD s.maxRecursionDepth
    indexPolicy := o.indexPolicy.getD s.indexPolicy }
  o.disabled.foldl Settings.disable s

end Options

structure ArgumentReader where
  options : Options := {}
  /-- The option whose value comes next. -/
  pending : Option ValuedOption := none
  /-- Has `--` been met? -/
  sourcesOnly : Bool := false
deriving DecidableEq, Repr

namespace ArgumentReader

def isDashed (argument : List Char) : Bool :=
  match argument with
  | '-' :: _ :: _ => true
  | _ => false

/-- An option spelt out, without its dashes: its name, and perhaps a value behind `=`. -/
def long (r : ArgumentReader) (body : List Char) : Except Halt ArgumentReader := do
  let name := String.ofList (body.takeWhile (· ≠ '='))
  let value? := match body.dropWhile (· ≠ '=') with
    | [] => none
    | _ :: value => some (String.ofList value)
  match ValuedOption.table.lookup name, FlagOption.table.lookup name, value? with
  | some option, _, some value => return { r with options := ← r.options.set option value }
  | some option, _, none => return { r with pending := some option }
  | none, some flag, none => return { r with options := ← r.options.raiseFlag flag }
  | none, some flag, some _ => throw (.usage (.unexpectedValue flag))
  | none, none, _ => throw (.usage (.unknownOption name))

def step (r : ArgumentReader) (argument : String) : Except Halt ArgumentReader := do
  if r.sourcesOnly then return { r with options := ← r.options.addSource argument }
  match r.pending, argument.toList with
  | some option, cs =>
    if isDashed cs then throw (.usage (.missingValue option))
    return { r with options := ← r.options.set option argument, pending := none }
  | none, ['-', '-'] => return { r with sourcesOnly := true }
  | none, '-' :: '-' :: body => r.long body
  | none, '-' :: 'h' :: _ => return { r with options := ← r.options.raiseFlag .help }
  | none, '-' :: 'V' :: _ => return { r with options := ← r.options.raiseFlag .version }
  | none, '-' :: _ :: _ => throw (.usage (.unknownOption argument))
  | none, _ => return { r with options := ← r.options.addSource argument }

def finish (r : ArgumentReader) : Except Halt Options :=
  match r.pending with
  | some option => .error (.usage (.missingValue option))
  | none => if r.options.sources.isEmpty then .error (.usage .noSource) else .ok r.options

end ArgumentReader

def readArguments (arguments : List String) : Except Halt Options := do
  (← arguments.foldlM ArgumentReader.step {}).finish

end Lockstep
