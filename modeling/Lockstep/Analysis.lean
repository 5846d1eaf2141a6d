import Lockstep.Check.Barriers
import Lockstep.Check.Cycles
import Lockstep.Check.Kernels
import Lockstep.Check.Loops
import Lockstep.Event
import Lockstep.Journal
import Lockstep.Naming.Resolve
import Lockstep.Taint.Propagate
/-!
The analysis of one source file: a fold over its events. Every event may extend the taint store or
the call map, and the checks that are switched on look at what has happened so far. Switching a
check off changes nothing but its own findings.
-/

set_option autoImplicit false
set_option relaxedAutoImplicit false

namespace Lockstep

/-- What has come out so far, in the order in which it happened. -/
structure Analysis where
  store : TaintStore := {}
  calls : CallMap := {}
  findings : List Finding := []
  journal : List JournalEntry := []

/-- What the analysis of a file is run against. -/
structure Subject where
  context : Context
  source : SourceText

namespace Analysis

def note (a : Analysis) (topic : JournalTopic) (message : String) : Analysis :=
  { a with journal := a.journal ++ [⟨.debug, topic, message⟩] }

def emit (a : Analysis) (source : SourceText) (findings : List Finding) : Analysis :=
  findings.foldl (fun a f =>
    { a with findings := a.findings ++ [f] }.note .analysis
      ("finding at " ++ (source.spanLocation f.span).toText ++ ": " ++ f.toText)) a

def emitIf (a : Analysis) (s : Subject) (check : Check) (findings : List Finding) : Analysis :=
  if s.context.settings.enabled check then a.emit s.source findings else a

def receive (a : Analysis) (x : Context) (target : Key) (value : Expr) (span : Span) : Analysis :=
  let noted := match x.influx a.store target value with
    | some (.identityCall callee _) =>
      a.note .taint ("taint: " ++ x.describe target ++ " assigned from identity call '" ++ callee ++ "'")
    | some (.reference r) =>
      a.note .taint ("taint: " ++ x.describe target ++ " copied from " ++ r.describe)
    | none => a
  { noted with store := x.propagate a.store target value span }

/-- A function is called or referred to; outside all functions this leaves no trace. -/
def callSite (a : Analysis) (s : Subject) (callee : String) (span : Span) : Analysis :=
  if (a.calls.enclosing span).isEmpty then a
  else
    let a := { a with calls := a.calls.recordCall callee span }
    a.emitIf s .recursion
      (checkCycle a.calls callee span s.context.settings.maxRecursionDepth).toList

/-- Comment on the verdict on a construct, if the barrier check is switched on and came to one. -/
def noteVerdict (a : Analysis) (s : Subject) (construct : String) (verdict : Option Verdict) :
    Analysis :=
  match verdict with
  | some v =>
    if s.context.settings.enabled .barrier then
      a.note .barriers ("barrier: " ++ construct ++ " proof " ++ v.spelled)
    else a
  | none => a

def step (s : Subject) (a : Analysis) : Event → Analysis
  | .function f =>
    if f.body.isNone then a
    else
      let a := { a with calls := a.calls.recordFunction f.name.name f.span }
      a.emitIf s .singleWorkItem (checkKernel s.context s.source f).toList
  | .init d value =>
    match s.context.names.varDecls.lookup d.name.span with
    | some position => a.receive s.context (.var position) value d.span
    | none => a
  | .assign e target value =>
    match s.context.keyOf target with
    | some key => a.receive s.context key value e.span
    | none => a
  | .call _ callee =>
    match s.context.names.calleeName callee with
    | some name => a.callSite s name callee.span
    | none => a
  | .name e =>
    match s.context.names.functionRef e with
    | some name => a.callSite s name e.span
    | none => a
  | .loop kind stmt cond =>
    let a := a.emitIf s .backwardBranch (checkLoopCondition s.context a.store kind cond).toList
    a.emitIf s .barrier (s.context.checkLoopBarriers s.source a.store kind stmt cond)
  | .ifChain stmt =>
    let a := a.noteVerdict s "if/else" ((s.context.chainVerdict a.store stmt).map Prod.fst)
    a.emitIf s .barrier (s.context.checkChain s.source a.store stmt)
  | .switch stmt cond body =>
    let verdict := (s.context.switchVerdict a.store stmt cond body).map Prod.fst
    let a := a.noteVerdict s "switch" verdict
    a.emitIf s .barrier (s.context.checkSwitch s.source a.store stmt cond body)

/-- The findings by where they start; those that start together stay in the order in which they
were made. -/
def sortedFindings (a : Analysis) : List Finding :=
  a.findings.mergeSort fun f g => f.span.start ≤ g.span.start

end Analysis

def analyze (source : SourceText) (settings : Settings) (unit : SourceUnit) : Analysis :=
  unit.events.foldl (Analysis.step ⟨⟨resolve unit, settings⟩, source⟩) {}

end Lockstep
