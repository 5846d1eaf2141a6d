import Lockstep.Branch.Chain
import Lockstep.Taint.Scan
/-!
Does every way through a branching construct meet the same positive number of barriers? One pass
over the flat layout counts the barrier calls of each segment and gives up at the first thing it
cannot follow: a nested branch, a jump, or a call of anything but a barrier.
-/

set_option autoImplicit false
set_option relaxedAutoImplicit false

namespace Lockstep

/-- Why some work-items are known to miss a barrier. Segments count from zero. -/
inductive Imbalance where
  | missingElse
  | missingDefault
  | noBarrier (segment : Nat)
  | countMismatch (segment expected found : Nat)
deriving DecidableEq, Repr

def Imbalance.message : Imbalance → String
  | missingElse => "the chain has no final 'else' branch"
  | missingDefault => "the switch has no 'default' label"
  | noBarrier segment => "branch " ++ toString (segment + 1) ++ " contains no barrier call"
  | countMismatch segment expected found =>
    "branch " ++ toString (segment + 1) ++ " contains " ++ toString found ++
      " barrier call(s) where branch 1 contains " ++ toString expected

inductive Obstacle where
  | nestedBranch
  | jump
  | nonBarrierCall (name : String)
  | unresolvedCallee
  | callInCondition
  | fallthroughAfterBarrier
  | barrierOutsideCase
deriving DecidableEq, Repr

def Obstacle.message : Obstacle → String
  | nestedBranch => "nested branch or loop"
  | jump => "jump statement"
  | nonBarrierCall name => "call to non-barrier function '" ++ name ++ "'"
  | unresolvedCallee => "call with no statically known callee"
  | callInCondition => "function call in branch condition"
  | fallthroughAfterBarrier => "fall-through into the next case after a barrier"
  | barrierOutsideCase => "barrier outside any case"

inductive Verdict where
  | balanced
  | unbalanced (why : Imbalance)
  | unknown (span : Span) (why : Obstacle)
deriving DecidableEq, Repr

structure Tally where
  /-- The count of the first segment that was closed. -/
  target : Option Nat := none
  /-- The segment being counted. -/
  segment : Nat := 0
  current : Nat := 0
  /-- Is a segment being counted? -/
  active : Bool := false

namespace Tally

def start (t : Tally) (segment : Nat) : Tally :=
  { t with segment, current := 0, active := true }

/-- Close the segment being counted: its count is positive and that of the first one. -/
def close (t : Tally) : Except Imbalance Tally :=
  if t.current = 0 then .error (.noBarrier t.segment)
  else
    match t.target with
    | none => .ok { t with target := some t.current, active := false }
    | some expected =>
      if expected = t.current then .ok { t with active := false }
      else .error (.countMismatch t.segment expected t.current)

def settle (t : Tally) : Except Imbalance Tally := if t.active then t.close else .ok t

/-- Where a branch of a chain begins, close the one before it and start counting anew. -/
def enter (t : Tally) : Mark → Except Imbalance Tally
  | .segmentStart n =>
    match t.settle with
    | .ok t => .ok (t.start n)
    | .error why => .error why
  | _ => .ok t

def count (t : Tally) : Tally := { t with current := t.current + 1 }

end Tally

/-- How a node inside a segment affects the count. -/
inductive Step where
  | neutral
  | barrier
  | breakOut
  | obstacle (span : Span) (why : Obstacle)

namespace Context

def step (x : Context) : Node → Step
  | .stmt s =>
    match s with
    | .breakJump _ => .breakOut
    | .ifThen .. | .ifElse .. | .forLoop .. | .whileLoop .. | .doLoop .. | .switch .. =>
      .obstacle s.span .nestedBranch
    | s => if s.isBranching then .obstacle s.span .jump else .neutral
  | .expr e =>
    match x.callTarget e with
    | none => .neutral
    | some (.barrier _) => .barrier
    | some (.identity name) | some (.other name) => .obstacle e.span (.nonBarrierCall name)
    | some .unresolved => .obstacle e.span .unresolvedCallee

def judgeChainNodes (x : Context) (t : Tally) : List (Mark × Node) → Verdict
  | [] =>
    match t.settle with
    | .ok _ => .balanced
    | .error why => .unbalanced why
  | (.link, _) :: rest => x.judgeChainNodes t rest
  | (.condition, node) :: rest =>
    match node.call? with
    | some call =>
      if (x.identityCallee call).isSome then x.judgeChainNodes t rest
      else .unknown call.span .callInCondition
    | none => x.judgeChainNodes t rest
  | (mark, node) :: rest =>
    match t.enter mark with
    | .error why => .unbalanced why
    | .ok t =>
      match x.step node with
      | .neutral => x.judgeChainNodes t rest
      | .barrier => x.judgeChainNodes t.count rest
      | .breakOut => .unknown node.span .jump
      | .obstacle span why => .unknown span why

def judgeChain (x : Context) (flat : Flat) : Verdict :=
  if flat.exhaustive then x.judgeChainNodes {} flat.nodes else .unbalanced .missingElse

/--
Count through the nodes of a switch body, `next` being the number of the next segment. A label
opens a segment and `break` closes it; labels met on the way share the segment they fall into.
-/
def judgeSwitchNodes (x : Context) (t : Tally) (next : Nat) : List (Mark × Node) → Verdict
  | [] =>
    match t.settle with
    | .ok t => if t.target.isNone then .unbalanced (.noBarrier 0) else .balanced
    | .error why => .unbalanced why
  | (.label, node) :: rest =>
    if t.active then
      if 0 < t.current then .unknown node.span .fallthroughAfterBarrier
      else x.judgeSwitchNodes t next rest
    else x.judgeSwitchNodes (t.start next) (next + 1) rest
  | (_, node) :: rest =>
    match x.step node with
    | .neutral => x.judgeSwitchNodes t next rest
    | .barrier =>
      if t.active then x.judgeSwitchNodes t.count next rest
      else .unknown node.span .barrierOutsideCase
    | .breakOut =>
      match t.settle with
      | .ok t => x.judgeSwitchNodes t next rest
      | .error why => .unbalanced why
    | .obstacle span why => .unknown span why

def judgeSwitch (x : Context) (flat : Flat) : Verdict :=
  if flat.exhaustive then x.judgeSwitchNodes {} 0 flat.nodes else .unbalanced .missingDefault

end Context

end Lockstep
