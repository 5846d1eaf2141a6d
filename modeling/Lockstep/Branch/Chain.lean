import Lockstep.Tree.Stmt
/-!
Branching constructs laid out flat: every node inside, each before what it contains, with a mark for
the part it plays. A chain of `if` is seen as its links and the final `else`; a switch as its body
with the labels that are its own.
-/

set_option autoImplicit false
set_option relaxedAutoImplicit false

namespace Lockstep

/-- One `if` of a chain, with its condition and the statement under it. -/
structure Link where
  stmt : Stmt
  cond : Expr
  branch : Stmt

/-- A chain of `if … else if …`, and the statement behind the last `else` if there is one. -/
structure Chain where
  links : List Link
  final : Option Stmt

/-- A statement as a chain. One that is no `if` is a chain without links. -/
def Stmt.chain : Stmt → Chain
  | s@(.ifThen _ cond t) => ⟨[⟨s, cond, t⟩], none⟩
  | s@(.ifElse _ cond t e) => ⟨⟨s, cond, t⟩ :: e.chain.links, e.chain.final⟩
  | s => ⟨[], some s⟩

/-- The part a node plays in a branching construct. -/
inductive Mark where
  /-- An `if` that continues the chain. -/
  | link
  | condition
  /-- The first node of a branch, counted from zero. -/
  | segmentStart (n : Nat)
  /-- A label of the switch itself. -/
  | label
  | body
deriving DecidableEq, Repr

structure Flat where
  nodes : List (Mark × Node)
  /-- The number of branches or labels. -/
  segments : Nat
  /-- Is every outcome covered, by a final `else` or a `default`? -/
  exhaustive : Bool

def segmentNodes (n : Nat) (branch : Stmt) : List (Mark × Node) :=
  match branch.preorder with
  | [] => []
  | first :: rest => (.segmentStart n, first) :: rest.map (.body, ·)

/-- The nodes of link `n`; the first link is the construct itself and no node of it. -/
def linkNodes (n : Nat) (l : Link) : List (Mark × Node) :=
  (if n = 0 then [] else [(.link, .stmt l.stmt)]) ++
    l.cond.preorder.map (fun e => (.condition, .expr e)) ++ segmentNodes n l.branch

def Chain.flatten (c : Chain) : Flat :=
  let count := c.links.length
  { nodes :=
      c.links.zipIdx.flatMap (fun (l, n) => linkNodes n l) ++
        c.final.toList.flatMap (segmentNodes count)
    segments := count + c.final.toList.length
    exhaustive := c.final.isSome }

def bodyNodes (es : List Expr) : List (Mark × Node) := (Stmt.exprNodes es).map (.body, ·)

namespace Stmt

mutual

/-- The nodes of a switch body; `nested` tells whether they stand in a switch inside it, whose
labels are not the outer one's. -/
def switchNodes (nested : Bool) : Stmt → List (Mark × Node)
  | s@(compound _ body) => (.body, .stmt s) :: switchNodesAll nested body
  | s@(decl _ d) => (.body, .stmt s) :: bodyNodes d.exprs
  | s@(expr _ e) => (.body, .stmt s) :: bodyNodes [e]
  | s@(caseLabel _ e) => (if nested then .body else .label, .stmt s) :: bodyNodes [e]
  | s@(defaultLabel _) => [(if nested then .body else .label, .stmt s)]
  | s@(returnJump _ value) => (.body, .stmt s) :: bodyNodes value.toList
  | s@(ifThen _ cond t) => (.body, .stmt s) :: (bodyNodes [cond] ++ switchNodes nested t)
  | s@(ifElse _ cond t e) =>
    (.body, .stmt s) :: (bodyNodes [cond] ++ (switchNodes nested t ++ switchNodes nested e))
  | s@(forLoop _ init cond step body) =>
    (.body, .stmt s) ::
      (init.toList.flatMap (fun i => (.body, .stmt i.toStmt) :: bodyNodes i.exprs) ++
      (bodyNodes (cond.toList ++ step.toList) ++ switchNodes nested body))
  | s@(whileLoop _ cond body) => (.body, .stmt s) :: (bodyNodes [cond] ++ switchNodes nested body)
  | s@(doLoop _ body cond) => (.body, .stmt s) :: (switchNodes nested body ++ bodyNodes [cond])
  | s@(switch _ cond body) => (.body, .stmt s) :: (bodyNodes [cond] ++ switchNodes true body)
  | s@(breakJump _) | s@(continueJump _) | s@(gotoJump _ _) | s@(label _ _) | s@(empty _) =>
    [(.body, .stmt s)]

def switchNodesAll (nested : Bool) : List Stmt → List (Mark × Node)
  | [] => []
  | s :: ss => switchNodes nested s ++ switchNodesAll nested ss

end

def flattenSwitch (body : Stmt) : Flat :=
  let nodes := switchNodes false body
  let labels := nodes.filter (·.1 = .label)
  let isDefault : Mark × Node → Bool
    | (_, .stmt (.defaultLabel _)) => true
    | _ => false
  ⟨nodes, labels.length, labels.any isDefault⟩

end Stmt

end Lockstep
