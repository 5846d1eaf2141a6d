import Lockstep.Tree.Expr
/-!
Declarations and statements. A `Node` is a statement or an expression; `Stmt.children` lists what
stands directly inside a statement in source order, and `Stmt.preorder` everything inside it.
-/

set_option autoImplicit false
set_option relaxedAutoImplicit false

namespace Lockstep

/-- One declared name with its own stars, array bounds and initial value; a bound may be left out. -/
structure Declarator where
  pointers : Nat
  name : Ident
  dims : List (Option Expr)
  init : Option Expr
  span : Span
deriving Repr

structure Decl where
  ty : TypeSpec
  declarators : List Declarator
  span : Span
deriving Repr

def Declarator.exprs (d : Declarator) : List Expr :=
  d.dims.filterMap id ++ d.init.toList

def Decl.exprs (d : Decl) : List Expr := d.declarators.flatMap Declarator.exprs

/-- What a counting loop runs once, before its first test. -/
inductive ForInit where
  | decl (d : Decl)
  | expr (span : Span) (e : Expr)
deriving Repr

inductive Stmt where
  | compound (span : Span) (body : List Stmt)
  | decl (span : Span) (d : Decl)
  | expr (span : Span) (e : Expr)
  | ifThen (span : Span) (cond : Expr) (thenBranch : Stmt)
  | ifElse (span : Span) (cond : Expr) (thenBranch elseBranch : Stmt)
  | forLoop (span : Span) (init : Option ForInit) (cond step : Option Expr) (body : Stmt)
  | whileLoop (span : Span) (cond : Expr) (body : Stmt)
  | doLoop (span : Span) (body : Stmt) (cond : Expr)
  | switch (span : Span) (cond : Expr) (body : Stmt)
  /-- `case value:`, a label like any other statement of a switch body. -/
  | caseLabel (span : Span) (value : Expr)
  | defaultLabel (span : Span)
  | breakJump (span : Span)
  | continueJump (span : Span)
  | returnJump (span : Span) (value : Option Expr)
  | gotoJump (span : Span) (target : Ident)
  | label (span : Span) (name : Ident)
  | empty (span : Span)
deriving Repr

/-- A loop form with a condition that can branch backward. -/
inductive LoopKind where
  | forLoop | whileLoop | doLoop
deriving DecidableEq, Repr

inductive Node where
  | stmt (s : Stmt)
  | expr (e : Expr)
deriving Repr

def ForInit.toStmt : ForInit → Stmt
  | decl d => .decl d.span d
  | expr span e => .expr span e

def ForInit.exprs : ForInit → List Expr
  | decl d => d.exprs
  | expr _ e => [e]

namespace Stmt

def span : Stmt → Span
  | compound s _ | decl s _ | expr s _ | ifThen s _ _ | ifElse s _ _ _ | forLoop s _ _ _ _
  | whileLoop s _ _ | doLoop s _ _ | switch s _ _ | caseLabel s _ | defaultLabel s | breakJump s
  | continueJump s | returnJump s _ | gotoJump s _ | label s _ | empty s => s

/-- What stands directly inside the statement, in source order. -/
def children : Stmt → List Node
  | compound _ body => body.map .stmt
  | decl _ d => d.exprs.map .expr
  | expr _ e | caseLabel _ e => [.expr e]
  | returnJump _ value => value.toList.map .expr
  | ifThen _ cond t => [.expr cond, .stmt t]
  | ifElse _ cond t e => [.expr cond, .stmt t, .stmt e]
  | forLoop _ init cond step body =>
    init.toList.map (fun i => .stmt i.toStmt) ++ cond.toList.map .expr ++ step.toList.map .expr ++
      [.stmt body]
  | whileLoop _ cond body | switch _ cond body => [.expr cond, .stmt body]
  | doLoop _ body cond => [.stmt body, .expr cond]
  | defaultLabel _ | breakJump _ | continueJump _ | gotoJump _ _ | label _ _ | empty _ => []

def exprNodes (es : List Expr) : List Node := es.flatMap fun e => e.preorder.map .expr

mutual

/-- The statement and everything inside it, each node before what it contains. -/
def preorder : Stmt → List Node
  | s@(compound _ body) => .stmt s :: preorderAll body
  | s@(decl _ d) => .stmt s :: exprNodes d.exprs
  | s@(expr _ e) | s@(caseLabel _ e) => .stmt s :: exprNodes [e]
  | s@(returnJump _ value) => .stmt s :: exprNodes value.toList
  | s@(ifThen _ cond t) => .stmt s :: (exprNodes [cond] ++ preorder t)
  | s@(ifElse _ cond t e) => .stmt s :: (exprNodes [cond] ++ (preorder t ++ preorder e))
  | s@(forLoop _ init cond step body) =>
    .stmt s :: (init.toList.flatMap (fun i => .stmt i.toStmt :: exprNodes i.exprs) ++
      (exprNodes (cond.toList ++ step.toList) ++ preorder body))
  | s@(whileLoop _ cond body) | s@(switch _ cond body) =>
    .stmt s :: (exprNodes [cond] ++ preorder body)
  | s@(doLoop _ body cond) => .stmt s :: (preorder body ++ exprNodes [cond])
  | s@(defaultLabel _) | s@(breakJump _) | s@(continueJump _) | s@(gotoJump _ _) | s@(label _ _)
  | s@(empty _) => [.stmt s]

def preorderAll : List Stmt → List Node
  | [] => []
  | s :: ss => preorder s ++ preorderAll ss

end

/-- Does the statement transfer control or open a nested branch? A `break` is told apart by those
that ask. -/
def isBranching : Stmt → Bool
  | ifThen _ _ _ | ifElse _ _ _ _ | forLoop _ _ _ _ _ | whileLoop _ _ _ | doLoop _ _ _
  | switch _ _ _ | returnJump _ _ | continueJump _ | gotoJump _ _ | label _ _ => true
  | _ => false

end Stmt

namespace Node

def span : Node → Span
  | stmt s => s.span
  | expr e => e.span

def children : Node → List Node
  | stmt s => s.children
  | expr e => e.children.map .expr

def preorder : Node → List Node
  | stmt s => s.preorder
  | expr e => e.preorder.map .expr

def call? : Node → Option Expr
  | expr e => if e.isCall then some e else none
  | stmt _ => none

end Node

theorem Stmt.preorderAll_eq_flatMap (ss : List Stmt) :
    Stmt.preorderAll ss = ss.flatMap Stmt.preorder := by
  induction ss with
  | nil => rfl
  | cons s ss ih => simp [Stmt.preorderAll, ih]

end Lockstep
