import Lockstep.Grammar.Expr
import Lockstep.Tree.Stmt
/-!
Declarations and statements. A statement that cannot be read is skipped, nested braces included, up
to its semicolon or to the brace that closes the block around it; it counts as an empty statement
and the failure is reported.
-/

set_option autoImplicit false
set_option relaxedAutoImplicit false

namespace Lockstep

namespace Grammar

open Lockstep.Parser

def arrayDims : Parser (List (Option Expr)) :=
  many (between .lBracket (optional expr) .rBracket)

def declarator : Parser Declarator := do
  let ((pointers, name, dims, init), span) ← spanned do
    let pointers ← stars
    let name ← ident
    let dims ← arrayDims
    let init ← optional (after (sign .eq) expr)
    return (pointers, name, dims, init)
  return ⟨pointers, name, dims, init, span⟩

def decl : Parser Decl := do
  let ((ty, declarators), span) ← spanned do
    let ty ← plainType
    let declarators ← commaSep1 declarator
    return (ty, declarators)
  return ⟨ty, declarators, span⟩

def inertToken : Parser Unit := do
  let _ ← guard anyToken fun t =>
    t != .sign .semicolon && t != .sign .lBrace && t != .sign .rBrace
  return ()

/-- Skips a broken statement: at least one token or group, then its end. -/
def brokenStmt : Parser Unit := do
  let _ ← many1 (choice [braceGroup, inertToken])
  choice [sign .semicolon, lookAhead (sign .rBrace), lookAhead atEnd]

def bracedStmts (stmt : Parser Stmt) : Parser (List Stmt) := between .lBrace (many stmt) .rBrace

def parenCond : Parser Expr := between .lParen expr .rParen

def forInit : Parser ForInit :=
  or (ForInit.decl <$> decl) do
    let (e, span) ← spanned expr
    return .expr span e

def forHead : Parser (Option ForInit × Option Expr × Option Expr) :=
  between .lParen (do
    let init ← before (optional forInit) (sign .semicolon)
    let cond ← before (optional expr) (sign .semicolon)
    let step ← optional expr
    return (init, cond, step)) .rParen

def ifStmt (stmt : Parser Stmt) : Parser (Span → Stmt) := do
  keyword .kwIf
  let cond ← parenCond
  let thenBranch ← stmt
  let elseBranch ← optional (after (keyword .kwElse) stmt)
  match elseBranch with
  | none => return fun span => .ifThen span cond thenBranch
  | some e => return fun span => .ifElse span cond thenBranch e

def forStmt (stmt : Parser Stmt) : Parser (Span → Stmt) := do
  keyword .kwFor
  let (init, cond, step) ← forHead
  let body ← stmt
  return fun span => .forLoop span init cond step body

def whileStmt (stmt : Parser Stmt) : Parser (Span → Stmt) := do
  keyword .kwWhile
  let cond ← parenCond
  let body ← stmt
  return fun span => .whileLoop span cond body

def doStmt (stmt : Parser Stmt) : Parser (Span → Stmt) := do
  keyword .kwDo
  let body ← stmt
  keyword .kwWhile
  let cond ← parenCond
  sign .semicolon
  return fun span => .doLoop span body cond

def switchStmt (stmt : Parser Stmt) : Parser (Span → Stmt) := do
  keyword .kwSwitch
  let cond ← parenCond
  let body ← stmt
  return fun span => .switch span cond body

def caseLabel : Parser (Span → Stmt) := do
  keyword .kwCase
  let value ← before expr (sign .colon)
  return fun span => .caseLabel span value

def defaultLabel : Parser (Span → Stmt) := do
  keyword .kwDefault
  sign .colon
  return .defaultLabel

def jump : Parser (Span → Stmt) :=
  before (choice [
    (fun _ => .breakJump) <$> keyword .kwBreak,
    (fun _ => .continueJump) <$> keyword .kwContinue,
    do
      keyword .kwReturn
      let value ← optional expr
      return fun span => .returnJump span value,
    do
      keyword .kwGoto
      let target ← ident
      return fun span => .gotoJump span target]) (sign .semicolon)

def label : Parser (Span → Stmt) := do
  let name ← before ident (sign .colon)
  return fun span => .label span name

def declStmt : Parser (Span → Stmt) := do
  let d ← before decl (sign .semicolon)
  return fun span => .decl span d

def exprStmt : Parser (Span → Stmt) := do
  let e ← before expr (sign .semicolon)
  return fun span => .expr span e

/-- A statement without its range, the statements inside it read by `stmt`. -/
def stmtBody (stmt : Parser Stmt) : Parser (Span → Stmt) :=
  choice [
    (fun body span => .compound span body) <$> bracedStmts stmt,
    ifStmt stmt,
    forStmt stmt,
    whileStmt stmt,
    doStmt stmt,
    switchStmt stmt,
    caseLabel,
    defaultLabel,
    jump,
    label,
    declStmt,
    exprStmt,
    (fun _ => .empty) <$> sign .semicolon]

/-- A statement or what is skipped for a broken one, the statements inside it read by `stmt`. -/
def stmtRule (stmt : Parser Stmt) : Parser Stmt := do
  let (make, span) ← spanned (recover (stmtBody stmt) ((fun _ => .empty) <$> brokenStmt))
  return make span

def stmt : Parser Stmt := fix stmtRule

end Grammar

end Lockstep
