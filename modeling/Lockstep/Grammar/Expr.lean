import Lockstep.Grammar.Types
/-!
Expressions, one rule per tier of precedence. Operators of the binary tiers group from the left,
the conditional and the assignments from the right. Parentheses leave no node: an operator reaches
from the start of its first operand to the end of its last.
-/

set_option autoImplicit false
set_option relaxedAutoImplicit false

namespace Lockstep

inductive Suffix where
  | call (args : List Expr)
  | index (index : Expr)
  | member (field : Ident) (arrow : Bool)
  | post (op : PostOp)

/-- Attach a suffix that ends where `tail` does. -/
def Suffix.attach (base : Expr) (suffix : Suffix) (tail : Span) : Expr :=
  let span := base.span.through tail
  match suffix with
  | call args => .call span base args
  | index i => .index span base i
  | member field arrow => .member span base field arrow
  | post op => .post span op base

namespace Grammar

open Lockstep.Parser

def operatorOf {α : Type} (table : List (Sign × α)) : Parser α :=
  select fun
    | .sign s => table.lookup s
    | _ => none

def literal : Parser Expr := do
  let (make, span) ← spanned (select fun
    | .int n => some fun span => Expr.int span n
    | .float v => some fun span => Expr.float span v
    | .char => some fun span => Expr.char span
    | .str body => some fun span => Expr.str span body
    | _ => none)
  return make span

def nameExpr : Parser Expr := do
  let id ← ident
  return .name id.span id.name

def initList (expr : Parser Expr) : Parser Expr := do
  let (items, span) ← spanned (between .lBrace (commaSepEnd expr) .rBrace)
  return .initList span items

def atom (expr : Parser Expr) : Parser Expr :=
  choice [literal, nameExpr, between .lParen expr .rParen, initList expr]

def suffix (expr : Parser Expr) : Parser (Suffix × Span) :=
  spanned (choice [
    Suffix.call <$> between .lParen (commaSep expr) .rParen,
    Suffix.index <$> between .lBracket expr .rBracket,
    (Suffix.member · false) <$> after (sign .dot) ident,
    (Suffix.member · true) <$> after (sign .arrow) ident,
    (fun _ => Suffix.post .inc) <$> sign .plusPlus,
    (fun _ => Suffix.post .dec) <$> sign .minusMinus])

def suffixed (expr : Parser Expr) : Parser Expr := do
  let base ← atom expr
  let suffixes ← many (suffix expr)
  return suffixes.foldl (fun e (s, tail) => s.attach e tail) base

def unaryOps : List (Sign × UnaryOp) :=
  [(.minus, .neg), (.plus, .plus), (.bang, .not), (.tilde, .bitNot), (.star, .deref),
    (.amp, .addrOf), (.plusPlus, .preInc), (.minusMinus, .preDec)]

def castHead : Parser (TypeSpec × Span) := spanned (between .lParen castType .rParen)

def castOf (operand : Parser Expr) : Parser Expr := do
  let (ty, head) ← castHead
  let e ← operand
  return .cast (head.through e.span) ty e

/-- `(a, b, c)` behind a cast: the components of a vector. -/
def components (expr : Parser Expr) : Parser Expr := do
  let (items, span) ← spanned (between .lParen (commaSep1 expr) .rParen)
  return .initList span items

/-- An operand with what stands in front of it; behind that, `unary` reads the operand. -/
def unaryRule (expr unary : Parser Expr) : Parser Expr :=
  choice [
    do
      let (op, head) ← spanned (operatorOf unaryOps)
      let e ← unary
      return .unary (head.through e.span) op e,
    castOf (components expr),
    castOf unary,
    do
      let (ty, span) ← spanned (after (keyword .kwSizeof) (between .lParen castType .rParen))
      return .sizeofType span ty,
    do
      let (e, span) ← spanned (after (keyword .kwSizeof) unary)
      return .sizeofExpr span e,
    suffixed expr]

def unary (expr : Parser Expr) : Parser Expr := fix (unaryRule expr)

def tier (operator : Parser BinaryOp) (operand : Parser Expr) : Parser Expr :=
  chainLeft operand operator fun lhs op rhs => .binary (lhs.span.through rhs.span) op lhs rhs

def soleOperator (s : Sign) (op : BinaryOp) : Parser BinaryOp := (fun _ => op) <$> sign s

def binaryOperators : List (Parser BinaryOp) := [
  operatorOf [(.star, .mul), (.slash, .div), (.percent, .rem)],
  operatorOf [(.plus, .add), (.minus, .sub)],
  operatorOf [(.shl, .shl), (.shr, .shr)],
  operatorOf [(.lt, .lt), (.gt, .gt), (.le, .le), (.ge, .ge)],
  operatorOf [(.eqEq, .eq), (.notEq, .ne)],
  soleOperator .amp .bitAnd,
  soleOperator .caret .bitXor,
  soleOperator .pipe .bitOr,
  soleOperator .andAnd .logAnd,
  soleOperator .orOr .logOr]

def binary (expr : Parser Expr) : Parser Expr :=
  binaryOperators.foldl (fun operand operator => tier operator operand) (unary expr)

def conditional (expr : Parser Expr) : Parser Expr := do
  let cond ← binary expr
  let branches ← optional do
    sign .question
    let t ← expr
    sign .colon
    let e ← expr
    return (t, e)
  match branches with
  | none => return cond
  | some (t, e) => return .conditional (cond.span.through e.span) cond t e

def assignOps : List (Sign × AssignOp) :=
  [(.eq, .assign), (.starEq, .mul), (.slashEq, .div), (.percentEq, .rem), (.plusEq, .add),
    (.minusEq, .sub), (.shlEq, .shl), (.shrEq, .shr), (.ampEq, .and), (.caretEq, .xor),
    (.pipeEq, .or)]

def assignment (expr : Parser Expr) : Parser Expr := do
  let target ← conditional expr
  let rhs ← optional do
    let op ← operatorOf assignOps
    let value ← expr
    return (op, value)
  match rhs with
  | none => return target
  | some (op, value) => return .assign (target.span.through value.span) op target value

def expr : Parser Expr := fix assignment

end Grammar

end Lockstep
