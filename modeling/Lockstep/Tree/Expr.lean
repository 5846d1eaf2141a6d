import Lockstep.Number.Binary64
import Lockstep.Text.Span
/-!
Expressions of kernel source, each with the range it was read from. `Expr.children` lists the direct
operands in source order and `Expr.preorder` all subexpressions, an expression before its operands.
-/

set_option autoImplicit false
set_option relaxedAutoImplicit false

namespace Lockstep

structure Ident where
  name : String
  span : Span
deriving DecidableEq, Repr

/-- The base of a type: a builtin or defined name, or a structure tag. -/
inductive TypeName where
  | named (id : Ident)
  | struct (tag : Ident)
deriving DecidableEq, Repr

/-- A type as declared: qualifiers leave no trace, pointer stars are counted. -/
structure TypeSpec where
  name : TypeName
  pointers : Nat
  span : Span
deriving DecidableEq, Repr

inductive UnaryOp where
  | neg | plus | not | bitNot | deref | addrOf | preInc | preDec
deriving DecidableEq, Repr

/-- The operators written after their operand. -/
inductive PostOp where
  | inc | dec
deriving DecidableEq, Repr

inductive BinaryOp where
  | mul | div | rem | add | sub | shl | shr | lt | gt | le | ge | eq | ne
  | bitAnd | bitXor | bitOr | logAnd | logOr
deriving DecidableEq, Repr

inductive AssignOp where
  | assign | mul | div | rem | add | sub | shl | shr | and | xor | or
deriving DecidableEq, Repr

inductive Expr where
  | int (span : Span) (value : Nat)
  | float (span : Span) (value : Binary64)
  | char (span : Span)
  | str (span : Span) (body : String)
  /-- A bare name: a variable or a function. -/
  | name (span : Span) (name : String)
  | call (span : Span) (callee : Expr) (args : List Expr)
  /-- `base.field`, or `base->field` when `arrow` holds. -/
  | member (span : Span) (base : Expr) (field : Ident) (arrow : Bool)
  | index (span : Span) (base sub : Expr)
  | unary (span : Span) (op : UnaryOp) (operand : Expr)
  | post (span : Span) (op : PostOp) (operand : Expr)
  | binary (span : Span) (op : BinaryOp) (lhs rhs : Expr)
  | assign (span : Span) (op : AssignOp) (target value : Expr)
  | conditional (span : Span) (cond thenExpr elseExpr : Expr)
  | cast (span : Span) (ty : TypeSpec) (operand : Expr)
  | sizeofExpr (span : Span) (operand : Expr)
  | sizeofType (span : Span) (ty : TypeSpec)
  | initList (span : Span) (items : List Expr)
deriving Inhabited, Repr

namespace Expr

def span : Expr → Span
  | int s _ | float s _ | char s | str s _ | name s _ | call s _ _ | member s _ _ _ | index s _ _
  | unary s _ _ | post s _ _ | binary s _ _ _ | assign s _ _ _ | conditional s _ _ _ | cast s _ _
  | sizeofExpr s _ | sizeofType s _ | initList s _ => s

def children : Expr → List Expr
  | int _ _ | float _ _ | char _ | str _ _ | name _ _ | sizeofType _ _ => []
  | call _ callee args => callee :: args
  | member _ base _ _ => [base]
  | index _ base sub => [base, sub]
  | unary _ _ operand | post _ _ operand | cast _ _ operand | sizeofExpr _ operand => [operand]
  | binary _ _ lhs rhs => [lhs, rhs]
  | assign _ _ target value => [target, value]
  | conditional _ cond thenExpr elseExpr => [cond, thenExpr, elseExpr]
  | initList _ items => items

mutual

/-- The expression and all below it, each before its operands. -/
def preorder : Expr → List Expr
  | e@(int _ _) | e@(float _ _) | e@(char _) | e@(str _ _) | e@(name _ _) | e@(sizeofType _ _) =>
    [e]
  | e@(call _ callee args) => e :: (preorder callee ++ preorderAll args)
  | e@(member _ base _ _) => e :: preorder base
  | e@(index _ base sub) => e :: (preorder base ++ preorder sub)
  | e@(unary _ _ operand) | e@(post _ _ operand) | e@(cast _ _ operand) | e@(sizeofExpr _ operand) =>
    e :: preorder operand
  | e@(binary _ _ lhs rhs) => e :: (preorder lhs ++ preorder rhs)
  | e@(assign _ _ target value) => e :: (preorder target ++ preorder value)
  | e@(conditional _ cond thenExpr elseExpr) =>
    e :: (preorder cond ++ (preorder thenExpr ++ preorder elseExpr))
  | e@(initList _ items) => e :: preorderAll items

def preorderAll : List Expr → List Expr
  | [] => []
  | e :: es => preorder e ++ preorderAll es

end

def isCall : Expr → Bool
  | call _ _ _ => true
  | _ => false

theorem preorderAll_eq_flatMap (es : List Expr) : preorderAll es = es.flatMap preorder := by
  induction es with
  | nil => rfl
  | cons e es ih => simp [preorderAll, ih]

theorem preorder_eq_cons (e : Expr) : e.preorder = e :: e.children.flatMap preorder := by
  cases e <;> simp [preorder, children, preorderAll_eq_flatMap]

end Expr

end Lockstep
