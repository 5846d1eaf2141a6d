import Lockstep.Tree.Item
/-!
What the checks watch for, as one list in the order in which it happens. Calls, assignments and
initial values come behind everything inside them; a counting loop comes behind its start, a `do`
loop behind its body; chains of `if` and switches come before everything inside them.
-/

set_option autoImplicit false
set_option relaxedAutoImplicit false

namespace Lockstep

inductive Event where
  | function (f : Function)
  /-- A declared name gets an initial value. -/
  | init (d : Declarator) (value : Expr)
  | assign (e target value : Expr)
  | call (e callee : Expr)
  /-- A bare name that is not the callee of a call. -/
  | name (e : Expr)
  | loop (kind : LoopKind) (s : Stmt) (cond : Expr)
  /-- The first `if` of a chain; the links behind its `else` are not told apart. -/
  | ifChain (s : Stmt)
  | switch (s : Stmt) (cond : Expr) (body : Stmt)

namespace Expr

mutual

def events : Expr → List Event
  | int _ _ | float _ _ | char _ | str _ _ | sizeofType _ _ => []
  | e@(name _ _) => [.name e]
  | e@(call _ (name nameSpan n) args) => eventsAll args ++ [.call e (name nameSpan n)]
  | e@(call _ callee args) => events callee ++ eventsAll args ++ [.call e callee]
  | member _ base _ _ => events base
  | index _ base sub => events base ++ events sub
  | unary _ _ operand | post _ _ operand | cast _ _ operand | sizeofExpr _ operand => events operand
  | binary _ _ lhs rhs => events lhs ++ events rhs
  | e@(assign _ _ target value) => events target ++ events value ++ [.assign e target value]
  | conditional _ cond thenExpr elseExpr => events cond ++ events thenExpr ++ events elseExpr
  | initList _ items => eventsAll items

def eventsAll : List Expr → List Event
  | [] => []
  | e :: es => events e ++ eventsAll es

end

end Expr

def Declarator.events (d : Declarator) : List Event :=
  Expr.eventsAll (d.dims.filterMap id) ++
    match d.init with
    | some value => value.events ++ [.init d value]
    | none => []

def Decl.events (d : Decl) : List Event := d.declarators.flatMap Declarator.events

def ForInit.events : ForInit → List Event
  | decl d => d.events
  | expr _ e => e.events

namespace Stmt

/-- The event of a chain of `if` that starts at the statement. -/
def chainStart : Stmt → List Event
  | s@(ifThen _ _ _) | s@(ifElse _ _ _ _) => [.ifChain s]
  | _ => []

mutual

/-- All events of the statement but the start of a chain. -/
def innerEvents : Stmt → List Event
  | compound _ body => eventsAll body
  | decl _ d => d.events
  | expr _ e | caseLabel _ e => e.events
  | returnJump _ value => Expr.eventsAll value.toList
  | ifThen _ cond t => cond.events ++ (t.chainStart ++ innerEvents t)
  | ifElse _ cond t e => cond.events ++ (t.chainStart ++ innerEvents t) ++ innerEvents e
  | s@(forLoop _ init cond step body) =>
    init.toList.flatMap ForInit.events ++
      cond.toList.flatMap (fun c => .loop .forLoop s c :: c.events) ++
      Expr.eventsAll step.toList ++ (body.chainStart ++ innerEvents body)
  | s@(whileLoop _ cond body) =>
    .loop .whileLoop s cond :: cond.events ++ (body.chainStart ++ innerEvents body)
  | s@(doLoop _ body cond) =>
    body.chainStart ++ innerEvents body ++ .loop .doLoop s cond :: cond.events
  | s@(switch _ cond body) =>
    .switch s cond body :: cond.events ++ (body.chainStart ++ innerEvents body)
  | defaultLabel _ | breakJump _ | continueJump _ | gotoJump _ _ | label _ _ | empty _ => []

def eventsAll : List Stmt → List Event
  | [] => []
  | s :: ss => s.chainStart ++ innerEvents s ++ eventsAll ss

end

def events (s : Stmt) : List Event := s.chainStart ++ s.innerEvents

end Stmt

def Item.events : Item → List Event
  | function f => .function f :: (f.body.toList.flatMap fun b => Stmt.eventsAll b.stmts)
  | global d => d.events
  | struct _ | typedef _ => []

def SourceUnit.events (u : SourceUnit) : List Event := u.items.flatMap Item.events

end Lockstep
