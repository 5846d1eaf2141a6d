import Lockstep.Naming.Resolution
import Lockstep.Settings.Basic
import Lockstep.Taint.Store
/-!
Questions about expressions: what a call targets, which declaration an expression denotes, and
whether a value differs between work-items. It does when a visible part of it calls an identity
function or, failing that, refers to a declaration on record. Under the policy `exclude` the index
of an indexed access is not visible.
-/

set_option autoImplicit false
set_option relaxedAutoImplicit false

namespace Lockstep

/-- What a call reaches, as far as that is known before running. -/
inductive CallTarget where
  | identity (name : String)
  | barrier (name : String)
  | other (name : String)
  | unresolved
deriving DecidableEq, Repr

structure TaintedRef where
  key : Key
  name : String
  span : Span
deriving DecidableEq, Repr

inductive Dependence where
  | identityCall (callee : String) (span : Span)
  | reference (r : TaintedRef)
deriving DecidableEq, Repr

def Key.describe (k : Key) (name : String) : String :=
  match k with
  | var _ => "variable '" ++ name ++ "'"
  | field _ => "member '" ++ name ++ "'"

def TaintedRef.describe (r : TaintedRef) : String := r.key.describe r.name

namespace Expr

variable {β : Type}

mutual

/-- The first answer of `ask`, an expression before its operands and these from left to right; under
`exclude` the index of an indexed access is left out. -/
def firstVisible (policy : IndexPolicy) (ask : Expr → Option β) : Expr → Option β
  | e@(int _ _) | e@(float _ _) | e@(char _) | e@(str _ _) | e@(name _ _) | e@(sizeofType _ _) =>
    ask e
  | e@(call _ callee args) =>
    ask e <|> firstVisible policy ask callee <|> firstVisibleAmong policy ask args
  | e@(member _ base _ _) => ask e <|> firstVisible policy ask base
  | e@(index _ base sub) =>
    ask e <|> firstVisible policy ask base <|>
      (if policy = .exclude then none else firstVisible policy ask sub)
  | e@(unary _ _ operand) | e@(post _ _ operand) | e@(cast _ _ operand) | e@(sizeofExpr _ operand) =>
    ask e <|> firstVisible policy ask operand
  | e@(binary _ _ lhs rhs) =>
    ask e <|> firstVisible policy ask lhs <|> firstVisible policy ask rhs
  | e@(assign _ _ target value) =>
    ask e <|> firstVisible policy ask target <|> firstVisible policy ask value
  | e@(conditional _ cond thenExpr elseExpr) =>
    ask e <|> firstVisible policy ask cond <|> firstVisible policy ask thenExpr <|>
      firstVisible policy ask elseExpr
  | e@(initList _ items) => ask e <|> firstVisibleAmong policy ask items

def firstVisibleAmong (policy : IndexPolicy) (ask : Expr → Option β) : List Expr → Option β
  | [] => none
  | e :: es => firstVisible policy ask e <|> firstVisibleAmong policy ask es

end

end Expr

/-- What questions about expressions are asked against. -/
structure Context where
  names : Resolution
  settings : Settings

namespace Context

/-- What an expression calls; `none` if it is no call. -/
def callTarget (x : Context) : Expr → Option CallTarget
  | .call _ callee _ =>
    some <| match x.names.calleeName callee with
    | some name =>
      if x.settings.isIdentity name then .identity name
      else if x.settings.isBarrier name then .barrier name
      else .other name
    | none => .unresolved
  | _ => none

def isBarrierCall (x : Context) (e : Expr) : Bool :=
  match x.callTarget e with
  | some (.barrier _) => true
  | _ => false

theorem isBarrierCall_iff {x : Context} {e : Expr} :
    x.isBarrierCall e = true ↔ ∃ name, x.callTarget e = some (.barrier name) := by
  unfold isBarrierCall
  split
  · rename_i name target
    exact ⟨fun _ => ⟨name, target⟩, fun _ => rfl⟩
  · rename_i other
    simpa using other

/-- The identity function that an expression calls; `none` if it is no such call. -/
def identityCallee (x : Context) (e : Expr) : Option String :=
  match x.callTarget e with
  | some (.identity name) => some name
  | _ => none

theorem isSome_identityCallee_iff {x : Context} {e : Expr} :
    (x.identityCallee e).isSome = true ↔ ∃ name, x.callTarget e = some (.identity name) := by
  unfold identityCallee
  split
  · rename_i name target
    exact ⟨fun _ => ⟨name, target⟩, fun _ => rfl⟩
  · rename_i other
    simpa using other

def findIdentityCall (x : Context) (e : Expr) : Option Expr :=
  e.firstVisible x.settings.indexPolicy fun e => if (x.identityCallee e).isSome then some e else none

def keyOf (x : Context) (e : Expr) : Option Key :=
  (x.names.varRef e).map .var <|> (x.names.memberRef e).map .field

def nameOf (x : Context) : Key → String
  | .var i => (x.names.vars[i]?.map Variable.name).getD ""
  | .field i => (x.names.fields[i]?.map FieldInfo.name).getD ""

def describe (x : Context) (k : Key) : String := k.describe (x.nameOf k)

/-- The reference that an expression itself is, if its declaration is on record. -/
def taintedRef (x : Context) (store : TaintStore) (e : Expr) : Option TaintedRef :=
  match x.keyOf e with
  | some key => if store.contains key then some ⟨key, x.nameOf key, e.span⟩ else none
  | none => none

def scan (x : Context) (store : TaintStore) (e : Expr) : Option TaintedRef :=
  e.firstVisible x.settings.indexPolicy (x.taintedRef store)

/-- Why the value of an expression differs between work-items, if it does. -/
def dependence (x : Context) (store : TaintStore) (e : Expr) : Option Dependence :=
  match x.findIdentityCall e with
  | some call => some (.identityCall ((x.identityCallee call).getD "") call.span)
  | none => (x.scan store e).map .reference

end Context

end Lockstep
