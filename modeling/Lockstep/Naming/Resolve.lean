import Lockstep.Naming.Resolution
/-!
Resolution of names. A first pass lays out structures and functions in the order of the items; a
second follows the scopes of the file, of each function, of each block and of each counting loop.
A variable is visible from behind its array bounds on, so also in its own initial value.
-/

set_option autoImplicit false
set_option relaxedAutoImplicit false

namespace Lockstep

namespace Expr

mutual

/-- All subexpressions, operands before the expression they belong to. -/
def postorder : Expr → List Expr
  | e@(int _ _) | e@(float _ _) | e@(char _) | e@(str _ _) | e@(name _ _) | e@(sizeofType _ _) =>
    [e]
  | e@(call _ callee args) => postorder callee ++ postorderAll args ++ [e]
  | e@(member _ base _ _) => postorder base ++ [e]
  | e@(index _ base sub) => postorder base ++ postorder sub ++ [e]
  | e@(unary _ _ operand) | e@(post _ _ operand) | e@(cast _ _ operand) | e@(sizeofExpr _ operand) =>
    postorder operand ++ [e]
  | e@(binary _ _ lhs rhs) => postorder lhs ++ postorder rhs ++ [e]
  | e@(assign _ _ target value) => postorder target ++ postorder value ++ [e]
  | e@(conditional _ cond thenExpr elseExpr) =>
    postorder cond ++ postorder thenExpr ++ postorder elseExpr ++ [e]
  | e@(initList _ items) => postorderAll items ++ [e]

def postorderAll : List Expr → List Expr
  | [] => []
  | e :: es => postorder e ++ postorderAll es

end

end Expr

/-- The tables so far, with what is visible at the current point. -/
structure Scope where
  tables : Resolution := {}
  /-- Tags and aliases of structures, newest first. -/
  structNames : List (String × Nat) := []
  /-- Visible variables: the innermost scope first, in each the newest first. -/
  levels : List (List (String × Nat)) := [[]]
  counters : Counters := {}
  /-- Names of declared fields, newest entry first: all fields of the name, in the order of the text. -/
  fieldsByName : List (String × List Nat) := []
  /-- Names of fields that no structure declares, newest first. -/
  madeFields : List (String × Nat) := []

namespace Scope

def structOfType (s : Scope) (ty : TypeSpec) : Option Nat :=
  match ty.name with
  | .named id | .struct id => s.structNames.lookup id.name

def declaredFields (s : Scope) (name : String) : List Nat := (s.fieldsByName.lookup name).getD []

/-- Add one field of the structure at position `index`. -/
def addField (index : Nat) (owner : String) (s : Scope) (f : Field) : Scope :=
  let info : FieldInfo := ⟨f.name.name, some owner, some f.name.span, s.structOfType f.ty⟩
  let number := s.counters.next .field
  let structs := s.tables.structs.modify index fun t =>
    { t with fields := t.fields ++ [(f.name.name, number)] }
  { s with
    counters := s.counters.advance .field
    fieldsByName := (f.name.name, s.declaredFields f.name.name ++ [number]) :: s.fieldsByName
    tables := { s.tables with fields := s.tables.fields ++ [info], structs } }

/-- Add a structure. Its own names are known before its fields, which may point to it. -/
def addStruct (s : Scope) (d : StructDef) : Scope :=
  let index := s.tables.structs.length
  let name := ((d.aka <|> d.tag).map Ident.name).getD "<anonymous struct>"
  let names := (d.tag.toList ++ d.aka.toList).map fun id => (id.name, index)
  let s := { s with
    structNames := names.reverse ++ s.structNames
    tables := { s.tables with structs := s.tables.structs ++ [⟨name, []⟩] } }
  d.fields.foldl (addField index name) s

/-- Add a declaration of a function to what is known of it. -/
def addFunction (s : Scope) (f : Function) : Scope :=
  let known := s.tables.functions
  if known.any (·.name == f.name.name) then
    let functions := known.map fun g =>
      if g.name == f.name.name then
        { g with isKernel := g.isKernel || f.isKernel, hasBody := g.hasBody || f.body.isSome }
      else g
    { s with tables := { s.tables with functions } }
  else
    let info : FunctionInfo :=
      ⟨s.counters.next .function, f.name.name, f.name.span, f.isKernel, f.body.isSome⟩
    { s with
      counters := s.counters.advance .function
      tables := { s.tables with functions := known ++ [info] } }

def collect (s : Scope) : Item → Scope
  | .struct d => s.addStruct d
  | .typedef d =>
    match s.structOfType d.ty with
    | some index => { s with structNames := (d.aka.name, index) :: s.structNames }
    | none => s
  | .function f => s.addFunction f
  | .global _ => s

def laidOut (items : List Item) : Scope := items.foldl collect {}

def enter (s : Scope) : Scope := { s with levels := [] :: s.levels }

def leave (s : Scope) : Scope := { s with levels := s.levels.tail }

def declare (s : Scope) (name : Ident) (ty : TypeSpec) : Scope :=
  let number := s.counters.next .var
  let var : Variable := ⟨name.name, name.span, s.structOfType ty⟩
  let levels := match s.levels with
    | [] => []
    | level :: outer => ((name.name, number) :: level) :: outer
  { s with
    levels
    counters := s.counters.advance .var
    tables := { s.tables with
      vars := s.tables.vars ++ [var]
      varDecls := (name.span, number) :: s.tables.varDecls } }

def find? (s : Scope) (name : String) : Option Nat := s.levels.findSome? (·.lookup name)

/-- The structure of an expression whose parts are resolved already, as far as it is known. -/
def structOfExpr (s : Scope) : Expr → Option Nat
  | .name span _ => do
    let number ← s.tables.varRefs.lookup span
    let var ← s.tables.vars[number]?
    var.struct
  | .member span _ _ _ => do
    let number ← s.tables.memberRefs.lookup span
    let field ← s.tables.fields[number]?
    field.struct
  | .index _ base _ => s.structOfExpr base
  | .unary _ .deref operand => s.structOfExpr operand
  | .cast _ ty _ => s.structOfType ty
  | _ => none

def fieldOf (s : Scope) (struct : Option Nat) (name : String) : Option Nat := do
  let index ← struct
  let info ← s.tables.structs[index]?
  info.fields.lookup name

/-- The field that a member is known to stand for: that of the structure in front of it, else the
first one that any structure declares, else the one that was made for the name. -/
def field? (s : Scope) (struct : Option Nat) (name : String) : Option Nat :=
  s.fieldOf struct name <|> (s.declaredFields name).head? <|> s.madeFields.lookup name

/-- Resolve one member expression. If no field is known, one is made that all such members share. -/
def bindMember (s : Scope) (span : Span) (base : Expr) (name : String) : Scope :=
  match s.field? (s.structOfExpr base) name with
  | some number =>
    { s with tables := { s.tables with memberRefs := (span, number) :: s.tables.memberRefs } }
  | none =>
    let number := s.counters.next .field
    { s with
      counters := s.counters.advance .field
      madeFields := (name, number) :: s.madeFields
      tables := { s.tables with
        fields := s.tables.fields ++ [⟨name, none, none, none⟩]
        memberRefs := (span, number) :: s.tables.memberRefs } }

def visit (s : Scope) : Expr → Scope
  | .name span name =>
    match s.find? name with
    | some number =>
      { s with tables := { s.tables with varRefs := (span, number) :: s.tables.varRefs } }
    | none => s
  | .member span base field _ => s.bindMember span base field.name
  | _ => s

def resolveExpr (s : Scope) (e : Expr) : Scope := e.postorder.foldl visit s

def resolveExprs (s : Scope) (es : List Expr) : Scope := es.foldl resolveExpr s

def resolveDecl (s : Scope) (d : Decl) : Scope :=
  d.declarators.foldl (fun s x =>
    let s := s.resolveExprs (x.dims.filterMap id)
    let s := s.declare x.name d.ty
    s.resolveExprs x.init.toList) s

def resolveForInit (s : Scope) : ForInit → Scope
  | .decl d => s.resolveDecl d
  | .expr _ e => s.resolveExpr e

mutual

def resolveStmt (s : Scope) : Stmt → Scope
  | .compound _ body => (resolveStmts s.enter body).leave
  | .decl _ d => s.resolveDecl d
  | .expr _ e | .caseLabel _ e => s.resolveExpr e
  | .returnJump _ value => s.resolveExprs value.toList
  | .ifThen _ cond t => resolveStmt (s.resolveExpr cond) t
  | .ifElse _ cond t e => resolveStmt (resolveStmt (s.resolveExpr cond) t) e
  | .forLoop _ init cond step body =>
    let s := init.toList.foldl resolveForInit s.enter
    let s := s.resolveExprs (cond.toList ++ step.toList)
    (resolveStmt s body).leave
  | .whileLoop _ cond body | .switch _ cond body => resolveStmt (s.resolveExpr cond) body
  | .doLoop _ body cond => (resolveStmt s body).resolveExpr cond
  | .defaultLabel _ | .breakJump _ | .continueJump _ | .gotoJump _ _ | .label _ _ | .empty _ => s

def resolveStmts (s : Scope) : List Stmt → Scope
  | [] => s
  | x :: xs => resolveStmts (resolveStmt s x) xs

end

/-- A function: its parameters form one scope and its body one inside it. -/
def resolveFunction (s : Scope) (f : Function) : Scope :=
  let s := f.params.foldl (fun s p =>
    match p.name with
    | some name => s.declare name p.ty
    | none => s) s.enter
  let s := match f.body with
    | some body => (s.enter.resolveStmts body.stmts).leave
    | none => s
  s.leave

def resolveItem (s : Scope) : Item → Scope
  | .global d => s.resolveDecl d
  | .function f => s.resolveFunction f
  | .struct _ | .typedef _ => s

end Scope

def SourceUnit.scope (unit : SourceUnit) : Scope :=
  unit.items.foldl Scope.resolveItem (Scope.laidOut unit.items)

def resolve (unit : SourceUnit) : Resolution := unit.scope.tables

end Lockstep
