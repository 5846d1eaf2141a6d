import Lockstep.Token.Basic
import Lockstep.Tree.Item
/-!
Trees and tokens at other places of a text: every byte offset is replaced by what a function gives
for it. Where all offsets are forgotten, what is left of a tree is its shape.
-/

set_option autoImplicit false
set_option relaxedAutoImplicit false

namespace Lockstep

def Span.relocate (f : Nat → Nat) (s : Span) : Span := ⟨f s.start, f s.stop⟩

@[simp]
theorem Span.relocate_through (f : Nat → Nat) (a b : Span) :
    (a.through b).relocate f = (a.relocate f).through (b.relocate f) := rfl

@[simp]
theorem Span.relocate_id (s : Span) : s.relocate id = s := rfl

def Lexeme.relocate (f : Nat → Nat) (l : Lexeme) : Lexeme := ⟨l.token, l.span.relocate f⟩

@[simp]
theorem Lexeme.token_relocate (f : Nat → Nat) (l : Lexeme) : (l.relocate f).token = l.token := rfl

@[simp]
theorem Lexeme.span_relocate (f : Nat → Nat) (l : Lexeme) :
    (l.relocate f).span = l.span.relocate f := rfl

@[simp]
theorem Lexeme.relocate_id (l : Lexeme) : l.relocate id = l := rfl

def Ident.relocate (f : Nat → Nat) (id : Ident) : Ident := ⟨id.name, id.span.relocate f⟩

@[simp]
theorem Ident.name_relocate (f : Nat → Nat) (id : Ident) : (id.relocate f).name = id.name := rfl

@[simp]
theorem Ident.relocate_id (x : Ident) : x.relocate id = x := rfl

def TypeName.relocate (f : Nat → Nat) : TypeName → TypeName
  | named id => named (id.relocate f)
  | struct tag => struct (tag.relocate f)

def TypeSpec.relocate (f : Nat → Nat) (ty : TypeSpec) : TypeSpec :=
  ⟨ty.name.relocate f, ty.pointers, ty.span.relocate f⟩

@[simp]
theorem TypeSpec.relocate_id (ty : TypeSpec) : ty.relocate id = ty := by
  obtain ⟨name, pointers, span⟩ := ty
  cases name <;> rfl

namespace Expr

mutual

def relocate (f : Nat → Nat) : Expr → Expr
  | int s n => int (s.relocate f) n
  | float s v => float (s.relocate f) v
  | char s => char (s.relocate f)
  | str s body => str (s.relocate f) body
  | name s n => name (s.relocate f) n
  | call s callee args => call (s.relocate f) (relocate f callee) (relocateAll f args)
  | member s base field arrow => member (s.relocate f) (relocate f base) (field.relocate f) arrow
  | index s base sub => index (s.relocate f) (relocate f base) (relocate f sub)
  | unary s op operand => unary (s.relocate f) op (relocate f operand)
  | post s op operand => post (s.relocate f) op (relocate f operand)
  | binary s op lhs rhs => binary (s.relocate f) op (relocate f lhs) (relocate f rhs)
  | assign s op target value => assign (s.relocate f) op (relocate f target) (relocate f value)
  | conditional s cond thenExpr elseExpr =>
    conditional (s.relocate f) (relocate f cond) (relocate f thenExpr) (relocate f elseExpr)
  | cast s ty operand => cast (s.relocate f) (ty.relocate f) (relocate f operand)
  | sizeofExpr s operand => sizeofExpr (s.relocate f) (relocate f operand)
  | sizeofType s ty => sizeofType (s.relocate f) (ty.relocate f)
  | initList s items => initList (s.relocate f) (relocateAll f items)

def relocateAll (f : Nat → Nat) : List Expr → List Expr
  | [] => []
  | e :: es => relocate f e :: relocateAll f es

end

theorem relocateAll_eq_map (f : Nat → Nat) (es : List Expr) :
    relocateAll f es = es.map (relocate f) := by
  induction es with
  | nil => rfl
  | cons e es ih => simp [relocateAll, ih]

@[simp]
theorem span_relocate (f : Nat → Nat) (e : Expr) : (e.relocate f).span = e.span.relocate f := by
  cases e <;> rfl

mutual

@[simp]
theorem relocate_id : ∀ e : Expr, e.relocate id = e
  | int _ _ | float _ _ | char _ | str _ _ | name _ _ => rfl
  | call s callee args => by simp [relocate, relocate_id callee, relocateAll_id args]
  | member s base field arrow => by simp [relocate, relocate_id base]
  | index s base sub => by simp [relocate, relocate_id base, relocate_id sub]
  | unary s op operand => by simp [relocate, relocate_id operand]
  | post s op operand => by simp [relocate, relocate_id operand]
  | binary s op lhs rhs => by simp [relocate, relocate_id lhs, relocate_id rhs]
  | assign s op target value => by simp [relocate, relocate_id target, relocate_id value]
  | conditional s cond t e => by
    simp [relocate, relocate_id cond, relocate_id t, relocate_id e]
  | cast s ty operand => by simp [relocate, relocate_id operand]
  | sizeofExpr s operand => by simp [relocate, relocate_id operand]
  | sizeofType s ty => by simp [relocate]
  | initList s items => by simp [relocate, relocateAll_id items]

private theorem relocateAll_id : ∀ es : List Expr, relocateAll id es = es
  | [] => rfl
  | e :: es => by simp [relocateAll, relocate_id e, relocateAll_id es]

end

theorem children_relocate (f : Nat → Nat) (e : Expr) :
    (e.relocate f).children = e.children.map (relocate f) := by
  cases e <;> simp [relocate, children, relocateAll_eq_map]

/-- Two expressions differ in their ranges only. -/
def SameShape (e e' : Expr) : Prop := e.relocate (fun _ => 0) = e'.relocate (fun _ => 0)

end Expr

def Declarator.relocate (f : Nat → Nat) (d : Declarator) : Declarator :=
  ⟨d.pointers, d.name.relocate f, d.dims.map (Option.map (Expr.relocate f)),
    d.init.map (Expr.relocate f), d.span.relocate f⟩

@[simp]
theorem Declarator.relocate_id (d : Declarator) : d.relocate id = d := by
  simp [relocate, funext Expr.relocate_id]

def Decl.relocate (f : Nat → Nat) (d : Decl) : Decl :=
  ⟨d.ty.relocate f, d.declarators.map (Declarator.relocate f), d.span.relocate f⟩

@[simp]
theorem Decl.relocate_id (d : Decl) : d.relocate id = d := by
  simp [relocate, funext Declarator.relocate_id]

def ForInit.relocate (f : Nat → Nat) : ForInit → ForInit
  | decl d => decl (d.relocate f)
  | expr s e => expr (s.relocate f) (e.relocate f)

@[simp]
theorem ForInit.relocate_id (init : ForInit) : init.relocate id = init := by
  cases init <;> simp [relocate]

namespace Stmt

mutual

def relocate (f : Nat → Nat) : Stmt → Stmt
  | compound s body => compound (s.relocate f) (relocateAll f body)
  | decl s d => decl (s.relocate f) (d.relocate f)
  | expr s e => expr (s.relocate f) (e.relocate f)
  | ifThen s cond t => ifThen (s.relocate f) (cond.relocate f) (relocate f t)
  | ifElse s cond t e => ifElse (s.relocate f) (cond.relocate f) (relocate f t) (relocate f e)
  | forLoop s init cond step body =>
    forLoop (s.relocate f) (init.map (ForInit.relocate f)) (cond.map (Expr.relocate f))
      (step.map (Expr.relocate f)) (relocate f body)
  | whileLoop s cond body => whileLoop (s.relocate f) (cond.relocate f) (relocate f body)
  | doLoop s body cond => doLoop (s.relocate f) (relocate f body) (cond.relocate f)
  | switch s cond body => switch (s.relocate f) (cond.relocate f) (relocate f body)
  | caseLabel s value => caseLabel (s.relocate f) (value.relocate f)
  | defaultLabel s => defaultLabel (s.relocate f)
  | breakJump s => breakJump (s.relocate f)
  | continueJump s => continueJump (s.relocate f)
  | returnJump s value => returnJump (s.relocate f) (value.map (Expr.relocate f))
  | gotoJump s target => gotoJump (s.relocate f) (target.relocate f)
  | label s name => label (s.relocate f) (name.relocate f)
  | empty s => empty (s.relocate f)

def relocateAll (f : Nat → Nat) : List Stmt → List Stmt
  | [] => []
  | s :: ss => relocate f s :: relocateAll f ss

end

theorem relocateAll_eq_map (f : Nat → Nat) (ss : List Stmt) :
    relocateAll f ss = ss.map (relocate f) := by
  induction ss with
  | nil => rfl
  | cons s ss ih => simp [relocateAll, ih]

mutual

@[simp]
theorem relocate_id : ∀ s : Stmt, s.relocate id = s
  | compound s body => by simp [relocate, relocateAll_id body]
  | decl s d => by simp [relocate]
  | expr s e => by simp [relocate]
  | ifThen s cond t => by simp [relocate, relocate_id t]
  | ifElse s cond t e => by simp [relocate, relocate_id t, relocate_id e]
  | forLoop s init cond step body => by
    simp [relocate, relocate_id body, funext ForInit.relocate_id, funext Expr.relocate_id]
  | whileLoop s cond body => by simp [relocate, relocate_id body]
  | doLoop s body cond => by simp [relocate, relocate_id body]
  | switch s cond body => by simp [relocate, relocate_id body]
  | caseLabel s value => by simp [relocate]
  | returnJump s value => by simp [relocate, funext Expr.relocate_id]
  | gotoJump s target => by simp [relocate]
  | label s name => by simp [relocate]
  | defaultLabel _ | breakJump _ | continueJump _ | empty _ => rfl

private theorem relocateAll_id : ∀ ss : List Stmt, relocateAll id ss = ss
  | [] => rfl
  | s :: ss => by simp [relocateAll, relocate_id s, relocateAll_id ss]

end

end Stmt

def Block.relocate (f : Nat → Nat) (b : Block) : Block :=
  ⟨b.stmts.map (Stmt.relocate f), b.span.relocate f⟩

@[simp]
theorem Block.relocate_id (b : Block) : b.relocate id = b := by
  simp [relocate, funext Stmt.relocate_id]

def Field.relocate (f : Nat → Nat) (x : Field) : Field := ⟨x.ty.relocate f, x.name.relocate f⟩

@[simp]
theorem Field.relocate_id (x : Field) : x.relocate id = x := by
  simp [relocate]

def StructDef.relocate (f : Nat → Nat) (d : StructDef) : StructDef :=
  ⟨d.tag.map (Ident.relocate f), d.aka.map (Ident.relocate f), d.fields.map (Field.relocate f),
    d.span.relocate f⟩

@[simp]
theorem StructDef.relocate_id (d : StructDef) : d.relocate id = d := by
  simp [relocate, funext Ident.relocate_id, funext Field.relocate_id]

def Typedef.relocate (f : Nat → Nat) (d : Typedef) : Typedef :=
  ⟨d.ty.relocate f, d.aka.relocate f, d.span.relocate f⟩

@[simp]
theorem Typedef.relocate_id (d : Typedef) : d.relocate id = d := by
  simp [relocate]

def Param.relocate (f : Nat → Nat) (p : Param) : Param :=
  ⟨p.ty.relocate f, p.name.map (Ident.relocate f), p.span.relocate f⟩

@[simp]
theorem Param.relocate_id (p : Param) : p.relocate id = p := by
  simp [relocate, funext Ident.relocate_id]

def Function.relocate (f : Nat → Nat) (g : Function) : Function :=
  ⟨g.isKernel, g.ret.relocate f, g.name.relocate f, g.params.map (Param.relocate f),
    g.body.map (Block.relocate f), g.span.relocate f⟩

@[simp]
theorem Function.relocate_id (g : Function) : g.relocate id = g := by
  simp [relocate, funext Param.relocate_id, funext Block.relocate_id]

def Item.relocate (f : Nat → Nat) : Item → Item
  | struct d => struct (d.relocate f)
  | typedef d => typedef (d.relocate f)
  | function g => function (g.relocate f)
  | global d => global (d.relocate f)

@[simp]
theorem Item.relocate_id (x : Item) : x.relocate id = x := by
  cases x <;> simp [relocate]

/-- What an item is apart from where it stands. -/
def Item.shape (x : Item) : Item := x.relocate fun _ => 0

end Lockstep
