import Lockstep.Tree.Stmt
/-!
The top level of a source file: structure definitions, type aliases, functions and variables.
-/

set_option autoImplicit false
set_option relaxedAutoImplicit false

namespace Lockstep

structure Block where
  stmts : List Stmt
  span : Span
deriving Repr

structure Field where
  ty : TypeSpec
  name : Ident
deriving Repr

/-- A structure with its fields. The alias is the name that a `typedef` gives it. -/
structure StructDef where
  tag : Option Ident
  aka : Option Ident
  fields : List Field
  span : Span
deriving Repr

structure Typedef where
  ty : TypeSpec
  aka : Ident
  span : Span
deriving Repr

/-- A parameter; it may be unnamed, as in `(void)`. -/
structure Param where
  ty : TypeSpec
  name : Option Ident
  span : Span
deriving Repr

/-- A function prototype, or a definition when there is a body. -/
structure Function where
  isKernel : Bool
  ret : TypeSpec
  name : Ident
  params : List Param
  body : Option Block
  span : Span
deriving Repr

inductive Item where
  | struct (d : StructDef)
  | typedef (d : Typedef)
  | function (f : Function)
  | global (d : Decl)
deriving Repr

structure SourceUnit where
  items : List Item
  span : Span
deriving Repr

def Block.nodes (b : Block) : List Node := b.stmts.flatMap Stmt.preorder

end Lockstep
