import Lockstep.Proofs.Tree.Preorder
import Lockstep.Tree.Item
/-!
The nodes of a whole source file, and the names that stand in it: those that are declared, by
declarators and named parameters, and those that are nothing but a name. What stands inside a node
of the file is a part of these nodes.
-/

set_option autoImplicit false
set_option relaxedAutoImplicit false

namespace Lockstep

def Item.nodes : Item → List Node
  | function f => f.body.toList.flatMap Block.nodes
  | global d => Stmt.exprNodes d.exprs
  | struct _ | typedef _ => []

def SourceUnit.nodes (u : SourceUnit) : List Node := u.items.flatMap Item.nodes

namespace Node

/-- The range and the name, if the node is an expression that is nothing but a name. -/
def name? : Node → Option (Span × String)
  | expr (.name span n) => some (span, n)
  | _ => none

def member? : Node → Option Expr
  | expr (.member span base field arrow) => some (.member span base field arrow)
  | _ => none

def declares : Node → List Ident
  | stmt (.decl _ d) => d.declarators.map Declarator.name
  | _ => []

end Node

theorem Stmt.declares_exprNodes (es : List Expr) : (exprNodes es).flatMap Node.declares = [] := by
  simp [exprNodes, List.flatMap_assoc, List.flatMap_map, Node.declares]

/-- The names that an item declares: its own, its parameters and those in its body. -/
def Item.declares : Item → List Ident
  | function f => f.params.filterMap Param.name ++ (function f).nodes.flatMap Node.declares
  | global d => d.declarators.map Declarator.name
  | struct _ | typedef _ => []

namespace SourceUnit

/-- All expressions of a source file that are nothing but a name. -/
def names (u : SourceUnit) : List (Span × String) := u.nodes.filterMap Node.name?

def members (u : SourceUnit) : List Expr := u.nodes.filterMap Node.member?

def declares (u : SourceUnit) : List Ident := u.items.flatMap Item.declares

end SourceUnit

namespace Item

/-- What stands directly inside an item, in source order: the statements of a body, or the bounds and
initial values of variables. -/
def roots : Item → List Node
  | function f => f.body.toList.flatMap fun b => b.stmts.map .stmt
  | global d => d.exprs.map .expr
  | struct _ | typedef _ => []

theorem nodes_eq_flatMap (item : Item) : item.nodes = item.roots.flatMap Node.preorder := by
  cases item with
  | function f =>
    rw [nodes, roots, List.flatMap_assoc]
    congr 1
    funext b
    simp [Block.nodes, List.flatMap_map, Node.preorder]
  | global d => simp [nodes, roots, Stmt.exprNodes, List.flatMap_map, Node.preorder]
  | struct d => rfl
  | typedef d => rfl

end Item

namespace SourceUnit

theorem nodes_eq_flatMap (unit : SourceUnit) :
    unit.nodes = (unit.items.flatMap Item.roots).flatMap Node.preorder := by
  rw [nodes, List.flatMap_assoc]
  congr 1
  funext item
  exact item.nodes_eq_flatMap

theorem preorder_sublist {unit : SourceUnit} {n : Node} (inside : n ∈ unit.nodes) :
    n.preorder.Sublist unit.nodes := by
  rw [nodes_eq_flatMap] at inside ⊢
  exact Node.preorder_sublist_forest inside

end SourceUnit

end Lockstep
