import Lockstep.Naming.Resolve
import Lockstep.Proofs.Tree.Nodes
import Mathlib.Data.List.Perm.Basic
/-!
The second pass of resolution as a list of actions: scopes are entered and left, variables declared
and expressions visited. What a single action keeps the whole pass keeps. Apart from scopes, the
actions are those that the nodes of the file ask for; so each table is entered under the ranges of
its nodes and no others.
-/

set_option autoImplicit false
set_option relaxedAutoImplicit false

namespace Lockstep

inductive Action where
  | enter
  | leave
  | declare (id : Ident) (ty : TypeSpec)
  | visit (e : Expr)

def Scope.act (s : Scope) : Action → Scope
  | .enter => s.enter
  | .leave => s.leave
  | .declare id ty => s.declare id ty
  | .visit e => s.visit e

def Expr.actions (e : Expr) : List Action := e.postorder.map .visit

def Declarator.actions (ty : TypeSpec) (x : Declarator) : List Action :=
  (x.dims.filterMap id).flatMap Expr.actions ++
    .declare x.name ty :: x.init.toList.flatMap Expr.actions

def Decl.actions (d : Decl) : List Action := d.declarators.flatMap (Declarator.actions d.ty)

def ForInit.actions : ForInit → List Action
  | decl d => d.actions
  | expr _ e => e.actions

namespace Stmt

mutual

def actions : Stmt → List Action
  | compound _ body => .enter :: (actionsAll body ++ [.leave])
  | decl _ d => d.actions
  | expr _ e | caseLabel _ e => e.actions
  | returnJump _ value => value.toList.flatMap Expr.actions
  | ifThen _ cond t | whileLoop _ cond t | switch _ cond t => cond.actions ++ actions t
  | ifElse _ cond t e => cond.actions ++ (actions t ++ actions e)
  | forLoop _ init cond step body =>
    .enter :: (init.toList.flatMap ForInit.actions ++
      ((cond.toList ++ step.toList).flatMap Expr.actions ++ (actions body ++ [.leave])))
  | doLoop _ body cond => actions body ++ cond.actions
  | defaultLabel _ | breakJump _ | continueJump _ | gotoJump _ _ | label _ _ | empty _ => []

def actionsAll : List Stmt → List Action
  | [] => []
  | s :: ss => actions s ++ actionsAll ss

end

private theorem actionsAll_eq_flatMap (ss : List Stmt) : actionsAll ss = ss.flatMap actions := by
  induction ss with
  | nil => rfl
  | cons s ss ih => rw [actionsAll, ih, List.flatMap_cons]

end Stmt

/-- The named parameters in the scope of the function, its body in one inside it. -/
def Function.actions (f : Function) : List Action :=
  .enter :: (f.params.filterMap (fun p => p.name.map (.declare · p.ty)) ++
    (f.body.toList.flatMap (fun b => .enter :: (Stmt.actionsAll b.stmts ++ [.leave])) ++ [.leave]))

def Item.actions : Item → List Action
  | global d => d.actions
  | function f => f.actions
  | struct _ | typedef _ => []

def SourceUnit.actions (unit : SourceUnit) : List Action := unit.items.flatMap Item.actions

namespace Scope

private theorem resolveExpr_eq (s : Scope) (e : Expr) :
    s.resolveExpr e = e.actions.foldl act s := by
  rw [resolveExpr, Expr.actions, List.foldl_map]
  rfl

private theorem foldl_eq {α : Type} {resolve : Scope → α → Scope} {actions : α → List Action}
    (each : ∀ s a, resolve s a = (actions a).foldl act s) (as : List α) (s : Scope) :
    as.foldl resolve s = (as.flatMap actions).foldl act s := by
  rw [List.foldl_flatMap]
  congr 1
  funext s a
  exact each s a

private theorem resolveExprs_eq (s : Scope) (es : List Expr) :
    s.resolveExprs es = (es.flatMap Expr.actions).foldl act s :=
  foldl_eq resolveExpr_eq es s

private theorem resolveDecl_eq (s : Scope) (d : Decl) :
    s.resolveDecl d = d.actions.foldl act s := by
  refine foldl_eq (fun s x => ?_) d.declarators s
  simp only [resolveExprs_eq, Declarator.actions, List.foldl_append, List.foldl_cons]
  rfl

private theorem resolveForInit_eq (s : Scope) (i : ForInit) :
    s.resolveForInit i = i.actions.foldl act s := by
  cases i with
  | decl d => exact s.resolveDecl_eq d
  | expr span e => exact s.resolveExpr_eq e

mutual

private theorem resolveStmt_eq (s : Scope) : (x : Stmt) → s.resolveStmt x = x.actions.foldl act s
  | .compound _ body => by
    rw [resolveStmt, resolveStmts_eq s.enter body, Stmt.actions, List.foldl_cons, List.foldl_append]
    rfl
  | .decl _ d => s.resolveDecl_eq d
  | .expr _ e | .caseLabel _ e => s.resolveExpr_eq e
  | .returnJump _ value => s.resolveExprs_eq value.toList
  | .ifThen _ cond t | .whileLoop _ cond t | .switch _ cond t => by
    rw [resolveStmt, resolveStmt_eq _ t, resolveExpr_eq, Stmt.actions, List.foldl_append]
  | .ifElse _ cond t e => by
    rw [resolveStmt, resolveStmt_eq _ e, resolveStmt_eq _ t, resolveExpr_eq, Stmt.actions,
      List.foldl_append, List.foldl_append]
  | .forLoop _ init cond step body => by
    rw [resolveStmt, resolveStmt_eq _ body, resolveExprs_eq, foldl_eq resolveForInit_eq,
      Stmt.actions, List.foldl_cons, List.foldl_append, List.foldl_append, List.foldl_append]
    rfl
  | .doLoop _ body cond => by
    rw [resolveStmt, resolveExpr_eq, resolveStmt_eq s body, Stmt.actions, List.foldl_append]
  | .defaultLabel _ | .breakJump _ | .continueJump _ | .gotoJump _ _ | .label _ _ | .empty _ => rfl

private theorem resolveStmts_eq (s : Scope) :
    (xs : List Stmt) → s.resolveStmts xs = (Stmt.actionsAll xs).foldl act s
  | [] => rfl
  | x :: xs => by
    rw [resolveStmts, resolveStmts_eq _ xs, resolveStmt_eq s x, Stmt.actionsAll, List.foldl_append]

end

def declareParam (s : Scope) (p : Param) : Scope :=
  match p.name with
  | some name => s.declare name p.ty
  | none => s

theorem resolveFunction_eq (s : Scope) (f : Function) :
    s.resolveFunction f =
      ((f.body.map fun body =>
        ((f.params.foldl declareParam s.enter).enter.resolveStmts body.stmts).leave).getD
          (f.params.foldl declareParam s.enter)).leave := by
  unfold Scope.resolveFunction
  cases f.body <;> rfl

private theorem resolveItem_eq (s : Scope) (item : Item) :
    s.resolveItem item = item.actions.foldl act s := by
  have params (ps : List Param) (s : Scope) : ps.foldl declareParam s =
      (ps.filterMap fun p => p.name.map (Action.declare · p.ty)).foldl act s := by
    rw [List.filterMap_eq_flatMap_toList]
    refine foldl_eq (fun s p => ?_) ps s
    unfold declareParam
    cases p.name <;> rfl
  cases item with
  | global d => exact s.resolveDecl_eq d
  | function f =>
    rw [resolveItem, resolveFunction_eq, params, Item.actions, Function.actions, List.foldl_cons,
      List.foldl_append, List.foldl_append]
    cases f.body with
    | none => rfl
    | some b =>
      rw [Option.map_some, Option.getD_some, resolveStmts_eq, Option.toList_some,
        List.flatMap_singleton]
      simp only [List.foldl_cons, List.foldl_append]
      rfl
  | struct d => rfl
  | typedef d => rfl

end Scope

/-- Resolution runs the actions of the file on the laid out structures and functions. -/
theorem SourceUnit.scope_eq (unit : SourceUnit) :
    unit.scope = unit.actions.foldl Scope.act (Scope.laidOut unit.items) := by
  rw [scope, Scope.foldl_eq Scope.resolveItem_eq]
  rfl

theorem resolve_eq (unit : SourceUnit) :
    resolve unit = (unit.actions.foldl Scope.act (unit.items.foldl Scope.collect {})).tables := by
  rw [resolve, unit.scope_eq]
  rfl

namespace Scope

/-- What each action keeps the whole pass keeps. -/
theorem keeps_of_act {P : Scope → Prop} (step : ∀ s a, P s → P (s.act a)) (as : List Action)
    (s : Scope) (initial : P s) : P (as.foldl act s) := by
  induction as generalizing s with
  | nil => exact initial
  | cons a as ih => exact ih _ (step s a initial)

theorem addFunction_eq (s : Scope) (f : Function) : ∃ counters functions, s.addFunction f =
    { s with counters := counters, tables := { s.tables with functions := functions } } := by
  simp only [addFunction]
  split
  · exact ⟨s.counters, _, rfl⟩
  · exact ⟨_, _, rfl⟩

private theorem collect_keeps (s : Scope) (item : Item) :
    (s.collect item).levels = s.levels ∧ (s.collect item).tables.vars = s.tables.vars ∧
      (s.collect item).tables.varDecls = s.tables.varDecls ∧
      (s.collect item).tables.varRefs = s.tables.varRefs ∧
      (s.collect item).tables.memberRefs = s.tables.memberRefs := by
  cases item with
  | struct d =>
    have fields (index : Nat) (owner : String) (fs : List Field) (t : Scope) :
        (fs.foldl (addField index owner) t).levels = t.levels ∧
          (fs.foldl (addField index owner) t).tables.vars = t.tables.vars ∧
          (fs.foldl (addField index owner) t).tables.varDecls = t.tables.varDecls ∧
          (fs.foldl (addField index owner) t).tables.varRefs = t.tables.varRefs ∧
          (fs.foldl (addField index owner) t).tables.memberRefs = t.tables.memberRefs := by
      induction fs generalizing t with
      | nil => exact ⟨rfl, rfl, rfl, rfl, rfl⟩
      | cons f fs ih => exact ih (addField index owner t f)
    exact fields _ _ d.fields _
  | typedef d =>
    simp only [collect]
    split <;> exact ⟨rfl, rfl, rfl, rfl, rfl⟩
  | function f =>
    obtain ⟨counters, functions, same⟩ := s.addFunction_eq f
    rw [collect, same]
    exact ⟨rfl, rfl, rfl, rfl, rfl⟩
  | global d => exact ⟨rfl, rfl, rfl, rfl, rfl⟩

theorem foldl_collect_keeps (items : List Item) (s : Scope) :
    (items.foldl collect s).levels = s.levels ∧
      (items.foldl collect s).tables.vars = s.tables.vars ∧
      (items.foldl collect s).tables.varDecls = s.tables.varDecls ∧
      (items.foldl collect s).tables.varRefs = s.tables.varRefs ∧
      (items.foldl collect s).tables.memberRefs = s.tables.memberRefs := by
  induction items generalizing s with
  | nil => exact ⟨rfl, rfl, rfl, rfl, rfl⟩
  | cons item items ih =>
    have first := s.collect_keeps item
    have others := ih (s.collect item)
    simp only [first] at others
    exact others

end Scope

namespace Action

def declared? : Action → Option Ident
  | declare id _ => some id
  | _ => none

def visited? : Action → Option Node
  | visit e => some (.expr e)
  | _ => none

end Action

def Node.asks : Node → List Action
  | expr e => [.visit e]
  | stmt (.decl _ d) => d.declarators.map fun x => .declare x.name d.ty
  | stmt _ => []

def Node.actions : Node → List Action
  | expr e => e.actions
  | stmt s => s.actions

theorem Expr.postorder_eq (e : Expr) :
    e.postorder = e.children.flatMap Expr.postorder ++ [e] := by
  have row (es : List Expr) : Expr.postorderAll es = es.flatMap Expr.postorder := by
    induction es with
    | nil => rfl
    | cons e es ih => simp [Expr.postorderAll, ih]
  cases e <;> simp [Expr.postorder, Expr.children, row]

private theorem Decl.actions_perm {α : Type} (key : Action → Option α) (d : Decl) :
    (d.actions.filterMap key).Perm
      ((d.declarators.map fun x => Action.declare x.name d.ty).filterMap key ++
        d.exprs.flatMap fun e => e.actions.filterMap key) := by
  have each (x : Declarator) : ((x.actions d.ty).filterMap key).Perm
      ((key (.declare x.name d.ty)).toList ++ x.exprs.flatMap fun e => e.actions.filterMap key) := by
    have own : [Action.declare x.name d.ty].filterMap key =
        (key (.declare x.name d.ty)).toList := by
      cases declared : key (.declare x.name d.ty) <;> simp [declared]
    rw [Declarator.actions, ← List.singleton_append, List.filterMap_append, List.filterMap_append,
      own, Declarator.exprs, List.flatMap_append, List.filterMap_flatMap, List.filterMap_flatMap]
    exact List.perm_append_comm_assoc _ _ _
  rw [Decl.actions, List.filterMap_flatMap, List.filterMap_map, Decl.exprs, List.flatMap_assoc,
    List.filterMap_eq_flatMap_toList]
  exact (List.Perm.flatMap_left _ fun x _ => each x).trans (List.flatMap_append_perm _ _ _).symm

section Keys

variable {α : Type} {key : Action → Option α} (entered : key .enter = none)
  (left : key .leave = none)

include entered left

private theorem Node.actions_step (n : Node) : (n.actions.filterMap key).Perm
    (n.asks.filterMap key ++ n.children.flatMap fun c => c.actions.filterMap key) := by
  cases n with
  | expr e =>
    have own : e.actions = e.children.flatMap Expr.actions ++ [.visit e] := by
      rw [Expr.actions, Expr.postorder_eq, List.map_append, List.map_flatMap]
      rfl
    rw [actions, own, List.filterMap_append, children, List.flatMap_map, List.filterMap_flatMap]
    exact List.perm_append_comm
  | stmt s =>
    cases s with
    | decl span d =>
      rw [actions, Stmt.actions, children, Stmt.children, List.flatMap_map]
      exact d.actions_perm key
    | forLoop span init cond step body =>
      rcases init with - | (d | ⟨start, e⟩) <;>
        simp [actions, Stmt.actions, asks, children, Stmt.children, List.flatMap_map,
          ForInit.actions, ForInit.toStmt, List.filterMap_flatMap, entered, left]
    | _ => simp [actions, Stmt.actions, asks, children, Stmt.children, List.flatMap_map,
        Stmt.actionsAll_eq_flatMap, List.filterMap_flatMap, entered, left]

theorem Node.actions_perm (n : Node) :
    (n.actions.filterMap key).Perm ((n.preorder.flatMap asks).filterMap key) := by
  induction n using children_induction with
  | step n ih =>
    rw [preorder_eq_cons, List.flatMap_cons, List.filterMap_append, List.flatMap_assoc,
      List.filterMap_flatMap]
    exact (actions_step entered left n).trans (.append_left _ (List.Perm.flatMap_left _ ih))

private theorem Node.actions_perm_forest (ns : List Node) :
    ((ns.flatMap actions).filterMap key).Perm
      (((ns.flatMap preorder).flatMap asks).filterMap key) := by
  rw [List.filterMap_flatMap, List.flatMap_assoc, List.filterMap_flatMap]
  exact List.Perm.flatMap_left _ fun n _ => n.actions_perm entered left

end Keys

def Item.asks : Item → List Action
  | function f => f.params.filterMap fun p => p.name.map (.declare · p.ty)
  | global d => d.declarators.map fun x => .declare x.name d.ty
  | struct _ | typedef _ => []

section Keys

variable {α : Type} {key : Action → Option α} (entered : key .enter = none)
  (left : key .leave = none)

include entered left

theorem Item.actions_perm (item : Item) : (item.actions.filterMap key).Perm
    (item.asks.filterMap key ++ (item.nodes.flatMap Node.asks).filterMap key) := by
  have below := Node.actions_perm_forest entered left item.roots
  rw [← item.nodes_eq_flatMap] at below
  cases item with
  | function f =>
    have own : ((function f).actions.filterMap key) = (function f).asks.filterMap key ++
        ((function f).roots.flatMap Node.actions).filterMap key := by
      cases body : f.body <;> simp [actions, Function.actions, asks, roots, body, entered, left,
        List.flatMap_map, Stmt.actionsAll_eq_flatMap, Node.actions]
    rw [own]
    exact below.append_left _
  | global d =>
    have inside : (global d).roots.flatMap Node.actions = d.exprs.flatMap Expr.actions := by
      rw [roots, List.flatMap_map]
      rfl
    rw [inside, List.filterMap_flatMap] at below
    exact (d.actions_perm key).trans (below.append_left _)
  | struct d => exact .refl _
  | typedef d => exact .refl _

theorem SourceUnit.actions_perm (unit : SourceUnit) : (unit.actions.filterMap key).Perm
    (unit.items.flatMap fun item =>
      item.asks.filterMap key ++ (item.nodes.flatMap Node.asks).filterMap key) := by
  rw [SourceUnit.actions, List.filterMap_flatMap]
  exact List.Perm.flatMap_left _ fun item _ => item.actions_perm entered left

end Keys

namespace SourceUnit

theorem declared_actions_perm (unit : SourceUnit) :
    (unit.actions.filterMap Action.declared?).Perm unit.declares := by
  refine (unit.actions_perm rfl rfl).trans (.of_eq (List.flatMap_congr fun item _ => ?_))
  have nodes (n : Node) : n.asks.filterMap Action.declared? = n.declares := by
    cases n with
    | expr e => rfl
    | stmt s =>
      cases s with
      | decl span d =>
        rw [Node.asks, List.filterMap_map, Node.declares, ← List.filterMap_eq_map]
        rfl
      | _ => rfl
  rw [List.filterMap_flatMap, List.flatMap_congr fun n _ => nodes n]
  cases item with
  | function f =>
    rw [Item.asks, Item.declares, List.filterMap_filterMap]
    congr 1
    refine List.filterMap_congr fun p _ => ?_
    cases p.name <;> rfl
  | global d =>
    rw [Item.nodes, Stmt.declares_exprNodes, List.append_nil, Item.asks,
      List.filterMap_map, Item.declares, ← List.filterMap_eq_map]
    rfl
  | struct d => rfl
  | typedef d => rfl

theorem visited_actions_perm {α : Type} {pick : Node → Option α}
    (expressions : ∀ s, pick (.stmt s) = none) (unit : SourceUnit) :
    (unit.actions.filterMap fun a => a.visited?.bind pick).Perm (unit.nodes.filterMap pick) := by
  refine (unit.actions_perm rfl rfl).trans (.of_eq ?_)
  have nodes (n : Node) : (n.asks.filterMap fun a => a.visited?.bind pick) = (pick n).toList := by
    cases n with
    | expr e =>
      cases picked : pick (.expr e) <;> simp [Node.asks, Action.visited?, picked]
    | stmt s =>
      rw [expressions]
      cases s with
      | decl span d => simp [Node.asks, Action.visited?]
      | _ => rfl
  have tops (item : Item) : (item.asks.filterMap fun a => a.visited?.bind pick) = [] := by
    cases item with
    | function f =>
      rw [Item.asks, List.filterMap_filterMap, List.filterMap_eq_nil_iff]
      intro p _
      cases p.name <;> rfl
    | global d => simp [Item.asks, Action.visited?]
    | struct d => rfl
    | typedef d => rfl
  rw [SourceUnit.nodes, List.filterMap_flatMap]
  refine List.flatMap_congr fun item _ => ?_
  rw [tops, List.nil_append, List.filterMap_flatMap, List.flatMap_congr fun n _ => nodes n,
    List.filterMap_eq_flatMap_toList]

end SourceUnit

namespace Scope

/-- What an action can do to the tables. -/
theorem act_cases (s : Scope) (a : Action) :
    (∃ id ty, a = .declare id ty ∧ (s.act a).tables = (s.declare id ty).tables) ∨
    (∃ span n i, a = .visit (.name span n) ∧
      (s.act a).tables = { s.tables with varRefs := (span, i) :: s.tables.varRefs }) ∨
    (∃ span base field arrow fields i, a = .visit (.member span base field arrow) ∧
      (s.act a).tables =
        { s.tables with fields := fields, memberRefs := (span, i) :: s.tables.memberRefs }) ∨
    (a.declared? = none ∧ a.visited?.bind Node.member? = none ∧ (s.act a).tables = s.tables) := by
  cases a with
  | enter => exact .inr (.inr (.inr ⟨rfl, rfl, rfl⟩))
  | leave => exact .inr (.inr (.inr ⟨rfl, rfl, rfl⟩))
  | declare id ty => exact .inl ⟨id, ty, rfl, rfl⟩
  | visit e =>
    cases e with
    | name span n =>
      simp only [act, visit]
      split
      · rename_i i found
        exact .inr (.inl ⟨span, n, i, rfl, rfl⟩)
      · exact .inr (.inr (.inr ⟨rfl, rfl, rfl⟩))
    | member span base field arrow =>
      refine .inr (.inr (.inl ?_))
      simp only [act, visit, bindMember]
      split
      · exact ⟨span, base, field, arrow, _, _, rfl, rfl⟩
      · exact ⟨span, base, field, arrow, _, _, rfl, rfl⟩
    | _ => exact .inr (.inr (.inr ⟨rfl, rfl, rfl⟩))

section Lookup

variable {span : Span}

private theorem lookup_cons_of_ne {l : List (Span × Nat)} {key : Span} {i : Nat}
    (other : span ≠ key) : ((key, i) :: l).lookup span = l.lookup span := by
  rw [List.lookup_cons, beq_false_of_ne other]

theorem lookup_varRefs_run (as : List Action) (s : Scope)
    (absent : ∀ n, .visit (.name span n) ∉ as) :
    (as.foldl act s).tables.varRefs.lookup span = s.tables.varRefs.lookup span := by
  induction as generalizing s with
  | nil => rfl
  | cons a as ih =>
    rw [List.foldl_cons, ih _ fun n later => absent n (List.mem_cons_of_mem _ later)]
    obtain ⟨id, ty, rfl, same⟩ | ⟨key, n, i, rfl, same⟩ |
      ⟨key, base, field, arrow, fields, i, rfl, same⟩ | ⟨-, -, same⟩ := s.act_cases a
    · rw [same]
      rfl
    · rw [same]
      refine lookup_cons_of_ne ?_
      rintro rfl
      exact absent n List.mem_cons_self
    · rw [same]
    · rw [same]

theorem lookup_memberRefs_run (as : List Action) (s : Scope)
    (absent : ∀ base field arrow, .visit (.member span base field arrow) ∉ as) :
    (as.foldl act s).tables.memberRefs.lookup span = s.tables.memberRefs.lookup span := by
  induction as generalizing s with
  | nil => rfl
  | cons a as ih =>
    rw [List.foldl_cons, ih _ fun base field arrow later =>
      absent base field arrow (List.mem_cons_of_mem _ later)]
    obtain ⟨id, ty, rfl, same⟩ | ⟨key, n, i, rfl, same⟩ |
      ⟨key, base, field, arrow, fields, i, rfl, same⟩ | ⟨-, -, same⟩ := s.act_cases a
    · rw [same]
      rfl
    · rw [same]
    · rw [same]
      refine lookup_cons_of_ne ?_
      rintro rfl
      exact absent base field arrow List.mem_cons_self
    · rw [same]

end Lookup

private theorem keys_foldl (table : Scope → List Span) (key : Action → Option Span)
    (R : List Span → List Span → Prop) (refl : ∀ xs, R xs xs)
    (trans : ∀ xs ys zs, R xs ys → R ys zs → R xs zs)
    (append : ∀ xs ys zs, R xs ys → R (zs ++ xs) (zs ++ ys))
    (step : ∀ s a, R (table (s.act a)) ((key a).toList ++ table s)) (as : List Action) (s : Scope) :
    R (table (as.foldl act s)) ((as.filterMap key).reverse ++ table s) := by
  induction as generalizing s with
  | nil => exact refl _
  | cons a as ih =>
    refine trans _ _ _ (ih (s.act a)) ?_
    have more := append _ _ (as.filterMap key).reverse (step s a)
    cases added : key a <;> simpa [List.filterMap_cons, added] using more

private theorem varDecls_act (s : Scope) (a : Action) : (s.act a).tables.varDecls.map Prod.fst =
    (a.declared?.map Ident.span).toList ++ s.tables.varDecls.map Prod.fst := by
  obtain ⟨id, ty, rfl, same⟩ | ⟨span, n, i, rfl, same⟩ |
    ⟨span, base, field, arrow, fields, i, rfl, same⟩ | ⟨declared, -, same⟩ := s.act_cases a
  · rw [same]
    rfl
  · rw [same]
    rfl
  · rw [same]
    rfl
  · rw [same, declared]
    rfl

private theorem memberRefs_act (s : Scope) (a : Action) :
    (s.act a).tables.memberRefs.map Prod.fst =
      ((a.visited?.bind Node.member?).map Expr.span).toList ++ s.tables.memberRefs.map Prod.fst := by
  obtain ⟨id, ty, rfl, same⟩ | ⟨span, n, i, rfl, same⟩ |
    ⟨span, base, field, arrow, fields, i, rfl, same⟩ | ⟨-, visited, same⟩ := s.act_cases a
  · rw [same]
    rfl
  · rw [same]
    rfl
  · rw [same]
    rfl
  · rw [same, visited]
    rfl

private theorem varRefs_act (s : Scope) (a : Action) :
    ((s.act a).tables.varRefs.map Prod.fst).Sublist
      (((a.visited?.bind Node.name?).map Prod.fst).toList ++ s.tables.varRefs.map Prod.fst) := by
  obtain ⟨id, ty, rfl, same⟩ | ⟨span, n, i, rfl, same⟩ |
    ⟨span, base, field, arrow, fields, i, rfl, same⟩ | ⟨-, -, same⟩ := s.act_cases a
  · rw [same]
    exact List.sublist_append_right _ _
  · rw [same]
    exact List.Sublist.refl _
  · rw [same]
    exact List.sublist_append_right _ _
  · rw [same]
    exact List.sublist_append_right _ _

end Scope

namespace Resolution

/-- Each declared name has an entry under its range, and nothing else has. -/
theorem varDecls_perm (unit : SourceUnit) :
    ((resolve unit).varDecls.map Prod.fst).Perm (unit.declares.map Ident.span) := by
  have keys := Scope.keys_foldl (fun s => s.tables.varDecls.map Prod.fst)
    (fun a => a.declared?.map Ident.span) Eq (fun _ => rfl) (fun _ _ _ => Eq.trans)
    (fun _ _ zs same => congrArg (zs ++ ·) same) Scope.varDecls_act unit.actions
    (unit.items.foldl Scope.collect {})
  obtain ⟨-, -, empty, -⟩ := Scope.foldl_collect_keeps unit.items {}
  simp only [empty, List.map_nil, List.append_nil] at keys
  rw [resolve_eq, keys, ← List.map_filterMap]
  exact (List.reverse_perm _).trans (unit.declared_actions_perm.map _)

theorem memberRefs_perm (unit : SourceUnit) :
    ((resolve unit).memberRefs.map Prod.fst).Perm (unit.members.map Expr.span) := by
  have keys := Scope.keys_foldl (fun s => s.tables.memberRefs.map Prod.fst)
    (fun a => (a.visited?.bind Node.member?).map Expr.span) Eq (fun _ => rfl) (fun _ _ _ => Eq.trans)
    (fun _ _ zs same => congrArg (zs ++ ·) same) Scope.memberRefs_act unit.actions
    (unit.items.foldl Scope.collect {})
  obtain ⟨-, -, -, -, empty⟩ := Scope.foldl_collect_keeps unit.items {}
  simp only [empty, List.map_nil, List.append_nil] at keys
  rw [resolve_eq, keys, ← List.map_filterMap]
  exact (List.reverse_perm _).trans ((unit.visited_actions_perm fun _ => rfl).map _)

theorem varRefs_subperm (unit : SourceUnit) :
    ((resolve unit).varRefs.map Prod.fst).Subperm (unit.names.map Prod.fst) := by
  have keys := Scope.keys_foldl (fun s => s.tables.varRefs.map Prod.fst)
    (fun a => (a.visited?.bind Node.name?).map Prod.fst) List.Sublist List.Sublist.refl
    (fun _ _ _ => List.Sublist.trans) (fun _ _ zs within => within.append_left zs)
    Scope.varRefs_act unit.actions (unit.items.foldl Scope.collect {})
  obtain ⟨-, -, -, empty, -⟩ := Scope.foldl_collect_keeps unit.items {}
  simp only [empty, List.map_nil, List.append_nil] at keys
  rw [resolve_eq]
  refine keys.subperm.trans (List.Perm.subperm ?_)
  rw [← List.map_filterMap]
  exact (List.reverse_perm _).trans ((unit.visited_actions_perm fun _ => rfl).map _)

end Resolution

end Lockstep
