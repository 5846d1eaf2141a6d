import Lockstep.Event
import Lockstep.Proofs.Naming.Actions
import Lockstep.Proofs.Tree.Preorder
/-!
Trees under other names. Declared names get new ones, and so do the uses of names, each for itself;
ranges, fields, types, labels and the names of functions stay. All orders in which a tree is walked
through are those of the old tree, with the new names at their places.
-/

set_option autoImplicit false
set_option relaxedAutoImplicit false

namespace Lockstep

/-- New names for what is declared, and for the use of a name at a range. -/
structure Renaming where
  declared : String → String
  used : Span → String → String

def Ident.rename (f : String → String) (id : Ident) : Ident := ⟨f id.name, id.span⟩

variable (ρ : Renaming)

namespace Expr

mutual

def rename : Expr → Expr
  | int s n => int s n
  | float s v => float s v
  | char s => char s
  | str s body => str s body
  | name s n => name s (ρ.used s n)
  | call s callee args => call s (rename callee) (renameAll args)
  | member s base field arrow => member s (rename base) field arrow
  | index s base sub => index s (rename base) (rename sub)
  | unary s op operand => unary s op (rename operand)
  | post s op operand => post s op (rename operand)
  | binary s op lhs rhs => binary s op (rename lhs) (rename rhs)
  | assign s op target value => assign s op (rename target) (rename value)
  | conditional s cond thenExpr elseExpr =>
    conditional s (rename cond) (rename thenExpr) (rename elseExpr)
  | cast s ty operand => cast s ty (rename operand)
  | sizeofExpr s operand => sizeofExpr s (rename operand)
  | sizeofType s ty => sizeofType s ty
  | initList s items => initList s (renameAll items)

def renameAll : List Expr → List Expr
  | [] => []
  | e :: es => rename e :: renameAll es

end

theorem renameAll_eq_map (es : List Expr) : renameAll ρ es = es.map (rename ρ) := by
  induction es with
  | nil => rfl
  | cons e es ih => simp [renameAll, ih]

@[simp]
theorem span_rename (e : Expr) : (e.rename ρ).span = e.span := by
  cases e <;> rfl

@[simp]
theorem isCall_rename (e : Expr) : (e.rename ρ).isCall = e.isCall := by
  cases e <;> rfl

private theorem children_rename (e : Expr) : (e.rename ρ).children = e.children.map (rename ρ) := by
  cases e <;> simp [rename, children, renameAll_eq_map]

end Expr

def Declarator.rename (d : Declarator) : Declarator :=
  { d with
    name := d.name.rename ρ.declared
    dims := d.dims.map (Option.map (Expr.rename ρ))
    init := d.init.map (Expr.rename ρ) }

def Decl.rename (d : Decl) : Decl :=
  { d with declarators := d.declarators.map (Declarator.rename ρ) }

def ForInit.rename : ForInit → ForInit
  | decl d => decl (d.rename ρ)
  | expr s e => expr s (e.rename ρ)

namespace Stmt

mutual

def rename : Stmt → Stmt
  | compound s body => compound s (renameAll body)
  | decl s d => decl s (d.rename ρ)
  | expr s e => expr s (e.rename ρ)
  | ifThen s cond t => ifThen s (cond.rename ρ) (rename t)
  | ifElse s cond t e => ifElse s (cond.rename ρ) (rename t) (rename e)
  | forLoop s init cond step body =>
    forLoop s (init.map (ForInit.rename ρ)) (cond.map (Expr.rename ρ)) (step.map (Expr.rename ρ))
      (rename body)
  | whileLoop s cond body => whileLoop s (cond.rename ρ) (rename body)
  | doLoop s body cond => doLoop s (rename body) (cond.rename ρ)
  | switch s cond body => switch s (cond.rename ρ) (rename body)
  | caseLabel s value => caseLabel s (value.rename ρ)
  | defaultLabel s => defaultLabel s
  | breakJump s => breakJump s
  | continueJump s => continueJump s
  | returnJump s value => returnJump s (value.map (Expr.rename ρ))
  | gotoJump s target => gotoJump s target
  | label s name => label s name
  | empty s => empty s

def renameAll : List Stmt → List Stmt
  | [] => []
  | s :: ss => rename s :: renameAll ss

end

theorem renameAll_eq_map (ss : List Stmt) : renameAll ρ ss = ss.map (rename ρ) := by
  induction ss with
  | nil => rfl
  | cons s ss ih => simp [renameAll, ih]

@[simp]
theorem span_rename (s : Stmt) : (s.rename ρ).span = s.span := by
  cases s <;> rfl

end Stmt

def Node.rename : Node → Node
  | stmt s => stmt (s.rename ρ)
  | expr e => expr (e.rename ρ)

def Block.rename (b : Block) : Block := { b with stmts := b.stmts.map (Stmt.rename ρ) }

def Param.rename (p : Param) : Param := { p with name := p.name.map (Ident.rename ρ.declared) }

def Function.rename (f : Function) : Function :=
  { f with params := f.params.map (Param.rename ρ), body := f.body.map (Block.rename ρ) }

def Item.rename : Item → Item
  | struct d => struct d
  | typedef d => typedef d
  | function f => function (f.rename ρ)
  | global d => global (d.rename ρ)

def SourceUnit.rename (unit : SourceUnit) : SourceUnit :=
  { unit with items := unit.items.map (Item.rename ρ) }

/-! ### The order of the nodes -/

private theorem Declarator.bounds_rename (d : Declarator) :
    (d.rename ρ).dims.filterMap id = (d.dims.filterMap id).map (Expr.rename ρ) := by
  rw [rename, List.filterMap_map, List.map_filterMap]
  rfl

private theorem Declarator.exprs_rename (d : Declarator) :
    (d.rename ρ).exprs = d.exprs.map (Expr.rename ρ) := by
  rw [exprs, bounds_rename, exprs, List.map_append]
  cases given : d.init <;> simp [rename, given]

private theorem Decl.exprs_rename (d : Decl) :
    (d.rename ρ).exprs = d.exprs.map (Expr.rename ρ) := by
  simp [exprs, rename, List.flatMap_map, List.map_flatMap, Declarator.exprs_rename]

private theorem ForInit.toStmt_rename (i : ForInit) : (i.rename ρ).toStmt = i.toStmt.rename ρ := by
  cases i <;> rfl

private theorem ForInit.exprs_rename (i : ForInit) :
    (i.rename ρ).exprs = i.exprs.map (Expr.rename ρ) := by
  cases i with
  | decl d => exact d.exprs_rename ρ
  | expr s e => rfl

private theorem Stmt.children_rename (s : Stmt) :
    (s.rename ρ).children = s.children.map (Node.rename ρ) := by
  cases s with
  | decl span d => simp [rename, children, Decl.exprs_rename, Node.rename, Function.comp_def]
  | forLoop span init cond step body =>
    cases init <;> cases cond <;> cases step <;>
      simp [rename, children, Node.rename, ForInit.toStmt_rename]
  | returnJump span value => cases value <;> simp [rename, children, Node.rename]
  | _ => simp [rename, children, Node.rename, renameAll_eq_map, Function.comp_def]

namespace Node

@[simp]
theorem span_rename (n : Node) : (n.rename ρ).span = n.span := by
  cases n with
  | stmt s => exact s.span_rename ρ
  | expr e => exact e.span_rename ρ

private theorem children_rename (n : Node) : (n.rename ρ).children = n.children.map (rename ρ) := by
  cases n with
  | stmt s => exact s.children_rename ρ
  | expr e => simp [rename, children, Expr.children_rename, Function.comp_def]

theorem preorder_rename (n : Node) : (n.rename ρ).preorder = n.preorder.map (rename ρ) := by
  induction n using children_induction with
  | step n ih =>
    rw [preorder_eq_cons, preorder_eq_cons n, children_rename, List.flatMap_map, List.map_cons,
      List.map_flatMap, List.flatMap_congr ih]

theorem call?_rename (n : Node) : (n.rename ρ).call? = n.call?.map (Expr.rename ρ) := by
  cases n with
  | stmt s => rfl
  | expr e => cases called : e.isCall <;> simp [rename, call?, called]

theorem filterMap_call?_rename (ns : List Node) :
    (ns.map (rename ρ)).filterMap call? = (ns.filterMap call?).map (Expr.rename ρ) := by
  rw [List.filterMap_map, List.map_filterMap]
  exact List.filterMap_congr fun n _ => n.call?_rename ρ

end Node

theorem Stmt.preorder_rename (s : Stmt) : (s.rename ρ).preorder = s.preorder.map (Node.rename ρ) :=
  (Node.stmt s).preorder_rename ρ

theorem Expr.preorder_rename (e : Expr) : (e.rename ρ).preorder = e.preorder.map (rename ρ) := by
  induction e using children_induction with
  | step e ih =>
    rw [preorder_eq_cons, preorder_eq_cons e, children_rename, List.flatMap_map, List.map_cons,
      List.map_flatMap, List.flatMap_congr ih]

private theorem Expr.postorder_rename (e : Expr) :
    (e.rename ρ).postorder = e.postorder.map (rename ρ) := by
  induction e using children_induction with
  | step e ih =>
    rw [postorder_eq, postorder_eq e, children_rename, List.flatMap_map, List.map_append,
      List.map_flatMap, List.flatMap_congr ih, List.map_singleton]

/-! ### The actions of resolution -/

def Action.rename : Action → Action
  | enter => enter
  | leave => leave
  | declare id ty => declare (id.rename ρ.declared) ty
  | visit e => visit (e.rename ρ)

theorem Expr.actions_rename (e : Expr) : (e.rename ρ).actions = e.actions.map (Action.rename ρ) := by
  simp [actions, postorder_rename, Action.rename, Function.comp_def]

theorem Declarator.actions_rename (ty : TypeSpec) (d : Declarator) :
    (d.rename ρ).actions ty = (d.actions ty).map (Action.rename ρ) := by
  rw [actions, bounds_rename, actions, List.map_append, List.map_cons, List.flatMap_map,
    List.map_flatMap]
  cases given : d.init <;> simp [rename, given, Action.rename, Expr.actions_rename]

theorem Decl.actions_rename (d : Decl) : (d.rename ρ).actions = d.actions.map (Action.rename ρ) := by
  simp [actions, rename, List.flatMap_map, List.map_flatMap, Declarator.actions_rename]

theorem ForInit.actions_rename (i : ForInit) :
    (i.rename ρ).actions = i.actions.map (Action.rename ρ) := by
  cases i with
  | decl d => exact d.actions_rename ρ
  | expr s e => exact e.actions_rename ρ

namespace Stmt

mutual

theorem actions_rename : (s : Stmt) → (s.rename ρ).actions = s.actions.map (Action.rename ρ)
  | .compound _ body => by simp [rename, actions, actionsAll_rename body, Action.rename]
  | .decl _ d => d.actions_rename ρ
  | .expr _ e | .caseLabel _ e => e.actions_rename ρ
  | .returnJump _ value => by cases value <;> simp [rename, actions, Expr.actions_rename]
  | .ifThen _ cond t | .whileLoop _ cond t | .switch _ cond t | .doLoop _ t cond => by
    simp [rename, actions, Expr.actions_rename, actions_rename t]
  | .ifElse _ cond t e => by
    simp [rename, actions, Expr.actions_rename, actions_rename t, actions_rename e]
  | .forLoop _ init cond step body => by
    cases init <;> cases cond <;> cases step <;>
      simp [rename, actions, Expr.actions_rename, ForInit.actions_rename, actions_rename body,
        Action.rename]
  | .defaultLabel _ | .breakJump _ | .continueJump _ | .gotoJump _ _ | .label _ _ | .empty _ => rfl

private theorem actionsAll_rename :
    (ss : List Stmt) → actionsAll (renameAll ρ ss) = (actionsAll ss).map (Action.rename ρ)
  | [] => rfl
  | s :: ss => by simp [renameAll, actionsAll, actions_rename s, actionsAll_rename ss]

end

end Stmt

theorem SourceUnit.actions_rename (unit : SourceUnit) :
    (unit.rename ρ).actions = unit.actions.map (Action.rename ρ) := by
  have params (ps : List Param) :
      (ps.map (Param.rename ρ)).filterMap (fun p => p.name.map (Action.declare · p.ty)) =
        (ps.filterMap fun p => p.name.map (Action.declare · p.ty)).map (Action.rename ρ) := by
    rw [List.filterMap_map, List.map_filterMap]
    refine List.filterMap_congr fun p _ => ?_
    cases named : p.name <;> simp [Param.rename, named, Action.rename]
  have items (item : Item) : (item.rename ρ).actions = item.actions.map (Action.rename ρ) := by
    cases item with
    | struct d => rfl
    | typedef d => rfl
    | global d => exact d.actions_rename ρ
    | function f =>
      have body (b : Block) : Stmt.actionsAll (b.stmts.map (Stmt.rename ρ)) =
          (Stmt.actionsAll b.stmts).map (Action.rename ρ) := by
        rw [← Stmt.renameAll_eq_map, Stmt.actionsAll_rename]
      cases given : f.body <;>
        simp [Item.rename, Item.actions, Function.actions, Function.rename, params, given,
          Block.rename, body, Action.rename]
  simp [actions, rename, List.flatMap_map, List.map_flatMap, items]

/-! ### Events -/

def Event.rename : Event → Event
  | function f => function (f.rename ρ)
  | init d value => init (d.rename ρ) (value.rename ρ)
  | assign e target value => assign (e.rename ρ) (target.rename ρ) (value.rename ρ)
  | call e callee => call (e.rename ρ) (callee.rename ρ)
  | name e => name (e.rename ρ)
  | loop kind s cond => loop kind (s.rename ρ) (cond.rename ρ)
  | ifChain s => ifChain (s.rename ρ)
  | switch s cond body => switch (s.rename ρ) (cond.rename ρ) (body.rename ρ)

namespace Expr

private theorem events_call (s : Span) (callee : Expr) (args : List Expr) :
    (call s callee args).events = (if callee.bareName?.isSome then [] else callee.events) ++
      eventsAll args ++ [.call (call s callee args) callee] := by
  cases callee <;> simp [events, bareName?]

private theorem bareName?_rename (e : Expr) :
    (e.rename ρ).bareName?.isSome = e.bareName?.isSome := by
  cases e <;> rfl

mutual

theorem events_rename : (e : Expr) → (e.rename ρ).events = e.events.map (Event.rename ρ)
  | .int _ _ | .float _ _ | .char _ | .str _ _ | .sizeofType _ _ => rfl
  | .name _ _ => rfl
  | .call s callee args => by
    rw [rename, events_call, events_call, bareName?_rename, events_rename callee,
      eventsAll_rename args]
    cases callee.bareName?.isSome <;> simp [Event.rename, rename]
  | .member _ base _ _ => by simp [rename, events, events_rename base]
  | .index _ base sub => by simp [rename, events, events_rename base, events_rename sub]
  | .unary _ _ operand | .post _ _ operand | .cast _ _ operand | .sizeofExpr _ operand => by
    simp [rename, events, events_rename operand]
  | .binary _ _ lhs rhs => by simp [rename, events, events_rename lhs, events_rename rhs]
  | .assign _ _ target value => by
    simp [rename, events, events_rename target, events_rename value, Event.rename]
  | .conditional _ cond t e => by
    simp [rename, events, events_rename cond, events_rename t, events_rename e]
  | .initList _ items => by simp [rename, events, eventsAll_rename items]

private theorem eventsAll_rename :
    (es : List Expr) → eventsAll (renameAll ρ es) = (eventsAll es).map (Event.rename ρ)
  | [] => rfl
  | e :: es => by simp [renameAll, eventsAll, events_rename e, eventsAll_rename es]

end

end Expr

theorem Declarator.events_rename (d : Declarator) :
    (d.rename ρ).events = d.events.map (Event.rename ρ) := by
  rw [events, bounds_rename, ← Expr.renameAll_eq_map, Expr.eventsAll_rename, events,
    List.map_append]
  cases given : d.init <;> simp [rename, given, Event.rename, Expr.events_rename]

theorem Decl.events_rename (d : Decl) : (d.rename ρ).events = d.events.map (Event.rename ρ) := by
  simp [events, rename, List.flatMap_map, List.map_flatMap, Declarator.events_rename]

theorem ForInit.events_rename (i : ForInit) :
    (i.rename ρ).events = i.events.map (Event.rename ρ) := by
  cases i with
  | decl d => exact d.events_rename ρ
  | expr s e => exact e.events_rename ρ

namespace Stmt

private theorem chainStart_rename (s : Stmt) :
    (s.rename ρ).chainStart = s.chainStart.map (Event.rename ρ) := by
  cases s <;> rfl

mutual

private theorem innerEvents_rename :
    (s : Stmt) → (s.rename ρ).innerEvents = s.innerEvents.map (Event.rename ρ)
  | .compound _ body => eventsAll_rename body
  | .decl _ d => d.events_rename ρ
  | .expr _ e | .caseLabel _ e => e.events_rename ρ
  | .returnJump _ value => by
    cases value <;> simp [rename, innerEvents, Expr.eventsAll, Expr.events_rename]
  | .ifThen _ cond t | .whileLoop _ cond t | .switch _ cond t | .doLoop _ t cond => by
    simp [rename, innerEvents, Expr.events_rename, chainStart_rename, innerEvents_rename t,
      Event.rename]
  | .ifElse _ cond t e => by
    simp [rename, innerEvents, Expr.events_rename, chainStart_rename, innerEvents_rename t,
      innerEvents_rename e]
  | .forLoop _ init cond step body => by
    cases init <;> cases cond <;> cases step <;>
      simp [rename, innerEvents, Expr.eventsAll, Expr.events_rename, ForInit.events_rename,
        chainStart_rename, innerEvents_rename body, Event.rename]
  | .defaultLabel _ | .breakJump _ | .continueJump _ | .gotoJump _ _ | .label _ _ | .empty _ => rfl

private theorem eventsAll_rename :
    (ss : List Stmt) → eventsAll (renameAll ρ ss) = (eventsAll ss).map (Event.rename ρ)
  | [] => rfl
  | s :: ss => by
    simp [renameAll, eventsAll, chainStart_rename, innerEvents_rename s, eventsAll_rename ss]

end

end Stmt

theorem SourceUnit.events_rename (unit : SourceUnit) :
    (unit.rename ρ).events = unit.events.map (Event.rename ρ) := by
  have items (item : Item) : (item.rename ρ).events = item.events.map (Event.rename ρ) := by
    cases item with
    | struct d => rfl
    | typedef d => rfl
    | global d => exact d.events_rename ρ
    | function f =>
      have body (b : Block) : Stmt.eventsAll (b.rename ρ).stmts =
          (Stmt.eventsAll b.stmts).map (Event.rename ρ) := by
        rw [Block.rename, ← Stmt.renameAll_eq_map, Stmt.eventsAll_rename]
      cases given : f.body <;>
        simp [Item.rename, Item.events, Function.rename, given, body, Event.rename]
  simp [events, rename, List.flatMap_map, List.map_flatMap, items]

/-! ### Constructs laid out flat -/

def Link.rename (l : Link) : Link := ⟨l.stmt.rename ρ, l.cond.rename ρ, l.branch.rename ρ⟩

def renameMarked (p : Mark × Node) : Mark × Node := (p.1, p.2.rename ρ)

def Flat.rename (flat : Flat) : Flat := { flat with nodes := flat.nodes.map (renameMarked ρ) }

theorem Stmt.chain_rename (s : Stmt) : (s.rename ρ).chain =
    ⟨s.chain.links.map (Link.rename ρ), s.chain.final.map (Stmt.rename ρ)⟩ := by
  fun_induction Stmt.chain s with
  | case1 span cond t => rfl
  | case2 span cond t e ih => simp [rename, chain, ih, Link.rename]
  | case3 s noIf noElse =>
    cases s with
    | ifThen span cond t => exact (noIf _ _ _ rfl).elim
    | ifElse span cond t e => exact (noElse _ _ _ _ rfl).elim
    | _ => rfl

private theorem segmentNodes_rename (n : Nat) (branch : Stmt) :
    segmentNodes n (branch.rename ρ) = (segmentNodes n branch).map (renameMarked ρ) := by
  rw [segmentNodes, Stmt.preorder_rename, segmentNodes]
  cases branch.preorder <;> simp [renameMarked, Function.comp_def]

theorem Stmt.flatten_rename (s : Stmt) :
    (s.rename ρ).chain.flatten = s.chain.flatten.rename ρ := by
  have link (l : Link) (n : Nat) :
      linkNodes n (l.rename ρ) = (linkNodes n l).map (renameMarked ρ) := by
    by_cases first : n = 0 <;>
      simp [linkNodes, Link.rename, Expr.preorder_rename, segmentNodes_rename, first, renameMarked,
        Node.rename, Function.comp_def]
  rw [chain_rename]
  cases final : s.chain.final <;>
    simp [Chain.flatten, Flat.rename, final, List.zipIdx_map, List.flatMap_map, List.map_flatMap,
      link, segmentNodes_rename]

namespace Stmt

private theorem bodyNodes_rename (es : List Expr) :
    bodyNodes (es.map (Expr.rename ρ)) = (bodyNodes es).map (renameMarked ρ) := by
  simp [bodyNodes, exprNodes, List.flatMap_map, List.map_flatMap, Expr.preorder_rename, renameMarked,
    Node.rename, Function.comp_def]

private theorem bodyNodes_singleton_rename (e : Expr) :
    bodyNodes [e.rename ρ] = (bodyNodes [e]).map (renameMarked ρ) := bodyNodes_rename ρ [e]

mutual

private theorem switchNodes_rename (nested : Bool) : (s : Stmt) →
    (s.rename ρ).switchNodes nested = (s.switchNodes nested).map (renameMarked ρ)
  | .compound _ body => by
    simp [rename, switchNodes, switchNodesAll_rename nested body, renameMarked, Node.rename]
  | .decl _ d => by
    simp [rename, switchNodes, Decl.exprs_rename, bodyNodes_rename, renameMarked, Node.rename]
  | .ifThen _ cond t | .whileLoop _ cond t | .doLoop _ t cond => by
    simp [rename, switchNodes, bodyNodes_singleton_rename, switchNodes_rename nested t, renameMarked,
      Node.rename]
  | .ifElse _ cond t e => by
    simp [rename, switchNodes, bodyNodes_singleton_rename, switchNodes_rename nested t,
      switchNodes_rename nested e, renameMarked, Node.rename]
  | .switch _ cond t => by
    simp [rename, switchNodes, bodyNodes_singleton_rename, switchNodes_rename true t, renameMarked,
      Node.rename]
  | .forLoop _ init cond step body => by
    have tests : bodyNodes ((cond.map (Expr.rename ρ)).toList ++ (step.map (Expr.rename ρ)).toList) =
        (bodyNodes (cond.toList ++ step.toList)).map (renameMarked ρ) := by
      rw [← bodyNodes_rename]
      cases cond <;> cases step <;> rfl
    cases init <;>
      simp [rename, switchNodes, tests, switchNodes_rename nested body, ForInit.toStmt_rename,
        ForInit.exprs_rename, bodyNodes_rename, renameMarked, Node.rename]
  | .expr _ e | .caseLabel _ e => by
    simp [rename, switchNodes, bodyNodes_singleton_rename, renameMarked, Node.rename]
  | .returnJump _ value => by
    have returned : bodyNodes (value.map (Expr.rename ρ)).toList =
        (bodyNodes value.toList).map (renameMarked ρ) := by
      rw [← bodyNodes_rename]
      cases value <;> rfl
    simp [rename, switchNodes, returned, renameMarked, Node.rename]
  | .defaultLabel _ | .breakJump _ | .continueJump _ | .gotoJump _ _ | .label _ _ | .empty _ => by
    simp [rename, switchNodes, renameMarked, Node.rename]

private theorem switchNodesAll_rename (nested : Bool) : (ss : List Stmt) →
    switchNodesAll nested (renameAll ρ ss) = (switchNodesAll nested ss).map (renameMarked ρ)
  | [] => rfl
  | s :: ss => by
    simp [renameAll, switchNodesAll, switchNodes_rename nested s, switchNodesAll_rename nested ss]

end

theorem flattenSwitch_rename (body : Stmt) :
    (body.rename ρ).flattenSwitch = body.flattenSwitch.rename ρ := by
  simp only [flattenSwitch, Flat.rename, switchNodes_rename, List.filter_map, List.length_map,
    List.any_map]
  congr 1
  -- Neither the marks nor the kinds of statements are touched.
  refine congrArg (List.any _) ?_
  funext p
  obtain ⟨mark, s | e⟩ := p
  · cases s <;> rfl
  · rfl

end Stmt

end Lockstep
