import Lockstep.Event
import Lockstep.Proofs.Tree.Nodes
import Mathlib.Data.List.Perm.Basic
/-!
Events against nodes. Each node has the events it announces; the events of a tree are those of all
its nodes, in an order of their own, but for two kinds that are told elsewhere: a bare name that is
called is told by the call, and an `if` behind an `else` by the chain it belongs to.
-/

set_option autoImplicit false
set_option relaxedAutoImplicit false

namespace Lockstep

namespace Expr

def announces : Expr → List Event
  | e@(name _ _) => [.name e]
  | e@(call _ callee _) => [.call e callee]
  | e@(assign _ _ target value) => [.assign e target value]
  | _ => []

/-- The event that the expression takes the place of: that of a bare name it calls. -/
def silences : Expr → List Event
  | call _ (name span n) _ => [.name (name span n)]
  | _ => []

theorem eventsAll_eq_flatMap (es : List Expr) : eventsAll es = es.flatMap events := by
  induction es with
  | nil => rfl
  | cons e es ih => rw [eventsAll, ih, List.flatMap_cons]

theorem events_perm (e : Expr) :
    (e.events ++ e.silences).Perm (e.announces ++ e.children.flatMap events) := by
  cases e with
  | call span callee args =>
    cases callee with
    | name nameSpan n =>
      simp only [events, silences, announces, children, eventsAll_eq_flatMap, List.flatMap_cons,
        List.append_assoc, List.singleton_append]
      exact List.perm_middle.trans (List.perm_append_comm.cons _)
    | _ =>
      simp only [events, silences, announces, children, eventsAll_eq_flatMap, List.flatMap_cons,
        List.append_nil]
      exact List.perm_append_comm
  | assign span op target value =>
    simp only [events, silences, announces, children, List.append_nil, List.flatMap_cons,
      List.flatMap_nil]
    exact List.perm_append_comm
  | _ => simp [events, silences, announces, children, eventsAll_eq_flatMap]

end Expr

def Decl.inits (d : Decl) : List Event :=
  d.declarators.flatMap fun x => (x.init.map (Event.init x)).toList

theorem Decl.events_perm (d : Decl) : d.events.Perm (d.inits ++ d.exprs.flatMap Expr.events) := by
  have each (x : Declarator) : x.events.Perm
      ((x.init.map (Event.init x)).toList ++ x.exprs.flatMap Expr.events) := by
    unfold Declarator.events Declarator.exprs
    rw [Expr.eventsAll_eq_flatMap, List.flatMap_append]
    cases x.init with
    | none => simp
    | some value =>
      simp only [Option.map_some, Option.toList_some, List.flatMap_singleton, ← List.append_assoc]
      exact List.perm_append_comm
  rw [inits, exprs, List.flatMap_assoc]
  exact (List.Perm.flatMap_left _ fun x _ => each x).trans (List.flatMap_append_perm _ _ _).symm

namespace Stmt

/-- The event of a construct; that of an `if` is the start of a chain. -/
def event? : Stmt → Option Event
  | s@(ifThen _ _ _) | s@(ifElse _ _ _ _) => some (.ifChain s)
  | s@(forLoop _ _ cond _ _) => cond.map fun c => .loop .forLoop s c
  | s@(whileLoop _ cond _) => some (.loop .whileLoop s cond)
  | s@(doLoop _ _ cond) => some (.loop .doLoop s cond)
  | s@(switch _ cond body) => some (.switch s cond body)
  | _ => none

def announces : Stmt → List Event
  | decl _ d => d.inits
  | s => s.event?.toList

/-- The event that the statement takes the place of: the start of a chain behind its `else`. -/
def silences : Stmt → List Event
  | ifElse _ _ _ e => e.chainStart
  | _ => []

end Stmt

namespace Node

def events : Node → List Event
  | stmt s => s.events
  | expr e => e.events

def announces : Node → List Event
  | stmt s => s.announces
  | expr e => e.announces

def silences : Node → List Event
  | stmt s => s.silences
  | expr e => e.silences

theorem flatMap_events_exprs (es : List Expr) :
    (es.map expr).flatMap events = es.flatMap Expr.events := by
  rw [List.flatMap_map]
  rfl

end Node

theorem Stmt.eventsAll_eq_flatMap (ss : List Stmt) : eventsAll ss = ss.flatMap events := by
  induction ss with
  | nil => rfl
  | cons s ss ih => rw [eventsAll, ih, List.flatMap_cons, events]

theorem Decl.function_not_mem_inits (d : Decl) (f : Function) : .function f ∉ d.inits := by
  intro member
  obtain ⟨x, -, own⟩ := List.mem_flatMap.mp member
  obtain ⟨value, -, impossible⟩ := Option.map_eq_some_iff.mp (Option.mem_toList.mp own)
  cases impossible

theorem Node.function_not_mem_announces (n : Node) (f : Function) : .function f ∉ n.announces := by
  intro member
  cases n with
  | expr e => cases e <;> simp [announces, Expr.announces] at member
  | stmt s =>
    cases s with
    | decl span d => exact d.function_not_mem_inits f member
    | forLoop span init cond step body =>
      cases cond <;> simp [announces, Stmt.announces, Stmt.event?] at member
    | _ => simp [announces, Stmt.announces, Stmt.event?] at member

theorem ForInit.events_toStmt (i : ForInit) : i.toStmt.events = i.events := by
  cases i <;> rfl

theorem Stmt.events_perm (s : Stmt) :
    (s.events ++ s.silences).Perm (s.announces ++ s.children.flatMap Node.events) := by
  cases s with
  | compound span body =>
    have inside : body.flatMap events = (body.map Node.stmt).flatMap Node.events := by
      rw [List.flatMap_map]
      rfl
    simp only [events, chainStart, innerEvents, eventsAll_eq_flatMap, silences, announces, event?,
      children, ← inside, Option.toList_none, List.nil_append, List.append_nil, List.Perm.refl]
  | decl span d =>
    simp only [events, chainStart, innerEvents, silences, announces, children,
      Node.flatMap_events_exprs, List.nil_append, List.append_nil]
    exact d.events_perm
  | ifElse span cond t e =>
    have own : (ifElse span cond t e).events ++ e.chainStart =
        .ifChain (ifElse span cond t e) ::
          (cond.events ++ (t.events ++ (e.innerEvents ++ e.chainStart))) := by
      simp [events, chainStart, innerEvents]
    have inside : (ifElse span cond t e).children.flatMap Node.events =
        cond.events ++ (t.events ++ (e.chainStart ++ e.innerEvents)) := by
      simp [children, Node.events, events]
    rw [silences, inside, own]
    exact ((List.perm_append_comm.append_left _).append_left _).cons _
  | forLoop span init cond step body =>
    have start : (init.toList.map fun i => Node.stmt i.toStmt).flatMap Node.events =
        init.toList.flatMap ForInit.events := by
      simp [List.flatMap_map, Node.events, ForInit.events_toStmt]
    cases cond with
    | none =>
      simp [events, chainStart, innerEvents, silences, announces, event?, children, start,
        Node.flatMap_events_exprs, Expr.eventsAll_eq_flatMap, Node.events]
    | some c =>
      have own : (forLoop span init (some c) step body).events =
          init.toList.flatMap ForInit.events ++ .loop .forLoop (forLoop span init (some c) step body)
            c :: (c.events ++ (step.toList.flatMap Expr.events ++ body.events)) := by
        simp [events, chainStart, innerEvents, Expr.eventsAll_eq_flatMap]
      have inside : (forLoop span init (some c) step body).children.flatMap Node.events =
          init.toList.flatMap ForInit.events ++
            (c.events ++ (step.toList.flatMap Expr.events ++ body.events)) := by
        simp [children, start, Node.flatMap_events_exprs, Node.events]
      simp only [own, inside, silences, announces, event?, List.append_nil]
      exact List.perm_middle
  | doLoop span body cond =>
    have own : (doLoop span body cond).events =
        body.events ++ .loop .doLoop (doLoop span body cond) cond :: cond.events := by
      simp [events, chainStart, innerEvents]
    have inside : (doLoop span body cond).children.flatMap Node.events =
        body.events ++ cond.events := by
      simp [children, Node.events]
    simp only [own, inside, silences, announces, event?, List.append_nil]
    exact List.perm_middle
  | _ =>
    simp [events, silences, chainStart, innerEvents, announces, event?, children, Node.events,
      Expr.eventsAll_eq_flatMap, List.flatMap_map]

/-- The events are those of the nodes, but for what some nodes take the place of. -/
def Announced (events : List Event) (nodes : List Node) : Prop :=
  (events ++ nodes.flatMap Node.silences).Perm (nodes.flatMap Node.announces)

namespace Node

theorem events_perm (n : Node) :
    (n.events ++ n.silences).Perm (n.announces ++ n.children.flatMap events) := by
  cases n with
  | stmt s => exact s.events_perm
  | expr e =>
    simp only [events, silences, announces, children, flatMap_events_exprs]
    exact e.events_perm

private theorem announced_flatMap {ns : List Node}
    (each : ∀ n ∈ ns, Announced n.events n.preorder) :
    Announced (ns.flatMap events) (ns.flatMap preorder) := by
  unfold Announced
  rw [List.flatMap_assoc, List.flatMap_assoc]
  exact (List.flatMap_append_perm _ _ _).trans (List.Perm.flatMap_left _ each)

theorem announced (n : Node) : Announced n.events n.preorder := by
  induction n using children_induction with
  | step n ih =>
    have below := announced_flatMap ih
    unfold Announced at below ⊢
    rw [preorder_eq_cons, List.flatMap_cons, List.flatMap_cons, ← List.append_assoc]
    refine (n.events_perm.append_right _).trans ?_
    rw [List.append_assoc]
    exact below.append_left _

theorem announced_forest (ns : List Node) : Announced (ns.flatMap events) (ns.flatMap preorder) :=
  announced_flatMap fun n _ => n.announced

end Node

namespace Item

def announces : Item → List Event
  | function f => [.function f]
  | global d => d.inits
  | struct _ | typedef _ => []

theorem events_perm (item : Item) :
    item.events.Perm (item.announces ++ item.roots.flatMap Node.events) := by
  cases item with
  | function f =>
    cases body : f.body <;>
      simp [events, announces, roots, body, Stmt.eventsAll_eq_flatMap, List.flatMap_map, Node.events]
  | global d =>
    rw [roots, Node.flatMap_events_exprs]
    exact d.events_perm
  | struct d => exact .refl []
  | typedef d => exact .refl []

theorem announced (item : Item) : (item.events ++ item.nodes.flatMap Node.silences).Perm
    (item.announces ++ item.nodes.flatMap Node.announces) := by
  refine (item.events_perm.append_right _).trans ?_
  rw [nodes_eq_flatMap, List.append_assoc]
  exact (Node.announced_forest item.roots).append_left _

end Item

/-- The events of a source file are those of its items and of their nodes. -/
theorem SourceUnit.announced (unit : SourceUnit) :
    (unit.events ++ unit.nodes.flatMap Node.silences).Perm
      (unit.items.flatMap Item.announces ++ unit.nodes.flatMap Node.announces) := by
  rw [events, nodes, List.flatMap_assoc, List.flatMap_assoc]
  exact (List.flatMap_append_perm _ _ _).trans ((List.Perm.flatMap_left _ fun item _ =>
    item.announced).trans (List.flatMap_append_perm _ _ _).symm)

end Lockstep
