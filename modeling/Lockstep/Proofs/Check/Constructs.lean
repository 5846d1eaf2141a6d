import Lockstep.Event
import Lockstep.Proofs.Branch.Chain
import Lockstep.Proofs.Event.Coverage
/-!
The constructs that decide about the code inside them, and their events. Each loop with a condition,
each switch and each `if` has one event, but for an `if` behind an `else`, which belongs to the
chain that is already open. Two orders of the tree are compared here, that of the events and that of
the nodes; nothing is left out and nothing comes twice in either.
-/

set_option autoImplicit false
set_option relaxedAutoImplicit false

namespace Lockstep

namespace Stmt

/-- Loops with a condition, switches and `if`s. -/
def isConstruct : Stmt → Bool
  | ifThen _ _ _ | ifElse _ _ _ _ | whileLoop _ _ _ | doLoop _ _ _ | switch _ _ _ => true
  | forLoop _ _ cond _ _ => cond.isSome
  | _ => false

end Stmt

def Event.construct? : Event → Option Stmt
  | loop _ s _ | ifChain s | switch s _ _ => some s
  | _ => none

namespace Node

def construct? : Node → Option Stmt
  | stmt s => if s.isConstruct then some s else none
  | expr _ => none

/-- The `if` directly behind the `else` of the node. -/
def elseIf? : Node → Option Stmt
  | stmt (.ifElse _ _ _ e) => if e.isIf then some e else none
  | _ => none

def event? : Node → Option Event
  | stmt s => s.event?
  | expr _ => none

end Node

private theorem Event.construct?_of_event? {s : Stmt} {ev : Event} (own : s.event? = some ev) :
    ev.construct? = some s := by
  cases s with
  | forLoop span init cond step body =>
    obtain ⟨c, -, rfl⟩ := Option.map_eq_some_iff.mp own
    rfl
  | ifThen span cond t => cases own; rfl
  | ifElse span cond t e => cases own; rfl
  | whileLoop span cond body => cases own; rfl
  | doLoop span body cond => cases own; rfl
  | switch span cond body => cases own; rfl
  | _ => cases own

private theorem Node.event?_bind_construct? (n : Node) :
    n.event?.bind Event.construct? = n.construct? := by
  cases n with
  | expr e => rfl
  | stmt s =>
    cases s with
    | forLoop span init cond step body => cases cond <;> rfl
    | _ => rfl

private theorem Node.filter_announces (n : Node) :
    n.announces.filter (fun ev => ev.construct?.isSome) = n.event?.toList := by
  cases n with
  | expr e => cases e <;> rfl
  | stmt s =>
    cases s with
    | decl span d =>
      refine List.filter_eq_nil_iff.mpr fun ev member => ?_
      obtain ⟨x, -, own⟩ := List.mem_flatMap.mp member
      obtain ⟨value, -, rfl⟩ := Option.map_eq_some_iff.mp (Option.mem_toList.mp own)
      exact Bool.false_ne_true
    | forLoop span init cond step body => cases cond <;> rfl
    | _ => rfl

private theorem Node.filter_silences (n : Node) :
    n.silences.filter (fun ev => ev.construct?.isSome) =
      n.elseIf?.toList.filterMap Stmt.event? := by
  cases n with
  | expr e =>
    cases e with
    | call span callee args => cases callee <;> rfl
    | _ => rfl
  | stmt s =>
    cases s with
    | ifElse span cond t e => cases e <;> rfl
    | _ => rfl

namespace SourceUnit

/-- The loops with a condition, switches and `if`s of a source file. -/
def constructs (unit : SourceUnit) : List Stmt := unit.nodes.filterMap Node.construct?

/-- The `if`s that stand directly behind an `else`. -/
def elseIfs (unit : SourceUnit) : List Stmt := unit.nodes.filterMap Node.elseIf?

private theorem fires_events (unit : SourceUnit) :
    (unit.events.filter (fun ev => ev.construct?.isSome) ++
      unit.elseIfs.filterMap Stmt.event?).Perm (unit.nodes.filterMap Node.event?) := by
  have none : (unit.items.flatMap Item.announces).filter (fun ev => ev.construct?.isSome) = [] := by
    refine List.filter_eq_nil_iff.mpr fun ev member => ?_
    obtain ⟨item, -, own⟩ := List.mem_flatMap.mp member
    cases item with
    | function f =>
      rw [List.mem_singleton.mp own]
      exact Bool.false_ne_true
    | global d =>
      obtain ⟨x, -, own⟩ := List.mem_flatMap.mp own
      obtain ⟨value, -, rfl⟩ := Option.map_eq_some_iff.mp (Option.mem_toList.mp own)
      exact Bool.false_ne_true
    | _ => cases own
  have announced := unit.announced.filter fun ev => ev.construct?.isSome
  simp only [List.filter_append, none, List.nil_append, List.filter_flatMap,
    Node.filter_announces, Node.filter_silences] at announced
  rw [elseIfs, List.filterMap_eq_flatMap_toList Node.elseIf?, List.filterMap_flatMap,
    List.filterMap_eq_flatMap_toList Node.event?]
  exact announced

/-- Each construct has one event, but for those that only continue a chain. -/
theorem constructs_perm (unit : SourceUnit) :
    (unit.events.filterMap Event.construct? ++ unit.elseIfs).Perm unit.constructs := by
  have fired := unit.fires_events.filterMap Event.construct?
  have kept : (unit.events.filter fun ev => ev.construct?.isSome).filterMap Event.construct? =
      unit.events.filterMap Event.construct? := by
    rw [List.filterMap_filter]
    refine List.filterMap_congr fun ev _ => ?_
    cases ev.construct? <;> rfl
  have links : (unit.elseIfs.filterMap Stmt.event?).filterMap Event.construct? = unit.elseIfs := by
    have each : ∀ e ∈ unit.elseIfs, e.event?.bind Event.construct? = some e := by
      intro e member
      obtain ⟨n, -, behind⟩ := List.mem_filterMap.mp member
      have isIf : e.isIf = true := by
        cases n with
        | expr v => cases behind
        | stmt s =>
          cases s with
          | ifElse span cond t f =>
            simp only [Node.elseIf?, Option.ite_none_right_eq_some, Option.some.injEq] at behind
            rw [← behind.2]
            exact behind.1
          | _ => cases behind
      cases e with
      | ifThen span cond t => rfl
      | ifElse span cond t f => rfl
      | _ => cases isIf
    rw [List.filterMap_filterMap, List.filterMap_congr each, List.filterMap_some]
  have nodes : (unit.nodes.filterMap Node.event?).filterMap Event.construct? = unit.constructs := by
    rw [List.filterMap_filterMap]
    exact List.filterMap_congr fun n _ => n.event?_bind_construct?
  rw [List.filterMap_append, kept, nodes] at fired
  rw [← links]
  exact fired

theorem exists_construct {unit : SourceUnit} {ev : Event} {s : Stmt} (member : ev ∈ unit.events)
    (fires : ev.construct? = some s) : .stmt s ∈ unit.nodes ∧ s.event? = some ev := by
  have listed : ev ∈ unit.nodes.filterMap Node.event? := by
    refine unit.fires_events.subset (List.mem_append_left _ (List.mem_filter.mpr ⟨member, ?_⟩))
    rw [fires]
    rfl
  obtain ⟨n, inside, own⟩ := List.mem_filterMap.mp listed
  cases n with
  | expr e => cases own
  | stmt t =>
    have same : some s = some t := fires.symm.trans (Event.construct?_of_event? own)
    cases same
    exact ⟨inside, own⟩

end SourceUnit

end Lockstep
