import Lockstep.Proofs.Event.Positions
import Lockstep.Proofs.Grammar.Ranges
/-!
Which nodes are told about. Calls, assignments, names, loops with a condition, switches and `if`s
have an event each, but for a bare name that is called and an `if` behind an `else`, for which the
node around them speaks; a declared name has one if it gets an initial value.
-/

set_option autoImplicit false
set_option relaxedAutoImplicit false

namespace Lockstep

/-- The kinds of nodes that have an event of their own. -/
inductive Kind where
  | call | assignment | name | loop | switch | chain
deriving DecidableEq, Repr

def Expr.kind? : Expr → Option Kind
  | name _ _ => some .name
  | call _ _ _ => some .call
  | assign _ _ _ _ => some .assignment
  | _ => none

/-- A counting loop counts as a loop only with a condition. -/
def Stmt.kind? : Stmt → Option Kind
  | ifThen _ _ _ | ifElse _ _ _ _ => some .chain
  | whileLoop _ _ _ | doLoop _ _ _ => some .loop
  | forLoop _ _ cond _ _ => if cond.isSome then some .loop else none
  | switch _ _ _ => some .switch
  | _ => none

namespace Event

def kind? : Event → Option Kind
  | call _ _ => some .call
  | assign _ _ _ => some .assignment
  | name _ => some .name
  | loop _ _ _ => some .loop
  | switch _ _ _ => some .switch
  | ifChain _ => some .chain
  | function _ | init _ _ => none

def node? : Event → Option Node
  | assign e _ _ | call e _ | name e => some (.expr e)
  | loop _ s _ | ifChain s | switch s _ _ => some (.stmt s)
  | function _ | init _ _ => none

def nodeOf (kind : Kind) (ev : Event) : Option Node := if ev.kind? = some kind then ev.node? else none

def init? : Event → Option (Declarator × Expr)
  | init d value => some (d, value)
  | _ => none

private theorem nodeOf_init (kind : Kind) (d : Declarator) (v : Expr) :
    (init d v).nodeOf kind = none := rfl

end Event

namespace Node

def kind? : Node → Option Kind
  | expr e => e.kind?
  | stmt s => s.kind?

/-- The node that the node speaks for: a bare name that it calls, an `if` behind its `else`. -/
def spokenFor? : Node → Option Node
  | expr (.call _ callee _) => if callee.isName then some (.expr callee) else none
  | stmt (.ifElse _ _ _ e) => if e.isIf then some (.stmt e) else none
  | _ => none

private theorem kind?_of_spokenFor? {m n : Node} (spoken : m.spokenFor? = some n) :
    n.kind? = some .name ∨ n.kind? = some .chain := by
  cases m with
  | expr e =>
    cases e with
    | call span callee args =>
      cases callee with
      | name span n =>
        cases spoken
        exact .inl rfl
      | _ => cases spoken
    | _ => cases spoken
  | stmt s =>
    cases s with
    | ifElse span cond t e =>
      cases e with
      | ifThen span cond t =>
        cases spoken
        exact .inr rfl
      | ifElse span cond t e =>
        cases spoken
        exact .inr rfl
      | _ => cases spoken
    | _ => cases spoken

private theorem announces_kind (kind : Kind) (n : Node) :
    n.announces.filterMap (Event.nodeOf kind) = if n.kind? = some kind then [n] else [] := by
  cases n with
  | expr e => cases e <;> cases kind <;> rfl
  | stmt s =>
    cases s with
    | decl span d =>
      refine List.filterMap_eq_nil_iff.mpr fun ev member => ?_
      obtain ⟨x, _, own⟩ := List.mem_flatMap.mp member
      obtain ⟨value, _, rfl⟩ := Option.map_eq_some_iff.mp (Option.mem_toList.mp own)
      exact Event.nodeOf_init kind x value
    | forLoop span init cond step body => cases cond <;> cases kind <;> rfl
    | _ => cases kind <;> rfl

private theorem silences_kind (kind : Kind) (n : Node) : n.silences.filterMap (Event.nodeOf kind) =
    n.spokenFor?.toList.filter fun m => m.kind? = some kind := by
  cases n with
  | expr e =>
    cases e with
    | call span callee args => cases callee <;> cases kind <;> rfl
    | _ => rfl
  | stmt s =>
    cases s with
    | ifElse span cond t e => cases e <;> cases kind <;> rfl
    | _ => rfl

end Node

private theorem Item.announces_kind (kind : Kind) (item : Item) :
    item.announces.filterMap (Event.nodeOf kind) = [] := by
  refine List.filterMap_eq_nil_iff.mpr fun ev own => ?_
  cases item with
  | function f =>
    rw [List.mem_singleton.mp own]
    rfl
  | global d =>
    obtain ⟨x, _, own⟩ := List.mem_flatMap.mp own
    obtain ⟨value, _, rfl⟩ := Option.map_eq_some_iff.mp (Option.mem_toList.mp own)
    exact Event.nodeOf_init kind x value
  | struct d => cases own
  | typedef d => cases own

def Declarator.initial? (d : Declarator) : Option (Declarator × Expr) := d.init.map fun v => (d, v)

private theorem Decl.inits_init (d : Decl) :
    d.inits.filterMap Event.init? = d.declarators.filterMap Declarator.initial? := by
  rw [inits, List.filterMap_flatMap, List.filterMap_eq_flatMap_toList]
  congr 1
  funext x
  cases init : x.init <;> simp [Declarator.initial?, init, Event.init?]

namespace Node

private theorem announces_init (n : Node) :
    n.announces.filterMap Event.init? = n.declarators.filterMap Declarator.initial? := by
  cases n with
  | expr e => cases e <;> rfl
  | stmt s =>
    cases s with
    | decl span d => exact d.inits_init
    | forLoop span init cond step body => cases cond <;> rfl
    | _ => rfl

private theorem silences_init (n : Node) : n.silences.filterMap Event.init? = [] := by
  cases n with
  | expr e =>
    cases e with
    | call span callee args => cases callee <;> rfl
    | _ => rfl
  | stmt s =>
    cases s with
    | ifElse span cond t e => cases e <;> rfl
    | _ => rfl

end Node

private theorem Item.announces_init (item : Item) :
    item.announces.filterMap Event.init? = item.declarators.filterMap Declarator.initial? := by
  cases item with
  | global d => exact d.inits_init
  | function f => rfl
  | struct d => rfl
  | typedef d => rfl

namespace SourceUnit

def nodesOf (unit : SourceUnit) (kind : Kind) : List Node :=
  unit.nodes.filter fun n => n.kind? = some kind

/-- The nodes of a kind that others speak for: bare names that are called, `if`s behind an `else`. -/
def spokenFor (unit : SourceUnit) (kind : Kind) : List Node :=
  (unit.nodes.filterMap Node.spokenFor?).filter fun n => n.kind? = some kind

def toldAbout (unit : SourceUnit) (kind : Kind) : List Node :=
  unit.events.filterMap (Event.nodeOf kind)

private theorem toldAbout_perm (unit : SourceUnit) (kind : Kind) :
    (unit.toldAbout kind ++ unit.spokenFor kind).Perm (unit.nodesOf kind) := by
  have items : (unit.items.flatMap Item.announces).filterMap (Event.nodeOf kind) = [] := by
    rw [List.filterMap_flatMap]
    exact List.flatMap_eq_nil_iff.mpr fun item _ => item.announces_kind kind
  have own : (unit.nodes.flatMap fun n => if n.kind? = some kind then [n] else []) =
      unit.nodesOf kind := by
    rw [nodesOf]
    induction unit.nodes with
    | nil => rfl
    | cons n ns ih => by_cases of : n.kind? = some kind <;> simp [of, ih]
  have spoken : (unit.nodes.flatMap fun n => n.spokenFor?.toList.filter
      fun m => m.kind? = some kind) = unit.spokenFor kind := by
    rw [spokenFor, List.filterMap_eq_flatMap_toList, List.filter_flatMap]
  have announced := unit.announced.filterMap (Event.nodeOf kind)
  rw [List.filterMap_append, List.filterMap_append, items, List.nil_append, List.filterMap_flatMap,
    List.filterMap_flatMap, funext (Node.announces_kind kind), funext (Node.silences_kind kind), own,
    spoken] at announced
  exact announced

private theorem spokenFor_eq_nil (unit : SourceUnit) {kind : Kind} (notName : kind ≠ .name)
    (notChain : kind ≠ .chain) : unit.spokenFor kind = [] := by
  refine List.filter_eq_nil_iff.mpr fun n member same => ?_
  obtain ⟨m, _, spoken⟩ := List.mem_filterMap.mp member
  rw [decide_eq_true_eq] at same
  rcases Node.kind?_of_spokenFor? spoken with name | chain
  · exact notName (Option.some.inj (same.symm.trans name))
  · exact notChain (Option.some.inj (same.symm.trans chain))

private theorem events_inits_perm (unit : SourceUnit) : (unit.events.filterMap Event.init?).Perm
    (unit.declarators.filterMap Declarator.initial?) := by
  have silent : (unit.nodes.flatMap fun n => n.silences.filterMap Event.init?) = [] :=
    List.flatMap_eq_nil_iff.mpr fun n _ => n.silences_init
  have announced := unit.announced.filterMap Event.init?
  simp only [List.filterMap_append, List.filterMap_flatMap, silent, List.append_nil,
    Item.announces_init, Node.announces_init] at announced
  simpa only [declarators, List.filterMap_append, List.filterMap_flatMap] using announced

/-- Each node of the six kinds has one event of its kind, but for the names and `if`s that others
speak for, and each initial value has one. -/
structure Covered (unit : SourceUnit) : Prop where
  calls : (unit.toldAbout .call).Perm (unit.nodesOf .call)
  assignments : (unit.toldAbout .assignment).Perm (unit.nodesOf .assignment)
  names : (unit.toldAbout .name ++ unit.spokenFor .name).Perm (unit.nodesOf .name)
  loops : (unit.toldAbout .loop).Perm (unit.nodesOf .loop)
  switches : (unit.toldAbout .switch).Perm (unit.nodesOf .switch)
  chains : (unit.toldAbout .chain ++ unit.spokenFor .chain).Perm (unit.nodesOf .chain)
  inits : (unit.events.filterMap Event.init?).Perm (unit.declarators.filterMap Declarator.initial?)

theorem covered (unit : SourceUnit) : unit.Covered := by
  have sole (kind : Kind) (notName : kind ≠ .name) (notChain : kind ≠ .chain) :
      (unit.toldAbout kind).Perm (unit.nodesOf kind) := by
    have whole := unit.toldAbout_perm kind
    rwa [unit.spokenFor_eq_nil notName notChain, List.append_nil] at whole
  exact ⟨sole .call (by decide) (by decide), sole .assignment (by decide) (by decide),
    unit.toldAbout_perm .name, sole .loop (by decide) (by decide),
    sole .switch (by decide) (by decide), unit.toldAbout_perm .chain, unit.events_inits_perm⟩

end SourceUnit

def SourceUnit.whole (unit : SourceUnit) : Part := { spot := .unit unit }

/-- Each node and each initial value is told about once, at a position of its own, in the order of the
tree: calls, assignments and initial values behind what they contain, a counting loop behind its
start and a `do` loop behind its body, all else before what it contains. -/
theorem events_told_in_order (unit : SourceUnit) : unit.Covered ∧
    ∃ positions : List Position, positions.Nodup ∧ positions.map unit.whole.told = unit.events.map some ∧
      (∀ position, (unit.whole.told position).isSome → position ∈ positions) ∧
      positions.Pairwise fun p q => unit.whole.Earlier p q ∧ ¬ unit.whole.Earlier q p := by
  obtain ⟨positions, lists⟩ := Part.exists_lists_unit unit
  have told : positions.map unit.whole.told = unit.events.map some := by
    simpa [SourceUnit.whole, Part.events, Spot.events] using lists.told
  exact ⟨unit.covered, positions, lists.nodup, told, lists.all, lists.ordered⟩

end Lockstep
