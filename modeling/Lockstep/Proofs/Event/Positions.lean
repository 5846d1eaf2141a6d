import Lockstep.Proofs.Branch.Chain
import Lockstep.Proofs.Event.Coverage
/-!
Where events are told. A position is the way from the top of a source file down to one of its parts; the
part tells its own event there, or that of the variable whose initial value it is. The events of a
file are those of its positions, each position once, and of two positions the tree says which comes first.
-/

set_option autoImplicit false
set_option relaxedAutoImplicit false

namespace Lockstep

/-- A source file, an item of it, or something inside an item. -/
inductive Spot where
  | unit (u : SourceUnit)
  | item (i : Item)
  | node (n : Node)

/-- A part of the tree as what stands around it sees it. -/
structure Part where
  spot : Spot
  /-- The part is spoken for by what stands around it. -/
  silent : Bool := false
  /-- The event of the variable that the part is the initial value of. -/
  init : Option Event := none

/-- A position inside a part: the part itself, the part as an initial value, or a position inside the
`i`th of the parts that it consists of. -/
inductive Position where
  | here
  | value
  | inside (i : Nat) (position : Position)
deriving DecidableEq, Repr

def Expr.event? : Expr → Option Event
  | e@(name _ _) => some (.name e)
  | e@(call _ callee _) => some (.call e callee)
  | e@(assign _ _ target value) => some (.assign e target value)
  | _ => none

def Expr.isName : Expr → Bool
  | name _ _ => true
  | _ => false

/-- Bounds, then the initial value, which makes the declared name an event. -/
def Declarator.parts (d : Declarator) : List Part :=
  (d.dims.filterMap id).map (fun e => { spot := .node (.expr e) }) ++
    d.init.toList.map fun v => { spot := .node (.expr v), init := some (.init d v) }

def Decl.parts (d : Decl) : List Part := d.declarators.flatMap Declarator.parts

namespace Spot

/-- What stands directly inside, in source order. A call speaks for a bare name that it calls, and an
`if` for the one behind its `else`. -/
def parts : Spot → List Part
  | unit u => u.items.map fun i => { spot := item i }
  | item (.function f) => f.body.toList.flatMap fun b => b.stmts.map fun s => { spot := node (.stmt s) }
  | item (.global d) => d.parts
  | item (.struct _) | item (.typedef _) => []
  | node (.expr (.call _ callee args)) =>
    { spot := node (.expr callee), silent := callee.isName } ::
      args.map fun e => { spot := node (.expr e) }
  | node (.stmt (.ifElse _ cond t e)) =>
    [{ spot := node (.expr cond) }, { spot := node (.stmt t) },
      { spot := node (.stmt e), silent := e.isIf }]
  | node (.stmt (.decl _ d)) => d.parts
  | node n => n.children.map fun c => { spot := node c }

def event? : Spot → Option Event
  | item (.function f) => some (.function f)
  | node (.expr e) => e.event?
  | node (.stmt s) => s.event?
  | _ => none

/-- How many of its parts come before its own event: all of a call and of an assignment, the start of
a counting loop, the body of a `do` loop. -/
def lead : Spot → Nat
  | node (.expr (.call _ _ args)) => args.length + 1
  | node (.expr (.assign _ _ _ _)) => 2
  | node (.stmt (.forLoop _ init _ _ _)) => init.toList.length
  | node (.stmt (.doLoop _ _ _)) => 1
  | _ => 0

def events : Spot → List Event
  | unit u => u.events
  | item i => i.events
  | node n => n.events

/-- The events without that of the spot itself, where something else may speak for it. -/
def innerEvents : Spot → List Event
  | node (.stmt s) => s.innerEvents
  | _ => []

/-- Bare names and `if`s, for which something else may speak. -/
def yields : Spot → Bool
  | node (.expr e) => e.isName
  | node (.stmt s) => s.isIf
  | _ => false

end Spot

namespace Part

/-- The event that is told at a position inside the part. -/
def told (part : Part) : Position → Option Event
  | .here => if part.silent then none else part.spot.event?
  | .value => part.init
  | .inside i position => (part.spot.parts[i]?).bind fun inner => inner.told position

/-- Of two positions inside the part, does the first come before the second? -/
def Earlier (part : Part) : Position → Position → Prop
  | .value, _ => False
  | .here, .value => True
  | .inside _ _, .value => True
  | .here, .here => False
  | .here, .inside j _ => part.spot.lead ≤ j
  | .inside i _, .here => i < part.spot.lead
  | .inside i p, .inside j q =>
    i < j ∨ i = j ∧ ∃ inner ∈ part.spot.parts[i]?, inner.Earlier p q

def events (part : Part) : List Event :=
  (if part.silent then part.spot.innerEvents else part.spot.events) ++ part.init.toList

/-- The positions of a part at which something is told, in the order of the events. -/
structure Lists (part : Part) (positions : List Position) : Prop where
  told : positions.map part.told = part.events.map some
  all : ∀ position, (part.told position).isSome → position ∈ positions
  ordered : positions.Pairwise fun p q => part.Earlier p q ∧ ¬ part.Earlier q p

end Part

namespace Part

@[simp] theorem events_plain (n : Node) : ({ spot := .node n } : Part).events = n.events := by
  simp [events, Spot.events]

private theorem flatMap_events_plain (ns : List Node) :
    (ns.map fun n => ({ spot := .node n } : Part)).flatMap events = ns.flatMap Node.events := by
  simp [List.flatMap_map]

end Part

private theorem Declarator.flatMap_events_parts (d : Declarator) :
    d.parts.flatMap Part.events = d.events := by
  have value (v : Expr) : ({ spot := .node (.expr v), init := some (.init d v) } : Part).events =
      v.events ++ [.init d v] := by simp [Part.events, Spot.events, Node.events]
  rw [parts, events, List.flatMap_append, Expr.eventsAll_eq_flatMap]
  cases d.init <;> simp [value, List.flatMap_map, Node.events]

private theorem Decl.flatMap_events_parts (d : Decl) : d.parts.flatMap Part.events = d.events := by
  rw [parts, events, List.flatMap_assoc, funext Declarator.flatMap_events_parts]

namespace Spot

private theorem events_eq_of_last {spot : Spot} (last : spot.parts.length ≤ spot.lead)
    (whole : spot.events = spot.parts.flatMap Part.events ++ spot.event?.toList) :
    spot.events = (spot.parts.take spot.lead).flatMap Part.events ++ spot.event?.toList ++
      (spot.parts.drop spot.lead).flatMap Part.events := by
  rw [List.take_of_length_le last, List.drop_of_length_le last, whole, List.flatMap_nil,
    List.append_nil]

private theorem events_eq_of_first {spot : Spot} (first : spot.lead = 0)
    (whole : spot.events = spot.event?.toList ++ spot.parts.flatMap Part.events) :
    spot.events = (spot.parts.take spot.lead).flatMap Part.events ++ spot.event?.toList ++
      (spot.parts.drop spot.lead).flatMap Part.events := by
  rw [first, List.take_zero, List.drop_zero, whole, List.flatMap_nil, List.nil_append]

private theorem events_expr (e : Expr) : (node (.expr e)).events =
    ((node (.expr e)).parts.take (node (.expr e)).lead).flatMap Part.events ++
      (node (.expr e)).event?.toList ++
        ((node (.expr e)).parts.drop (node (.expr e)).lead).flatMap Part.events := by
  cases e with
  | call span callee args =>
    refine events_eq_of_last (by simp [parts, lead]) ?_
    have called : Part.events { spot := node (.expr callee), silent := callee.isName } =
        if callee.isName then [] else callee.events := by
      cases callee <;> simp [Part.events, Expr.isName, innerEvents, events, Node.events]
    have args' : (args.map fun e => ({ spot := node (.expr e) } : Part)).flatMap Part.events =
        Expr.eventsAll args := by
      simp [List.flatMap_map, Node.events, Expr.eventsAll_eq_flatMap]
    rw [parts, List.flatMap_cons, called, args']
    cases callee <;> rfl
  | assign span op target value =>
    refine events_eq_of_last (by simp [parts, lead, Node.children, Expr.children]) ?_
    simp [events, Node.events, Expr.events, parts, Node.children, Expr.children, event?, Expr.event?]
  | _ =>
    refine events_eq_of_first rfl ?_
    simp [events, Node.events, Expr.events, parts, Node.children, Expr.children, event?,
      Expr.event?, Expr.eventsAll_eq_flatMap, List.flatMap_map]

private theorem events_stmt (s : Stmt) : (node (.stmt s)).events =
    ((node (.stmt s)).parts.take (node (.stmt s)).lead).flatMap Part.events ++
      (node (.stmt s)).event?.toList ++
        ((node (.stmt s)).parts.drop (node (.stmt s)).lead).flatMap Part.events := by
  cases s with
  | decl span d =>
    refine events_eq_of_first rfl ?_
    rw [parts, d.flatMap_events_parts]
    rfl
  | ifElse span cond t e =>
    refine events_eq_of_first rfl ?_
    have link : Part.events { spot := node (.stmt e), silent := e.isIf } = e.innerEvents := by
      cases e <;> simp [Part.events, Stmt.isIf, innerEvents, events, Node.events, Stmt.events,
        Stmt.chainStart]
    simp [parts, link, events, Node.events, Stmt.events, Stmt.chainStart, Stmt.innerEvents, event?,
      Stmt.event?]
  | forLoop span init cond step body =>
    have start : (init.toList.map fun i => ({ spot := node (.stmt i.toStmt) } : Part)).flatMap
        Part.events = init.toList.flatMap ForInit.events := by
      simp [List.flatMap_map, Node.events, ForInit.events_toStmt]
    have split : (node (.stmt (.forLoop span init cond step body))).parts =
        (init.toList.map fun i => ({ spot := node (.stmt i.toStmt) } : Part)) ++
          ((cond.toList ++ step.toList).map Node.expr ++ [Node.stmt body]).map
            fun n => { spot := node n } := by
      simp [parts, Node.children, Stmt.children, Function.comp_def]
    have size : (node (.stmt (.forLoop span init cond step body))).lead =
        (init.toList.map fun i => ({ spot := node (.stmt i.toStmt) } : Part)).length := by
      simp [lead]
    rw [split, size, List.take_left, List.drop_left, start, Part.flatMap_events_plain]
    cases cond <;> simp [events, Node.events, Stmt.events, Stmt.chainStart, Stmt.innerEvents,
      Expr.eventsAll_eq_flatMap, List.flatMap_map, event?, Stmt.event?]
  | doLoop span body cond =>
    simp [events, Node.events, Stmt.events, Stmt.chainStart, Stmt.innerEvents, parts, lead,
      Node.children, Stmt.children, event?, Stmt.event?]
  | compound span body =>
    refine events_eq_of_first rfl ?_
    have inside : (node (.stmt (.compound span body))).events = body.flatMap Stmt.events :=
      Stmt.eventsAll_eq_flatMap body
    rw [inside]
    simp [parts, Node.children, Stmt.children, List.flatMap_map, Node.events, event?, Stmt.event?]
  | _ =>
    refine events_eq_of_first rfl ?_
    simp [events, Node.events, Stmt.events, Stmt.chainStart, Stmt.innerEvents, parts, Node.children,
      Stmt.children, event?, Stmt.event?, Expr.eventsAll_eq_flatMap, List.flatMap_map]

private theorem events_eq (spot : Spot) : spot.events =
    (spot.parts.take spot.lead).flatMap Part.events ++ spot.event?.toList ++
      (spot.parts.drop spot.lead).flatMap Part.events := by
  cases spot with
  | unit u =>
    refine events_eq_of_first rfl ?_
    simp [events, SourceUnit.events, parts, event?, List.flatMap_map, Part.events]
  | item i =>
    refine events_eq_of_first rfl ?_
    cases i with
    | function f =>
      cases body : f.body <;> simp [events, Item.events, parts, event?, body, List.flatMap_map,
        Stmt.eventsAll_eq_flatMap, Node.events]
    | global d =>
      rw [parts, d.flatMap_events_parts]
      rfl
    | struct d => rfl
    | typedef d => rfl
  | node n =>
    cases n with
    | expr e => exact events_expr e
    | stmt s => exact events_stmt s

private theorem innerEvents_eq {spot : Spot} (quiet : spot.yields = true) :
    spot.innerEvents = (spot.parts.take spot.lead).flatMap Part.events ++
      (spot.parts.drop spot.lead).flatMap Part.events := by
  have whole := spot.events_eq
  cases spot with
  | unit u => cases quiet
  | item i => cases quiet
  | node n =>
    cases n with
    | expr e =>
      cases e with
      | name span n => rfl
      | _ => cases quiet
    | stmt s =>
      cases s with
      | ifThen span cond t => exact (List.cons.inj whole).2
      | ifElse span cond t e => exact (List.cons.inj whole).2
      | _ => cases quiet

private theorem lead_le (spot : Spot) : spot.lead ≤ spot.parts.length := by
  cases spot with
  | node n =>
    cases n with
    | expr e => cases e <;> simp [lead, parts, Node.children, Expr.children]
    | stmt s => cases s <;> simp [lead, parts, Node.children, Stmt.children]
  | _ => exact Nat.zero_le _

end Spot

namespace Part

variable {part inner : Part} {i j k n : Nat} {p q : Position} {positions rest : List Position}

private theorem told_inside (stands : part.spot.parts[i]? = some inner) :
    part.told (.inside i p) = inner.told p := by
  rw [told, stands]
  rfl

private theorem earlier_inside_iff (stands : part.spot.parts[i]? = some inner) :
    part.Earlier (.inside i p) (.inside i q) ↔ inner.Earlier p q := by
  simp [Earlier, stands]

private theorem earlier_of_lt (less : i < j) : part.Earlier (.inside i p) (.inside j q) ∧
    ¬ part.Earlier (.inside j q) (.inside i p) := by
  have distinct : j ≠ i := by omega
  have notLess : ¬ j < i := by omega
  simp [Earlier, less, distinct, notLess]

/-- The positions inside `n` parts from the `k`th one on, in the order of the events. -/
structure ListsRow (part : Part) (k n : Nat) (positions : List Position) : Prop where
  told : positions.map part.told = (((part.spot.parts.drop k).take n).flatMap events).map some
  all : ∀ i p, k ≤ i → i < k + n → (part.told (.inside i p)).isSome → .inside i p ∈ positions
  within : ∀ p ∈ positions, ∃ i inner, p = .inside i inner ∧ k ≤ i ∧ i < k + n
  ordered : positions.Pairwise fun p q => part.Earlier p q ∧ ¬ part.Earlier q p

private theorem listsRow_zero : part.ListsRow k 0 [] where
  told := by simp
  all := fun i _ low high => by omega
  within := by simp
  ordered := List.Pairwise.nil

theorem ListsRow.cons (stands : part.spot.parts[k]? = some inner) (first : inner.Lists positions)
    (others : part.ListsRow (k + 1) n rest) :
    part.ListsRow k (n + 1) (positions.map (.inside k) ++ rest) where
  told := by
    have lifted : (positions.map (.inside k)).map part.told = inner.events.map some := by
      rw [List.map_map, ← first.told]
      exact List.map_congr_left fun p _ => told_inside stands
    obtain ⟨bound, rfl⟩ := List.getElem?_eq_some_iff.mp stands
    rw [List.drop_eq_getElem_cons bound, List.take_succ_cons, List.flatMap_cons, List.map_append,
      List.map_append, lifted, others.told]
  all := by
    intro i p low high known
    by_cases same : i = k
    · subst same
      rw [told_inside stands] at known
      exact List.mem_append_left _ (List.mem_map_of_mem (first.all p known))
    · exact List.mem_append_right _ (others.all i p (by omega) (by omega) known)
  within := by
    intro p member
    rcases List.mem_append.mp member with own | later
    · obtain ⟨q, _, rfl⟩ := List.mem_map.mp own
      exact ⟨k, q, rfl, by omega, by omega⟩
    · obtain ⟨i, q, rfl, low, high⟩ := others.within p later
      exact ⟨i, q, rfl, by omega, by omega⟩
  ordered := by
    refine List.pairwise_append.mpr ⟨?_, others.ordered, ?_⟩
    · refine List.pairwise_map.mpr (first.ordered.imp ?_)
      intro p q
      rw [earlier_inside_iff stands, earlier_inside_iff stands]
      exact id
    · intro p own q later
      obtain ⟨p, _, rfl⟩ := List.mem_map.mp own
      obtain ⟨i, q, rfl, low, _⟩ := others.within q later
      exact earlier_of_lt (by omega)

private theorem exists_listsRow
    (each : ∀ inner ∈ part.spot.parts, ∃ positions, inner.Lists positions)
    (k n : Nat) (fits : k + n ≤ part.spot.parts.length) : ∃ positions, part.ListsRow k n positions := by
  induction n generalizing k with
  | zero => exact ⟨[], listsRow_zero⟩
  | succ n ih =>
    have stands := List.getElem?_eq_getElem (l := part.spot.parts) (i := k) (by omega)
    obtain ⟨first, lists⟩ := each _ (List.mem_of_getElem? stands)
    obtain ⟨others, row⟩ := ih (k + 1) (by omega)
    exact ⟨_, row.cons stands lists⟩

def mark (position : Position) (event : Option Event) : List Position :=
  if event.isSome then [position] else []

private theorem mem_mark_iff {event : Option Event} :
    p ∈ mark q event ↔ event.isSome = true ∧ p = q := by
  cases event <;> simp [mark]

private theorem pairwise_mark {event : Option Event} {R : Position → Position → Prop} :
    (mark p event).Pairwise R := by
  cases event <;> simp [mark]

private theorem map_told_mark :
    (mark p (part.told p)).map part.told = (part.told p).toList.map some := by
  cases known : part.told p <;> simp [mark, known]

private theorem events_eq (fits : part.silent = true → part.spot.yields = true) : part.events =
    (part.spot.parts.take part.spot.lead).flatMap events ++ (part.told .here).toList ++
      (part.spot.parts.drop part.spot.lead).flatMap events ++ part.init.toList := by
  rw [events, told]
  cases silent : part.silent with
  | false => simp [part.spot.events_eq]
  | true => simp [Spot.innerEvents_eq (fits silent)]

private theorem earlier_value (other : p ≠ .value) :
    part.Earlier p .value ∧ ¬ part.Earlier .value p := by
  cases p with
  | value => exact absurd rfl other
  | _ => simp [Earlier]

private theorem exists_lists_of_parts (fits : part.silent = true → part.spot.yields = true)
    (each : ∀ inner ∈ part.spot.parts, ∃ positions, inner.Lists positions) :
    ∃ positions, part.Lists positions := by
  have room := part.spot.lead_le
  obtain ⟨before, first⟩ := exists_listsRow each 0 part.spot.lead (by omega)
  obtain ⟨behind, second⟩ := exists_listsRow each part.spot.lead
    (part.spot.parts.length - part.spot.lead) (by omega)
  refine ⟨before ++ mark .here (part.told .here) ++ behind ++ mark .value (part.told .value),
    ?_, ?_, ?_⟩
  · have tail : (part.spot.parts.drop part.spot.lead).take
        (part.spot.parts.length - part.spot.lead) = part.spot.parts.drop part.spot.lead :=
      List.take_of_length_le (Nat.le_of_eq List.length_drop)
    rw [events_eq fits]
    simp only [List.map_append, first.told, second.told, map_told_mark, List.drop_zero, tail]
    rfl
  · intro p known
    cases p with
    | here => simp [mem_mark_iff, known]
    | value => simp [mem_mark_iff, known]
    | inside i p =>
      by_cases early : i < part.spot.lead
      · simp [first.all i p (Nat.zero_le i) (by omega) known]
      · have stands : i < part.spot.parts.length := by
          by_contra beyond
          rw [told, List.getElem?_eq_none (by omega)] at known
          cases known
        simp [second.all i p (by omega) (by omega) known]
  · have atHere : ∀ p ∈ mark .here (part.told .here), p = .here := fun p member =>
      (mem_mark_iff.mp member).2
    have atValue : ∀ p ∈ mark .value (part.told .value), p = .value := fun p member =>
      (mem_mark_iff.mp member).2
    refine List.pairwise_append.mpr ⟨List.pairwise_append.mpr ⟨List.pairwise_append.mpr
      ⟨first.ordered, pairwise_mark, ?_⟩, second.ordered, ?_⟩, pairwise_mark, ?_⟩
    · intro p early q here
      obtain ⟨i, p, rfl, _, low⟩ := first.within p early
      obtain rfl := atHere q here
      simp only [Earlier]
      omega
    · intro p early q late
      obtain ⟨j, q, rfl, high, _⟩ := second.within q late
      rcases List.mem_append.mp early with early | here
      · obtain ⟨i, p, rfl, _, low⟩ := first.within p early
        exact earlier_of_lt (by omega)
      · obtain rfl := atHere p here
        simp only [Earlier]
        omega
    · intro p early q value
      obtain rfl := atValue q value
      apply earlier_value
      rintro rfl
      rcases List.mem_append.mp early with early | late
      · rcases List.mem_append.mp early with early | here
        · obtain ⟨_, _, impossible, _⟩ := first.within _ early
          cases impossible
        · cases atHere _ here
      · obtain ⟨_, _, impossible, _⟩ := second.within _ late
        cases impossible

end Part

private theorem Decl.map_spot_parts (d : Decl) :
    d.parts.map Part.spot = d.exprs.map fun e => .node (.expr e) := by
  have each (x : Declarator) : x.parts.map Part.spot = x.exprs.map fun e => .node (.expr e) := by
    simp [Declarator.parts, Declarator.exprs, Function.comp_def]
  rw [parts, exprs, List.map_flatMap, List.map_flatMap, funext each]

private theorem Decl.silent_of_mem_parts {d : Decl} {inner : Part} (member : inner ∈ d.parts) :
    inner.silent = false := by
  obtain ⟨x, _, own⟩ := List.mem_flatMap.mp member
  rcases List.mem_append.mp own with bound | value
  · obtain ⟨e, _, rfl⟩ := List.mem_map.mp bound
    rfl
  · obtain ⟨e, _, rfl⟩ := List.mem_map.mp value
    rfl

namespace Spot

private theorem map_spot_parts (n : Node) : (node n).parts.map Part.spot = n.children.map node := by
  have plain (ns : List Node) :
      (ns.map fun c => ({ spot := node c } : Part)).map Part.spot = ns.map node := by
    simp
  cases n with
  | expr e =>
    cases e with
    | call span callee args => simp [parts, Node.children, Expr.children]
    | _ => exact plain _
  | stmt s =>
    cases s with
    | ifElse span cond t e => rfl
    | decl span d => simp [parts, Node.children, Stmt.children, d.map_spot_parts]
    | _ => exact plain _

private theorem exists_child {n : Node} {inner : Part} (member : inner ∈ (node n).parts) :
    ∃ c ∈ n.children, inner.spot = node c := by
  have listed := List.mem_map_of_mem (f := Part.spot) member
  rw [map_spot_parts] at listed
  obtain ⟨c, child, same⟩ := List.mem_map.mp listed
  exact ⟨c, child, same.symm⟩

private theorem yields_of_silent {n : Node} {inner : Part} (member : inner ∈ (node n).parts)
    (silent : inner.silent = true) : inner.spot.yields = true := by
  have plain {ns : List Node} (listed : inner ∈ ns.map fun c => ({ spot := node c } : Part)) :
      inner.spot.yields = true := by
    obtain ⟨c, _, rfl⟩ := List.mem_map.mp listed
    cases silent
  cases n with
  | expr e =>
    cases e with
    | call span callee args =>
      rcases List.mem_cons.mp member with rfl | listed
      · exact silent
      · obtain ⟨a, _, rfl⟩ := List.mem_map.mp listed
        cases silent
    | _ => exact plain member
  | stmt s =>
    cases s with
    | ifElse span cond t e =>
      simp only [parts, List.mem_cons, List.not_mem_nil, or_false] at member
      rcases member with rfl | rfl | rfl
      · cases silent
      · cases silent
      · exact silent
    | decl span d =>
      rw [d.silent_of_mem_parts member] at silent
      cases silent
    | _ => exact plain member

end Spot

namespace Part

private theorem exists_lists_node (n : Node) {part : Part} (stands : part.spot = .node n)
    (fits : part.silent = true → part.spot.yields = true) : ∃ positions, part.Lists positions := by
  induction n using Node.children_induction generalizing part with
  | step n ih =>
    refine exists_lists_of_parts fits fun inner member => ?_
    rw [stands] at member
    obtain ⟨c, child, same⟩ := Spot.exists_child member
    exact ih c child same (Spot.yields_of_silent member)

private theorem exists_lists_item (item : Item) :
    ∃ positions, ({ spot := .item item } : Part).Lists positions := by
  refine exists_lists_of_parts (fun silent => by cases silent) fun inner member => ?_
  cases item with
  | function f =>
    obtain ⟨b, _, inside⟩ := List.mem_flatMap.mp member
    obtain ⟨s, _, rfl⟩ := List.mem_map.mp inside
    exact exists_lists_node (.stmt s) rfl fun silent => by cases silent
  | global d =>
    have listed := List.mem_map_of_mem (f := Part.spot) member
    rw [Spot.parts, d.map_spot_parts] at listed
    obtain ⟨e, _, same⟩ := List.mem_map.mp listed
    refine exists_lists_node (.expr e) same.symm fun silent => ?_
    rw [d.silent_of_mem_parts member] at silent
    cases silent
  | struct d => cases member
  | typedef d => cases member

theorem exists_lists_unit (unit : SourceUnit) :
    ∃ positions, ({ spot := .unit unit } : Part).Lists positions := by
  refine exists_lists_of_parts (fun silent => by cases silent) fun inner member => ?_
  obtain ⟨item, _, rfl⟩ := List.mem_map.mp member
  exact exists_lists_item item

theorem Lists.nodup {part : Part} {positions : List Position} (lists : part.Lists positions) :
    positions.Nodup := by
  refine lists.ordered.imp ?_
  rintro p q ⟨before, notBehind⟩ rfl
  exact notBehind before

end Part

end Lockstep
