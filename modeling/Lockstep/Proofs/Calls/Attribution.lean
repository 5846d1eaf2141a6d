import Lockstep.Proofs.Calls.Relation
import Mathlib.Data.List.Nodup
import Mathlib.Data.List.Pairwise
/-!
Calls and their callers. In a file that was read, each place inside a function where a function is
called or referred to is on record once, with the function around it as caller; what stands outside
functions is on record for none. The ranges of two functions may touch and a function may be defined
twice: no name stands on the border, and each definition is met before its own sites.
-/

set_option autoImplicit false
set_option relaxedAutoImplicit false

namespace Lockstep

/-- Among the nodes a function is called or referred to at the place: it is the callee of a call and
stands for no variable, or it is a name that stands for a function of the file. -/
def SiteAmong (r : Resolution) (nodes : List Node) (n : String) (span : Span) : Prop :=
  (∃ whole callee args, .expr (.call whole callee args) ∈ nodes ∧ r.calleeName callee = some n ∧
    callee.span = span) ∨
  ∃ m, .expr (.name span m) ∈ nodes ∧ r.functionRef (.name span m) = some n

private theorem Node.siteAmong_of_announces {r : Resolution} {nodes : List Node} {node : Node}
    {ev : Event} {n : String} {span : Span} (inside : node ∈ nodes) (own : ev ∈ node.announces)
    (called : ev.site? r = some (n, span)) : SiteAmong r nodes n span := by
  cases node with
  | stmt s =>
    have silent : (Node.stmt s).announces.filterMap Event.spoken? = [] := by
      rw [spoken_announces]
      cases s with
      | ifElse _ cond t e => cases e <;> rfl
      | _ => rfl
    have spoken := List.mem_filterMap.mpr ⟨ev, own, Event.spoken?_of_site called⟩
    rw [silent] at spoken
    cases spoken
  | expr e =>
    cases e with
    | name place m =>
      rw [List.mem_singleton.mp own] at called
      obtain ⟨g, referred, same⟩ := Option.map_eq_some_iff.mp called
      cases same
      exact .inr ⟨m, inside, referred⟩
    | call whole callee args =>
      rw [List.mem_singleton.mp own] at called
      obtain ⟨g, named, same⟩ := Option.map_eq_some_iff.mp called
      cases same
      exact .inl ⟨whole, callee, args, inside, named, rfl⟩
    | assign whole op target value =>
      rw [List.mem_singleton.mp own] at called
      cases called
    | _ => cases own

namespace Item

variable {r : Resolution} {item : Item} {n : String} {span : Span}

private theorem siteAmong_of_mem_sites (site : (n, span) ∈ item.sites r) :
    SiteAmong r item.nodes n span := by
  obtain ⟨ev, member, called⟩ := List.mem_filterMap.mp site
  rcases List.mem_append.mp (item.announced.subset (List.mem_append_left _ member)) with own | below
  · have spoken := List.mem_filterMap.mpr ⟨ev, own, Event.spoken?_of_site called⟩
    rw [spoken_announces] at spoken
    cases spoken
  · obtain ⟨node, inside, own⟩ := List.mem_flatMap.mp below
    exact Node.siteAmong_of_announces inside own called

private theorem call_mem_events {whole : Span} {callee : Expr} {args : List Expr}
    (inside : .expr (.call whole callee args) ∈ item.nodes) :
    .call (.call whole callee args) callee ∈ item.events := by
  have own : Event.call (.call whole callee args) callee ∈
      item.nodes.flatMap Node.announces :=
    List.mem_flatMap.mpr ⟨_, inside, List.mem_cons_self⟩
  rcases List.mem_append.mp (item.announced.symm.subset (List.mem_append_right _ own)) with
    event | silenced
  · exact event
  · obtain ⟨node, -, instead⟩ := List.mem_flatMap.mp silenced
    cases node with
    | stmt s =>
      cases s with
      | ifElse _ cond t e => cases e <;> simp [Node.silences, Stmt.silences, Stmt.chainStart] at instead
      | _ => cases instead
    | expr e =>
      cases e with
      | call _ callee _ => cases callee <;> simp [Node.silences, Expr.silences] at instead
      | _ => cases instead

theorem mem_sites_iff : (n, span) ∈ item.sites r ↔ SiteAmong r item.nodes n span := by
  refine ⟨siteAmong_of_mem_sites, ?_⟩
  rintro (⟨whole, callee, args, inside, named, rfl⟩ | ⟨m, inside, referred⟩)
  · refine List.mem_filterMap.mpr ⟨_, call_mem_events inside, ?_⟩
    rw [Event.site?, named]
    rfl
  · have name : (span, m) ∈ item.names := List.mem_filterMap.mpr ⟨_, inside, rfl⟩
    obtain ⟨ev, member, spoken⟩ := List.mem_filterMap.mp (item.spoken_perm.mem_iff.mpr name)
    have bare {e : Expr} (is : (Node.expr e).name? = some (span, m)) : e = .name span m := by
      cases e with
      | name place k =>
        cases is
        rfl
      | _ => cases is
    refine List.mem_filterMap.mpr ⟨ev, member, ?_⟩
    cases ev with
    | call e callee =>
      rw [bare spoken, Event.site?, (Option.filter_eq_some_iff.mp referred).1]
      rfl
    | name e =>
      rw [bare spoken, Event.site?, referred]
      rfl
    | _ => cases spoken

end Item

private theorem filter_eq_singleton {α β : Type} [DecidableEq β] {f : α → β} {l : List α} {a : α}
    (distinct : (l.map f).Nodup) (member : a ∈ l) : l.filter (fun x => f x = f a) = [a] := by
  induction l with
  | nil => cases member
  | cons x l ih =>
    rw [List.map_cons, List.nodup_cons] at distinct
    by_cases here : x = a
    · subst here
      have others : l.filter (fun y => f y = f x) = [] := by
        refine List.filter_eq_nil_iff.mpr fun y inside same => distinct.1 ?_
        rw [← of_decide_eq_true same]
        exact List.mem_map_of_mem inside
      rw [List.filter_cons_of_pos (by simp), others]
    · have later : a ∈ l := (List.mem_cons.mp member).resolve_left (Ne.symm here)
      have apart : f x ≠ f a := fun same => distinct.1 (same ▸ List.mem_map_of_mem later)
      rw [List.filter_cons_of_neg (by simpa using apart), ih distinct.2 later]

namespace SourceUnit

variable {unit : SourceUnit} (r : Resolution)

private theorem nodup_recorded (distinct : (unit.names.map Prod.fst).Nodup) :
    ((unit.items.flatMap (Item.recorded r)).map Call.span).Nodup := by
  have spoken : (unit.items.flatMap fun item => item.events.filterMap Event.spoken?).Perm
      unit.names := by
    rw [names, nodes, List.filterMap_flatMap]
    exact List.Perm.flatMap_left _ fun item _ => item.spoken_perm
  have each (item : Item) : ((item.recorded r).map Call.span).Sublist
      ((item.events.filterMap Event.spoken?).map Prod.fst) := by
    cases item with
    | function f =>
      have sites := ((Item.function f).sites_sublist r).map Prod.fst
      rw [List.map_map] at sites
      rw [Item.recorded, List.map_map]
      exact sites
    | _ => exact List.nil_sublist _
  have within (items : List Item) : ((items.flatMap (Item.recorded r)).map Call.span).Sublist
      ((items.flatMap fun item => item.events.filterMap Event.spoken?).map Prod.fst) := by
    induction items with
    | nil => exact List.Sublist.refl _
    | cons item items ih =>
      simp only [List.flatMap_cons, List.map_append]
      exact (each item).append ih
  exact ((spoken.map Prod.fst).nodup_iff.mpr distinct).sublist (within unit.items)

private theorem eq_of_mem_names (distinct : (unit.names.map Prod.fst).Nodup) {x y : Item}
    (known : x ∈ unit.items) (known' : y ∈ unit.items) {span : Span} {n m : String}
    (name : (span, n) ∈ x.names) (name' : (span, m) ∈ y.names) : x = y := by
  have apart : (unit.items.flatMap fun item => item.names.map Prod.fst).Nodup := by
    rw [names, nodes, List.filterMap_flatMap, List.map_flatMap] at distinct
    exact distinct
  have symmetric : Std.Symm (Function.onFun List.Disjoint fun item : Item =>
      item.names.map Prod.fst) :=
    ⟨fun _ _ disjoint _ here there => disjoint there here⟩
  by_contra differ
  have disjoint := (List.nodup_flatMap.mp apart).2.forall known known' differ
  have here : span ∈ x.names.map Prod.fst := List.mem_map_of_mem name
  have there : span ∈ y.names.map Prod.fst := List.mem_map_of_mem name'
  exact disjoint here there

end SourceUnit

/-- In a file that was read, each place inside a function where a function is called or referred to
is on record exactly once, for the function around it; a place in the bounds or initial values of
variables is on record for no function. Nothing else is on record. The callers of a function are
listed item by item in the order of the events. -/
theorem calls_attributed {text : String} {unit : SourceUnit}
    (parsed : (parse text).unit = some unit) (source : SourceText) (settings : Settings) :
    let r := resolve unit
    let m := (analyze source settings unit).calls
    (∀ f, .function f ∈ unit.items → ∀ n span, SiteAmong r (Item.function f).nodes n span →
      m.calls.filter (fun c => c.span = span) = [⟨n, f.name.name, span⟩]) ∧
    (∀ d, .global d ∈ unit.items → ∀ n span, SiteAmong r (Item.global d).nodes n span →
      m.calls.filter (fun c => c.span = span) = []) ∧
    (∀ c ∈ m.calls, ∃ f, .function f ∈ unit.items ∧ f.body.isSome = true ∧
      f.name.name = c.caller ∧ SiteAmong r (Item.function f).nodes c.callee c.span) ∧
    ∀ n, m.callersOf n =
      (unit.items.flatMap (Item.recorded r)).filter fun c => c.callee == n := by
  intro r m
  have distinct := SourceUnit.nodup_names_of_parse parsed
  have calls : m.calls = unit.items.flatMap (Item.recorded r) :=
    SourceUnit.calls_analyze (SourceUnit.placed_of_parse parsed) source settings
  have origin : ∀ c ∈ m.calls, ∃ f, .function f ∈ unit.items ∧ c.caller = f.name.name ∧
      (c.callee, c.span) ∈ (Item.function f).sites r := by
    intro c recorded
    rw [calls] at recorded
    obtain ⟨item, known, own⟩ := List.mem_flatMap.mp recorded
    cases item with
    | function f =>
      obtain ⟨⟨n, span⟩, site, rfl⟩ := List.mem_map.mp own
      exact ⟨f, known, rfl, site⟩
    | _ => cases own
  refine ⟨?_, ?_, ?_, ?_⟩
  · intro f known n span site
    have recorded : ⟨n, f.name.name, span⟩ ∈ m.calls := by
      rw [calls]
      exact List.mem_flatMap.mpr ⟨_, known, List.mem_map_of_mem (Item.mem_sites_iff.mpr site)⟩
    have once : (m.calls.map Call.span).Nodup := by
      rw [calls]
      exact SourceUnit.nodup_recorded r distinct
    exact filter_eq_singleton once recorded
  · intro d known n span site
    refine List.filter_eq_nil_iff.mpr fun c recorded same => ?_
    obtain ⟨f, known', -, site'⟩ := origin c recorded
    have name := (Item.global d).mem_names_of_mem_sites r (Item.mem_sites_iff.mpr site)
    have name' := (Item.function f).mem_names_of_mem_sites r site'
    rw [of_decide_eq_true same] at name'
    cases SourceUnit.eq_of_mem_names distinct known known' name name'
  · intro c recorded
    obtain ⟨f, known, caller, site⟩ := origin c recorded
    exact ⟨f, known, Item.isSome_body_of_mem_sites site, caller.symm, Item.mem_sites_iff.mp site⟩
  · intro n
    rw [CallMap.callersOf, calls]

/-- Three items in a row without a space, two of which define one function. -/
theorem calls_attributed_sample : ∃ unit f d,
    (parse "void f(){g();}int x=g();void f(){f;}").unit = some unit ∧
      .function f ∈ unit.items ∧ SiteAmong (resolve unit) (Item.function f).nodes "g" ⟨9, 10⟩ ∧
      .global d ∈ unit.items ∧ SiteAmong (resolve unit) (Item.global d).nodes "g" ⟨20, 21⟩ ∧
      (analyze ⟨"k.cl", 36, [0]⟩ {} unit).calls.calls.filter (fun c => c.span = ⟨9, 10⟩) =
        [⟨"g", f.name.name, ⟨9, 10⟩⟩] ∧
      (analyze ⟨"k.cl", 36, [0]⟩ {} unit).calls.calls.filter (fun c => c.span = ⟨20, 21⟩) = [] := by
  have sites : ((parse "void f(){g();}int x=g();void f(){f;}").unit.map fun unit =>
      unit.items.map fun item => (item.sites (resolve unit), (item.recorded (resolve unit)).length))
      = some [([("g", ⟨9, 10⟩)], 1), ([("g", ⟨20, 21⟩)], 0), ([("f", ⟨33, 34⟩)], 1)] := by
    decide +kernel
  obtain ⟨unit, parsed, sites⟩ := Option.map_eq_some_iff.mp sites
  obtain ⟨x, others, items, first, rest⟩ := List.map_eq_cons_iff.mp sites
  obtain ⟨y, others', items', second, -⟩ := List.map_eq_cons_iff.mp rest
  obtain ⟨inFunction, inGlobal, -, -⟩ := calls_attributed parsed ⟨"k.cl", 36, [0]⟩ {}
  have known : x ∈ unit.items := by simp [items]
  have known' : y ∈ unit.items := by simp [items, items']
  obtain ⟨site, one⟩ := Prod.mk.inj first
  obtain ⟨site', none⟩ := Prod.mk.inj second
  have called : SiteAmong (resolve unit) x.nodes "g" ⟨9, 10⟩ :=
    Item.mem_sites_iff.mp (by rw [site]; exact List.mem_cons_self)
  have called' : SiteAmong (resolve unit) y.nodes "g" ⟨20, 21⟩ :=
    Item.mem_sites_iff.mp (by rw [site']; exact List.mem_cons_self)
  -- An item with a site on record is a function, and one with a site off record is a variable.
  cases x with
  | function f =>
    cases y with
    | global d =>
      exact ⟨unit, f, d, parsed, known, called, known', called', inFunction f known _ _ called,
        inGlobal d known' _ _ called'⟩
    | function f' => simp [Item.recorded, site'] at none
    | struct d => cases site'
    | typedef d => cases site'
  | _ => cases one

end Lockstep
