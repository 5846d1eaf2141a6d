import Lockstep.Proofs.Calls.Run
import Lockstep.Proofs.Calls.Sites
import Lockstep.Proofs.Naming.Order
/-!
Who calls whom in a source file. Where each function holds just the names inside it, the calls that
are recorded in the end are those inside each function, with the function as their caller, item by
item and each as often as it is met.
-/

set_option autoImplicit false
set_option relaxedAutoImplicit false

namespace Lockstep

namespace Item

/-- The calls that an item leaves on record: a function is the caller of all its sites, and outside
functions there is no caller. -/
def recorded (r : Resolution) : Item → List Call
  | function f => ((function f).sites r).map fun site => ⟨site.1, f.name.name, site.2⟩
  | global _ | struct _ | typedef _ => []

theorem isSome_body_of_mem_sites {r : Resolution} {f : Function} {site : String × Span}
    (member : site ∈ (function f).sites r) : f.body.isSome = true := by
  cases body : f.body with
  | some b => rfl
  | none =>
    have empty : (function f).sites r = [] := by
      simp [sites, events, body, Event.site?]
    rw [empty] at member
    cases member

end Item

namespace CallMap

variable {r : Resolution} {m : CallMap}

private theorem enclosing_eq_nil {span : Span}
    (outside : ∀ entry ∈ m.ranges, ¬ entry.2.Holds span) :
    m.enclosing span = [] := by
  rw [enclosing, List.map_eq_nil_iff, List.filter_eq_nil_iff]
  intro entry member holds
  refine outside entry member ?_
  simpa [Span.Holds] using holds

private theorem filter_setRange {name : String} {range : Span} {ranges : List (String × Span)}
    {keep : String × Span → Bool} (own : keep (name, range) = true)
    (others : ∀ entry ∈ ranges, keep entry = false) :
    (setRange name range ranges).filter keep = [(name, range)] := by
  have none {entries : List (String × Span)} (dropped : ∀ entry ∈ entries, keep entry = false) :
      entries.filter keep = [] := by
    rw [List.filter_eq_nil_iff]
    intro entry member
    simp [dropped entry member]
  induction ranges with
  | nil => rw [setRange, List.filter_cons_of_pos own, List.filter_nil]
  | cons first ranges ih =>
    obtain ⟨head, tail⟩ := List.forall_mem_cons.mp others
    rw [setRange]
    split
    · rw [List.filter_cons_of_pos own, none others]
    · split
      · rw [List.filter_cons_of_pos own, none tail]
      · rw [List.filter_cons_of_neg (by rw [head]; exact Bool.false_ne_true), ih tail]

private theorem enclosing_recordFunction {name : String} {range span : Span}
    (own : range.Holds span)
    (outside : ∀ entry ∈ m.ranges, ¬ entry.2.Holds span) :
    (m.recordFunction name range).enclosing span = [name] := by
  have only : ((setRange name range m.ranges).filter fun entry =>
      entry.2.start ≤ span.start && span.start ≤ entry.2.stop) = [(name, range)] := by
    refine filter_setRange ?_ fun entry member => ?_
    · simpa [Span.Holds] using own
    · have apart := outside entry member
      rw [← Bool.not_eq_true]
      simpa [Span.Holds] using apart
  exact congrArg (List.map Prod.fst) only

private theorem mem_setRange {name : String} {range : Span} {entry : String × Span}
    {ranges : List (String × Span)} (member : entry ∈ setRange name range ranges) :
    entry = (name, range) ∨ entry ∈ ranges := by
  induction ranges with
  | nil => exact .inl (List.mem_singleton.mp member)
  | cons first ranges ih =>
    rw [setRange] at member
    split at member
    · exact List.mem_cons.mp member
    · split at member
      · exact (List.mem_cons.mp member).imp_right (List.mem_cons_of_mem first)
      · rcases List.mem_cons.mp member with same | later
        · exact .inr (same ▸ List.mem_cons_self)
        · exact (ih later).imp_right (List.mem_cons_of_mem first)

private theorem foldl_record (events : List Event)
    (undefined : ∀ ev ∈ events, ev.definition? = none) (m : CallMap) :
    events.foldl (record r) m = { m with
      calls := m.calls ++ (events.filterMap (Event.site? r)).flatMap fun site =>
        (m.enclosing site.2).map fun caller => ⟨site.1, caller, site.2⟩ } := by
  induction events generalizing m with
  | nil => simp
  | cons ev events ih =>
    obtain ⟨plain, others⟩ := List.forall_mem_cons.mp undefined
    rw [List.foldl_cons, ih others]
    cases called : ev.site? r with
    | none =>
      have same : m.record r ev = m := by
        rw [record, plain, called]
        rfl
      rw [same, List.filterMap_cons_none called]
    | some site =>
      rw [record_of_site called, List.filterMap_cons_some called, List.flatMap_cons,
        ← List.append_assoc]
      rfl

/-- The map holds what the items so far define and call. -/
private structure Reflects (r : Resolution) (past : List Item) (m : CallMap) : Prop where
  ranges : ∀ entry ∈ m.ranges, ∃ f, .function f ∈ past ∧ f.span = entry.2
  calls : m.calls = past.flatMap (Item.recorded r)

private theorem Reflects.outside {past : List Item} {item : Item} (reflects : Reflects r past m)
    (avoided : ∀ x ∈ past, x.Avoids item) {n : String} {span : Span}
    (site : (n, span) ∈ item.sites r) : ∀ entry ∈ m.ranges, ¬ entry.2.Holds span := by
  intro entry member holds
  obtain ⟨f, known, range⟩ := reflects.ranges entry member
  rw [← range] at holds
  exact avoided _ known f rfl _ (item.mem_names_of_mem_sites r site) holds

private theorem Reflects.skip {past : List Item} {item : Item} (reflects : Reflects r past m)
    (avoided : ∀ x ∈ past, x.Avoids item) (undefined : ∀ ev ∈ item.events, ev.definition? = none)
    (silent : item.recorded r = []) :
    Reflects r (past ++ [item]) (item.events.foldl (record r) m) := by
  have none : ((item.sites r).flatMap fun site =>
      (m.enclosing site.2).map fun caller => Call.mk site.1 caller site.2) = [] := by
    rw [List.flatMap_eq_nil_iff]
    rintro ⟨n, span⟩ site
    rw [enclosing_eq_nil (reflects.outside avoided site), List.map_nil]
  have same : item.events.foldl (record r) m = m := by
    rw [foldl_record item.events undefined, ← Item.sites, none, List.append_nil]
  rw [same]
  refine ⟨fun entry member => ?_, ?_⟩
  · obtain ⟨f, known, range⟩ := reflects.ranges entry member
    exact ⟨f, List.mem_append_left _ known, range⟩
  · rw [reflects.calls, List.flatMap_append, List.flatMap_singleton, silent, List.append_nil]

private theorem Reflects.define {past : List Item} {f : Function} (reflects : Reflects r past m)
    (defined : f.body.isSome = true)
    (own : ∀ use ∈ (Item.function f).names, f.span.Holds use.1)
    (avoided : ∀ x ∈ past, x.Avoids (.function f)) :
    Reflects r (past ++ [Item.function f]) ((Item.function f).events.foldl (record r) m) := by
  have start : m.record r (.function f) = m.recordFunction f.name.name f.span := by
    have isNone : f.body.isNone = false := by simpa using defined
    simp [record, Event.definition?, Event.site?, isNone]
  have undefined : ∀ ev ∈ f.body.toList.flatMap (fun b => Stmt.eventsAll b.stmts),
      ev.definition? = none := fun ev member => Item.definition?_of_mem_body member
  have sites : (f.body.toList.flatMap fun b => Stmt.eventsAll b.stmts).filterMap (Event.site? r) =
      (Item.function f).sites r := rfl
  have events : (Item.function f).events.foldl (record r) m =
      { m.recordFunction f.name.name f.span with
        calls := m.calls ++ (Item.function f).recorded r } := by
    rw [Item.events, List.foldl_cons, start, foldl_record _ undefined, sites, Item.recorded,
      List.map_eq_flatMap]
    congr 2
    refine List.flatMap_congr fun site member => ?_
    rw [enclosing_recordFunction (own _ ((Item.function f).mem_names_of_mem_sites r member))
      (reflects.outside avoided member), List.map_singleton]
  rw [events]
  refine ⟨fun entry member => ?_, ?_⟩
  · rcases mem_setRange member with rfl | old
    · exact ⟨f, by simp, rfl⟩
    · obtain ⟨g, known, range⟩ := reflects.ranges entry old
      exact ⟨g, List.mem_append_left _ known, range⟩
  · rw [reflects.calls, List.flatMap_append, List.flatMap_singleton]

private theorem Reflects.item {past : List Item} {item : Item} (reflects : Reflects r past m)
    (own : ∀ f, item = .function f → ∀ use ∈ item.names, f.span.Holds use.1)
    (avoided : ∀ x ∈ past, x.Avoids item) :
    Reflects r (past ++ [item]) (item.events.foldl (record r) m) := by
  cases item with
  | function f =>
    cases body : f.body with
    | some b => exact reflects.define (by rw [body]; rfl) (own f rfl) avoided
    | none =>
      refine reflects.skip avoided (fun ev member => ?_) ?_
      · simp [Item.events, body] at member
        rw [member]
        simp [Event.definition?, body]
      · simp [Item.recorded, Item.sites, Item.events, body, Event.site?]
  | global d => exact reflects.skip avoided (fun ev member => Item.definition?_of_mem_global member) rfl
  | struct d => exact reflects.skip avoided (fun ev member => by cases member) rfl
  | typedef d => exact reflects.skip avoided (fun ev member => by cases member) rfl

end CallMap

namespace SourceUnit

/-- Some function named `caller` that is defined in the file calls or refers to `callee`. -/
def Calls (unit : SourceUnit) (callee caller : String) : Prop :=
  ∃ f span, .function f ∈ unit.items ∧ f.body.isSome = true ∧ f.name.name = caller ∧
    (callee, span) ∈ (Item.function f).sites (resolve unit)

private theorem reflects_items {r : Resolution} (items past : List Item) {m : CallMap}
    (reflects : CallMap.Reflects r past m)
    (own : ∀ f, .function f ∈ items → ∀ use ∈ (Item.function f).names, f.span.Holds use.1)
    (apart : (past ++ items).Pairwise fun x y => x.Avoids y ∧ y.Avoids x) :
    CallMap.Reflects r (past ++ items)
      ((items.flatMap Item.events).foldl (CallMap.record r) m) := by
  induction items generalizing past m with
  | nil => simpa using reflects
  | cons item items ih =>
    have avoided : ∀ x ∈ past, x.Avoids item := fun x member =>
      ((List.pairwise_append.mp apart).2.2 x member item List.mem_cons_self).1
    have first := reflects.item (fun f same => same ▸ own f (same ▸ List.mem_cons_self)) avoided
    rw [List.flatMap_cons, List.foldl_append]
    have regroup : past ++ item :: items = past ++ [item] ++ items := by simp
    rw [regroup] at apart ⊢
    exact ih (past ++ [item]) first (fun f member => own f (List.mem_cons_of_mem item member)) apart

/-- Where each function holds just its own names, the calls in the end are those of the items. -/
theorem calls_analyze {unit : SourceUnit} (placed : unit.Placed) (source : SourceText)
    (settings : Settings) : (analyze source settings unit).calls.calls =
      unit.items.flatMap (Item.recorded (resolve unit)) := by
  have calls (events : List Event) : (Analysis.after (unit.subject source settings) events).calls =
      events.foldl (CallMap.record (resolve unit)) {} := by
    induction events using List.reverseRecOn with
    | nil => rfl
    | append_singleton events ev ih =>
      rw [Analysis.calls_after_append_singleton, ih, List.foldl_append]
      rfl
  have empty : CallMap.Reflects (resolve unit) [] {} :=
    ⟨fun _ member => absurd member List.not_mem_nil, rfl⟩
  have reflects := reflects_items unit.items [] empty placed.inside placed.outside
  rw [analyze_eq_after, calls]
  exact reflects.calls

theorem exists_call_iff {unit : SourceUnit} (placed : unit.Placed) (source : SourceText)
    (settings : Settings) (callee caller : String) :
    (∃ c ∈ (analyze source settings unit).calls.calls, c.callee = callee ∧ c.caller = caller) ↔
      unit.Calls callee caller := by
  rw [calls_analyze placed]
  constructor
  · rintro ⟨c, recorded, rfl, rfl⟩
    obtain ⟨item, known, own⟩ := List.mem_flatMap.mp recorded
    cases item with
    | function f =>
      obtain ⟨⟨n, span⟩, site, rfl⟩ := List.mem_map.mp own
      exact ⟨f, span, known, Item.isSome_body_of_mem_sites site, rfl, site⟩
    | _ => cases own
  · rintro ⟨f, span, known, -, named, site⟩
    refine ⟨⟨callee, f.name.name, span⟩, ?_, rfl, named⟩
    exact List.mem_flatMap.mpr ⟨_, known, List.mem_map_of_mem site⟩

theorem Calls.hasFunction {unit : SourceUnit} {callee caller : String}
    (calls : unit.Calls callee caller) : unit.HasFunction caller := by
  obtain ⟨f, _, known, -, named, -⟩ := calls
  exact ⟨f, known, named⟩

theorem Placed.reorder {isFunction : String → Prop} {unit unit' : SourceUnit} (placed : unit.Placed)
    (reordered : Reordered isFunction unit.items unit'.items) : unit'.Placed where
  inside := fun f member => placed.inside f (reordered.perm.mem_iff.mpr member)
  outside := (reordered.perm.pairwise_iff fun {_ _} both => both.symm).mp placed.outside

private theorem site?_iff {unit : SourceUnit} {callee : String} {span : Span} {ev : Event}
    (function : unit.HasFunction callee) (spoken : ev.spoken? = some (span, callee)) :
    ev.site? (resolve unit) = some (callee, span) ↔
      (resolve unit).varRefs.lookup span = none := by
  have bare {e : Expr} (named : (Node.expr e).name? = some (span, callee)) :
      e = .name span callee := by
    cases e with
    | name s n =>
      cases named
      rfl
    | _ => cases named
  have known := (Resolution.any_functions_iff unit callee).mpr function
  have named : (resolve unit).calleeName (.name span callee) = some callee ↔
      (resolve unit).varRefs.lookup span = none := by
    cases found : (resolve unit).varRefs.lookup span <;> simp [Resolution.calleeName, found]
  rw [← named]
  cases ev with
  | call e g =>
    rw [bare spoken, Event.site?, Option.map_eq_some_iff]
    simp [Expr.span]
  | name e =>
    rw [bare spoken, Event.site?, Option.map_eq_some_iff]
    simp only [Resolution.functionRef, Option.filter_eq_some_iff, Expr.span, Prod.mk.injEq, and_true,
      exists_eq_right, known]
  | _ => cases spoken

theorem mem_sites_iff {unit : SourceUnit} {callee : String} (function : unit.HasFunction callee)
    (item : Item) (span : Span) : (callee, span) ∈ item.sites (resolve unit) ↔
      (span, callee) ∈ item.names ∧ (resolve unit).varRefs.lookup span = none := by
  rw [← item.spoken_perm.mem_iff, Item.sites, List.mem_filterMap, List.mem_filterMap]
  constructor
  · rintro ⟨ev, inside, called⟩
    have spoken := Event.spoken?_of_site called
    exact ⟨⟨ev, inside, spoken⟩, (site?_iff function spoken).mp called⟩
  · rintro ⟨⟨ev, inside, spoken⟩, unbound⟩
    exact ⟨ev, inside, (site?_iff function spoken).mpr unbound⟩

private theorem calls_iff_refersAmong {unit : SourceUnit}
    (distinct : (unit.names.map Prod.fst).Nodup)
    {callee : String} (function : unit.HasFunction callee) (caller : String) :
    unit.Calls callee caller ↔ RefersAmong callee caller [] unit.items := by
  rw [refersAmong_iff_exists]
  constructor
  · rintro ⟨f, span, known, -, named, site⟩
    obtain ⟨early, late, split⟩ := List.append_of_mem known
    refine ⟨early, f, late, split, named, (refers_iff_exists_name distinct split).mpr ?_⟩
    exact ⟨span, (mem_sites_iff function _ span).mp site⟩
  · rintro ⟨early, f, late, split, named, refers⟩
    obtain ⟨span, unbound⟩ := (refers_iff_exists_name distinct split).mp refers
    have site := (mem_sites_iff function _ span).mpr unbound
    exact ⟨f, span, by rw [split]; simp, Item.isSome_body_of_mem_sites site, named, site⟩

private theorem hasFunction_iff_shape (unit : SourceUnit) (n : String) :
    unit.HasFunction n ↔ ∃ f, .function f ∈ unit.items.map Item.shape ∧ f.name.name = n := by
  constructor
  · rintro ⟨f, known, named⟩
    exact ⟨_, List.mem_map_of_mem known, named⟩
  · rintro ⟨f, known, named⟩
    obtain ⟨item, member, same⟩ := List.mem_map.mp known
    cases item with
    | function g =>
      cases same
      exact ⟨g, member, named⟩
    | _ => cases same

/-- Reordered functions call each other as before, wherever they now stand. -/
theorem calls_congr {unit unit' : SourceUnit} (distinct : (unit.names.map Prod.fst).Nodup)
    (distinct' : (unit'.names.map Prod.fst).Nodup) (reordered : Reordered unit.HasFunction
      (unit.items.map Item.shape) (unit'.items.map Item.shape)) {callee : String}
    (function : unit.HasFunction callee ∨ unit'.HasFunction callee) (caller : String) :
    unit.Calls callee caller ↔ unit'.Calls callee caller := by
  have both : unit.HasFunction callee ↔ unit'.HasFunction callee := by
    rw [hasFunction_iff_shape, hasFunction_iff_shape]
    simp only [reordered.perm.mem_iff]
  have here : unit.HasFunction callee := function.elim id both.mpr
  rw [calls_iff_refersAmong distinct here, calls_iff_refersAmong distinct' (both.mp here),
    ← refersAmong_relocate_iff unit.items, ← refersAmong_relocate_iff unit'.items]
  exact refersAmong_congr reordered here []

end SourceUnit

end Lockstep
