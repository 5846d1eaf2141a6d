import Lockstep.Proofs.Analysis.Raised
import Lockstep.Proofs.Event.Coverage
import Lockstep.Proofs.Grammar.Placement
/-!
Where functions are called or referred to. Each name inside an item is spoken of in exactly one
event, its own or the call of it, and a site is such a name. So the sites of an item stand at
different places as soon as its names do.
-/

set_option autoImplicit false
set_option relaxedAutoImplicit false

namespace Lockstep

theorem eq_name_of_calleeName {r : Resolution} {e : Expr} {n : String}
    (named : r.calleeName e = some n) : e = .name e.span n := by
  cases e with
  | name span m =>
    simp only [Resolution.calleeName] at named
    split at named
    · cases named
      rfl
    · cases named
  | _ => cases named

namespace Event

/-- The bare name that the event is about: the callee of a call, or a name outside a call. -/
def spoken? : Event → Option (Span × String)
  | call _ callee => (Node.expr callee).name?
  | name e => (Node.expr e).name?
  | _ => none

theorem spoken?_of_site {r : Resolution} {ev : Event} {n : String} {span : Span}
    (called : ev.site? r = some (n, span)) : ev.spoken? = some (span, n) := by
  have bare {e : Expr} (named : r.calleeName e = some n) :
      (Node.expr e).name? = some (e.span, n) := by
    rw [eq_name_of_calleeName named]
    rfl
  cases ev with
  | call e callee =>
    obtain ⟨m, named, same⟩ := Option.map_eq_some_iff.mp called
    cases same
    exact bare named
  | name e =>
    obtain ⟨m, referred, same⟩ := Option.map_eq_some_iff.mp called
    cases same
    exact bare (Option.filter_eq_some_iff.mp referred).1
  | _ => cases called

end Event

theorem Node.spoken_announces (n : Node) :
    n.announces.filterMap Event.spoken? =
      n.name?.toList ++ n.silences.filterMap Event.spoken? := by
  have quiet (ds : List Declarator) : (ds.flatMap fun x =>
      (x.init.map (Event.init x)).toList).filterMap Event.spoken? = [] := by
    rw [List.filterMap_eq_nil_iff]
    intro ev member
    obtain ⟨x, -, own⟩ := List.mem_flatMap.mp member
    obtain ⟨value, -, rfl⟩ := Option.map_eq_some_iff.mp (Option.mem_toList.mp own)
    rfl
  cases n with
  | stmt s =>
    cases s with
    | decl span d => exact quiet d.declarators
    | ifElse span cond t e => cases e <;> rfl
    | forLoop span init cond step body => cases cond <;> rfl
    | _ => rfl
  | expr e =>
    cases e with
    | call span callee args => cases callee <;> rfl
    | _ => rfl

namespace Item

variable (r : Resolution) (item : Item)

theorem spoken_announces : item.announces.filterMap Event.spoken? = [] := by
  cases item with
  | global d => exact Node.spoken_announces (.stmt (.decl d.span d))
  | _ => rfl

/-- Each name inside an item is spoken of in one event. -/
theorem spoken_perm : (item.events.filterMap Event.spoken?).Perm item.names := by
  have announced := item.announced.filterMap Event.spoken?
  simp only [List.filterMap_append, spoken_announces, List.nil_append, List.filterMap_flatMap,
    Node.spoken_announces] at announced
  have parted := announced.trans (List.flatMap_append_perm _ _ _).symm
  rw [← List.filterMap_eq_flatMap_toList] at parted
  exact (List.perm_append_right_iff _).mp parted

def sites : List (String × Span) := item.events.filterMap (Event.site? r)

theorem mem_names_of_mem_sites {n : String} {span : Span} (site : (n, span) ∈ item.sites r) :
    (span, n) ∈ item.names := by
  obtain ⟨ev, member, called⟩ := List.mem_filterMap.mp site
  exact item.spoken_perm.mem_iff.mp
    (List.mem_filterMap.mpr ⟨ev, member, Event.spoken?_of_site called⟩)

theorem sites_sublist :
    ((item.sites r).map Prod.swap).Sublist (item.events.filterMap Event.spoken?) := by
  rw [sites, List.map_filterMap]
  induction item.events with
  | nil => exact List.Sublist.refl _
  | cons ev events ih =>
    cases called : ev.site? r with
    | none =>
      rw [List.filterMap_cons_none (by rw [called]; rfl)]
      cases spoken : ev.spoken? with
      | none => rwa [List.filterMap_cons_none spoken]
      | some name =>
        rw [List.filterMap_cons_some spoken]
        exact ih.cons name
    | some site =>
      rw [List.filterMap_cons_some (b := site.swap) (by rw [called]; rfl),
        List.filterMap_cons_some (Event.spoken?_of_site called)]
      exact ih.cons_cons _

private theorem definition?_eq_none {ev : Event} (member : ev ∈ item.roots.flatMap Node.events) :
    ev.definition? = none := by
  have announced := (Node.announced_forest item.roots).subset (List.mem_append_left _ member)
  obtain ⟨n, -, own⟩ := List.mem_flatMap.mp announced
  cases ev with
  | function f => exact absurd own (n.function_not_mem_announces f)
  | _ => rfl

theorem definition?_of_mem_body {f : Function} {ev : Event}
    (member : ev ∈ f.body.toList.flatMap fun b => Stmt.eventsAll b.stmts) :
    ev.definition? = none := by
  have body : (function f).roots.flatMap Node.events =
      f.body.toList.flatMap fun b => Stmt.eventsAll b.stmts := by
    simp [roots, List.flatMap_assoc, List.flatMap_map, Node.events, Stmt.eventsAll_eq_flatMap]
  rw [← body] at member
  exact definition?_eq_none _ member

theorem definition?_of_mem_global {d : Decl} {ev : Event} (member : ev ∈ d.events) :
    ev.definition? = none := by
  rcases List.mem_append.mp (d.events_perm.subset member) with own | inside
  · cases ev with
    | function f => exact absurd own (d.function_not_mem_inits f)
    | _ => rfl
  · rw [← Node.flatMap_events_exprs] at inside
    exact definition?_eq_none (global d) inside

end Item

end Lockstep
