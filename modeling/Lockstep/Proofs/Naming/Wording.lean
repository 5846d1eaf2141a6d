import Lockstep.Proofs.Grammar.Wording
import Lockstep.Proofs.Naming.Actions
/-!
The names in the tables of a source file. Variables have them from declared names, fields from the
structures and from member accesses; so they stand on one line if all names of the file do.
-/

set_option autoImplicit false
set_option relaxedAutoImplicit false

namespace Lockstep

/-- The names of all variables and fields stand on one line. -/
structure Resolution.OneLined (r : Resolution) : Prop where
  vars : ∀ v ∈ r.vars, OneLine v.name
  fields : ∀ f ∈ r.fields, OneLine f.name

namespace Scope

private theorem oneLined_collect {s : Scope} {item : Item} (lined : s.tables.OneLined)
    (titles : ∀ id ∈ item.titles, OneLine id.name) : (s.collect item).tables.OneLined := by
  cases item with
  | struct d =>
    have named : ∀ f ∈ d.fields, OneLine f.name.name := fun f member =>
      titles f.name (List.mem_map_of_mem member)
    -- The names of the structure itself come first and leave variables and fields alone.
    refine List.foldlRecOn d.fields _ (motive := fun s : Scope => s.tables.OneLined)
      ⟨lined.vars, lined.fields⟩ fun t before f member => ?_
    refine ⟨before.vars, List.forall_mem_append.mpr ⟨before.fields, ?_⟩⟩
    exact List.forall_mem_singleton.mpr (named f member)
  | typedef d =>
    simp only [collect]
    split
    · exact ⟨lined.vars, lined.fields⟩
    · exact lined
  | function f =>
    obtain ⟨counters, functions, same⟩ := s.addFunction_eq f
    rw [collect, same]
    exact ⟨lined.vars, lined.fields⟩
  | global d => exact lined

private theorem oneLined_act {s : Scope} {a : Action} (lined : s.tables.OneLined)
    (declared : ∀ id ∈ a.declared?, OneLine id.name)
    (visited : ∀ use ∈ a.visited?.bind Node.word?, OneLine use.2) : (s.act a).tables.OneLined := by
  cases a with
  | enter => exact lined
  | leave => exact lined
  | declare id ty =>
    refine ⟨List.forall_mem_append.mpr ⟨lined.vars, ?_⟩, lined.fields⟩
    exact List.forall_mem_singleton.mpr (declared id rfl)
  | visit e =>
    cases e with
    | name span n =>
      simp only [act, visit]
      split
      · exact ⟨lined.vars, lined.fields⟩
      · exact lined
    | member span base field arrow =>
      simp only [act, visit, bindMember]
      split
      · exact ⟨lined.vars, lined.fields⟩
      · refine ⟨lined.vars, List.forall_mem_append.mpr ⟨lined.fields, ?_⟩⟩
        exact List.forall_mem_singleton.mpr (visited (field.span, field.name) rfl)
    | _ => exact lined

end Scope

theorem SourceUnit.OneLined.resolve {unit : SourceUnit} (lined : unit.OneLined) :
    (Lockstep.resolve unit).OneLined := by
  have laidOut : (unit.items.foldl Scope.collect {}).tables.OneLined :=
    List.foldlRecOn unit.items _ (motive := fun s : Scope => s.tables.OneLined)
      ⟨nofun, nofun⟩ fun s before item member =>
        Scope.oneLined_collect before (lined.titles item member)
  have declared (a : Action) (member : a ∈ unit.actions) :
      ∀ id ∈ a.declared?, OneLine id.name := fun id is =>
    lined.declares id (unit.declared_actions_perm.mem_iff.mp (List.mem_filterMap.mpr ⟨a, member, is⟩))
  have visited (a : Action) (member : a ∈ unit.actions) :
      ∀ use ∈ a.visited?.bind Node.word?, OneLine use.2 := by
    intro use is
    have nodes : (unit.actions.filterMap fun a => a.visited?.bind Node.word?).Perm
        (unit.nodes.filterMap Node.word?) := unit.visited_actions_perm fun _ => rfl
    obtain ⟨n, inside, own⟩ := List.mem_filterMap.mp
      (nodes.mem_iff.mp (List.mem_filterMap.mpr ⟨a, member, is⟩))
    exact lined.words n inside use own
  rw [resolve_eq]
  exact List.foldlRecOn unit.actions _ (motive := fun s : Scope => s.tables.OneLined) laidOut
    fun s before a member => Scope.oneLined_act before (declared a member) (visited a member)

end Lockstep
