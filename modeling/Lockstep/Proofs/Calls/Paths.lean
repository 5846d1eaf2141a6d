import Lockstep.Calls.CallMap
import Mathlib.Data.List.Infix
/-!
Ways through a call map, from a callee to a caller of it, to a caller of that one and so on. The
search backward finds a way exactly if there is one that is short enough, and a closed way can be
started at any of its calls.
-/

set_option autoImplicit false
set_option relaxedAutoImplicit false

namespace Lockstep

namespace CallMap

/-- The calls `hops` lead back from a function to `target`, each from its callee to its caller. -/
inductive Path (m : CallMap) (target : String) : String → List Call → Prop where
  | here : Path m target target []
  | back {c : Call} {hops : List Call} (recorded : c ∈ m.calls)
      (rest : Path m target c.caller hops) : Path m target c.callee (c :: hops)

/-- A way of at least one call and at most `maxHops` from a function back to itself. -/
structure Cycle (m : CallMap) (maxHops : Nat) (f : String) (hops : List Call) : Prop where
  closed : m.Path f f hops
  positive : 1 ≤ hops.length
  short : hops.length ≤ maxHops

variable {m : CallMap} {f g target : String} {hops : List Call}

theorem Path.inv {c : Call} (path : m.Path target f (c :: hops)) :
    c.callee = f ∧ c ∈ m.calls ∧ m.Path target c.caller hops := by
  cases path with
  | back recorded rest => exact ⟨rfl, recorded, rest⟩

theorem Path.target_eq (path : m.Path target f []) : target = f := by
  cases path
  rfl

theorem Path.append {more : List Call} (first : m.Path g f hops) (second : m.Path target g more) :
    m.Path target f (hops ++ more) := by
  induction first with
  | here => exact second
  | back recorded rest ih => exact .back recorded ih

theorem Path.split {c : Call} {early late : List Call}
    (path : m.Path target f (early ++ c :: late)) :
    m.Path c.callee f early ∧ m.Path target c.callee (c :: late) := by
  induction early generalizing f with
  | nil =>
    have starts := path.inv.1
    subst starts
    exact ⟨.here, path⟩
  | cons d early ih =>
    obtain ⟨rfl, recorded, rest⟩ := path.inv
    obtain ⟨first, second⟩ := ih rest
    exact ⟨.back recorded first, second⟩

theorem Cycle.rotate {maxHops : Nat} {c : Call} (cycle : m.Cycle maxHops f hops) (on : c ∈ hops) :
    ∃ turned, m.Cycle maxHops c.callee turned := by
  obtain ⟨early, late, rfl⟩ := List.append_of_mem on
  obtain ⟨first, second⟩ := cycle.closed.split
  have short := cycle.short
  rw [List.length_append] at short
  refine ⟨c :: late ++ early, second.append first, ?_, ?_⟩
  · rw [List.length_append, List.length_cons]
    omega
  · rw [List.length_append]
    omega

theorem Path.transfer {other : CallMap} (path : m.Path target f hops)
    (kept : ∀ c ∈ hops, c ∈ other.calls) : other.Path target f hops := by
  induction path with
  | here => exact .here
  | back recorded rest ih =>
    obtain ⟨first, others⟩ := List.forall_mem_cons.mp kept
    exact .back first (ih others)

theorem Path.recorded (path : m.Path target f hops) : ∀ c ∈ hops, c ∈ m.calls := by
  induction path with
  | here => simp
  | back recorded rest ih => exact List.forall_mem_cons.mpr ⟨recorded, ih⟩

theorem Cycle.transfer {other : CallMap} {maxHops : Nat} (cycle : m.Cycle maxHops f hops)
    (kept : ∀ c ∈ hops, c ∈ other.calls) : other.Cycle maxHops f hops :=
  ⟨cycle.closed.transfer kept, cycle.positive, cycle.short⟩

private theorem Path.exists_caller (path : m.Path target f hops) (positive : 1 ≤ hops.length) :
    ∃ b ∈ m.calls, b.caller = target := by
  induction path with
  | here => simp at positive
  | @back c hops recorded rest ih =>
    cases hops with
    | nil => exact ⟨c, recorded, rest.target_eq.symm⟩
    | cons d hops => exact ih (by simp)

private theorem Path.exists_mirrored {other : CallMap} (path : m.Path target f hops)
    (related : ∀ c ∈ hops, ∃ d ∈ other.calls, d.callee = c.callee ∧ d.caller = c.caller) :
    ∃ hops', other.Path target f hops' ∧ hops'.length = hops.length := by
  induction path with
  | here => exact ⟨[], .here, rfl⟩
  | back recorded rest ih =>
    obtain ⟨⟨d, known, callee, caller⟩, others⟩ := List.forall_mem_cons.mp related
    obtain ⟨hops', path', length⟩ := ih others
    rw [← caller] at path'
    rw [← callee]
    exact ⟨d :: hops', .back known path', by rw [List.length_cons, List.length_cons, length]⟩

/-- Only who calls whom matters for the question whether there is a cycle, not where, and only calls
of functions that call something themselves. -/
theorem exists_cycle_congr {other : CallMap} {maxHops : Nat}
    (related : ∀ b ∈ m.calls, ∀ c ∈ m.calls, b.caller = c.callee →
      ∃ d ∈ other.calls, d.callee = c.callee ∧ d.caller = c.caller) :
    (∃ f hops, m.Cycle maxHops f hops) → ∃ f hops, other.Cycle maxHops f hops := by
  rintro ⟨f, hops, cycle⟩
  -- Started at any of its calls, the cycle ends with a call made by the callee of that one.
  have mirrored : ∀ c ∈ hops, ∃ d ∈ other.calls, d.callee = c.callee ∧ d.caller = c.caller := by
    intro c on
    obtain ⟨turned, round⟩ := cycle.rotate on
    obtain ⟨b, made, caller⟩ := round.closed.exists_caller round.positive
    exact related b made c (cycle.closed.recorded c on) caller
  obtain ⟨hops', path, length⟩ := cycle.closed.exists_mirrored mirrored
  exact ⟨f, hops', path, by rw [length]; exact cycle.positive, by rw [length]; exact cycle.short⟩

theorem mem_callersOf_iff {c : Call} : c ∈ m.callersOf f ↔ c ∈ m.calls ∧ c.callee = f := by
  simp [callersOf]

theorem path_of_search {maxHops : Nat} (found : m.search target maxHops f = some hops) :
    m.Path target f hops ∧ 1 ≤ hops.length ∧ hops.length ≤ maxHops := by
  induction maxHops generalizing f hops with
  | zero => cases found
  | succ maxHops ih =>
    obtain ⟨c, caller, choice⟩ := List.exists_of_findSome?_eq_some found
    obtain ⟨recorded, rfl⟩ := mem_callersOf_iff.mp caller
    by_cases closes : c.caller = target
    · rw [if_pos closes, Option.some.injEq] at choice
      subst choice
      refine ⟨.back recorded ?_, by simp, by simp⟩
      rw [closes]
      exact .here
    · rw [if_neg closes] at choice
      obtain ⟨more, inner, rfl⟩ := Option.map_eq_some_iff.mp choice
      obtain ⟨path, positive, short⟩ := ih inner
      exact ⟨.back recorded path, by simp, by simpa using short⟩

theorem search_isSome_of_path {maxHops : Nat} (path : m.Path target f hops)
    (positive : 1 ≤ hops.length) (short : hops.length ≤ maxHops) :
    (m.search target maxHops f).isSome = true := by
  induction maxHops generalizing f hops with
  | zero => omega
  | succ maxHops ih =>
    cases path with
    | here => simp at positive
    | @back c hops recorded rest =>
      rw [search, List.findSome?_isSome_iff]
      refine ⟨c, mem_callersOf_iff.mpr ⟨recorded, rfl⟩, ?_⟩
      by_cases closes : c.caller = target
      · rw [if_pos closes]
        rfl
      · rw [if_neg closes, Option.isSome_map]
        have remains : 1 ≤ hops.length := by
          cases hops with
          | nil => exact absurd rest.target_eq.symm closes
          | cons d hops => simp
        rw [List.length_cons] at short
        exact ih rest remains (by omega)

theorem cycle_of_findCycle {maxHops : Nat} (found : m.findCycle f maxHops = some hops) :
    m.Cycle maxHops f hops := by
  obtain ⟨path, positive, short⟩ := path_of_search found
  exact ⟨path, positive, short⟩

theorem findCycle_isSome_of_cycle {maxHops : Nat} (cycle : m.Cycle maxHops f hops) :
    ∃ found, m.findCycle f maxHops = some found :=
  Option.isSome_iff_exists.mp (search_isSome_of_path cycle.closed cycle.positive cycle.short)

end CallMap

end Lockstep
