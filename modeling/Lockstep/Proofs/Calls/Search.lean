import Lockstep.Proofs.Calls.Run
/-!
The search for cycles in a call map that is built step by step, from functions and calls in any
order. A call is recorded for each function whose latest range holds it. A cycle through a function
is found exactly if the recorded calls hold a chain that is short enough from the function back to
itself, and what is found is such a chain, cut where it first comes back.
-/

set_option autoImplicit false
set_option relaxedAutoImplicit false

namespace Lockstep

/-- One step in building a call map: a function with its range, or a call. -/
inductive Recording where
  | function (name : String) (range : Span)
  | call (callee : String) (span : Span)
deriving DecidableEq, Repr

namespace Recording

def rangeOf (name : String) : Recording → Option Span
  | function n range => if n = name then some range else none
  | call _ _ => none

def latestRange (steps : List Recording) (name : String) : Option Span :=
  (steps.filterMap (rangeOf name)).getLast?

def Records (steps : List Recording) (c : Call) : Prop :=
  ∃ early late range, steps = early ++ call c.callee c.span :: late ∧
    latestRange early c.caller = some range ∧ range.start ≤ c.span.start ∧
      c.span.start ≤ range.stop

/-- Recorded calls lead from a function to its caller, to a caller of that one and so on, and in the
end back to the function. -/
structure LeadsBack (steps : List Recording) (target : String) (chain : List Call) : Prop where
  recorded : ∀ c ∈ chain, Records steps c
  starts : chain.head?.map Call.callee = some target
  linked : chain.IsChain fun c d => d.callee = c.caller
  ends : chain.getLast?.map Call.caller = some target

def applyTo (m : CallMap) : Recording → CallMap
  | function name range => m.recordFunction name range
  | call callee span => m.recordCall callee span

def build (steps : List Recording) : CallMap := steps.foldl applyTo {}

end Recording

section Ranges

variable {name : String} {range : Span} {entry : String × Span} {ranges : List (String × Span)}

def ByName (ranges : List (String × Span)) : Prop := ranges.Pairwise fun a b => a.1 < b.1

private theorem lt_of_not_lt_of_ne {a b : String} (notLess : ¬ a < b) (other : a ≠ b) : b < a := by
  by_contra greater
  exact other (String.le_antisymm (String.not_lt.mp greater) (String.not_lt.mp notLess))

private theorem mem_setRange_iff (ordered : ByName ranges) :
    entry ∈ setRange name range ranges ↔ entry = (name, range) ∨ entry ∈ ranges ∧ entry.1 ≠ name := by
  induction ranges with
  | nil => simp [setRange]
  | cons first ranges ih =>
    obtain ⟨above, rest⟩ := List.pairwise_cons.mp ordered
    rw [setRange]
    split
    · rename_i less
      -- All entries come behind the name, so none of them is given up.
      have others : ∀ e ∈ first :: ranges, e.1 ≠ name := by
        rintro e member rfl
        rcases List.mem_cons.mp member with rfl | later
        · exact String.lt_irrefl _ less
        · exact String.lt_asymm less (above e later)
      rw [List.mem_cons]
      exact or_congr_right (iff_self_and.mpr (others entry))
    · split
      · rename_i same
        have others : ∀ e ∈ ranges, e.1 ≠ name := by
          rintro e later rfl
          exact String.lt_irrefl _ (same ▸ above e later)
        rw [List.mem_cons, List.mem_cons]
        refine or_congr_right ⟨fun later => ⟨.inr later, others entry later⟩, ?_⟩
        rintro ⟨rfl | later, other⟩
        · exact absurd same.symm other
        · exact later
      · rename_i other
        rw [List.mem_cons, List.mem_cons, ih rest]
        constructor
        · rintro (rfl | new | ⟨later, apart⟩)
          · exact .inr ⟨.inl rfl, fun same => other same.symm⟩
          · exact .inl new
          · exact .inr ⟨.inr later, apart⟩
        · rintro (new | ⟨rfl | later, apart⟩)
          · exact .inr (.inl new)
          · exact .inl rfl
          · exact .inr (.inr ⟨later, apart⟩)

theorem ByName.setRange (ordered : ByName ranges) : ByName (setRange name range ranges) := by
  induction ranges with
  | nil => exact List.pairwise_singleton _ _
  | cons first ranges ih =>
    obtain ⟨above, rest⟩ := List.pairwise_cons.mp ordered
    rw [Lockstep.setRange]
    split
    · rename_i less
      refine List.pairwise_cons.mpr ⟨fun e member => ?_, ordered⟩
      rcases List.mem_cons.mp member with rfl | later
      · exact less
      · exact String.lt_trans less (above e later)
    · rename_i notLess
      split
      · rename_i same
        exact List.pairwise_cons.mpr ⟨fun e later => same ▸ above e later, rest⟩
      · rename_i other
        refine List.pairwise_cons.mpr ⟨fun e member => ?_, ih rest⟩
        rcases (mem_setRange_iff rest).mp member with rfl | ⟨later, _⟩
        · exact lt_of_not_lt_of_ne notLess other
        · exact above e later

end Ranges

namespace Recording

variable {steps : List Recording} {target : String}

private theorem build_append_singleton (steps : List Recording) (step : Recording) :
    build (steps ++ [step]) = applyTo (build steps) step := by
  rw [build, build, List.foldl_append, List.foldl_cons, List.foldl_nil]

private theorem byName_build (steps : List Recording) : ByName (build steps).ranges := by
  induction steps using List.reverseRecOn with
  | nil => exact List.Pairwise.nil
  | append_singleton steps step ih =>
    rw [build_append_singleton]
    cases step with
    | function name range => exact ih.setRange
    | call callee span => exact ih

private theorem mem_ranges_build_iff (steps : List Recording) {name : String} {range : Span} :
    (name, range) ∈ (build steps).ranges ↔ latestRange steps name = some range := by
  induction steps using List.reverseRecOn with
  | nil => simp [build, latestRange]
  | append_singleton steps step ih =>
    rw [build_append_singleton]
    cases step with
    | function n r =>
      rw [applyTo, CallMap.recordFunction, mem_setRange_iff (byName_build steps), ih]
      by_cases same : n = name
      · subst same
        simp [latestRange, rangeOf, eq_comm]
      · have other : name ≠ n := fun equal => same equal.symm
        simp [latestRange, rangeOf, same, other]
    | call callee span => simpa [applyTo, CallMap.recordCall, latestRange, rangeOf] using ih

private theorem mem_enclosing_build_iff (steps : List Recording) {name : String} {span : Span} :
    name ∈ (build steps).enclosing span ↔ ∃ range, latestRange steps name = some range ∧
      range.start ≤ span.start ∧ span.start ≤ range.stop := by
  simp [CallMap.enclosing, mem_ranges_build_iff]

private theorem records_append_singleton_iff {step : Recording} {c : Call} :
    Records (steps ++ [step]) c ↔ Records steps c ∨ step = call c.callee c.span ∧
      ∃ range, latestRange steps c.caller = some range ∧ range.start ≤ c.span.start ∧
        c.span.start ≤ range.stop := by
  constructor
  · rintro ⟨early, late, range, split, latest, inside⟩
    rcases List.eq_nil_or_concat late with rfl | ⟨late, last, rfl⟩
    · obtain ⟨rfl, same⟩ := List.append_inj' split rfl
      exact .inr ⟨(List.cons.inj same).1, range, latest, inside⟩
    · have parts : steps ++ [step] = (early ++ call c.callee c.span :: late) ++ [last] := by
        rw [split, List.append_assoc, List.cons_append, List.concat_eq_append]
      obtain ⟨rfl, _⟩ := List.append_inj' parts rfl
      exact .inl ⟨early, late, range, rfl, latest, inside⟩
  · rintro (⟨early, late, range, rfl, latest, inside⟩ | ⟨rfl, range, latest, inside⟩)
    · exact ⟨early, late ++ [step], range, by rw [List.append_assoc, List.cons_append], latest, inside⟩
    · exact ⟨steps, [], range, rfl, latest, inside⟩

private theorem mem_calls_build_iff (steps : List Recording) {c : Call} :
    c ∈ (build steps).calls ↔ Records steps c := by
  induction steps using List.reverseRecOn with
  | nil => simp [build, Records]
  | append_singleton steps step ih =>
    rw [build_append_singleton, records_append_singleton_iff, ← ih, ← mem_enclosing_build_iff]
    cases step with
    | function name range => simp [applyTo, CallMap.recordFunction]
    | call callee span =>
      rw [applyTo, CallMap.mem_recordCall_iff]
      grind

end Recording

namespace CallMap

variable {m : CallMap} {f target : String} {hops : List Call}

private theorem path_iff (nonempty : hops ≠ []) : m.Path target f hops ↔ (∀ c ∈ hops, c ∈ m.calls) ∧
    hops.head?.map Call.callee = some f ∧ (hops.IsChain fun c d => d.callee = c.caller) ∧
      hops.getLast?.map Call.caller = some target := by
  induction hops generalizing f with
  | nil => exact absurd rfl nonempty
  | cons c hops ih =>
    constructor
    · intro path
      obtain ⟨rfl, recorded, rest⟩ := path.inv
      cases hops with
      | nil => simp [recorded, rest.target_eq]
      | cons d hops =>
        obtain ⟨known, starts, linked, ends⟩ := (ih (List.cons_ne_nil d hops)).mp rest
        refine ⟨List.forall_mem_cons.mpr ⟨recorded, known⟩, rfl, ?_, ?_⟩
        · exact List.isChain_cons_cons.mpr ⟨Option.some.inj starts, linked⟩
        · rwa [List.getLast?_cons_cons]
    · rintro ⟨known, starts, linked, ends⟩
      obtain ⟨recorded, others⟩ := List.forall_mem_cons.mp known
      obtain rfl : c.callee = f := Option.some.inj starts
      refine .back recorded ?_
      cases hops with
      | nil =>
        obtain rfl : c.caller = target := Option.some.inj ends
        exact .here
      | cons d hops =>
        obtain ⟨link, linked⟩ := List.isChain_cons_cons.mp linked
        rw [List.getLast?_cons_cons] at ends
        exact (ih (List.cons_ne_nil d hops)).mpr ⟨others, congrArg some link, linked, ends⟩

private theorem caller_ne_of_search {maxHops : Nat}
    (found : m.search target maxHops f = some hops) :
    ∀ c ∈ hops.dropLast, c.caller ≠ target := by
  induction maxHops generalizing f hops with
  | zero => cases found
  | succ maxHops ih =>
    obtain ⟨c, _, choice⟩ := List.exists_of_findSome?_eq_some found
    by_cases closes : c.caller = target
    · rw [if_pos closes, Option.some.injEq] at choice
      subst choice
      simp
    · rw [if_neg closes] at choice
      obtain ⟨more, inner, rfl⟩ := Option.map_eq_some_iff.mp choice
      have nonempty : more ≠ [] := List.ne_nil_of_length_pos (path_of_search inner).2.1
      rw [List.dropLast_cons_of_ne_nil nonempty]
      exact List.forall_mem_cons.mpr ⟨closes, ih inner⟩

end CallMap

namespace Recording

variable {steps : List Recording} {target : String} {chain : List Call} {maxHops : Nat}

theorem LeadsBack.ne_nil (back : LeadsBack steps target chain) : chain ≠ [] := by
  rintro rfl
  cases back.starts

private theorem path_build_iff (nonempty : chain ≠ []) :
    (build steps).Path target target chain ↔ LeadsBack steps target chain := by
  simp only [CallMap.path_iff nonempty, mem_calls_build_iff]
  exact ⟨fun ⟨recorded, starts, linked, ends⟩ => ⟨recorded, starts, linked, ends⟩,
    fun ⟨recorded, starts, linked, ends⟩ => ⟨recorded, starts, linked, ends⟩⟩

private theorem findCycle_build_isSome_iff :
    ((build steps).findCycle target maxHops).isSome = true ↔
    ∃ chain, LeadsBack steps target chain ∧ 1 ≤ chain.length ∧ chain.length ≤ maxHops := by
  constructor
  · intro found
    obtain ⟨hops, found⟩ := Option.isSome_iff_exists.mp found
    obtain ⟨path, positive, short⟩ := CallMap.path_of_search found
    exact ⟨hops, (path_build_iff (List.ne_nil_of_length_pos positive)).mp path, positive, short⟩
  · rintro ⟨chain, back, positive, short⟩
    exact CallMap.search_isSome_of_path ((path_build_iff back.ne_nil).mpr back) positive short

/-- A cycle is found exactly if there is one within the bound, and what is found is one that comes
back at its end only. A greater bound finds one as well. -/
theorem cycle_search_exact (steps : List Recording) (target : String) (maxHops : Nat) :
    (((build steps).findCycle target maxHops).isSome = true ↔
      ∃ chain, LeadsBack steps target chain ∧ 1 ≤ chain.length ∧ chain.length ≤ maxHops) ∧
    (∀ hops, (build steps).findCycle target maxHops = some hops →
      LeadsBack steps target hops ∧ hops.length ≤ maxHops ∧
      (∀ c ∈ hops, c ∈ (build steps).callersOf c.callee) ∧
      ∀ c ∈ hops.dropLast, c.caller ≠ target) ∧
    ∀ more, maxHops ≤ more → ((build steps).findCycle target maxHops).isSome = true →
      ((build steps).findCycle target more).isSome = true := by
  refine ⟨findCycle_build_isSome_iff, fun hops found => ?_, fun more larger found => ?_⟩
  · obtain ⟨path, positive, short⟩ := CallMap.path_of_search found
    have back := (path_build_iff (List.ne_nil_of_length_pos positive)).mp path
    refine ⟨back, short, fun c on => ?_, CallMap.caller_ne_of_search found⟩
    exact CallMap.mem_callersOf_iff.mpr ⟨path.recorded c on, rfl⟩
  · obtain ⟨chain, back, positive, short⟩ := findCycle_build_isSome_iff.mp found
    exact findCycle_build_isSome_iff.mpr ⟨chain, back, positive, Nat.le_trans short larger⟩

/-- From `f` back to `f` in three hops, past a cycle of `g` with itself that leads nowhere. -/
example : (build [.function "f" ⟨0, 9⟩, .function "g" ⟨10, 29⟩, .function "h" ⟨30, 39⟩,
      .call "g" ⟨15, 16⟩, .call "g" ⟨5, 6⟩, .call "h" ⟨20, 21⟩, .call "f" ⟨35, 36⟩]).findCycle "f" 3 =
    some [⟨"f", "h", ⟨35, 36⟩⟩, ⟨"h", "g", ⟨20, 21⟩⟩, ⟨"g", "f", ⟨5, 6⟩⟩] := by decide

end Recording

end Lockstep
