import Lockstep.Proofs.Calls.Relation
/-!
Recursion over a whole run. It is reported exactly if the calls that were met hold a cycle that is
short enough, and what is reported shows such a cycle. The order in which functions are defined has
no say in it, unless one of them moves across a variable with the name of a function.
-/

set_option autoImplicit false
set_option relaxedAutoImplicit false

namespace Lockstep

/-- There is a finding with that code. -/
def Analysis.Reports (a : Analysis) (code : String) : Prop := ∃ f ∈ a.findings, f.code = some code

private theorem reports_of_codes {a : Analysis} {code : String} {others : List (Option String)}
    (codes : a.findings.map Finding.code = some code :: others) : a.Reports code := by
  have first : some code ∈ a.findings.map Finding.code := by
    rw [codes]
    exact List.mem_cons_self
  obtain ⟨f, member, same⟩ := List.mem_map.mp first
  exact ⟨f, member, same⟩

private theorem reports_iff_mem_raisedBy (source : SourceText) (settings : Settings)
    (unit : SourceUnit) : (analyze source settings unit).Reports "E0301" ↔
      ∃ f, f ∈ Analysis.raisedBy (unit.subject source settings) .recursion unit.events := by
  rw [analyze_eq_after]
  refine exists_congr fun f => ?_
  have coded : f ∈ Analysis.raisedBy (unit.subject source settings) .recursion unit.events ↔ _ :=
    Analysis.mem_raisedBy_iff
  exact coded.symm

private theorem reports_iff_exists_cycle (source : SourceText) {settings : Settings}
    (unit : SourceUnit) (enabled : settings.enabled .recursion = true) :
    (analyze source settings unit).Reports "E0301" ↔
      ∃ g hops, (analyze source settings unit).calls.Cycle settings.maxRecursionDepth g hops := by
  rw [reports_iff_mem_raisedBy, analyze_eq_after]
  constructor
  · rintro ⟨f, member⟩
    obtain ⟨callee, span, hops, -, cycle⟩ := Analysis.cycle_of_mem_raisedBy member
    exact ⟨callee, hops, cycle⟩
  · rintro ⟨g, hops, cycle⟩
    exact Analysis.exists_mem_raisedBy_of_cycle enabled cycle

private theorem reports_congr (source source' : SourceText) {settings : Settings}
    {unit unit' : SourceUnit} (enabled : settings.enabled .recursion = true)
    (placed : unit.Placed) (placed' : unit'.Placed)
    (same : ∀ callee caller, unit.HasFunction callee ∨ unit'.HasFunction callee →
      (unit.Calls callee caller ↔ unit'.Calls callee caller)) :
    (analyze source settings unit).Reports "E0301" ↔
      (analyze source' settings unit').Reports "E0301" := by
  have calls := SourceUnit.exists_call_iff placed source settings
  have calls' := SourceUnit.exists_call_iff placed' source' settings
  rw [reports_iff_exists_cycle source unit enabled, reports_iff_exists_cycle source' unit' enabled]
  constructor
  · refine CallMap.exists_cycle_congr fun b made c recorded closes => ?_
    have function := ((calls _ _).mp ⟨b, made, rfl, closes⟩).hasFunction
    exact (calls' _ _).mpr ((same _ _ (.inl function)).mp ((calls _ _).mp ⟨c, recorded, rfl, rfl⟩))
  · refine CallMap.exists_cycle_congr fun b made c recorded closes => ?_
    have function := ((calls' _ _).mp ⟨b, made, rfl, closes⟩).hasFunction
    exact (calls _ _).mpr ((same _ _ (.inr function)).mpr ((calls' _ _).mp ⟨c, recorded, rfl, rfl⟩))

/-- With the check switched on, recursion is reported exactly if the calls that were met in the end
lead from some function back to itself in at most the allowed number of hops, and every report shows
such calls, from the reported callee on. In files as they are read, it is the same for all orders of
the functions, as long as none moves across a variable with the name of a function: for the items of
one file, and for two files that hold the same items at other places. It is also the same for any two
files in which the same functions call each other. -/
theorem recursion_reported_exactly (source : SourceText) (settings : Settings) (unit : SourceUnit)
    (enabled : settings.enabled .recursion = true) :
    ((analyze source settings unit).Reports "E0301" ↔
      ∃ g hops, (analyze source settings unit).calls.Cycle settings.maxRecursionDepth g hops) ∧
    (∀ f ∈ (analyze source settings unit).findings, f.code = some "E0301" →
      ∃ callee span hops, f = recursiveCall callee span hops ∧ f.notes = hops.map Call.note ∧
        (analyze source settings unit).calls.Cycle settings.maxRecursionDepth callee hops) ∧
    (∀ text, (parse text).unit = some unit →
      (∀ source' unit', Reordered unit.HasFunction unit.items unit'.items →
        ((analyze source settings unit).Reports "E0301" ↔
          (analyze source' settings unit').Reports "E0301")) ∧
      (∀ source' text' unit', (parse text').unit = some unit' →
        Reordered unit.HasFunction (unit.items.map Item.shape) (unit'.items.map Item.shape) →
        ((analyze source settings unit).Reports "E0301" ↔
          (analyze source' settings unit').Reports "E0301")) ∧
      ∀ source' text' unit', (parse text').unit = some unit' →
        (∀ callee caller, unit.HasFunction callee ∨ unit'.HasFunction callee →
          (unit.Calls callee caller ↔ unit'.Calls callee caller)) →
        ((analyze source settings unit).Reports "E0301" ↔
          (analyze source' settings unit').Reports "E0301")) := by
  refine ⟨reports_iff_exists_cycle source unit enabled, ?_, fun text parsed => ?_⟩
  · intro f member code
    rw [analyze_eq_after] at member ⊢
    have raised : f ∈ Analysis.raisedBy (unit.subject source settings) .recursion unit.events :=
      Analysis.mem_raisedBy_iff.mpr ⟨member, code⟩
    obtain ⟨callee, span, hops, rfl, cycle⟩ := Analysis.cycle_of_mem_raisedBy raised
    exact ⟨callee, span, hops, rfl, rfl, cycle⟩
  · have placed := SourceUnit.placed_of_parse parsed
    have distinct := SourceUnit.nodup_names_of_parse parsed
    refine ⟨?_, ?_, ?_⟩
    · intro source' unit' reordered
      have names : unit.names.Perm unit'.names := (reordered.perm.flatMap_right _).filterMap _
      have distinct' : (unit'.names.map Prod.fst).Nodup := (names.map _).nodup_iff.mp distinct
      refine reports_congr source source' enabled placed (placed.reorder reordered) ?_
      intro callee caller function
      exact SourceUnit.calls_congr distinct distinct' (reordered.map_relocate _) function caller
    · intro source' text' unit' parsed' reordered
      refine reports_congr source source' enabled placed (SourceUnit.placed_of_parse parsed') ?_
      intro callee caller function
      exact SourceUnit.calls_congr distinct (SourceUnit.nodup_names_of_parse parsed') reordered
        function caller
    · intro source' text' unit' parsed' same
      exact reports_congr source source' enabled placed (SourceUnit.placed_of_parse parsed') same

/-- Two functions that call each other: the second call closes the cycle. -/
theorem recursion_reported_exactly_sample : ∃ unit,
    (parse "void f(){g();}void g(){f();}").unit = some unit ∧
      Settings.enabled {} .recursion = true ∧
      (analyze ⟨"k.cl", 28, [0]⟩ {} unit).Reports "E0301" ∧
      ∃ g hops, (analyze ⟨"k.cl", 28, [0]⟩ {} unit).calls.Cycle 5 g hops := by
  have codes : ((parse "void f(){g();}void g(){f();}").unit.map fun unit =>
      (analyze ⟨"k.cl", 28, [0]⟩ {} unit).findings.map Finding.code) = some [some "E0301"] := by
    decide +kernel
  obtain ⟨unit, parsed, codes⟩ := Option.map_eq_some_iff.mp codes
  have reported : (analyze ⟨"k.cl", 28, [0]⟩ {} unit).Reports "E0301" := reports_of_codes codes
  have exactly := recursion_reported_exactly ⟨"k.cl", 28, [0]⟩ {} unit rfl
  exact ⟨unit, parsed, rfl, reported, exactly.1.mp reported⟩

/-- A function that moves behind a variable with the name of another one no longer calls that one:
the same items in the opposite order hold no cycle, and neither does a text that is written so. -/
theorem recursion_depends_on_order : ∃ unit unit',
    (parse "void f(){g();}int g;void g(){f();}").unit = some unit ∧
      (parse "void g(){f();}int g;void f(){g();}").unit = some unit' ∧
      Settings.enabled {} .recursion = true ∧
      (analyze ⟨"k.cl", 34, [0]⟩ {} unit).Reports "E0301" ∧
      ¬ (analyze ⟨"k.cl", 34, [0]⟩ {} { unit with items := unit.items.reverse }).Reports "E0301" ∧
      ¬ (analyze ⟨"k.cl", 34, [0]⟩ {} unit').Reports "E0301" := by
  have codes : ((parse "void f(){g();}int g;void g(){f();}").unit.map fun unit =>
      ((analyze ⟨"k.cl", 34, [0]⟩ {} unit).findings.map Finding.code,
        (analyze ⟨"k.cl", 34, [0]⟩ {} { unit with items := unit.items.reverse }).findings)) =
      some ([some "E0301"], []) := by
    decide +kernel
  have none : ((parse "void g(){f();}int g;void f(){g();}").unit.map fun unit =>
      (analyze ⟨"k.cl", 34, [0]⟩ {} unit).findings) = some [] := by
    decide +kernel
  obtain ⟨unit, parsed, codes⟩ := Option.map_eq_some_iff.mp codes
  obtain ⟨unit', parsed', silent'⟩ := Option.map_eq_some_iff.mp none
  obtain ⟨code, silent⟩ := Prod.mk.inj codes
  have unreported {a : Analysis} (silent : a.findings = []) : ¬ a.Reports "E0301" := by
    rintro ⟨f, member, -⟩
    rw [silent] at member
    cases member
  exact ⟨unit, unit', parsed, parsed', rfl, reports_of_codes code, unreported silent,
    unreported silent'⟩

end Lockstep
