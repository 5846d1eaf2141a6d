import Lockstep.Proofs.Json.Reading
import Lockstep.Settings.Text
import Mathlib.Data.List.Nodup
/-!
Settings survive their text. A text may give the fields in any order and leave out those that have
their default value; it is read as the same settings, whatever blanks and escapes it uses.
-/

set_option autoImplicit false
set_option relaxedAutoImplicit false

namespace Lockstep

open JsonReader (Reads Fills)

/-! ### Switches of checks -/

def Check.key : Check → String
  | backwardBranch => "backward_branch"
  | barrier => "barrier"
  | recursion => "recursion"
  | singleWorkItem => "single_work_item"

private theorem Check.key_injective : Function.Injective Check.key := by
  intro a b same
  cases a <;> cases b <;> simp [key] at same ⊢

namespace EnabledChecks

def given (c : EnabledChecks) (checks : List Check) : Json :=
  .obj (checks.map fun check => (check.key, .bool (c.isEnabled check)))

def switch (c : EnabledChecks) (check : Check) (on : Bool) : EnabledChecks :=
  match check with
  | .backwardBranch => { c with backwardBranch := on }
  | .barrier => { c with barrier := on }
  | .recursion => { c with recursion := on }
  | .singleWorkItem => { c with singleWorkItem := on }

private theorem isEnabled_switch (c : EnabledChecks) (check : Check) (on : Bool) (other : Check) :
    (c.switch check on).isEnabled other = if other = check then on else c.isEnabled other := by
  cases check <;> cases other <;> rfl

private theorem eq_of_isEnabled {c d : EnabledChecks}
    (same : ∀ check, c.isEnabled check = d.isEnabled check) : c = d := by
  have backward : c.backwardBranch = d.backwardBranch := same .backwardBranch
  have barrier : c.barrier = d.barrier := same .barrier
  have recursion : c.recursion = d.recursion := same .recursion
  have single : c.singleWorkItem = d.singleWorkItem := same .singleWorkItem
  cases c
  cases d
  simp_all only

private theorem fills_switch (c : EnabledChecks) (check : Check) :
    Fills slots (check.key, .bool (c.isEnabled check))
      fun d => d.switch check (c.isEnabled check) := by
  have boolean := JsonReader.reads_boolean (c.isEnabled check)
  cases check with
  | backwardBranch => exact ⟨_, rfl, fun d => boolean.through (d.switch .backwardBranch)⟩
  | barrier => exact ⟨_, rfl, fun d => boolean.through (d.switch .barrier)⟩
  | recursion => exact ⟨_, rfl, fun d => boolean.through (d.switch .recursion)⟩
  | singleWorkItem => exact ⟨_, rfl, fun d => boolean.through (d.switch .singleWorkItem)⟩

private theorem isEnabled_foldl_switch (c d : EnabledChecks) (checks : List Check) (check : Check) :
    (checks.foldl (fun d k => d.switch k (c.isEnabled k)) d).isEnabled check =
      if check ∈ checks then c.isEnabled check else d.isEnabled check := by
  induction checks generalizing d with
  | nil => rfl
  | cons k checks ih =>
    rw [List.foldl_cons, ih, isEnabled_switch]
    by_cases later : check ∈ checks
    · simp [later]
    · by_cases same : check = k
      · simp [same]
      · simp [later, same]

private theorem reads_given {c : EnabledChecks} {checks : List Check} (distinct : checks.Nodup)
    (others : ∀ check, c.isEnabled check ≠ ({} : EnabledChecks).isEnabled check → check ∈ checks) :
    Reads reader (c.given checks) c := by
  have keys : (checks.map Check.key).Nodup := distinct.map Check.key_injective
  have reads := JsonReader.reads_record "struct EnabledChecks" ({} : EnabledChecks)
    (fun check (_ : check ∈ checks) => c.fills_switch check) keys
  have same : checks.foldl (fun d k => d.switch k (c.isEnabled k)) {} = c := by
    refine eq_of_isEnabled fun check => ?_
    rw [isEnabled_foldl_switch]
    split
    · rfl
    · rename_i missing
      exact (not_not.mp (mt (others check) missing)).symm
  rw [same] at reads
  exact reads

end EnabledChecks

/-! ### Fields of settings -/

namespace Settings

inductive Field where
  | identityFunctions | barrierFunctions | maxRecursionDepth | indexPolicy | checks
deriving DecidableEq, Repr

namespace Field

def key : Field → String
  | identityFunctions => "identity_functions"
  | barrierFunctions => "barrier_functions"
  | maxRecursionDepth => "max_recursion_depth"
  | indexPolicy => "index_policy"
  | checks => "checks"

private theorem key_injective : Function.Injective key := by
  intro a b same
  cases a <;> cases b <;> simp [key] at same ⊢

/-- The value of a field as JSON, with the switches of the given checks only. -/
def value (s : Settings) (switches : List Check) : Field → Json
  | identityFunctions => .arr (s.identityFunctions.map .str)
  | barrierFunctions => .arr (s.barrierFunctions.map .str)
  | maxRecursionDepth => .nat s.maxRecursionDepth
  | indexPolicy => .str s.indexPolicy.word
  | checks => s.checks.given switches

/-- Two settings have the same value in a field. -/
def Agrees (s t : Settings) : Field → Prop
  | identityFunctions => s.identityFunctions = t.identityFunctions
  | barrierFunctions => s.barrierFunctions = t.barrierFunctions
  | maxRecursionDepth => s.maxRecursionDepth = t.maxRecursionDepth
  | indexPolicy => s.indexPolicy = t.indexPolicy
  | checks => s.checks = t.checks

theorem Agrees.trans {r s t : Settings} {f : Field} (first : f.Agrees r s) (last : f.Agrees s t) :
    f.Agrees r t := by
  cases f <;> exact Eq.trans first last

theorem Agrees.symm {s t : Settings} {f : Field} (agrees : f.Agrees s t) : f.Agrees t s := by
  cases f <;> exact Eq.symm agrees

/-- The settings `t` with the field as it is in `s`. -/
def copy (s t : Settings) : Field → Settings
  | identityFunctions => { t with identityFunctions := s.identityFunctions }
  | barrierFunctions => { t with barrierFunctions := s.barrierFunctions }
  | maxRecursionDepth => { t with maxRecursionDepth := s.maxRecursionDepth }
  | indexPolicy => { t with indexPolicy := s.indexPolicy }
  | checks => { t with checks := s.checks }

end Field

def given (s : Settings) (fields : List Field) (switches : List Check) : Json :=
  .obj (fields.map fun f => (f.key, f.value s switches))

private theorem toJson_eq_given (s : Settings) : s.toJson = s.given
    [.identityFunctions, .barrierFunctions, .maxRecursionDepth, .indexPolicy, .checks]
    [.backwardBranch, .barrier, .recursion, .singleWorkItem] := rfl

private theorem eq_of_agrees {s t : Settings} (agrees : ∀ f : Field, f.Agrees s t) : s = t := by
  have identity : s.identityFunctions = t.identityFunctions := agrees .identityFunctions
  have barrier : s.barrierFunctions = t.barrierFunctions := agrees .barrierFunctions
  have depth : s.maxRecursionDepth = t.maxRecursionDepth := agrees .maxRecursionDepth
  have policy : s.indexPolicy = t.indexPolicy := agrees .indexPolicy
  have checks : s.checks = t.checks := agrees .checks
  cases s
  cases t
  simp_all only

private theorem agrees_copy (s t : Settings) (f g : Field) :
    g.Agrees (f.copy s t) (if g = f then s else t) := by
  cases f <;> cases g <;> rfl

private theorem agrees_foldl_copy (s t : Settings) (fields : List Field) (f : Field) :
    f.Agrees (fields.foldl (fun t g => g.copy s t) t) (if f ∈ fields then s else t) := by
  induction fields generalizing t with
  | nil => cases f <;> rfl
  | cons g fields ih =>
    have last := ih (g.copy s t)
    have first := s.agrees_copy t g f
    by_cases later : f ∈ fields
    · simpa [later] using last
    · simp only [later, if_false] at last
      have both : f.Agrees (fields.foldl (fun t g => g.copy s t) (g.copy s t))
          (if f = g then s else t) := last.trans first
      simpa [later] using both

private theorem reads_names (names : List String) :
    Reads (JsonReader.list (JsonReader.string "a string")) (.arr (names.map .str)) names := by
  refine JsonReader.reads_list ?_
  rw [List.forall₂_map_left_iff]
  exact List.forall₂_same.mpr fun name _ => JsonReader.reads_string "a string" name

private theorem reads_slot {α : Type} {key : String} {read : JsonReader α}
    {set : Settings → α → Settings}
    {v : Json} {a : α} (reads : Reads read v a) (t : Settings) :
    Reads ((slot key read set).read t) v (set t a) :=
  reads.through (set t)

private theorem fills_copy {s : Settings} (exact : s.maxRecursionDepth ≤ JsonReader.greatestExact)
    {switches : List Check} (checks : Reads EnabledChecks.reader (s.checks.given switches) s.checks)
    (f : Field) : Fills slots (f.key, f.value s switches) (f.copy s) := by
  cases f with
  | identityFunctions => exact ⟨_, rfl, reads_slot (reads_names s.identityFunctions)⟩
  | barrierFunctions => exact ⟨_, rfl, reads_slot (reads_names s.barrierFunctions)⟩
  | maxRecursionDepth => exact ⟨_, rfl, reads_slot (JsonReader.reads_natural exact)⟩
  | indexPolicy =>
    have listed : IndexPolicy.table.lookup s.indexPolicy.word = some s.indexPolicy := by
      cases s.indexPolicy <;> rfl
    exact ⟨_, rfl, reads_slot (JsonReader.reads_variant listed)⟩
  | checks => exact ⟨_, rfl, reads_slot checks⟩

private theorem reads_given {s : Settings} (exact : s.maxRecursionDepth ≤ JsonReader.greatestExact)
    {fields : List Field} {switches : List Check} (distinct : fields.Nodup)
    (separate : switches.Nodup) (others : ∀ f : Field, ¬ f.Agrees s {} → f ∈ fields)
    (on : ∀ check, s.enabled check ≠ ({} : Settings).enabled check → check ∈ switches) :
    Reads reader (s.given fields switches) s := by
  have keys : (fields.map Field.key).Nodup := distinct.map Field.key_injective
  have checks : Reads EnabledChecks.reader (s.checks.given switches) s.checks :=
    EnabledChecks.reads_given separate on
  have reads := JsonReader.reads_record "struct CheckConfig" ({} : Settings)
    (fun f (_ : f ∈ fields) => fills_copy exact checks f) keys
  have same : fields.foldl (fun t g => g.copy s t) {} = s := by
    refine eq_of_agrees fun f => ?_
    have copied := s.agrees_foldl_copy {} fields f
    by_cases listed : f ∈ fields
    · rwa [if_pos listed] at copied
    · rw [if_neg listed] at copied
      exact copied.trans (not_not.mp (mt (others f) listed)).symm
  rw [same] at reads
  exact reads

/-- Settings are read back from their text, and from every text that gives, in any order, at least
the fields and switches that differ from the default. -/
theorem ofText_given (s : Settings) (exact : s.maxRecursionDepth < Nat.pow 2 64) :
    ofText s.toText = .ok s ∧
    ∀ (fields : List Field) (switches : List Check), fields.Nodup → switches.Nodup →
      (∀ f : Field, ¬ f.Agrees s {} → f ∈ fields) →
      (∀ check, s.enabled check ≠ ({} : Settings).enabled check → check ∈ switches) →
      (s.given fields switches).SpelledBy (s.given fields switches).compact ∧
      ∀ text, (s.given fields switches).SpelledBy text → ofText text = .ok s := by
  have fits : s.maxRecursionDepth ≤ JsonReader.greatestExact := Nat.le_pred_of_lt exact
  constructor
  · have reads : Reads reader s.toJson s := by
      rw [toJson_eq_given]
      exact reads_given fits (by decide) (by decide) (fun f _ => by cases f <;> decide)
        (fun check _ => by cases check <;> decide)
    exact JsonReader.whole_spelledBy reads (Json.spelling_compact _).spelledBy
  · intro fields switches distinct separate others on
    refine ⟨(Json.spelling_compact _).spelledBy, fun text spelled => ?_⟩
    exact JsonReader.whole_spelledBy (reads_given fits distinct separate others on) spelled

theorem ofText_given_sample : ∃ s : Settings,
    s.identityFunctions = ["π\"\\\n😀"] ∧ s.maxRecursionDepth = Nat.pow 2 64 - 1 ∧
    s.enabled .recursion = false ∧ ofText s.toText = .ok s ∧
    ofText (s.given [.checks, .maxRecursionDepth, .identityFunctions] [.recursion]).compact =
      .ok s := by
  have settings := ofText_given
    { identityFunctions := ["π\"\\\n😀"], maxRecursionDepth := Nat.pow 2 64 - 1,
      checks := { recursion := false } } (by decide)
  have others : ∀ f : Field, ¬ f.Agrees
      { identityFunctions := ["π\"\\\n😀"], maxRecursionDepth := Nat.pow 2 64 - 1,
        checks := { recursion := false } } {} →
      f ∈ [Field.checks, .maxRecursionDepth, .identityFunctions] := by
    intro f differs
    cases f with
    | barrierFunctions => exact absurd rfl differs
    | indexPolicy => exact absurd rfl differs
    | identityFunctions => decide
    | maxRecursionDepth => decide
    | checks => decide
  have given := settings.2 [.checks, .maxRecursionDepth, .identityFunctions] [.recursion] (by decide)
    (by decide) others (fun check differs => by cases check <;> revert differs <;> decide)
  exact ⟨_, rfl, rfl, rfl, settings.1, given.2 _ given.1⟩

end Settings

end Lockstep
