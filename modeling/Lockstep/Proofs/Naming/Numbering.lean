import Lockstep.Proofs.Naming.Actions
import Mathlib.Data.List.Basic
/-!
Numbers and positions. Both passes take the number of a declaration from a counter and file it in maps
of their own, apart from the tables. `Scope.InStep` says that none of these drifts: each counter stands
at the length of its table, and the maps over the names of fields lead to the positions in the table.
Every step of either pass keeps it.
-/

set_option autoImplicit false
set_option relaxedAutoImplicit false

namespace Lockstep

namespace Counters

@[simp] theorem next_advance_self (k : Counters) (kind : DeclKind) :
    (k.advance kind).next kind = k.next kind + 1 := by
  cases kind <;> rfl

end Counters

def FieldInfo.made (name : String) : FieldInfo := ⟨name, none, none, none⟩

namespace Resolution

/-- Where the fields of that name stand that a structure declares. -/
def declaredAt (r : Resolution) (name : String) : List Nat :=
  r.fields.findIdxs fun f => f.owner.isSome && f.name == name

/-- Where the fields of that name stand that no structure declares. -/
def madeAt (r : Resolution) (name : String) : List Nat :=
  r.fields.findIdxs fun f => f.owner.isNone && f.name == name

end Resolution

namespace Scope

/-- Counters and maps agree with the tables. -/
structure InStep (s : Scope) : Prop where
  vars : s.counters.next .var = s.tables.vars.length
  fields : s.counters.next .field = s.tables.fields.length
  functions : s.counters.next .function = s.tables.functions.length
  numbered : s.tables.functions.map FunctionInfo.number = List.range s.tables.functions.length
  declared : ∀ name, s.declaredFields name = s.tables.declaredAt name
  made : ∀ name, s.madeFields.lookup name = (s.tables.madeAt name).head?

/-- How a member access is resolved: it is found, or a field is made for it. -/
theorem bindMember_cases (s : Scope) (span : Span) (base : Expr) (name : String) :
    (∃ i, s.field? (s.structOfExpr base) name = some i ∧
      s.bindMember span base name =
        { s with tables := { s.tables with memberRefs := (span, i) :: s.tables.memberRefs } }) ∨
    (s.field? (s.structOfExpr base) name = none ∧
      s.bindMember span base name =
        { s with
          counters := s.counters.advance .field
          madeFields := (name, s.counters.next .field) :: s.madeFields
          tables := { s.tables with
            fields := s.tables.fields ++ [.made name]
            memberRefs := (span, s.counters.next .field) :: s.tables.memberRefs } }) := by
  unfold bindMember
  split
  · rename_i i found
    exact .inl ⟨i, found, rfl⟩
  · rename_i absent
    exact .inr ⟨absent, rfl⟩

namespace InStep

variable {s : Scope}

/-! ### The first pass -/

private theorem addField (inStep : s.InStep) (index : Nat) (owner : String) (f : Field) :
    (s.addField index owner f).InStep where
  vars := inStep.vars
  fields := by
    simp [Scope.addField, inStep.fields]
  functions := inStep.functions
  numbered := inStep.numbered
  declared := by
    intro name
    have before := inStep.declared name
    have number := inStep.fields
    by_cases same : name = f.name.name
    · subst same
      simp [Scope.addField, declaredFields, Resolution.declaredAt] at before ⊢
      simp [before, number]
    · have different : (name == f.name.name) = false := by simpa using same
      have other : (f.name.name == name) = false := by simpa using Ne.symm same
      simpa [Scope.addField, declaredFields, Resolution.declaredAt, List.lookup_cons, different, other]
        using before
  made := by
    intro name
    simpa [Scope.addField, Resolution.madeAt] using inStep.made name

private theorem foldl_addField (inStep : s.InStep) (index : Nat) (owner : String)
    (fs : List Field) :
    (fs.foldl (Scope.addField index owner) s).InStep := by
  induction fs generalizing s with
  | nil => exact inStep
  | cons f fs ih => exact ih (inStep.addField index owner f)

private theorem addFunction (inStep : s.InStep) (f : Function) : (s.addFunction f).InStep := by
  simp only [Scope.addFunction]
  split
  · have numbers (g : FunctionInfo) : FunctionInfo.number
        (if g.name == f.name.name then
          { g with isKernel := g.isKernel || f.isKernel, hasBody := g.hasBody || f.body.isSome }
        else g) = g.number := by
      split <;> rfl
    refine { inStep with functions := ?_, numbered := ?_ }
    · simpa using inStep.functions
    · rw [List.map_map, List.length_map, ← inStep.numbered]
      exact List.map_congr_left fun g _ => numbers g
  · refine { inStep with functions := ?_, numbered := ?_ }
    · simp [inStep.functions]
    · simp [inStep.numbered, inStep.functions, List.range_succ]

theorem collect (inStep : s.InStep) (item : Item) : (s.collect item).InStep := by
  cases item with
  | struct d =>
    simp only [Scope.collect, addStruct]
    apply foldl_addField
    exact { inStep with }
  | typedef d =>
    simp only [Scope.collect]
    split
    · exact { inStep with }
    · exact inStep
  | function f => exact inStep.addFunction f
  | global d => exact inStep

private theorem foldl_collect (inStep : s.InStep) (items : List Item) :
    (items.foldl Scope.collect s).InStep := by
  induction items generalizing s with
  | nil => exact inStep
  | cons item items ih => exact ih (inStep.collect item)

/-! ### The second pass -/

private theorem declare (inStep : s.InStep) (id : Ident) (ty : TypeSpec) :
    (s.declare id ty).InStep where
  vars := by simp [Scope.declare, inStep.vars]
  fields := inStep.fields
  functions := inStep.functions
  numbered := inStep.numbered
  declared := inStep.declared
  made := inStep.made

private theorem bindMember (inStep : s.InStep) (span : Span) (base : Expr) (name : String) :
    (s.bindMember span base name).InStep := by
  rcases s.bindMember_cases span base name with ⟨i, -, same⟩ | ⟨absent, same⟩
  · rw [same]
    exact { inStep with }
  · obtain ⟨-, -, unmade⟩ : s.fieldOf (s.structOfExpr base) name = none ∧
        s.declaredFields name = [] ∧ s.madeFields.lookup name = none := by
      simpa [field?] using absent
    rw [same]
    refine { inStep with fields := ?_, declared := ?_, made := ?_ }
    · simp [inStep.fields]
    · intro n
      simpa [Resolution.declaredAt, FieldInfo.made, declaredFields] using inStep.declared n
    · intro n
      have before := inStep.made n
      by_cases own : n = name
      · subst own
        -- None was made for the name before, so the new one is the first.
        have none_yet : s.tables.madeAt n = [] := by
          rw [unmade] at before
          exact List.head?_eq_none_iff.mp before.symm
        simp only [Resolution.madeAt] at none_yet ⊢
        simp [none_yet, FieldInfo.made, inStep.fields]
      · have different : (n == name) = false := by simpa using own
        have other : (name == n) = false := by simpa using Ne.symm own
        simpa [Resolution.madeAt, List.lookup_cons, different, other, FieldInfo.made] using before

theorem act (inStep : s.InStep) (a : Action) : (s.act a).InStep := by
  cases a with
  | enter => exact { inStep with }
  | leave => exact { inStep with }
  | declare id ty => exact inStep.declare id ty
  | visit e =>
    cases e with
    | name span n =>
      simp only [Scope.act, visit]
      split
      · exact { inStep with }
      · exact inStep
    | member span base field arrow => exact inStep.bindMember span base field.name
    | _ => exact inStep

end InStep

theorem inStep_laidOut (items : List Item) : (laidOut items).InStep := by
  have initial : InStep {} := ⟨rfl, rfl, rfl, rfl, fun _ => rfl, fun _ => rfl⟩
  exact initial.foldl_collect items

end Scope

theorem SourceUnit.inStep_scope (unit : SourceUnit) : unit.scope.InStep := by
  rw [unit.scope_eq]
  exact Scope.keeps_of_act (fun _ a inStep => inStep.act a) _ _ (Scope.inStep_laidOut unit.items)

end Lockstep
