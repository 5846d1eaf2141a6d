import Lockstep.Proofs.Naming.Tables
/-!
Member accesses in the finished tables. Operands are visited before the expression they belong to, and
entries that were made stay what they are. So a member access is bound to the field that the finished
tables give for its name behind its operand.
-/

set_option autoImplicit false
set_option relaxedAutoImplicit false

namespace Lockstep

def OperandsFirst (as : List Action) : Prop :=
  ∀ before e after, as = before ++ Action.visit e :: after →
    ∀ x ∈ e.children, Action.visit x ∈ before

namespace OperandsFirst

variable {as bs : List Action}

theorem nil : OperandsFirst [] := by
  intro before e after split
  simp at split

private theorem append_of (first : OperandsFirst as)
    (second : ∀ before e after, bs = before ++ Action.visit e :: after →
      ∀ x ∈ e.children, .visit x ∈ as ++ before) : OperandsFirst (as ++ bs) := by
  intro before e after split x operand
  rcases List.append_eq_append_iff.mp split with ⟨mid, rfl, rest⟩ | ⟨mid, rfl, rest⟩
  · exact second mid e after rest x operand
  · cases mid with
    | nil => simpa using second [] e after (by simpa using rest.symm) x operand
    | cons a mid =>
      obtain ⟨rfl, rfl⟩ := List.cons.inj rest
      exact first before e mid rfl x operand

theorem append (first : OperandsFirst as) (second : OperandsFirst bs) :
    OperandsFirst (as ++ bs) :=
  first.append_of fun before e after split x operand =>
    List.mem_append_right _ (second before e after split x operand)

theorem visit {e : Expr} (first : OperandsFirst as) (done : ∀ x ∈ e.children, .visit x ∈ as) :
    OperandsFirst (as ++ [Action.visit e]) := by
  refine first.append_of fun before e' after split x operand => ?_
  cases before with
  | nil =>
    cases (List.cons.inj split).1
    simpa using done x operand
  | cons a before => simp at split

theorem cons {a : Action} (other : ∀ e, a ≠ .visit e) (rest : OperandsFirst as) :
    OperandsFirst (a :: as) := by
  have first : OperandsFirst [a] := by
    intro before e after split
    cases before with
    | nil => exact absurd (List.cons.inj split).1 (other e)
    | cons b before => simp at split
  exact first.append rest

theorem flatMap {α : Type} {f : α → List Action} {l : List α}
    (each : ∀ a ∈ l, OperandsFirst (f a)) : OperandsFirst (l.flatMap f) := by
  induction l with
  | nil => exact nil
  | cons a l ih =>
    obtain ⟨first, others⟩ := List.forall_mem_cons.mp each
    rw [List.flatMap_cons]
    exact first.append (ih others)

end OperandsFirst

private theorem Expr.actions_eq (e : Expr) :
    e.actions = e.children.flatMap Expr.actions ++ [Action.visit e] := by
  rw [Expr.actions, Expr.postorder_eq, List.map_append, List.map_flatMap]
  rfl

private theorem Expr.operandsFirst (e : Expr) : OperandsFirst e.actions := by
  induction e using Expr.children_induction with
  | step e ih =>
    rw [Expr.actions_eq]
    refine (OperandsFirst.flatMap ih).visit fun x operand => List.mem_flatMap.mpr ⟨x, operand, ?_⟩
    rw [Expr.actions_eq]
    simp

private theorem Decl.operandsFirst (d : Decl) : OperandsFirst d.actions := by
  refine .flatMap fun x _ => (OperandsFirst.flatMap fun e _ => e.operandsFirst).append ?_
  exact (OperandsFirst.flatMap fun e _ => e.operandsFirst).cons (by simp)

private theorem ForInit.operandsFirst (i : ForInit) : OperandsFirst i.actions := by
  cases i with
  | decl d => exact d.operandsFirst
  | expr span e => exact e.operandsFirst

namespace Stmt

mutual

private theorem operandsFirst : (s : Stmt) → OperandsFirst s.actions
  | compound _ body => ((operandsFirst_all body).append (.cons (by simp) .nil)).cons (by simp)
  | decl _ d => d.operandsFirst
  | expr _ e | caseLabel _ e => e.operandsFirst
  | returnJump _ value => .flatMap fun e _ => e.operandsFirst
  | ifThen _ cond t | whileLoop _ cond t | switch _ cond t =>
    cond.operandsFirst.append (operandsFirst t)
  | ifElse _ cond t e => cond.operandsFirst.append ((operandsFirst t).append (operandsFirst e))
  | forLoop _ init cond step body =>
    ((OperandsFirst.flatMap fun i _ => i.operandsFirst).append
      ((OperandsFirst.flatMap fun e _ => e.operandsFirst).append
        ((operandsFirst body).append (.cons (by simp) .nil)))).cons (by simp)
  | doLoop _ body cond => (operandsFirst body).append cond.operandsFirst
  | defaultLabel _ | breakJump _ | continueJump _ | gotoJump _ _ | label _ _ | empty _ => .nil

private theorem operandsFirst_all : (ss : List Stmt) → OperandsFirst (actionsAll ss)
  | [] => .nil
  | s :: ss => (operandsFirst s).append (operandsFirst_all ss)

end

end Stmt

private theorem Item.operandsFirst (item : Item) : OperandsFirst item.actions := by
  cases item with
  | global d => exact d.operandsFirst
  | function f =>
    have params (ps : List Param) :
        OperandsFirst (ps.filterMap fun p => p.name.map (Action.declare · p.ty)) := by
      rw [List.filterMap_eq_flatMap_toList]
      refine .flatMap fun p _ => ?_
      cases p.name with
      | none => exact .nil
      | some id => exact .cons (by simp) .nil
    have leave : OperandsFirst [Action.leave] := .cons (by simp) .nil
    refine ((params f.params).append (OperandsFirst.append ?_ leave)).cons (by simp)
    exact .flatMap fun b _ => ((Stmt.operandsFirst_all b.stmts).append leave).cons (by simp)
  | struct d => exact .nil
  | typedef t => exact .nil

private theorem SourceUnit.operandsFirst (unit : SourceUnit) : OperandsFirst unit.actions :=
  .flatMap fun item _ => item.operandsFirst

namespace OperandsFirst

variable {as bs : List Action}

theorem of_append (whole : OperandsFirst (as ++ bs)) : OperandsFirst as := by
  intro before e after split
  exact whole before e (after ++ bs) (by simp [split])

private theorem mem_operand {e x : Expr} (first : OperandsFirst as) (visited : .visit e ∈ as)
    (operand : x ∈ e.children) : .visit x ∈ as := by
  obtain ⟨before, after, rfl⟩ := List.append_of_mem visited
  exact List.mem_append_left _ (first before e after rfl x operand)

end OperandsFirst

def Expr.place : Expr → Expr
  | index _ base _ => base.place
  | unary _ .deref operand => operand.place
  | e => e

private theorem OperandsFirst.mem_place {as : List Action} (first : OperandsFirst as) (e : Expr)
    (visited : .visit e ∈ as) : .visit e.place ∈ as := by
  fun_induction Expr.place e with
  | case1 span base sub ih => exact ih (first.mem_operand visited (by simp [Expr.children]))
  | case2 span operand ih => exact ih (first.mem_operand visited (by simp [Expr.children]))
  | case3 e => exact visited

namespace Scope

/-- What stays of a scope when actions follow. -/
structure Extends (s t : Scope) : Prop where
  structNames : t.structNames = s.structNames
  structs : t.tables.structs = s.tables.structs
  vars : s.tables.vars <+: t.tables.vars
  fields : s.tables.fields <+: t.tables.fields
  memberRefs : s.tables.memberRefs ⊆ t.tables.memberRefs

private theorem extends_refl (s : Scope) : Extends s s :=
  ⟨rfl, rfl, List.prefix_rfl, List.prefix_rfl, List.Subset.refl _⟩

theorem Extends.trans {s t u : Scope} (first : Extends s t) (second : Extends t u) : Extends s u :=
  ⟨second.structNames.trans first.structNames, second.structs.trans first.structs,
    first.vars.trans second.vars, first.fields.trans second.fields,
    List.Subset.trans first.memberRefs second.memberRefs⟩

private theorem extends_bindMember (s : Scope) (span : Span) (base : Expr) (field : String) :
    Extends s (s.bindMember span base field) := by
  rcases s.bindMember_cases span base field with ⟨i, -, same⟩ | ⟨-, same⟩
  · rw [same]
    exact { s.extends_refl with memberRefs := List.subset_cons_self .. }
  · rw [same]
    exact { s.extends_refl with
      fields := List.prefix_append ..
      memberRefs := List.subset_cons_self .. }

theorem extends_act (s : Scope) (a : Action) : Extends s (s.act a) := by
  cases a with
  | enter => exact { s.extends_refl with }
  | leave => exact { s.extends_refl with }
  | declare id ty => exact { s.extends_refl with vars := List.prefix_append .. }
  | visit e =>
    cases e with
    | name span n =>
      simp only [act, visit]
      split
      · exact { s.extends_refl with }
      · exact s.extends_refl
    | member span base field arrow => exact s.extends_bindMember span base field.name
    | _ => exact s.extends_refl

private theorem extends_run (s : Scope) (as : List Action) : Extends s (as.foldl act s) := by
  induction as generalizing s with
  | nil => exact s.extends_refl
  | cons a as ih => exact (s.extends_act a).trans (ih (s.act a))

section Stable

variable {s t : Scope} {past : List Action} {struct : Option Nat} {name : String} {i : Nat}

theorem Extends.fieldOf (more : Extends s t) : t.fieldOf struct name = s.fieldOf struct name := by
  unfold Scope.fieldOf
  rw [more.structs]

theorem Extends.fieldNamed (more : Extends s t) (found : s.tables.fieldNamed name = some i) :
    t.tables.fieldNamed name = some i := by
  obtain ⟨rest, same⟩ := more.fields
  rw [Resolution.fieldNamed, ← same, List.findIdx?_append]
  rw [Resolution.fieldNamed] at found
  rw [found]
  rfl

theorem Extends.structOfExpr (more : Extends s t) (consistent : Consistent past s) (e : Expr)
    (names : ∀ span n, e.place = .name span n →
      t.tables.varRefs.lookup span = s.tables.varRefs.lookup span)
    (members : ∀ span base field arrow, e.place = .member span base field arrow →
      t.tables.memberRefs.lookup span = s.tables.memberRefs.lookup span) :
    t.structOfExpr e = s.structOfExpr e := by
  fun_induction Expr.place e with
  | case1 span base sub ih =>
    rw [Scope.structOfExpr, Scope.structOfExpr]
    exact ih names members
  | case2 span operand ih =>
    rw [Scope.structOfExpr, Scope.structOfExpr]
    exact ih names members
  | case3 e plain direct =>
    cases e with
    | name span n =>
      rw [Scope.structOfExpr, Scope.structOfExpr, names span n rfl]
      cases found : s.tables.varRefs.lookup span with
      | none => rfl
      | some i =>
        obtain ⟨n, -, v, here, -⟩ := consistent.varRefs _ (mem_of_lookup_eq_some found)
        simp [here, getElem?_of_prefix more.vars here]
    | member span base field arrow =>
      rw [Scope.structOfExpr, Scope.structOfExpr, members span base field arrow rfl]
      cases found : s.tables.memberRefs.lookup span with
      | none => rfl
      | some i =>
        obtain ⟨base', field', arrow', -, f, here, -⟩ :=
          consistent.memberRefs _ (mem_of_lookup_eq_some found)
        simp [here, getElem?_of_prefix more.fields here]
    | cast span ty operand =>
      rw [Scope.structOfExpr, Scope.structOfExpr, structOfType_eq, structOfType_eq,
        more.structNames]
    | index span base sub => exact absurd rfl (plain span base sub)
    | unary span op operand =>
      cases op with
      | deref => exact absurd rfl (direct span operand)
      | _ => rfl
    | _ => rfl

end Stable

end Scope

namespace SourceUnit

theorem tables_scope (unit : SourceUnit) : unit.scope.tables = resolve unit := rfl

theorem extends_scope (unit : SourceUnit) : Scope.Extends (Scope.laidOut unit.items) unit.scope := by
  rw [unit.scope_eq]
  exact Scope.extends_run _ unit.actions

variable {unit : SourceUnit} {before after : List Action} {span : Span}

private theorem not_mem_again {pick : Node → Option Span} (expressions : ∀ s, pick (.stmt s) = none)
    (distinct : (unit.nodes.filterMap pick).Nodup) (split : unit.actions = before ++ after)
    {e e' : Expr} (keyed : pick (.expr e) = some span) (keyed' : pick (.expr e') = some span)
    (visited : .visit e ∈ before) : .visit e' ∉ after := by
  intro again
  have nodup := (unit.visited_actions_perm expressions).nodup_iff.mpr distinct
  rw [split, List.filterMap_append, List.nodup_append] at nodup
  exact nodup.2.2 span (List.mem_filterMap.mpr ⟨_, visited, keyed⟩) span
    (List.mem_filterMap.mpr ⟨_, again, keyed'⟩) rfl

private theorem name_not_visited_again (distinct : unit.Distinct)
    (split : unit.actions = before ++ after)
    {n m : String} (visited : .visit (.name span n) ∈ before) :
    .visit (.name span m) ∉ after := by
  have keys : (unit.nodes.filterMap fun k => k.name?.map Prod.fst).Nodup := by
    rw [← List.map_filterMap]
    exact distinct.names
  exact not_mem_again (fun _ => rfl) keys split rfl rfl visited

private theorem member_not_visited_again (distinct : unit.Distinct)
    (split : unit.actions = before ++ after)
    {base base' : Expr} {field field' : Ident} {arrow arrow' : Bool}
    (visited : .visit (.member span base field arrow) ∈ before) :
    .visit (.member span base' field' arrow') ∉ after := by
  have keys : (unit.nodes.filterMap fun k => k.member?.map Expr.span).Nodup := by
    rw [← List.map_filterMap]
    exact distinct.members
  exact not_mem_again (fun _ => rfl) keys split rfl rfl visited

private theorem visit_of_mem_members {e : Expr} (member : e ∈ unit.members) :
    .visit e ∈ unit.actions := by
  have perm : (unit.actions.filterMap fun a => a.visited?.bind Node.member?).Perm unit.members :=
    unit.visited_actions_perm fun _ => rfl
  obtain ⟨a, done, is⟩ := List.mem_filterMap.mp (perm.mem_iff.mpr member)
  cases a with
  | visit x =>
    cases x with
    | member span base field arrow =>
      cases is
      exact done
    | _ => cases is
  | _ => cases is

/-- A member access is bound to the field that the finished tables give for it. -/
theorem memberRef_eq (distinct : unit.Distinct) {base : Expr} {field : Ident} {arrow : Bool}
    (member : .member span base field arrow ∈ unit.members) :
    unit.scope.tables.memberRefs.lookup span =
      (unit.scope.fieldOf (unit.scope.structOfExpr base) field.name <|>
        unit.scope.tables.fieldNamed field.name) := by
  obtain ⟨before, after, split⟩ := List.append_of_mem (visit_of_mem_members member)
  have whole := unit.operandsFirst
  rw [split] at whole
  -- The scope in which the access is visited, and the one behind the visit.
  generalize here : before.foldl Scope.act (Scope.laidOut unit.items) = s
  have consistent : Scope.Consistent ([] ++ before) s :=
    here ▸ (Scope.consistent_laidOut unit.items).run before
  have final : unit.scope = after.foldl Scope.act (s.bindMember span base field.name) := by
    rw [unit.scope_eq, split, List.foldl_append, ← here]
    rfl
  have later : Scope.Extends (s.bindMember span base field.name) unit.scope :=
    final ▸ Scope.extends_run _ after
  have more : Scope.Extends s unit.scope := (s.extends_bindMember span base field.name).trans later
  have place : .visit base.place ∈ before := by
    apply whole.of_append.mem_place
    exact whole before _ after rfl base (by simp [Expr.children])
  have known : unit.scope.structOfExpr base = s.structOfExpr base := by
    have run : unit.scope = (.visit (.member span base field arrow) :: after).foldl Scope.act s :=
      final
    apply more.structOfExpr consistent
    · intro key n same
      rw [same] at place
      rw [run]
      exact Scope.lookup_varRefs_run _ s fun m => name_not_visited_again distinct split place
    · intro key base' field' arrow' same
      rw [same] at place
      rw [run]
      exact Scope.lookup_memberRefs_run _ s fun _ _ _ =>
        member_not_visited_again distinct split place
  have bound {i : Nat} (entry : (span, i) ∈ (s.bindMember span base field.name).tables.memberRefs) :
      unit.scope.tables.memberRefs.lookup span = some i := by
    exact lookup_of_nodup distinct.keyed.memberRefs (later.memberRefs entry)
  rw [known, more.fieldOf]
  rcases s.bindMember_cases span base field.name with ⟨i, found, same⟩ | ⟨missing, same⟩
  · rw [consistent.field?_eq] at found
    rw [bound (by rw [same]; exact List.mem_cons_self)]
    cases inside : s.fieldOf (s.structOfExpr base) field.name with
    | none =>
      rw [inside] at found
      exact (more.fieldNamed found).symm
    | some j =>
      rw [inside] at found
      exact found.symm
  · obtain ⟨inside, absent⟩ : s.fieldOf (s.structOfExpr base) field.name = none ∧
        s.tables.fieldNamed field.name = none := by
      simpa [consistent.field?_eq] using missing
    have own : (s.bindMember span base field.name).tables.fieldNamed field.name =
        some (s.counters.next .field) := by
      rw [Resolution.fieldNamed] at absent
      simp [same, Resolution.fieldNamed, List.findIdx?_append, absent, FieldInfo.made,
        consistent.inStep.fields]
    rw [bound (by rw [same]; exact List.mem_cons_self), inside, later.fieldNamed own]
    rfl

end SourceUnit

end Lockstep
