import Mathlib.Data.List.Induction
import Lockstep.Proofs.Tree.Rename
/-!
Resolution under new names for variables. If the new names keep the variables of a file apart, and
apart from the names that stand for no variable, then each scope offers under the new names what it
offered under the old ones. So all references are resolved as before, and the tables differ in
nothing but the names of the variables.
-/

set_option autoImplicit false
set_option relaxedAutoImplicit false

namespace Lockstep

def Resolution.rename (r : String → String) (t : Resolution) : Resolution :=
  { t with vars := t.vars.map fun v => { v with name := r v.name } }

namespace SourceUnit

/-- New names for the variables of a file: for what is declared, and for each use of a name that
stands for a variable. -/
def variableNames (unit : SourceUnit) (r : String → String) : Renaming where
  declared := r
  used := fun span n => if ((resolve unit).varRefs.lookup span).isSome then r n else n

def renameVariables (unit : SourceUnit) (r : String → String) : SourceUnit :=
  unit.rename (unit.variableNames r)

/-- The new names keep the variables apart, and apart from the names that stand for none. -/
structure Renamable (unit : SourceUnit) (r : String → String) : Prop where
  injective : ∀ a ∈ unit.declares, ∀ b ∈ unit.declares, r a.name = r b.name → a.name = b.name
  fresh : ∀ use ∈ unit.names, (resolve unit).varRefs.lookup use.1 = none →
    ∀ a ∈ unit.declares, r a.name ≠ use.2

end SourceUnit

namespace Scope

def rename (r : String → String) (s : Scope) : Scope :=
  { s with
    tables := s.tables.rename r
    levels := s.levels.map (List.map (Prod.map r id)) }

variable {r : String → String} {s : Scope}

/-! ### What is found under the new names -/

def Offers (D : String → Prop) (s : Scope) : Prop := ∀ level ∈ s.levels, ∀ v ∈ level, D v.1

private theorem of_find? {D : String → Prop} (offers : s.Offers D) {n : String} {i : Nat}
    (found : s.find? n = some i) : D n := by
  obtain ⟨level, listed, entry⟩ := List.exists_of_findSome?_eq_some found
  obtain ⟨before, behind, split, -⟩ := List.lookup_eq_some_iff.mp entry
  exact offers level listed (n, i) (by simp [split])

private theorem find?_rename {n m : String}
    (names : s.Offers fun k => (r k == m) = (k == n)) : (s.rename r).find? m = s.find? n := by
  have level (l : List (String × Nat)) (each : ∀ v ∈ l, (r v.1 == m) = (v.1 == n)) :
      (l.map (Prod.map r id)).lookup m = l.lookup n := by
    induction l with
    | nil => rfl
    | cons v l ih =>
      obtain ⟨first, others⟩ := List.forall_mem_cons.mp each
      have same : (m == r v.1) = (n == v.1) := by rw [Bool.beq_comm, first, Bool.beq_comm]
      rw [List.map_cons, List.lookup_cons, List.lookup_cons, Prod.map_fst, same, ih others]
      rfl
  have levels (ls : List (List (String × Nat)))
      (each : ∀ l ∈ ls, ∀ v ∈ l, (r v.1 == m) = (v.1 == n)) :
      (ls.map (List.map (Prod.map r id))).findSome? (·.lookup m) = ls.findSome? (·.lookup n) := by
    induction ls with
    | nil => rfl
    | cons l ls ih =>
      obtain ⟨first, others⟩ := List.forall_mem_cons.mp each
      rw [List.map_cons, List.findSome?_cons, List.findSome?_cons, level l first, ih others]
  exact levels s.levels names

private theorem find?_rename_of_injective {D : String → Prop} (offers : s.Offers D) {n : String}
    (own : D n)
    (injective : ∀ a, D a → D n → r a = r n → a = n) : (s.rename r).find? (r n) = s.find? n := by
  refine find?_rename fun level listed v entry => ?_
  show (r v.1 == r n) = (v.1 == n)
  rw [Bool.eq_iff_iff, beq_iff_eq, beq_iff_eq]
  exact ⟨injective v.1 (offers level listed v entry) own, congrArg r⟩

private theorem find?_rename_of_fresh {D : String → Prop} (offers : s.Offers D) {n : String}
    (fresh : ∀ a, D a → r a ≠ n) (missing : s.find? n = none) : (s.rename r).find? n = none := by
  rw [← missing]
  refine find?_rename fun level listed v entry => ?_
  have other : v.1 ≠ n := by
    rintro rfl
    have known := List.findSome?_eq_none_iff.mp missing level listed
    exact absurd (List.lookup_eq_none_iff.mp known v entry) (by simp)
  show (r v.1 == n) = (v.1 == n)
  rw [beq_false_of_ne (fresh v.1 (offers level listed v entry)), beq_false_of_ne other]

/-! ### Single actions -/

private theorem structOfExpr_rename (ρ : Renaming) :
    (e : Expr) → (s.rename r).structOfExpr (e.rename ρ) = s.structOfExpr e
  | .name span n => by
    simp only [Expr.rename, structOfExpr, rename, Resolution.rename, List.getElem?_map]
    cases s.tables.varRefs.lookup span with
    | none => rfl
    | some i =>
      cases known : s.tables.vars[i]? <;> simp [known]
  | .index _ base _ => structOfExpr_rename ρ base
  | .unary _ op operand => by
    have inside := structOfExpr_rename ρ operand
    cases op <;> first | exact inside | rfl
  | .member .. | .cast .. | .int .. | .float .. | .char .. | .str .. | .call .. | .post ..
  | .binary .. | .assign .. | .conditional .. | .sizeofExpr .. | .sizeofType .. | .initList .. => rfl

private theorem act_rename {ρ : Renaming} {a : Action}
    (found : ∀ span n, a = .visit (.name span n) →
      (s.rename ρ.declared).find? (ρ.used span n) = s.find? n) :
    (s.rename ρ.declared).act (a.rename ρ) = (s.act a).rename ρ.declared := by
  cases a with
  | enter => rfl
  | leave => simp [act, Action.rename, leave, rename]
  | declare id ty =>
    obtain ⟨tables, structNames, levels, counters, fieldsByName, madeFields⟩ := s
    cases levels <;>
      simp [act, Action.rename, declare, rename, Resolution.rename, Ident.rename, structOfType]
  | visit e =>
    cases e with
    | name span n =>
      rw [Action.rename, Expr.rename, act, visit, found span n rfl, act, visit]
      cases s.find? n <;> rfl
    | member span base field arrow =>
      have struct := s.structOfExpr_rename (r := ρ.declared) ρ base
      rw [Action.rename, Expr.rename, act, visit, act, visit, bindMember, bindMember, struct]
      have known : (s.rename ρ.declared).field? (s.structOfExpr base) field.name =
        s.field? (s.structOfExpr base) field.name := rfl
      rw [known]
      cases s.field? (s.structOfExpr base) field.name <;> rfl
    | _ => rfl

theorem Offers.act {D : String → Prop} (offers : s.Offers D) {a : Action}
    (declared : ∀ id ∈ a.declared?, D id.name) : (s.act a).Offers D := by
  cases a with
  | enter => exact List.forall_mem_cons.mpr ⟨nofun, offers⟩
  | leave => exact fun level listed => offers level (List.mem_of_mem_tail listed)
  | declare id ty =>
    obtain ⟨tables, structNames, levels, counters, fieldsByName, madeFields⟩ := s
    cases levels with
    | nil => exact nofun
    | cons level outer =>
      obtain ⟨inner, others⟩ := List.forall_mem_cons.mp offers
      refine List.forall_mem_cons.mpr ⟨List.forall_mem_cons.mpr ⟨declared id rfl, inner⟩, others⟩
  | visit e =>
    cases e with
    | name span n =>
      rw [Scope.act, visit]
      cases s.find? n <;> exact offers
    | member span base field arrow =>
      rw [Scope.act, visit, bindMember]
      cases s.field? (s.structOfExpr base) field.name <;> exact offers
    | _ => exact offers

end Scope

namespace SourceUnit

variable {unit : SourceUnit} (distinct : (unit.names.map Prod.fst).Nodup)

include distinct

private theorem lookup_varRefs_eq_find? {pre post : List Action} {span : Span} {n : String}
    (split : unit.actions = pre ++ .visit (.name span n) :: post) :
    (resolve unit).varRefs.lookup span =
      (pre.foldl Scope.act (unit.items.foldl Scope.collect {})).find? n := by
  have names : (unit.actions.filterMap fun a => a.visited?.bind Node.name?).Perm unit.names :=
    unit.visited_actions_perm fun _ => rfl
  have once := (names.map Prod.fst).nodup_iff.mpr distinct
  have own : (Action.visit (.name span n)).visited?.bind Node.name? = some (span, n) := rfl
  rw [split, List.filterMap_append, List.filterMap_cons, own, List.map_append, List.map_cons,
    List.nodup_append] at once
  obtain ⟨-, later, apart⟩ := once
  have keyed {as : List Action} {m : String} (visited : .visit (.name span m) ∈ as) :
      span ∈ (as.filterMap fun a => a.visited?.bind Node.name?).map Prod.fst :=
    List.mem_map.mpr ⟨(span, m), List.mem_filterMap.mpr ⟨_, visited, rfl⟩, rfl⟩
  have before (m : String) : .visit (.name span m) ∉ pre := fun visited =>
    apart span (keyed visited) span List.mem_cons_self rfl
  have behind (m : String) : .visit (.name span m) ∉ post := fun visited =>
    (List.nodup_cons.mp later).1 (keyed visited)
  have laidOut : (unit.items.foldl Scope.collect {}).tables.varRefs = [] :=
    (Scope.foldl_collect_keeps unit.items {}).2.2.2.1
  have missing := Scope.lookup_varRefs_run pre (unit.items.foldl Scope.collect {}) before
  rw [laidOut] at missing
  rw [resolve_eq, split, List.foldl_append, List.foldl_cons, Scope.lookup_varRefs_run post _ behind]
  generalize pre.foldl Scope.act (unit.items.foldl Scope.collect {}) = s at missing ⊢
  rw [Scope.act, Scope.visit]
  cases s.find? n with
  | none => exact missing
  | some i => exact List.lookup_cons_self

variable {r : String → String} (renamable : unit.Renamable r)

include renamable

/-- Up to any point of the second pass the two runs differ in the names of variables alone. -/
private theorem foldl_act_rename {pre post : List Action} (split : unit.actions = pre ++ post) :
    let start := unit.items.foldl Scope.collect {}
    (pre.map (Action.rename (unit.variableNames r))).foldl Scope.act start =
        (pre.foldl Scope.act start).rename r ∧
      (pre.foldl Scope.act start).Offers fun n => ∃ id ∈ unit.declares, id.name = n := by
  intro start
  obtain ⟨levels, vars, -⟩ := Scope.foldl_collect_keeps unit.items {}
  -- By induction on the actions taken so far, the newest last.
  induction pre using List.reverseRecOn generalizing post with
  | nil =>
    refine ⟨?_, ?_⟩
    · have unnamed : start.tables.vars = [] := vars
      have bare : start.levels = [[]] := levels
      show start = start.rename r
      obtain ⟨tables, structNames, level, counters, fieldsByName, madeFields⟩ := start
      obtain ⟨vs, fields, structs, functions, varDecls, varRefs, memberRefs⟩ := tables
      obtain rfl : vs = [] := unnamed
      obtain rfl : level = [[]] := bare
      rfl
    · show start.Offers _
      rw [Scope.Offers, show start.levels = [[]] from levels]
      simp
  | append_singleton pre a ih =>
    have whole : unit.actions = pre ++ a :: post := by rw [split, List.append_assoc]; rfl
    obtain ⟨same, offers⟩ := ih whole
    have listed : a ∈ unit.actions := by rw [whole]; simp
    rw [List.map_append, List.foldl_append, same, List.foldl_append]
    refine ⟨Scope.act_rename ?_, offers.act fun id declared => ?_⟩
    · rintro span n rfl
      have found := unit.lookup_varRefs_eq_find? distinct whole
      show ((pre.foldl Scope.act start).rename r).find? (if _ then r n else n) = _
      rw [found]
      cases known : (pre.foldl Scope.act start).find? n with
      | some i =>
        refine Eq.trans (Scope.find?_rename_of_injective offers (Scope.of_find? offers known) ?_) known
        rintro _ ⟨x, inUnit, rfl⟩ ⟨y, other, rfl⟩
        exact renamable.injective x inUnit y other
      | none =>
        refine Scope.find?_rename_of_fresh offers ?_ known
        rintro _ ⟨x, inUnit, rfl⟩
        have used : (span, n) ∈ unit.names :=
          (unit.visited_actions_perm fun _ => rfl).mem_iff.mp
            (List.mem_filterMap.mpr ⟨_, listed, rfl⟩)
        exact renamable.fresh (span, n) used (found.trans known) x inUnit
    · exact ⟨id, unit.declared_actions_perm.mem_iff.mp
        (List.mem_filterMap.mpr ⟨a, listed, declared⟩), rfl⟩

/-- Under new names all references are resolved as before. -/
theorem resolve_renameVariables :
    resolve (unit.renameVariables r) = (resolve unit).rename r := by
  have collected (s : Scope) (item : Item) :
      s.collect (item.rename (unit.variableNames r)) = s.collect item := by
    cases item with
    | function f => simp [Scope.collect, Scope.addFunction, Item.rename, Function.rename]
    | _ => rfl
  have start : (unit.renameVariables r).items.foldl Scope.collect {} =
      unit.items.foldl Scope.collect {} := by
    rw [renameVariables, SourceUnit.rename, List.foldl_map]
    simp only [collected]
  have run := (foldl_act_rename distinct renamable (List.append_nil unit.actions).symm).1
  rw [resolve_eq, start, renameVariables, actions_rename, run, resolve_eq]
  rfl

end SourceUnit

end Lockstep
