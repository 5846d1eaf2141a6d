import Lockstep.Proofs.Grammar.Ranges
import Lockstep.Proofs.Naming.Lexical
import Lockstep.Proofs.Naming.Structures
/-!
The tables of a source file. They grow in step through both passes: what is entered for a variable or
a field is its position, and positions that are entered elsewhere stay in range and keep their names.
So each table can be followed into the next one without a check.
-/

set_option autoImplicit false
set_option relaxedAutoImplicit false

namespace Lockstep

theorem getElem?_of_prefix {α : Type} {xs ys : List α} {i : Nat} {a : α} (more : xs <+: ys)
    (here : xs[i]? = some a) : ys[i]? = some a := by
  obtain ⟨rest, rfl⟩ := more
  rw [List.getElem?_append_left (List.getElem?_eq_some_iff.mp here).1, here]

theorem mem_of_lookup_eq_some {α β : Type} [BEq α] [LawfulBEq α] {l : List (α × β)} {a : α} {b : β}
    (found : l.lookup a = some b) : (a, b) ∈ l := by
  obtain ⟨front, back, rfl, -⟩ := List.lookup_eq_some_iff.mp found
  simp

theorem lookup_of_nodup {l : List (Span × Nat)} {span : Span} {i : Nat}
    (distinct : (l.map Prod.fst).Nodup) (entry : (span, i) ∈ l) : l.lookup span = some i := by
  refine lookup_eq_some_of_mem (fun j other => ?_) entry
  exact (Prod.mk.inj (List.inj_on_of_nodup_map distinct other entry rfl)).2

namespace Resolution

def VarAt (r : Resolution) (i : Nat) (name : String) : Prop :=
  ∃ v, r.vars[i]? = some v ∧ v.name = name

def FieldAt (r : Resolution) (i : Nat) (name : String) : Prop :=
  ∃ f, r.fields[i]? = some f ∧ f.name = name

variable {r r' : Resolution} {i : Nat} {name : String}

theorem VarAt.lt (stands : r.VarAt i name) : i < r.vars.length := by
  obtain ⟨v, here, -⟩ := stands
  exact (List.getElem?_eq_some_iff.mp here).1

theorem FieldAt.lt (stands : r.FieldAt i name) : i < r.fields.length := by
  obtain ⟨f, here, -⟩ := stands
  exact (List.getElem?_eq_some_iff.mp here).1

theorem VarAt.mono (stands : r.VarAt i name) (more : r.vars <+: r'.vars) : r'.VarAt i name := by
  obtain ⟨v, here, named⟩ := stands
  exact ⟨v, getElem?_of_prefix more here, named⟩

theorem FieldAt.mono (stands : r.FieldAt i name) (more : r.fields <+: r'.fields) :
    r'.FieldAt i name := by
  obtain ⟨f, here, named⟩ := stands
  exact ⟨f, getElem?_of_prefix more here, named⟩

private theorem fieldAt_of_fieldNamed (found : r.fieldNamed name = some i) : r.FieldAt i name := by
  obtain ⟨short, named, -⟩ := List.findIdx?_eq_some_iff_getElem.mp found
  exact ⟨r.fields[i], List.getElem?_eq_getElem short, by simpa using named⟩

private theorem fieldNamed_eq_head?
    (parted : r.fields.Pairwise fun f g => f.owner = none → g.owner = none) :
    r.fieldNamed name = ((r.declaredAt name).head? <|> (r.madeAt name).head?) := by
  simp only [fieldNamed, declaredAt, madeAt]
  generalize r.fields = l at parted
  induction l with
  | nil => rfl
  | cons f l ih =>
    obtain ⟨first, others⟩ := List.pairwise_cons.mp parted
    rw [List.findIdx?_cons, List.findIdxs_cons, List.findIdxs_cons, Nat.zero_add,
      List.findIdxs_start, List.findIdxs_start (s := 1), ih others]
    by_cases named : f.name = name
    · cases owner : f.owner with
      | some o => simp [named]
      | none =>
        have later : l.findIdxs (fun f => f.owner.isSome && f.name == name) = [] := by
          rw [List.findIdxs_eq_nil_iff]
          intro g member
          simp [first g member owner]
        simp [named, later]
    · simp [named, Option.map_or]

def listed (r : Resolution) : List (String × Option String × Nat) :=
  r.structs.flatMap fun t => t.fields.map fun p => (p.1, some t.name, p.2)

def owned (r : Resolution) : List (String × Option String × Nat) :=
  (r.fields.zipIdx.filter fun p => p.1.owner.isSome).map fun p => (p.1.name, p.1.owner, p.2)

private theorem fieldAt_of_mem_owned {owner : Option String} (member : (name, owner, i) ∈ r.owned) :
    r.FieldAt i name := by
  obtain ⟨⟨f, j⟩, inside, same⟩ := List.mem_map.mp member
  cases same
  exact ⟨f, List.mem_zipIdx_iff_getElem?.mp (List.mem_filter.mp inside).1, rfl⟩

end Resolution

namespace Scope

/-- The tables and what is visible fit together behind these actions. -/
structure Consistent (past : List Action) (s : Scope) : Prop where
  inStep : s.InStep
  levels : ∀ level ∈ s.levels, ∀ p ∈ level, s.tables.VarAt p.2 p.1
  structNames : ∀ p ∈ s.structNames, p.2 < s.tables.structs.length
  vars : ∀ v ∈ s.tables.vars, ∀ k ∈ v.struct, k < s.tables.structs.length
  fields : ∀ f ∈ s.tables.fields, ∀ k ∈ f.struct, k < s.tables.structs.length
  varDecls : s.tables.varDecls.reverse = s.tables.vars.zipIdx.map fun p => (p.1.span, p.2)
  listed : s.tables.listed = s.tables.owned
  single : s.tables.fields.Pairwise fun f g => g.owner = none → f.name ≠ g.name
  parted : s.tables.fields.Pairwise fun f g => f.owner = none → g.owner = none
  varRefs : ∀ p ∈ s.tables.varRefs, ∃ n, .visit (.name p.1 n) ∈ past ∧ s.tables.VarAt p.2 n
  memberRefs : ∀ p ∈ s.tables.memberRefs, ∃ base field arrow,
    .visit (.member p.1 base field arrow) ∈ past ∧ s.tables.FieldAt p.2 field.name
  made : ∀ i f, s.tables.fields[i]? = some f → f.owner = none → ∃ p ∈ s.tables.memberRefs, p.2 = i

section Collect

variable {s : Scope} {items : List Item}

private theorem structOfType_lt (names : ∀ p ∈ s.structNames, p.2 < s.tables.structs.length)
    (ty : TypeSpec) : ∀ k ∈ s.structOfType ty, k < s.tables.structs.length := by
  intro k found
  rw [structOfType_eq, Option.mem_def] at found
  exact names _ (mem_of_lookup_eq_some found)

private theorem structNames_laidOut (items : List Item) :
    ∀ p ∈ (laidOut items).structNames, p.2 < (laidOut items).tables.structs.length := by
  induction items using List.reverseRecOn with
  | nil => simp [laidOut]
  | append_singleton items item ih =>
    have longer := (prefix_collect (laidOut items) item).1.length_le
    have kept : ∀ p ∈ (laidOut items).structNames,
        p.2 < ((laidOut items).collect item).tables.structs.length :=
      fun p member => (ih p member).trans_le longer
    rw [laidOut_concat]
    cases item with
    | struct d =>
      intro p member
      rw [collect, structNames_addStruct] at member
      rcases List.mem_append.mp member with own | old
      · obtain ⟨n, -, rfl⟩ := List.mem_map.mp (List.mem_reverse.mp own)
        rw [collect, structs_addStruct, List.length_append]
        simp
      · exact kept p old
    | typedef t =>
      simp only [collect] at kept ⊢
      split
      · rename_i k known
        exact List.forall_mem_cons.mpr ⟨structOfType_lt ih t.ty k known, ih⟩
      · exact ih
    | function f =>
      obtain ⟨counters, functions, same⟩ := (laidOut items).addFunction_eq f
      rw [collect, same]
      exact ih
    | global d => exact kept

private theorem fields_struct_laidOut (items : List Item) : ∀ f ∈ (laidOut items).tables.fields,
    ∀ k ∈ f.struct, k < (laidOut items).tables.structs.length := by
  induction items using List.reverseRecOn with
  | nil => simp [laidOut]
  | append_singleton items item ih =>
    have longer := (prefix_collect (laidOut items) item).1.length_le
    have kept : ∀ f ∈ (laidOut items).tables.fields, ∀ k ∈ f.struct,
        k < ((laidOut items).collect item).tables.structs.length :=
      fun f member k is => (ih f member k is).trans_le longer
    have names := structNames_laidOut (items ++ [item])
    rw [laidOut_concat] at names ⊢
    cases item with
    | struct d =>
      intro f member
      simp only [collect] at kept names member ⊢
      rw [fields_addStruct] at member
      rcases List.mem_append.mp member with old | own
      · exact kept f old
      · obtain ⟨g, -, rfl⟩ := List.mem_map.mp own
        exact structOfType_lt names g.ty
    | typedef t =>
      simp only [collect]
      split <;> exact ih
    | function f =>
      obtain ⟨counters, functions, same⟩ := (laidOut items).addFunction_eq f
      rw [collect, same]
      exact ih
    | global d => exact kept

private theorem listed_laidOut (items : List Item) :
    (laidOut items).tables.listed = (laidOut items).tables.owned ∧
      ∀ f ∈ (laidOut items).tables.fields, f.owner.isSome := by
  induction items using List.reverseRecOn with
  | nil => exact ⟨rfl, by simp [laidOut]⟩
  | append_singleton items item ih =>
    rw [laidOut_concat]
    cases item with
    | struct d =>
      obtain ⟨same, owners⟩ := ih
      constructor
      · have own (t : Scope) (n : Nat) :
            (((d.fields.map (t.fieldInfo d.title)).zipIdx n).filter fun p => p.1.owner.isSome).map
                (fun p => (p.1.name, p.1.owner, p.2)) =
              (d.fields.zipIdx n).map fun p => (p.1.name.name, some d.title, p.2) := by
          rw [List.zipIdx_map, List.filter_map, List.map_map]
          simp [Function.comp_def, fieldInfo]
        rw [Resolution.listed, Resolution.owned, collect, structs_addStruct, fields_addStruct,
          List.flatMap_append, List.zipIdx_append, List.filter_append, List.map_append, own,
          Nat.zero_add, next_field_laidOut, (length_laidOut items).2]
        exact congrArg₂ _ same (by simp)
      · rw [collect, fields_addStruct]
        refine List.forall_mem_append.mpr ⟨owners, fun f member => ?_⟩
        obtain ⟨g, -, rfl⟩ := List.mem_map.mp member
        rfl
    | typedef t =>
      simp only [collect]
      split <;> exact ih
    | function f =>
      obtain ⟨counters, functions, same⟩ := (laidOut items).addFunction_eq f
      rw [collect, same]
      exact ih
    | global d => exact ih

theorem consistent_laidOut (items : List Item) : Consistent [] (laidOut items) := by
  obtain ⟨levels, vars, varDecls, varRefs, memberRefs⟩ := foldl_collect_keeps items {}
  obtain ⟨listed, owners⟩ := listed_laidOut items
  have owned {f : FieldInfo} (member : f ∈ (laidOut items).tables.fields) : f.owner ≠ none :=
    Option.isSome_iff_ne_none.mp (owners f member)
  have empty : (laidOut items).levels = [[]] := levels
  refine ⟨inStep_laidOut items, ?_, structNames_laidOut items, ?_, fields_struct_laidOut items, ?_,
    listed, ?_, ?_, ?_, ?_, ?_⟩
  · simp [empty]
  · simp [laidOut, vars]
  · simp [laidOut, vars, varDecls]
  · exact List.pairwise_of_forall_mem_list fun f _ g member none => absurd none (owned member)
  · exact List.pairwise_of_forall_mem_list fun f member g _ none => absurd none (owned member)
  · simp [laidOut, varRefs]
  · simp [laidOut, memberRefs]
  · intro i f here none
    exact absurd none (owned (List.mem_of_getElem? here))

end Collect

section Act

variable {s : Scope} {past past' : List Action}

theorem Consistent.mono (consistent : Consistent past s) (within : past ⊆ past') :
    Consistent past' s := by
  refine { consistent with varRefs := fun p member => ?_, memberRefs := fun p member => ?_ }
  · obtain ⟨n, visited, stands⟩ := consistent.varRefs p member
    exact ⟨n, within visited, stands⟩
  · obtain ⟨base, field, arrow, visited, stands⟩ := consistent.memberRefs p member
    exact ⟨base, field, arrow, within visited, stands⟩

theorem Consistent.enter (consistent : Consistent past s) : Consistent past s.enter :=
  { consistent with
    inStep := consistent.inStep.act .enter
    levels := List.forall_mem_cons.mpr ⟨by simp, consistent.levels⟩ }

theorem Consistent.leave (consistent : Consistent past s) : Consistent past s.leave :=
  { consistent with
    inStep := consistent.inStep.act .leave
    levels := fun level inside => consistent.levels level (List.mem_of_mem_tail inside) }

theorem Consistent.declare (consistent : Consistent past s) (id : Ident) (ty : TypeSpec) :
    Consistent past (s.declare id ty) := by
  have more : s.tables.vars <+: (s.declare id ty).tables.vars := List.prefix_append ..
  have own : (s.declare id ty).tables.VarAt (s.counters.next .var) id.name := by
    rw [consistent.inStep.vars]
    exact ⟨_, List.getElem?_concat_length, rfl⟩
  refine { consistent with
    inStep := consistent.inStep.act (.declare id ty), levels := ?_, vars := ?_, varDecls := ?_,
    varRefs := ?_ }
  · -- The innermost level gets the new entry; older entries keep their names.
    have kept : ∀ level ∈ s.levels, ∀ p ∈ level, (s.declare id ty).tables.VarAt p.2 p.1 :=
      fun level open_ p member => (consistent.levels level open_ p member).mono more
    unfold Scope.declare
    cases levels : s.levels with
    | nil => simp
    | cons level outer =>
      rw [levels] at kept
      obtain ⟨first, others⟩ := List.forall_mem_cons.mp kept
      exact List.forall_mem_cons.mpr ⟨List.forall_mem_cons.mpr ⟨own, first⟩, others⟩
  · refine List.forall_mem_append.mpr ⟨consistent.vars, List.forall_mem_singleton.mpr ?_⟩
    exact structOfType_lt consistent.structNames ty
  · have before := consistent.varDecls
    simp only [Scope.declare, List.reverse_cons, before, List.zipIdx_append, List.map_append,
      consistent.inStep.vars]
    simp
  · intro p member
    obtain ⟨n, visited, stands⟩ := consistent.varRefs p member
    exact ⟨n, visited, stands.mono more⟩

private theorem Consistent.varAt_of_find? (consistent : Consistent past s) {name : String} {i : Nat}
    (found : s.find? name = some i) : s.tables.VarAt i name := by
  obtain ⟨level, open_, here⟩ := List.exists_of_findSome?_eq_some found
  exact consistent.levels level open_ _ (mem_of_lookup_eq_some here)

theorem Consistent.refer (consistent : Consistent past s) {span : Span} {name : String} {i : Nat}
    (visited : .visit (.name span name) ∈ past) (found : s.find? name = some i) :
    Consistent past
      { s with tables := { s.tables with varRefs := (span, i) :: s.tables.varRefs } } := by
  refine { consistent with
    inStep := { consistent.inStep with }
    varRefs := List.forall_mem_cons.mpr ⟨?_, consistent.varRefs⟩ }
  exact ⟨name, visited, consistent.varAt_of_find? found⟩

private theorem Consistent.fieldAt_of_fieldOf (consistent : Consistent past s) {struct : Option Nat}
    {name : String} {i : Nat} (found : s.fieldOf struct name = some i) :
    s.tables.FieldAt i name := by
  cases struct with
  | none => cases found
  | some k =>
    obtain ⟨t, entry, inside⟩ := Option.bind_eq_some_iff.mp found
    have member : (name, some t.name, i) ∈ s.tables.listed :=
      List.mem_flatMap.mpr ⟨t, List.mem_of_getElem? entry,
        List.mem_map.mpr ⟨_, mem_of_lookup_eq_some inside, rfl⟩⟩
    rw [consistent.listed] at member
    exact Resolution.fieldAt_of_mem_owned member

/-- The maps over names of fields lead to the first field of a name. -/
theorem Consistent.field?_eq (consistent : Consistent past s) (struct : Option Nat) (name : String) :
    s.field? struct name = (s.fieldOf struct name <|> s.tables.fieldNamed name) := by
  rw [field?, consistent.inStep.declared, consistent.inStep.made,
    Resolution.fieldNamed_eq_head? consistent.parted]

theorem Consistent.bindMember (consistent : Consistent past s) {span : Span} {base : Expr}
    {field : Ident} {arrow : Bool} (visited : .visit (.member span base field arrow) ∈ past) :
    Consistent past (s.bindMember span base field.name) := by
  have inStep := consistent.inStep.act (.visit (.member span base field arrow))
  have known := consistent.field?_eq (s.structOfExpr base) field.name
  simp only [Scope.act, Scope.visit] at inStep
  rcases s.bindMember_cases span base field.name with ⟨i, found, same⟩ | ⟨missing, same⟩
  · have stands : s.tables.FieldAt i field.name := by
      cases inside : s.fieldOf (s.structOfExpr base) field.name with
      | none => exact Resolution.fieldAt_of_fieldNamed (by simpa [inside, known] using found)
      | some j =>
        have same : j = i := by simpa [inside, known] using found
        exact same ▸ consistent.fieldAt_of_fieldOf inside
    rw [same] at inStep ⊢
    refine { consistent with inStep := inStep, memberRefs := ?_, made := ?_ }
    · exact List.forall_mem_cons.mpr ⟨⟨base, field, arrow, visited, stands⟩, consistent.memberRefs⟩
    · intro j f here made
      obtain ⟨p, member, position⟩ := consistent.made j f here made
      exact ⟨p, List.mem_cons_of_mem _ member, position⟩
  · -- No field has the name so far, so the one that is made is the only one.
    obtain ⟨-, absent⟩ : s.fieldOf (s.structOfExpr base) field.name = none ∧
        s.tables.fieldNamed field.name = none := by
      simpa [known] using missing
    have other : ∀ f ∈ s.tables.fields, f.name ≠ field.name := by
      simpa [Resolution.fieldNamed] using absent
    have number := consistent.inStep.fields
    rw [same] at inStep ⊢
    refine { consistent with
      inStep := inStep, fields := ?_, listed := ?_, single := ?_, parted := ?_, memberRefs := ?_,
      made := ?_ }
    · refine List.forall_mem_append.mpr ⟨consistent.fields, List.forall_mem_singleton.mpr ?_⟩
      simp [FieldInfo.made]
    · have before := consistent.listed
      simp only [Resolution.listed, Resolution.owned] at before ⊢
      rw [before, List.zipIdx_append, List.filter_append]
      simp [FieldInfo.made]
    · refine List.pairwise_append.mpr ⟨consistent.single, List.pairwise_singleton .., ?_⟩
      intro f member g single none
      cases List.mem_singleton.mp single
      exact other f member
    · refine List.pairwise_append.mpr ⟨consistent.parted, List.pairwise_singleton .., ?_⟩
      intro f _ g single _
      cases List.mem_singleton.mp single
      rfl
    · refine List.forall_mem_cons.mpr ⟨⟨base, field, arrow, visited, ?_⟩, fun p member => ?_⟩
      · rw [number]
        exact ⟨_, List.getElem?_concat_length, rfl⟩
      · obtain ⟨base', field', arrow', visited', stands⟩ := consistent.memberRefs p member
        exact ⟨base', field', arrow', visited', stands.mono (List.prefix_append ..)⟩
    · intro j f here made
      by_cases old : j < s.tables.fields.length
      · rw [List.getElem?_append_left old] at here
        obtain ⟨p, member, position⟩ := consistent.made j f here made
        exact ⟨p, List.mem_cons_of_mem _ member, position⟩
      · refine ⟨_, List.mem_cons_self, ?_⟩
        have short := (List.getElem?_eq_some_iff.mp here).1
        rw [List.length_append, List.length_singleton] at short
        simp only
        omega

theorem Consistent.visit (consistent : Consistent past s) {e : Expr} (visited : .visit e ∈ past) :
    Consistent past (s.visit e) := by
  cases e with
  | name span n =>
    simp only [Scope.visit]
    split
    · rename_i i found
      exact consistent.refer visited found
    · exact consistent
  | member span base field arrow => exact consistent.bindMember visited
  | _ => exact consistent

theorem Consistent.act (consistent : Consistent past s) (a : Action) :
    Consistent (past ++ [a]) (s.act a) := by
  have before : Consistent (past ++ [a]) s := consistent.mono (List.subset_append_left ..)
  cases a with
  | enter => exact before.enter
  | leave => exact before.leave
  | declare id ty => exact before.declare id ty
  | visit e => exact before.visit (by simp)

theorem Consistent.run (consistent : Consistent past s) (as : List Action) :
    Consistent (past ++ as) (as.foldl Scope.act s) := by
  induction as generalizing past s with
  | nil => simpa using consistent
  | cons a as ih => simpa using ih (consistent.act a)

end Act

section Reading

variable {s : Scope} {past : List Action}

private theorem Consistent.mem_varDecls_iff (consistent : Consistent past s) {span : Span}
    {i : Nat} :
    (span, i) ∈ s.tables.varDecls ↔ ∃ v, s.tables.vars[i]? = some v ∧ v.span = span := by
  rw [← List.mem_reverse, consistent.varDecls, List.mem_map]
  constructor
  · rintro ⟨⟨v, j⟩, inside, same⟩
    cases same
    exact ⟨v, List.mem_zipIdx_iff_getElem?.mp inside, rfl⟩
  · rintro ⟨v, here, rfl⟩
    exact ⟨(v, i), List.mem_zipIdx_iff_getElem?.mpr here, rfl⟩

private theorem Consistent.made_unique (consistent : Consistent past s) {i j : Nat}
    {f g : FieldInfo}
    (here : s.tables.fields[i]? = some f) (there : s.tables.fields[j]? = some g)
    (same : f.name = g.name) (made : f.owner = none) (made' : g.owner = none) : i = j := by
  obtain ⟨short, rfl⟩ := List.getElem?_eq_some_iff.mp here
  obtain ⟨short', rfl⟩ := List.getElem?_eq_some_iff.mp there
  have apart := List.pairwise_iff_getElem.mp consistent.single
  rcases Nat.lt_trichotomy i j with before | equal | behind
  · exact absurd same (apart i j short short' before made')
  · exact equal
  · exact absurd same.symm (apart j i short' short behind made)

end Reading

end Scope

def Expr.memberName? : Expr → Option String
  | .member _ _ field _ => some field.name
  | _ => none

def Resolution.Ownerless (r : Resolution) (i : Nat) : Prop :=
  ∃ f : FieldInfo, r.fields[i]? = some f ∧ f.owner = none

namespace SourceUnit

/-- The tables of a source file fit together and miss nothing of it. -/
structure Tabled (unit : SourceUnit) (r : Resolution) : Prop where
  /-- A variable is entered under its position. -/
  varPositions : r.varDecls.reverse = r.vars.zipIdx.map fun p => (p.1.span, p.2)
  /-- A field that has an owner is listed there under its position. -/
  fieldPositions : r.listed = r.owned
  /-- A field that has none is entered under its position. -/
  madePositions : ∀ i, r.Ownerless i → ∃ e ∈ unit.members, r.memberRef e = some i
  varsInRange : ∀ p ∈ r.varDecls ++ r.varRefs, p.2 < r.vars.length
  fieldsInRange : ∀ p ∈ r.memberRefs, p.2 < r.fields.length
  listedInRange : ∀ t ∈ r.structs, ∀ p ∈ t.fields, p.2 < r.fields.length
  varStructsInRange : ∀ v ∈ r.vars, ∀ k ∈ v.struct, k < r.structs.length
  fieldStructsInRange : ∀ f ∈ r.fields, ∀ k ∈ f.struct, k < r.structs.length
  /-- The variables are the declarators and named parameters, in the order of the text. -/
  declared : r.vars.map (fun v => (⟨v.name, v.span⟩ : Ident)) = unit.declares
  rising : r.vars.Pairwise fun v w => v.span.start < w.span.start
  /-- Each declared name is found, and what is found is its variable. -/
  found : ∀ id ∈ unit.declares, ∃ i v, r.varDecls.lookup id.span = some i ∧ r.vars[i]? = some v ∧
    v.name = id.name ∧ v.span = id.span
  /-- A member access is found, and what is found has the name that is written. -/
  members : ∀ e ∈ unit.members, ∃ i name, r.memberRef e = some i ∧ e.memberName? = some name ∧
    r.FieldAt i name
  /-- What is entered for a name has the name that is written. -/
  references : ∀ p ∈ r.varRefs, ∃ n, (p.1, n) ∈ unit.names ∧ r.VarAt p.2 n
  /-- Accesses with one name share the field that was made for them. -/
  shared : ∀ e ∈ unit.members, ∀ e' ∈ unit.members, e.memberName? = e'.memberName? → ∀ i j,
    r.memberRef e = some i → r.memberRef e' = some j → r.Ownerless i → r.Ownerless j → i = j

section Tabled

variable {unit : SourceUnit}

theorem consistent (unit : SourceUnit) :
    ∃ s, s.tables = resolve unit ∧ Scope.Consistent unit.actions s :=
  ⟨_, (resolve_eq unit).symm, (Scope.consistent_laidOut unit.items).run unit.actions⟩

private theorem mem_names_of_visit {span : Span} {n : String}
    (visited : .visit (.name span n) ∈ unit.actions) : (span, n) ∈ unit.names := by
  have perm : (unit.actions.filterMap fun a => a.visited?.bind Node.name?).Perm unit.names :=
    unit.visited_actions_perm fun _ => rfl
  exact perm.mem_iff.mp (List.mem_filterMap.mpr ⟨_, visited, rfl⟩)

private theorem mem_members_of_visit {span : Span} {base : Expr} {field : Ident} {arrow : Bool}
    (visited : .visit (.member span base field arrow) ∈ unit.actions) :
    .member span base field arrow ∈ unit.members := by
  have perm : (unit.actions.filterMap fun a => a.visited?.bind Node.member?).Perm unit.members :=
    unit.visited_actions_perm fun _ => rfl
  exact perm.mem_iff.mp (List.mem_filterMap.mpr ⟨_, visited, rfl⟩)

private theorem exists_of_mem_members {e : Expr} (member : e ∈ unit.members) :
    ∃ span base field arrow, e = .member span base field arrow := by
  obtain ⟨n, -, is⟩ := List.mem_filterMap.mp member
  cases n with
  | stmt s => cases is
  | expr e =>
    cases e with
    | member span base field arrow =>
      cases is
      exact ⟨span, base, field, arrow, rfl⟩
    | _ => cases is

private theorem fieldAt_of_mem_members (distinct : unit.Distinct) {e : Expr}
    (member : e ∈ unit.members) :
    ∃ i name, (resolve unit).memberRef e = some i ∧ e.memberName? = some name ∧
      (resolve unit).FieldAt i name := by
  obtain ⟨s, tables, consistent⟩ := consistent unit
  obtain ⟨span, base, field, arrow, rfl⟩ := exists_of_mem_members member
  have key : span ∈ (resolve unit).memberRefs.map Prod.fst :=
    (Resolution.memberRefs_perm unit).mem_iff.mpr (List.mem_map_of_mem (f := Expr.span) member)
  obtain ⟨⟨_, i⟩, entry, rfl⟩ := List.mem_map.mp key
  refine ⟨i, field.name, lookup_of_nodup distinct.keyed.memberRefs entry, rfl, ?_⟩
  rw [← tables] at entry ⊢
  obtain ⟨base', field', arrow', visited, stands⟩ := consistent.memberRefs _ entry
  cases List.inj_on_of_nodup_map distinct.members member (mem_members_of_visit visited) rfl
  exact stands

private theorem rising_declares {text : String} (parsed : (parse text).unit = some unit) :
    (unit.declares.map Ident.span).Pairwise fun a b => a.start < b.start := by
  obtain ⟨u, v, tokens, within, -, each⟩ := exists_tokens_of_parse parsed
  have ordered := (lex_ordered text).sublist (within.trans tokens)
  have spelled : (unit.declares.map Ident.lexeme).Sublist v := items_spelled each ordered
  have inOrder : v.Pairwise fun l m => l.span.start < m.span.start := by
    refine ordered.apart.imp_of_mem fun {l m} here _ before => ?_
    have room := ordered.room l here
    omega
  have lexemes := inOrder.sublist spelled
  rw [List.pairwise_map] at lexemes ⊢
  exact lexemes

private theorem vars_eq_declares (unit : SourceUnit) :
    (resolve unit).vars.map (fun v => (⟨v.name, v.span⟩ : Ident)) = unit.declares := by
  obtain ⟨s, tables, tracks⟩ := exists_tracks_resolve unit
  rw [← tables, tracks.vars, List.reverse_reverse, unit.mentions_covers.2]

end Tabled

end SourceUnit

/-- In a file that was read, the tables lead from each declared name, each name that is used and each
member access to an entry of its own, and from there on without a gap; and the counters that numbers
are taken from, and the maps over the names of fields, are in step with the tables. -/
theorem tables_total (text : String) (unit : SourceUnit) (parsed : (parse text).unit = some unit) :
    unit.Tabled (resolve unit) ∧ unit.scope.InStep := by
  have distinct := SourceUnit.distinct_of_parse parsed
  have declared := unit.vars_eq_declares
  have rising := SourceUnit.rising_declares parsed
  have members := fun e => SourceUnit.fieldAt_of_mem_members (e := e) distinct
  have varDecls := distinct.keyed.varDecls
  have memberRefs := distinct.keyed.memberRefs
  obtain ⟨s, tables, consistent⟩ := unit.consistent
  rw [← tables] at declared members varDecls memberRefs ⊢
  refine ⟨⟨consistent.varDecls, consistent.listed, ?_, ?_, ?_, ?_, consistent.vars,
    consistent.fields, declared, ?_, ?_, members, ?_, ?_⟩, unit.inStep_scope⟩
  · rintro i ⟨f, here, none⟩
    obtain ⟨⟨span, _⟩, entry, rfl⟩ := consistent.made i f here none
    obtain ⟨base, field, arrow, visited, -⟩ := consistent.memberRefs _ entry
    exact ⟨_, SourceUnit.mem_members_of_visit visited, lookup_of_nodup memberRefs entry⟩
  · intro p member
    rcases List.mem_append.mp member with decl | ref
    · obtain ⟨v, here, -⟩ := consistent.mem_varDecls_iff.mp decl
      exact (List.getElem?_eq_some_iff.mp here).1
    · obtain ⟨n, -, stands⟩ := consistent.varRefs p ref
      exact stands.lt
  · intro p member
    obtain ⟨base, field, arrow, -, stands⟩ := consistent.memberRefs p member
    exact stands.lt
  · intro t member p inside
    have listed : (p.1, some t.name, p.2) ∈ s.tables.listed :=
      List.mem_flatMap.mpr ⟨t, member, List.mem_map.mpr ⟨p, inside, rfl⟩⟩
    rw [consistent.listed] at listed
    exact (Resolution.fieldAt_of_mem_owned listed).lt
  · rw [← declared, List.map_map, List.pairwise_map] at rising
    exact rising
  · intro id member
    rw [← declared] at member
    obtain ⟨v, inside, rfl⟩ := List.mem_map.mp member
    obtain ⟨i, here⟩ := List.mem_iff_getElem?.mp inside
    have entry := consistent.mem_varDecls_iff.mpr ⟨v, here, rfl⟩
    exact ⟨i, v, lookup_of_nodup varDecls entry, here, rfl, rfl⟩
  · intro p member
    obtain ⟨n, visited, stands⟩ := consistent.varRefs p member
    exact ⟨n, SourceUnit.mem_names_of_visit visited, stands⟩
  · rintro e member e' member' same i j found found' ⟨f, here, made⟩ ⟨g, there, made'⟩
    obtain ⟨_, name, first, named, f', stands, rfl⟩ := members e member
    obtain ⟨_, name', second, named', g', stands', rfl⟩ := members e' member'
    cases found.symm.trans first
    cases found'.symm.trans second
    cases here.symm.trans stands
    cases there.symm.trans stands'
    have equal : f.name = g.name := Option.some.inj (named.symm.trans (same.trans named'))
    exact consistent.made_unique here there equal made made'

/-- A field of its own structure, a name that is declared twice, and two accesses that share a field
made for them. -/
theorem tables_total_sample : ∃ unit,
    (parse "struct S{struct S*n;int v;};void f(struct S*s,O o){int v=s->n->v;{O s;s.w=o.w;}}").unit =
      some unit ∧
    (resolve unit).vars.map Variable.name = ["s", "o", "v", "s"] ∧
    (resolve unit).fields.map (fun f => (f.name, f.owner)) =
      [("n", some "S"), ("v", some "S"), ("w", none)] ∧
    (resolve unit).memberRefs.map Prod.snd = [2, 2, 1, 0] ∧
    unit.scope.counters = ⟨4, 3, 1⟩ ∧ unit.scope.fieldsByName = [("v", [1]), ("n", [0])] ∧
    unit.scope.madeFields = [("w", 2)] ∧
    unit.Tabled (resolve unit) ∧ unit.scope.InStep := by
  have view : ((parse
      "struct S{struct S*n;int v;};void f(struct S*s,O o){int v=s->n->v;{O s;s.w=o.w;}}").unit.any
      fun unit => (resolve unit).vars.map Variable.name = ["s", "o", "v", "s"] ∧
        (resolve unit).fields.map (fun f => (f.name, f.owner)) =
          [("n", some "S"), ("v", some "S"), ("w", none)] ∧
        (resolve unit).memberRefs.map Prod.snd = [2, 2, 1, 0] ∧
        unit.scope.counters = ⟨4, 3, 1⟩ ∧ unit.scope.fieldsByName = [("v", [1]), ("n", [0])] ∧
        unit.scope.madeFields = [("w", 2)]) = true := by
    decide +kernel
  obtain ⟨unit, parsed, view⟩ := (Option.any_eq_true _ _).mp view
  obtain ⟨vars, fields, members, counters, byName, made⟩ := of_decide_eq_true view
  exact ⟨unit, parsed, vars, fields, members, counters, byName, made, tables_total _ unit parsed⟩

end Lockstep
