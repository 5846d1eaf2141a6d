import Lockstep.Proofs.Naming.Bindings
/-!
Member accesses and the types in front of them. A type in the declaration of a variable may be defined
anywhere in the file; one in a structure or an alias is only known if it is defined further up. So an
access finds the field of its own structure exactly if the type in front was known in time, or if that
structure is the first one with such a field.
-/

set_option autoImplicit false
set_option relaxedAutoImplicit false

namespace Lockstep

def Node.declarations : Node → List (Ident × TypeSpec)
  | stmt (.decl _ d) => d.declarators.map fun x => (x.name, d.ty)
  | _ => []

/-- The parameters, or the variables of the whole file, that an item declares. -/
def Item.declarations : Item → List (Ident × TypeSpec)
  | function f => f.params.filterMap fun p => p.name.map fun id => (id, p.ty)
  | global d => d.declarators.map fun x => (x.name, d.ty)
  | struct _ | typedef _ => []

def SourceUnit.declarations (unit : SourceUnit) : List (Ident × TypeSpec) :=
  unit.items.flatMap fun item => item.declarations ++ item.nodes.flatMap Node.declarations

/-- A member access, the structure that it should find its field in, with the items in front of that
structure, and the type that leads there, with the items that were reached where it was looked up. -/
structure Access where
  span : Span
  field : String
  ahead : List Item
  struct : StructDef
  seen : List Item
  type : TypeName

namespace Access

def position (a : Access) : Nat :=
  fieldCount a.ahead + a.struct.fields.findIdx fun f => f.name.name == a.field

/-- The access is bound to the structure's own field. -/
def Resolved (a : Access) (r : Resolution) : Prop := r.memberRefs.lookup a.span = some a.position

/-- The type in front was known where it was looked up, or no structure further up has a field of that
name. -/
def Timely (a : Access) : Prop :=
  Known a.seen a.type a.struct ∨ ∀ f ∈ a.ahead.flatMap Item.fields, f.name.name ≠ a.field

end Access

/-- The type with which the variable or field that an expression stands for is declared, the items
that are reached where that type is looked up, and the accesses on the way, outermost first. -/
inductive TypePath (unit : SourceUnit) : Expr → TypeSpec → List Item → List Access → Prop where
  | name {span : Span} {n : String} {i : Nat} {v : Variable} {ty : TypeSpec}
      (refers : (resolve unit).varRef (.name span n) = some i)
      (entry : (resolve unit).vars[i]? = some v)
      (declared : (⟨v.name, v.span⟩, ty) ∈ unit.declarations) :
      TypePath unit (.name span n) ty unit.items []
  | index {span : Span} {base sub : Expr} {ty : TypeSpec} {seen : List Item} {as : List Access}
      (inner : TypePath unit base ty seen as) : TypePath unit (.index span base sub) ty seen as
  | deref {span : Span} {operand : Expr} {ty : TypeSpec} {seen : List Item} {as : List Access}
      (inner : TypePath unit operand ty seen as) :
      TypePath unit (.unary span .deref operand) ty seen as
  | member {span : Span} {base : Expr} {field : Ident} {arrow : Bool} {ty : TypeSpec}
      {seen ahead behind : List Item} {as : List Access} {d : StructDef} {f : Field}
      (inner : TypePath unit base ty seen as) (denotes : Denotes unit.items ty.name d)
      (place : unit.items = ahead ++ Item.struct d :: behind) (listed : f ∈ d.fields)
      (named : f.name.name = field.name) :
      TypePath unit (.member span base field arrow) f.ty (ahead ++ [Item.struct d])
        (⟨span, field.name, ahead, d, seen, ty.name⟩ :: as)

section Variables

variable {unit : SourceUnit}

def Action.declaration? : Action → Option (Ident × TypeSpec)
  | declare id ty => some (id, ty)
  | _ => none

private theorem SourceUnit.declarations_perm (unit : SourceUnit) :
    (unit.actions.filterMap Action.declaration?).Perm unit.declarations := by
  refine (unit.actions_perm rfl rfl).trans (.of_eq (List.flatMap_congr fun item _ => ?_))
  have nodes (n : Node) : n.asks.filterMap Action.declaration? = n.declarations := by
    cases n with
    | expr e => rfl
    | stmt s =>
      cases s with
      | decl span d =>
        rw [Node.asks, List.filterMap_map, Node.declarations, ← List.filterMap_eq_map]
        rfl
      | _ => rfl
  rw [List.filterMap_flatMap, List.flatMap_congr fun n _ => nodes n]
  congr 1
  cases item with
  | function f =>
    rw [Item.asks, Item.declarations, List.filterMap_filterMap]
    refine List.filterMap_congr fun p _ => ?_
    cases p.name <;> rfl
  | global d =>
    rw [Item.asks, List.filterMap_map, Item.declarations, ← List.filterMap_eq_map]
    rfl
  | struct d => rfl
  | typedef d => rfl

private theorem Scope.vars_run (as : List Action) (s : Scope) : (as.foldl act s).tables.vars =
    s.tables.vars ++ (as.filterMap Action.declaration?).map fun p =>
      ⟨p.1.name, p.1.span, s.structOfType p.2⟩ := by
  induction as generalizing s with
  | nil => simp
  | cons a as ih =>
    have same (ty : TypeSpec) : (s.act a).structOfType ty = s.structOfType ty := by
      rw [structOfType_eq, structOfType_eq, (s.extends_act a).structNames]
    rw [List.foldl_cons, ih]
    simp only [same]
    cases a with
    | enter => rfl
    | leave => rfl
    | declare id ty => simp [act, declare, Action.declaration?]
    | visit e =>
      have kept : (s.act (.visit e)).tables.vars = s.tables.vars := by
        cases e with
        | name span n =>
          simp only [act, visit]
          split <;> rfl
        | member span base field arrow =>
          rcases s.bindMember_cases span base field.name with ⟨i, -, same⟩ | ⟨-, same⟩ <;>
            rw [act, visit, same]
        | _ => rfl
      rw [kept]
      rfl

private theorem SourceUnit.struct_of_declared (distinct : unit.Distinct) {v : Variable}
    {ty : TypeSpec}
    (entry : v ∈ (resolve unit).vars) (declared : (⟨v.name, v.span⟩, ty) ∈ unit.declarations) :
    v.struct = (Scope.laidOut unit.items).structOfType ty := by
  have perm := unit.declarations_perm
  obtain ⟨-, none, -⟩ := Scope.foldl_collect_keeps unit.items {}
  rw [← unit.tables_scope, unit.scope_eq, Scope.vars_run] at entry
  have fresh : v ∉ (Scope.laidOut unit.items).tables.vars := by simp [Scope.laidOut, none]
  obtain ⟨⟨id, ty'⟩, made, rfl⟩ := List.mem_map.mp ((List.mem_append.mp entry).resolve_left fresh)
  -- No two declared names have one range, so there is one type for the name.
  have ranges : (unit.declarations.map fun p => p.1.span).Nodup := by
    have names : (unit.actions.filterMap Action.declaration?).map Prod.fst =
        unit.actions.filterMap Action.declared? := by
      rw [List.map_filterMap]
      refine List.filterMap_congr fun a _ => ?_
      cases a <;> rfl
    have same := (unit.declared_actions_perm.map Ident.span).nodup_iff.mpr distinct.declares
    rw [← names, List.map_map] at same
    exact (perm.map _).nodup_iff.mp same
  have pair := List.inj_on_of_nodup_map ranges (perm.mem_iff.mp made) declared rfl
  rw [(Prod.mk.inj pair).2]

end Variables

section Fields

variable {unit : SourceUnit} {ahead behind : List Item} {d : StructDef} {name : String}

private theorem lookup_fields (fs : List Field) (n : Nat)
    (declares : ∃ f ∈ fs, f.name.name = name) :
    ((fs.zipIdx n).map fun p => (p.1.name.name, p.2)).lookup name =
      some (n + fs.findIdx fun f => f.name.name == name) := by
  induction fs generalizing n with
  | nil => simp at declares
  | cons f fs ih =>
    rw [List.zipIdx_cons, List.map_cons, List.lookup_cons, List.findIdx_cons]
    by_cases same : f.name.name = name
    · simp [same]
    · have different : (name == f.name.name) = false := by simpa using Ne.symm same
      have later : ∃ g ∈ fs, g.name.name = name := by simpa [same] using declares
      have different' : (f.name.name == name) = false := by simpa using same
      simp only [different, different', ih (n + 1) later, cond_false, Option.some.injEq]
      omega

private theorem names_laidOut (items : List Item) :
    (Scope.laidOut items).tables.fields.map FieldInfo.name =
      (items.flatMap Item.fields).map fun f => f.name.name := by
  induction items using List.reverseRecOn with
  | nil => rfl
  | append_singleton items item ih =>
    rw [Scope.laidOut_concat, List.flatMap_append, List.map_append, ← ih]
    cases item with
    | struct d =>
      rw [Scope.collect, Scope.fields_addStruct]
      simp [Item.fields, Scope.fieldInfo]
    | typedef t =>
      simp only [Scope.collect]
      split <;> simp [Item.fields]
    | function f =>
      obtain ⟨counters, functions, same⟩ := (Scope.laidOut items).addFunction_eq f
      simp [Item.fields, Scope.collect, same]
    | global d => simp [Item.fields, Scope.collect]

private theorem fieldNamed_eq_iff (place : unit.items = ahead ++ Item.struct d :: behind)
    (declares : ∃ f ∈ d.fields, f.name.name = name) :
    unit.scope.tables.fieldNamed name =
        some (fieldCount ahead + d.fields.findIdx fun f => f.name.name == name) ↔
      ∀ f ∈ ahead.flatMap Item.fields, f.name.name ≠ name := by
  obtain ⟨made, fields⟩ := unit.extends_scope.fields
  have names : unit.scope.tables.fields.map FieldInfo.name =
      (ahead.flatMap Item.fields).map (fun f => f.name.name) ++
        (d.fields.map (fun f => f.name.name) ++
          ((behind.flatMap Item.fields).map (fun f => f.name.name) ++ made.map FieldInfo.name)) := by
    rw [← fields, List.map_append, names_laidOut, place]
    simp [Item.fields]
  have first : unit.scope.tables.fieldNamed name =
      (unit.scope.tables.fields.map FieldInfo.name).findIdx? (· == name) := by
    rw [List.findIdx?_map]
    rfl
  have own : (d.fields.map fun f => f.name.name).findIdx? (· == name) =
      some (d.fields.findIdx fun f => f.name.name == name) := by
    rw [List.findIdx?_map]
    apply List.findIdx?_eq_some_of_exists
    simpa using declares
  rw [first, names, List.findIdx?_append, List.findIdx?_append, own]
  cases earlier : ((ahead.flatMap Item.fields).map fun f => f.name.name).findIdx? (· == name) with
  | none =>
    have absent : ∀ f ∈ ahead.flatMap Item.fields, f.name.name ≠ name := by
      rw [List.findIdx?_map] at earlier
      simpa using List.findIdx?_eq_none_iff.mp earlier
    refine iff_of_true ?_ absent
    simp [fieldCount, Nat.add_comm]
  | some j =>
    obtain ⟨short, present, -⟩ := List.findIdx?_eq_some_iff_getElem.mp earlier
    rw [List.length_map] at short
    refine iff_of_false ?_ fun absent => ?_
    · simp only [Option.some_or, Option.some.injEq, fieldCount]
      omega
    · rw [List.getElem_map, beq_iff_eq] at present
      exact absent _ (List.getElem_mem short) present

private theorem exists_own_field (place : unit.items = ahead ++ Item.struct d :: behind)
    (declares : ∃ f ∈ d.fields, f.name.name = name) : ∃ f ∈ d.fields, f.name.name = name ∧
      unit.scope.tables.fields[fieldCount ahead + d.fields.findIdx fun f => f.name.name == name]? =
        some ((Scope.laidOut (ahead ++ [Item.struct d])).fieldInfo d.title f) := by
  have more := unit.extends_scope.fields
  have short : (d.fields.findIdx fun f => f.name.name == name) < d.fields.length := by
    apply List.findIdx_lt_length_of_exists
    simpa using declares
  refine ⟨_, List.getElem_mem short, by simpa using List.findIdx_getElem (w := short), ?_⟩
  apply getElem?_of_prefix more
  rw [place]
  exact Scope.fields_laidOut ahead behind (List.getElem?_eq_getElem short)

end Fields

/-- No two fields of one structure have the same name. -/
def SourceUnit.FieldsDistinct (unit : SourceUnit) : Prop :=
  ∀ d ∈ unit.items.filterMap Item.struct?, (d.fields.map fun f => f.name.name).Nodup

instance (unit : SourceUnit) : Decidable unit.FieldsDistinct :=
  inferInstanceAs (Decidable
    (∀ d ∈ unit.items.filterMap Item.struct?, (d.fields.map fun f => f.name.name).Nodup))

section Main

variable {unit : SourceUnit} {e : Expr} {ty : TypeSpec} {seen : List Item} {as : List Access}

theorem TypePath.start (path : TypePath unit e ty seen as) : seen <+: unit.items := by
  induction path with
  | name => exact List.prefix_rfl
  | index _ ih => exact ih
  | deref _ ih => exact ih
  | @member _ _ _ _ _ _ _ behind _ _ _ _ _ place _ _ _ =>
    rw [place]
    exact ⟨behind, by simp⟩

section Step

variable {span : Span} {base : Expr} {field : Ident} {arrow : Bool} {ahead behind : List Item}
  {d : StructDef} (place : unit.items = ahead ++ Item.struct d :: behind)
  (declares : ∃ f ∈ d.fields, f.name.name = field.name)

include place declares

private theorem fieldOf_own : unit.scope.fieldOf (some (structCount ahead)) field.name =
    some (fieldCount ahead + d.fields.findIdx fun f => f.name.name == field.name) := by
  have structs := unit.extends_scope.structs
  have entry := Scope.structs_laidOut ahead behind d
  rw [← place, ← structs] at entry
  refine Option.bind_eq_some_iff.mpr ⟨_, entry, ?_⟩
  exact lookup_fields d.fields (fieldCount ahead) declares

private theorem resolved_iff_timely (distinct : unit.Distinct)
    (names : (typeNames unit.items).Nodup)
    (member : .member span base field arrow ∈ unit.members)
    (denotes : Denotes unit.items ty.name d) (start : seen <+: unit.items)
    (known : unit.scope.structOfExpr base = (Scope.laidOut seen).structOfType ty) :
    (Access.mk span field.name ahead d seen ty.name).Resolved (resolve unit) ↔
      (Access.mk span field.name ahead d seen ty.name).Timely := by
  have first := fieldNamed_eq_iff place declares
  have own := fieldOf_own place declares
  rw [Access.Resolved, Access.Timely, ← unit.tables_scope, SourceUnit.memberRef_eq distinct member,
    known, Scope.structOfType_eq, Access.position]
  rw [place] at denotes names start
  rcases denotes.lookup_cases names start with ⟨timely, found⟩ | ⟨late, absent⟩
  · rw [found, own]
    exact iff_of_true rfl (.inl timely)
  · rw [absent, or_iff_right late, ← first]
    rfl

end Step

private theorem SourceUnit.mem_nodes_of_mem_members (member : e ∈ unit.members) :
    .expr e ∈ unit.nodes := by
  obtain ⟨n, inside, is⟩ := List.mem_filterMap.mp member
  cases n with
  | stmt s => cases is
  | expr x =>
    cases x with
    | member span base field arrow =>
      cases is
      exact inside
    | _ => cases is

private theorem SourceUnit.mem_nodes_of_operand {x : Expr} (inside : .expr e ∈ unit.nodes)
    (operand : x ∈ e.children) : .expr x ∈ unit.nodes := by
  apply (SourceUnit.preorder_sublist inside).subset
  refine Node.mem_preorder_iff.mpr (.inr ⟨.expr x, ?_, Node.mem_preorder_iff.mpr (.inl rfl)⟩)
  exact List.mem_map_of_mem operand

private theorem structOfExpr_of_resolved (fields : unit.FieldsDistinct) {a : Access} {base : Expr}
    {field : Ident} {arrow : Bool} {behind : List Item} {f : Field}
    (place : unit.items = a.ahead ++ Item.struct a.struct :: behind) (listed : f ∈ a.struct.fields)
    (named : f.name.name = a.field) (resolved : a.Resolved (resolve unit)) :
    unit.scope.structOfExpr (.member a.span base field arrow) =
      (Scope.laidOut (a.ahead ++ [Item.struct a.struct])).structOfType f.ty := by
  obtain ⟨g, listed', named', entry⟩ := exists_own_field place ⟨f, listed, named⟩
  have single : (a.struct.fields.map fun f => f.name.name).Nodup :=
    fields a.struct (by simp [place, Item.struct?])
  cases List.inj_on_of_nodup_map single listed' listed (named'.trans named.symm)
  have own : unit.scope.tables.fields[a.position]? = some _ := entry
  rw [Access.Resolved, ← unit.tables_scope] at resolved
  simp [Scope.structOfExpr, resolved, own, Scope.fieldInfo]

/-- The accesses on a path are bound to the own fields of their structures exactly if they are timely;
and then the expression has the structure that was known for its type. -/
private theorem TypePath.resolved_iff (distinct : unit.Distinct)
    (names : (typeNames unit.items).Nodup)
    (fields : unit.FieldsDistinct) (inside : .expr e ∈ unit.nodes)
    (path : TypePath unit e ty seen as) :
    ((∀ a ∈ as, a.Resolved (resolve unit)) ↔ ∀ a ∈ as, a.Timely) ∧
      ((∀ a ∈ as, a.Resolved (resolve unit)) →
        unit.scope.structOfExpr e = (Scope.laidOut seen).structOfType ty) := by
  induction path with
  | @name span n i v ty refers entry declared =>
    refine ⟨by simp, fun _ => ?_⟩
    have found : unit.scope.tables.varRefs.lookup span = some i := by
      rw [unit.tables_scope]
      exact refers
    have struct := SourceUnit.struct_of_declared distinct (List.mem_of_getElem? entry) declared
    rw [← unit.tables_scope] at entry
    simp [Scope.structOfExpr, found, entry, struct]
  | index _ ih =>
    have inner := ih (SourceUnit.mem_nodes_of_operand inside (by simp [Expr.children]))
    rwa [Scope.structOfExpr]
  | deref _ ih =>
    have inner := ih (SourceUnit.mem_nodes_of_operand inside (by simp [Expr.children]))
    rwa [Scope.structOfExpr]
  | @member span base field arrow ty seen ahead behind as d f path denotes place listed named ih =>
    obtain ⟨same, known⟩ := ih (SourceUnit.mem_nodes_of_operand inside (by simp [Expr.children]))
    have access : .member span base field arrow ∈ unit.members :=
      List.mem_filterMap.mpr ⟨_, inside, rfl⟩
    have own (bound : ∀ a ∈ as, a.Resolved (resolve unit)) :=
      resolved_iff_timely place ⟨f, listed, named⟩ distinct names access denotes path.start
        (known bound)
    simp only [List.forall_mem_cons]
    refine ⟨⟨?_, ?_⟩, ?_⟩
    · rintro ⟨outer, bound⟩
      exact ⟨(own bound).mp outer, same.mp bound⟩
    · rintro ⟨outer, timely⟩
      exact ⟨(own (same.mpr timely)).mpr outer, same.mpr timely⟩
    · rintro ⟨outer, -⟩
      exact structOfExpr_of_resolved fields place listed named outer

private theorem TypePath.own_fields (path : TypePath unit e ty seen as) : ∀ a ∈ as,
    ∃ f ∈ a.struct.fields, f.name.name = a.field ∧ ∃ struct,
      (resolve unit).fields[a.position]? =
        some ⟨a.field, some a.struct.title, some f.name.span, struct⟩ := by
  induction path with
  | name => simp
  | index _ ih => exact ih
  | deref _ ih => exact ih
  | member _ _ place listed named ih =>
    refine List.forall_mem_cons.mpr ⟨?_, ih⟩
    obtain ⟨f, listed, named, entry⟩ := exists_own_field place ⟨_, listed, named⟩
    rw [unit.tables_scope, Scope.fieldInfo, named] at entry
    exact ⟨f, listed, named, _, entry⟩

end Main

section Search

/-- The first structure of a kind, with the items in front of it. -/
def findStruct (p : StructDef → Bool) : List Item → Option (List Item × StructDef)
  | [] => none
  | .struct d :: items =>
    if p d then some ([], d) else (findStruct p items).map fun r => (.struct d :: r.1, r.2)
  | item :: items => (findStruct p items).map fun r => (item :: r.1, r.2)

private theorem exists_of_findStruct {p : StructDef → Bool} {items ahead : List Item}
    {d : StructDef}
    (found : findStruct p items = some (ahead, d)) :
    p d ∧ ∃ behind, items = ahead ++ Item.struct d :: behind := by
  fun_induction findStruct p items generalizing ahead with
  | case1 => cases found
  | case2 d' items holds =>
    cases found
    exact ⟨holds, items, rfl⟩
  | case3 d' items _ ih =>
    obtain ⟨r, below, same⟩ := Option.map_eq_some_iff.mp found
    cases same
    obtain ⟨holds, behind, rfl⟩ := ih below
    exact ⟨holds, behind, rfl⟩
  | case4 item items _ ih =>
    obtain ⟨r, below, same⟩ := Option.map_eq_some_iff.mp found
    cases same
    obtain ⟨holds, behind, rfl⟩ := ih below
    exact ⟨holds, behind, rfl⟩

def Item.typedef? : Item → Option Typedef
  | typedef t => some t
  | _ => none

/-- The structure that the name of a type stands for, through so many aliases at most. -/
def denoted? (items : List Item) : Nat → TypeName → Option (List Item × StructDef)
  | _, .struct id => findStruct (fun d => d.tag.map Ident.name == some id.name) items
  | 0, .named id => findStruct (fun d => d.aka.map Ident.name == some id.name) items
  | n + 1, .named id =>
    findStruct (fun d => d.aka.map Ident.name == some id.name) items <|>
      ((items.filterMap Item.typedef?).find? fun t => t.aka.name == id.name).bind fun t =>
        denoted? items n t.ty.name

private theorem denotes_of_denoted? {items ahead : List Item} {n : Nat} {ty : TypeName}
    {d : StructDef}
    (found : denoted? items n ty = some (ahead, d)) :
    Denotes items ty d ∧ ∃ behind, items = ahead ++ Item.struct d :: behind := by
  have aka {id : Ident} (found : findStruct (fun d => d.aka.map Ident.name == some id.name) items =
      some (ahead, d)) :
      Denotes items (.named id) d ∧ ∃ behind, items = ahead ++ Item.struct d :: behind := by
    obtain ⟨named, behind, place⟩ := exists_of_findStruct found
    exact ⟨.aka (by simp [place]) (by simpa using named), behind, place⟩
  fun_induction denoted? items n ty with
  | case1 n id =>
    obtain ⟨tagged, behind, place⟩ := exists_of_findStruct found
    exact ⟨.tag (by simp [place]) (by simpa using tagged), behind, place⟩
  | case2 id => exact aka found
  | case3 n id ih =>
    cases direct : findStruct (fun d => d.aka.map Ident.name == some id.name) items with
    | some r =>
      rw [direct] at found
      exact aka (direct.trans found)
    | none =>
      rw [direct] at found
      obtain ⟨t, listed, below⟩ := Option.bind_eq_some_iff.mp found
      obtain ⟨denotes, place⟩ := ih t below
      have named : t.aka.name = id.name := by simpa using List.find?_some listed
      obtain ⟨item, member, is⟩ := List.mem_filterMap.mp (List.mem_of_find?_eq_some listed)
      cases item with
      | typedef t' =>
        cases is
        exact ⟨.typedef member named denotes, place⟩
      | _ => cases is

/-- The type of an expression and the accesses on its path, searched for. -/
def SourceUnit.path? (unit : SourceUnit) : Expr → Option (TypeSpec × List Item × List Access)
  | .name span n => do
    let i ← (resolve unit).varRef (.name span n)
    let v ← (resolve unit).vars[i]?
    let p ← unit.declarations.find? fun p => p.1 == ⟨v.name, v.span⟩
    return (p.2, unit.items, [])
  | .index _ base _ => unit.path? base
  | .unary _ .deref operand => unit.path? operand
  | .member span base field _ => do
    let r ← unit.path? base
    let s ← denoted? unit.items unit.items.length r.1.name
    let f ← s.2.fields.find? fun f => f.name.name == field.name
    return (f.ty, s.1 ++ [Item.struct s.2], ⟨span, field.name, s.1, s.2, r.2.1, r.1.name⟩ :: r.2.2)
  | _ => none

private theorem typePath_of_path? {unit : SourceUnit} {e : Expr} {ty : TypeSpec} {seen : List Item}
    {as : List Access} (found : unit.path? e = some (ty, seen, as)) :
    TypePath unit e ty seen as := by
  fun_induction SourceUnit.path? unit e generalizing ty seen as with
  | case1 span n =>
    obtain ⟨i, refers, found⟩ := Option.bind_eq_some_iff.mp found
    obtain ⟨v, entry, found⟩ := Option.bind_eq_some_iff.mp found
    obtain ⟨p, listed, found⟩ := Option.bind_eq_some_iff.mp found
    cases found
    have same : p.1 = ⟨v.name, v.span⟩ := by simpa using List.find?_some listed
    have declared : (⟨v.name, v.span⟩, p.2) ∈ unit.declarations :=
      same ▸ List.mem_of_find?_eq_some listed
    exact .name refers entry declared
  | case2 span base sub ih => exact .index (ih found)
  | case3 span operand ih => exact .deref (ih found)
  | case4 span base field arrow ih =>
    obtain ⟨r, inner, found⟩ := Option.bind_eq_some_iff.mp found
    obtain ⟨s, lookup, found⟩ := Option.bind_eq_some_iff.mp found
    obtain ⟨f, listed, found⟩ := Option.bind_eq_some_iff.mp found
    cases found
    obtain ⟨denotes, behind, place⟩ := denotes_of_denoted? lookup
    have named : f.name.name = field.name := by simpa using List.find?_some listed
    exact .member (ih inner) denotes place (List.mem_of_find?_eq_some listed) named
  | case5 => cases found

end Search

/-- In a file in which no name of a type is defined twice, and no field of a structure is, the member
accesses on the way to a variable or field are bound to the own fields of their structures exactly if
each of them is timely. -/
theorem accesses_resolved_iff (unit : SourceUnit) (distinct : unit.Distinct)
    (names : (typeNames unit.items).Nodup) (fields : unit.FieldsDistinct) (e : Expr)
    (inside : .expr e ∈ unit.nodes) (ty : TypeSpec) (seen : List Item) (as : List Access)
    (path : TypePath unit e ty seen as) :
    ((∀ a ∈ as, a.Resolved (resolve unit)) ↔ ∀ a ∈ as, a.Timely) ∧
      ∀ a ∈ as, ∃ f ∈ a.struct.fields, f.name.name = a.field ∧ ∃ struct,
        (resolve unit).fields[a.position]? =
          some ⟨a.field, some a.struct.title, some f.name.span, struct⟩ :=
  ⟨(path.resolved_iff distinct names fields inside).1, path.own_fields⟩

section Samples

/-- The structure and the field of an access, the position of that field, and the position that the
access is bound to. -/
structure AccessView where
  struct : String
  field : String
  position : Nat
  bound : Option Nat
deriving DecidableEq

def Access.view (r : Resolution) (a : Access) : AccessView :=
  ⟨a.struct.title, a.field, a.position, r.memberRefs.lookup a.span⟩

def SourceUnit.pathsView (unit : SourceUnit) : List (List AccessView) :=
  unit.members.filterMap fun e => (unit.path? e).map fun r => r.2.2.map (Access.view (resolve unit))

private theorem SourceUnit.exists_path {unit : SourceUnit} {view : List AccessView}
    (member : view ∈ unit.pathsView) : ∃ e ty seen as, .expr e ∈ unit.nodes ∧
      TypePath unit e ty seen as ∧ as.map (Access.view (resolve unit)) = view := by
  obtain ⟨e, access, found⟩ := List.mem_filterMap.mp member
  obtain ⟨⟨ty, seen, as⟩, path, same⟩ := Option.map_eq_some_iff.mp found
  exact ⟨e, ty, seen, as, mem_nodes_of_mem_members access, typePath_of_path? path, same⟩

/-- An alias that is defined behind its use, and a field of its own structure. -/
theorem accesses_resolved_iff_sample : ∃ unit e ty seen, ∃ as : List Access,
    (parse
    "struct C{int x;};struct B{struct B*n;int x;};void f(U**p){(*p)[0].n->x;}typedef struct B U;").unit =
      some unit ∧ unit.Distinct ∧ (typeNames unit.items).Nodup ∧ unit.FieldsDistinct ∧
    .expr e ∈ unit.nodes ∧ TypePath unit e ty seen as ∧
    as.map (Access.view (resolve unit)) = [⟨"B", "x", 2, some 2⟩, ⟨"B", "n", 1, some 1⟩] ∧
    (∀ a ∈ as, a.Resolved (resolve unit)) ∧ ∀ a ∈ as, a.Timely := by
  have view : ((parse
      "struct C{int x;};struct B{struct B*n;int x;};void f(U**p){(*p)[0].n->x;}typedef struct B U;").unit.any
      fun unit => (typeNames unit.items).Nodup ∧ unit.FieldsDistinct ∧ unit.pathsView =
        [[⟨"B", "x", 2, some 2⟩, ⟨"B", "n", 1, some 1⟩], [⟨"B", "n", 1, some 1⟩]]) = true := by
    decide +kernel
  obtain ⟨unit, parsed, view⟩ := (Option.any_eq_true _ _).mp view
  obtain ⟨names, fields, paths⟩ := of_decide_eq_true view
  have distinct := SourceUnit.distinct_of_parse parsed
  have listed : ([⟨"B", "x", 2, some 2⟩, ⟨"B", "n", 1, some 1⟩] : List AccessView) ∈
      unit.pathsView := by simp [paths]
  obtain ⟨e, ty, seen, as, inside, path, accesses⟩ := SourceUnit.exists_path listed
  have resolved : ∀ a ∈ as, a.Resolved (resolve unit) := by
    intro a member
    have own : a.view (resolve unit) ∈ as.map (Access.view (resolve unit)) :=
      List.mem_map_of_mem member
    rw [accesses] at own
    have same : ∀ v ∈ ([⟨"B", "x", 2, some 2⟩, ⟨"B", "n", 1, some 1⟩] : List AccessView),
        v.bound = some v.position := by simp
    exact same _ own
  have timely :=
    (accesses_resolved_iff unit distinct names fields e inside ty seen as path).1.mp resolved
  exact ⟨unit, e, ty, seen, as, parsed, distinct, names, fields, inside, path, accesses, resolved,
    timely⟩

/-- A field whose type is defined further down: the access behind it finds another structure. -/
theorem access_resolved_elsewhere : ∃ unit e ty seen a, ∃ as : List Access,
    (parse "struct A{struct B*b;};struct C{int x;};struct B{int x;};void f(struct A*a){a->b->x;}").unit =
      some unit ∧ unit.Distinct ∧ (typeNames unit.items).Nodup ∧ unit.FieldsDistinct ∧
    .expr e ∈ unit.nodes ∧ TypePath unit e ty seen (a :: as) ∧
    a.view (resolve unit) = ⟨"B", "x", 2, some 1⟩ ∧ ¬ a.Resolved (resolve unit) := by
  have view : ((parse
      "struct A{struct B*b;};struct C{int x;};struct B{int x;};void f(struct A*a){a->b->x;}").unit.any
      fun unit => (typeNames unit.items).Nodup ∧ unit.FieldsDistinct ∧ unit.pathsView =
        [[⟨"B", "x", 2, some 1⟩, ⟨"A", "b", 0, some 0⟩], [⟨"A", "b", 0, some 0⟩]]) = true := by
    decide +kernel
  obtain ⟨unit, parsed, view⟩ := (Option.any_eq_true _ _).mp view
  obtain ⟨names, fields, paths⟩ := of_decide_eq_true view
  have listed : ([⟨"B", "x", 2, some 1⟩, ⟨"A", "b", 0, some 0⟩] : List AccessView) ∈
      unit.pathsView := by simp [paths]
  obtain ⟨e, ty, seen, as, inside, path, accesses⟩ := SourceUnit.exists_path listed
  cases as with
  | nil => cases accesses
  | cons a as =>
    obtain ⟨first, -⟩ := List.cons.inj accesses
    refine ⟨unit, e, ty, seen, a, as, parsed, SourceUnit.distinct_of_parse parsed, names, fields,
      inside, path, first, ?_⟩
    obtain ⟨-, -, position, bound⟩ := AccessView.mk.inj first
    rw [Access.Resolved, position, bound]
    simp

end Samples

end Lockstep
