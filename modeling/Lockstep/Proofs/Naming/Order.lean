import Lockstep.Proofs.Naming.Lexical
import Lockstep.Proofs.Tree.Relocate
import Mathlib.Data.List.Nodup
/-!
Names and the order of items. Whether a name stands for a variable is decided by the declarations
around it in its own function and by the variables declared before that function at the top of the
file. So functions may change places with each other, and with variables of other names, and what
the names of functions stand for stays as it is.
-/

set_option autoImplicit false
set_option relaxedAutoImplicit false

namespace Lockstep

/-- A function of that name is declared in the file. -/
def SourceUnit.HasFunction (unit : SourceUnit) (n : String) : Prop :=
  ∃ f, .function f ∈ unit.items ∧ f.name.name = n

/-- Some declaration of a function of that name makes it a kernel. -/
def SourceUnit.HasKernel (unit : SourceUnit) (n : String) : Prop :=
  ∃ f, .function f ∈ unit.items ∧ f.name.name = n ∧ f.isKernel = true

def Item.globals : Item → List String
  | global d => d.declarators.map fun x => x.name.name
  | _ => []

/-- Neighbours change places, unless one of them declares a variable with the name of a function.
Two functions always may. -/
inductive Reordered (isFunction : String → Prop) : List Item → List Item → Prop where
  | refl (items : List Item) : Reordered isFunction items items
  | swap (x y : Item) (items : List Item) (free : ∀ n ∈ x.globals ++ y.globals, ¬ isFunction n) :
      Reordered isFunction (x :: y :: items) (y :: x :: items)
  | cons (item : Item) {items items' : List Item} (rest : Reordered isFunction items items') :
      Reordered isFunction (item :: items) (item :: items')
  | trans {first second third : List Item} (left : Reordered isFunction first second)
      (right : Reordered isFunction second third) : Reordered isFunction first third

theorem Reordered.perm {isFunction : String → Prop} {items items' : List Item}
    (reordered : Reordered isFunction items items') : items.Perm items' := by
  induction reordered with
  | refl items => exact .refl items
  | swap x y items => exact .swap _ _ items
  | cons item _ ih => exact .cons item ih
  | trans _ _ first second => exact .trans first second

namespace Mention

/-- The mention, in a part that stands at `place` and whose offsets are moved. -/
def moved (place : Place) (g : Nat → Nat) : Mention → Mention
  | declared scope id => declared (place ++ scope) (id.relocate g)
  | used scope span name => used (place ++ scope) (span.relocate g) name

private theorem scope_moved (place : Place) (g : Nat → Nat) (m : Mention) :
    (m.moved place g).scope = place ++ m.scope := by
  cases m <;> rfl

private theorem offers_moved_iff {place scope : Place} {g : Nat → Nat} {name : String}
    {m : Mention} :
    (m.moved place g).Offers (place ++ scope) name ↔ m.Offers scope name := by
  unfold Offers
  rw [scope_moved, List.prefix_append_right_inj]
  refine and_congr ?_ Iff.rfl
  cases m with
  | declared own id =>
    simp only [moved, Declares, Mention.scope, declared.injEq, true_and, exists_eq_left',
      Ident.name_relocate]
  | used own span n => simp [moved, Declares]

end Mention

section Moved

variable (p : Place) (g : Nat → Nat) (scope : Place)

private theorem Expr.preorder_relocate (e : Expr) :
    (e.relocate g).preorder = e.preorder.map (Expr.relocate g) := by
  induction e using Expr.children_induction with
  | step e ih =>
    rw [Expr.preorder_eq_cons, Expr.preorder_eq_cons e, Expr.children_relocate, List.flatMap_map,
      List.map_cons, List.map_flatMap, List.flatMap_congr ih]

private theorem Expr.mentions_moved (e : Expr) :
    (e.relocate g).mentions (p ++ scope) = (e.mentions scope).map (Mention.moved p g) := by
  rw [Expr.mentions, Expr.mentions, Expr.preorder_relocate, List.filterMap_map, List.map_filterMap]
  refine List.filterMap_congr fun v _ => ?_
  cases v <;> rfl

private theorem mentionsIn_moved (es : List Expr) :
    mentionsIn (p ++ scope) (es.map (Expr.relocate g)) =
      (mentionsIn scope es).map (Mention.moved p g) := by
  rw [mentionsIn, mentionsIn, List.map_flatMap, List.flatMap_map]
  exact List.flatMap_congr fun e _ => e.mentions_moved p g scope

private theorem mentionsIn_toList_moved (e : Option Expr) :
    mentionsIn (p ++ scope) (e.map (Expr.relocate g)).toList =
      (mentionsIn scope e.toList).map (Mention.moved p g) := by
  rw [Option.toList_map]
  exact mentionsIn_moved p g scope e.toList

private theorem Decl.mentions_moved (d : Decl) :
    (d.relocate g).mentions (p ++ scope) = (d.mentions scope).map (Mention.moved p g) := by
  rw [Decl.mentions, Decl.mentions, List.map_flatMap, Decl.relocate, List.flatMap_map]
  refine List.flatMap_congr fun x _ => ?_
  have bounds : (x.dims.map (Option.map (Expr.relocate g))).filterMap id =
      (x.dims.filterMap id).map (Expr.relocate g) := by
    rw [List.filterMap_map, List.map_filterMap]
    rfl
  rw [Declarator.mentions, Declarator.mentions, List.map_append, List.map_cons,
    ← mentionsIn_moved, ← mentionsIn_toList_moved, ← bounds]
  rfl

private theorem ForInit.mentions_moved (i : ForInit) :
    (i.relocate g).mentions (p ++ scope) = (i.mentions scope).map (Mention.moved p g) := by
  cases i with
  | decl d => exact d.mentions_moved p g scope
  | expr span e => exact e.mentions_moved p g scope

mutual

private theorem Stmt.mentions_moved (scope place : Place) : (s : Stmt) →
    (s.relocate g).mentions (p ++ scope) (p ++ place) =
      (s.mentions scope place).map (Mention.moved p g)
  | .compound _ body => Stmt.mentionsAll_moved place 0 body
  | .decl _ d => d.mentions_moved p g scope
  | .expr _ e | .caseLabel _ e => e.mentions_moved p g scope
  | .returnJump _ value => mentionsIn_toList_moved p g scope value
  | .ifThen _ cond t | .whileLoop _ cond t | .switch _ cond t => by
    rw [Stmt.relocate, Stmt.mentions, Stmt.mentions, List.map_append, cond.mentions_moved,
      List.append_assoc, Stmt.mentions_moved scope (place ++ [0]) t]
  | .ifElse _ cond t e => by
    rw [Stmt.relocate, Stmt.mentions, Stmt.mentions, List.map_append, List.map_append,
      cond.mentions_moved, List.append_assoc, List.append_assoc,
      Stmt.mentions_moved scope (place ++ [0]) t, Stmt.mentions_moved scope (place ++ [1]) e]
  | .forLoop _ init cond step body => by
    have head : mentionsIn (p ++ place) ((cond.map (Expr.relocate g)).toList ++
        (step.map (Expr.relocate g)).toList) =
        (mentionsIn place (cond.toList ++ step.toList)).map (Mention.moved p g) := by
      rw [Option.toList_map, Option.toList_map, ← List.map_append, mentionsIn_moved]
    have start : (init.map (ForInit.relocate g)).toList.flatMap (ForInit.mentions (p ++ place)) =
        (init.toList.flatMap (ForInit.mentions place)).map (Mention.moved p g) := by
      rw [Option.toList_map, List.flatMap_map, List.map_flatMap]
      exact List.flatMap_congr fun i _ => i.mentions_moved p g place
    rw [Stmt.relocate, Stmt.mentions, Stmt.mentions, List.map_append, List.map_append, start, head,
      List.append_assoc, Stmt.mentions_moved place (place ++ [0]) body]
  | .doLoop _ body cond => by
    rw [Stmt.relocate, Stmt.mentions, Stmt.mentions, List.map_append, cond.mentions_moved,
      List.append_assoc, Stmt.mentions_moved scope (place ++ [0]) body]
  | .defaultLabel _ | .breakJump _ | .continueJump _ | .gotoJump _ _ | .label _ _ | .empty _ => rfl

private theorem Stmt.mentionsAll_moved (block : Place) (i : Nat) : (ss : List Stmt) →
    Stmt.mentionsAll (p ++ block) i (Stmt.relocateAll g ss) =
      (Stmt.mentionsAll block i ss).map (Mention.moved p g)
  | [] => rfl
  | s :: ss => by
    rw [Stmt.relocateAll, Stmt.mentionsAll, Stmt.mentionsAll, List.map_append, List.append_assoc,
      Stmt.mentions_moved block (block ++ [i]) s, Stmt.mentionsAll_moved block (i + 1) ss]

end

private theorem Function.mentions_moved (f : Function) :
    (f.relocate g).mentions p = (f.mentions []).map (Mention.moved p g) := by
  have params : (f.params.map (Param.relocate g)).filterMap
        (fun x => x.name.map (Mention.declared p)) =
      (f.params.filterMap fun x => x.name.map (Mention.declared [])).map (Mention.moved p g) := by
    rw [List.filterMap_map, List.map_filterMap]
    refine List.filterMap_congr fun x _ => ?_
    cases named : x.name <;> simp [Param.relocate, named, Mention.moved]
  have body : (f.body.map (Block.relocate g)).toList.flatMap
        (fun b => Stmt.mentionsAll (p ++ [0]) 0 b.stmts) =
      (f.body.toList.flatMap fun b => Stmt.mentionsAll [0] 0 b.stmts).map (Mention.moved p g) := by
    rw [Option.toList_map, List.flatMap_map, List.map_flatMap]
    refine List.flatMap_congr fun b _ => ?_
    rw [Block.relocate, ← Stmt.relocateAll_eq_map]
    exact Stmt.mentionsAll_moved p g [0] 0 b.stmts
  rw [Function.mentions, Function.mentions, List.map_append, ← params]
  exact congrArg _ body

end Moved

/-- Behind variables of those names, the function uses the name where it stands for no variable. -/
def Function.Refers (globals : List String) (f : Function) (name : String) : Prop :=
  name ∉ globals ∧ ∃ before scope span after,
    f.mentions [] = before ++ .used scope span name :: after ∧ ∀ m ∈ before, ¬ m.Offers scope name

/-- Some function of that name refers to `callee`, behind variables of those names and the ones
that the items before it declare. -/
def RefersAmong (callee caller : String) : List String → List Item → Prop
  | _, [] => False
  | globals, item :: items =>
    (∃ f, item = .function f ∧ f.name.name = caller ∧ f.Refers globals callee) ∨
      RefersAmong callee caller (globals ++ item.globals) items

variable {callee caller name : String} {span : Span}

private theorem Function.refers_relocate_iff {g : Nat → Nat} {f : Function}
    {globals : List String} :
    (f.relocate g).Refers globals name ↔ f.Refers globals name := by
  have moved : (f.relocate g).mentions [] = (f.mentions []).map (Mention.moved [] g) :=
    f.mentions_moved [] g
  rw [Refers, Refers, moved]
  refine and_congr_right fun _ => ⟨?_, ?_⟩
  · rintro ⟨before', scope', span', after', split, free⟩
    obtain ⟨before, rest, whole, rfl, tail⟩ := List.map_eq_append_iff.mp split
    obtain ⟨use, after, rfl, same, rfl⟩ := List.map_eq_cons_iff.mp tail
    cases use with
    | declared scope id => cases same
    | used scope span n =>
      cases same
      refine ⟨before, scope, span, after, whole, fun m member offers => ?_⟩
      exact free _ (List.mem_map_of_mem member) (Mention.offers_moved_iff.mpr offers)
  · rintro ⟨before, scope, span, after, split, free⟩
    refine ⟨before.map (Mention.moved [] g), [] ++ scope, span.relocate g,
      after.map (Mention.moved [] g), by rw [split]; simp [Mention.moved], fun m member offers => ?_⟩
    obtain ⟨m, inside, rfl⟩ := List.mem_map.mp member
    exact free m inside (Mention.offers_moved_iff.mp offers)

private theorem Item.globals_relocate (g : Nat → Nat) (item : Item) :
    (item.relocate g).globals = item.globals := by
  cases item with
  | global d => simp [relocate, globals, Decl.relocate, Declarator.relocate, Function.comp_def]
  | _ => rfl

theorem refersAmong_relocate_iff {g : Nat → Nat} {globals : List String} (items : List Item) :
    RefersAmong callee caller globals (items.map (Item.relocate g)) ↔
      RefersAmong callee caller globals items := by
  induction items generalizing globals with
  | nil => exact Iff.rfl
  | cons item items ih =>
    rw [List.map_cons, RefersAmong, RefersAmong, Item.globals_relocate, ih]
    refine or_congr ?_ Iff.rfl
    cases item with
    | function f =>
      constructor
      · rintro ⟨h, same, named, refers⟩
        cases same
        exact ⟨f, rfl, named, Function.refers_relocate_iff.mp refers⟩
      · rintro ⟨h, same, named, refers⟩
        cases same
        exact ⟨f.relocate g, rfl, named, Function.refers_relocate_iff.mpr refers⟩
    | _ => simp [Item.relocate]

private theorem refersAmong_of_mem_iff {globals globals' : List String} {items : List Item}
    (same : callee ∈ globals ↔ callee ∈ globals') :
    RefersAmong callee caller globals items ↔ RefersAmong callee caller globals' items := by
  induction items generalizing globals globals' with
  | nil => exact Iff.rfl
  | cons item items ih =>
    refine or_congr ?_ (ih ?_)
    · simp only [Function.Refers, same]
    · simp only [List.mem_append, same]

theorem refersAmong_congr {isFunction : String → Prop} {items items' : List Item}
    (reordered : Reordered isFunction items items') (function : isFunction callee)
    (globals : List String) :
    RefersAmong callee caller globals items ↔ RefersAmong callee caller globals items' := by
  induction reordered generalizing globals with
  | refl items => exact Iff.rfl
  | swap x y items free =>
    -- Neither of the two declares a variable of that name, so both see the same ones.
    have absent (z : Item) (one : z = x ∨ z = y) : callee ∉ z.globals := by
      intro member
      refine free callee ?_ function
      rcases one with rfl | rfl
      · exact List.mem_append_left _ member
      · exact List.mem_append_right _ member
    have skip (z : Item) (one : z = x ∨ z = y) (globals : List String) (items : List Item) :
        RefersAmong callee caller (globals ++ z.globals) items ↔
          RefersAmong callee caller globals items :=
      refersAmong_of_mem_iff (by simp [absent z one])
    have own (z : Item) (one : z = x ∨ z = y) (f : Function) :
        f.Refers (globals ++ z.globals) callee ↔ f.Refers globals callee := by
      simp [Function.Refers, absent z one]
    simp only [RefersAmong, own x (.inl rfl), own y (.inr rfl), skip x (.inl rfl),
      skip y (.inr rfl)]
    exact or_left_comm
  | cons item _ ih => exact or_congr Iff.rfl (ih _)
  | trans _ _ first second => exact (first globals).trans (second globals)

theorem refersAmong_iff_exists {globals : List String} (items : List Item) :
    RefersAmong callee caller globals items ↔ ∃ early f late,
      items = early ++ .function f :: late ∧ f.name.name = caller ∧
        f.Refers (globals ++ early.flatMap Item.globals) callee := by
  induction items generalizing globals with
  | nil => simp [RefersAmong]
  | cons item items ih =>
    rw [RefersAmong, ih]
    constructor
    · rintro (⟨f, rfl, named, refers⟩ | ⟨early, f, late, rfl, named, refers⟩)
      · exact ⟨[], f, items, rfl, named, by simpa using refers⟩
      · exact ⟨item :: early, f, late, rfl, named, by simpa using refers⟩
    · rintro ⟨early, f, late, split, named, refers⟩
      cases early with
      | nil =>
        obtain ⟨rfl, rfl⟩ := List.cons.inj split
        exact .inl ⟨f, rfl, named, by simpa using refers⟩
      | cons first early =>
        obtain ⟨rfl, rfl⟩ := List.cons.inj split
        exact .inr ⟨early, f, late, rfl, named, by simpa using refers⟩

theorem Reordered.map_relocate {isFunction : String → Prop} {items items' : List Item}
    (g : Nat → Nat) (reordered : Reordered isFunction items items') :
    Reordered isFunction (items.map (Item.relocate g)) (items'.map (Item.relocate g)) := by
  induction reordered with
  | refl items => exact .refl _
  | swap x y items free =>
    refine .swap _ _ _ ?_
    rwa [Item.globals_relocate, Item.globals_relocate]
  | cons item _ ih => exact .cons _ ih
  | trans _ _ first second => exact .trans first second

private theorem offers_item_iff {i j : Nat} {item : Item} {scope : Place} (later : i < j)
    (within : [j] <+: scope) :
    (∃ m ∈ item.mentions [i], m.Offers scope name) ↔ name ∈ item.globals := by
  cases item with
  | function f =>
    refine iff_of_false ?_ (by simp [Item.globals])
    rintro ⟨m, member, -, around⟩
    have inside : [i] <+: scope := (f.scope_of_mem_mentions member).trans around
    have same := List.prefix_of_prefix_length_le inside within (by simp)
    have equal : i = j := by simpa using same.eq_of_length (by simp)
    omega
  | global d =>
    have declared := (d.mentions_covers []).2
    constructor
    · rintro ⟨m, member, ⟨id, same, rfl⟩, -⟩
      have known : id ∈ (d.mentions []).filterMap Mention.declaration? :=
        List.mem_filterMap.mpr ⟨m, member, by rw [same]; rfl⟩
      rw [declared] at known
      obtain ⟨x, inside, rfl⟩ := List.mem_map.mp known
      exact List.mem_map.mpr ⟨x, inside, rfl⟩
    · intro member
      obtain ⟨x, inside, rfl⟩ := List.mem_map.mp member
      have known : x.name ∈ (d.mentions []).filterMap Mention.declaration? := by
        rw [declared]
        exact List.mem_map_of_mem inside
      obtain ⟨m, member, named⟩ := List.mem_filterMap.mp known
      cases m with
      | used own span n => cases named
      | declared own id =>
        cases named
        have top : own = [] := d.scope_of_mem_mentions member
        subst top
        exact ⟨_, member, ⟨_, rfl, rfl⟩, List.nil_prefix⟩
  | struct d => simp [Item.mentions, Item.globals]
  | typedef d => simp [Item.mentions, Item.globals]

private theorem offers_mentionsFrom_iff {i j : Nat} {scope : Place} (items : List Item)
    (later : i + items.length ≤ j) (within : [j] <+: scope) :
    (∃ m ∈ mentionsFrom i items, m.Offers scope name) ↔ name ∈ items.flatMap Item.globals := by
  induction items generalizing i with
  | nil => simp [mentionsFrom]
  | cons item items ih =>
    rw [List.length_cons] at later
    have first : (∃ m ∈ item.mentions [i], m.Offers scope name) ↔ name ∈ item.globals :=
      offers_item_iff (by omega) within
    have others := ih (i := i + 1) (by omega)
    rw [List.flatMap_cons, List.mem_append, ← first, ← others, mentionsFrom]
    simp only [List.mem_append, or_and_right, exists_or]

private theorem mentionsFrom_append (i : Nat) (items items' : List Item) :
    mentionsFrom i (items ++ items') =
      mentionsFrom i items ++ mentionsFrom (i + items.length) items' := by
  induction items generalizing i with
  | nil => rfl
  | cons item items ih =>
    rw [List.cons_append, mentionsFrom, mentionsFrom, ih, List.append_assoc, List.length_cons]
    congr 3
    omega

namespace SourceUnit

variable {unit : SourceUnit} (distinct : (unit.names.map Prod.fst).Nodup)

include distinct

/-- A name inside a function leads nowhere exactly if no variable of the whole file declared before
the function has it, and nothing that the function mentions before it is offered to it. -/
private theorem lookup_eq_none_iff_of_split {early late : List Item} {f : Function}
    {before after : List Mention} {scope : Place}
    (items : unit.items = early ++ .function f :: late)
    (split : f.mentions [] = before ++ .used scope span name :: after) :
    (resolve unit).varRefs.lookup span = none ↔
      name ∉ early.flatMap Item.globals ∧ ∀ m ∈ before, ¬ m.Offers scope name := by
  have shifted : f.mentions [early.length] =
      before.map (Mention.moved [early.length] id) ++
        .used ([early.length] ++ scope) span name ::
          after.map (Mention.moved [early.length] id) := by
    have moved := f.mentions_moved [early.length] id
    rw [Function.relocate_id, split, List.map_append, List.map_cons] at moved
    exact moved
  have whole : unit.mentions =
      (mentionsFrom 0 early ++ before.map (Mention.moved [early.length] id)) ++
        .used ([early.length] ++ scope) span name ::
          (after.map (Mention.moved [early.length] id) ++
            mentionsFrom (early.length + 1) late) := by
    rw [mentions, items, mentionsFrom_append, mentionsFrom, Item.mentions, Nat.zero_add, shifted]
    simp
  have outside : (∃ m ∈ mentionsFrom 0 early, m.Offers ([early.length] ++ scope) name) ↔
      name ∈ early.flatMap Item.globals :=
    offers_mentionsFrom_iff early (by omega) (List.prefix_append _ _)
  rw [lookup_varRefs_eq_none_iff distinct whole, ← outside]
  constructor
  · intro free
    refine ⟨?_, fun m member offers => ?_⟩
    · rintro ⟨m, member, offers⟩
      exact free m (List.mem_append_left _ member) offers
    · exact free _ (List.mem_append_right _ (List.mem_map_of_mem member))
        (Mention.offers_moved_iff.mpr offers)
  · rintro ⟨absent, free⟩ m member offers
    rcases List.mem_append.mp member with old | new
    · exact absent ⟨m, old, offers⟩
    · obtain ⟨m, inside, rfl⟩ := List.mem_map.mp new
      exact free m inside (Mention.offers_moved_iff.mp offers)

/-- A function refers to the names inside it that lead nowhere. -/
theorem refers_iff_exists_name {early late : List Item} {f : Function}
    (items : unit.items = early ++ .function f :: late) :
    f.Refers (early.flatMap Item.globals) name ↔
      ∃ span, (span, name) ∈ (Item.function f).nodes.filterMap Node.name? ∧
        (resolve unit).varRefs.lookup span = none := by
  have uses := ((Item.function f).mentions_covers []).1
  rw [← uses, Item.mentions]
  constructor
  · rintro ⟨absent, before, scope, span, after, split, free⟩
    refine ⟨span, List.mem_filterMap.mpr ⟨.used scope span name, by rw [split]; simp, rfl⟩, ?_⟩
    exact (lookup_eq_none_iff_of_split distinct items split).mpr ⟨absent, free⟩
  · rintro ⟨span, member, unbound⟩
    obtain ⟨m, inside, same⟩ := List.mem_filterMap.mp member
    cases m with
    | declared scope id => cases same
    | used scope span n =>
      cases same
      obtain ⟨before, after, split⟩ := List.append_of_mem inside
      obtain ⟨absent, free⟩ := (lookup_eq_none_iff_of_split distinct items split).mp unbound
      exact ⟨absent, before, scope, span, after, split, free⟩

end SourceUnit

def Function.info (f : Function) (number : Nat) : FunctionInfo :=
  ⟨number, f.name.name, f.name.span, f.isKernel, f.body.isSome⟩

def FunctionInfo.add (g : FunctionInfo) (f : Function) : FunctionInfo :=
  { g with isKernel := g.isKernel || f.isKernel, hasBody := g.hasBody || f.body.isSome }

namespace Scope

private theorem functions_act (s : Scope) (a : Action) :
    (s.act a).tables.functions = s.tables.functions := by
  obtain ⟨id, ty, -, same⟩ | ⟨span, n, i, -, same⟩ |
    ⟨span, base, field, arrow, fields, i, -, same⟩ | ⟨-, -, same⟩ := s.act_cases a
  · rw [same]
    rfl
  · rw [same]
  · rw [same]
  · rw [same]

private theorem functions_addField (index : Nat) (owner : String) (fs : List Field) (s : Scope) :
    (fs.foldl (addField index owner) s).tables.functions = s.tables.functions := by
  induction fs generalizing s with
  | nil => rfl
  | cons f fs ih => exact ih (addField index owner s f)

section Gathering

variable {p : FunctionInfo → Bool}
  (unnumbered : ∀ (f : Function) (i : Nat), p (f.info i) = p (f.info 0))
  (gathers : ∀ (g : FunctionInfo) (f : Function), g.name = f.name.name →
    p (g.add f) = (p g || p (f.info 0)))

include unnumbered gathers

private theorem any_addFunction (s : Scope) (f : Function) :
    (s.addFunction f).tables.functions.any p = (s.tables.functions.any p || p (f.info 0)) := by
  simp only [addFunction]
  split
  · rename_i known
    obtain ⟨g, member, named⟩ := List.any_eq_true.mp known
    have entry (h : FunctionInfo) : (p (if h.name == f.name.name then h.add f else h)) = true ↔
        p h = true ∨ h.name = f.name.name ∧ p (f.info 0) = true := by
      split
      · rename_i same
        rw [gathers h f (eq_of_beq same), Bool.or_eq_true]
        simp [eq_of_beq same]
      · rename_i other
        simp [ne_of_beq_false (Bool.eq_false_iff.mpr other)]
    rw [List.any_map, Bool.eq_iff_iff, Bool.or_eq_true, List.any_eq_true, List.any_eq_true]
    constructor
    · rintro ⟨h, inside, holds⟩
      rcases (entry h).mp holds with own | ⟨_, added⟩
      · exact .inl ⟨h, inside, own⟩
      · exact .inr added
    · rintro (⟨h, inside, own⟩ | added)
      · exact ⟨h, inside, (entry h).mpr (.inl own)⟩
      · exact ⟨g, member, (entry g).mpr (.inr ⟨eq_of_beq named, added⟩)⟩
  · rw [List.any_append, ← unnumbered f (s.counters.next .function)]
    simp [Function.info]

private theorem any_collect (items : List Item) (s : Scope) :
    (items.foldl collect s).tables.functions.any p = true ↔
      s.tables.functions.any p = true ∨ ∃ f, .function f ∈ items ∧ p (f.info 0) = true := by
  induction items generalizing s with
  | nil => simp
  | cons item items ih =>
    rw [List.foldl_cons, ih]
    cases item with
    | function f =>
      rw [collect, any_addFunction unnumbered gathers, Bool.or_eq_true, or_assoc]
      refine or_congr Iff.rfl ?_
      constructor
      · rintro (own | ⟨g, member, holds⟩)
        · exact ⟨f, List.mem_cons_self, own⟩
        · exact ⟨g, List.mem_cons_of_mem _ member, holds⟩
      · rintro ⟨g, member, holds⟩
        rcases List.mem_cons.mp member with same | later
        · cases same
          exact .inl holds
        · exact .inr ⟨g, later, holds⟩
    | struct d =>
      have kept : (s.collect (.struct d)).tables.functions = s.tables.functions :=
        functions_addField _ _ _ _
      rw [kept]
      simp
    | typedef d =>
      have kept : (s.collect (.typedef d)).tables.functions = s.tables.functions := by
        simp only [collect]
        split <;> rfl
      rw [kept]
      simp
    | global d => simp [collect]

end Gathering

end Scope

namespace Resolution

private theorem functions_resolve (unit : SourceUnit) :
    (resolve unit).functions = (unit.items.foldl Scope.collect {}).tables.functions := by
  rw [resolve_eq]
  exact Scope.keeps_of_act (fun s a same => (s.functions_act a).trans same) unit.actions _ rfl

theorem any_functions_iff (unit : SourceUnit) (n : String) :
    (resolve unit).functions.any (fun g => g.name == n) = true ↔ unit.HasFunction n := by
  have named (g : FunctionInfo) (f : Function) (same : g.name = f.name.name) :
      ((g.add f).name == n) = (g.name == n || (f.info 0).name == n) := by
    simp [FunctionInfo.add, Function.info, same]
  rw [functions_resolve, Scope.any_collect (fun _ _ => rfl) named]
  simp [SourceUnit.HasFunction, Function.info]

theorem any_kernels_iff (unit : SourceUnit) (n : String) :
    (resolve unit).functions.any (fun g => g.name == n && g.isKernel) = true ↔
      unit.HasKernel n := by
  have marked (g : FunctionInfo) (f : Function) (same : g.name = f.name.name) :
      ((g.add f).name == n && (g.add f).isKernel) =
        ((g.name == n && g.isKernel) || ((f.info 0).name == n && (f.info 0).isKernel)) := by
    simp [FunctionInfo.add, Function.info, same, Bool.and_or_distrib_left]
  rw [functions_resolve, Scope.any_collect (fun _ _ => rfl) marked]
  simp [SourceUnit.HasKernel, Function.info]

end Resolution

end Lockstep
