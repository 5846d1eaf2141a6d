import Lockstep.Proofs.Tree.Nodes
import Mathlib.Data.List.Infix
/-!
Where the names of a source file are declared and used, in the order in which they are read, and
which declaration a use stands for. A scope is the whole file, a function, a block or a counting
loop, and is known by the way to it from the top of the file. Of the declarations of its name that
are read before a use and whose scope is around it, the use stands for the one in the innermost
scope, and there for the latest.
-/

set_option autoImplicit false
set_option relaxedAutoImplicit false

namespace Lockstep

/-- A part of a source file by the way to it: which item, which statement inside it, and so on. -/
abbrev Place := List Nat

/-- A name is declared or used; the place is that of the innermost scope around it. -/
inductive Mention where
  | declared (scope : Place) (id : Ident)
  | used (scope : Place) (span : Span) (name : String)

namespace Mention

def scope : Mention → Place
  | declared scope _ | used scope _ _ => scope

def use? : Mention → Option (Span × String)
  | declared _ _ => none
  | used _ span name => some (span, name)

def declaration? : Mention → Option Ident
  | declared _ id => some id
  | used _ _ _ => none

def isDeclared : Mention → Bool
  | declared _ _ => true
  | used _ _ _ => false

def Declares (scope : Place) (name : String) (m : Mention) : Prop :=
  ∃ id, m = .declared scope id ∧ id.name = name

/-- The name is declared in a scope that is, or is around, the one given. -/
def Offers (scope : Place) (name : String) (m : Mention) : Prop :=
  m.Declares m.scope name ∧ m.scope <+: scope

end Mention

/-- Of the declarations that a use of the name in the scope could stand for, one is the choice
between those before and those after it: none is in a scope further in, nor a later one in its own
scope. -/
structure Chosen (scope : Place) (name : String) (early : List Mention) (outer : Place) (id : Ident)
    (late : List Mention) : Prop where
  named : id.name = name
  around : outer <+: scope
  innermost : ∀ m ∈ early, m.Offers scope name → m.scope <+: outer
  latest : ∀ m ∈ late, m.Offers scope name → m.scope <+: outer ∧ m.scope ≠ outer

/-- Behind all that was mentioned before, a use of the name in the scope stands for `id`. -/
def StandsFor (before : List Mention) (scope : Place) (name : String) (id : Ident) : Prop :=
  ∃ early outer late, before = early ++ .declared outer id :: late ∧
    Chosen scope name early outer id late

/-- The use of a name, if the expression is nothing but one. -/
def Expr.use? (scope : Place) : Expr → Option Mention
  | .name span n => some (.used scope span n)
  | _ => none

def Expr.mentions (scope : Place) (e : Expr) : List Mention := e.preorder.filterMap (use? scope)

def mentionsIn (scope : Place) (es : List Expr) : List Mention := es.flatMap (Expr.mentions scope)

def Declarator.mentions (scope : Place) (d : Declarator) : List Mention :=
  mentionsIn scope (d.dims.filterMap id) ++ .declared scope d.name :: mentionsIn scope d.init.toList

def Decl.mentions (scope : Place) (d : Decl) : List Mention :=
  d.declarators.flatMap (Declarator.mentions scope)

def ForInit.mentions (scope : Place) : ForInit → List Mention
  | decl d => d.mentions scope
  | expr _ e => e.mentions scope

namespace Stmt

mutual

/-- What is mentioned in a statement at `place`, the innermost scope around which is `scope`. Blocks
and counting loops are scopes of their own. -/
def mentions (scope place : Place) : Stmt → List Mention
  | compound _ body => mentionsAll place 0 body
  | decl _ d => d.mentions scope
  | expr _ e | caseLabel _ e => e.mentions scope
  | returnJump _ value => mentionsIn scope value.toList
  | ifThen _ cond t => cond.mentions scope ++ mentions scope (place ++ [0]) t
  | ifElse _ cond t e =>
    cond.mentions scope ++ (mentions scope (place ++ [0]) t ++ mentions scope (place ++ [1]) e)
  | forLoop _ init cond step body =>
    init.toList.flatMap (ForInit.mentions place) ++
      (mentionsIn place (cond.toList ++ step.toList) ++ mentions place (place ++ [0]) body)
  | whileLoop _ cond body | switch _ cond body =>
    cond.mentions scope ++ mentions scope (place ++ [0]) body
  | doLoop _ body cond => mentions scope (place ++ [0]) body ++ cond.mentions scope
  | defaultLabel _ | breakJump _ | continueJump _ | gotoJump _ _ | label _ _ | empty _ => []

/-- What is mentioned in the statements of a block, from the one at position `i` on. -/
def mentionsAll (block : Place) (i : Nat) : List Stmt → List Mention
  | [] => []
  | s :: ss => mentions block (block ++ [i]) s ++ mentionsAll block (i + 1) ss

end

end Stmt

/-- The parameters are declared in the scope of the function, and its body is a block inside it. -/
def Function.mentions (place : Place) (f : Function) : List Mention :=
  f.params.filterMap (fun p => p.name.map (.declared place)) ++
    f.body.toList.flatMap fun body => Stmt.mentionsAll (place ++ [0]) 0 body.stmts

/-- What is mentioned in an item of the file, the innermost scope around which is the file. -/
def Item.mentions (place : Place) : Item → List Mention
  | global d => d.mentions []
  | function f => f.mentions place
  | struct _ | typedef _ => []

/-- What is mentioned in the items from the one at position `i` on. -/
def mentionsFrom (i : Nat) : List Item → List Mention
  | [] => []
  | item :: items => item.mentions [i] ++ mentionsFrom (i + 1) items

/-- All names that are declared or used in a source file, in the order in which they are read. -/
def SourceUnit.mentions (unit : SourceUnit) : List Mention := mentionsFrom 0 unit.items

theorem mem_mentionsIn_scope {scope : Place} {es : List Expr} {m : Mention}
    (member : m ∈ mentionsIn scope es) : m.scope = scope := by
  obtain ⟨e, -, member⟩ := List.mem_flatMap.mp member
  obtain ⟨v, -, use⟩ := List.mem_filterMap.mp member
  cases v with
  | name span name =>
    rw [Expr.use?, Option.some.injEq] at use
    rw [← use]
    rfl
  | _ => cases use

theorem Expr.scope_of_mem_mentions {scope : Place} {e : Expr} {m : Mention}
    (member : m ∈ e.mentions scope) : m.scope = scope :=
  mem_mentionsIn_scope (List.mem_flatMap.mpr ⟨e, List.mem_singleton_self e, member⟩)

theorem Decl.scope_of_mem_mentions {scope : Place} {d : Decl} {m : Mention}
    (member : m ∈ d.mentions scope) : m.scope = scope := by
  obtain ⟨x, -, member⟩ := List.mem_flatMap.mp member
  rcases List.mem_append.mp member with bounds | member
  · exact mem_mentionsIn_scope bounds
  · rcases List.mem_cons.mp member with rfl | value
    · rfl
    · exact mem_mentionsIn_scope value

theorem ForInit.scope_of_mem_mentions {scope : Place} {i : ForInit} {m : Mention}
    (member : m ∈ i.mentions scope) : m.scope = scope := by
  cases i with
  | decl d => exact Decl.scope_of_mem_mentions member
  | expr span e => exact Expr.scope_of_mem_mentions member

namespace Stmt

private theorem prefix_of_child {place scope : Place} {i : Nat} (below : place ++ [i] <+: scope) :
    place <+: scope :=
  (List.prefix_append place [i]).trans below

mutual

theorem scope_of_mem_mentions {m : Mention} (scope place : Place) : (s : Stmt) →
    m ∈ s.mentions scope place → m.scope = scope ∨ place <+: m.scope
  | .compound _ body => fun member => .inr (scope_of_mem_mentionsAll place 0 body member)
  | .decl _ d => fun member => .inl (d.scope_of_mem_mentions member)
  | .expr _ e | .caseLabel _ e => fun member => .inl (e.scope_of_mem_mentions member)
  | .returnJump _ value => fun member => .inl (mem_mentionsIn_scope member)
  | .ifThen _ cond t | .whileLoop _ cond t | .switch _ cond t => fun member => by
    rcases List.mem_append.mp member with inCond | below
    · exact .inl (cond.scope_of_mem_mentions inCond)
    · exact (scope_of_mem_mentions scope (place ++ [0]) t below).imp_right prefix_of_child
  | .ifElse _ cond t e => fun member => by
    rcases List.mem_append.mp member with inCond | below
    · exact .inl (cond.scope_of_mem_mentions inCond)
    · rcases List.mem_append.mp below with below | below
      · exact (scope_of_mem_mentions scope (place ++ [0]) t below).imp_right prefix_of_child
      · exact (scope_of_mem_mentions scope (place ++ [1]) e below).imp_right prefix_of_child
  | .forLoop _ init cond step body => fun member => by
    have inside (own : m.scope = place) : place <+: m.scope := by
      rw [own]
    rcases List.mem_append.mp member with first | member
    · obtain ⟨i, -, first⟩ := List.mem_flatMap.mp first
      exact .inr (inside (i.scope_of_mem_mentions first))
    · rcases List.mem_append.mp member with head | below
      · exact .inr (inside (mem_mentionsIn_scope head))
      · rcases scope_of_mem_mentions place (place ++ [0]) body below with own | below
        · exact .inr (inside own)
        · exact .inr (prefix_of_child below)
  | .doLoop _ body cond => fun member => by
    rcases List.mem_append.mp member with below | inCond
    · exact (scope_of_mem_mentions scope (place ++ [0]) body below).imp_right prefix_of_child
    · exact .inl (cond.scope_of_mem_mentions inCond)
  | .defaultLabel _ | .breakJump _ | .continueJump _ | .gotoJump _ _ | .label _ _ | .empty _ =>
    fun member => by cases member

private theorem scope_of_mem_mentionsAll {m : Mention} (block : Place) (i : Nat) :
    (ss : List Stmt) →
    m ∈ mentionsAll block i ss → block <+: m.scope
  | [] => fun member => by cases member
  | s :: ss => fun member => by
    rcases List.mem_append.mp member with here | later
    · rcases scope_of_mem_mentions block (block ++ [i]) s here with own | below
      · rw [own]
      · exact prefix_of_child below
    · exact scope_of_mem_mentionsAll block (i + 1) ss later

end

end Stmt

theorem Function.scope_of_mem_mentions {f : Function} {place : Place} {m : Mention}
    (member : m ∈ f.mentions place) : place <+: m.scope := by
  rcases List.mem_append.mp member with param | inBody
  · obtain ⟨p, -, named⟩ := List.mem_filterMap.mp param
    obtain ⟨id, -, rfl⟩ := Option.map_eq_some_iff.mp named
    exact List.prefix_rfl
  · obtain ⟨body, -, inBody⟩ := List.mem_flatMap.mp inBody
    exact (List.prefix_append place [0]).trans
      (Stmt.scope_of_mem_mentionsAll (place ++ [0]) 0 body.stmts inBody)

theorem Item.scope_of_mem_mentions {item : Item} {place : Place} {m : Mention}
    (member : m ∈ item.mentions place) : m.scope = [] ∨ place <+: m.scope := by
  cases item with
  | global d => exact .inl (d.scope_of_mem_mentions member)
  | function f => exact .inr (f.scope_of_mem_mentions member)
  | struct d => cases member
  | typedef d => cases member

/-- The mentions use the names of those nodes and declare what those nodes declare. -/
structure Covers (ms : List Mention) (nodes : List Node) : Prop where
  uses : ms.filterMap Mention.use? = nodes.filterMap Node.name?
  declarations : ms.filterMap Mention.declaration? = nodes.flatMap Node.declares

namespace Covers

theorem nil : Covers [] [] := ⟨rfl, rfl⟩

theorem append {ms ms' : List Mention} {nodes nodes' : List Node} (first : Covers ms nodes)
    (second : Covers ms' nodes') : Covers (ms ++ ms') (nodes ++ nodes') := by
  refine ⟨?_, ?_⟩
  · rw [List.filterMap_append, List.filterMap_append, first.uses, second.uses]
  · rw [List.filterMap_append, List.flatMap_append, first.declarations, second.declarations]

theorem stmt {ms : List Mention} {nodes : List Node} {s : Stmt} (inside : Covers ms nodes)
    (silent : (Node.stmt s).declares = []) : Covers ms (.stmt s :: nodes) := by
  refine ⟨?_, ?_⟩
  · rw [inside.uses, List.filterMap_cons]
    rfl
  · rw [inside.declarations, List.flatMap_cons, silent, List.nil_append]

theorem expr (scope : Place) (e : Expr) : Covers (e.mentions scope) (e.preorder.map .expr) := by
  rw [Expr.mentions]
  refine ⟨?_, ?_⟩
  · rw [List.filterMap_filterMap, List.filterMap_map]
    refine List.filterMap_congr fun v _ => ?_
    cases v <;> rfl
  · have silent : ∀ n ∈ e.preorder.map Node.expr, n.declares = [] := by
      intro n member
      obtain ⟨v, -, rfl⟩ := List.mem_map.mp member
      rfl
    rw [List.flatMap_eq_nil_iff.mpr silent, List.filterMap_filterMap, List.filterMap_eq_nil_iff]
    intro v _
    cases v <;> rfl

theorem exprs (scope : Place) (es : List Expr) :
    Covers (mentionsIn scope es) (Stmt.exprNodes es) := by
  induction es with
  | nil => exact nil
  | cons e es ih => exact (expr scope e).append ih

end Covers

theorem Decl.mentions_covers (scope : Place) (d : Decl) :
    (d.mentions scope).filterMap Mention.use? = (Stmt.exprNodes d.exprs).filterMap Node.name? ∧
      (d.mentions scope).filterMap Mention.declaration? = d.declarators.map Declarator.name := by
  rw [Decl.mentions, Decl.exprs]
  induction d.declarators with
  | nil => exact ⟨rfl, rfl⟩
  | cons x xs ih =>
    have bounds := Covers.exprs scope (x.dims.filterMap id)
    have value := Covers.exprs scope x.init.toList
    have nodes : Stmt.exprNodes ((x :: xs).flatMap Declarator.exprs) =
        Stmt.exprNodes (x.dims.filterMap id) ++ (Stmt.exprNodes x.init.toList ++
          Stmt.exprNodes (xs.flatMap Declarator.exprs)) := by
      simp [Stmt.exprNodes, Declarator.exprs]
    rw [List.flatMap_cons, Declarator.mentions, List.append_assoc, List.cons_append]
    constructor
    · rw [nodes, List.filterMap_append, List.filterMap_append, List.filterMap_append,
        List.filterMap_cons_none rfl, List.filterMap_append, bounds.uses, value.uses, ih.1]
    · have declared : (Mention.declared scope x.name).declaration? = some x.name := rfl
      rw [List.filterMap_append, List.filterMap_cons_some declared, List.filterMap_append,
        bounds.declarations, value.declarations, Stmt.declares_exprNodes, Stmt.declares_exprNodes, ih.2]
      rfl

namespace Covers

theorem decl (scope : Place) (span : Span) (d : Decl) :
    Covers (d.mentions scope) (.stmt (.decl span d) :: Stmt.exprNodes d.exprs) := by
  obtain ⟨uses, declarations⟩ := d.mentions_covers scope
  refine ⟨uses, ?_⟩
  rw [declarations, List.flatMap_cons, Stmt.declares_exprNodes, List.append_nil]
  rfl

theorem forInit (scope : Place) (i : ForInit) :
    Covers (i.mentions scope) (.stmt i.toStmt :: Stmt.exprNodes i.exprs) := by
  cases i with
  | decl d => exact decl scope d.span d
  | expr span e =>
    have inside := exprs scope [e]
    simp only [mentionsIn, List.flatMap_singleton] at inside
    exact inside.stmt rfl

end Covers

namespace Stmt

private theorem covers_one (scope : Place) (e : Expr) :
    Covers (e.mentions scope) (exprNodes [e]) := by
  simpa [mentionsIn] using Covers.exprs scope [e]

mutual

theorem mentions_covers (scope place : Place) : (s : Stmt) →
    Covers (s.mentions scope place) s.preorder
  | .compound _ body => (mentionsAll_covers place 0 body).stmt rfl
  | .decl span d => .decl scope span d
  | .expr _ e | .caseLabel _ e => (covers_one scope e).stmt rfl
  | .returnJump _ value => (Covers.exprs scope value.toList).stmt rfl
  | .ifThen _ cond t | .whileLoop _ cond t | .switch _ cond t =>
    ((covers_one scope cond).append (mentions_covers scope (place ++ [0]) t)).stmt rfl
  | .ifElse _ cond t e =>
    ((covers_one scope cond).append ((mentions_covers scope (place ++ [0]) t).append
      (mentions_covers scope (place ++ [1]) e))).stmt rfl
  | .forLoop _ init cond step body => by
    have start : Covers (init.toList.flatMap (ForInit.mentions place))
        (init.toList.flatMap fun i => .stmt i.toStmt :: exprNodes i.exprs) := by
      cases init with
      | none => exact .nil
      | some i => simpa using Covers.forInit place i
    have rest := (Covers.exprs place (cond.toList ++ step.toList)).append
      (mentions_covers place (place ++ [0]) body)
    exact (start.append rest).stmt rfl
  | .doLoop _ body cond =>
    ((mentions_covers scope (place ++ [0]) body).append (covers_one scope cond)).stmt rfl
  | .defaultLabel _ | .breakJump _ | .continueJump _ | .gotoJump _ _ | .label _ _ | .empty _ =>
    Covers.nil.stmt rfl

private theorem mentionsAll_covers (block : Place) (i : Nat) : (ss : List Stmt) →
    Covers (mentionsAll block i ss) (preorderAll ss)
  | [] => .nil
  | s :: ss =>
    (mentions_covers block (block ++ [i]) s).append (mentionsAll_covers block (i + 1) ss)

end

end Stmt

theorem Item.mentions_covers (place : Place) (item : Item) :
    (item.mentions place).filterMap Mention.use? = item.nodes.filterMap Node.name? ∧
      (item.mentions place).filterMap Mention.declaration? = item.declares := by
  cases item with
  | global d => exact d.mentions_covers []
  | struct d => exact ⟨rfl, rfl⟩
  | typedef d => exact ⟨rfl, rfl⟩
  | function f =>
    have body : Covers (f.body.toList.flatMap fun b => Stmt.mentionsAll (place ++ [0]) 0 b.stmts)
        (f.body.toList.flatMap Block.nodes) := by
      cases f.body with
      | none => exact .nil
      | some b =>
        have inside := Stmt.mentionsAll_covers (place ++ [0]) 0 b.stmts
        simpa [Block.nodes, Stmt.preorderAll_eq_flatMap] using inside
    have params : (f.params.filterMap fun p => p.name.map (Mention.declared place)).filterMap
        Mention.use? = [] ∧ (f.params.filterMap fun p => p.name.map (Mention.declared place)).filterMap
        Mention.declaration? = f.params.filterMap Param.name := by
      rw [List.filterMap_filterMap, List.filterMap_filterMap]
      constructor
      · refine List.filterMap_eq_nil_iff.mpr fun p _ => ?_
        cases p.name <;> rfl
      · refine List.filterMap_congr fun p _ => ?_
        cases p.name <;> rfl
    simp only [mentions, Function.mentions, nodes, declares, List.filterMap_append, params,
      body.uses, body.declarations, List.nil_append, and_self]

/-- What is mentioned in a source file are its names, and what it declares. -/
theorem SourceUnit.mentions_covers (unit : SourceUnit) :
    unit.mentions.filterMap Mention.use? = unit.names ∧
      unit.mentions.filterMap Mention.declaration? = unit.declares := by
  have row (items : List Item) (i : Nat) :
      (mentionsFrom i items).filterMap Mention.use? =
          (items.flatMap Item.nodes).filterMap Node.name? ∧
        (mentionsFrom i items).filterMap Mention.declaration? = items.flatMap Item.declares := by
    induction items generalizing i with
    | nil => exact ⟨rfl, rfl⟩
    | cons item items ih =>
      obtain ⟨uses, declarations⟩ := item.mentions_covers [i]
      obtain ⟨uses', declarations'⟩ := ih (i + 1)
      simp [mentionsFrom, uses, declarations, uses', declarations']
  exact row unit.items 0

end Lockstep
