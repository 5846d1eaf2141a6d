import Lockstep.Proofs.Naming.Levels
import Lockstep.Proofs.Naming.Numbering
/-!
Names are resolved lexically. While a file is read, the open scopes are those around the current
place, and each level of visible variables holds what was declared in its scope so far. What is
entered for a name is therefore the declaration that its use stands for.
-/

set_option autoImplicit false
set_option relaxedAutoImplicit false

namespace Lockstep

/-- A statement at `place` is about to be read, in the innermost open scope `scope`: the open scopes
are those around it, and nothing inside it was mentioned yet. -/
structure Ahead (opens : List Place) (scope place : Place) (past : List Mention) : Prop where
  current : ∃ outer, opens = scope :: outer
  nested : opens.Pairwise fun inner outer => outer <+: inner ∧ outer ≠ inner
  below : scope <+: place
  strict : scope ≠ place
  complete : ∀ m ∈ past, m.scope <+: place → m.scope ∈ opens
  fresh : ∀ m ∈ past, ¬ place <+: m.scope

def Apart (p q : Place) : Prop := ¬ p <+: q ∧ ¬ q <+: p

private theorem apart_of_ne (p : Place) {i j : Nat} (different : i ≠ j) :
    Apart (p ++ [i]) (p ++ [j]) := by
  have unequal {i j : Nat} (different : i ≠ j) : ¬ p ++ [i] <+: p ++ [j] := by
    intro within
    have same := within.eq_of_length (by simp)
    exact different (by simpa using same)
  exact ⟨unequal different, unequal different.symm⟩

namespace Ahead

variable {opens : List Place} {scope place : Place} {past : List Mention}

theorem surrounds (ahead : Ahead opens scope place past) : Surrounds opens scope past where
  current := ahead.current
  nested := ahead.nested
  complete := fun m member around => ahead.complete m member (around.trans ahead.below)

theorem part (ahead : Ahead opens scope place past) (i : Nat) :
    Ahead opens scope (place ++ [i]) past where
  current := ahead.current
  nested := ahead.nested
  below := ahead.below.trans (List.prefix_append place [i])
  strict := by
    rintro rfl
    have longer := ahead.below.length_le
    simp only [List.length_append, List.length_cons, List.length_nil] at longer
    omega
  complete := by
    intro m member around
    rcases List.prefix_concat_iff.mp around with same | around
    · exact absurd (same ▸ List.prefix_append place [i]) (ahead.fresh m member)
    · exact ahead.complete m member around
  fresh := fun m member inside =>
    ahead.fresh m member ((List.prefix_append place [i]).trans inside)

theorem enter (ahead : Ahead opens scope place past) (i : Nat) :
    Ahead (place :: opens) place (place ++ [i]) past where
  current := ⟨opens, rfl⟩
  nested := by
    refine List.pairwise_cons.mpr ⟨fun p member => ?_, ahead.nested⟩
    have around := ahead.surrounds.prefix_of_mem member
    refine ⟨around.trans ahead.below, ?_⟩
    rintro rfl
    exact ahead.strict (ahead.below.eq_of_length
      (Nat.le_antisymm ahead.below.length_le around.length_le))
  below := List.prefix_append place [i]
  strict := by simp
  complete := fun m member around =>
    List.mem_cons_of_mem place ((ahead.part i).complete m member around)
  fresh := (ahead.part i).fresh

theorem append (ahead : Ahead opens scope place past) (new : List Mention)
    (elsewhere : ∀ m ∈ new, m.scope = scope ∨ ∃ q, Apart q place ∧ q <+: m.scope) :
    Ahead opens scope place (new.reverse ++ past) where
  current := ahead.current
  nested := ahead.nested
  below := ahead.below
  strict := ahead.strict
  complete := by
    intro m member around
    rcases List.mem_append.mp member with fresh | old
    · rcases elsewhere m (List.mem_reverse.mp fresh) with own | ⟨q, apart, inside⟩
      · obtain ⟨outer, rfl⟩ := ahead.current
        rw [own]
        exact List.mem_cons_self
      · exact absurd (inside.trans around) apart.1
    · exact ahead.complete m old around
  fresh := by
    intro m member within
    rcases List.mem_append.mp member with fresh | old
    · rcases elsewhere m (List.mem_reverse.mp fresh) with own | ⟨q, apart, inside⟩
      · rw [own] at within
        exact ahead.strict (ahead.below.eq_of_length
          (Nat.le_antisymm ahead.below.length_le within.length_le))
      · rcases List.prefix_or_prefix_of_prefix inside within with first | second
        · exact apart.1 first
        · exact apart.2 second
    · exact ahead.fresh m old within

end Ahead

/-- In mentions with the newest first, the name at `span` stands for the declaration at
position `i`. -/
def Refers (past : List Mention) (span : Span) (i : Nat) : Prop :=
  ∃ newer scope name older, past = newer ++ .used scope span name :: older ∧
    StandsAt older scope name i

private theorem not_refers_nil (span : Span) (i : Nat) : ¬ Refers [] span i := by
  rintro ⟨newer, scope, name, older, split, -⟩
  simp at split

private theorem refers_cons_iff (m : Mention) (past : List Mention) (span : Span) (i : Nat) :
    Refers (m :: past) span i ↔
      (∃ scope name, m = .used scope span name ∧ StandsAt past scope name i) ∨
        Refers past span i := by
  constructor
  · rintro ⟨newer, scope, name, older, split, stands⟩
    cases newer with
    | nil =>
      obtain ⟨rfl, rfl⟩ := List.cons.inj split
      exact .inl ⟨scope, name, rfl, stands⟩
    | cons m' newer =>
      obtain ⟨-, rfl⟩ := List.cons.inj split
      exact .inr ⟨newer, scope, name, older, rfl, stands⟩
  · rintro (⟨scope, name, rfl, stands⟩ | ⟨newer, scope, name, older, rfl, stands⟩)
    · exact ⟨[], scope, name, past, rfl, stands⟩
    · exact ⟨m :: newer, scope, name, older, rfl, stands⟩

private theorem Expr.mentions_eq (scope : Place) (e : Expr) :
    e.mentions scope = (e.use? scope).toList ++ e.children.flatMap (Expr.mentions scope) := by
  rw [Expr.mentions, Expr.preorder_eq_cons, List.filterMap_cons, List.filterMap_flatMap]
  cases e.use? scope <;> rfl

private theorem Expr.postorder_uses (scope : Place) (e : Expr) :
    e.postorder.filterMap (Expr.use? scope) = e.mentions scope := by
  induction e using Expr.children_induction with
  | step e ih =>
    rw [Expr.postorder_eq, Expr.mentions_eq, List.filterMap_append, List.filterMap_flatMap,
      List.flatMap_congr ih]
    cases e with
    | name span n => rfl
    | _ => simp [Expr.use?]

/-- The tables and levels are what was mentioned so far, with the newest first, makes them. -/
structure Tracks (s : Scope) (past : List Mention) (opens : List Place) : Prop where
  levels : s.levels = opens.map fun p => level p past
  count : s.counters.next .var = declCount past
  vars : s.tables.vars.map (fun v => ⟨v.name, v.span⟩) = past.reverse.filterMap Mention.declaration?
  decls : s.tables.varDecls = declTable past
  refs : ∀ span i, (span, i) ∈ s.tables.varRefs ↔ Refers past span i

namespace Tracks

variable {s : Scope} {past : List Mention} {opens : List Place} {scope place : Place}

private theorem find?_iff (tracks : Tracks s past opens) (surrounds : Surrounds opens scope past)
    (name : String) (i : Nat) : s.find? name = some i ↔ StandsAt past scope name i := by
  rw [Scope.find?, tracks.levels, List.findSome?_map]
  exact surrounds.findSome?_level_iff name i

theorem enter (tracks : Tracks s past opens) (fresh : ∀ m ∈ past, m.scope ≠ place) :
    Tracks s.enter past (place :: opens) where
  levels := by
    have nothing : level place past = [] := by
      clear tracks
      induction past with
      | nil => rfl
      | cons m past ih =>
        obtain ⟨other, older⟩ := List.forall_mem_cons.mp fresh
        cases m with
        | declared own id => simpa [level, show own ≠ place from other] using ih older
        | used own span n => simpa [level] using ih older
    simp [Scope.enter, tracks.levels, nothing]
  count := tracks.count
  vars := tracks.vars
  decls := tracks.decls
  refs := tracks.refs

theorem leave (tracks : Tracks s past (place :: opens)) : Tracks s.leave past opens where
  levels := by simp [Scope.leave, tracks.levels]
  count := tracks.count
  vars := tracks.vars
  decls := tracks.decls
  refs := tracks.refs

theorem declare (tracks : Tracks s past opens) (surrounds : Surrounds opens scope past) (id : Ident)
    (ty : TypeSpec) : Tracks (s.declare id ty) (.declared scope id :: past) opens where
  levels := by
    obtain ⟨outer, rfl⟩ := surrounds.current
    have others : outer.map (fun p => level p (.declared scope id :: past)) =
        outer.map fun p => level p past := by
      refine List.map_congr_left fun p member => ?_
      have other := ((List.pairwise_cons.mp surrounds.nested).1 p member).2
      simp [level, Ne.symm other]
    simp only [Scope.declare, tracks.levels, List.map_cons, others, tracks.count]
    simp [level]
  count := by simp [Scope.declare, tracks.count, declCount, List.countP_cons, Mention.isDeclared]
  vars := by
    simp [Scope.declare, tracks.vars, Mention.declaration?]
  decls := by
    simp [Scope.declare, tracks.decls, tracks.count, declTable]
  refs := by
    intro span i
    rw [refers_cons_iff]
    simpa [Scope.declare] using tracks.refs span i

private theorem of_tables {t : Scope} (tracks : Tracks s past opens) (levels : t.levels = s.levels)
    (count : t.counters.next .var = s.counters.next .var) (vars : t.tables.vars = s.tables.vars)
    (varDecls : t.tables.varDecls = s.tables.varDecls)
    (varRefs : t.tables.varRefs = s.tables.varRefs) : Tracks t past opens where
  levels := levels.trans tracks.levels
  count := count.trans tracks.count
  vars := by rw [vars, tracks.vars]
  decls := varDecls.trans tracks.decls
  refs := by
    rw [varRefs]
    exact tracks.refs

private theorem use (tracks : Tracks s past opens) (surrounds : Surrounds opens scope past)
    (span : Span) (name : String) :
    Tracks (s.visit (.name span name)) (.used scope span name :: past) opens := by
  have stands := tracks.find?_iff surrounds name
  have visited : s.visit (.name span name) = { s with tables := { s.tables with
      varRefs := (s.find? name).toList.map (span, ·) ++ s.tables.varRefs } } := by
    cases found : s.find? name <;> simp [Scope.visit, found]
  rw [visited]
  refine ⟨?_, ?_, ?_, ?_, fun span' i => ?_⟩
  · simp [tracks.levels, level]
  · simp [tracks.count, declCount, Mention.isDeclared]
  · simp [tracks.vars, Mention.declaration?]
  · simp [tracks.decls, declTable]
  · rw [refers_cons_iff, List.mem_append, tracks.refs]
    refine or_congr ?_ Iff.rfl
    constructor
    · intro here
      obtain ⟨position, found, same⟩ := List.mem_map.mp here
      obtain ⟨rfl, rfl⟩ := Prod.mk.inj same
      exact ⟨scope, name, rfl, (stands _).mp (Option.mem_toList.mp found)⟩
    · rintro ⟨scope', name', same, here⟩
      cases same
      exact List.mem_map.mpr ⟨i, Option.mem_toList.mpr ((stands i).mpr here), rfl⟩

private theorem visit (tracks : Tracks s past opens) (surrounds : Surrounds opens scope past)
    (e : Expr) : Tracks (s.visit e) ((e.use? scope).toList ++ past) opens := by
  cases e with
  | name span n => exact tracks.use surrounds span n
  | member span base field arrow =>
    rw [Scope.visit]
    rcases s.bindMember_cases span base field.name with ⟨i, -, same⟩ | ⟨-, same⟩
    · rw [same]
      exact tracks.of_tables rfl rfl rfl rfl rfl
    · rw [same]
      exact tracks.of_tables rfl rfl rfl rfl rfl
  | _ => exact tracks

private theorem visitAll (es : List Expr) (tracks : Tracks s past opens)
    (surrounds : Surrounds opens scope past) :
    Tracks (es.foldl Scope.visit s) ((es.filterMap (Expr.use? scope)).reverse ++ past) opens := by
  induction es generalizing s past with
  | nil => exact tracks
  | cons e es ih =>
    have visited := tracks.visit surrounds e
    rw [List.foldl_cons]
    cases use : e.use? scope with
    | none =>
      rw [use] at visited
      simpa [use] using ih visited surrounds
    | some m =>
      have own : m.scope = scope := by
        refine e.scope_of_mem_mentions ?_
        rw [Expr.mentions_eq, use]
        exact List.mem_cons_self
      rw [use] at visited
      simpa [use] using ih visited (surrounds.append [m] (by simpa using own))

theorem expr (tracks : Tracks s past opens) (surrounds : Surrounds opens scope past) (e : Expr) :
    Tracks (s.resolveExpr e) ((e.mentions scope).reverse ++ past) opens := by
  rw [← Expr.postorder_uses]
  exact visitAll e.postorder tracks surrounds

theorem exprs (es : List Expr) (tracks : Tracks s past opens)
    (surrounds : Surrounds opens scope past) :
    Tracks (s.resolveExprs es) ((mentionsIn scope es).reverse ++ past) opens := by
  induction es generalizing s past with
  | nil => exact tracks
  | cons e es ih =>
    have around := surrounds.append (e.mentions scope) fun _ => e.scope_of_mem_mentions
    have rest := ih (tracks.expr surrounds e) around
    have both : mentionsIn scope (e :: es) = e.mentions scope ++ mentionsIn scope es := rfl
    rw [both, List.reverse_append, List.append_assoc]
    exact rest

private theorem declarators (ty : TypeSpec) (ds : List Declarator) (tracks : Tracks s past opens)
    (surrounds : Surrounds opens scope past) :
    Tracks (ds.foldl (fun s x =>
        ((s.resolveExprs (x.dims.filterMap id)).declare x.name ty).resolveExprs x.init.toList) s)
      ((ds.flatMap (Declarator.mentions scope)).reverse ++ past) opens := by
  induction ds generalizing s past with
  | nil => exact tracks
  | cons d ds ih =>
    have inBounds := surrounds.append (mentionsIn scope (d.dims.filterMap id)) fun _ =>
      mem_mentionsIn_scope
    have named := inBounds.append [.declared scope d.name] (by simp [Mention.scope])
    have inValue := named.append (mentionsIn scope d.init.toList) fun _ => mem_mentionsIn_scope
    have declared := (tracks.exprs (d.dims.filterMap id) surrounds).declare inBounds d.name ty
    have rest := ih (declared.exprs d.init.toList named) inValue
    simpa [Declarator.mentions] using rest

theorem decl (tracks : Tracks s past opens) (surrounds : Surrounds opens scope past) (d : Decl) :
    Tracks (s.resolveDecl d) ((d.mentions scope).reverse ++ past) opens :=
  declarators d.ty d.declarators tracks surrounds

theorem forInit (tracks : Tracks s past opens) (surrounds : Surrounds opens scope past)
    (i : ForInit) : Tracks (s.resolveForInit i) ((i.mentions scope).reverse ++ past) opens := by
  cases i with
  | decl d => exact tracks.decl surrounds d
  | expr span e => exact tracks.expr surrounds e

private theorem ahead_of_part {i j : Nat} (ahead : Ahead opens scope place past) (x : Stmt)
    (different : i ≠ j) : Ahead opens scope (place ++ [j])
      ((x.mentions scope (place ++ [i])).reverse ++ past) := by
  refine (ahead.part j).append _ fun m member => ?_
  refine (Stmt.scope_of_mem_mentions scope (place ++ [i]) x member).imp_right fun inside => ?_
  exact ⟨place ++ [i], apart_of_ne place different, inside⟩

private theorem fresh_of_ahead (ahead : Ahead opens scope place past) :
    ∀ m ∈ past, m.scope ≠ place := by
  rintro m member rfl
  exact ahead.fresh m member List.prefix_rfl

private theorem ahead_of_exprs (ahead : Ahead opens scope place past) (es : List Expr) :
    Ahead opens scope place ((mentionsIn scope es).reverse ++ past) :=
  ahead.append _ fun _ member => .inl (mem_mentionsIn_scope member)

mutual

theorem stmt (s : Scope) (past : List Mention) (opens : List Place) (scope place : Place) :
    (x : Stmt) → Tracks s past opens → Ahead opens scope place past →
      Tracks (s.resolveStmt x) ((x.mentions scope place).reverse ++ past) opens
  | .compound _ body => fun tracks ahead => by
    have opened : Tracks s.enter past (place :: opens) := tracks.enter (fresh_of_ahead ahead)
    have read := stmts s.enter past (place :: opens) place 0 body opened fun j _ => ahead.enter j
    exact read.leave
  | .decl _ d => fun tracks ahead => tracks.decl ahead.surrounds d
  | .expr _ e | .caseLabel _ e => fun tracks ahead => tracks.expr ahead.surrounds e
  | .returnJump _ value => fun tracks ahead => tracks.exprs value.toList ahead.surrounds
  | .ifThen _ cond t | .whileLoop _ cond t | .switch _ cond t => fun tracks ahead => by
    have behind := ahead.append (cond.mentions scope) fun _ member =>
      .inl (cond.scope_of_mem_mentions member)
    have read := stmt _ _ opens scope (place ++ [0]) t (tracks.expr ahead.surrounds cond)
      (behind.part 0)
    simpa [Stmt.mentions, Scope.resolveStmt] using read
  | .ifElse _ cond t e => fun tracks ahead => by
    have behind := ahead.append (cond.mentions scope) fun _ member =>
      .inl (cond.scope_of_mem_mentions member)
    have first := stmt _ _ opens scope (place ++ [0]) t (tracks.expr ahead.surrounds cond)
      (behind.part 0)
    have second := stmt _ _ opens scope (place ++ [1]) e first
      (ahead_of_part behind t (by decide))
    simpa [Stmt.mentions, Scope.resolveStmt] using second
  | .forLoop _ init cond step body => fun tracks ahead => by
    have opened : Tracks s.enter past (place :: opens) := tracks.enter (fresh_of_ahead ahead)
    have started : Tracks (init.toList.foldl Scope.resolveForInit s.enter)
        ((init.toList.flatMap (ForInit.mentions place)).reverse ++ past) (place :: opens) := by
      cases init with
      | none => exact opened
      | some i => simpa using opened.forInit (ahead.enter 0).surrounds i
    have behind : Ahead (place :: opens) place (place ++ [0])
        ((init.toList.flatMap (ForInit.mentions place)).reverse ++ past) := by
      refine (ahead.enter 0).append _ fun m member => .inl ?_
      obtain ⟨i, -, member⟩ := List.mem_flatMap.mp member
      exact i.scope_of_mem_mentions member
    have tested := started.exprs (cond.toList ++ step.toList) behind.surrounds
    have read := stmt _ _ (place :: opens) place (place ++ [0]) body tested
      (ahead_of_exprs behind (cond.toList ++ step.toList))
    simpa [Stmt.mentions, Scope.resolveStmt] using read.leave
  | .doLoop _ body cond => fun tracks ahead => by
    have read := stmt s past opens scope (place ++ [0]) body tracks (ahead.part 0)
    have behind := ahead_of_part (j := 1) ahead body Nat.zero_ne_one
    simpa [Stmt.mentions, Scope.resolveStmt] using read.expr behind.surrounds cond
  | .defaultLabel _ | .breakJump _ | .continueJump _ | .gotoJump _ _ | .label _ _ | .empty _ =>
    fun tracks _ => tracks

theorem stmts (s : Scope) (past : List Mention) (opens : List Place) (block : Place) (i : Nat) :
    (xs : List Stmt) → Tracks s past opens →
      (∀ j, i ≤ j → Ahead opens block (block ++ [j]) past) →
      Tracks (s.resolveStmts xs) ((Stmt.mentionsAll block i xs).reverse ++ past) opens
  | [] => fun tracks _ => tracks
  | x :: xs => fun tracks ahead => by
    have read := stmt s past opens block (block ++ [i]) x tracks (ahead i (Nat.le_refl i))
    have behind (j : Nat) (later : i + 1 ≤ j) :
        Ahead opens block (block ++ [j]) ((x.mentions block (block ++ [i])).reverse ++ past) := by
      refine (ahead j (by omega)).append _ fun m member => ?_
      refine (Stmt.scope_of_mem_mentions block (block ++ [i]) x member).imp_right fun inside => ?_
      exact ⟨block ++ [i], apart_of_ne block (by omega), inside⟩
    have rest := stmts _ _ opens block (i + 1) xs read behind
    simpa [Stmt.mentionsAll, Scope.resolveStmts] using rest

end

private theorem params (ps : List Param) (tracks : Tracks s past opens)
    (surrounds : Surrounds opens scope past) :
    Tracks (ps.foldl Scope.declareParam s)
      ((ps.filterMap fun p => p.name.map (.declared scope)).reverse ++ past) opens := by
  induction ps generalizing s past with
  | nil => exact tracks
  | cons p ps ih =>
    rw [List.foldl_cons]
    cases named : p.name with
    | none => simpa [Scope.declareParam, named] using ih tracks surrounds
    | some id =>
      have around := surrounds.append [.declared scope id] (by simp [Mention.scope])
      simpa [Scope.declareParam, named] using ih (tracks.declare surrounds id p.ty) around

theorem function (tracks : Tracks s past opens) (ahead : Ahead opens scope place past)
    (f : Function) : Tracks (s.resolveFunction f) ((f.mentions place).reverse ++ past) opens := by
  have opened : Tracks s.enter past (place :: opens) := tracks.enter (fresh_of_ahead ahead)
  have named := params f.params opened (ahead.enter 0).surrounds
  have behind : Ahead (place :: opens) place (place ++ [0])
      ((f.params.filterMap fun p => p.name.map (.declared place)).reverse ++ past) := by
    refine (ahead.enter 0).append _ fun m member => .inl ?_
    obtain ⟨p, -, named⟩ := List.mem_filterMap.mp member
    obtain ⟨id, -, rfl⟩ := Option.map_eq_some_iff.mp named
    rfl
  cases body : f.body with
  | none => simpa [Scope.resolveFunction_eq, Function.mentions, body] using named.leave
  | some b =>
    have entered := named.enter (fresh_of_ahead behind)
    have read := stmts _ _ _ (place ++ [0]) 0 b.stmts entered fun j _ => behind.enter j
    simpa [Scope.resolveFunction_eq, Function.mentions, body] using read.leave.leave

theorem item (tracks : Tracks s past opens) (ahead : Ahead opens [] place past) (x : Item) :
    Tracks (s.resolveItem x) ((x.mentions place).reverse ++ past) opens := by
  cases x with
  | global d => exact tracks.decl ahead.surrounds d
  | function f => exact tracks.function ahead f
  | struct d => exact tracks
  | typedef d => exact tracks

theorem items (xs : List Item) (i : Nat) (tracks : Tracks s past opens)
    (ahead : ∀ j, i ≤ j → Ahead opens [] [j] past) :
    Tracks (xs.foldl Scope.resolveItem s) ((mentionsFrom i xs).reverse ++ past) opens := by
  induction xs generalizing s past i with
  | nil => exact tracks
  | cons x xs ih =>
    have read := tracks.item (ahead i (Nat.le_refl i)) x
    have behind (j : Nat) (later : i + 1 ≤ j) :
        Ahead opens [] [j] ((x.mentions [i]).reverse ++ past) := by
      refine (ahead j (by omega)).append _ fun m member => ?_
      refine (Item.scope_of_mem_mentions member).imp_right fun inside => ?_
      exact ⟨[i], apart_of_ne [] (by omega), inside⟩
    simpa [mentionsFrom] using ih (i + 1) read behind

end Tracks

/-- The tables of a source file are what is mentioned in it makes them. -/
theorem exists_tracks_resolve (unit : SourceUnit) :
    ∃ s : Scope, s.tables = resolve unit ∧ Tracks s unit.mentions.reverse [[]] := by
  have initial : Tracks {} [] [[]] := by
    refine ⟨rfl, rfl, rfl, rfl, fun span i => ?_⟩
    constructor
    · intro member
      cases member
    · intro refers
      exact absurd refers (not_refers_nil span i)
  have ahead (j : Nat) (_ : 0 ≤ j) : Ahead [[]] [] [j] [] :=
    ⟨⟨[], rfl⟩, List.pairwise_singleton _ _, List.nil_prefix, by simp, by simp, by simp⟩
  obtain ⟨levels, vars, varDecls, varRefs, -⟩ := Scope.foldl_collect_keeps unit.items {}
  have count : (Scope.laidOut unit.items).counters.next .var = 0 := by
    rw [(Scope.inStep_laidOut unit.items).vars, Scope.laidOut, vars]
    rfl
  have read := (initial.of_tables levels count vars varDecls varRefs).items unit.items 0 ahead
  rw [List.append_nil] at read
  exact ⟨_, rfl, read⟩

end Lockstep
