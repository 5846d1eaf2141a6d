import Lockstep.Proofs.Grammar.Types
/-!
What the rules of the grammar read: each expression, statement and declaration is a tree, or a row
of trees, that lies in its tokens.
-/

set_option autoImplicit false
set_option relaxedAutoImplicit false

namespace Lockstep

namespace Grammar

open Lockstep.Parser

abbrev Grows {α : Type} (p : Parser α) (root : α → Node) : Prop := Gathers Grown p fun a => [root a]

section Expressions

private theorem grows_literal : Grows literal .expr := by
  refine .bind (Reads.spanned (R := fun make u => u ≠ [] ∧ ∀ span, (make span).span = span ∧
    (make span).children = [] ∧ (Node.expr (make span)).Plain) ?_) ?_
  · unfold select
    refine .mono .next ?_
    rintro make u ⟨l, rfl, read⟩
    refine ⟨by simp, fun span => ?_⟩
    cases token : l.token with
    | int n | float v | char | str body =>
      rw [token] at read
      cases read
      exact ⟨rfl, rfl, rfl, rfl⟩
    | _ =>
      rw [token] at read
      cases read
  · rintro ⟨make, span⟩ u ⟨⟨nonempty, made⟩, spans⟩
    obtain ⟨range, childless, plain⟩ := made span
    refine .pure ?_
    rw [List.append_nil]
    refine .whole plain ?_ nonempty ?_
    · rw [Node.children, childless]
      exact .nil
    · rwa [Node.span, range]

private theorem grows_nameExpr : Grows nameExpr .expr := by
  refine reads_ident.bind ?_
  rintro id u rfl
  refine .pure fun ordered => ?_
  have room := ordered.room id.lexeme List.mem_cons_self
  refine Rooted.node (n := .expr (.name id.span id.name)) .nil ⟨?_, ?_⟩
    ⟨room, ?_, .nil, ?_, ?_⟩ ?_ (List.nil_sublist _)
  · exact ⟨id.lexeme, List.mem_cons_self, rfl⟩
  · exact ⟨id.lexeme, List.mem_cons_self, rfl⟩
  · exact fun c child => by cases child
  · exact fun _ c child => by cases child
  · exact fun d member => by cases member
  · intro use is
    cases is
    exact List.mem_cons_self

variable {expr : Parser Expr}

private theorem grown_initList {items : List Expr} {l r : Lexeme} {v : List Lexeme} {span : Span}
    (inside : Grown v (items.flatMap fun e => [.expr e])) (spans : Spans (l :: (v ++ [r])) span) :
    Grown (l :: (v ++ [r])) [.expr (.initList span items)] := by
  refine .whole ⟨rfl, rfl⟩ ?_ (by simp) spans
  rw [← List.map_eq_flatMap] at inside
  exact inside.mono ((List.sublist_append_left v [r]).cons l)

private theorem grows_atom (inner : Grows expr .expr) : Grows (atom expr) .expr := by
  refine .or grows_literal (.or grows_nameExpr (.or inner.between (.or ?_ .fail)))
  refine .bind (Reads.spanned (Reads.between inner.commaSepEnd)) ?_
  rintro ⟨items, span⟩ u ⟨⟨l, v, r, rfl, inside⟩, spans⟩
  refine .pure ?_
  rw [List.append_nil]
  exact grown_initList inside spans

/-- Behind any operand, the tokens of a suffix make the tree that it is attached to. -/
private def Fits (suffix : Suffix) (u : List Lexeme) : Prop :=
  ∀ tail base v, Spans u tail → Grown v [.expr base] →
    Grown (v ++ u) [.expr (suffix.attach base tail)]

private theorem reads_suffix (inner : Grows expr .expr) :
    Reads (suffix expr) fun s u => Fits s.1 u ∧ Spans u s.2 := by
  have field (arrow : Bool) (s : Sign) :
      Reads ((Suffix.member · arrow) <$> after (sign s) ident) Fits := by
    refine .map ((Reads.after .token reads_ident).mono ?_)
    rintro id _ ⟨_, _, _, rfl, ⟨l, rfl⟩, rfl⟩ tail base v spans operand
    exact .suffixed (by rintro _ ⟨⟩; rfl) rfl rfl rfl operand .nil spans
  have step (op : PostOp) (s : Sign) : Reads ((fun _ => Suffix.post op) <$> sign s) Fits := by
    refine .map (.mono .token ?_)
    rintro _ _ ⟨l, rfl⟩ tail base v spans operand
    exact .suffixed (v := []) nofun rfl rfl rfl operand .nil spans
  refine .spanned (.or (.map ?_) (.or (.map ?_) (.or (field false _) (.or (field true _)
    (.or (step _ _) (.or (step _ _) .fail))))))
  · refine (Reads.between inner.commaSep).mono ?_
    rintro args u ⟨l, w, r, rfl, inside⟩ tail base v spans operand
    simp only [← List.map_eq_flatMap] at inside
    exact .suffixed (v := l :: w) nofun rfl rfl rfl operand
      (inside.mono (List.sublist_cons_self l w)) spans
  · refine (Reads.between inner).mono ?_
    rintro sub u ⟨l, w, r, rfl, inside⟩ tail base v spans operand
    exact .suffixed (v := l :: w) nofun rfl rfl rfl operand
      (inside.mono (List.sublist_cons_self l w)) spans

private theorem grows_suffixed (inner : Grows expr .expr) : Grows (suffixed expr) .expr := by
  refine Reads.bind (grows_atom inner) fun base u first => ?_
  refine .bind (reads_suffix inner).many fun suffixes v each => .pure ?_
  rw [List.append_nil]
  -- Suffixes are attached one by one, each behind the tokens of all before it.
  clear inner
  induction each generalizing base u with
  | nil => rwa [List.append_nil]
  | @cons s suffixes w v fits _ ih =>
    rw [List.foldl_cons, ← List.append_assoc]
    exact ih _ _ (fits.1 s.2 base u fits.2 first)

private theorem reads_operatorOf {α : Type} (table : List (Sign × α)) :
    Reads (operatorOf table) fun _ u => u ≠ [] := by
  unfold operatorOf select
  refine .mono .next ?_
  rintro _ _ ⟨l, rfl, -⟩
  simp

private theorem grows_castOf {operand : Parser Expr} (inner : Grows operand .expr) :
    Grows (castOf operand) .expr := by
  refine .bind (Reads.spanned (Reads.between reads_castType)) ?_
  rintro ⟨ty, head⟩ _ ⟨⟨l, v, r, rfl, -⟩, spans⟩
  refine Reads.bind inner fun e w grown => .pure ?_
  rw [List.append_nil]
  exact .prefixed ⟨rfl, rfl⟩ rfl rfl spans (by simp) grown

private theorem grows_unary (inner : Grows expr .expr) : Grows (unary expr) .expr := by
  have components : Grows (components expr) .expr := by
    refine .bind (Reads.spanned (Reads.between inner.commaSep1)) ?_
    rintro ⟨items, span⟩ u ⟨⟨l, v, r, rfl, inside⟩, spans⟩
    refine .pure ?_
    rw [List.append_nil]
    exact grown_initList inside spans
  refine .fix fun operand (grows : Grows operand .expr) => ?_
  refine .or ?_ (.or (grows_castOf components) (.or (grows_castOf grows) (.or ?_ (.or ?_
    (.or (grows_suffixed inner) .fail)))))
  · refine .bind (reads_operatorOf _).spanned ?_
    rintro ⟨op, head⟩ u ⟨nonempty, spans⟩
    refine Reads.bind grows fun e v grown => .pure ?_
    rw [List.append_nil]
    exact .prefixed ⟨rfl, rfl⟩ rfl rfl spans nonempty grown
  · refine .bind (Reads.after .token (Reads.between reads_castType)).spanned ?_
    rintro ⟨ty, span⟩ _ ⟨⟨_, u, _, rfl, -, ⟨l, v, r, rfl, -⟩⟩, spans⟩
    refine .pure ?_
    rw [List.append_nil]
    exact .whole ⟨rfl, rfl⟩ .nil (by simp) spans
  · refine .bind (Reads.spanned (Reads.after .token grows)) ?_
    rintro ⟨e, span⟩ _ ⟨⟨_, _, v, rfl, ⟨l, rfl⟩, grown⟩, spans⟩
    refine .pure ?_
    rw [List.append_nil]
    exact .whole ⟨rfl, rfl⟩ grown.behind (by simp) spans

private theorem grows_tier {operator : Parser BinaryOp} {operand : Parser Expr}
    (reads : Reads operator fun _ _ => True) (grows : Grows operand .expr) :
    Grows (tier operator operand) .expr := by
  refine Reads.bind grows fun first u grown => ?_
  have step : Gathers Grown (do
      let op ← operator
      let rhs ← operand
      return (op, rhs)) fun r => [.expr r.2] := by
    refine reads.bind fun op v _ => Reads.bind grows fun rhs w grown => .pure ?_
    rw [List.append_nil]
    exact grown.behind
  refine Reads.bind (Reads.many step) fun rest v each => .pure ?_
  rw [List.append_nil]
  -- Each right operand is joined behind the tokens of all operands before it.
  clear step
  induction each generalizing first u with
  | nil => rwa [List.append_nil]
  | @cons r rest w v right _ ih =>
    rw [List.foldl_cons, ← List.append_assoc]
    exact ih _ _ (.joined ⟨rfl, rfl⟩ (grown.append right) rfl rfl rfl)

private theorem grows_binary (inner : Grows expr .expr) : Grows (binary expr) .expr := by
  have operators : ∀ operator ∈ binaryOperators, Reads operator fun _ _ => True := by
    have sole (s : Sign) (op : BinaryOp) : Reads (soleOperator s op) fun _ _ => True :=
      .map (.mono .token fun _ _ _ => trivial)
    have listed (table : List (Sign × BinaryOp)) : Reads (operatorOf table) fun _ _ => True :=
      (reads_operatorOf table).mono fun _ _ _ => trivial
    simp only [binaryOperators, List.forall_mem_cons, List.not_mem_nil, false_imp_iff,
      implies_true, and_true, listed, sole]
  have tiers (ops : List (Parser BinaryOp)) (all : ∀ operator ∈ ops, Reads operator fun _ _ => True)
      {operand : Parser Expr} (grows : Grows operand .expr) :
      Grows (ops.foldl (fun operand operator => tier operator operand) operand) .expr := by
    induction ops generalizing operand with
    | nil => exact grows
    | cons op ops ih =>
      obtain ⟨first, others⟩ := List.forall_mem_cons.mp all
      exact ih others (grows_tier first grows)
  exact tiers binaryOperators operators (grows_unary inner)

private theorem grows_conditional (inner : Grows expr .expr) : Grows (conditional expr) .expr := by
  refine Reads.bind (grows_binary inner) fun cond u grown => ?_
  have branches : Gathers Grown (optional do
      sign .question
      let t ← expr
      sign .colon
      let e ← expr
      return (t, e)) fun o => o.toList.flatMap fun r => [Node.expr r.1] ++ [Node.expr r.2] := by
    refine Gathers.optional ?_
    refine Reads.token.bind fun _ v _ => Reads.bind inner fun t w first => ?_
    refine Reads.token.bind fun _ x _ => Reads.bind inner fun e y second => .pure ?_
    rw [List.append_nil]
    exact (first.append second.behind).behind
  refine Reads.bind branches fun o v both => ?_
  cases o with
  | none => exact .pure (by simpa using grown.ahead)
  | some r =>
    refine .pure ?_
    rw [List.append_nil]
    exact .joined ⟨rfl, rfl⟩ (grown.append both) rfl rfl rfl

private theorem grows_assignment (inner : Grows expr .expr) : Grows (assignment expr) .expr := by
  refine Reads.bind (grows_conditional inner) fun target u grown => ?_
  have assigned : Gathers Grown (optional do
      let op ← operatorOf assignOps
      let value ← expr
      return (op, value)) fun o => o.toList.flatMap fun r => [.expr r.2] := by
    refine Gathers.optional ?_
    refine (reads_operatorOf _).bind fun op v _ => Reads.bind inner fun value w right => .pure ?_
    rw [List.append_nil]
    exact right.behind
  refine Reads.bind assigned fun o v right => ?_
  cases o with
  | none => exact .pure (by simpa using grown.ahead)
  | some r =>
    refine .pure ?_
    rw [List.append_nil]
    exact .joined ⟨rfl, rfl⟩ (grown.append right) rfl rfl rfl

private theorem grows_expr : Grows Grammar.expr .expr :=
  Reads.fix fun _ inner => grows_assignment inner

end Expressions

section Statements

theorem roots_arrayDims : Gathers Grown arrayDims fun dims => (dims.filterMap id).map .expr := by
  have written (dims : List (Option Expr)) :
      dims.flatMap (fun o => o.toList.flatMap fun e => [Node.expr e]) =
        (dims.filterMap id).map .expr := by
    induction dims with
    | nil => rfl
    | cons o dims ih => cases o <;> simp [ih]
  refine (grows_expr.optional.between.many).mono fun dims u grown => ?_
  simpa only [written] using grown

private theorem declares_declarator : Gathers Declared declarator fun d => [d] := by
  refine .bind (Reads.spanned (R := fun r u => Grown u
    ((r.2.2.1.filterMap id ++ r.2.2.2.toList).map .expr) ∧ Spelled u [r.2.1]) ?_) ?_
  · refine reads_stars.bind fun _ u _ => reads_ident.bind fun name v single => ?_
    refine Reads.bind roots_arrayDims fun dims w bounds => ?_
    refine Reads.bind (Gathers.after .token grows_expr).optional fun init x value => .pure ⟨?_, ?_⟩
    · have value : Grown x (init.toList.map .expr) := by
        simpa only [List.map_eq_flatMap] using value
      rw [List.append_nil, List.map_append]
      exact (bounds.append value).behind.behind
    · rw [single]
      exact List.singleton_sublist.mpr (by simp)
  · rintro ⟨r, span⟩ u ⟨⟨exprs, spelled⟩, spans⟩
    have nonempty : u ≠ [] := List.ne_nil_of_mem (List.singleton_sublist.mp spelled)
    refine .pure ⟨?_, ?_, fun d member => ?_, fun ordered d member => ?_⟩
    · rw [List.flatMap_singleton, List.append_nil]
      exact exprs
    · rwa [List.append_nil]
    · rw [List.mem_singleton.mp member, List.append_nil]
      exact spans.framed nonempty
    · rw [List.append_nil] at ordered
      rw [List.mem_singleton.mp member]
      exact spans.room nonempty ordered

theorem reads_decl : Reads decl fun d u =>
    (∃ first others, u = first :: others ∧ Declared others d.declarators) ∧ Spans u d.span := by
  refine .bind (Reads.spanned (R := fun r u => ∃ first others, u = first :: others ∧
    Declared others r.2) ?_) ?_
  · refine reads_plainType.bind fun _ u nonempty => ?_
    refine Reads.bind declares_declarator.commaSep1 fun ds v declared => .pure ?_
    obtain ⟨first, others, rfl⟩ := List.exists_cons_of_ne_nil nonempty
    refine ⟨first, others ++ v, by simp, ?_⟩
    simp only [List.flatMap_singleton'] at declared
    exact Gathered.mono declared (List.sublist_append_right others v)
  · rintro ⟨r, span⟩ u ⟨⟨first, others, rfl, declared⟩, spans⟩
    exact .pure ⟨⟨first, others, by simp, declared⟩, by simpa using spans⟩

private theorem grows_forInit : Grows forInit fun i => .stmt i.toStmt := by
  refine .or (.map (reads_decl.mono ?_)) (.bind (Reads.spanned grows_expr) ?_)
  · rintro d u ⟨⟨first, others, rfl, declared⟩, spans⟩
    exact .decl (Gathered.mono declared (List.sublist_cons_self first others)) (by simp) spans
  · rintro ⟨e, span⟩ u ⟨grown, spans⟩
    refine .pure ?_
    rw [List.append_nil]
    exact .whole ⟨rfl, rfl⟩ grown grown.ne_nil spans

theorem reads_inertToken : Reads inertToken fun _ u => u ≠ [] := by
  refine .bind (Reads.guard .next) ?_
  rintro _ _ ⟨l, rfl, -⟩
  exact .pure (by simp)

private theorem reads_brokenStmt : Reads brokenStmt fun _ u => u ≠ [] := by
  have skipped : Reads (choice [braceGroup, inertToken]) fun _ u => u ≠ [] :=
    .or (reads_group _ _) (.or reads_inertToken .fail)
  have closed : Reads (choice [sign .semicolon, lookAhead (sign .rBrace), lookAhead atEnd])
      fun _ _ => True :=
    .or (.mono .token fun _ _ _ => trivial) (.or (.mono .lookAhead fun _ _ _ => trivial)
      (.or (.mono .lookAhead fun _ _ _ => trivial) .fail))
  refine .bind (R := fun _ u => u ≠ []) ?_ fun _ u nonempty => ?_
  · refine skipped.bind fun _ u nonempty => skipped.many.bind fun _ _ _ => .pure ?_
    exact List.append_ne_nil_of_left_ne_nil nonempty _
  · exact closed.mono fun _ v _ => List.append_ne_nil_of_left_ne_nil nonempty v

def Makes (make : Span → Stmt) (u : List Lexeme) : Prop :=
  ∀ span, Spans u span → Grown u [.stmt (make span)]

/-- A statement that declares nothing, around what is read from the tokens. -/
structure Wraps (make : Span → Stmt) (u : List Lexeme) : Prop where
  nonempty : u ≠ []
  inside : ∀ span, Grown u (make span).children
  range : ∀ span, (make span).span = span
  undeclared : ∀ span, (Node.stmt (make span)).declarators = []

namespace Wraps

variable {make : Span → Stmt} {u v : List Lexeme}

theorem ahead (wraps : Wraps make u) : Wraps make (u ++ v) where
  nonempty := List.append_ne_nil_of_left_ne_nil wraps.nonempty v
  inside := fun span => (wraps.inside span).ahead
  range := wraps.range
  undeclared := wraps.undeclared

theorem makes (wraps : Wraps make u) : Makes make u := by
  intro span spans
  refine .whole ⟨rfl, wraps.undeclared span⟩ (wraps.inside span) wraps.nonempty ?_
  rwa [Node.span, wraps.range]

end Wraps

private theorem grows_parenCond : Grows parenCond .expr := grows_expr.between

private theorem roots_forHead : Gathers Grown forHead fun r =>
    r.1.toList.map (fun i => .stmt i.toStmt) ++ (r.2.1.toList.map .expr ++
      r.2.2.toList.map .expr) := by
  refine Gathers.between ?_
  refine Reads.bind (grows_forInit.optional.before .token) fun init u start => ?_
  refine Reads.bind (grows_expr.optional.before .token) fun test v tested => ?_
  refine Reads.bind grows_expr.optional fun step w stepped => .pure ?_
  simp only [List.append_nil, List.map_eq_flatMap]
  exact start.append (tested.append stepped)

variable {stmt : Parser Stmt} (inner : Grows stmt .stmt)

include inner

private theorem reads_block :
    Reads ((fun body span => Stmt.compound span body) <$> bracedStmts stmt) Wraps := by
  refine .map ((Reads.between inner.many).mono ?_)
  rintro body u ⟨l, v, r, rfl, inside⟩
  simp only [← List.map_eq_flatMap] at inside
  refine ⟨by simp, fun _ => ?_, fun _ => rfl, fun _ => rfl⟩
  exact inside.mono ((List.sublist_append_left v [r]).cons l)

private theorem reads_ifStmt : Reads (ifStmt stmt) Wraps := by
  refine Reads.token.bind fun _ u single => Reads.bind grows_parenCond fun e v test => ?_
  obtain ⟨l, rfl⟩ := single
  refine Reads.bind inner fun t w first => ?_
  refine Reads.bind (Gathers.after .token inner).optional fun o x second => ?_
  have inside := (test.append (first.append second)).behind (u := [l])
  cases o with
  | none =>
    refine .pure ⟨by simp, fun _ => ?_, fun _ => rfl, fun _ => rfl⟩
    simpa [Stmt.children] using inside
  | some s =>
    refine .pure ⟨by simp, fun _ => ?_, fun _ => rfl, fun _ => rfl⟩
    simpa [Stmt.children] using inside

private theorem reads_forStmt : Reads (forStmt stmt) Wraps := by
  refine Reads.token.bind fun _ u single => Reads.bind roots_forHead fun r v top => ?_
  obtain ⟨l, rfl⟩ := single
  refine Reads.bind inner fun body w grown => ?_
  have inside := (top.append grown).behind (u := [l])
  refine .pure ⟨by simp, fun _ => ?_, fun _ => rfl, fun _ => rfl⟩
  simpa [Stmt.children] using inside

private theorem reads_headed {make : Span → Expr → Stmt → Stmt} {k : Keyword}
    (same : ∀ span e s, (make span e s).children = [.expr e, .stmt s])
    (range : ∀ span e s, (make span e s).span = span)
    (undeclared : ∀ span e s, (Node.stmt (make span e s)).declarators = []) : Reads (do
      keyword k
      let e ← parenCond
      let s ← stmt
      return fun span => make span e s) Wraps := by
  refine Reads.token.bind fun _ u single => Reads.bind grows_parenCond fun e v test => ?_
  obtain ⟨l, rfl⟩ := single
  refine Reads.bind inner fun s w grown => ?_
  have inside := (test.append grown).behind (u := [l])
  refine .pure ⟨by simp, fun span => ?_, (range · e s), (undeclared · e s)⟩
  simpa [same] using inside

private theorem reads_doStmt : Reads (doStmt stmt) Wraps := by
  refine Reads.token.bind fun _ u single => Reads.bind inner fun s v grown => ?_
  obtain ⟨l, rfl⟩ := single
  refine Reads.token.bind fun _ w _ => Reads.bind grows_parenCond fun e x test => ?_
  refine Reads.token.bind fun _ y _ => ?_
  have inside := (grown.append (test.ahead.behind (u := w) (v := x ++ y))).behind (u := [l])
  refine .pure ⟨by simp, fun _ => ?_, fun _ => rfl, fun _ => rfl⟩
  simpa [Stmt.children] using inside

omit inner

private theorem reads_caseLabel : Reads caseLabel Wraps := by
  refine Reads.token.bind fun _ u single => ?_
  obtain ⟨l, rfl⟩ := single
  refine Reads.bind (grows_expr.before .token) fun e v grown => ?_
  refine .pure ⟨by simp, fun _ => ?_, fun _ => rfl, fun _ => rfl⟩
  rw [List.append_nil]
  exact grown.behind

private theorem reads_defaultLabel : Reads defaultLabel Wraps := by
  refine Reads.token.bind fun _ u single => Reads.token.bind fun _ v _ => .pure ?_
  obtain ⟨l, rfl⟩ := single
  exact ⟨by simp, fun _ => .nil, fun _ => rfl, fun _ => rfl⟩

private theorem reads_single {make : Span → Stmt} {t : Token}
    (same : ∀ span, (make span).children = []) (range : ∀ span, (make span).span = span)
    (undeclared : ∀ span, (Node.stmt (make span)).declarators = []) :
    Reads ((fun _ => make) <$> token t) Wraps := by
  refine .map (.mono .token ?_)
  rintro _ _ ⟨l, rfl⟩
  refine ⟨by simp, fun span => ?_, range, undeclared⟩
  rw [same]
  exact .nil

private theorem reads_jump : Reads jump Wraps := by
  refine .mono (.before (R := Wraps) (.or ?_ (.or ?_ (.or ?_ (.or ?_ .fail)))) .token) ?_
  · exact reads_single (fun _ => rfl) (fun _ => rfl) fun _ => rfl
  · exact reads_single (fun _ => rfl) (fun _ => rfl) fun _ => rfl
  · refine Reads.token.bind fun _ u single => Reads.bind grows_expr.optional fun o v grown => ?_
    obtain ⟨l, rfl⟩ := single
    simp only [← List.map_eq_flatMap] at grown
    refine .pure ⟨by simp, fun _ => ?_, fun _ => rfl, fun _ => rfl⟩
    rw [List.append_nil]
    exact grown.behind
  · refine Reads.token.bind fun _ u single => reads_ident.bind fun _ v _ => .pure ?_
    obtain ⟨l, rfl⟩ := single
    exact ⟨by simp, fun _ => .nil, fun _ => rfl, fun _ => rfl⟩
  · rintro make w ⟨_, u, v, rfl, wraps, -⟩
    exact wraps.ahead

private theorem reads_label : Reads label Wraps := by
  refine .bind (.before reads_ident .token) ?_
  rintro _ _ ⟨_, u, v, rfl, rfl, -⟩
  exact .pure ⟨by simp, fun _ => .nil, fun _ => rfl, fun _ => rfl⟩

private theorem reads_declStmt : Reads declStmt Makes := by
  refine .bind (.before reads_decl .token) ?_
  rintro d _ ⟨_, _, v, rfl, ⟨⟨first, others, rfl, declared⟩, -⟩, -⟩
  refine .pure fun span spans => .decl (Gathered.mono declared ?_) (by simp) spans
  exact ((List.sublist_append_left others v).trans (by simp)).cons first

private theorem reads_exprStmt : Reads exprStmt Wraps := by
  refine Reads.bind (grows_expr.before .token) fun e u grown => ?_
  refine .pure ⟨by simpa using grown.ne_nil, fun _ => ?_, fun _ => rfl, fun _ => rfl⟩
  rw [List.append_nil]
  exact grown

private theorem reads_stmtBody (inner : Grows stmt .stmt) : Reads (stmtBody stmt) Makes := by
  have makes {p : Parser (Span → Stmt)} (reads : Reads p Wraps) : Reads p Makes :=
    reads.mono fun _ _ => Wraps.makes
  have empties : Reads ((fun _ => Stmt.empty) <$> sign .semicolon) Wraps :=
    reads_single (fun _ => rfl) (fun _ => rfl) fun _ => rfl
  exact .or (makes (reads_block inner)) (.or (makes (reads_ifStmt inner))
    (.or (makes (reads_forStmt inner))
    (.or (makes (reads_headed inner (fun _ _ _ => rfl) (fun _ _ _ => rfl) fun _ _ _ => rfl))
    (.or (makes (reads_doStmt inner))
    (.or (makes (reads_headed inner (fun _ _ _ => rfl) (fun _ _ _ => rfl) fun _ _ _ => rfl))
    (.or (makes reads_caseLabel) (.or (makes reads_defaultLabel) (.or (makes reads_jump)
    (.or (makes reads_label) (.or reads_declStmt (.or (makes reads_exprStmt)
    (.or (makes empties) .fail))))))))))))

theorem grows_stmt : Grows Grammar.stmt .stmt := by
  refine .fix fun stmt (inner : Grows stmt .stmt) => ?_
  refine .bind (Reads.spanned (Reads.recover (reads_stmtBody inner) (.map ?_))) ?_
  · refine reads_brokenStmt.mono fun _ u nonempty => ?_
    exact Wraps.makes ⟨nonempty, fun _ => .nil, fun _ => rfl, fun _ => rfl⟩
  · rintro ⟨make, span⟩ u ⟨makes, spans⟩
    refine .pure ?_
    rw [List.append_nil]
    exact makes span spans

end Statements

end Grammar

end Lockstep
