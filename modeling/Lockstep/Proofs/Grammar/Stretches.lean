import Lockstep.Proofs.Grammar.Enclosed
import Lockstep.Proofs.Grammar.Rules
/-!
The rules of the grammar on two texts that share a stretch of tokens. Types are read alike in
stretches of every kind, expressions in those where brackets are in pairs or count for nothing.
-/

set_option autoImplicit false
set_option relaxedAutoImplicit false

namespace Lockstep

def Suffix.relocate (f : Nat → Nat) : Suffix → Suffix
  | call args => call (args.map (Expr.relocate f))
  | index i => index (i.relocate f)
  | member field arrow => member (field.relocate f) arrow
  | post op => post op

private theorem Suffix.relocate_attach (f : Nat → Nat) (base : Expr) (suffix : Suffix)
    (tail : Span) :
    (suffix.attach base tail).relocate f =
      (suffix.relocate f).attach (base.relocate f) (tail.relocate f) := by
  cases suffix with
  | call args =>
    simp only [attach, relocate, Expr.relocate, Expr.relocateAll_eq_map, Expr.span_relocate,
      Span.relocate_through]
  | _ =>
    simp only [attach, relocate, Expr.relocate, Expr.span_relocate, Span.relocate_through]

/-- What is made of a range at its old place and of the range at its new place match. -/
def Carries (f : Nat → Nat) (make make' : Span → Stmt) : Prop :=
  ∀ span, make' (span.relocate f) = (make span).relocate f

namespace Grammar

open Lockstep.Parser

section Types

variable {κ : Enclosure} {f : Nat → Nat} {n : Nat}

theorem agree_attributeList :
    Agree κ f n 1 (fun a b => b = a) attributeList attributeList := by
  intro e w stop stop' log log' _ holds
  cases w with
  | nil =>
    obtain ⟨left, right⟩ := κ.ends holds
    exact .of_refuses (refuses_attributes left.attribute) (refuses_attributes right.attribute)
  | cons l w =>
    by_cases same : l.token = .attr
    · have starts : κ.within (.attr :: w.map Lexeme.token) (e.left.map Lexeme.token)
          (e.right.map Lexeme.token) := same ▸ holds
      rcases κ.arguments starts with ⟨g, v, split, inside, behind⟩ | ⟨left, right⟩
      · have regroup : w.map Lexeme.token =
            Token.sign .lParen :: (g ++ [Token.sign .rParen]) ++ v := by
          rw [split]
          simp
        obtain ⟨us, vs, rfl, tokens, rfl⟩ := List.map_eq_append_iff.mp regroup
        have used : (l :: us).map Lexeme.token =
            .attr :: .sign .lParen :: (g ++ [Token.sign .rParen]) := by
          rw [List.map_cons, same, tokens]
        have read (rest : List Lexeme) (stop length : Nat) {us' : List Lexeme}
            (used : us'.map Lexeme.token = .attr :: .sign .lParen :: (g ++ [Token.sign .rParen])) :
            Succeeds attributeList ⟨us' ++ rest, stop, length⟩ ()
              ⟨rest, lastStop stop us', length⟩ := by
          obtain ⟨_, _, outcome⟩ := succeeds_of_yields reads_attributeList
            (used ▸ yields_attributeList inside) stop length
          exact outcome
        have moved : ((l :: us).map (Lexeme.relocate f)).map Lexeme.token =
            .attr :: .sign .lParen :: (g ++ [Token.sign .rParen]) := by
          rw [List.map_map]
          exact used
        exact Paired.of_succeeds (u := l :: us) (read _ stop _ used) (read _ stop' _ moved)
          (Nat.le_add_left 1 _) behind rfl
      · have alone (r : List Token) (none : ¬ OpensGroup .lParen .rParen (w.map Lexeme.token ++ r)) :
            Refuses attributeList ((l :: w).map Lexeme.token ++ r) := by
          apply refuses_attributes
          intro v starts
          rw [← (List.cons.inj starts).2]
          exact none
        exact .of_refuses (alone _ left) (alone _ right)
    · have other (r : List Token) : Refuses attributeList ((l :: w).map Lexeme.token ++ r) := by
        apply refuses_attributes
        intro v starts
        exact absurd (List.cons.inj starts).1 same
      exact .of_refuses (other _) (other _)

theorem agree_ident : Agree κ f n 1 (fun a b => b = a.relocate f) ident ident := by
  refine (Agree.next_same ?_).spanned_map.andThen ?_
  · rintro t ((rfl | rfl | rfl | rfl | rfl) | rfl) <;> rfl
  · rintro ⟨name, span⟩ _ rfl
    exact .pure rfl

private theorem agree_specifiers : Agree κ f n 0 (fun a b => b = a) specifiers specifiers := by
  refine (Agree.many (h := id) (.choice (.cons ?_ (.cons ?_ (.cons ?_ .nil))))).bind ?_
  · exact (Agree.token (by simp [Token.IsBound])).map fun _ _ _ => rfl
  · exact (Agree.token (by simp [Token.IsBound])).map fun _ _ _ => rfl
  · exact Agree.map agree_attributeList fun _ _ _ => rfl
  · rintro marks _ rfl
    exact .pure (by rw [List.map_id])

private theorem agree_widthWord :
    Agree κ f n 1 (fun a b => b = a.relocate f) widthWord widthWord := by
  apply Agree.guard agree_ident
  rintro id _ rfl
  rfl

private theorem agree_signedness : Agree κ f n 1 (fun a b => b = a) signedness signedness := by
  unfold signedness select
  apply Agree.next_same
  rintro t ((rfl | rfl | rfl | rfl | rfl) | rfl) <;> rfl

private theorem agree_integerType :
    Agree κ f n 1 (fun a b => b = a.relocate f) integerType integerType := by
  have names (words : List Ident) :
      (words.map (Ident.relocate f)).map Ident.name = words.map Ident.name := by
    rw [List.map_map]
    rfl
  refine Agree.andThen (Agree.spanned_map (h := Prod.map id (List.map (Ident.relocate f)))
    (.choice (.cons ?_ (.cons ?_ .nil)))) ?_
  · refine Agree.andThen agree_signedness ?_
    rintro unsigned _ rfl
    refine (Agree.many agree_widthWord).bind ?_
    rintro words _ rfl
    exact .pure rfl
  · refine (Agree.many1 agree_widthWord).andThen ?_
    rintro words _ rfl
    exact .pure rfl
  · rintro ⟨⟨unsigned, words⟩, span⟩ _ rfl
    refine .pure ?_
    simp only [names]
    rfl

private theorem agree_typeName : Agree κ f n 1 (fun a b => b = a.relocate f) typeName typeName := by
  refine .choice (.cons ?_ (.cons agree_integerType (.cons ?_ .nil)))
  · refine Agree.map (Agree.after (Agree.weaken (Agree.token ?_)) agree_ident) ?_
    · simp [Token.IsBound]
    · rintro tag _ rfl
      rfl
  · refine Agree.map agree_ident ?_
    rintro name _ rfl
    rfl

private theorem agree_stars : Agree κ f n 0 (fun a b => b = a) stars stars := by
  have qualifiers : Agree κ f n 0 _ (many (token .qualifier)) (many (token .qualifier)) :=
    (Agree.token (by simp [Token.IsBound])).many
  refine (Agree.many (Agree.before (Agree.token ?_) qualifiers)).bind ?_
  · simp [Token.IsBound]
  · rintro found _ rfl
    exact .pure (List.length_map _)

theorem agree_typeSpec :
    Agree κ f n 1 (fun a b => b = (a.1, a.2.relocate f)) typeSpec typeSpec := by
  refine Agree.andThen (Agree.spanned_map (h := fun a => (a.1, a.2.1.relocate f, a.2.2)) ?_) ?_
  · refine Agree.bind agree_specifiers ?_
    rintro before _ rfl
    refine Agree.andThen agree_typeName ?_
    rintro name _ rfl
    refine Agree.bind agree_specifiers ?_
    rintro after _ rfl
    refine Agree.bind agree_stars ?_
    rintro pointers _ rfl
    exact .pure rfl
  · rintro ⟨⟨kernel, name, pointers⟩, span⟩ _ rfl
    exact .pure rfl

theorem agree_plainType : Agree κ f n 1 (fun a b => b = a.relocate f) plainType plainType :=
  Agree.map agree_typeSpec fun _ _ same => by rw [same]

private theorem isCastable_relocate (ty : TypeSpec) :
    isCastable (ty.relocate f) = isCastable ty := by
  obtain ⟨name, pointers, span⟩ := ty
  cases name <;> rfl

private theorem agree_castType : Agree κ f n 1 (fun a b => b = a.relocate f) castType castType := by
  apply Agree.demand agree_plainType
  rintro ty _ rfl
  exact isCastable_relocate ty

end Types

section Expressions

variable {κ : Enclosure} {f : Nat → Nat} {n : Nat} {expr expr' : Parser Expr}

private theorem agree_operatorOf {α : Type} {table : List (Sign × α)}
    (operators : ∀ s ∈ [Sign.lParen, .rParen, .lBrace, .rBrace, .semicolon],
      (table.lookup s).isNone) :
    Agree κ f n 1 (fun a b => b = a) (operatorOf table) (operatorOf table) := by
  unfold operatorOf select
  apply Agree.next_same
  intro t bound
  apply Option.isNone_iff_eq_none.mp
  rcases bound with (rfl | rfl | rfl | rfl | rfl) | rfl
  · exact operators _ (by decide)
  · exact operators _ (by decide)
  · exact operators _ (by decide)
  · exact operators _ (by decide)
  · exact operators _ (by decide)
  · rfl

private theorem agree_literal : Agree κ f n 1 (fun a b => b = a.relocate f) literal literal := by
  unfold literal select
  refine (Agree.next ?_).spanned.andThen ?_
  · rintro t ((rfl | rfl | rfl | rfl | rfl) | rfl) <;> rfl
  · rintro ⟨make, span⟩ ⟨make', span'⟩ ⟨⟨same, t, read⟩, moved⟩
    refine .pure ?_
    simp only at same moved read
    subst same moved
    cases t <;> cases read <;> rfl

private theorem agree_nameExpr : Agree κ f n 1 (fun a b => b = a.relocate f) nameExpr nameExpr := by
  refine Agree.andThen agree_ident ?_
  rintro id _ rfl
  exact .pure rfl

section Inner

variable (brackets : κ.Brackets) (inner : Agree κ f n 1 (fun a b => b = a.relocate f) expr expr')
include brackets inner

private theorem agree_initList :
    Agree κ f (n + 1) 1 (fun a b => b = a.relocate f) (initList expr) (initList expr') := by
  refine (Agree.between brackets.braces inner.commaSepEnd).spanned_map.andThen ?_
  rintro ⟨items, span⟩ _ rfl
  refine .pure ?_
  simp only [Expr.relocate, Expr.relocateAll_eq_map]

private theorem agree_atom :
    Agree κ f (n + 1) 1 (fun a b => b = a.relocate f) (atom expr) (atom expr') :=
  .choice (.cons agree_literal (.cons agree_nameExpr
    (.cons (.between brackets.parens inner.weaken)
    (.cons (agree_initList brackets inner) .nil))))

private theorem agree_suffix : Agree κ f (n + 1) 1 (fun a b => b = (a.1.relocate f, a.2.relocate f))
    (suffix expr) (suffix expr') := by
  refine Agree.spanned_map (.choice (.cons ?_ (.cons ?_ (.cons ?_ (.cons ?_ (.cons ?_
    (.cons ?_ .nil)))))))
  · refine (Agree.between brackets.parens inner.commaSep).map ?_
    rintro args _ rfl
    rfl
  · refine (Agree.between κ.squares inner.weaken).map ?_
    rintro i _ rfl
    rfl
  · refine Agree.map (Agree.after (Agree.weaken (Agree.token ?_)) agree_ident) ?_
    · simp [Token.IsBound]
    · rintro field _ rfl
      rfl
  · refine Agree.map (Agree.after (Agree.weaken (Agree.token ?_)) agree_ident) ?_
    · simp [Token.IsBound]
    · rintro field _ rfl
      rfl
  · exact (Agree.token (by simp [Token.IsBound])).map fun _ _ _ => rfl
  · exact (Agree.token (by simp [Token.IsBound])).map fun _ _ _ => rfl

private theorem agree_suffixed :
    Agree κ f (n + 1) 1 (fun a b => b = a.relocate f) (suffixed expr) (suffixed expr') := by
  refine (agree_atom brackets inner).andThen ?_
  rintro base _ rfl
  refine (agree_suffix brackets inner).many.bind ?_
  rintro suffixes _ rfl
  refine .pure ?_
  rw [List.foldl_map]
  apply List.foldl_hom
  intro e s
  exact (Suffix.relocate_attach f e s.1 s.2).symm

private theorem agree_components :
    Agree κ f (n + 1) 1 (fun a b => b = a.relocate f) (components expr) (components expr') := by
  refine (Agree.between brackets.parens inner.commaSep1.weaken).spanned_map.andThen ?_
  rintro ⟨items, span⟩ _ rfl
  refine .pure ?_
  simp only [Expr.relocate, Expr.relocateAll_eq_map]

omit inner in
private theorem agree_castHead :
    Agree κ f (n + 1) 1 (fun a b => b = (a.1.relocate f, a.2.relocate f))
    castHead castHead :=
  (Agree.between brackets.parens (Agree.weaken agree_castType)).spanned_map

private theorem agree_castOf :
    Agree κ f (n + 1) 1 (fun a b => b = a.relocate f) (castOf expr) (castOf expr') := by
  refine (agree_castHead brackets).step ?_
  rintro ⟨ty, head⟩ _ rfl
  refine inner.weaken.bind ?_
  rintro e _ rfl
  refine .pure ?_
  simp only [Expr.relocate, Expr.span_relocate, Span.relocate_through]

theorem agree_unaryRule {unary unary' : Parser Expr}
    (operand : Agree κ f n 1 (fun a b => b = a.relocate f) unary unary') :
    Agree κ f (n + 1) 1 (fun a b => b = a.relocate f) (unaryRule expr unary)
      (unaryRule expr' unary') := by
  have sizeof : Agree κ f (n + 1) 1 (fun a b => b = a) (keyword .kwSizeof) (keyword .kwSizeof) :=
    Agree.token (by simp [Token.IsBound])
  refine .choice (.cons ?_ (.cons (agree_castOf brackets ?_) (.cons (agree_castOf brackets operand)
    (.cons ?_ (.cons ?_ (.cons (agree_suffixed brackets inner) .nil))))))
  · refine (Agree.spanned_map (agree_operatorOf (by decide))).step ?_
    rintro ⟨op, head⟩ _ rfl
    refine operand.weaken.bind ?_
    rintro e _ rfl
    refine .pure ?_
    simp only [Expr.relocate, Expr.span_relocate, Span.relocate_through]
  · exact (agree_components brackets inner).mono (Nat.le_succ n) (Nat.le_refl 1) fun _ _ same => same
  · refine (sizeof.weaken.after (Agree.between brackets.parens
      (Agree.weaken agree_castType))).spanned_map.andThen ?_
    rintro ⟨ty, span⟩ _ rfl
    exact .pure rfl
  · refine (sizeof.after_step operand.weaken).spanned_map.andThen ?_
    rintro ⟨e, span⟩ _ rfl
    exact .pure rfl

private theorem agree_unary :
    Agree κ f (n + 1) 1 (fun a b => b = a.relocate f) (unary expr) (unary expr') := by
  apply Agree.fix
  intro k short operand operand' known
  apply agree_unaryRule brackets _ known
  exact inner.mono (Nat.le_of_lt_succ short) (Nat.le_refl 1) fun _ _ same => same

omit brackets in
private theorem agree_tier {operator : Parser BinaryOp}
    (op : Agree κ f n 1 (fun a b => b = a) operator operator) :
    Agree κ f n 1 (fun a b => b = a.relocate f) (tier operator expr) (tier operator expr') := by
  apply inner.chainLeft op
  intro lhs op rhs
  simp only [Expr.relocate, Expr.span_relocate, Span.relocate_through]

private theorem agree_binary :
    Agree κ f (n + 1) 1 (fun a b => b = a.relocate f) (binary expr) (binary expr') := by
  have sole {s : Sign} (op : BinaryOp) (free : ¬ ((Token.sign s).IsBound ∨ Token.sign s = .attr)) :
      Agree κ f (n + 1) 1 (fun a b => b = a) (soleOperator s op) (soleOperator s op) :=
    (Agree.token free).map fun _ _ _ => rfl
  have operators : ∀ operator ∈ binaryOperators,
      Agree κ f (n + 1) 1 (fun a b => b = a) operator operator := by
    simp only [binaryOperators, List.forall_mem_cons]
    refine ⟨agree_operatorOf (by decide), agree_operatorOf (by decide),
      agree_operatorOf (by decide), agree_operatorOf (by decide), agree_operatorOf (by decide),
      sole _ ?_, sole _ ?_, sole _ ?_, sole _ ?_, sole _ ?_, by simp⟩
    all_goals simp [Token.IsBound]
  have tiers (ops : List (Parser BinaryOp))
      (known : ∀ operator ∈ ops, Agree κ f (n + 1) 1 (fun a b => b = a) operator operator)
      {operand operand' : Parser Expr}
      (tightest : Agree κ f (n + 1) 1 (fun a b => b = a.relocate f) operand operand') :
      Agree κ f (n + 1) 1 (fun a b => b = a.relocate f)
        (ops.foldl (fun operand operator => tier operator operand) operand)
        (ops.foldl (fun operand operator => tier operator operand) operand') := by
    induction ops generalizing operand operand' with
    | nil => exact tightest
    | cons op ops ih =>
      obtain ⟨first, others⟩ := List.forall_mem_cons.mp known
      exact ih others (agree_tier tightest first)
  exact tiers binaryOperators operators (agree_unary brackets inner)

private theorem agree_conditional :
    Agree κ f (n + 1) 1 (fun a b => b = a.relocate f) (conditional expr) (conditional expr') := by
  have question : Agree κ f (n + 1) 1 (fun a b => b = a) (sign .question) (sign .question) :=
    Agree.token (by simp [Token.IsBound])
  have colon : Agree κ f n 1 (fun a b => b = a) (sign .colon) (sign .colon) :=
    Agree.token (by simp [Token.IsBound])
  refine (agree_binary brackets inner).andThen ?_
  rintro cond _ rfl
  refine Agree.bind (Agree.optional (h := fun r => (r.1.relocate f, r.2.relocate f))
    (question.step ?_)) ?_
  · rintro _ _ rfl
    refine inner.weaken.bind ?_
    rintro t _ rfl
    refine colon.weaken.bind ?_
    rintro _ _ rfl
    refine inner.weaken.bind ?_
    rintro e _ rfl
    exact .pure rfl
  · rintro branches _ rfl
    cases branches with
    | none => exact .pure rfl
    | some branch =>
      refine .pure ?_
      simp only [Expr.relocate, Expr.span_relocate, Span.relocate_through]

theorem agree_assignment :
    Agree κ f (n + 1) 1 (fun a b => b = a.relocate f) (assignment expr) (assignment expr') := by
  have op : Agree κ f (n + 1) 1 (fun a b => b = a) (operatorOf assignOps) (operatorOf assignOps) :=
    agree_operatorOf (by decide)
  refine (agree_conditional brackets inner).andThen ?_
  rintro target _ rfl
  refine Agree.bind (Agree.optional (h := fun r => (r.1, r.2.relocate f)) (op.step ?_)) ?_
  · rintro op _ rfl
    refine inner.weaken.bind ?_
    rintro value _ rfl
    exact .pure rfl
  · rintro rhs _ rfl
    cases rhs with
    | none => exact .pure rfl
    | some rhs =>
      refine .pure ?_
      simp only [Expr.relocate, Expr.span_relocate, Span.relocate_through]

end Inner

theorem agree_expr (brackets : κ.Brackets) :
    Agree κ f n 1 (fun a b => b = a.relocate f) Grammar.expr Grammar.expr := by
  apply Agree.fix
  intro k _ inner inner' known
  exact agree_assignment brackets known

end Expressions

section Declarations

variable {κ : Enclosure} {f : Nat → Nat} {n : Nat} (brackets : κ.Brackets)
include brackets

private theorem agree_arrayDims :
    Agree κ f n 0 (fun a b => b = a.map (Option.map (Expr.relocate f)))
    arrayDims arrayDims :=
  (Agree.between_all κ.squares fun _ => (agree_expr brackets).optional).many

theorem agree_declarator :
    Agree κ f n 1 (fun a b => b = a.relocate f) declarator declarator := by
  have eq : Agree κ f n 1 (fun a b => b = a) (sign .eq) (sign .eq) :=
    Agree.token (by simp [Token.IsBound])
  refine Agree.andThen (Agree.spanned_map (h := fun a => (a.1, a.2.1.relocate f,
    a.2.2.1.map (Option.map (Expr.relocate f)), a.2.2.2.map (Expr.relocate f))) ?_) ?_
  · refine Agree.bind agree_stars ?_
    rintro pointers _ rfl
    refine Agree.andThen agree_ident ?_
    rintro name _ rfl
    refine (agree_arrayDims brackets).bind ?_
    rintro dims _ rfl
    refine (eq.weaken.after (agree_expr brackets)).optional.bind ?_
    rintro init _ rfl
    exact .pure rfl
  · rintro ⟨⟨pointers, name, dims, init⟩, span⟩ _ rfl
    exact .pure rfl

theorem agree_decl : Agree κ f n 1 (fun a b => b = a.relocate f) decl decl := by
  refine Agree.andThen (Agree.spanned_map (h := fun a => (a.1.relocate f,
    a.2.map (Declarator.relocate f))) ?_) ?_
  · refine Agree.andThen agree_plainType ?_
    rintro ty _ rfl
    refine (agree_declarator brackets).commaSep1.weaken.bind ?_
    rintro declarators _ rfl
    exact .pure rfl
  · rintro ⟨⟨ty, declarators⟩, span⟩ _ rfl
    exact .pure rfl

theorem agree_param : Agree κ f n 1 (fun a b => b = a.relocate f) param param := by
  refine Agree.andThen (Agree.spanned_map (h := fun a => (a.1.relocate f,
    a.2.map (Ident.relocate f))) ?_) ?_
  · refine Agree.andThen agree_plainType ?_
    rintro ty _ rfl
    refine (Agree.optional agree_ident).bind ?_
    rintro name _ rfl
    refine (agree_arrayDims brackets).bind fun _ _ _ => .pure rfl
  · rintro ⟨⟨ty, name⟩, span⟩ _ rfl
    exact .pure rfl

end Declarations

section Statements

theorem agree_groupRule {κ : Enclosure} {f : Nat → Nat} {n : Nat} {o c : Sign}
    (nests : κ.Nests o c) (free : ∀ {t : Token}, t ≠ .sign o → t ≠ .sign c → κ.Plain t)
    {inner inner' : Parser Unit} (known : Agree κ f n 1 (fun a b => b = a) inner inner') :
    Agree κ f (n + 1) 1 (fun a b => b = a) (groupRule o c inner) (groupRule o c inner') := by
  have plain : Agree κ f n 1 (fun a b => b = a)
      (guard anyToken fun t => t != .sign o && t != .sign c)
      (guard anyToken fun t => t != .sign o && t != .sign c) :=
    Agree.guard_anyToken ?_
  · have element : Agree κ f n 1 (fun a b => b = a) (groupElement o c inner)
        (groupElement o c inner') :=
      .choice (.cons known (.cons (plain.map fun _ _ _ => rfl) .nil))
    exact (Agree.between nests element.many).map fun _ _ _ => rfl
  · intro t accepted
    simp only [Bool.and_eq_true, bne_iff_ne] at accepted
    exact free accepted.1 accepted.2

variable {κ : Enclosure} {f : Nat → Nat} {n : Nat} (blocks : κ.Blocks)
include blocks

theorem agree_braceGroup : Agree κ f n 1 (fun a b => b = a) braceGroup braceGroup :=
  Agree.fix fun _ _ _ _ known => agree_groupRule blocks.braces blocks.plain known

theorem agree_inertToken : Agree κ f n 1 (fun a b => b = a) inertToken inertToken := by
  refine (Agree.guard_anyToken ?_).map fun _ _ _ => rfl
  intro t accepted
  simp only [Bool.and_eq_true, bne_iff_ne] at accepted
  exact blocks.plain accepted.1.2 accepted.2

theorem agree_semicolon :
    Agree κ f n 1 (fun a b => b = a) (sign .semicolon) (sign .semicolon) :=
  .plain (blocks.plain (by simp) (by simp))

theorem agree_brokenStmt : Agree κ f n 1 (fun a b => b = a) brokenStmt brokenStmt := by
  refine (Agree.many1 (.choice (.cons (agree_braceGroup blocks)
    (.cons (agree_inertToken blocks) .nil)))).andThen fun _ _ _ => ?_
  exact .choice (.cons (agree_semicolon blocks).weaken (.cons (.lookAhead_token blocks)
    (.cons (.lookAhead_atEnd blocks) .nil)))

theorem agree_parenCond : Agree κ f n 1 (fun a b => b = a.relocate f) parenCond parenCond :=
  .between_all blocks.brackets.parens fun _ => (agree_expr blocks.brackets).weaken

private theorem agree_forInit : Agree κ f n 1 (fun a b => b = a.relocate f) forInit forInit := by
  refine .or ((agree_decl blocks.brackets).map ?_) ((agree_expr blocks.brackets).spanned_map.andThen ?_)
  · rintro d _ rfl
    rfl
  · rintro ⟨e, span⟩ _ rfl
    exact .pure rfl

theorem agree_forHead : Agree κ f n 1 (fun a b => b = (a.1.map (ForInit.relocate f),
    a.2.1.map (Expr.relocate f), a.2.2.map (Expr.relocate f))) forHead forHead := by
  refine .between_all blocks.brackets.parens fun k => ?_
  refine ((agree_forInit blocks).optional.before (agree_semicolon blocks).weaken).bind ?_
  rintro init _ rfl
  refine ((agree_expr blocks.brackets).optional.before (agree_semicolon blocks).weaken).bind ?_
  rintro cond _ rfl
  refine (agree_expr blocks.brackets).optional.bind ?_
  rintro step _ rfl
  exact .pure rfl

section Inner

variable {stmt stmt' : Parser Stmt}
  (inner : Agree κ f n 1 (fun a b => b = a.relocate f) stmt stmt')

omit blocks in
private theorem agree_keyword (k : Keyword) :
    Agree κ f n 1 (fun a b => b = a) (keyword k) (keyword k) :=
  .token (by simp [Token.IsBound])

theorem agree_caseLabel : Agree κ f n 1 (Carries f) caseLabel caseLabel := by
  have colon : Agree κ f n 1 (fun a b => b = a) (sign .colon) (sign .colon) :=
    Agree.token (by simp [Token.IsBound])
  refine (agree_keyword .kwCase).andThen fun _ _ _ => ?_
  refine ((agree_expr blocks.brackets).before colon.weaken).weaken.bind ?_
  rintro value _ rfl
  exact .pure fun _ => rfl

omit blocks in
theorem agree_defaultLabel : Agree κ f n 1 (Carries f) defaultLabel defaultLabel := by
  have colon : Agree κ f n 1 (fun a b => b = a) (sign .colon) (sign .colon) :=
    Agree.token (by simp [Token.IsBound])
  refine (agree_keyword .kwDefault).andThen fun _ _ _ => ?_
  exact colon.weaken.bind fun _ _ _ => .pure fun _ => rfl

theorem agree_jump : Agree κ f n 1 (Carries f) jump jump := by
  refine .before (.choice (.cons ?_ (.cons ?_ (.cons ?_ (.cons ?_ .nil)))))
    (agree_semicolon blocks).weaken
  · exact (agree_keyword .kwBreak).map fun _ _ _ _ => rfl
  · exact (agree_keyword .kwContinue).map fun _ _ _ _ => rfl
  · refine (agree_keyword .kwReturn).andThen fun _ _ _ => ?_
    refine (agree_expr blocks.brackets).optional.bind ?_
    rintro value _ rfl
    exact .pure fun _ => rfl
  · refine (agree_keyword .kwGoto).andThen fun _ _ _ => ?_
    refine (Agree.weaken agree_ident).bind ?_
    rintro target _ rfl
    exact .pure fun _ => rfl

omit blocks in
theorem agree_label : Agree κ f n 1 (Carries f) label label := by
  have colon : Agree κ f n 1 (fun a b => b = a) (sign .colon) (sign .colon) :=
    Agree.token (by simp [Token.IsBound])
  refine (Agree.before agree_ident colon.weaken).andThen ?_
  rintro name _ rfl
  exact .pure fun _ => rfl

theorem agree_declStmt : Agree κ f n 1 (Carries f) declStmt declStmt := by
  refine ((agree_decl blocks.brackets).before (agree_semicolon blocks).weaken).andThen ?_
  rintro d _ rfl
  exact .pure fun _ => rfl

theorem agree_exprStmt : Agree κ f n 1 (Carries f) exprStmt exprStmt := by
  refine ((agree_expr blocks.brackets).before (agree_semicolon blocks).weaken).andThen ?_
  rintro e _ rfl
  exact .pure fun _ => rfl

include inner

private theorem agree_bracedStmts : Agree κ f (n + 1) 1 (fun a b => b = a.map (Stmt.relocate f))
    (bracedStmts stmt) (bracedStmts stmt') :=
  .between blocks.braces inner.many

private theorem agree_ifStmt : Agree κ f (n + 1) 1 (Carries f) (ifStmt stmt) (ifStmt stmt') := by
  refine (agree_keyword .kwIf).step fun _ _ _ => ?_
  refine (agree_parenCond blocks).weaken.bind ?_
  rintro cond _ rfl
  refine inner.weaken.bind ?_
  rintro t _ rfl
  refine ((agree_keyword .kwElse).weaken.after inner).optional.bind ?_
  rintro e _ rfl
  cases e with
  | none => exact .pure fun _ => rfl
  | some e => exact .pure fun _ => rfl

private theorem agree_forStmt : Agree κ f (n + 1) 1 (Carries f) (forStmt stmt) (forStmt stmt') := by
  refine (agree_keyword .kwFor).step fun _ _ _ => ?_
  refine (agree_forHead blocks).weaken.bind ?_
  rintro ⟨init, cond, step⟩ _ rfl
  refine inner.weaken.bind ?_
  rintro body _ rfl
  exact .pure fun _ => rfl

private theorem agree_whileStmt :
    Agree κ f (n + 1) 1 (Carries f) (whileStmt stmt) (whileStmt stmt') := by
  refine (agree_keyword .kwWhile).step fun _ _ _ => ?_
  refine (agree_parenCond blocks).weaken.bind ?_
  rintro cond _ rfl
  refine inner.weaken.bind ?_
  rintro body _ rfl
  exact .pure fun _ => rfl

private theorem agree_doStmt : Agree κ f (n + 1) 1 (Carries f) (doStmt stmt) (doStmt stmt') := by
  refine (agree_keyword .kwDo).step fun _ _ _ => ?_
  refine inner.weaken.bind ?_
  rintro body _ rfl
  refine (agree_keyword .kwWhile).weaken.bind fun _ _ _ => ?_
  refine (agree_parenCond blocks).weaken.bind ?_
  rintro cond _ rfl
  exact (agree_semicolon blocks).weaken.bind fun _ _ _ => .pure fun _ => rfl

private theorem agree_switchStmt :
    Agree κ f (n + 1) 1 (Carries f) (switchStmt stmt) (switchStmt stmt') := by
  refine (agree_keyword .kwSwitch).step fun _ _ _ => ?_
  refine (agree_parenCond blocks).weaken.bind ?_
  rintro cond _ rfl
  refine inner.weaken.bind ?_
  rintro body _ rfl
  exact .pure fun _ => rfl

theorem agree_stmtBody :
    Agree κ f (n + 1) 1 (Carries f) (stmtBody stmt) (stmtBody stmt') := by
  refine .choice (.cons ?_ (.cons (agree_ifStmt blocks inner) (.cons (agree_forStmt blocks inner)
    (.cons (agree_whileStmt blocks inner) (.cons (agree_doStmt blocks inner)
    (.cons (agree_switchStmt blocks inner) (.cons (agree_caseLabel blocks)
    (.cons agree_defaultLabel (.cons (agree_jump blocks) (.cons agree_label
    (.cons (agree_declStmt blocks) (.cons (agree_exprStmt blocks) (.cons ?_ .nil)))))))))))))
  · refine (agree_bracedStmts blocks inner).map ?_
    rintro body _ rfl span
    simp only [Stmt.relocate, Stmt.relocateAll_eq_map]
  · exact (agree_semicolon blocks).map fun _ _ _ _ => rfl

theorem agree_stmtRule : Agree κ f (n + 1) 1 (fun a b => b = a.relocate f) (stmtRule stmt)
    (stmtRule stmt') := by
  have broken : Agree κ f (n + 1) 1 (Carries f) ((fun _ => Stmt.empty) <$> brokenStmt)
      ((fun _ => Stmt.empty) <$> brokenStmt) :=
    (agree_brokenStmt blocks).map fun _ _ _ _ => rfl
  refine ((agree_stmtBody blocks inner).recover broken).spanned.andThen ?_
  rintro ⟨make, span⟩ ⟨make', span'⟩ ⟨carries, moved⟩
  refine .pure ?_
  simp only at moved carries ⊢
  rw [moved, carries]

end Inner

theorem agree_stmt : Agree κ f n 1 (fun a b => b = a.relocate f) Grammar.stmt Grammar.stmt :=
  Agree.fix fun _ _ _ _ => agree_stmtRule blocks

end Statements

section Items

variable {κ : Enclosure} {f : Nat → Nat} {n : Nat} (blocks : κ.Blocks)
include blocks

theorem agree_body : Agree κ f n 1 (fun a b => b = a.relocate f) body body := by
  refine Agree.andThen (Agree.spanned_map (h := List.map (Stmt.relocate f)) ?_) ?_
  · exact .between_all blocks.braces fun _ => (agree_stmt blocks).many
  · rintro ⟨stmts, span⟩ _ rfl
    exact .pure rfl

theorem agree_bodyOrEnd :
    Agree κ f n 1 (fun a b => b = a.map (Block.relocate f)) bodyOrEnd bodyOrEnd := by
  refine .or ((agree_body blocks).map ?_) ((agree_semicolon blocks).map fun _ _ _ => rfl)
  rintro body _ rfl
  rfl

theorem agree_function : Agree κ f n 1 (fun a b => b = a.relocate f) function function := by
  have params : Agree κ f n 1 (fun a b => b = List.map (Param.relocate f) a)
      (between .lParen (commaSep param) .rParen) (between .lParen (commaSep param) .rParen) :=
    .between_all blocks.brackets.parens fun _ => (agree_param blocks.brackets).commaSep
  refine Agree.andThen (Agree.spanned (φ := fun make make' => ∀ span,
    make' (span.relocate f) = (make span).relocate f) ?_) ?_
  · refine Agree.andThen agree_typeSpec ?_
    rintro ⟨isKernel, ret⟩ _ rfl
    refine (Agree.weaken agree_ident).bind ?_
    rintro name _ rfl
    refine params.weaken.bind ?_
    rintro params _ rfl
    refine (Agree.many agree_attributeList).bind fun _ _ _ => ?_
    refine (agree_bodyOrEnd blocks).weaken.bind ?_
    rintro body _ rfl
    exact .pure fun _ => rfl
  · rintro ⟨make, span⟩ ⟨make', span'⟩ ⟨carries, moved⟩
    refine .pure ?_
    simp only at moved carries ⊢
    rw [moved, carries]

theorem agree_fieldGroup :
    Agree κ f n 1 (fun a b => b = a.map (Field.relocate f)) fieldGroup fieldGroup := by
  refine Agree.andThen agree_plainType ?_
  rintro ty _ rfl
  refine Agree.bind (Agree.commaSep1 (h := fun a => (a.1, a.2.relocate f)) ?_).weaken ?_
  · refine Agree.bind agree_stars ?_
    rintro depth _ rfl
    refine Agree.andThen agree_ident ?_
    rintro name _ rfl
    exact (agree_arrayDims blocks.brackets).bind fun _ _ _ => .pure rfl
  · rintro names _ rfl
    refine (agree_semicolon blocks).weaken.bind fun _ _ _ => .pure ?_
    rw [List.map_map, List.map_map]
    rfl

theorem agree_structDef : Agree κ f n 1 (fun a b => b = a.relocate f) structDef structDef := by
  have groups : Agree κ f n 1 (fun a b => b = List.map (List.map (Field.relocate f)) a)
      (between .lBrace (many fieldGroup) .rBrace) (between .lBrace (many fieldGroup) .rBrace) :=
    .between_all blocks.braces fun _ => (agree_fieldGroup blocks).many
  refine Agree.andThen (Agree.spanned (φ := fun make make' => ∀ span,
    make' (span.relocate f) = (make span).relocate f) ?_) ?_
  · refine (agree_keyword .kwTypedef).optional.bind ?_
    rintro typedef _ rfl
    refine (agree_keyword .kwStruct).andThen fun _ _ _ => ?_
    refine (Agree.optional agree_ident).bind ?_
    rintro tag _ rfl
    refine groups.weaken.bind ?_
    rintro groups _ rfl
    refine (Agree.optional agree_ident).bind ?_
    rintro trailing _ rfl
    refine (agree_semicolon blocks).weaken.bind fun _ _ _ => .pure ?_
    intro span
    simp only [StructDef.relocate, List.map_flatten]
    cases typedef <;> rfl
  · rintro ⟨make, span⟩ ⟨make', span'⟩ ⟨carries, moved⟩
    refine .pure ?_
    simp only at moved carries ⊢
    rw [moved, carries]

theorem agree_typedef : Agree κ f n 1 (fun a b => b = a.relocate f) typedef typedef := by
  refine Agree.andThen (Agree.spanned_map (h := fun a => (a.1.relocate f, a.2.relocate f)) ?_) ?_
  · refine (agree_keyword .kwTypedef).andThen fun _ _ _ => ?_
    refine (Agree.weaken agree_plainType).bind ?_
    rintro ty _ rfl
    refine (Agree.before agree_ident (agree_semicolon blocks).weaken).weaken.bind ?_
    rintro aka _ rfl
    exact .pure rfl
  · rintro ⟨⟨ty, aka⟩, span⟩ _ rfl
    exact .pure rfl

theorem agree_soundItem : Agree κ f n 1 (fun a b => b = a.relocate f) soundItem soundItem := by
  have global := (agree_decl (f := f) (n := n) blocks.brackets).before
    (agree_semicolon blocks).weaken
  refine .choice (.cons ((agree_structDef blocks).map ?_) (.cons ((agree_typedef blocks).map ?_)
    (.cons ((agree_function blocks).map ?_) (.cons (global.map ?_) .nil))))
  all_goals
    rintro a _ rfl
    rfl

theorem agree_item (closing : κ.Plain (.sign .rBrace)) :
    Agree κ f n 1 (fun a b => b = a.map (Item.relocate f)) item item := by
  have broken : Agree κ f n 1 (fun a b => b = a) brokenItem brokenItem := by
    refine (agree_inertToken blocks).many.bind fun _ _ _ => ?_
    exact .choice (.cons (agree_semicolon blocks) (.cons (agree_braceGroup blocks)
      (.cons (.plain closing) .nil)))
  refine .recover ((agree_soundItem blocks).map ?_) (broken.map fun _ _ _ => rfl)
  rintro a _ rfl
  rfl

end Items

end Grammar

end Lockstep
