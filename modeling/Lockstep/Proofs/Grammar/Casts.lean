import Lockstep.Proofs.Grammar.Reports
/-!
Casts of operands with suffixes. A cast looks for the components of a vector first: behind the type,
an expression between parentheses is taken for them, and the suffixes that follow it are left over.
So a cast of an operand is read exactly if the operand does not start with a parenthesis or has no
suffix.
-/

set_option autoImplicit false
set_option relaxedAutoImplicit false

namespace Lockstep

def Token.IsLeaf : Token → Prop
  | int _ | float _ | char | str _ | ident _ => True
  | keyword _ | kernel | qualifier | attr | sign _ => False

namespace Grammar

open Lockstep.Parser Lockstep.Lexical

variable {ts us v : List Token}

section Types

/-- The tokens of a builtin scalar or vector type: its name, or the words of an integer type. -/
inductive BuiltinType : List Token → Prop
  | name {x : String} (builtin : isBuiltinType x = true) : BuiltinType [.ident x]
  | words {xs : List String} (widths : ∀ x ∈ xs, x ∈ widthWords) (some : xs ≠ []) :
      BuiltinType (xs.map .ident)
  | signed {k : Keyword} {xs : List String} (sign : k = .kwSigned ∨ k = .kwUnsigned)
      (widths : ∀ x ∈ xs, x ∈ widthWords) : BuiltinType (.keyword k :: xs.map .ident)

private theorem isBuiltinType_integerTypeName (unsigned : Bool) (words : List String) :
    isBuiltinType (integerTypeName unsigned words) = true := by
  unfold integerTypeName
  cases unsigned <;> simp only [Bool.false_eq_true, if_false, if_true] <;> split_ifs <;>
    decide +kernel

def NamesBuiltin (name : TypeName) : Prop :=
  ∃ id : Ident, name = .named id ∧ isBuiltinType id.name = true

private theorem rows_widthWord {xs : List String} (widths : ∀ x ∈ xs, x ∈ widthWords) :
    Rows widthWord (xs.map .ident) v fun _ => True := by
  induction xs with
  | nil => exact rows_nil trivial
  | cons x xs ih =>
    have first : Yields widthWord [.ident x] (xs.map .ident ++ v) fun id => id.name = x := by
      refine Yields.guard yields_ident ?_
      rintro id rfl
      simpa using widths id.name List.mem_cons_self
    exact Rows.cons first (by simp) (ih fun x listed => widths x (List.mem_cons_of_mem _ listed))
      fun _ _ _ _ => trivial

private theorem yields_integerType (ts : List Token) {xs : List String}
    (widths : ∀ x ∈ xs, x ∈ widthWords) (other : ∀ x, v.head? ≠ some (.ident x))
    (front : ts = [] ∧ xs ≠ [] ∨ ∃ k, ts = [.keyword k] ∧ (k = .kwSigned ∨ k = .kwUnsigned)) :
    Yields integerType (ts ++ xs.map .ident) v NamesBuiltin := by
  have stuck : Refuses widthWord v := (refuses_ident other).guard
  rw [← List.append_nil (ts ++ _)]
  apply Yields.bind (P := fun _ : (Bool × List Ident) × Span => True)
  · apply Yields.spanned (P := fun _ : Bool × List Ident => True)
    rcases front with ⟨rfl, some⟩ | ⟨k, rfl, sign⟩
    · have unsigned : Refuses signedness (xs.map .ident ++ v) := by
        unfold signedness select
        apply refuses_next
        intro t first
        cases xs with
        | nil => exact absurd rfl some
        | cons x xs =>
          cases first
          rfl
      apply unsigned.bind.or_yields
      apply Yields.or
      rw [← List.append_nil (xs.map _)]
      exact ((rows_widthWord widths).many1 (by simpa using some) stuck).bind
        fun _ _ => yields_pure trivial
    · have signed : Yields signedness [.keyword k] (xs.map .ident ++ v) fun _ => True := by
        unfold signedness select
        rcases sign with rfl | rfl <;> exact yields_next rfl trivial
      apply Yields.or
      apply signed.bind
      intro _ _
      rw [← List.append_nil (xs.map _)]
      exact ((rows_widthWord widths).many stuck).bind fun _ _ => yields_pure trivial
  · intro r _
    exact yields_pure ⟨_, rfl, isBuiltinType_integerTypeName _ _⟩

theorem BuiltinType.yields_typeName (type : BuiltinType ts)
    (other : ∀ x, v.head? ≠ some (.ident x)) : Yields typeName ts v NamesBuiltin := by
  have integer {us : List Token} (read : Yields integerType us v NamesBuiltin)
      (struct : (us ++ v).head? ≠ some (.keyword .kwStruct)) :
      Yields typeName us v NamesBuiltin := by
    apply (refuses_token struct).bind.map.or_yields
    exact read.or
  have words (xs : List String) (widths : ∀ x ∈ xs, x ∈ widthWords) (some : xs ≠ []) :
      Yields typeName (xs.map .ident) v NamesBuiltin := by
    apply integer (yields_integerType [] widths other (.inl ⟨rfl, some⟩))
    cases xs with
    | nil => exact absurd rfl some
    | cons x xs => simp
  cases type with
  | @name x builtin =>
    by_cases width : x ∈ widthWords
    · exact words [x] (by simpa using width) (by simp)
    · refine (Grammar.yields_typeName width).mono ?_
      rintro _ ⟨id, rfl, rfl⟩
      exact ⟨id, rfl, builtin⟩
  | words widths some => exact words _ widths some
  | @signed k xs sign widths =>
    apply integer (yields_integerType [.keyword k] widths other (.inr ⟨k, rfl, sign⟩))
    rcases sign with rfl | rfl <;> simp

theorem BuiltinType.unqualified (type : BuiltinType ts) {t : Token}
    (word : t = .kernel ∨ t = .qualifier ∨ t = .attr) : (ts ++ v).head? ≠ some t := by
  cases type with
  | name => rcases word with rfl | rfl | rfl <;> simp
  | @words xs _ some =>
    cases xs with
    | nil => exact absurd rfl some
    | cons x xs => rcases word with rfl | rfl | rfl <;> simp
  | signed => rcases word with rfl | rfl | rfl <;> simp

private theorem BuiltinType.yields_castHead (type : BuiltinType ts) :
    Yields castHead (.sign .lParen :: (ts ++ [Token.sign .rParen])) v fun _ => True := by
  have closing : ∀ t ∈ (Token.sign .rParen :: v).head?, t.IsOperand := by
    intro t first
    cases first
    trivial
  have spec : Yields typeSpec ts (.sign .rParen :: v) fun r => NamesBuiltin r.2.name := by
    rw [← List.append_nil ts]
    apply Yields.bind (P := fun r : (Bool × TypeName × Nat) × Span => NamesBuiltin r.1.2.1)
    · apply Yields.spanned (P := fun r : Bool × TypeName × Nat => NamesBuiltin r.2.1)
      apply (yields_no_specifiers (type.unqualified (.inl rfl)) (type.unqualified (.inr (.inl rfl)))
        (type.unqualified (.inr (.inr rfl)))).bind (u := [])
      intro _ _
      rw [← List.append_nil ts]
      apply (type.yields_typeName (by simp)).bind
      intro name builtin
      apply (yields_specifiers closing).bind (u := []) (w := [])
      intro _ _
      apply (yields_stars 0 closing (by simp)).bind (u := []) (w := [])
      intro _ _
      exact yields_pure builtin
    · intro r builtin
      exact yields_pure builtin
  have plain : Yields plainType ts (.sign .rParen :: v) fun ty => NamesBuiltin ty.name :=
    spec.map fun _ builtin => builtin
  have castable : Yields castType ts (.sign .rParen :: v) fun ty => NamesBuiltin ty.name := by
    apply plain.demand
    rintro ty ⟨id, same, builtin⟩
    simp [isCastable, same, builtin]
  exact (yields_between castable).spanned.mono fun _ _ => trivial

end Types

section Operators

variable {inner : Parser Expr} {P : Expr → Prop}

def Ends (v : List Token) : Prop :=
  ∀ s, v.head? = some (.sign s) → s.joins = none ∨ s.joins = some 13

theorem Ends.head_ne {s : Sign} (ends : Ends v) (joins : s.joins ≠ none ∧ s.joins ≠ some 13) :
    v.head? ≠ some (.sign s) :=
  fun first => (ends s first).elim joins.1 joins.2

theorem Ends.refuses_operatorOf {α : Type} {table : List (Sign × α)} (ends : Ends v)
    (joins : ∀ r ∈ table, r.1.joins ≠ none ∧ r.1.joins ≠ some 13) : Refuses (operatorOf table) v :=
  Grammar.refuses_operatorOf fun r listed => ends.head_ne (joins r listed)

private theorem yields_tier {operator : Parser BinaryOp} {operand : Parser Expr}
    (read : Yields operand ts v P) (stuck : Refuses operator v) :
    Yields (tier operator operand) ts v P := by
  rw [← List.append_nil ts]
  apply read.bind (w := [])
  intro a holds
  apply stuck.bind.many.bind (u := []) (w := [])
  rintro _ rfl
  exact yields_pure holds

theorem Ends.yields_assignment (ends : Ends v) (operand : Yields (unary inner) ts v P) :
    Yields (assignment inner) ts v P := by
  have sole {s : Sign} {op : BinaryOp} (joins : s.joins ≠ none ∧ s.joins ≠ some 13) :
      Refuses (soleOperator s op) v := (refuses_token (ends.head_ne joins)).map
  have operators : ∀ operator ∈ binaryOperators, Refuses operator v := by
    simp only [binaryOperators, List.forall_mem_cons]
    exact ⟨ends.refuses_operatorOf (by decide), ends.refuses_operatorOf (by decide),
      ends.refuses_operatorOf (by decide), ends.refuses_operatorOf (by decide),
      ends.refuses_operatorOf (by decide), sole (by decide), sole (by decide), sole (by decide),
      sole (by decide), sole (by decide), by simp⟩
  have tiers (ops : List (Parser BinaryOp)) (all : ∀ operator ∈ ops, Refuses operator v)
      {operand : Parser Expr} (read : Yields operand ts v P) :
      Yields (ops.foldl (fun operand operator => tier operator operand) operand) ts v P := by
    induction ops generalizing operand with
    | nil => exact read
    | cons op ops ih =>
      obtain ⟨first, others⟩ := List.forall_mem_cons.mp all
      exact ih others (yields_tier read first)
  have binary : Yields (binary inner) ts v P := tiers binaryOperators operators operand
  exact Grammar.yields_assignment (yields_conditional binary (ends.head_ne (by decide)))
    (ends.refuses_operatorOf (by decide))

end Operators

section Operands

/-- In front of `v`, the expression rule reads the tokens to their end. -/
def IsExpr (ts v : List Token) : Prop := Yields expr ts v fun _ => True

/-- Further arguments in front of `v`, each behind a comma. -/
inductive FurtherArgs (v : List Token) : List Token → Prop
  | nil : FurtherArgs v []
  | cons {ts us : List Token} (value : IsExpr ts (us ++ v)) (others : FurtherArgs v us) :
      FurtherArgs v (.sign .comma :: (ts ++ us))

/-- Arguments in front of `v`, with commas between. -/
inductive Args (v : List Token) : List Token → Prop
  | nil : Args v []
  | cons {ts us : List Token} (value : IsExpr ts (us ++ v)) (others : FurtherArgs v us) :
      Args v (ts ++ us)

/-- Suffixes of an operand in front of `v`: calls, indices, members and steps. -/
inductive Suffixes (v : List Token) : List Token → Prop
  | nil : Suffixes v []
  | call {ts us : List Token} (args : Args (.sign .rParen :: (us ++ v)) ts)
      (others : Suffixes v us) : Suffixes v (.sign .lParen :: (ts ++ Token.sign .rParen :: us))
  | index {ts us : List Token} (sub : IsExpr ts (.sign .rBracket :: (us ++ v)))
      (others : Suffixes v us) : Suffixes v (.sign .lBracket :: (ts ++ Token.sign .rBracket :: us))
  | member {us : List Token} (arrow : Bool) (field : String) (others : Suffixes v us) :
      Suffixes v (.sign (if arrow then .arrow else .dot) :: .ident field :: us)
  | post {us : List Token} (op : PostOp) (others : Suffixes v us) :
      Suffixes v (.sign op.sign :: us)

/-- What an operand starts with in front of `v`: a name, a constant, a string or an expression
between parentheses. -/
inductive Primary (v : List Token) : List Token → Prop
  | leaf {t : Token} (leaf : t.IsLeaf) : Primary v [t]
  | parens {ts : List Token} (inside : IsExpr ts (.sign .rParen :: v)) :
      Primary v (.sign .lParen :: (ts ++ [Token.sign .rParen]))

private theorem isExpr_name (x : String) (stops : Stops 0 v) : IsExpr [.ident x] v := by
  have reads := (readsAs_name ⟨0, 0⟩ x).loosen (Nat.zero_le 13) (Nat.le_refl 13)
  exact (Yields.fix (reads.yields_exprAt (Nat.lt_succ_self _) stops)).mono fun _ _ => trivial

private theorem isExpr_int (n : Nat) (stops : Stops 0 v) : IsExpr [.int n] v := by
  have reads := (readsAs_int ⟨0, 0⟩ n).loosen (Nat.zero_le 13) (Nat.le_refl 13)
  exact (Yields.fix (reads.yields_exprAt (Nat.lt_succ_self _) stops)).mono fun _ _ => trivial

variable {D : Nat}

theorem FurtherArgs.rows (args : FurtherArgs v ts) (enough : ts.length + v.length ≤ D) :
    Rows (after (sign .comma) (exprAt D)) ts v fun _ => True := by
  induction args with
  | nil => exact rows_nil trivial
  | @cons ts us value others ih =>
    rw [List.length_cons, List.length_append] at enough
    have first : Yields (after (sign .comma) (exprAt D)) (.sign .comma :: ts) (us ++ v)
        fun _ => True := by
      apply Yields.bind (u := [.sign .comma]) yields_token
      intro _ _
      exact yields_exprAt value (by rw [List.length_append]; omega)
    exact Rows.cons first (by simp) (ih (by omega)) fun _ _ _ _ => trivial

theorem Args.yields (args : Args (.sign .rParen :: v) ts)
    (enough : ts.length + (v.length + 1) < D) :
    Yields (commaSep (exprAt D)) ts (.sign .rParen :: v) fun _ => True := by
  cases args with
  | nil =>
    have none : Refuses (exprAt D) (.sign .rParen :: v) := by
      apply refuses_unfold
      intro t first
      cases first
      rfl
    exact none.bind.or_yields (yields_pure trivial)
  | @cons ts us value others =>
    rw [List.length_append] at enough
    have stuck : Refuses (after (sign .comma) (exprAt D)) (.sign .rParen :: v) :=
      (refuses_token (by simp)).bind
    apply Yields.or
    apply (yields_exprAt value (by rw [List.length_append, List.length_cons]; omega)).bind
    intro a _
    rw [← List.append_nil us]
    apply ((others.rows (by rw [List.length_cons]; omega)).many stuck).bind
    intro as _
    exact yields_pure trivial

theorem Suffixes.rows (suffixes : Suffixes v ts) (enough : ts.length + v.length ≤ D) :
    Rows (suffix (exprAt D)) ts v fun _ => True := by
  induction suffixes with
  | nil => exact rows_nil trivial
  | @call ts us args others ih =>
    simp only [List.length_cons, List.length_append] at enough
    have first := yields_suffix_call (args.yields (D := D) (by rw [List.length_append]; omega))
    have joined := Rows.cons (R := fun _ => True) first (by simp) (ih (by omega))
      fun _ _ _ _ => trivial
    simpa using joined
  | @index ts us sub others ih =>
    simp only [List.length_cons, List.length_append] at enough
    have first := yields_suffix_index (yields_exprAt (D := D) sub
      (by rw [List.length_cons, List.length_append]; omega))
    have joined := Rows.cons (R := fun _ => True) first (by simp) (ih (by omega))
      fun _ _ _ _ => trivial
    simpa using joined
  | @member us arrow field others ih =>
    simp only [List.length_cons] at enough
    exact Rows.cons (yields_suffix_member arrow) (by simp) (ih (by omega)) fun _ _ _ _ => trivial
  | @post us op others ih =>
    simp only [List.length_cons] at enough
    exact Rows.cons (yields_suffix_post op) (by simp) (ih (by omega)) fun _ _ _ _ => trivial

private theorem Suffixes.exists_sign (suffixes : Suffixes v ts) (some : ts ≠ []) :
    ∃ s : Sign, (ts ++ v).head? = .some (.sign s) ∧ s.joins = .some 13 := by
  cases suffixes with
  | nil => exact absurd rfl some
  | call | index => exact ⟨_, rfl, rfl⟩
  | member arrow =>
    refine ⟨_, rfl, ?_⟩
    cases arrow <;> rfl
  | post op =>
    refine ⟨_, rfl, ?_⟩
    cases op <;> rfl

end Operands

section Casts

variable {inner : Parser Expr}

def castTokens (type operand : List Token) : List Token :=
  .sign .lParen :: (type ++ Token.sign .rParen :: operand)

private theorem refuses_unaryOps_lParen : Refuses (operatorOf unaryOps) (.sign .lParen :: v) := by
  have signs : ∀ r ∈ unaryOps, r.1 ≠ .lParen := by decide
  apply refuses_operatorOf
  intro r listed first
  exact signs r listed (Token.sign.inj (Option.some.inj first)).symm

private theorem castTokens_eq (type operand : List Token) :
    castTokens type operand =
      (Token.sign .lParen :: (type ++ [Token.sign .rParen])) ++ operand := by
  simp [castTokens]

private theorem yields_cast_parens (type : BuiltinType ts)
    (inside : Yields inner us (.sign .rParen :: v) fun _ => True) :
    Yields (unary inner) (castTokens ts (.sign .lParen :: (us ++ [Token.sign .rParen]))) v
      fun _ => True := by
  have others : Refuses (after (sign .comma) inner) (.sign .rParen :: v) :=
    (refuses_token (by simp)).bind
  have items : Yields (commaSep1 inner) us (.sign .rParen :: v) fun _ => True := by
    rw [← List.append_nil us]
    apply inside.bind
    intro _ _
    exact others.many.bind (u := []) (w := []) fun _ _ => yields_pure trivial
  have taken : Yields (components inner) (.sign .lParen :: (us ++ [Token.sign .rParen])) v
      fun _ => True := by
    rw [← List.append_nil (_ :: _)]
    exact (yields_between items).spanned.bind fun _ _ => yields_pure trivial
  apply Yields.fix
  apply Refuses.or_yields (Refuses.spanned refuses_unaryOps_lParen).bind
  apply Yields.or
  rw [castTokens_eq]
  apply type.yields_castHead.bind
  intro _ _
  rw [← List.append_nil (_ :: _)]
  exact taken.bind fun _ _ => yields_pure trivial

private theorem yields_cast_suffixed (type : BuiltinType ts) {t : Token}
    (operand : Yields (suffixed inner) (t :: us) v fun _ => True)
    (leaf : t.IsLeaf) : Yields (unary inner) (castTokens ts (t :: us)) v fun _ => True := by
  have unsigned (s : Sign) : (t :: us ++ v).head? ≠ some (.sign s) := by
    intro first
    cases first
    exact leaf
  have word : Refuses (keyword .kwSizeof) (t :: us ++ v) := by
    apply refuses_token
    intro first
    cases first
    exact leaf
  have operators : Refuses (operatorOf unaryOps) (t :: us ++ v) :=
    refuses_operatorOf fun r _ => unsigned r.1
  have head : Refuses castHead (t :: us ++ v) := (refuses_between (unsigned .lParen)).spanned
  have bare (depth : Nat) : Yields (unfold (unaryRule inner) (depth + 1)) (t :: us) v
      fun _ => True := by
    rw [unfold_succ]
    apply operators.spanned.bind.or_yields
    apply head.bind.or_yields
    apply head.bind.or_yields
    apply word.bind.spanned.bind.or_yields
    apply word.bind.spanned.bind.or_yields
    exact operand.or
  have vector : Refuses (components inner) (t :: us ++ v) :=
    (refuses_between (unsigned .lParen)).spanned.bind
  apply Yields.fix
  have deep : (castTokens ts (t :: us)).length + v.length =
      (ts.length + us.length + v.length + 2) + 1 := by
    simp [castTokens]
    omega
  rw [deep, unfold_succ, castTokens_eq]
  apply Refuses.or_yields (Refuses.spanned refuses_unaryOps_lParen).bind
  apply Refuses.or_yields
  · rw [List.append_assoc]
    exact type.yields_castHead.bind_refuses fun _ _ => vector.bind
  · apply Yields.or
    apply type.yields_castHead.bind
    intro _ _
    rw [← List.append_nil (_ :: us)]
    exact (bare _).bind fun _ _ => yields_pure trivial

variable {type primary suffixes : List Token}

private theorem isExpr_cast_parens (builtin : BuiltinType type)
    (inside : IsExpr ts (.sign .rParen :: v))
    (ends : Ends v) :
    IsExpr (castTokens type (.sign .lParen :: (ts ++ [Token.sign .rParen]))) v := by
  apply Yields.fix
  rw [unfold_succ]
  apply ends.yields_assignment
  apply yields_cast_parens builtin
  apply yields_exprAt inside
  simp [castTokens]
  omega

private theorem yields_atom {t : Token} (leaf : t.IsLeaf) :
    Yields (atom inner) [t] v fun _ => True := by
  cases t with
  | int | float | char | str =>
    apply Yields.or
    apply Yields.bind (u := [_]) (w := []) (P := fun _ : (Span → Expr) × Span => True)
    · apply Yields.spanned (P := fun _ : Span → Expr => True)
      unfold select
      exact yields_next rfl trivial
    · intro r _
      exact yields_pure trivial
  | ident x =>
    have unread : Refuses literal ([Token.ident x] ++ v) := by
      apply Refuses.bind
      apply Refuses.spanned
      unfold select
      apply refuses_next
      intro t first
      cases first
      rfl
    apply unread.or_yields
    apply Yields.or
    exact Yields.bind (w := []) yields_ident fun _ _ => yields_pure trivial
  | keyword | kernel | qualifier | attr | sign => exact leaf.elim

private theorem Suffixes.yields_suffixed {D : Nat} {t : Token} (suffixes : Suffixes v ts)
    (leaf : t.IsLeaf) (stuck : Stops 13 v) (enough : ts.length + v.length ≤ D) :
    Yields (suffixed (exprAt D)) (t :: ts) v fun _ => True := by
  apply (yields_atom leaf).bind (u := [t])
  intro _ _
  rw [← List.append_nil ts]
  exact ((suffixes.rows enough).many (refuses_suffix stuck)).bind fun _ _ => yields_pure trivial

private theorem isExpr_cast_suffixed (builtin : BuiltinType type) {t : Token} (leaf : t.IsLeaf)
    (suffixes : Suffixes v ts) (stuck : Stops 13 v) (ends : Ends v) :
    IsExpr (castTokens type (t :: ts)) v := by
  apply Yields.fix
  rw [unfold_succ]
  apply ends.yields_assignment
  apply yields_cast_suffixed builtin _ leaf
  apply suffixes.yields_suffixed leaf stuck
  simp [castTokens]
  omega

end Casts

section Returned

variable {P : Expr → Prop}

private theorem refuses_jump (value : Yields expr ts v P)
    (other : v.head? ≠ some (.sign .semicolon)) :
    Refuses jump (.keyword .kwReturn :: (ts ++ v)) := by
  apply Yields.bind_refuses (u := .keyword .kwReturn :: ts) (P := fun _ => True)
  · apply (refuses_token (head_return_ne (by decide))).map.or_yields
    apply (refuses_token (head_return_ne (by decide))).map.or_yields
    apply Yields.or
    apply Yields.bind (u := [.keyword .kwReturn]) yields_token
    intro _ _
    rw [← List.append_nil ts]
    exact value.optional.bind fun _ _ => yields_pure trivial
  · intro _ _
    exact (refuses_token other).bind

private theorem refuses_jump_cast {type suffixes : List Token} (builtin : BuiltinType type)
    (inside : IsExpr ts (.sign .rParen :: (suffixes ++ v))) (behind : Suffixes v suffixes)
    (some : suffixes ≠ []) : Refuses jump (.keyword .kwReturn ::
      (castTokens type (.sign .lParen :: (ts ++ [Token.sign .rParen]) ++ suffixes) ++ v)) := by
  obtain ⟨s, first, joins⟩ := behind.exists_sign some
  have ends : Ends (suffixes ++ v) := by
    intro s' first'
    have same : s = s' := Token.sign.inj (Option.some.inj (first.symm.trans first'))
    exact .inr (same ▸ joins)
  have other : (suffixes ++ v).head? ≠ .some (.sign .semicolon) := by
    intro first'
    have same : s = .semicolon := Token.sign.inj (Option.some.inj (first.symm.trans first'))
    subst same
    cases joins
  have unread := refuses_jump (isExpr_cast_parens builtin inside ends) other
  simpa [castTokens] using unread

private theorem refuses_plainType_return : Refuses plainType (.keyword .kwReturn :: v) := by
  have unnamed : Refuses ident (.keyword .kwReturn :: v) :=
    refuses_ident fun x => head_return_ne (by simp)
  have unsigned : Refuses signedness (.keyword .kwReturn :: v) := by
    unfold signedness select
    apply refuses_next
    intro t first
    cases first
    rfl
  have integer : Refuses integerType (.keyword .kwReturn :: v) :=
    (unsigned.bind.or (unnamed.guard.bind.bind.or refuses_choice_nil)).spanned.bind
  have name : Refuses typeName (.keyword .kwReturn :: v) :=
    (refuses_token (head_return_ne (by decide))).bind.map.or
      (integer.or (unnamed.map.or refuses_choice_nil))
  apply Refuses.map
  apply Refuses.bind
  apply Refuses.spanned
  exact (yields_no_specifiers (head_return_ne (by decide)) (head_return_ne (by decide))
    (head_return_ne (by decide))).bind_refuses (u := []) fun _ _ => name.bind

private theorem refuses_stmtBody_return {inner : Parser Stmt}
    (unread : Refuses jump (.keyword .kwReturn :: v)) :
    Refuses (stmtBody inner) (.keyword .kwReturn :: v) := by
  have word {k : Keyword} (other : k ≠ .kwReturn) :
      Refuses (keyword k) (.keyword .kwReturn :: v) :=
    refuses_token (head_return_ne fun same => other (Token.keyword.inj same).symm)
  have value : Refuses expr (.keyword .kwReturn :: v) := by
    apply Refuses.fix
    intro depth
    apply refuses_assignment
    intro t first
    cases first
    rfl
  have named : Refuses ident (.keyword .kwReturn :: v) :=
    refuses_ident fun x => head_return_ne (by simp)
  have declared : Refuses decl (.keyword .kwReturn :: v) :=
    (Refuses.bind refuses_plainType_return).spanned.bind
  apply (refuses_between (head_return_ne (by decide))).map.or
  apply (word (by decide)).bind.or
  apply (word (by decide)).bind.or
  apply (word (by decide)).bind.or
  apply (word (by decide)).bind.or
  apply (word (by decide)).bind.or
  apply (word (by decide)).bind.or
  apply (word (by decide)).bind.or
  apply unread.or
  apply named.bind.bind.or
  apply declared.bind.bind.or
  apply value.bind.bind.or
  exact (refuses_token (head_return_ne (by decide))).map.or refuses_choice_nil

private theorem records_stmtBody {inner : Parser Stmt} : Records (stmtBody inner) :=
  Records.choice [_, _, _, _, _, _, _, _, _, _, _, _] (Records.map records_token)

private theorem complains_stmt (unread : Refuses jump (.keyword .kwReturn :: v)) :
    Complains stmt (.keyword .kwReturn :: v) := by
  apply Complains.fix
  intro depth
  have body : Refuses (stmtBody (unfold stmtRule depth)) (.keyword .kwReturn :: v) :=
    refuses_stmtBody_return unread
  exact (body.complains.recover records_stmtBody).spanned.bind (r := False) fun _ => .pure _

private theorem refuses_global : Refuses (before decl (sign .semicolon))
    (.ident "void" :: .ident "f" :: .sign .lParen :: v) := by
  have name : ∀ t ∈ (Token.ident "f" :: .sign .lParen :: v).head?, t.IsOperand := by
    intro t first
    cases first
    trivial
  have one : Yields declarator [.ident "f"] (.sign .lParen :: v) fun _ => True := by
    apply Yields.bind (u := [.ident "f"]) (w := []) (P := fun _ => True)
    · apply Yields.spanned (P := fun _ => True)
      apply (yields_stars 0 name (by simp)).bind (u := [])
      intro _ _
      apply Yields.bind (u := [.ident "f"]) (w := []) yields_ident
      intro _ _
      apply (refuses_between (by simp)).many.bind (u := []) (w := [])
      intro _ _
      apply (refuses_token (by simp)).bind.optional.bind (u := []) (w := [])
      intro _ _
      exact yields_pure trivial
    · intro _ _
      exact yields_pure trivial
  have type : Yields plainType [.ident "void"] (.ident "f" :: .sign .lParen :: v) fun _ => True :=
    (yields_typeSpec 0 (by decide) name (by simp)).map fun _ _ => trivial
  have whole : Yields decl [.ident "void", .ident "f"] (.sign .lParen :: v) fun _ => True := by
    apply Yields.bind (u := [.ident "void", .ident "f"]) (w := []) (P := fun _ => True)
    · apply Yields.spanned (P := fun _ => True)
      apply type.bind (u := [.ident "void"])
      intro _ _
      apply Yields.bind (u := [.ident "f"]) (w := []) (P := fun _ => True)
      · apply one.bind (u := [.ident "f"]) (w := [])
        intro _ _
        apply (refuses_token (by simp)).bind.many.bind (u := []) (w := [])
        intro _ _
        exact yields_pure trivial
      · intro _ _
        exact yields_pure trivial
    · intro _ _
      exact yields_pure trivial
  exact whole.bind_refuses fun _ _ => (refuses_token (by simp)).bind

private theorem complains_item
    (unread : Refuses jump (.keyword .kwReturn :: (ts ++ [Token.sign .semicolon, .sign .rBrace]))) :
    Complains item (returningTokens ts) := by
  have body : Complains body (bodyTokens ts) := by
    have stmts : Complains (many stmt >>= fun body => sign .rBrace >>= fun _ => pure body)
        (.keyword .kwReturn :: (ts ++ [Token.sign .semicolon, .sign .rBrace])) :=
      (complains_stmt unread).many_bind built_stmt
        (refuses_token (head_return_ne (by decide))).bind fun _ => Built.sign.bind fun _ => .pure _
    have braced : Complains (bracedStmts stmt) (bodyTokens ts) := by
      have split : bodyTokens ts = [Token.sign .lBrace] ++
          (Token.keyword .kwReturn :: (ts ++ [Token.sign .semicolon, .sign .rBrace])) := by
        simp [bodyTokens]
      rw [split]
      exact Yields.bind_complains yields_token fun _ _ => stmts
    exact braced.spanned.bind (r := False) fun _ => .pure _
  have ending : Complains bodyOrEnd (bodyTokens ts) :=
    body.map.or (Refuses.complains (refuses_token (by simp [bodyTokens])).map)
  have function : Complains function (returningTokens ts) := by
    apply Complains.bind (r := False) _ fun _ => .pure _
    apply Complains.spanned
    apply Yields.bind_complains (u := [.ident "void"]) (yields_typeSpec 0 (by decide) _ (by simp))
    · rintro ⟨isKernel, ret⟩ -
      apply Yields.bind_complains (u := [.ident "f"]) yields_ident
      intro _ _
      apply Yields.bind_complains (u := [.sign .lParen, .sign .rParen]) yields_no_params
      intro _ _
      apply (refuses_attributeList (by simp)).many.bind_complains (u := [])
      intro _ _
      exact ending.bind (r := False) fun _ => .pure _
    · intro t first
      cases first
      trivial
  have struct : Refuses structDef (returningTokens ts) :=
    refuses_structDef (by simp [returningTokens]) (by simp [returningTokens])
  have aka : Refuses typedef (returningTokens ts) := refuses_typedef (by simp [returningTokens])
  have sound : Complains soundItem (returningTokens ts) :=
    struct.map.complains.or (aka.map.complains.or (function.map.or
      ((Refuses.map refuses_global).complains.or (Refuses.complains refuses_choice_nil))))
  exact sound.map.recover (Records.map records_soundItem)

end Returned

end Grammar

open Grammar Lexical

private theorem defects_eq_nil_iff (text : String) : (parse text).defects = [] ↔
    (lex text).strays = [] ∧ (parseTokens (lex text).tokens text.utf8ByteSize).2 = [] := by
  -- The outcome is made a variable before anything is reduced: the grammar must not be run.
  unfold parse
  extract_lets lexed
  generalize parseTokens lexed.tokens text.utf8ByteSize = outcome
  cases outcome
  simp only [List.append_eq_nil_iff, List.map_eq_nil_iff]
  exact Iff.rfl

/-- A function that returns the cast of an operand to a builtin type is read without a defect
exactly if the operand starts with no parenthesis or has no suffix. -/
theorem cast_read_iff (text : String) {type primary suffixes : List Token}
    (builtin : BuiltinType type)
    (operand : Primary (suffixes ++ [Token.sign .semicolon, .sign .rBrace]) primary)
    (behind : Suffixes [.sign .semicolon, .sign .rBrace] suffixes)
    (tokens : (lex text).tokens.map Lexeme.token =
      returningTokens (castTokens type (primary ++ suffixes)))
    (clean : (lex text).strays = []) :
    (parse text).defects = [] ↔ (primary.head? = some (.sign .lParen) → suffixes = []) := by
  have closing : Ends [.sign .semicolon, .sign .rBrace] := by
    intro s first
    cases first
    exact .inl rfl
  rw [defects_eq_nil_iff]
  constructor
  · rintro ⟨-, quiet⟩ opens
    by_contra some
    cases operand with
    | leaf leaf =>
      cases opens
      exact leaf
    | parens inside =>
      have first : Parser.Complains item ((lex text).tokens.map Lexeme.token) := by
        rw [tokens]
        exact complains_item (refuses_jump_cast builtin inside behind some)
      have nonempty : (lex text).tokens ≠ [] := by
        intro none
        rw [none] at tokens
        cases tokens
      exact failures_ne_nil first nonempty quiet
  · intro fits
    have value : IsExpr (castTokens type (primary ++ suffixes))
        [.sign .semicolon, .sign .rBrace] := by
      have stuck : Stops 13 [.sign .semicolon, .sign .rBrace] := stops_closing rfl
      cases operand with
      | leaf leaf => exact isExpr_cast_suffixed builtin leaf behind stuck closing
      | parens inside =>
        cases fits rfl
        rw [List.append_nil]
        exact isExpr_cast_parens builtin inside closing
    obtain ⟨unit, _, _, _, _, parsed, _⟩ := parseTokens_returning text.utf8ByteSize value tokens
    exact ⟨clean, by rw [parsed]⟩

/-- All suffixes behind a name, and parentheses without a suffix. -/
theorem cast_read_iff_sample :
    (parse (returning "(unsigned int)g(a, 1)[b].x->y++")).defects = [] ∧
    (parse (returning "(float4)(a)")).defects = [] := by
  have args : Args (.sign .rParen :: ([Token.sign .lBracket, .ident "b", .sign .rBracket,
      .sign .dot, .ident "x", .sign .arrow, .ident "y", .sign .plusPlus] ++
        [Token.sign .semicolon, .sign .rBrace]))
      ([Token.ident "a"] ++ Token.sign .comma :: ([Token.int 1] ++ [])) :=
    .cons (isExpr_name "a" (stops_closing rfl)) (.cons (isExpr_int 1 (stops_closing rfl)) .nil)
  have behind : Suffixes [.sign .semicolon, .sign .rBrace] (.sign .lParen ::
      ([Token.ident "a", .sign .comma, .int 1] ++ Token.sign .rParen :: .sign .lBracket ::
        ([Token.ident "b"] ++ [Token.sign .rBracket, .sign .dot, .ident "x", .sign .arrow,
          .ident "y", .sign .plusPlus]))) :=
    .call args (.index (isExpr_name "b" (stops_closing rfl)) (.member false "x" (.member true "y"
      (.post .inc .nil))))
  have int : ∀ x ∈ ["int"], x ∈ widthWords := by decide
  have unsigned : BuiltinType [.keyword .kwUnsigned, .ident "int"] := .signed (.inr rfl) int
  have float4 : BuiltinType [.ident "float4"] := .name (by decide +kernel)
  have parens : Primary ([] ++ [Token.sign .semicolon, .sign .rBrace])
      (.sign .lParen :: ([Token.ident "a"] ++ [Token.sign .rParen])) :=
    .parens (isExpr_name "a" (stops_closing rfl))
  constructor
  · obtain ⟨tokens, clean⟩ : (lex (returning "(unsigned int)g(a, 1)[b].x->y++")).tokens.map
        Lexeme.token = returningTokens (castTokens [.keyword .kwUnsigned, .ident "int"]
          ([Token.ident "g"] ++ [Token.sign .lParen, .ident "a", .sign .comma, .int 1,
            .sign .rParen, .sign .lBracket, .ident "b", .sign .rBracket, .sign .dot, .ident "x",
            .sign .arrow, .ident "y", .sign .plusPlus])) ∧
        (lex (returning "(unsigned int)g(a, 1)[b].x->y++")).strays = [] := by
      decide +kernel
    have name : (Token.ident "g").IsLeaf := trivial
    refine (cast_read_iff _ unsigned (.leaf name) behind tokens clean).mpr ?_
    intro opens
    cases opens
  · obtain ⟨tokens, clean⟩ : (lex (returning "(float4)(a)")).tokens.map Lexeme.token =
        returningTokens (castTokens [.ident "float4"]
          ([Token.sign .lParen, .ident "a", .sign .rParen] ++ [])) ∧
        (lex (returning "(float4)(a)")).strays = [] := by
      decide +kernel
    exact (cast_read_iff _ float4 parens .nil tokens clean).mpr fun _ => rfl

/-- An index behind a name between parentheses is left over. -/
theorem cast_of_parens_unread : ∃ type primary suffixes, BuiltinType type ∧
    Primary (suffixes ++ [Token.sign .semicolon, .sign .rBrace]) primary ∧
    Suffixes [.sign .semicolon, .sign .rBrace] suffixes ∧
    (lex (returning "(int)(a)[0]")).tokens.map Lexeme.token =
      returningTokens (castTokens type (primary ++ suffixes)) ∧
    (lex (returning "(int)(a)[0]")).strays = [] ∧
    (parse (returning "(int)(a)[0]")).defects ≠ [] := by
  have facts : (lex (returning "(int)(a)[0]")).tokens.map Lexeme.token =
      returningTokens (castTokens [.ident "int"] ([Token.sign .lParen, .ident "a", .sign .rParen] ++
        [Token.sign .lBracket, .int 0, .sign .rBracket])) ∧
      (lex (returning "(int)(a)[0]")).strays = [] ∧
      (parse (returning "(int)(a)[0]")).defects ≠ [] := by
    decide +kernel
  have operand : Primary ([Token.sign .lBracket, .int 0, .sign .rBracket] ++
      [Token.sign .semicolon, .sign .rBrace])
      (.sign .lParen :: ([Token.ident "a"] ++ [Token.sign .rParen])) :=
    .parens (isExpr_name "a" (stops_closing rfl))
  have behind : Suffixes [.sign .semicolon, .sign .rBrace]
      (.sign .lBracket :: ([Token.int 0] ++ [Token.sign .rBracket])) :=
    .index (isExpr_int 0 (stops_closing rfl)) .nil
  exact ⟨_, _, _, .name (by decide +kernel), operand, behind, facts⟩

end Lockstep
