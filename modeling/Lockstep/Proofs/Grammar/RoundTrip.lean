import Lockstep.Proofs.Grammar.Precedence
import Lockstep.Grammar.Item
/-!
An expression written with blanks between its tokens, and with parentheses where an operand is
looser than its position admits, is read back from the text of a function that returns it. The
loosest operand that may stand bare before an assignment operator is one of the tier of `||`: the
last branch of a conditional is any expression, an assignment included.
-/

set_option autoImplicit false
set_option relaxedAutoImplicit false

namespace Lockstep

def Token.written : Token → String
  | ident name => name
  | t => t.display

/-- The expression written out, a blank between any two tokens. -/
def Expr.written (target : Nat) (e : Expr) : String :=
  " ".intercalate ((e.tokens target).map Token.written)

/-- The text of a function that does nothing but return what is written. -/
def returning (text : String) : String := "void f() \x7b return " ++ text ++ "; \x7d"

/-- The file holds a function `f` whose body only returns the expression, wherever that stands. -/
def SourceUnit.Returns (unit : SourceUnit) (e : Expr) : Prop :=
  ∃ f block span e', unit.items = [.function f] ∧ f.name.name = "f" ∧ f.body = some block ∧
    block.stmts = [.returnJump span (some e')] ∧ e.SameShape e'

/-- The text is read without a defect, as such a function. -/
def ReadAsReturn (text : String) (e : Expr) : Prop :=
  (parse (returning text)).defects = [] ∧
    ∃ unit, (parse (returning text)).unit = some unit ∧ unit.Returns e

namespace Lexical

private theorem spelled_sign (s : Sign) : Spelled s.spelling.toList (.sign s) := by
  have listed : s ∈ Sign.all := by cases s <;> decide
  exact spelled_fixed (List.mem_append_right _ (List.mem_map.mpr ⟨s, listed, rfl⟩))

private theorem spelled_written {t : Token} (written : t.IsWritten) :
    Spelled t.written.toList t := by
  cases t with
  | int n => exact spelled_int written
  | ident x => exact spelled_ident written
  | sign s => exact spelled_sign s
  | keyword word =>
    cases written
    exact spelled_fixed (by decide)
  | kernel | qualifier | attr | float | char | str => exact written.elim

def bodyTokens (ts : List Token) : List Token :=
  Token.sign .lBrace :: ((Token.keyword .kwReturn :: (ts ++ [Token.sign .semicolon])) ++
    [Token.sign .rBrace])

def returningTokens (ts : List Token) : List Token :=
  Token.ident "void" :: Token.ident "f" :: Token.sign .lParen :: Token.sign .rParen ::
    bodyTokens ts

private theorem lexes_returning {ts : List Token} (each : ∀ t ∈ ts, t.IsWritten)
    (nonempty : ts ≠ []) :
    Lexes (returning (" ".intercalate (ts.map Token.written))).toList (returningTokens ts) := by
  have void : Spelled ['v', 'o', 'i', 'd'] (.ident "void") := by
    simpa using spelled_ident (x := "void") (by decide +kernel)
  have f : Spelled ['f'] (.ident "f") := by
    simpa using spelled_ident (x := "f") (by decide +kernel)
  have word : Spelled ['r', 'e', 't', 'u', 'r', 'n'] (.keyword .kwReturn) := by
    have listed : ("return", Token.keyword .kwReturn) ∈ fixedSpellings := by decide
    simpa using spelled_fixed listed
  have lParen : Spelled ['('] (.sign .lParen) := by
    simpa [Sign.spelling] using spelled_sign .lParen
  have rParen : Spelled [')'] (.sign .rParen) := by
    simpa [Sign.spelling] using spelled_sign .rParen
  have lBrace : Spelled ['\x7b'] (.sign .lBrace) := by
    simpa [Sign.spelling] using spelled_sign .lBrace
  have rBrace : Spelled ['\x7d'] (.sign .rBrace) := by
    simpa [Sign.spelling] using spelled_sign .rBrace
  have semicolon : Spelled [';'] (.sign .semicolon) := by
    simpa [Sign.spelling] using spelled_sign .semicolon
  have blank : ' ' ∈ separators := by decide
  have close := semicolon.lexes (separated_cons blank)
    (rBrace.lexes_blank (rBrace.lexes (by simp) .nil))
  obtain ⟨value, opens⟩ := lexes_spaced (fun t listed => spelled_written (each t listed)) nonempty
    (separated_cons (by decide)) close
  have statement := word.lexes (separated_cons blank) (lexes_blank opens value)
  have body := lBrace.lexes (separated_cons blank) (word.lexes_blank statement)
  have closed := rParen.lexes (separated_cons blank) (lBrace.lexes_blank body)
  have parens := lParen.lexes (separated_cons (by decide)) closed
  have name := f.lexes (separated_cons (by decide)) parens
  have whole := void.lexes (separated_cons blank) (f.lexes_blank name)
  have front : "void f() \x7b return ".toList =
      ['v', 'o', 'i', 'd', ' ', 'f', '(', ')', ' ', '\x7b', ' ', 'r', 'e', 't', 'u', 'r', 'n', ' '] := by
    decide
  have inside : (" ".intercalate (ts.map Token.written)).toList =
      [' '].intercalate (ts.map fun t => t.written.toList) := by
    simp [String.toList_intercalate, Function.comp_def]
  have back : "; \x7d".toList = [';', ' ', '\x7d'] := by decide
  unfold returning
  simp only [String.toList_append, front, inside, back, List.append_assoc]
  have row : returningTokens ts = Token.ident "void" :: Token.ident "f" :: Token.sign .lParen ::
      Token.sign .rParen :: Token.sign .lBrace :: Token.keyword .kwReturn ::
        (ts ++ [Token.sign .semicolon, Token.sign .rBrace]) := by
    simp [returningTokens, bodyTokens]
  rw [row]
  exact whole

end Lexical

namespace Grammar

open Lockstep.Parser Lockstep.Lexical

variable {ts v : List Token} {P : Expr → Prop}

/-- What makes a statement of its range that returns an expression with the property. -/
private def MakesReturn (P : Expr → Prop) (make : Span → Stmt) : Prop :=
  ∃ e, make = (fun span => .returnJump span (some e)) ∧ P e

theorem head_return_ne {t : Token} (different : Token.keyword .kwReturn ≠ t) :
    (Token.keyword .kwReturn :: v).head? ≠ some t :=
  fun first => different (Option.some.inj first)

private theorem yields_jump (value : Yields expr ts (.sign .semicolon :: v) P) :
    Yields jump (.keyword .kwReturn :: (ts ++ [Token.sign .semicolon])) v (MakesReturn P) := by
  apply Yields.bind (u := .keyword .kwReturn :: ts) (w := [.sign .semicolon]) (P := MakesReturn P)
  · apply (refuses_token (head_return_ne (by decide))).map.or_yields
    apply (refuses_token (head_return_ne (by decide))).map.or_yields
    apply Yields.or
    apply Yields.bind (u := [.keyword .kwReturn]) yields_token
    intro _ _
    rw [← List.append_nil ts]
    apply Yields.bind value.optional
    rintro _ ⟨e, rfl, holds⟩
    exact yields_pure ⟨e, rfl, holds⟩
  · intro make holds
    exact Yields.bind (u := [.sign .semicolon]) (w := []) yields_token fun _ _ => yields_pure holds

private theorem yields_returnStmt (value : Yields expr ts (.sign .semicolon :: v) P) :
    Yields stmt (.keyword .kwReturn :: (ts ++ [Token.sign .semicolon])) v fun s =>
      ∃ span e, s = .returnJump span (some e) ∧ P e := by
  apply Yields.fix
  rw [unfold_succ, ← List.append_nil (_ :: _)]
  apply Yields.bind (P := fun r : (Span → Stmt) × Span => MakesReturn P r.1)
  · apply Yields.spanned
    apply Yields.recover
    apply (refuses_between (head_return_ne (by decide))).map.or_yields
    apply (refuses_token (head_return_ne (by decide))).bind.or_yields
    apply (refuses_token (head_return_ne (by decide))).bind.or_yields
    apply (refuses_token (head_return_ne (by decide))).bind.or_yields
    apply (refuses_token (head_return_ne (by decide))).bind.or_yields
    apply (refuses_token (head_return_ne (by decide))).bind.or_yields
    apply (refuses_token (head_return_ne (by decide))).bind.or_yields
    apply (refuses_token (head_return_ne (by decide))).bind.or_yields
    exact (yields_jump value).or
  · rintro ⟨make, span⟩ ⟨e, rfl, holds⟩
    exact yields_pure ⟨span, e, rfl, holds⟩

private theorem refuses_plainType (operand : ∀ t ∈ v.head?, t.IsOperand)
    (other : ∀ x, v.head? ≠ some (.ident x)) : Refuses plainType v :=
  (refuses_typeSpec operand other).map

private theorem refuses_decl (operand : ∀ t ∈ v.head?, t.IsOperand)
    (other : ∀ x, v.head? ≠ some (.ident x)) : Refuses decl v :=
  (refuses_plainType operand other).bind.spanned.bind

theorem refuses_braceGroup (other : v.head? ≠ some (.sign .lBrace)) : Refuses braceGroup v := by
  unfold braceGroup group
  apply Refuses.fix
  intro depth
  exact (refuses_between other).bind

theorem refuses_stmt_rBrace : Refuses stmt (.sign .rBrace :: v) := by
  have operand : ∀ t ∈ (Token.sign .rBrace :: v).head?, t.IsOperand := by
    intro t first
    cases first
    trivial
  have unnamed (x : String) : (Token.sign .rBrace :: v).head? ≠ some (.ident x) := by simp
  have starts : ∀ t ∈ (Token.sign .rBrace :: v).head?, startsExpr t = false := by
    intro t first
    cases first
    rfl
  have word (k : Keyword) : Refuses (keyword k) (.sign .rBrace :: v) := refuses_token (by simp)
  have value : Refuses expr (.sign .rBrace :: v) := Refuses.fix fun _ => refuses_assignment starts
  have jumped : Refuses jump (.sign .rBrace :: v) := by
    apply Refuses.bind
    apply (word _).map.or
    apply (word _).map.or
    apply (word _).bind.or
    exact (word _).bind.or refuses_choice_nil
  have broken : Refuses brokenStmt (.sign .rBrace :: v) := by
    apply Refuses.bind
    apply Refuses.bind
    apply (refuses_braceGroup (by simp)).or
    refine Refuses.or ?_ refuses_choice_nil
    apply Refuses.bind
    apply Yields.guard_refuses (u := [.sign .rBrace]) (P := fun t => t = .sign .rBrace)
      (yields_next rfl rfl)
    rintro _ rfl
    rfl
  apply Refuses.fix
  intro depth
  apply Refuses.bind
  apply Refuses.spanned
  apply Refuses.recover _ broken.map
  apply (refuses_between (by simp)).map.or
  apply (word _).bind.or
  apply (word _).bind.or
  apply (word _).bind.or
  apply (word _).bind.or
  apply (word _).bind.or
  apply (word _).bind.or
  apply (word _).bind.or
  apply jumped.or
  apply (refuses_ident unnamed).bind.bind.or
  apply (refuses_decl operand unnamed).bind.bind.or
  apply value.bind.bind.or
  exact (refuses_token (by simp)).map.or refuses_choice_nil

theorem refuses_structDef (other : v.head? ≠ some (.keyword .kwTypedef))
    (other' : v.head? ≠ some (.keyword .kwStruct)) : Refuses structDef v := by
  apply Refuses.bind
  apply Refuses.spanned
  apply (refuses_token other).optional.bind_refuses (u := [])
  intro _ _
  exact (refuses_token other').bind

theorem refuses_typedef (other : v.head? ≠ some (.keyword .kwTypedef)) : Refuses typedef v :=
  (refuses_token other).bind.spanned.bind

theorem refuses_item_nil : Refuses item [] := by
  have operand : ∀ t ∈ ([] : List Token).head?, t.IsOperand := by
    intro t first
    cases first
  have unnamed (x : String) : ([] : List Token).head? ≠ some (.ident x) := by simp
  have inert : Refuses inertToken [] := by
    apply Refuses.bind
    apply Refuses.guard
    apply refuses_next
    intro t first
    cases first
  have struct : Refuses structDef [] := refuses_structDef (by simp) (by simp)
  have aka : Refuses typedef [] := refuses_typedef (by simp)
  have function : Refuses function [] := (refuses_typeSpec operand unnamed).bind.spanned.bind
  have global : Refuses decl [] := refuses_decl operand unnamed
  apply Refuses.recover
  · apply Refuses.map
    apply struct.map.or
    apply aka.map.or
    apply function.map.or
    refine Refuses.or ?_ refuses_choice_nil
    apply Refuses.map
    apply Refuses.bind
    exact global
  · apply Refuses.map
    apply inert.many.bind_refuses (u := [])
    intro _ _
    apply (refuses_token (by simp)).or
    apply (refuses_braceGroup (by simp)).or
    exact (refuses_token (by simp)).or refuses_choice_nil

private theorem yields_body (value : Yields expr ts [.sign .semicolon, .sign .rBrace] P) :
    Yields body (bodyTokens ts) [] fun block =>
      ∃ span e, block.stmts = [.returnJump span (some e)] ∧ P e := by
  have rows : Rows stmt (.keyword .kwReturn :: (ts ++ [Token.sign .semicolon])) [.sign .rBrace]
      fun stmts => ∃ span e, stmts = [.returnJump span (some e)] ∧ P e := by
    rw [← List.append_nil (_ :: _)]
    apply Rows.cons (yields_returnStmt value) (by simp) (rows_nil (Q := fun ss => ss = []) rfl)
    rintro s _ ⟨span, e, rfl, holds⟩ rfl
    exact ⟨span, e, rfl, holds⟩
  rw [← List.append_nil (bodyTokens ts)]
  apply Yields.bind (P := fun r : List Stmt × Span =>
    ∃ span e, r.1 = [.returnJump span (some e)] ∧ P e)
  · apply Yields.spanned (P := fun stmts : List Stmt =>
      ∃ span e, stmts = [.returnJump span (some e)] ∧ P e)
    exact yields_between (rows.many refuses_stmt_rBrace)
  · intro r holds
    exact yields_pure holds

/-- A function that only returns an expression with the property. -/
private def ReturnsIn (P : Expr → Prop) (f : Function) : Prop :=
  ∃ block span e, f.name.name = "f" ∧ f.body = some block ∧
    block.stmts = [.returnJump span (some e)] ∧ P e

theorem yields_no_params :
    Yields (between .lParen (commaSep param) .rParen) [.sign .lParen, .sign .rParen] v
      fun _ => True := by
  have unnamed : Refuses param (.sign .rParen :: v) := by
    apply Refuses.bind
    apply Refuses.spanned
    apply Refuses.bind
    apply refuses_plainType
    · intro t first
      cases first
      trivial
    · simp
  exact yields_between (u := []) (unnamed.bind.or_yields (yields_pure trivial))

private theorem yields_function
    (value : Yields expr ts [.sign .semicolon, .sign .rBrace] P) :
    Yields function (returningTokens ts) [] (ReturnsIn P) := by
  have split : returningTokens ts = [Token.ident "void"] ++ ([Token.ident "f"] ++
      ([Token.sign .lParen, Token.sign .rParen] ++ ([] ++ (bodyTokens ts ++ [])))) ++ [] := by
    simp [returningTokens]
  have foreign : "void" ∉ widthWords := by decide
  rw [split]
  apply Yields.bind (P := fun r : (Span → Function) × Span => ∀ span, ReturnsIn P (r.1 span))
  · apply Yields.spanned (P := fun make : Span → Function => ∀ span, ReturnsIn P (make span))
    apply Yields.bind (yields_typeSpec 0 foreign _ _)
    · rintro ⟨isKernel, ret⟩ -
      apply yields_ident.bind
      intro name named
      apply Yields.bind yields_no_params
      intro params _
      apply (refuses_attributeList (by simp [bodyTokens])).many.bind
      intro _ _
      apply Yields.bind (P := fun b : Option Block => ∃ block, b = some block ∧
        ∃ span e, block.stmts = [.returnJump span (some e)] ∧ P e)
      · apply Yields.or
        exact (yields_body value).map fun block holds => ⟨block, rfl, holds⟩
      · rintro _ ⟨block, rfl, span, e, stmts, holds⟩
        exact yields_pure fun _ => ⟨block, span, e, named, rfl, stmts, holds⟩
    · intro t first
      cases first
      trivial
    · simp
  · intro r holds
    exact yields_pure (holds r.2)

private theorem yields_item {Q : Function → Prop} (read : Yields function ts v Q)
    (other : (ts ++ v).head? ≠ some (.keyword .kwTypedef))
    (other' : (ts ++ v).head? ≠ some (.keyword .kwStruct)) :
    Yields item ts v fun o => ∃ f, o = some (.function f) ∧ Q f := by
  apply Yields.recover
  apply Yields.map (P := fun i : Item => ∃ f, i = .function f ∧ Q f)
  · apply (refuses_structDef other other').map.or_yields
    apply (refuses_typedef other).map.or_yields
    apply Yields.or
    exact read.map fun f holds => ⟨f, rfl, holds⟩
  · rintro _ ⟨f, rfl, holds⟩
    exact ⟨f, rfl, holds⟩

private theorem yields_sourceUnit {Q : List (Option Item) → Prop} (rows : Rows item ts [] Q) :
    Yields (before sourceUnit atEnd) ts [] fun unit => ∃ items, Q items ∧
      unit.items = items.filterMap id := by
  have items : Yields (before (many item) atEnd) ts [] Q := by
    rw [← List.append_nil ts]
    apply (rows.many refuses_item_nil).bind
    intro items holds
    exact yields_atEnd.bind (u := []) fun _ _ => yields_pure holds
  rw [← List.append_nil ts]
  apply Yields.bind (P := fun unit : SourceUnit => ∃ items, Q items ∧
    unit.items = items.filterMap id)
  · rw [← List.append_nil ts]
    apply Yields.bind (P := fun r : List (Option Item) × Span => Q r.1) items.spanned
    intro r holds
    exact yields_pure ⟨r.1, holds, rfl⟩
  · intro unit holds
    exact yields_atEnd.bind (u := []) fun _ _ => yields_pure holds

private theorem parseTokens_of_succeeds {tokens : List Lexeme} {length : Nat} {unit : SourceUnit}
    {d : Cursor} (run : Succeeds (before sourceUnit atEnd) (.start tokens length) unit d) :
    parseTokens tokens length = (some unit, []) := by
  obtain ⟨furthest, outcome⟩ := run {}
  unfold parseTokens
  simp only [outcome]

/-- A function that returns what the expression rule reads is read without a failure. -/
theorem parseTokens_returning {tokens : List Lexeme} (length : Nat)
    (value : Yields expr ts [.sign .semicolon, .sign .rBrace] P)
    (words : tokens.map Lexeme.token = returningTokens ts) :
    ∃ unit f block span e, parseTokens tokens length = (some unit, []) ∧
      unit.items = [.function f] ∧ f.name.name = "f" ∧ f.body = some block ∧
      block.stmts = [.returnJump span (some e)] ∧ P e := by
  have one := yields_item (yields_function value) (by simp [returningTokens])
    (by simp [returningTokens])
  have rows : Rows item (returningTokens ts) [] fun items =>
      ∃ f, items = [some (.function f)] ∧ ReturnsIn P f := by
    rw [← List.append_nil (returningTokens ts)]
    apply Rows.cons one (by simp [returningTokens]) (rows_nil (Q := fun items => items = []) rfl)
    rintro _ _ ⟨f, rfl, returns⟩ rfl
    exact ⟨f, rfl, returns⟩
  obtain ⟨unit, d, outcome, -, -, ⟨f, rfl, block, span, e, facts⟩, items⟩ :=
    yields_sourceUnit rows (.start tokens length) (by rw [List.append_nil]; exact words)
  exact ⟨unit, f, block, span, e, parseTokens_of_succeeds outcome, items, facts⟩

end Grammar

section Main

open Lexical Grammar

variable {target : Nat} {e e' : Expr}

private theorem readAsReturn_of_yields {ts : List Token} (each : ∀ t ∈ ts, t.IsWritten)
    (nonempty : ts ≠ [])
    (value : Parser.Yields expr ts [.sign .semicolon, .sign .rBrace] e.SameShape) :
    ReadAsReturn (" ".intercalate (ts.map Token.written)) e := by
  obtain ⟨tokens, strays⟩ := (lexes_returning each nonempty).lex
  unfold ReadAsReturn
  generalize returning (" ".intercalate (ts.map Token.written)) = text at tokens strays ⊢
  obtain ⟨unit, f, block, span, e', parsed, returns⟩ :=
    parseTokens_returning text.utf8ByteSize value tokens
  unfold parse
  simp only [strays, parsed]
  exact ⟨rfl, unit, rfl, f, block, span, e', returns⟩

theorem ReadAsReturn.unique {text : String} (first : ReadAsReturn text e)
    (second : ReadAsReturn text e') : e.SameShape e' := by
  obtain ⟨-, unit, parsed, f, block, span, e₁, items, -, body, stmts, same⟩ := first
  obtain ⟨-, unit', parsed', f', block', span', e₂, items', -, body', stmts', same'⟩ := second
  cases parsed.symm.trans parsed'
  cases items.symm.trans items'
  cases body.symm.trans body'
  cases stmts.symm.trans stmts'
  exact same.trans same'.symm

/-- A written expression is read back, up to where it stands, provided that no conditional stands
bare before an assignment operator. -/
theorem parse_written (admits : 2 ≤ target) (writable : e.Writable) :
    ReadAsReturn (e.written target) e := by
  have phrase : Phrase (e.tokens target) := writable.phrase
  obtain ⟨t, rest, nonempty, -⟩ := phrase.opens
  apply readAsReturn_of_yields phrase.written (by simp [nonempty])
  exact yields_expr admits writable (stops_closing rfl)

theorem parse_written_nested : ∃ e : Expr, e.Writable ∧
    e.written 2 = "( a ? b : c ) <<= a - b - ( c - * f ( x ++ , sizeof y -> z [ 0 ] ) )" ∧
    ReadAsReturn (e.written 2) e := by
  let name (x : String) : Expr := .name ⟨0, 0⟩ x
  let minus : Expr → Expr → Expr := .binary ⟨0, 0⟩ .sub
  have named {x : String} (identifier : IsIdentifier x) (value : isBuiltinType x = false) :
      (name x).Writable := .name identifier value
  have a : (name "a").Writable := named (by decide +kernel) (by decide +kernel)
  have b : (name "b").Writable := named (by decide +kernel) (by decide +kernel)
  have c : (name "c").Writable := named (by decide +kernel) (by decide +kernel)
  have f : (name "f").Writable := named (by decide +kernel) (by decide +kernel)
  have x : (name "x").Writable := named (by decide +kernel) (by decide +kernel)
  have y : (name "y").Writable := named (by decide +kernel) (by decide +kernel)
  let call : Expr := .call ⟨0, 0⟩ (name "f") [.post ⟨0, 0⟩ .inc (name "x"),
    .sizeofExpr ⟨0, 0⟩ (.index ⟨0, 0⟩ (.member ⟨0, 0⟩ (name "y") ⟨"z", ⟨0, 0⟩⟩ true) (.int ⟨0, 0⟩ 0))]
  have called : call.Writable := by
    refine .call f ?_
    simp only [List.mem_cons, List.not_mem_nil, or_false, forall_eq_or_imp, forall_eq]
    exact ⟨.post x, .sizeofExpr (.index (.member y (by decide +kernel)) (.int (by decide)))⟩
  let e : Expr := .assign ⟨0, 0⟩ .shl (.conditional ⟨0, 0⟩ (name "a") (name "b") (name "c"))
    (minus (minus (name "a") (name "b")) (minus (name "c") (.unary ⟨0, 0⟩ .deref call)))
  have writable : e.Writable :=
    .assign (.conditional a b c) (.binary (.binary a b) (.binary c (.unary called)))
  exact ⟨e, writable, by decide +kernel, parse_written (Nat.le_refl 2) writable⟩

/-- A conditional that stands bare before an assignment operator takes the assignment into its last
branch. -/
theorem bare_conditional_takes_assignment : ∃ e : Expr, e.Writable ∧
    e.written 1 = "a ? b : c = d" ∧ ¬ ReadAsReturn (e.written 1) e := by
  let name (x : String) : Expr := .name ⟨0, 0⟩ x
  have named {x : String} (identifier : IsIdentifier x) (value : isBuiltinType x = false) :
      (name x).Writable := .name identifier value
  have a : (name "a").Writable := named (by decide +kernel) (by decide +kernel)
  have b : (name "b").Writable := named (by decide +kernel) (by decide +kernel)
  have c : (name "c").Writable := named (by decide +kernel) (by decide +kernel)
  have d : (name "d").Writable := named (by decide +kernel) (by decide +kernel)
  let e : Expr :=
    .assign ⟨0, 0⟩ .assign (.conditional ⟨0, 0⟩ (name "a") (name "b") (name "c")) (name "d")
  have writable : e.Writable := .assign (.conditional a b c) d
  refine ⟨e, writable, by decide +kernel, ?_⟩
  intro back
  let other : Expr :=
    .conditional ⟨0, 0⟩ (name "a") (name "b") (.assign ⟨0, 0⟩ .assign (name "c") (name "d"))
  have reads (x : String) {k : Nat} (le : k ≤ 13) : ReadsAs [.ident x] (name x) k :=
    (readsAs_name ⟨0, 0⟩ x).loosen le (Nat.le_refl 13)
  have whole : ReadsAs (e.tokens 1) other 1 :=
    readsAs_conditional (reads "a" (by decide)) (reads "b" (by decide))
      (readsAs_assign (reads "c" (by decide)) (reads "d" (by decide)))
  have phrase : Phrase (e.tokens 1) := writable.phrase
  have taken : ReadAsReturn (e.written 1) other := by
    apply readAsReturn_of_yields phrase.written (by simp [e, Expr.tokens])
    apply Parser.Yields.fix
    exact whole.unassigned.yields_exprAt (Nat.lt_succ_self _) (stops_closing rfl)
  cases back.unique taken

end Main

end Lockstep
