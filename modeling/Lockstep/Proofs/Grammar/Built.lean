import Lockstep.Grammar.Item
import Mathlib.Tactic.SplitIfs
/-!
Parsers built with the combinators. All rules of the grammar are, so what every combinator keeps
holds of the whole grammar. Here this is what failures may name: tokens of the text, and words and
signs of the language.
-/

set_option autoImplicit false
set_option relaxedAutoImplicit false

namespace Lockstep

/-- Is the token a word or a sign of the language, without a value of its own? -/
def Token.isFixed : Token → Bool
  | keyword _ | kernel | qualifier | attr | sign _ => true
  | float _ | int _ | char | str _ | ident _ => false

/-- What is expected is a word or sign of the language, or no single token. -/
def Expected.isFixed : Expected → Bool
  | token t => t.isFixed
  | identifier | anyToken | somethingElse | endOfInput => true

def Reason.isBare : Reason → Bool
  | notAType => true
  | unexpected _ _ => false

section Named

variable (ok : Token → Prop)

def Expected.Names : Expected → Prop
  | token t => ok t
  | identifier | anyToken | somethingElse | endOfInput => True

def Reason.Names : Reason → Prop
  | notAType => True
  | unexpected expected found => (∀ e ∈ expected, e.Names ok) ∧ ∀ t ∈ found, ok t

/-- The tokens that the failures of a log name all pass. -/
structure Log.Names (log : Log) : Prop where
  furthest : ∀ f ∈ log.furthest, f.reason.Names ok
  reported : ∀ f ∈ log.reported, f.reason.Names ok

def Cursor.Holds (c : Cursor) : Prop := ∀ l ∈ c.rest, ok l.token

end Named

variable {ok : Token → Prop}

private theorem Expected.names_of_isFixed (words : ∀ t : Token, t.isFixed = true → ok t)
    {e : Expected}
    (fixed : e.isFixed = true) : e.Names ok := by
  cases e with
  | token t => exact words t fixed
  | identifier | anyToken | somethingElse | endOfInput => exact trivial

theorem Reason.Names.merge {old new : Reason} (left : old.Names ok) (right : new.Names ok) :
    (old.merge new).Names ok := by
  have united {xs ys : List Expected} (first : ∀ e ∈ xs, e.Names ok)
      (second : ∀ e ∈ ys, e.Names ok) : ∀ e ∈ unite xs ys, e.Names ok := fun e member =>
    (List.mem_append.mp member).elim (first e) fun kept => second e (List.mem_filter.mp kept).1
  cases old with
  | notAType => exact trivial
  | unexpected olds found =>
    cases new with
    | notAType => exact trivial
    | unexpected news seen =>
      rw [Reason.merge]
      split
      · exact ⟨united right.1 left.1, left.2⟩
      · exact ⟨united left.1 right.1, left.2⟩

namespace Log.Names

variable {log : Log}

theorem failed (names : log.Names ok) {f : Failure} (new : f.reason.Names ok) :
    (log.failed f).Names ok := by
  refine ⟨?_, names.reported⟩
  rintro g ⟨⟩
  unfold Failure.furthest
  split
  · exact new
  next f' known =>
    have old := names.furthest f' known
    split_ifs
    · exact new
    · exact old.merge new
    · exact old

theorem tried (names : log.Names ok) {c : Cursor} {span : Span} {expected : Expected}
    {found : Option Token} (this : expected.Names ok) (seen : ∀ t ∈ found, ok t) :
    (log.tried c span expected found).Names ok := by
  refine ⟨?_, names.reported⟩
  have alone : (Reason.unexpected [expected] found).Names ok :=
    ⟨fun e member => List.mem_singleton.mp member ▸ this, seen⟩
  rintro g ⟨⟩
  unfold Failure.tried
  split
  · exact alone
  next f known =>
    have old := names.furthest f known
    simp only
    split_ifs
    · exact alone
    · split
      · exact old
      next es first reason =>
        rw [reason] at old
        refine ⟨?_, ?_⟩
        · split_ifs
          · exact old.1
          · exact fun e member => (List.mem_append.mp member).elim (old.1 e)
              fun last => List.mem_singleton.mp last ▸ this
        · cases first with
          | none => exact seen
          | some t => exact old.2
    · exact old

theorem backTo {before : Log} (names : log.Names ok) (earlier : before.Names ok) :
    (log.backTo before).Names ok := ⟨names.furthest, earlier.reported⟩

end Log.Names

namespace Parser

/-- Built with the combinators, from parsers of single tokens; with `recover` only if `r` holds. -/
inductive Built (r : Prop) : {α : Type} → Parser α → Prop
  | pure {α : Type} (a : α) : Built r (pure a)
  | fail {α : Type} : Built r (fail : Parser α)
  | next {α : Type} {expected : Expected} {read : Token → Option α}
    (fixed : expected.isFixed = true) : Built r (next expected read)
  | atEnd : Built r atEnd
  | bind {α β : Type} {p : Parser α} {f : α → Parser β} (first : Built r p)
    (second : ∀ a, Built r (f a)) : Built r (p >>= f)
  | spanned {α : Type} {p : Parser α} (inner : Built r p) : Built r (spanned p)
  | guard {α : Type} {p : Parser α} {accepts : α → Bool} (inner : Built r p) :
    Built r (guard p accepts)
  | demand {α : Type} {p : Parser α} {accepts : α → Bool} {reason : Reason}
    (bare : reason.isBare = true) (inner : Built r p) : Built r (demand p accepts reason)
  | or {α : Type} {p q : Parser α} (first : Built r p) (second : Built r q) : Built r (or p q)
  | many {α : Type} {p : Parser α} (inner : Built r p) : Built r (many p)
  | lookAhead {α : Type} {p : Parser α} (inner : Built r p) : Built r (lookAhead p)
  | recover {α : Type} {p skip : Parser α} (allowed : r) (first : Built r p)
    (second : Built r skip) : Built r (recover p skip)
  | unfolded {α : Type} {rule : Parser α → Parser α} (depths : ∀ n, Built r (unfold rule n)) :
    Built r (fix rule)

variable {r : Prop}

namespace Built

variable {α β : Type} {p : Parser α} {q : Parser β}

theorem map {f : α → β} (inner : Built r p) : Built r (f <$> p) := inner.bind fun a => .pure (f a)

theorem token {t : Token} (fixed : t.isFixed = true) : Built r (token t) := .next fixed

theorem sign {s : Sign} : Built r (sign s) := token rfl

theorem keyword {k : Keyword} : Built r (keyword k) := token rfl

theorem select {read : Token → Option α} : Built r (select read) := .next rfl

theorem anyToken : Built r anyToken := .next rfl

theorem optional (inner : Built r p) : Built r (optional p) := inner.map.or (.pure none)

theorem many1 (inner : Built r p) : Built r (many1 p) :=
  inner.bind fun a => inner.many.bind fun as => .pure (a :: as)

theorem before (first : Built r p) (second : Built r q) : Built r (before p q) :=
  first.bind fun a => second.bind fun _ => .pure a

theorem after (first : Built r p) (second : Built r q) : Built r (after p q) := first.bind fun _ => second

theorem between {opening closing : Sign} (inner : Built r p) : Built r (between opening p closing) :=
  sign.bind fun _ => inner.bind fun a => sign.bind fun _ => .pure a

theorem commaSep1 (inner : Built r p) : Built r (commaSep1 p) :=
  inner.bind fun a => (sign.after inner).many.bind fun as => .pure (a :: as)

theorem commaSep (inner : Built r p) : Built r (commaSep p) := inner.commaSep1.or (.pure [])

theorem commaSepEnd (inner : Built r p) : Built r (commaSepEnd p) :=
  (inner.commaSep1.before sign.optional).or (.pure [])

theorem chainLeft {join : α → β → α → α} (operand : Built r p) (operator : Built r q) :
    Built r (chainLeft p q join) :=
  operand.bind fun _ =>
    (operator.bind fun op => operand.bind fun rhs => .pure (op, rhs)).many.bind fun _ => .pure _

section Unfolded

variable {rule : Parser α → Parser α} (step : ∀ inner, Built r inner → Built r (rule inner))

include step

theorem unfold (n : Nat) : Built r (Parser.unfold rule n) := by
  induction n with
  | zero => exact .fail
  | succ n ih => exact step _ ih

theorem fix : Built r (fix rule) := .unfolded (unfold step)

end Unfolded

end Built

/-- From tokens that pass, leaves a log of tokens that pass, and such tokens behind what it read. -/
def Keeps {α : Type} (ok : Token → Prop) (p : Parser α) : Prop :=
  ∀ c log, c.Holds ok → log.Names ok →
    (p c log).2.Names ok ∧ ∀ a d, (p c log).1 = some (a, d) → d.Holds ok

private theorem holds_of_none {ok : Token → Prop} {α : Type} (a : α) (d : Cursor)
    (read : (none : Option (α × Cursor)) = some (a, d)) : d.Holds ok := by
  cases read

/-! ### What each combinator keeps -/

namespace Keeps

variable {α β : Type} {p q : Parser α}

theorem pure (a : α) : Keeps ok (Pure.pure a : Parser α) :=
  fun c log ahead names => ⟨names, by rintro _ _ ⟨⟩; exact ahead⟩

theorem fail : Keeps ok (Parser.fail : Parser α) := fun _ _ _ names => ⟨names, holds_of_none⟩

theorem next {expected : Expected} (this : expected.Names ok) (read : Token → Option α) :
    Keeps ok (Parser.next expected read) := by
  intro c log ahead names
  unfold Parser.next
  split
  next l rest tokens =>
    rw [Cursor.Holds, tokens] at ahead
    obtain ⟨first, others⟩ := List.forall_mem_cons.mp ahead
    split
    · exact ⟨names, by rintro _ _ ⟨⟩; exact others⟩
    · exact ⟨names.tried this (by rintro _ ⟨⟩; exact first), holds_of_none⟩
  next => exact ⟨names.tried this (by simp), holds_of_none⟩

theorem atEnd : Keeps ok Parser.atEnd := by
  intro c log ahead names
  unfold Parser.atEnd
  split
  · exact ⟨names, by rintro _ _ ⟨⟩; exact ahead⟩
  next l rest tokens =>
    refine ⟨names.tried trivial ?_, holds_of_none⟩
    rintro _ ⟨⟩
    exact ahead l (tokens ▸ List.mem_cons_self)

theorem bind {f : α → Parser β} (first : Keeps ok p) (second : ∀ a, Keeps ok (f a)) :
    Keeps ok (p >>= f) := by
  intro c log ahead names
  obtain ⟨logged, behind⟩ := first c log ahead names
  rcases ran : p c log with ⟨_ | ⟨a, d⟩, log'⟩
  · rw [ran] at logged
    simp only [Bind.bind, ran]
    exact ⟨logged, holds_of_none⟩
  · rw [ran] at logged behind
    simp only [Bind.bind, ran]
    exact second a d log' (behind a d rfl) logged

theorem spanned (inner : Keeps ok p) : Keeps ok (Parser.spanned p) := by
  intro c log ahead names
  obtain ⟨logged, behind⟩ := inner c log ahead names
  unfold Parser.spanned
  split
  next a d log' ran =>
    rw [ran] at logged behind
    exact ⟨logged, by rintro _ _ ⟨⟩; exact behind a d rfl⟩
  next log' ran =>
    rw [ran] at logged
    exact ⟨logged, holds_of_none⟩

theorem guard (inner : Keeps ok p) (accepts : α → Bool) : Keeps ok (Parser.guard p accepts) := by
  intro c log ahead names
  obtain ⟨logged, behind⟩ := inner c log ahead names
  unfold Parser.guard
  split
  next a d log' ran =>
    rw [ran] at logged behind
    split_ifs
    · exact ⟨logged, by rintro _ _ ⟨⟩; exact behind a d rfl⟩
    · exact ⟨logged.tried trivial (by simp), by simp⟩
  next log' ran =>
    rw [ran] at logged
    exact ⟨logged, holds_of_none⟩

theorem demand {reason : Reason} (inner : Keeps ok p) (stated : reason.Names ok)
    (accepts : α → Bool) : Keeps ok (Parser.demand p accepts reason) := by
  intro c log ahead names
  obtain ⟨logged, behind⟩ := inner c { log with furthest := none } ahead ⟨by simp, names.reported⟩
  unfold Parser.demand
  split
  next a d inside ran =>
    rw [ran] at logged behind
    have back : Log.Names ok { inside with furthest := log.furthest } :=
      ⟨names.furthest, logged.reported⟩
    simp only
    split_ifs
    · split
      next f furthest =>
        exact ⟨back.failed (logged.furthest f furthest), by rintro _ _ ⟨⟩; exact behind a d rfl⟩
      next => exact ⟨back, by rintro _ _ ⟨⟩; exact behind a d rfl⟩
    · exact ⟨back.failed stated, by simp⟩
  next inside ran =>
    rw [ran] at logged
    exact ⟨logged, holds_of_none⟩

theorem or (first : Keeps ok p) (second : Keeps ok q) : Keeps ok (Parser.or p q) := by
  intro c log ahead names
  obtain ⟨logged, behind⟩ := first c log ahead names
  unfold Parser.or
  split
  next r log' ran =>
    rw [ran] at logged behind
    exact ⟨logged, by rintro _ _ ⟨⟩; exact behind _ _ rfl⟩
  next log' ran =>
    rw [ran] at logged
    exact second c _ ahead (logged.backTo names)

theorem manyWithin (inner : Keeps ok p) (rounds : Nat) {c : Cursor} {log : Log} (ahead : c.Holds ok)
    (names : log.Names ok) :
    (p.manyWithin rounds c log).2.Names ok ∧ (p.manyWithin rounds c log).1.2.Holds ok := by
  induction rounds generalizing c log with
  | zero => exact ⟨names, ahead⟩
  | succ rounds ih =>
    have ⟨logged, behind⟩ := inner c log ahead names
    unfold Parser.manyWithin
    split
    next a d log' ran =>
      rw [ran] at logged behind
      exact ih (behind a d rfl) logged
    next log' ran =>
      rw [ran] at logged
      exact ⟨logged.backTo names, ahead⟩

theorem many (inner : Keeps ok p) : Keeps ok (Parser.many p) := by
  intro c log ahead names
  obtain ⟨logged, behind⟩ := inner.manyWithin (c.rest.length + 1) ahead names
  refine ⟨logged, fun as d ran => ?_⟩
  have last : (p.manyWithin (c.rest.length + 1) c log).1.2 = d :=
    congrArg Prod.snd (Option.some.inj ran)
  exact last ▸ behind

theorem lookAhead (inner : Keeps ok p) : Keeps ok (Parser.lookAhead p) := by
  intro c log ahead names
  obtain ⟨logged, -⟩ := inner c log ahead names
  unfold Parser.lookAhead
  split
  next a d log' ran =>
    rw [ran] at logged
    exact ⟨logged.backTo names, by rintro _ _ ⟨⟩; exact ahead⟩
  next log' ran =>
    rw [ran] at logged
    exact ⟨logged, holds_of_none⟩

theorem recover (first : Keeps ok p) (second : Keeps ok q) : Keeps ok (Parser.recover p q) := by
  intro c log ahead names
  obtain ⟨logged, behind⟩ := first c log ahead names
  unfold Parser.recover
  split
  next r log' ran =>
    rw [ran] at logged behind
    exact ⟨logged, by rintro _ _ ⟨⟩; exact behind _ _ rfl⟩
  next log' ran =>
    rw [ran] at logged
    obtain ⟨skipped, beyond⟩ := second c ⟨none, log.reported⟩ ahead ⟨by simp, names.reported⟩
    split
    next r after passed =>
      rw [passed] at skipped beyond
      refine ⟨⟨skipped.furthest, ?_⟩, by rintro _ _ ⟨⟩; exact beyond _ _ rfl⟩
      exact fun f member => (List.mem_append.mp member).elim (skipped.reported f)
        fun last => logged.furthest f (Option.mem_toList.mp last)
    next => exact ⟨⟨logged.furthest, names.reported⟩, holds_of_none⟩

end Keeps

/-- What holds of the words and signs of the language, and of the tokens ahead, is kept. -/
theorem Built.keeps (words : ∀ t : Token, t.isFixed = true → ok t) {α : Type} {p : Parser α}
    (built : Built r p) : Keeps ok p := by
  induction built with
  | pure a => exact .pure a
  | fail => exact .fail
  | next fixed => exact .next (Expected.names_of_isFixed words fixed) _
  | atEnd => exact .atEnd
  | bind _ _ first second => exact first.bind second
  | spanned _ inner => exact inner.spanned
  | guard _ inner => exact inner.guard _
  | @demand _ _ _ reason bare _ inner =>
    cases reason with
    | notAType => exact inner.demand (by trivial) _
    | unexpected es found => exact absurd bare Bool.false_ne_true
  | or _ _ first second => exact first.or second
  | many _ inner => exact inner.many
  | lookAhead _ inner => exact inner.lookAhead
  | recover _ _ _ first second => exact first.recover second
  | unfolded _ depths => exact fun c log => depths (c.rest.length + 1) c log

end Parser

namespace Grammar

open Lockstep.Parser

variable {r : Prop}

private theorem built_ident : Built r ident := (Built.next rfl).spanned.bind fun _ => .pure _

private theorem built_group (opening closing : Sign) : Built r (group opening closing) :=
  .fix fun _ inner => (inner.or (Built.anyToken.guard.map.or .fail)).many.between.bind
    fun _ => .pure ()

private theorem built_attributeList :
    Built r attributeList := (Built.token rfl).after (built_group _ _)

private theorem built_specifiers : Built r specifiers :=
  ((Built.token rfl).map.or ((Built.token rfl).map.or (built_attributeList.map.or .fail))).many.bind
    fun _ => .pure _

private theorem built_typeName : Built r typeName := by
  have word : Built r widthWord := built_ident.guard
  have signed : Built r (do
      let unsigned ← signedness
      let words ← many widthWord
      return (unsigned, words)) := Built.select.bind fun _ => word.many.bind fun _ => .pure _
  have plain : Built r (do
      let words ← many1 widthWord
      return (false, words)) := word.many1.bind fun _ => .pure _
  have integer : Built r integerType := (signed.or (plain.or .fail)).spanned.bind fun _ => .pure _
  exact (Built.keyword.after built_ident).map.or (integer.or (built_ident.map.or .fail))

private theorem built_stars : Built r stars :=
  (Built.sign.before (Built.token rfl).many).many.bind fun _ => .pure _

private theorem built_typeSpec : Built r typeSpec :=
  (built_specifiers.bind fun _ => built_typeName.bind fun _ => built_specifiers.bind fun _ =>
    built_stars.bind fun _ => .pure _).spanned.bind fun _ => .pure _

private theorem built_plainType : Built r plainType := built_typeSpec.map

private theorem built_castType : Built r castType := built_plainType.demand rfl

section Expressions

variable {expr : Parser Expr}

private theorem built_operatorOf {α : Type} (table : List (Sign × α)) :
    Built r (operatorOf table) := .select

private theorem built_atom (inner : Built r expr) : Built r (atom expr) := by
  have literal : Built r literal := Built.select.spanned.bind fun _ => .pure _
  have name : Built r nameExpr := built_ident.bind fun _ => .pure _
  have list : Built r (initList expr) := inner.commaSepEnd.between.spanned.bind fun _ => .pure _
  exact literal.or (name.or (inner.between.or (list.or .fail)))

private theorem built_suffixed (inner : Built r expr) : Built r (suffixed expr) := by
  have field (s : Sign) (arrow : Bool) :
      Built r ((Suffix.member · arrow) <$> after (sign s) ident) := (Built.sign.after built_ident).map
  have step (s : Sign) (op : PostOp) : Built r ((fun _ => Suffix.post op) <$> sign s) := Built.sign.map
  have suffix : Built r (suffix expr) :=
    (inner.commaSep.between.map.or (inner.between.map.or ((field _ _).or ((field _ _).or
      ((step _ _).or ((step _ _).or .fail)))))).spanned
  exact (built_atom inner).bind fun _ => suffix.many.bind fun _ => .pure _

private theorem built_unary (inner : Built r expr) : Built r (unary expr) := by
  have castOf {operand : Parser Expr} (operand' : Built r operand) : Built r (castOf operand) :=
    built_castType.between.spanned.bind fun _ => operand'.bind fun _ => .pure _
  have components : Built r (components expr) := inner.commaSep1.between.spanned.bind fun _ => .pure _
  refine .fix fun operand built => ?_
  refine .or ?_ ((castOf components).or ((castOf built).or (.or ?_ (.or ?_
    ((built_suffixed inner).or .fail)))))
  · exact (built_operatorOf _).spanned.bind fun _ => built.bind fun _ => .pure _
  · exact (Built.keyword.after built_castType.between).spanned.bind fun _ => .pure _
  · exact (Built.keyword.after built).spanned.bind fun _ => .pure _

private theorem built_binary (inner : Built r expr) : Built r (binary expr) := by
  have operators : ∀ operator ∈ binaryOperators, Built r operator := by
    have sole (s : Sign) (op : BinaryOp) : Built r (soleOperator s op) := Built.sign.map
    simp only [binaryOperators, List.forall_mem_cons, List.not_mem_nil, false_imp_iff,
      implies_true, and_true, built_operatorOf, sole]
  have tiers (ops : List (Parser BinaryOp)) (all : ∀ operator ∈ ops, Built r operator)
      {operand : Parser Expr} (built : Built r operand) :
      Built r (ops.foldl (fun operand operator => tier operator operand) operand) := by
    induction ops generalizing operand with
    | nil => exact built
    | cons op ops ih =>
      obtain ⟨first, others⟩ := List.forall_mem_cons.mp all
      exact ih others (built.chainLeft first)
  exact tiers binaryOperators operators (built_unary inner)

theorem built_assignment (inner : Built r expr) : Built r (assignment expr) := by
  have branches : Built r (optional do
      sign .question
      let t ← expr
      sign .colon
      let e ← expr
      return (t, e)) :=
    (Built.sign.bind fun _ => inner.bind fun _ => Built.sign.bind fun _ => inner.bind fun _ =>
      .pure _).optional
  have conditional : Built r (conditional expr) := by
    refine (built_binary inner).bind fun _ => branches.bind fun r => ?_
    cases r <;> exact .pure _
  have assigned : Built r (optional do
      let op ← operatorOf assignOps
      let value ← expr
      return (op, value)) :=
    ((built_operatorOf _).bind fun _ => inner.bind fun _ => .pure _).optional
  refine conditional.bind fun _ => assigned.bind fun r => ?_
  cases r <;> exact .pure _

private theorem built_expr : Built r Grammar.expr := .fix fun _ inner => built_assignment inner

end Expressions

section Statements

private theorem built_arrayDims : Built r arrayDims := built_expr.optional.between.many

private theorem built_declarator : Built r declarator :=
  (built_stars.bind fun _ => built_ident.bind fun _ => built_arrayDims.bind fun _ =>
    (Built.sign.after built_expr).optional.bind fun _ => .pure _).spanned.bind fun _ => .pure _

private theorem built_decl : Built r decl :=
  (built_plainType.bind fun _ => built_declarator.commaSep1.bind fun _ => .pure _).spanned.bind
    fun _ => .pure _

private theorem built_inertToken : Built r inertToken := Built.anyToken.guard.bind fun _ => .pure ()

private theorem built_brokenStmt : Built r brokenStmt :=
  ((built_group _ _).or (built_inertToken.or .fail)).many1.bind fun _ =>
    Built.sign.or (Built.sign.lookAhead.or (Built.atEnd.lookAhead.or .fail))

private theorem built_parenCond : Built r parenCond := built_expr.between

private theorem built_forHead : Built r forHead := by
  have init : Built r forInit := built_decl.map.or (built_expr.spanned.bind fun _ => .pure _)
  exact Built.between ((init.optional.before .sign).bind fun _ =>
    (built_expr.optional.before .sign).bind fun _ => built_expr.optional.bind fun _ => .pure _)

private theorem built_jump : Built r jump := by
  have breaks : Built r ((fun _ => Stmt.breakJump) <$> keyword .kwBreak) := Built.keyword.map
  have continues : Built r ((fun _ => Stmt.continueJump) <$> keyword .kwContinue) := Built.keyword.map
  have returns : Built r (do
      keyword .kwReturn
      let value ← optional Grammar.expr
      return fun span => Stmt.returnJump span value) :=
    Built.keyword.bind fun _ => built_expr.optional.bind fun _ => .pure _
  have gotos : Built r (do
      keyword .kwGoto
      let target ← ident
      return fun span => Stmt.gotoJump span target) :=
    Built.keyword.bind fun _ => built_ident.bind fun _ => .pure _
  exact (breaks.or (continues.or (returns.or (gotos.or .fail)))).before .sign

variable {stmt : Parser Stmt}

private theorem built_stmtBody (inner : Built r stmt) : Built r (stmtBody stmt) := by
  have ifStmt : Built r (ifStmt stmt) := by
    refine Built.keyword.bind fun _ => built_parenCond.bind fun _ => inner.bind fun _ => ?_
    refine (Built.keyword.after inner).optional.bind fun e => ?_
    cases e <;> exact .pure _
  have forStmt : Built r (forStmt stmt) :=
    Built.keyword.bind fun _ => built_forHead.bind fun _ => inner.bind fun _ => .pure _
  have whileStmt : Built r (whileStmt stmt) :=
    Built.keyword.bind fun _ => built_parenCond.bind fun _ => inner.bind fun _ => .pure _
  have doStmt : Built r (doStmt stmt) :=
    Built.keyword.bind fun _ => inner.bind fun _ => Built.keyword.bind fun _ =>
      built_parenCond.bind fun _ => Built.sign.bind fun _ => .pure _
  have switchStmt : Built r (switchStmt stmt) :=
    Built.keyword.bind fun _ => built_parenCond.bind fun _ => inner.bind fun _ => .pure _
  have caseLabel : Built r caseLabel :=
    Built.keyword.bind fun _ => (built_expr.before .sign).bind fun _ => .pure _
  have defaultLabel : Built r defaultLabel :=
    Built.keyword.bind fun _ => Built.sign.bind fun _ => .pure _
  have label : Built r label := (built_ident.before .sign).bind fun _ => .pure _
  have declStmt : Built r declStmt := (built_decl.before .sign).bind fun _ => .pure _
  have exprStmt : Built r exprStmt := (built_expr.before .sign).bind fun _ => .pure _
  exact inner.many.between.map.or (ifStmt.or (forStmt.or (whileStmt.or (doStmt.or (switchStmt.or
    (caseLabel.or (defaultLabel.or (built_jump.or (label.or (declStmt.or (exprStmt.or
      (Built.sign.map.or .fail))))))))))))

theorem built_stmt : Built True Grammar.stmt :=
  .fix fun _ inner => (Built.recover trivial (built_stmtBody inner) built_brokenStmt.map).spanned.bind
    fun _ => .pure _

end Statements

section Items

private theorem built_function : Built True function := by
  have body : Built True body := built_stmt.many.between.spanned.bind fun _ => .pure _
  have param : Built True param :=
    (built_plainType.bind fun _ => built_ident.optional.bind fun _ => built_arrayDims.bind fun _ =>
      .pure _).spanned.bind fun _ => .pure _
  have ending : Built True bodyOrEnd := body.map.or Built.sign.map
  exact (built_typeSpec.bind fun _ => built_ident.bind fun _ => param.commaSep.between.bind fun _ =>
    built_attributeList.many.bind fun _ => ending.bind fun _ => .pure _).spanned.bind fun _ => .pure _

private theorem built_structDef : Built r structDef := by
  have group : Built r fieldGroup :=
    built_plainType.bind fun _ => (built_stars.bind fun _ => built_ident.bind fun _ =>
      built_arrayDims.bind fun _ => .pure _).commaSep1.bind fun _ => Built.sign.bind fun _ => .pure _
  exact (Built.keyword.optional.bind fun _ => Built.keyword.bind fun _ =>
    built_ident.optional.bind fun _ => group.many.between.bind fun _ =>
    built_ident.optional.bind fun _ => Built.sign.bind fun _ => .pure _).spanned.bind fun _ => .pure _

private theorem built_typedef : Built r typedef :=
  (Built.keyword.bind fun _ => built_plainType.bind fun _ => (built_ident.before .sign).bind
    fun _ => .pure _).spanned.bind fun _ => .pure _

theorem built_item : Built True item := by
  have broken : Built True brokenItem :=
    built_inertToken.many.bind fun _ => Built.sign.or ((built_group _ _).or (Built.sign.or .fail))
  have sound : Built True soundItem :=
    built_structDef.map.or (built_typedef.map.or (built_function.map.or
      ((built_decl.before .sign).map.or .fail)))
  exact .recover trivial sound.map broken.map

private theorem built_sourceUnit : Built True sourceUnit :=
  (built_item.many.before .atEnd).spanned.bind fun _ => .pure _

end Items

end Grammar

theorem names_of_mem_parseTokens (words : ∀ t : Token, t.isFixed = true → ok t)
    {tokens : List Lexeme} {length : Nat} (given : ∀ l ∈ tokens, ok l.token) {f : Failure}
    (member : f ∈ (parseTokens tokens length).2) : f.reason.Names ok := by
  have kept := ((Grammar.built_sourceUnit.before .atEnd).keeps words (.start tokens length) {} given
    ⟨nofun, nofun⟩).1
  unfold parseTokens at member
  split at member
  next unit d log ran =>
    rw [ran] at kept
    exact kept.reported f member
  next log ran =>
    rw [ran] at kept
    exact (List.mem_append.mp member).elim (kept.reported f)
      fun last => kept.furthest f (Option.mem_toList.mp last)

end Lockstep
