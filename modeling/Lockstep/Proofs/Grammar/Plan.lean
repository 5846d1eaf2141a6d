import Lockstep.Grammar.Item
/-!
How the parsers of the grammar are put together, rule by rule.

The rules are ranked in the order of their definitions. A rule calls rules of a lower rank, and all
others only behind a token. What is repeated reads a token in each round. Neither has to be shown
for a plan: plans in which it does not hold cannot be written.
-/

set_option autoImplicit false
set_option relaxedAutoImplicit false

namespace Lockstep

namespace Grammar

open Lockstep.Parser

/-- The rules of the grammar. The second parser is the definition of the first, or where the rule
refers to itself, what it unfolds to. -/
inductive Rule : {α : Type} → Parser α → Parser α → Type where
  | ident : Rule ident ident
  | group (opening closing : Sign) :
    Rule (group opening closing) (groupRule opening closing (group opening closing))
  | attributeList : Rule attributeList attributeList
  | specifiers : Rule specifiers specifiers
  | widthWord : Rule widthWord widthWord
  | signedness : Rule signedness signedness
  | integerType : Rule integerType integerType
  | typeName : Rule typeName typeName
  | stars : Rule stars stars
  | typeSpec : Rule typeSpec typeSpec
  | plainType : Rule plainType plainType
  | castType : Rule castType castType
  | literal : Rule literal literal
  | nameExpr : Rule nameExpr nameExpr
  | initList : Rule (initList expr) (initList expr)
  | atom : Rule (atom expr) (atom expr)
  | suffix : Rule (suffix expr) (suffix expr)
  | suffixed : Rule (suffixed expr) (suffixed expr)
  | castHead : Rule castHead castHead
  | components : Rule (components expr) (components expr)
  | unary : Rule (unary expr) (unaryRule expr (unary expr))
  | binary : Rule (binary expr) (binary expr)
  | conditional : Rule (conditional expr) (conditional expr)
  | expr : Rule expr (assignment expr)
  | arrayDims : Rule arrayDims arrayDims
  | declarator : Rule declarator declarator
  | decl : Rule decl decl
  | inertToken : Rule inertToken inertToken
  | brokenStmt : Rule brokenStmt brokenStmt
  | bracedStmts : Rule (bracedStmts stmt) (bracedStmts stmt)
  | parenCond : Rule parenCond parenCond
  | forInit : Rule forInit forInit
  | forHead : Rule forHead forHead
  | ifStmt : Rule (ifStmt stmt) (ifStmt stmt)
  | forStmt : Rule (forStmt stmt) (forStmt stmt)
  | whileStmt : Rule (whileStmt stmt) (whileStmt stmt)
  | doStmt : Rule (doStmt stmt) (doStmt stmt)
  | switchStmt : Rule (switchStmt stmt) (switchStmt stmt)
  | caseLabel : Rule caseLabel caseLabel
  | defaultLabel : Rule defaultLabel defaultLabel
  | jump : Rule jump jump
  | label : Rule label label
  | declStmt : Rule declStmt declStmt
  | exprStmt : Rule exprStmt exprStmt
  | stmtBody : Rule (stmtBody stmt) (stmtBody stmt)
  | stmt : Rule stmt (stmtRule stmt)
  | body : Rule body body
  | param : Rule param param
  | bodyOrEnd : Rule bodyOrEnd bodyOrEnd
  | function : Rule function function
  | fieldGroup : Rule fieldGroup fieldGroup
  | structDef : Rule structDef structDef
  | typedef : Rule typedef typedef
  | brokenItem : Rule brokenItem brokenItem
  | soundItem : Rule soundItem soundItem
  | item : Rule item item
  | sourceUnit : Rule sourceUnit sourceUnit

namespace Rule

variable {α : Type} {p body : Parser α}

def rank (r : Rule p body) : Nat := r.ctorIdx

def top : Nat := 57

def reads : {α : Type} → {p body : Parser α} → Rule p body → Bool
  | _, _, _, specifiers | _, _, _, stars | _, _, _, arrayDims | _, _, _, sourceUnit => false
  | _, _, _, _ => true

end Rule

/-- How a parser is put together. In `Plan n reads p` only rules ranked below `n` are called before
a token has been read. Where `reads` is set, nothing succeeds without reading one. -/
inductive Plan : Nat → Bool → {α : Type} → Parser α → Type 1 where
  | pure {n : Nat} {α : Type} {a : α} : Plan n false (pure a)
  | fail {n : Nat} {reads : Bool} {α : Type} : Plan n reads (fail : Parser α)
  | next {n : Nat} {reads : Bool} {α : Type} {expected : Expected} {read : Token → Option α} :
    Plan n reads (next expected read)
  | atEnd {n : Nat} : Plan n false atEnd
  /-- Behind a token, which the first parser has read where `moved` is set, the second may call any
  rule and need not read another token. -/
  | bind {n m : Nat} {reads k : Bool} {α β : Type} {p : Parser α} {f : α → Parser β}
    (moved : Bool) (first : Plan n moved p)
    (second : ∀ a, Plan (cond moved m n) (cond moved k reads) (f a)) : Plan n reads (p >>= f)
  | map {n : Nat} {reads : Bool} {α β : Type} {p : Parser α} {g : α → β} (inner : Plan n reads p) :
    Plan n reads (g <$> p)
  | spanned {n : Nat} {reads : Bool} {α : Type} {p : Parser α} (inner : Plan n reads p) :
    Plan n reads (spanned p)
  | guard {n : Nat} {reads : Bool} {α : Type} {p : Parser α} {accepts : α → Bool}
    (inner : Plan n reads p) : Plan n reads (guard p accepts)
  | demand {n : Nat} {reads : Bool} {α : Type} {p : Parser α} {accepts : α → Bool} {reason : Reason}
    (inner : Plan n reads p) : Plan n reads (demand p accepts reason)
  | or {n : Nat} {reads : Bool} {α : Type} {p q : Parser α} (first : Plan n reads p)
    (second : Plan n reads q) : Plan n reads (or p q)
  | many {n : Nat} {α : Type} {p : Parser α} (round : Plan n true p) : Plan n false (many p)
  /-- At least one round, the first of which may differ from the others. -/
  | row {n m : Nat} {reads : Bool} {α : Type} {p q : Parser α} (first : Plan n true p)
    (round : Plan m true q) : Plan n reads (do
      let a ← p
      let as ← Parser.many q
      return a :: as)
  | lookAhead {n : Nat} {α : Type} {p : Parser α} (inner : Plan n false p) :
    Plan n false (lookAhead p)
  | recover {n : Nat} {reads : Bool} {α : Type} {p skip : Parser α} (first : Plan n reads p)
    (second : Plan n reads skip) : Plan n reads (recover p skip)
  | call {n : Nat} {reads : Bool} {α : Type} {p body : Parser α} (r : Rule p body)
    (below : r.rank < n := by decide) (progress : reads = true → r.reads = true := by decide) :
    Plan n reads p

namespace Plan

section Combinators

variable {n : Nat} {b : Bool} {α β : Type} {p : Parser α} {q : Parser β} {f : α → Parser β}

def read (first : Plan n true p) (second : ∀ a, Plan Rule.top false (f a)) : Plan n b (p >>= f) :=
  .bind true first second

def pass (first : Plan n false p) (second : ∀ a, Plan n b (f a)) : Plan n b (p >>= f) :=
  .bind (m := n) (k := b) false first second

def token {t : Token} : Plan n b (token t) := .next

def sign {s : Sign} : Plan n b (sign s) := .token

def keyword {k : Keyword} : Plan n b (keyword k) := .token

def select {read : Token → Option α} : Plan n b (select read) := .next

def anyToken : Plan n b anyToken := .next

def optional (inner : Plan n false p) : Plan n false (optional p) := .or (.map inner) .pure

def many1 (round : Plan n true p) : Plan n b (many1 p) := .row round round

def before (first : Plan n true p) (second : Plan Rule.top false q) : Plan n b (before p q) :=
  .read first fun _ => .pass second fun _ => .pure

def after (first : Plan n true p) (second : Plan Rule.top false q) : Plan n b (after p q) :=
  .read first fun _ => second

def between {opening closing : Sign} (inner : Plan Rule.top false p) :
    Plan n b (between opening p closing) :=
  .read .sign fun _ => .pass inner fun _ => .pass .sign fun _ => .pure

def commaSep1 (inner : Plan n true p) : Plan n b (commaSep1 p) :=
  .row (m := n) inner (.bind (m := n) (k := true) true .sign fun _ => inner)

def commaSep (inner : Plan n true p) : Plan n false (commaSep p) := .or inner.commaSep1 .pure

def commaSepEnd (inner : Plan n true p) : Plan n false (commaSepEnd p) :=
  .or (.before inner.commaSep1 (.optional .sign)) .pure

def chainLeft {join : α → β → α → α} (operand : Plan n true p) (operator : Plan Rule.top true q) :
    Plan n b (chainLeft p q join) :=
  .read operand fun _ => .pass (.many (.bind (m := n) (k := true) true operator fun _ =>
    .read operand fun _ => .pure)) fun _ => .pure

end Combinators

inductive Operators : List (Parser BinaryOp) → Type 1 where
  | nil : Operators []
  | cons {operator : Parser BinaryOp} {operators : List (Parser BinaryOp)}
    (first : Plan Rule.top true operator) (others : Operators operators) :
    Operators (operator :: operators)

def tier {n : Nat} {b : Bool} {p : Parser Expr} {operator : Parser BinaryOp} (operand : Plan n true p)
    (op : Plan Rule.top true operator) : Plan n b (tier operator p) := .chainLeft operand op

def tiers {n : Nat} : {p : Parser Expr} → {operators : List (Parser BinaryOp)} → Plan n true p →
    Operators operators →
      Plan n true (operators.foldl (fun operand operator => Grammar.tier operator operand) p)
  | _, _, operand, .nil => operand
  | _, _, operand, .cons op others => (tiers (operand.tier op) others :)

def Operators.binary : Operators binaryOperators :=
  have several (table : List (Sign × BinaryOp)) : Plan Rule.top true (operatorOf table) := .select
  have sole (s : Sign) (op : BinaryOp) : Plan Rule.top true (soleOperator s op) := .map .sign
  .cons (several _) <| .cons (several _) <| .cons (several _) <| .cons (several _) <|
    .cons (several _) <| .cons (sole _ _) <| .cons (sole _ _) <| .cons (sole _ _) <|
    .cons (sole _ _) <| .cons (sole _ _) .nil

def castOf {n : Nat} {b : Bool} {operand : Parser Expr} (below : Rule.castHead.rank < n)
    (inner : Plan Rule.top false operand) : Plan n b (castOf operand) :=
  .read (.call .castHead below) fun _ => .pass inner fun _ => .pure

end Plan

def Rule.plan {α : Type} {p body : Parser α} (r : Rule p body) : Plan r.rank r.reads body := by
  cases r with
  | ident => exact .read (.spanned .next) fun _ => .pure
  | group opening closing =>
    have inner : Plan Rule.top true (Grammar.group opening closing) :=
      .call (.group opening closing) (of_decide_eq_true rfl) fun _ => rfl
    exact .read (.between (.many (.or inner (.or (.map (.guard .anyToken)) .fail)))) fun _ => .pure
  | attributeList => exact .after .token (.call (.group .lParen .rParen))
  | specifiers =>
    exact .pass (.many (.or (.map .token) (.or (.map .token) (.or (.map (.call .attributeList))
      .fail)))) fun _ => .pure
  | widthWord => exact .guard (.call .ident)
  | signedness => exact .select
  | integerType =>
    refine .read (.spanned (.or ?_ (.or ?_ .fail))) fun _ => .pure
    · exact .read (.call .signedness) fun _ => .pass (.many (.call .widthWord)) fun _ => .pure
    · exact .read (.many1 (.call .widthWord)) fun _ => .pure
  | typeName =>
    exact .or (.map (.after .keyword (.call .ident))) (.or (.call .integerType)
      (.or (.map (.call .ident)) .fail))
  | stars => exact .pass (.many (.before .sign (.many .token))) fun _ => .pure
  | typeSpec =>
    exact .read (.spanned (.pass (.call .specifiers) fun _ => .read (.call .typeName) fun _ =>
      .pass (.call .specifiers) fun _ => .pass (.call .stars) fun _ => .pure)) fun _ => .pure
  | plainType => exact .map (.call .typeSpec)
  | castType => exact .demand (.call .plainType)
  | literal => exact .read (.spanned .select) fun _ => .pure
  | nameExpr => exact .read (.call .ident) fun _ => .pure
  | initList => exact .read (.spanned (.between (.commaSepEnd (.call .expr)))) fun _ => .pure
  | atom =>
    exact .or (.call .literal) (.or (.call .nameExpr) (.or (.between (.call .expr))
      (.or (.call .initList) .fail)))
  | suffix =>
    have field (s : Sign) (arrow : Bool) :
        Plan Rule.suffix.rank true ((Suffix.member · arrow) <$> after (sign s) Grammar.ident) :=
      .map (.after .sign (.call .ident))
    exact .spanned (.or (.map (.between (.commaSep (.call .expr)))) (.or
      (.map (.between (.call .expr))) (.or (field _ _) (.or (field _ _) (.or (.map .sign)
        (.or (.map .sign) .fail))))))
  | suffixed => exact .read (.call .atom) fun _ => .pass (.many (.call .suffix)) fun _ => .pure
  | castHead => exact .spanned (.between (.call .castType))
  | components => exact .read (.spanned (.between (.commaSep1 (.call .expr)))) fun _ => .pure
  | unary =>
    -- Operands are read by the rule itself, each behind an operator, a cast or a keyword.
    refine .or ?_ (.or (.castOf (by decide) (.call .components)) (.or (.castOf (by decide)
      (.call .unary)) (.or ?_ (.or ?_ (.or (.call .suffixed) .fail)))))
    · exact .read (.spanned .select) fun _ => .pass (.call .unary) fun _ => .pure
    · exact .read (.spanned (.after .keyword (.between (.call .castType)))) fun _ => .pure
    · exact .read (.spanned (.after .keyword (.call .unary))) fun _ => .pure
  | binary => exact .tiers (.call .unary) .binary
  | conditional =>
    refine .read (.call .binary) fun _ => .pass (.optional ?_) fun
      | none => .pure
      | some _ => .pure
    exact .read .sign fun _ => .pass (.call .expr) fun _ => .pass .sign fun _ =>
      .pass (.call .expr) fun _ => .pure
  | expr =>
    refine .read (.call .conditional) fun _ => .pass (.optional ?_) fun
      | none => .pure
      | some _ => .pure
    exact .read .select fun _ => .pass (.call .expr) fun _ => .pure
  | arrayDims => exact .many (.between (.optional (.call .expr)))
  | declarator =>
    exact .read (.spanned (.pass (.call .stars) fun _ => .read (.call .ident) fun _ =>
      .pass (.call .arrayDims) fun _ => .pass (.optional (.after .sign (.call .expr))) fun _ =>
        .pure)) fun _ => .pure
  | decl =>
    exact .read (.spanned (.read (.call .plainType) fun _ => .pass (.commaSep1 (.call .declarator))
      fun _ => .pure)) fun _ => .pure
  | inertToken => exact .read (.guard .anyToken) fun _ => .pure
  | brokenStmt =>
    exact .read (.many1 (.or (.call (.group .lBrace .rBrace)) (.or (.call .inertToken) .fail)))
      fun _ => .or .sign (.or (.lookAhead .sign) (.or (.lookAhead .atEnd) .fail))
  | bracedStmts => exact .between (.many (.call .stmt))
  | parenCond => exact .between (.call .expr)
  | forInit => exact .or (.map (.call .decl)) (.read (.spanned (.call .expr)) fun _ => .pure)
  | forHead =>
    refine .between (.pass (.pass ?_ fun _ => .pass .sign fun _ => .pure) fun _ =>
      .pass (.pass ?_ fun _ => .pass .sign fun _ => .pure) fun _ => .pass ?_ fun _ => .pure)
    · exact .optional (.call .forInit)
    · exact .optional (.call .expr)
    · exact .optional (.call .expr)
  | ifStmt =>
    exact .read .keyword fun _ => .pass (.call .parenCond) fun _ => .pass (.call .stmt) fun _ =>
      .pass (.optional (.after .keyword (.call .stmt))) fun
        | none => .pure
        | some _ => .pure
  | forStmt =>
    exact .read .keyword fun _ => .pass (.call .forHead) fun _ => .pass (.call .stmt) fun _ => .pure
  | whileStmt =>
    exact .read .keyword fun _ => .pass (.call .parenCond) fun _ => .pass (.call .stmt) fun _ =>
      .pure
  | doStmt =>
    exact .read .keyword fun _ => .pass (.call .stmt) fun _ => .pass .keyword fun _ =>
      .pass (.call .parenCond) fun _ => .pass .sign fun _ => .pure
  | switchStmt =>
    exact .read .keyword fun _ => .pass (.call .parenCond) fun _ => .pass (.call .stmt) fun _ =>
      .pure
  | caseLabel =>
    exact .read .keyword fun _ => .pass (.before (.call .expr) .sign) fun _ => .pure
  | defaultLabel => exact .read .keyword fun _ => .pass .sign fun _ => .pure
  | jump =>
    refine .before (.or (.map .keyword) (.or (.map .keyword) (.or ?_ (.or ?_ .fail)))) .sign
    · exact .read .keyword fun _ => .pass (.optional (.call .expr)) fun _ => .pure
    · exact .read .keyword fun _ => .pass (.call .ident) fun _ => .pure
  | label => exact .read (.before (.call .ident) .sign) fun _ => .pure
  | declStmt => exact .read (.before (.call .decl) .sign) fun _ => .pure
  | exprStmt => exact .read (.before (.call .expr) .sign) fun _ => .pure
  | stmtBody =>
    exact .or (.map (.call .bracedStmts)) (.or (.call .ifStmt) (.or (.call .forStmt)
      (.or (.call .whileStmt) (.or (.call .doStmt) (.or (.call .switchStmt) (.or (.call .caseLabel)
        (.or (.call .defaultLabel) (.or (.call .jump) (.or (.call .label) (.or (.call .declStmt)
          (.or (.call .exprStmt) (.or (.map .sign) .fail))))))))))))
  | stmt =>
    exact .read (.spanned (.recover (.call .stmtBody) (.map (.call .brokenStmt)))) fun _ => .pure
  | body => exact .read (.spanned (.call .bracedStmts)) fun _ => .pure
  | param =>
    exact .read (.spanned (.read (.call .plainType) fun _ => .pass (.optional (.call .ident)) fun _ =>
      .pass (.call .arrayDims) fun _ => .pure)) fun _ => .pure
  | bodyOrEnd => exact .or (.map (.call .body)) (.map .sign)
  | function =>
    exact .read (.spanned (.read (.call .typeSpec) fun _ => .pass (.call .ident) fun _ =>
      .pass (.between (.commaSep (.call .param))) fun _ => .pass (.many (.call .attributeList))
        fun _ => .pass (.call .bodyOrEnd) fun _ => .pure)) fun _ => .pure
  | fieldGroup =>
    refine .read (.call .plainType) fun _ => .pass (.commaSep1 ?_) fun _ => .pass .sign fun _ => .pure
    exact .pass (.call .stars) fun _ => .read (.call .ident) fun _ =>
      .pass (.call .arrayDims) fun _ => .pure
  | structDef =>
    exact .read (.spanned (.pass (.optional .keyword) fun _ => .read .keyword fun _ =>
      .pass (.optional (.call .ident)) fun _ => .pass (.between (.many (.call .fieldGroup))) fun _ =>
        .pass (.optional (.call .ident)) fun _ => .pass .sign fun _ => .pure)) fun _ => .pure
  | typedef =>
    exact .read (.spanned (.read .keyword fun _ => .pass (.call .plainType) fun _ =>
      .pass (.before (.call .ident) .sign) fun _ => .pure)) fun _ => .pure
  | brokenItem =>
    -- There may be no inert token, but the end of what is skipped is always read.
    exact .pass (.many (.call .inertToken)) fun _ =>
      .or .sign (.or (.call (.group .lBrace .rBrace)) (.or .sign .fail))
  | soundItem =>
    exact .or (.map (.call .structDef)) (.or (.map (.call .typedef)) (.or (.map (.call .function))
      (.or (.map (.before (.call .decl) .sign)) .fail)))
  | item => exact .recover (.map (.call .soundItem)) (.map (.call .brokenItem))
  | sourceUnit =>
    exact .pass (.spanned (.pass (.many (.call .item)) fun _ => .pass .atEnd fun _ => .pure))
      fun _ => .pure

def unitPlan : Plan Rule.top false (before sourceUnit atEnd) :=
  .pass (.call .sourceUnit) fun _ => .pass .atEnd fun _ => .pure

end Grammar

end Lockstep
