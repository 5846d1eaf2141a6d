import Lockstep.Proofs.Grammar.Written
import Mathlib.Tactic.IntervalCases
/-!
Written expressions are read back. `ReadsAs ts e k` says that the rule of tier `k` reads the tokens
`ts` as `e`, in front of whatever does not carry on an expression of that tier. What a tier reads
every looser tier reads too, and parentheses make the tightest one of the loosest; the main
statement is that an expression is read at its own tier.
-/

set_option autoImplicit false
set_option relaxedAutoImplicit false

namespace Lockstep

/-- The tier of what a sign behind an operand goes on with, if it goes on at all. -/
def Sign.joins : Sign → Option Nat
  | lParen | lBracket | dot | arrow | plusPlus | minusMinus => some 13
  | star | slash | percent => some 11
  | plus | minus => some 10
  | shl | shr => some 9
  | lt | gt | le | ge => some 8
  | eqEq | notEq => some 7
  | amp => some 6
  | caret => some 5
  | pipe => some 4
  | andAnd => some 3
  | orOr => some 2
  | question | eq | plusEq | minusEq | starEq | slashEq | percentEq | shlEq | shrEq | ampEq
  | caretEq | pipeEq => some 1
  | rParen | lBrace | rBrace | rBracket | semicolon | comma | colon | tilde | bang => none

private theorem BinaryOp.two_le_tier (op : BinaryOp) : 2 ≤ op.tier := by
  cases op <;> decide

private theorem BinaryOp.tier_le (op : BinaryOp) : op.tier ≤ 11 := by
  cases op <;> decide

private theorem Expr.tier_le (e : Expr) : e.tier ≤ 13 := by
  cases e with
  | binary s op lhs rhs => exact op.tier_le.trans (by decide)
  | int | float | char | str | name | call | member | index | unary | post | assign | conditional
  | cast | sizeofExpr | sizeofType | initList => simp [Expr.tier]

private theorem BinaryOp.joins_sign (op : BinaryOp) : op.sign.joins = some op.tier := by
  cases op <;> rfl

private theorem AssignOp.joins_sign (op : AssignOp) : op.sign.joins = some 1 := by
  cases op <;> rfl

/-- An expression of tier `k` ends before these tokens. -/
def Stops (k : Nat) (v : List Token) : Prop :=
  ∀ s n, v.head? = some (.sign s) → s.joins = some n → n < k

section Stops

variable {k j n : Nat} {v : List Token} {s : Sign}

theorem Stops.mono (stops : Stops j v) (le : j ≤ k) : Stops k v :=
  fun s n first joins => Nat.lt_of_lt_of_le (stops s n first joins) le

private theorem stops_sign (joins : ∀ n, s.joins = some n → n < k) : Stops k (.sign s :: v) := by
  intro t n first
  cases first
  exact joins n

theorem stops_closing (closing : s.joins = none) : Stops k (.sign s :: v) := by
  apply stops_sign
  intro n joins
  rw [closing] at joins
  cases joins

theorem Stops.head_ne (stops : Stops k v) (joins : s.joins = some n) (le : k ≤ n) :
    v.head? ≠ some (.sign s) :=
  fun first => absurd (stops s n first joins) (Nat.not_lt.mpr le)

theorem Stops.anything (stops : Stops 1 v) : Stops 0 v := by
  intro s n first joins
  have none := stops s n first joins
  have zero : n = 0 := by omega
  subst zero
  cases s <;> cases joins

end Stops

namespace Grammar

open Lockstep.Parser

variable {k j D : Nat} {ts us v : List Token} {e : Expr} {inner : Parser Expr} {P : Expr → Prop}

section Operators

variable {α : Type} {table : List (Sign × α)} {op : α} {s : Sign}

private theorem yields_operatorOf (listed : table.lookup s = some op) :
    Yields (operatorOf table) [.sign s] v fun found => found = op := by
  unfold operatorOf select
  exact yields_next listed rfl

theorem refuses_operatorOf (absent : ∀ r ∈ table, v.head? ≠ some (.sign r.1)) :
    Refuses (operatorOf table) v := by
  unfold operatorOf select
  apply refuses_next
  intro t first
  cases t with
  | sign s =>
    apply List.lookup_eq_none_iff.mpr
    intro r listed
    apply bne_iff_ne.mpr
    intro same
    exact absent r listed (same ▸ first)
  | keyword | kernel | qualifier | attr | float | int | char | str | ident => rfl

/-- The parser reads the binary operators of a tier. -/
structure ReadsTier (operator : Parser BinaryOp) (k : Nat) : Prop where
  accepts : ∀ op v, op.tier = k → Yields operator [.sign op.sign] v fun found => found = op
  refuses : ∀ v, Stops k v → Refuses operator v

private theorem readsTier_table {table : List (Sign × BinaryOp)}
    (listed : ∀ op : BinaryOp, op.tier = k → table.lookup op.sign = some op)
    (only : ∀ r ∈ table, r.1.joins = some k) : ReadsTier (operatorOf table) k where
  accepts op v same := yields_operatorOf (listed op same)
  refuses v stops := by
    apply refuses_operatorOf
    intro r listed
    exact stops.head_ne (only r listed) (Nat.le_refl k)

private theorem readsTier_sole (op : BinaryOp) (tier : op.tier = k)
    (sole : ∀ other : BinaryOp, other.tier = k → other = op) :
    ReadsTier (soleOperator op.sign op) k where
  accepts other v same := by
    rw [sole other same]
    exact yields_token.map fun _ _ => rfl
  refuses v stops := by
    apply Refuses.map
    apply refuses_token
    exact stops.head_ne (op.joins_sign.trans (by rw [tier])) (Nat.le_refl k)

def operatorAt (k : Nat) : Parser BinaryOp := binaryOperators.getD (11 - k) fail

private theorem readsTier_operatorAt (two_le : 2 ≤ k) (le : k ≤ 11) :
    ReadsTier (operatorAt k) k := by
  interval_cases k
  · exact readsTier_sole .logOr rfl (by intro op; cases op <;> decide)
  · exact readsTier_sole .logAnd rfl (by intro op; cases op <;> decide)
  · exact readsTier_sole .bitOr rfl (by intro op; cases op <;> decide)
  · exact readsTier_sole .bitXor rfl (by intro op; cases op <;> decide)
  · exact readsTier_sole .bitAnd rfl (by intro op; cases op <;> decide)
  all_goals exact readsTier_table (by intro op; cases op <;> decide) (by decide)

end Operators

section Refusals

def startsExpr : Token → Bool
  | .int _ | .float _ | .char | .str _ | .ident _ => true
  | .keyword word => word == .kwSizeof
  | .sign s => s == .lParen || s == .lBrace || (unaryOps.lookup s).isSome
  | .kernel | .qualifier | .attr => false

variable (other : ∀ t ∈ v.head?, startsExpr t = false)

include other

private theorem head_ne_of_starts {t : Token} (starts : startsExpr t = true) :
    v.head? ≠ some t := by
  intro first
  rw [other t first] at starts
  cases starts

private theorem refuses_suffixed : Refuses (suffixed inner) v := by
  apply Refuses.bind
  apply refuses_choice
  intro p listed
  simp only [List.mem_cons, List.not_mem_nil, or_false] at listed
  rcases listed with rfl | rfl | rfl | rfl
  · apply Refuses.bind
    apply Refuses.spanned
    unfold select
    apply refuses_next
    intro t first
    cases t with
    | int | float | char | str => exact absurd first (head_ne_of_starts other rfl)
    | keyword | kernel | qualifier | attr | sign | ident => rfl
  · apply Refuses.bind
    apply refuses_ident
    exact fun x => head_ne_of_starts other rfl
  · exact refuses_between (head_ne_of_starts other rfl)
  · exact (refuses_between (head_ne_of_starts other rfl)).spanned.bind

private theorem refuses_unaryRule {unary : Parser Expr} : Refuses (unaryRule inner unary) v := by
  apply refuses_choice
  intro p listed
  simp only [List.mem_cons, List.not_mem_nil, or_false] at listed
  rcases listed with rfl | rfl | rfl | rfl | rfl | rfl
  · apply Refuses.bind
    apply Refuses.spanned
    apply refuses_operatorOf
    have starts : ∀ r ∈ unaryOps, startsExpr (.sign r.1) = true := by decide
    exact fun r listed => head_ne_of_starts other (starts r listed)
  · exact (refuses_between (head_ne_of_starts other rfl)).spanned.bind
  · exact (refuses_between (head_ne_of_starts other rfl)).spanned.bind
  · exact (refuses_token (head_ne_of_starts other rfl)).bind.spanned.bind
  · exact (refuses_token (head_ne_of_starts other rfl)).bind.spanned.bind
  · exact refuses_suffixed other

private theorem refuses_binary : Refuses (binary inner) v := by
  have tiers (operators : List (Parser BinaryOp)) {operand : Parser Expr}
      (refused : Refuses operand v) :
      Refuses (operators.foldl (fun operand operator => tier operator operand) operand) v := by
    induction operators generalizing operand with
    | nil => exact refused
    | cons operator operators ih => exact ih refused.bind
  exact tiers binaryOperators (Refuses.fix fun _ => refuses_unaryRule other)

theorem refuses_assignment : Refuses (assignment inner) v := by
  unfold assignment conditional
  apply Refuses.bind
  apply Refuses.bind
  exact refuses_binary other

theorem refuses_unfold (D : Nat) : Refuses (unfold assignment D) v := by
  cases D with
  | zero => exact fun c _ => fails_fail
  | succ D =>
    rw [unfold_succ]
    exact refuses_assignment other

end Refusals

section Tiers

/-- The rule of a binary tier and of all tighter ones; of operands alone for tier 12. -/
def tiers (inner : Parser Expr) (k : Nat) : Parser Expr :=
  (binaryOperators.take (12 - k)).foldl (fun operand operator => tier operator operand)
    (unary inner)

def rightOperand (operator : Parser BinaryOp) (operand : Parser Expr) :
    Parser (BinaryOp × Expr) := do
  let op ← operator
  let rhs ← operand
  return (op, rhs)

def joined (lhs : Expr) (right : BinaryOp × Expr) : Expr :=
  .binary (lhs.span.through right.2.span) right.1 lhs right.2

private theorem tiers_eq (two_le : 2 ≤ k) (le : k ≤ 11) : tiers inner k = (do
    let first ← tiers inner (k + 1)
    let rest ← many (rightOperand (operatorAt k) (tiers inner (k + 1)))
    return rest.foldl joined first) := by
  have taken : binaryOperators.take (12 - k) =
      binaryOperators.take (12 - (k + 1)) ++ [operatorAt k] := by
    have length : binaryOperators.length = 10 := rfl
    have one : 12 - k = 11 - k + 1 := by omega
    have within : 11 - k < binaryOperators.length := by omega
    have rest : 12 - (k + 1) = 11 - k := by omega
    rw [one, rest, List.take_add_one, List.getElem?_eq_getElem within, operatorAt,
      List.getD_eq_getElem?_getD,
      List.getElem?_eq_getElem within]
    rfl
  unfold tiers
  rw [taken, List.foldl_append]
  rfl

def exprAt (D : Nat) : Parser Expr := unfold assignment D

def suffixedBy (base : Expr) (suffix : Suffix × Span) : Expr := suffix.1.attach base suffix.2

def Uncast (ts : List Token) : Prop :=
  ∀ v, Refuses (between .lParen castType .rParen) (ts ++ v)

/-- The tokens are read as the expression by the rule of a tier. For tiers that group from the left
what stands behind is free to go on at the same tier. -/
def ReadsAs (ts : List Token) (e : Expr) : Nat → Prop
  | 0 => ∀ D v, ts.length + v.length ≤ D → Stops 0 v →
      Yields (assignment (exprAt D)) ts v e.SameShape
  | 1 => ∀ D v, ts.length + v.length ≤ D → Stops 1 v →
      Yields (conditional (exprAt D)) ts v e.SameShape
  | 12 => Uncast ts ∧ ∀ D v m, ts.length + v.length ≤ D → ts.length + v.length < m → Stops 12 v →
      Yields (unfold (unaryRule (exprAt D)) m) ts v e.SameShape
  | 13 => Uncast ts ∧
      (∃ t rest, ts = t :: rest ∧ t ≠ .keyword .kwSizeof ∧ ∀ op : UnaryOp, t ≠ .sign op.sign) ∧
      ∀ D v, ts.length + v.length ≤ D →
        Leads (atom (exprAt D)) (suffix (exprAt D)) suffixedBy ts v e.SameShape
  | k => ∀ D v, ts.length + v.length ≤ D → Stops (k + 1) v →
      Leads (tiers (exprAt D) (k + 1)) (rightOperand (operatorAt k) (tiers (exprAt D) (k + 1)))
        joined ts v e.SameShape

theorem refuses_suffix (stops : Stops 13 v) : Refuses (suffix inner) v := by
  have other (s : Sign) (joins : s.joins = some 13) : v.head? ≠ some (.sign s) :=
    stops.head_ne joins (Nat.le_refl 13)
  apply Refuses.spanned
  apply refuses_choice
  intro p listed
  simp only [List.mem_cons, List.not_mem_nil, or_false] at listed
  rcases listed with rfl | rfl | rfl | rfl | rfl | rfl
  · exact (refuses_between (other .lParen rfl)).map
  · exact (refuses_between (other .lBracket rfl)).map
  · exact (refuses_token (other .dot rfl)).bind.map
  · exact (refuses_token (other .arrow rfl)).bind.map
  · exact (refuses_token (other .plusPlus rfl)).map
  · exact (refuses_token (other .minusMinus rfl)).map

private theorem ReadsAs.unprefixed (reads : ReadsAs ts e 13) : ReadsAs ts e 12 := by
  obtain ⟨uncast, ⟨t, rest, rfl, word, sign⟩, leads⟩ := reads
  refine ⟨uncast, ?_⟩
  intro D v m enough deeper stops
  obtain ⟨m, rfl⟩ := Nat.exists_eq_succ_of_ne_zero (Nat.ne_of_gt (Nat.zero_lt_of_lt deeper))
  have suffixed : Yields (suffixed (exprAt D)) (t :: rest) v e.SameShape :=
    (leads D v enough).yields (refuses_suffix (stops.mono (by omega)))
  have first (u : Token) (other : t ≠ u) : (t :: rest ++ v).head? ≠ some u := by
    intro same
    exact other (Option.some.inj same)
  have unary : Refuses (operatorOf unaryOps) (t :: rest ++ v) := by
    apply refuses_operatorOf
    have signs : ∀ r ∈ unaryOps, r.1 = r.2.sign := by decide
    intro r listed
    exact first _ (signs r listed ▸ sign r.2)
  have cast : Refuses castHead (t :: rest ++ v) := (uncast v).spanned
  have sizeof : Refuses (keyword .kwSizeof) (t :: rest ++ v) := refuses_token (first _ word)
  rw [Nat.succ_eq_add_one, unfold_succ]
  apply unary.spanned.bind.or_yields
  apply cast.bind.or_yields
  apply cast.bind.or_yields
  apply sizeof.bind.spanned.bind.or_yields
  apply sizeof.bind.spanned.bind.or_yields
  exact suffixed.or

private theorem readsAs_binary_iff (two_le : 2 ≤ k) (le : k ≤ 11) : ReadsAs ts e k ↔
    ∀ D v, ts.length + v.length ≤ D → Stops (k + 1) v →
      Leads (tiers (exprAt D) (k + 1)) (rightOperand (operatorAt k) (tiers (exprAt D) (k + 1)))
        joined ts v e.SameShape := by
  interval_cases k <;> rfl

private theorem ReadsAs.yields_tiers (reads : ReadsAs ts e k) (two_le : 2 ≤ k) (le : k ≤ 12)
    (enough : ts.length + v.length ≤ D) (stops : Stops k v) :
    Yields (tiers (exprAt D) k) ts v e.SameShape := by
  rcases Nat.lt_or_eq_of_le le with binary | rfl
  · have le : k ≤ 11 := by omega
    rw [tiers_eq two_le le]
    apply Leads.yields ((readsAs_binary_iff two_le le).mp reads D v enough (stops.mono (by omega)))
    exact ((readsTier_operatorAt two_le le).refuses v stops).bind
  · exact Yields.fix (reads.2 D v _ enough (Nat.lt_succ_self _) stops)

theorem yields_conditional (cond : Yields (binary inner) ts v P)
    (other : v.head? ≠ some (.sign .question)) : Yields (conditional inner) ts v P := by
  rw [← List.append_nil ts]
  apply Yields.bind (w := []) cond
  intro a holds
  apply Yields.bind (u := []) (w := []) (refuses_token other).bind.optional
  rintro _ rfl
  exact yields_pure holds

private theorem ReadsAs.unconditional (reads : ReadsAs ts e 2) : ReadsAs ts e 1 := by
  intro D v enough stops
  have binary : Yields (binary (exprAt D)) ts v e.SameShape :=
    reads.yields_tiers (Nat.le_refl 2) (by omega) enough (stops.mono (by omega))
  exact yields_conditional binary (stops.head_ne (s := .question) rfl (Nat.le_refl 1))

theorem yields_assignment (target : Yields (conditional inner) ts v P)
    (unassigned : Refuses (operatorOf assignOps) v) : Yields (assignment inner) ts v P := by
  rw [← List.append_nil ts]
  apply Yields.bind (w := []) target
  intro a holds
  apply Yields.bind (u := []) (w := []) unassigned.bind.optional
  rintro _ rfl
  exact yields_pure holds

theorem ReadsAs.unassigned (reads : ReadsAs ts e 1) : ReadsAs ts e 0 := by
  intro D v enough stops
  have unassigned : Refuses (operatorOf assignOps) v := by
    apply refuses_operatorOf
    have joins : ∀ r ∈ assignOps, r.1.joins = some 1 := by decide
    intro r listed
    exact stops.head_ne (joins r listed) (Nat.zero_le 1)
  exact yields_assignment (reads D v enough (stops.mono (by omega))) unassigned

private theorem ReadsAs.loosen_one (reads : ReadsAs ts e (k + 1)) (le : k ≤ 12) :
    ReadsAs ts e k := by
  rcases Nat.lt_or_ge k 2 with loose | two_le
  · interval_cases k
    · exact reads.unassigned
    · exact reads.unconditional
  rcases Nat.lt_or_eq_of_le le with binary | rfl
  · apply (readsAs_binary_iff two_le (by omega)).mpr
    intro D v enough stops
    exact (reads.yields_tiers (by omega) (by omega) enough stops).leads
  · exact reads.unprefixed

theorem ReadsAs.loosen (reads : ReadsAs ts e k) (le : j ≤ k) (within : k ≤ 13) :
    ReadsAs ts e j := by
  induction k with
  | zero =>
    rw [Nat.le_zero.mp le]
    exact reads
  | succ k ih =>
    rcases Nat.lt_or_eq_of_le le with below | rfl
    · exact ih (reads.loosen_one (by omega)) (by omega) (by omega)
    · exact reads

theorem ReadsAs.yields_exprAt (reads : ReadsAs ts e 0) (enough : ts.length + v.length < D)
    (stops : Stops 0 v) : Yields (exprAt D) ts v e.SameShape := by
  obtain ⟨D, rfl⟩ := Nat.exists_eq_succ_of_ne_zero (Nat.ne_of_gt (Nat.zero_lt_of_lt enough))
  rw [exprAt, Nat.succ_eq_add_one, unfold_succ]
  exact reads D v (by omega) stops

end Tiers

section Atoms

private theorem refuses_literal_sign {s : Sign} : Refuses literal (.sign s :: v) := by
  apply Refuses.bind
  apply Refuses.spanned
  unfold select
  apply refuses_next
  intro t first
  cases first
  rfl

private theorem refuses_nameExpr_sign {s : Sign} : Refuses nameExpr (.sign s :: v) := by
  apply Refuses.bind
  apply refuses_ident
  intro x first
  cases first

private theorem head_unprefixed {t : Token} (other : ∀ s, t = .sign s → unaryOps.lookup s = none)
    (word : t ≠ .keyword .kwSizeof) :
    ∃ u rest, t :: us = u :: rest ∧ u ≠ .keyword .kwSizeof ∧ ∀ op : UnaryOp, u ≠ .sign op.sign := by
  refine ⟨t, us, rfl, word, ?_⟩
  intro op same
  have absent := other op.sign same
  cases op <;> cases absent

private theorem uncast_of_head {t : Token} (other : t ≠ .sign .lParen) : Uncast (t :: us) := by
  intro v
  apply refuses_between
  intro first
  exact other (Option.some.inj first)

theorem readsAs_int (s : Span) (n : Nat) : ReadsAs [.int n] (.int s n) 13 := by
  refine ⟨uncast_of_head (by simp), head_unprefixed (by simp) (by simp), ?_⟩
  intro D v enough
  apply Yields.leads
  apply Yields.or
  apply Yields.bind (u := [.int n]) (w := [])
    (P := fun r : (Span → Expr) × Span => r.1 = fun span => Expr.int span n)
  · apply Yields.spanned (P := fun make : Span → Expr => make = fun span => Expr.int span n)
    unfold select
    exact yields_next rfl rfl
  · rintro ⟨make, span⟩ rfl
    exact yields_pure rfl

theorem readsAs_name (s : Span) (x : String) : ReadsAs [.ident x] (.name s x) 13 := by
  refine ⟨uncast_of_head (by simp), head_unprefixed (by simp) (by simp), ?_⟩
  intro D v enough
  have literal : Refuses literal ([.ident x] ++ v) := by
    apply Refuses.bind
    apply Refuses.spanned
    unfold select
    apply refuses_next
    intro t first
    cases first
    rfl
  apply Yields.leads
  apply literal.or_yields
  apply Yields.or
  apply Yields.bind (u := [.ident x]) (w := []) yields_ident
  rintro id rfl
  exact yields_pure rfl

theorem ReadsAs.parens (reads : ReadsAs ts e 0) (phrase : Phrase ts) :
    ReadsAs (.sign .lParen :: (ts ++ [Token.sign .rParen])) e 13 := by
  refine ⟨?_, head_unprefixed ?_ (by simp), ?_⟩
  · intro v
    rw [List.cons_append, List.append_assoc]
    exact refuses_cast phrase
  · intro s same
    cases same
    rfl
  · intro D v enough
    rw [List.length_cons, List.length_append, List.length_singleton] at enough
    have inside : Yields (exprAt D) ts (.sign .rParen :: v) e.SameShape := by
      apply reads.yields_exprAt _ (stops_closing rfl)
      rw [List.length_cons]
      omega
    apply Yields.leads
    apply refuses_literal_sign.or_yields
    apply refuses_nameExpr_sign.or_yields
    exact (yields_between inside).or

end Atoms

section Suffixes

variable {Q : Suffix × Span → Prop}

theorem ReadsAs.suffixed {base : Expr} (reads : ReadsAs ts base 13) (nonempty : us ≠ [])
    (read : ∀ D v, us.length + v.length ≤ D → Yields (suffix (exprAt D)) us v Q)
    (attached : ∀ a r, base.SameShape a → Q r → e.SameShape (suffixedBy a r)) :
    ReadsAs (ts ++ us) e 13 := by
  obtain ⟨uncast, ⟨t, rest, rfl, head⟩, leads⟩ := reads
  refine ⟨?_, ⟨t, rest ++ us, rfl, head⟩, ?_⟩
  · intro v
    rw [List.append_assoc]
    exact uncast (us ++ v)
  · intro D v enough
    rw [List.length_append] at enough
    apply Leads.step (leads D (us ++ v) _) nonempty (read D v (by omega)) attached
    rw [List.length_append]
    omega

theorem yields_suffix_call {Q : List Expr → Prop}
    (args : Yields (commaSep inner) ts (.sign .rParen :: v) Q) :
    Yields (suffix inner) (.sign .lParen :: (ts ++ [Token.sign .rParen])) v fun r =>
      ∃ as, r.1 = .call as ∧ Q as := by
  apply Yields.spanned (P := fun s => ∃ as, s = Suffix.call as ∧ Q as)
  apply Yields.or
  exact (yields_between args).map fun as holds => ⟨as, rfl, holds⟩

theorem yields_suffix_index (sub : Yields inner ts (.sign .rBracket :: v) P) :
    Yields (suffix inner) (.sign .lBracket :: (ts ++ [Token.sign .rBracket])) v fun r =>
      ∃ i, r.1 = .index i ∧ P i := by
  apply Yields.spanned (P := fun s => ∃ i, s = Suffix.index i ∧ P i)
  apply (refuses_between (by simp)).map.or_yields
  apply Yields.or
  exact (yields_between sub).map fun i holds => ⟨i, rfl, holds⟩

theorem yields_suffix_member {x : String} (arrow : Bool) :
    Yields (suffix inner) [.sign (if arrow then .arrow else .dot), .ident x] v fun r =>
      ∃ field, r.1 = .member field arrow ∧ field.name = x := by
  have field (s : Sign) : Yields (after (sign s) ident) [.sign s, .ident x] v fun id =>
      id.name = x :=
    Yields.bind (u := [.sign s]) yields_token fun _ _ => yields_ident
  apply Yields.spanned (P := fun s => ∃ field, s = Suffix.member field arrow ∧ field.name = x)
  apply (refuses_between (by cases arrow <;> simp)).map.or_yields
  apply (refuses_between (by cases arrow <;> simp)).map.or_yields
  cases arrow with
  | false =>
    apply Yields.or
    exact (field .dot).map fun id named => ⟨id, rfl, named⟩
  | true =>
    apply (refuses_token (by simp)).bind.map.or_yields
    apply Yields.or
    exact (field .arrow).map fun id named => ⟨id, rfl, named⟩

theorem yields_suffix_post (op : PostOp) :
    Yields (suffix inner) [.sign op.sign] v fun r => r.1 = .post op := by
  have other (s : Sign) (different : op.sign ≠ s) :
      ([Token.sign op.sign] ++ v).head? ≠ some (.sign s) := by
    intro first
    exact different (Token.sign.inj (Option.some.inj first))
  apply Yields.spanned (P := fun s => s = Suffix.post op)
  apply (refuses_between (other _ (by cases op <;> decide))).map.or_yields
  apply (refuses_between (other _ (by cases op <;> decide))).map.or_yields
  apply (refuses_token (other _ (by cases op <;> decide))).bind.map.or_yields
  apply (refuses_token (other _ (by cases op <;> decide))).bind.map.or_yields
  cases op with
  | inc =>
    apply Yields.or
    exact yields_token.map fun _ _ => rfl
  | dec =>
    apply (refuses_token (other _ (by decide))).map.or_yields
    apply Yields.or
    exact yields_token.map fun _ _ => rfl

end Suffixes

section Arguments

open Lockstep.Expr (tokens argTokens moreArgTokens relocateAll)

variable {target : Nat} {es : List Expr}

private theorem stops_moreArgTokens :
    Stops k (moreArgTokens target es ++ Token.sign .rParen :: v) := by
  cases es with
  | nil => exact stops_closing rfl
  | cons e es => exact stops_closing rfl

private theorem rows_moreArgTokens (each : ∀ e ∈ es, ReadsAs (tokens target e) e 0)
    (enough : (moreArgTokens target es).length + (v.length + 1) ≤ D) :
    Rows (after (sign .comma) (exprAt D)) (moreArgTokens target es) (.sign .rParen :: v)
      fun as => relocateAll (fun _ => 0) es = relocateAll (fun _ => 0) as := by
  induction es with
  | nil => exact rows_nil rfl
  | cons e es ih =>
    rw [moreArgTokens, List.length_cons, List.length_append] at enough
    have first : Yields (exprAt D) (tokens target e)
        (moreArgTokens target es ++ Token.sign .rParen :: v) e.SameShape := by
      apply (each e List.mem_cons_self).yields_exprAt _ stops_moreArgTokens
      rw [List.length_append, List.length_cons]
      omega
    have behind : Yields (after (sign .comma) (exprAt D)) (.sign .comma :: tokens target e)
        (moreArgTokens target es ++ Token.sign .rParen :: v) e.SameShape :=
      Yields.bind (u := [.sign .comma]) yields_token fun _ _ => first
    have others := ih (fun e listed => each e (List.mem_cons_of_mem _ listed)) (by omega)
    apply Rows.cons behind (by simp) others
    intro a as same rest
    exact congrArg₂ List.cons same rest

private theorem yields_argTokens (each : ∀ e ∈ es, ReadsAs (tokens target e) e 0)
    (enough : (argTokens target es).length + (v.length + 1) < D) :
    Yields (commaSep (exprAt D)) (argTokens target es) (.sign .rParen :: v)
      fun as => relocateAll (fun _ => 0) es = relocateAll (fun _ => 0) as := by
  cases es with
  | nil =>
    have none : Refuses (exprAt D) (.sign .rParen :: v) := by
      apply refuses_unfold
      intro t first
      cases first
      rfl
    exact none.bind.or_yields (yields_pure rfl)
  | cons e es =>
    rw [argTokens, List.length_append] at enough
    have first : Yields (exprAt D) (tokens target e)
        (moreArgTokens target es ++ Token.sign .rParen :: v) e.SameShape := by
      apply (each e List.mem_cons_self).yields_exprAt _ stops_moreArgTokens
      rw [List.length_append, List.length_cons]
      omega
    have others := rows_moreArgTokens (v := v) (D := D)
      (fun e listed => each e (List.mem_cons_of_mem _ listed)) (by omega)
    have stuck : Refuses (after (sign .comma) (exprAt D)) (.sign .rParen :: v) :=
      (refuses_token (by simp)).bind
    apply Yields.or
    apply first.bind
    intro a same
    rw [← List.append_nil (moreArgTokens target es)]
    apply (others.many stuck).bind
    intro as rest
    exact yields_pure (congrArg₂ List.cons same rest)

end Arguments

section Main

open Lockstep.Expr (tokens argTokens enclosed)

variable {target : Nat}

theorem ReadsAs.enclosed (own : ReadsAs (tokens target e) e e.tier)
    (phrase : Phrase (tokens target e)) (le : j ≤ k) (small : j ≤ 13) :
    ReadsAs (enclosed k e.tier (tokens target e)) e j := by
  unfold Expr.enclosed
  split
  · have whole := own.loosen (Nat.zero_le _) e.tier_le
    exact (whole.parens phrase).loosen small (Nat.le_refl 13)
  · exact own.loosen (by omega) e.tier_le

private theorem readsAs_unary {s : Span} {op : UnaryOp} {operand : Expr}
    (reads : ReadsAs ts operand 12) :
    ReadsAs (.sign op.sign :: ts) (.unary s op operand) 12 := by
  have listed : unaryOps.lookup op.sign = some op := by cases op <;> rfl
  refine ⟨uncast_of_head ?_, ?_⟩
  · cases op <;> decide
  · intro D v m enough deeper stops
    rw [List.length_cons] at enough deeper
    obtain ⟨m, rfl⟩ := Nat.exists_eq_succ_of_ne_zero (Nat.ne_of_gt (Nat.zero_lt_of_lt deeper))
    have inside : Yields (unfold (unaryRule (exprAt D)) m) ts v operand.SameShape :=
      reads.2 D v m (by omega) (by omega) stops
    rw [Nat.succ_eq_add_one, unfold_succ]
    apply Yields.or
    apply Yields.bind (u := [.sign op.sign]) (yields_operatorOf listed).spanned
    rintro ⟨_, head⟩ rfl
    rw [← List.append_nil ts]
    apply Yields.bind inside
    intro a same
    exact yields_pure (congrArg (Expr.unary ⟨0, 0⟩ _) same)

private theorem readsAs_sizeof {s : Span} {operand : Expr} (reads : ReadsAs ts operand 12) :
    ReadsAs (.keyword .kwSizeof :: ts) (.sizeofExpr s operand) 12 := by
  refine ⟨uncast_of_head (by simp), ?_⟩
  intro D v m enough deeper stops
  rw [List.length_cons] at enough deeper
  obtain ⟨m, rfl⟩ := Nat.exists_eq_succ_of_ne_zero (Nat.ne_of_gt (Nat.zero_lt_of_lt deeper))
  have inside : Yields (unfold (unaryRule (exprAt D)) m) ts v operand.SameShape :=
    reads.2 D v m (by omega) (by omega) stops
  have unary : Refuses (operatorOf unaryOps) (.keyword .kwSizeof :: ts ++ v) := by
    apply refuses_operatorOf
    intro r listed first
    cases first
  have cast : Refuses castHead (.keyword .kwSizeof :: ts ++ v) :=
    (refuses_between (by simp)).spanned
  have sizeofType : Refuses (after (keyword .kwSizeof) (between .lParen castType .rParen))
      (.keyword .kwSizeof :: ts ++ v) :=
    Yields.bind_refuses (u := [.keyword .kwSizeof]) yields_token fun _ _ => reads.1 v
  rw [Nat.succ_eq_add_one, unfold_succ]
  apply unary.spanned.bind.or_yields
  apply cast.bind.or_yields
  apply cast.bind.or_yields
  apply sizeofType.spanned.bind.or_yields
  apply Yields.or
  rw [← List.append_nil (_ :: ts)]
  apply Yields.bind (P := fun r : Expr × Span => operand.SameShape r.1)
  · apply Yields.spanned
    exact Yields.bind (u := [.keyword .kwSizeof]) yields_token fun _ _ => inside
  · intro r same
    exact yields_pure (congrArg (Expr.sizeofExpr ⟨0, 0⟩) same)

private theorem readsAs_binary {s : Span} {op : BinaryOp} {lhs rhs : Expr}
    (left : ReadsAs ts lhs op.tier) (right : ReadsAs us rhs (op.tier + 1)) :
    ReadsAs (ts ++ Token.sign op.sign :: us) (.binary s op lhs rhs) op.tier := by
  have two_le := op.two_le_tier
  have le := op.tier_le
  apply (readsAs_binary_iff two_le le).mpr
  intro D v enough stops
  rw [List.length_append, List.length_cons] at enough
  have behind : Stops (op.tier + 1) (.sign op.sign :: us ++ v) := by
    apply stops_sign
    intro n joins
    rw [op.joins_sign] at joins
    cases joins
    exact Nat.lt_succ_self _
  have first := (readsAs_binary_iff two_le le).mp left D (.sign op.sign :: us ++ v)
    (by rw [List.length_append, List.length_cons]; omega) behind
  have second : Yields (tiers (exprAt D) (op.tier + 1)) us v rhs.SameShape :=
    right.yields_tiers (by omega) (by omega) (by omega) stops
  have step : Yields (rightOperand (operatorAt op.tier) (tiers (exprAt D) (op.tier + 1)))
      (.sign op.sign :: us) v fun r => r.1 = op ∧ rhs.SameShape r.2 := by
    apply Yields.bind (u := [.sign op.sign])
      ((readsTier_operatorAt two_le le).accepts op _ rfl)
    rintro _ rfl
    rw [← List.append_nil us]
    apply Yields.bind second
    intro a same
    exact yields_pure ⟨rfl, same⟩
  apply first.step (by simp) step
  rintro a ⟨_, b⟩ same ⟨rfl, same'⟩
  exact congrArg₂ (Expr.binary ⟨0, 0⟩ _) same same'

theorem readsAs_conditional {s : Span} {cond thenExpr elseExpr : Expr} {ws : List Token}
    (first : ReadsAs ts cond 2) (second : ReadsAs us thenExpr 0) (third : ReadsAs ws elseExpr 0) :
    ReadsAs (ts ++ Token.sign .question :: (us ++ Token.sign .colon :: ws))
      (.conditional s cond thenExpr elseExpr) 1 := by
  intro D v enough stops
  rw [List.length_append, List.length_cons, List.length_append, List.length_cons] at enough
  have chosen : Yields (binary (exprAt D)) ts
      (Token.sign .question :: (us ++ Token.sign .colon :: ws) ++ v) cond.SameShape := by
    apply first.yields_tiers (Nat.le_refl 2) (by omega)
    · simp only [List.length_append, List.length_cons]
      omega
    · apply stops_sign
      intro n joins
      cases joins
      decide
  have colon : Stops 0 (.sign .colon :: ws ++ v) := stops_closing rfl
  have then_ : Yields (exprAt D) us (.sign .colon :: ws ++ v) thenExpr.SameShape := by
    apply second.yields_exprAt _ colon
    simp only [List.length_append, List.length_cons]
    omega
  have else_ : Yields (exprAt D) ws v elseExpr.SameShape :=
    third.yields_exprAt (by omega) stops.anything
  apply chosen.bind
  intro a same
  rw [← List.append_nil (_ :: _)]
  apply Yields.bind (P := fun branches => ∃ r : Expr × Expr, branches = some r ∧
    thenExpr.SameShape r.1 ∧ elseExpr.SameShape r.2)
  · apply Yields.optional
    apply Yields.bind (u := [.sign .question]) yields_token
    intro _ _
    apply then_.bind
    intro t sameThen
    apply Yields.bind (u := [.sign .colon]) yields_token
    intro _ _
    rw [← List.append_nil ws]
    apply else_.bind
    intro e sameElse
    exact yields_pure ⟨sameThen, sameElse⟩
  · rintro _ ⟨⟨t, e⟩, rfl, sameThen, sameElse⟩
    have shape : (Expr.conditional s cond thenExpr elseExpr).SameShape
        (.conditional (a.span.through e.span) a t e) := by
      have both := congrArg₂ (Expr.conditional ⟨0, 0⟩) same sameThen
      exact congrArg₂ (fun make branch => make branch) both sameElse
    exact yields_pure shape

theorem readsAs_assign {s : Span} {op : AssignOp} {goal value : Expr} (left : ReadsAs ts goal 2)
    (right : ReadsAs us value 0) :
    ReadsAs (ts ++ Token.sign op.sign :: us) (.assign s op goal value) 0 := by
  intro D v enough stops
  rw [List.length_append, List.length_cons] at enough
  have listed : assignOps.lookup op.sign = some op := by cases op <;> rfl
  have behind : Yields (binary (exprAt D)) ts (.sign op.sign :: us ++ v) goal.SameShape := by
    apply left.yields_tiers (Nat.le_refl 2) (by omega)
    · simp only [List.length_append, List.length_cons]
      omega
    · apply stops_sign
      intro n joins
      rw [op.joins_sign] at joins
      cases joins
      decide
  have other : (Token.sign op.sign :: us ++ v).head? ≠ some (.sign .question) := by
    cases op <;> simp [AssignOp.sign]
  have value_ : Yields (exprAt D) us v value.SameShape := right.yields_exprAt (by omega) stops
  apply (yields_conditional behind other).bind
  intro a same
  rw [← List.append_nil (_ :: us)]
  apply Yields.bind (P := fun rhs => ∃ r : AssignOp × Expr, rhs = some r ∧
    r.1 = op ∧ value.SameShape r.2)
  · apply Yields.optional
    apply Yields.bind (u := [.sign op.sign]) (yields_operatorOf listed)
    rintro _ rfl
    rw [← List.append_nil us]
    apply value_.bind
    intro b same'
    exact yields_pure ⟨rfl, same'⟩
  · rintro _ ⟨⟨_, b⟩, rfl, rfl, same'⟩
    exact yields_pure (congrArg₂ (Expr.assign ⟨0, 0⟩ _) same same')

/-- A written expression is read back at its own tier, provided that a conditional does not stand
bare before an assignment operator. -/
private theorem readsAs_tokens (admits : 2 ≤ target) (writable : e.Writable) :
    ReadsAs (tokens target e) e e.tier := by
  induction writable with
  | @int s n small => exact readsAs_int s n
  | @name s x identifier value => exact readsAs_name s x
  | @call s callee args first others ihCallee ihArgs =>
    have base := ihCallee.enclosed first.phrase (Nat.le_refl 13) (Nat.le_refl 13)
    apply base.suffixed (by simp)
    · intro D v enough
      apply yields_suffix_call
      apply yields_argTokens
      · intro e listed
        exact (ihArgs e listed).loosen (Nat.zero_le _) e.tier_le
      · rw [List.length_cons, List.length_append, List.length_singleton] at enough
        omega
    · rintro a ⟨_, tail⟩ same ⟨as, rfl, args⟩
      exact congrArg₂ (Expr.call ⟨0, 0⟩) same args
  | @member s base field arrow inner identifier ih =>
    have base := ih.enclosed inner.phrase (Nat.le_refl 13) (Nat.le_refl 13)
    apply base.suffixed (by simp)
    · intro D v enough
      exact yields_suffix_member arrow
    · rintro a ⟨_, tail⟩ same ⟨id, rfl, named⟩
      have fields : field.relocate (fun _ => 0) = id.relocate fun _ => 0 :=
        congrArg (Ident.mk · ⟨0, 0⟩) named.symm
      exact congrArg₂ (Expr.member ⟨0, 0⟩ · · arrow) same fields
  | @index s base sub inner second ihBase ihSub =>
    have base := ihBase.enclosed inner.phrase (Nat.le_refl 13) (Nat.le_refl 13)
    apply base.suffixed (by simp)
    · intro D v enough
      apply yields_suffix_index
      apply (ihSub.loosen (Nat.zero_le _) sub.tier_le).yields_exprAt _ (stops_closing rfl)
      rw [List.length_cons, List.length_append, List.length_singleton] at enough
      rw [List.length_cons]
      omega
    · rintro a ⟨_, tail⟩ same ⟨i, rfl, same'⟩
      exact congrArg₂ (Expr.index ⟨0, 0⟩) same same'
  | @unary s op operand inner ih =>
    exact readsAs_unary (ih.enclosed inner.phrase (Nat.le_refl 12) (by omega))
  | @post s op operand inner ih =>
    have base := ih.enclosed inner.phrase (Nat.le_refl 13) (Nat.le_refl 13)
    apply base.suffixed (by simp)
    · intro D v enough
      exact yields_suffix_post op
    · rintro a ⟨_, tail⟩ same rfl
      exact congrArg (Expr.post ⟨0, 0⟩ op) same
  | @binary s op lhs rhs left right ihLeft ihRight =>
    have bound := op.tier_le
    exact readsAs_binary (ihLeft.enclosed left.phrase (Nat.le_refl _) (by omega))
      (ihRight.enclosed right.phrase (Nat.le_refl _) (by omega))
  | @assign s op goal value left right ihLeft ihRight =>
    exact readsAs_assign (ihLeft.enclosed left.phrase admits (by omega))
      (ihRight.loosen (Nat.zero_le _) value.tier_le)
  | @conditional s cond thenExpr elseExpr first second third ihCond ihThen ihElse =>
    exact readsAs_conditional (ihCond.enclosed first.phrase (Nat.le_refl 2) (by omega))
      (ihThen.loosen (Nat.zero_le _) thenExpr.tier_le)
      (ihElse.enclosed third.phrase (Nat.zero_le 1) (by omega))
  | @sizeofExpr s operand inner ih =>
    exact readsAs_sizeof (ih.enclosed inner.phrase (Nat.le_refl 12) (by omega))

/-- A written expression is read back by the expression rule. -/
theorem yields_expr (admits : 2 ≤ target) (writable : e.Writable) (stops : Stops 0 v) :
    Yields expr (tokens target e) v e.SameShape := by
  apply Yields.fix
  have whole := (readsAs_tokens admits writable).loosen (Nat.zero_le _) e.tier_le
  exact whole.yields_exprAt (Nat.lt_succ_self _) stops

end Main

end Grammar

end Lockstep
