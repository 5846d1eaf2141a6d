import Lockstep.Proofs.Grammar.Outcome
import Lockstep.Proofs.Token.Spelled
import Lockstep.Proofs.Tree.Relocate
import Lockstep.Grammar.Expr
import Mathlib.Data.List.Chain
/-!
Expressions written out as tokens. Each operator has a tier, and an operand whose tier is looser
than its position admits stands between parentheses. What is written that way is never taken for
the type of a cast.
-/

set_option autoImplicit false
set_option relaxedAutoImplicit false

namespace Lockstep

def BinaryOp.tier : BinaryOp → Nat
  | logOr => 2
  | logAnd => 3
  | bitOr => 4
  | bitXor => 5
  | bitAnd => 6
  | eq | ne => 7
  | lt | gt | le | ge => 8
  | shl | shr => 9
  | add | sub => 10
  | mul | div | rem => 11

def BinaryOp.sign : BinaryOp → Sign
  | mul => .star
  | div => .slash
  | rem => .percent
  | add => .plus
  | sub => .minus
  | shl => .shl
  | shr => .shr
  | lt => .lt
  | gt => .gt
  | le => .le
  | ge => .ge
  | eq => .eqEq
  | ne => .notEq
  | bitAnd => .amp
  | bitXor => .caret
  | bitOr => .pipe
  | logAnd => .andAnd
  | logOr => .orOr

def UnaryOp.sign : UnaryOp → Sign
  | neg => .minus
  | plus => .plus
  | not => .bang
  | bitNot => .tilde
  | deref => .star
  | addrOf => .amp
  | preInc => .plusPlus
  | preDec => .minusMinus

def PostOp.sign : PostOp → Sign
  | inc => .plusPlus
  | dec => .minusMinus

def AssignOp.sign : AssignOp → Sign
  | assign => .eq
  | mul => .starEq
  | div => .slashEq
  | rem => .percentEq
  | add => .plusEq
  | sub => .minusEq
  | shl => .shlEq
  | shr => .shrEq
  | and => .ampEq
  | xor => .caretEq
  | or => .pipeEq

namespace Expr

/-- The tier of an expression: 0 for assignments, 1 for conditionals, 2 to 11 for the binary
operators, 12 for what has its operator in front, 13 for all else. -/
def tier : Expr → Nat
  | assign _ _ _ _ => 0
  | conditional _ _ _ _ => 1
  | binary _ op _ _ => op.tier
  | unary _ _ _ | sizeofExpr _ _ | cast _ _ _ | sizeofType _ _ => 12
  | int _ _ | float _ _ | char _ | str _ _ | name _ _ | call _ _ _ | member _ _ _ _ | index _ _ _
  | post _ _ _ | initList _ _ => 13

/-- Tokens of an expression of tier `tier` where `admits` is the loosest tier that may stand. -/
def enclosed (admits tier : Nat) (tokens : List Token) : List Token :=
  if tier < admits then .sign .lParen :: (tokens ++ [.sign .rParen]) else tokens

mutual

/-- The tokens of an expression, with parentheses where an operand is looser than its position
admits; `target` is the loosest tier that may stand before an assignment operator. -/
def tokens (target : Nat) : Expr → List Token
  | int _ n => [.int n]
  | name _ n => [.ident n]
  | call _ callee args =>
    enclosed 13 callee.tier (tokens target callee) ++
      .sign .lParen :: (argTokens target args ++ [.sign .rParen])
  | member _ base field arrow =>
    enclosed 13 base.tier (tokens target base) ++
      [.sign (if arrow then .arrow else .dot), .ident field.name]
  | index _ base sub =>
    enclosed 13 base.tier (tokens target base) ++
      .sign .lBracket :: (tokens target sub ++ [.sign .rBracket])
  | unary _ op operand => .sign op.sign :: enclosed 12 operand.tier (tokens target operand)
  | post _ op operand => enclosed 13 operand.tier (tokens target operand) ++ [.sign op.sign]
  | binary _ op lhs rhs =>
    enclosed op.tier lhs.tier (tokens target lhs) ++
      .sign op.sign :: enclosed (op.tier + 1) rhs.tier (tokens target rhs)
  | assign _ op goal value =>
    enclosed target goal.tier (tokens target goal) ++ .sign op.sign :: tokens target value
  | conditional _ cond thenExpr elseExpr =>
    enclosed 2 cond.tier (tokens target cond) ++
      .sign .question :: (tokens target thenExpr ++
        .sign .colon :: enclosed 1 elseExpr.tier (tokens target elseExpr))
  | sizeofExpr _ operand =>
    .keyword .kwSizeof :: enclosed 12 operand.tier (tokens target operand)
  | float _ _ | char _ | str _ _ | cast _ _ _ | sizeofType _ _ | initList _ _ => []

def argTokens (target : Nat) : List Expr → List Token
  | [] => []
  | e :: es => tokens target e ++ moreArgTokens target es

def moreArgTokens (target : Nat) : List Expr → List Token
  | [] => []
  | e :: es => .sign .comma :: (tokens target e ++ moreArgTokens target es)

end

/-- Expressions of names, integers, calls, accesses and operators. A name is an identifier that is
no builtin type. -/
inductive Writable : Expr → Prop where
  | int {s : Span} {n : Nat} (small : n < Nat.pow 2 64) : Writable (int s n)
  | name {s : Span} {n : String} (identifier : IsIdentifier n) (value : isBuiltinType n = false) :
      Writable (name s n)
  | call {s : Span} {callee : Expr} {args : List Expr} (first : Writable callee)
      (others : ∀ e ∈ args, Writable e) : Writable (call s callee args)
  | member {s : Span} {base : Expr} {field : Ident} {arrow : Bool} (inner : Writable base)
      (identifier : IsIdentifier field.name) : Writable (member s base field arrow)
  | index {s : Span} {base sub : Expr} (inner : Writable base) (second : Writable sub) :
      Writable (index s base sub)
  | unary {s : Span} {op : UnaryOp} {operand : Expr} (inner : Writable operand) :
      Writable (unary s op operand)
  | post {s : Span} {op : PostOp} {operand : Expr} (inner : Writable operand) :
      Writable (post s op operand)
  | binary {s : Span} {op : BinaryOp} {lhs rhs : Expr} (left : Writable lhs)
      (right : Writable rhs) : Writable (binary s op lhs rhs)
  | assign {s : Span} {op : AssignOp} {goal value : Expr} (left : Writable goal)
      (right : Writable value) : Writable (assign s op goal value)
  | conditional {s : Span} {cond thenExpr elseExpr : Expr} (first : Writable cond)
      (second : Writable thenExpr) (third : Writable elseExpr) :
      Writable (conditional s cond thenExpr elseExpr)
  | sizeofExpr {s : Span} {operand : Expr} (inner : Writable operand) :
      Writable (sizeofExpr s operand)

end Expr

section Phrases

def Token.IsOperand : Token → Prop
  | int _ | ident _ | sign _ => True
  | keyword word => word = .kwSizeof
  | kernel | qualifier | attr | float _ | char | str _ => False

def Token.IsWritten : Token → Prop
  | int n => n < Nat.pow 2 64
  | ident x => IsIdentifier x
  | sign _ => True
  | keyword word => word = .kwSizeof
  | kernel | qualifier | attr | float _ | char | str _ => False

private theorem Token.IsWritten.isOperand {t : Token} (written : t.IsWritten) : t.IsOperand := by
  cases t with
  | int | ident | sign => trivial
  | keyword => exact written
  | kernel | qualifier | attr | float | char | str => exact written

def Token.MayPrecede (t next : Token) : Prop := t = .sign .star → next ≠ .sign .rParen

/-- A row of tokens in which every star is followed by an operand. -/
structure Starred (ts : List Token) : Prop where
  written : ∀ t ∈ ts, t.IsWritten
  ends : ∀ t ∈ ts.getLast?, t ≠ .sign .star
  inside : ts.IsChain Token.MayPrecede

/-- A row of tokens that begins like an expression: no type, and no closing parenthesis. -/
structure Phrase (ts : List Token) : Prop extends Starred ts where
  opens : ∃ t rest, ts = t :: rest ∧ t ≠ .sign .rParen ∧
    ∀ x, t = .ident x → isBuiltinType x = false

variable {ts us : List Token} {t : Token}

theorem Starred.append (first : Starred ts) (second : Starred us) : Starred (ts ++ us) where
  written t listed := (List.mem_append.mp listed).elim (first.written t) (second.written t)
  ends t last := by
    rw [List.getLast?_append] at last
    cases found : us.getLast? with
    | none =>
      rw [found, Option.none_or] at last
      exact first.ends t last
    | some s =>
      rw [found, Option.some_or] at last
      exact second.ends t (found.trans last)
  inside := by
    apply List.isChain_append.mpr
    refine ⟨first.inside, second.inside, ?_⟩
    intro x last y _ star
    exact absurd star (first.ends x last)

private theorem starred_single (written : t.IsWritten) (other : t ≠ .sign .star) : Starred [t] where
  written s listed := List.mem_singleton.mp listed ▸ written
  ends s last := by
    cases last
    exact other
  inside := .singleton t

private theorem starred_sign {s : Sign} (other : s ≠ .star) : Starred [.sign s] :=
  starred_single trivial fun same => other (Token.sign.inj same)

private theorem Phrase.starred_cons (phrase : Phrase ts) (written : t.IsWritten) :
    Starred (t :: ts) := by
  obtain ⟨u, rest, rfl, begins, _⟩ := phrase.opens
  refine ⟨?_, ?_, ?_⟩
  · intro x listed
    rcases List.mem_cons.mp listed with rfl | listed
    · exact written
    · exact phrase.written x listed
  · intro x last
    rw [List.getLast?_cons_cons] at last
    exact phrase.ends x last
  · exact .cons_cons (fun _ => begins) phrase.inside

theorem Phrase.cons (phrase : Phrase ts) (written : t.IsWritten) (other : t ≠ .sign .rParen)
    (value : ∀ x, t ≠ .ident x) : Phrase (t :: ts) where
  toStarred := phrase.starred_cons written
  opens := ⟨t, ts, rfl, other, fun x same => absurd same (value x)⟩

theorem Phrase.append (phrase : Phrase ts) (starred : Starred us) : Phrase (ts ++ us) where
  toStarred := phrase.toStarred.append starred
  opens := by
    obtain ⟨t, rest, rfl, facts⟩ := phrase.opens
    exact ⟨t, rest ++ us, rfl, facts⟩

theorem Phrase.bracketed (phrase : Phrase ts) {opening closing : Sign} (other : closing ≠ .star) :
    Starred (.sign opening :: (ts ++ [Token.sign closing])) :=
  (phrase.append (starred_sign other)).starred_cons trivial

theorem Phrase.parens (phrase : Phrase ts) :
    Phrase (.sign .lParen :: (ts ++ [Token.sign .rParen])) :=
  (phrase.append (starred_sign (by decide))).cons trivial (by decide) (by simp)

theorem Phrase.enclosed (phrase : Phrase ts) (admits tier : Nat) :
    Phrase (Expr.enclosed admits tier ts) := by
  unfold Expr.enclosed
  split
  · exact phrase.parens
  · exact phrase

private theorem Starred.exists_next (starred : Starred (us ++ Token.sign .star :: ts)) :
    ∃ t rest, ts = t :: rest ∧ t ≠ .sign .rParen := by
  cases ts with
  | nil => exact absurd rfl (starred.ends (.sign .star) (by simp))
  | cons t rest =>
    have chain := (List.isChain_append.mp starred.inside).2.1
    exact ⟨t, rest, rfl, (List.isChain_cons_cons.mp chain).1 rfl⟩

namespace Expr

variable {target : Nat} {e : Expr} {es : List Expr}

private theorem starred_moreArgTokens (each : ∀ e ∈ es, Phrase (tokens target e)) :
    Starred (moreArgTokens target es) := by
  induction es with
  | nil => exact ⟨by simp [moreArgTokens], by simp [moreArgTokens], .nil⟩
  | cons e es ih =>
    have first := (each e List.mem_cons_self).starred_cons (t := .sign .comma) trivial
    have others := ih fun e listed => each e (List.mem_cons_of_mem _ listed)
    rw [moreArgTokens, ← List.cons_append]
    exact first.append others

private theorem starred_args (each : ∀ e ∈ es, Phrase (tokens target e)) :
    Starred (.sign .lParen :: (argTokens target es ++ [Token.sign .rParen])) := by
  cases es with
  | nil => exact (starred_sign (by decide)).append (starred_sign (by decide))
  | cons e es =>
    have others := starred_moreArgTokens fun e listed => each e (List.mem_cons_of_mem _ listed)
    exact ((each e List.mem_cons_self).append others).bracketed (by decide)

theorem Writable.phrase (writable : Writable e) : Phrase (tokens target e) := by
  induction writable with
  | @int s n small =>
    have single : Starred [.int n] := starred_single small (by simp)
    refine ⟨single, _, [], rfl, by simp, ?_⟩
    intro x same
    cases same
  | @name s n identifier value =>
    have single : Starred [.ident n] := starred_single identifier (by simp)
    refine ⟨single, _, [], rfl, by simp, ?_⟩
    intro x same
    cases same
    exact value
  | call first others ihCallee ihArgs =>
    exact (ihCallee.enclosed 13 _).append (starred_args ihArgs)
  | @member s base field arrow inner identifier ih =>
    have access : Starred [.sign (if arrow then .arrow else .dot)] := by
      apply starred_sign
      cases arrow <;> decide
    have named : Starred [.ident field.name] := starred_single identifier (by simp)
    exact (ih.enclosed 13 _).append (access.append named)
  | index inner second ihBase ihSub =>
    exact (ihBase.enclosed 13 _).append (ihSub.bracketed (by decide))
  | @unary s op operand inner ih =>
    refine (ih.enclosed 12 _).cons (t := .sign op.sign) trivial ?_ (by simp)
    cases op <;> decide
  | @post s op operand inner ih =>
    apply (ih.enclosed 13 _).append
    apply starred_sign
    cases op <;> decide
  | @binary s op lhs rhs left right ihLeft ihRight =>
    exact (ihLeft.enclosed op.tier _).append
      ((ihRight.enclosed (op.tier + 1) _).starred_cons trivial)
  | assign left right ihLeft ihRight =>
    exact (ihLeft.enclosed target _).append (ihRight.starred_cons trivial)
  | @conditional s cond thenExpr elseExpr first second third ihCond ihThen ihElse =>
    have branches := (ihThen.starred_cons (t := .sign .question) trivial).append
      ((ihElse.enclosed 1 elseExpr.tier).starred_cons (t := .sign .colon) trivial)
    exact (ihCond.enclosed 2 _).append branches
  | sizeofExpr inner ih => exact (ih.enclosed 12 _).cons rfl (by simp) (by simp)

end Expr

end Phrases

namespace Grammar

open Lockstep.Parser

section Casts

variable {ts v : List Token} {t : Token} {x : String}

theorem refuses_attributeList (other : v.head? ≠ some .attr) : Refuses attributeList v :=
  (refuses_token other).bind

theorem yields_no_specifiers (kernel : v.head? ≠ some .kernel)
    (qualifier : v.head? ≠ some .qualifier) (attr : v.head? ≠ some .attr) :
    Yields specifiers [] v fun _ => True := by
  have stuck : Refuses (choice [
      (fun _ => true) <$> token .kernel,
      (fun _ => false) <$> token .qualifier,
      (fun _ => false) <$> attributeList]) v := by
    apply refuses_choice
    intro p listed
    simp only [List.mem_cons, List.not_mem_nil, or_false] at listed
    rcases listed with rfl | rfl | rfl
    · exact (refuses_token kernel).map
    · exact (refuses_token qualifier).map
    · exact (refuses_attributeList attr).map
  exact stuck.many.bind (u := []) fun _ _ => yields_pure trivial

theorem yields_specifiers (operand : ∀ t ∈ v.head?, t.IsOperand) :
    Yields specifiers [] v fun _ => True := by
  have other (t : Token) (foreign : ¬ t.IsOperand) : v.head? ≠ some t :=
    fun first => foreign (operand t first)
  exact yields_no_specifiers (other _ id) (other _ id) (other _ id)

theorem yields_ident : Yields ident [.ident x] v fun id => id.name = x := by
  apply Yields.bind (u := [.ident x]) (w := []) (P := fun r : String × Span => r.1 = x)
  · apply Yields.spanned (P := fun name => name = x)
    exact yields_next rfl rfl
  · intro r named
    exact yields_pure named

theorem refuses_ident (other : ∀ x, v.head? ≠ some (.ident x)) : Refuses ident v := by
  apply Refuses.bind
  apply Refuses.spanned
  apply refuses_next
  intro t first
  cases t with
  | ident x => exact absurd first (other x)
  | keyword | kernel | qualifier | attr | sign | float | int | char | str => rfl

private theorem not_mem_widthWords (value : isBuiltinType x = false) : x ∉ widthWords := by
  have builtin : ∀ w ∈ widthWords, isBuiltinType w = true := by decide +kernel
  intro listed
  rw [builtin x listed] at value
  cases value

private theorem refuses_integerType (operand : ∀ t ∈ v.head?, t.IsOperand)
    (foreign : ∀ x, v.head? = some (.ident x) → x ∉ widthWords) :
    Refuses integerType v := by
  have unsigned : Refuses signedness v := by
    unfold signedness select
    apply refuses_next
    intro t first
    have known := operand t first
    cases t with
    | keyword word =>
      cases known
      rfl
    | kernel | qualifier | attr | sign | float | int | char | str | ident => rfl
  have word : Refuses widthWord v := by
    by_cases named : ∃ x, v.head? = some (.ident x)
    · obtain ⟨x, first⟩ := named
      obtain ⟨w, rfl⟩ := List.head?_eq_some_iff.mp first
      apply Yields.guard_refuses (u := [.ident x]) yields_ident
      rintro id rfl
      simpa using foreign id.name rfl
    · exact (refuses_ident fun x first => named ⟨x, first⟩).guard
  exact (refuses_choice (by
    intro p listed
    simp only [List.mem_cons, List.not_mem_nil, or_false] at listed
    rcases listed with rfl | rfl
    · exact unsigned.bind
    · exact word.bind.bind)).spanned.bind

private theorem refuses_struct (operand : ∀ t ∈ v.head?, t.IsOperand) :
    Refuses (TypeName.struct <$> after (keyword .kwStruct) ident) v := by
  apply Refuses.map
  apply Refuses.bind
  apply refuses_token
  intro first
  cases operand _ first

theorem yields_typeName (foreign : x ∉ widthWords) :
    Yields typeName [.ident x] v fun n => ∃ id : Ident, n = .named id ∧ id.name = x := by
  have operand : ∀ t ∈ ([Token.ident x] ++ v).head?, t.IsOperand := by
    intro t first
    cases first
    trivial
  have only : ∀ y, ([Token.ident x] ++ v).head? = some (.ident y) → y ∉ widthWords := by
    intro y first
    cases first
    exact foreign
  apply (refuses_struct operand).or_yields
  apply (refuses_integerType operand only).or_yields
  apply Yields.or
  exact yields_ident.map fun id named => ⟨id, rfl, named⟩

private theorem refuses_typeName (operand : ∀ t ∈ v.head?, t.IsOperand)
    (other : ∀ x, v.head? ≠ some (.ident x)) : Refuses typeName v := by
  have foreign : ∀ x, v.head? = some (.ident x) → x ∉ widthWords :=
    fun x first => absurd first (other x)
  apply (refuses_struct operand).or
  apply (refuses_integerType operand foreign).or
  exact (refuses_ident other).map.or refuses_choice_nil

theorem yields_stars (k : Nat) (operand : ∀ t ∈ v.head?, t.IsOperand)
    (other : v.head? ≠ some (.sign .star)) :
    Yields stars (List.replicate k (.sign .star)) v fun n => n = k := by
  have rows : Rows (before (sign .star) (many (token .qualifier)))
      (List.replicate k (.sign .star)) v fun found => found.length = k := by
    induction k with
    | zero => exact rows_nil rfl
    | succ k ih =>
      have unqualified : (List.replicate k (Token.sign .star) ++ v).head? ≠ some .qualifier := by
        intro first
        cases k with
        | zero => exact operand _ first
        | succ k => cases first
      have star : Yields (before (sign .star) (many (token .qualifier))) [.sign .star]
          (List.replicate k (.sign .star) ++ v) fun _ => True := by
        apply Yields.bind (u := [.sign .star]) (w := []) yields_token
        intro _ _
        exact (refuses_token unqualified).many.bind (u := []) (w := [])
          fun _ _ => yields_pure trivial
      apply Rows.cons star (by simp) ih
      intro _ as _ counted
      rw [List.length_cons, counted]
  have stuck : Refuses (before (sign .star) (many (token .qualifier))) v :=
    (refuses_token other).bind
  rw [← List.append_nil (List.replicate k _)]
  exact (rows.many stuck).bind fun found counted => yields_pure counted

theorem yields_typeSpec (k : Nat) (foreign : x ∉ widthWords)
    (operand : ∀ t ∈ v.head?, t.IsOperand) (other : v.head? ≠ some (.sign .star)) :
    Yields typeSpec (.ident x :: List.replicate k (.sign .star)) v fun r =>
      r.2.pointers = k ∧ ∃ id : Ident, r.2.name = .named id ∧ id.name = x := by
  have behind : ∀ t ∈ (List.replicate k (Token.sign .star) ++ v).head?, t.IsOperand := by
    intro t first
    cases k with
    | zero => exact operand t first
    | succ k =>
      cases first
      trivial
  have front : ∀ t ∈ (Token.ident x :: (List.replicate k (.sign .star) ++ v)).head?,
      t.IsOperand := by
    intro t first
    cases first
    trivial
  rw [← List.append_nil (_ :: _)]
  apply Yields.bind (P := fun r : (Bool × TypeName × Nat) × Span =>
    r.1.2.2 = k ∧ ∃ id : Ident, r.1.2.1 = .named id ∧ id.name = x)
  · apply Yields.spanned (P := fun r : Bool × TypeName × Nat =>
      r.2.2 = k ∧ ∃ id : Ident, r.2.1 = .named id ∧ id.name = x)
    apply (yields_specifiers front).bind (u := [])
    intro _ _
    apply (yields_typeName foreign).bind (u := [.ident x])
    intro n named
    apply (yields_specifiers behind).bind (u := [])
    intro _ _
    rw [← List.append_nil (List.replicate k _)]
    apply (yields_stars k operand other).bind
    intro m counted
    exact yields_pure ⟨counted, named⟩
  · intro r holds
    exact yields_pure holds

theorem refuses_typeSpec (operand : ∀ t ∈ v.head?, t.IsOperand)
    (other : ∀ x, v.head? ≠ some (.ident x)) : Refuses typeSpec v := by
  apply Refuses.bind
  apply Refuses.spanned
  exact (yields_specifiers operand).bind_refuses (u := []) fun _ _ =>
    (refuses_typeName operand other).bind

private theorem exists_stars (ts : List Token) :
    ∃ k w, ts = List.replicate k (Token.sign .star) ++ w ∧ w.head? ≠ some (.sign .star) := by
  induction ts with
  | nil => exact ⟨0, [], rfl, by simp⟩
  | cons t ts ih =>
    by_cases star : t = .sign .star
    · obtain ⟨k, w, rfl, other⟩ := ih
      exact ⟨k + 1, w, by rw [star]; rfl, other⟩
    · exact ⟨0, t :: ts, rfl, by simpa using star⟩

theorem refuses_cast (phrase : Phrase ts) :
    Refuses (between .lParen castType .rParen)
      (.sign .lParen :: (ts ++ Token.sign .rParen :: v)) := by
  apply Yields.bind_refuses (u := [.sign .lParen]) (v := ts ++ Token.sign .rParen :: v) yields_token
  intro _ _
  obtain ⟨t, rest, rfl, -, value⟩ := phrase.opens
  have operand : ∀ s ∈ (t :: rest ++ Token.sign .rParen :: v).head?, s.IsOperand := by
    intro s first
    cases first
    exact (phrase.written t List.mem_cons_self).isOperand
  by_cases named : ∃ x, t = .ident x
  · obtain ⟨x, rfl⟩ := named
    obtain ⟨k, w, rfl, other⟩ := exists_stars rest
    have nonstar : (w ++ Token.sign .rParen :: v).head? ≠ some (.sign .star) := by
      cases w with
      | nil => simp
      | cons s w => exact other
    have behind : ∀ s ∈ (w ++ Token.sign .rParen :: v).head?, s.IsOperand := by
      intro s first
      cases w with
      | nil =>
        cases first
        trivial
      | cons s w =>
        cases first
        exact (phrase.written s (by simp)).isOperand
    have read : Yields plainType (.ident x :: List.replicate k (.sign .star))
        (w ++ Token.sign .rParen :: v) fun ty =>
          ty.pointers = k ∧ ∃ id : Ident, ty.name = .named id ∧ id.name = x :=
      (yields_typeSpec k (not_mem_widthWords (value x rfl)) behind nonstar).map fun _ holds => holds
    rw [List.cons_append, List.append_assoc, ← List.cons_append]
    cases k with
    | zero =>
      apply Refuses.bind
      apply read.demand_refuses
      rintro ty ⟨none, id, same, named⟩
      simp only [isCastable, none, same, named, value x rfl]
      rfl
    | succ k =>
      have castable (ty : TypeSpec) (some : ty.pointers = k + 1) : isCastable ty = true := by
        simp [isCastable, some]
      apply (read.demand fun ty counted => castable ty counted.1).bind_refuses
      intro _ _
      apply Refuses.bind
      apply refuses_token
      have split : Token.ident x :: (List.replicate (k + 1) (Token.sign .star) ++ w) =
          (Token.ident x :: List.replicate k (.sign .star)) ++ Token.sign .star :: w := by
        rw [List.replicate_succ', List.append_assoc]
        rfl
      obtain ⟨s, w, rfl, more⟩ := (split ▸ phrase.toStarred).exists_next
      simpa using more
  · have unread : Refuses typeSpec (t :: rest ++ Token.sign .rParen :: v) := by
      apply refuses_typeSpec operand
      intro x first
      exact named ⟨x, Option.some.inj first⟩
    exact unread.map.demand.bind

end Casts

end Grammar

end Lockstep
