import Lockstep.Proofs.Grammar.Takes
import Lockstep.Proofs.Grammar.Written
/-!
The items of a text. An item is read in one way only, and what stands behind it does not change how
it is read: a function ends with its body or a semicolon, all other items with a semicolon.
-/

set_option autoImplicit false
set_option relaxedAutoImplicit false

namespace Lockstep

namespace Grammar

open Lockstep.Parser

section Steadiness

private theorem steady_typeSpec : Steady typeSpec :=
  steady_of_agree (fun _ => agree_typeSpec) fun a _ same => by simp [same]

private theorem steady_plainType : Steady plainType :=
  steady_of_agree (fun _ => agree_plainType) fun a _ same => by simp [same]

private theorem steady_ident : Steady ident :=
  steady_of_agree (fun _ => agree_ident) fun a _ same => by simp [same]

private theorem steady_params : Steady (commaSep param) :=
  steady_of_agree (fun _ => (agree_param Enclosure.blocks_whole.brackets).commaSep)
    fun a _ same => by simp [same, funext Param.relocate_id]

private theorem steady_attributes : Steady (many attributeList) :=
  steady_of_agree (fun _ => agree_attributeList.many) fun a _ same => by simp [same]

private theorem steady_bodyOrEnd : Steady bodyOrEnd :=
  steady_of_agree (fun _ => agree_bodyOrEnd Enclosure.blocks_whole)
    fun a _ same => by simp [same, funext Block.relocate_id]

private theorem steady_decl : Steady decl :=
  steady_of_agree (fun _ => agree_decl Enclosure.blocks_whole.brackets)
    fun a _ same => by simp [same]

end Steadiness

private theorem exchange_braced {α : Type} {p : Parser α} {m : Nat} {φ : α → α → Prop} {a : α}
    {u rest rest' : List Lexeme} (steady : Steady p)
    (agree : ∀ n, Agree Enclosure.brace id n m φ p p) (same : ∀ a b, φ a b → b = a)
    (takes : Takes (between .lBrace p .rBrace) u rest a)
    (attributes : AttributesBalanced ((u ++ rest).map Lexeme.token)) :
    Takes (between .lBrace p .rBrace) u rest' a := by
  obtain ⟨l, v, l', rfl, opens, closes, inside⟩ := takes.between_inv steady
  have attributes' : AttributesBalanced ((v ++ l' :: rest).map Lexeme.token) := by
    simpa using attributes.of_cons
  refine Takes.between opens closes (inside.exchange_closing (by decide) Enclosure.counts_brace
    agree same closes ?_ ?_)
  · intro x y split balanced _ _
    exact ⟨(split ▸ attributes').of_block balanced, .inl ⟨balanced, rfl, rfl⟩⟩
  · intro level
    exact ⟨attributes', .inr ⟨level, rfl, rfl⟩⟩

section Functions

variable {w rest rest' : List Lexeme} {x : Function}

def signature : Parser ((Bool × TypeSpec) × Ident) := do
  let type ← typeSpec
  let name ← ident
  return (type, name)

/-- The function of this type and name, from the text behind them. -/
def functionTail (front : (Bool × TypeSpec) × Ident) : Parser (Span → Function) := do
  let params ← between .lParen (commaSep param) .rParen
  let _ ← many attributeList
  let body ← bodyOrEnd
  return fun span => ⟨front.1.1, front.1.2, front.2, params, body, span⟩

private theorem function_eq : function =
    spanned (signature >>= functionTail) >>= fun made => pure (made.1 made.2) := by
  unfold signature
  rw [bind_bind]
  simp only [bind_bind]
  rfl

private theorem steady_signature : Steady signature :=
  steady_typeSpec.bind fun _ => steady_ident.bind fun _ => steady_pure

private theorem steady_functionTail (front : (Bool × TypeSpec) × Ident) :
    Steady (functionTail front) :=
  steady_params.between.bind fun _ => steady_attributes.bind fun _ =>
    steady_bodyOrEnd.bind fun _ => steady_pure

private theorem agree_signature {κ : Enclosure} {f : Nat → Nat} {n : Nat} : Agree κ f n 1
    (fun a b => b = ((a.1.1, a.1.2.relocate f), a.2.relocate f)) signature signature := by
  refine agree_typeSpec.andThen ?_
  rintro type _ rfl
  refine agree_ident.weaken.bind ?_
  rintro name _ rfl
  exact .pure rfl

/-- The parts of a function: its type and name, parameters, attributes, and a body or semicolon. -/
structure FunctionParts (w rest : List Lexeme) (x : Function) where
  front : List Lexeme
  params : List Lexeme
  attributes : List Lexeme
  ending : List Lexeme
  marks : List Unit
  split : w = front ++ (params ++ (attributes ++ ending))
  spans : Spans w x.span
  takes_front : Takes signature front (params ++ (attributes ++ (ending ++ rest)))
    ((x.isKernel, x.ret), x.name)
  takes_params : Takes (between .lParen (commaSep param) .rParen) params
    (attributes ++ (ending ++ rest)) x.params
  takes_attributes : Takes (many attributeList) attributes (ending ++ rest) marks
  takes_ending : Takes bodyOrEnd ending rest x.body

theorem exists_functionParts (takes : Takes function w rest x) :
    Nonempty (FunctionParts w rest x) := by
  have nonempty : w ≠ [] := by
    apply List.ne_nil_of_length_pos
    exact takes.least_le fun _ => agree_function Enclosure.blocks_whole
  rw [function_eq] at takes
  obtain ⟨make, span, inner, spans, rfl⟩ := Takes.spanned_inv
    (steady_signature.bind steady_functionTail) (fun _ => rfl) takes nonempty
  obtain ⟨⟨⟨isKernel, ret⟩, name⟩, u₁, v₁, rfl, front, inner⟩ :=
    Takes.bind_inv steady_signature steady_functionTail inner
  obtain ⟨params, u₂, v₂, rfl, listed, inner⟩ := Takes.bind_inv steady_params.between
    (fun _ => steady_attributes.bind fun _ => steady_bodyOrEnd.bind fun _ => steady_pure) inner
  obtain ⟨marks, u₃, v₃, rfl, marked, inner⟩ := Takes.bind_inv steady_attributes
    (fun _ => steady_bodyOrEnd.bind fun _ => steady_pure) inner
  obtain ⟨body, u₄, v₄, rfl, ended, inner⟩ := Takes.bind_inv steady_bodyOrEnd
    (fun _ => steady_pure) inner
  obtain ⟨rfl, rfl⟩ := inner.pure_inv
  simp only [List.append_assoc, List.append_nil] at front listed marked ended spans ⊢
  exact ⟨⟨u₁, u₂, u₃, u₄, marks, rfl, spans, front, listed, marked, ended⟩⟩

private theorem steady_body : Steady body :=
  steady_of_agree (fun _ => agree_body Enclosure.blocks_whole) fun a _ same => by simp [same]

theorem steady_stmts : Steady (many stmt) :=
  steady_of_agree (fun _ => (agree_stmt Enclosure.blocks_whole).many)
    fun a _ same => by simp [same, funext Stmt.relocate_id]

theorem bodyOrEnd_cases {u : List Lexeme} {b : Option Block}
    (takes : Takes bodyOrEnd u rest b) :
    (∃ block, b = some block ∧ Takes body u rest block) ∨
      b = none ∧ ∃ l, u = [l] ∧ l.token = .sign .semicolon := by
  rcases Takes.or_inv steady_body.map steady_token.map takes with braced | ⟨_, ended⟩
  · obtain ⟨block, inner, rfl⟩ := braced.map_inv steady_body
    exact .inl ⟨block, rfl, inner⟩
  · obtain ⟨_, inner, rfl⟩ := ended.map_inv steady_token
    exact .inr ⟨rfl, inner.sign_inv⟩

theorem body_nonempty {u : List Lexeme} {b : Block} (takes : Takes body u rest b) : u ≠ [] := by
  apply List.ne_nil_of_length_pos
  exact takes.least_le fun _ => agree_body Enclosure.blocks_whole

theorem body_returns (made : List Stmt × Span) :
    (fun (stmts, span) => (pure ⟨stmts, span⟩ : Parser Block)) made = pure ⟨made.1, made.2⟩ :=
  rfl

private theorem exchange_body {u : List Lexeme} {b : Block} (takes : Takes body u rest b)
    (attributes : AttributesBalanced ((u ++ rest).map Lexeme.token)) : Takes body u rest' b := by
  obtain ⟨stmts, span, inner, spans, rfl⟩ := Takes.spanned_inv steady_stmts.between body_returns
    takes (body_nonempty takes)
  have inner' : Takes (bracedStmts stmt) u rest' stmts := exchange_braced steady_stmts
    (fun _ => (agree_stmt Enclosure.blocks_brace).many)
    (fun _ _ same => by simp [same, funext Stmt.relocate_id]) inner attributes
  exact Takes.spanned_bind body_returns inner' (body_nonempty takes) spans

private theorem bodyOrEnd_starts {u : List Lexeme} {b : Option Block}
    (takes : Takes bodyOrEnd u rest b) : ∃ s ∈ [Sign.semicolon, .lBrace],
      ((u ++ rest).map Lexeme.token).head? = some (.sign s) := by
  rcases bodyOrEnd_cases takes with ⟨_, _, braced⟩ | ⟨_, l, rfl, ends⟩
  · obtain ⟨_, _, inner, _⟩ := Takes.spanned_inv steady_stmts.between body_returns braced
      (body_nonempty braced)
    obtain ⟨l, v, l', rfl, opens, _⟩ := inner.between_inv steady_stmts
    exact ⟨.lBrace, by simp, by simp [opens]⟩
  · exact ⟨.semicolon, by simp, by simp [ends]⟩

private theorem exchange_bodyOrEnd {u : List Lexeme} {b : Option Block}
    (takes : Takes bodyOrEnd u rest b)
    (attributes : AttributesBalanced ((u ++ rest).map Lexeme.token)) :
    Takes bodyOrEnd u rest' b := by
  rcases bodyOrEnd_cases takes with ⟨block, rfl, braced⟩ | ⟨rfl, l, rfl, ends⟩
  · exact (exchange_body braced attributes).map.or
  · have refuses : Refuses body (([l] ++ rest').map Lexeme.token) :=
      (refuses_between (by simp [ends])).spanned.bind
    exact refuses.map.rejects.or_takes (takes_sign ends).map

private theorem exchange_params {u : List Lexeme} {params : List Param}
    (takes : Takes (between .lParen (commaSep param) .rParen) u rest params) :
    Takes (between .lParen (commaSep param) .rParen) u rest' params := by
  obtain ⟨l, v, l', rfl, opens, closes, inside⟩ := takes.between_inv steady_params
  refine Takes.between opens closes (inside.exchange_closing (o := .lParen) (by decide)
    Enclosure.counts_paren (fun _ => (agree_param Enclosure.brackets_paren).commaSep)
    (fun _ _ same => by simp [same, funext Param.relocate_id]) closes ?_ ?_)
  · intro _ _ _ balanced _ _
    exact .inl ⟨balanced, rfl, rfl⟩
  · intro level
    exact .inr ⟨level, rfl, rfl⟩

private theorem exchange_signature {u : List Lexeme} {front : (Bool × TypeSpec) × Ident}
    (takes : Takes signature u rest front)
    (starts : (rest.map Lexeme.token).head? = some (.sign .lParen))
    (starts' : (rest'.map Lexeme.token).head? = some (.sign .lParen)) :
    Takes signature u rest' front :=
  have bound : ∀ s ∈ [Sign.lParen], (Token.sign s).IsBound := by simp [Token.IsBound]
  takes.exchange bound (fun _ => agree_signature) (fun _ _ same => by simp [same])
    ⟨_, by simp, starts⟩ ⟨_, by simp, starts'⟩

private theorem exchange_attributes {u : List Lexeme} {marks : List Unit}
    (takes : Takes (many attributeList) u rest marks)
    (ends : ∃ s ∈ [Sign.semicolon, .lBrace], (rest.map Lexeme.token).head? = some (.sign s))
    (ends' : ∃ s ∈ [Sign.semicolon, .lBrace], (rest'.map Lexeme.token).head? = some (.sign s)) :
    Takes (many attributeList) u rest' marks :=
  takes.exchange (by simp [Token.IsBound]) (fun _ => agree_attributeList.many)
    (fun _ _ same => by simp [same]) ends ends'

theorem FunctionParts.takes (parts : FunctionParts w rest x) {ending rest' : List Lexeme}
    {body : Option Block} {span : Span} (ended : Takes bodyOrEnd ending rest' body)
    (spans : Spans (parts.front ++ (parts.params ++ (parts.attributes ++ ending))) span) :
    Takes function (parts.front ++ (parts.params ++ (parts.attributes ++ ending))) rest'
      ⟨x.isKernel, x.ret, x.name, x.params, body, span⟩ := by
  have starts {tail : List Lexeme} :
      ((parts.params ++ tail).map Lexeme.token).head? = some (.sign .lParen) := by
    obtain ⟨l, v, l', split, opens, _⟩ := parts.takes_params.between_inv steady_params
    simp [split, opens]
  have attributes : Takes (many attributeList) parts.attributes (ending ++ rest') parts.marks :=
    exchange_attributes parts.takes_attributes (bodyOrEnd_starts parts.takes_ending)
      (bodyOrEnd_starts ended)
  have params : Takes (between .lParen (commaSep param) .rParen) parts.params
      (parts.attributes ++ (ending ++ rest')) x.params := exchange_params parts.takes_params
  have front : Takes signature parts.front (parts.params ++ (parts.attributes ++ (ending ++ rest')))
      ((x.isKernel, x.ret), x.name) := exchange_signature parts.takes_front starts starts
  have nonempty : parts.front ≠ [] := by
    apply List.ne_nil_of_length_pos
    exact parts.takes_front.least_le fun _ => agree_signature
  have last := ended.bind (v := []) (g := fun body => (pure fun span =>
    (⟨x.isKernel, x.ret, x.name, x.params, body, span⟩ : Function) : Parser (Span → Function)))
    takes_pure
  rw [List.append_nil] at last
  rw [function_eq]
  exact Takes.spanned_bind (fun _ => rfl) (Takes.bind (by simpa using front)
    (Takes.bind (by simpa using params) (Takes.bind attributes last))) (by simp [nonempty]) spans

private theorem exchange_function (takes : Takes function w rest x)
    (attributes : AttributesBalanced ((w ++ rest).map Lexeme.token)) :
    Takes function w rest' x := by
  obtain ⟨parts⟩ := exists_functionParts takes
  have spans := parts.spans
  have split := parts.split
  have behind : AttributesBalanced ((parts.ending ++ rest).map Lexeme.token) := by
    rw [split] at attributes
    simp only [List.append_assoc, List.map_append] at attributes ⊢
    exact attributes.of_append.of_append.of_append
  have ended : Takes bodyOrEnd parts.ending rest' x.body :=
    exchange_bodyOrEnd parts.takes_ending behind
  have whole := parts.takes ended (split ▸ spans)
  rwa [← split] at whole

end Functions

section Definitions

variable {w rest rest' : List Lexeme}

def typedefFront : Parser (TypeSpec × Ident) := do
  keyword .kwTypedef
  let ty ← plainType
  let aka ← ident
  return (ty, aka)

private theorem typedef_eq : typedef = spanned (before typedefFront (sign .semicolon)) >>=
    fun made => pure (⟨made.1.1, made.1.2, made.2⟩ : Typedef) := by
  unfold typedef typedefFront before
  simp only [bind_bind]
  rfl

private theorem steady_typedefFront : Steady typedefFront :=
  steady_token.bind fun _ => steady_plainType.bind fun _ => steady_ident.bind fun _ => steady_pure

private theorem agree_typedefFront {κ : Enclosure} {f : Nat → Nat} {n : Nat} : Agree κ f n 1
    (fun a b => b = (a.1.relocate f, a.2.relocate f)) typedefFront typedefFront := by
  refine Agree.andThen (.plain (κ.plain_of_free (by simp [Token.IsBound]))) fun _ _ _ => ?_
  refine agree_plainType.weaken.bind ?_
  rintro ty _ rfl
  refine agree_ident.weaken.bind ?_
  rintro aka _ rfl
  exact .pure rfl

private theorem exchange_typedef {x : Typedef} (takes : Takes typedef w rest x) :
    Takes typedef w rest' x := by
  have nonempty : w ≠ [] := by
    apply List.ne_nil_of_length_pos
    exact takes.least_le fun _ => agree_typedef Enclosure.blocks_whole
  rw [typedef_eq] at takes ⊢
  obtain ⟨made, span, inner, spans, rfl⟩ := Takes.spanned_inv
    (steady_typedefFront.before steady_token) (fun _ => rfl) takes nonempty
  have inner' : Takes (before typedefFront (sign .semicolon)) w rest' made :=
    inner.exchange_ended steady_typedefFront (fun _ => agree_typedefFront)
      fun _ _ same => by simp [same]
  exact Takes.spanned_bind (fun _ => rfl) inner' nonempty spans

private theorem exchange_global {x : Decl}
    (takes : Takes (before decl (sign .semicolon)) w rest x) :
    Takes (before decl (sign .semicolon)) w rest' x :=
  takes.exchange_ended steady_decl (fun _ => agree_decl Enclosure.brackets_statement)
    fun _ _ same => by simp [same]

def structFront : Parser (Option Unit × Option Ident) := do
  let typedef ← optional (keyword .kwTypedef)
  keyword .kwStruct
  let tag ← optional ident
  return (typedef, tag)

def structTail (front : Option Unit × Option Ident) : Parser (Span → StructDef) := do
  let groups ← between .lBrace (many fieldGroup) .rBrace
  let trailing ← before (optional ident) (sign .semicolon)
  return fun span =>
    ⟨front.2, if front.1.isSome then trailing else none, groups.flatten, span⟩

private theorem structDef_eq : structDef =
    spanned (structFront >>= structTail) >>= fun made => pure (made.1 made.2) := by
  unfold structFront structTail before
  simp only [bind_bind]
  rfl

private theorem steady_optional {α : Type} {p : Parser α} (steady : Steady p) :
    Steady (optional p) :=
  steady.map.or steady_pure

private theorem steady_structFront : Steady structFront :=
  (steady_optional steady_token).bind fun _ => steady_token.bind fun _ =>
    (steady_optional steady_ident).bind fun _ => steady_pure

private theorem steady_fieldGroups : Steady (many fieldGroup) :=
  steady_of_agree (fun _ => (agree_fieldGroup Enclosure.blocks_whole).many)
    fun _ _ same => by simp [same, funext Field.relocate_id]

private theorem steady_structTail (front : Option Unit × Option Ident) :
    Steady (structTail front) :=
  steady_fieldGroups.between.bind fun _ =>
    ((steady_optional steady_ident).before steady_token).bind fun _ => steady_pure

private theorem agree_structFront {κ : Enclosure} {f : Nat → Nat} {n : Nat} : Agree κ f n 1
    (fun a b => b = (a.1, a.2.map (Ident.relocate f))) structFront structFront := by
  have word (k : Keyword) : Agree κ f n 1 (fun a b => b = a) (keyword k) (keyword k) :=
    .plain (κ.plain_of_free (by simp [Token.IsBound]))
  refine (word .kwTypedef).optional.bind ?_
  rintro typedef _ rfl
  refine (word .kwStruct).andThen fun _ _ _ => ?_
  refine agree_ident.optional.bind ?_
  rintro tag _ rfl
  exact .pure (by simp)

private theorem exchange_structDef {x : StructDef} (takes : Takes structDef w rest x)
    (attributes : AttributesBalanced ((w ++ rest).map Lexeme.token)) :
    Takes structDef w rest' x := by
  have nonempty : w ≠ [] := by
    apply List.ne_nil_of_length_pos
    exact takes.least_le fun _ => agree_structDef Enclosure.blocks_whole
  rw [structDef_eq] at takes ⊢
  obtain ⟨make, span, inner, spans, rfl⟩ := Takes.spanned_inv
    (steady_structFront.bind steady_structTail) (fun _ => rfl) takes nonempty
  refine Takes.spanned_bind (fun _ => rfl) ?_ nonempty spans
  obtain ⟨front, u₁, v₁, rfl, first, inner⟩ :=
    Takes.bind_inv steady_structFront steady_structTail inner
  obtain ⟨groups, u₂, v₂, rfl, fields, inner⟩ := Takes.bind_inv steady_fieldGroups.between
    (fun _ => ((steady_optional steady_ident).before steady_token).bind fun _ => steady_pure) inner
  obtain ⟨trailing, u₃, v₃, rfl, last, inner⟩ := Takes.bind_inv
    ((steady_optional steady_ident).before steady_token) (fun _ => steady_pure) inner
  obtain ⟨rfl, rfl⟩ := inner.pure_inv
  have starts {tail : List Lexeme} : ∃ s ∈ [Sign.lBrace],
      ((u₂ ++ tail).map Lexeme.token).head? = some (.sign s) := by
    obtain ⟨l, v, l', split, opens, _⟩ := fields.between_inv steady_fieldGroups
    simp [split, opens]
  simp only [List.append_assoc, List.append_nil, List.map_append] at first fields last attributes ⊢
  have first' : Takes structFront u₁ (u₂ ++ (u₃ ++ rest')) front :=
    first.exchange (by simp [Token.IsBound]) (fun _ => agree_structFront)
      (fun _ _ same => by simp [same, funext Ident.relocate_id]) starts starts
  have fields' : Takes (between .lBrace (many fieldGroup) .rBrace) u₂ (u₃ ++ rest') groups :=
    exchange_braced steady_fieldGroups (fun _ => (agree_fieldGroup Enclosure.blocks_brace).many)
      (fun _ _ same => by simp [same, funext Field.relocate_id]) fields
      (by simpa using attributes.of_append)
  have last' : Takes (before (optional ident) (sign .semicolon)) u₃ rest' trailing :=
    last.exchange_ended (steady_optional steady_ident) (fun _ => agree_ident.optional)
      fun _ _ same => by simp [same, funext Ident.relocate_id]
  have ending := last'.bind (v := []) (g := fun trailing => (pure fun span =>
    (⟨front.2, if front.1.isSome then trailing else none, groups.flatten, span⟩ : StructDef) :
    Parser (Span → StructDef))) takes_pure
  rw [List.append_nil] at ending
  exact Takes.bind (by simpa using first') (Takes.bind fields' ending)

end Definitions

section Exclusion

section Openings

variable {β : Type} {k : Bool × TypeSpec → Parser β} {v named : List Token}

private theorem refuses_integerType_keyword {word : Keyword} (unsigned : word ≠ .kwUnsigned)
    (signed : word ≠ .kwSigned) : Refuses integerType (.keyword word :: v) := by
  have sign : Refuses signedness (.keyword word :: v) := by
    unfold signedness select
    apply refuses_next
    intro t first
    cases first
    cases word <;> first | rfl | contradiction
  have width : Refuses widthWord (.keyword word :: v) := (refuses_ident (by simp)).guard
  exact (Refuses.or sign.bind (Refuses.or width.bind.bind refuses_choice_nil)).spanned.bind

private theorem refuses_typedef_type : Refuses typeSpec (.keyword .kwTypedef :: v) := by
  have name : Refuses typeName (.keyword .kwTypedef :: v) := by
    apply (refuses_token (by simp)).bind.map.or
    apply (refuses_integerType_keyword (by decide) (by decide)).or
    exact (refuses_ident (by simp)).map.or refuses_choice_nil
  exact ((yields_no_specifiers (by simp) (by simp) (by simp)).bind_refuses (u := [])
    fun _ _ => name.bind).spanned.bind

private theorem refuses_struct_type (tag : named = [] ∨ ∃ x, named = [.ident x])
    (behind : ∀ r, Refuses (k r) (.sign .lBrace :: v)) :
    Refuses (typeSpec >>= k) (.keyword .kwStruct :: (named ++ Token.sign .lBrace :: v)) := by
  have plain : Yields specifiers [] (.keyword .kwStruct :: (named ++ Token.sign .lBrace :: v))
      fun _ => True := yields_no_specifiers (by simp) (by simp) (by simp)
  rcases tag with rfl | ⟨x, rfl⟩
  · have name : Refuses typeName (.keyword .kwStruct :: .sign .lBrace :: v) := by
      apply Refuses.or
      · apply Refuses.map
        exact Yields.bind_refuses (u := [.keyword .kwStruct]) yields_token
          fun _ _ => refuses_ident (by simp)
      · apply (refuses_integerType_keyword (by decide) (by decide)).or
        exact (refuses_ident (by simp)).map.or refuses_choice_nil
    apply Refuses.bind
    exact (plain.bind_refuses (u := []) fun _ _ => name.bind).spanned.bind
  · have name : Yields typeName [.keyword .kwStruct, .ident x] (.sign .lBrace :: v)
        fun _ => True := by
      apply Yields.or
      refine Yields.map (P := fun _ => True) ?_ fun _ _ => trivial
      exact Yields.bind (u := [.keyword .kwStruct]) yields_token
        fun _ _ => yields_ident.mono fun _ _ => trivial
    have type : Yields typeSpec [.keyword .kwStruct, .ident x] (.sign .lBrace :: v)
        fun _ => True := by
      have stars : Yields stars [] (.sign .lBrace :: v) fun _ => True :=
        (yields_stars 0 (by simp [Token.IsOperand]) (by simp)).mono fun _ _ => trivial
      apply Yields.bind (u := [.keyword .kwStruct, .ident x]) (w := []) (P := fun _ => True)
      · apply Yields.spanned (P := fun _ => True)
        apply plain.bind (u := [])
        intro _ _
        apply name.bind (w := [])
        intro _ _
        apply (yields_no_specifiers (by simp) (by simp) (by simp)).bind (u := []) (w := [])
        intro _ _
        exact stars.bind (u := []) (w := []) fun _ _ => yields_pure trivial
      · exact fun _ _ => yields_pure trivial
    exact type.bind_refuses fun r _ => behind r

end Openings

section Alternatives

variable {w rest : List Lexeme}

private theorem reads_structFront : Reads structFront fun _ u => ∃ aka named,
    u.map Lexeme.token = aka ++ Token.keyword .kwStruct :: named ∧
      (aka = [] ∨ aka = [.keyword .kwTypedef]) ∧ (named = [] ∨ ∃ x, named = [.ident x]) := by
  have aka : Reads (optional (keyword .kwTypedef)) fun _ u =>
      u.map Lexeme.token = [] ∨ u.map Lexeme.token = [.keyword .kwTypedef] :=
    .optional (reads_token.mono fun _ _ tokens => .inr tokens) (.inl rfl)
  have tag : Reads (optional ident) fun _ u =>
      u.map Lexeme.token = [] ∨ ∃ x, u.map Lexeme.token = [.ident x] :=
    .optional (reads_ident.mono fun id u used => .inr ⟨id.name, by rw [used]; rfl⟩) (.inl rfl)
  refine aka.bind fun _ u first => reads_token.bind fun _ v struct => tag.bind fun _ w last =>
    .pure ⟨u.map Lexeme.token, w.map Lexeme.token, ?_, first, last⟩
  simp [struct]

private theorem structDef_opens {x : StructDef} (takes : Takes structDef w rest x) : ∃ aka named v,
    (w ++ rest).map Lexeme.token =
      aka ++ Token.keyword .kwStruct :: (named ++ Token.sign .lBrace :: v) ∧
      (aka = [] ∨ aka = [.keyword .kwTypedef]) ∧ (named = [] ∨ ∃ x, named = [.ident x]) := by
  have nonempty : w ≠ [] := by
    apply List.ne_nil_of_length_pos
    exact takes.least_le fun _ => agree_structDef Enclosure.blocks_whole
  rw [structDef_eq] at takes
  obtain ⟨_, _, inner, _⟩ := Takes.spanned_inv (steady_structFront.bind steady_structTail)
    (fun _ => rfl) takes nonempty
  obtain ⟨front, u, v, rfl, first, inner⟩ :=
    Takes.bind_inv steady_structFront steady_structTail inner
  obtain ⟨_, u', v', rfl, fields, _⟩ := Takes.bind_inv steady_fieldGroups.between
    (fun _ => ((steady_optional steady_ident).before steady_token).bind fun _ => steady_pure) inner
  obtain ⟨l, g, l', rfl, opens, _⟩ := fields.between_inv steady_fieldGroups
  obtain ⟨aka, named, tokens, first, last⟩ := first.reads reads_structFront
  exact ⟨aka, named, (g ++ l' :: (v' ++ rest)).map Lexeme.token, by simp [tokens, opens], first, last⟩

private theorem plainType_bind {β : Type} (k : TypeSpec → Parser β) :
    plainType >>= k = typeSpec >>= fun r => k r.2 := by
  generalize types : typeSpec = p
  rw [plainType, types]
  exact bind_bind p (fun r => pure r.2) k

variable {x : StructDef}

private theorem rejects_of_struct {β : Type} {k : Bool × TypeSpec → Parser β}
    (takes : Takes structDef w rest x) (behind : ∀ r v, Refuses (k r) (.sign .lBrace :: v)) :
    Rejects (typeSpec >>= k) (w ++ rest) := by
  obtain ⟨aka, named, v, tokens, rfl | rfl, tag⟩ := structDef_opens takes
  · exact Refuses.rejects (tokens ▸ refuses_struct_type tag fun r => behind r v)
  · exact Refuses.rejects (tokens ▸ refuses_typedef_type.bind)

private theorem typedef_opens {x : Typedef} (takes : Takes typedef w rest x) :
    ((w ++ rest).map Lexeme.token).head? = some (.keyword .kwTypedef) := by
  by_contra other
  have refuses : Refuses typedef ((w ++ rest).map Lexeme.token) :=
    (refuses_token other).bind.spanned.bind
  exact takes.not_rejects refuses.rejects

private theorem function_opens {x : Function} (takes : Takes function w rest x) : ∃ u l v,
    w ++ rest = u ++ l :: v ∧ Takes typeSpec u (l :: v) (x.isKernel, x.ret) ∧
      l.token = .ident x.name.name ∧ (v.map Lexeme.token).head? = some (.sign .lParen) := by
  obtain ⟨parts⟩ := exists_functionParts takes
  have split := parts.split
  obtain ⟨type, u, u', split', first, named⟩ := Takes.bind_inv steady_typeSpec
    (fun _ => steady_ident.bind fun _ => steady_pure) parts.takes_front
  obtain ⟨name, v, v', rfl, second, last⟩ := Takes.bind_inv steady_ident
    (fun _ => steady_pure) named
  obtain ⟨rfl, same⟩ := last.pure_inv
  cases same
  rw [second.reads reads_ident] at first split'
  obtain ⟨l, g, l', split'', opens, _⟩ := parts.takes_params.between_inv steady_params
  refine ⟨u, x.name.lexeme, _, ?_, first, rfl, by simp [split'', opens]⟩
  simp [split, split']

private theorem yields_declarators {x : String} {v : List Token} :
    Yields (commaSep1 declarator) [.ident x] (.sign .lParen :: v) fun _ => True := by
  have bare : Yields stars [] (.ident x :: .sign .lParen :: v) fun _ => True :=
    (yields_stars 0 (by simp [Token.IsOperand]) (by simp)).mono fun _ _ => trivial
  have dims : Yields arrayDims [] (.sign .lParen :: v) fun _ => True :=
    (refuses_between (by simp)).many.mono fun _ _ => trivial
  have init : Yields (optional (after (sign .eq) expr)) [] (.sign .lParen :: v) fun _ => True :=
    (refuses_token (by simp)).bind.optional.mono fun _ _ => trivial
  have one : Yields declarator [.ident x] (.sign .lParen :: v) fun _ => True := by
    apply Yields.bind (u := [.ident x]) (w := []) (P := fun _ => True)
    · apply Yields.spanned (P := fun _ => True)
      apply bare.bind (u := [])
      intro _ _
      apply yields_ident.bind (u := [.ident x]) (w := [])
      intro _ _
      apply dims.bind (u := []) (w := [])
      intro _ _
      exact init.bind (u := []) (w := []) fun _ _ => yields_pure trivial
    · exact fun _ _ => yields_pure trivial
  have others : Yields (many (after (sign .comma) declarator)) [] (.sign .lParen :: v)
      fun _ => True := (refuses_token (by simp)).bind.many.mono fun _ _ => trivial
  exact one.bind (w := []) fun _ _ => others.bind (u := []) (w := []) fun _ _ => yields_pure trivial

private theorem steady_declarators : Steady (commaSep1 declarator) :=
  steady_of_agree (fun _ => (agree_declarator Enclosure.blocks_whole.brackets).commaSep1)
    fun _ _ same => by simp [same, funext Declarator.relocate_id]

private theorem excludes_function_global {x : Function} (takes : Takes function w rest x) :
    Rejects (before decl (sign .semicolon)) (w ++ rest) := by
  obtain ⟨u, l, v, split, type, named, opens⟩ := function_opens takes
  obtain ⟨v', tokens⟩ := List.head?_eq_some_iff.mp opens
  have listed : Yields (commaSep1 declarator) ([l].map Lexeme.token) (v.map Lexeme.token)
      fun _ => True := by
    rw [tokens, List.map_singleton, named]
    exact yields_declarators
  obtain ⟨declarators, second, _⟩ := steady_declarators.takes_of_yields listed
  have both : Takes (do
      let ty ← plainType
      let declarators ← commaSep1 declarator
      return (ty, declarators)) (u ++ [l]) v (x.ret, declarators) :=
    Takes.bind (v := [l]) type.map (second.bind (v := []) takes_pure)
  obtain ⟨span, spans⟩ : ∃ span, Spans (u ++ [l]) span := exists_spans (by simp)
  have declared : Takes decl (u ++ [l]) v ⟨x.ret, declarators, span⟩ :=
    Takes.spanned_bind (h := fun r : (TypeSpec × List Declarator) × Span =>
      (⟨r.1.1, r.1.2, r.2⟩ : Decl)) (fun ⟨⟨_, _⟩, _⟩ => rfl) both (by simp) spans
  have ended : Refuses (sign .semicolon) (v.map Lexeme.token) := refuses_token (by simp [tokens])
  rw [split, ← List.singleton_append, ← List.append_assoc]
  exact declared.bind_rejects ended.bind.rejects

theorem steady_structDef : Steady structDef :=
  steady_of_agree (fun _ => agree_structDef Enclosure.blocks_whole) fun _ _ same => by simp [same]

theorem steady_typedef : Steady typedef :=
  steady_of_agree (fun _ => agree_typedef Enclosure.blocks_whole) fun _ _ same => by simp [same]

theorem steady_function : Steady function :=
  steady_of_agree (fun _ => agree_function Enclosure.blocks_whole) fun _ _ same => by simp [same]

theorem steady_global : Steady (before decl (sign .semicolon)) := steady_decl.before steady_token

private theorem excludes_struct_typedef (takes : Takes structDef w rest x) :
    Rejects typedef (w ++ rest) := by
  obtain ⟨aka, named, v, tokens, rfl | rfl, tag⟩ := structDef_opens takes
  · have other : Refuses (keyword .kwTypedef) ((w ++ rest).map Lexeme.token) :=
      refuses_token (by simp [tokens])
    exact other.bind.spanned.bind.rejects
  · have type : Refuses (plainType >>= fun ty => before ident (sign .semicolon) >>=
        fun aka => pure (ty, aka)) (.keyword .kwStruct :: (named ++ Token.sign .lBrace :: v)) := by
      rw [plainType_bind]
      exact refuses_struct_type tag fun _ => (refuses_ident (by simp)).bind.bind
    have whole := Yields.bind_refuses (u := [.keyword .kwTypedef]) yields_token fun _ _ => type
    exact Refuses.rejects (tokens ▸ whole.spanned.bind)

private theorem excludes_struct_function (takes : Takes structDef w rest x) :
    Rejects function (w ++ rest) := by
  refine (rejects_of_struct takes ?_).spanned.bind
  rintro ⟨isKernel, ret⟩ v
  exact (refuses_ident (by simp)).bind

private theorem excludes_struct_global (takes : Takes structDef w rest x) :
    Rejects (before decl (sign .semicolon)) (w ++ rest) := by
  have type : Rejects (plainType >>= fun ty => commaSep1 declarator >>=
      fun declarators => pure (ty, declarators)) (w ++ rest) := by
    rw [plainType_bind]
    refine rejects_of_struct takes fun _ v => ?_
    have bare : Yields stars [] (.sign .lBrace :: v) fun _ => True :=
      (yields_stars 0 (by simp [Token.IsOperand]) (by simp)).mono fun _ _ => trivial
    have one : Refuses declarator (.sign .lBrace :: v) :=
      (bare.bind_refuses (u := []) fun _ _ => (refuses_ident (by simp)).bind).spanned.bind
    exact one.bind.bind
  have whole : Rejects decl (w ++ rest) := type.spanned.bind
  exact whole.bind

private theorem excludes_typedef_type {β : Type} {k : Bool × TypeSpec → Parser β} {y : Typedef}
    (takes : Takes typedef w rest y) : Rejects (typeSpec >>= k) (w ++ rest) := by
  obtain ⟨v, tokens⟩ := List.head?_eq_some_iff.mp (typedef_opens takes)
  exact Refuses.rejects (tokens ▸ refuses_typedef_type.bind)

private theorem excludes_typedef_global {y : Typedef} (takes : Takes typedef w rest y) :
    Rejects (before decl (sign .semicolon)) (w ++ rest) := by
  have type : Rejects (plainType >>= fun ty => commaSep1 declarator >>=
      fun declarators => pure (ty, declarators)) (w ++ rest) := by
    rw [plainType_bind]
    exact excludes_typedef_type takes
  have whole : Rejects decl (w ++ rest) := type.spanned.bind
  exact whole.bind

def itemRules : List (Parser Item) := [
  Item.struct <$> structDef,
  Item.typedef <$> typedef,
  Item.function <$> function,
  Item.global <$> before decl (sign .semicolon)]

private theorem pairwise_itemRules : itemRules.Pairwise Excludes := by
  simp only [itemRules, List.pairwise_cons, List.forall_mem_cons, List.not_mem_nil, false_implies,
    implies_true, and_true, List.Pairwise.nil]
  refine ⟨⟨?_, ?_, ?_⟩, ⟨?_, ?_⟩, ?_⟩
  · exact .map steady_structDef fun _ _ _ => excludes_struct_typedef
  · exact .map steady_structDef fun _ _ _ => excludes_struct_function
  · exact .map steady_structDef fun _ _ _ => excludes_struct_global
  · exact .map steady_typedef fun _ _ _ takes => (excludes_typedef_type takes).spanned.bind
  · exact .map steady_typedef fun _ _ _ => excludes_typedef_global
  · exact .map steady_function fun _ _ _ => excludes_function_global

private theorem steady_itemRules (p : Parser Item) (listed : p ∈ itemRules) : Steady p := by
  simp only [itemRules, List.mem_cons, List.not_mem_nil, or_false] at listed
  rcases listed with rfl | rfl | rfl | rfl
  · exact steady_structDef.map
  · exact steady_typedef.map
  · exact steady_function.map
  · exact steady_global.map

theorem takes_soundItem {item : Item} :
    Takes soundItem w rest item ↔ ∃ p ∈ itemRules, Takes p w rest item :=
  takes_choice steady_itemRules pairwise_itemRules

/-- What stands behind an item may be exchanged. -/
theorem exchange_soundItem {rest' : List Lexeme} {item : Item} (takes : Takes soundItem w rest item)
    (attributes : AttributesBalanced ((w ++ rest).map Lexeme.token)) :
    Takes soundItem w rest' item := by
  obtain ⟨p, listed, takes⟩ := takes_soundItem.mp takes
  refine takes_soundItem.mpr ⟨p, listed, ?_⟩
  simp only [itemRules, List.mem_cons, List.not_mem_nil, or_false] at listed
  rcases listed with rfl | rfl | rfl | rfl
  · obtain ⟨_, inner, rfl⟩ := takes.map_inv steady_structDef
    exact (exchange_structDef inner attributes).map
  · obtain ⟨_, inner, rfl⟩ := takes.map_inv steady_typedef
    exact (exchange_typedef inner).map
  · obtain ⟨_, inner, rfl⟩ := takes.map_inv steady_function
    exact (exchange_function inner attributes).map
  · obtain ⟨_, inner, rfl⟩ := takes.map_inv steady_global
    exact (exchange_global inner).map

end Alternatives

end Exclusion

end Grammar

end Lockstep
