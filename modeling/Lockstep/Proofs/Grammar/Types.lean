import Lockstep.Proofs.Grammar.Groups
import Lockstep.Proofs.Grammar.Rooted
/-!
How types are written: qualifiers and attributes on both sides of the name of the type, and stars at
the end. A type carries the kernel qualifier if it stands among those on either side; inside an
attribute the word means nothing.
-/

set_option autoImplicit false
set_option relaxedAutoImplicit false

namespace Lockstep

/-- A qualifier or an attribute; is it the kernel qualifier? -/
inductive Specifier : Bool → List Token → Prop where
  | kernel : Specifier true [.kernel]
  | qualifier : Specifier false [.qualifier]
  | attribute {g : List Token} (inside : Balanced .lParen .rParen g) :
      Specifier false (.attr :: .sign .lParen :: (g ++ [Token.sign .rParen]))

/-- A row of qualifiers and attributes; is the kernel qualifier among them? -/
inductive Specifiers : Bool → List Token → Prop where
  | nil : Specifiers false []
  | cons {first others : Bool} {u v : List Token} (head : Specifier first u)
      (tail : Specifiers others v) : Specifiers (first || others) (u ++ v)

def Token.isTypeWord : Token → Bool
  | ident _ | keyword .kwStruct | keyword .kwSigned | keyword .kwUnsigned => true
  | _ => false

/-- The name of a type, of one word or several. -/
structure TypeWords (w : List Token) : Prop where
  nonempty : w ≠ []
  words : ∀ t ∈ w, t.isTypeWord = true

theorem TypeWords.append {u v : List Token} (first : TypeWords u)
    (others : ∀ t ∈ v, t.isTypeWord = true) : TypeWords (u ++ v) :=
  ⟨by simp [first.nonempty], List.forall_mem_append.mpr ⟨first.words, others⟩⟩

private theorem typeWords_singleton {t : Token} (word : t.isTypeWord = true) : TypeWords [t] :=
  ⟨List.cons_ne_nil t [], List.forall_mem_singleton.mpr word⟩

/-- A type as it stands in front of a name; does it carry the kernel qualifier? -/
inductive Typed : Bool → List Token → Prop where
  | mk {before after : Bool} {u v w x : List Token} (front : Specifiers before u)
      (name : TypeWords v) (back : Specifiers after w)
      (stars : ∀ t ∈ x, t = .sign .star ∨ t = .qualifier) :
      Typed (before || after) (u ++ (v ++ (w ++ x)))

theorem Typed.ne_nil {kernel : Bool} {w : List Token} (typed : Typed kernel w) : w ≠ [] := by
  cases typed with
  | mk front name back stars => simp [name.nonempty]

namespace Grammar

open Lockstep.Parser

theorem reads_ident : Reads ident fun id u => u = [id.lexeme] := by
  refine (Reads.spanned Reads.next).bind ?_
  rintro ⟨name, span⟩ u ⟨⟨l, rfl, read⟩, spans⟩
  refine .pure ?_
  obtain ⟨token, range⟩ := l
  have same : span = range := spans ⟨token, range⟩ [] rfl
  cases token with
  | ident word =>
    cases read
    rw [same]
    rfl
  | _ => cases read

theorem reads_group (opening closing : Sign) : Reads (group opening closing) fun _ u => u ≠ [] := by
  refine .fix fun inner reads => ?_
  refine .bind (Reads.between (Reads.many (R := fun _ _ => True) ?_)) ?_
  · refine .or (reads.mono fun _ _ _ => trivial) (.or (.map ?_) .fail)
    exact (Reads.guard .next).mono fun _ _ _ => trivial
  · rintro _ u ⟨l, v, r, rfl, -⟩
    exact .pure (by simp)

private theorem forall_of_each {α : Type} {P : Token → Prop} {as : List α} {u : List Lexeme}
    (each : Each (fun _ u => ∀ t ∈ u.map Lexeme.token, P t) as u) :
    ∀ t ∈ u.map Lexeme.token, P t := by
  induction each with
  | nil => exact List.forall_mem_nil P
  | cons first _ ih =>
    rw [List.map_append]
    exact List.forall_mem_append.mpr ⟨first, ih⟩

theorem reads_attributeList :
    Reads attributeList fun _ u => Specifier false (u.map Lexeme.token) := by
  refine (Reads.after reads_token (reads_group_balanced (by decide))).mono ?_
  rintro _ _ ⟨_, u, v, rfl, single, g, grouped, inside⟩
  rw [List.map_append, single, grouped]
  exact .attribute inside

private theorem reads_specifier : Reads (choice [(fun _ => true) <$> token .kernel,
    (fun _ => false) <$> token .qualifier, (fun _ => false) <$> attributeList])
      fun mark u => Specifier mark (u.map Lexeme.token) := by
  refine .or (.map (.mono reads_token ?_)) (.or (.map (.mono reads_token ?_))
    (.or (.map ?_) .fail))
  · intro _ u single
    exact single ▸ .kernel
  · intro _ u single
    exact single ▸ .qualifier
  · exact reads_attributeList

private theorem specifiers_of_each {marks : List Bool} {u : List Lexeme}
    (each : Each (fun mark u => Specifier mark (u.map Lexeme.token)) marks u) :
    Specifiers (marks.contains true) (u.map Lexeme.token) := by
  induction each with
  | nil => exact .nil
  | @cons mark marks u v first _ ih =>
    have marked : (mark :: marks).contains true = (mark || marks.contains true) := by
      cases mark <;> simp
    rw [marked, List.map_append]
    exact .cons first ih

private theorem reads_specifiers :
    Reads specifiers fun kernel u => Specifiers kernel (u.map Lexeme.token) := by
  refine .bind (Reads.many reads_specifier) fun marks u each => .pure ?_
  rw [List.append_nil]
  exact specifiers_of_each each

private theorem reads_typeName : Reads typeName fun _ u => TypeWords (u.map Lexeme.token) := by
  have name {id : Ident} {u : List Lexeme} (single : u = [id.lexeme]) :
      TypeWords (u.map Lexeme.token) := by
    rw [single]
    exact typeWords_singleton rfl
  have word : Reads widthWord fun _ u => TypeWords (u.map Lexeme.token) :=
    (Reads.guard reads_ident).mono fun _ _ => name
  have words : Reads (many widthWord) fun _ u => ∀ t ∈ u.map Lexeme.token, t.isTypeWord = true :=
    (Reads.many (word.mono fun _ _ named => named.words)).mono fun _ _ => forall_of_each
  refine .or (.map ?_) (.or ?_ (.or (.map (.mono reads_ident fun _ _ => name)) .fail))
  · refine (Reads.after reads_token reads_ident).mono ?_
    rintro _ _ ⟨_, u, v, rfl, single, named⟩
    rw [List.map_append, single]
    exact (typeWords_singleton rfl).append (name named).words
  · refine .bind (Reads.spanned (R := fun _ u => TypeWords (u.map Lexeme.token))
      (.or ?_ (.or ?_ .fail))) ?_
    · unfold signedness select
      refine .bind .next fun _ u read => words.bind fun _ v others => .pure ?_
      obtain ⟨⟨t, span⟩, rfl, read⟩ := read
      rw [List.append_nil, List.map_append]
      refine (typeWords_singleton ?_).append others
      dsimp only at read ⊢
      split at read
      · rfl
      · rfl
      · cases read
    · refine .bind (R := fun _ u => TypeWords (u.map Lexeme.token)) ?_
        fun _ u named => .pure (by simpa using named)
      refine word.bind fun _ u first => words.bind fun _ v others => .pure ?_
      rw [List.append_nil, List.map_append]
      exact first.append others
    · rintro _ u ⟨named, -⟩
      exact .pure (by simpa using named)

theorem reads_stars :
    Reads stars fun _ u => ∀ t ∈ u.map Lexeme.token, t = .sign .star ∨ t = .qualifier := by
  have mark {t : Token} (listed : t = .sign .star ∨ t = .qualifier) : Reads (token t)
      fun _ u => ∀ t ∈ u.map Lexeme.token, t = .sign .star ∨ t = .qualifier := by
    refine .mono reads_token fun _ u single => ?_
    rw [single]
    exact List.forall_mem_singleton.mpr listed
  refine .bind (Reads.many (R := fun _ u => ∀ t ∈ u.map Lexeme.token,
    t = .sign .star ∨ t = .qualifier) ?_) fun _ u each => .pure ?_
  · refine (Reads.before (mark (.inl rfl)) (mark (.inr rfl)).many).mono ?_
    rintro _ _ ⟨_, u, v, rfl, star, each⟩
    rw [List.map_append]
    exact List.forall_mem_append.mpr ⟨star, forall_of_each each⟩
  · rw [List.append_nil]
    exact forall_of_each each

theorem reads_typeSpec_typed :
    Reads typeSpec fun type u => Typed type.1 (u.map Lexeme.token) := by
  refine .bind (Reads.spanned (R := fun r u => Typed r.1 (u.map Lexeme.token)) ?_) ?_
  · refine .bind reads_specifiers fun before u front => ?_
    refine .bind reads_typeName fun name v named => ?_
    refine .bind reads_specifiers fun after w back => ?_
    refine .bind reads_stars fun pointers x stars => .pure ?_
    rw [List.append_nil, List.map_append, List.map_append, List.map_append]
    exact .mk front named back stars
  · rintro ⟨⟨kernel, name, pointers⟩, span⟩ u ⟨typed, -⟩
    refine .pure ?_
    rwa [List.append_nil]

theorem reads_typeSpec : Reads typeSpec fun _ u => u ≠ [] := by
  refine .mono reads_typeSpec_typed fun _ u typed none => typed.ne_nil ?_
  rw [none, List.map_nil]

theorem reads_plainType : Reads plainType fun _ u => u ≠ [] := .map reads_typeSpec

theorem reads_castType : Reads castType fun _ _ => True :=
  (Reads.demand reads_plainType).mono fun _ _ _ => trivial

end Grammar

end Lockstep
