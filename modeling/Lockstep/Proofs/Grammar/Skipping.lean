import Lockstep.Proofs.Grammar.Recovery
import Mathlib.Data.List.Infix
/-!
Recovery between items. Where every opening brace is answered and the last token ends an item, some
item starts at each place that is reached, if only a broken one, so reading goes on to the end of the
text.
-/

set_option autoImplicit false
set_option relaxedAutoImplicit false

namespace Lockstep

section Answered

variable {o c : Sign} {u v w : List Token}

def Answered (opening closing : Sign) (w : List Token) : Prop :=
  ∀ u v, w = u ++ v → v.count (.sign opening) ≤ v.count (.sign closing)

instance (o c : Sign) (w : List Token) : Decidable (Balanced o c w) :=
  decidable_of_iff ((∀ u ∈ w.inits, u.count (.sign c) ≤ u.count (.sign o)) ∧
    w.count (.sign o) = w.count (.sign c)) <| by
    constructor
    · rintro ⟨level, total⟩
      exact ⟨fun u v split => level u (by simp [split]), total⟩
    · rintro ⟨level, total⟩
      refine ⟨fun u start => ?_, total⟩
      obtain ⟨v, split⟩ := (List.mem_inits u w).mp start
      exact level u v split.symm

theorem Balanced.answered (balanced : Balanced o c w) : Answered o c w := by
  rintro u v rfl
  have before := balanced.level u v rfl
  have total := balanced.total
  rw [List.count_append, List.count_append] at total
  omega

theorem Answered.of_append (answered : Answered o c (u ++ v)) : Answered o c v := by
  rintro x y rfl
  exact answered (u ++ x) y (List.append_assoc ..).symm

theorem Answered.exists_closing (answered : Answered o c (.sign o :: w)) (distinct : o ≠ c) :
    ∃ u v, w = u ++ Token.sign c :: v ∧ Balanced o c u := by
  apply (level_or_unmatched distinct w).resolve_left
  intro level
  have opens : Token.sign o ≠ .sign c := fun same => distinct (Token.sign.inj same)
  have total := answered [] _ rfl
  rw [List.count_cons_self, List.count_cons_of_ne opens] at total
  have before := level w [] (List.append_nil w).symm
  omega

end Answered

/-- The last token, if there is one, is a semicolon or a closing brace. -/
def EndsItem (w : List Token) : Prop :=
  ∀ t ∈ w.getLast?, t = .sign .semicolon ∨ t = .sign .rBrace

instance (w : List Token) : Decidable (EndsItem w) :=
  inferInstanceAs (Decidable (∀ t ∈ w.getLast?, t = .sign .semicolon ∨ t = .sign .rBrace))

theorem EndsItem.of_append {u v : List Token} (ends : EndsItem (u ++ v)) : EndsItem v := by
  intro t last
  apply ends
  rw [List.getLast?_append, Option.mem_def.mp last]
  rfl

namespace Grammar

open Lockstep.Parser

section Items

variable {t : Token} {v w : List Token}

private theorem exists_rows_inertToken (ends : EndsItem w) (nonempty : w ≠ []) :
    ∃ x t y, w = x ++ t :: y ∧
    (t = .sign .semicolon ∨ t = .sign .lBrace ∨ t = .sign .rBrace) ∧
      Rows inertToken x (t :: y) fun _ => True := by
  induction w with
  | nil => exact absurd rfl nonempty
  | cons t w ih =>
    by_cases stop : t = .sign .semicolon ∨ t = .sign .lBrace ∨ t = .sign .rBrace
    · exact ⟨[], t, w, rfl, stop, rows_nil trivial⟩
    obtain ⟨semicolon, opening, closing⟩ :
        t ≠ .sign .semicolon ∧ t ≠ .sign .lBrace ∧ t ≠ .sign .rBrace := by simpa using stop
    have more : w ≠ [] := by
      rintro rfl
      exact (ends t rfl).elim semicolon closing
    obtain ⟨x, s, y, rfl, last, rows⟩ := ih (EndsItem.of_append (u := [t]) ends) more
    have first : Yields inertToken [t] (x ++ s :: y) fun _ => True :=
      yields_inertToken semicolon opening closing
    have joined := Rows.cons (R := fun _ => True) first (by simp) rows fun _ _ _ _ => trivial
    exact ⟨t :: x, s, y, rfl, last, joined⟩

private theorem refuses_inertToken_lBrace : Refuses inertToken (.sign .lBrace :: v) := by
  have plain : Yields anyToken [.sign .lBrace] v fun s => s = .sign .lBrace := yields_next rfl rfl
  refine (plain.guard_refuses ?_).bind
  rintro _ rfl
  rfl

private theorem accepts_brokenItem {c : Cursor} (answered : Answered .lBrace .rBrace w)
    (ends : EndsItem w)
    (nonempty : w ≠ []) (here : c.words = w) : Accepts brokenItem c := by
  obtain ⟨x, t, y, rfl, stop, rows⟩ := exists_rows_inertToken ends nonempty
  rcases stop with rfl | rfl | rfl
  · have skipped := rows.many (refuses_inertToken (.inl rfl))
    have whole : Yields brokenItem (x ++ [Token.sign .semicolon]) y fun _ => True :=
      skipped.bind fun _ _ => yields_token.or
    exact whole.accepts (by simpa using here)
  · -- The group is read over as far as the brace that answers this one.
    obtain ⟨g, z, rfl, inside⟩ := answered.of_append.exists_closing (by decide)
    have skipped := rows.many refuses_inertToken_lBrace
    have group : Yields braceGroup (.sign .lBrace :: (g ++ [Token.sign .rBrace])) z
        fun _ => True :=
      yields_group (by decide) inside
    have whole : Yields brokenItem (x ++ Token.sign .lBrace :: (g ++ [Token.sign .rBrace])) z
        fun _ => True := by
      refine Yields.bind (P := fun _ => True) (by simpa using skipped) fun _ _ => ?_
      exact (refuses_token (by simp)).or_yields group.or
    exact whole.accepts (by simpa using here)
  · have skipped := rows.many (refuses_inertToken (.inr rfl))
    have whole : Yields brokenItem (x ++ [Token.sign .rBrace]) y fun _ => True := by
      refine skipped.bind fun _ _ => (refuses_token (by simp)).or_yields ?_
      exact (refuses_braceGroup (by simp)).or_yields yields_token.or
    exact whole.accepts (by simpa using here)

private theorem exists_takes_items {w : List Lexeme}
    (answered : Answered .lBrace .rBrace (w.map Lexeme.token))
    (ends : EndsItem (w.map Lexeme.token)) : ∃ items, Takes (many item) w [] items := by
  induction size : w.length using Nat.strongRecOn generalizing w with
  | _ n ih =>
    by_cases empty : w = []
    · subst empty
      exact ⟨[], (refuses_item_nil.rejects (w := [])).many⟩
    · have broken : Accepts brokenItem ⟨w, 0, 0⟩ :=
        accepts_brokenItem answered ends (by simpa using empty) rfl
      have accepts : Accepts item ⟨w, 0, 0⟩ := .recover (.inr broken.map)
      obtain ⟨u, v, a, rfl, first⟩ := advances_item.steady.takes (w := w) fun rejects => by
        have some := accepts {}
        rw [rejects 0 0 {}] at some
        cases some
      -- What is left is an end of the text, so its braces are answered and it ends an item too,
      -- whatever the item read over.
      rw [List.map_append] at answered ends
      have positive := List.length_pos_of_ne_nil (advances_item.nonempty first)
      rw [List.length_append] at size
      obtain ⟨others, second⟩ := ih v.length (by omega) answered.of_append ends.of_append rfl
      have whole : Takes item u (v ++ []) a := by rwa [List.append_nil]
      exact ⟨a :: others, advances_item.many_cons whole second⟩

private theorem steady_brokenItem : Steady brokenItem := by
  have blocks := Enclosure.blocks_whole
  refine steady_of_agree (m := 1) (fun n => (agree_inertToken blocks).many.bind fun _ _ _ => ?_)
    fun _ _ same => same
  exact .choice (.cons (agree_semicolon blocks) (.cons (agree_braceGroup blocks)
    (.cons (.plain (Enclosure.plain_whole _)) .nil)))

theorem takes_item_cases {u rest : List Lexeme} {o : Option Item} (takes : Takes item u rest o) :
    (∃ x, o = some x ∧ Takes soundItem u rest x) ∨
      o = none ∧ Rejects soundItem (u ++ rest) ∧ Takes brokenItem u rest () := by
  rcases takes.recover_inv advances_soundItem.steady.map steady_brokenItem.map with sound | broken
  · obtain ⟨x, reads, same⟩ := sound.map_inv advances_soundItem.steady
    exact .inl ⟨x, same, reads⟩
  · obtain ⟨_, skips, none⟩ := broken.map_inv steady_brokenItem
    refine .inr ⟨none, ?_, skips⟩
    rcases advances_soundItem.steady (u ++ rest) with rejects | ⟨u', rest', x, split, reads⟩
    · exact rejects
    · obtain ⟨_, _, some⟩ := takes.unique reads.map.recover split
      cases none.symm.trans some

end Items

end Grammar

open Grammar

private theorem parse_unit (text : String) :
    (parse text).unit = (parseTokens (lex text).tokens text.utf8ByteSize).1 := by
  -- The outcome is made a variable before anything is reduced: the grammar must not be run.
  unfold parse
  extract_lets lexed
  generalize parseTokens lexed.tokens text.utf8ByteSize = outcome
  cases outcome
  rfl

theorem exists_takes_function_of_parse {text : String} {unit : SourceUnit}
    (parsed : (parse text).unit = some unit) {f : Function} (member : .function f ∈ unit.items) :
    ∃ x u rest, (lex text).tokens = x ++ (u ++ rest) ∧ Parser.Takes function u rest f := by
  rw [parse_unit] at parsed
  generalize outcome : parseTokens (lex text).tokens text.utf8ByteSize = result at parsed
  obtain ⟨result, failures⟩ := result
  cases parsed
  obtain ⟨items, takes, same⟩ := takes_items_of_parseTokens outcome
  rw [same, List.mem_filterMap] at member
  obtain ⟨_, member, rfl⟩ := member
  obtain ⟨x, u, y, split, read⟩ := advances_item.exists_takes_of_mem takes member
  rw [List.append_nil] at read
  rcases takes_item_cases read with ⟨_, same, sound⟩ | ⟨none, _⟩
  · cases same
    exact ⟨x, u, y, split, takes_function_of_soundItem sound⟩
  · cases none

/-- A text whose braces are balanced and that does not break off inside an item has a tree, whatever
is misplaced in it. -/
theorem exists_unit_of_balanced (text : String)
    (ends : EndsItem ((lex text).tokens.map Lexeme.token))
    (balanced : Balanced .lBrace .rBrace ((lex text).tokens.map Lexeme.token)) :
    ∃ unit, (parse text).unit = some unit := by
  obtain ⟨items, takes⟩ := exists_takes_items balanced.answered ends
  obtain ⟨unit, parsed, _⟩ := parseTokens_of_takes_items takes text.utf8ByteSize
  exact ⟨unit, (parse_unit text).trans parsed⟩

/-- An attribute that swallows an opening brace, the closing brace between two items, a stray
character and an item that breaks off. -/
theorem exists_unit_of_broken_items :
    EndsItem ((lex "void f()__attribute__(({));} @ x y(;").tokens.map Lexeme.token) ∧
    Balanced .lBrace .rBrace
      ((lex "void f()__attribute__(({));} @ x y(;").tokens.map Lexeme.token) ∧
    (parse "void f()__attribute__(({));} @ x y(;").defects.length = 3 ∧
    ∃ unit, (parse "void f()__attribute__(({));} @ x y(;").unit = some unit := by
  have facts : EndsItem ((lex "void f()__attribute__(({));} @ x y(;").tokens.map Lexeme.token) ∧
      Balanced .lBrace .rBrace
        ((lex "void f()__attribute__(({));} @ x y(;").tokens.map Lexeme.token) ∧
      (parse "void f()__attribute__(({));} @ x y(;").defects.length = 3 := by
    decide +kernel
  obtain ⟨ends, balanced, defects⟩ := facts
  exact ⟨ends, balanced, defects, exists_unit_of_balanced _ ends balanced⟩

end Lockstep
