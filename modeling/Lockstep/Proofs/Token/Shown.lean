import Lockstep.Proofs.Text.OneLine
import Lockstep.Proofs.Token.Spelled
/-!
What a token shows. No rule for tokens has a text with a line break in it, so all that a token of a
source text shows in a message stands on one line, the body of a quoted text included.
-/

set_option autoImplicit false
set_option relaxedAutoImplicit false

namespace Lockstep

/-- The token is shown on one line, and so is the name of an identifier. -/
structure Token.Shown (t : Token) : Prop where
  display : OneLine t.display
  name : ∀ n, t = .ident n → OneLine n

private theorem exists_mem_of_mem_withRanges {offset : Nat} {cuts : List (List Char × Piece)}
    {p : Piece × Span} (member : p ∈ withRanges offset cuts) : ∃ x ∈ cuts, x.2 = p.1 := by
  induction cuts generalizing offset with
  | nil => cases member
  | cons cut cuts ih =>
    rcases List.mem_cons.mp member with rfl | later
    · exact ⟨cut, List.mem_cons_self, rfl⟩
    · obtain ⟨x, inside, same⟩ := ih later
      exact ⟨x, List.mem_cons_of_mem cut inside, same⟩

namespace Lexical

open Pattern

private theorem exists_rule_of_mem_lex {text : String} {l : Lexeme}
    (member : l ∈ (lex text).tokens) :
    ∃ p read own, (p, Reading.token read) ∈ fixedRules ++ valueRules ∧ p.Matches own ∧
      read own = some l.token := by
  obtain ⟨cuts, cut, same⟩ := exists_cuts 0 text.toList
  rw [tokens_lex, same] at member
  obtain ⟨⟨piece, span⟩, inside, is⟩ := List.mem_filterMap.mp member
  cases piece with
  | gap => cases is
  | stray cs => cases is
  | token t =>
    cases is
    obtain ⟨⟨own, piece⟩, listed, read⟩ := exists_mem_of_mem_withRanges inside
    obtain ⟨after, taken⟩ := cut.exists_taken listed
    simp only at read taken
    cases taken with
    | stray => cases read
    | @matched reading _ first _ =>
      obtain ⟨p, entry, matched⟩ := first.exists_mem
      cases reading with
      | skip => cases read
      | token value =>
        rcases List.mem_cons.mp entry with gap | entry
        · cases gap
        · refine ⟨p, value, own, entry, matched, ?_⟩
          cases result : value own with
          | none => simp [Reading.piece, result] at read
          | some u =>
            rw [Reading.piece, result] at read
            cases read
            rfl

theorem not_admits_break : ∀ r ∈ fixedRules ++ valueRules, r.1.admits '\n' = false := by
  decide +kernel

private theorem shown_fixedSpellings : ∀ s ∈ fixedSpellings, s.2.Shown := by
  have display : ∀ s ∈ fixedSpellings, OneLine s.2.display := by decide +kernel
  intro s spelled
  refine ⟨display s spelled, ?_⟩
  simp only [fixedSpellings, List.mem_append, List.mem_map] at spelled
  rcases spelled with (((⟨k, _, rfl⟩ | ⟨w, _, rfl⟩) | ⟨w, _, rfl⟩) | ⟨w, _, rfl⟩) | ⟨s, _, rfl⟩
  all_goals
    intro n same
    cases same

end Lexical

open Lexical

theorem Lexeme.shown_of_mem_lex {text : String} {l : Lexeme} (member : l ∈ (lex text).tokens) :
    l.token.Shown := by
  obtain ⟨p, read, own, entry, matched, value⟩ := exists_rule_of_mem_lex member
  have absent : '\n' ∉ own := by
    intro inside
    have admitted := Pattern.admits_of_matches matched inside
    rw [not_admits_break _ entry] at admitted
    cases admitted
  rcases List.mem_append.mp entry with fixed | varied
  · rw [fixedRules_eq] at fixed
    obtain ⟨s, spelled, same⟩ := List.mem_map.mp fixed
    cases same
    rw [← Option.some.inj value]
    exact shown_fixedSpellings s spelled
  · have float (v : Binary64) : (Token.float v).Shown := ⟨v.oneLine_plainText, by simp⟩
    have integer (base lead : Nat) (reads : Reading.token read = .integer base lead) :
        l.token.Shown := by
      cases reads
      simp only [Option.ite_none_right_eq_some, Option.some.injEq] at value
      rw [← value.2]
      exact ⟨.nat _, by simp⟩
    simp only [valueRules, List.mem_cons, List.not_mem_nil, or_false, Prod.mk.injEq] at varied
    rcases varied with ⟨-, reads⟩ | ⟨-, reads⟩ | ⟨-, reads⟩ | ⟨-, reads⟩ | ⟨-, reads⟩ | ⟨-, reads⟩ |
      ⟨-, reads⟩ | ⟨-, reads⟩
    · cases reads
      rw [← Option.some.inj value]
      exact float _
    · cases reads
      rw [← Option.some.inj value]
      exact float _
    · cases reads
      rw [← Option.some.inj value]
      exact float _
    · exact integer 16 2 reads
    · exact integer 10 0 reads
    · cases reads
      rw [← Option.some.inj value]
      exact ⟨by decide, by simp⟩
    · cases reads
      rw [← Option.some.inj value]
      have body : OneLine (String.ofList (own.drop 1).dropLast) :=
        .ofList fun inside => absent (List.mem_of_mem_drop (List.dropLast_subset _ inside))
      exact ⟨.append (.append (by decide) body) (by decide), by simp⟩
    · cases reads
      rw [← Option.some.inj value]
      have display : OneLine "<ident>" := by decide
      refine ⟨display, fun n same => ?_⟩
      rw [← Token.ident.inj same]
      exact .ofList absent

end Lockstep
