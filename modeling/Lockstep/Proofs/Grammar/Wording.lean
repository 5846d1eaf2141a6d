import Lockstep.Proofs.Grammar.Built
import Lockstep.Proofs.Grammar.Placement
import Lockstep.Proofs.Token.Shown
/-!
What a source file gives to messages. The names in its tree are names of tokens, and what is said
about misplaced tokens quotes tokens of the text or of the language; so all of it stands on one line.
-/

set_option autoImplicit false
set_option relaxedAutoImplicit false

namespace Lockstep

/-- The names that a source file spells out, declares or gives all stand on one line. -/
structure SourceUnit.OneLined (unit : SourceUnit) : Prop where
  words : ∀ n ∈ unit.nodes, ∀ use ∈ n.word?, OneLine use.2
  declares : ∀ id ∈ unit.declares, OneLine id.name
  titles : ∀ item ∈ unit.items, ∀ id ∈ item.titles, OneLine id.name

theorem SourceUnit.oneLined_of_parse {text : String} {unit : SourceUnit}
    (parsed : (parse text).unit = some unit) : unit.OneLined := by
  obtain ⟨u, v, tokens, within, -, each⟩ := exists_tokens_of_parse parsed
  have ordered := (lex_ordered text).sublist (within.trans tokens)
  have shown {name : String} {span : Span} (read : ⟨.ident name, span⟩ ∈ v) : OneLine name :=
    (Lexeme.shown_of_mem_lex ((within.trans tokens).subset read)).name name rfl
  refine ⟨fun n inside use is => ?_, fun id declared => ?_, fun item member id titled => ?_⟩
  · have rooted := items_rooted each ordered
    rw [unit.nodes_eq_flatMap] at inside
    exact shown (rooted.worded use (List.mem_filterMap.mpr ⟨n, inside, is⟩))
  · exact shown ((items_spelled each ordered).subset (List.mem_map_of_mem declared))
  · obtain ⟨first, others, row, stands⟩ := exists_stands_of_mem each ordered member
    exact shown (row.subset (stands.titles.subset (List.mem_map_of_mem titled)))

private theorem Token.shown_of_isFixed {t : Token} (fixed : t.isFixed = true) : t.Shown := by
  cases t with
  | keyword k => exact ⟨by cases k <;> decide, nofun⟩
  | sign s => exact ⟨by cases s <;> decide, nofun⟩
  | kernel | qualifier | attr => exact ⟨by decide, nofun⟩
  | float v => cases fixed
  | int n => cases fixed
  | char => cases fixed
  | str body => cases fixed
  | ident n => cases fixed

theorem OneLine.enumerate {parts : List String} (each : ∀ part ∈ parts, OneLine part) :
    OneLine (enumerate parts) := by
  rcases parts with - | ⟨first, - | ⟨second, parts⟩⟩
  · exact (by decide : OneLine "something else")
  · exact each first List.mem_cons_self
  · have front : ∀ part ∈ (first :: second :: parts).dropLast, OneLine part :=
      fun part member => each part (List.dropLast_subset _ member)
    have last : OneLine ((first :: second :: parts).getLastD "") := by
      rw [List.getLastD_eq_getLast?, List.getLast?_eq_some_getLast (List.cons_ne_nil _ _)]
      exact each _ (List.getLast_mem (List.cons_ne_nil _ _))
    exact .append (.append (.intercalate (by decide) front) (by decide)) last

theorem Reason.oneLine_message {reason : Reason} (names : reason.Names Token.Shown) :
    OneLine reason.message := by
  have quoted {t : Token} (shown : t.Shown) : OneLine ("'" ++ t.display ++ "'") :=
    .append (.append (by decide) shown.display) (by decide)
  cases reason with
  | notAType => exact (by decide : OneLine "expected a type name")
  | unexpected expected found =>
    have listed : OneLine (enumerate (expected.map Expected.display)) := by
      refine .enumerate fun part member => ?_
      obtain ⟨e, listed, rfl⟩ := List.mem_map.mp member
      cases e with
      | token t => exact quoted (names.1 _ listed)
      | identifier | anyToken | somethingElse | endOfInput =>
        rw [Expected.display]
        decide
    cases found with
    | none => exact .append (.append (by decide : OneLine "found end of input") (by decide)) listed
    | some t =>
      exact .append (.append (.append (by decide) (quoted (names.2 t rfl))) (by decide)) listed

/-- What is said about the defects of a text stands on one line. -/
theorem oneLine_of_mem_notes {text : String} {note : Note} (member : note ∈ (parse text).notes) :
    OneLine note.message := by
  obtain ⟨⟨span, defect⟩, listed, rfl⟩ := List.mem_map.mp member
  have names (f : Failure) (failed : f ∈ (parseTokens (lex text).tokens text.utf8ByteSize).2) :
      f.reason.Names Token.Shown :=
    names_of_mem_parseTokens (fun t => Token.shown_of_isFixed) (fun l => Lexeme.shown_of_mem_lex)
      failed
  -- The outcome is made a variable before anything is reduced: the grammar must not be run.
  unfold parse at listed
  extract_lets lexed at listed
  generalize parseTokens (lex text).tokens text.utf8ByteSize = outcome at names listed
  obtain ⟨unit, failures⟩ := outcome
  dsimp only at names listed
  rcases List.mem_append.mp listed with stray | misplaced
  · obtain ⟨⟨range, piece⟩, -, same⟩ := List.mem_map.mp stray
    cases same
    exact .append (by decide) (oneLine_escaped piece)
  · obtain ⟨f, failed, same⟩ := List.mem_map.mp misplaced
    cases same
    exact Reason.oneLine_message (names f failed)

end Lockstep
