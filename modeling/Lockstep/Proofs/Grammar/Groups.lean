import Lockstep.Grammar.Types
import Lockstep.Proofs.Grammar.Outcome
import Lockstep.Proofs.Grammar.Reads
import Lockstep.Proofs.Token.Brackets
/-!
Groups of tokens between brackets. A group is read over where the tokens start with one, as far as
the bracket that answers the first, and refused anywhere else.
-/

set_option autoImplicit false
set_option relaxedAutoImplicit false

namespace Lockstep

def OpensGroup (opening closing : Sign) (w : List Token) : Prop :=
  ∃ u v, w = .sign opening :: (u ++ .sign closing :: v) ∧ Balanced opening closing u

namespace Grammar

open Lockstep.Parser

section Groups

variable {o c : Sign} (distinct : o ≠ c) {g v : List Token}

theorem reads_token {t : Token} : Reads (token t) fun _ u => u.map Lexeme.token = [t] := by
  unfold Parser.token
  refine Reads.next.mono ?_
  rintro _ u ⟨l, rfl, accepted⟩
  by_cases same : l.token = t
  · rw [List.map_singleton, same]
  · rw [if_neg same] at accepted
    cases accepted

private theorem balanced_of_each {as : List Unit} {u : List Lexeme}
    (each : Each (fun _ u => Balanced o c (u.map Lexeme.token)) as u) :
    Balanced o c (u.map Lexeme.token) := by
  induction each with
  | nil => exact balanced_nil
  | cons first _ ih =>
    rw [List.map_append]
    exact first.append ih

private theorem refuses_unfold_group (depth : Nat) (other : v.head? ≠ some (.sign o)) :
    Refuses (unfold (groupRule o c) depth) v := by
  cases depth with
  | zero => exact fun _ _ => fails_fail
  | succ depth => exact (refuses_between other).bind

private theorem yields_groupElement {t : Token} (depth : Nat) (notOpening : t ≠ .sign o)
    (notClosing : t ≠ .sign c) :
    Yields (groupElement o c (unfold (groupRule o c) depth)) [t] v fun _ => True := by
  have plain : Yields anyToken [t] v fun s => s = t := yields_next rfl rfl
  have accepted : Yields (guard anyToken fun s => s != .sign o && s != .sign c) [t] v
      fun s => s = t := by
    apply plain.guard
    intro s same
    rw [same, Bool.and_eq_true, bne_iff_ne, bne_iff_ne]
    exact ⟨notOpening, notClosing⟩
  apply Refuses.or_yields
  · apply refuses_unfold_group
    intro opens
    exact notOpening (Option.some.inj opens)
  · exact (accepted.map fun _ _ => trivial).or

private theorem refuses_groupElement (depth : Nat) (distinct : o ≠ c) :
    Refuses (groupElement o c (unfold (groupRule o c) depth)) (.sign c :: v) := by
  have plain : Yields anyToken [.sign c] v fun s => s = .sign c := yields_next rfl rfl
  apply Refuses.or
  · apply refuses_unfold_group
    intro opens
    exact distinct (Token.sign.inj (Option.some.inj opens)).symm
  · refine Refuses.or (Refuses.map ?_) refuses_choice_nil
    apply plain.guard_refuses
    intro s same
    simp [same]

include distinct

/-- A group is read over as far as the bracket that answers its first one. -/
theorem reads_group_balanced : Reads (group o c) fun _ u =>
    ∃ g, u.map Lexeme.token = .sign o :: (g ++ [Token.sign c]) ∧ Balanced o c g := by
  refine .fix fun inner reads => ?_
  have element : Reads (groupElement o c inner) fun _ u => Balanced o c (u.map Lexeme.token) := by
    refine .or (reads.mono ?_) (.or (.map ?_) .fail)
    · rintro _ u ⟨g, tokens, inside⟩
      rw [tokens]
      exact balanced_enclosed distinct inside
    · unfold anyToken
      refine (Reads.next.guard_accepts).mono ?_
      rintro t u ⟨⟨l, rfl, read⟩, accepted⟩
      cases read
      simp only [Bool.and_eq_true, bne_iff_ne] at accepted
      exact balanced_nil.cons accepted.1 accepted.2
  refine .bind (R := fun _ u => ∃ g, u.map Lexeme.token = .sign o :: (g ++ [Token.sign c]) ∧
    Balanced o c g) ?_ fun _ u related => .pure (by simpa using related)
  refine reads_token.bind fun _ u opens => element.many.bind fun _ v each => ?_
  refine reads_token.bind fun _ w closes => .pure ⟨v.map Lexeme.token, ?_, balanced_of_each each⟩
  simp [opens, closes]

private theorem yields_unfold_group (depth : Nat) (short : g.length < depth)
    (inside : Balanced o c g)
    (v : List Token) :
    Yields (unfold (groupRule o c) depth) (.sign o :: (g ++ [Token.sign c])) v fun _ => True := by
  induction depth generalizing g v with
  | zero => omega
  | succ depth ih =>
    have row (size : Nat) (g' : List Token) (least : g'.length ≤ size) (most : size ≤ depth)
        (inside : Balanced o c g') : Rows (groupElement o c (unfold (groupRule o c) depth)) g'
          (.sign c :: v) fun _ => True := by
      induction size generalizing g' with
      | zero =>
        cases List.length_eq_zero_iff.mp (Nat.le_zero.mp least)
        exact rows_nil trivial
      | succ size further =>
        cases g' with
        | nil => exact rows_nil trivial
        | cons t g' =>
          rw [List.length_cons] at least
          by_cases opens : t = .sign o
          · subst opens
            obtain ⟨x, y, rfl, enclosed, behind⟩ := inside.exists_closing distinct
            rw [List.length_append, List.length_cons] at least
            have first : Yields (groupElement o c (unfold (groupRule o c) depth))
                (.sign o :: (x ++ [Token.sign c])) (y ++ Token.sign c :: v) fun _ => True :=
              (ih (by omega) enclosed _).or
            have others := further y (by omega) (by omega) behind
            have joined := Rows.cons (R := fun _ => True) first (by simp) others
              fun _ _ _ _ => trivial
            simpa using joined
          · have closes : t ≠ .sign c := by
              rintro rfl
              exact not_level_closing distinct inside.level
            have others := further g' (by omega) (by omega) (inside.tail opens closes)
            exact Rows.cons (u := [t]) (yields_groupElement depth opens closes) (by simp) others
              fun _ _ _ _ => trivial
    have content := (row depth g (by omega) (Nat.le_refl depth) inside).many
      (refuses_groupElement depth distinct)
    exact (yields_between content).map fun _ _ => trivial

theorem yields_group (inside : Balanced o c g) :
    Yields (group o c) (.sign o :: (g ++ [Token.sign c])) v fun _ => True := by
  apply Yields.fix
  apply yields_unfold_group distinct _ _ inside
  rw [List.length_cons, List.length_append]
  omega

private theorem refuses_group (none : ¬ OpensGroup o c v) : Refuses (group o c) v := by
  intro d here log
  cases outcome : group o c d log with
  | mk result log' =>
    cases result with
    | none => exact ⟨log', rfl⟩
    | some step =>
      obtain ⟨used, moves, g, tokens, inside⟩ :=
        reads_group_balanced distinct d log step.1 step.2 log' outcome
      have split := congrArg (List.map Lexeme.token) moves.rest
      rw [List.map_append, tokens] at split
      exact absurd ⟨g, step.2.words, by rw [← here, Cursor.words, split]; simp [Cursor.words], inside⟩ none

end Groups

theorem succeeds_of_yields {α : Type} {p : Parser α} {R : α → List Lexeme → Prop}
    {P : α → Prop} {u v : List Lexeme} (reads : Reads p R)
    (yields : Yields p (u.map Lexeme.token) (v.map Lexeme.token) P) (stop length : Nat) :
    ∃ a, P a ∧ Succeeds p ⟨u ++ v, stop, length⟩ a ⟨v, lastStop stop u, length⟩ := by
  obtain ⟨a, d, outcome, left, holds⟩ := yields ⟨u ++ v, stop, length⟩ (List.map_append ..)
  obtain ⟨furthest, run⟩ := outcome {}
  obtain ⟨used, moves, _⟩ := reads _ _ _ _ _ run
  have split : u ++ v = used ++ d.rest := moves.rest
  have behind : v.length = d.rest.length := by
    have lengths := congrArg List.length left
    rw [Cursor.words, List.length_map, List.length_map] at lengths
    exact lengths.symm
  obtain ⟨rfl, rest⟩ := List.append_inj' split behind
  have place : d = ⟨v, lastStop stop u, length⟩ := by
    obtain ⟨rest', stop', length'⟩ := d
    rw [rest]
    exact congrArg₂ (Cursor.mk rest') moves.stop moves.length
  rw [place] at outcome
  exact ⟨a, holds, outcome⟩

section Attributes

variable {g v w : List Token}

theorem yields_attributeList (inside : Balanced .lParen .rParen g) :
    Yields attributeList (.attr :: .sign .lParen :: (g ++ [Token.sign .rParen])) v fun _ => True :=
  Yields.bind (u := [.attr]) yields_token fun _ _ => yields_group (by decide) inside

theorem refuses_attributes (absent : ∀ v, w = .attr :: v → ¬ OpensGroup .lParen .rParen v) :
    Refuses attributeList w := by
  cases w with
  | nil => exact (refuses_token (by simp)).bind
  | cons t v =>
    by_cases same : t = .attr
    · subst same
      exact Yields.bind_refuses (u := [.attr]) (v := v) yields_token fun _ _ =>
        refuses_group (by decide) (absent v rfl)
    · have other : some t ≠ some Token.attr := fun first => same (Option.some.inj first)
      exact (refuses_token (v := t :: v) other).bind

end Attributes

end Grammar

end Lockstep
