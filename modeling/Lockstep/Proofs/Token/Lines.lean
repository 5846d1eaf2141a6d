import Lockstep.Proofs.Token.Shown
import Lockstep.Proofs.Tree.Relocate
import Mathlib.Data.List.TakeWhile
/-!
Texts that are joined by a line break. No rule but the one for gaps goes on over a line break, and
that one does so in blanks and in block comments only. So the pieces of a text end at the break as
they end with the text, unless a block comment is left open, and behind it everything is read as if
it stood alone.
-/

set_option autoImplicit false
set_option relaxedAutoImplicit false

namespace Lockstep

open Lexical

section Breaks

variable {u v own after b : List Char} {piece : Piece} {r : Pattern × Reading}

private theorem skipped_of_break (entry : r ∈ rules) (matched : r.1.Matches (u ++ '\n' :: v)) :
    Skipped (u ++ '\n' :: v) := by
  rcases List.mem_cons.mp entry with rfl | entry
  · exact matches_gap_iff.mp matched
  · have admitted := Pattern.admits_of_matches (c := '\n') matched (by simp)
    rw [not_admits_break r entry] at admitted
    cases admitted

private theorem blank_or_open (skipped : Skipped (u ++ '\n' :: v)) :
    (∀ c ∈ u, c ∈ blanks) ∨
      ∃ w, u = '/' :: '*' :: w ∧ ClosedAtEnd (w ++ '\n' :: v) := by
  generalize whole : u ++ '\n' :: v = s at skipped
  have inside : '\n' ∈ s := by simp [← whole]
  cases skipped with
  | blanks nonempty all => exact .inl fun c member => all c (by simp [← whole, member])
  | line unbroken => simp [unbroken] at inside
  | directive unbroken => simp [unbroken] at inside
  | @block w closed =>
    -- The break is neither of the two characters that open the comment.
    cases u with
    | nil => cases whole
    | cons c u =>
      obtain ⟨rfl, others⟩ := List.cons.inj whole
      cases u with
      | nil => cases others
      | cons d u =>
        obtain ⟨rfl, inner⟩ := List.cons.inj others
        have same : u ++ '\n' :: v = w ++ ['*', '/'] := inner
        exact .inr ⟨u, rfl, same ▸ closed⟩

private theorem not_begins_comment :
    ∀ r ∈ fixedRules ++ valueRules, (r.1.behind ['/', '*']).isDead = true := by
  decide +kernel

private theorem slash_or_comment {w : List Char} (nonempty : own ≠ []) (entry : r ∈ rules)
    (matched : r.1.Matches own) (opens : own ++ after = '/' :: '*' :: w) :
    own = ['/'] ∨ ∃ x, own = '/' :: '*' :: (x ++ ['*', '/']) := by
  obtain ⟨c, own, rfl⟩ := List.exists_cons_of_ne_nil nonempty
  obtain ⟨rfl, others⟩ := List.cons.inj opens
  cases own with
  | nil => exact .inl rfl
  | cons d own =>
    obtain ⟨rfl, _⟩ := List.cons.inj others
    rcases List.mem_cons.mp entry with rfl | token
    · generalize whole : '/' :: '*' :: own = s at matched
      cases matches_gap_iff.mp matched with
      | blanks _ all => exact absurd (all '/' (by simp [← whole])) (by decide)
      | line => cases whole
      | block => exact .inr ⟨_, rfl⟩
      | directive => cases whole
    · have dead := (rules_trim r entry).isDead_behind_iff.mp (not_begins_comment r token)
      exact absurd ⟨own, matched⟩ dead

private theorem prefix_break {more : List Char} (within : more <+: after ++ '\n' :: b) :
    more <+: after ∨ ∃ v, more = after ++ '\n' :: v := by
  obtain ⟨tail, split⟩ := within
  rcases List.append_eq_append_iff.mp split with ⟨x, longer, _⟩ | ⟨x, longer, split⟩
  · exact .inl ⟨x, longer.symm⟩
  · cases x with
    | nil =>
      rw [List.append_nil] at longer
      exact .inl (longer ▸ List.prefix_refl _)
    | cons c x =>
      obtain ⟨rfl, _⟩ := List.cons.inj split
      exact .inr ⟨x, longer⟩

private theorem Taken.before_break (taken : Taken own after piece)
    (closed : own = ['/'] → after.head? ≠ some '*') :
    Taken own (after ++ '\n' :: b) piece ∨ after = [] ∧ ∀ c ∈ own, c ∈ blanks := by
  cases taken with
  | matched nonempty first longest =>
    by_cases blank : after = [] ∧ ∀ c ∈ own, c ∈ blanks
    · exact .inr blank
    refine .inl (.matched nonempty first ?_)
    intro more some within r entry matched
    rcases prefix_break within with inside | ⟨v, rfl⟩
    · exact longest more some inside r entry matched
    rw [← List.append_assoc] at matched
    rcases blank_or_open (skipped_of_break entry matched) with blanks | ⟨w, opens, ends⟩
    · by_cases last : after = []
      · exact blank ⟨last, fun c member => blanks c (List.mem_append_left _ member)⟩
      · have skipped : Skipped (own ++ after) := .blanks (by simp [last]) blanks
        exact longest after last (List.prefix_refl _) (gap, .skip) List.mem_cons_self
          (matches_gap_iff.mpr skipped)
    · obtain ⟨p, rule, has⟩ := first.exists_mem
      rcases slash_or_comment nonempty rule has opens with slash | ⟨x, comment⟩
      · rw [slash] at opens
        have star : after = '*' :: w := (List.cons.inj opens).2
        exact closed slash (by rw [star, List.head?_cons])
      · rw [comment] at opens
        have same : x ++ ['*', '/'] ++ after = w := by simpa using opens
        have none := ends x (after ++ '\n' :: v) (by simp [← same])
        simp at none
  | stray nonempty unmatched begun stuck =>
    have beyond (v : List Char) (r : Pattern × Reading) (entry : r ∈ rules) :
        ¬ r.1.Matches (own ++ after ++ '\n' :: v) := by
      intro matched
      rcases blank_or_open (skipped_of_break entry matched) with blanks | ⟨w, opens, _⟩
      · have some : own ++ after ≠ [] := by simp [nonempty]
        exact unmatched (own ++ after) some (List.prefix_refl _) (gap, .skip) List.mem_cons_self
          (matches_gap_iff.mpr (.blanks some blanks))
      · have slash : ("/", .sign .slash) ∈ fixedSpellings := by decide +kernel
        obtain ⟨p, rule, has⟩ := (firstRule_of_fixed slash).exists_mem
        exact unmatched ['/'] (by simp) (by simp [opens]) _ rule has
    refine .inl (.stray nonempty ?_ begun ?_)
    · intro u some within r entry matched
      rw [← List.append_assoc] at within
      rcases prefix_break within with inside | ⟨v, rfl⟩
      · exact unmatched u some inside r entry matched
      · exact beyond v r entry matched
    · intro c rest first
      cases after with
      | cons d after =>
        obtain ⟨rfl, _⟩ := List.cons.inj first
        exact stuck d after rfl
      | nil =>
        obtain ⟨rfl, _⟩ := List.cons.inj first
        rintro ⟨r, entry, v, matched⟩
        exact beyond v r entry (by simpa using matched)

end Breaks

section Visible

variable {own after : List Char} {piece : Piece}

/-- The tokens and stray pieces of a text that starts at byte `offset`. -/
def visible (offset : Nat) (cs : List Char) : List (Piece × Span) :=
  (pieces offset cs).filter fun p => !p.1.isGap

private theorem visible_of_taken (offset : Nat) (taken : Taken own after piece) :
    visible offset (own ++ after) =
      [(piece, (⟨offset, offset + byteLength own⟩ : Span))].filter (fun p => !p.1.isGap) ++
        visible (offset + byteLength own) after := by
  rw [visible, pieces_of_taken offset taken, ← List.singleton_append, List.filter_append]
  rfl

private theorem visible_blanks (offset : Nat) {u : List Char} (all : ∀ c ∈ u, c ∈ blanks)
    (cs : List Char) : visible offset (u ++ cs) = visible (offset + byteLength u) cs := by
  -- The blanks at the start of the text are one piece with those in front of it.
  have run {w rest : List Char} (offset : Nat) (blank : ∀ c ∈ w, c ∈ blanks)
      (ended : ∀ c ∈ rest.head?, c ∉ blanks) :
      visible offset (w ++ rest) = visible (offset + byteLength w) rest := by
    by_cases none : w = []
    · subst none
      rfl
    · exact visible_of_taken offset (taken_blanks none blank ended)
  have ended : ∀ c ∈ (cs.dropWhile (· ∈ blanks)).head?, c ∉ blanks := by
    intro c first
    have passed := List.head?_dropWhile_not (· ∈ blanks) cs
    rw [first] at passed
    simpa using passed
  have front : ∀ c ∈ cs.takeWhile (· ∈ blanks), c ∈ blanks := by
    intro c member
    simpa using List.mem_takeWhile_imp member
  have split := List.takeWhile_append_dropWhile (p := (· ∈ blanks)) (l := cs)
  rw [← split, ← List.append_assoc, run offset (List.forall_mem_append.mpr ⟨all, front⟩) ended,
    run (offset + byteLength u) front ended, byteLength_append, Nat.add_assoc]

def Piece.shift (k : Nat) (p : Piece × Span) : Piece × Span := (p.1, p.2.relocate (· + k))

private theorem pieces_shift (k offset : Nat) (cs : List Char) :
    pieces (offset + k) cs = (pieces offset cs).map (Piece.shift k) := by
  induction offset, cs using pieces.induct with
  | case1 offset =>
    rw [pieces, pieces]
    rfl
  | case2 offset c rest piece extra found stop ih =>
    have moved : offset + k + byteLength (c :: rest.take extra) = stop + k := by
      show _ = offset + byteLength (c :: rest.take extra) + k
      omega
    rw [pieces, pieces]
    simp only [found]
    rw [moved, ih]
    rfl

private theorem visible_shift (k : Nat) (cs : List Char) :
    visible k cs = (visible 0 cs).map (Piece.shift k) := by
  rw [visible, visible, ← Nat.zero_add k, pieces_shift, List.filter_map, Nat.zero_add]
  rfl

private theorem filterMap_visible {β : Type} {pick : Piece × Span → Option β}
    (silent : ∀ span, pick (.gap, span) = none) (offset : Nat) (cs : List Char) :
    (visible offset cs).filterMap pick = (pieces offset cs).filterMap pick := by
  rw [visible, List.filterMap_filter]
  congr 1
  funext p
  obtain ⟨piece, span⟩ := p
  cases piece with
  | gap => exact (silent span).symm
  | token t => rfl
  | stray cs => rfl

end Visible

section Joined

/-- No slash is read in front of a star: the last comment of the text is closed. -/
def Uncommented (before cs : List Char) : Prop :=
  ∀ p ∈ pieces (byteLength before) cs, p.1 = .token (.sign .slash) →
    String.Pos.Raw.get? (String.ofList (before ++ cs)) ⟨p.2.stop⟩ ≠ some '*'

variable {before own after cs : List Char} {piece : Piece}

theorem Uncommented.head (closed : Uncommented before (own ++ after)) (taken : Taken own after piece)
    (slash : own = ['/']) : after.head? ≠ some '*' := by
  subst slash
  have fixed : ("/", .sign .slash) ∈ fixedSpellings := by decide +kernel
  have is : piece = .token (.sign .slash) := Taken.fixed (w := "/") taken fixed
  subst is
  have other := closed (.token (.sign .slash), _) (by
    rw [pieces_of_taken _ taken]
    exact List.mem_cons_self) rfl
  have there := String.get?_of_valid (before ++ ['/']) after
  rw [← byteLength_eq_utf8Len, byteLength_append, List.append_assoc] at there
  exact there ▸ other

theorem Uncommented.tail (closed : Uncommented before (own ++ after))
    (taken : Taken own after piece) : Uncommented (before ++ own) after := by
  intro p member
  rw [List.append_assoc]
  apply closed p
  rw [pieces_of_taken _ taken, ← byteLength_append]
  exact List.mem_cons_of_mem _ member

private theorem visible_break {cuts : List (List Char × Piece)} (cut : Cuts cs cuts)
    (before b : List Char)
    (closed : Uncommented before cs) :
    visible (byteLength before) (cs ++ '\n' :: b) =
      visible (byteLength before) cs ++ visible (byteLength before + byteLength cs + 1) b := by
  induction cut generalizing before with
  | nil =>
    have none : visible (byteLength before) [] = [] := by rw [visible, pieces]; rfl
    rw [none]
    exact visible_blanks (byteLength before) (u := ['\n']) (by simp [blanks]) b
  | @cons own after piece cuts taken others ih =>
    rcases taken.before_break (b := b) (closed.head taken) with goes | ⟨rfl, blank⟩
    · have rest := ih (before ++ own) (closed.tail taken)
      rw [byteLength_append] at rest
      rw [List.append_assoc, visible_of_taken _ goes, visible_of_taken _ taken, rest,
        byteLength_append, List.append_assoc, ← Nat.add_assoc]
    · -- The blanks at the end are one piece with the break and the blanks behind it.
      have lone : visible (byteLength before) own = [] := by
        have skipped := visible_blanks (byteLength before) blank []
        rw [List.append_nil] at skipped
        rw [skipped, visible, pieces]
        rfl
      have joined := visible_blanks (byteLength before) (u := own ++ ['\n'])
        (List.forall_mem_append.mpr ⟨blank, by simp [blanks]⟩) b
      rw [byteLength_append, List.append_assoc] at joined
      rw [List.append_nil, lone, List.nil_append]
      exact joined

private theorem visible_of_lines (a b : String) (closed : Uncommented [] a.toList) :
    visible 0 (a ++ "\n" ++ b).toList = visible 0 a.toList ++
      (visible 0 b.toList).map (Piece.shift (a.utf8ByteSize + 1)) := by
  obtain ⟨cuts, cut, _⟩ := exists_cuts 0 a.toList
  have whole := visible_break cut [] b.toList closed
  have none : byteLength ([] : List Char) = 0 := rfl
  have size : byteLength a.toList = a.utf8ByteSize := by
    rw [byteLength_eq_utf8Len, String.utf8Len_toList]
  have text : (a ++ "\n" ++ b).toList = a.toList ++ '\n' :: b.toList := by simp
  rw [none, Nat.zero_add, size, visible_shift (a.utf8ByteSize + 1)] at whole
  rw [text]
  exact whole

private theorem filterMap_pieces_of_lines {β : Type} {pick : Piece × Span → Option β} {move : β → β}
    (a b : String) (closed : Uncommented [] a.toList) (silent : ∀ span, pick (.gap, span) = none)
    (moves : ∀ p, pick (Piece.shift (a.utf8ByteSize + 1) p) = (pick p).map move) :
    (pieces 0 (a ++ "\n" ++ b).toList).filterMap pick =
      (pieces 0 a.toList).filterMap pick ++ ((pieces 0 b.toList).filterMap pick).map move := by
  have shifted : pick ∘ Piece.shift (a.utf8ByteSize + 1) = fun p => (pick p).map move :=
    funext moves
  rw [← filterMap_visible silent, ← filterMap_visible silent, ← filterMap_visible silent,
    visible_of_lines a b closed, List.filterMap_append, List.filterMap_map, List.map_filterMap,
    shifted]

end Joined

/-- A text that is joined to another one by a line break is read as it is read alone, and so is the
other one behind it, if no comment is left open: no slash of the first text is followed by a star. -/
theorem lex_of_lines (a b : String)
    (closed : ∀ l ∈ (lex a).tokens, l.token = .sign .slash →
      String.Pos.Raw.get? a ⟨l.span.stop⟩ ≠ some '*') :
    (lex (a ++ "\n" ++ b)).tokens = (lex a).tokens ++
        (lex b).tokens.map (Lexeme.relocate (· + (a.utf8ByteSize + 1))) ∧
      (lex (a ++ "\n" ++ b)).strays = (lex a).strays ++
        (lex b).strays.map fun p => (p.1.relocate (· + (a.utf8ByteSize + 1)), p.2) := by
  have uncommented : Uncommented [] a.toList := by
    rintro ⟨piece, span⟩ member rfl
    rw [List.nil_append, String.ofList_toList]
    refine closed ⟨.sign .slash, span⟩ ?_ rfl
    rw [tokens_lex]
    exact List.mem_filterMap.mpr ⟨_, member, rfl⟩
  constructor
  · rw [tokens_lex, tokens_lex, tokens_lex]
    refine filterMap_pieces_of_lines a b uncommented (fun _ => rfl) fun p => ?_
    obtain ⟨piece, span⟩ := p
    cases piece <;> rfl
  · rw [strays_lex, strays_lex, strays_lex]
    refine filterMap_pieces_of_lines a b uncommented (fun _ => rfl) fun p => ?_
    obtain ⟨piece, span⟩ := p
    cases piece <;> rfl

/-- A quoted text breaks off with a backslash in front of the break, behind a comment that is closed
and a slash that opens none. -/
theorem lex_of_lines_sample :
    (∀ l ∈ (lex "a/b/*c*/\"d\\").tokens, l.token = .sign .slash →
      String.Pos.Raw.get? "a/b/*c*/\"d\\" ⟨l.span.stop⟩ ≠ some '*') ∧
    (lex "a/b/*c*/\"d\\").strays = [(⟨8, 11⟩, "\"d\\")] ∧
    (lex ("a/b/*c*/\"d\\" ++ "\n" ++ "*e\"")).tokens = (lex "a/b/*c*/\"d\\").tokens ++
      (lex "*e\"").tokens.map (Lexeme.relocate (· + 12)) ∧
    (lex ("a/b/*c*/\"d\\" ++ "\n" ++ "*e\"")).strays = (lex "a/b/*c*/\"d\\").strays ++
      (lex "*e\"").strays.map fun p => (p.1.relocate (· + 12), p.2) := by
  have facts : (∀ l ∈ (lex "a/b/*c*/\"d\\").tokens, l.token = .sign .slash →
      String.Pos.Raw.get? "a/b/*c*/\"d\\" ⟨l.span.stop⟩ ≠ some '*') ∧
      (lex "a/b/*c*/\"d\\").strays = [(⟨8, 11⟩, "\"d\\")] := by
    decide +kernel
  exact ⟨facts.1, facts.2, lex_of_lines "a/b/*c*/\"d\\" "*e\"" facts.1⟩

end Lockstep
