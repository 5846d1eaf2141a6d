import Lockstep.Proofs.Token.Language
import Lockstep.Token.Rules
/-!
What is skipped between tokens: runs of blanks, comments to the end of the line, block comments up
to their first closing mark, and directive lines. The pattern for gaps has exactly these texts.
-/

set_option autoImplicit false
set_option relaxedAutoImplicit false

namespace Lockstep

namespace Pattern

variable {p : Pattern} {u v : List Char} {accepts : Char → Bool}

private theorem matches_foldr_iff :
    Matches (u.foldr (fun c p => seq (one (· == c)) p) blank) v ↔ v = u := by
  induction u generalizing v with
  | nil => exact matches_blank_iff
  | cons c u ih =>
    rw [List.foldr_cons, matches_seq_iff]
    constructor
    · rintro ⟨w, x, rfl, first, second⟩
      obtain ⟨d, same, rfl⟩ := matches_one_iff.mp first
      rw [ih.mp second, beq_iff_eq.mp same]
      rfl
    · rintro rfl
      exact ⟨[c], u, rfl, .one (beq_self_eq_true c), ih.mpr rfl⟩

@[simp]
theorem matches_text_iff {s : String} : Matches (text s) v ↔ v = s.toList := matches_foldr_iff

theorem matches_star_one_iff : Matches (star (one accepts)) u ↔ ∀ c ∈ u, accepts c = true := by
  constructor
  · intro matched
    refine matched.star_induction (P := fun u => ∀ c ∈ u, accepts c = true) ?_ ?_
    · simp
    · intro v w first _ others
      obtain ⟨c, accepted, rfl⟩ := matches_one_iff.mp first
      exact List.forall_mem_cons.mpr ⟨accepted, others⟩
  · intro accepted
    induction u with
    | nil => exact .starNil
    | cons c u ih =>
      have others := ih fun d member => accepted d (List.mem_cons_of_mem c member)
      exact .starCons (.one (accepted c List.mem_cons_self)) others

theorem matches_plus_one_iff :
    Matches (plus (one accepts)) u ↔ u ≠ [] ∧ ∀ c ∈ u, accepts c = true := by
  rw [plus, matches_seq_iff]
  constructor
  · rintro ⟨v, w, rfl, first, others⟩
    obtain ⟨c, accepted, rfl⟩ := matches_one_iff.mp first
    refine ⟨by simp, ?_⟩
    intro d member
    rcases List.mem_cons.mp member with rfl | later
    · exact accepted
    · exact matches_star_one_iff.mp others d later
  · rintro ⟨nonempty, accepted⟩
    obtain ⟨c, w, rfl⟩ := List.exists_cons_of_ne_nil nonempty
    refine ⟨[c], w, rfl, .one (accepted c List.mem_cons_self), matches_star_one_iff.mpr ?_⟩
    intro d member
    exact accepted d (List.mem_cons_of_mem c member)

theorem matches_seqs_cons_iff {ps : List Pattern} :
    Matches (seqs (p :: ps)) u ↔ ∃ v w, u = v ++ w ∧ Matches p v ∧ Matches (seqs ps) w :=
  matches_seq_iff

private theorem matches_alts_iff {ps : List Pattern} :
    Matches (alts ps) u ↔ ∃ p ∈ ps, Matches p u := by
  induction ps with
  | nil =>
    constructor
    · intro matched
      exact (not_matches_nothing matched).elim
    · rintro ⟨p, absurd, -⟩
      cases absurd
  | cons p ps ih =>
    rw [alts, List.foldr_cons, matches_alt_iff, ← alts, ih]
    simp

end Pattern

namespace Lexical

open Pattern

def blanks : List Char := [' ', '\t', '\r', '\n', '\x0c']

/-- The only closing mark of a block comment in the text stands at its end. -/
def ClosedAtEnd (s : List Char) : Prop := ∀ x y, s = x ++ '*' :: '/' :: y → y = []

/-- What may stand between tokens. -/
inductive Skipped : List Char → Prop where
  | blanks {u : List Char} (nonempty : u ≠ []) (all : ∀ c ∈ u, c ∈ blanks) : Skipped u
  | line {v : List Char} (unbroken : '\n' ∉ v) : Skipped ('/' :: '/' :: v)
  | block {v : List Char} (closed : ClosedAtEnd (v ++ ['*', '/'])) :
      Skipped ('/' :: '*' :: (v ++ ['*', '/']))
  | directive {v : List Char} (unbroken : '\n' ∉ v) : Skipped ('#' :: v)

section Block

variable {c : Char} {s : List Char}

private theorem ClosedAtEnd.tail (closed : ClosedAtEnd (c :: s)) : ClosedAtEnd s := by
  intro x y whole
  exact closed (c :: x) y (by rw [whole]; rfl)

private theorem ClosedAtEnd.cons (closed : ClosedAtEnd s) (other : c ≠ '*') :
    ClosedAtEnd (c :: s) := by
  intro x y whole
  cases x with
  | nil =>
    cases whole
    exact (other rfl).elim
  | cons d x =>
    cases whole
    exact closed x y rfl

private theorem ClosedAtEnd.star (closed : ClosedAtEnd s) (unclosed : ∀ t, s ≠ '/' :: t) :
    ClosedAtEnd ('*' :: s) := by
  intro x y whole
  cases x with
  | nil =>
    cases whole
    exact (unclosed y rfl).elim
  | cons d x =>
    cases whole
    exact closed x y rfl

private theorem ClosedAtEnd.stars (n : Nat) (closed : ClosedAtEnd s)
    (unclosed : ∀ t, s ≠ '/' :: t) :
    ClosedAtEnd (List.replicate n '*' ++ s) ∧ ∀ t, List.replicate n '*' ++ s ≠ '/' :: t := by
  induction n with
  | zero => exact ⟨closed, unclosed⟩
  | succ n ih =>
    refine ⟨ih.1.star ih.2, ?_⟩
    intro t absurd
    cases absurd

private theorem closedAtEnd_mark : ClosedAtEnd ['*', '/'] := by
  intro x y whole
  have lengths := congrArg List.length whole
  simp only [List.length_append, List.length_cons, List.length_nil] at lengths
  exact List.eq_nil_of_length_eq_zero (by omega)

/-- Inside a block comment: no star, or stars before something that does not close it. -/
def blockBody : Pattern := star (alt (noneOf "*") (seq (plus (oneOf "*")) (noneOf "*/")))

private theorem eq_replicate_of_stars {u : List Char} (stars : Matches (plus (oneOf "*")) u) :
    ∃ n, u = List.replicate (n + 1) '*' := by
  obtain ⟨nonempty, all⟩ := matches_plus_one_iff.mp stars
  obtain ⟨c, rest, rfl⟩ := List.exists_cons_of_ne_nil nonempty
  refine ⟨rest.length, List.eq_replicate_iff.mpr ⟨rfl, ?_⟩⟩
  intro d member
  simpa using all d member

private theorem stars_matches (n : Nat) :
    Matches (plus (oneOf "*")) (List.replicate (n + 1) '*') := by
  refine matches_plus_one_iff.mpr ⟨by simp, ?_⟩
  intro c member
  rw [List.eq_of_mem_replicate member]
  rfl

private theorem closedAtEnd_append {b : List Char} (inside : Matches blockBody b)
    (closed : ClosedAtEnd s) : ClosedAtEnd (b ++ s) := by
  refine inside.star_induction (P := fun b => ClosedAtEnd (b ++ s)) closed fun v w first _ rest => ?_
  rw [List.append_assoc]
  rcases matches_alt_iff.mp first with plain | starred
  · obtain ⟨c, other, rfl⟩ := matches_one_iff.mp plain
    exact rest.cons (by simpa using other)
  · obtain ⟨x, y, rfl, stars, last⟩ := matches_seq_iff.mp starred
    obtain ⟨n, rfl⟩ := eq_replicate_of_stars stars
    obtain ⟨c, other, rfl⟩ := matches_one_iff.mp last
    obtain ⟨notStar, notSlash⟩ : c ≠ '*' ∧ c ≠ '/' := by simpa using other
    have ended : ClosedAtEnd (c :: (w ++ s)) := rest.cons notStar
    have unclosed : ∀ t, c :: (w ++ s) ≠ '/' :: t := by
      intro t absurd
      exact notSlash (List.cons.inj absurd).1
    rw [List.append_assoc]
    exact (ended.stars (n + 1) unclosed).1

private theorem exists_body (v : List Char) (n : Nat)
    (closed : ClosedAtEnd (List.replicate n '*' ++ (v ++ ['*', '/']))) :
    ∃ b k, List.replicate n '*' ++ (v ++ ['*']) = b ++ List.replicate (k + 1) '*' ∧
      Matches blockBody b := by
  induction v generalizing n with
  | nil => exact ⟨[], n, by simp [List.replicate_succ'], .starNil⟩
  | cons d v ih =>
    by_cases star : d = '*'
    · have moved (w : List Char) :
          List.replicate n '*' ++ (d :: v ++ w) = List.replicate (n + 1) '*' ++ (v ++ w) := by
        rw [star, List.replicate_succ']
        simp
      rw [moved] at closed ⊢
      exact ih (n + 1) closed
    · have rest : ClosedAtEnd (v ++ ['*', '/']) := by
        intro x y whole
        refine closed (List.replicate n '*' ++ d :: x) y ?_
        rw [List.cons_append, whole]
        simp
      obtain ⟨b, k, whole, inside⟩ := ih 0 rest
      rw [List.replicate_zero, List.nil_append] at whole
      cases n with
      | zero =>
        refine ⟨[d] ++ b, k, by simp [whole], .starCons (.left (.one ?_)) inside⟩
        simpa using star
      | succ n =>
        have slash : d ≠ '/' := by
          intro same
          have ended := closed (List.replicate n '*') (v ++ ['*', '/']) (by
            rw [same, List.replicate_succ']
            simp)
          simp at ended
        refine ⟨(List.replicate (n + 1) '*' ++ [d]) ++ b, k, by simp [whole], ?_⟩
        refine .starCons (.right (.seq (stars_matches n) (.one ?_))) inside
        simp [star, slash]

private theorem matches_block_iff {u : List Char} :
    Matches (seqs [text "/*", blockBody, plus (oneOf "*"), text "/"]) u ↔
      ∃ v, u = '/' :: '*' :: (v ++ ['*', '/']) ∧ ClosedAtEnd (v ++ ['*', '/']) := by
  simp only [matches_seqs_cons_iff, matches_text_iff]
  constructor
  · rintro ⟨_, w, rfl, rfl, b, x, rfl, inside, stars, y, rfl, closing, _, z, rfl, rfl, last⟩
    obtain ⟨n, rfl⟩ := eq_replicate_of_stars closing
    rw [matches_blank_iff.mp last]
    have tail : List.replicate (n + 1) '*' ++ ['/'] = List.replicate n '*' ++ ['*', '/'] := by
      rw [List.replicate_succ']
      simp
    have ended := (closedAtEnd_mark.stars n (fun t absurd => by cases absurd)).1
    refine ⟨b ++ List.replicate n '*', ?_, ?_⟩
    · show '/' :: '*' :: (b ++ (List.replicate (n + 1) '*' ++ (['/'] ++ []))) = _
      rw [List.append_nil, tail, List.append_assoc]
    · rw [List.append_assoc]
      exact closedAtEnd_append inside ended
  · rintro ⟨v, rfl, closed⟩
    obtain ⟨b, k, whole, inside⟩ := exists_body v 0 closed
    rw [List.replicate_zero, List.nil_append] at whole
    have ended : v ++ ['*', '/'] = b ++ (List.replicate (k + 1) '*' ++ ['/']) := by
      rw [← List.append_assoc, ← whole]
      simp
    refine ⟨['/', '*'], v ++ ['*', '/'], rfl, rfl, b, _, ended, inside, _, ['/'], rfl,
      stars_matches k, ['/'], [], rfl, rfl, .blank⟩

end Block

theorem matches_gap_iff {u : List Char} : gap.Matches u ↔ Skipped u := by
  have unbroken (v : List Char) : Matches (star (noneOf "\n")) v ↔ '\n' ∉ v := by
    rw [noneOf, matches_star_one_iff]
    constructor
    · intro accepted member
      have absurd := accepted '\n' member
      simp at absurd
    · intro absent c member
      have other : c ≠ '\n' := by
        rintro rfl
        exact absent member
      simpa using other
  have spaces : Matches (plus (oneOf " \t\r\n\x0c")) u ↔ u ≠ [] ∧ ∀ c ∈ u, c ∈ blanks := by
    rw [oneOf, matches_plus_one_iff]
    simp [blanks]
  have parts : gap.Matches u ↔ Matches (plus (oneOf " \t\r\n\x0c")) u ∨
      Matches (seq (text "//") (star (noneOf "\n"))) u ∨
      Matches (seqs [text "/*", blockBody, plus (oneOf "*"), text "/"]) u ∨
      Matches (seq (text "#") (star (noneOf "\n"))) u := by
    rw [gap, matches_alts_iff]
    simp [blockBody]
  rw [parts, spaces, matches_block_iff]
  simp only [matches_seq_iff, matches_text_iff, unbroken]
  constructor
  · rintro (⟨nonempty, all⟩ | ⟨_, v, rfl, rfl, none⟩ | ⟨v, rfl, closed⟩ | ⟨_, v, rfl, rfl, none⟩)
    · exact .blanks nonempty all
    · exact .line none
    · exact .block closed
    · exact .directive none
  · intro skipped
    cases skipped with
    | blanks nonempty all => exact .inl ⟨nonempty, all⟩
    | line none => exact .inr (.inl ⟨['/', '/'], _, rfl, rfl, none⟩)
    | block closed => exact .inr (.inr (.inl ⟨_, rfl, closed⟩))
    | directive none => exact .inr (.inr (.inr ⟨['#'], _, rfl, rfl, none⟩))

/-- The first closing mark ends a block comment, however many stars stand before it. -/
example : gap.Matches "/***/".toList ∧ ¬ gap.Matches "/**/ */".toList := by
  simp only [← nullable_behind_iff]
  decide

end Lexical

end Lockstep
