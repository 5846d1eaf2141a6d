import Lockstep.Proofs.Grammar.Enclosed
/-!
The stretches of tokens that parsers do not read across: all tokens up to the end of both texts, what
stands between braces or parentheses, and what stands before the first sign of a list.
-/

set_option autoImplicit false
set_option relaxedAutoImplicit false

namespace Lockstep

/-- The arguments of each attribute are closed, and their braces are in pairs. -/
def AttributesBalanced (w : List Token) : Prop :=
  ∀ x y, w = x ++ .attr :: .sign .lParen :: y → ∃ g z, y = g ++ .sign .rParen :: z ∧
    Balanced .lParen .rParen g ∧ Balanced .lBrace .rBrace g

namespace AttributesBalanced

variable {u v w : List Token}

theorem of_append (balanced : AttributesBalanced (u ++ v)) : AttributesBalanced v := by
  rintro x y rfl
  exact balanced (u ++ x) y (by rw [List.append_assoc])

theorem of_cons {t : Token} (balanced : AttributesBalanced (t :: w)) : AttributesBalanced w :=
  balanced.of_append (u := [t])

theorem of_not_mem (absent : Token.attr ∉ w) : AttributesBalanced w := by
  rintro x y rfl
  exact absurd (by simp) absent

theorem of_block (balanced : AttributesBalanced (w ++ Token.sign .rBrace :: v))
    (block : Balanced .lBrace .rBrace w) : AttributesBalanced w := by
  rintro x y rfl
  obtain ⟨g, z, split, closed, braces⟩ :=
    balanced x (y ++ Token.sign .rBrace :: v) (by simp)
  rcases List.append_eq_append_iff.mp split with ⟨s, rfl, rest⟩ | ⟨s, rfl, rest⟩
  · cases s with
    | nil => cases rest
    | cons t s =>
      -- The group would hold the brace that closes the block, without the one that opens it.
      obtain ⟨rfl, _⟩ := List.cons.inj rest
      have start := braces.level (y ++ [Token.sign .rBrace]) s (by simp)
      have before := block.level x _ rfl
      have total := block.total
      simp only [List.count_append, List.count_cons] at start before total
      simp at start before total
      omega
  · cases s with
    | nil => cases rest
    | cons t s =>
      obtain ⟨rfl, _⟩ := List.cons.inj rest
      exact ⟨g, s, rfl, closed, braces⟩

end AttributesBalanced

namespace Enclosure

def whole : Enclosure where
  within _ l r := l = [] ∧ r = []
  ends := fun ⟨left, right⟩ => ⟨.inl left, .inl right⟩
  tail := fun _ _ ends => ends
  arguments := by
    rintro w l r ⟨rfl, rfl⟩
    by_cases group : OpensGroup .lParen .rParen w
    · obtain ⟨g, v, rfl, closed⟩ := group
      exact .inl ⟨g, v, rfl, closed, rfl, rfl⟩
    · rw [List.append_nil]
      exact .inr ⟨group, group⟩

theorem plain_whole (t : Token) : whole.Plain t where
  tail := fun ends => ends
  absent := by
    rintro l r ⟨rfl, rfl⟩
    exact ⟨by simp, by simp⟩

theorem blocks_whole : whole.Blocks where
  braces := .inl ⟨plain_whole _, plain_whole _⟩
  plain := fun _ _ => plain_whole _
  alike := by
    rintro l r ⟨rfl, rfl⟩
    rfl

/-- Brackets in pairs, up to the one that closes the pair around the stretch; or brackets none of
which closes a pair around it, up to the end of both texts. -/
def Between (opening closing : Sign) (w l r : List Token) : Prop :=
  Balanced opening closing w ∧ l.head? = some (.sign closing) ∧ r.head? = some (.sign closing) ∨
    Level opening closing w ∧ l = [] ∧ r = []

section Pairs

variable {o c : Sign} {t : Token} {w l r : List Token}

theorem Between.tail (between : Between o c (t :: w) l r) (notOpening : t ≠ .sign o)
    (notClosing : t ≠ .sign c) : Between o c w l r := by
  rcases between with ⟨balanced, ends⟩ | ⟨level, ends⟩
  · exact .inl ⟨balanced.tail notOpening notClosing, ends⟩
  · exact .inr ⟨level.tail notOpening, ends⟩

theorem Between.level (between : Between o c w l r) : Level o c w := by
  rcases between with ⟨balanced, _⟩ | ⟨level, _⟩
  · exact balanced.level
  · exact level

theorem Between.heads (between : Between o c [] l r) : l.head? = r.head? ∧
    ∀ t ∈ l.head?, t = .sign c := by
  rcases between with ⟨_, left, right⟩ | ⟨_, rfl, rfl⟩
  · rw [left, right]
    exact ⟨rfl, fun t first => (Option.some.inj first).symm⟩
  · exact ⟨rfl, by simp⟩

theorem Between.group (distinct : o ≠ c) (between : Between o c (.sign o :: w) l r) :
    (∃ u v, w = u ++ Token.sign c :: v ∧ Balanced o c u ∧ Between o c v l r) ∨
      l = [] ∧ r = [] ∧ Between o c w [] [] := by
  rcases between with ⟨balanced, ends⟩ | ⟨level, rfl, rfl⟩
  · obtain ⟨u, v, split, inside, behind⟩ := balanced.exists_closing distinct
    exact .inl ⟨u, v, split, inside, .inl ⟨behind, ends⟩⟩
  · rcases level.opening_cases distinct with ⟨u, v, split, inside, behind⟩ | open'
    · exact .inl ⟨u, v, split, inside, .inr ⟨behind, rfl, rfl⟩⟩
    · exact .inr ⟨rfl, rfl, .inr ⟨open', rfl, rfl⟩⟩

theorem Between.barred (bound : (Token.sign c).IsBound) (between : Between o c [] l r) :
    Barred l ∧ Barred r := by
  have barred {v : List Token} (closes : ∀ t ∈ v.head?, t = .sign c) : Barred v := by
    cases v with
    | nil => exact .inl rfl
    | cons t v => exact .inr (.inl ⟨t, v, rfl, closes t rfl ▸ bound⟩)
  obtain ⟨same, closes⟩ := between.heads
  exact ⟨barred closes, barred (same ▸ closes)⟩

theorem Between.absent (between : Between o c [] l r) (notClosing : t ≠ .sign c) :
    l.head? ≠ some t ∧ r.head? ≠ some t := by
  obtain ⟨same, closes⟩ := between.heads
  have left : l.head? ≠ some t := fun first => notClosing (closes t first)
  exact ⟨left, same ▸ left⟩

private theorem Between.no_group (between : Between o c w l r) (closing : c ≠ .lParen)
    (starts : w.head? ≠ some (.sign .lParen)) :
    ¬ OpensGroup .lParen .rParen (w ++ l) ∧ ¬ OpensGroup .lParen .rParen (w ++ r) := by
  have other {v : List Token} (stops : w = [] → v.head? ≠ some (.sign .lParen)) :
      ¬ OpensGroup .lParen .rParen (w ++ v) := by
    rintro ⟨u, v', split, _⟩
    cases w with
    | nil => exact stops rfl (by rw [List.nil_append] at split; rw [split]; rfl)
    | cons t w => exact starts (congrArg List.head? split)
  have closes : Token.sign .lParen ≠ .sign c := fun same => closing (Token.sign.inj same).symm
  refine ⟨other ?_, other ?_⟩
  · rintro rfl
    exact (between.absent closes).1
  · rintro rfl
    exact (between.absent closes).2

end Pairs

/-- Braces in pairs, also in the arguments of attributes. -/
def brace : Enclosure where
  within w l r := AttributesBalanced w ∧ Between .lBrace .rBrace w l r
  ends := fun within => within.2.barred (by simp [Token.IsBound])
  tail := by
    intro t w l r free _ within
    refine ⟨within.1.of_cons, within.2.tail ?_ ?_⟩
    · rintro rfl
      exact free (by simp [Token.IsBound])
    · rintro rfl
      exact free (by simp [Token.IsBound])
  arguments := by
    rintro w l r ⟨attributes, between⟩
    have behind := between.tail (by simp) (by simp)
    by_cases opens : w.head? = some (.sign .lParen)
    · obtain ⟨y, rfl⟩ := List.head?_eq_some_iff.mp opens
      obtain ⟨g, z, rfl, closed, braces⟩ := attributes [] y rfl
      refine .inl ⟨g, z, rfl, closed, ?_, ?_⟩
      · have rest := attributes.of_cons.of_cons
        exact rest.of_append.of_cons
      · rcases behind.tail (by simp) (by simp) with ⟨balanced, ends⟩ | ⟨level, ends⟩
        · exact .inl ⟨(balanced.of_append braces).tail (by simp) (by simp), ends⟩
        · exact .inr ⟨(level.of_append braces).tail (by simp), ends⟩
    · exact .inr (behind.no_group (by decide) opens)

theorem counts_brace : brace.Counts .lBrace .rBrace where
  absent := fun within => within.2.absent (by simp)
  answers := fun within => not_level_closing (by decide) within.2.level
  group := by
    rintro w l r ⟨attributes, between⟩
    rcases between.group (by decide) with ⟨u, v, rfl, inside, behind⟩ | ⟨left, right, behind⟩
    · refine .inl ⟨u, v, rfl, ?_, attributes.of_cons.of_append.of_cons, behind⟩
      intro l' r'
      exact ⟨attributes.of_cons.of_block inside, .inl ⟨inside, rfl, rfl⟩⟩
    · exact .inr ⟨left, right, attributes.of_cons, behind⟩

theorem blocks_brace : brace.Blocks where
  braces := .inr counts_brace
  plain := by
    intro t notOpening notClosing
    refine ⟨?_, ?_⟩
    · rintro w l r ⟨attributes, between⟩
      exact ⟨attributes.of_cons, between.tail notOpening notClosing⟩
    · rintro l r ⟨_, between⟩
      exact between.absent notClosing
  alike := fun within => within.2.heads.1

def paren : Enclosure where
  within := Between .lParen .rParen
  ends := fun within => within.barred (by simp [Token.IsBound])
  tail := by
    intro t w l r free _ within
    refine within.tail ?_ ?_
    · rintro rfl
      exact free (by simp [Token.IsBound])
    · rintro rfl
      exact free (by simp [Token.IsBound])
  arguments := by
    intro w l r between
    have behind := between.tail (by simp) (by simp)
    by_cases opens : w.head? = some (.sign .lParen)
    · obtain ⟨y, rfl⟩ := List.head?_eq_some_iff.mp opens
      rcases behind.group (by decide) with ⟨u, v, rfl, inside, rest⟩ | ⟨rfl, rfl, rest⟩
      · exact .inl ⟨u, v, rfl, inside, rest⟩
      · have unclosed : ¬ OpensGroup .lParen .rParen (.sign .lParen :: y ++ []) := by
          rintro ⟨u, v, same, inside⟩
          rw [List.append_nil] at same
          rw [(List.cons.inj same).2] at rest
          exact inside.not_level_append (by decide) rest.level
        exact .inr ⟨unclosed, unclosed⟩
    · exact .inr (behind.no_group (by decide) opens)

theorem counts_paren : paren.Counts .lParen .rParen where
  absent := fun within => within.absent (by simp)
  answers := fun within => not_level_closing (by decide) within.level
  group := by
    intro w l r between
    rcases between.group (by decide) with ⟨u, v, rfl, inside, behind⟩ | ends
    · exact .inl ⟨u, v, rfl, fun _ _ => .inl ⟨inside, rfl, rfl⟩, behind⟩
    · exact .inr ends

theorem brackets_paren : paren.Brackets where
  parens := .inr counts_paren
  braces := by
    have plain {s : Sign} (notOpening : s ≠ .lParen) (notClosing : s ≠ .rParen) :
        paren.Plain (.sign s) := by
      have notOpening' : Token.sign s ≠ .sign .lParen := fun same => notOpening (Token.sign.inj same)
      have notClosing' : Token.sign s ≠ .sign .rParen := fun same => notClosing (Token.sign.inj same)
      exact ⟨fun within => within.tail notOpening' notClosing', fun within => within.absent notClosing'⟩
    exact .inl ⟨plain (by decide) (by decide), plain (by decide) (by decide)⟩

/-- None of the signs stands among the tokens, except in the arguments of attributes. -/
inductive Clear (stops : List Sign) : List Token → Prop where
  | nil : Clear stops []
  | token {t : Token} {w : List Token} (other : ∀ s ∈ stops, t ≠ .sign s) (plain : t ≠ .attr)
      (rest : Clear stops w) : Clear stops (t :: w)
  | arguments {g w : List Token} (closed : Balanced .lParen .rParen g) (rest : Clear stops w) :
      Clear stops (.attr :: .sign .lParen :: (g ++ .sign .rParen :: w))

/-- One of the signs comes first, or an attribute without its arguments, or nothing. -/
def Halts (stops : List Sign) (v : List Token) : Prop :=
  v = [] ∨ (∃ s ∈ stops, v.head? = some (.sign s)) ∨
    ∃ v', v = .attr :: v' ∧ ¬ OpensGroup .lParen .rParen v'

section Signs

variable {stops : List Sign} {t : Token} {v w : List Token}

theorem Clear.tail (clear : Clear stops (t :: w)) (plain : t ≠ .attr) : Clear stops w := by
  cases clear with
  | token _ _ rest => exact rest
  | arguments _ _ => exact absurd rfl plain

theorem Clear.head_ne (clear : Clear stops w) {s : Sign} (stop : s ∈ stops) :
    w.head? ≠ some (.sign s) := by
  intro first
  cases clear with
  | nil => cases first
  | token other _ _ => exact other s stop (Option.some.inj first)
  | arguments _ _ => cases first

/-- Every row of tokens is clear up to where it halts. -/
theorem exists_clear (stops : List Sign) (w : List Token) :
    ∃ u v, w = u ++ v ∧ Clear stops u ∧ Halts stops v := by
  induction size : w.length using Nat.strongRecOn generalizing w with
  | _ n ih =>
    cases w with
    | nil => exact ⟨[], [], rfl, .nil, .inl rfl⟩
    | cons t w =>
      subst size
      by_cases halts : Halts stops (t :: w)
      · exact ⟨[], t :: w, rfl, .nil, halts⟩
      have other : ∀ s ∈ stops, t ≠ .sign s := by
        rintro s stop rfl
        exact halts (.inr (.inl ⟨s, stop, rfl⟩))
      by_cases plain : t = .attr
      · subst plain
        have group : OpensGroup .lParen .rParen w := by
          by_contra none
          exact halts (.inr (.inr ⟨w, rfl, none⟩))
        obtain ⟨g, rest, rfl, closed⟩ := group
        obtain ⟨u, v, rfl, clear, halts'⟩ := ih rest.length (by simp; omega) rest rfl
        exact ⟨.attr :: .sign .lParen :: (g ++ Token.sign .rParen :: u), v, by simp,
          .arguments closed clear, halts'⟩
      · obtain ⟨u, v, rfl, clear, halts'⟩ := ih w.length (by simp) w rfl
        exact ⟨t :: u, v, rfl, .token other plain clear, halts'⟩

theorem Halts.barred (bound : ∀ s ∈ stops, (Token.sign s).IsBound) (halts : Halts stops v) :
    Barred v := by
  rcases halts with nil | ⟨s, stop, first⟩ | alone
  · exact .inl nil
  · obtain ⟨v', rfl⟩ := List.head?_eq_some_iff.mp first
    exact .inr (.inl ⟨_, v', rfl, bound s stop⟩)
  · exact .inr (.inr alone)

end Signs

def upTo (stops : List Sign) (bound : ∀ s ∈ stops, (Token.sign s).IsBound) : Enclosure where
  within w l r := Clear stops w ∧ Halts stops l ∧ Halts stops r
  ends := fun within => ⟨within.2.1.barred bound, within.2.2.barred bound⟩
  tail := fun _ plain within => ⟨within.1.tail plain, within.2⟩
  arguments := by
    rintro w l r ⟨clear, halts⟩
    cases clear with
    | token _ plain _ => exact absurd rfl plain
    | arguments closed rest => exact .inl ⟨_, _, rfl, closed, rest, halts⟩

def statement : Enclosure := upTo [.semicolon] (by simp [Token.IsBound])

theorem brackets_statement : statement.Brackets := by
  have plain {s : Sign} (other : s ≠ .semicolon) : statement.Plain (.sign s) := by
    have absent {v : List Token} (halts : Halts [.semicolon] v) : v.head? ≠ some (.sign s) := by
      rintro first
      rcases halts with rfl | ⟨s', stop, first'⟩ | ⟨v', rfl, _⟩
      · cases first
      · rw [first'] at first
        cases first
        exact other (List.mem_singleton.mp stop)
      · cases first
    exact ⟨fun within => ⟨within.1.tail (by simp), within.2⟩,
      fun within => ⟨absent within.2.1, absent within.2.2⟩⟩
  exact ⟨.inl ⟨plain (by decide), plain (by decide)⟩, .inl ⟨plain (by decide), plain (by decide)⟩⟩

end Enclosure

end Lockstep
