import Lockstep.Proofs.Token.Gaps
/-!
The texts of literals and names, told by their parts: digits, a point, a power of ten, a suffix, what
stands between quotes. The rules with a value have exactly these texts.
-/

set_option autoImplicit false
set_option relaxedAutoImplicit false

namespace Lockstep

namespace Lexical

open Pattern

variable {u : List Char}

def isLetter (c : Char) : Bool := c.isAlpha || c == '_'

def isWordChar (c : Char) : Bool := isLetter c || c.isDigit

/-- A power of ten: its mark, at most one sign and at least one digit. -/
inductive Scale : List Char → Prop where
  | mk {mark : Char} {sign digits : List Char} (marks : mark ∈ ['e', 'E'])
      (signs : sign ∈ [[], ['+'], ['-']]) (nonempty : digits ≠ [])
      (all : ∀ d ∈ digits, d.isDigit = true) : Scale (mark :: (sign ++ digits))

/-- What may stand between two quotes: nothing breaks the line, and a quote or a backslash stands
behind a backslash only. -/
inductive Inside (quote : Char) : List Char → Prop where
  | nil : Inside quote []
  | plain {c : Char} {u : List Char} (free : c ∉ [quote, '\\', '\n']) (others : Inside quote u) :
      Inside quote (c :: u)
  | escaped {c : Char} {u : List Char} (free : c ≠ '\n') (others : Inside quote u) :
      Inside quote ('\\' :: c :: u)

/-- The text of a literal or of a name. -/
inductive Valued : List Char → Prop where
  | pointed {whole fraction scale suffix : List Char} (digit : whole ≠ [] ∨ fraction ≠ [])
      (before : ∀ d ∈ whole, d.isDigit = true) (behind : ∀ d ∈ fraction, d.isDigit = true)
      (scaled : Scale scale ∨ scale = []) (short : suffix.length ≤ 1)
      (suffixed : ∀ c ∈ suffix, c ∈ ['f', 'F', 'h', 'H']) :
      Valued (whole ++ '.' :: (fraction ++ (scale ++ suffix)))
  | scaled {whole scale suffix : List Char} (nonempty : whole ≠ [])
      (digits : ∀ d ∈ whole, d.isDigit = true) (scaled : Scale scale) (short : suffix.length ≤ 1)
      (suffixed : ∀ c ∈ suffix, c ∈ ['f', 'F', 'h', 'H']) : Valued (whole ++ (scale ++ suffix))
  | hexadecimal {x : Char} {digits suffix : List Char} (mark : x ∈ ['x', 'X'])
      (nonempty : digits ≠ []) (all : ∀ d ∈ digits, d ∈ "0123456789abcdefABCDEF".toList)
      (suffixed : ∀ c ∈ suffix, c ∈ ['u', 'U', 'l', 'L']) : Valued ('0' :: x :: (digits ++ suffix))
  | decimal {digits suffix : List Char} (nonempty : digits ≠ [])
      (all : ∀ d ∈ digits, d.isDigit = true) (suffixed : ∀ c ∈ suffix, c ∈ ['u', 'U', 'l', 'L']) :
      Valued (digits ++ suffix)
  | character {u : List Char} (nonempty : u ≠ []) (inside : Inside '\'' u) :
      Valued ('\'' :: (u ++ ['\'']))
  | string {u : List Char} (inside : Inside '"' u) : Valued ('"' :: (u ++ ['"']))
  | name {c : Char} {u : List Char} (first : isLetter c = true)
      (others : ∀ d ∈ u, isWordChar d = true) : Valued (c :: u)

section Parts

variable {s : String} {c : Char}

private theorem matches_oneOf_iff : (oneOf s).Matches u ↔ ∃ c, u = [c] ∧ c ∈ s.toList := by
  simp only [oneOf, matches_one_iff, List.contains_iff_mem, and_comm]

private theorem matches_option_iff {p : Pattern} : (option p).Matches u ↔ p.Matches u ∨ u = [] := by
  rw [option, matches_alt_iff, matches_blank_iff]

private theorem matches_seqs_nil_iff : (seqs []).Matches u ↔ u = [] := matches_blank_iff

private theorem matches_digits_iff :
    (plus digit).Matches u ↔ u ≠ [] ∧ ∀ d ∈ u, d.isDigit = true := matches_plus_one_iff

private theorem matches_anyDigits_iff :
    (star digit).Matches u ↔ ∀ d ∈ u, d.isDigit = true := matches_star_one_iff

private theorem matches_intSuffix_iff :
    intSuffix.Matches u ↔ ∀ c ∈ u, c ∈ ['u', 'U', 'l', 'L'] := by
  rw [intSuffix, oneOf, matches_star_one_iff]
  simp only [List.contains_iff_mem]
  rfl

private theorem matches_floatSuffix_iff :
    floatSuffix.Matches u ↔ u.length ≤ 1 ∧ ∀ c ∈ u, c ∈ ['f', 'F', 'h', 'H'] := by
  rw [floatSuffix, matches_option_iff, matches_oneOf_iff]
  constructor
  · rintro (⟨c, rfl, member⟩ | rfl)
    · exact ⟨Nat.le_refl 1, by simpa using member⟩
    · simp
  · rintro ⟨short, all⟩
    cases u with
    | nil => exact .inr rfl
    | cons c rest =>
      have last : rest = [] := List.eq_nil_of_length_eq_zero (by simpa using short)
      subst last
      exact .inl ⟨c, rfl, all c List.mem_cons_self⟩

private theorem matches_sign_iff :
    (option (oneOf "+-")).Matches u ↔ u ∈ [[], ['+'], ['-']] := by
  rw [matches_option_iff, matches_oneOf_iff]
  constructor
  · rintro (⟨c, rfl, member⟩ | rfl)
    · simpa using member
    · simp
  · intro member
    simp only [List.mem_cons, List.not_mem_nil, or_false] at member
    rcases member with rfl | rfl | rfl
    · exact .inr rfl
    · exact .inl ⟨'+', rfl, by decide⟩
    · exact .inl ⟨'-', rfl, by decide⟩

private theorem matches_exponent_iff : exponent.Matches u ↔ Scale u := by
  simp only [exponent, matches_seqs_cons_iff, matches_oneOf_iff, matches_sign_iff,
    matches_digits_iff, matches_seqs_nil_iff]
  constructor
  · rintro ⟨_, _, rfl, ⟨mark, rfl, marks⟩, sign, _, rfl, signs, digits, _, rfl, ⟨nonempty, all⟩, rfl⟩
    rw [List.append_nil]
    exact @Scale.mk mark sign digits marks signs nonempty all
  · rintro ⟨marks, signs, nonempty, all⟩
    exact ⟨[_], _, rfl, ⟨_, rfl, marks⟩, _, _, rfl, signs, _, [], (List.append_nil _).symm,
      ⟨nonempty, all⟩, rfl⟩

private def quotedChar (quote : String) : Pattern :=
  alt (noneOf (quote ++ "\\\n")) (seq (text "\\") (noneOf "\n"))

private theorem matches_noneOf_iff : (noneOf s).Matches u ↔ ∃ c, u = [c] ∧ c ∉ s.toList := by
  simp only [noneOf, matches_one_iff, Bool.not_eq_true', List.contains_eq_mem, decide_eq_false_iff_not,
    and_comm]

private theorem matches_quotedChar_iff {quote : Char} :
    (quotedChar (String.singleton quote)).Matches u ↔
      (∃ c, u = [c] ∧ c ∉ [quote, '\\', '\n']) ∨ ∃ c, u = ['\\', c] ∧ c ≠ '\n' := by
  simp only [quotedChar, matches_alt_iff, matches_noneOf_iff, matches_seq_iff, matches_text_iff]
  apply or_congr
  · simp
  · constructor
    · rintro ⟨_, _, rfl, rfl, c, rfl, free⟩
      exact ⟨c, rfl, by simpa using free⟩
    · rintro ⟨c, rfl, free⟩
      exact ⟨['\\'], [c], rfl, rfl, c, rfl, by simpa using free⟩

private theorem matches_inside_iff {quote : Char} :
    (star (quotedChar (String.singleton quote))).Matches u ↔ Inside quote u := by
  constructor
  · intro matched
    refine matched.star_induction ?_ ?_
    · exact .nil
    · intro v w first _ others
      rcases matches_quotedChar_iff.mp first with ⟨c, rfl, free⟩ | ⟨c, rfl, free⟩
      · exact .plain free others
      · exact .escaped free others
  · intro inside
    induction inside with
    | nil => exact .starNil
    | plain free _ ih => exact .starCons (matches_quotedChar_iff.mpr (.inl ⟨_, rfl, free⟩)) ih
    | escaped free _ ih => exact .starCons (matches_quotedChar_iff.mpr (.inr ⟨_, rfl, free⟩)) ih

private theorem matches_someInside_iff {quote : Char} :
    (plus (quotedChar (String.singleton quote))).Matches u ↔ u ≠ [] ∧ Inside quote u := by
  rw [plus, matches_seq_iff]
  constructor
  · rintro ⟨v, w, rfl, first, others⟩
    refine ⟨?_, matches_inside_iff.mp (.starCons first others)⟩
    rcases matches_quotedChar_iff.mp first with ⟨c, rfl, -⟩ | ⟨c, rfl, -⟩ <;> simp
  · rintro ⟨nonempty, inside⟩
    cases inside with
    | nil => exact absurd rfl nonempty
    | @plain c rest free others =>
      exact ⟨[c], rest, rfl, matches_quotedChar_iff.mpr (.inl ⟨c, rfl, free⟩),
        matches_inside_iff.mpr others⟩
    | @escaped c rest free others =>
      exact ⟨['\\', c], rest, rfl, matches_quotedChar_iff.mpr (.inr ⟨c, rfl, free⟩),
        matches_inside_iff.mpr others⟩

private theorem matches_quotedBy_iff {quote : Char} {repeatBody : Pattern → Pattern} :
    (quotedBy (String.singleton quote) repeatBody).Matches u ↔ ∃ v, u = quote :: (v ++ [quote]) ∧
      (repeatBody (quotedChar (String.singleton quote))).Matches v := by
  simp only [quotedBy, matches_seqs_cons_iff, matches_seqs_nil_iff, matches_text_iff]
  constructor
  · rintro ⟨_, _, rfl, rfl, v, _, rfl, inside, _, _, rfl, rfl, rfl⟩
    exact ⟨v, by simp, inside⟩
  · rintro ⟨v, rfl, inside⟩
    exact ⟨[quote], v ++ [quote], rfl, by simp, v, [quote], rfl, inside, [quote], [], rfl, by simp, rfl⟩

end Parts

section Rules

private theorem matches_pointed_iff :
    (∃ p ∈ [seqs [plus digit, text ".", star digit, option exponent, floatSuffix],
        seqs [text ".", plus digit, option exponent, floatSuffix]], p.Matches u) ↔
      ∃ whole fraction scale suffix, u = whole ++ '.' :: (fraction ++ (scale ++ suffix)) ∧
        (whole ≠ [] ∨ fraction ≠ []) ∧ (∀ d ∈ whole, d.isDigit = true) ∧
        (∀ d ∈ fraction, d.isDigit = true) ∧ (Scale scale ∨ scale = []) ∧
        suffix.length ≤ 1 ∧ ∀ c ∈ suffix, c ∈ ['f', 'F', 'h', 'H'] := by
  simp only [List.mem_cons, List.not_mem_nil, or_false, exists_eq_or_imp, exists_eq_left,
    matches_seqs_cons_iff, matches_seqs_nil_iff, matches_text_iff, matches_digits_iff,
    matches_anyDigits_iff, matches_option_iff, matches_exponent_iff, matches_floatSuffix_iff]
  constructor
  · rintro (⟨whole, _, rfl, ⟨nonempty, before⟩, _, _, rfl, rfl, fraction, _, rfl, behind, scale, _, rfl,
      scaled, suffix, _, rfl, short, rfl⟩ | ⟨_, _, rfl, rfl, fraction, _, rfl, ⟨nonempty, behind⟩,
      scale, _, rfl, scaled, suffix, _, rfl, short, rfl⟩)
    · exact ⟨whole, fraction, scale, suffix, by simp, .inl nonempty, before, behind, scaled, short⟩
    · exact ⟨[], fraction, scale, suffix, by simp, .inr nonempty, by simp, behind, scaled, short⟩
  · rintro ⟨whole, fraction, scale, suffix, rfl, digit, before, behind, scaled, short⟩
    by_cases empty : whole = []
    · refine .inr ⟨['.'], _, by rw [empty]; rfl, rfl, fraction, _, rfl, ⟨?_, behind⟩, scale, _, rfl,
        scaled, suffix, [], (List.append_nil _).symm, short, rfl⟩
      exact digit.resolve_left (absurd empty)
    · exact .inl ⟨whole, _, rfl, ⟨empty, before⟩, ['.'], _, rfl, rfl, fraction, _, rfl, behind, scale,
        _, rfl, scaled, suffix, [], (List.append_nil _).symm, short, rfl⟩

private theorem matches_hexadecimal_iff :
    (seqs [text "0", oneOf "xX", plus (oneOf "0123456789abcdefABCDEF"), intSuffix]).Matches u ↔
      ∃ x digits suffix, u = '0' :: x :: (digits ++ suffix) ∧ x ∈ ['x', 'X'] ∧ digits ≠ [] ∧
        (∀ d ∈ digits, d ∈ "0123456789abcdefABCDEF".toList) ∧
        ∀ c ∈ suffix, c ∈ ['u', 'U', 'l', 'L'] := by
  have digits {v : List Char} : (plus (oneOf "0123456789abcdefABCDEF")).Matches v ↔
      v ≠ [] ∧ ∀ d ∈ v, d ∈ "0123456789abcdefABCDEF".toList := by
    rw [oneOf, matches_plus_one_iff]
    simp only [List.contains_iff_mem]
  simp only [matches_seqs_cons_iff, matches_seqs_nil_iff, matches_text_iff, matches_oneOf_iff,
    digits, matches_intSuffix_iff]
  constructor
  · rintro ⟨_, _, rfl, rfl, _, _, rfl, ⟨x, rfl, mark⟩, v, _, rfl, ⟨nonempty, all⟩, suffix, _, rfl,
      suffixed, rfl⟩
    exact ⟨x, v, suffix, by simp, mark, nonempty, all, suffixed⟩
  · rintro ⟨x, v, suffix, rfl, mark, nonempty, all, suffixed⟩
    exact ⟨['0'], _, rfl, rfl, [x], _, rfl, ⟨x, rfl, mark⟩, v, _, rfl, ⟨nonempty, all⟩, suffix, [],
      (List.append_nil _).symm, suffixed, rfl⟩

theorem matches_wordChars_iff :
    (star (alt letter digit)).Matches u ↔ ∀ d ∈ u, isWordChar d = true := by
  constructor
  · intro matched
    refine matched.star_induction (P := fun u => ∀ d ∈ u, isWordChar d = true) ?_ ?_
    · simp
    · intro v w first _ others
      rcases matches_alt_iff.mp first with first | first
      · obtain ⟨c, letter, rfl⟩ := matches_one_iff.mp first
        exact List.forall_mem_cons.mpr ⟨Bool.or_eq_true_iff.mpr (.inl letter), others⟩
      · obtain ⟨c, digit, rfl⟩ := matches_one_iff.mp first
        exact List.forall_mem_cons.mpr ⟨Bool.or_eq_true_iff.mpr (.inr digit), others⟩
  · intro words
    induction u with
    | nil => exact .starNil
    | cons d u ih =>
      obtain ⟨word, others⟩ := List.forall_mem_cons.mp words
      rcases Bool.or_eq_true_iff.mp word with letter | digit
      · exact .starCons (.left (.one letter)) (ih others)
      · exact .starCons (.right (.one digit)) (ih others)

end Rules

/-- The rules for literals and names have the texts of literals and names. -/
theorem exists_valueRule_iff : (∃ r ∈ valueRules, r.1.Matches u) ↔ Valued u := by
  have table : (∃ r ∈ valueRules, r.1.Matches u) ↔
      (∃ p ∈ [seqs [plus digit, text ".", star digit, option exponent, floatSuffix],
        seqs [text ".", plus digit, option exponent, floatSuffix]], p.Matches u) ∨
      (seqs [plus digit, exponent, floatSuffix]).Matches u ∨
      (seqs [text "0", oneOf "xX", plus (oneOf "0123456789abcdefABCDEF"), intSuffix]).Matches u ∨
      (seq (plus digit) intSuffix).Matches u ∨ (quotedBy (String.singleton '\'') plus).Matches u ∨
      (quotedBy (String.singleton '"') star).Matches u ∨
      (seq letter (star (alt letter digit))).Matches u := by
    simp only [valueRules, List.mem_cons, List.not_mem_nil, or_false, exists_eq_or_imp,
      exists_eq_left, or_assoc]
    rfl
  rw [table, matches_pointed_iff, matches_hexadecimal_iff, matches_quotedBy_iff,
    matches_quotedBy_iff]
  simp only [matches_seqs_cons_iff, matches_seqs_nil_iff, matches_seq_iff, matches_digits_iff,
    matches_exponent_iff, matches_floatSuffix_iff, matches_intSuffix_iff, matches_someInside_iff,
    matches_inside_iff, matches_wordChars_iff]
  constructor
  · rintro (⟨_, _, _, _, rfl, digit, before, behind, scaled, short, suffixed⟩ |
      ⟨_, _, rfl, ⟨nonempty, digits⟩, _, _, rfl, scaled, _, _, rfl, ⟨short, suffixed⟩, rfl⟩ |
      ⟨_, _, _, rfl, mark, nonempty, all, suffixed⟩ | ⟨_, _, rfl, ⟨nonempty, all⟩, suffixed⟩ |
      ⟨_, rfl, nonempty, inside⟩ | ⟨_, rfl, inside⟩ | ⟨_, _, rfl, first, others⟩)
    · exact .pointed digit before behind scaled short suffixed
    · rw [List.append_nil]
      exact .scaled nonempty digits scaled short suffixed
    · exact .hexadecimal mark nonempty all suffixed
    · exact .decimal nonempty all suffixed
    · exact .character nonempty inside
    · exact .string inside
    · obtain ⟨c, letter, rfl⟩ := matches_one_iff.mp first
      exact .name letter others
  · intro valued
    cases valued with
    | pointed digit before behind scaled short suffixed =>
      exact .inl ⟨_, _, _, _, rfl, digit, before, behind, scaled, short, suffixed⟩
    | scaled nonempty digits scaled short suffixed =>
      exact .inr (.inl ⟨_, _, rfl, ⟨nonempty, digits⟩, _, _, rfl, scaled, _, [],
        (List.append_nil _).symm, ⟨short, suffixed⟩, rfl⟩)
    | hexadecimal mark nonempty all suffixed =>
      exact .inr (.inr (.inl ⟨_, _, _, rfl, mark, nonempty, all, suffixed⟩))
    | decimal nonempty all suffixed =>
      exact .inr (.inr (.inr (.inl ⟨_, _, rfl, ⟨nonempty, all⟩, suffixed⟩)))
    | character nonempty inside =>
      exact .inr (.inr (.inr (.inr (.inl ⟨_, rfl, nonempty, inside⟩))))
    | string inside => exact .inr (.inr (.inr (.inr (.inr (.inl ⟨_, rfl, inside⟩)))))
    | @name c rest first others =>
      exact .inr (.inr (.inr (.inr (.inr (.inr ⟨[c], rest, rfl, .one first, others⟩)))))

end Lexical

end Lockstep
