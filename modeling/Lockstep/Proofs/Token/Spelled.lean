import Lockstep.Proofs.Token.Cuts
import Mathlib.Data.Bool.AllAny
import Mathlib.Data.Nat.Digits.Defs
/-!
Tokens written with a blank between. A word of the language, an identifier and a number below
`2 ^ 64` are each read back as they are, whatever stands behind the blank or bracket that ends them.
-/

set_option autoImplicit false
set_option relaxedAutoImplicit false

namespace Lockstep

section Tails

variable {α : Type} {p : α → Bool}

theorem dropTail_append_tail (p : α → Bool) (xs : List α) :
    dropTail p xs ++ (xs.reverse.takeWhile p).reverse = xs := by
  rw [dropTail, ← List.reverse_append, List.takeWhile_append_dropWhile, List.reverse_reverse]

theorem dropTail_append {xs ys : List α} (last : ∀ x ∈ xs.getLast?, p x = false)
    (all : ∀ y ∈ ys, p y = true) :
    dropTail p (xs ++ ys) = xs ∧ ((xs ++ ys).reverse.takeWhile p).reverse = ys := by
  have passed : ∀ y ∈ ys.reverse, p y = true := fun y member => all y (List.mem_reverse.mp member)
  have kept : xs.reverse.dropWhile p = xs.reverse := by
    cases backwards : xs.reverse with
    | nil => rfl
    | cons x rest =>
      have final : x ∈ xs.getLast? := by
        rw [List.getLast?_eq_head?_reverse, backwards]
        rfl
      exact List.dropWhile_cons_of_neg (by simp [last x final])
  have split : dropTail p (xs ++ ys) = xs := by
    rw [dropTail, List.reverse_append, List.dropWhile_append_of_pos passed, kept,
      List.reverse_reverse]
  refine ⟨split, ?_⟩
  have whole := dropTail_append_tail p (xs ++ ys)
  rw [split] at whole
  exact List.append_cancel_left whole

end Tails

namespace Pattern

variable {p : Pattern} {u v : List Char} {c : Char}

def admits (c : Char) : Pattern → Bool
  | nothing | blank => false
  | one accepts => accepts c
  | seq p q | alt p q => p.admits c || q.admits c
  | star p => p.admits c

/-- Can the character be the first of a text of the pattern? -/
def starts (c : Char) : Pattern → Bool
  | nothing | blank => false
  | one accepts => accepts c
  | seq p q => p.starts c || p.nullable && q.starts c
  | alt p q => p.starts c || q.starts c
  | star p => p.starts c

theorem admits_of_matches (matched : Matches p u) (member : c ∈ u) : p.admits c = true := by
  induction matched with
  | blank | starNil => cases member
  | one accepted =>
    cases List.mem_singleton.mp member
    exact accepted
  | seq _ _ ihFirst ihSecond =>
    rcases List.mem_append.mp member with first | second
    · simp [admits, ihFirst first]
    · simp [admits, ihSecond second]
  | left _ ih => simp [admits, ih member]
  | right _ ih => simp [admits, ih member]
  | starCons _ _ ihFirst ihOthers =>
    rcases List.mem_append.mp member with first | others
    · exact ihFirst first
    · exact ihOthers others

private theorem starts_of_matches (matched : Matches p (c :: u)) : p.starts c = true := by
  generalize text : c :: u = w at matched
  induction matched generalizing u with
  | blank | starNil => cases text
  | one accepted =>
    cases text
    exact accepted
  | @seq p q v w first _ ihFirst ihSecond =>
    cases v with
    | nil =>
      have empty := matches_nil_iff.mp first
      simp [starts, empty, ihSecond text]
    | cons d v =>
      cases text
      simp [starts, ihFirst rfl]
  | left _ ih => simp [starts, ih text]
  | right _ ih => simp [starts, ih text]
  | @starCons p v w _ _ ihFirst ihOthers =>
    cases v with
    | nil => exact ihOthers text
    | cons d v =>
      cases text
      exact ihFirst rfl

end Pattern

open Lexical

section Taken

variable {own after own' after' : List Char} {piece piece' : Piece} {reading : Reading}

theorem Lexical.FirstRule.exists_mem (first : FirstRule own reading) :
    ∃ p, (p, reading) ∈ rules ∧ p.Matches own := by
  obtain ⟨earlier, p, later, split, matched, -⟩ := first
  refine ⟨p, ?_, matched⟩
  rw [split]
  simp

theorem Lexical.FirstRule.taken (first : FirstRule own reading) (nonempty : own ≠ [])
    (stuck : ∀ d rest, after = d :: rest → ¬ Begins rules (own ++ [d])) :
    Taken own after (reading.piece own) := by
  refine .matched nonempty first ?_
  intro more some within r entry matched
  obtain ⟨d, more, rfl⟩ := List.exists_cons_of_ne_nil some
  obtain ⟨rest, rfl⟩ := within
  refine stuck d (more ++ rest) rfl ⟨r, entry, more, ?_⟩
  rwa [List.append_assoc]

private theorem eq_of_longest {more : List Char} (first : FirstRule own' reading)
    (longest : ∀ more, more ≠ [] → more <+: after → ∀ r ∈ rules, ¬ r.1.Matches (own ++ more))
    (longer : own' = own ++ more) (within : more <+: after) : more = [] := by
  by_contra nonempty
  obtain ⟨p, entry, matched⟩ := first.exists_mem
  exact longest more nonempty within _ entry (longer ▸ matched)

private theorem eq_of_stuck {more : List Char} (nonempty : own ≠ [])
    (begun : 1 < own'.length → Begins rules own')
    (stuck : ∀ c rest, after = c :: rest → ¬ Begins rules (own ++ [c]))
    (longer : own' = own ++ more) (split : after = more ++ after') : more = [] := by
  cases more with
  | nil => rfl
  | cons c more =>
    have several : 1 < own'.length := by
      have positive := List.length_pos_of_ne_nil nonempty
      rw [longer, List.length_append, List.length_cons]
      omega
    have start : own'.take (own.length + 1) = own ++ [c] := by
      rw [longer, List.take_length_add_append]
      rfl
    have begins := (begun several).take (n := own.length + 1)
    rw [start] at begins
    exact absurd begins (stuck c (more ++ after') split)

/-- From the front of a text only one piece can be taken. -/
theorem Taken.unique (taken : Taken own after piece) (other : Taken own' after' piece')
    (same : own ++ after = own' ++ after') : own = own' ∧ after = after' ∧ piece = piece' := by
  cases taken with
  | stray nonempty unmatched begun stuck =>
    cases other with
    | matched nonempty' first' longest' =>
      obtain ⟨p, entry, matched⟩ := first'.exists_mem
      exact absurd matched (unmatched own' nonempty' ⟨after', same.symm⟩ _ entry)
    | stray nonempty' unmatched' begun' stuck' =>
      have equal : own = own' := by
        rcases List.append_eq_append_iff.mp same with ⟨more, longer, split⟩ | ⟨more, longer, split⟩
        · have none := eq_of_stuck nonempty begun' stuck longer split
          rw [longer, none, List.append_nil]
        · have none := eq_of_stuck nonempty' begun stuck' longer split
          rw [longer, none, List.append_nil]
      subst equal
      exact ⟨rfl, List.append_cancel_left same, rfl⟩
  | @matched reading nonempty first longest =>
    obtain ⟨p, entry, matched⟩ := first.exists_mem
    cases other with
    | stray nonempty' unmatched =>
      exact absurd matched (unmatched own nonempty ⟨after, same⟩ _ entry)
    | @matched reading' nonempty' first' longest' =>
      have equal : own = own' := by
        rcases List.append_eq_append_iff.mp same with ⟨more, longer, split⟩ | ⟨more, longer, split⟩
        · have none := eq_of_longest first' longest longer ⟨after', split.symm⟩
          rw [longer, none, List.append_nil]
        · have none := eq_of_longest first longest' longer ⟨after, split.symm⟩
          rw [longer, none, List.append_nil]
      subst equal
      refine ⟨rfl, List.append_cancel_left same, ?_⟩
      rw [first.unique first']

theorem pieces_of_taken (offset : Nat) (taken : Taken own after piece) :
    pieces offset (own ++ after) = (piece, ⟨offset, offset + byteLength own⟩) ::
      pieces (offset + byteLength own) after := by
  obtain ⟨c, cs, rfl⟩ := List.exists_cons_of_ne_nil taken.nonempty
  cases found : firstPiece c (cs ++ after) with
  | mk other extra =>
    have split : c :: (cs ++ after).take extra ++ (cs ++ after).drop extra = c :: cs ++ after := by
      rw [List.cons_append, List.take_append_drop, List.cons_append]
    obtain ⟨front, rest, rfl⟩ := taken.unique (taken_firstPiece found) split.symm
    rw [List.cons_append, pieces]
    simp only [found]
    rw [← front, ← rest]

end Taken

/-- The text is read as the tokens, with nothing stray in it. -/
inductive Lexes : List Char → List Token → Prop where
  | nil : Lexes [] []
  | token {own after : List Char} {t : Token} {ts : List Token}
      (taken : Taken own after (.token t)) (others : Lexes after ts) : Lexes (own ++ after) (t :: ts)
  | gap {own after : List Char} {ts : List Token} (taken : Taken own after .gap)
      (others : Lexes after ts) : Lexes (own ++ after) ts

private theorem Lexes.pieces {cs : List Char} {ts : List Token} (lexes : Lexes cs ts)
    (offset : Nat) :
    ((Lockstep.pieces offset cs).filterMap Piece.lexeme?).map Lexeme.token = ts ∧
      (Lockstep.pieces offset cs).filterMap Piece.stray? = [] := by
  induction lexes generalizing offset with
  | nil =>
    rw [Lockstep.pieces]
    exact ⟨rfl, rfl⟩
  | @token own after t ts taken others ih =>
    obtain ⟨tokens, strays⟩ := ih (offset + byteLength own)
    rw [pieces_of_taken offset taken]
    exact ⟨congrArg (t :: ·) tokens, strays⟩
  | @gap own after ts taken others ih =>
    rw [pieces_of_taken offset taken]
    exact ih (offset + byteLength own)

theorem Lexes.lex {text : String} {ts : List Token} (lexes : Lexes text.toList ts) :
    (lex text).tokens.map Lexeme.token = ts ∧ (Lockstep.lex text).strays = [] := by
  rw [tokens_lex, strays_lex]
  exact lexes.pieces 0

namespace Lexical

open Pattern

def separators : List Char := [' ', ';', '(', ')']

/-- The characters are read as the token wherever a separator, or nothing, stands behind. -/
structure Spelled (cs : List Char) (t : Token) : Prop where
  opens : ∃ c rest, cs = c :: rest ∧ c ∉ blanks
  taken : ∀ after : List Char, (∀ d ∈ after.head?, d ∈ separators) → Taken cs after (.token t)

section Spellings

variable {c d : Char} {cs v : List Char} {t : Token}

private theorem starts_gap (begins : gap.starts c = true) : c ∈ blanks ∨ c = '/' ∨ c = '#' := by
  simpa [gap, alts, seqs, text, plus, oneOf, noneOf, starts, nullable, blanks] using begins

private theorem separator_value : ∀ r ∈ valueRules, (∀ d ∈ separators, r.1.admits d = false) ∨
    ∀ c, r.1.starts c = true → c = '\'' ∨ c = '"' := by
  intro r listed
  simp only [valueRules, List.mem_cons, List.not_mem_nil, or_false] at listed
  rcases listed with rfl | rfl | rfl | rfl | rfl | rfl | rfl | rfl
  · exact .inl (List.all_iff_forall_prop.mp (by decide))
  · exact .inl (List.all_iff_forall_prop.mp (by decide))
  · exact .inl (List.all_iff_forall_prop.mp (by decide))
  · exact .inl (List.all_iff_forall_prop.mp (by decide))
  · exact .inl (List.all_iff_forall_prop.mp (by decide))
  · refine .inr fun c begins => .inl ?_
    simpa [quotedBy, seqs, text, starts, nullable] using begins
  · refine .inr fun c begins => .inr ?_
    simpa [quotedBy, seqs, text, starts, nullable] using begins
  · exact .inl (List.all_iff_forall_prop.mp (by decide))

private theorem separator_fixed : ∀ s ∈ fixedSpellings, ∀ d ∈ separators, d ∉ s.1.toList.tail := by
  have apart : ∀ s ∈ fixedSpellings, separators.all (fun d => d ∉ s.1.toList.tail) = true := by
    decide +kernel
  exact fun s listed => List.all_iff_forall_prop.mp (apart s listed)

private theorem not_begins (separates : d ∈ separators) (quote : c ≠ '\'' ∧ c ≠ '"')
    (unskipped : ∀ v, ¬ gap.Matches (c :: cs ++ [d] ++ v)) :
    ¬ Begins rules (c :: cs ++ [d]) := by
  rintro ⟨r, entry, v, matched⟩
  simp only [rules, List.cons_append, List.mem_cons, List.mem_append, fixedRules_eq,
    List.mem_map] at entry
  rcases entry with rfl | ⟨s, listed, rfl⟩ | value
  · exact unskipped v matched
  · have spelling := matches_text_iff.mp matched
    apply separator_fixed s listed d separates
    rw [← spelling]
    simp
  · rcases separator_value r value with foreign | begins
    · have inside : d ∈ c :: cs ++ [d] ++ v := by simp
      have admitted := admits_of_matches matched inside
      rw [foreign d separates] at admitted
      cases admitted
    · rcases begins c (starts_of_matches matched) with rfl | rfl
      · exact quote.1 rfl
      · exact quote.2 rfl

private theorem fixed_opens : ∀ s ∈ fixedSpellings, ∃ c cs, s.1.toList = c :: cs ∧ c ∉ blanks ∧
    c ≠ '\'' ∧ c ≠ '"' := by
  have heads : ∀ s ∈ fixedSpellings, s.1.toList.head?.any fun c =>
      !blanks.contains c && c != '\'' && c != '"' := by decide +kernel
  intro s listed
  have head := heads s listed
  cases spelling : s.1.toList with
  | nil =>
    rw [spelling] at head
    cases head
  | cons c cs =>
    rw [spelling] at head
    refine ⟨c, cs, rfl, ?_⟩
    simpa [and_assoc] using head

private theorem fixed_unskipped : ∀ s ∈ fixedSpellings, ∀ d ∈ separators,
    (gap.behind (s.1.toList ++ [d])).isDead = true := by
  have dead : ∀ s ∈ fixedSpellings,
      separators.all (fun d => (gap.behind (s.1.toList ++ [d])).isDead) = true := by decide +kernel
  exact fun s listed => List.all_eq_true.mp (dead s listed)

theorem spelled_fixed {w : String} (listed : (w, t) ∈ fixedSpellings) : Spelled w.toList t := by
  obtain ⟨c, cs, spelling, visible, quote⟩ := fixed_opens (w, t) listed
  refine ⟨⟨c, cs, spelling, visible⟩, ?_⟩
  intro after separated
  apply (firstRule_of_fixed listed).taken
  · rw [spelling]
    simp
  · rintro d rest rfl
    have separates := separated d rfl
    have dead := fixed_unskipped (w, t) listed d separates
    rw [spelling] at dead ⊢
    apply not_begins separates quote
    intro v matched
    exact (gap_trim.isDead_behind_iff.mp dead) ⟨v, matched⟩

end Spellings

private theorem not_isDigit_of_isLetter {c : Char} (letter : isLetter c = true) :
    c.isDigit = false := by
  by_contra digit
  simp only [isLetter, Bool.or_eq_true, beq_iff_eq] at letter
  rcases letter with letter | rfl
  · delta Char.isAlpha Char.isUpper Char.isLower at letter
    grind [Char.isDigit]
  · exact digit rfl

end Lexical

/-- Letters, digits and underscores, no digit first, and no word of the language. -/
structure IsIdentifier (x : String) : Prop where
  opens : x.toList.head?.any Lexical.isLetter = true
  words : x.toList.all Lexical.isWordChar = true
  free : ∀ s ∈ Lexical.fixedSpellings, s.1 ≠ x

instance (x : String) : Decidable (IsIdentifier x) :=
  decidable_of_iff (x.toList.head?.any Lexical.isLetter = true ∧
      x.toList.all Lexical.isWordChar = true ∧ ∀ s ∈ Lexical.fixedSpellings, s.1 ≠ x)
    ⟨fun h => ⟨h.1, h.2.1, h.2.2⟩, fun h => ⟨h.opens, h.words, h.free⟩⟩

theorem IsIdentifier.exists_cons {x : String} (identifier : IsIdentifier x) :
    ∃ c cs, x.toList = c :: cs ∧ Lexical.isLetter c = true ∧
      ∀ d ∈ cs, Lexical.isWordChar d = true := by
  have opens := identifier.opens
  have words := identifier.words
  cases spelling : x.toList with
  | nil =>
    rw [spelling] at opens
    cases opens
  | cons c cs =>
    rw [spelling] at opens words
    rw [List.all_cons, Bool.and_eq_true, List.all_eq_true] at words
    exact ⟨c, cs, rfl, opens, words.2⟩

namespace Lexical

open Pattern

section Values

variable {c : Char} {cs v : List Char} {t : Token}

private theorem foreign_of_isWordChar (word : isWordChar c = true) :
    c ∉ blanks ++ ['/', '#', '.', '\'', '"'] := by
  have none : ∀ d ∈ blanks ++ ['/', '#', '.', '\'', '"'], isWordChar d = false :=
    List.all_iff_forall_prop.mp (by decide)
  intro listed
  rw [none c listed] at word
  cases word

private theorem unskipped_of_isWordChar (word : isWordChar c = true) : ¬ gap.Matches (c :: v) := by
  intro matched
  have foreign := foreign_of_isWordChar word
  simp only [List.mem_append, List.mem_cons, not_or] at foreign
  rcases starts_gap (starts_of_matches matched) with blank | slash | sharp
  · exact foreign.1 blank
  · exact foreign.2.1 slash
  · exact foreign.2.2.1 sharp

private theorem spelled_of_firstRule {reading : Reading} (word : isWordChar c = true)
    (first : FirstRule (c :: cs) reading) (value : reading.piece (c :: cs) = .token t) :
    Spelled (c :: cs) t := by
  have foreign := foreign_of_isWordChar word
  simp only [List.mem_append, List.mem_cons, not_or] at foreign
  refine ⟨⟨c, cs, rfl, foreign.1⟩, ?_⟩
  intro after separated
  rw [← value]
  apply first.taken (by simp)
  rintro d rest rfl
  exact not_begins (separated d rfl) ⟨foreign.2.2.2.2.1, foreign.2.2.2.2.2.1⟩
    fun v => unskipped_of_isWordChar word

private theorem starts_value : ∀ r ∈ valueRules.take 7, r.1.starts c = true →
    c.isDigit = true ∨ c ∈ ['.', '\'', '"'] := by
  intro r listed begins
  simp only [valueRules, List.take, List.mem_cons, List.not_mem_nil, or_false] at listed
  rcases listed with rfl | rfl | rfl | rfl | rfl | rfl | rfl <;>
    simp [seqs, text, plus, digit, oneOf, quotedBy, starts, nullable] at begins <;> simp [begins]

private theorem firstRule_ident {x : String} (identifier : IsIdentifier x) :
    FirstRule x.toList (.token fun cs => some (.ident (String.ofList cs))) := by
  obtain ⟨c, cs, spelling, first, others⟩ := identifier.exists_cons
  have word : isWordChar c = true := by simp [isWordChar, first]
  refine ⟨(gap, .skip) :: fixedRules ++ valueRules.take 7, seq letter (star (alt letter digit)), [],
    by simp [rules, valueRules], ?_, ?_⟩
  · rw [spelling]
    exact .seq (.one first) (matches_wordChars_iff.mpr others)
  · intro r earlier matched
    simp only [List.cons_append, List.mem_cons, List.mem_append, fixedRules_eq,
      List.mem_map] at earlier
    rcases earlier with rfl | ⟨s, listed, rfl⟩ | value
    · rw [spelling] at matched
      exact unskipped_of_isWordChar word matched
    · exact identifier.free s listed (String.toList_inj.mp (matches_text_iff.mp matched)).symm
    · rw [spelling] at matched
      rcases starts_value r value (starts_of_matches matched) with digit | strange
      · rw [not_isDigit_of_isLetter first] at digit
        cases digit
      · exact foreign_of_isWordChar word (by simp at strange ⊢; tauto)

theorem spelled_ident {x : String} (identifier : IsIdentifier x) : Spelled x.toList (.ident x) := by
  obtain ⟨c, cs, spelling, first, -⟩ := identifier.exists_cons
  have rule := firstRule_ident identifier
  rw [spelling] at rule ⊢
  apply spelled_of_firstRule (by simp [isWordChar, first]) rule
  simp [Reading.piece, ← spelling]

private theorem fixed_undigited :
    ∀ s ∈ fixedSpellings, s.1.toList.head?.any Char.isDigit = false := by
  decide +kernel

private theorem exists_second {p q : Pattern} {ps : List Pattern}
    (matched : (seqs (p :: q :: ps)).Matches cs) : ∃ w, q.Matches w ∧ ∀ d ∈ w, d ∈ cs := by
  obtain ⟨u, v, rfl, -, others⟩ := matches_seqs_cons_iff.mp matched
  obtain ⟨w, z, rfl, second, -⟩ := matches_seqs_cons_iff.mp others
  refine ⟨w, second, ?_⟩
  intro d inside
  simp [inside]

theorem not_matches_of_isDigit (digit : c.isDigit = true) :
    ∀ r ∈ (gap, Reading.skip) :: fixedRules, ¬ r.1.Matches (c :: cs) := by
  intro r earlier matched
  simp only [List.mem_cons, fixedRules_eq, List.mem_map] at earlier
  rcases earlier with rfl | ⟨s, listed, rfl⟩
  · exact unskipped_of_isWordChar (by simp [isWordChar, digit]) matched
  · have none := fixed_undigited s listed
    rw [← matches_text_iff.mp matched, List.head?_cons, Option.any_some, digit] at none
    cases none

theorem not_matches_pointed (free : '.' ∉ cs) : ∀ r ∈ valueRules.take 2, ¬ r.1.Matches cs := by
  intro r listed matched
  simp only [valueRules, List.take, List.mem_cons, List.not_mem_nil, or_false] at listed
  rcases listed with rfl | rfl
  · obtain ⟨w, point, inside⟩ := exists_second matched
    rw [matches_text_iff] at point
    exact free (inside '.' (by simp [point]))
  · obtain ⟨u, v, rfl, point, -⟩ := matches_seqs_cons_iff.mp matched
    rw [matches_text_iff] at point
    exact free (by simp [point])

theorem firstRule_digits {u v : List Char} (nonempty : u ≠ [])
    (digits : ∀ d ∈ u, d.isDigit = true) (letters : ∀ d ∈ v, d ∈ "uUlL".toList) :
    FirstRule (u ++ v) (.integer 10 0) := by
  have foreign : ∀ d ∈ ['.', 'e', 'E', 'x', 'X'], d ∉ u ++ v := by
    have none : ∀ d ∈ ['.', 'e', 'E', 'x', 'X'], d.isDigit = false ∧ d ∉ "uUlL".toList :=
      List.all_iff_forall_prop.mp (by decide)
    intro d listed inside
    rcases List.mem_append.mp inside with digit | letter
    · have given := digits d digit
      rw [(none d listed).1] at given
      cases given
    · exact (none d listed).2 (letters d letter)
  refine ⟨((gap, .skip) :: fixedRules) ++ valueRules.take 4, seq (plus digit) intSuffix,
    valueRules.drop 5, by simp [rules, valueRules], ?_, ?_⟩
  · refine .seq (matches_plus_one_iff.mpr ⟨nonempty, digits⟩) (matches_star_one_iff.mpr ?_)
    exact fun d member => List.contains_iff_mem.mpr (letters d member)
  · intro r earlier matched
    rcases List.mem_append.mp earlier with fixed | value
    · obtain ⟨c, u, rfl⟩ := List.exists_cons_of_ne_nil nonempty
      exact not_matches_of_isDigit (digits c List.mem_cons_self) r fixed matched
    · rw [show valueRules.take 4 = valueRules.take 2 ++ (valueRules.drop 2).take 2 from rfl,
        List.mem_append] at value
      rcases value with pointed | value
      · exact not_matches_pointed (foreign '.' (by simp)) r pointed matched
      -- The other kinds of number that come earlier have a letter that is in no suffix.
      simp only [valueRules, List.drop, List.take, List.mem_cons, List.not_mem_nil,
        or_false] at value
      rcases value with rfl | rfl
      · obtain ⟨w, power, inside⟩ := exists_second matched
        obtain ⟨u, v, rfl, mark, -⟩ := matches_seqs_cons_iff.mp power
        obtain ⟨e, listed, rfl⟩ := matches_one_iff.mp mark
        exact foreign e (by simp at listed ⊢; tauto) (inside e (by simp))
      · obtain ⟨w, mark, inside⟩ := exists_second matched
        obtain ⟨x, listed, rfl⟩ := matches_one_iff.mp mark
        exact foreign x (by simp at listed ⊢; tauto) (inside x (by simp))

theorem numeral_eq_ofDigitChars (digits : ∀ d ∈ cs, d.isDigit = true) :
    numeral 10 cs = Nat.ofDigitChars 10 cs 0 := by
  rw [Nat.ofDigitChars_eq_foldl, numeral]
  apply List.foldl_ext
  intro n d inside
  simp only [digitValue, digits d inside, if_true, Nat.mul_comm]

theorem dropTail_suffix {u v : List Char} (digits : ∀ d ∈ u, d ∉ "uUlL".toList)
    (letters : ∀ d ∈ v, d ∈ "uUlL".toList) :
    dropTail (fun c => "uUlL".toList.contains c) (u ++ v) = u := by
  refine (dropTail_append (fun d last => ?_) fun d member => ?_).1
  · rw [Bool.eq_false_iff, ne_eq, List.contains_iff_mem]
    exact digits d (List.mem_of_getLast? last)
  · exact List.contains_iff_mem.mpr (letters d member)

theorem spelled_int {n : Nat} (small : n < Nat.pow 2 64) :
    Spelled (toString n).toList (.int n) := by
  have written : (toString n).toList = Nat.toDigits 10 n := by
    rw [Nat.toString_eq_ofList_toDigits, String.toList_ofList]
  have digits : ∀ d ∈ Nat.toDigits 10 n, d.isDigit = true :=
    fun d inside => Nat.isDigit_of_mem_toDigits (by decide) (by decide) inside
  have nonempty : Nat.toDigits 10 n ≠ [] := Nat.toDigits_ne_nil
  have kept : dropTail (fun c => "uUlL".toList.contains c) (Nat.toDigits 10 n) =
      Nat.toDigits 10 n := by
    have undigited : ∀ d ∈ "uUlL".toList, d.isDigit = false :=
      List.all_iff_forall_prop.mp (by decide)
    have whole := dropTail_suffix (u := Nat.toDigits 10 n) (v := []) (fun d inside letter => by
      have digit := digits d inside
      rw [undigited d letter] at digit
      cases digit) (by simp)
    rwa [List.append_nil] at whole
  have value : (Reading.integer 10 0).piece (Nat.toDigits 10 n) = .token (.int n) := by
    simp only [Reading.piece, Reading.integer, List.drop_zero, kept,
      numeral_eq_ofDigitChars digits, Nat.ofDigitChars_ten_toDigits, small, if_true]
    rfl
  have rule := firstRule_digits (v := []) nonempty digits (by simp)
  rw [List.append_nil] at rule
  rw [written]
  cases text : Nat.toDigits 10 n with
  | nil => exact absurd text nonempty
  | cons c cs =>
    rw [text] at digits rule value
    have first := digits c List.mem_cons_self
    exact spelled_of_firstRule (by simp [isWordChar, first]) rule value

end Values

section Spaced

variable {cs after : List Char} {t : Token} {ts us : List Token}

private theorem not_starts_blank :
    ∀ r ∈ fixedRules ++ valueRules, ∀ c ∈ blanks, r.1.starts c = false := by
  have none : ∀ r ∈ fixedRules ++ valueRules, blanks.all (fun c => r.1.starts c = false) = true := by
    decide +kernel
  exact fun r entry => List.all_iff_forall_prop.mp (none r entry)

theorem taken_blanks {u : List Char} (nonempty : u ≠ []) (all : ∀ c ∈ u, c ∈ blanks)
    (ended : ∀ c ∈ after.head?, c ∉ blanks) : Taken u after .gap := by
  have first : FirstRule u .skip :=
    ⟨[], gap, fixedRules ++ valueRules, rfl, matches_gap_iff.mpr (.blanks nonempty all), by simp⟩
  apply first.taken nonempty
  rintro d rest rfl ⟨r, entry, v, matched⟩
  obtain ⟨c, u, rfl⟩ := List.exists_cons_of_ne_nil nonempty
  have blank : c ∈ blanks := all c List.mem_cons_self
  rcases List.mem_cons.mp entry with rfl | entry
  · generalize whole : c :: u ++ [d] ++ v = w at matched
    cases matches_gap_iff.mp matched with
    | blanks nonempty' all' => exact ended d rfl (all' d (by simp [← whole]))
    | line | block | directive =>
      obtain ⟨rfl, _⟩ := List.cons.inj whole
      exact absurd blank (by decide)
  · have begins := starts_of_matches matched
    rw [not_starts_blank r entry c blank] at begins
    cases begins

private theorem taken_blank {c : Char} (visible : c ∉ blanks) : Taken [' '] (c :: cs) .gap := by
  refine taken_blanks (by simp) (List.all_iff_forall_prop.mp (by decide)) ?_
  intro d first
  cases first
  exact visible

theorem separated_cons {d : Char} (listed : d ∈ separators) :
    ∀ e ∈ (d :: cs).head?, e ∈ separators := by
  intro e first
  cases first
  exact listed

theorem Spelled.lexes (spelled : Spelled cs t) (separated : ∀ d ∈ after.head?, d ∈ separators)
    (others : Lexes after ts) : Lexes (cs ++ after) (t :: ts) :=
  .token (spelled.taken after separated) others

theorem lexes_blank (opens : ∃ c rest, cs = c :: rest ∧ c ∉ blanks) (others : Lexes cs ts) :
    Lexes (' ' :: cs) ts := by
  obtain ⟨c, rest, rfl, visible⟩ := opens
  exact .gap (taken_blank visible) others

theorem Spelled.lexes_blank (spelled : Spelled cs t) (others : Lexes (cs ++ after) ts) :
    Lexes (' ' :: (cs ++ after)) ts := by
  obtain ⟨c, rest, rfl, visible⟩ := spelled.opens
  exact .gap (taken_blank visible) others

/-- Tokens with blanks between, in front of a separator. -/
theorem lexes_spaced {spelling : Token → String}
    (each : ∀ t ∈ ts, Spelled (spelling t).toList t) (nonempty : ts ≠ [])
    (separated : ∀ d ∈ after.head?, d ∈ separators) (others : Lexes after us) :
    Lexes ([' '].intercalate (ts.map fun t => (spelling t).toList) ++ after) (ts ++ us) ∧
      ∃ c rest, [' '].intercalate (ts.map fun t => (spelling t).toList) ++ after = c :: rest ∧
        c ∉ blanks := by
  induction ts with
  | nil => exact absurd rfl nonempty
  | cons t ts ih =>
    have first := each t List.mem_cons_self
    obtain ⟨c, front, spelled, visible⟩ := first.opens
    cases ts with
    | nil =>
      rw [List.map_singleton, List.intercalate_singleton]
      refine ⟨first.lexes separated others, ?_⟩
      rw [spelled]
      exact ⟨c, _, rfl, visible⟩
    | cons s ts =>
      obtain ⟨rest, opens⟩ := ih (fun t later => each t (List.mem_cons_of_mem _ later)) (by simp)
      have blank := lexes_blank opens rest
      rw [List.map_cons, List.map_cons, List.intercalate_cons_cons, List.append_assoc,
        List.append_assoc]
      refine ⟨first.lexes (separated_cons (by decide)) blank, ?_⟩
      rw [spelled]
      exact ⟨c, _, rfl, visible⟩

end Spaced

end Lexical

end Lockstep
