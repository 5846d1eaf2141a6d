import Lockstep.Proofs.Token.Spelled
/-!
Integer literals. Digits of a base, leading zeros or not, are read as the number that they are in
that base, whatever suffix follows. A number that does not fit into 64 bits makes the whole literal
stray.
-/

set_option autoImplicit false
set_option relaxedAutoImplicit false

namespace Lockstep

/-- The character is the digit of that value in the base; letters may be small or capital. -/
def DigitOf (base value : Nat) (c : Char) : Prop :=
  value < base ∧ (c = Nat.digitChar value ∨ c = (Nat.digitChar value).toUpper)

instance (base value : Nat) (c : Char) : Decidable (DigitOf base value c) :=
  inferInstanceAs (Decidable (_ ∧ _))

/-- All of the text is one integer, or one stray piece where the value takes more than 64 bits. -/
def ReadsInteger (text : String) (value : Nat) : Prop :=
  lex text = if value < Nat.pow 2 64 then ⟨[⟨.int value, ⟨0, text.utf8ByteSize⟩⟩], []⟩
    else ⟨[], [(⟨0, text.utf8ByteSize⟩, text)]⟩

section Digits

variable {base value : Nat} {c : Char} {ks : List Nat} {u : List Char}

private theorem DigitOf.digitValue_eq (digit : DigitOf base value c) (most : base ≤ 16) :
    digitValue c = value := by
  have all : ∀ k < 16, digitValue (Nat.digitChar k) = k ∧
      digitValue (Nat.digitChar k).toUpper = k := by decide
  obtain ⟨small, rfl | rfl⟩ := digit
  · exact (all value (by omega)).1
  · exact (all value (by omega)).2

theorem DigitOf.isDigit (digit : DigitOf 10 value c) : c.isDigit = true := by
  have all : ∀ k < 10, (Nat.digitChar k).isDigit = true ∧
      (Nat.digitChar k).toUpper.isDigit = true := by decide
  obtain ⟨small, rfl | rfl⟩ := digit
  · exact (all value small).1
  · exact (all value small).2

private theorem DigitOf.mem_hexDigits (digit : DigitOf 16 value c) :
    c ∈ "0123456789abcdefABCDEF".toList := by
  have all : ∀ k < 16, Nat.digitChar k ∈ "0123456789abcdefABCDEF".toList ∧
      (Nat.digitChar k).toUpper ∈ "0123456789abcdefABCDEF".toList := by decide
  obtain ⟨small, rfl | rfl⟩ := digit
  · exact (all value small).1
  · exact (all value small).2

private theorem numeral_eq_ofDigits (most : base ≤ 16)
    (spelled : List.Forall₂ (DigitOf base) ks u) :
    numeral base u = Nat.ofDigits base ks.reverse := by
  -- What was read before counts once more for every digit that follows.
  have shifted (n : Nat) : u.foldl (fun n c => n * base + digitValue c) n =
      Nat.ofDigits base (ks.reverse ++ [n]) := by
    induction spelled generalizing n with
    | nil => simp
    | @cons k d ks u first others ih =>
      have both : Nat.ofDigits base [k, n] = n * base + digitValue d := by
        rw [Nat.ofDigits_cons, Nat.ofDigits_singleton, first.digitValue_eq most, Nat.mul_comm,
          Nat.add_comm]
      rw [List.foldl_cons, ih, List.reverse_cons, List.append_assoc, Nat.ofDigits_append,
        Nat.ofDigits_append, List.singleton_append, both, Nat.ofDigits_singleton]
  rw [numeral, shifted, Nat.ofDigits_append, Nat.ofDigits_singleton, Nat.mul_zero, Nat.add_zero]

private theorem forall_of_digits {P : Char → Prop} (spelled : List.Forall₂ (DigitOf base) ks u)
    (each : ∀ k d, DigitOf base k d → P d) : ∀ d ∈ u, P d := by
  induction spelled with
  | nil => simp
  | cons first _ ih => exact List.forall_mem_cons.mpr ⟨each _ _ first, ih⟩

end Digits

namespace Lexical

open Pattern

private theorem firstRule_hexDigits {x : Char} {u v : List Char} (mark : x ∈ "xX".toList)
    (nonempty : u ≠ []) (digits : ∀ d ∈ u, d ∈ "0123456789abcdefABCDEF".toList)
    (letters : ∀ d ∈ v, d ∈ "uUlL".toList) :
    FirstRule ('0' :: x :: (u ++ v)) (.integer 16 2) := by
  refine ⟨((gap, .skip) :: fixedRules) ++ valueRules.take 3,
    seqs [text "0", oneOf "xX", plus (oneOf "0123456789abcdefABCDEF"), intSuffix],
    valueRules.drop 4, by simp [rules, valueRules], ?_, ?_⟩
  · refine .seq (u := ['0']) (matches_text_iff.mpr rfl) (.seq (u := [x]) (.one ?_) (.seq ?_ ?_))
    · exact List.contains_iff_mem.mpr mark
    · refine matches_plus_one_iff.mpr ⟨nonempty, fun d member => ?_⟩
      exact List.contains_iff_mem.mpr (digits d member)
    · rw [← List.append_nil v]
      refine .seq (matches_star_one_iff.mpr fun d member => ?_) .blank
      exact List.contains_iff_mem.mpr (letters d member)
  · intro r earlier matched
    rcases List.mem_append.mp earlier with fixed | value
    · exact not_matches_of_isDigit rfl r fixed matched
    · rw [show valueRules.take 3 = valueRules.take 2 ++ (valueRules.drop 2).take 1 from rfl,
        List.mem_append] at value
      rcases value with pointed | scaled
      · refine not_matches_pointed ?_ r pointed matched
        intro point
        simp only [List.mem_cons, List.mem_append] at point
        rcases point with zero | rfl | digit | letter
        · exact absurd zero (by decide)
        · exact absurd mark (by decide)
        · exact absurd (digits '.' digit) (by decide)
        · exact absurd (letters '.' letter) (by decide)
      · -- The digits in front of a power of ten end at the mark, which is no `e`.
        simp only [valueRules, List.drop, List.take, List.mem_singleton] at scaled
        subst scaled
        obtain ⟨front, rest, split, whole, power⟩ := matches_seqs_cons_iff.mp matched
        obtain ⟨some, zeros⟩ := matches_plus_one_iff.mp whole
        have unmarked : ∀ y ∈ "xX".toList, y.isDigit = false ∧ y ∉ "eE".toList :=
          List.all_iff_forall_prop.mp (by decide)
        cases front with
        | nil => exact some rfl
        | cons c front =>
          obtain ⟨rfl, behind⟩ := List.cons.inj split
          cases front with
          | cons d front =>
            obtain ⟨rfl, -⟩ := List.cons.inj behind
            have digit := zeros x (by simp)
            rw [(unmarked x mark).1] at digit
            cases digit
          | nil =>
            obtain ⟨w, z, rfl, exponent, -⟩ := matches_seqs_cons_iff.mp power
            obtain ⟨w, y, rfl, sign, -⟩ := matches_seqs_cons_iff.mp exponent
            obtain ⟨e, listed, rfl⟩ := matches_one_iff.mp sign
            obtain ⟨rfl, -⟩ := List.cons.inj behind
            exact (unmarked x mark).2 (List.contains_iff_mem.mp listed)

end Lexical

open Lexical

private theorem lex_of_taken {text : String} {piece : Piece} (taken : Taken text.toList [] piece) :
    lex text = ⟨(Piece.lexeme? (piece, ⟨0, text.utf8ByteSize⟩)).toList,
      (Piece.stray? (piece, ⟨0, text.utf8ByteSize⟩)).toList⟩ := by
  have whole := pieces_of_taken 0 taken
  rw [List.append_nil, Nat.zero_add, pieces, byteLength_eq_utf8Len, String.utf8Len_toList] at whole
  have tokens := tokens_lex text
  have strays := strays_lex text
  rw [whole] at tokens strays
  cases read : lex text with
  | mk ts ss =>
    rw [read] at tokens strays
    simp only at tokens strays
    rw [tokens, strays]
    cases piece <;> rfl

private theorem readsInteger_of_firstRule {text : String} {base : Nat} (lead : Nat) {ks : List Nat}
    {u : List Char} (first : FirstRule text.toList (.integer base lead)) (nonempty : text.toList ≠ [])
    (cut : dropTail (fun c => "uUlL".toList.contains c) (text.toList.drop lead) = u)
    (most : base ≤ 16) (spelled : List.Forall₂ (DigitOf base) ks u) :
    ReadsInteger text (Nat.ofDigits base ks.reverse) := by
  have taken : Taken text.toList [] _ := first.taken nonempty (by simp)
  rw [ReadsInteger, lex_of_taken taken, ← numeral_eq_ofDigits most spelled, ← cut]
  simp only [Reading.piece, Reading.integer]
  split
  · rfl
  · simp [Piece.lexeme?, Piece.stray?]

/-- Decimal digits, and hexadecimal digits behind their marks, with any suffix are one integer of
their value if that is below `2 ^ 64`; otherwise there is no token, and the literal with its suffix
is one stray piece. -/
theorem integers_read_exactly (ks : List Nat) (u v : List Char) (nonempty : ks ≠ [])
    (letters : ∀ c ∈ v, c ∈ ['u', 'U', 'l', 'L']) :
    (List.Forall₂ (DigitOf 10) ks u →
      ReadsInteger (String.ofList (u ++ v)) (Nat.ofDigits 10 ks.reverse)) ∧
    (List.Forall₂ (DigitOf 16) ks u → ∀ x ∈ ['x', 'X'],
      ReadsInteger (String.ofList ('0' :: x :: (u ++ v))) (Nat.ofDigits 16 ks.reverse)) := by
  have some {base : Nat} (spelled : List.Forall₂ (DigitOf base) ks u) : u ≠ [] := by
    rintro rfl
    cases spelled
    exact nonempty rfl
  constructor
  · intro spelled
    have digits := forall_of_digits spelled fun _ _ => DigitOf.isDigit
    have apart : ∀ d ∈ "uUlL".toList, d.isDigit = false := List.all_iff_forall_prop.mp (by decide)
    have text : (String.ofList (u ++ v)).toList = u ++ v := String.toList_ofList
    refine readsInteger_of_firstRule 0 ?_ ?_ ?_ (by omega) spelled
    · rw [text]
      exact firstRule_digits (some spelled) digits letters
    · simp [some spelled]
    · rw [text]
      refine dropTail_suffix (fun d digit letter => ?_) letters
      have both := digits d digit
      rw [apart d letter] at both
      cases both
  · intro spelled x mark
    have digits := forall_of_digits spelled fun _ _ => DigitOf.mem_hexDigits
    have apart : ∀ d ∈ "uUlL".toList, d ∉ "0123456789abcdefABCDEF".toList :=
      List.all_iff_forall_prop.mp (by decide)
    have text : (String.ofList ('0' :: x :: (u ++ v))).toList = '0' :: x :: (u ++ v) :=
      String.toList_ofList
    refine readsInteger_of_firstRule 2 ?_ (by simp) ?_ (by omega) spelled
    · rw [text]
      exact firstRule_hexDigits mark (some spelled) digits letters
    · rw [text]
      exact dropTail_suffix (fun d digit letter => apart d letter (digits d digit)) letters

/-- The greatest number of 64 bits behind a zero, and one more in both bases. -/
theorem integers_read_exactly_at_limit :
    ReadsInteger "018446744073709551615uL" 18446744073709551615 ∧
    ReadsInteger "18446744073709551616" 18446744073709551616 ∧
    ReadsInteger "0xffffFFFFffffFFFF" 18446744073709551615 ∧
    ReadsInteger "0X10000000000000000l" 18446744073709551616 := by
  have greatest := integers_read_exactly
    [0, 1, 8, 4, 4, 6, 7, 4, 4, 0, 7, 3, 7, 0, 9, 5, 5, 1, 6, 1, 5] "018446744073709551615".toList
    ['u', 'L'] (by simp) (by simp)
  have next := integers_read_exactly
    [1, 8, 4, 4, 6, 7, 4, 4, 0, 7, 3, 7, 0, 9, 5, 5, 1, 6, 1, 6] "18446744073709551616".toList []
    (by simp) (by simp)
  have letters := integers_read_exactly (List.replicate 16 15) "ffffFFFFffffFFFF".toList [] (by simp)
    (by simp)
  have power := integers_read_exactly (1 :: List.replicate 16 0) "10000000000000000".toList ['l']
    (by simp) (by simp)
  refine ⟨?_, ?_, ?_, ?_⟩
  · exact greatest.1 (by decide)
  · exact next.1 (by decide)
  · exact letters.2 (by decide) 'x' (by simp)
  · exact power.2 (by decide) 'X' (by simp)

end Lockstep
