import Lockstep.Proofs.Json.Spelling
import Mathlib.Data.Bool.AllAny
/-!
What the readers make of a text that spells a value. Each reader takes the whole spelling, whatever
blanks and escapes it uses, and stops in front of what stands behind it.
-/

set_option autoImplicit false
set_option relaxedAutoImplicit false

namespace Lockstep

namespace JsonReader

open Lockstep.Json

variable {α σ ι : Type}

def Ends (rest : List Char) : Prop :=
  ∀ c ∈ rest.head?, c ∈ [' ', '\n', '\t', '\r', ',', ']', '\x7d']

/-- The reader takes every spelling of the value and returns `a` for it. -/
def Reads (read : JsonReader α) (v : Json) (a : α) : Prop :=
  ∀ ⦃before text rest : List Char⦄, Blanks before → Spelling v text → Ends rest →
    read (before ++ (text ++ rest)) = .ok (a, rest)

private theorem skipBlanks_append {before cs : List Char} (blank : Blanks before) :
    skipBlanks (before ++ cs) = skipBlanks cs :=
  List.dropWhile_append_of_pos blank

private theorem skipBlanks_cons {c : Char} {cs : List Char} (visible : isBlank c = false) :
    skipBlanks (c :: cs) = c :: cs :=
  List.dropWhile_cons_of_neg (by rw [← isBlank, visible]; decide)

theorem Reads.spelled {read : JsonReader α} {v : Json} {a : α} (reads : Reads read v a)
    {text rest : List Char} (spelled : Spelling v text) (ends : Ends rest) :
    read (text ++ rest) = .ok (a, rest) :=
  reads blanks_nil spelled ends

theorem Reads.through {read : JsonReader α} {v : Json} {a : α} (reads : Reads read v a)
    (f : α → σ) : Reads (fun cs => read cs >>= fun r => pure (f r.1, r.2)) v (f a) := by
  intro before text rest blank spelled ends
  simp only [reads blank spelled ends, bind, pure, Except.bind, Except.pure]

theorem skipBlanks_of_visible {before cs : List Char} {c : Char} (blank : Blanks before)
    (visible : isBlank c = false) : skipBlanks (before ++ c :: cs) = c :: cs := by
  rw [skipBlanks_append blank, skipBlanks_cons visible]

theorem Ends.cons {c : Char} {rest : List Char}
    (listed : c ∈ [' ', '\n', '\t', '\r', ',', ']', '\x7d']) : Ends (c :: rest) := by
  intro d first
  obtain rfl : c = d := Option.some.inj first
  exact listed

theorem Ends.append {b rest : List Char} (blank : Blanks b) (ends : Ends rest) : Ends (b ++ rest) := by
  cases b with
  | nil => exact ends
  | cons c b =>
    have space := blank c List.mem_cons_self
    simp only [isBlank, Bool.or_eq_true, beq_iff_eq] at space
    rcases space with ((rfl | rfl) | rfl) | rfl <;> exact .cons (by decide)

/-! ### Strings -/

private theorem hexFour_append {ds cs : List Char} {n : Nat} (four : FourHex ds n) :
    hexFour (ds ++ cs) = .ok n := by
  have front : (ds ++ cs).take 4 = ds := by
    rw [← four.length]
    exact List.take_left
  have hex : (ds.all fun c => c.isDigit || ('a' ≤ c && c ≤ 'f') || ('A' ≤ c && c ≤ 'F')) = true :=
    List.all_eq_true.mpr four.digits
  simp only [hexFour, front, four.length, hex, four.value]
  rfl

private theorem isTrailing_toNat (c : Char) : isTrailing c.toNat = false := by
  have valid : c.toNat.isValidChar := c.valid
  simp only [isTrailing, Bool.and_eq_false_iff, decide_eq_false_iff_not]
  unfold Nat.isValidChar at valid
  omega

private theorem isLeading_toNat (c : Char) : isLeading c.toNat = false := by
  have valid : c.toNat.isValidChar := c.valid
  simp only [isLeading, Bool.and_eq_false_iff, decide_eq_false_iff_not]
  unfold Nat.isValidChar at valid
  omega

private theorem unicodeEscape_code {c : Char} {ds cs : List Char} (four : FourHex ds c.toNat) :
    unicodeEscape (ds ++ cs) = .ok (c, 4) := by
  simp only [unicodeEscape, hexFour_append four, isTrailing_toNat, isLeading_toNat, bind, pure,
    Except.bind, Except.pure, Bool.false_eq_true, if_false, Char.ofNat_toNat]

private theorem unicodeEscape_pair {c : Char} {ds es cs : List Char} {n m : Nat}
    (first : FourHex ds n)
    (leading : isLeading n = true) (second : FourHex es m) (trailing : isTrailing m = true)
    (value : c.toNat = (n - 0xD800) * 0x400 + (m - 0xDC00) + 0x10000) :
    unicodeEscape (ds ++ '\\' :: 'u' :: (es ++ cs)) = .ok (c, 10) := by
  have behind : (ds ++ '\\' :: 'u' :: (es ++ cs)).drop 4 = '\\' :: 'u' :: (es ++ cs) := by
    rw [← first.length]
    exact List.drop_left
  have apart : isTrailing n = false := by
    simp only [isLeading, isTrailing, Bool.and_eq_true, Bool.and_eq_false_iff, decide_eq_true_eq,
      decide_eq_false_iff_not] at leading ⊢
    omega
  simp only [unicodeEscape, hexFour_append first, apart, leading, behind, hexFour_append second,
    trailing, bind, pure, Except.bind, Except.pure, Bool.false_eq_true, if_false, if_true,
    ← value, Char.ofNat_toNat]

private theorem stringChars_escape {c : Char} {mark cs ds rest : List Char}
    (stands : escape (mark ++ cs) = .ok (c, mark.length)) (others : stringChars cs = .ok (ds, rest)) :
    stringChars ('\\' :: mark ++ cs) = .ok (c :: ds, rest) := by
  have behind : (mark ++ cs).drop mark.length = cs := List.drop_left
  rw [List.cons_append, stringChars, if_neg (by decide), if_pos rfl, stands]
  simp only [behind, others]

private theorem stringChars_append {c : Char} {piece cs ds rest : List Char}
    (spelled : CharSpelling c piece)
    (others : stringChars cs = .ok (ds, rest)) : stringChars (piece ++ cs) = .ok (c :: ds, rest) := by
  cases spelled with
  | plain quote backslash visible =>
    rw [List.singleton_append, stringChars, if_neg quote, if_neg backslash,
      if_neg (Nat.not_lt.mpr visible), others]
  | @short mark _ listed =>
    have stands : escape ([mark] ++ cs) = .ok (c, 1) := by
      simp only [shortEscapes, List.mem_cons, Prod.mk.injEq, List.not_mem_nil, or_false] at listed
      rcases listed with ⟨rfl, rfl⟩ | ⟨rfl, rfl⟩ | ⟨rfl, rfl⟩ | ⟨rfl, rfl⟩ | ⟨rfl, rfl⟩ |
        ⟨rfl, rfl⟩ | ⟨rfl, rfl⟩ | ⟨rfl, rfl⟩ <;> rfl
    exact stringChars_escape stands others
  | @code _ hex four =>
    have stands : escape ('u' :: hex ++ cs) = .ok (c, ('u' :: hex).length) := by
      rw [List.cons_append, escape, unicodeEscape_code four, List.length_cons, four.length]
    exact stringChars_escape stands others
  | @pair _ high low _ _ first leading second trailing value =>
    have stands : escape ('u' :: high ++ '\\' :: 'u' :: low ++ cs) =
        .ok (c, ('u' :: high ++ '\\' :: 'u' :: low).length) := by
      have code : unicodeEscape (high ++ '\\' :: 'u' :: (low ++ cs)) = .ok (c, 10) :=
        unicodeEscape_pair first leading second trailing value
      simp only [List.cons_append, List.append_assoc, escape, code, List.length_cons,
        List.length_append, first.length, second.length]
    exact stringChars_escape stands others

theorem stringBody_append {s : String} {pieces : List (List Char)} {rest : List Char}
    (each : List.Forall₂ CharSpelling s.toList pieces) :
    stringBody (pieces.flatten ++ '"' :: rest) = .ok (s, rest) := by
  have chars : ∀ {cs : List Char} {pieces : List (List Char)}, List.Forall₂ CharSpelling cs pieces →
      stringChars (pieces.flatten ++ '"' :: rest) = .ok (cs, rest) := by
    intro cs pieces each
    induction each with
    | nil => rw [List.flatten_nil, List.nil_append, stringChars, if_pos rfl]
    | cons spelled _ ih =>
      rw [List.flatten_cons, List.append_assoc]
      exact stringChars_append spelled ih
  simp only [stringBody, chars each, bind, pure, Except.bind, Except.pure, String.ofList_toList]

theorem reads_string (expected s : String) : Reads (string expected) (.str s) s := by
  intro before text rest blank spelled _
  cases spelled with
  | str spelled =>
    obtain ⟨pieces, each, rfl⟩ := spelled
    have front : skipBlanks (before ++ ('"' :: pieces.flatten ++ ['"'] ++ rest)) =
        '"' :: (pieces.flatten ++ '"' :: rest) := by
      simpa using skipBlanks_of_visible blank (c := '"') (by decide)
    rw [string, front]
    exact stringBody_append each

theorem reads_variant {table : List (String × α)} {name : String} {a : α}
    (listed : table.lookup name = some a) : Reads (variant table) (.str name) a := by
  intro before text rest blank spelled _
  cases spelled with
  | str spelled =>
    obtain ⟨pieces, each, rfl⟩ := spelled
    have front : skipBlanks (before ++ ('"' :: pieces.flatten ++ ['"'] ++ rest)) =
        '"' :: (pieces.flatten ++ '"' :: rest) := by
      simpa using skipBlanks_of_visible blank (c := '"') (by decide)
    simp only [variant, front, stringBody_append each, listed, bind, pure, Except.bind, Except.pure]

theorem reads_boolean (b : Bool) : Reads boolean (.bool b) b := by
  intro before text rest blank spelled _
  cases spelled with
  | yes =>
    have front : skipBlanks (before ++ (['t', 'r', 'u', 'e'] ++ rest)) =
        't' :: 'r' :: 'u' :: 'e' :: rest := skipBlanks_of_visible blank (by decide)
    rw [boolean, front]
    rfl
  | no =>
    have front : skipBlanks (before ++ (['f', 'a', 'l', 's', 'e'] ++ rest)) =
        'f' :: 'a' :: 'l' :: 's' :: 'e' :: rest := skipBlanks_of_visible blank (by decide)
    rw [boolean, front]
    rfl

/-! ### Numbers -/

private theorem digitValue_of_isDigit {d : Char} (digit : d.isDigit = true) :
    digitValue d = d.toNat - '0'.toNat := by
  rw [digitValue, if_pos digit]

private theorem le_ofDigitChars (ds : List Char) (n : Nat) : n ≤ Nat.ofDigitChars 10 ds n := by
  induction ds generalizing n with
  | nil => exact Nat.le_refl n
  | cons d ds ih =>
    rw [Nat.ofDigitChars_cons]
    have longer := ih (10 * n + (d.toNat - '0'.toNat))
    omega

theorem Ends.startsWithDigit {rest : List Char} (ends : Ends rest) :
    startsWithDigit rest = false := by
  cases rest with
  | nil => rfl
  | cons c rest =>
    have other : ∀ d ∈ [' ', '\n', '\t', '\r', ',', ']', '\x7d'], d.isDigit = false :=
      List.all_iff_forall_prop.mp (by decide)
    exact other c (ends c rfl)

theorem Ends.afterWhole {rest : List Char} (ends : Ends rest) (n : Nat) :
    afterWhole false n rest = .ok (.natural n, rest) := by
  cases rest with
  | nil => rfl
  | cons c rest =>
    have listed := ends c rfl
    simp only [List.mem_cons, List.not_mem_nil, or_false] at listed
    rcases listed with rfl | rfl | rfl | rfl | rfl | rfl | rfl <;> rfl

private theorem absorb_append {ds rest : List Char} {n : Nat} (digits : ∀ d ∈ ds, d.isDigit = true)
    (exact : Nat.ofDigitChars 10 ds n ≤ greatestExact) (ends : startsWithDigit rest = false) :
    absorb n (ds ++ rest) = (Nat.ofDigitChars 10 ds n, ds.length, rest) := by
  induction ds generalizing n with
  | nil =>
    cases rest with
    | nil => rfl
    | cons c rest =>
      have other : c.isDigit = false := ends
      rw [List.nil_append, absorb, other]
      rfl
  | cons d ds ih =>
    have digit := digits d List.mem_cons_self
    have longer : n * 10 + digitValue d = 10 * n + (d.toNat - '0'.toNat) := by
      rw [digitValue_of_isDigit digit, Nat.mul_comm]
    rw [Nat.ofDigitChars_cons] at exact ⊢
    have fits := Nat.le_trans (le_ofDigitChars ds _) exact
    have others := ih (fun d inside => digits d (List.mem_cons_of_mem _ inside)) exact
    simp only [List.cons_append, absorb, longer, digit, fits, decide_true, Bool.and_self, if_true,
      others, List.length_cons]

theorem exists_digits (n : Nat) :
    ∃ d ds, Nat.toDigits 10 n = d :: ds ∧ ∀ c ∈ d :: ds, c.isDigit = true := by
  obtain ⟨d, ds, written⟩ := List.exists_cons_of_ne_nil (Nat.toDigits_ne_nil (n := n) (b := 10))
  refine ⟨d, ds, written, fun c inside => ?_⟩
  rw [← written] at inside
  exact Nat.isDigit_of_mem_toDigits (by decide) (by decide) inside

theorem toDigits_head_ne_zero {n : Nat} (positive : 0 < n) : (Nat.toDigits 10 n).head? ≠ some '0' := by
  induction n using Nat.strongRecOn with
  | ind n ih =>
    by_cases small : n < 10
    · rw [Nat.toDigits_of_lt_base small]
      have digit : ∀ k < 10, 0 < k → [Nat.digitChar k].head? ≠ some '0' := by decide
      exact digit n small positive
    · rw [Nat.toDigits_of_base_le (by decide) (Nat.le_of_not_lt small),
        List.head?_append_of_ne_nil _ Nat.toDigits_ne_nil]
      exact ih (n / 10) (by omega) (by omega)

private theorem numberBody_digits {n : Nat} {rest : List Char} (exact : n ≤ greatestExact)
    (ends : Ends rest) : numberBody false (Nat.toDigits 10 n ++ rest) = .ok (.natural n, rest) := by
  rcases Nat.eq_zero_or_pos n with rfl | positive
  · have zero : numberBody false ('0' :: rest) = .ok (.natural 0, rest) := by
      simp only [numberBody, if_true, ends.startsWithDigit, Bool.false_eq_true, if_false,
        ends.afterWhole]
    exact zero
  · obtain ⟨d, ds, written, digits⟩ := exists_digits n
    have value : Nat.ofDigitChars 10 (Nat.toDigits 10 n) 0 = n := Nat.ofDigitChars_ten_toDigits
    have lead := toDigits_head_ne_zero positive
    rw [written] at value lead ⊢
    have nonzero : d ≠ '0' := fun zero => lead (congrArg some zero)
    have digit := digits d List.mem_cons_self
    rw [Nat.ofDigitChars_cons, Nat.mul_zero, Nat.zero_add, ← digitValue_of_isDigit digit] at value
    have taken := absorb_append (fun d inside => digits d (List.mem_cons_of_mem _ inside))
      (value.symm ▸ exact) ends.startsWithDigit
    simp only [List.cons_append, numberBody, nonzero, digit, taken, value, ends.startsWithDigit,
      Bool.false_eq_true, if_false, if_true, ends.afterWhole]

theorem isBlank_of_isDigit {d : Char} (digit : d.isDigit = true) : isBlank d = false := by
  by_contra blank
  simp only [isBlank, Bool.not_eq_false, Bool.or_eq_true, beq_iff_eq] at blank
  rcases blank with ((rfl | rfl) | rfl) | rfl <;> exact absurd digit (by decide)

theorem reads_natural {n : Nat} (exact : n ≤ greatestExact) : Reads natural (.nat n) n := by
  intro before text rest blank spelled ends
  cases spelled with
  | nat =>
    have body := numberBody_digits exact ends
    obtain ⟨d, ds, written, digits⟩ := exists_digits n
    rw [written] at body ⊢
    have digit := digits d List.mem_cons_self
    have front : skipBlanks (before ++ (d :: ds ++ rest)) = d :: (ds ++ rest) :=
      skipBlanks_of_visible blank (isBlank_of_isDigit digit)
    rw [natural, front]
    split
    · rename_i signed
      rw [(List.cons.inj signed).1] at digit
      exact absurd digit (by decide)
    · rename_i same
      cases same
      rw [if_pos digit, ← List.cons_append, body]
      rfl
    · contradiction

/-! ### Lists -/

def Starts (part : List Char) : Prop :=
  ∃ c cs, part = c :: cs ∧ isBlank c = false ∧ c ≠ ']'

private theorem starts_of_spelling {v : Json} {text : List Char} (spelled : Spelling v text) :
    Starts text := by
  cases spelled with
  | null => exact ⟨_, _, rfl, rfl, by decide⟩
  | yes => exact ⟨_, _, rfl, rfl, by decide⟩
  | no => exact ⟨_, _, rfl, rfl, by decide⟩
  | @nat n =>
    obtain ⟨d, ds, written⟩ := List.exists_cons_of_ne_nil (Nat.toDigits_ne_nil (n := n) (b := 10))
    have digit : d.isDigit = true :=
      Nat.isDigit_of_mem_toDigits (by decide) (by decide) (written ▸ List.mem_cons_self)
    refine ⟨d, ds, written, isBlank_of_isDigit digit, ?_⟩
    rintro rfl
    exact absurd digit (by decide)
  | str spelled =>
    obtain ⟨pieces, _, rfl⟩ := spelled
    exact ⟨_, _, rfl, rfl, by decide⟩
  | arr each row => exact ⟨_, _, rfl, rfl, by decide⟩
  | obj each row => exact ⟨_, _, rfl, rfl, by decide⟩

/-- What stands in front of a part of a row: nothing, or a comma behind the part before it. -/
inductive Lead : Bool → List Char → Prop
  | first : Lead true []
  | comma {b : List Char} (behind : Blanks b) : Lead false (b ++ [','])

private theorem nextElement_lead {first : Bool} {lead before part rest : List Char}
    (leads : Lead first lead)
    (blank : Blanks before) (starts : Starts part) :
    nextElement first (lead ++ (before ++ (part ++ rest))) = .ok (some (part ++ rest)) := by
  obtain ⟨c, cs, rfl, visible, value⟩ := starts
  have front : skipBlanks (before ++ (c :: cs ++ rest)) = c :: (cs ++ rest) :=
    skipBlanks_of_visible blank visible
  cases leads with
  | first =>
    rw [List.nil_append, nextElement, front]
    split
    · contradiction
    · rename_i same
      exact absurd (List.cons.inj same).1 value
    · rename_i same
      cases same
      rfl
  | @comma b behind =>
    rw [List.append_assoc, List.singleton_append, nextElement,
      skipBlanks_of_visible behind (by decide)]
    split
    · contradiction
    · rename_i same
      exact absurd (List.cons.inj same).1 (by decide)
    · rename_i same
      obtain ⟨rfl, rfl⟩ := List.cons.inj same
      rw [if_neg (by decide), if_pos rfl, front]
      split
      · contradiction
      · rename_i same
        exact absurd (List.cons.inj same).1 value
      · rfl

private theorem nextElement_end {behind rest : List Char} (space : Blanks behind) (first : Bool) :
    nextElement first (behind ++ ']' :: rest) = .ok none := by
  rw [nextElement, skipBlanks_of_visible space (by decide)]
  rfl

private theorem endList_append {behind rest : List Char} (space : Blanks behind) :
    endList (behind ++ ']' :: rest) = .ok rest := by
  rw [endList, skipBlanks_of_visible space (by decide)]
  rfl

private theorem elements_end {item : JsonReader α} {behind rest : List Char} (space : Blanks behind)
    (rounds : Nat) (first : Bool) :
    elements item rounds first (behind ++ ']' :: rest) = .ok ([], behind ++ ']' :: rest) := by
  cases rounds with
  | zero => rfl
  | succ rounds =>
    simp only [elements, nextElement_end space first, bind, pure, Except.bind, Except.pure]

private theorem elements_step {item : JsonReader α} {first : Bool} {rounds : Nat}
    {cs text rest behind : List Char} {a : α} {as : List α}
    (next : nextElement first cs = .ok (some text)) (one : item text = .ok (a, rest))
    (others : elements item rounds false rest = .ok (as, behind)) :
    elements item (rounds + 1) first cs = .ok (a :: as, behind) := by
  simp only [elements, next, one, others, bind, pure, Except.bind, Except.pure]

private theorem elements_row {item : JsonReader α} {parts : List (List Char)} {cs : List Char}
    (row : Row parts cs) : ∀ {values : List Json} {as : List α}, List.Forall₂ Spelling values parts →
    List.Forall₂ (Reads item) values as → ∀ {first : Bool} {lead : List Char}, Lead first lead →
    (first = false → parts ≠ []) → ∀ {rounds : Nat}, parts.length ≤ rounds → ∀ rest : List Char,
    ∃ behind, Blanks behind ∧ elements item rounds first (lead ++ (cs ++ ']' :: rest)) =
      .ok (as, behind ++ ']' :: rest) := by
  induction row with
  | @empty a before =>
    intro values as spelled each first lead leads later rounds _ rest
    cases spelled
    cases each
    cases leads with
    | first => exact ⟨a, before, elements_end before rounds true⟩
    | comma => exact absurd rfl (later rfl)
  | @last a part b before behind =>
    intro values as spelled each first lead leads _ rounds enough rest
    cases spelled with
    | cons text none =>
      cases none
      cases each with
      | cons one none =>
        cases none
        obtain ⟨rounds, rfl⟩ := Nat.exists_eq_add_of_le' enough
        have ends : Ends (b ++ ']' :: rest) := .append behind (.cons (by decide))
        refine ⟨b, behind, ?_⟩
        rw [List.append_assoc, List.append_assoc]
        exact elements_step (nextElement_lead leads before (starts_of_spelling text))
          (one.spelled text ends) (elements_end behind rounds false)
  | @more a part b cs parts before behind others row ih =>
    intro values as spelled each first lead leads _ rounds enough rest
    cases spelled with
    | cons text spelled =>
      cases each with
      | cons one each =>
        obtain ⟨rounds, rfl⟩ := Nat.exists_eq_add_of_le' (Nat.le_trans (Nat.le_add_left 1 _) enough)
        obtain ⟨b', space, later⟩ := ih spelled each (.comma behind) (fun _ => others)
          (Nat.le_of_succ_le_succ enough) rest
        have ends : Ends (b ++ [','] ++ (cs ++ ']' :: rest)) := by
          rw [List.append_assoc]
          exact .append behind (.cons (by decide))
        refine ⟨b', space, ?_⟩
        have step := elements_step (nextElement_lead leads before (starts_of_spelling text))
          (one.spelled text ends) later
        simpa only [List.append_assoc, List.cons_append, List.nil_append] using step

theorem reads_list {item : JsonReader α} {values : List Json} {as : List α}
    (each : List.Forall₂ (Reads item) values as) : Reads (list item) (.arr values) as := by
  intro before text rest blank spelled _
  cases spelled with
  | @arr _ parts cs spelled row =>
    have enough : parts.length ≤ (cs ++ ']' :: rest).length + 1 := by
      have short := row.length_le
      rw [List.length_append]
      omega
    obtain ⟨behind, space, items⟩ :=
      elements_row row spelled each .first nofun enough rest
    have front : skipBlanks (before ++ ('[' :: cs ++ [']'] ++ rest)) = '[' :: (cs ++ ']' :: rest) := by
      simpa using skipBlanks_of_visible blank (c := '[') (by decide)
    rw [List.nil_append] at items
    simp only [list, front, items, endList_append space, bind, pure, Except.bind, Except.pure]

/-! ### Records -/

theorem nextKey_lead {first : Bool} {lead before key rest : List Char} {k : String}
    (leads : Lead first lead) (blank : Blanks before) (spelled : StringSpelling k key) :
    nextKey first (lead ++ (before ++ (key ++ rest))) = .ok (some (k, rest)) := by
  obtain ⟨pieces, each, rfl⟩ := spelled
  have front : skipBlanks (before ++ ('"' :: pieces.flatten ++ ['"'] ++ rest)) =
      '"' :: (pieces.flatten ++ '"' :: rest) := by
    simpa using skipBlanks_of_visible blank (c := '"') (by decide)
  have body : (stringBody (pieces.flatten ++ '"' :: rest) >>= fun key => pure (some key)) =
      .ok (some (k, rest)) := by
    rw [stringBody_append each]
    rfl
  cases leads with
  | first =>
    rw [List.nil_append, nextKey, front]
    exact body
  | @comma b behind =>
    rw [List.append_assoc, List.singleton_append, nextKey,
      skipBlanks_of_visible behind (by decide)]
    split
    · contradiction
    · rename_i same
      exact absurd (List.cons.inj same).1 (by decide)
    · rename_i same
      obtain ⟨rfl, rfl⟩ := List.cons.inj same
      rw [if_neg (by decide), if_pos rfl, front]
      exact body

theorem colon_append {a rest : List Char} (blank : Blanks a) : colon (a ++ ':' :: rest) = .ok rest := by
  rw [colon, skipBlanks_of_visible blank (by decide)]
  rfl

theorem nextKey_end {behind rest : List Char} (space : Blanks behind) (first : Bool) :
    nextKey first (behind ++ '\x7d' :: rest) = .ok none := by
  rw [nextKey, skipBlanks_of_visible space (by decide)]
  rfl

theorem endObject_append {behind rest : List Char} (space : Blanks behind) :
    endObject (behind ++ '\x7d' :: rest) = .ok rest := by
  rw [endObject, skipBlanks_of_visible space (by decide)]
  rfl

/-- The field has a slot, which changes the record by `put`. -/
def Fills (slots : List (Slot σ)) (field : String × Json) (put : σ → σ) : Prop :=
  ∃ slot, slots.find? (·.key == field.1) = some slot ∧
    ∀ s, Reads (slot.read s) field.2 (put s)

private theorem fieldsByKey_end {slots : List (Slot σ)} {behind rest : List Char}
    (space : Blanks behind)
    (rounds : Nat) (seen : List String) (s : σ) :
    fieldsByKey slots rounds seen s (behind ++ '\x7d' :: rest) =
      .ok (s, behind ++ '\x7d' :: rest) := by
  cases rounds with
  | zero => rfl
  | succ rounds =>
    simp only [fieldsByKey, nextKey_end space seen.isEmpty, bind, pure, Except.bind, Except.pure]

private theorem fieldsByKey_step {slots : List (Slot σ)} {field : String × Json} {put : σ → σ}
    {seen : List String} {lead before part rest : List Char} {rounds : Nat} {s : σ}
    {outcome : Except JsonFault (σ × List Char)} (fills : Fills slots field put)
    (fresh : field.1 ∉ seen) (leads : Lead seen.isEmpty lead) (blank : Blanks before)
    (spelled : FieldSpelling Spelling field part) (ends : Ends rest)
    (others : fieldsByKey slots rounds (field.1 :: seen) (put s) rest = outcome) :
    fieldsByKey slots (rounds + 1) seen s (lead ++ (before ++ (part ++ rest))) = outcome := by
  obtain ⟨slot, found, reads⟩ := fills
  cases spelled with
  | @field k v key value a b name space behind spelled =>
    have next : nextKey seen.isEmpty
        (lead ++ (before ++ (key ++ a ++ ':' :: (b ++ value) ++ rest))) =
        .ok (some (k, a ++ ':' :: (b ++ (value ++ rest)))) := by
      simpa using nextKey_lead leads blank name
    simp only [fieldsByKey, next, found, List.contains_eq_mem, fresh, decide_false,
      Bool.false_eq_true, if_false, colon_append space, reads s behind spelled ends, others, bind,
      Except.bind]

section Record

variable {slots : List (Slot σ)} {field : ι → String × Json} {put : σ → ι → σ}

private theorem fieldsByKey_row {parts : List (List Char)} {cs : List Char} (row : Row parts cs) :
    ∀ {given : List ι}, List.Forall₂ (fun i => FieldSpelling Spelling (field i)) given parts →
    (∀ i ∈ given, Fills slots (field i) (put · i)) → (given.map fun i => (field i).1).Nodup →
    ∀ {seen : List String}, (∀ i ∈ given, (field i).1 ∉ seen) →
    ∀ {lead : List Char}, Lead seen.isEmpty lead → (seen.isEmpty = false → parts ≠ []) →
    ∀ {rounds : Nat}, parts.length ≤ rounds → ∀ (s : σ) (rest : List Char),
    ∃ behind, Blanks behind ∧ fieldsByKey slots rounds seen s (lead ++ (cs ++ '\x7d' :: rest)) =
      .ok (given.foldl put s, behind ++ '\x7d' :: rest) := by
  induction row with
  | @empty a before =>
    intro given each _ _ seen _ lead leads later rounds _ s rest
    cases each
    generalize seen.isEmpty = first at leads later
    cases leads with
    | first => exact ⟨a, before, fieldsByKey_end before rounds seen s⟩
    | comma => exact absurd rfl (later rfl)
  | @last a part b before behind =>
    intro given each fills _ seen fresh lead leads _ rounds enough s rest
    cases each with
    | @cons i _ _ _ spelled none =>
      cases none
      obtain ⟨rounds, rfl⟩ := Nat.exists_eq_add_of_le' enough
      have ends : Ends (b ++ '\x7d' :: rest) := .append behind (.cons (by decide))
      refine ⟨b, behind, ?_⟩
      rw [List.append_assoc, List.append_assoc]
      exact fieldsByKey_step (fills i List.mem_cons_self) (fresh i List.mem_cons_self) leads before
        spelled ends (fieldsByKey_end behind rounds ((field i).1 :: seen) (put s i))
  | @more a part b cs parts before behind others row ih =>
    intro given each fills distinct seen fresh lead leads _ rounds enough s rest
    cases each with
    | @cons i _ is _ spelled each =>
      rw [List.map_cons, List.nodup_cons] at distinct
      obtain ⟨rounds, rfl⟩ := Nat.exists_eq_add_of_le' (Nat.le_trans (Nat.le_add_left 1 _) enough)
      have unseen : ∀ j ∈ is, (field j).1 ∉ (field i).1 :: seen := by
        intro j inside again
        rcases List.mem_cons.mp again with same | earlier
        · exact distinct.1 (List.mem_map.mpr ⟨j, inside, same⟩)
        · exact fresh j (List.mem_cons_of_mem i inside) earlier
      have leading : Lead ((field i).1 :: seen).isEmpty (b ++ [',']) := .comma behind
      obtain ⟨b', space, later⟩ := ih each (fun j inside => fills j (List.mem_cons_of_mem i inside))
        distinct.2 unseen leading (fun _ => others) (Nat.le_of_succ_le_succ enough) (put s i) rest
      have ends : Ends (b ++ [','] ++ (cs ++ '\x7d' :: rest)) := by
        rw [List.append_assoc]
        exact .append behind (.cons (by decide))
      have step := fieldsByKey_step (fills i List.mem_cons_self) (fresh i List.mem_cons_self) leads
        before spelled ends later
      refine ⟨b', space, ?_⟩
      simpa only [List.append_assoc, List.cons_append, List.nil_append, List.foldl_cons] using step

/-- Fields with distinct keys change the record one after the other. -/
theorem reads_record (expected : String) (init : σ) {given : List ι}
    (fills : ∀ i ∈ given, Fills slots (field i) (put · i))
    (distinct : (given.map fun i => (field i).1).Nodup) :
    Reads (record expected slots init) (.obj (given.map field)) (given.foldl put init) := by
  intro before text rest blank spelled _
  cases spelled with
  | @obj _ parts cs each row =>
    have enough : parts.length ≤ (cs ++ '\x7d' :: rest).length + 1 := by
      have short := row.length_le
      rw [List.length_append]
      omega
    obtain ⟨behind, space, given⟩ := fieldsByKey_row row (List.forall₂_map_left_iff.mp each) fills
      distinct (fun _ _ => List.not_mem_nil) .first nofun enough init rest
    have front : skipBlanks (before ++ ('\x7b' :: cs ++ ['\x7d'] ++ rest)) =
        '\x7b' :: (cs ++ '\x7d' :: rest) := by
      simpa using skipBlanks_of_visible blank (c := '\x7b') (by decide)
    rw [List.nil_append] at given
    rw [record, front]
    simp only [given, endObject_append space, bind, pure, Except.bind, Except.pure]

end Record

theorem whole_spelledBy {read : JsonReader α} {v : Json} {a : α} (reads : Reads read v a)
    {text : String} (spelled : v.SpelledBy text) : whole read text = .ok a := by
  obtain ⟨before, spelling, behind, blank, spells, space, written⟩ := spelled
  have ends : Ends behind := by
    rw [← List.append_nil behind]
    exact .append space nofun
  have past : skipBlanks behind = [] := by
    rw [← List.append_nil behind, skipBlanks_append space]
    rfl
  simp only [whole, written, reads blank spells ends, past, List.isEmpty_nil, if_true, bind, pure,
    Except.bind, Except.pure]

end JsonReader

end Lockstep
