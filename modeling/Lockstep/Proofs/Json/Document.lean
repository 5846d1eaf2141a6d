import Lockstep.Proofs.Json.Reading
import Lockstep.Proofs.Token.Spelled
/-!
Reading any JSON value back. Whole numbers are kept exactly, whatever their size, fields keep their
order, and values may be nested up to a given depth. Each spelling of a value is read as that value.
-/

set_option autoImplicit false
set_option relaxedAutoImplicit false

namespace Lockstep

open Lockstep.Json

namespace JsonReader

variable {α : Type}

/-! ### The reader -/

/-- The fields of an object, `rounds` at most. -/
def members (item : JsonReader α) :
    Nat → Bool → List Char → Except JsonFault (List (String × α) × List Char)
  | 0, _, cs => .ok ([], cs)
  | rounds + 1, first, cs => do
    match ← nextKey first cs with
    | none => return ([], cs)
    | some (key, rest) =>
      let rest ← colon rest
      let (a, rest) ← item rest
      let (fields, rest) ← members item rounds false rest
      return ((key, a) :: fields, rest)

/-- An object with any fields; every field takes a character, so the rounds suffice. -/
def object (item : JsonReader α) : JsonReader (List (String × α)) := fun cs =>
  match skipBlanks cs with
  | '\x7b' :: rest => do
    let (fields, rest) ← members item (rest.length + 1) true rest
    let rest ← endObject rest
    return (fields, rest)
  | cs => wrongType "a map" cs

def wholeNumber : JsonReader Nat := fun cs =>
  match skipBlanks cs with
  | '0' :: rest => if startsWithDigit rest then malformed .invalidNumber else .ok (0, rest)
  | c :: rest =>
    if c.isDigit then
      .ok (numeral 10 (c :: rest.takeWhile Char.isDigit), rest.dropWhile Char.isDigit)
    else wrongType "a whole number" (c :: rest)
  | [] => unfinished .value

def scalar : JsonReader Json := fun cs =>
  match skipBlanks cs with
  | 'n' :: rest => do
    let (_, rest) ← word ['u', 'l', 'l'] rest
    return (.null, rest)
  | 't' :: _ | 'f' :: _ => do
    let (b, rest) ← boolean cs
    return (.bool b, rest)
  | '"' :: rest => do
    let (s, rest) ← stringBody rest
    return (.str s, rest)
  | _ => do
    let (n, rest) ← wholeNumber cs
    return (.nat n, rest)

/-- A value with parts inside each other up to `depth` levels. -/
def value : Nat → JsonReader Json
  | 0, cs => scalar cs
  | depth + 1, cs =>
    match skipBlanks cs with
    | '[' :: _ => do
      let (items, rest) ← list (value depth) cs
      return (.arr items, rest)
    | '\x7b' :: _ => do
      let (fields, rest) ← object (value depth) cs
      return (.obj fields, rest)
    | _ => scalar cs

end JsonReader

/-- The value that a text stands for; its parts may be nested up to 127 levels. -/
def Json.ofText (text : String) : Except JsonFault Json :=
  JsonReader.whole (JsonReader.value 127) text

namespace Json

/-- The parts of the value are nested at most `depth` levels. -/
inductive Nested : Nat → Json → Prop
  | null {depth : Nat} : Nested depth null
  | bool {depth : Nat} (b : Bool) : Nested depth (bool b)
  | nat {depth : Nat} (n : Nat) : Nested depth (nat n)
  | str {depth : Nat} (s : String) : Nested depth (str s)
  | arr {depth : Nat} {items : List Json} (inside : ∀ v ∈ items, Nested depth v) :
    Nested (depth + 1) (arr items)
  | obj {depth : Nat} {fields : List (String × Json)} (inside : ∀ f ∈ fields, Nested depth f.2) :
    Nested (depth + 1) (obj fields)

theorem Nested.mono {v : Json} {depth depth' : Nat} (nested : Nested depth v)
    (deeper : depth ≤ depth') : Nested depth' v := by
  induction nested generalizing depth' with
  | null => exact .null
  | bool b => exact .bool b
  | nat n => exact .nat n
  | str s => exact .str s
  | arr _ ih =>
    obtain ⟨depth', rfl⟩ := Nat.exists_eq_add_of_le' (Nat.le_trans (Nat.le_add_left 1 _) deeper)
    exact .arr fun v inside => ih v inside (Nat.le_of_succ_le_succ deeper)
  | obj _ ih =>
    obtain ⟨depth', rfl⟩ := Nat.exists_eq_add_of_le' (Nat.le_trans (Nat.le_add_left 1 _) deeper)
    exact .obj fun f inside => ih f inside (Nat.le_of_succ_le_succ deeper)

end Json

namespace JsonReader

variable {α : Type}

/-! ### What it makes of a spelling -/

private theorem reads_wholeNumber (n : Nat) : Reads wholeNumber (.nat n) n := by
  intro before text rest blank spelled ends
  cases spelled with
  | nat =>
    rcases Nat.eq_zero_or_pos n with rfl | positive
    · have front : skipBlanks (before ++ (Nat.toDigits 10 0 ++ rest)) = '0' :: rest :=
        skipBlanks_of_visible blank (by decide)
      rw [wholeNumber, front]
      simp only [ends.startsWithDigit, Bool.false_eq_true, if_false]
    · obtain ⟨d, ds, written, digits⟩ := exists_digits n
      have value : numeral 10 (d :: ds) = n := by
        rw [Lexical.numeral_eq_ofDigitChars digits, ← written, Nat.ofDigitChars_ten_toDigits]
      have lead := toDigits_head_ne_zero positive
      rw [written] at lead ⊢
      have digit := digits d List.mem_cons_self
      have others := fun d inside => digits d (List.mem_cons_of_mem _ inside)
      have past : rest.takeWhile Char.isDigit = [] ∧ rest.dropWhile Char.isDigit = rest := by
        have ended := ends.startsWithDigit
        cases rest with
        | nil => exact ⟨rfl, rfl⟩
        | cons c rest =>
          have other : ¬ c.isDigit = true := Bool.eq_false_iff.mp ended
          exact ⟨List.takeWhile_cons_of_neg other, List.dropWhile_cons_of_neg other⟩
      have front : skipBlanks (before ++ (d :: ds ++ rest)) = d :: (ds ++ rest) :=
        skipBlanks_of_visible blank (isBlank_of_isDigit digit)
      rw [wholeNumber, front]
      split
      · rename_i zero
        exact absurd (congrArg some (List.cons.inj zero).1) lead
      · rename_i same
        cases same
        rw [if_pos digit, List.takeWhile_append_of_pos others, List.dropWhile_append_of_pos others,
          past.1, past.2, List.append_nil, value]
      · contradiction

private theorem reads_scalar {v : Json} (nested : Nested 0 v) : Reads scalar v v := by
  intro before text rest blank spelled ends
  cases nested with
  | null =>
    cases spelled
    have front : skipBlanks (before ++ (['n', 'u', 'l', 'l'] ++ rest)) =
        'n' :: 'u' :: 'l' :: 'l' :: rest := skipBlanks_of_visible blank (by decide)
    rw [scalar, front]
    rfl
  | bool b =>
    have read : (boolean (before ++ (text ++ rest)) >>= fun r => pure (Json.bool r.1, r.2)) =
        .ok (.bool b, rest) := (reads_boolean b).through Json.bool blank spelled ends
    have front : ∃ c cs, skipBlanks (before ++ (text ++ rest)) = c :: cs ∧ (c = 't' ∨ c = 'f') := by
      cases spelled with
      | yes => exact ⟨_, _, skipBlanks_of_visible blank (by decide), .inl rfl⟩
      | no => exact ⟨_, _, skipBlanks_of_visible blank (by decide), .inr rfl⟩
    obtain ⟨c, cs, front, rfl | rfl⟩ := front
    · rw [scalar, front]
      exact read
    · rw [scalar, front]
      exact read
  | nat n =>
    have read : (wholeNumber (before ++ (text ++ rest)) >>= fun r => pure (Json.nat r.1, r.2)) =
        .ok (.nat n, rest) := (reads_wholeNumber n).through Json.nat blank spelled ends
    have front : ∃ c cs, skipBlanks (before ++ (text ++ rest)) = c :: cs ∧ c.isDigit = true := by
      cases spelled with
      | nat =>
        obtain ⟨d, ds, written, digits⟩ := exists_digits n
        have digit := digits d List.mem_cons_self
        rw [written]
        exact ⟨d, ds ++ rest, skipBlanks_of_visible blank (isBlank_of_isDigit digit), digit⟩
    obtain ⟨c, cs, front, digit⟩ := front
    have other (letter : Char) (none : letter.isDigit = false) : c ≠ letter := by
      rintro rfl
      rw [none] at digit
      cases digit
    rw [scalar, front]
    split
    · rename_i same
      exact absurd (List.cons.inj same).1 (other 'n' (by decide))
    · rename_i same
      exact absurd (List.cons.inj same).1 (other 't' (by decide))
    · rename_i same
      exact absurd (List.cons.inj same).1 (other 'f' (by decide))
    · rename_i same
      exact absurd (List.cons.inj same).1 (other '"' (by decide))
    · exact read
  | str s =>
    cases spelled with
    | str spelled =>
      obtain ⟨pieces, each, rfl⟩ := spelled
      have front : skipBlanks (before ++ ('"' :: pieces.flatten ++ ['"'] ++ rest)) =
          '"' :: (pieces.flatten ++ '"' :: rest) := by
        simpa using skipBlanks_of_visible blank (c := '"') (by decide)
      rw [scalar, front]
      show (stringBody (pieces.flatten ++ '"' :: rest) >>= fun r => pure (Json.str r.1, r.2)) = _
      rw [stringBody_append each]
      rfl

private theorem members_end {item : JsonReader α} {behind rest : List Char} (space : Blanks behind)
    (rounds : Nat) (first : Bool) :
    members item rounds first (behind ++ '\x7d' :: rest) = .ok ([], behind ++ '\x7d' :: rest) := by
  cases rounds with
  | zero => rfl
  | succ rounds =>
    simp only [members, nextKey_end space first, bind, pure, Except.bind, Except.pure]

private theorem members_step {item : JsonReader α} {f : String × Json} {a : α} {first : Bool}
    {rounds : Nat}
    {lead before part rest behind : List Char} {fields : List (String × α)}
    (leads : Lead first lead) (blank : Blanks before) (spelled : FieldSpelling Spelling f part)
    (reads : Reads item f.2 a) (ends : Ends rest)
    (others : members item rounds false rest = .ok (fields, behind)) :
    members item (rounds + 1) first (lead ++ (before ++ (part ++ rest))) =
      .ok ((f.1, a) :: fields, behind) := by
  cases spelled with
  | @field k v key value a b name space gap spelled =>
    have next : nextKey first (lead ++ (before ++ (key ++ a ++ ':' :: (b ++ value) ++ rest))) =
        .ok (some (k, a ++ ':' :: (b ++ (value ++ rest)))) := by
      simpa using nextKey_lead leads blank name
    simp only [members, next, colon_append space, reads gap spelled ends, others, bind, pure,
      Except.bind, Except.pure]

private theorem members_row {item : JsonReader Json} {parts : List (List Char)} {cs : List Char}
    (row : Row parts cs) : ∀ {fields : List (String × Json)},
    List.Forall₂ (FieldSpelling Spelling) fields parts → (∀ f ∈ fields, Reads item f.2 f.2) →
    ∀ {first : Bool} {lead : List Char}, Lead first lead → (first = false → parts ≠ []) →
    ∀ {rounds : Nat}, parts.length ≤ rounds → ∀ rest : List Char,
    ∃ behind, Blanks behind ∧ members item rounds first (lead ++ (cs ++ '\x7d' :: rest)) =
      .ok (fields, behind ++ '\x7d' :: rest) := by
  induction row with
  | @empty a before =>
    intro fields each _ first lead leads later rounds _ rest
    cases each
    cases leads with
    | first => exact ⟨a, before, members_end before rounds true⟩
    | comma => exact absurd rfl (later rfl)
  | @last a part b before behind =>
    intro fields each reads first lead leads _ rounds enough rest
    cases each with
    | @cons f _ _ _ spelled none =>
      cases none
      obtain ⟨rounds, rfl⟩ := Nat.exists_eq_add_of_le' enough
      have ends : Ends (b ++ '\x7d' :: rest) := .append behind (.cons (by decide))
      refine ⟨b, behind, ?_⟩
      rw [List.append_assoc, List.append_assoc]
      exact members_step leads before spelled (reads f List.mem_cons_self) ends
        (members_end behind rounds false)
  | @more a part b cs parts before behind others row ih =>
    intro fields each reads first lead leads _ rounds enough rest
    cases each with
    | @cons f _ fs _ spelled each =>
      obtain ⟨rounds, rfl⟩ := Nat.exists_eq_add_of_le' (Nat.le_trans (Nat.le_add_left 1 _) enough)
      obtain ⟨b', space, later⟩ := ih each (fun g inside => reads g (List.mem_cons_of_mem f inside))
        (.comma behind) (fun _ => others) (Nat.le_of_succ_le_succ enough) rest
      have ends : Ends (b ++ [','] ++ (cs ++ '\x7d' :: rest)) := by
        rw [List.append_assoc]
        exact .append behind (.cons (by decide))
      have step := members_step leads before spelled (reads f List.mem_cons_self) ends later
      refine ⟨b', space, ?_⟩
      simpa only [List.append_assoc, List.cons_append, List.nil_append] using step

private theorem reads_object {item : JsonReader Json} {fields : List (String × Json)}
    (reads : ∀ f ∈ fields, Reads item f.2 f.2) : Reads (object item) (.obj fields) fields := by
  intro before text rest blank spelled _
  cases spelled with
  | @obj _ parts cs each row =>
    have enough : parts.length ≤ (cs ++ '\x7d' :: rest).length + 1 := by
      have short := row.length_le
      rw [List.length_append]
      omega
    obtain ⟨behind, space, members⟩ := members_row row each reads .first nofun enough rest
    have front : skipBlanks (before ++ ('\x7b' :: cs ++ ['\x7d'] ++ rest)) =
        '\x7b' :: (cs ++ '\x7d' :: rest) := by
      simpa using skipBlanks_of_visible blank (c := '\x7b') (by decide)
    rw [List.nil_append] at members
    simp only [object, front, members, endObject_append space, bind, pure, Except.bind, Except.pure]

private theorem scalar_starts {v : Json} (nested : Nested 0 v) {text : List Char}
    (spelled : Spelling v text) :
    ∃ c cs, text = c :: cs ∧ isBlank c = false ∧ c ≠ '[' ∧ c ≠ '\x7b' := by
  cases nested with
  | null =>
    cases spelled
    exact ⟨_, _, rfl, by decide, by decide, by decide⟩
  | bool b =>
    cases spelled with
    | yes => exact ⟨_, _, rfl, by decide, by decide, by decide⟩
    | no => exact ⟨_, _, rfl, by decide, by decide, by decide⟩
  | nat n =>
    cases spelled with
    | nat =>
      obtain ⟨d, ds, written, digits⟩ := exists_digits n
      have digit := digits d List.mem_cons_self
      refine ⟨d, ds, written, isBlank_of_isDigit digit, ?_, ?_⟩
      · rintro rfl
        exact absurd digit (by decide)
      · rintro rfl
        exact absurd digit (by decide)
  | str s =>
    cases spelled with
    | str spelled =>
      obtain ⟨pieces, _, rfl⟩ := spelled
      exact ⟨_, _, rfl, by decide, by decide, by decide⟩

private theorem reads_value_scalar {v : Json} (nested : Nested 0 v) (depth : Nat) :
    Reads (value depth) v v := by
  intro before text rest blank spelled ends
  have read := reads_scalar nested blank spelled ends
  obtain ⟨c, cs, rfl, visible, bracket, brace⟩ := scalar_starts nested spelled
  cases depth with
  | zero => exact read
  | succ depth =>
    have front : skipBlanks (before ++ (c :: cs ++ rest)) = c :: (cs ++ rest) :=
      skipBlanks_of_visible blank visible
    rw [value, front]
    split
    · rename_i same
      exact absurd (List.cons.inj same).1 bracket
    · rename_i same
      exact absurd (List.cons.inj same).1 brace
    · exact read

/-- Every spelling of a value is read as that value. -/
private theorem reads_value {v : Json} {depth : Nat} (nested : Nested depth v) :
    Reads (value depth) v v := by
  induction nested with
  | null => exact reads_value_scalar .null _
  | bool b => exact reads_value_scalar (.bool b) _
  | nat n => exact reads_value_scalar (.nat n) _
  | str s => exact reads_value_scalar (.str s) _
  | @arr depth items _ ih =>
    intro before text rest blank spelled ends
    have read : (list (value depth) (before ++ (text ++ rest)) >>= fun r =>
        pure (Json.arr r.1, r.2)) = .ok (.arr items, rest) :=
      (reads_list (List.forall₂_same.mpr ih)).through Json.arr blank spelled ends
    cases spelled with
    | @arr _ parts cs each row =>
      have front : skipBlanks (before ++ ('[' :: cs ++ [']'] ++ rest)) = '[' :: (cs ++ ']' :: rest) := by
        simpa using skipBlanks_of_visible blank (c := '[') (by decide)
      rw [value, front]
      exact read
  | @obj depth fields _ ih =>
    intro before text rest blank spelled ends
    have read : (object (value depth) (before ++ (text ++ rest)) >>= fun r =>
        pure (Json.obj r.1, r.2)) = .ok (.obj fields, rest) :=
      (reads_object ih).through Json.obj blank spelled ends
    cases spelled with
    | @obj _ parts cs each row =>
      have front : skipBlanks (before ++ ('\x7b' :: cs ++ ['\x7d'] ++ rest)) =
          '\x7b' :: (cs ++ '\x7d' :: rest) := by
        simpa using skipBlanks_of_visible blank (c := '\x7b') (by decide)
      rw [value, front]
      exact read

end JsonReader

/-- A text that stands for a value is read as that value. -/
theorem Json.ofText_eq {v : Json} {text : String} (nested : Nested 127 v)
    (spelled : v.SpelledBy text) : ofText text = .ok v :=
  JsonReader.whole_spelledBy (JsonReader.reads_value nested) spelled

end Lockstep
