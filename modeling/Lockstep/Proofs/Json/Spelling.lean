import Lockstep.Json.Reader
import Lockstep.Json.Value
import Mathlib.Data.List.Forall2
/-!
The texts that stand for a JSON value: blanks may stand between its parts, and a character of a
string may be written as itself or as one of several escapes. Both printed forms of a value are
among them.
-/

set_option autoImplicit false
set_option relaxedAutoImplicit false

namespace Lockstep

namespace Json

def isBlank (c : Char) : Bool := c == ' ' || c == '\n' || c == '\t' || c == '\r'

def Blanks (cs : List Char) : Prop := ∀ c ∈ cs, isBlank c = true

theorem blanks_nil : Blanks [] := fun _ inside => nomatch inside

def isHexDigit (c : Char) : Bool := c.isDigit || ('a' ≤ c && c ≤ 'f') || ('A' ≤ c && c ≤ 'F')

/-- Four hexadecimal digits that name a number. -/
structure FourHex (ds : List Char) (n : Nat) : Prop where
  length : ds.length = 4
  digits : ∀ d ∈ ds, isHexDigit d = true
  value : numeral 16 ds = n

def shortEscapes : List (Char × Char) :=
  [('"', '"'), ('\\', '\\'), ('/', '/'), ('b', '\x08'), ('f', '\x0c'), ('n', '\n'), ('r', '\r'),
    ('t', '\t')]

/-- How a character may be written inside a string. -/
inductive CharSpelling : Char → List Char → Prop
  | plain {c : Char} (quote : c ≠ '"') (backslash : c ≠ '\\') (visible : 0x20 ≤ c.toNat) :
    CharSpelling c [c]
  | short {mark c : Char} (listed : (mark, c) ∈ shortEscapes) : CharSpelling c ['\\', mark]
  | code {c : Char} {ds : List Char} (four : FourHex ds c.toNat) : CharSpelling c ('\\' :: 'u' :: ds)
  /-- A character beyond sixteen bits takes two codes. -/
  | pair {c : Char} {ds es : List Char} {n m : Nat} (first : FourHex ds n)
    (leading : JsonReader.isLeading n = true) (second : FourHex es m)
    (trailing : JsonReader.isTrailing m = true)
    (value : c.toNat = (n - 0xD800) * 0x400 + (m - 0xDC00) + 0x10000) :
    CharSpelling c ('\\' :: 'u' :: ds ++ '\\' :: 'u' :: es)

def StringSpelling (s : String) (cs : List Char) : Prop :=
  ∃ pieces, List.Forall₂ CharSpelling s.toList pieces ∧ cs = '"' :: pieces.flatten ++ ['"']

/-- Parts with commas between them and blanks around them. -/
inductive Row : List (List Char) → List Char → Prop
  | empty {a : List Char} (before : Blanks a) : Row [] a
  | last {a part b : List Char} (before : Blanks a) (behind : Blanks b) : Row [part] (a ++ part ++ b)
  | more {a part b cs : List Char} {parts : List (List Char)} (before : Blanks a)
    (behind : Blanks b) (others : parts ≠ []) (row : Row parts cs) :
    Row (part :: parts) (a ++ part ++ b ++ ',' :: cs)

theorem Row.length_le {parts : List (List Char)} {cs : List Char} (row : Row parts cs) :
    parts.length ≤ cs.length + 1 := by
  induction row with
  | empty _ => exact Nat.zero_le _
  | last _ _ => exact Nat.le_add_left 1 _
  | more _ _ _ _ ih =>
    simp only [List.length_append, List.length_cons]
    omega

/-- A field whose value is written as `spells` allows. -/
inductive FieldSpelling (spells : Json → List Char → Prop) : String × Json → List Char → Prop
  | field {k : String} {v : Json} {key value a b : List Char} (name : StringSpelling k key)
    (before : Blanks a) (behind : Blanks b) (spelled : spells v value) :
    FieldSpelling spells (k, v) (key ++ a ++ ':' :: (b ++ value))

/-- How a value may be written. Whole numbers have one form. -/
inductive Spelling : Json → List Char → Prop
  | null : Spelling null ['n', 'u', 'l', 'l']
  | yes : Spelling (bool true) ['t', 'r', 'u', 'e']
  | no : Spelling (bool false) ['f', 'a', 'l', 's', 'e']
  | nat {n : Nat} : Spelling (nat n) (Nat.toDigits 10 n)
  | str {s : String} {cs : List Char} (spelled : StringSpelling s cs) : Spelling (str s) cs
  | arr {items : List Json} {parts : List (List Char)} {cs : List Char}
    (each : List.Forall₂ Spelling items parts) (row : Row parts cs) :
    Spelling (arr items) ('[' :: cs ++ [']'])
  | obj {fields : List (String × Json)} {parts : List (List Char)} {cs : List Char}
    (each : List.Forall₂ (FieldSpelling Spelling) fields parts) (row : Row parts cs) :
    Spelling (obj fields) ('\x7b' :: cs ++ ['\x7d'])

/-- The text stands for the value: a spelling of it with nothing but blanks around it. -/
def SpelledBy (v : Json) (text : String) : Prop :=
  ∃ before spelling behind, Blanks before ∧ Spelling v spelling ∧ Blanks behind ∧
    text.toList = before ++ (spelling ++ behind)

theorem Spelling.spelledBy {v : Json} {text : String} (spelled : Spelling v text.toList) :
    v.SpelledBy text :=
  ⟨[], text.toList, [], blanks_nil, spelled, blanks_nil, (List.append_nil _).symm⟩

private theorem inside_induction {motive : Json → Prop} (null : motive null)
    (bool : ∀ b, motive (bool b)) (nat : ∀ n, motive (nat n)) (str : ∀ s, motive (str s))
    (arr : ∀ items, (∀ v ∈ items, motive v) → motive (arr items))
    (obj : ∀ fields : List (String × Json), (∀ f ∈ fields, motive f.2) → motive (obj fields)) :
    ∀ v, motive v
  | .null => null
  | .bool b => bool b
  | .nat n => nat n
  | .str s => str s
  | .arr items => arr items fun v _ => inside_induction null bool nat str arr obj v
  | .obj fields => obj fields fun f _ => inside_induction null bool nat str arr obj f.2
termination_by v => sizeOf v
decreasing_by
  · have smaller := List.sizeOf_lt_of_mem ‹_ ∈ items›
    simp only [Json.arr.sizeOf_spec]
    omega
  · have smaller := List.sizeOf_lt_of_mem ‹_ ∈ fields›
    obtain ⟨k, v⟩ := f
    simp only [Prod.mk.sizeOf_spec] at smaller
    simp only [Json.obj.sizeOf_spec]
    omega

/-! ### Printed forms -/

private theorem fourHex_control {n : Nat} (small : n < 0x20) :
    FourHex ['0', '0', Nat.digitChar (n / 16), Nat.digitChar (n % 16)] n := by
  have digits : ∀ n < 0x20,
      ['0', '0', Nat.digitChar (n / 16), Nat.digitChar (n % 16)].all isHexDigit = true := by decide
  have value : ∀ n < 0x20,
      numeral 16 ['0', '0', Nat.digitChar (n / 16), Nat.digitChar (n % 16)] = n := by decide
  exact ⟨rfl, List.all_eq_true.mp (digits n small), value n small⟩

private theorem charSpelling_jsonEscape (c : Char) : CharSpelling c (jsonEscape c) := by
  unfold jsonEscape
  split_ifs with quote backslash _ _ _ _ _ control
  -- the first seven branches write a mark of the table
  iterate 7
    · subst_vars
      exact .short (by decide)
  · exact .code (fourHex_control control)
  · exact .plain quote backslash (Nat.le_of_not_lt control)

private theorem stringSpelling_jsonString (s : String) :
    StringSpelling s (jsonString s).toList := by
  refine ⟨s.toList.map jsonEscape, ?_, ?_⟩
  · rw [List.forall₂_map_right_iff]
    exact List.forall₂_same.mpr fun c _ => charSpelling_jsonEscape c
  · rw [jsonString, String.toList_ofList, List.flatMap]

private theorem row_joined {gap b : List Char} (blank : Blanks gap) (behind : Blanks b) :
    ∀ {parts : List (List Char)}, parts ≠ [] →
      Row parts (gap ++ List.intercalate (',' :: gap) parts ++ b)
  | [part], _ => by
    rw [List.intercalate_singleton]
    exact .last blank behind
  | part :: next :: others, _ => by
    have row := row_joined blank behind (List.cons_ne_nil next others)
    have whole : Row (part :: next :: others) _ :=
      .more blank blanks_nil (List.cons_ne_nil next others) row
    rw [List.intercalate_cons_cons]
    simpa only [List.append_nil, List.append_assoc, List.cons_append, List.singleton_append]
      using whole

private theorem fieldSpelling_printed {f : String × Json} {value gap : List Char}
    (behind : Blanks gap)
    (spelled : Spelling f.2 value) :
    FieldSpelling Spelling f ((jsonString f.1).toList ++ ':' :: (gap ++ value)) := by
  have field := FieldSpelling.field (stringSpelling_jsonString f.1) blanks_nil behind spelled
  rwa [List.append_nil] at field

private theorem compactItems_eq (items : List Json) : compactItems items = items.map compact := by
  induction items with
  | nil => rw [compactItems, List.map_nil]
  | cons v vs ih => rw [compactItems, ih, List.map_cons]

private theorem compactFields_eq (fields : List (String × Json)) :
    compactFields fields = fields.map fun f => jsonString f.1 ++ ":" ++ compact f.2 := by
  induction fields with
  | nil => rw [compactFields, List.map_nil]
  | cons f fs ih => rw [compactFields, ih, List.map_cons]

private theorem prettyItems_eq (level : Nat) (items : List Json) :
    prettyItems level items = items.map (pretty level) := by
  induction items with
  | nil => rw [prettyItems, List.map_nil]
  | cons v vs ih => rw [prettyItems, ih, List.map_cons]

private theorem prettyFields_eq (level : Nat) (fields : List (String × Json)) :
    prettyFields level fields = fields.map fun f => jsonString f.1 ++ ": " ++ pretty level f.2 := by
  induction fields with
  | nil => rw [prettyFields, List.map_nil]
  | cons f fs ih => rw [prettyFields, ih, List.map_cons]

private theorem row_compact (parts : List String) :
    Row (parts.map String.toList) (",".intercalate parts).toList := by
  rw [String.toList_intercalate]
  cases parts with
  | nil => exact .empty blanks_nil
  | cons part parts =>
    have row := row_joined blanks_nil blanks_nil
      (List.cons_ne_nil part.toList (parts.map String.toList))
    rwa [List.nil_append, List.append_nil] at row

private theorem blanks_newline (level : Nat) : Blanks (newline level).toList := by
  intro c inside
  rw [newline, String.toList_append, List.mem_append] at inside
  rcases inside with line | indentation
  · rw [List.mem_singleton.mp line]
    rfl
  · rw [String.toList_ofList] at indentation
    rw [List.eq_of_mem_replicate indentation]
    rfl

private theorem exists_row_bracketed (level : Nat) (opening closing : String)
    (parts : List String) :
    ∃ cs, Row (parts.map String.toList) cs ∧
      (bracketed level opening closing parts).toList = opening.toList ++ cs ++ closing.toList := by
  cases parts with
  | nil => exact ⟨[], .empty blanks_nil, by simp [bracketed]⟩
  | cons part parts =>
    refine ⟨_, row_joined (blanks_newline (level + 1)) (blanks_newline level)
      (List.cons_ne_nil part.toList (parts.map String.toList)), ?_⟩
    simp [bracketed, String.toList_intercalate]

theorem spelling_compact (v : Json) : Spelling v v.compact.toList := by
  induction v using inside_induction with
  | null => exact .null
  | bool b => cases b <;> constructor
  | nat n =>
    rw [compact, Nat.toString_eq_ofList_toDigits, String.toList_ofList]
    exact .nat
  | str s => exact .str (stringSpelling_jsonString s)
  | arr items ih =>
    have each : List.Forall₂ Spelling items ((items.map compact).map String.toList) := by
      rw [List.map_map, List.forall₂_map_right_iff]
      exact List.forall₂_same.mpr ih
    rw [compact, compactItems_eq, String.toList_append, String.toList_append]
    exact .arr each (row_compact _)
  | obj fields ih =>
    have each : List.Forall₂ (FieldSpelling Spelling) fields
        ((fields.map fun f => jsonString f.1 ++ ":" ++ compact f.2).map String.toList) := by
      rw [List.map_map, List.forall₂_map_right_iff]
      refine List.forall₂_same.mpr fun f inside => ?_
      simpa using fieldSpelling_printed blanks_nil (ih f inside)
    rw [compact, compactFields_eq, String.toList_append, String.toList_append]
    exact .obj each (row_compact _)

theorem spelling_pretty (v : Json) (level : Nat) : Spelling v (v.pretty level).toList := by
  induction v using inside_induction generalizing level with
  | null =>
    rw [pretty]
    exact .null
  | bool b =>
    rw [pretty]
    cases b <;> constructor
  | nat n =>
    rw [pretty, Nat.toString_eq_ofList_toDigits, String.toList_ofList]
    exact .nat
  | str s =>
    rw [pretty]
    exact .str (stringSpelling_jsonString s)
  | arr items ih =>
    have each : List.Forall₂ Spelling items
        ((items.map (pretty (level + 1))).map String.toList) := by
      rw [List.map_map, List.forall₂_map_right_iff]
      exact List.forall₂_same.mpr fun v inside => ih v inside (level + 1)
    rw [pretty, prettyItems_eq]
    obtain ⟨cs, row, text⟩ := exists_row_bracketed level "[" "]" (items.map (pretty (level + 1)))
    rw [text]
    exact .arr each row
  | obj fields ih =>
    have each : List.Forall₂ (FieldSpelling Spelling) fields
        ((fields.map fun f => jsonString f.1 ++ ": " ++ pretty (level + 1) f.2).map
          String.toList) := by
      rw [List.map_map, List.forall₂_map_right_iff]
      refine List.forall₂_same.mpr fun f inside => ?_
      have blank : Blanks [' '] := by
        intro c only
        rw [List.mem_singleton.mp only]
        rfl
      simpa using fieldSpelling_printed blank (ih f inside (level + 1))
    rw [pretty, prettyFields_eq]
    obtain ⟨cs, row, text⟩ := exists_row_bracketed level "\x7b" "\x7d"
      (fields.map fun f => jsonString f.1 ++ ": " ++ pretty (level + 1) f.2)
    rw [text]
    exact .obj each row

end Json

end Lockstep
