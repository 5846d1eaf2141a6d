import Lockstep.Number.Shortest
import Lockstep.Text.Escaped
import Lockstep.Text.Location
import Mathlib.Tactic.SplitIfs
/-!
Texts without a line break. Numbers are such texts, and so is a quoted text, whatever it quotes;
a location is one if the name of its file is.
-/

set_option autoImplicit false
set_option relaxedAutoImplicit false

namespace Lockstep

/-- The text holds no line break. -/
def OneLine (s : String) : Prop := '\n' ∉ s.toList

instance (s : String) : Decidable (OneLine s) := inferInstanceAs (Decidable ('\n' ∉ s.toList))

namespace OneLine

variable {s t : String} {cs : List Char}

theorem append (first : OneLine s) (second : OneLine t) : OneLine (s ++ t) := by
  rw [OneLine, String.toList_append, List.mem_append]
  exact fun inside => inside.elim first second

theorem ofList (absent : '\n' ∉ cs) : OneLine (String.ofList cs) := by
  rwa [OneLine, String.toList_ofList]

theorem intercalate {parts : List String} (separator : OneLine s)
    (each : ∀ part ∈ parts, OneLine part) : OneLine (s.intercalate parts) := by
  rw [OneLine, String.toList_intercalate]
  induction parts with
  | nil => exact List.not_mem_nil
  | cons part parts ih =>
    have first := each part List.mem_cons_self
    have others := ih fun p inside => each p (List.mem_cons_of_mem _ inside)
    cases parts with
    | nil => simpa [OneLine] using first
    | cons next parts =>
      rw [List.map_cons, List.map_cons, List.intercalate_cons_cons, List.mem_append, List.mem_append]
      exact fun inside => inside.elim (fun inside => inside.elim first separator) others

theorem toDigits {b : Nat} (base : 1 < b) (most : b ≤ 16) (n : Nat) : '\n' ∉ Nat.toDigits b n := by
  have digit : ∀ k < 16, '\n' ≠ Nat.digitChar k := by decide
  induction n using Nat.strongRecOn with
  | ind n ih =>
    by_cases small : n < b
    · rw [Nat.toDigits_of_lt_base small, List.mem_singleton]
      exact digit n (Nat.lt_of_lt_of_le small most)
    · rw [Nat.toDigits_of_base_le base (Nat.le_of_not_lt small), List.mem_append,
        List.mem_singleton]
      have shorter := ih (n / b) (Nat.div_lt_self (by omega) base)
      have last := digit (n % b) (Nat.lt_of_lt_of_le (Nat.mod_lt n (by omega)) most)
      exact fun inside => inside.elim shorter last

theorem nat (n : Nat) : OneLine (toString n) := by
  rw [Nat.toString_eq_ofList_toDigits]
  exact ofList (toDigits (by decide) (by decide) n)

end OneLine

private theorem not_mem_ite {p : Prop} [Decidable p] {c : Char} {l m : List Char} (left : c ∉ l)
    (right : c ∉ m) : c ∉ if p then l else m := by
  split
  · exact left
  · exact right

theorem oneLine_escaped (s : String) : OneLine (escaped s) := by
  have code (c : Char) : '\n' ∉ codePointEscape c := by
    have digits := OneLine.toDigits (b := 16) (by decide) (by decide) c.toNat
    simp [codePointEscape, digits]
  have char (c : Char) : '\n' ∉ escapeChar c := by
    by_cases lineBreak : c = '\n'
    · rw [lineBreak]
      decide
    · have self : '\n' ∉ [c] := fun inside => lineBreak (List.mem_singleton.mp inside).symm
      unfold escapeChar
      repeat' apply not_mem_ite
      all_goals first | exact self | decide | exact code c
  refine .ofList ?_
  simp [char]

private theorem Location.oneLine_toText {l : Location} (file : OneLine l.file) : OneLine l.toText :=
  .append (.append (.append (.append file (by decide)) (.nat l.line)) (by decide)) (.nat l.column)

theorem SourceText.oneLine_location {t : SourceText} (file : OneLine t.name) (span : Span) :
    OneLine (t.spanLocation span).toText :=
  Location.oneLine_toText file

private theorem Decimal.oneLine_positional (d : Decimal) : OneLine d.positional := by
  have digits := OneLine.toDigits (b := 10) (by decide) (by decide) d.digits
  have nought (n : Nat) : OneLine (zeros n) :=
    .ofList fun inside => absurd (List.eq_of_mem_replicate inside) (by decide)
  have front (n : Nat) : OneLine (String.ofList ((Nat.toDigits 10 d.digits).take n)) :=
    .ofList fun inside => digits (List.mem_of_mem_take inside)
  have back (n : Nat) : OneLine (String.ofList ((Nat.toDigits 10 d.digits).drop n)) :=
    .ofList fun inside => digits (List.mem_of_mem_drop inside)
  simp only [positional]
  split
  · exact .append (.ofList digits) (nought _)
  · split
    · exact .append (.append (front _) (by decide)) (back _)
    · exact .append (.append (by decide) (nought _)) (.ofList digits)

theorem Binary64.oneLine_plainText (v : Binary64) : OneLine v.plainText := by
  unfold plainText
  split
  · decide
  · exact Decimal.oneLine_positional _

end Lockstep
