import Lockstep.Token.Basic
import Mathlib.Data.List.Basic
/-!
Brackets of one kind in a row of tokens. A row is level if no closing bracket comes before the
opening one it would answer, and balanced if in addition there are as many of both. A row that is
not level has a first closing bracket too many, and what stands before that is balanced.
-/

set_option autoImplicit false
set_option relaxedAutoImplicit false

namespace Lockstep

def Level (opening closing : Sign) (w : List Token) : Prop :=
  ∀ u v, w = u ++ v → u.count (.sign closing) ≤ u.count (.sign opening)

/-- A level row with as many closing as opening brackets. -/
structure Balanced (opening closing : Sign) (w : List Token) : Prop where
  level : Level opening closing w
  total : w.count (.sign opening) = w.count (.sign closing)

variable {o c : Sign} {t : Token} {u v w : List Token}

private theorem level_nil : Level o c [] := by
  intro u v split
  obtain ⟨rfl, _⟩ := List.append_eq_nil_iff.mp split.symm
  exact Nat.le_refl _

theorem balanced_nil : Balanced o c [] := ⟨level_nil, rfl⟩

theorem Level.cons (level : Level o c w) (other : t ≠ .sign c) : Level o c (t :: w) := by
  intro u v split
  cases u with
  | nil => exact Nat.le_refl _
  | cons s u =>
    obtain ⟨rfl, rest⟩ := List.cons.inj split
    have before := level u v rest
    have more : u.count (.sign o) ≤ (t :: u).count (.sign o) := List.count_le_count_cons
    rw [List.count_cons_of_ne other]
    omega

theorem Level.tail (level : Level o c (t :: w)) (other : t ≠ .sign o) : Level o c w := by
  intro u v split
  have before := level (t :: u) v (by rw [split, List.cons_append])
  have more : u.count (.sign c) ≤ (t :: u).count (.sign c) := List.count_le_count_cons
  rw [List.count_cons_of_ne other] at before
  omega

theorem Balanced.cons (balanced : Balanced o c w) (notOpening : t ≠ .sign o)
    (notClosing : t ≠ .sign c) : Balanced o c (t :: w) := by
  refine ⟨balanced.level.cons notClosing, ?_⟩
  rw [List.count_cons_of_ne notOpening, List.count_cons_of_ne notClosing, balanced.total]

theorem Balanced.tail (balanced : Balanced o c (t :: w)) (notOpening : t ≠ .sign o)
    (notClosing : t ≠ .sign c) : Balanced o c w := by
  refine ⟨balanced.level.tail notOpening, ?_⟩
  have total := balanced.total
  rwa [List.count_cons_of_ne notOpening, List.count_cons_of_ne notClosing] at total

private theorem Balanced.append_level (first : Balanced o c u) (second : Level o c v) :
    Level o c (u ++ v) := by
  intro x y split
  rcases List.append_eq_append_iff.mp split with ⟨z, rfl, rest⟩ | ⟨z, rfl, _⟩
  · have before := second z y rest
    rw [List.count_append, List.count_append, first.total]
    omega
  · exact first.level x z rfl

theorem Balanced.append (first : Balanced o c u) (second : Balanced o c v) :
    Balanced o c (u ++ v) := by
  refine ⟨first.append_level second.level, ?_⟩
  rw [List.count_append, List.count_append, first.total, second.total]

theorem Level.of_append (level : Level o c (u ++ v)) (first : Balanced o c u) : Level o c v := by
  intro x y split
  have before := level (u ++ x) y (by rw [split, List.append_assoc])
  rw [List.count_append, List.count_append, first.total] at before
  omega

theorem Balanced.of_append (whole : Balanced o c (u ++ v)) (first : Balanced o c u) :
    Balanced o c v := by
  refine ⟨whole.level.of_append first, ?_⟩
  have total := whole.total
  rw [List.count_append, List.count_append, first.total] at total
  omega

section Distinct

variable (distinct : o ≠ c)
include distinct

theorem balanced_enclosed (inside : Balanced o c u) :
    Balanced o c (.sign o :: (u ++ [Token.sign c])) := by
  have opens : Token.sign o ≠ .sign c := fun same => distinct (Token.sign.inj same)
  have total : (Token.sign o :: (u ++ [Token.sign c])).count (.sign o) =
      (Token.sign o :: (u ++ [Token.sign c])).count (.sign c) := by
    rw [List.count_cons_self, List.count_cons_of_ne opens, List.count_append, List.count_append,
      List.count_cons_of_ne opens.symm, List.count_cons_self, inside.total]
    rfl
  refine ⟨?_, total⟩
  intro x y split
  cases x with
  | nil => exact Nat.le_refl _
  | cons t x =>
    obtain ⟨rfl, rest⟩ := List.cons.inj split
    rcases List.append_eq_append_iff.mp rest with ⟨z, rfl, last⟩ | ⟨z, rfl, _⟩
    · -- The closing bracket is the last token, so the start leaves it out or is everything.
      rcases List.append_eq_singleton_iff.mp last.symm with ⟨rfl, _⟩ | ⟨rfl, rfl⟩
      · rw [List.append_nil, List.count_cons_self, List.count_cons_of_ne opens, inside.total]
        omega
      · exact Nat.le_of_eq total.symm
    · have before := inside.level x z rfl
      rw [List.count_cons_self, List.count_cons_of_ne opens]
      omega

theorem not_level_closing : ¬ Level o c (.sign c :: w) := by
  intro level
  have before := level [.sign c] w rfl
  have closes : Token.sign c ≠ .sign o := fun same => distinct (Token.sign.inj same).symm
  rw [List.count_cons_self, List.count_cons_of_ne closes] at before
  simp at before

theorem Balanced.not_level_append (first : Balanced o c u) : ¬ Level o c (u ++ Token.sign c :: v) :=
  fun level => not_level_closing distinct (level.of_append first)

/-- In a row that is not level, what stands before the first closing bracket too many is
balanced. -/
theorem level_or_unmatched (w : List Token) :
    Level o c w ∨ ∃ u v, w = u ++ Token.sign c :: v ∧ Balanced o c u := by
  induction size : w.length using Nat.strongRecOn generalizing w with
  | _ n ih =>
    cases w with
    | nil => exact .inl level_nil
    | cons t w =>
      subst size
      by_cases closes : t = .sign c
      · exact .inr ⟨[], w, by rw [closes]; rfl, balanced_nil⟩
      rcases ih w.length (by simp) w rfl with level | ⟨u, v, rfl, inside⟩
      · exact .inl (level.cons closes)
      by_cases opens : t = .sign o
      · subst opens
        have enclosed := balanced_enclosed distinct inside
        have regroup (x : List Token) : Token.sign o :: (u ++ Token.sign c :: x) =
            (Token.sign o :: (u ++ [Token.sign c])) ++ x := by simp
        rw [regroup]
        rcases ih v.length (by simp; omega) v rfl with level | ⟨u', v', rfl, between⟩
        · exact .inl (enclosed.append_level level)
        · exact .inr ⟨_, v', (List.append_assoc ..).symm, enclosed.append between⟩
      · exact .inr ⟨t :: u, v, rfl, inside.cons opens closes⟩

theorem Level.opening_cases (level : Level o c (.sign o :: w)) :
    (∃ u v, w = u ++ Token.sign c :: v ∧ Balanced o c u ∧ Level o c v) ∨ Level o c w := by
  rcases level_or_unmatched distinct w with inside | ⟨u, v, rfl, inside⟩
  · exact .inr inside
  · refine .inl ⟨u, v, rfl, inside, ?_⟩
    apply Level.of_append (u := .sign o :: (u ++ [Token.sign c])) _
      (balanced_enclosed distinct inside)
    simpa using level

theorem Balanced.exists_closing (balanced : Balanced o c (.sign o :: w)) :
    ∃ u v, w = u ++ Token.sign c :: v ∧ Balanced o c u ∧ Balanced o c v := by
  rcases level_or_unmatched distinct w with level | ⟨u, v, rfl, inside⟩
  · have opens : Token.sign o ≠ .sign c := fun same => distinct (Token.sign.inj same)
    have whole := level w [] (by simp)
    have total := balanced.total
    rw [List.count_cons_self, List.count_cons_of_ne opens] at total
    omega
  · refine ⟨u, v, rfl, inside, ?_⟩
    apply Balanced.of_append (u := .sign o :: (u ++ [Token.sign c])) _
      (balanced_enclosed distinct inside)
    simpa using balanced

end Distinct

end Lockstep
