import Lockstep.Token.Pattern
import Mathlib.Data.List.Basic
/-!
The texts of a pattern. Reading a pattern character by character decides whether it has a text, and
a pattern has died exactly when no continuation of what was read is one of its texts. So `munch`
finds the longest match of a table, and how far the text is the beginning of some match.
-/

set_option autoImplicit false
set_option relaxedAutoImplicit false

namespace Lockstep

namespace Pattern

/-- The text is one of the pattern. -/
inductive Matches : Pattern → List Char → Prop where
  | blank : Matches blank []
  | one {accepts : Char → Bool} {c : Char} (accepted : accepts c = true) :
      Matches (one accepts) [c]
  | seq {p q : Pattern} {u v : List Char} (first : Matches p u) (second : Matches q v) :
      Matches (seq p q) (u ++ v)
  | left {p q : Pattern} {u : List Char} (first : Matches p u) : Matches (alt p q) u
  | right {p q : Pattern} {u : List Char} (second : Matches q u) : Matches (alt p q) u
  | starNil {p : Pattern} : Matches (star p) []
  | starCons {p : Pattern} {u v : List Char} (first : Matches p u) (others : Matches (star p) v) :
      Matches (star p) (u ++ v)

variable {p q : Pattern} {u v : List Char} {c : Char}

theorem not_matches_nothing : ¬ Matches nothing u := by
  intro matched
  cases matched

theorem matches_blank_iff : Matches blank u ↔ u = [] := by
  constructor
  · intro matched
    cases matched
    rfl
  · rintro rfl
    exact .blank

theorem matches_one_iff {accepts : Char → Bool} :
    Matches (one accepts) u ↔ ∃ c, accepts c = true ∧ u = [c] := by
  constructor
  · intro matched
    cases matched with
    | one accepted => exact ⟨_, accepted, rfl⟩
  · rintro ⟨c, accepted, rfl⟩
    exact .one accepted

theorem matches_seq_iff : Matches (seq p q) u ↔ ∃ v w, u = v ++ w ∧ Matches p v ∧ Matches q w := by
  constructor
  · intro matched
    cases matched with
    | seq first second => exact ⟨_, _, rfl, first, second⟩
  · rintro ⟨v, w, rfl, first, second⟩
    exact .seq first second

theorem matches_alt_iff : Matches (alt p q) u ↔ Matches p u ∨ Matches q u := by
  constructor
  · intro matched
    cases matched with
    | left first => exact .inl first
    | right second => exact .inr second
  · rintro (first | second)
    · exact .left first
    · exact .right second

theorem matches_nil_iff : Matches p [] ↔ p.nullable = true := by
  induction p with
  | nothing => simp [nullable, not_matches_nothing]
  | blank => simp [nullable, matches_blank_iff]
  | one accepts => simp [nullable, matches_one_iff]
  | seq p q ihp ihq =>
    rw [matches_seq_iff, nullable, Bool.and_eq_true, ← ihp, ← ihq]
    constructor
    · rintro ⟨v, w, empty, first, second⟩
      obtain ⟨rfl, rfl⟩ := List.append_eq_nil_iff.mp empty.symm
      exact ⟨first, second⟩
    · rintro ⟨first, second⟩
      exact ⟨[], [], rfl, first, second⟩
  | alt p q ihp ihq => rw [matches_alt_iff, nullable, Bool.or_eq_true, ihp, ihq]
  | star p ih => simp [nullable, Matches.starNil]

private theorem matches_andThen_iff : Matches (andThen p q) u ↔ Matches (seq p q) u := by
  cases p with
  | nothing => simp [andThen, matches_seq_iff, not_matches_nothing]
  | blank => simp [andThen, matches_seq_iff, matches_blank_iff]
  | _ => rfl

private theorem matches_orElse_iff : Matches (orElse p q) u ↔ Matches p u ∨ Matches q u := by
  cases p with
  | nothing => simp [orElse, not_matches_nothing]
  | _ => cases q <;> simp [orElse, matches_alt_iff, not_matches_nothing]

/-- What holds of no text at all, and of one more round in front, holds of every repetition. -/
theorem Matches.star_induction {P : List Char → Prop} (matched : Matches (star p) u) (nil : P [])
    (cons : ∀ v w, Matches p v → Matches (star p) w → P w → P (v ++ w)) : P u := by
  generalize repeated : star p = r at matched
  induction matched with
  | starNil => exact nil
  | starCons first others _ ih =>
    cases repeated
    exact cons _ _ first others (ih rfl)
  | _ => cases repeated

private theorem exists_of_matches_star (matched : Matches (star p) (c :: u)) :
    ∃ v w, u = v ++ w ∧ Matches p (c :: v) ∧ Matches (star p) w := by
  generalize whole : c :: u = s at matched
  refine matched.star_induction (P := fun s => c :: u = s → _) ?_ ?_ whole
  · intro empty
    cases empty
  · intro v w first others ih whole
    -- A round that takes no character can be left out.
    cases v with
    | nil => exact ih whole
    | cons d v =>
      cases whole
      exact ⟨v, w, rfl, first, others⟩

private theorem matches_derive_iff : Matches (p.derive c) u ↔ Matches p (c :: u) := by
  induction p generalizing u with
  | nothing => simp [derive, not_matches_nothing]
  | blank => simp [derive, not_matches_nothing, matches_blank_iff]
  | one accepts =>
    by_cases accepted : accepts c = true
    · simp [derive, accepted, matches_one_iff, matches_blank_iff]
    · simp [derive, accepted, matches_one_iff, not_matches_nothing]
  | seq p q ihp ihq =>
    -- The character belongs to the first part, or to the second where the first part is empty.
    have inFirst : Matches (andThen (p.derive c) q) u ↔
        ∃ v w, u = v ++ w ∧ Matches p (c :: v) ∧ Matches q w := by
      simp only [matches_andThen_iff, matches_seq_iff, ihp]
    have split : Matches (seq p q) (c :: u) ↔
        Matches (andThen (p.derive c) q) u ∨ p.nullable = true ∧ Matches q (c :: u) := by
      rw [inFirst, matches_seq_iff, ← matches_nil_iff]
      constructor
      · rintro ⟨v, w, whole, first, second⟩
        cases v with
        | nil =>
          rw [List.nil_append] at whole
          exact .inr ⟨first, whole ▸ second⟩
        | cons d v =>
          cases whole
          exact .inl ⟨v, w, rfl, first, second⟩
      · rintro (⟨v, w, rfl, first, second⟩ | ⟨first, second⟩)
        · exact ⟨c :: v, w, rfl, first, second⟩
        · exact ⟨[], c :: u, rfl, first, second⟩
    rw [split, derive]
    by_cases empty : p.nullable = true
    · simp [empty, matches_orElse_iff, ihq]
    · simp [empty]
  | alt p q ihp ihq => rw [derive, matches_orElse_iff, matches_alt_iff, ihp, ihq]
  | star p ih =>
    rw [derive, matches_andThen_iff, matches_seq_iff]
    constructor
    · rintro ⟨v, w, rfl, first, others⟩
      exact .starCons (ih.mp first) others
    · intro matched
      obtain ⟨v, w, rfl, first, others⟩ := exists_of_matches_star matched
      exact ⟨v, w, rfl, ih.mpr first, others⟩

/-- What may follow `u` in a text of the pattern. -/
def behind (p : Pattern) (u : List Char) : Pattern := u.foldl (fun p c => p.derive c) p

private theorem matches_behind_iff : Matches (p.behind u) v ↔ Matches p (u ++ v) := by
  induction u generalizing p with
  | nil => rfl
  | cons c u ih =>
    show Matches ((p.derive c).behind u) v ↔ Matches p (c :: (u ++ v))
    rw [ih, matches_derive_iff]

theorem nullable_behind_iff : (p.behind u).nullable = true ↔ Matches p u := by
  rw [← matches_nil_iff, matches_behind_iff, List.append_nil]

def Live (p : Pattern) : Prop := ∃ u, Matches p u

/-- Every part of the pattern that a text may need has a text itself. -/
def Trim : Pattern → Prop
  | nothing | blank => True
  | one accepts => ∃ c, accepts c = true
  | seq p q => Trim p ∧ Trim q ∧ Live p ∧ Live q
  | alt p q => Trim p ∧ Trim q ∧ (Live p ∨ Live q)
  | star p => Trim p

theorem Trim.live (trim : Trim p) (alive : p ≠ nothing) : Live p := by
  cases p with
  | nothing => exact (alive rfl).elim
  | blank => exact ⟨[], .blank⟩
  | one accepts =>
    obtain ⟨c, accepted⟩ := trim
    exact ⟨[c], .one accepted⟩
  | seq p q =>
    obtain ⟨-, -, ⟨u, first⟩, v, second⟩ := trim
    exact ⟨u ++ v, .seq first second⟩
  | alt p q =>
    obtain ⟨-, -, ⟨u, first⟩ | ⟨u, second⟩⟩ := trim
    · exact ⟨u, .left first⟩
    · exact ⟨u, .right second⟩
  | star p => exact ⟨[], .starNil⟩

private theorem Trim.andThen (first : Trim p) (second : Trim q) (live : Live q) :
    Trim (p.andThen q) := by
  by_cases dead : p = nothing
  · simp [dead, Pattern.andThen, Trim]
  · have alive := first.live dead
    cases p with
    | nothing => exact (dead rfl).elim
    | blank => exact second
    | _ => exact ⟨first, second, alive, live⟩

private theorem Trim.orElse (first : Trim p) (second : Trim q) : Trim (p.orElse q) := by
  by_cases dead : p = nothing
  · simpa [dead, Pattern.orElse] using second
  · have alive := first.live dead
    cases p with
    | nothing => exact (dead rfl).elim
    | _ =>
      cases q with
      | nothing => exact first
      | _ => exact ⟨first, second, .inl alive⟩

theorem Trim.derive (trim : Trim p) : Trim (p.derive c) := by
  induction p with
  | nothing => trivial
  | blank => trivial
  | one accepts => by_cases accepted : accepts c = true <;> simp [Pattern.derive, accepted, Trim]
  | seq p q ihp ihq =>
    obtain ⟨first, second, -, live⟩ := trim
    have inFirst := (ihp first).andThen second live
    by_cases empty : p.nullable = true
    · simpa [Pattern.derive, empty] using inFirst.orElse (ihq second)
    · simpa [Pattern.derive, empty] using inFirst
  | alt p q ihp ihq => exact (ihp trim.1).orElse (ihq trim.2.1)
  | star p ih => exact (ih trim).andThen trim ⟨[], .starNil⟩

theorem Trim.behind (trim : Trim p) : Trim (p.behind u) := by
  induction u generalizing p with
  | nil => exact trim
  | cons c u ih => exact ih trim.derive

theorem Trim.isDead_behind_iff (trim : Trim p) :
    (p.behind u).isDead = true ↔ ¬ ∃ v, Matches p (u ++ v) := by
  simp only [← matches_behind_iff]
  constructor
  · intro dead
    cases gone : p.behind u with
    | nothing =>
      rintro ⟨v, matched⟩
      exact not_matches_nothing matched
    | _ =>
      rw [gone] at dead
      cases dead
  · intro nowhere
    by_contra alive
    have survives : p.behind u ≠ nothing := by
      intro gone
      rw [gone] at alive
      exact alive rfl
    exact nowhere (trim.behind.live survives)

end Pattern

section Table

variable {α : Type} {table : List (Pattern × α)} {u cs : List Char} {c : Char}

def firstMatch (table : List (Pattern × α)) (u : List Char) : Option α :=
  (table.find? fun r => (r.1.behind u).nullable).map Prod.snd

theorem firstMatch_eq_none_iff : firstMatch table u = none ↔ ∀ r ∈ table, ¬ r.1.Matches u := by
  simp only [firstMatch, Option.map_eq_none_iff, List.find?_eq_none, Pattern.nullable_behind_iff]

theorem firstMatch_eq_some_iff {a : α} : firstMatch table u = some a ↔
    ∃ earlier p later, table = earlier ++ (p, a) :: later ∧ p.Matches u ∧
      ∀ r ∈ earlier, ¬ r.1.Matches u := by
  rw [firstMatch, Option.map_eq_some_iff]
  simp only [List.find?_eq_some_iff_append, Pattern.nullable_behind_iff, Bool.not_eq_true',
    ← Bool.not_eq_true]
  constructor
  · rintro ⟨⟨p, b⟩, ⟨matched, earlier, later, whole, before⟩, rfl⟩
    exact ⟨earlier, p, later, whole, matched, before⟩
  · rintro ⟨earlier, p, later, whole, matched, before⟩
    exact ⟨(p, a), ⟨matched, earlier, later, whole, before⟩, rfl⟩

private def advance (table : List (Pattern × α)) (c : Char) : List (Pattern × α) :=
  (table.map fun r => (r.1.derive c, r.2)).filter fun r => !r.1.isDead

private theorem firstMatch_advance :
    firstMatch (advance table c) u = firstMatch table (c :: u) := by
  have dead {r : Pattern × α} (matched : (r.1.behind u).nullable = true) : (!r.1.isDead) = true := by
    rw [Pattern.nullable_behind_iff] at matched
    cases gone : r.1 with
    | nothing =>
      rw [gone] at matched
      exact (Pattern.not_matches_nothing matched).elim
    | _ => rfl
  have drop (rows : List (Pattern × α)) :
      (rows.filter fun r => !r.1.isDead).find? (fun r => (r.1.behind u).nullable) =
        rows.find? fun r => (r.1.behind u).nullable := by
    rw [List.find?_filter]
    congr 1
    funext r
    by_cases matched : (r.1.behind u).nullable = true
    · rw [dead matched, matched]
      rfl
    · simp [matched]
  rw [firstMatch, firstMatch, advance, drop, List.find?_map, Option.map_map]
  rfl

private theorem munch_cons {done : Nat} {best : Option (α × Nat)} :
    munch table done best (c :: cs) =
      if (advance table c).isEmpty then ⟨best, done⟩
      else munch (advance table c) (done + 1)
        (((firstMatch table [c]).map fun a => (a, done + 1)).or best) cs := by
  have one : firstMatch table [c] =
      ((advance table c).find? fun r => r.1.nullable).map Prod.snd := by
    rw [← firstMatch_advance]
    rfl
  rw [one, munch]
  cases found : (advance table c).find? fun r => r.1.nullable with
  | none =>
    unfold advance at found ⊢
    simp only [found]
    rfl
  | some r =>
    unfold advance at found ⊢
    simp only [found]
    rfl

def Begins (table : List (Pattern × α)) (u : List Char) : Prop :=
  ∃ r ∈ table, ∃ v, r.1.Matches (u ++ v)

theorem Begins.take {n : Nat} (begins : Begins table u) : Begins table (u.take n) := by
  obtain ⟨r, entry, v, matched⟩ := begins
  refine ⟨r, entry, u.drop n ++ v, ?_⟩
  rwa [← List.append_assoc, List.take_append_drop]

private theorem begins_advance_iff : Begins (advance table c) u ↔ Begins table (c :: u) := by
  constructor
  · rintro ⟨r, entry, v, matched⟩
    obtain ⟨origin, member, rfl⟩ := List.mem_map.mp (List.mem_filter.mp entry).1
    exact ⟨origin, member, v, Pattern.matches_derive_iff.mp matched⟩
  · rintro ⟨r, member, v, matched⟩
    have derived : (r.1.derive c).Matches (u ++ v) := Pattern.matches_derive_iff.mpr matched
    refine ⟨(r.1.derive c, r.2), ?_, v, derived⟩
    refine List.mem_filter.mpr ⟨List.mem_map.mpr ⟨r, member, rfl⟩, ?_⟩
    cases gone : r.1.derive c with
    | nothing =>
      rw [gone] at derived
      exact (Pattern.not_matches_nothing derived).elim
    | _ => rfl

private theorem trim_advance (trim : ∀ r ∈ table, r.1.Trim) : ∀ r ∈ advance table c, r.1.Trim := by
  intro r entry
  obtain ⟨origin, member, rfl⟩ := List.mem_map.mp (List.mem_filter.mp entry).1
  exact (trim origin member).derive

private theorem advance_isEmpty_iff (trim : ∀ r ∈ table, r.1.Trim) :
    (advance table c).isEmpty = true ↔ ¬ Begins table [c] := by
  rw [← begins_advance_iff, List.isEmpty_iff]
  constructor
  · rintro empty ⟨r, entry, -⟩
    rw [empty] at entry
    cases entry
  · intro nowhere
    rw [List.eq_nil_iff_forall_not_mem]
    intro r entry
    have alive : r.1 ≠ .nothing := by
      intro gone
      have kept := (List.mem_filter.mp entry).2
      rw [gone] at kept
      cases kept
    obtain ⟨v, matched⟩ := (trim_advance trim r entry).live alive
    exact nowhere ⟨r, entry, v, matched⟩

/-- The match is the longest one at the start of the text. -/
structure LongestAt (table : List (Pattern × α)) (cs : List Char) (a : α) (n : Nat) : Prop where
  pos : 0 < n
  le : n ≤ cs.length
  matched : firstMatch table (cs.take n) = some a
  longest : ∀ m, n < m → m ≤ cs.length → firstMatch table (cs.take m) = none

private theorem munch_longest (table : List (Pattern × α)) (cs : List Char) (done : Nat)
    (best : Option (α × Nat)) :
    (∃ a n, LongestAt table cs a n ∧ (munch table done best cs).longest = some (a, done + n)) ∨
      (∀ m, 0 < m → m ≤ cs.length → firstMatch table (cs.take m) = none) ∧
        (munch table done best cs).longest = best := by
  induction cs generalizing table done best with
  | nil =>
    refine .inr ⟨?_, rfl⟩
    intro m positive bound
    rw [List.length_nil] at bound
    omega
  | cons c cs ih =>
    rw [munch_cons]
    have shifted (m : Nat) : firstMatch table ((c :: cs).take (m + 1)) =
        firstMatch (advance table c) (cs.take m) := by
      rw [firstMatch_advance, List.take_succ_cons]
    by_cases stuck : (advance table c).isEmpty = true
    · refine .inr ⟨?_, by rw [if_pos stuck]⟩
      intro m positive _
      obtain ⟨k, rfl⟩ := Nat.exists_eq_succ_of_ne_zero (Nat.pos_iff_ne_zero.mp positive)
      rw [shifted, List.isEmpty_iff.mp stuck]
      rfl
    · rw [if_neg stuck]
      -- Either the match goes on behind the character, or it ends with it, or there is none.
      rcases ih (advance table c) (done + 1)
        (((firstMatch table [c]).map fun a => (a, done + 1)).or best) with
        ⟨a, n, later, found⟩ | ⟨nowhere, found⟩
      · refine .inl ⟨a, n + 1, ⟨Nat.succ_pos n, ?_, ?_, ?_⟩, ?_⟩
        · exact Nat.succ_le_succ later.le
        · rw [shifted]
          exact later.matched
        · intro m above bound
          obtain ⟨k, rfl⟩ := Nat.exists_eq_succ_of_ne_zero (Nat.ne_of_gt (Nat.zero_lt_of_lt above))
          rw [List.length_cons] at bound
          rw [shifted]
          exact later.longest k (by omega) (by omega)
        · rw [found, Nat.add_assoc, Nat.add_comm 1 n]
      · have beyond (m : Nat) (above : 1 < m) (bound : m ≤ (c :: cs).length) :
            firstMatch table ((c :: cs).take m) = none := by
          obtain ⟨k, rfl⟩ := Nat.exists_eq_succ_of_ne_zero (Nat.ne_of_gt (Nat.zero_lt_of_lt above))
          rw [List.length_cons] at bound
          rw [shifted]
          exact nowhere k (by omega) (by omega)
        cases one : firstMatch table [c] with
        | some a =>
          refine .inl ⟨a, 1, ⟨Nat.one_pos, ?_, one, beyond⟩, ?_⟩
          · simp
          · rw [one] at found
            exact found
        | none =>
          refine .inr ⟨?_, ?_⟩
          · intro m positive bound
            by_cases single : m = 1
            · rw [single]
              exact one
            · exact beyond m (by omega) bound
          · rw [one] at found
            exact found

/-- `munch` finds the longest match of a table, and of equal matches the first of the table. -/
theorem longest_munch_eq_some_iff {a : α} {n : Nat} :
    (munch table 0 none cs).longest = some (a, n) ↔ LongestAt table cs a n := by
  rcases munch_longest table cs 0 none with ⟨b, m, here, found⟩ | ⟨nowhere, found⟩
  · rw [found, Nat.zero_add]
    constructor
    · intro same
      cases same
      exact here
    · intro other
      have same : m = n := by
        rcases Nat.lt_trichotomy m n with below | same | above
        · have gone := here.longest n below other.le
          rw [other.matched] at gone
          cases gone
        · exact same
        · have gone := other.longest m above here.le
          rw [here.matched] at gone
          cases gone
      subst same
      have value : b = a := Option.some.inj (here.matched.symm.trans other.matched)
      rw [value]
  · rw [found]
    constructor
    · intro absurd
      cases absurd
    · intro other
      have gone := nowhere n other.pos other.le
      rw [other.matched] at gone
      cases gone

theorem longest_munch_eq_none_iff : (munch table 0 none cs).longest = none ↔
    ∀ m, 0 < m → m ≤ cs.length → firstMatch table (cs.take m) = none := by
  rcases munch_longest table cs 0 none with ⟨a, n, here, found⟩ | ⟨nowhere, found⟩
  · rw [found]
    constructor
    · intro absurd
      cases absurd
    · intro nowhere
      have gone := nowhere n here.pos here.le
      rw [here.matched] at gone
      cases gone
  · rw [found]
    exact ⟨fun _ => nowhere, fun _ => rfl⟩

private theorem munch_reach (cs : List Char) (trim : ∀ r ∈ table, r.1.Trim) (done : Nat)
    (best : Option (α × Nat)) : ∃ n, (munch table done best cs).reach = done + n ∧ n ≤ cs.length ∧
      (0 < n → Begins table (cs.take n)) ∧ (n < cs.length → ¬ Begins table (cs.take (n + 1))) := by
  induction cs generalizing table done best with
  | nil => exact ⟨0, rfl, Nat.le_refl 0, fun absurd => by omega, fun absurd => by simp at absurd⟩
  | cons c cs ih =>
    rw [munch_cons]
    by_cases stuck : (advance table c).isEmpty = true
    · refine ⟨0, by rw [if_pos stuck]; rfl, Nat.zero_le _, fun absurd => by omega, fun _ => ?_⟩
      exact (advance_isEmpty_iff trim).mp stuck
    · rw [if_neg stuck]
      obtain ⟨n, reach, bound, begun, ended⟩ := ih (trim_advance trim) (done + 1)
        (((firstMatch table [c]).map fun a => (a, done + 1)).or best)
      refine ⟨n + 1, ?_, Nat.succ_le_succ bound, fun _ => ?_, fun within => ?_⟩
      · rw [reach]
        omega
      · rw [List.take_succ_cons, ← begins_advance_iff]
        by_cases first : n = 0
        · rw [first, List.take_zero, begins_advance_iff]
          by_contra absurd
          exact stuck ((advance_isEmpty_iff trim).mpr absurd)
        · exact begun (Nat.pos_of_ne_zero first)
      · rw [List.take_succ_cons, ← begins_advance_iff]
        rw [List.length_cons] at within
        exact ended (by omega)

/-- The characters up to the reach, but at least one, are where every pattern gives up. -/
theorem reach_munch (cs : List Char) (trim : ∀ r ∈ table, r.1.Trim) :
    (munch table 0 none cs).reach ≤ cs.length ∧
      (0 < (munch table 0 none cs).reach → Begins table (cs.take (munch table 0 none cs).reach)) ∧
      ((munch table 0 none cs).reach < cs.length →
        ¬ Begins table (cs.take ((munch table 0 none cs).reach + 1))) := by
  obtain ⟨n, reach, found⟩ := munch_reach cs trim 0 none
  rw [reach, Nat.zero_add]
  exact found

end Table

end Lockstep
