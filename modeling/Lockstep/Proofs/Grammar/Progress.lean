import Lockstep.Proofs.Grammar.Plan
import Lockstep.Proofs.Grammar.Skipping
import Mathlib.Logic.Relation
/-!
Reading makes progress and ends.

The parsers run a bounded number of rounds and of calls within calls. Here the plans of the grammar
are followed without a bound: `Gives` says what comes of a plan, and `Tries` what is tried on the
way. As a plan repeats only what reads a token, and calls rules of a lower rank only until it has
read one, no chain of attempts is endless. So something comes of each plan, and it is what the
bounded parser gives: the bounds are never what ends it.
-/

set_option autoImplicit false
set_option relaxedAutoImplicit false

namespace Lockstep

private theorem Cursor.Moves.eq_of_nil {c d : Cursor} (moves : c.Moves d []) : d = c := by
  obtain ⟨w, stop, length⟩ := c
  obtain ⟨v, stop', length'⟩ := d
  have ahead : w = v := moves.rest
  have last : stop' = stop := moves.stop
  have whole : length' = length := moves.length
  rw [ahead, last, whole]

theorem Cursor.Moves.shorter {c d : Cursor} {used : List Lexeme} (moves : c.Moves d used)
    (some : used ≠ []) : d.rest.length < c.rest.length := by
  have positive := List.length_pos_of_ne_nil some
  rw [moves.rest, List.length_append]
  omega

namespace Parser

section Results

variable {α β : Type} {p q : Parser α} (c : Cursor) (log : Log)

private theorem fst_bind (f : α → Parser β) :
    ((p >>= f) c log).1 = (p c log).1.bind fun x => (f x.1 x.2 (p c log).2).1 := by
  simp only [Bind.bind]
  rcases p c log with ⟨_ | ⟨a, d⟩, log'⟩ <;> rfl

private theorem fst_map (g : α → β) :
    ((g <$> p) c log).1 = (p c log).1.map fun x => (g x.1, x.2) := by
  simp only [Functor.map]
  rcases p c log with ⟨_ | ⟨a, d⟩, log'⟩ <;> rfl

private theorem fst_spanned :
    (spanned p c log).1 = (p c log).1.map fun x => ((x.1, c.upTo x.2), x.2) := by
  simp only [spanned]
  rcases p c log with ⟨_ | ⟨a, d⟩, log'⟩ <;> rfl

private theorem fst_guard (accepts : α → Bool) :
    (guard p accepts c log).1 = (p c log).1.filter fun x => accepts x.1 := by
  simp only [guard]
  rcases p c log with ⟨_ | ⟨a, d⟩, log'⟩
  · rfl
  · by_cases accepted : accepts a = true <;> simp [Option.filter, accepted]

private theorem fst_demand (accepts : α → Bool) (reason : Reason) :
    (demand p accepts reason c log).1 =
      (p c { log with furthest := none }).1.filter fun x => accepts x.1 := by
  simp only [demand]
  rcases p c { log with furthest := none } with ⟨_ | ⟨a, d⟩, log'⟩
  · rfl
  · by_cases accepted : accepts a = true
    · simp only [Option.filter, accepted, if_true]
      cases log'.furthest <;> rfl
    · simp [Option.filter, accepted]

private theorem fst_or :
    (or p q c log).1 = (p c log).1.or (q c ((p c log).2.backTo log)).1 := by
  simp only [Parser.or]
  rcases p c log with ⟨_ | ⟨a, d⟩, log'⟩ <;> rfl

private theorem fst_recover :
    (recover p q c log).1 = (p c log).1.or (q c ⟨none, log.reported⟩).1 := by
  simp only [recover]
  rcases p c log with ⟨_ | ⟨a, d⟩, log'⟩
  · rcases q c ⟨none, log.reported⟩ with ⟨_ | ⟨a, d⟩, log''⟩ <;> rfl
  · rfl

private theorem fst_lookAhead :
    (lookAhead p c log).1 = (p c log).1.map fun x => (x.1, c) := by
  simp only [lookAhead]
  rcases p c log with ⟨_ | ⟨a, d⟩, log'⟩ <;> rfl

private theorem fst_many_none (stuck : (p c log).1 = none) : (many p c log).1 = some ([], c) := by
  simp only [many, manyWithin]
  generalize p c log = x at stuck ⊢
  obtain ⟨_, log'⟩ := x
  subst stuck
  rfl

private theorem fst_many_some {d : Cursor} {a : α} (less : d.rest.length < c.rest.length)
    (shorter : ∀ {c' d' : Cursor} {log log' : Log} {a : α}, c'.rest.length ≤ d.rest.length →
      p c' log = (some (a, d'), log') → d'.rest.length < c'.rest.length)
    (first : (p c log).1 = some (a, d)) :
    (many p c log).1 = (many p d (p c log).2).1.map fun x => (a :: x.1, x.2) := by
  simp only [many, manyWithin]
  generalize p c log = x at first ⊢
  obtain ⟨_, log'⟩ := x
  subst first
  simp only
  rw [manyWithin_eq shorter _ (d.rest.length + 1) d log' le_rfl less (Nat.lt_succ_self _)]
  rfl

end Results

end Parser

namespace Grammar

open Lockstep.Parser

/-- What comes of a plan at a cursor, with as many rounds and as many calls within calls as it
takes. -/
inductive Plan.Gives : {n : Nat} → {b : Bool} → {α : Type} → {p : Parser α} → Plan n b p → Cursor →
    Option (α × Cursor) → Prop where
  | pure {n α c} {a : α} : Gives (.pure : Plan n false (Pure.pure a)) c (some (a, c))
  | fail {n b α c} : Gives (.fail : Plan n b (Parser.fail : Parser α)) c none
  | next {n b α c l rest expected} {read : Token → Option α} {a : α} (ahead : c.rest = l :: rest)
    (accepted : read l.token = some a) :
    Gives (.next : Plan n b (Parser.next expected read)) c (some (a, ⟨rest, l.span.stop, c.length⟩))
  | nextFail {n b α c expected} {read : Token → Option α}
    (refused : ∀ l ∈ c.rest.head?, read l.token = none) :
    Gives (.next : Plan n b (Parser.next expected read)) c none
  | atEnd {n c} (ended : c.rest = []) : Gives (.atEnd : Plan n false _) c (some ((), c))
  | atEndFail {n c} (more : c.rest ≠ []) : Gives (.atEnd : Plan n false _) c none
  | bind {n m b k α β moved c d a r} {p : Parser α} {f : α → Parser β} {first : Plan n moved p}
    {second : ∀ a, Plan (cond moved m n) (cond moved k b) (f a)} (one : Gives first c (some (a, d)))
    (two : Gives (second a) d r) : Gives (.bind moved first second) c r
  | bindFail {n m b k α β moved c} {p : Parser α} {f : α → Parser β} {first : Plan n moved p}
    {second : ∀ a, Plan (cond moved m n) (cond moved k b) (f a)} (one : Gives first c none) :
    Gives (.bind moved first second) c none
  | map {n b α β c r} {p : Parser α} {g : α → β} {inner : Plan n b p} (one : Gives inner c r) :
    Gives (.map inner : Plan n b (g <$> p)) c (r.map fun x => (g x.1, x.2))
  | spanned {n b α c r} {p : Parser α} {inner : Plan n b p} (one : Gives inner c r) :
    Gives (.spanned inner) c (r.map fun x => ((x.1, c.upTo x.2), x.2))
  | guard {n b α c r accepts} {p : Parser α} {inner : Plan n b p} (one : Gives inner c r) :
    Gives (.guard inner : Plan n b (Parser.guard p accepts)) c (r.filter fun x => accepts x.1)
  | demand {n b α c r accepts reason} {p : Parser α} {inner : Plan n b p} (one : Gives inner c r) :
    Gives (.demand inner : Plan n b (Parser.demand p accepts reason)) c
      (r.filter fun x => accepts x.1)
  | or {n b α c x} {p q : Parser α} {first : Plan n b p} {second : Plan n b q}
    (one : Gives first c (some x)) : Gives (.or first second) c (some x)
  | orElse {n b α c r} {p q : Parser α} {first : Plan n b p} {second : Plan n b q}
    (one : Gives first c none) (two : Gives second c r) : Gives (.or first second) c r
  | many {n α c d e a as} {p : Parser α} {round : Plan n true p} (one : Gives round c (some (a, d)))
    (others : Gives (.many round) d (some (as, e))) : Gives (.many round) c (some (a :: as, e))
  | manyEnd {n α c} {p : Parser α} {round : Plan n true p} (one : Gives round c none) :
    Gives (.many round) c (some ([], c))
  | row {n m b α c d e a as} {p q : Parser α} {first : Plan n true p} {round : Plan m true q}
    (one : Gives first c (some (a, d))) (others : Gives (.many round) d (some (as, e))) :
    Gives (.row first round : Plan n b _) c (some (a :: as, e))
  | rowFail {n m b α c} {p q : Parser α} {first : Plan n true p} {round : Plan m true q}
    (one : Gives first c none) : Gives (.row first round : Plan n b _) c none
  | lookAhead {n α c r} {p : Parser α} {inner : Plan n false p} (one : Gives inner c r) :
    Gives (.lookAhead inner) c (r.map fun x => (x.1, c))
  | recover {n b α c x} {p skip : Parser α} {first : Plan n b p} {second : Plan n b skip}
    (one : Gives first c (some x)) : Gives (.recover first second) c (some x)
  | recoverSkip {n b α c r} {p skip : Parser α} {first : Plan n b p} {second : Plan n b skip}
    (one : Gives first c none) (two : Gives second c r) : Gives (.recover first second) c r
  | call {n b α c x} {p body : Parser α} {r : Rule p body} (below : r.rank < n)
    (progress : b = true → r.reads = true) (one : Gives r.plan c x) :
    Gives (.call r below progress) c x

structure Attempt where
  {level : Nat}
  {reads : Bool}
  {α : Type}
  {parser : Parser α}
  plan : Plan level reads parser
  cursor : Cursor

/-- What is tried in turn where the plan is tried at the cursor. -/
def Plan.Tries {n : Nat} {b : Bool} {α : Type} {p : Parser α} (k : Plan n b p) (c : Cursor)
    (t : Attempt) : Prop :=
  match k with
  | .pure | .fail | .next | .atEnd => False
  | .bind _ first second =>
    t = ⟨first, c⟩ ∨ ∃ a d, first.Gives c (some (a, d)) ∧ t = ⟨second a, d⟩
  | .map inner => t = ⟨inner, c⟩
  | .spanned inner => t = ⟨inner, c⟩
  | .guard inner => t = ⟨inner, c⟩
  | .demand inner => t = ⟨inner, c⟩
  | .or first second => t = ⟨first, c⟩ ∨ first.Gives c none ∧ t = ⟨second, c⟩
  | .many round => t = ⟨round, c⟩ ∨ ∃ a d, round.Gives c (some (a, d)) ∧ t = ⟨.many round, d⟩
  | .row first round => t = ⟨first, c⟩ ∨ ∃ a d, first.Gives c (some (a, d)) ∧ t = ⟨.many round, d⟩
  | .lookAhead inner => t = ⟨inner, c⟩
  | .recover first second => t = ⟨first, c⟩ ∨ first.Gives c none ∧ t = ⟨second, c⟩
  | .call r _ _ => t = ⟨r.plan, c⟩

/-- The round with which a repetition goes on. -/
def Plan.Repeats {n : Nat} {b : Bool} {α : Type} {p : Parser α} (k : Plan n b p) (c : Cursor)
    (t : Attempt) : Prop :=
  match k with
  | .many round => t = ⟨round, c⟩
  | .row first _ => t = ⟨first, c⟩
  | _ => False

namespace Attempt

/-- The second attempt is made on the way to the outcome of the first. -/
def Tries (s t : Attempt) : Prop := s.plan.Tries s.cursor t

/-- The first attempt is one of a repetition, the second its next round. -/
def Repeats (s t : Attempt) : Prop := s.plan.Repeats s.cursor t

def Calls (s : Attempt) {α : Type} {p body : Parser α} (r : Rule p body) : Prop :=
  ∃ (n : Nat) (b : Bool) (below : r.rank < n) (progress : b = true → r.reads = true),
    s = ⟨.call r below progress, s.cursor⟩

end Attempt

section Steps

variable {n : Nat} {b : Bool} {α : Type} {p : Parser α} {k : Plan n b p} {c d : Cursor}

theorem Plan.Gives.moves {r : Option (α × Cursor)} (gives : k.Gives c r) :
    ∀ a d, r = some (a, d) → ∃ used, c.Moves d used ∧ (b = true → used ≠ []) := by
  induction gives with
  | pure | atEnd | manyEnd =>
    intro a d given
    cases given
    exact ⟨[], .refl _, by simp⟩
  | fail | nextFail | atEndFail | bindFail | rowFail => simp
  | next ahead _ =>
    intro a d given
    cases given
    exact ⟨[_], ⟨ahead, rfl, rfl⟩, by simp⟩
  | @bind _ _ _ _ _ _ moved _ _ _ _ _ _ _ _ _ _ one two =>
    intro a e given
    obtain ⟨u, moves, some⟩ := one _ _ rfl
    obtain ⟨v, moves', some'⟩ := two _ _ given
    refine ⟨u ++ v, moves.trans moves', fun reads => ?_⟩
    cases moved with
    | true => simp [some rfl]
    | false => simp [some' reads]
  | map _ ih | spanned _ ih =>
    intro a d given
    obtain ⟨x, same, eq⟩ := Option.map_eq_some_iff.mp given
    cases eq
    exact ih _ _ same
  | guard _ ih | demand _ ih =>
    intro a d given
    exact ih _ _ (Option.filter_eq_some_iff.mp given).1
  | or _ ih | recover _ ih => exact ih
  | orElse _ _ _ ih | recoverSkip _ _ _ ih => exact ih
  | many _ _ first others =>
    intro a d given
    cases given
    obtain ⟨u, moves, _⟩ := first _ _ rfl
    obtain ⟨v, moves', _⟩ := others _ _ rfl
    exact ⟨u ++ v, moves.trans moves', by simp⟩
  | row _ _ first others =>
    intro a d given
    cases given
    obtain ⟨u, moves, some⟩ := first _ _ rfl
    obtain ⟨v, moves', _⟩ := others _ _ rfl
    exact ⟨u ++ v, moves.trans moves', by simp [some rfl]⟩
  | lookAhead _ _ =>
    intro a d given
    obtain ⟨x, _, eq⟩ := Option.map_eq_some_iff.mp given
    cases eq
    exact ⟨[], .refl _, by simp⟩
  | call _ progress _ ih =>
    intro a d given
    obtain ⟨used, moves, some⟩ := ih a d given
    exact ⟨used, moves, fun reads => some (progress reads)⟩

theorem Plan.Gives.shorter {k : Plan n true p} {a : α} (gives : k.Gives c (some (a, d))) :
    d.rest.length < c.rest.length := by
  obtain ⟨used, moves, some⟩ := gives.moves a d rfl
  exact moves.shorter (some rfl)

theorem Plan.Tries.moves {t : Attempt} (tries : k.Tries c t) :
    ∃ used, c.Moves t.cursor used ∧ (used = [] → t.level ≤ n) := by
  cases k with
  | pure | fail | next | atEnd => cases tries
  | map inner | spanned inner | guard inner | demand inner | lookAhead inner =>
    cases tries
    exact ⟨[], .refl c, fun _ => le_rfl⟩
  | bind moved first second =>
    rcases tries with rfl | ⟨a, d, gives, rfl⟩
    · exact ⟨[], .refl c, fun _ => le_rfl⟩
    · obtain ⟨used, moves, some⟩ := gives.moves a d rfl
      refine ⟨used, moves, fun none => ?_⟩
      cases moved with
      | true => exact absurd none (some rfl)
      | false => exact le_rfl
  | or first second | recover first second =>
    rcases tries with rfl | ⟨_, rfl⟩ <;> exact ⟨[], .refl c, fun _ => le_rfl⟩
  | many round =>
    rcases tries with rfl | ⟨a, d, gives, rfl⟩
    · exact ⟨[], .refl c, fun _ => le_rfl⟩
    · obtain ⟨used, moves, _⟩ := gives.moves a d rfl
      exact ⟨used, moves, fun _ => le_rfl⟩
  | row first round =>
    rcases tries with rfl | ⟨a, d, gives, rfl⟩
    · exact ⟨[], .refl c, fun _ => le_rfl⟩
    · obtain ⟨used, moves, some⟩ := gives.moves a d rfl
      exact ⟨used, moves, fun none => absurd none (some rfl)⟩
  | call r below progress =>
    cases tries
    exact ⟨[], .refl c, fun _ => below.le⟩

private theorem Attempt.moves_of_tries {s t : Attempt} (chain : Relation.ReflTransGen Tries s t) :
    ∃ used, s.cursor.Moves t.cursor used ∧ (used = [] → t.level ≤ s.level) := by
  induction chain with
  | refl => exact ⟨[], .refl _, fun _ => le_rfl⟩
  | tail _ step ih =>
    obtain ⟨u, moves, level⟩ := ih
    obtain ⟨v, moves', level'⟩ := Plan.Tries.moves step
    refine ⟨u ++ v, moves.trans moves', fun none => ?_⟩
    obtain ⟨first, last⟩ := List.append_eq_nil_iff.mp none
    exact (level' last).trans (level first)

/-- A rule that has called itself, whatever lies between, has read a token. -/
theorem Attempt.Calls.moves {body : Parser α} {r : Rule p body} {s t : Attempt} (calls : s.Calls r)
    (again : t.Calls r) (chain : Relation.TransGen Tries s t) :
    ∃ used, used ≠ [] ∧ s.cursor.rest = used ++ t.cursor.rest := by
  obtain ⟨u, first, others⟩ := Relation.TransGen.head'_iff.mp chain
  obtain ⟨_, _, _, _, same⟩ := calls
  obtain ⟨_, _, below, _, same'⟩ := again
  rw [same] at first
  cases first
  obtain ⟨used, moves, level⟩ := moves_of_tries others
  refine ⟨used, fun none => ?_, moves.rest⟩
  have least := level none
  rw [same'] at least
  exact absurd below (Nat.not_lt.mpr least)

end Steps

section Ending

variable {n : Nat} {b : Bool} {α : Type} {p : Parser α} {c d : Cursor}

/-- The first attempt comes after the second: behind a token, or on the way to its outcome. -/
def Attempt.After (t s : Attempt) : Prop :=
  t.cursor.rest.length < s.cursor.rest.length ∨ s.Tries t

/-- Nothing goes on for ever at one cursor, if nothing does behind it or in rules of a lower level. -/
private theorem Plan.acc_after (k : Plan n b p)
    (behind : ∀ t : Attempt, t.cursor.rest.length < c.rest.length → Acc Attempt.After t)
    (lower : ∀ t : Attempt, t.cursor = c → t.level < n → Acc Attempt.After t) :
    Acc Attempt.After ⟨k, c⟩ := by
  have step {m : Nat} {b : Bool} {β : Type} {q : Parser β} {k : Plan m b q}
      (each : ∀ t, k.Tries c t → Acc Attempt.After t) : Acc Attempt.After ⟨k, c⟩ :=
    .intro _ fun t after => after.elim (behind t) (each t)
  induction k with
  | pure | fail | next | atEnd => exact step fun _ tries => tries.elim
  | map inner ih | spanned inner ih | guard inner ih | demand inner ih | lookAhead inner ih =>
    refine step fun t tries => ?_
    cases tries
    exact ih lower
  | bind moved first second one two =>
    refine step fun t tries => ?_
    rcases tries with rfl | ⟨a, d, gives, rfl⟩
    · exact one lower
    · obtain ⟨used, moves, some⟩ := gives.moves a d rfl
      by_cases none : used = []
      · subst none
        cases moved with
        | true => exact absurd rfl (some rfl)
        | false =>
          rw [moves.eq_of_nil]
          exact two a lower
      · exact behind _ (moves.shorter none)
  | or first second one two | recover first second one two =>
    refine step fun t tries => ?_
    rcases tries with rfl | ⟨_, rfl⟩
    · exact one lower
    · exact two lower
  | many round ih =>
    refine step fun t tries => ?_
    rcases tries with rfl | ⟨a, d, gives, rfl⟩
    · exact ih lower
    · exact behind _ gives.shorter
  | row first round one _ =>
    refine step fun t tries => ?_
    rcases tries with rfl | ⟨a, d, gives, rfl⟩
    · exact one lower
    · exact behind _ gives.shorter
  | call r below progress =>
    refine step fun t tries => ?_
    cases tries
    exact lower _ rfl below

private theorem Attempt.wellFounded_after : WellFounded After := by
  refine ⟨fun s => ?_⟩
  induction size : s.cursor.rest.length using Nat.strongRecOn generalizing s with
  | _ size behind =>
    induction level : s.level using Nat.strongRecOn generalizing s with
    | _ level lower =>
      subst size level
      exact s.plan.acc_after (fun t less => behind _ less t rfl)
        fun t same less => lower _ less t (by rw [same]) rfl

private theorem Rule.fst_eq {body : Parser α} (r : Rule p body) (c : Cursor) (log : Log) :
    (p c log).1 = (body c log).1 := by
  have blocks := Enclosure.blocks_whole
  cases r with
  | group o c =>
    have plain (t : Token) := Enclosure.plain_whole t
    exact fst_eq_of_agree _ _ (fun _ => .fix_rule fun _ _ _ _ =>
      agree_groupRule (.inl ⟨plain _, plain _⟩) fun _ _ => plain _) fun _ _ same => same
  | unary =>
    exact fst_eq_of_agree _ _ (fun _ => .fix_rule fun _ _ _ _ =>
      agree_unaryRule blocks.brackets (agree_expr blocks.brackets)) fun _ _ same => by simp [same]
  | expr =>
    exact fst_eq_of_agree _ _ (fun _ => .fix_rule fun _ _ _ _ => agree_assignment blocks.brackets)
      fun _ _ same => by simp [same]
  | stmt =>
    exact fst_eq_of_agree _ _ (fun _ => .fix_rule fun _ _ _ _ => agree_stmtRule blocks)
      fun _ _ same => by simp [same]
  | _ => rfl

theorem Attempt.gives (s : Attempt) (log : Log) : s.plan.Gives s.cursor (s.parser s.cursor log).1 := by
  induction s using wellFounded_after.induction generalizing log with
  | _ s ih =>
    obtain ⟨k, c⟩ := s
    have tried {m : Nat} {b : Bool} {β : Type} {q : Parser β} {k' : Plan m b q} {d : Cursor}
        (tries : k.Tries c ⟨k', d⟩) (log : Log) : k'.Gives d (q d log).1 := ih ⟨k', d⟩ (.inr tries) log
    cases k with
    | pure => exact .pure
    | fail => exact .fail
    | @next _ _ _ _ read =>
      obtain ⟨w, stop, length⟩ := c
      cases w with
      | nil => exact .nextFail (by simp)
      | cons l rest =>
        simp only [Parser.next]
        cases accepted : read l.token with
        | none => exact .nextFail (by simpa using accepted)
        | some a => exact .next rfl accepted
    | atEnd =>
      obtain ⟨w, stop, length⟩ := c
      cases w with
      | nil => exact .atEnd rfl
      | cons l rest => exact .atEndFail (by simp)
    | @bind _ _ _ _ _ _ p f moved first second =>
      have one := tried (.inl rfl) log
      rw [fst_bind]
      cases run : (p c log).1 with
      | none =>
        rw [run] at one
        exact .bindFail one
      | some x =>
        rw [run] at one
        exact .bind one (tried (.inr ⟨_, _, one, rfl⟩) _)
    | map inner =>
      rw [fst_map]
      exact .map (tried rfl log)
    | spanned inner =>
      rw [fst_spanned]
      exact .spanned (tried rfl log)
    | guard inner =>
      rw [fst_guard]
      exact .guard (tried rfl log)
    | demand inner =>
      rw [fst_demand]
      exact .demand (tried rfl _)
    | @or _ _ _ p q first second =>
      have one := tried (.inl rfl) log
      rw [fst_or]
      cases run : (p c log).1 with
      | none =>
        rw [run] at one
        exact .orElse one (tried (.inr ⟨one, rfl⟩) _)
      | some x =>
        rw [run] at one
        exact .or one
    | @many _ _ p round =>
      have one := tried (.inl rfl) log
      cases run : (p c log).1 with
      | none =>
        rw [run] at one
        rw [fst_many_none _ _ run]
        exact .manyEnd one
      | some x =>
        rw [run] at one
        rw [fst_many_some _ _ one.shorter ?_ run]
        · exact .many one (tried (.inr ⟨_, _, one, rfl⟩) _)
        · intro c' d' log₁ log₂ a less ran
          have round' := ih ⟨round, c'⟩ (.inl (less.trans_lt one.shorter)) log₁
          simp only [ran] at round'
          exact round'.shorter
    | @row _ _ _ _ p q first round =>
      have one := tried (.inl rfl) log
      rw [fst_bind]
      cases run : (p c log).1 with
      | none =>
        rw [run] at one
        exact .rowFail one
      | some x =>
        rw [run] at one
        exact .row one (tried (.inr ⟨_, _, one, rfl⟩) _)
    | lookAhead inner =>
      rw [fst_lookAhead]
      exact .lookAhead (tried rfl log)
    | @recover _ _ _ p q first second =>
      have one := tried (.inl rfl) log
      rw [fst_recover]
      cases run : (p c log).1 with
      | none =>
        rw [run] at one
        exact .recoverSkip one (tried (.inr ⟨one, rfl⟩) _)
      | some x =>
        rw [run] at one
        exact .recover one
    | call r below progress =>
      rw [r.fst_eq]
      exact .call below progress (tried rfl log)

private theorem Plan.shorter_of_run (k : Plan n true p) {log : Log} {a : α}
    (run : (p c log).1 = some (a, d)) : d.rest.length < c.rest.length := by
  have gives := Attempt.gives ⟨k, c⟩ log
  simp only [run] at gives
  exact gives.shorter

private theorem Plan.Gives.fst_eq {k : Plan n b p} {r : Option (α × Cursor)} (gives : k.Gives c r)
    (log : Log) : (p c log).1 = r := by
  induction gives generalizing log with
  | pure | fail => rfl
  | next ahead accepted => simp only [Parser.next, ahead, accepted]
  | nextFail refused =>
    simp only [Parser.next]
    split
    next l rest ahead => rw [refused l (by rw [ahead, List.head?_cons, Option.mem_some])]
    next => rfl
  | atEnd ended => simp only [Parser.atEnd, ended]
  | atEndFail more =>
    simp only [Parser.atEnd]
    split
    next ended => exact absurd ended more
    next => rfl
  | bind _ _ one two => rw [fst_bind, one, Option.bind_some, two]
  | bindFail _ one => rw [fst_bind, one, Option.bind_none]
  | map _ one => rw [fst_map, one]
  | spanned _ one => rw [fst_spanned, one]
  | guard _ one => rw [fst_guard, one]
  | demand _ one => rw [fst_demand, one]
  | or _ one => rw [fst_or, one, Option.some_or]
  | orElse _ _ one two => rw [fst_or, one, Option.none_or, two]
  | @many _ _ _ _ _ _ _ _ round first _ one others =>
    rw [fst_many_some _ _ first.shorter (fun _ ran => round.shorter_of_run (by rw [ran])) (one log),
      others]
    rfl
  | manyEnd _ one => exact fst_many_none _ _ (one log)
  | row _ _ one others =>
    rw [fst_bind, one, Option.bind_some, fst_bind, others]
    rfl
  | rowFail _ one => rw [fst_bind, one, Option.bind_none]
  | lookAhead _ one => rw [fst_lookAhead, one]
  | recover _ one => rw [fst_recover, one, Option.some_or]
  | recoverSkip _ _ one two => rw [fst_recover, one, Option.none_or, two]
  | @call _ _ _ _ _ _ _ r _ _ _ one => rw [r.fst_eq, one]

private theorem Plan.gives_iff {k : Plan n b p} {r : Option (α × Cursor)} (log : Log) :
    k.Gives c r ↔ r = (p c log).1 :=
  ⟨fun gives => (gives.fst_eq log).symm, fun same => same ▸ Attempt.gives ⟨k, c⟩ log⟩

end Ending

section Items

/-- The tokens fall into portions. Each is an item, or was skipped where no item can be read. -/
inductive Portions : List Lexeme → List (List Lexeme × Option Item) → Prop where
  | nil : Portions [] []
  | item {u v : List Lexeme} {x : Item} {portions : List (List Lexeme × Option Item)}
    (nonempty : u ≠ []) (reads : Takes soundItem u v x) (others : Portions v portions) :
    Portions (u ++ v) ((u, some x) :: portions)
  | skipped {u v : List Lexeme} {portions : List (List Lexeme × Option Item)} (nonempty : u ≠ [])
    (broken : Rejects soundItem (u ++ v)) (skips : Takes brokenItem u v ())
    (others : Portions v portions) : Portions (u ++ v) ((u, none) :: portions)

variable {w : List Lexeme} {portions : List (List Lexeme × Option Item)}

private theorem Portions.flatMap_fst (parts : Portions w portions) :
    portions.flatMap Prod.fst = w := by
  induction parts with
  | nil => rfl
  | item _ _ _ ih | skipped _ _ _ _ ih => rw [List.flatMap_cons, ih]

private theorem exists_portions {items : List (Option Item)}
    (takes : Takes (many item) w [] items) :
    ∃ portions, Portions w portions ∧ items = portions.map Prod.snd := by
  induction items generalizing w with
  | nil =>
    rcases advances_item.many_inv takes with ⟨rfl, _⟩ | ⟨_, _, _, _, _, more, _⟩
    · exact ⟨[], .nil, rfl⟩
    · cases more
  | cons o items ih =>
    rcases advances_item.many_inv takes with ⟨_, none⟩ | ⟨u, v, _, _, rfl, same, first, others⟩
    · cases none
    · cases same
      obtain ⟨portions, parts, rfl⟩ := ih others
      have nonempty := advances_item.nonempty first
      rw [List.append_nil] at first
      rcases takes_item_cases first with ⟨x, rfl, reads⟩ | ⟨rfl, broken, skips⟩
      · exact ⟨_, .item nonempty reads parts, rfl⟩
      · exact ⟨_, .skipped nonempty broken skips parts, rfl⟩

end Items

/-- Reading ends on every token sequence. Each round of a repetition reads a token. A rule that has
called itself, whatever lies between, has read one too. So no chain of attempts goes on for ever,
and what comes of the grammar, however many rounds and calls it takes, is one outcome: the one that
the parser gives. If it is a tree, every token is in one item or in what was skipped for one. -/
theorem reading_progresses_and_ends (tokens : List Lexeme) (length : Nat) :
    (∀ s t : Attempt, s.Repeats t → ∀ a d, t.plan.Gives t.cursor (some (a, d)) →
      ∃ used, used ≠ [] ∧ t.cursor.rest = used ++ d.rest) ∧
    (∀ {α : Type} {p body : Parser α} (r : Rule p body) (s t : Attempt), s.Calls r → t.Calls r →
      Relation.TransGen Attempt.Tries s t →
        ∃ used, used ≠ [] ∧ s.cursor.rest = used ++ t.cursor.rest) ∧
    WellFounded (fun t s : Attempt => s.Tries t) ∧
    (∃ result, (∀ r, unitPlan.Gives (.start tokens length) r ↔ r = result) ∧
      (parseTokens tokens length).1 = result.map Prod.fst) ∧
    ∀ unit, (parseTokens tokens length).1 = some unit → ∃ portions, Portions tokens portions ∧
      portions.flatMap Prod.fst = tokens ∧ unit.items = portions.filterMap Prod.snd := by
  refine ⟨?_, fun r s t calls again chain => calls.moves again chain, ?_, ?_, ?_⟩
  · rintro ⟨k, c⟩ t repeats a d gives
    cases k with
    | many round | row round _ =>
      cases repeats
      obtain ⟨used, moves, some⟩ := gives.moves a d rfl
      exact ⟨used, some rfl, moves.rest⟩
    | _ => cases repeats
  · exact Subrelation.wf .inr Attempt.wellFounded_after
  · refine ⟨_, fun r => Plan.gives_iff {}, ?_⟩
    unfold parseTokens
    generalize before sourceUnit atEnd (.start tokens length) {} = outcome
    rcases outcome with ⟨_ | ⟨unit, d⟩, log⟩ <;> rfl
  · intro unit parsed
    generalize outcome : parseTokens tokens length = result at parsed
    obtain ⟨_, failures⟩ := result
    cases parsed
    obtain ⟨items, takes, same⟩ := takes_items_of_parseTokens outcome
    obtain ⟨portions, parts, rfl⟩ := exists_portions takes
    refine ⟨portions, parts, parts.flatMap_fst, ?_⟩
    rw [same, List.filterMap_map]
    rfl

end Grammar

end Lockstep
