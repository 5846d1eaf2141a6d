import Lockstep.Grammar.Parser
import Mathlib.Data.List.Basic
/-!
What a parser reads. A parser that succeeds moves over some tokens, and `Reads p R` says that its
value and these tokens are always in the relation `R`. There is one rule for each way to build
parsers, so that what a grammar rule reads is found by following its definition. Relations that can
be joined from parts have rules of their own, for values in a row.
-/

set_option autoImplicit false
set_option relaxedAutoImplicit false

namespace Lockstep

/-- Where the last of some tokens ends, those before them ending at `stop`. -/
def lastStop (stop : Nat) (tokens : List Lexeme) : Nat := tokens.foldl (fun _ l => l.span.stop) stop

/-- The cursor moves over `used`. -/
structure Cursor.Moves (c d : Cursor) (used : List Lexeme) : Prop where
  rest : c.rest = used ++ d.rest
  stop : d.lastStop = Lockstep.lastStop c.lastStop used
  length : d.length = c.length

theorem Cursor.Moves.refl (c : Cursor) : c.Moves c [] := ⟨rfl, rfl, rfl⟩

theorem Cursor.Moves.trans {c d e : Cursor} {used more : List Lexeme} (first : c.Moves d used)
    (second : d.Moves e more) : c.Moves e (used ++ more) := by
  refine ⟨?_, ?_, second.length.trans first.length⟩
  · rw [first.rest, second.rest, List.append_assoc]
  · rw [second.stop, first.stop, Lockstep.lastStop, Lockstep.lastStop, Lockstep.lastStop,
      List.foldl_append]

def Spans (used : List Lexeme) (span : Span) : Prop :=
  ∀ first others, used = first :: others →
    span = ⟨first.span.start, lastStop first.span.stop others⟩

/-- One value after the other, each in the relation with tokens of its own. -/
inductive Each {α : Type} (R : α → List Lexeme → Prop) : List α → List Lexeme → Prop where
  | nil : Each R [] []
  | cons {a : α} {as : List α} {u v : List Lexeme} (first : R a u) (others : Each R as v) :
      Each R (a :: as) (u ++ v)

namespace Parser

variable {α β : Type} {p q : Parser α} {R : α → List Lexeme → Prop}

/-- Whenever the parser succeeds, its value and the tokens it moves over are in the relation. -/
def Reads (p : Parser α) (R : α → List Lexeme → Prop) : Prop :=
  ∀ c log a d log', p c log = (some (a, d), log') → ∃ used, c.Moves d used ∧ R a used

namespace Reads

theorem mono {R' : α → List Lexeme → Prop} (reads : Reads p R)
    (weaker : ∀ a used, R a used → R' a used) : Reads p R' := by
  intro c log a d log' success
  obtain ⟨used, moves, related⟩ := reads c log a d log' success
  exact ⟨used, moves, weaker a used related⟩

theorem pure {a : α} (related : R a []) : Reads (Pure.pure a) R := by
  intro c log b d log' success
  cases success
  exact ⟨[], .refl c, related⟩

theorem fail : Reads (Parser.fail : Parser α) R := by
  intro c log a d log' success
  cases success

theorem bind {f : α → Parser β} {S : β → List Lexeme → Prop} (first : Reads p R)
    (second : ∀ a u, R a u → Reads (f a) fun b v => S b (u ++ v)) : Reads (p >>= f) S := by
  intro c log b d log' success
  simp only [Bind.bind] at success
  cases outcome : p c log with
  | mk result log₁ =>
    rw [outcome] at success
    cases result with
    | none => cases success
    | some step =>
      obtain ⟨a, c'⟩ := step
      obtain ⟨u, moves, related⟩ := first c log a c' log₁ outcome
      obtain ⟨v, moves', related'⟩ := second a u related c' log₁ b d log' success
      exact ⟨u ++ v, moves.trans moves', related'⟩

theorem map {f : α → β} {S : β → List Lexeme → Prop} (reads : Reads p fun a u => S (f a) u) :
    Reads (f <$> p) S := by
  refine reads.bind fun a u related => pure ?_
  rwa [List.append_nil]

theorem next {expected : Expected} {read : Token → Option α} :
    Reads (Parser.next expected read) fun a u => ∃ l, u = [l] ∧ read l.token = some a := by
  intro c log a d log' success
  obtain ⟨rest, stop, length⟩ := c
  cases rest with
  | nil => cases success
  | cons l rest =>
    simp only [Parser.next] at success
    cases accepted : read l.token with
    | none =>
      rw [accepted] at success
      cases success
    | some b =>
      rw [accepted] at success
      cases success
      exact ⟨[l], ⟨rfl, rfl, rfl⟩, l, rfl, accepted⟩

theorem token {t : Token} : Reads (Parser.token t) fun _ u => ∃ l, u = [l] :=
  next.mono fun _ _ ⟨l, single, _⟩ => ⟨l, single⟩

theorem spanned (reads : Reads p R) :
    Reads (Parser.spanned p) fun r u => R r.1 u ∧ Spans u r.2 := by
  intro c log r d log' success
  simp only [Parser.spanned] at success
  cases outcome : p c log with
  | mk result log₁ =>
    rw [outcome] at success
    cases result with
    | none => cases success
    | some step =>
      obtain ⟨a, c'⟩ := step
      cases success
      obtain ⟨used, moves, related⟩ := reads c log a d log' outcome
      refine ⟨used, moves, related, ?_⟩
      rintro first others rfl
      have start : c.rest = first :: (others ++ d.rest) := moves.rest
      simp only [Cursor.upTo, start, moves.stop]
      rfl

theorem atEnd : Reads Parser.atEnd fun _ u => u = [] := by
  intro c log a d log' success
  simp only [Parser.atEnd] at success
  cases rest : c.rest with
  | nil =>
    rw [rest] at success
    cases success
    exact ⟨[], .refl c, rfl⟩
  | cons l others =>
    rw [rest] at success
    cases success

theorem guard_accepts {accepts : α → Bool} (reads : Reads p R) :
    Reads (Parser.guard p accepts) fun a u => R a u ∧ accepts a = true := by
  intro c log a d log' success
  simp only [Parser.guard] at success
  cases outcome : p c log with
  | mk result log₁ =>
    rw [outcome] at success
    cases result with
    | none => cases success
    | some step =>
      obtain ⟨b, c'⟩ := step
      simp only at success
      split at success
      case isTrue accepted =>
        cases success
        obtain ⟨used, moves, related⟩ := reads c log a d _ outcome
        exact ⟨used, moves, related, accepted⟩
      case isFalse => cases success

theorem guard {accepts : α → Bool} (reads : Reads p R) : Reads (Parser.guard p accepts) R :=
  reads.guard_accepts.mono fun _ _ related => related.1

theorem demand {accepts : α → Bool} {reason : Reason} (reads : Reads p R) :
    Reads (Parser.demand p accepts reason) R := by
  intro c log a d log' success
  simp only [Parser.demand] at success
  cases outcome : p c { log with furthest := none } with
  | mk result log₁ =>
    rw [outcome] at success
    cases result with
    | none => cases success
    | some step =>
      obtain ⟨b, c'⟩ := step
      have read := reads c _ b c' log₁ outcome
      simp only at success
      split at success
      · split at success
        · cases success
          exact read
        · cases success
          exact read
      · cases success

theorem or (first : Reads p R) (second : Reads q R) : Reads (Parser.or p q) R := by
  intro c log a d log' success
  simp only [Parser.or] at success
  cases outcome : p c log with
  | mk result log₁ =>
    rw [outcome] at success
    cases result with
    | none => exact second c _ a d log' success
    | some step =>
      cases success
      exact first c log a d _ outcome

theorem optional {S : Option α → List Lexeme → Prop} (reads : Reads p fun a u => S (some a) u)
    (absent : S none []) : Reads (Parser.optional p) S :=
  or (map reads) (pure absent)

theorem many (reads : Reads p R) : Reads (Parser.many p) (Each R) := by
  have rounds (n : Nat) (c : Cursor) (log : Log) :
      ∃ used, c.Moves (manyWithin p n c log).1.2 used ∧ Each R (manyWithin p n c log).1.1 used := by
    induction n generalizing c log with
    | zero => exact ⟨[], .refl c, .nil⟩
    | succ n ih =>
      simp only [manyWithin]
      cases outcome : p c log with
      | mk result log₁ =>
        cases result with
        | none => exact ⟨[], .refl c, .nil⟩
        | some step =>
          obtain ⟨a, c'⟩ := step
          obtain ⟨u, moves, related⟩ := reads c log a c' log₁ outcome
          obtain ⟨v, moves', others⟩ := ih c' log₁
          exact ⟨u ++ v, moves.trans moves', .cons related others⟩
  intro c log as d log' success
  have whole := rounds (c.rest.length + 1) c log
  simp only [Parser.many, Prod.mk.injEq, Option.some.injEq] at success
  rwa [success.1] at whole

theorem lookAhead : Reads (Parser.lookAhead p) fun _ u => u = [] := by
  intro c log a d log' success
  simp only [Parser.lookAhead] at success
  cases outcome : p c log with
  | mk result log₁ =>
    rw [outcome] at success
    cases result with
    | none => cases success
    | some step =>
      cases success
      exact ⟨[], .refl c, rfl⟩

theorem recover {skip : Parser α} (first : Reads p R) (second : Reads skip R) :
    Reads (Parser.recover p skip) R := by
  intro c log a d log' success
  simp only [Parser.recover] at success
  cases outcome : p c log with
  | mk result log₁ =>
    rw [outcome] at success
    cases result with
    | some step =>
      cases success
      exact first c log a d _ outcome
    | none =>
      simp only at success
      cases skipped : skip c ⟨none, log.reported⟩ with
      | mk result log₂ =>
        rw [skipped] at success
        cases result with
        | none => cases success
        | some step =>
          cases success
          exact second c _ a d _ skipped

/-- A rule that refers to itself reads what it reads if its references do. -/
theorem fix {rule : Parser α → Parser α} (step : ∀ inner, Reads inner R → Reads (rule inner) R) :
    Reads (Parser.fix rule) R := by
  have depths (n : Nat) : Reads (unfold rule n) R := by
    induction n with
    | zero => exact fail
    | succ n ih => exact step _ ih
  intro c log a d log' success
  exact depths (c.rest.length + 1) c log a d log' success

theorem between {opening closing : Sign} (reads : Reads p R) :
    Reads (Parser.between opening p closing) fun a u => ∃ l v r, u = l :: (v ++ [r]) ∧ R a v := by
  refine token.bind fun _ u ⟨l, left⟩ => reads.bind fun a v related => ?_
  refine token.bind fun _ w ⟨r, right⟩ => pure ?_
  exact ⟨l, v, r, by rw [left, right]; simp, related⟩

theorem after {q : Parser β} {S : β → List Lexeme → Prop} (first : Reads p R) (second : Reads q S) :
    Reads (Parser.after p q) fun b w => ∃ a u v, w = u ++ v ∧ R a u ∧ S b v :=
  first.bind fun a u related => second.mono fun _ v related' => ⟨a, u, v, rfl, related, related'⟩

theorem before {q : Parser β} {S : β → List Lexeme → Prop} (first : Reads p R)
    (second : Reads q S) :
    Reads (Parser.before p q) fun a w => ∃ b u v, w = u ++ v ∧ R a u ∧ S b v := by
  refine first.bind fun a u related => second.bind fun b v related' => pure ?_
  exact ⟨b, u, v, by rw [List.append_nil], related, related'⟩

end Reads

end Parser

/-- A relation between tokens and what is found in them: it holds where nothing is found, it joins
what is found in one row of tokens and in the next, and more tokens do it no harm. -/
class Gathered {γ : Type} (P : List Lexeme → List γ → Prop) : Prop where
  nil : ∀ u, P u []
  append : ∀ {u v : List Lexeme} {xs ys : List γ}, P u xs → P v ys → P (u ++ v) (xs ++ ys)
  mono : ∀ {u v : List Lexeme} {xs : List γ}, P u xs → u.Sublist v → P v xs

namespace Parser

variable {α β γ : Type} {p : Parser α} {P : List Lexeme → List γ → Prop} {found : α → List γ}

def Gathers (P : List Lexeme → List γ → Prop) (p : Parser α) (found : α → List γ) : Prop :=
  Reads p fun a u => P u (found a)

namespace Gathers

variable [Gathered P]

theorem nothing {R : α → List Lexeme → Prop} (reads : Reads p R) : Gathers P p fun _ => [] :=
  reads.mono fun _ u _ => Gathered.nil u

private theorem of_each {as : List α} {u : List Lexeme}
    (each : Each (fun a u => P u (found a)) as u) :
    P u (as.flatMap found) := by
  induction each with
  | nil => exact Gathered.nil []
  | cons first _ ih => exact Gathered.append first ih

theorem many (gathers : Gathers P p found) :
    Gathers P (Parser.many p) fun as => as.flatMap found :=
  (Reads.many gathers).mono fun _ _ => of_each

theorem optional (gathers : Gathers P p found) :
    Gathers P (Parser.optional p) fun o => o.toList.flatMap found := by
  refine Reads.optional (gathers.mono fun a u related => ?_) (Gathered.nil [])
  simpa using related

theorem between {opening closing : Sign} (gathers : Gathers P p found) :
    Gathers P (Parser.between opening p closing) found := by
  refine (Reads.between gathers).mono ?_
  rintro a u ⟨l, v, r, rfl, related⟩
  exact Gathered.mono related ((List.sublist_append_left v [r]).cons l)

theorem after {q : Parser β} {R : β → List Lexeme → Prop} (first : Reads q R)
    (second : Gathers P p found) : Gathers P (Parser.after q p) found := by
  refine (Reads.after first second).mono ?_
  rintro a w ⟨b, u, v, rfl, -, related⟩
  exact Gathered.mono related (List.sublist_append_right u v)

theorem before {q : Parser β} {R : β → List Lexeme → Prop} (first : Gathers P p found)
    (second : Reads q R) : Gathers P (Parser.before p q) found := by
  refine (Reads.before first second).mono ?_
  rintro a w ⟨b, u, v, rfl, related, -⟩
  exact Gathered.mono related (List.sublist_append_left u v)

theorem commaSep1 (gathers : Gathers P p found) :
    Gathers P (Parser.commaSep1 p) fun as => as.flatMap found := by
  refine Reads.bind gathers fun a u first => ?_
  refine Reads.bind (after .token gathers).many fun as v others => .pure ?_
  rw [List.append_nil]
  exact Gathered.append first others

theorem commaSep (gathers : Gathers P p found) :
    Gathers P (Parser.commaSep p) fun as => as.flatMap found :=
  Reads.or gathers.commaSep1 (.pure (Gathered.nil []))

theorem commaSepEnd (gathers : Gathers P p found) :
    Gathers P (Parser.commaSepEnd p) fun as => as.flatMap found :=
  Reads.or (gathers.commaSep1.before (nothing (P := P) .token).optional) (.pure (Gathered.nil []))

end Gathers

end Parser

end Lockstep
