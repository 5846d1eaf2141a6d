import Lockstep.Grammar.Parser
import Mathlib.Data.List.Basic
/-!
What becomes of a parser at a cursor. `Succeeds p c a d` says that it reads `a` up to the cursor `d`
and reports no failure, `Fails p c` that it does not succeed, whatever was noted before. There is
one rule for each way to build parsers, so that a run is followed by applying rules.
-/

set_option autoImplicit false
set_option relaxedAutoImplicit false

namespace Lockstep

def Cursor.words (c : Cursor) : List Token := c.rest.map Lexeme.token

theorem Cursor.exists_cons {c : Cursor} {t : Token} {ts : List Token} (here : c.words = t :: ts) :
    ∃ l rest stop length, c = ⟨l :: rest, stop, length⟩ ∧ l.token = t ∧
      rest.map Lexeme.token = ts := by
  obtain ⟨rest, stop, length⟩ := c
  obtain ⟨l, rest', rfl, first, others⟩ := List.map_eq_cons_iff.1 here
  exact ⟨l, rest', stop, length, rfl, first, others⟩

private theorem Cursor.length_lt_of_words {c d : Cursor} {ts : List Token}
    (here : c.words = ts ++ d.words)
    (nonempty : ts ≠ []) : d.rest.length < c.rest.length := by
  have lengths := congrArg List.length here
  have positive := List.length_pos_of_ne_nil nonempty
  rw [List.length_append, Cursor.words, Cursor.words, List.length_map, List.length_map] at lengths
  omega

namespace Parser

variable {α β : Type} {p q : Parser α} {f : α → Parser β} {a : α} {b : β} {c c' d : Cursor}

def Succeeds (p : Parser α) (c : Cursor) (a : α) (d : Cursor) : Prop :=
  ∀ log, ∃ furthest, p c log = (some (a, d), ⟨furthest, log.reported⟩)

def Fails (p : Parser α) (c : Cursor) : Prop := ∀ log, ∃ log', p c log = (none, log')

private theorem succeeds_pure : Succeeds (pure a) c a c := fun log => ⟨log.furthest, rfl⟩

theorem fails_fail : Fails (fail : Parser α) c := fun log => ⟨log, rfl⟩

theorem Succeeds.bind (first : Succeeds p c a c') (second : Succeeds (f a) c' b d) :
    Succeeds (p >>= f) c b d := by
  intro log
  obtain ⟨furthest, outcome⟩ := first log
  obtain ⟨furthest', outcome'⟩ := second ⟨furthest, log.reported⟩
  refine ⟨furthest', ?_⟩
  simp only [Bind.bind, outcome]
  exact outcome'

private theorem Succeeds.bind_fails (first : Succeeds p c a c') (second : Fails (f a) c') :
    Fails (p >>= f) c := by
  intro log
  obtain ⟨furthest, outcome⟩ := first log
  obtain ⟨log', outcome'⟩ := second ⟨furthest, log.reported⟩
  refine ⟨log', ?_⟩
  simp only [Bind.bind, outcome]
  exact outcome'

theorem Fails.bind (first : Fails p c) : Fails (p >>= f) c := by
  intro log
  obtain ⟨log', outcome⟩ := first log
  refine ⟨log', ?_⟩
  simp only [Bind.bind, outcome]

theorem Succeeds.map {g : α → β} (first : Succeeds p c a d) : Succeeds (g <$> p) c (g a) d :=
  first.bind succeeds_pure

theorem Fails.map {g : α → β} (first : Fails p c) : Fails (g <$> p) c := first.bind

section Tokens

variable {expected : Expected} {read : Token → Option α} {l : Lexeme} {rest : List Lexeme}
  {stop length : Nat}

theorem succeeds_next (accepted : read l.token = some a) :
    Succeeds (next expected read) ⟨l :: rest, stop, length⟩ a ⟨rest, l.span.stop, length⟩ := by
  intro log
  refine ⟨log.furthest, ?_⟩
  simp only [next, accepted]

private theorem fails_next (refused : ∀ l ∈ c.rest.head?, read l.token = none) :
    Fails (next expected read) c := by
  intro log
  obtain ⟨rest, stop, length⟩ := c
  cases rest with
  | nil => exact ⟨_, rfl⟩
  | cons l rest =>
    have none := refused l rfl
    simp only [next, none]
    exact ⟨_, rfl⟩

theorem fails_atEnd : Fails atEnd ⟨l :: rest, stop, length⟩ := fun _ => ⟨_, rfl⟩

theorem succeeds_atEnd : Succeeds atEnd ⟨[], stop, length⟩ () ⟨[], stop, length⟩ :=
  fun log => ⟨log.furthest, rfl⟩

end Tokens

theorem Succeeds.spanned (first : Succeeds p c a d) :
    Succeeds (spanned p) c (a, c.upTo d) d := by
  intro log
  obtain ⟨furthest, outcome⟩ := first log
  refine ⟨furthest, ?_⟩
  simp only [Parser.spanned, outcome]

theorem Fails.spanned (first : Fails p c) : Fails (spanned p) c := by
  intro log
  obtain ⟨log', outcome⟩ := first log
  refine ⟨log', ?_⟩
  simp only [Parser.spanned, outcome]

private theorem Succeeds.guard_fails {accepts : α → Bool} (first : Succeeds p c a d)
    (refused : accepts a = false) : Fails (guard p accepts) c := by
  intro log
  obtain ⟨furthest, outcome⟩ := first log
  simp only [guard, outcome, refused]
  exact ⟨_, rfl⟩

theorem Succeeds.guard {accepts : α → Bool} (first : Succeeds p c a d)
    (accepted : accepts a = true) : Succeeds (Parser.guard p accepts) c a d := by
  intro log
  obtain ⟨furthest, outcome⟩ := first log
  refine ⟨furthest, ?_⟩
  simp only [Parser.guard, outcome, accepted, if_true]

theorem Fails.guard {accepts : α → Bool} (first : Fails p c) : Fails (Parser.guard p accepts) c := by
  intro log
  obtain ⟨log', outcome⟩ := first log
  simp only [Parser.guard, outcome]
  exact ⟨_, rfl⟩

theorem Succeeds.demand {accepts : α → Bool} {reason : Reason} (first : Succeeds p c a d)
    (accepted : accepts a = true) : Succeeds (Parser.demand p accepts reason) c a d := by
  intro log
  obtain ⟨furthest, outcome⟩ := first { log with furthest := none }
  simp only [Parser.demand, outcome, accepted, if_true]
  cases furthest <;> exact ⟨_, rfl⟩

private theorem Succeeds.demand_fails {accepts : α → Bool} {reason : Reason}
    (first : Succeeds p c a d)
    (refused : accepts a = false) : Fails (Parser.demand p accepts reason) c := by
  intro log
  obtain ⟨furthest, outcome⟩ := first { log with furthest := none }
  simp only [Parser.demand, outcome, refused]
  exact ⟨_, rfl⟩

theorem Fails.demand {accepts : α → Bool} {reason : Reason} (first : Fails p c) :
    Fails (demand p accepts reason) c := by
  intro log
  obtain ⟨log', outcome⟩ := first { log with furthest := none }
  simp only [Parser.demand, outcome]
  exact ⟨_, rfl⟩

theorem Succeeds.or (first : Succeeds p c a d) : Succeeds (or p q) c a d := by
  intro log
  obtain ⟨furthest, outcome⟩ := first log
  refine ⟨furthest, ?_⟩
  simp only [Parser.or, outcome]

private theorem Fails.or_succeeds (first : Fails p c) (second : Succeeds q c a d) :
    Succeeds (or p q) c a d := by
  intro log
  obtain ⟨log', outcome⟩ := first log
  obtain ⟨furthest, outcome'⟩ := second (log'.backTo log)
  refine ⟨furthest, ?_⟩
  simp only [Parser.or, outcome]
  exact outcome'

theorem Fails.or (first : Fails p c) (second : Fails q c) : Fails (or p q) c := by
  intro log
  obtain ⟨log', outcome⟩ := first log
  obtain ⟨log'', outcome'⟩ := second (log'.backTo log)
  refine ⟨log'', ?_⟩
  simp only [Parser.or, outcome]
  exact outcome'

theorem Succeeds.recover {skip : Parser α} (first : Succeeds p c a d) :
    Succeeds (recover p skip) c a d := by
  intro log
  obtain ⟨furthest, outcome⟩ := first log
  refine ⟨furthest, ?_⟩
  simp only [Parser.recover, outcome]

theorem Fails.recover {skip : Parser α} (first : Fails p c) (second : Fails skip c) :
    Fails (recover p skip) c := by
  intro log
  obtain ⟨log', outcome⟩ := first log
  obtain ⟨log'', outcome'⟩ := second ⟨none, log.reported⟩
  simp only [Parser.recover, outcome, outcome']
  exact ⟨_, rfl⟩

theorem Succeeds.lookAhead (first : Succeeds p c a d) : Succeeds (lookAhead p) c a c := by
  intro log
  obtain ⟨furthest, outcome⟩ := first log
  refine ⟨furthest, ?_⟩
  simp only [Parser.lookAhead, outcome]
  rfl

theorem Fails.lookAhead (first : Fails p c) : Fails (lookAhead p) c := by
  intro log
  obtain ⟨log', outcome⟩ := first log
  refine ⟨log', ?_⟩
  simp only [Parser.lookAhead, outcome]

theorem unfold_succ (rule : Parser α → Parser α) (depth : Nat) :
    unfold rule (depth + 1) = rule (unfold rule depth) :=
  rfl

theorem Succeeds.fix {rule : Parser α → Parser α}
    (unfolded : Succeeds (unfold rule (c.rest.length + 1)) c a d) : Succeeds (fix rule) c a d :=
  unfolded

/-- Values in a row, each of them behind the one before. -/
inductive Steps (p : Parser α) : Cursor → List α → Cursor → Prop where
  | nil {c : Cursor} : Steps p c [] c
  | cons {c c' d : Cursor} {a : α} {as : List α} (first : Succeeds p c a c')
      (shorter : c'.rest.length < c.rest.length) (others : Steps p c' as d) : Steps p c (a :: as) d

theorem Steps.append {e : Cursor} {as bs : List α} (first : Steps p c as d)
    (second : Steps p d bs e) : Steps p c (as ++ bs) e := by
  induction first with
  | nil => exact second
  | cons one shorter _ ih => exact .cons one shorter (ih second)

theorem Steps.single (one : Succeeds p c a d) (shorter : d.rest.length < c.rest.length) :
    Steps p c [a] d :=
  .cons one shorter .nil

theorem Steps.many {as : List α} (steps : Steps p c as d) (stuck : Fails p d) :
    Succeeds (many p) c as d := by
  have rounds (n : Nat) (enough : c.rest.length < n) (log : Log) : ∃ furthest,
      manyWithin p n c log = ((as, d), ⟨furthest, log.reported⟩) := by
    induction steps generalizing n log with
    | nil =>
      obtain ⟨m, rfl⟩ := Nat.exists_eq_succ_of_ne_zero (Nat.ne_of_gt (Nat.zero_lt_of_lt enough))
      obtain ⟨log', outcome⟩ := stuck log
      refine ⟨log'.furthest, ?_⟩
      simp only [manyWithin, outcome]
      rfl
    | cons one shorter _ ih =>
      obtain ⟨m, rfl⟩ := Nat.exists_eq_succ_of_ne_zero (Nat.ne_of_gt (Nat.zero_lt_of_lt enough))
      obtain ⟨furthest, outcome⟩ := one log
      obtain ⟨furthest', others⟩ := ih stuck m (by omega) ⟨furthest, log.reported⟩
      refine ⟨furthest', ?_⟩
      simp only [manyWithin, outcome, others]
  intro log
  obtain ⟨furthest, outcome⟩ := rounds (c.rest.length + 1) (Nat.lt_succ_self _) log
  refine ⟨furthest, ?_⟩
  simp only [Parser.many, outcome]

theorem Fails.many (stuck : Fails p c) : Succeeds (many p) c [] c := Steps.nil.many stuck

section Words

variable {u v w : List Token} {P Q : α → Prop} {R : β → Prop} {t : Token}

/-- Where the tokens `u` stand before `v`, the parser reads them to a value with the property. -/
def Yields (p : Parser α) (u v : List Token) (P : α → Prop) : Prop :=
  ∀ c : Cursor, c.words = u ++ v → ∃ a d, Succeeds p c a d ∧ d.words = v ∧ P a

def Refuses (p : Parser α) (v : List Token) : Prop := ∀ c : Cursor, c.words = v → Fails p c

theorem Yields.mono (run : Yields p u v P) (implies : ∀ a, P a → Q a) : Yields p u v Q := by
  intro c here
  obtain ⟨a, d, outcome, left, holds⟩ := run c here
  exact ⟨a, d, outcome, left, implies a holds⟩

theorem yields_pure (holds : P a) : Yields (pure a) [] v P :=
  fun c here => ⟨a, c, succeeds_pure, here, holds⟩

theorem Yields.bind (first : Yields p u (w ++ v) P)
    (second : ∀ a, P a → Yields (f a) w v R) : Yields (p >>= f) (u ++ w) v R := by
  intro c here
  rw [List.append_assoc] at here
  obtain ⟨a, c', outcome, left, holds⟩ := first c here
  obtain ⟨b, d, outcome', left', holds'⟩ := second a holds c' left
  exact ⟨b, d, outcome.bind outcome', left', holds'⟩

theorem Yields.bind_refuses (first : Yields p u v P) (second : ∀ a, P a → Refuses (f a) v) :
    Refuses (p >>= f) (u ++ v) := by
  intro c here
  obtain ⟨a, c', outcome, left, holds⟩ := first c here
  exact outcome.bind_fails (second a holds c' left)

theorem Refuses.bind (first : Refuses p v) : Refuses (p >>= f) v :=
  fun c here => (first c here).bind

theorem Yields.map {g : α → β} (first : Yields p u v P) (implies : ∀ a, P a → R (g a)) :
    Yields (g <$> p) u v R := by
  intro c here
  obtain ⟨a, d, outcome, left, holds⟩ := first c here
  exact ⟨g a, d, outcome.map, left, implies a holds⟩

theorem Refuses.map {g : α → β} (first : Refuses p v) : Refuses (g <$> p) v :=
  fun c here => (first c here).map

theorem yields_next {expected : Expected} {read : Token → Option α} (accepted : read t = some a)
    (holds : P a) : Yields (next expected read) [t] v P := by
  intro c here
  obtain ⟨l, rest, stop, length, rfl, rfl, rfl⟩ := Cursor.exists_cons here
  exact ⟨a, _, succeeds_next accepted, rfl, holds⟩

theorem refuses_next {expected : Expected} {read : Token → Option α}
    (refused : ∀ t ∈ v.head?, read t = none) : Refuses (next expected read) v := by
  intro c here
  apply fails_next
  intro l first
  apply refused
  rw [← here, Cursor.words, List.head?_map]
  exact Option.mem_map_of_mem _ first

theorem yields_token : Yields (token t) [t] v fun _ => True := yields_next (if_pos rfl) trivial

theorem refuses_token (other : v.head? ≠ some t) : Refuses (token t) v := by
  apply refuses_next
  intro s first
  have different : s ≠ t := fun same => other (same ▸ first)
  exact if_neg different

theorem Yields.spanned (first : Yields p u v P) : Yields (spanned p) u v fun r => P r.1 := by
  intro c here
  obtain ⟨a, d, outcome, left, holds⟩ := first c here
  exact ⟨_, d, outcome.spanned, left, holds⟩

theorem Refuses.spanned (first : Refuses p v) : Refuses (spanned p) v :=
  fun c here => (first c here).spanned

theorem Yields.or (first : Yields p u v P) : Yields (or p q) u v P := by
  intro c here
  obtain ⟨a, d, outcome, left, holds⟩ := first c here
  exact ⟨a, d, outcome.or, left, holds⟩

theorem Refuses.or_yields (first : Refuses p (u ++ v)) (second : Yields q u v P) :
    Yields (Parser.or p q) u v P := by
  intro c here
  obtain ⟨a, d, outcome, left, holds⟩ := second c here
  exact ⟨a, d, (first c here).or_succeeds outcome, left, holds⟩

theorem Refuses.or (first : Refuses p v) (second : Refuses q v) : Refuses (or p q) v :=
  fun c here => (first c here).or (second c here)

theorem refuses_choice_nil : Refuses (choice ([] : List (Parser α))) v := fun _ _ => fails_fail

theorem refuses_choice {ps : List (Parser α)} (each : ∀ p ∈ ps, Refuses p v) :
    Refuses (choice ps) v := by
  induction ps with
  | nil => exact refuses_choice_nil
  | cons p ps ih =>
    have others : ∀ p ∈ ps, Refuses p v := fun p listed => each p (List.mem_cons_of_mem _ listed)
    exact (each p List.mem_cons_self).or (ih others)

theorem Yields.optional (first : Yields p u v P) :
    Yields (optional p) u v fun r => ∃ a, r = some a ∧ P a :=
  (first.map fun a holds => ⟨a, rfl, holds⟩).or

theorem Refuses.optional (first : Refuses p v) : Yields (optional p) [] v fun r => r = none :=
  first.map.or_yields (yields_pure rfl)

theorem Refuses.many (stuck : Refuses p v) : Yields (many p) [] v fun as => as = [] :=
  fun c here => ⟨[], c, (stuck c here).many, here, rfl⟩

theorem Yields.guard_refuses {accepts : α → Bool} (first : Yields p u v P)
    (refused : ∀ a, P a → accepts a = false) : Refuses (Parser.guard p accepts) (u ++ v) := by
  intro c here
  obtain ⟨a, d, outcome, _, holds⟩ := first c here
  exact outcome.guard_fails (refused a holds)

theorem Yields.guard {accepts : α → Bool} (first : Yields p u v P)
    (accepted : ∀ a, P a → accepts a = true) : Yields (Parser.guard p accepts) u v P := by
  intro c here
  obtain ⟨a, d, outcome, left, holds⟩ := first c here
  exact ⟨a, d, outcome.guard (accepted a holds), left, holds⟩

theorem Refuses.guard {accepts : α → Bool} (first : Refuses p v) : Refuses (Parser.guard p accepts) v :=
  fun c here => (first c here).guard

theorem Yields.demand_refuses {accepts : α → Bool} {reason : Reason} (first : Yields p u v P)
    (refused : ∀ a, P a → accepts a = false) : Refuses (demand p accepts reason) (u ++ v) := by
  intro c here
  obtain ⟨a, d, outcome, _, holds⟩ := first c here
  exact outcome.demand_fails (refused a holds)

theorem Yields.demand {accepts : α → Bool} {reason : Reason} (first : Yields p u v P)
    (accepted : ∀ a, P a → accepts a = true) : Yields (demand p accepts reason) u v P := by
  intro c here
  obtain ⟨a, d, outcome, left, holds⟩ := first c here
  exact ⟨a, d, outcome.demand (accepted a holds), left, holds⟩

theorem Refuses.demand {accepts : α → Bool} {reason : Reason} (first : Refuses p v) :
    Refuses (demand p accepts reason) v :=
  fun c here => (first c here).demand

/-- Where the tokens `u` stand before `v`, the parser reads them to values in a row. -/
def Rows (p : Parser α) (u v : List Token) (Q : List α → Prop) : Prop :=
  ∀ c : Cursor, c.words = u ++ v → ∃ as d, Steps p c as d ∧ d.words = v ∧ Q as

theorem rows_nil {Q : List α → Prop} (holds : Q []) : Rows p [] v Q :=
  fun c here => ⟨[], c, .nil, here, holds⟩

theorem Rows.cons {Q R : List α → Prop} (first : Yields p u (w ++ v) P) (nonempty : u ≠ [])
    (others : Rows p w v Q) (implies : ∀ a as, P a → Q as → R (a :: as)) :
    Rows p (u ++ w) v R := by
  intro c here
  rw [List.append_assoc] at here
  obtain ⟨a, c', outcome, left, holds⟩ := first c here
  obtain ⟨as, d, steps, left', holds'⟩ := others c' left
  refine ⟨a :: as, d, .cons outcome ?_ steps, left', implies a as holds holds'⟩
  exact Cursor.length_lt_of_words (left ▸ here) nonempty

theorem Rows.many {Q : List α → Prop} (rows : Rows p u v Q) (stuck : Refuses p v) :
    Yields (many p) u v Q := by
  intro c here
  obtain ⟨as, d, steps, left, holds⟩ := rows c here
  exact ⟨as, d, steps.many (stuck d left), left, holds⟩

theorem Rows.many1 {Q : List α → Prop} (rows : Rows p u v Q) (nonempty : u ≠ [])
    (stuck : Refuses p v) : Yields (many1 p) u v Q := by
  intro c here
  obtain ⟨as, d, steps, left, holds⟩ := rows c here
  cases steps with
  | nil =>
    have none : u ++ v = [] ++ v := here.symm.trans left
    exact absurd (List.append_cancel_right none) nonempty
  | cons one _ others =>
    exact ⟨_, d, one.bind ((others.many (stuck d left)).bind succeeds_pure), left, holds⟩

/-- Where the tokens `u` stand before `v`, they are read to a value of `p` and values of `q` behind
it, which are joined from the left. -/
def Leads (p : Parser α) (q : Parser β) (join : α → β → α) (u v : List Token) (P : α → Prop) :
    Prop :=
  ∀ c : Cursor, c.words = u ++ v → ∃ a c' bs d,
    Succeeds p c a c' ∧ Steps q c' bs d ∧ d.words = v ∧ P (bs.foldl join a)

section Joined

variable {q : Parser β} {join : α → β → α}

theorem Yields.leads (first : Yields p u v P) : Leads p q join u v P := by
  intro c here
  obtain ⟨a, d, outcome, left, holds⟩ := first c here
  exact ⟨a, d, [], d, outcome, .nil, left, holds⟩

theorem Leads.step (lead : Leads p q join u (w ++ v) P) (nonempty : w ≠ [])
    (next : Yields q w v R) (implies : ∀ a b, P a → R b → Q (join a b)) :
    Leads p q join (u ++ w) v Q := by
  intro c here
  rw [List.append_assoc] at here
  obtain ⟨a, c', bs, d, outcome, steps, left, holds⟩ := lead c here
  obtain ⟨b, e, outcome', left', holds'⟩ := next d left
  have shorter := Cursor.length_lt_of_words (left' ▸ left) nonempty
  refine ⟨a, c', bs ++ [b], e, outcome, steps.append (.single outcome' shorter), left', ?_⟩
  rw [List.foldl_append]
  exact implies _ _ holds holds'

theorem Leads.yields (lead : Leads p q join u v P) (stuck : Refuses q v) :
    Yields (do
      let a ← p
      let bs ← Parser.many q
      return bs.foldl join a) u v P := by
  intro c here
  obtain ⟨a, c', bs, d, outcome, steps, left, holds⟩ := lead c here
  exact ⟨_, d, outcome.bind ((steps.many (stuck d left)).bind succeeds_pure), left, holds⟩

end Joined

theorem Yields.recover {skip : Parser α} (first : Yields p u v P) :
    Yields (recover p skip) u v P := by
  intro c here
  obtain ⟨a, d, outcome, left, holds⟩ := first c here
  exact ⟨a, d, outcome.recover, left, holds⟩

theorem Refuses.recover {skip : Parser α} (first : Refuses p v) (second : Refuses skip v) :
    Refuses (recover p skip) v :=
  fun c here => (first c here).recover (second c here)

theorem Yields.lookAhead (first : Yields p u v P) : Yields (lookAhead p) [] (u ++ v) P := by
  intro c here
  obtain ⟨a, d, outcome, _, holds⟩ := first c here
  exact ⟨a, c, outcome.lookAhead, here, holds⟩

theorem yields_atEnd : Yields atEnd [] [] fun _ => True := by
  rintro ⟨rest, stop, length⟩ here
  cases List.map_eq_nil_iff.mp here
  exact ⟨(), _, succeeds_atEnd, rfl, trivial⟩

theorem Refuses.fix {rule : Parser α → Parser α}
    (each : ∀ depth, Refuses (rule (unfold rule depth)) v) : Refuses (fix rule) v :=
  fun c here => each c.rest.length c here

/-- One unfolding more than there are tokens is enough. -/
theorem Yields.fix {rule : Parser α → Parser α}
    (unfolded : Yields (unfold rule (u.length + v.length + 1)) u v P) :
    Yields (fix rule) u v P := by
  intro c here
  obtain ⟨a, d, outcome, left, holds⟩ := unfolded c here
  have lengths : c.rest.length = u.length + v.length := by
    rw [← List.length_append, ← here, Cursor.words, List.length_map]
  refine ⟨a, d, Succeeds.fix ?_, left, holds⟩
  rw [lengths]
  exact outcome

theorem yields_between {opening closing : Sign}
    (inside : Yields p u (.sign closing :: v) P) :
    Yields (between opening p closing) (.sign opening :: (u ++ [Token.sign closing])) v P := by
  apply Yields.bind (u := [.sign opening]) yields_token
  intro _ _
  apply Yields.bind (P := P)
  · exact inside
  · intro a holds
    exact Yields.bind (u := [.sign closing]) (w := []) yields_token
      fun _ _ => yields_pure holds

theorem refuses_between {opening closing : Sign} (other : v.head? ≠ some (.sign opening)) :
    Refuses (between opening p closing) v :=
  (refuses_token other).bind

end Words

end Parser

end Lockstep
