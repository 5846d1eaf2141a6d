import Lockstep.Proofs.Grammar.Built
import Lockstep.Proofs.Grammar.Recovery
/-!
What is reported on the way. Reports are only added, and only where a failure is recovered from; so
a rule without recovery, such as that of expressions, reports nothing, and a failure that is
reported once is among the failures of the text. `Complains p v` says that where the tokens `v`
stand the parser fails or leaves a report.
-/

set_option autoImplicit false
set_option relaxedAutoImplicit false

namespace Lockstep

/-- The second log has the reports of the first and further ones, of which there are none unless `r`
holds. -/
def Log.Adds (r : Prop) (log log' : Log) : Prop :=
  ∃ more, log'.reported = log.reported ++ more ∧ (more ≠ [] → r)

namespace Log.Adds

variable {r : Prop} {log log' log'' : Log}

theorem of_eq (same : log'.reported = log.reported) : Adds r log log' :=
  ⟨[], by rw [same, List.append_nil], fun some => absurd rfl some⟩

theorem trans (first : Adds r log log') (second : Adds r log' log'') : Adds r log log'' := by
  obtain ⟨more, same, allowed⟩ := first
  obtain ⟨more', same', allowed'⟩ := second
  refine ⟨more ++ more', by rw [same', same, List.append_assoc], ?_⟩
  intro some
  by_cases none : more = []
  · exact allowed' fun none' => some (by rw [none, none', List.append_nil])
  · exact allowed none

private theorem eq_of_not (adds : Adds r log log') (none : ¬ r) : log'.reported = log.reported := by
  obtain ⟨more, same, allowed⟩ := adds
  rw [same, Classical.not_not.mp fun some => none (allowed some), List.append_nil]

theorem ne_nil (adds : Adds r log log') (some : log.reported ≠ []) : log'.reported ≠ [] := by
  obtain ⟨more, same, _⟩ := adds
  rw [same]
  exact List.append_ne_nil_of_left_ne_nil some more

end Log.Adds

namespace Parser

variable {r : Prop} {α β : Type} {p q : Parser α} {f : α → Parser β}

private theorem adds_manyWithin (adds : ∀ c log, Log.Adds r log (p c log).2) (n : Nat) (c : Cursor)
    (log : Log) : Log.Adds r log (manyWithin p n c log).2 := by
  induction n generalizing c log with
  | zero => exact .of_eq rfl
  | succ n ih =>
    have first := adds c log
    unfold manyWithin
    split
    next a d log' ran =>
      rw [ran] at first
      exact first.trans (ih d log')
    next => exact .of_eq rfl

/-- A parser adds to the reports, and only if it may recover from failures. -/
theorem Built.adds (built : Built r p) (c : Cursor) (log : Log) : Log.Adds r log (p c log).2 := by
  induction built generalizing c log with
  | pure | fail => exact .of_eq rfl
  | next =>
    unfold Parser.next
    split
    · split <;> exact .of_eq rfl
    · exact .of_eq rfl
  | atEnd =>
    unfold Parser.atEnd
    split <;> exact .of_eq rfl
  | bind _ _ first second =>
    have adds := first c log
    simp only [Bind.bind]
    split
    next a d log' ran =>
      rw [ran] at adds
      exact adds.trans (second a d log')
    next log' ran =>
      rw [ran] at adds
      exact adds
  | spanned _ inner =>
    have adds := inner c log
    unfold Parser.spanned
    split
    all_goals
      rename_i ran
      rw [ran] at adds
      exact adds
  | guard _ inner =>
    have adds := inner c log
    unfold Parser.guard
    split
    next ran =>
      rw [ran] at adds
      split <;> exact adds
    next ran =>
      rw [ran] at adds
      exact adds
  | demand _ _ inner =>
    have adds := inner c { log with furthest := none }
    unfold Parser.demand
    split
    next ran =>
      rw [ran] at adds
      simp only
      split
      · split <;> exact adds
      · exact adds
    next ran =>
      rw [ran] at adds
      exact adds
  | or _ _ first second =>
    have adds := first c log
    unfold Parser.or
    split
    next ran =>
      rw [ran] at adds
      exact adds
    next log' ran => exact second c (log'.backTo log)
  | many _ inner => exact adds_manyWithin inner (c.rest.length + 1) c log
  | lookAhead _ inner =>
    have adds := inner c log
    unfold Parser.lookAhead
    split
    next => exact .of_eq rfl
    next ran =>
      rw [ran] at adds
      exact adds
  | recover allowed _ _ first second =>
    have adds := first c log
    unfold Parser.recover
    split
    next ran =>
      rw [ran] at adds
      exact adds
    next log' ran =>
      have adds' := second c ⟨none, log.reported⟩
      split
      next ran' =>
        rw [ran'] at adds'
        obtain ⟨more, same, _⟩ := adds'
        refine ⟨more ++ log'.furthest.toList, ?_, fun _ => allowed⟩
        rw [← List.append_assoc]
        exact congrArg (· ++ log'.furthest.toList) same
      next => exact .of_eq rfl
  | unfolded _ depths => exact depths (c.rest.length + 1) c log

section Complaints

variable {u v : List Token} {P : α → Prop}

def Complains (p : Parser α) (v : List Token) : Prop :=
  ∀ c : Cursor, c.words = v → ∀ log step log', p c log = (some step, log') → log'.reported ≠ []

theorem Refuses.complains (refuses : Refuses p v) : Complains p v := by
  intro c here log step log' run
  obtain ⟨log'', failed⟩ := refuses c here log
  cases failed.symm.trans run

theorem Yields.bind_complains (first : Yields p u v P)
    (second : ∀ a, P a → Complains (f a) v) : Complains (p >>= f) (u ++ v) := by
  intro c here log step log' run
  obtain ⟨a, d, outcome, left, holds⟩ := first c here
  obtain ⟨furthest, ran⟩ := outcome log
  simp only [Bind.bind, ran] at run
  exact second a holds d left _ step log' run

theorem Complains.bind (first : Complains p v) (built : ∀ a, Built r (f a)) :
    Complains (p >>= f) v := by
  intro c here log step log' run
  simp only [Bind.bind] at run
  cases outcome : p c log with
  | mk result log₁ =>
    rw [outcome] at run
    cases result with
    | none => cases run
    | some step₁ =>
      obtain ⟨a, d⟩ := step₁
      have adds := (built a).adds d log₁
      simp only at run
      rw [run] at adds
      exact adds.ne_nil (first c here log (a, d) log₁ outcome)

theorem Complains.map {g : α → β} (first : Complains p v) : Complains (g <$> p) v :=
  first.bind (r := False) fun _ => .pure _

theorem Complains.spanned (first : Complains p v) : Complains (spanned p) v := by
  intro c here log step log' run
  unfold Parser.spanned at run
  split at run
  next a d log₁ ran =>
    cases run
    exact first c here log (a, d) log' ran
  next => cases run

theorem Complains.or (first : Complains p v) (second : Complains q v) :
    Complains (Parser.or p q) v := by
  intro c here log step log' run
  unfold Parser.or at run
  split at run
  next ran =>
    cases run
    exact first c here log step log' ran
  next log₁ ran => exact second c here _ step log' run

theorem Complains.recover {skip : Parser α} (first : Complains p v) (records : Records p) :
    Complains (Parser.recover p skip) v := by
  intro c here log step log' run
  unfold Parser.recover at run
  split at run
  next ran =>
    cases run
    exact first c here log step log' ran
  next log₁ ran =>
    obtain ⟨failure, noted⟩ := Option.isSome_iff_exists.mp (records c log log₁ ran)
    split at run
    · cases run
      simp [noted]
    · cases run

theorem Complains.many_bind {f : List α → Parser β} (first : Complains p v) (built : Built r p)
    (stuck : Refuses (f []) v) (behind : ∀ as, Built r (f as)) : Complains (many p >>= f) v := by
  intro c here log step log' run
  simp only [Bind.bind, many, manyWithin] at run
  cases outcome : p c log with
  | mk result log₁ =>
    rw [outcome] at run
    cases result with
    | none =>
      obtain ⟨log₂, failed⟩ := stuck c here (log₁.backTo log)
      cases failed.symm.trans run
    | some step₁ =>
      obtain ⟨a, d⟩ := step₁
      have some := first c here log (a, d) log₁ outcome
      have others := adds_manyWithin built.adds c.rest.length d log₁
      simp only at run
      generalize manyWithin p c.rest.length d log₁ = rest at run others
      have last := (behind (a :: rest.1.1)).adds rest.1.2 rest.2
      rw [run] at last
      exact last.ne_nil (others.ne_nil some)

theorem Complains.fix {rule : Parser α → Parser α}
    (each : ∀ depth, Complains (rule (unfold rule depth)) v) : Complains (fix rule) v :=
  fun c here => each c.rest.length c here

end Complaints

theorem Yields.of_agree {m n : Nat} {φ : α → α → Prop} {u v : List Token} {P : α → Prop}
    (yields : Yields p u v P) (agree : Agree Enclosure.whole id n m φ p q)
    (same : ∀ a b, φ a b → b = a) (built : Built False q) (short : u.length + v.length < n) :
    Yields q u v P := by
  rintro ⟨w, stop, length⟩ here
  obtain ⟨a, d, outcome, left, holds⟩ := yields ⟨w, stop, length⟩ here
  refine ⟨a, d, ?_, left, holds⟩
  intro log
  obtain ⟨furthest, ran⟩ := outcome log
  have size : w.length < n := by
    have lengths := congrArg List.length here
    rw [Cursor.words, List.length_map, List.length_append] at lengths
    exact lengths ▸ short
  have pair := agree ⟨[], [], length, length⟩ w stop stop log log size ⟨rfl, rfl⟩
  have quiet := (built.adds ⟨w, stop, length⟩ log).eq_of_not id
  simp only [Flanks.one, Flanks.two, List.append_nil, map_relocate_id, ran] at pair
  generalize q ⟨w, stop, length⟩ log = y at pair quiet ⊢
  cases pair with
  | read _ b u' v' _ log' _ _ _ _ related =>
    refine ⟨log'.furthest, ?_⟩
    rw [same _ b related, ← quiet]
    simp only [Flanks.one, Flanks.two, map_relocate_id]

theorem Yields.unfolded {rule : Parser α → Parser α} {u v : List Token} {P : α → Prop}
    (yields : Yields (Parser.fix rule) u v P) :
    Yields (unfold rule (u.length + v.length + 1)) u v P := by
  intro c here
  have lengths : c.rest.length = u.length + v.length := by
    rw [← List.length_append, ← here, Cursor.words, List.length_map]
  rw [← lengths]
  exact yields c here

end Parser

namespace Grammar

open Lockstep.Parser

variable {u v : List Token} {P : Expr → Prop}

theorem yields_exprAt {D : Nat} (read : Yields expr u v P) (enough : u.length + v.length < D) :
    Yields (exprAt D) u v P := by
  have agree : Agree Enclosure.whole id (u.length + v.length + 1) 1
      (fun a b => b = a.relocate id) (exprAt (u.length + v.length + 1)) (exprAt D) :=
    .unfold (fun _ _ _ _ known => agree_assignment Enclosure.blocks_whole.brackets known)
      (Nat.le_refl _) (Nat.le_refl _) enough
  exact read.unfolded.of_agree agree (fun a b same => by rw [same, Expr.relocate_id])
    (.unfold (fun _ => built_assignment) D) (Nat.lt_succ_self _)

private theorem refuses_atEnd (some : v ≠ []) : Refuses atEnd v := by
  rintro ⟨rest, stop, length⟩ here
  cases rest with
  | nil => exact absurd here.symm some
  | cons l rest => exact fails_atEnd

private theorem records_atEnd : Records atEnd := by
  intro c log log' run
  unfold atEnd at run
  split at run
  · cases run
  · cases run
    rfl

private theorem complains_sourceUnit (first : Complains item v) (some : v ≠ []) :
    Complains (before sourceUnit atEnd) v := by
  have items : Complains (before (many item) atEnd) v :=
    first.many_bind built_item (refuses_atEnd some).bind fun _ => Built.atEnd.bind fun _ => .pure _
  have unit : Complains sourceUnit v := items.spanned.bind (r := False) fun _ => .pure _
  exact unit.bind (r := False) fun _ => Built.atEnd.bind fun _ => .pure _

/-- There are failures where an item fails or leaves a report. -/
theorem failures_ne_nil {tokens : List Lexeme} {length : Nat}
    (first : Complains item (tokens.map Lexeme.token)) (some : tokens ≠ []) :
    (parseTokens tokens length).2 ≠ [] := by
  have records : Records (before sourceUnit atEnd) := by
    have items : Records (before (many item) atEnd) :=
      records_many.bind fun _ => records_atEnd.bind fun _ => records_pure
    have unit : Records sourceUnit := items.spanned.bind fun _ => records_pure
    exact unit.bind fun _ => records_atEnd.bind fun _ => records_pure
  unfold parseTokens
  split
  next unit d log ran =>
    exact complains_sourceUnit first (by simpa using some) (.start tokens length) rfl {} _ log ran
  next log ran =>
    obtain ⟨failure, noted⟩ := Option.isSome_iff_exists.mp (records _ _ log ran)
    simp [noted]

end Grammar

end Lockstep
