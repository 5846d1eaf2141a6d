import Lockstep.Proofs.Grammar.Regions
import Lockstep.Proofs.Grammar.Stretches
/-!
What a parser takes of the tokens it is given. `Takes p u rest a` says that in front of `rest` it
reads `u` to the value `a`, wherever these tokens stand and whatever was noted before. Where the
tokens of `u` end as they do, the tokens behind may be exchanged.
-/

set_option autoImplicit false
set_option relaxedAutoImplicit false

namespace Lockstep

namespace Parser

variable {α β γ : Type}

/-- Of the tokens `u ++ rest` the parser reads those of `u`, to the value `a`. -/
def Takes (p : Parser α) (u rest : List Lexeme) (a : α) : Prop :=
  ∀ stop length log, (p ⟨u ++ rest, stop, length⟩ log).1 =
    some (a, ⟨rest, lastStop stop u, length⟩)

def Rejects (p : Parser α) (w : List Lexeme) : Prop :=
  ∀ stop length log, (p ⟨w, stop, length⟩ log).1 = none

/-- What the parser does depends on nothing but the tokens. -/
def Steady (p : Parser α) : Prop :=
  ∀ w, Rejects p w ∨ ∃ u rest a, w = u ++ rest ∧ Takes p u rest a

variable {p q : Parser α} {g : α → Parser β} {a a' : α} {b : β} {u v w rest rest' : List Lexeme}

theorem Refuses.rejects (refuses : Refuses p (w.map Lexeme.token)) : Rejects p w := by
  intro stop length log
  obtain ⟨log', outcome⟩ := refuses ⟨w, stop, length⟩ rfl log
  rw [outcome]

theorem Takes.unique {u' : List Lexeme} (takes : Takes p u rest a) (takes' : Takes p u' rest' a')
    (same : u ++ rest = u' ++ rest') : u = u' ∧ rest = rest' ∧ a = a' := by
  have run := takes 0 0 {}
  rw [same, takes' 0 0 {}] at run
  simp only [Option.some.injEq, Prod.mk.injEq, Cursor.mk.injEq] at run
  obtain ⟨rfl, rfl, _⟩ := run
  exact ⟨List.append_cancel_right same, rfl, rfl⟩

theorem Takes.not_rejects (takes : Takes p u rest a) : ¬ Rejects p (u ++ rest) := by
  intro rejects
  have run := takes 0 0 {}
  rw [rejects 0 0 {}] at run
  cases run

theorem Steady.takes (steady : Steady p) (takes : ¬ Rejects p w) :
    ∃ u rest a, w = u ++ rest ∧ Takes p u rest a :=
  (steady w).resolve_left takes

section Sequence

theorem bind_bind (p : Parser α) (g : α → Parser β) (h : β → Parser γ) :
    p >>= g >>= h = p >>= fun a => g a >>= h := by
  funext c log
  simp only [Bind.bind]
  cases p c log with
  | mk result _ => cases result <;> rfl

theorem takes_pure : Takes (pure a) [] rest a := fun _ _ _ => rfl

theorem Takes.bind (first : Takes p u (v ++ rest) a) (second : Takes (g a) v rest b) :
    Takes (p >>= g) (u ++ v) rest b := by
  intro stop length log
  have run := first stop length log
  rw [List.append_assoc]
  simp only [Bind.bind]
  generalize p ⟨u ++ (v ++ rest), stop, length⟩ log = x at run ⊢
  obtain ⟨_, log'⟩ := x
  subst run
  rw [← lastStop_append]
  exact second _ length log'

theorem Rejects.bind (first : Rejects p w) : Rejects (p >>= g) w := by
  intro stop length log
  have run := first stop length log
  simp only [Bind.bind]
  generalize p ⟨w, stop, length⟩ log = x at run ⊢
  obtain ⟨_, log'⟩ := x
  subst run
  rfl

theorem Takes.bind_rejects (first : Takes p u v a) (second : Rejects (g a) v) :
    Rejects (p >>= g) (u ++ v) := by
  intro stop length log
  have run := first stop length log
  simp only [Bind.bind]
  generalize p ⟨u ++ v, stop, length⟩ log = x at run ⊢
  obtain ⟨_, log'⟩ := x
  subst run
  exact second _ length log'

theorem Takes.map {f : α → β} (first : Takes p u rest a) : Takes (f <$> p) u rest (f a) := by
  have whole := Takes.bind (v := []) (g := fun a => pure (f a)) first takes_pure
  rwa [List.append_nil] at whole

theorem Takes.or (first : Takes p u rest a) : Takes (or p q) u rest a := by
  intro stop length log
  have run := first stop length log
  simp only [Parser.or]
  generalize p ⟨u ++ rest, stop, length⟩ log = x at run ⊢
  obtain ⟨_, log'⟩ := x
  subst run
  rfl

theorem Rejects.or_takes (first : Rejects p (u ++ rest)) (second : Takes q u rest a) :
    Takes (Parser.or p q) u rest a := by
  intro stop length log
  have run := first stop length log
  simp only [Parser.or]
  generalize p ⟨u ++ rest, stop, length⟩ log = x at run ⊢
  obtain ⟨_, log'⟩ := x
  subst run
  exact second stop length _

theorem Rejects.or (first : Rejects p w) (second : Rejects q w) : Rejects (Parser.or p q) w := by
  intro stop length log
  have run := first stop length log
  simp only [Parser.or]
  generalize p ⟨w, stop, length⟩ log = x at run ⊢
  obtain ⟨_, log'⟩ := x
  subst run
  exact second stop length _

end Sequence

section Inversion

theorem map_relocate_id (w : List Lexeme) : w.map (Lexeme.relocate id) = w := by
  rw [funext Lexeme.relocate_id, List.map_id']

theorem steady_of_agree {m : Nat} {φ : α → α → Prop}
    (agree : ∀ n, Agree Enclosure.whole id n m φ p p) (same : ∀ a b, φ a b → b = a) :
    Steady p := by
  intro w
  -- Every run goes as the one on an empty log.
  have pair (stop length : Nat) (log : Log) := agree (w.length + 1) ⟨[], [], 0, length⟩ w 0 stop {}
    log (Nat.lt_succ_self _) ⟨rfl, rfl⟩
  simp only [Flanks.one, Flanks.two, map_relocate_id, List.append_nil] at pair
  generalize p ⟨w, 0, 0⟩ {} = first at pair
  obtain ⟨result, log₀⟩ := first
  cases result with
  | none =>
    refine .inl fun stop length log => ?_
    have run := pair stop length log
    generalize p ⟨w, stop, length⟩ log = y at run ⊢
    cases run
    rfl
  | some result =>
    obtain ⟨a, d⟩ := result
    have place (stop length : Nat) (log : Log) : ∃ u, w = u ++ d.rest ∧
        (p ⟨w, stop, length⟩ log).1 = some (a, ⟨d.rest, lastStop stop u, length⟩) := by
      have run := pair stop length log
      generalize p ⟨w, stop, length⟩ log = y at run ⊢
      cases run with
      | read _ b u v _ _ split _ _ _ related =>
        refine ⟨u, by simpa [Flanks.one] using split, ?_⟩
        simp [Flanks.one, Flanks.two, map_relocate_id, same a b related]
    obtain ⟨u, split, _⟩ := place 0 0 {}
    refine .inr ⟨u, d.rest, a, split, fun stop length log => ?_⟩
    obtain ⟨u', split', run⟩ := place stop length log
    have unique : u' = u := List.append_cancel_right (split'.symm.trans split)
    rw [← split, run, unique]

theorem fst_eq_of_agree {m : Nat} {φ : α → α → Prop} (c : Cursor) (log : Log)
    (agree : ∀ n, Agree Enclosure.whole id n m φ p q) (same : ∀ a b, φ a b → b = a) :
    (p c log).1 = (q c log).1 := by
  obtain ⟨w, stop, length⟩ := c
  have run := agree (w.length + 1) ⟨[], [], length, length⟩ w stop stop log log
    (Nat.lt_succ_self _) ⟨rfl, rfl⟩
  simp only [Flanks.one, Flanks.two, map_relocate_id, List.append_nil] at run
  generalize p ⟨w, stop, length⟩ log = x, q ⟨w, stop, length⟩ log = y at run ⊢
  cases run with
  | fail => rfl
  | read a b u v _ _ _ _ _ _ related =>
    simp [Flanks.one, Flanks.two, map_relocate_id, same a b related]

theorem Takes.of_agree {m : Nat} {φ : α → α → Prop} (takes : Takes p u rest a)
    (agree : ∀ n, Agree Enclosure.whole id n m φ p q) (same : ∀ a b, φ a b → b = a) :
    Takes q u rest a := by
  intro stop length log
  rw [← fst_eq_of_agree _ _ agree same]
  exact takes stop length log

theorem Steady.bind (first : Steady p) (second : ∀ a, Steady (g a)) : Steady (p >>= g) := by
  intro w
  rcases first w with rejects | ⟨u, rest, a, rfl, takes⟩
  · exact .inl rejects.bind
  · rcases second a rest with rejects | ⟨v, rest, b, rfl, takes'⟩
    · exact .inl (takes.bind_rejects rejects)
    · exact .inr ⟨u ++ v, rest, b, (List.append_assoc ..).symm, takes.bind takes'⟩

theorem steady_pure : Steady (pure a) := fun w => .inr ⟨[], w, a, rfl, takes_pure⟩

theorem Steady.map {f : α → β} (first : Steady p) : Steady (f <$> p) :=
  first.bind fun _ => steady_pure

theorem Steady.or (first : Steady p) (second : Steady q) : Steady (Parser.or p q) := by
  intro w
  rcases first w with rejects | ⟨u, rest, a, rfl, takes⟩
  · rcases second w with rejects' | ⟨u, rest, a, rfl, takes⟩
    · exact .inl (rejects.or rejects')
    · exact .inr ⟨u, rest, a, rfl, rejects.or_takes takes⟩
  · exact .inr ⟨u, rest, a, rfl, takes.or⟩

theorem Takes.bind_inv (first : Steady p) (second : ∀ a, Steady (g a))
    (takes : Takes (p >>= g) w rest b) :
    ∃ a u v, w = u ++ v ∧ Takes p u (v ++ rest) a ∧ Takes (g a) v rest b := by
  obtain ⟨u, rest', a, split, takes'⟩ :=
    first.takes fun rejects => takes.not_rejects (Rejects.bind rejects)
  obtain ⟨v, rest'', b', rfl, takes''⟩ := (second a).takes fun rejects =>
    (split ▸ takes.not_rejects) (takes'.bind_rejects rejects)
  have whole := takes'.bind takes''
  rw [← List.append_assoc] at split
  obtain ⟨rfl, rfl, rfl⟩ := takes.unique whole split
  exact ⟨a, u, v, rfl, takes', takes''⟩

theorem Takes.or_inv (first : Steady p) (second : Steady q) (takes : Takes (Parser.or p q) w rest a) :
    Takes p w rest a ∨ Rejects p (w ++ rest) ∧ Takes q w rest a := by
  rcases first (w ++ rest) with rejects | ⟨u, rest', a', split, takes'⟩
  · obtain ⟨u, rest', a', split, takes'⟩ := second.takes fun rejects' =>
      takes.not_rejects (rejects.or rejects')
    have other : Takes (Parser.or p q) u rest' a' := (split ▸ rejects).or_takes takes'
    obtain ⟨rfl, rfl, rfl⟩ := takes.unique other split
    exact .inr ⟨rejects, takes'⟩
  · have other : Takes (Parser.or p q) u rest' a' := takes'.or
    obtain ⟨rfl, rfl, rfl⟩ := takes.unique other split
    exact .inl takes'

end Inversion

section Ranges

theorem Rejects.spanned (first : Rejects p w) : Rejects (spanned p) w := by
  intro stop length log
  have run := first stop length log
  simp only [Parser.spanned]
  generalize p ⟨w, stop, length⟩ log = x at run ⊢
  obtain ⟨_, log'⟩ := x
  subst run
  rfl

theorem exists_spans (nonempty : u ≠ []) : ∃ span, Spans u span := by
  cases u with
  | nil => exact absurd rfl nonempty
  | cons l u =>
    refine ⟨⟨l.span.start, lastStop l.span.stop u⟩, fun first others same => ?_⟩
    obtain ⟨rfl, rfl⟩ := List.cons.inj same
    rfl

section Made

variable {span : Span} {k : α × Span → Parser β} {h : α × Span → β}

theorem Takes.spanned (first : Takes p u rest a) (nonempty : u ≠ []) (spans : Spans u span) :
    Takes (spanned p) u rest (a, span) := by
  intro stop length log
  have run := first stop length log
  simp only [Parser.spanned]
  generalize p ⟨u ++ rest, stop, length⟩ log = x at run ⊢
  obtain ⟨_, log'⟩ := x
  subst run
  cases u with
  | nil => exact absurd rfl nonempty
  | cons l u =>
    rw [spans l u rfl]
    rfl

theorem Takes.spanned_bind (returns : ∀ r, k r = pure (h r)) (first : Takes p u rest a)
    (nonempty : u ≠ []) (spans : Spans u span) :
    Takes (Parser.spanned p >>= k) u rest (h (a, span)) := by
  have whole := (first.spanned nonempty spans).bind (v := []) (g := k)
    (returns (a, span) ▸ takes_pure)
  rwa [List.append_nil] at whole

theorem Takes.spanned_inv (steady : Steady p) (returns : ∀ r, k r = pure (h r))
    (takes : Takes (Parser.spanned p >>= k) w rest b) (nonempty : w ≠ []) :
    ∃ a span, Takes p w rest a ∧ Spans w span ∧ b = h (a, span) := by
  obtain ⟨u, rest', a, split, inner⟩ := steady.takes fun rejects =>
    takes.not_rejects rejects.spanned.bind
  by_cases some : u = []
  · subst some
    have run := takes 0 0 {}
    have first := inner 0 0 {}
    rw [split] at run
    simp only [Bind.bind, Parser.spanned] at run
    generalize p ⟨[] ++ rest', 0, 0⟩ {} = x at run first
    obtain ⟨_, log'⟩ := x
    subst first
    simp only [returns, Pure.pure, Option.some.injEq, Prod.mk.injEq, Cursor.mk.injEq] at run
    rw [run.2.1] at split
    exact absurd (List.append_cancel_right split) nonempty
  · obtain ⟨span, spans⟩ := exists_spans some
    have whole := Takes.spanned_bind returns inner some spans
    obtain ⟨rfl, rfl, rfl⟩ := takes.unique whole split
    exact ⟨a, _, inner, spans, rfl⟩

end Made

end Ranges

section Exchange

theorem Takes.least_le {m : Nat} {φ : α → α → Prop}
    (agree : ∀ n, Agree Enclosure.whole id n m φ p p) (takes : Takes p u rest a) :
    m ≤ u.length := by
  have run := agree _ ⟨[], [], 0, 0⟩ (u ++ rest) 0 0 {} {} (Nat.lt_succ_self _) ⟨rfl, rfl⟩
  have first := takes 0 0 {}
  simp only [Flanks.one, List.append_nil] at run
  generalize p ⟨u ++ rest, 0, 0⟩ {} = x, p (Flanks.two _ _ _ _) {} = y at run first
  cases run with
  | fail => cases first
  | read a' b u' v _ _ split enough _ _ _ =>
    simp only [Flanks.one, Option.some.injEq, Prod.mk.injEq, Cursor.mk.injEq] at first
    rw [List.append_nil] at first
    rw [first.2.1] at split
    rw [List.append_cancel_right split]
    exact enough

theorem Takes.paired {κ : Enclosure} {m n : Nat} {φ : α → α → Prop} {e : Flanks}
    (takes : Takes p u rest a) (agree : Agree κ id n m φ p p) (size : w.length < n)
    (holds : κ.Holds e w) (split : w ++ e.left = u ++ rest) (stop' : Nat) (log' : Log) :
    ∃ v b, w = u ++ v ∧ v ++ e.left = rest ∧ κ.Holds e v ∧ φ a b ∧
      (p (e.two id w stop') log').1 = some (b, e.two id v (lastStop stop' u)) := by
  have run := agree e w 0 stop' {} log' size holds
  have first := takes 0 e.length {}
  rw [← split] at first
  rw [Flanks.one] at run
  generalize p ⟨w ++ e.left, 0, e.length⟩ {} = x, p (e.two id w stop') log' = y at run first ⊢
  cases run with
  | fail => cases first
  | read a' b u' v _ _ split' _ holds' _ related =>
    simp only [Flanks.one, Option.some.injEq, Prod.mk.injEq, Cursor.mk.injEq] at first
    obtain ⟨rfl, rest', _⟩ := first
    rw [split', ← rest', List.append_assoc] at split
    have same : u' = u := List.append_cancel_right split
    subst same
    exact ⟨v, b, split', rest', holds', related, by rw [map_relocate_id]⟩

private theorem Takes.exchange_within {κ : Enclosure} {m : Nat} {φ : α → α → Prop}
    (takes : Takes p u rest a) (agree : ∀ n, Agree κ id n m φ p p) (same : ∀ a b, φ a b → b = a)
    (within : κ.within (u.map Lexeme.token) (rest.map Lexeme.token) (rest'.map Lexeme.token)) :
    Takes p u rest' a := by
  intro stop length log
  obtain ⟨v, b, split, _, _, related, run⟩ := takes.paired (e := ⟨rest, rest', 0, length⟩)
    (agree (u.length + 1)) (Nat.lt_succ_self _) within rfl stop log
  have none : v = [] := by
    have size := congrArg List.length split
    rw [List.length_append] at size
    exact List.length_eq_zero_iff.mp (by omega)
  subst none
  rw [same a b related] at run
  simpa [Flanks.two, map_relocate_id] using run

/-- What stands behind a sign that ends a stretch may be exchanged. -/
theorem Takes.exchange {stops : List Sign} (bound : ∀ s ∈ stops, (Token.sign s).IsBound) {m : Nat}
    {φ : α → α → Prop} (takes : Takes p u rest a)
    (agree : ∀ n, Agree (Enclosure.upTo stops bound) id n m φ p p) (same : ∀ a b, φ a b → b = a)
    (ends : ∃ s ∈ stops, (rest.map Lexeme.token).head? = some (.sign s))
    (ends' : ∃ s ∈ stops, (rest'.map Lexeme.token).head? = some (.sign s)) :
    Takes p u rest' a := by
  have clear : Enclosure.Clear stops (u.map Lexeme.token) := by
    obtain ⟨w, r, split, clear, halts⟩ :=
      Enclosure.exists_clear stops ((u ++ rest).map Lexeme.token)
    obtain ⟨ws, rs, split', rfl, rfl⟩ := List.map_eq_append_iff.mp split
    obtain ⟨v, _, rfl, behind, holds, _⟩ := takes.paired (e := ⟨rs, rs, 0, 0⟩)
      (agree (ws.length + 1)) (Nat.lt_succ_self _) ⟨clear, halts, halts⟩ split'.symm 0 {}
    cases v with
    | nil => rwa [List.append_nil] at clear
    | cons l v =>
      obtain ⟨s, stop, first⟩ := ends
      rw [← behind] at first
      exact absurd first (holds.1.head_ne stop)
  exact takes.exchange_within agree same ⟨clear, .inr (.inl ends), .inr (.inl ends')⟩

theorem Takes.reads {R : α → List Lexeme → Prop} (takes : Takes p u rest a) (reads : Reads p R) :
    R a u := by
  have run := takes 0 0 {}
  cases outcome : p ⟨u ++ rest, 0, 0⟩ {} with
  | mk result log =>
    rw [outcome] at run
    simp only at run
    subst run
    obtain ⟨used, moves, related⟩ := reads _ _ _ _ _ outcome
    have same : u = used := List.append_cancel_right moves.rest
    rwa [same]

theorem takes_sign {s : Sign} {l : Lexeme} (same : l.token = .sign s) :
    Takes (sign s) [l] rest () := by
  intro stop length log
  rw [sign, List.singleton_append, Agree.token_cons same]
  rfl

theorem Takes.sign_inv {s : Sign} (takes : Takes (sign s) u rest ()) :
    ∃ l, u = [l] ∧ l.token = .sign s := by
  have tokens := takes.reads Grammar.reads_token
  obtain ⟨l, rest, rfl, same, none⟩ := List.map_eq_cons_iff.mp tokens
  rw [List.map_eq_nil_iff] at none
  exact ⟨l, by rw [none], same⟩

theorem Takes.pure_inv (takes : Takes (pure a') u rest a) : u = [] ∧ a = a' := by
  obtain ⟨none, _, same⟩ := takes.unique takes_pure (List.nil_append _).symm
  exact ⟨none, same⟩

theorem steady_token {t : Token} : Steady (token t) :=
  steady_of_agree (fun _ => .plain (Enclosure.plain_whole t)) fun _ _ same => same

theorem Takes.map_inv {f : α → β} (steady : Steady p) (takes : Takes (f <$> p) u rest b) :
    ∃ a, Takes p u rest a ∧ b = f a := by
  obtain ⟨a, v, w, rfl, first, second⟩ := Takes.bind_inv steady (fun _ => steady_pure) takes
  obtain ⟨rfl, same⟩ := second.pure_inv
  rw [List.append_nil]
  exact ⟨a, first, same⟩

theorem Steady.optional (steady : Steady p) : Steady (optional p) := steady.map.or steady_pure

theorem Takes.optional_inv {o : Option α} (steady : Steady p)
    (takes : Takes (optional p) u rest o) :
    (∃ a, o = some a ∧ Takes p u rest a) ∨ o = none ∧ u = [] ∧ Rejects p rest := by
  rcases Takes.or_inv steady.map steady_pure takes with given | ⟨rejects, missing⟩
  · obtain ⟨a, inner, rfl⟩ := given.map_inv steady
    exact .inl ⟨a, rfl, inner⟩
  · obtain ⟨rfl, rfl⟩ := missing.pure_inv
    refine .inr ⟨rfl, rfl, ?_⟩
    rcases steady rest with none | ⟨x, y, a, rfl, inner⟩
    · exact none
    · exact absurd rejects (inner.map (f := some)).not_rejects

theorem Steady.before {q : Parser β} (first : Steady p) (second : Steady q) :
    Steady (before p q) :=
  first.bind fun _ => second.bind fun _ => steady_pure

private theorem Takes.before_inv {q : Parser β} (first : Steady p) (second : Steady q)
    (takes : Takes (Parser.before p q) w rest a) :
    ∃ u v b, w = u ++ v ∧ Takes p u (v ++ rest) a ∧ Takes q v rest b := by
  obtain ⟨a', u, v, rfl, takes', behind⟩ := Takes.bind_inv first
    (fun _ => second.bind fun _ => steady_pure) takes
  obtain ⟨b, x, y, rfl, takes'', last⟩ := Takes.bind_inv second (fun _ => steady_pure) behind
  obtain ⟨rfl, rfl⟩ := last.pure_inv
  rw [List.append_nil] at takes' ⊢
  exact ⟨u, x, b, rfl, takes', takes''⟩

theorem Takes.before {q : Parser β} (first : Takes p u (v ++ rest) a) (second : Takes q v rest b) :
    Takes (Parser.before p q) (u ++ v) rest a := by
  refine Takes.bind first ?_
  have whole := Takes.bind (v := []) (g := fun _ => (pure a : Parser α)) second takes_pure
  rwa [List.append_nil] at whole

theorem Takes.exchange_ended {m : Nat} {φ : α → α → Prop} (steady : Steady p)
    (agree : ∀ n, Agree Enclosure.statement id n m φ p p) (same : ∀ a b, φ a b → b = a)
    (takes : Takes (Parser.before p (sign .semicolon)) w rest a) :
    Takes (Parser.before p (sign .semicolon)) w rest' a := by
  obtain ⟨u, v, _, rfl, first, last⟩ := takes.before_inv steady steady_token
  obtain ⟨l, rfl, ends⟩ := last.sign_inv
  have stop {tail : List Lexeme} : ∃ s ∈ [Sign.semicolon],
      (([l] ++ tail).map Lexeme.token).head? = some (.sign s) := by
    simp [ends]
  exact (first.exchange _ agree same stop stop).before (takes_sign ends)

theorem Steady.takes_of_yields {P : α → Prop} (steady : Steady p)
    (yields : Yields p (u.map Lexeme.token) (rest.map Lexeme.token) P) :
    ∃ a, Takes p u rest a ∧ P a := by
  obtain ⟨a, d, outcome, left, holds⟩ := yields ⟨u ++ rest, 0, 0⟩ (List.map_append ..)
  obtain ⟨furthest, run⟩ := outcome {}
  obtain ⟨u', rest', a', split, takes⟩ := steady.takes (w := u ++ rest) fun rejects => by
    have none := rejects 0 0 {}
    rw [run] at none
    cases none
  have first := takes 0 0 {}
  rw [← split, run] at first
  obtain ⟨rfl, rfl⟩ := Prod.mk.inj (Option.some.inj first)
  have behind : rest.length = rest'.length := by
    have lengths := congrArg List.length left
    rw [Cursor.words, List.length_map, List.length_map] at lengths
    exact lengths.symm
  obtain ⟨rfl, rfl⟩ := List.append_inj' split behind
  exact ⟨a, takes, holds⟩

section Brackets

variable {o c : Sign} {l l' : Lexeme}

theorem Steady.between (inside : Steady p) : Steady (between o p c) :=
  steady_token.bind fun _ => inside.bind fun _ => steady_token.bind fun _ => steady_pure

theorem Takes.between (opens : l.token = .sign o) (closes : l'.token = .sign c)
    (inside : Takes p u (l' :: rest) a) :
    Takes (between o p c) (l :: (u ++ [l'])) rest a := by
  have ending : Takes (sign c >>= fun _ => pure a) [l'] rest a :=
    Takes.bind (v := []) (takes_sign closes) takes_pure
  refine Takes.bind (u := [l]) (v := u ++ [l']) (takes_sign opens) ?_
  exact Takes.bind (v := [l']) inside ending

theorem Takes.between_inv (steady : Steady p) (takes : Takes (Parser.between o p c) w rest a) :
    ∃ l u l', w = l :: (u ++ [l']) ∧ l.token = .sign o ∧ l'.token = .sign c ∧
      Takes p u (l' :: rest) a := by
  obtain ⟨_, v, w', rfl, opens, behind⟩ := Takes.bind_inv steady_token
    (fun _ => steady.bind fun _ => steady_token.bind fun _ => steady_pure) takes
  obtain ⟨a', u, v', rfl, inside, ending⟩ := Takes.bind_inv steady
    (fun _ => steady_token.bind fun _ => steady_pure) behind
  obtain ⟨_, x, y, rfl, closes, last⟩ := Takes.bind_inv steady_token
    (fun _ => steady_pure) ending
  obtain ⟨rfl, rfl⟩ := last.pure_inv
  obtain ⟨l, rfl, first⟩ := opens.sign_inv
  obtain ⟨l', rfl, second⟩ := closes.sign_inv
  exact ⟨l, u, l', by simp, first, second, by simpa using inside⟩

theorem Takes.exchange_closing {κ : Enclosure} {m : Nat} {φ : α → α → Prop} (distinct : o ≠ c)
    (counts : κ.Counts o c) (agree : ∀ n, Agree κ id n m φ p p) (same : ∀ a b, φ a b → b = a)
    (takes : Takes p u (l :: rest) a) (closes : l.token = .sign c)
    (closed : ∀ x y, (u ++ l :: rest).map Lexeme.token = x ++ Token.sign c :: y → Balanced o c x →
      ∀ v v', κ.within x (.sign c :: v) (.sign c :: v'))
    (opened : Level o c ((u ++ l :: rest).map Lexeme.token) →
      κ.within ((u ++ l :: rest).map Lexeme.token) [] []) :
    Takes p u (l :: rest') a := by
  have answered {e : Flanks} {v : List Lexeme} (holds : κ.Holds e (l :: v)) : False := by
    rw [Enclosure.Holds, List.map_cons, closes] at holds
    exact counts.answers holds
  rcases level_or_unmatched distinct ((u ++ l :: rest).map Lexeme.token) with
    level | ⟨x, y, split, inside⟩
  · obtain ⟨v, _, _, behind, holds, _⟩ := takes.paired (e := ⟨[], [], 0, 0⟩)
      (agree ((u ++ l :: rest).length + 1)) (Nat.lt_succ_self _) (opened level)
      (List.append_nil _) 0 {}
    rw [List.append_nil] at behind
    exact absurd (behind ▸ holds) answered
  · have within := closed x y split inside
    obtain ⟨xs, rs, split', rfl, others⟩ := List.map_eq_append_iff.mp split
    obtain ⟨l', ys, rfl, closes', rfl⟩ := List.map_eq_cons_iff.mp others
    have holds : κ.Holds ⟨l' :: ys, l' :: ys, 0, 0⟩ xs := by
      rw [Enclosure.Holds, List.map_cons, closes']
      exact within _ _
    obtain ⟨v, _, rfl, behind, holds', _⟩ := takes.paired (e := ⟨l' :: ys, l' :: ys, 0, 0⟩)
      (agree (xs.length + 1)) (Nat.lt_succ_self _) holds split'.symm 0 {}
    cases v with
    | cons k v =>
      obtain ⟨rfl, _⟩ := List.cons.inj behind
      exact absurd holds' answered
    | nil =>
      rw [List.append_nil] at within
      apply takes.exchange_within agree same
      rw [List.map_cons, List.map_cons, closes]
      exact within _ _

end Brackets

end Exchange

section Alternatives

def Excludes (p q : Parser α) : Prop := ∀ u rest a, Takes p u rest a → Rejects q (u ++ rest)

theorem Excludes.map {q : Parser β} {f : α → γ} {g : β → γ}
    (steady : Steady p) (excludes : ∀ u rest a, Takes p u rest a → Rejects q (u ++ rest)) :
    Excludes (f <$> p) (g <$> q) := by
  intro u rest _ takes
  obtain ⟨a, inner, _⟩ := takes.map_inv steady
  exact (excludes u rest a inner).bind

private theorem steady_choice {ps : List (Parser α)} (steady : ∀ p ∈ ps, Steady p) :
    Steady (choice ps) := by
  induction ps with
  | nil => exact fun _ => .inl fun _ _ _ => rfl
  | cons p ps ih =>
    rw [List.forall_mem_cons] at steady
    exact steady.1.or (ih steady.2)

/-- Where at most one alternative succeeds, their order does not matter. -/
theorem takes_choice {ps : List (Parser α)} (steady : ∀ p ∈ ps, Steady p)
    (exclusive : ps.Pairwise Excludes) :
    Takes (choice ps) w rest a ↔ ∃ p ∈ ps, Takes p w rest a := by
  induction ps with
  | nil =>
    constructor
    · intro takes
      cases takes 0 0 {}
    · rintro ⟨p, listed, _⟩
      cases listed
  | cons p ps ih =>
    rw [List.forall_mem_cons] at steady
    rw [List.pairwise_cons] at exclusive
    constructor
    · intro takes
      rcases Takes.or_inv steady.1 (steady_choice steady.2) takes with first | ⟨_, others⟩
      · exact ⟨p, List.mem_cons_self, first⟩
      · obtain ⟨q, listed, second⟩ := (ih steady.2 exclusive.2).mp others
        exact ⟨q, List.mem_cons_of_mem _ listed, second⟩
    · rintro ⟨q, listed, takes⟩
      rcases List.mem_cons.mp listed with rfl | later
      · exact takes.or
      · rcases steady.1 (w ++ rest) with rejects | ⟨u, rest', b, split, first⟩
        · exact rejects.or_takes ((ih steady.2 exclusive.2).mpr ⟨q, later, takes⟩)
        · exact absurd (split ▸ exclusive.1 q later u rest' b first) takes.not_rejects

theorem Takes.choice_append_inv {ps qs : List (Parser α)} (steady : ∀ p ∈ ps, Steady p)
    (others : Steady (choice qs)) (takes : Takes (choice (ps ++ qs)) w rest a) :
    (∃ p ∈ ps, Takes p w rest a) ∨ Takes (choice qs) w rest a := by
  induction ps with
  | nil => exact .inr takes
  | cons p ps ih =>
    rw [List.forall_mem_cons] at steady
    have behind : Steady (choice (ps ++ qs)) := by
      clear ih takes
      induction ps with
      | nil => exact others
      | cons q ps ih =>
        rw [List.forall_mem_cons] at steady
        exact steady.2.1.or (ih ⟨steady.1, steady.2.2⟩)
    rcases Takes.or_inv steady.1 behind takes with first | ⟨_, takes⟩
    · exact .inl ⟨p, List.mem_cons_self, first⟩
    · rcases ih steady.2 takes with ⟨q, listed, second⟩ | last
      · exact .inl ⟨q, List.mem_cons_of_mem _ listed, second⟩
      · exact .inr last

end Alternatives

end Parser

end Lockstep
