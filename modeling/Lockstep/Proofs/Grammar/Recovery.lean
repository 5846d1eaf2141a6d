import Lockstep.Proofs.Grammar.Items
import Lockstep.Proofs.Grammar.RoundTrip
/-!
Recovery inside function bodies. However broken the statements between the braces of a function
are, reading goes on behind the brace that answers the first one: the items in front of the function
and behind it are found as if they stood alone.
-/

set_option autoImplicit false
set_option relaxedAutoImplicit false

namespace Lockstep

namespace Parser

variable {α β : Type} {p q : Parser α} {a : α} {as : List α} {u v w rest : List Lexeme}

section Rows

/-- What does not depend on anything but the tokens, and reads one at least. -/
structure Advances (p : Parser α) : Prop where
  steady : Steady p
  nonempty : ∀ {u rest a}, Takes p u rest a → u ≠ []

private theorem advances_of_agree {φ : α → α → Prop}
    (agree : ∀ n, Agree Enclosure.whole id n 1 φ p p)
    (same : ∀ a b, φ a b → b = a) : Advances p where
  steady := steady_of_agree agree same
  nonempty := fun takes => List.ne_nil_of_length_pos (takes.least_le agree)

private theorem Steady.takes_of_run (steady : Steady p) {c d : Cursor} {log log' : Log}
    (run : p c log = (some (a, d), log')) : ∃ u, c.rest = u ++ d.rest ∧ Takes p u d.rest a := by
  obtain ⟨w, stop, length⟩ := c
  rcases steady w with rejects | ⟨u, rest, b, rfl, takes⟩
  · have none := rejects stop length log
    rw [run] at none
    cases none
  · have some := takes stop length log
    rw [run] at some
    obtain ⟨rfl, rfl⟩ := Prod.mk.inj (Option.some.inj some)
    exact ⟨u, rfl, takes⟩

theorem Advances.shorter (advances : Advances p) {c d : Cursor} {log log' : Log}
    (run : p c log = (some (a, d), log')) : d.rest.length < c.rest.length := by
  obtain ⟨u, split, takes⟩ := advances.steady.takes_of_run run
  have positive := List.length_pos_of_ne_nil (advances.nonempty takes)
  rw [split, List.length_append]
  omega

/-- More rounds than there are tokens make no difference where each round reads one. -/
theorem manyWithin_eq {size : Nat}
    (shorter : ∀ {c d : Cursor} {log log' : Log} {a : α}, c.rest.length ≤ size →
      p c log = (some (a, d), log') → d.rest.length < c.rest.length)
    (n m : Nat) (c : Cursor) (log : Log) (within : c.rest.length ≤ size)
    (enough : c.rest.length < n) (enough' : c.rest.length < m) :
    manyWithin p n c log = manyWithin p m c log := by
  induction n generalizing m c log with
  | zero => omega
  | succ n ih =>
    cases m with
    | zero => omega
    | succ m =>
      rw [manyWithin, manyWithin]
      cases run : p c log with
      | mk result log' =>
        cases result with
        | none => rfl
        | some step =>
          have less := shorter within run
          simp only
          rw [ih m step.2 log' (by omega) (by omega) (by omega)]

theorem Rejects.many (rejects : Rejects p rest) : Takes (many p) [] rest [] := by
  intro stop length log
  have none := rejects stop length log
  rw [List.nil_append]
  simp only [Parser.many, manyWithin]
  generalize p ⟨rest, stop, length⟩ log = x at none ⊢
  obtain ⟨_, log'⟩ := x
  subst none
  rfl

theorem Advances.many_cons (advances : Advances p) (first : Takes p u (v ++ rest) a)
    (others : Takes (many p) v rest as) : Takes (many p) (u ++ v) rest (a :: as) := by
  intro stop length log
  have one := first stop length log
  have positive := List.length_pos_of_ne_nil (advances.nonempty first)
  rw [List.append_assoc]
  simp only [Parser.many, manyWithin]
  generalize size : (u ++ (v ++ rest)).length = n
  rw [List.length_append] at size
  generalize p ⟨u ++ (v ++ rest), stop, length⟩ log = x at one ⊢
  obtain ⟨_, log'⟩ := x
  subst one
  simp only
  have more := others (lastStop stop u) length log'
  simp only [Parser.many, Option.some.injEq] at more
  rw [manyWithin_eq (fun _ => advances.shorter) n _ ⟨v ++ rest, lastStop stop u, length⟩ log' le_rfl
    (by simp only; omega) (Nat.lt_succ_self _)]
  generalize manyWithin p _ ⟨v ++ rest, lastStop stop u, length⟩ log' = y at more ⊢
  obtain ⟨_, log''⟩ := y
  subst more
  rw [lastStop_append]

private theorem Advances.steady_many (advances : Advances p) : Steady (many p) := by
  intro w
  induction size : w.length using Nat.strongRecOn generalizing w with
  | ind n ih =>
    rcases advances.steady w with rejects | ⟨u, rest, a, rfl, takes⟩
    · exact .inr ⟨[], w, [], rfl, rejects.many⟩
    · have positive := List.length_pos_of_ne_nil (advances.nonempty takes)
      rw [List.length_append] at size
      rcases ih rest.length (by omega) rest rfl with rejects | ⟨v, rest', as, rfl, others⟩
      · cases rejects 0 0 {}
      · exact .inr ⟨u ++ v, rest', a :: as, (List.append_assoc ..).symm,
          advances.many_cons takes others⟩

theorem Advances.many_inv (advances : Advances p) (takes : Takes (many p) w rest as) :
    w = [] ∧ as = [] ∨ ∃ u v b bs, w = u ++ v ∧ as = b :: bs ∧ Takes p u (v ++ rest) b ∧
      Takes (many p) v rest bs := by
  rcases advances.steady (w ++ rest) with rejects | ⟨u, rest', b, split, first⟩
  · obtain ⟨none, _, empty⟩ := takes.unique rejects.many rfl
    exact .inl ⟨none, empty⟩
  · obtain ⟨v, rest'', bs, rfl, others⟩ := advances.steady_many.takes (w := rest') fun rejects => by
      cases rejects 0 0 {}
    obtain ⟨rfl, rfl, rfl⟩ := takes.unique (advances.many_cons first others)
      (split.trans (List.append_assoc ..).symm)
    exact .inr ⟨u, v, b, bs, rfl, rfl, first, others⟩

theorem Advances.exists_takes_of_mem (advances : Advances p) (takes : Takes (many p) w rest as)
    (member : a ∈ as) : ∃ x u y, w = x ++ (u ++ y) ∧ Takes p u (y ++ rest) a := by
  induction as generalizing w with
  | nil => cases member
  | cons b bs ih =>
    rcases advances.many_inv takes with ⟨_, none⟩ | ⟨u, v, b', bs', rfl, same, first, others⟩
    · cases none
    · obtain ⟨rfl, rfl⟩ := List.cons.inj same
      rcases List.mem_cons.mp member with rfl | later
      · exact ⟨[], u, v, rfl, first⟩
      · obtain ⟨x, u', y, rfl, inner⟩ := ih others later
        exact ⟨u ++ x, u', y, (List.append_assoc ..).symm, inner⟩

theorem Takes.recover {skip : Parser α} (first : Takes p u rest a) :
    Takes (recover p skip) u rest a := by
  intro stop length log
  have run := first stop length log
  simp only [Parser.recover]
  generalize p ⟨u ++ rest, stop, length⟩ log = x at run ⊢
  obtain ⟨_, log'⟩ := x
  subst run
  rfl

private theorem Rejects.recover_takes {skip : Parser α} (first : Rejects p (u ++ rest))
    (second : Takes skip u rest a) : Takes (recover p skip) u rest a := by
  intro stop length log
  have run := first stop length log
  have run' := second stop length ⟨none, log.reported⟩
  simp only [Parser.recover]
  generalize p ⟨u ++ rest, stop, length⟩ log = x at run ⊢
  obtain ⟨_, log'⟩ := x
  subst run
  simp only
  generalize skip ⟨u ++ rest, stop, length⟩ ⟨none, log.reported⟩ = y at run' ⊢
  obtain ⟨_, log''⟩ := y
  subst run'
  rfl

theorem Rejects.recover {skip : Parser α} (first : Rejects p w) (second : Rejects skip w) :
    Rejects (recover p skip) w := by
  intro stop length log
  have run := first stop length log
  have run' := second stop length ⟨none, log.reported⟩
  simp only [Parser.recover]
  generalize p ⟨w, stop, length⟩ log = x at run ⊢
  obtain ⟨_, log'⟩ := x
  subst run
  simp only
  generalize skip ⟨w, stop, length⟩ ⟨none, log.reported⟩ = y at run' ⊢
  obtain ⟨_, log''⟩ := y
  subst run'
  rfl

theorem Steady.recover {skip : Parser α} (first : Steady p) (second : Steady skip) :
    Steady (recover p skip) := by
  intro w
  rcases first w with rejects | ⟨u, rest, a, rfl, takes⟩
  · rcases second w with rejects' | ⟨u, rest, a, rfl, takes⟩
    · exact .inl (rejects.recover rejects')
    · exact .inr ⟨u, rest, a, rfl, rejects.recover_takes takes⟩
  · exact .inr ⟨u, rest, a, rfl, takes.recover⟩

theorem Takes.recover_inv {skip : Parser α} (first : Steady p) (second : Steady skip)
    (takes : Takes (Parser.recover p skip) u rest a) : Takes p u rest a ∨ Takes skip u rest a := by
  rcases first (u ++ rest) with rejects | ⟨u', rest', a', split, takes'⟩
  · obtain ⟨u', rest', a', split, takes'⟩ := second.takes fun rejects' =>
      takes.not_rejects (rejects.recover rejects')
    obtain ⟨rfl, rfl, rfl⟩ := takes.unique ((split ▸ rejects).recover_takes takes') split
    exact .inr takes'
  · obtain ⟨rfl, rfl, rfl⟩ := takes.unique takes'.recover split
    exact .inl takes'

/-- All tokens of a text are taken alike where they stand elsewhere. -/
theorem Takes.relocate {f : Nat → Nat} {m : Nat} {h : α → α}
    (agree : ∀ n, Agree Enclosure.whole f n m (fun a b => b = h a) p p) (takes : Takes p w [] a) :
    Takes p (w.map (Lexeme.relocate f)) [] (h a) := by
  intro stop length log
  have pair := agree _ ⟨[], [], 0, length⟩ w 0 stop {} log (Nat.lt_succ_self _) ⟨rfl, rfl⟩
  have first := takes 0 0 {}
  simp only [Flanks.one, Flanks.two] at pair
  generalize p ⟨w ++ [], 0, 0⟩ {} = x, p ⟨w.map (Lexeme.relocate f) ++ [], stop, length⟩ log = y
    at pair first ⊢
  cases pair with
  | fail => cases first
  | read a' b u v _ _ split _ _ _ related =>
    simp only [Flanks.one, List.append_nil, Option.some.injEq, Prod.mk.injEq,
      Cursor.mk.injEq] at first
    obtain ⟨rfl, rfl, _⟩ := first
    rw [List.append_nil] at split
    subst split related
    rfl

end Rows

section Failures

def Records (p : Parser α) : Prop := ∀ c log log', p c log = (none, log') → log'.furthest.isSome

private theorem records_of_total (total : ∀ c log, (p c log).1.isSome) : Records p := by
  intro c log log' run
  have some := total c log
  rw [run] at some
  cases some

theorem records_pure : Records (pure a) := records_of_total fun _ _ => rfl

theorem records_many : Records (many p) := records_of_total fun _ _ => rfl

private theorem records_next {expected : Expected} {read : Token → Option α} :
    Records (next expected read) := by
  intro c log log' run
  unfold next at run
  split at run
  · split at run
    · cases run
    · cases run
      rfl
  · cases run
    rfl

theorem records_token {t : Token} : Records (token t) := by
  unfold token
  exact records_next

theorem Records.bind {g : α → Parser β} (first : Records p) (second : ∀ a, Records (g a)) :
    Records (p >>= g) := by
  intro c log log' run
  simp only [Bind.bind] at run
  cases outcome : p c log with
  | mk result log₁ =>
    rw [outcome] at run
    cases result with
    | none =>
      cases run
      exact first c log _ outcome
    | some step => exact second step.1 step.2 log₁ log' run

theorem Records.map {f : α → β} (first : Records p) : Records (f <$> p) :=
  first.bind fun _ => records_pure

theorem Records.spanned (first : Records p) : Records (spanned p) := by
  intro c log log' run
  simp only [Parser.spanned] at run
  cases outcome : p c log with
  | mk result log₁ =>
    rw [outcome] at run
    cases result with
    | none =>
      cases run
      exact first c log _ outcome
    | some step => cases run

theorem Records.or (second : Records q) : Records (Parser.or p q) := by
  intro c log log' run
  simp only [Parser.or] at run
  cases outcome : p c log with
  | mk result log₁ =>
    rw [outcome] at run
    cases result with
    | none => exact second _ _ _ run
    | some step => cases run

private theorem records_optional : Records (optional p) := records_pure.or

theorem Records.choice (ps : List (Parser α)) (last : Records q) : Records (choice (ps ++ [q])) := by
  induction ps with
  | nil =>
    intro c log log' run
    simp only [List.nil_append, Parser.choice, Parser.or] at run
    cases outcome : q c log with
    | mk result log₁ =>
      rw [outcome] at run
      cases result with
      | none =>
        cases run
        exact last c log log₁ outcome
      | some step => cases run
  | cons p ps ih => exact ih.or

end Failures

section Acceptance

variable {c : Cursor}

def Accepts (p : Parser α) (c : Cursor) : Prop := ∀ log, (p c log).1.isSome

theorem Yields.accepts {x y : List Token} {P : α → Prop} (yields : Yields p x y P)
    (here : c.words = x ++ y) : Accepts p c := by
  intro log
  obtain ⟨a, d, outcome, _⟩ := yields c here
  obtain ⟨furthest, run⟩ := outcome log
  rw [run]
  rfl

theorem Accepts.map {f : α → β} (first : Accepts p c) : Accepts (f <$> p) c := by
  intro log
  obtain ⟨step, run⟩ := Option.isSome_iff_exists.mp (first log)
  simp only [Functor.map]
  generalize p c log = x at run ⊢
  obtain ⟨_, log'⟩ := x
  subst run
  rfl

theorem Accepts.spanned (first : Accepts p c) : Accepts (spanned p) c := by
  intro log
  obtain ⟨step, run⟩ := Option.isSome_iff_exists.mp (first log)
  simp only [Parser.spanned]
  generalize p c log = x at run ⊢
  obtain ⟨_, log'⟩ := x
  subst run
  rfl

theorem Accepts.choice {ps : List (Parser α)} (listed : p ∈ ps) (accepts : Accepts p c) :
    Accepts (choice ps) c := by
  induction ps with
  | nil => cases listed
  | cons q ps ih =>
    intro log
    simp only [Parser.choice, Parser.or]
    split
    · rfl
    · rename_i log' failed
      rcases List.mem_cons.mp listed with rfl | later
      · have some := accepts log
        rw [failed] at some
        cases some
      · exact ih later _

theorem Accepts.recover {skip : Parser α} (accepts : Accepts p c ∨ Accepts skip c) :
    Accepts (recover p skip) c := by
  intro log
  simp only [Parser.recover]
  split
  · rfl
  · rename_i log' failed
    rcases accepts with first | second
    · have some := first log
      rw [failed] at some
      cases some
    · obtain ⟨step, run⟩ := Option.isSome_iff_exists.mp (second ⟨none, log.reported⟩)
      generalize skip c ⟨none, log.reported⟩ = x at run ⊢
      obtain ⟨_, log''⟩ := x
      subst run
      rfl

end Acceptance

end Parser

namespace Grammar

open Lockstep.Parser

section Sound

private theorem records_ident : Records ident := records_next.spanned.bind fun _ => records_pure

private theorem records_plainType : Records plainType := by
  have name : Records typeName :=
    Records.choice [TypeName.struct <$> after (keyword .kwStruct) ident, integerType]
      records_ident.map
  have type : Records typeSpec := by
    refine (records_many.bind fun _ => records_pure).bind (fun _ => name.bind fun _ =>
      (records_many.bind fun _ => records_pure).bind fun _ =>
        (records_many.bind fun _ => records_pure).bind fun _ => records_pure) |>.spanned.bind ?_
    rintro ⟨⟨_, _, _⟩, _⟩
    exact records_pure
  exact type.map

private theorem records_decl : Records decl := by
  have one : Records declarator := by
    refine ((records_many.bind fun _ => records_pure).bind fun _ => records_ident.bind fun _ =>
      records_many.bind fun _ => records_optional.bind fun _ => records_pure).spanned.bind ?_
    rintro ⟨⟨_, _, _, _⟩, _⟩
    exact records_pure
  have all : Records (commaSep1 declarator) :=
    one.bind fun _ => records_many.bind fun _ => records_pure
  refine (records_plainType.bind fun _ => all.bind fun _ => records_pure).spanned.bind ?_
  rintro ⟨⟨_, _⟩, _⟩
  exact records_pure

theorem records_soundItem : Records soundItem := by
  have global : Records (before decl (sign .semicolon)) :=
    records_decl.bind fun _ => records_token.bind fun _ => records_pure
  exact Records.choice [Item.struct <$> structDef, Item.typedef <$> typedef,
    Item.function <$> function] global.map

inductive SoundItems : List Lexeme → List Item → Prop where
  | nil : SoundItems [] []
  | cons {u v : List Lexeme} {x : Item} {xs : List Item} (first : Takes soundItem u v x)
      (others : SoundItems v xs) : SoundItems (u ++ v) (x :: xs)

private theorem SoundItems.eq_nil {w : List Lexeme} (sound : SoundItems w []) : w = [] := by
  cases sound
  rfl

theorem SoundItems.exists_cons {w : List Lexeme} {x : Item} {xs : List Item}
    (sound : SoundItems w (x :: xs)) :
    ∃ u v, w = u ++ v ∧ Takes soundItem u v x ∧ SoundItems v xs := by
  cases sound with
  | cons first others => exact ⟨_, _, rfl, first, others⟩

theorem advances_soundItem : Advances soundItem :=
  advances_of_agree (fun _ => agree_soundItem Enclosure.blocks_whole) fun _ _ same => by simp [same]

theorem advances_item : Advances item :=
  advances_of_agree (fun _ => agree_item Enclosure.blocks_whole (Enclosure.plain_whole _))
    fun _ _ same => by simp [same, funext Item.relocate_id]

private theorem reports_kept {c d : Cursor} {log log' : Log} {a : Option Item}
    (run : item c log = (some (a, d), log')) : log.reported <+: log'.reported := by
  obtain ⟨w, stop, length⟩ := c
  have pair := agree_item (f := id) Enclosure.blocks_whole (Enclosure.plain_whole _)
    ⟨[], [], length, length⟩ w stop stop log log (Nat.lt_succ_self _) ⟨rfl, rfl⟩
  simp only [Flanks.one, List.append_nil] at pair
  rw [run] at pair
  generalize item (Flanks.two _ _ _ _) log = y at pair
  cases pair with
  | read _ _ _ _ _ _ _ _ _ kept _ => exact kept

private theorem item_sound {c d : Cursor} {log log' : Log} {a : Option Item}
    (run : item c log = (some (a, d), log')) (quiet : log'.reported = []) :
    ∃ u x, c.rest = u ++ d.rest ∧ a = some x ∧ Takes soundItem u d.rest x := by
  simp only [item, recover, Functor.map] at run
  cases sound : soundItem c log with
  | mk result log₁ =>
    rw [sound] at run
    cases result with
    | some step =>
      obtain ⟨x, d'⟩ := step
      obtain ⟨u, split, takes⟩ := advances_soundItem.steady.takes_of_run sound
      cases run
      exact ⟨u, x, split, rfl, takes⟩
    | none =>
      -- Skipping the item would have reported the failure that is on record.
      have failure := records_soundItem c log log₁ sound
      simp only at run
      split at run
      · cases run
        simp only [List.append_eq_nil_iff, Option.toList_eq_nil_iff] at quiet
        rw [quiet.2] at failure
        cases failure
      · cases run

private theorem soundItems_of_manyWithin (n : Nat) {c d : Cursor} {log log' : Log}
    {items : List (Option Item)} (run : manyWithin item n c log = ((items, d), log'))
    (quiet : log'.reported = []) (ended : d.rest = []) :
    log.reported = [] ∧ ∃ xs, items = xs.map some ∧ SoundItems c.rest xs := by
  induction n generalizing c log items with
  | zero =>
    cases run
    rw [ended]
    exact ⟨quiet, [], rfl, .nil⟩
  | succ n ih =>
    rw [manyWithin] at run
    cases outcome : item c log with
    | mk result log₁ =>
      rw [outcome] at run
      cases result with
      | none =>
        cases run
        rw [ended]
        exact ⟨quiet, [], rfl, .nil⟩
      | some step =>
        obtain ⟨a, c'⟩ := step
        simp only at run
        cases rest : manyWithin item n c' log₁ with
        | mk result' log₂ =>
          obtain ⟨as, d'⟩ := result'
          rw [rest] at run
          cases run
          obtain ⟨quiet', xs, rfl, others⟩ := ih rest
          obtain ⟨u, x, split, rfl, first⟩ := item_sound outcome quiet'
          have kept := reports_kept outcome
          rw [quiet', List.prefix_nil] at kept
          exact ⟨kept, x :: xs, rfl, split ▸ .cons first others⟩

private theorem parseTokens_of_many {w : List Lexeme} {length stop : Nat}
    {items : List (Option Item)}
    {log : Log} (run : many item (.start w length) {} = (some (items, ⟨[], stop, length⟩), log)) :
    ∃ span, parseTokens w length = (some ⟨items.filterMap id, span⟩, log.reported) := by
  refine ⟨(Cursor.start w length).upTo ⟨[], stop, length⟩, ?_⟩
  unfold parseTokens
  simp only [sourceUnit, before, Bind.bind, spanned, run, atEnd, Pure.pure]

private theorem many_of_parseTokens {w : List Lexeme} {length : Nat} {unit : SourceUnit}
    {failures : List Failure} (parsed : parseTokens w length = (some unit, failures)) :
    ∃ items d log, many item (.start w length) {} = (some (items, d), log) ∧ d.rest = [] ∧
      unit.items = items.filterMap id ∧ log.reported = failures := by
  obtain ⟨⟨items, rest, stop, length'⟩, log, run⟩ :
      ∃ r log, many item (.start w length) {} = (some r, log) := ⟨_, _, rfl⟩
  unfold parseTokens at parsed
  simp only [sourceUnit, before, Bind.bind, spanned, run] at parsed
  cases rest with
  | nil =>
    cases parsed
    exact ⟨items, _, log, run, rfl, rfl, rfl⟩
  | cons l rest => cases parsed

private theorem soundItems_of_parseTokens {w : List Lexeme} {length : Nat} {unit : SourceUnit}
    (parsed : parseTokens w length = (some unit, [])) : SoundItems w unit.items := by
  obtain ⟨items, d, log, run, ended, same, quiet⟩ := many_of_parseTokens parsed
  have rounds : manyWithin item (w.length + 1) (.start w length) {} = ((items, d), log) := by
    simpa [many, Cursor.start, Prod.ext_iff] using run
  obtain ⟨_, xs, rfl, sound⟩ := soundItems_of_manyWithin _ rounds quiet ended
  rw [same, List.filterMap_map, Function.id_comp, List.filterMap_some]
  exact sound

end Sound

section Statements

section Skipping

variable {t : Token} {g v w : List Token}

theorem yields_inertToken (semicolon : t ≠ .sign .semicolon) (opening : t ≠ .sign .lBrace)
    (closing : t ≠ .sign .rBrace) : Yields inertToken [t] v fun _ => True := by
  have plain : Yields anyToken [t] v fun s => s = t := yields_next rfl rfl
  refine (plain.guard ?_).bind (w := []) fun _ _ => yields_pure trivial
  rintro _ rfl
  simp [semicolon, opening, closing]

theorem refuses_inertToken (stop : t = .sign .semicolon ∨ t = .sign .rBrace) :
    Refuses inertToken (t :: v) := by
  have plain : Yields anyToken [t] v fun s => s = t := yields_next rfl rfl
  refine (plain.guard_refuses ?_).bind
  rintro _ rfl
  rcases stop with rfl | rfl <;> rfl

private theorem exists_skipped (balanced : Balanced .lBrace .rBrace w) : ∃ x z, w = x ++ z ∧
    (z = [] ∨ z.head? = some (.sign .semicolon)) ∧
      Rows (choice [braceGroup, inertToken]) x (z ++ Token.sign .rBrace :: v) fun _ => True := by
  induction size : w.length using Nat.strongRecOn generalizing w with
  | _ n ih =>
    cases w with
    | nil => exact ⟨[], [], rfl, .inl rfl, rows_nil trivial⟩
    | cons t w =>
      subst size
      by_cases semicolon : t = .sign .semicolon
      · subst semicolon
        exact ⟨[], _, rfl, .inr rfl, rows_nil trivial⟩
      by_cases opening : t = .sign .lBrace
      · subst opening
        obtain ⟨g, y, rfl, inside, behind⟩ := balanced.exists_closing (by decide)
        obtain ⟨x, z, rfl, ends, rows⟩ := ih y.length (by simp; omega) behind rfl
        have first : Yields (choice [braceGroup, inertToken])
            (.sign .lBrace :: (g ++ [Token.sign .rBrace])) (x ++ (z ++ Token.sign .rBrace :: v))
            fun _ => True := (yields_group (by decide) inside).or
        have joined := Rows.cons (R := fun _ => True) first (by simp) rows fun _ _ _ _ => trivial
        exact ⟨_, z, by simp, ends, joined⟩
      · have closing : t ≠ .sign .rBrace := by
          rintro rfl
          exact not_level_closing (by decide) balanced.level
        obtain ⟨x, z, rfl, ends, rows⟩ := ih w.length (by simp) (balanced.tail opening closing) rfl
        have first : Yields (choice [braceGroup, inertToken]) [t]
            (x ++ (z ++ Token.sign .rBrace :: v)) fun _ => True := by
          apply Refuses.or_yields (refuses_braceGroup (by simpa using opening))
          exact (yields_inertToken semicolon opening closing).or
        have joined := Rows.cons (R := fun _ => True) first (by simp) rows fun _ _ _ _ => trivial
        exact ⟨t :: x, z, rfl, ends, joined⟩

private theorem accepts_brokenStmt {c : Cursor} (balanced : Balanced .lBrace .rBrace w)
    (nonempty : w ≠ []) (semicolon : w.head? ≠ some (.sign .semicolon))
    (here : c.words = w ++ Token.sign .rBrace :: v) : Accepts brokenStmt c := by
  obtain ⟨x, z, rfl, ends, rows⟩ := exists_skipped (v := v) balanced
  have some : x ≠ [] := by
    rintro rfl
    exact ends.elim nonempty semicolon
  have stuck {t : Token} {y : List Token} (stop : t = .sign .semicolon ∨ t = .sign .rBrace) :
      Refuses (choice [braceGroup, inertToken]) (t :: y) := by
    have closed : Refuses braceGroup (t :: y) :=
      refuses_braceGroup (by rcases stop with rfl | rfl <;> simp)
    exact closed.or ((refuses_inertToken stop).or refuses_choice_nil)
  rcases ends with rfl | first
  · have ending : Yields (choice [sign .semicolon, lookAhead (sign .rBrace), lookAhead atEnd]) []
        (.sign .rBrace :: v) fun _ => True :=
      (refuses_token (by simp)).or_yields (Yields.lookAhead (u := [.sign .rBrace]) yields_token).or
    have whole : Yields brokenStmt (x ++ []) (.sign .rBrace :: v) fun _ => True :=
      (rows.many1 some (stuck (.inr rfl))).bind fun _ _ => ending
    exact whole.accepts here
  · obtain ⟨z, rfl⟩ := List.head?_eq_some_iff.mp first
    have ending : Yields (choice [sign .semicolon, lookAhead (sign .rBrace), lookAhead atEnd])
        [.sign .semicolon] (z ++ Token.sign .rBrace :: v) fun _ => True := yields_token.or
    have whole : Yields brokenStmt (x ++ [Token.sign .semicolon]) (z ++ Token.sign .rBrace :: v)
        fun _ => True := by
      refine Yields.bind (w := [.sign .semicolon]) (P := fun _ => True) ?_ fun _ _ => ending
      exact Rows.many1 (by simpa using rows) some (stuck (.inl rfl))
    exact whole.accepts (by simpa using here)

private theorem accepts_stmt {c : Cursor} (balanced : Balanced .lBrace .rBrace w)
    (nonempty : w ≠ [])
    (here : c.words = w ++ Token.sign .rBrace :: v) : Accepts stmt c := by
  have rule (inner : Parser Stmt) : Accepts (stmtRule inner) c := by
    apply Accepts.map
    apply Accepts.spanned
    apply Accepts.recover
    by_cases semicolon : w.head? = some (.sign .semicolon)
    · obtain ⟨w, rfl⟩ := List.head?_eq_some_iff.mp semicolon
      have empty : Accepts ((fun _ => Stmt.empty) <$> sign .semicolon) c :=
        (Yields.accepts (x := [.sign .semicolon]) yields_token here).map
      exact .inl (empty.choice (by simp))
    · exact .inr (accepts_brokenStmt balanced nonempty semicolon here).map
  exact fun log => rule _ log

end Skipping

theorem advances_stmt : Advances stmt :=
  advances_of_agree (fun _ => agree_stmt Enclosure.blocks_whole) fun _ _ same => by simp [same]

private theorem exists_takes_stmts {b rest : List Lexeme} {l : Lexeme}
    (attributes : AttributesBalanced (b.map Lexeme.token))
    (balanced : Balanced .lBrace .rBrace (b.map Lexeme.token)) (closes : l.token = .sign .rBrace) :
    ∃ stmts, Takes (many stmt) b (l :: rest) stmts := by
  induction size : b.length using Nat.strongRecOn generalizing b with
  | _ n ih =>
    by_cases nonempty : b = []
    · subst nonempty
      have refuses : Refuses stmt ((l :: rest).map Lexeme.token) := by
        rw [List.map_cons, closes]
        exact refuses_stmt_rBrace
      exact ⟨[], refuses.rejects.many⟩
    · have accepts : Accepts stmt ⟨b ++ l :: rest, 0, 0⟩ :=
        accepts_stmt balanced (by simpa using nonempty) (v := rest.map Lexeme.token)
          (by simp [Cursor.words, closes])
      obtain ⟨u, rest', s, split, first⟩ := advances_stmt.steady.takes (w := b ++ l :: rest)
        fun rejects => by
          have some := accepts {}
          rw [rejects 0 0 {}] at some
          cases some
      have holds : Enclosure.brace.Holds ⟨l :: rest, l :: rest, 0, 0⟩ b :=
        ⟨attributes, .inl ⟨balanced, by simp [closes], by simp [closes]⟩⟩
      obtain ⟨v, _, rfl, rfl, ⟨attributes', inside⟩, _⟩ := first.paired
        (agree_stmt Enclosure.blocks_brace) (Nat.lt_succ_self _) holds split 0 {}
      have balanced' : Balanced .lBrace .rBrace (v.map Lexeme.token) := by
        rcases inside with ⟨balanced', _⟩ | ⟨_, none, _⟩
        · exact balanced'
        · cases none
      have positive := List.length_pos_of_ne_nil (advances_stmt.nonempty first)
      obtain ⟨others, second⟩ := ih v.length (by simp at size; omega) attributes' balanced' rfl
      exact ⟨s :: others, advances_stmt.many_cons first second⟩

end Statements

section Isolation

variable {header b pre rest : List Lexeme} {proto : Function} {opening closing : Lexeme}

/-- The function that the tokens declare with a semicolon behind them. -/
def prototype (header : List Lexeme) : Option Function :=
  match parseTokens (header ++ [⟨.sign .semicolon, ⟨0, 0⟩⟩]) 0 with
  | (some ⟨[.function proto], _⟩, []) => some proto
  | _ => none

private theorem parseTokens_of_prototype (isHeader : prototype header = some proto) : ∃ span,
    parseTokens (header ++ [⟨.sign .semicolon, ⟨0, 0⟩⟩]) 0 =
      (some ⟨[.function proto], span⟩, []) := by
  unfold prototype at isHeader
  split at isHeader
  · rename_i f span outcome
    cases isHeader
    exact ⟨span, outcome⟩
  · cases isHeader

theorem takes_function_of_soundItem {w : List Lexeme} {f : Function}
    (takes : Takes soundItem w rest (.function f)) : Takes function w rest f := by
  obtain ⟨p, listed, takes⟩ := takes_soundItem.mp takes
  simp only [itemRules, List.mem_cons, List.not_mem_nil, or_false] at listed
  rcases listed with rfl | rfl | rfl | rfl
  · obtain ⟨_, _, same⟩ := takes.map_inv steady_structDef
    cases same
  · obtain ⟨_, _, same⟩ := takes.map_inv steady_typedef
    cases same
  · obtain ⟨_, inner, same⟩ := takes.map_inv steady_function
    cases same
    exact inner
  · obtain ⟨_, _, same⟩ := takes.map_inv steady_global
    cases same

private theorem exists_parts_of_prototype (isHeader : prototype header = some proto) : ∃ w rest,
    ∃ parts : FunctionParts w rest proto,
      header = parts.front ++ (parts.params ++ parts.attributes) := by
  obtain ⟨span, parsed⟩ := parseTokens_of_prototype isHeader
  obtain ⟨u, v, split, first, last⟩ := (soundItems_of_parseTokens parsed).exists_cons
  have none := last.eq_nil
  subst none
  rw [List.append_nil] at split
  subst split
  obtain ⟨parts⟩ := exists_functionParts (takes_function_of_soundItem first)
  refine ⟨_, _, parts, ?_⟩
  have split := parts.split
  rcases bodyOrEnd_cases parts.takes_ending with ⟨_, _, braced⟩ | ⟨_, l, same, _⟩
  · -- The last token would be the brace that closes the body.
    obtain ⟨_, _, inner, _⟩ := Takes.spanned_inv steady_stmts.between body_returns braced
      (body_nonempty braced)
    obtain ⟨l, g, l', same, _, closes, _⟩ := inner.between_inv steady_stmts
    have ending : header ++ [⟨.sign .semicolon, ⟨0, 0⟩⟩] =
        (parts.front ++ (parts.params ++ (parts.attributes ++ l :: g))) ++ [l'] :=
      split.trans (by simp [same])
    obtain ⟨_, last⟩ := List.append_inj' ending rfl
    cases last
    cases closes
  · have ending : header ++ [⟨.sign .semicolon, ⟨0, 0⟩⟩] =
        (parts.front ++ (parts.params ++ parts.attributes)) ++ [l] :=
      split.trans (by simp [same])
    exact (List.append_inj' ending rfl).1

private theorem exists_function_of_prototype (isHeader : prototype header = some proto)
    (opens : opening.token = .sign .lBrace) (closes : closing.token = .sign .rBrace)
    (attributes : AttributesBalanced (b.map Lexeme.token))
    (balanced : Balanced .lBrace .rBrace (b.map Lexeme.token)) :
    ∃ block span, Takes soundItem (header ++ opening :: (b ++ [closing])) rest
      (.function ⟨proto.isKernel, proto.ret, proto.name, proto.params, some block, span⟩) := by
  obtain ⟨_, _, parts, rfl⟩ := exists_parts_of_prototype isHeader
  obtain ⟨stmts, inside⟩ : ∃ stmts, Takes (many stmt) b (closing :: rest) stmts :=
    exists_takes_stmts attributes balanced closes
  obtain ⟨span, spans⟩ := exists_spans (u := opening :: (b ++ [closing])) (by simp)
  have body : Takes body (opening :: (b ++ [closing])) rest ⟨stmts, span⟩ :=
    Takes.spanned_bind body_returns (Takes.between opens closes inside) (by simp) spans
  obtain ⟨span', spans'⟩ := exists_spans (u := parts.front ++ (parts.params ++ (parts.attributes ++
    opening :: (b ++ [closing])))) (by simp)
  have whole := (parts.takes body.map.or spans').map (f := Item.function)
  refine ⟨⟨stmts, span⟩, span', takes_soundItem.mpr ⟨Item.function <$> function,
    by simp [itemRules], ?_⟩⟩
  simpa using whole

private theorem SoundItems.takes_items {xs : List Item} (sound : SoundItems pre xs)
    (attributes : AttributesBalanced (pre.map Lexeme.token)) {items : List (Option Item)}
    (others : Takes (many item) rest [] items) :
    Takes (many item) (pre ++ rest) [] (xs.map some ++ items) := by
  induction sound with
  | nil => exact others
  | cons first _ ih =>
    rename_i u v x xs sound
    rw [List.append_assoc]
    have whole : Takes soundItem u (v ++ rest ++ []) x := exchange_soundItem first attributes
    rw [List.map_append] at attributes
    exact advances_item.many_cons whole.map.recover (ih attributes.of_append)

theorem takes_items_of_parseTokens {w : List Lexeme} {length : Nat} {unit : SourceUnit}
    {failures : List Failure} (parsed : parseTokens w length = (some unit, failures)) :
    ∃ items, Takes (many item) w [] items ∧ unit.items = items.filterMap id := by
  have steady : Steady (many item) := steady_of_agree
    (fun _ => (agree_item Enclosure.blocks_whole (Enclosure.plain_whole _)).many)
    fun _ _ same => by simp [same, funext Item.relocate_id]
  obtain ⟨items, d, log, run, ended, same, _⟩ := many_of_parseTokens parsed
  obtain ⟨u, split, takes⟩ := steady.takes_of_run run
  rw [ended] at split takes
  rw [List.append_nil] at split
  subst split
  exact ⟨items, takes, same⟩

theorem parseTokens_of_takes_items {w : List Lexeme} {items : List (Option Item)}
    (takes : Takes (many item) w [] items) (length : Nat) :
    ∃ unit, (parseTokens w length).1 = some unit ∧ unit.items = items.filterMap id := by
  have run := takes length length {}
  rw [List.append_nil] at run
  obtain ⟨log, outcome⟩ : ∃ log, many item (.start w length) {} =
      (some (items, ⟨[], lastStop length w, length⟩), log) := ⟨_, Prod.ext run rfl⟩
  obtain ⟨span, parsed⟩ := parseTokens_of_many outcome
  exact ⟨_, by rw [parsed], rfl⟩

private theorem filterMap_relocate (f : Nat → Nat) (items : List (Option Item)) :
    (items.map (Option.map (Item.relocate f))).filterMap id =
      (items.filterMap id).map (Item.relocate f) := by
  rw [List.filterMap_map, List.map_filterMap]
  rfl

end Isolation

end Grammar

section Main

open Grammar Lockstep.Parser

variable {pre header b post : List Lexeme} {opening closing : Lexeme} {P Q : SourceUnit}
  {proto : Function} {m n : Nat}

/-- However broken the statements of a function are, the items around it are found as if they stood
alone, and the function is found with its body. -/
theorem parse_around_body (before : parseTokens pre m = (some P, []))
    (attributes : AttributesBalanced (pre.map Lexeme.token)) (isHeader : prototype header = some proto)
    (opens : opening.token = .sign .lBrace) (balanced : Balanced .lBrace .rBrace (b.map Lexeme.token))
    (plain : Token.attr ∉ b.map Lexeme.token) (closes : closing.token = .sign .rBrace)
    (behind : parseTokens post n = (some Q, [])) (shift length : Nat) :
    ∃ unit f block, (parseTokens (pre ++ (header ++ opening :: (b ++ closing ::
        post.map (Lexeme.relocate (· + shift))))) length).1 = some unit ∧
      unit.items = P.items ++ .function f :: Q.items.map (Item.relocate (· + shift)) ∧
      f.name = proto.name ∧ f.params = proto.params ∧ f.ret = proto.ret ∧
      f.isKernel = proto.isKernel ∧ f.body = some block := by
  obtain ⟨items, others, same⟩ := takes_items_of_parseTokens behind
  have others' := others.relocate (f := (· + shift)) fun _ =>
    (agree_item Enclosure.blocks_whole (Enclosure.plain_whole _)).many
  obtain ⟨block, span, function⟩ : ∃ block span, Takes soundItem (header ++ opening :: (b ++ [closing]))
      (post.map (Lexeme.relocate (· + shift)) ++ []) (.function ⟨proto.isKernel, proto.ret,
        proto.name, proto.params, some block, span⟩) :=
    exists_function_of_prototype isHeader opens closes (.of_not_mem plain) balanced
  have tail := advances_item.many_cons function.map.recover others'
  have whole := (soundItems_of_parseTokens before).takes_items attributes tail
  obtain ⟨unit, parsed, found⟩ := parseTokens_of_takes_items whole length
  refine ⟨unit, ⟨proto.isKernel, proto.ret, proto.name, proto.params, some block, span⟩, block, ?_, ?_,
    rfl, rfl, rfl, rfl, rfl⟩
  · simpa using parsed
  · rw [found, same, List.filterMap_append, List.filterMap_map, Function.id_comp,
      List.filterMap_some, List.filterMap_cons_some (f := id) rfl, filterMap_relocate]

def sideBySide : Nat → List Token → List Lexeme
  | _, [] => []
  | n, t :: ts => ⟨t, ⟨n, n + 1⟩⟩ :: sideBySide (n + 1) ts

private theorem exists_unit {r : Option SourceUnit × List Failure} (given : r.1.isSome)
    (quiet : r.2 = []) : ∃ unit, r = (some unit, []) := by
  obtain ⟨unit, same⟩ := Option.isSome_iff_exists.mp given
  exact ⟨unit, Prod.ext same quiet⟩

/-- A broken condition, a parenthesis alone between braces and an assignment without its sides. -/
theorem parse_around_broken_body : ∃ P Q proto,
    parseTokens (sideBySide 0 [.attr, .sign .lParen, .ident "x", .sign .rParen, .ident "int",
      .ident "a", .sign .semicolon]) 7 = (some P, []) ∧
    prototype (sideBySide 7 [.ident "void", .ident "f", .sign .lParen, .sign .rParen]) = some proto ∧
    parseTokens (sideBySide 0 [.ident "void", .ident "g", .sign .lParen, .sign .rParen,
      .sign .semicolon]) 5 = (some Q, []) ∧
    ∃ unit f block, (parseTokens (sideBySide 0 [.attr, .sign .lParen, .ident "x", .sign .rParen,
        .ident "int", .ident "a", .sign .semicolon, .ident "void", .ident "f", .sign .lParen,
        .sign .rParen, .sign .lBrace, .keyword .kwIf, .sign .lBrace, .sign .rParen, .sign .rBrace,
        .sign .eq, .sign .rBrace, .ident "void", .ident "g", .sign .lParen, .sign .rParen,
        .sign .semicolon]) 23).1 = some unit ∧
      unit.items = P.items ++ .function f :: Q.items.map (Item.relocate (· + 18)) ∧
      f.name = proto.name ∧ f.params = proto.params ∧ f.ret = proto.ret ∧
      f.isKernel = proto.isKernel ∧ f.body = some block := by
  obtain ⟨P, parsed⟩ := exists_unit (r := parseTokens (sideBySide 0 [.attr, .sign .lParen, .ident "x",
    .sign .rParen, .ident "int", .ident "a", .sign .semicolon]) 7) (by decide +kernel)
    (by decide +kernel)
  obtain ⟨Q, parsed'⟩ := exists_unit (r := parseTokens (sideBySide 0 [.ident "void", .ident "g",
    .sign .lParen, .sign .rParen, .sign .semicolon]) 5) (by decide +kernel) (by decide +kernel)
  obtain ⟨proto, isHeader⟩ := Option.isSome_iff_exists.mp (show (prototype (sideBySide 7
    [.ident "void", .ident "f", .sign .lParen, .sign .rParen])).isSome by decide +kernel)
  have attributes : AttributesBalanced [.attr, .sign .lParen, .ident "x", .sign .rParen,
      .ident "int", .ident "a", .sign .semicolon] := by
    intro x y split
    cases x with
    | nil =>
      cases split
      exact ⟨[.ident "x"], _, rfl, balanced_nil.cons (by simp) (by simp),
        balanced_nil.cons (by simp) (by simp)⟩
    | cons t x =>
      have listed : Token.attr ∈ x ++ .attr :: .sign .lParen :: y := by simp
      rw [List.cons_append] at split
      rw [← (List.cons.inj split).2] at listed
      exact absurd listed (by decide)
  have braces : Balanced .lBrace .rBrace [.sign .lBrace, .sign .rParen, .sign .rBrace] :=
    balanced_enclosed (by decide) (balanced_nil.cons (t := .sign .rParen) (by simp) (by simp))
  have balanced : Balanced .lBrace .rBrace [.keyword .kwIf, .sign .lBrace, .sign .rParen,
      .sign .rBrace, .sign .eq] :=
    (braces.append (balanced_nil.cons (t := .sign .eq) (by simp) (by simp))).cons (by simp) (by simp)
  have opens : (⟨.sign .lBrace, ⟨11, 12⟩⟩ : Lexeme).token = .sign .lBrace := rfl
  have closes : (⟨.sign .rBrace, ⟨17, 18⟩⟩ : Lexeme).token = .sign .rBrace := rfl
  exact ⟨P, Q, proto, parsed, isHeader, parsed', parse_around_body (b := sideBySide 12
    [.keyword .kwIf, .sign .lBrace, .sign .rParen, .sign .rBrace, .sign .eq]) parsed attributes
    isHeader opens balanced (by decide) closes parsed' 18 23⟩

/-- Braces in the arguments of attributes count when statements are skipped, also in a text that is
read without a failure: an attribute in front of the function is answered by one behind it. -/
theorem attribute_arguments_hide_body : ∃ pre header b post opening closing P Q proto m n shift length,
    parseTokens pre m = (some P, []) ∧ prototype header = some proto ∧
    opening.token = .sign .lBrace ∧ Balanced .lBrace .rBrace (b.map Lexeme.token) ∧
    Token.attr ∉ b.map Lexeme.token ∧ closing.token = .sign .rBrace ∧
    parseTokens post n = (some Q, []) ∧
    (parseTokens (pre ++ (header ++ opening :: (b ++ closing ::
      post.map (Lexeme.relocate (· + shift))))) length).1 = none := by
  -- `void f(){{(__attribute__(({{))int)2};}`, then `void k(){}` and `void g()__attribute__((}));`
  obtain ⟨P, parsed⟩ : ∃ P, parseTokens (sideBySide 0 [.ident "void", .ident "f", .sign .lParen,
      .sign .rParen, .sign .lBrace, .sign .lBrace, .sign .lParen, .attr, .sign .lParen,
      .sign .lParen, .sign .lBrace, .sign .lBrace, .sign .rParen, .sign .rParen, .ident "int",
      .sign .rParen, .int 2, .sign .rBrace, .sign .semicolon, .sign .rBrace]) 20 = (some P, []) :=
    exists_unit (by decide +kernel) (by decide +kernel)
  obtain ⟨Q, parsed'⟩ : ∃ Q, parseTokens (sideBySide 0 [.ident "void", .ident "g", .sign .lParen,
      .sign .rParen, .attr, .sign .lParen, .sign .lParen, .sign .rBrace, .sign .rParen,
      .sign .rParen, .sign .semicolon]) 11 = (some Q, []) :=
    exists_unit (by decide +kernel) (by decide +kernel)
  obtain ⟨proto, isHeader⟩ := Option.isSome_iff_exists.mp (show (prototype (sideBySide 20
    [.ident "void", .ident "k", .sign .lParen, .sign .rParen])).isSome by decide +kernel)
  refine ⟨_, _, [], _, ⟨.sign .lBrace, ⟨24, 25⟩⟩, ⟨.sign .rBrace, ⟨25, 26⟩⟩, P, Q, proto, 20, 11, 26,
    37, parsed, isHeader, rfl, balanced_nil, by simp, rfl, parsed', ?_⟩
  exact Option.isNone_iff_eq_none.mp (by decide +kernel)

end Main

end Lockstep
