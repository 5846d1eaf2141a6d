import Lockstep.Proofs.Grammar.Groups
import Lockstep.Proofs.Tree.Relocate
/-!
One parser run on two texts that share a stretch of tokens. The texts may differ in what stands
behind the stretch and in the places of its tokens. `Agree` says that both runs fail, or both
succeed behind the same tokens of the stretch, with values that match.

What keeps a parser inside the stretch is described by an `Enclosure`: how a stretch may look, given
what stands behind it. There is one rule for each way to build parsers. A rule that refers to itself
does so behind a token, so the length of the stretch bounds what has to be known of the reference.
-/

set_option autoImplicit false
set_option relaxedAutoImplicit false

namespace Lockstep

/-- Brackets and semicolons, which bound what expressions and types can reach. -/
def Token.IsBound (t : Token) : Prop :=
  t = .sign .lParen ∨ t = .sign .rParen ∨ t = .sign .lBrace ∨ t = .sign .rBrace ∨
    t = .sign .semicolon

/-- No type or expression goes on into these tokens: there are none, a bracket or semicolon comes
first, or an attribute without its arguments. -/
def Barred (w : List Token) : Prop :=
  w = [] ∨ (∃ t v, w = t :: v ∧ t.IsBound) ∨
    ∃ v, w = .attr :: v ∧ ¬ OpensGroup .lParen .rParen v

theorem Barred.attribute {w : List Token} (bar : Barred w) (v : List Token) (starts : w = .attr :: v) :
    ¬ OpensGroup .lParen .rParen v := by
  subst starts
  rcases bar with nil | ⟨t, v', same, bound⟩ | ⟨v', same, alone⟩
  · cases nil
  · obtain ⟨rfl, rfl⟩ := List.cons.inj same
    simp [Token.IsBound] at bound
  · obtain ⟨_, rfl⟩ := List.cons.inj same
    exact alone

/-- A kind of stretch. `within w l r` says that `w` is one where `l` stands behind it in the first
text and `r` in the second. -/
structure Enclosure where
  within : List Token → List Token → List Token → Prop
  ends : ∀ {l r : List Token}, within [] l r → Barred l ∧ Barred r
  tail : ∀ {t : Token} {w l r : List Token}, ¬ t.IsBound → t ≠ .attr → within (t :: w) l r →
    within w l r
  arguments : ∀ {w l r : List Token}, within (.attr :: w) l r →
    (∃ g v, w = .sign .lParen :: (g ++ .sign .rParen :: v) ∧ Balanced .lParen .rParen g ∧
      within v l r) ∨
    ¬ OpensGroup .lParen .rParen (w ++ l) ∧ ¬ OpensGroup .lParen .rParen (w ++ r)

/-- The token is one of the stretch like any other, and does not stand behind it. -/
structure Enclosure.Plain (κ : Enclosure) (t : Token) : Prop where
  tail : ∀ {w l r : List Token}, κ.within (t :: w) l r → κ.within w l r
  absent : ∀ {l r : List Token}, κ.within [] l r → l.head? ≠ some t ∧ r.head? ≠ some t

theorem Enclosure.plain_of_free (κ : Enclosure) {t : Token} (free : ¬ (t.IsBound ∨ t = .attr)) :
    κ.Plain t where
  tail := κ.tail (fun bound => free (.inl bound)) fun bound => free (.inr bound)
  absent holds := by
    have other {w : List Token} (bar : Barred w) : w.head? ≠ some t := by
      intro first
      rcases bar with rfl | ⟨s, v, rfl, bound⟩ | ⟨v, rfl, _⟩
      · cases first
      · cases first
        exact free (.inl bound)
      · cases first
        exact free (.inr rfl)
    exact ⟨other (κ.ends holds).1, other (κ.ends holds).2⟩

/-- The brackets of the stretch are in pairs. One without its counterpart may be left open at the
end of both texts. -/
structure Enclosure.Counts (κ : Enclosure) (opening closing : Sign) : Prop where
  absent : ∀ {l r : List Token}, κ.within [] l r →
    l.head? ≠ some (.sign opening) ∧ r.head? ≠ some (.sign opening)
  answers : ∀ {w l r : List Token}, ¬ κ.within (.sign closing :: w) l r
  group : ∀ {w l r : List Token}, κ.within (.sign opening :: w) l r →
    (∃ u v, w = u ++ .sign closing :: v ∧
      (∀ l' r', κ.within u (.sign closing :: l') (.sign closing :: r')) ∧ κ.within v l r) ∨
    l = [] ∧ r = [] ∧ κ.within w [] []

def Enclosure.Nests (κ : Enclosure) (opening closing : Sign) : Prop :=
  κ.Plain (.sign opening) ∧ κ.Plain (.sign closing) ∨ κ.Counts opening closing

/-- What expressions ask of a kind of stretch. -/
structure Enclosure.Brackets (κ : Enclosure) : Prop where
  parens : κ.Nests .lParen .rParen
  braces : κ.Nests .lBrace .rBrace

theorem Enclosure.squares (κ : Enclosure) : κ.Nests .lBracket .rBracket :=
  .inl ⟨κ.plain_of_free (by simp [Token.IsBound]), κ.plain_of_free (by simp [Token.IsBound])⟩

/-- What statements ask of a kind of stretch: only braces count, and both texts go on alike behind
the stretch. -/
structure Enclosure.Blocks (κ : Enclosure) : Prop where
  braces : κ.Nests .lBrace .rBrace
  plain : ∀ {t : Token}, t ≠ .sign .lBrace → t ≠ .sign .rBrace → κ.Plain t
  alike : ∀ {l r : List Token}, κ.within [] l r → l.head? = r.head?

theorem Enclosure.Blocks.brackets {κ : Enclosure} (blocks : κ.Blocks) : κ.Brackets where
  parens := .inl ⟨blocks.plain (by simp) (by simp), blocks.plain (by simp) (by simp)⟩
  braces := blocks.braces

/-- What stands behind the stretch in the two texts, and their lengths. -/
structure Flanks where
  left : List Lexeme
  right : List Lexeme
  length : Nat
  length' : Nat

namespace Flanks

variable (e : Flanks) (f : Nat → Nat) (w : List Lexeme) (stop : Nat)

def one : Cursor := ⟨w ++ e.left, stop, e.length⟩

def two : Cursor := ⟨w.map (Lexeme.relocate f) ++ e.right, stop, e.length'⟩

private theorem words_one :
    (e.one w stop).words = w.map Lexeme.token ++ e.left.map Lexeme.token := List.map_append

private theorem words_two :
    (e.two f w stop).words = w.map Lexeme.token ++ e.right.map Lexeme.token := by
  rw [two, Cursor.words, List.map_append, List.map_map]
  rfl

private theorem length_one :
    (e.one w stop).rest.length = w.length + e.left.length := List.length_append

private theorem length_two : (e.two f w stop).rest.length = w.length + e.right.length := by
  rw [two, List.length_append, List.length_map]

end Flanks

def Enclosure.Holds (κ : Enclosure) (e : Flanks) (w : List Lexeme) : Prop :=
  κ.within (w.map Lexeme.token) (e.left.map Lexeme.token) (e.right.map Lexeme.token)

namespace Parser

variable {α β γ δ : Type}

/-- Both runs failed, or both succeeded behind the same tokens of the stretch, at least `least` of
them. The first run has withdrawn no report. -/
inductive Paired (κ : Enclosure) (f : Nat → Nat) (least : Nat) (φ : α → β → Prop) (e : Flanks)
    (w : List Lexeme) (stop stop' : Nat) (log : Log) :
    Option (α × Cursor) × Log → Option (β × Cursor) × Log → Prop where
  | fail (x y : Log) : Paired κ f least φ e w stop stop' log (none, x) (none, y)
  | read (a : α) (b : β) (u v : List Lexeme) (x y : Log) (split : w = u ++ v)
      (enough : least ≤ u.length) (holds : κ.Holds e v) (kept : log.reported <+: x.reported)
      (related : φ a b) :
      Paired κ f least φ e w stop stop' log (some (a, e.one v (lastStop stop u)), x)
        (some (b, e.two f v (lastStop stop' (u.map (Lexeme.relocate f)))), y)

/-- On stretches shorter than `n`, the parsers read alike, at least `least` tokens, to values in
the relation. -/
def Agree (κ : Enclosure) (f : Nat → Nat) (n least : Nat) (φ : α → β → Prop) (p : Parser α)
    (q : Parser β) : Prop :=
  ∀ (e : Flanks) (w : List Lexeme) (stop stop' : Nat) (log log' : Log), w.length < n →
    κ.Holds e w → Paired κ f least φ e w stop stop' log (p (e.one w stop) log)
      (q (e.two f w stop') log')

section Rules

variable {κ : Enclosure} {f : Nat → Nat} {n m k least : Nat} {φ : α → β → Prop}
  {ψ : γ → δ → Prop} {p : Parser α} {q : Parser β}

theorem lastStop_append (stop : Nat) (u v : List Lexeme) :
    lastStop (lastStop stop u) v = lastStop stop (u ++ v) := by
  rw [lastStop, lastStop, lastStop, List.foldl_append]

private theorem lastStop_relocate (stop : Nat) (u : List Lexeme) :
    lastStop (f stop) (u.map (Lexeme.relocate f)) = f (lastStop stop u) := by
  induction u generalizing stop with
  | nil => rfl
  | cons t u ih => exact ih t.span.stop

theorem Paired.extend {e : Flanks} {u v w : List Lexeme} {stop stop' : Nat} {log log₁ : Log}
    {x : Option (α × Cursor) × Log} {y : Option (β × Cursor) × Log}
    (run : Paired κ f k φ e v (lastStop stop u) (lastStop stop' (u.map (Lexeme.relocate f))) log₁
      x y) (split : w = u ++ v) (enough : m ≤ u.length + k)
    (kept : log.reported <+: log₁.reported) : Paired κ f m φ e w stop stop' log x y := by
  cases run with
  | fail x y => exact .fail _ _
  | read a b u' v' x y split' enough' holds kept' related =>
    rw [lastStop_append, lastStop_append, ← List.map_append]
    refine .read a b (u ++ u') v' x y ?_ ?_ holds (kept.trans kept') related
    · rw [split, split', List.append_assoc]
    · rw [List.length_append]
      omega

theorem Paired.of_refuses {e : Flanks} {w : List Lexeme} {stop stop' : Nat} {log log' : Log}
    (one : Refuses p (w.map Lexeme.token ++ e.left.map Lexeme.token))
    (two : Refuses q (w.map Lexeme.token ++ e.right.map Lexeme.token)) :
    Paired κ f m φ e w stop stop' log (p (e.one w stop) log) (q (e.two f w stop') log') := by
  obtain ⟨x, first⟩ := one (e.one w stop) (e.words_one w stop) log
  obtain ⟨y, second⟩ := two (e.two f w stop') (e.words_two f w stop') log'
  rw [first, second]
  exact .fail x y

theorem Paired.of_succeeds {e : Flanks} {u v : List Lexeme} {stop stop' : Nat} {log log' : Log}
    {a : α} {b : β}
    (one : Succeeds p ⟨u ++ (v ++ e.left), stop, e.length⟩ a (e.one v (lastStop stop u)))
    (two : Succeeds q ⟨u.map (Lexeme.relocate f) ++ (v.map (Lexeme.relocate f) ++ e.right), stop',
      e.length'⟩ b (e.two f v (lastStop stop' (u.map (Lexeme.relocate f)))))
    (enough : m ≤ u.length) (holds : κ.Holds e v) (related : φ a b) :
    Paired κ f m φ e (u ++ v) stop stop' log (p (e.one (u ++ v) stop) log)
      (q (e.two f (u ++ v) stop') log') := by
  obtain ⟨furthest, first⟩ := one log
  obtain ⟨furthest', second⟩ := two log'
  rw [Flanks.one, Flanks.two, List.map_append, List.append_assoc, List.append_assoc, first, second]
  exact .read a b u v _ _ rfl enough holds (List.prefix_refl _) related

private theorem Paired.bind_cases {e : Flanks} {w : List Lexeme} {stop stop' : Nat}
    {log log₀ log' : Log}
    {c c' : Cursor} {g : α → Parser γ} {g' : β → Parser δ}
    {R : Option (γ × Cursor) × Log → Option (δ × Cursor) × Log → Prop}
    (run : Paired κ f m φ e w stop stop' log (p c log₀) (q c' log'))
    (failing : ∀ x y, R (none, x) (none, y))
    (reading : ∀ a b u v x y, w = u ++ v → m ≤ u.length → κ.Holds e v →
      log.reported <+: x.reported → φ a b →
      R (g a (e.one v (lastStop stop u)) x)
        (g' b (e.two f v (lastStop stop' (u.map (Lexeme.relocate f)))) y)) :
    R ((p >>= g) c log₀) ((q >>= g') c' log') := by
  simp only [Bind.bind]
  generalize p c log₀ = x, q c' log' = y at run ⊢
  cases run with
  | fail x y => exact failing x y
  | read a b u v x y split enough holds kept related =>
    exact reading a b u v x y split enough holds kept related

namespace Agree

theorem mono {ψ : α → β → Prop} (agree : Agree κ f n m φ p q) (short : k ≤ n)
    (few : least ≤ m) (implies : ∀ a b, φ a b → ψ a b) : Agree κ f k least ψ p q := by
  intro e w stop stop' log log' size holds
  have run := agree e w stop stop' log log' (by omega) holds
  generalize p (e.one w stop) log = x, q (e.two f w stop') log' = y at run ⊢
  cases run with
  | fail x y => exact .fail _ _
  | read a b u v x y split enough holds kept related =>
    exact .read a b u v x y split (by omega) holds kept (implies a b related)

theorem zero : Agree κ f 0 m φ p q := by
  intro e w stop stop' log log' size
  omega

theorem weaken (agree : Agree κ f n m φ p q) : Agree κ f n 0 φ p q :=
  agree.mono (Nat.le_refl n) (Nat.zero_le m) fun _ _ related => related

theorem pure {a : α} {b : β} (related : φ a b) : Agree κ f n 0 φ (Pure.pure a) (Pure.pure b) := by
  intro e w stop stop' log log' _ holds
  exact .read a b [] w log log' rfl (Nat.zero_le _) holds (List.prefix_refl _) related

theorem fail : Agree κ f n m φ Parser.fail Parser.fail :=
  fun _ _ _ _ log log' _ _ => .fail log log'

section Binds

variable {g : α → Parser γ} {g' : β → Parser δ}

private theorem bindWith (first : Agree κ f n m φ p q)
    (second : ∀ a b, φ a b → Agree κ f (n - m) k ψ (g a) (g' b)) :
    Agree κ f n (m + k) ψ (p >>= g) (q >>= g') := by
  intro e w stop stop' log log' size holds
  apply (first e w stop stop' log log' size holds).bind_cases
  · exact .fail
  · intro a b u v x y split enough holds kept related
    have shorter : v.length < n - m := by
      rw [split, List.length_append] at size
      omega
    exact (second a b related e v _ _ x y shorter holds).extend split (by omega) kept

theorem bind (first : Agree κ f n 0 φ p q)
    (second : ∀ a b, φ a b → Agree κ f n m ψ (g a) (g' b)) :
    Agree κ f n m ψ (p >>= g) (q >>= g') :=
  (first.bindWith second).mono (Nat.le_refl n) (by omega) fun _ _ related => related

theorem andThen (first : Agree κ f n m φ p q)
    (second : ∀ a b, φ a b → Agree κ f n 0 ψ (g a) (g' b)) :
    Agree κ f n m ψ (p >>= g) (q >>= g') :=
  first.bindWith fun a b related =>
    (second a b related).mono (Nat.sub_le n m) (Nat.le_refl 0) fun _ _ related => related

theorem step (first : Agree κ f (n + 1) 1 φ p q)
    (second : ∀ a b, φ a b → Agree κ f n 0 ψ (g a) (g' b)) :
    Agree κ f (n + 1) 1 ψ (p >>= g) (q >>= g') :=
  first.bindWith second

theorem map {g : α → γ} {g' : β → δ} (first : Agree κ f n m φ p q)
    (implies : ∀ a b, φ a b → ψ (g a) (g' b)) : Agree κ f n m ψ (g <$> p) (g' <$> q) :=
  first.bindWith (k := 0) fun a b related => pure (implies a b related)

end Binds

section Tokens

variable {expected : Expected} {read : Token → Option α}

private theorem next_of
    (stays : ∀ t a w l r, read t = some a → κ.within (t :: w) l r → κ.within w l r)
    (stops : ∀ l r, κ.within [] l r →
      (∀ t ∈ l.head?, read t = none) ∧ ∀ t ∈ r.head?, read t = none) :
    Agree κ f n 1 (fun a b => b = a ∧ ∃ t, read t = some a) (next expected read)
      (next expected read) := by
  intro e w stop stop' log log' _ holds
  cases w with
  | nil =>
    obtain ⟨left, right⟩ := stops _ _ holds
    exact .of_refuses (refuses_next left) (refuses_next right)
  | cons t w =>
    cases accepted : read t.token with
    | none =>
      simp only [Flanks.one, Flanks.two, List.map_cons, List.cons_append, Parser.next,
        Lexeme.token_relocate, accepted]
      exact .fail _ _
    | some a =>
      simp only [Flanks.one, Flanks.two, List.map_cons, List.cons_append, Parser.next,
        Lexeme.token_relocate, accepted]
      exact .read a a [t] w log log' rfl (Nat.le_refl 1)
        (stays t.token a _ _ _ accepted holds) (List.prefix_refl _) ⟨rfl, t.token, accepted⟩

theorem next (bounded : ∀ t : Token, t.IsBound ∨ t = .attr → read t = none) :
    Agree κ f n 1 (fun a b => b = a ∧ ∃ t, read t = some a) (Parser.next expected read)
      (Parser.next expected read) := by
  have barred {w : List Token} (bar : Barred w) : ∀ t ∈ w.head?, read t = none := by
    intro t first
    rcases bar with rfl | ⟨s, v, rfl, bound⟩ | ⟨v, rfl, _⟩
    · cases first
    · cases first
      exact bounded t (.inl bound)
    · cases first
      exact bounded _ (.inr rfl)
  apply next_of
  · intro t a w l r accepted holds
    have inner : ¬ (t.IsBound ∨ t = .attr) := by
      intro bound
      rw [bounded t bound] at accepted
      cases accepted
    exact κ.tail (fun bound => inner (.inl bound)) (fun bound => inner (.inr bound)) holds
  · intro l r holds
    obtain ⟨left, right⟩ := κ.ends holds
    exact ⟨barred left, barred right⟩

theorem next_same (bounded : ∀ t : Token, t.IsBound ∨ t = .attr → read t = none) :
    Agree κ f n 1 (fun a b => b = a) (Parser.next expected read) (Parser.next expected read) :=
  (next bounded).mono (Nat.le_refl n) (Nat.le_refl 1) fun _ _ related => related.1

theorem plain {t : Token} (plain : κ.Plain t) :
    Agree κ f n 1 (fun a b => b = a) (Parser.token t) (Parser.token t) := by
  unfold Parser.token
  refine (next_of ?_ ?_).mono (Nat.le_refl n) (Nat.le_refl 1) fun _ _ _ => rfl
  · intro s a w l r accepted holds
    by_cases same : s = t
    · rw [same] at holds
      exact plain.tail holds
    · rw [if_neg same] at accepted
      cases accepted
  · intro l r holds
    have refused {w : List Token} (other : w.head? ≠ some t) :
        ∀ s ∈ w.head?, (if s = t then some () else none) = none := by
      intro s first
      apply if_neg
      rintro rfl
      exact other first
    exact ⟨refused (plain.absent holds).1, refused (plain.absent holds).2⟩

theorem token {t : Token} (free : ¬ (t.IsBound ∨ t = .attr)) :
    Agree κ f n 1 (fun a b => b = a) (Parser.token t) (Parser.token t) :=
  plain (κ.plain_of_free free)

end Tokens

theorem spanned (agree : Agree κ f n 1 φ p q) :
    Agree κ f n 1 (fun a b => φ a.1 b.1 ∧ b.2 = a.2.relocate f) (Parser.spanned p)
      (Parser.spanned q) := by
  intro e w stop stop' log log' size holds
  have run := agree e w stop stop' log log' size holds
  simp only [Parser.spanned]
  generalize p (e.one w stop) log = x, q (e.two f w stop') log' = y at run ⊢
  cases run with
  | fail x y => exact .fail _ _
  | read a b u v x y split enough holds kept related =>
    refine .read _ _ u v x y split enough holds kept ⟨related, ?_⟩
    subst split
    cases u with
    | nil => exact absurd enough (by simp)
    | cons t u =>
      exact congrArg _ (lastStop_relocate t.span.stop u)

theorem spanned_map {h : α → β} (agree : Agree κ f n 1 (fun a b => b = h a) p q) :
    Agree κ f n 1 (fun a b => b = (h a.1, a.2.relocate f)) (Parser.spanned p)
      (Parser.spanned q) :=
  agree.spanned.mono (Nat.le_refl n) (Nat.le_refl 1) fun _ _ related =>
    Prod.ext related.1 related.2

theorem guard {accepts : α → Bool} {accepts' : β → Bool} (agree : Agree κ f n m φ p q)
    (same : ∀ a b, φ a b → accepts' b = accepts a) :
    Agree κ f n m φ (Parser.guard p accepts) (Parser.guard q accepts') := by
  intro e w stop stop' log log' size holds
  have run := agree e w stop stop' log log' size holds
  simp only [Parser.guard]
  generalize p (e.one w stop) log = x, q (e.two f w stop') log' = y at run ⊢
  cases run with
  | fail x y => exact .fail _ _
  | read a b u v x y split enough holds kept related =>
    simp only [same a b related]
    cases accepts a with
    | true => exact .read a b u v x y split enough holds kept related
    | false => exact .fail _ _

theorem demand {accepts : α → Bool} {accepts' : β → Bool} {reason : Reason}
    (agree : Agree κ f n m φ p q) (same : ∀ a b, φ a b → accepts' b = accepts a) :
    Agree κ f n m φ (Parser.demand p accepts reason) (Parser.demand q accepts' reason) := by
  intro e w stop stop' log log' size holds
  have run := agree e w stop stop' { log with furthest := none } { log' with furthest := none }
    size holds
  simp only [Parser.demand]
  generalize p (e.one w stop) { log with furthest := none } = x,
    q (e.two f w stop') { log' with furthest := none } = y at run ⊢
  cases run with
  | fail x y => exact .fail _ _
  | read a b u v x y split enough holds kept related =>
    simp only [same a b related]
    cases accepts a with
    | true =>
      cases x.furthest <;> cases y.furthest <;>
        exact .read a b u v _ _ split enough holds kept related
    | false => exact .fail _ _

theorem or {p' : Parser α} {q' : Parser β} (first : Agree κ f n m φ p q)
    (second : Agree κ f n m φ p' q') : Agree κ f n m φ (Parser.or p p') (Parser.or q q') := by
  intro e w stop stop' log log' size holds
  have run := first e w stop stop' log log' size holds
  simp only [Parser.or]
  generalize p (e.one w stop) log = x, q (e.two f w stop') log' = y at run ⊢
  cases run with
  | fail x y =>
    exact (second e w stop stop' (x.backTo log) (y.backTo log') size holds).extend (u := []) rfl
      (Nat.le_add_left _ _) (List.prefix_refl _)
  | read a b u v x y split enough holds kept related =>
    exact .read a b u v x y split enough holds kept related

theorem choice {ps : List (Parser α)} {qs : List (Parser β)}
    (each : List.Forall₂ (Agree κ f n m φ) ps qs) :
    Agree κ f n m φ (Parser.choice ps) (Parser.choice qs) := by
  induction each with
  | nil => exact fail
  | cons first _ ih => exact first.or ih

theorem optional {h : α → β} (agree : Agree κ f n m (fun a b => b = h a) p q) :
    Agree κ f n 0 (fun a b => b = a.map h) (Parser.optional p) (Parser.optional q) := by
  apply or
  · exact agree.weaken.map fun a b same => by rw [same]; rfl
  · exact pure rfl

theorem many {h : α → β} (agree : Agree κ f n 1 (fun a b => b = h a) p q) :
    Agree κ f n 0 (fun as bs => bs = as.map h) (Parser.many p) (Parser.many q) := by
  have rounds (i j : Nat) (e : Flanks) (w : List Lexeme) (stop stop' : Nat) (log log' : Log)
      (bound : w.length < n) (more : w.length < i) (more' : w.length < j) (holds : κ.Holds e w) :
      Paired κ f 0 (fun as bs => bs = as.map h) e w stop stop' log
        (some (manyWithin p i (e.one w stop) log).1, (manyWithin p i (e.one w stop) log).2)
        (some (manyWithin q j (e.two f w stop') log').1,
          (manyWithin q j (e.two f w stop') log').2) := by
    induction i generalizing j w stop stop' log log' with
    | zero => omega
    | succ i ih =>
      obtain ⟨j, rfl⟩ := Nat.exists_eq_add_of_lt (Nat.zero_lt_of_lt more')
      rw [Nat.zero_add] at more' ⊢
      have run := agree e w stop stop' log log' bound holds
      simp only [manyWithin]
      generalize p (e.one w stop) log = x, q (e.two f w stop') log' = y at run ⊢
      cases run with
      | fail x y =>
        exact .read [] [] [] w _ _ rfl (Nat.zero_le _) holds (List.prefix_refl _) rfl
      | read a b u v x y split enough holds kept related =>
        have shorter := congrArg List.length split
        rw [List.length_append] at shorter
        have rest := ih j v (lastStop stop u) (lastStop stop' (u.map (Lexeme.relocate f))) x y
          (by omega) (by omega) (by omega) holds
        simp only
        generalize manyWithin p i (e.one v (lastStop stop u)) x = r,
          manyWithin q j (e.two f v (lastStop stop' (u.map (Lexeme.relocate f)))) y = r' at rest ⊢
        obtain ⟨⟨as, d⟩, x'⟩ := r
        obtain ⟨⟨bs, d'⟩, y'⟩ := r'
        cases rest with
        | read _ _ u' v' _ _ split' _ holds' kept' related' =>
          rw [lastStop_append, lastStop_append, ← List.map_append]
          refine .read _ _ (u ++ u') v' x' y' ?_ (Nat.zero_le _) holds' (kept.trans kept') ?_
          · rw [split, split', List.append_assoc]
          · rw [related, related', List.map_cons]
  intro e w stop stop' log log' size holds
  have enough : w.length < (e.one w stop).rest.length + 1 := by
    rw [Flanks.length_one]
    omega
  have enough' : w.length < (e.two f w stop').rest.length + 1 := by
    rw [Flanks.length_two]
    omega
  exact rounds _ _ e w stop stop' log log' size enough enough' holds

theorem recover {skip : Parser α} {skip' : Parser β} (first : Agree κ f n m φ p q)
    (second : Agree κ f n m φ skip skip') :
    Agree κ f n m φ (Parser.recover p skip) (Parser.recover q skip') := by
  intro e w stop stop' log log' size holds
  have run := first e w stop stop' log log' size holds
  simp only [Parser.recover]
  generalize p (e.one w stop) log = x, q (e.two f w stop') log' = y at run ⊢
  cases run with
  | fail x y =>
    have run' := second e w stop stop' ⟨none, log.reported⟩ ⟨none, log'.reported⟩ size holds
    simp only
    generalize skip (e.one w stop) ⟨none, log.reported⟩ = x,
      skip' (e.two f w stop') ⟨none, log'.reported⟩ = y at run' ⊢
    cases run' with
    | fail x y => exact .fail _ _
    | read a b u v x y split enough holds kept related =>
      exact .read a b u v _ _ split enough holds (kept.trans (List.prefix_append _ _)) related
  | read a b u v x y split enough holds kept related =>
    exact .read a b u v x y split enough holds kept related

section Unfolded

variable {rule : Parser α → Parser α} {rule' : Parser β → Parser β}
  (body : ∀ k < n, ∀ inner inner', Agree κ f k m φ inner inner' →
    Agree κ f (k + 1) m φ (rule inner) (rule' inner'))

include body

/-- Where its references agree on shorter stretches, a rule that refers to itself agrees on a
stretch, however often it is unfolded, if that is often enough. -/
theorem unfold (most : k ≤ n) {i j : Nat} (enough : k ≤ i) (enough' : k ≤ j) :
    Agree κ f k m φ (Parser.unfold rule i) (Parser.unfold rule' j) := by
  induction k generalizing i j with
  | zero => exact zero
  | succ k ih =>
    obtain ⟨i, rfl⟩ := Nat.exists_eq_add_of_le enough
    obtain ⟨j, rfl⟩ := Nat.exists_eq_add_of_le enough'
    have inner : Agree κ f k m φ (Parser.unfold rule (k + i)) (Parser.unfold rule' (k + j)) :=
      ih (by omega) (by omega) (by omega)
    rw [Nat.add_right_comm k 1 i, Nat.add_right_comm k 1 j, unfold_succ, unfold_succ]
    exact body k (by omega) _ _ inner

theorem fix : Agree κ f n m φ (Parser.fix rule) (Parser.fix rule') := by
  intro e w stop stop' log log' size holds
  refine unfold body (k := w.length + 1) size ?_ ?_ e w stop stop' log log' (Nat.lt_succ_self _)
    holds
  · rw [Flanks.length_one]
    omega
  · rw [Flanks.length_two]
    omega

theorem fix_rule : Agree κ f n m φ (Parser.fix rule) (rule' (Parser.fix rule')) := by
  intro e w stop stop' log log' size holds
  have known : Agree κ f w.length m φ (Parser.unfold rule (e.one w stop).rest.length)
      (Parser.fix rule') := by
    intro e' w' stop₁ stop₂ log₁ log₂ size' holds'
    refine unfold body (k := w'.length + 1) (by omega) ?_ ?_ e' w' stop₁ stop₂ log₁ log₂
      (Nat.lt_succ_self _) holds'
    · rw [Flanks.length_one]
      omega
    · rw [Flanks.length_two]
      omega
  exact body w.length size _ _ known e w stop stop' log log' (Nat.lt_succ_self _) holds

end Unfolded

section Brackets

variable {o c : Sign}

theorem token_cons {t : Token} {l : Lexeme} {rest : List Lexeme} {stop length : Nat} {log : Log}
    (same : l.token = t) : Parser.token t ⟨l :: rest, stop, length⟩ log =
      (some ((), ⟨rest, l.span.stop, length⟩), log) := by
  simp only [Parser.token, Parser.next, if_pos same]

private theorem between_cons {l : Lexeme} {rest : List Lexeme} {stop length : Nat} {log : Log}
    (opens : l.token = .sign o) : Parser.between o p c ⟨l :: rest, stop, length⟩ log =
      Parser.before p (sign c) ⟨rest, l.span.stop, length⟩ log := by
  simp only [Parser.between, Parser.before, sign, Bind.bind, token_cons opens]

private theorem refuses_closing (counts : κ.Counts o c) {e : Flanks} {w : List Lexeme}
    (holds : κ.Holds e w) (inner : w ≠ [] ∨ e.left = [] ∧ e.right = []) :
    Refuses (sign c) (w.map Lexeme.token ++ e.left.map Lexeme.token) ∧
      Refuses (sign c) (w.map Lexeme.token ++ e.right.map Lexeme.token) := by
  cases w with
  | nil =>
    obtain ⟨left, right⟩ := inner.resolve_left fun nonempty => nonempty rfl
    rw [left, right]
    exact ⟨refuses_token (by simp), refuses_token (by simp)⟩
  | cons l w =>
    have other : some l.token ≠ some (.sign c) := by
      intro same
      have first : l.token = .sign c := Option.some.inj same
      rw [Enclosure.Holds, List.map_cons, first] at holds
      exact counts.answers holds
    exact ⟨refuses_token other, refuses_token other⟩

private theorem paired_closing (counts : κ.Counts o c) (agree : Agree κ f n 0 φ p q) {e : Flanks}
    {w : List Lexeme} {l : Lexeme} (opens : l.token = .sign o) (size : w.length < n)
    (holds : κ.Holds e (l :: w)) (stop stop' : Nat) (log log' : Log) :
    Paired κ f 0 φ e w stop stop' log (Parser.before p (sign c) (e.one w stop) log)
      (Parser.before q (sign c) (e.two f w stop') log') := by
  -- Both runs stop in front of what remains of `w'`, which is not all that the closing bracket needs.
  have stuck {e' : Flanks} {w' : List Lexeme} (holds' : κ.Holds e' w')
      (inner : w' ≠ [] ∨ e'.left = [] ∧ e'.right = []) (a : α) (b : β) (s s' : Nat) (x y : Log) :
      Paired κ f 0 φ e w stop stop' log
        ((sign c >>= fun _ => Pure.pure a) (e'.one w' s) x)
        ((sign c >>= fun _ => Pure.pure b) (e'.two f w' s') y) := by
    obtain ⟨first, second⟩ := refuses_closing counts holds' inner
    obtain ⟨x', one⟩ := first.bind (f := fun _ => Pure.pure a) _ (e'.words_one w' s) x
    obtain ⟨y', two⟩ := second.bind (f := fun _ => Pure.pure b) _ (e'.words_two f w' s') y
    rw [one, two]
    exact .fail x' y'
  have before : κ.within (.sign o :: w.map Lexeme.token) (e.left.map Lexeme.token)
      (e.right.map Lexeme.token) := opens ▸ holds
  rcases counts.group before with ⟨u, v, split, inside, behind⟩ | ⟨left, right, level⟩
  · obtain ⟨us, rest, rfl, rfl, others⟩ := List.map_eq_append_iff.mp split
    obtain ⟨l', vs, rfl, closes, rfl⟩ := List.map_eq_cons_iff.mp others
    let e' : Flanks := ⟨l' :: (vs ++ e.left), l'.relocate f :: (vs.map (Lexeme.relocate f) ++ e.right),
      e.length, e.length'⟩
    have holds' : κ.Holds e' us := by
      have inner := inside ((vs ++ e.left).map Lexeme.token)
        ((vs.map (Lexeme.relocate f) ++ e.right).map Lexeme.token)
      rw [← closes] at inner
      exact inner
    have one : e.one (us ++ l' :: vs) stop = e'.one us stop := by
      simp [Flanks.one, e']
    have two : e.two f (us ++ l' :: vs) stop' = e'.two f us stop' := by
      simp [Flanks.two, e']
    rw [List.length_append] at size
    rw [one, two]
    apply (agree e' us stop stop' log log' (by omega) holds').bind_cases
    · exact .fail
    · intro a b u₁ u₂ x y split' _ holds'' kept related
      cases u₂ with
      | nil =>
        rw [List.append_nil] at split'
        subst split'
        have first (s : Nat) : (sign c >>= fun _ => Pure.pure a) (e'.one [] s) x =
            (some (a, e.one vs (lastStop stop (us ++ [l']))), x) := by
          rw [← lastStop_append]
          simp only [Bind.bind, sign, Flanks.one, List.nil_append, e', token_cons closes]
          rfl
        have second (s : Nat) : (sign c >>= fun _ => Pure.pure b) (e'.two f [] s) y =
            (some (b, e.two f vs (lastStop stop' ((us ++ [l']).map (Lexeme.relocate f)))), y) := by
          rw [List.map_append, ← lastStop_append]
          simp only [Bind.bind, sign, Flanks.two, List.map_nil, List.nil_append, e',
            token_cons (l := l'.relocate f) closes]
          rfl
        rw [first, second]
        exact .read a b (us ++ [l']) vs x y (by simp) (Nat.zero_le _) behind kept related
      | cons s u₂ => exact stuck holds'' (.inl (by simp)) a b _ _ x y
  · rw [List.map_eq_nil_iff] at left right
    have holds' : κ.Holds e w := by
      rw [Enclosure.Holds, left, right]
      exact level
    apply (agree e w stop stop' log log' size holds').bind_cases
    · exact .fail
    · intro a b _ v x y _ _ holds'' _ _
      exact stuck holds'' (.inr ⟨left, right⟩) a b _ _ x y

private theorem between_counted (counts : κ.Counts o c) (agree : Agree κ f n 0 φ p q) :
    Agree κ f (n + 1) 1 φ (Parser.between o p c) (Parser.between o q c) := by
  intro e w stop stop' log log' size holds
  cases w with
  | nil =>
    obtain ⟨left, right⟩ := counts.absent holds
    exact .of_refuses (refuses_between left) (refuses_between right)
  | cons l w =>
    by_cases opens : l.token = .sign o
    · have run := paired_closing counts agree opens (Nat.lt_of_succ_lt_succ size) holds
        l.span.stop (f l.span.stop) log log'
      rw [Flanks.one, Flanks.two, List.map_cons, List.cons_append, List.cons_append,
        between_cons opens, between_cons (l := l.relocate f) opens]
      exact run.extend (u := [l]) rfl (Nat.le_refl 1) (List.prefix_refl _)
    · have other : some l.token ≠ some (.sign o) := fun same => opens (Option.some.inj same)
      exact .of_refuses (refuses_between other) (refuses_between other)

theorem between (nests : κ.Nests o c) (agree : Agree κ f n 0 φ p q) :
    Agree κ f (n + 1) 1 φ (Parser.between o p c) (Parser.between o q c) := by
  rcases nests with ⟨opens, closes⟩ | counts
  · refine (plain opens).step fun _ _ _ => agree.bind fun a b related => ?_
    exact (plain closes).weaken.bind fun _ _ _ => pure related
  · exact between_counted counts agree

theorem between_all (nests : κ.Nests o c) (agree : ∀ k, Agree κ f k 0 φ p q) :
    Agree κ f n 1 φ (Parser.between o p c) (Parser.between o q c) := by
  cases n with
  | zero => exact zero
  | succ n => exact between nests (agree n)

end Brackets

section Derived

variable {p' : Parser γ} {q' : Parser δ} {h : α → β}

theorem after (first : Agree κ f n 0 φ p q) (second : Agree κ f n m ψ p' q') :
    Agree κ f n m ψ (Parser.after p p') (Parser.after q q') :=
  first.bind fun _ _ _ => second

theorem after_step (first : Agree κ f (n + 1) 1 φ p q) (second : Agree κ f n 0 ψ p' q') :
    Agree κ f (n + 1) 1 ψ (Parser.after p p') (Parser.after q q') :=
  first.step fun _ _ _ => second

theorem before (first : Agree κ f n m φ p q) (second : Agree κ f n 0 ψ p' q') :
    Agree κ f n m φ (Parser.before p p') (Parser.before q q') :=
  first.andThen fun _ _ related => second.bind fun _ _ _ => pure related

theorem many1 (agree : Agree κ f n 1 (fun a b => b = h a) p q) :
    Agree κ f n 1 (fun as bs => bs = as.map h) (Parser.many1 p) (Parser.many1 q) :=
  agree.andThen fun a b same => agree.many.bind fun as bs others =>
    pure (by rw [same, others, List.map_cons])

theorem commaSep1 (agree : Agree κ f n 1 (fun a b => b = h a) p q) :
    Agree κ f n 1 (fun as bs => bs = as.map h) (Parser.commaSep1 p) (Parser.commaSep1 q) := by
  have comma : Agree κ f n 1 (fun a b => b = a) (sign .comma) (sign .comma) :=
    token (by simp [Token.IsBound])
  have others := (comma.weaken.after agree).many
  exact agree.andThen fun a b same => others.bind fun as bs rest =>
    pure (by rw [same, rest, List.map_cons])

theorem commaSep (agree : Agree κ f n 1 (fun a b => b = h a) p q) :
    Agree κ f n 0 (fun as bs => bs = as.map h) (Parser.commaSep p) (Parser.commaSep q) :=
  agree.commaSep1.weaken.or (pure rfl)

theorem commaSepEnd (agree : Agree κ f n 1 (fun a b => b = h a) p q) :
    Agree κ f n 0 (fun as bs => bs = as.map h) (Parser.commaSepEnd p)
      (Parser.commaSepEnd q) := by
  have comma : Agree κ f n 1 (fun a b => b = a) (sign .comma) (sign .comma) :=
    token (by simp [Token.IsBound])
  exact (agree.commaSep1.weaken.before comma.optional).or (pure rfl)

theorem chainLeft {operator : Parser γ} {join : α → γ → α → α} {join' : β → γ → β → β}
    (operand : Agree κ f n 1 (fun a b => b = h a) p q)
    (op : Agree κ f n 1 (fun a b => b = a) operator operator)
    (joins : ∀ a c a', h (join a c a') = join' (h a) c (h a')) :
    Agree κ f n 1 (fun a b => b = h a) (Parser.chainLeft p operator join)
      (Parser.chainLeft q operator join') := by
  have pair : Agree κ f n 1 (fun a b => b = Prod.map id h a)
      (do
        let c ← operator
        let a ← p
        return (c, a))
      (do
        let c ← operator
        let b ← q
        return (c, b)) :=
    op.andThen fun _ _ same => operand.weaken.bind fun _ _ same' =>
      pure (by rw [same, same']; rfl)
  refine operand.andThen fun a b same => pair.many.bind fun cs ds rest => pure ?_
  rw [same, rest, List.foldl_map]
  apply List.foldl_hom
  intro a c
  exact (joins a c.1 c.2).symm

end Derived

section Blocks

theorem guard_anyToken {accepts : Token → Bool}
    (plain : ∀ t, accepts t = true → κ.Plain t) :
    Agree κ f n 1 (fun a b => b = a) (Parser.guard anyToken accepts)
      (Parser.guard anyToken accepts) := by
  have refused {t : Token} {v : List Token} (rejected : accepts t = false) :
      Refuses (Parser.guard anyToken accepts) (t :: v) := by
    have read : Yields anyToken [t] v fun s => s = t := yields_next rfl rfl
    apply read.guard_refuses
    rintro s rfl
    exact rejected
  intro e w stop stop' log log' _ holds
  cases w with
  | nil =>
    have stopped {v : List Token} (absent : ∀ t, accepts t = true → v.head? ≠ some t) :
        Refuses (Parser.guard anyToken accepts) v := by
      cases v with
      | nil => exact (refuses_next (by simp)).guard
      | cons t v =>
        apply refused
        rw [← Bool.not_eq_true]
        intro accepted
        exact absent t accepted rfl
    refine .of_refuses (stopped fun t accepted => ?_) (stopped fun t accepted => ?_)
    · exact ((plain t accepted).absent holds).1
    · exact ((plain t accepted).absent holds).2
  | cons l w =>
    cases accepted : accepts l.token with
    | false => exact .of_refuses (refused accepted) (refused accepted)
    | true =>
      have read (l : Lexeme) (rest : List Lexeme) (stop length : Nat) :
          Succeeds anyToken ⟨l :: rest, stop, length⟩ l.token ⟨rest, l.span.stop, length⟩ :=
        succeeds_next rfl
      exact Paired.of_succeeds (u := [l]) ((read l _ stop _).guard accepted)
        ((read (l.relocate f) _ stop' _).guard accepted) (Nat.le_refl 1)
        ((plain _ accepted).tail holds) rfl

variable {a : α}

theorem lookAhead {p : Parser α} (blocks : κ.Blocks)
    (peeks : ∀ c c' : Cursor, c.words.head? = c'.words.head? →
      Fails p c ∧ Fails p c' ∨ ∃ d d', Succeeds p c a d ∧ Succeeds p c' a d') :
    Agree κ f n 0 (fun a b => b = a) (Parser.lookAhead p) (Parser.lookAhead p) := by
  intro e w stop stop' log log' _ holds
  have same : (e.one w stop).words.head? = (e.two f w stop').words.head? := by
    rw [Flanks.words_one, Flanks.words_two]
    cases w with
    | nil => exact blocks.alike holds
    | cons l w => rfl
  rcases peeks _ _ same with ⟨one, two⟩ | ⟨_, _, one, two⟩
  · obtain ⟨x, first⟩ := one.lookAhead log
    obtain ⟨y, second⟩ := two.lookAhead log'
    rw [first, second]
    exact .fail x y
  · exact Paired.of_succeeds (u := []) one.lookAhead two.lookAhead (Nat.zero_le _) holds rfl

theorem lookAhead_token {t : Token} (blocks : κ.Blocks) :
    Agree κ f n 0 (fun a b => b = a) (Parser.lookAhead (Parser.token t))
      (Parser.lookAhead (Parser.token t)) := by
  apply lookAhead (a := ()) blocks
  intro c c' same
  by_cases first : c.words.head? = some t
  · have reads {d : Cursor} (first : d.words.head? = some t) :
        ∃ d', Succeeds (Parser.token t) d () d' := by
      obtain ⟨ts, split⟩ := List.head?_eq_some_iff.mp first
      obtain ⟨_, d', outcome, _⟩ := yields_token (t := t) (v := ts) d split
      exact ⟨d', outcome⟩
    obtain ⟨d, one⟩ := reads first
    obtain ⟨d', two⟩ := reads (same ▸ first)
    exact .inr ⟨d, d', one, two⟩
  · exact .inl ⟨refuses_token first c rfl, refuses_token (same ▸ first) c' rfl⟩

theorem lookAhead_atEnd (blocks : κ.Blocks) :
    Agree κ f n 0 (fun a b => b = a) (Parser.lookAhead atEnd) (Parser.lookAhead atEnd) := by
  apply lookAhead (a := ()) blocks
  rintro ⟨rest, stop, length⟩ ⟨rest', stop', length'⟩ same
  cases rest with
  | nil =>
    cases rest' with
    | nil => exact .inr ⟨_, _, succeeds_atEnd, succeeds_atEnd⟩
    | cons l rest' => cases same
  | cons l rest =>
    cases rest' with
    | nil => cases same
    | cons l' rest' => exact .inl ⟨fails_atEnd, fails_atEnd⟩

end Blocks

end Agree

end Rules

end Parser

end Lockstep
