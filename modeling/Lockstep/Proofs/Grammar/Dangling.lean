import Lockstep.Proofs.Grammar.Placement
import Lockstep.Proofs.Grammar.Skipping
/-!
Which `if` an `else` belongs to. Every statement of a file was read from some of its tokens, in front
of all that follow. An `if` stays without `else` only where no `else` can be read, and what ends
with such an `if` ends where it does, so an `else` that was read belongs to an `if` before it.
-/

set_option autoImplicit false
set_option relaxedAutoImplicit false

namespace Lockstep

namespace Parser

variable {α β : Type} {p : Parser α} {a : α} {u rest : List Lexeme}

def Always (p : Parser α) (P : α → Prop) : Prop :=
  ∀ c log a d log', p c log = (some (a, d), log') → P a

section Always

variable {P : α → Prop}

private theorem Always.of_takes (always : Always p P) (takes : Takes p u rest a) : P a := by
  have run := takes 0 0 {}
  cases outcome : p ⟨u ++ rest, 0, 0⟩ {} with
  | mk result log =>
    rw [outcome] at run
    simp only at run
    subst run
    exact always _ _ _ _ _ outcome

private theorem always_pure (holds : P a) : Always (pure a) P := by
  intro c log a' d log' run
  cases run
  exact holds

private theorem always_bind {o : Parser β} {g : β → Parser α} (second : ∀ b, Always (g b) P) :
    Always (o >>= g) P := by
  intro c log a d log' run
  simp only [Bind.bind] at run
  cases outcome : o c log with
  | mk result log₁ =>
    rw [outcome] at run
    cases result with
    | none => cases run
    | some step => exact second step.1 _ _ _ _ _ run

private theorem always_map {o : Parser β} {f : β → α} (holds : ∀ b, P (f b)) : Always (f <$> o) P :=
  always_bind fun b => always_pure (holds b)

theorem Always.before {o : Parser β} (first : Always p P) : Always (before p o) P := by
  intro c log a d log' run
  simp only [Parser.before, Bind.bind] at run
  cases outcome : p c log with
  | mk result log₁ =>
    rw [outcome] at run
    cases result with
    | none => cases run
    | some step =>
      refine always_bind (fun _ => always_pure ?_) _ _ _ _ _ run
      exact first _ _ _ _ _ outcome

private theorem always_choice {ps : List (Parser α)} (each : ∀ p ∈ ps, Always p P) :
    Always (choice ps) P := by
  induction ps with
  | nil =>
    intro c log a d log' run
    cases run
  | cons p ps ih =>
    rw [List.forall_mem_cons] at each
    intro c log a d log' run
    simp only [choice, Parser.or] at run
    cases outcome : p c log with
    | mk result log₁ =>
      rw [outcome] at run
      cases result with
      | none => exact ih each.2 _ _ _ _ _ run
      | some step =>
        cases run
        exact each.1 _ _ _ _ _ outcome

end Always

end Parser

namespace Stmt

/-- Does an `if` without `else` stand at the end of the statement? -/
def endsOpen : Stmt → Bool
  | ifThen _ _ _ => true
  | ifElse _ _ _ e => e.endsOpen
  | forLoop _ _ _ _ body | whileLoop _ _ body | switch _ _ body => body.endsOpen
  | _ => false

def isSimple : Stmt → Bool
  | compound _ _ | ifThen _ _ _ | ifElse _ _ _ _ | forLoop _ _ _ _ _ | whileLoop _ _ _
  | doLoop _ _ _ | switch _ _ _ => false
  | _ => true

end Stmt

namespace Grammar

open Lockstep.Parser

def elseClause : Parser Stmt := after (keyword .kwElse) stmt

variable {u rest w : List Lexeme} {s : Stmt}

def Standing (w : List Lexeme) (s : Stmt) : Prop :=
  ∃ x u rest, w = x ++ (u ++ rest) ∧ Takes stmt u rest s

theorem Standing.append (standing : Standing w s) (x : List Lexeme) : Standing (x ++ w) s := by
  obtain ⟨y, u, rest, rfl, takes⟩ := standing
  exact ⟨x ++ y, u, rest, (List.append_assoc ..).symm, takes⟩

/-- How the statements inside a statement were read, from its tokens `u` and in front of `rest`. -/
inductive Parts (u rest : List Lexeme) : Stmt → Prop where
  | simple {s : Stmt} (alone : s.isSimple = true) : Parts u rest s
  | compound {span : Span} {body : List Stmt} (each : ∀ s ∈ body, Standing (u ++ rest) s) :
      Parts u rest (.compound span body)
  | ifThen {span : Span} {cond : Expr} {t : Stmt} (x v : List Lexeme) (split : u = x ++ v)
      (branch : Takes stmt v rest t) (ends : Rejects elseClause rest) :
      Parts u rest (.ifThen span cond t)
  | ifElse {span : Span} {cond : Expr} {t e : Stmt} (x v y z : List Lexeme)
      (split : u = x ++ (v ++ (y ++ z))) (branch : Takes stmt v (y ++ z ++ rest) t)
      (clause : ¬ Rejects elseClause (y ++ z ++ rest)) (other : Takes stmt z rest e) :
      Parts u rest (.ifElse span cond t e)
  | forLoop {span : Span} {init : Option ForInit} {cond step : Option Expr} {body : Stmt}
      (x v : List Lexeme) (split : u = x ++ v) (inner : Takes stmt v rest body) :
      Parts u rest (.forLoop span init cond step body)
  | whileLoop {span : Span} {cond : Expr} {body : Stmt} (x v : List Lexeme) (split : u = x ++ v)
      (inner : Takes stmt v rest body) : Parts u rest (.whileLoop span cond body)
  | doLoop {span : Span} {body : Stmt} {cond : Expr} (inner : Standing (u ++ rest) body) :
      Parts u rest (.doLoop span body cond)
  | switch {span : Span} {cond : Expr} {body : Stmt} (x v : List Lexeme) (split : u = x ++ v)
      (inner : Takes stmt v rest body) : Parts u rest (.switch span cond body)

section Rules

private theorem takes_stmtRule (takes : Takes stmt u rest s) : Takes (stmtRule stmt) u rest s :=
  takes.of_agree (fun _ => Agree.fix_rule fun _ _ _ _ => agree_stmtRule Enclosure.blocks_whole)
    fun a _ same => by simp [same]

private theorem steady_stmt : Steady stmt := advances_stmt.steady

private theorem steady_keyword {k : Keyword} : Steady (keyword k) := steady_token

private theorem steady_parenCond : Steady parenCond :=
  steady_of_agree (fun _ => agree_parenCond Enclosure.blocks_whole) fun a _ same => by simp [same]

private theorem steady_forHead : Steady forHead :=
  steady_of_agree (fun _ => agree_forHead Enclosure.blocks_whole)
    fun a _ same => by simp [same, funext ForInit.relocate_id, funext Expr.relocate_id]

private theorem steady_elseClause : Steady elseClause := steady_keyword.bind fun _ => steady_stmt

def simpleStmt : Parser (Span → Stmt) :=
  choice [caseLabel, defaultLabel, jump, label, declStmt, exprStmt,
    (fun _ => .empty) <$> sign .semicolon]

private theorem always_simpleStmt :
    Always simpleStmt fun make => ∀ span, (make span).isSimple = true ∧ (make span).span = span := by
  apply always_choice
  intro p listed
  simp only [List.mem_cons, List.not_mem_nil, or_false] at listed
  rcases listed with rfl | rfl | rfl | rfl | rfl | rfl | rfl
  · exact always_bind fun _ => always_bind fun _ => always_pure fun _ => ⟨rfl, rfl⟩
  · exact always_bind fun _ => always_bind fun _ => always_pure fun _ => ⟨rfl, rfl⟩
  · refine Always.before (always_choice fun p listed => ?_)
    simp only [List.mem_cons, List.not_mem_nil, or_false] at listed
    rcases listed with rfl | rfl | rfl | rfl
    · exact always_map fun _ _ => ⟨rfl, rfl⟩
    · exact always_map fun _ _ => ⟨rfl, rfl⟩
    · exact always_bind fun _ => always_bind fun _ => always_pure fun _ => ⟨rfl, rfl⟩
    · exact always_bind fun _ => always_bind fun _ => always_pure fun _ => ⟨rfl, rfl⟩
  · exact always_bind fun _ => always_pure fun _ => ⟨rfl, rfl⟩
  · exact always_bind fun _ => always_pure fun _ => ⟨rfl, rfl⟩
  · exact always_bind fun _ => always_pure fun _ => ⟨rfl, rfl⟩
  · exact always_map fun _ _ => ⟨rfl, rfl⟩

private theorem carries_id {make make' : Span → Stmt} (carries : Carries id make make') :
    make' = make := by
  funext span
  simpa using carries span

private theorem steady_simpleStmt : Steady simpleStmt := by
  have blocks := Enclosure.blocks_whole
  refine steady_of_agree (fun _ => .choice (.cons (agree_caseLabel blocks)
    (.cons agree_defaultLabel (.cons (agree_jump blocks) (.cons agree_label
    (.cons (agree_declStmt blocks) (.cons (agree_exprStmt blocks)
    (.cons ?_ .nil)))))))) fun _ _ => carries_id
  exact (agree_semicolon blocks).map fun _ _ _ _ => rfl

private theorem steady_brokenStmt : Steady brokenStmt :=
  steady_of_agree (fun _ => agree_brokenStmt Enclosure.blocks_whole) fun _ _ same => same

/-- The `if` of a condition and a branch, with or without another branch. -/
def ifMade (cond : Expr) (t : Stmt) : Option Stmt → Span → Stmt
  | none => fun span => .ifThen span cond t
  | some e => fun span => .ifElse span cond t e

private theorem ifStmt_eq : ifStmt stmt = keyword .kwIf >>= fun _ => parenCond >>= fun cond =>
    stmt >>= fun t => optional elseClause >>= fun e => pure (ifMade cond t e) := by
  unfold ifStmt
  congr 1; funext _
  congr 1; funext cond
  congr 1; funext t
  congr 1; funext e
  cases e with
  | none => rfl
  | some e => rfl

end Rules

section Inversion

variable {make : Span → Stmt}

/-- How the statement was read of which only the range is missing. -/
def Forms (u rest : List Lexeme) (make : Span → Stmt) : Prop :=
  ∀ span, Parts u rest (make span) ∧ (make span).span = span

private theorem headed_inv {α β : Type} {k : Keyword} {head : Parser α} {g : α → Parser β} {b : β}
    (steady : Steady head) (others : ∀ a, Steady (g a))
    (takes : Takes (keyword k >>= fun _ => head >>= g) u rest b) :
    ∃ a x v, u = x ++ v ∧ Takes (g a) v rest b := by
  obtain ⟨_, x, y, rfl, _, takes⟩ := Takes.bind_inv steady_keyword (fun _ => steady.bind others) takes
  obtain ⟨a, y, v, rfl, _, takes⟩ := Takes.bind_inv steady others takes
  exact ⟨a, x ++ y, v, (List.append_assoc ..).symm, takes⟩

private theorem tail_inv {α : Type} {k : Keyword} {head : Parser α} {f : α → Stmt → Span → Stmt}
    (steady : Steady head)
    (takes : Takes (keyword k >>= fun _ => head >>= fun a => stmt >>= fun s => pure (f a s)) u rest
      make) : ∃ a s x v, u = x ++ v ∧ Takes stmt v rest s ∧ make = f a s := by
  obtain ⟨a, x, v, rfl, behind⟩ := headed_inv steady (fun _ => steady_stmt.map) takes
  obtain ⟨s, inner, rfl⟩ := behind.map_inv steady_stmt
  exact ⟨a, s, x, v, rfl, inner, rfl⟩

private theorem forms_ifStmt (takes : Takes (ifStmt stmt) u rest make) : Forms u rest make := by
  rw [ifStmt_eq] at takes
  obtain ⟨cond, x, y, rfl, branches⟩ := headed_inv steady_parenCond
    (fun _ => steady_stmt.bind fun _ => steady_elseClause.optional.map) takes
  obtain ⟨t, v, z, rfl, branch, last⟩ := Takes.bind_inv steady_stmt
    (fun _ => steady_elseClause.optional.map) branches
  obtain ⟨o, other, rfl⟩ := last.map_inv steady_elseClause.optional
  rcases other.optional_inv steady_elseClause with ⟨e, rfl, clause⟩ | ⟨rfl, rfl, ends⟩
  · have read := clause.not_rejects
    obtain ⟨_, y, z, rfl, _, last⟩ := Takes.bind_inv steady_keyword (fun _ => steady_stmt) clause
    exact fun _ => ⟨.ifElse x v y z rfl branch read last, rfl⟩
  · exact fun _ => ⟨.ifThen x v (by rw [List.append_nil]) branch ends, rfl⟩

private theorem forms_doStmt (takes : Takes (doStmt stmt) u rest make) : Forms u rest make := by
  have ending (body : Stmt) : Steady (keyword .kwWhile >>= fun _ => parenCond >>= fun cond =>
      sign .semicolon >>= fun _ => (pure fun span => .doLoop span body cond : Parser (Span → Stmt))) :=
    steady_keyword.bind fun _ => steady_parenCond.bind fun _ => steady_token.bind fun _ => steady_pure
  obtain ⟨_, x, y, rfl, _, behind⟩ := Takes.bind_inv steady_keyword
    (fun _ => steady_stmt.bind ending) takes
  obtain ⟨body, v, z, rfl, inner, last⟩ := Takes.bind_inv steady_stmt ending behind
  obtain ⟨cond, _, _, rfl, stop⟩ := headed_inv steady_parenCond
    (fun _ => steady_token.bind fun _ => steady_pure) last
  obtain ⟨_, _, rfl⟩ := Takes.map_inv steady_token stop
  exact fun _ => ⟨.doLoop ⟨x, v, _, by simp only [List.append_assoc], inner⟩, rfl⟩

private theorem forms_compound
    (takes : Takes ((fun body span => .compound span body) <$> bracedStmts stmt)
    u rest make) : Forms u rest make := by
  obtain ⟨body, braced, rfl⟩ := takes.map_inv steady_stmts.between
  obtain ⟨l, v, l', rfl, _, _, inside⟩ := braced.between_inv steady_stmts
  refine fun span => ⟨.compound fun s member => ?_, rfl⟩
  obtain ⟨x, u, y, rfl, inner⟩ := advances_stmt.exists_takes_of_mem inside member
  exact ⟨l :: x, u, y ++ l' :: rest, by simp, inner⟩

private theorem steady_ifStmt : Steady (ifStmt stmt) := by
  rw [ifStmt_eq]
  exact steady_keyword.bind fun _ => steady_parenCond.bind fun _ => steady_stmt.bind fun _ =>
    steady_elseClause.optional.map

def nestedStmts : List (Parser (Span → Stmt)) :=
  [(fun body span => .compound span body) <$> bracedStmts stmt, ifStmt stmt, forStmt stmt,
    whileStmt stmt, doStmt stmt, switchStmt stmt]

private theorem steady_nestedStmts : ∀ p ∈ nestedStmts, Steady p := by
  have loop {α : Type} {k : Keyword} {head : Parser α} {f : α → Stmt → Span → Stmt}
      (steady : Steady head) : Steady (keyword k >>= fun _ => head >>= fun a => stmt >>= fun s =>
        pure (f a s)) :=
    steady_keyword.bind fun _ => steady.bind fun _ => steady_stmt.map
  intro p listed
  simp only [nestedStmts, List.mem_cons, List.not_mem_nil, or_false] at listed
  rcases listed with rfl | rfl | rfl | rfl | rfl | rfl
  · exact steady_stmts.between.map
  · exact steady_ifStmt
  · exact loop steady_forHead
  · exact loop steady_parenCond
  · exact steady_keyword.bind fun _ => steady_stmt.bind fun _ => steady_keyword.bind fun _ =>
      steady_parenCond.bind fun _ => steady_token.bind fun _ => steady_pure
  · exact loop steady_parenCond

private theorem forms_nestedStmts {p : Parser (Span → Stmt)} (listed : p ∈ nestedStmts)
    (takes : Takes p u rest make) : Forms u rest make := by
  simp only [nestedStmts, List.mem_cons, List.not_mem_nil, or_false] at listed
  rcases listed with rfl | rfl | rfl | rfl | rfl | rfl
  · exact forms_compound takes
  · exact forms_ifStmt takes
  · obtain ⟨_, _, x, v, split, inner, rfl⟩ := tail_inv steady_forHead takes
    exact fun _ => ⟨.forLoop x v split inner, rfl⟩
  · obtain ⟨_, _, x, v, split, inner, rfl⟩ := tail_inv steady_parenCond takes
    exact fun _ => ⟨.whileLoop x v split inner, rfl⟩
  · exact forms_doStmt takes
  · obtain ⟨_, _, x, v, split, inner, rfl⟩ := tail_inv steady_parenCond takes
    exact fun _ => ⟨.switch x v split inner, rfl⟩

private theorem steady_stmtBody : Steady (stmtBody stmt) := by
  have known (n : Nat) := agree_stmtBody Enclosure.blocks_whole
    (agree_stmt (f := id) (n := n) Enclosure.blocks_whole)
  exact steady_of_agree (fun n => (known n).mono (Nat.le_succ n) (Nat.le_refl 1)
    fun _ _ carries => carries) fun _ _ => carries_id

private theorem forms_stmtBody (takes : Takes (stmtBody stmt) u rest make) : Forms u rest make := by
  rcases Takes.choice_append_inv steady_nestedStmts steady_simpleStmt takes with
    ⟨p, listed, nested⟩ | simple
  · exact forms_nestedStmts listed nested
  · intro span
    obtain ⟨alone, kept⟩ := always_simpleStmt.of_takes simple span
    exact ⟨.simple alone, kept⟩

private theorem parts_of_takes (takes : Takes stmt u rest s) : Parts u rest s ∧ Spans u s.span := by
  obtain ⟨make, span, read, spans, rfl⟩ := Takes.spanned_inv
    (steady_stmtBody.recover steady_brokenStmt.map) (fun _ => rfl) (takes_stmtRule takes)
    (advances_stmt.nonempty takes)
  have made : Forms u rest make := by
    rcases read.recover_inv steady_stmtBody steady_brokenStmt.map with sound | broken
    · exact forms_stmtBody sound
    · obtain ⟨_, _, rfl⟩ := broken.map_inv steady_brokenStmt
      exact fun _ => ⟨.simple rfl, rfl⟩
  obtain ⟨parts, kept⟩ := made span
  exact ⟨parts, by rwa [kept]⟩

end Inversion

section Open

private theorem rejects_of_endsOpen (takes : Takes stmt u rest s) (ends : s.endsOpen = true) :
    Rejects elseClause rest := by
  fun_induction Stmt.endsOpen s generalizing u with
  | case1 span cond t =>
    cases (parts_of_takes takes).1 with
    | simple alone => cases alone
    | ifThen x v split branch ends => exact ends
  | case2 span cond t e ih =>
    cases (parts_of_takes takes).1 with
    | simple alone => cases alone
    | ifElse x v y z split branch clause other => exact ih other ends
  | case3 span init cond step body ih =>
    cases (parts_of_takes takes).1 with
    | simple alone => cases alone
    | forLoop x v split inner => exact ih inner ends
  | case4 span cond body ih =>
    cases (parts_of_takes takes).1 with
    | simple alone => cases alone
    | whileLoop x v split inner => exact ih inner ends
  | case5 span cond body ih =>
    cases (parts_of_takes takes).1 with
    | simple alone => cases alone
    | switch x v split inner => exact ih inner ends
  | case6 => cases ends

private theorem endsOpen_of_takes_ifElse {span : Span} {cond : Expr} {t e : Stmt}
    (takes : Takes stmt u rest (.ifElse span cond t e)) : t.endsOpen = false := by
  cases (parts_of_takes takes).1 with
  | simple alone => cases alone
  | ifElse x v y z split branch clause other =>
    rw [Bool.eq_false_iff]
    exact fun ends => clause (rejects_of_endsOpen branch ends)

end Open

section Inside

private theorem not_child_of_isSimple {t : Stmt} (alone : s.isSimple = true) :
    Node.stmt t ∉ s.children := by
  cases s with
  | decl | expr | caseLabel | returnJump => simp [Stmt.children]
  | defaultLabel | breakJump | continueJump | gotoJump | label | empty => simp [Stmt.children]
  | compound | ifThen | ifElse | forLoop | whileLoop | doLoop | switch => cases alone

private theorem isSimple_toStmt (init : ForInit) : init.toStmt.isSimple = true := by
  cases init with
  | decl d => rfl
  | expr span e => rfl

private theorem Standing.of_tail {x v : List Lexeme} (split : u = x ++ v)
    (takes : Takes stmt v rest s) :
    Standing (u ++ rest) s :=
  ⟨x, v, rest, by rw [split, List.append_assoc], takes⟩

theorem Parts.standing {t : Stmt} (parts : Parts u rest s) (child : Node.stmt t ∈ s.children) :
    t.isSimple = true ∨ Standing (u ++ rest) t := by
  cases parts with
  | simple alone => exact absurd child (not_child_of_isSimple alone)
  | compound each => exact .inr (each t (by simpa [Stmt.children] using child))
  | ifThen x v split branch ends =>
    obtain rfl : t = _ := by simpa [Stmt.children] using child
    exact .inr (.of_tail split branch)
  | ifElse x v y z split branch clause other =>
    obtain rfl | rfl : t = _ ∨ t = _ := by simpa [Stmt.children] using child
    · exact .inr ⟨x, v, y ++ z ++ rest, by simp [split], branch⟩
    · exact .inr (.of_tail (x := x ++ (v ++ y)) (by simp [split]) other)
  | forLoop x v split inner =>
    simp only [Stmt.children, List.mem_append, List.mem_map, List.mem_singleton] at child
    rcases child with ((⟨init, _, same⟩ | ⟨_, _, same⟩) | ⟨_, _, same⟩) | same
    · cases same
      exact .inl (isSimple_toStmt init)
    · cases same
    · cases same
    · cases same
      exact .inr (.of_tail split inner)
  | whileLoop x v split inner =>
    obtain rfl : t = _ := by simpa [Stmt.children] using child
    exact .inr (.of_tail split inner)
  | doLoop inner =>
    obtain rfl : t = _ := by simpa [Stmt.children] using child
    exact .inr inner
  | switch x v split inner =>
    obtain rfl : t = _ := by simpa [Stmt.children] using child
    exact .inr (.of_tail split inner)

private theorem not_mem_preorder_expr {e : Expr} {t : Stmt} :
    Node.stmt t ∉ (Node.expr e).preorder := by
  simp [Node.preorder]

private theorem Standing.of_mem {t : Stmt} (standing : s.isSimple = true ∨ Standing w s)
    (inside : Node.stmt t ∈ (Node.stmt s).preorder) : t.isSimple = true ∨ Standing w t := by
  generalize whole : Node.stmt s = n at inside
  induction n using Node.children_induction generalizing s with
  | step n ih =>
    subst whole
    rcases Node.mem_preorder_iff.mp inside with same | ⟨c, child, below⟩
    · cases same
      exact standing
    · cases c with
      | expr e => exact absurd below not_mem_preorder_expr
      | stmt c =>
        refine ih (.stmt c) child ?_ rfl below
        rcases standing with alone | ⟨x, u, rest, rfl, takes⟩
        · exact absurd child (not_child_of_isSimple alone)
        · exact ((parts_of_takes takes).1.standing child).imp_right fun read => read.append x

private theorem standing_of_body {b : Block} (takes : Takes body u rest b) (member : s ∈ b.stmts) :
    Standing (u ++ rest) s := by
  obtain ⟨stmts, span, inner, _, rfl⟩ := Takes.spanned_inv steady_stmts.between body_returns takes
    (body_nonempty takes)
  obtain ⟨l, v, l', rfl, _, _, inside⟩ := inner.between_inv steady_stmts
  obtain ⟨x, y, z, rfl, read⟩ := advances_stmt.exists_takes_of_mem inside member
  exact ⟨l :: x, y, z ++ l' :: rest, by simp, read⟩

private theorem standing_of_function {f : Function} {b : Block} (takes : Takes function u rest f)
    (given : f.body = some b) (member : s ∈ b.stmts) : Standing (u ++ rest) s := by
  obtain ⟨parts⟩ := exists_functionParts takes
  rcases bodyOrEnd_cases (given ▸ parts.takes_ending) with ⟨block, same, braced⟩ | ⟨none, _⟩
  · cases same
    have standing := (standing_of_body braced member).append
      (parts.front ++ (parts.params ++ parts.attributes))
    rw [parts.split]
    simpa using standing
  · cases none

end Inside

end Grammar

section Units

open Grammar Lockstep.Parser

private theorem filter_behind {x u rest : List Lexeme} {span : Span}
    (ordered : Ordered (x ++ (u ++ rest)))
    (nonempty : u ≠ []) (spans : Spans u span) :
    (x ++ (u ++ rest)).filter (fun l => span.stop ≤ l.span.start) = rest := by
  obtain ⟨last, inside, stop⟩ := (spans.framed nonempty).stop
  have behind : ∀ l ∈ rest, span.stop ≤ l.span.start :=
    fun l member => stop ▸ ordered.right.across inside member
  have here : ∀ l ∈ u, l.span.start < span.stop := by
    intro l member
    have framed : Framed u l.span := ⟨⟨l, member, rfl⟩, ⟨l, member, rfl⟩⟩
    exact Nat.lt_of_lt_of_le (ordered.right.left.room l member)
      (framed.within ordered.right.left spans).2
  have before : ∀ l ∈ x, l.span.start < span.stop := by
    intro l member
    have room := ordered.left.room l member
    have apart := ordered.across member (List.mem_append_left rest inside)
    have less := here last inside
    omega
  have none : (x ++ u).filter (fun l => span.stop ≤ l.span.start) = [] := by
    rw [List.filter_eq_nil_iff]
    intro l member
    rcases List.mem_append.mp member with front | own
    · simpa using before l front
    · simpa using here l own
  have all : rest.filter (fun l => span.stop ≤ l.span.start) = rest := by
    rw [List.filter_eq_self]
    exact fun l member => by simpa using behind l member
  rw [← List.append_assoc, List.filter_append, none, all, List.nil_append]

variable {text : String} {unit : SourceUnit} (parsed : (parse text).unit = some unit)

include parsed

private theorem standing_of_parse {s : Stmt} (inside : .stmt s ∈ unit.nodes) :
    s.isSimple = true ∨ Standing (lex text).tokens s := by
  obtain ⟨item, member, inside⟩ := List.mem_flatMap.mp inside
  rw [item.nodes_eq_flatMap, List.mem_flatMap] at inside
  obtain ⟨root, top, below⟩ := inside
  cases root with
  | expr e => exact absurd below not_mem_preorder_expr
  | stmt r =>
    cases item with
    | function f =>
      simp only [Item.roots, List.mem_flatMap, Option.mem_toList, List.mem_map] at top
      obtain ⟨b, given, _, listed, same⟩ := top
      cases same
      obtain ⟨x, u, rest, split, takes⟩ := exists_takes_function_of_parse parsed member
      have standing := (standing_of_function takes given listed).append x
      exact Standing.of_mem (.inr (split ▸ standing)) below
    | global d => simp [Item.roots] at top
    | struct d => cases top
    | typedef d => cases top

end Units

open Grammar Lockstep.Parser

/-- An `else` belongs to the nearest `if` that can take it: no branch before an `else` ends with an
`if` that lacks one, and behind an `if` that lacks one no `else` could have been read. -/
theorem else_joins_nearest {text : String} {unit : SourceUnit}
    (parsed : (parse text).unit = some unit) :
    (∀ span cond t e, .stmt (.ifElse span cond t e) ∈ unit.nodes → t.endsOpen = false) ∧
    ∀ span cond t, .stmt (.ifThen span cond t) ∈ unit.nodes →
      Rejects elseClause ((lex text).tokens.filter fun l => span.stop ≤ l.span.start) := by
  constructor
  · intro span cond t e inside
    rcases standing_of_parse parsed inside with alone | ⟨x, u, rest, _, takes⟩
    · cases alone
    · exact endsOpen_of_takes_ifElse takes
  · intro span cond t inside
    rcases standing_of_parse parsed inside with alone | ⟨x, u, rest, split, takes⟩
    · cases alone
    · have spans : Spans u span := (parts_of_takes takes).2
      rw [split, filter_behind (split ▸ lex_ordered text) (advances_stmt.nonempty takes) spans]
      exact rejects_of_endsOpen takes rfl

/-- The range of an `if`, and does it have an `else`? -/
def Node.ifRange? : Node → Option (Span × Bool)
  | stmt (.ifThen span _ _) => some (span, false)
  | stmt (.ifElse span _ _ _) => some (span, true)
  | _ => none

/-- An `else` in a loop, and one that nothing follows, so that neither `if` before it can take it. -/
theorem else_joins_nearest_sample : ∃ unit,
    (parse "void f(){if(a)for(;;)if(b)x;else y;if(c)if(d)z;else}").unit = some unit ∧
      unit.nodes.filterMap Node.ifRange? =
        [(⟨9, 35⟩, false), (⟨21, 35⟩, true), (⟨35, 47⟩, false), (⟨40, 47⟩, false)] ∧
      (∀ span cond t e, .stmt (.ifElse span cond t e) ∈ unit.nodes → t.endsOpen = false) ∧
      ∀ span cond t, .stmt (.ifThen span cond t) ∈ unit.nodes → Rejects elseClause
        ((lex "void f(){if(a)for(;;)if(b)x;else y;if(c)if(d)z;else}").tokens.filter
          fun l => span.stop ≤ l.span.start) := by
  have view : ((parse "void f(){if(a)for(;;)if(b)x;else y;if(c)if(d)z;else}").unit.map fun unit =>
      unit.nodes.filterMap Node.ifRange?) =
      some [(⟨9, 35⟩, false), (⟨21, 35⟩, true), (⟨35, 47⟩, false), (⟨40, 47⟩, false)] := by
    decide +kernel
  obtain ⟨unit, parsed, view⟩ := Option.map_eq_some_iff.mp view
  exact ⟨unit, parsed, view, else_joins_nearest parsed⟩

end Lockstep
