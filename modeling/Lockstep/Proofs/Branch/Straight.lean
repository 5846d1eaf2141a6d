import Lockstep.Proofs.Branch.Execution
/-!
Code without branches. Where nothing but `break` leaves the order of the statements, a run is an
evaluation of the expressions on its way, and a run from a label is one of those behind the label.
Braces make no difference: all that counts is the row of statements inside them.
-/

set_option autoImplicit false
set_option relaxedAutoImplicit false

namespace Lockstep

namespace Stmt

mutual

def leaves : Stmt → List Stmt
  | compound _ body => leavesAll body
  | s => [s]

def leavesAll : List Stmt → List Stmt
  | [] => []
  | s :: ss => leaves s ++ leavesAll ss

end

/-- The expressions that are evaluated when the statement is run, if it is no branch. -/
def evaluated : Stmt → List Expr
  | decl _ d => d.exprs
  | expr _ e => [e]
  | _ => []

private theorem leaves_of_not_compound {s : Stmt} (plain : s.isCompound = false) :
    s.leaves = [s] := by
  cases s with
  | compound span body => cases plain
  | _ => rfl

theorem mem_preorder_of_mem_leaves (s : Stmt) : ∀ l ∈ s.leaves, .stmt l ∈ s.preorder := by
  induction s using compound_induction with
  | compound span body ih =>
    have inside : ∀ l ∈ leavesAll body, .stmt l ∈ preorderAll body := by
      induction body with
      | nil => simp [leavesAll]
      | cons s ss rest =>
        intro l member
        rw [preorderAll, List.mem_append]
        rcases List.mem_append.mp member with member | member
        · exact .inl (ih s (by simp) l member)
        · exact .inr (rest (fun s member => ih s (by simp [member])) l member)
    intro l member
    exact List.mem_cons_of_mem _ (inside l member)
  | plain s plain =>
    intro l member
    rw [leaves_of_not_compound plain, List.mem_singleton] at member
    subst member
    cases l <;> exact List.mem_cons_self

end Stmt

/-- The expressions from the first of these statements up to a `break`. -/
def evaluatedUntilBreak (ss : List Stmt) : List Expr :=
  (ss.takeWhile (!·.isBreak)).flatMap Stmt.evaluated

def endingOf (ss : List Stmt) : Ending := if ss.any Stmt.isBreak then .broke else .done

private theorem evaluatedUntilBreak_cons (s : Stmt) (ss : List Stmt) :
    evaluatedUntilBreak (s :: ss) =
      if s.isBreak then [] else s.evaluated ++ evaluatedUntilBreak ss := by
  cases breaks : s.isBreak <;> simp [evaluatedUntilBreak, breaks]

private theorem evaluatedUntilBreak_append (ss ss' : List Stmt) :
    evaluatedUntilBreak (ss ++ ss') =
      if ss.any Stmt.isBreak then evaluatedUntilBreak ss
      else evaluatedUntilBreak ss ++ evaluatedUntilBreak ss' := by
  induction ss with
  | nil => rfl
  | cons s ss ih =>
    cases breaks : s.isBreak with
    | true => simp [evaluatedUntilBreak_cons, breaks]
    | false =>
      simp only [List.cons_append, evaluatedUntilBreak_cons, breaks, ih, List.any_cons,
        Bool.false_or, Bool.false_eq_true, if_false]
      split <;> simp

private theorem endingOf_append (ss ss' : List Stmt) :
    endingOf (ss ++ ss') = if ss.any Stmt.isBreak then .broke else endingOf ss' := by
  cases broke : ss.any Stmt.isBreak <;> simp [endingOf, broke]

/-- The statements are run from the first one on, up to a `break`. -/
def RunsThrough (ss : List Stmt) (calls : List Expr) (o : Ending) : Prop :=
  EvaluatesAll (evaluatedUntilBreak ss) calls ∧ o = endingOf ss

private theorem runsThrough_append_iff {ss ss' : List Stmt} {calls : List Expr} {o : Ending} :
    RunsThrough (ss ++ ss') calls o ↔
      (∃ a b, RunsThrough ss a .done ∧ RunsThrough ss' b o ∧ calls = a ++ b) ∨
        (RunsThrough ss calls o ∧ o ≠ .done) := by
  simp only [RunsThrough, evaluatedUntilBreak_append, endingOf_append]
  cases broke : ss.any Stmt.isBreak with
  | true =>
    have left : endingOf ss = .broke := by simp [endingOf, broke]
    simp only [left, if_true]
    constructor
    · rintro ⟨evaluation, rfl⟩
      exact .inr ⟨⟨evaluation, rfl⟩, by simp⟩
    · intro way
      rcases way with ⟨a, b, ⟨-, impossible⟩, -⟩ | ⟨run, -⟩
      · cases impossible
      · exact run
  | false =>
    have through : endingOf ss = .done := by simp [endingOf, broke]
    simp only [through, Bool.false_eq_true, if_false, evaluatesAll_append_iff, and_true]
    constructor
    · rintro ⟨⟨a, b, first, rest, rfl⟩, ending⟩
      exact .inl ⟨a, b, first, ⟨rest, ending⟩, rfl⟩
    · intro way
      rcases way with ⟨a, b, first, ⟨rest, ending⟩, rfl⟩ | ⟨⟨-, done⟩, unfinished⟩
      · exact ⟨⟨a, b, first, rest, rfl⟩, ending⟩
      · exact absurd done unfinished

private theorem runs_cons_iff {span : Span} {s : Stmt} {ss : List Stmt} {calls : List Expr}
    {o : Ending} :
    Runs (.compound span (s :: ss)) calls o ↔
      (∃ a b, Runs s a .done ∧ Runs (.compound span ss) b o ∧ calls = a ++ b) ∨
        (Runs s calls o ∧ o ≠ .done) := by
  constructor
  · intro run
    cases run with
    | next first rest => exact .inl ⟨_, _, first, rest, rfl⟩
    | leave first unfinished => exact .inr ⟨first, unfinished⟩
  · intro way
    rcases way with ⟨a, b, first, rest, rfl⟩ | ⟨first, unfinished⟩
    · exact .next first rest
    · exact .leave first unfinished

private theorem runs_plain_iff {s : Stmt} {calls : List Expr} {o : Ending}
    (plain : s.isCompound = false) (straight : s.isBranching = false) :
    Runs s calls o ↔ RunsThrough [s] calls o := by
  have through : RunsThrough [s] calls o ↔
      EvaluatesAll s.evaluated calls ∧ o = if s.isBreak then .broke else .done := by
    cases s <;> simp [RunsThrough, evaluatedUntilBreak, endingOf, Stmt.isBreak, Stmt.evaluated]
  rw [through]
  cases s with
  | decl span d =>
    constructor
    · intro run
      cases run with
      | decl evaluation => exact ⟨evaluation, rfl⟩
    · rintro ⟨evaluation, rfl⟩
      exact .decl evaluation
  | expr span e =>
    simp only [Stmt.evaluated, evaluatesAll_singleton_iff]
    constructor
    · intro run
      cases run with
      | expr evaluation => exact ⟨evaluation, rfl⟩
    · rintro ⟨evaluation, rfl⟩
      exact .expr evaluation
  | caseLabel | defaultLabel | breakJump | empty =>
    simp only [Stmt.evaluated, evaluatesAll_nil_iff]
    constructor
    · intro run
      cases run
      exact ⟨rfl, rfl⟩
    · rintro ⟨rfl, rfl⟩
      constructor
  | compound span body => cases plain
  | _ => cases straight

/-- A statement without branches is run by evaluating what stands before its first `break`. -/
theorem runs_iff {s : Stmt} (straight : ∀ l ∈ s.leaves, l.isBranching = false)
    (calls : List Expr) (o : Ending) : Runs s calls o ↔ RunsThrough s.leaves calls o := by
  induction s using Stmt.compound_induction generalizing calls o with
  | compound span body ih =>
    induction body generalizing calls o with
    | nil =>
      constructor
      · intro run
        cases run
        exact ⟨.nil, rfl⟩
      · rintro ⟨evaluation, rfl⟩
        cases evaluation
        exact .nil
    | cons s ss rest =>
      have head : ∀ l ∈ s.leaves, l.isBranching = false := fun l member =>
        straight l (List.mem_append_left _ member)
      have tail : ∀ l ∈ (Stmt.compound span ss).leaves, l.isBranching = false := fun l member =>
        straight l (List.mem_append_right _ member)
      -- Braces around the rest of the row make the rest a statement of the same kind.
      have first := ih s (by simp) head
      have others := rest (fun s member => ih s (by simp [member])) tail
      have split : (Stmt.compound span (s :: ss)).leaves =
        s.leaves ++ (Stmt.compound span ss).leaves := rfl
      simp only [runs_cons_iff, first, others, split, runsThrough_append_iff]
  | plain s plain =>
    rw [Stmt.leaves_of_not_compound plain] at straight ⊢
    exact runs_plain_iff plain (straight s (by simp))

/-- What follows each label of these statements. -/
def behindLabels : List Stmt → List (List Stmt)
  | [] => []
  | s :: ss => if s.isLabel then ss :: behindLabels ss else behindLabels ss

/-- The statements are run from behind one of their labels on, up to a `break`. -/
def EntersAmong (ss : List Stmt) (calls : List Expr) (o : Ending) : Prop :=
  ∃ post ∈ behindLabels ss, RunsThrough post calls o

private theorem entersAmong_nil {calls : List Expr} {o : Ending} : ¬ EntersAmong [] calls o := by
  simp [EntersAmong, behindLabels]

private theorem entersAmong_cons_iff {s : Stmt} {ss : List Stmt} {calls : List Expr}
    {o : Ending} :
    EntersAmong (s :: ss) calls o ↔
      (s.isLabel = true ∧ RunsThrough ss calls o) ∨ EntersAmong ss calls o := by
  cases label : s.isLabel <;> simp [EntersAmong, behindLabels, label]

private theorem entersAmong_append_iff {ss ss' : List Stmt} {calls : List Expr} {o : Ending} :
    EntersAmong (ss ++ ss') calls o ↔
      (∃ a b, EntersAmong ss a .done ∧ RunsThrough ss' b o ∧ calls = a ++ b) ∨
        (EntersAmong ss calls o ∧ o ≠ .done) ∨ EntersAmong ss' calls o := by
  induction ss with
  | nil => simp [entersAmong_nil]
  | cons s ss ih =>
    simp only [List.cons_append, entersAmong_cons_iff, ih, runsThrough_append_iff]
    constructor
    · intro way
      rcases way with ⟨label, ⟨a, b, first, rest, rfl⟩ | ⟨run, unfinished⟩⟩ |
        ⟨a, b, first, rest, rfl⟩ | ⟨run, unfinished⟩ | run
      · exact .inl ⟨a, b, .inl ⟨label, first⟩, rest, rfl⟩
      · exact .inr (.inl ⟨.inl ⟨label, run⟩, unfinished⟩)
      · exact .inl ⟨a, b, .inr first, rest, rfl⟩
      · exact .inr (.inl ⟨.inr run, unfinished⟩)
      · exact .inr (.inr run)
    · intro way
      rcases way with ⟨a, b, ⟨label, first⟩ | first, rest, rfl⟩ |
        ⟨⟨label, run⟩ | run, unfinished⟩ | run
      · exact .inl ⟨label, .inl ⟨a, b, first, rest, rfl⟩⟩
      · exact .inr (.inl ⟨a, b, first, rest, rfl⟩)
      · exact .inl ⟨label, .inr ⟨run, unfinished⟩⟩
      · exact .inr (.inr (.inl ⟨run, unfinished⟩))
      · exact .inr (.inr (.inr run))

private theorem enters_cons_iff {span : Span} {s : Stmt} {ss : List Stmt} {calls : List Expr}
    {o : Ending} :
    Enters (.compound span (s :: ss)) calls o ↔
      (∃ a b, Enters s a .done ∧ Runs (.compound span ss) b o ∧ calls = a ++ b) ∨
        (Enters s calls o ∧ o ≠ .done) ∨ Enters (.compound span ss) calls o := by
  constructor
  · intro run
    cases run with
    | next first rest => exact .inl ⟨_, _, first, rest, rfl⟩
    | leave first unfinished => exact .inr (.inl ⟨first, unfinished⟩)
    | later rest => exact .inr (.inr rest)
  · intro way
    rcases way with ⟨a, b, first, rest, rfl⟩ | ⟨first, unfinished⟩ | rest
    · exact .next first rest
    · exact .leave first unfinished
    · exact .later rest

private theorem enters_plain_iff {s : Stmt} {calls : List Expr} {o : Ending}
    (plain : s.isCompound = false) (straight : s.isBranching = false) :
    Enters s calls o ↔ EntersAmong [s] calls o := by
  have among : EntersAmong [s] calls o ↔ s.isLabel = true ∧ calls = [] ∧ o = .done := by
    rw [entersAmong_cons_iff]
    simp [entersAmong_nil, RunsThrough, evaluatedUntilBreak, endingOf, evaluatesAll_nil_iff]
  rw [among]
  cases s with
  | caseLabel | defaultLabel =>
    constructor
    · intro run
      cases run
      exact ⟨rfl, rfl, rfl⟩
    · rintro ⟨-, rfl, rfl⟩
      constructor
  | decl | expr | breakJump | empty =>
    constructor
    · intro run
      cases run
    · rintro ⟨label, -⟩
      cases label
  | compound span body => cases plain
  | _ => cases straight

theorem enters_iff {s : Stmt} (straight : ∀ l ∈ s.leaves, l.isBranching = false)
    (calls : List Expr) (o : Ending) : Enters s calls o ↔ EntersAmong s.leaves calls o := by
  induction s using Stmt.compound_induction generalizing calls o with
  | compound span body ih =>
    induction body generalizing calls o with
    | nil =>
      constructor
      · intro run
        cases run
      · intro run
        exact absurd run entersAmong_nil
    | cons s ss rest =>
      have head : ∀ l ∈ s.leaves, l.isBranching = false := fun l member =>
        straight l (List.mem_append_left _ member)
      have tail : ∀ l ∈ (Stmt.compound span ss).leaves, l.isBranching = false := fun l member =>
        straight l (List.mem_append_right _ member)
      have first := ih s (by simp) head
      have others := rest (fun s member => ih s (by simp [member])) tail
      have through := runs_iff tail
      have split : (Stmt.compound span (s :: ss)).leaves =
        s.leaves ++ (Stmt.compound span ss).leaves := rfl
      simp only [enters_cons_iff, first, others, through, split, entersAmong_append_iff]
  | plain s plain =>
    rw [Stmt.leaves_of_not_compound plain] at straight ⊢
    exact enters_plain_iff plain (straight s (by simp))

end Lockstep
