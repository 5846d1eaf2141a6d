import Lockstep.Proofs.Tree.Preorder
/-!
Executions. `Evaluates e calls` says that the expression can be evaluated with exactly these calls,
and `Runs s calls o` that the statement can be run with them and left in the way `o`. Conditions
may come out either way. `Enters s calls o` is a run that starts at a label inside the statement,
as that of a switch. Of the operands of `?:`, `&&` and `||` only those that are selected are
evaluated, and neither the operand of `sizeof` nor the value of a `case` is. Every expression can be
evaluated, and the calls that an evaluation makes stand in the expression.
-/

set_option autoImplicit false
set_option relaxedAutoImplicit false

namespace Lockstep

def BinaryOp.isLogical : BinaryOp → Bool
  | logAnd | logOr => true
  | _ => false

def Expr.isEager : Expr → Bool
  | conditional _ _ _ _ | sizeofExpr _ _ => false
  | binary _ op _ _ => !op.isLogical
  | _ => true

def Expr.ownCall (e : Expr) : List Expr := if e.isCall then [e] else []

mutual

/-- An evaluation of the expression, operands from left to right, and the calls it makes. -/
inductive Evaluates : Expr → List Expr → Prop
  | eager {e : Expr} {calls : List Expr} :
      e.isEager = true → EvaluatesAll e.children calls → Evaluates e (calls ++ e.ownCall)
  | shortcut {span : Span} {op : BinaryOp} {lhs rhs : Expr} {a : List Expr} :
      op.isLogical = true → Evaluates lhs a → Evaluates (.binary span op lhs rhs) a
  | both {span : Span} {op : BinaryOp} {lhs rhs : Expr} {a b : List Expr} :
      op.isLogical = true → Evaluates lhs a → Evaluates rhs b →
        Evaluates (.binary span op lhs rhs) (a ++ b)
  | thenOperand {span : Span} {cond t e : Expr} {a b : List Expr} :
      Evaluates cond a → Evaluates t b → Evaluates (.conditional span cond t e) (a ++ b)
  | elseOperand {span : Span} {cond t e : Expr} {a b : List Expr} :
      Evaluates cond a → Evaluates e b → Evaluates (.conditional span cond t e) (a ++ b)
  | size {span : Span} {operand : Expr} : Evaluates (.sizeofExpr span operand) []

/-- The evaluation of several expressions in a row. -/
inductive EvaluatesAll : List Expr → List Expr → Prop
  | nil : EvaluatesAll [] []
  | cons {e : Expr} {es a b : List Expr} :
      Evaluates e a → EvaluatesAll es b → EvaluatesAll (e :: es) (a ++ b)

end

/-- How a run of a statement ends: behind it, or by a jump. -/
inductive Ending where
  | done | broke | continued | returned
  | jumped (target : Ident)
deriving DecidableEq

namespace Ending

/-- Does a loop go on to its next round after a body that ends like this? -/
def repeats : Ending → Bool
  | done | continued => true
  | _ => false

/-- How a loop or a switch ends whose body is left like this: a `break` goes no further. -/
def leaving : Ending → Ending
  | broke => done
  | o => o

end Ending

mutual

/-- A run of the statement from its start, the calls it makes and how it ends. A `goto` ends it;
where control goes on from there is left open. -/
inductive Runs : Stmt → List Expr → Ending → Prop
  | nil {span : Span} : Runs (.compound span []) [] .done
  | next {span : Span} {s : Stmt} {ss : List Stmt} {a b : List Expr} {o : Ending} :
      Runs s a .done → Runs (.compound span ss) b o → Runs (.compound span (s :: ss)) (a ++ b) o
  | leave {span : Span} {s : Stmt} {ss : List Stmt} {a : List Expr} {o : Ending} :
      Runs s a o → o ≠ .done → Runs (.compound span (s :: ss)) a o
  | decl {span : Span} {d : Decl} {a : List Expr} :
      EvaluatesAll d.exprs a → Runs (.decl span d) a .done
  | expr {span : Span} {e : Expr} {a : List Expr} : Evaluates e a → Runs (.expr span e) a .done
  | ifTaken {span : Span} {cond : Expr} {t : Stmt} {a b : List Expr} {o : Ending} :
      Evaluates cond a → Runs t b o → Runs (.ifThen span cond t) (a ++ b) o
  | ifPassed {span : Span} {cond : Expr} {t : Stmt} {a : List Expr} :
      Evaluates cond a → Runs (.ifThen span cond t) a .done
  | thenBranch {span : Span} {cond : Expr} {t e : Stmt} {a b : List Expr} {o : Ending} :
      Evaluates cond a → Runs t b o → Runs (.ifElse span cond t e) (a ++ b) o
  | elseBranch {span : Span} {cond : Expr} {t e : Stmt} {a b : List Expr} {o : Ending} :
      Evaluates cond a → Runs e b o → Runs (.ifElse span cond t e) (a ++ b) o
  | forStart {span : Span} {i : ForInit} {cond step : Option Expr} {body : Stmt}
      {a b : List Expr} {o : Ending} :
      EvaluatesAll i.exprs a → Runs (.forLoop span none cond step body) b o →
        Runs (.forLoop span (some i) cond step body) (a ++ b) o
  | forDone {span : Span} {cond : Expr} {step : Option Expr} {body : Stmt} {a : List Expr} :
      Evaluates cond a → Runs (.forLoop span none (some cond) step body) a .done
  | forNext {span : Span} {cond step : Option Expr} {body : Stmt} {a b c d : List Expr}
      {o o' : Ending} :
      EvaluatesAll cond.toList a → Runs body b o → o.repeats = true →
        EvaluatesAll step.toList c → Runs (.forLoop span none cond step body) d o' →
        Runs (.forLoop span none cond step body) (a ++ b ++ c ++ d) o'
  | forLeave {span : Span} {cond step : Option Expr} {body : Stmt} {a b : List Expr}
      {o : Ending} :
      EvaluatesAll cond.toList a → Runs body b o → o.repeats = false →
        Runs (.forLoop span none cond step body) (a ++ b) o.leaving
  | whileDone {span : Span} {cond : Expr} {body : Stmt} {a : List Expr} :
      Evaluates cond a → Runs (.whileLoop span cond body) a .done
  | whileNext {span : Span} {cond : Expr} {body : Stmt} {a b c : List Expr} {o o' : Ending} :
      Evaluates cond a → Runs body b o → o.repeats = true →
        Runs (.whileLoop span cond body) c o' → Runs (.whileLoop span cond body) (a ++ b ++ c) o'
  | whileLeave {span : Span} {cond : Expr} {body : Stmt} {a b : List Expr} {o : Ending} :
      Evaluates cond a → Runs body b o → o.repeats = false →
        Runs (.whileLoop span cond body) (a ++ b) o.leaving
  | doDone {span : Span} {body : Stmt} {cond : Expr} {a b : List Expr} {o : Ending} :
      Runs body a o → o.repeats = true → Evaluates cond b →
        Runs (.doLoop span body cond) (a ++ b) .done
  | doNext {span : Span} {body : Stmt} {cond : Expr} {a b c : List Expr} {o o' : Ending} :
      Runs body a o → o.repeats = true → Evaluates cond b → Runs (.doLoop span body cond) c o' →
        Runs (.doLoop span body cond) (a ++ b ++ c) o'
  | doLeave {span : Span} {body : Stmt} {cond : Expr} {a : List Expr} {o : Ending} :
      Runs body a o → o.repeats = false → Runs (.doLoop span body cond) a o.leaving
  | switch {span : Span} {cond : Expr} {body : Stmt} {a b : List Expr} {o : Ending} :
      Evaluates cond a → Enters body b o → Runs (.switch span cond body) (a ++ b) o.leaving
  | switchPassed {span : Span} {cond : Expr} {body : Stmt} {a : List Expr} :
      Evaluates cond a → body.flattenSwitch.exhaustive = false →
        Runs (.switch span cond body) a .done
  | caseLabel {span : Span} {value : Expr} : Runs (.caseLabel span value) [] .done
  | defaultLabel {span : Span} : Runs (.defaultLabel span) [] .done
  | breakJump {span : Span} : Runs (.breakJump span) [] .broke
  | continueJump {span : Span} : Runs (.continueJump span) [] .continued
  | returnJump {span : Span} {value : Option Expr} {a : List Expr} :
      EvaluatesAll value.toList a → Runs (.returnJump span value) a .returned
  | gotoJump {span : Span} {target : Ident} : Runs (.gotoJump span target) [] (.jumped target)
  | label {span : Span} {name : Ident} : Runs (.label span name) [] .done
  | empty {span : Span} : Runs (.empty span) [] .done

/-- A run that starts at a `case` or `default` inside the statement; the labels of a switch within
it are not its own. -/
inductive Enters : Stmt → List Expr → Ending → Prop
  | caseLabel {span : Span} {value : Expr} : Enters (.caseLabel span value) [] .done
  | defaultLabel {span : Span} : Enters (.defaultLabel span) [] .done
  | next {span : Span} {s : Stmt} {ss : List Stmt} {a b : List Expr} {o : Ending} :
      Enters s a .done → Runs (.compound span ss) b o →
        Enters (.compound span (s :: ss)) (a ++ b) o
  | leave {span : Span} {s : Stmt} {ss : List Stmt} {a : List Expr} {o : Ending} :
      Enters s a o → o ≠ .done → Enters (.compound span (s :: ss)) a o
  | later {span : Span} {s : Stmt} {ss : List Stmt} {a : List Expr} {o : Ending} :
      Enters (.compound span ss) a o → Enters (.compound span (s :: ss)) a o
  | ifTaken {span : Span} {cond : Expr} {t : Stmt} {a : List Expr} {o : Ending} :
      Enters t a o → Enters (.ifThen span cond t) a o
  | thenBranch {span : Span} {cond : Expr} {t e : Stmt} {a : List Expr} {o : Ending} :
      Enters t a o → Enters (.ifElse span cond t e) a o
  | elseBranch {span : Span} {cond : Expr} {t e : Stmt} {a : List Expr} {o : Ending} :
      Enters e a o → Enters (.ifElse span cond t e) a o
  | forNext {span : Span} {i : Option ForInit} {cond step : Option Expr} {body : Stmt}
      {a b c : List Expr} {o o' : Ending} :
      Enters body a o → o.repeats = true → EvaluatesAll step.toList b →
        Runs (.forLoop span none cond step body) c o' →
        Enters (.forLoop span i cond step body) (a ++ b ++ c) o'
  | forLeave {span : Span} {i : Option ForInit} {cond step : Option Expr} {body : Stmt}
      {a : List Expr} {o : Ending} :
      Enters body a o → o.repeats = false → Enters (.forLoop span i cond step body) a o.leaving
  | whileNext {span : Span} {cond : Expr} {body : Stmt} {a b : List Expr} {o o' : Ending} :
      Enters body a o → o.repeats = true → Runs (.whileLoop span cond body) b o' →
        Enters (.whileLoop span cond body) (a ++ b) o'
  | whileLeave {span : Span} {cond : Expr} {body : Stmt} {a : List Expr} {o : Ending} :
      Enters body a o → o.repeats = false → Enters (.whileLoop span cond body) a o.leaving
  | doDone {span : Span} {body : Stmt} {cond : Expr} {a b : List Expr} {o : Ending} :
      Enters body a o → o.repeats = true → Evaluates cond b →
        Enters (.doLoop span body cond) (a ++ b) .done
  | doNext {span : Span} {body : Stmt} {cond : Expr} {a b c : List Expr} {o o' : Ending} :
      Enters body a o → o.repeats = true → Evaluates cond b → Runs (.doLoop span body cond) c o' →
        Enters (.doLoop span body cond) (a ++ b ++ c) o'
  | doLeave {span : Span} {body : Stmt} {cond : Expr} {a : List Expr} {o : Ending} :
      Enters body a o → o.repeats = false → Enters (.doLoop span body cond) a o.leaving

end

theorem evaluates_eager_iff {e : Expr} {calls : List Expr} (eager : e.isEager = true) :
    Evaluates e calls ↔ ∃ a, EvaluatesAll e.children a ∧ calls = a ++ e.ownCall := by
  constructor
  · intro evaluation
    cases evaluation with
    | eager _ operands => exact ⟨_, operands, rfl⟩
    | shortcut logical _ => simp [Expr.isEager, logical] at eager
    | both logical _ _ => simp [Expr.isEager, logical] at eager
    | thenOperand _ _ | elseOperand _ _ | size => cases eager
  · rintro ⟨a, operands, rfl⟩
    exact .eager eager operands

theorem evaluates_logical_iff {span : Span} {op : BinaryOp} {lhs rhs : Expr} {calls : List Expr}
    (logical : op.isLogical = true) :
    Evaluates (.binary span op lhs rhs) calls ↔
      Evaluates lhs calls ∨ ∃ a b, Evaluates lhs a ∧ Evaluates rhs b ∧ calls = a ++ b := by
  constructor
  · intro evaluation
    cases evaluation with
    | eager eager _ => simp [Expr.isEager, logical] at eager
    | shortcut _ left => exact .inl left
    | both _ left right => exact .inr ⟨_, _, left, right, rfl⟩
  · intro parts
    rcases parts with left | ⟨a, b, left, right, rfl⟩
    · exact .shortcut logical left
    · exact .both logical left right

theorem evaluates_conditional_iff {span : Span} {cond t e : Expr} {calls : List Expr} :
    Evaluates (.conditional span cond t e) calls ↔
      ∃ a b, Evaluates cond a ∧ (Evaluates t b ∨ Evaluates e b) ∧ calls = a ++ b := by
  constructor
  · intro evaluation
    cases evaluation with
    | eager eager _ => cases eager
    | thenOperand test chosen => exact ⟨_, _, test, .inl chosen, rfl⟩
    | elseOperand test chosen => exact ⟨_, _, test, .inr chosen, rfl⟩
  · intro parts
    rcases parts with ⟨a, b, test, chosen | chosen, rfl⟩
    · exact .thenOperand test chosen
    · exact .elseOperand test chosen

theorem evaluates_sizeof_iff {span : Span} {operand : Expr} {calls : List Expr} :
    Evaluates (.sizeofExpr span operand) calls ↔ calls = [] := by
  constructor
  · intro evaluation
    cases evaluation with
    | eager eager _ => cases eager
    | size => rfl
  · rintro rfl
    exact .size

theorem evaluatesAll_cons_iff {e : Expr} {es calls : List Expr} :
    EvaluatesAll (e :: es) calls ↔
      ∃ a b, Evaluates e a ∧ EvaluatesAll es b ∧ calls = a ++ b := by
  constructor
  · intro evaluation
    cases evaluation with
    | cons first rest => exact ⟨_, _, first, rest, rfl⟩
  · rintro ⟨a, b, first, rest, rfl⟩
    exact .cons first rest

theorem evaluatesAll_nil_iff {calls : List Expr} : EvaluatesAll [] calls ↔ calls = [] := by
  constructor
  · intro evaluation
    cases evaluation
    rfl
  · rintro rfl
    exact .nil

theorem evaluatesAll_append_iff {es es' calls : List Expr} :
    EvaluatesAll (es ++ es') calls ↔
      ∃ a b, EvaluatesAll es a ∧ EvaluatesAll es' b ∧ calls = a ++ b := by
  induction es generalizing calls with
  | nil => simp [evaluatesAll_nil_iff]
  | cons e es ih =>
    simp only [List.cons_append, evaluatesAll_cons_iff, ih]
    constructor
    · rintro ⟨a, -, first, ⟨b, c, rest, others, rfl⟩, rfl⟩
      exact ⟨a ++ b, c, ⟨a, b, first, rest, rfl⟩, others, (List.append_assoc a b c).symm⟩
    · rintro ⟨-, c, ⟨a, b, first, rest, rfl⟩, others, rfl⟩
      exact ⟨a, b ++ c, first, ⟨b, c, rest, others, rfl⟩, List.append_assoc a b c⟩

theorem evaluatesAll_singleton_iff {e : Expr} {calls : List Expr} :
    EvaluatesAll [e] calls ↔ Evaluates e calls := by
  simp [evaluatesAll_cons_iff, evaluatesAll_nil_iff]

theorem Expr.eager_cases (e : Expr) :
    e.isEager = true ∨
    (∃ span op lhs rhs, e = .binary span op lhs rhs ∧ op.isLogical = true) ∨
    (∃ span cond t f, e = .conditional span cond t f) ∨
    (∃ span operand, e = .sizeofExpr span operand) := by
  cases e with
  | binary span op lhs rhs =>
    cases logical : op.isLogical with
    | true => exact .inr (.inl ⟨span, op, lhs, rhs, rfl, logical⟩)
    | false => exact .inl (by simp [isEager, logical])
  | conditional span cond t f => exact .inr (.inr (.inl ⟨span, cond, t, f, rfl⟩))
  | sizeofExpr span operand => exact .inr (.inr (.inr ⟨span, operand, rfl⟩))
  | _ => exact .inl rfl

private theorem exists_evaluatesAll_of_forall {es : List Expr}
    (each : ∀ e ∈ es, ∃ calls, Evaluates e calls) : ∃ calls, EvaluatesAll es calls := by
  induction es with
  | nil => exact ⟨[], .nil⟩
  | cons e es ih =>
    obtain ⟨a, first⟩ := each e (by simp)
    obtain ⟨b, rest⟩ := ih fun e member => each e (by simp [member])
    exact ⟨a ++ b, .cons first rest⟩

theorem exists_evaluates (e : Expr) : ∃ calls, Evaluates e calls := by
  induction e using Expr.children_induction with
  | step e ih =>
    obtain eager | ⟨span, op, lhs, rhs, rfl, logical⟩ | ⟨span, cond, t, f, rfl⟩ |
      ⟨span, operand, rfl⟩ := e.eager_cases
    · obtain ⟨calls, operands⟩ := exists_evaluatesAll_of_forall ih
      exact ⟨calls ++ e.ownCall, .eager eager operands⟩
    · obtain ⟨a, left⟩ := ih lhs (by simp [Expr.children])
      exact ⟨a, .shortcut logical left⟩
    · obtain ⟨a, test⟩ := ih cond (by simp [Expr.children])
      obtain ⟨b, chosen⟩ := ih t (by simp [Expr.children])
      exact ⟨a ++ b, .thenOperand test chosen⟩
    · exact ⟨[], .size⟩

theorem exists_evaluatesAll (es : List Expr) : ∃ calls, EvaluatesAll es calls :=
  exists_evaluatesAll_of_forall fun e _ => exists_evaluates e

theorem mem_preorder_of_evaluates {e : Expr} {calls : List Expr} (evaluation : Evaluates e calls) :
    ∀ c ∈ calls, c ∈ e.preorder ∧ c.isCall = true := by
  induction e using Expr.children_induction generalizing calls with
  | step e ih =>
    have operand {o c : Expr} {a : List Expr} (child : o ∈ e.children) (part : Evaluates o a)
        (member : c ∈ a) : c ∈ e.preorder ∧ c.isCall = true := by
      obtain ⟨inside, call⟩ := ih o child part c member
      rw [Expr.preorder_eq_cons]
      exact ⟨List.mem_cons_of_mem _ (List.mem_flatMap.mpr ⟨o, child, inside⟩), call⟩
    have operands {es a : List Expr} (children : es ⊆ e.children) (parts : EvaluatesAll es a) :
        ∀ c ∈ a, c ∈ e.preorder ∧ c.isCall = true := by
      induction es generalizing a with
      | nil =>
        rw [evaluatesAll_nil_iff.mp parts]
        simp
      | cons o es rest =>
        obtain ⟨first, others, part, remaining, rfl⟩ := evaluatesAll_cons_iff.mp parts
        intro c member
        rcases List.mem_append.mp member with member | member
        · exact operand (children (by simp)) part member
        · exact rest (fun o member => children (by simp [member])) remaining c member
    intro c member
    cases evaluation with
    | eager _ parts =>
      rcases List.mem_append.mp member with member | member
      · exact operands (List.Subset.refl _) parts c member
      · rw [Expr.ownCall] at member
        split at member
        · rename_i call
          obtain rfl := List.mem_singleton.mp member
          rw [Expr.preorder_eq_cons]
          exact ⟨List.mem_cons_self, call⟩
        · cases member
    | shortcut _ left => exact operand (by simp [Expr.children]) left member
    | both _ left right =>
      rcases List.mem_append.mp member with member | member
      · exact operand (by simp [Expr.children]) left member
      · exact operand (by simp [Expr.children]) right member
    | thenOperand test chosen | elseOperand test chosen =>
      rcases List.mem_append.mp member with member | member
      · exact operand (by simp [Expr.children]) test member
      · exact operand (by simp [Expr.children]) chosen member
    | size => cases member

end Lockstep
