import Lockstep.Proofs.Check.Findings
import Lockstep.Proofs.Tree.Preorder
/-!
What one node does to the count of barriers, and when a count can be closed. A node is plain if it
neither opens a branch nor jumps nor calls anything but a barrier; a tally agrees with `k` if the
segment it is counting and those it has closed all come to `k`.
-/

set_option autoImplicit false
set_option relaxedAutoImplicit false

namespace Lockstep

def Expr.invokeAt (span : Span) (name : String) : Expr := .call span (.name span name) []

def Expr.invoke (name : String) : Expr := .invokeAt ⟨0, 1⟩ name

namespace Context

variable (x : Context)

def isBarrierNode : Node → Bool
  | .expr e => x.isBarrierCall e
  | .stmt _ => false

/-- The node is a call whose target is a barrier. -/
def CallsBarrier (n : Node) : Prop := ∃ e name, n = .expr e ∧ x.callTarget e = some (.barrier name)

private theorem isBarrierNode_iff {n : Node} : x.isBarrierNode n = true ↔ x.CallsBarrier n := by
  cases n with
  | stmt s => simp [isBarrierNode, CallsBarrier]
  | expr e => simp [isBarrierNode, CallsBarrier, isBarrierCall_iff]

instance (n : Node) : Decidable (x.CallsBarrier n) := decidable_of_iff _ x.isBarrierNode_iff

/-- Nothing but a barrier is called here, and control goes on to the next node or breaks. -/
def Plain : Node → Prop
  | .stmt s => s.isBranching = false
  | .expr e => e.isCall = true → x.isBarrierCall e = true

/-- All that a node can do to the count. -/
theorem step_cases (n : Node) :
    (x.step n = .neutral ∧ x.Plain n ∧ n.isBreak = false ∧ x.isBarrierNode n = false) ∨
    (x.step n = .barrier ∧ x.Plain n ∧ n.isBreak = false ∧ x.isBarrierNode n = true) ∨
    (x.step n = .breakOut ∧ x.Plain n ∧ n.isBreak = true ∧ x.isBarrierNode n = false) ∨
    (∃ span why, x.step n = .obstacle span why ∧ ¬ x.Plain n) := by
  cases n with
  | stmt s => cases s <;> simp [step, Plain, Node.isBreak, Stmt.isBreak, isBarrierNode,
      Stmt.isBranching]
  | expr e =>
    cases target : x.callTarget e with
    | none =>
      have silent : e.isCall = false := by
        cases e <;> simp_all [callTarget, Expr.isCall]
      simp [step, Plain, Node.isBreak, isBarrierNode, isBarrierCall, target, silent]
    | some t =>
      have calls : e.isCall = true := by
        cases e <;> simp_all [callTarget, Expr.isCall]
      cases t <;> simp [step, Plain, Node.isBreak, isBarrierNode, isBarrierCall, target, calls]

private theorem map_expr_barrierCalls (s : Stmt) :
    (x.barrierCalls s).map .expr = s.preorder.filter x.isBarrierNode := by
  rw [barrierCalls]
  induction s.preorder with
  | nil => rfl
  | cons n ns ih =>
    cases n with
    | stmt s =>
      rw [List.filterMap_cons_none rfl, List.filter_cons_of_neg (by simp [isBarrierNode])]
      exact ih
    | expr e =>
      by_cases call : e.isCall = true
      · by_cases barrier : x.isBarrierCall e = true <;>
          simpa [Node.call?, call, isBarrierNode, List.filter_cons, barrier] using ih
      · have silent : x.isBarrierCall e = false := by
          cases e <;> simp_all [isBarrierCall, callTarget, Expr.isCall]
        simpa [Node.call?, call, isBarrierNode, silent] using ih

theorem length_barrierCalls (s : Stmt) :
    (x.barrierCalls s).length = s.preorder.countP x.isBarrierNode := by
  rw [List.countP_eq_length_filter, ← map_expr_barrierCalls, List.length_map]

theorem barrierCalls_eq_nil_iff (s : Stmt) :
    x.barrierCalls s = [] ↔ ∀ n ∈ s.preorder, ¬ x.CallsBarrier n := by
  rw [← List.map_eq_nil_iff, map_expr_barrierCalls, List.filter_eq_nil_iff]
  simp only [isBarrierNode_iff]

theorem map_span_barrierCalls {α : Type} (f : Span → α) (s : Stmt) :
    (x.barrierCalls s).map (fun b => f b.span) =
      (s.preorder.filter (x.CallsBarrier ·)).map fun n => f n.span := by
  have same : s.preorder.filter (x.CallsBarrier ·) = s.preorder.filter x.isBarrierNode :=
    List.filter_congr fun n _ => by simp [← isBarrierNode_iff]
  rw [same, ← map_expr_barrierCalls, List.map_map]
  rfl

end Context

namespace Tally

/-- The segment being counted and those closed before it come to `k`. -/
def Agrees (t : Tally) (k : Nat) : Prop :=
  (t.active = true → t.current = k) ∧ ∀ m, t.target = some m → m = k

def Sound (t : Tally) : Prop := t.target ≠ some 0

theorem sound_initial : Sound {} := by simp [Sound]

theorem agrees_initial (k : Nat) : Agrees {} k := by simp [Agrees]

theorem settle_cases {t : Tally} (sound : t.Sound) :
    (∃ t', t.settle = .ok t' ∧ t'.active = false ∧ t'.Sound ∧
      (t'.target.isSome ↔ t.active ∨ t.target.isSome) ∧ (∀ k, t'.Agrees k ↔ t.Agrees k) ∧
      ∃ k, 1 ≤ k ∧ t.Agrees k) ∨
    (∃ why, t.settle = .error why ∧ ∀ k, 1 ≤ k → ¬ t.Agrees k) := by
  obtain ⟨target, segment, current, active⟩ := t
  cases active with
  | false =>
    refine .inl ⟨_, rfl, rfl, sound, by simp, fun _ => Iff.rfl, ?_⟩
    cases target with
    | none => exact ⟨1, Nat.le_refl 1, by simp [Agrees]⟩
    | some m =>
      have positive : m ≠ 0 := by simpa [Sound] using sound
      exact ⟨m, by omega, by simp [Agrees]⟩
  | true =>
    by_cases empty : current = 0
    · refine .inr ⟨.noBarrier segment, by simp [settle, close, empty], ?_⟩
      rintro k positive ⟨counted, -⟩
      have : current = k := counted rfl
      omega
    · cases target with
      | none =>
        refine .inl ⟨⟨some current, segment, current, false⟩, by simp [settle, close, empty], rfl,
          by simpa [Sound] using empty, by simp, fun k => by simp [Agrees], ?_⟩
        exact ⟨current, by omega, by simp [Agrees]⟩
      | some m =>
        by_cases same : m = current
        · subst same
          refine .inl ⟨⟨some m, segment, m, false⟩, by simp [settle, close, empty], rfl, sound,
            by simp, fun k => by simp [Agrees], ?_⟩
          exact ⟨m, by omega, by simp [Agrees]⟩
        · refine .inr ⟨.countMismatch segment m current, by simp [settle, close, empty, same], ?_⟩
          rintro k - ⟨counted, closed⟩
          exact same ((closed m rfl).trans (counted rfl).symm)

end Tally

end Lockstep
