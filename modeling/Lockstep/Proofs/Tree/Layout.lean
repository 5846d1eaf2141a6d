import Lockstep.Proofs.Tree.Nodes
import Mathlib.Data.List.Basic
/-!
How a tree lies in its text. A node that is laid out takes some room and holds what stands directly
inside it, one behind the other. Where all nodes are, the preorder rises with the text; and since a
name, a call or a member access goes on behind everything inside it, no two of these have one range.
-/

set_option autoImplicit false
set_option relaxedAutoImplicit false

namespace Lockstep

def Span.Within (span range : Span) : Prop := range.start ≤ span.start ∧ span.stop ≤ range.stop

theorem Span.Within.trans {a b c : Span} (first : a.Within b) (second : b.Within c) :
    a.Within c := by
  unfold Within at *
  omega

/-- Names, calls and member accesses, the expressions that end with a token of their own. -/
def Expr.isMark : Expr → Bool
  | name _ _ | call _ _ _ | member _ _ _ _ => true
  | _ => false

namespace Node

def isMark : Node → Bool
  | expr e => e.isMark
  | stmt _ => false

def declarators : Node → List Declarator
  | stmt (.decl _ d) => d.declarators
  | _ => []

theorem declares_eq (n : Node) : n.declares = n.declarators.map Declarator.name := by
  cases n with
  | expr e => rfl
  | stmt s => cases s <;> rfl

def Before (m n : Node) : Prop := m.span.stop ≤ n.span.start

/-- The node takes some room and holds what stands directly inside it, one behind the other. -/
structure Laid (n : Node) : Prop where
  room : n.span.start < n.span.stop
  within : ∀ c ∈ n.children, c.span.Within n.span
  apart : n.children.Pairwise Before
  ends : n.isMark = true → ∀ c ∈ n.children, c.span.stop < n.span.stop
  declarators : ∀ d ∈ n.declarators, d.span.start < d.span.stop ∧ d.span.Within n.span

variable {n m : Node} {ns : List Node}

theorem within_of_mem_preorder (laid : ∀ k ∈ n.preorder, k.Laid) (inside : m ∈ n.preorder) :
    m.span.Within n.span := by
  induction n using children_induction with
  | step n ih =>
    rcases mem_preorder_iff.mp inside with rfl | ⟨c, child, below⟩
    · exact ⟨Nat.le_refl _, Nat.le_refl _⟩
    · have own := laid n (mem_preorder_iff.mpr (.inl rfl))
      have deeper : ∀ k ∈ c.preorder, k.Laid := fun k under =>
        laid k (mem_preorder_iff.mpr (.inr ⟨c, child, under⟩))
      have inner := ih c child deeper below
      exact inner.trans (own.within c child)

section Pairwise

variable {R : Node → Node → Prop}

private theorem pairwise_forest_of_each
    (behind : ∀ a b : Node, a.Laid → b.Laid → a.Before b → R a b)
    (apart : ns.Pairwise Before) (laid : ∀ k ∈ ns.flatMap preorder, k.Laid)
    (each : ∀ k ∈ ns, k.preorder.Pairwise R) : (ns.flatMap preorder).Pairwise R := by
  rw [List.pairwise_flatMap]
  refine ⟨each, apart.imp_of_mem fun {x y} here there before a inside b inside' => ?_⟩
  have whole {k : Node} (member : k ∈ ns) : ∀ j ∈ k.preorder, j.Laid := fun j below =>
    laid j (List.mem_flatMap.mpr ⟨k, member, below⟩)
  have first := within_of_mem_preorder (whole here) inside
  have second := within_of_mem_preorder (whole there) inside'
  refine behind a b (whole here a inside) (whole there b inside') ?_
  exact Nat.le_trans first.2 (Nat.le_trans before second.1)

private theorem pairwise_preorder
    (below : ∀ a c b : Node, a.Laid → c ∈ a.children → b.Laid → b.span.Within c.span → R a b)
    (behind : ∀ a b : Node, a.Laid → b.Laid → a.Before b → R a b)
    (laid : ∀ k ∈ n.preorder, k.Laid) : n.preorder.Pairwise R := by
  induction n using children_induction with
  | step n ih =>
    have own := laid n (mem_preorder_iff.mpr (.inl rfl))
    have inner {c : Node} (child : c ∈ n.children) : ∀ k ∈ c.preorder, k.Laid := fun k under =>
      laid k (mem_preorder_iff.mpr (.inr ⟨c, child, under⟩))
    rw [preorder_eq_cons, List.pairwise_cons]
    constructor
    · intro b inside
      obtain ⟨c, child, under⟩ := List.mem_flatMap.mp inside
      exact below n c b own child (inner child b under) (within_of_mem_preorder (inner child) under)
    · refine pairwise_forest_of_each behind own.apart (fun k inside => ?_)
        fun c child => ih c child (inner child)
      obtain ⟨c, child, under⟩ := List.mem_flatMap.mp inside
      exact inner child k under

private theorem pairwise_forest
    (below : ∀ a c b : Node, a.Laid → c ∈ a.children → b.Laid → b.span.Within c.span → R a b)
    (behind : ∀ a b : Node, a.Laid → b.Laid → a.Before b → R a b)
    (apart : ns.Pairwise Before) (laid : ∀ k ∈ ns.flatMap preorder, k.Laid) :
    (ns.flatMap preorder).Pairwise R :=
  pairwise_forest_of_each behind apart laid fun k member => pairwise_preorder below behind
    fun j inside => laid j (List.mem_flatMap.mpr ⟨k, member, inside⟩)

end Pairwise

theorem forest_rising (apart : ns.Pairwise Before) (laid : ∀ k ∈ ns.flatMap preorder, k.Laid) :
    (ns.flatMap preorder).Pairwise fun a b => a.span.start ≤ b.span.start := by
  refine pairwise_forest (fun a c b own child _ within => ?_) (fun a b own _ before => ?_) apart laid
  · exact Nat.le_trans (own.within c child).1 within.1
  · exact Nat.le_trans (Nat.le_of_lt own.room) before

theorem preorder_rising (laid : ∀ k ∈ n.preorder, k.Laid) :
    n.preorder.Pairwise fun a b => a.span.start ≤ b.span.start := by
  have single : [n].flatMap preorder = n.preorder := List.flatMap_singleton preorder n
  rw [← single]
  exact forest_rising (List.pairwise_singleton Before n) (by rwa [single])

/-- No two names, calls or member accesses have one range. -/
theorem nodup_ranges {α : Type} {pick : Node → Option α} {range : α → Span}
    (marks : ∀ k a, pick k = some a → k.isMark = true ∧ range a = k.span)
    (apart : ns.Pairwise Before) (laid : ∀ k ∈ ns.flatMap preorder, k.Laid) :
    (((ns.flatMap preorder).filterMap pick).map range).Nodup := by
  have distinct : (ns.flatMap preorder).Pairwise fun a b =>
      a.isMark = true → a.span.stop ≠ b.span.stop := by
    refine pairwise_forest (fun a c b own child _ within mark => ?_)
      (fun a b _ own before _ => ?_) apart laid
    · have last := own.ends mark c child
      have inner := within.2
      omega
    · have room := own.room
      have order : a.span.stop ≤ b.span.start := before
      omega
  rw [List.Nodup, List.pairwise_map, List.pairwise_filterMap]
  refine distinct.imp fun {a b} differ x picked y picked' same => ?_
  obtain ⟨mark, at_x⟩ := marks a x picked
  obtain ⟨-, at_y⟩ := marks b y picked'
  refine differ mark ?_
  rw [← at_x, ← at_y, same]

end Node

end Lockstep
