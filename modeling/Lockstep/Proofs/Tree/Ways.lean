import Lockstep.Proofs.Tree.Preorder
import Mathlib.Data.List.Basic
/-!
Ways into a tree. A way says which of the nodes directly inside to take, time after time, and so
tells apart nodes that look alike. The preorder lists the nodes at the end of all ways, the way to
a node before the ways through it.
-/

set_option autoImplicit false
set_option relaxedAutoImplicit false

namespace Lockstep

/-- The way from a node down to one inside it: which of the nodes directly inside to take. -/
abbrev Way := List Nat

namespace Node

def isSwitch : Node → Bool
  | stmt s => s.isSwitch
  | expr _ => false

def at? (n : Node) : Way → Option Node
  | [] => some n
  | i :: way => n.children[i]?.bind fun c => c.at? way

/-- The ways to all nodes inside, each before those that go on from it. -/
def ways (n : Node) : List Way :=
  [] :: n.children.attach.zipIdx.flatMap fun c => (ways c.1.1).map (c.2 :: ·)
termination_by n.preorder.length
decreasing_by exact length_preorder_lt c.1.2

theorem ways_eq_cons (n : Node) :
    n.ways = [] :: n.children.zipIdx.flatMap fun c => c.1.ways.map (c.2 :: ·) := by
  have plain : n.children.zipIdx =
      n.children.attach.zipIdx.map fun c => ((c.1.1, c.2) : Node × Nat) := by
    calc n.children.zipIdx = (n.children.attach.map Subtype.val).zipIdx := by
          rw [List.attach_map_subtype_val]
      _ = n.children.attach.zipIdx.map fun c => ((c.1.1, c.2) : Node × Nat) := by
          rw [List.zipIdx_map]
          rfl
  rw [ways, plain, List.flatMap_map]

theorem at?_cons {n c : Node} {i : Nat} (child : n.children[i]? = some c) (w : Way) :
    n.at? (i :: w) = c.at? w := by
  rw [at?, child, Option.bind_some]

theorem mem_ways_iff {n : Node} {w : Way} : w ∈ n.ways ↔ (n.at? w).isSome = true := by
  induction w generalizing n with
  | nil =>
    rw [ways_eq_cons]
    simp [at?]
  | cons i w ih =>
    rw [ways_eq_cons]
    simp only [List.mem_cons, reduceCtorEq, false_or, List.mem_flatMap, List.mem_map,
      List.cons.injEq]
    constructor
    · rintro ⟨⟨c, j⟩, listed, v, inside, rfl, rfl⟩
      have child := List.mem_zipIdx_iff_getElem?.mp listed
      rw [at?_cons child]
      exact ih.mp inside
    · intro leads
      cases child : n.children[i]? with
      | none => simp [at?, child] at leads
      | some c =>
        rw [at?_cons child] at leads
        exact ⟨(c, i), List.mem_zipIdx_iff_getElem?.mpr child, w, ih.mpr leads, rfl, rfl⟩

theorem map_tail_ways {β : Type} (n : Node) (tell : Way → Option Node → β) :
    n.ways.tail.map (fun w => tell w (n.at? w)) = n.children.zipIdx.flatMap fun c =>
      c.1.ways.map fun w => tell (c.2 :: w) (c.1.at? w) := by
  rw [ways_eq_cons, List.tail_cons, List.map_flatMap]
  refine List.flatMap_congr fun c listed => ?_
  have child := List.mem_zipIdx_iff_getElem?.mp listed
  rw [List.map_map]
  refine List.map_congr_left fun w _ => ?_
  rw [Function.comp_apply, at?_cons child]

/-- The preorder lists the nodes at the end of the ways, in their order. -/
theorem map_at?_ways (n : Node) : n.ways.map n.at? = n.preorder.map some := by
  induction n using children_induction with
  | step n ih =>
    have inside : n.ways.tail.map n.at? = (n.children.flatMap preorder).map some := by
      calc n.ways.tail.map n.at? = n.children.zipIdx.flatMap fun c => c.1.ways.map c.1.at? :=
            n.map_tail_ways fun _ m => m
        _ = n.children.zipIdx.flatMap fun c => c.1.preorder.map some :=
            List.flatMap_congr fun c listed => ih c.1 (List.fst_mem_of_mem_zipIdx listed)
        _ = (n.children.flatMap preorder).map some := by
            rw [List.map_flatMap]
            conv_rhs => rw [← List.zipIdx_map_fst 0 n.children, List.flatMap_map]
    rw [preorder_eq_cons, List.map_cons, ← inside, ways_eq_cons, List.map_cons, List.tail_cons]
    rfl

end Node

end Lockstep
