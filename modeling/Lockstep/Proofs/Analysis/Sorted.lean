import Lockstep.Analysis
import Mathlib.Data.List.Basic
/-!
The order in which findings come out: by where they start, and those that start together as they
were made. There is only one such order of the same findings, so leaving some of them out before
sorting or behind it makes no difference.
-/

set_option autoImplicit false
set_option relaxedAutoImplicit false

namespace Lockstep

private theorem mem_iff_of_filter_start {fs gs : List Finding}
    (same : ∀ n, fs.filter (fun f => f.span.start = n) = gs.filter (fun f => f.span.start = n))
    (f : Finding) : f ∈ fs ↔ f ∈ gs := by
  have both := congrArg (f ∈ ·) (same f.span.start)
  simpa [List.mem_filter] using both

private theorem eq_of_rising {fs gs : List Finding}
    (rising : fs.Pairwise fun f g => f.span.start ≤ g.span.start)
    (rising' : gs.Pairwise fun f g => f.span.start ≤ g.span.start)
    (same : ∀ n, fs.filter (fun f => f.span.start = n) = gs.filter (fun f => f.span.start = n)) :
    fs = gs := by
  have member := mem_iff_of_filter_start same
  induction fs generalizing gs with
  | nil =>
    symm
    rw [List.eq_nil_iff_forall_not_mem]
    intro g inside
    exact List.not_mem_nil ((member g).mpr inside)
  | cons f fs ih =>
    obtain ⟨first, rest⟩ := List.pairwise_cons.mp rising
    cases gs with
    | nil => exact absurd ((member f).mp List.mem_cons_self) List.not_mem_nil
    | cons g gs =>
      obtain ⟨first', rest'⟩ := List.pairwise_cons.mp rising'
      -- Each of the two heads is somewhere in the other row, so neither starts before the other.
      have above : f.span.start ≤ g.span.start := by
        rcases List.mem_cons.mp ((member g).mpr List.mem_cons_self) with rfl | later
        · exact Nat.le_refl _
        · exact first g later
      have below : g.span.start ≤ f.span.start := by
        rcases List.mem_cons.mp ((member f).mp List.mem_cons_self) with rfl | later
        · exact Nat.le_refl _
        · exact first' f later
      have together : g.span.start = f.span.start := Nat.le_antisymm below above
      have heads := same f.span.start
      rw [List.filter_cons_of_pos (by simp), List.filter_cons_of_pos (by simp [together])] at heads
      obtain ⟨rfl, -⟩ := List.cons.inj heads
      have tails (n : Nat) : fs.filter (fun f => f.span.start = n) =
          gs.filter (fun f => f.span.start = n) := by
        have whole := same n
        by_cases here : f.span.start = n
        · rw [List.filter_cons_of_pos (by simp [here]),
            List.filter_cons_of_pos (by simp [here])] at whole
          exact (List.cons.inj whole).2
        · rwa [List.filter_cons_of_neg (by simp [here]),
            List.filter_cons_of_neg (by simp [here])] at whole
      rw [ih rest rest' tails (mem_iff_of_filter_start tails)]

private def startsBy (f g : Finding) : Bool := f.span.start ≤ g.span.start

private theorem startsBy_trans (f g h : Finding) (first : startsBy f g = true)
    (second : startsBy g h = true) : startsBy f h = true := by
  simp only [startsBy, decide_eq_true_eq] at first second ⊢
  omega

private theorem startsBy_total (f g : Finding) : (startsBy f g || startsBy g f) = true := by
  simp only [startsBy, Bool.or_eq_true, decide_eq_true_eq]
  omega

namespace Analysis

variable (a : Analysis)

theorem sortedFindings_perm : a.sortedFindings.Perm a.findings :=
  List.mergeSort_perm _ _

theorem sortedFindings_rising :
    a.sortedFindings.Pairwise fun f g => f.span.start ≤ g.span.start := by
  have sorted : (a.findings.mergeSort startsBy).Pairwise fun f g => startsBy f g = true :=
    List.pairwise_mergeSort startsBy_trans startsBy_total a.findings
  exact sorted.imp of_decide_eq_true

theorem filter_start_sortedFindings (n : Nat) :
    a.sortedFindings.filter (fun f => f.span.start = n) =
      a.findings.filter (fun f => f.span.start = n) := by
  have level : (a.findings.filter fun f => f.span.start = n).Pairwise
      fun f g => startsBy f g = true := by
    refine List.pairwise_of_forall_mem_list fun f member g member' => ?_
    have here := of_decide_eq_true (List.mem_filter.mp member).2
    have there := of_decide_eq_true (List.mem_filter.mp member').2
    simp [startsBy, here, there]
  have kept : (a.findings.filter fun f => f.span.start = n).Sublist a.sortedFindings :=
    List.sublist_mergeSort startsBy_trans startsBy_total level List.filter_sublist
  have within := kept.filter fun f => decide (f.span.start = n)
  rw [List.filter_filter] at within
  simp only [Bool.and_self] at within
  have lengths := (a.sortedFindings_perm.filter fun f => decide (f.span.start = n)).length_eq
  exact (within.eq_of_length lengths.symm).symm

theorem sortedFindings_of_rising
    (rising : a.findings.Pairwise fun f g => f.span.start ≤ g.span.start) :
    a.sortedFindings = a.findings :=
  eq_of_rising a.sortedFindings_rising rising a.filter_start_sortedFindings

/-- Leaving findings out changes nothing in the order of the others. -/
theorem sortedFindings_of_filter {b : Analysis} {keep : Finding → Bool}
    (fewer : b.findings = a.findings.filter keep) :
    b.sortedFindings = a.sortedFindings.filter keep := by
  refine eq_of_rising b.sortedFindings_rising (a.sortedFindings_rising.filter keep) fun n => ?_
  rw [filter_start_sortedFindings, fewer, List.filter_filter, List.filter_filter]
  have swapped := congrArg (List.filter keep) (a.filter_start_sortedFindings n)
  rw [List.filter_filter, List.filter_filter] at swapped
  simpa only [Bool.and_comm] using swapped.symm

end Analysis

end Lockstep
