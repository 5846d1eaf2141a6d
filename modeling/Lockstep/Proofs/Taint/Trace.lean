import Lockstep.Proofs.Taint.Provenance
import Mathlib.Data.Finset.Card
import Mathlib.Logic.Function.Iterate
/-!
How far a trace goes when nothing is known about the records. Links may lead to a declaration
without a record, or run in a circle. A way that ends is told whole, since it meets no declaration
twice and so has no more entries than there are records; a way that does not end meets some
declaration again within as many steps, and is told up to one entry more than there are records.
-/

set_option autoImplicit false
set_option relaxedAutoImplicit false

namespace Lockstep

namespace TaintStore

variable (store : TaintStore)

def upstream (cursor : Option Key) : Option Key :=
  (cursor.bind store.get?).bind Provenance.copiedFrom

/-- The declaration that is reached from `k` after `n` links. -/
def reached (k : Key) (n : Nat) : Option Key := store.upstream^[n] (some k)

/-- The `n`th record on the way from `k` along the links, for as long as there is one. -/
def onWay (k : Key) (n : Nat) : Option Provenance := (store.reached k n).bind store.get?

private theorem getElem?_follow (steps : Nat) (cursor : Option Key) (i : Nat) :
    (store.follow steps cursor)[i]? =
      if i < steps then ((store.upstream^[i] cursor).bind store.get?).map Provenance.note
      else none := by
  induction steps generalizing cursor i with
  | zero => simp [follow]
  | succ steps ih =>
    have ended (i : Nat) : store.upstream^[i] none = none := Function.iterate_fixed rfl i
    cases cursor with
    | none => simp [follow, ended]
    | some k =>
      cases recorded : store.get? k with
      | none =>
        cases i with
        | zero => simp [follow, recorded]
        | succ i =>
          have stuck : store.upstream (some k) = none := by simp [upstream, recorded]
          simp [follow, recorded, Function.iterate_succ_apply, stuck, ended]
      | some p =>
        cases i with
        | zero => simp [follow, recorded, Provenance.note]
        | succ i =>
          have next : store.upstream (some k) = p.copiedFrom := by simp [upstream, recorded]
          simp [follow, recorded, Function.iterate_succ_apply, next, ih]

private theorem getElem?_trace (k : Key) (i : Nat) :
    (store.trace k)[i]? =
      if i < store.size + 1 then (store.onWay k i).map Provenance.note else none :=
  store.getElem?_follow (store.size + 1) (some k) i

variable {store} {k : Key}

private theorem onWay_eq_none_of_le {m n : Nat} (ended : store.onWay k m = none) (later : m ≤ n) :
    store.onWay k n = none := by
  induction n, later using Nat.le_induction with
  | base => exact ended
  | succ n _ ih =>
    have next : store.reached k (n + 1) = (store.onWay k n).bind Provenance.copiedFrom :=
      Function.iterate_succ_apply' store.upstream n (some k)
    rw [onWay, next, ih]
    rfl

/-- A way with more entries than there are records meets some declaration twice. -/
private theorem exists_reached_again (long : ∀ i ≤ store.size, (store.onWay k i).isSome = true) :
    ∃ i j, i < j ∧ j ≤ store.size ∧ store.reached k i = store.reached k j := by
  let recorded : Finset (Option Key) := (store.records.map fun r => some r.1).toFinset
  have few : recorded.card < (Finset.range (store.size + 1)).card := by
    have distinct := List.toFinset_card_le (store.records.map fun r => some r.1)
    rw [List.length_map] at distinct
    rw [Finset.card_range]
    exact Nat.lt_succ_of_le distinct
  have met : Set.MapsTo (store.reached k) (Finset.range (store.size + 1)) recorded := by
    intro i bound
    have low : i ≤ store.size := by simpa [Nat.lt_succ_iff] using bound
    obtain ⟨p, known⟩ := Option.isSome_iff_exists.mp (long i low)
    obtain ⟨j, here, found⟩ := Option.bind_eq_some_iff.mp known
    obtain ⟨before, after, split, -⟩ := List.lookup_eq_some_iff.mp found
    simp [recorded, here, split]
  obtain ⟨i, first, j, second, differ, same⟩ :=
    Finset.exists_ne_map_eq_of_card_lt_of_maps_to few met
  rw [Finset.mem_range] at first second
  rcases Nat.lt_or_gt_of_ne differ with less | less
  · exact ⟨i, j, less, by omega, same⟩
  · exact ⟨j, i, less, by omega, same.symm⟩

private theorem onWay_isSome_of_reached_again {i j : Nat} (less : i < j)
    (again : store.reached k i = store.reached k j)
    (recorded : ∀ m < j, (store.onWay k m).isSome = true) (n : Nat) :
    (store.onWay k n).isSome = true := by
  induction n using Nat.strongRecOn with
  | ind n ih =>
    by_cases early : n < j
    · exact recorded n early
    · have back : store.reached k n = store.reached k (n - j + i) := by
        calc store.reached k n = store.upstream^[n - j + j] (some k) := by
              rw [reached, Nat.sub_add_cancel (by omega)]
          _ = store.upstream^[n - j] (store.reached k j) := Function.iterate_add_apply _ _ _ _
          _ = store.upstream^[n - j] (store.reached k i) := by rw [again]
          _ = store.reached k (n - j + i) := (Function.iterate_add_apply _ _ _ _).symm
      rw [onWay, back]
      exact ih (n - j + i) (by omega)

private theorem exists_onWay_eq_none (ends : ∃ n, store.onWay k n = none) :
    ∃ n ≤ store.size, store.onWay k n = none := by
  by_contra endless
  have long (i : Nat) (bound : i ≤ store.size) : (store.onWay k i).isSome = true := by
    rw [Option.isSome_iff_ne_none]
    exact fun ended => endless ⟨i, bound, ended⟩
  obtain ⟨i, j, less, bound, again⟩ := exists_reached_again long
  obtain ⟨n, ended⟩ := ends
  have goesOn := onWay_isSome_of_reached_again less again (fun m low => long m (by omega)) n
  rw [ended] at goesOn
  cases goesOn

/-- A way that ends is told whole, in no more entries than there are records. One that does not end
meets a declaration again, and is told up to one entry more than there are records. -/
theorem trace_whole_or_cut (store : TaintStore) (k : Key) :
    ((∃ n, store.onWay k n = none) →
      (store.trace k).length ≤ store.size ∧
        ∀ i, (store.trace k)[i]? = (store.onWay k i).map Provenance.note) ∧
    ((∀ n, (store.onWay k n).isSome = true) →
      (store.trace k).length = store.size + 1 ∧
        (∀ i ≤ store.size, (store.trace k)[i]? = (store.onWay k i).map Provenance.note) ∧
        ∃ i j, i < j ∧ j ≤ store.size ∧ store.reached k i = store.reached k j) := by
  constructor
  · intro ends
    obtain ⟨n, bound, ended⟩ := exists_onWay_eq_none ends
    have told (i : Nat) : (store.trace k)[i]? = (store.onWay k i).map Provenance.note := by
      rw [getElem?_trace]
      split
      · rfl
      · rw [onWay_eq_none_of_le ended (by omega)]
        rfl
    have short : (store.trace k).length ≤ n := by
      rw [← List.getElem?_eq_none_iff, told, ended]
      rfl
    exact ⟨by omega, told⟩
  · intro endless
    have told (i : Nat) (bound : i ≤ store.size) :
        (store.trace k)[i]? = (store.onWay k i).map Provenance.note := by
      rw [getElem?_trace, if_pos (by omega)]
    have long : store.size < (store.trace k).length := by
      obtain ⟨p, last⟩ := Option.isSome_iff_exists.mp (endless store.size)
      have entry : (store.trace k)[store.size]? = some p.note := by
        rw [told _ (Nat.le_refl _), last]
        rfl
      exact (List.getElem?_eq_some_iff.mp entry).1
    have cut : (store.trace k).length ≤ store.size + 1 := by
      rw [← List.getElem?_eq_none_iff, getElem?_trace, if_neg (by omega)]
    exact ⟨by omega, told, exists_reached_again fun i _ => endless i⟩

/-- A variable copied from another one, which was copied from a field without a record. -/
def danglingSample : TaintStore :=
  (({} : TaintStore).record (.var 0) ⟨⟨0, 1⟩, "from a field", some (.field 0)⟩).record (.var 1)
    ⟨⟨2, 3⟩, "from a variable", some (.var 0)⟩

def circularSample : TaintStore :=
  (({} : TaintStore).record (.var 0) ⟨⟨0, 1⟩, "from a field", some (.field 0)⟩).record (.field 0)
    ⟨⟨2, 3⟩, "from a variable", some (.var 0)⟩

theorem trace_whole_or_cut_sample :
    danglingSample.onWay (.var 1) 2 = none ∧
      (danglingSample.trace (.var 1))[1]? = some ⟨⟨0, 1⟩, "from a field"⟩ ∧
      (danglingSample.trace (.var 1)).length ≤ 2 ∧
      (∀ n, (circularSample.onWay (.var 0) n).isSome = true) ∧
      (circularSample.trace (.var 0)).length = 3 := by
  have ends : danglingSample.onWay (.var 1) 2 = none := by decide
  have endless : ∀ n, (circularSample.onWay (.var 0) n).isSome = true :=
    onWay_isSome_of_reached_again (i := 0) (j := 2) (by decide) (by decide) (by decide)
  obtain ⟨short, told⟩ := (trace_whole_or_cut danglingSample (.var 1)).1 ⟨2, ends⟩
  have cut := (trace_whole_or_cut circularSample (.var 0)).2 endless
  exact ⟨ends, (told 1).trans (by decide), short, endless, cut.1⟩

end TaintStore

end Lockstep
