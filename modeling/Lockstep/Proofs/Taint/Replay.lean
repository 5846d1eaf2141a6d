import Lockstep.Proofs.Taint.Provenance
/-!
What happens when the same values are received once more. Records stay as they are; a new one is
made exactly if some declaration without a record received a value that refers to one with a
record, which can only be because the record was made later in the same row.
-/

set_option autoImplicit false
set_option relaxedAutoImplicit false

namespace Lockstep

namespace Context

variable (x : Context)

/-- The store after all this has been received, in this order. -/
def absorb (store : TaintStore) (received : List Receipt) : TaintStore :=
  received.foldl (fun store r => x.propagate store r.key r.value r.span) store

private theorem absorb_cons (store : TaintStore) (r : Receipt) (received : List Receipt) :
    x.absorb store (r :: received) =
      x.absorb (x.propagate store r.key r.value r.span) received := rfl

/-- Some declaration without a record received a value that refers to one with a record. -/
def MissedCopy (store : TaintStore) (received : List Receipt) : Prop :=
  ∃ r ∈ received, store.contains r.key = false ∧
    ∃ k, store.contains k = true ∧ x.RefersTo r.value k

variable {x} {store : TaintStore} {received : List Receipt}

private theorem prefix_records_propagate (k : Key) (value : Expr) (span : Span) :
    store.records <+: (x.propagate store k value span).records := by
  rcases x.propagate_cases store k value span with same | ⟨p, unknown, -, added⟩
  · simp only [same, List.prefix_rfl]
  · rw [added, TaintStore.records_record p unknown]
    exact List.prefix_append _ _

private theorem prefix_records_absorb : store.records <+: (x.absorb store received).records := by
  induction received generalizing store with
  | nil => exact List.prefix_rfl
  | cons r received ih =>
    rw [absorb_cons]
    exact (prefix_records_propagate r.key r.value r.span).trans ih

private theorem get?_absorb {k : Key} {p : Provenance} (recorded : store.get? k = some p) :
    (x.absorb store received).get? k = some p := by
  have grows : store.records <+: (x.absorb store received).records := prefix_records_absorb
  obtain ⟨more, records⟩ := grows
  have lookup : store.records.lookup k = some p := recorded
  rw [TaintStore.get?, ← records, List.lookup_append, lookup]
  rfl

private theorem contains_absorb {k : Key} (recorded : store.contains k = true) :
    (x.absorb store received).contains k = true := by
  obtain ⟨p, known⟩ := Option.isSome_iff_exists.mp recorded
  rw [TaintStore.contains, get?_absorb known]
  rfl

private theorem dependence_isSome_of_contains {store' : TaintStore} {value : Expr}
    (more : ∀ k, store.contains k = true → store'.contains k = true)
    (depends : (x.dependence store value).isSome = true) :
    (x.dependence store' value).isSome = true := by
  rw [dependence_isSome_iff] at depends ⊢
  rcases depends with identity | ⟨k, recorded, refers⟩
  · exact .inl identity
  · exact .inr ⟨k, more k recorded, refers⟩

private theorem contains_absorb_of_dependence {r : Receipt} (member : r ∈ received)
    (depends : (x.dependence store r.value).isSome = true) :
    (x.absorb store received).contains r.key = true := by
  induction received generalizing store with
  | nil => cases member
  | cons first received ih =>
    rw [absorb_cons]
    rcases List.mem_cons.mp member with rfl | later
    · apply contains_absorb
      rw [contains_propagate]
      exact .inr ⟨rfl, depends⟩
    · refine ih later (dependence_isSome_of_contains (fun k recorded => ?_) depends)
      rw [contains_propagate]
      exact .inl recorded

private theorem absorb_eq_self (settled : ∀ r ∈ received, store.contains r.key = false →
    (x.dependence store r.value).isSome = false) : x.absorb store received = store := by
  induction received with
  | nil => rfl
  | cons r received ih =>
    obtain ⟨first, others⟩ := List.forall_mem_cons.mp settled
    have same : x.propagate store r.key r.value r.span = store := by
      cases known : store.contains r.key with
      | true => rw [propagate, influx, if_pos known]
      | false =>
        have silent := first known
        rw [Option.isSome_eq_false_iff, Option.isNone_iff_eq_none] at silent
        rw [propagate, influx, silent, ite_self]
    rw [absorb_cons, same]
    exact ih others

private theorem contains_of_callsIdentity {r : Receipt} (member : r ∈ received)
    (identity : x.CallsIdentity r.value) : (x.absorb {} received).contains r.key = true :=
  contains_absorb_of_dependence member ((x.dependence_isSome_iff {} r.value).mpr (.inl identity))

/-- Receiving the same values once more changes no record. It adds none, in whatever order the
records are looked at, exactly if no copy was missed the first time. -/
theorem replay_adds_nothing_iff (x : Context) (received : List Receipt) :
    let once := x.absorb {} received
    let twice := x.absorb once received
    (once.records <+: twice.records ∧ ∀ k p, once.get? k = some p → twice.get? k = some p) ∧
    (twice = once ↔ ¬ x.MissedCopy once received) ∧
    ((∀ k, twice.get? k = once.get? k) ↔ ¬ x.MissedCopy once received) := by
  intro once twice
  have missed (alike : ∀ k, twice.get? k = once.get? k) : ¬ x.MissedCopy once received := by
    rintro ⟨r, member, unknown, k, recorded, refers⟩
    have depends : (x.dependence once r.value).isSome = true :=
      (x.dependence_isSome_iff once r.value).mpr (.inr ⟨k, recorded, refers⟩)
    have late : twice.contains r.key = true := contains_absorb_of_dependence member depends
    rw [TaintStore.contains, alike r.key] at late
    rw [TaintStore.contains, late] at unknown
    cases unknown
  have fixed (none : ¬ x.MissedCopy once received) : twice = once := by
    refine absorb_eq_self fun r member unknown => ?_
    rw [Bool.eq_false_iff]
    intro depends
    rcases (x.dependence_isSome_iff once r.value).mp depends with identity | ⟨k, recorded, refers⟩
    · have known : once.contains r.key = true := contains_of_callsIdentity member identity
      rw [known] at unknown
      cases unknown
    · exact none ⟨r, member, unknown, k, recorded, refers⟩
  refine ⟨⟨prefix_records_absorb, fun k p recorded => get?_absorb recorded⟩,
    ⟨fun same => missed fun k => by rw [same], fixed⟩, missed, fun none k => by rw [fixed none]⟩

-- `u = t; t = get_local_id();` taints only `t`, and once more also `u`.
example :
    let x : Context := ⟨{ varRefs := [(⟨4, 5⟩, 0)] }, {}⟩
    let received : List Receipt :=
      [⟨.var 1, .name ⟨4, 5⟩ "t", ⟨0, 5⟩⟩,
        ⟨.var 0, .call ⟨11, 25⟩ (.name ⟨11, 23⟩ "get_local_id") [], ⟨7, 25⟩⟩]
    (x.absorb {} received).contains (.var 1) = false ∧
      (x.absorb (x.absorb {} received) received).contains (.var 1) = true := by
  decide

end Context

end Lockstep
