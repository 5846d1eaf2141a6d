import Lockstep.Proofs.Tree.Preorder
import Lockstep.Taint.Scan
/-!
Which parts of an expression a question about it looks at. The search for the first answer finds
one exactly if some visible part gives one, so a value depends on an identity exactly if a visible
part calls an identity function or refers to a declaration on record.
-/

set_option autoImplicit false
set_option relaxedAutoImplicit false

namespace Lockstep

namespace Expr

/-- The operands that are looked at; under `exclude` the index of an indexed access is not. -/
def visibleChildren (policy : IndexPolicy) : Expr → List Expr
  | index _ base sub => if policy = .exclude then [base] else [base, sub]
  | e => e.children

/-- `Visible policy v e`: the expression `v` is `e` or a part of it that is looked at. -/
inductive Visible (policy : IndexPolicy) (v : Expr) : Expr → Prop
  | here : Visible policy v v
  | within {c e : Expr} :
      c ∈ e.visibleChildren policy → Visible policy v c → Visible policy v e

theorem visibleChildren_subset (policy : IndexPolicy) (e : Expr) :
    e.visibleChildren policy ⊆ e.children := by
  cases e with
  | index span base sub => cases policy <;> simp [visibleChildren, children]
  | _ => exact List.Subset.refl _

private theorem visible_iff {policy : IndexPolicy} {v e : Expr} :
    Visible policy v e ↔ v = e ∨ ∃ c ∈ e.visibleChildren policy, Visible policy v c := by
  constructor
  · intro visible
    cases visible with
    | here => exact .inl rfl
    | within child inside => exact .inr ⟨_, child, inside⟩
  · intro part
    rcases part with rfl | ⟨c, child, inside⟩
    · exact .here
    · exact .within child inside

variable {β : Type}

theorem firstVisible_eq (policy : IndexPolicy) (ask : Expr → Option β) (e : Expr) :
    e.firstVisible policy ask =
      (ask e <|> firstVisibleAmong policy ask (e.visibleChildren policy)) := by
  cases e with
  | index span base sub =>
    cases policy <;> simp [firstVisible, visibleChildren, firstVisibleAmong]
  | _ => simp [firstVisible, visibleChildren, children, firstVisibleAmong]

private theorem firstVisibleAmong_isSome_iff (policy : IndexPolicy) (ask : Expr → Option β)
    (es : List Expr) :
    (firstVisibleAmong policy ask es).isSome = true ↔
      ∃ e ∈ es, (e.firstVisible policy ask).isSome = true := by
  induction es with
  | nil => simp [firstVisibleAmong]
  | cons e es ih => simp [firstVisibleAmong, ih]

private theorem firstVisible_isSome_iff (policy : IndexPolicy) (ask : Expr → Option β) (e : Expr) :
    (e.firstVisible policy ask).isSome = true ↔
      ∃ v, Visible policy v e ∧ (ask v).isSome = true := by
  induction e using children_induction with
  | step e ih =>
    have below (c : Expr) (child : c ∈ e.visibleChildren policy) :=
      ih c (visibleChildren_subset policy e child)
    rw [firstVisible_eq]
    simp only [Option.orElse_eq_orElse, Option.orElse_eq_or, Option.isSome_or, Bool.or_eq_true,
      firstVisibleAmong_isSome_iff]
    constructor
    · intro found
      rcases found with answer | ⟨c, child, answer⟩
      · exact ⟨e, .here, answer⟩
      · obtain ⟨v, visible, answer⟩ := (below c child).mp answer
        exact ⟨v, .within child visible, answer⟩
    · rintro ⟨v, visible, answer⟩
      rcases visible_iff.mp visible with rfl | ⟨c, child, visible⟩
      · exact .inl answer
      · exact .inr ⟨c, child, (below c child).mpr ⟨v, visible, answer⟩⟩

private theorem exists_of_firstVisibleAmong {policy : IndexPolicy} {ask : Expr → Option β}
    {es : List Expr} {b : β} (answer : firstVisibleAmong policy ask es = some b) :
    ∃ e ∈ es, e.firstVisible policy ask = some b := by
  induction es with
  | nil => cases answer
  | cons e es ih =>
    simp only [firstVisibleAmong, Option.orElse_eq_orElse, Option.orElse_eq_or,
      Option.or_eq_some_iff] at answer
    rcases answer with here | ⟨-, later⟩
    · exact ⟨e, List.mem_cons_self, here⟩
    · obtain ⟨e', member, found⟩ := ih later
      exact ⟨e', List.mem_cons_of_mem e member, found⟩

theorem exists_visible_of_firstVisible {policy : IndexPolicy} {ask : Expr → Option β} {e : Expr}
    {b : β} (answer : e.firstVisible policy ask = some b) :
    ∃ v, Visible policy v e ∧ ask v = some b := by
  induction e using children_induction with
  | step e ih =>
    rw [firstVisible_eq] at answer
    simp only [Option.orElse_eq_orElse, Option.orElse_eq_or, Option.or_eq_some_iff] at answer
    rcases answer with here | ⟨-, below⟩
    · exact ⟨e, .here, here⟩
    · obtain ⟨c, child, found⟩ := exists_of_firstVisibleAmong below
      obtain ⟨v, visible, given⟩ := ih c (visibleChildren_subset policy e child) found
      exact ⟨v, .within child visible, given⟩

end Expr

namespace Context

variable (x : Context)

def CallsIdentity (value : Expr) : Prop :=
  ∃ v, Expr.Visible x.settings.indexPolicy v value ∧ (x.identityCallee v).isSome = true

def RefersTo (value : Expr) (k : Key) : Prop :=
  ∃ v, Expr.Visible x.settings.indexPolicy v value ∧ x.keyOf v = some k

/-- A value depends on an identity exactly if it asks for one or refers to a declaration on
record. -/
theorem dependence_isSome_iff (store : TaintStore) (value : Expr) :
    (x.dependence store value).isSome = true ↔
      x.CallsIdentity value ∨ ∃ k, store.contains k = true ∧ x.RefersTo value k := by
  have identity : (x.findIdentityCall value).isSome = true ↔ x.CallsIdentity value := by
    rw [findIdentityCall, Expr.firstVisible_isSome_iff, CallsIdentity]
    refine exists_congr fun v => and_congr_right fun _ => ?_
    split <;> simp_all
  have reference : (x.scan store value).isSome = true ↔
      ∃ k, store.contains k = true ∧ x.RefersTo value k := by
    rw [scan, Expr.firstVisible_isSome_iff]
    constructor
    · rintro ⟨v, visible, hit⟩
      cases key : x.keyOf v with
      | none => simp [taintedRef, key] at hit
      | some k =>
        cases recorded : store.contains k with
        | false => simp [taintedRef, key, recorded] at hit
        | true => exact ⟨k, recorded, v, visible, key⟩
    · rintro ⟨k, recorded, v, visible, key⟩
      exact ⟨v, visible, by simp [taintedRef, key, recorded]⟩
  rw [← identity, ← reference, dependence]
  cases x.findIdentityCall value with
  | none => simp
  | some call => simp

end Context

end Lockstep
