import Lockstep.Proofs.Taint.Visible
/-!
Questions about an expression as a search in a row. `visiblePreorder` lists the parts that are looked
at, an expression before its operands, and the recursive questions find what a look along this row
finds first.
-/

set_option autoImplicit false
set_option relaxedAutoImplicit false

namespace Lockstep

/-- The element passes and none before it in the row does. -/
def FirstOf {α : Type} (passes : α → Prop) (row : List α) (a : α) : Prop :=
  ∃ before after, row = before ++ a :: after ∧ passes a ∧ ∀ b ∈ before, ¬ passes b

private theorem findSome?_eq_some_iff_firstOf {α β : Type} {ask : α → Option β} {row : List α}
    {b : β} :
    row.findSome? ask = some b ↔
      ∃ a, FirstOf (fun a => (ask a).isSome = true) row a ∧ ask a = some b := by
  rw [List.findSome?_eq_some_iff]
  constructor
  · rintro ⟨before, a, after, split, answer, silent⟩
    refine ⟨a, ⟨before, after, split, by simp [answer], ?_⟩, answer⟩
    intro c earlier
    simp [silent c earlier]
  · rintro ⟨a, ⟨before, after, split, -, silent⟩, answer⟩
    refine ⟨before, a, after, split, answer, ?_⟩
    intro c earlier
    exact Option.not_isSome_iff_eq_none.mp (silent c earlier)

namespace Expr

mutual

/-- The expression and all below it, each before its operands; under `exclude` the index of every
indexed access is left out with all that stands in it. -/
def visiblePreorder (policy : IndexPolicy) : Expr → List Expr
  | e@(int _ _) | e@(float _ _) | e@(char _) | e@(str _ _) | e@(name _ _) | e@(sizeofType _ _) =>
    [e]
  | e@(call _ callee args) =>
    e :: (visiblePreorder policy callee ++ visiblePreorderAll policy args)
  | e@(member _ base _ _) => e :: visiblePreorder policy base
  | e@(index _ base sub) =>
    e :: (visiblePreorder policy base ++ if policy = .exclude then [] else visiblePreorder policy sub)
  | e@(unary _ _ operand) | e@(post _ _ operand) | e@(cast _ _ operand) | e@(sizeofExpr _ operand) =>
    e :: visiblePreorder policy operand
  | e@(binary _ _ lhs rhs) => e :: (visiblePreorder policy lhs ++ visiblePreorder policy rhs)
  | e@(assign _ _ target value) =>
    e :: (visiblePreorder policy target ++ visiblePreorder policy value)
  | e@(conditional _ cond thenExpr elseExpr) =>
    e :: (visiblePreorder policy cond ++
      (visiblePreorder policy thenExpr ++ visiblePreorder policy elseExpr))
  | e@(initList _ items) => e :: visiblePreorderAll policy items

def visiblePreorderAll (policy : IndexPolicy) : List Expr → List Expr
  | [] => []
  | e :: es => visiblePreorder policy e ++ visiblePreorderAll policy es

end

private theorem visiblePreorderAll_eq_flatMap (policy : IndexPolicy) (es : List Expr) :
    visiblePreorderAll policy es = es.flatMap (visiblePreorder policy) := by
  induction es with
  | nil => rfl
  | cons e es ih => simp [visiblePreorderAll, ih]

private theorem visiblePreorder_eq_cons (policy : IndexPolicy) (e : Expr) :
    e.visiblePreorder policy =
      e :: (e.visibleChildren policy).flatMap (visiblePreorder policy) := by
  cases e with
  | index span base sub => cases policy <;> simp [visiblePreorder, visibleChildren]
  | _ => simp [visiblePreorder, visibleChildren, children, visiblePreorderAll_eq_flatMap]

private theorem visiblePreorder_propagate (e : Expr) :
    e.visiblePreorder .propagate = e.preorder := by
  induction e using children_induction with
  | step e ih =>
    have all : e.visibleChildren .propagate = e.children := by cases e <;> rfl
    rw [visiblePreorder_eq_cons, preorder_eq_cons, all, List.flatMap_def, List.flatMap_def,
      List.map_congr_left ih]

variable {β : Type}

private theorem firstVisible_eq_findSome? (policy : IndexPolicy) (ask : Expr → Option β)
    (e : Expr) :
    e.firstVisible policy ask = (e.visiblePreorder policy).findSome? ask := by
  induction e using children_induction with
  | step e ih =>
    have among (es : List Expr) (below : ∀ c ∈ es, c ∈ e.children) :
        firstVisibleAmong policy ask es =
          (es.flatMap (visiblePreorder policy)).findSome? ask := by
      induction es with
      | nil => rfl
      | cons c es others =>
        rw [List.forall_mem_cons] at below
        rw [List.flatMap_cons, List.findSome?_append, ← ih c below.1, ← others below.2,
          firstVisibleAmong, Option.orElse_eq_orElse, Option.orElse_eq_or]
    rw [firstVisible_eq, visiblePreorder_eq_cons, List.findSome?_cons,
      among _ (visibleChildren_subset policy e)]
    cases ask e <;> rfl

end Expr

namespace Context

variable (x : Context)

/-- The expression itself calls an identity function. -/
def IsIdentityCall (v : Expr) : Prop := ∃ name, x.callTarget v = some (.identity name)

/-- The expression itself denotes a declaration on record. -/
def IsTainted (store : TaintStore) (v : Expr) : Prop :=
  ∃ k, x.keyOf v = some k ∧ store.contains k = true

private theorem taintedRef_eq_some_iff (store : TaintStore) (v : Expr) (r : TaintedRef) :
    x.taintedRef store v = some r ↔ ∃ k, x.keyOf v = some k ∧ store.contains k = true ∧
      r = ⟨k, x.nameOf k, v.span⟩ := by
  unfold taintedRef
  cases x.keyOf v with
  | none => simp
  | some k =>
    by_cases recorded : store.contains k = true
    · simp only [recorded, if_true, Option.some.injEq, exists_eq_left', true_and]
      exact eq_comm
    · simp [recorded]

private theorem isSome_taintedRef_iff (store : TaintStore) (v : Expr) :
    (x.taintedRef store v).isSome = true ↔ x.IsTainted store v := by
  simp only [Option.isSome_iff_exists, taintedRef_eq_some_iff, IsTainted]
  constructor
  · rintro ⟨r, k, key, recorded, -⟩
    exact ⟨k, key, recorded⟩
  · rintro ⟨k, key, recorded⟩
    exact ⟨_, k, key, recorded, rfl⟩

private theorem findIdentityCall_eq_some_iff (e call : Expr) : x.findIdentityCall e = some call ↔
    FirstOf x.IsIdentityCall (e.visiblePreorder x.settings.indexPolicy) call := by
  have found (v : Expr) :
      (if (x.identityCallee v).isSome then some v else none).isSome = true ↔ x.IsIdentityCall v := by
    rw [IsIdentityCall, ← isSome_identityCallee_iff]
    split <;> simp_all
  rw [findIdentityCall, Expr.firstVisible_eq_findSome?, findSome?_eq_some_iff_firstOf]
  simp only [found]
  constructor
  · rintro ⟨v, first, answer⟩
    split at answer
    · cases answer
      exact first
    · cases answer
  · intro first
    obtain ⟨before, after, split, calls, earlier⟩ := first
    refine ⟨call, ⟨before, after, split, calls, earlier⟩, if_pos ?_⟩
    exact isSome_identityCallee_iff.mpr calls

private theorem scan_eq_some_iff (store : TaintStore) (e : Expr) (r : TaintedRef) :
    x.scan store e = some r ↔
      ∃ v k, FirstOf (x.IsTainted store) (e.visiblePreorder x.settings.indexPolicy) v ∧
        x.keyOf v = some k ∧ r = ⟨k, x.nameOf k, v.span⟩ := by
  rw [scan, Expr.firstVisible_eq_findSome?, findSome?_eq_some_iff_firstOf]
  simp only [isSome_taintedRef_iff, taintedRef_eq_some_iff]
  constructor
  · rintro ⟨v, first, k, key, -, rfl⟩
    exact ⟨v, k, first, key, rfl⟩
  · rintro ⟨v, k, first, key, rfl⟩
    obtain ⟨-, -, -, ⟨j, key', recorded⟩, -⟩ := id first
    cases key.symm.trans key'
    exact ⟨v, first, k, key, recorded, rfl⟩

private theorem findIdentityCall_eq_none_iff (e : Expr) : x.findIdentityCall e = none ↔
    ∀ v ∈ e.visiblePreorder x.settings.indexPolicy, ¬ x.IsIdentityCall v := by
  rw [findIdentityCall, Expr.firstVisible_eq_findSome?, List.findSome?_eq_none_iff]
  refine forall₂_congr fun v _ => ?_
  rw [IsIdentityCall, ← isSome_identityCallee_iff]
  split <;> simp_all

private theorem scan_eq_none_iff (store : TaintStore) (e : Expr) : x.scan store e = none ↔
    ∀ v ∈ e.visiblePreorder x.settings.indexPolicy, ¬ x.IsTainted store v := by
  rw [scan, Expr.firstVisible_eq_findSome?, List.findSome?_eq_none_iff]
  refine forall₂_congr fun v _ => ?_
  rw [← isSome_taintedRef_iff, Option.not_isSome_iff_eq_none]

/-- The questions about an expression are answered by a look along its visible preorder, which is
the whole preorder unless indices are hidden. The identity call that is found is the first one in
the row, the reference that is found is that of the first part whose declaration is on record, with
the place of that part and the name of the declaration; and a value depends on nothing exactly if
the row holds neither. -/
theorem questions_search_preorder (store : TaintStore) (e : Expr) :
    (x.settings.indexPolicy = .propagate → e.visiblePreorder x.settings.indexPolicy = e.preorder) ∧
    (∀ call, x.findIdentityCall e = some call ↔
      FirstOf x.IsIdentityCall (e.visiblePreorder x.settings.indexPolicy) call) ∧
    (x.findIdentityCall e = none ↔
      ∀ v ∈ e.visiblePreorder x.settings.indexPolicy, ¬ x.IsIdentityCall v) ∧
    (∀ r, x.scan store e = some r ↔
      ∃ v k, FirstOf (x.IsTainted store) (e.visiblePreorder x.settings.indexPolicy) v ∧
        x.keyOf v = some k ∧ r = ⟨k, x.nameOf k, v.span⟩) ∧
    (x.scan store e = none ↔
      ∀ v ∈ e.visiblePreorder x.settings.indexPolicy, ¬ x.IsTainted store v) ∧
    (x.dependence store e = none ↔
      ∀ v ∈ e.visiblePreorder x.settings.indexPolicy, ¬ x.IsIdentityCall v ∧ ¬ x.IsTainted store v) := by
  refine ⟨?_, x.findIdentityCall_eq_some_iff e, x.findIdentityCall_eq_none_iff e,
    x.scan_eq_some_iff store e, x.scan_eq_none_iff store e, ?_⟩
  · intro shown
    rw [shown, Expr.visiblePreorder_propagate]
  · simp only [forall_and, ← findIdentityCall_eq_none_iff, ← scan_eq_none_iff]
    unfold dependence
    cases x.findIdentityCall e <;> simp

end Context

end Lockstep
