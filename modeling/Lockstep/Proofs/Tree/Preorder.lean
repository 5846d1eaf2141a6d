import Lockstep.Branch.Chain
/-!
Induction along the tree and the order of its nodes. A node is reached from what stands directly
inside it, a statement without branches from the statements between its braces. The parts of a chain
stand inside it, and the marks that a switch puts on its body leave the preorder as it is.
-/

set_option autoImplicit false
set_option relaxedAutoImplicit false

namespace Lockstep

namespace Expr

private theorem sizeOf_lt_of_mem_children {e c : Expr} (member : c ∈ e.children) :
    sizeOf c < sizeOf e := by
  cases e with
  | call span callee args =>
    rcases List.mem_cons.mp member with rfl | member
    · simp only [call.sizeOf_spec]
      omega
    · have smaller := List.sizeOf_lt_of_mem member
      simp only [call.sizeOf_spec]
      omega
  | initList span items =>
    have smaller := List.sizeOf_lt_of_mem (show c ∈ items from member)
    simp only [initList.sizeOf_spec]
    omega
  | _ => simp_all [children] <;> grind

/-- What passes from all operands to the expression holds of every expression. -/
theorem children_induction {P : Expr → Prop} (step : ∀ e, (∀ c ∈ e.children, P c) → P e)
    (e : Expr) : P e :=
  step e fun c _ => children_induction step c
termination_by sizeOf e
decreasing_by exact sizeOf_lt_of_mem_children ‹_›

end Expr

theorem Stmt.preorder_eq_cons (s : Stmt) :
    s.preorder = .stmt s :: s.children.flatMap Node.preorder := by
  cases s with
  | forLoop span init cond step body =>
    rcases init with - | (d | ⟨start, e⟩) <;>
      simp [preorder, children, Node.preorder, exprNodes, ForInit.toStmt, ForInit.exprs,
        List.flatMap_map]
  | _ => simp [preorder, children, Node.preorder, exprNodes, preorderAll_eq_flatMap,
      List.flatMap_map]

namespace Node

theorem preorder_eq_cons (n : Node) : n.preorder = n :: n.children.flatMap preorder := by
  cases n with
  | stmt s => exact s.preorder_eq_cons
  | expr e =>
    simp only [preorder, e.preorder_eq_cons, children, List.map_cons, List.map_flatMap,
      List.flatMap_map]

theorem mem_preorder_iff {m n : Node} :
    m ∈ n.preorder ↔ m = n ∨ ∃ c ∈ n.children, m ∈ c.preorder := by
  rw [preorder_eq_cons, List.mem_cons, List.mem_flatMap]

private theorem preorder_sublist_of_child {n c : Node} (child : c ∈ n.children) :
    c.preorder.Sublist (n.children.flatMap preorder) := by
  rw [List.flatMap_def]
  exact List.sublist_flatten_of_mem (List.mem_map_of_mem child)

theorem length_preorder_lt {n c : Node} (child : c ∈ n.children) :
    c.preorder.length < n.preorder.length := by
  have within := (preorder_sublist_of_child child).length_le
  rw [preorder_eq_cons n, List.length_cons]
  omega

/-- What passes from all nodes directly inside a node to the node holds of every node. -/
theorem children_induction {P : Node → Prop} (step : ∀ n, (∀ c ∈ n.children, P c) → P n)
    (n : Node) : P n :=
  step n fun c _ => children_induction step c
termination_by n.preorder.length
decreasing_by exact length_preorder_lt ‹_›

theorem preorder_sublist {m n : Node} (inside : m ∈ n.preorder) : m.preorder.Sublist n.preorder := by
  induction n using children_induction with
  | step n ih =>
    rcases mem_preorder_iff.mp inside with rfl | ⟨c, child, below⟩
    · exact List.Sublist.refl _
    · rw [preorder_eq_cons n]
      exact ((ih c child below).trans (preorder_sublist_of_child child)).cons n

theorem preorder_sublist_forest {m : Node} {ns : List Node} (inside : m ∈ ns.flatMap preorder) :
    m.preorder.Sublist (ns.flatMap preorder) := by
  obtain ⟨n, member, inside⟩ := List.mem_flatMap.mp inside
  rw [List.flatMap_def]
  exact (preorder_sublist inside).trans (List.sublist_flatten_of_mem (List.mem_map_of_mem member))

end Node

namespace Stmt

def isCompound : Stmt → Bool
  | compound _ _ => true
  | _ => false

def isSwitch : Stmt → Bool
  | switch _ _ _ => true
  | _ => false

def isBreak : Stmt → Bool
  | breakJump _ => true
  | _ => false

/-- Is the statement a `case` or `default` label? -/
def isLabel : Stmt → Bool
  | caseLabel _ _ | defaultLabel _ => true
  | _ => false

def isDefault : Stmt → Bool
  | defaultLabel _ => true
  | _ => false

/-- Statements are compounds of smaller ones or none at all; enough for code without branches. -/
theorem compound_induction {P : Stmt → Prop}
    (compound : ∀ span body, (∀ s ∈ body, P s) → P (.compound span body))
    (plain : ∀ s, s.isCompound = false → P s) (s : Stmt) : P s :=
  match s with
  | .compound span body => compound span body fun s _ => compound_induction compound plain s
  | .decl .. | .expr .. | .ifThen .. | .ifElse .. | .forLoop .. | .whileLoop .. | .doLoop ..
  | .switch .. | .caseLabel .. | .defaultLabel .. | .breakJump .. | .continueJump ..
  | .returnJump .. | .gotoJump .. | .label .. | .empty .. => plain _ rfl

end Stmt

namespace Node

def isBreak : Node → Bool
  | stmt s => s.isBreak
  | expr _ => false

def isLabel : Node → Bool
  | stmt s => s.isLabel
  | expr _ => false

def isDefault : Node → Bool
  | stmt s => s.isDefault
  | expr _ => false

theorem eq_defaultLabel_of_isDefault {n : Node} (isDefault : n.isDefault = true) :
    ∃ span, n = .stmt (.defaultLabel span) := by
  cases n with
  | expr e => cases isDefault
  | stmt s =>
    cases s with
    | defaultLabel span => exact ⟨span, rfl⟩
    | _ => cases isDefault

def marked (n : Node) : Mark × Node := (if n.isLabel then .label else .body, n)

end Node

private theorem exprNodes_map_marked (es : List Expr) :
    (Stmt.exprNodes es).map Node.marked = bodyNodes es := by
  simp [Stmt.exprNodes, bodyNodes, List.map_flatMap, Node.marked, Node.isLabel, Function.comp_def]

namespace Stmt

theorem chain_inside (s : Stmt) :
    (∀ l ∈ s.chain.links, .stmt l.stmt ∈ s.preorder ∧ .expr l.cond ∈ s.preorder ∧
      .stmt l.branch ∈ s.preorder) ∧ ∀ e ∈ s.chain.final, .stmt e ∈ s.preorder := by
  have self (n : Node) : n ∈ n.preorder := Node.mem_preorder_iff.mpr (.inl rfl)
  have below {s : Stmt} {c n : Node} (child : c ∈ s.children) (inside : n ∈ c.preorder) :
      n ∈ s.preorder := (Node.mem_preorder_iff (n := .stmt s)).mpr (.inr ⟨c, child, inside⟩)
  fun_induction Stmt.chain s with
  | case1 span cond t =>
    refine ⟨List.forall_mem_singleton.mpr ⟨self (.stmt _), ?_, ?_⟩, nofun⟩
    · exact below List.mem_cons_self (self _)
    · exact below (List.mem_cons_of_mem _ List.mem_cons_self) (self _)
  | case2 span cond t e ih =>
    obtain ⟨links, final⟩ := ih
    have deeper {n : Node} (inside : n ∈ e.preorder) : n ∈ (Stmt.ifElse span cond t e).preorder :=
      below (c := .stmt e) (by simp [Stmt.children]) inside
    refine ⟨List.forall_mem_cons.mpr ⟨⟨self (.stmt _), ?_, ?_⟩, fun l member => ?_⟩,
      fun f last => deeper (final f last)⟩
    · exact below List.mem_cons_self (self _)
    · exact below (List.mem_cons_of_mem _ List.mem_cons_self) (self _)
    · obtain ⟨own, cond, branch⟩ := links l member
      exact ⟨deeper own, deeper cond, deeper branch⟩
  | case3 s =>
    refine ⟨nofun, ?_⟩
    rintro _ ⟨⟩
    exact self (.stmt s)

theorem mem_preorder_of_mem_flatten (s : Stmt) :
    ∀ p ∈ s.chain.flatten.nodes, p.2 ∈ s.preorder := by
  have within {n m : Node} (inside : n ∈ s.preorder) (under : m ∈ n.preorder) : m ∈ s.preorder :=
    (Node.preorder_sublist (n := .stmt s) inside).subset under
  have segment {n : Nat} {branch : Stmt} {p : Mark × Node} (inside : .stmt branch ∈ s.preorder)
      (member : p ∈ segmentNodes n branch) : p.2 ∈ s.preorder := by
    refine within inside ?_
    unfold segmentNodes at member
    split at member
    · cases member
    next first rest preorder =>
      rw [Node.preorder, preorder]
      rcases List.mem_cons.mp member with rfl | later
      · exact List.mem_cons_self
      · obtain ⟨m, inside, rfl⟩ := List.mem_map.mp later
        exact List.mem_cons_of_mem first inside
  obtain ⟨links, final⟩ := s.chain_inside
  intro p member
  rcases List.mem_append.mp member with linked | last
  · obtain ⟨⟨l, n⟩, listed, own⟩ := List.mem_flatMap.mp linked
    obtain ⟨stmt, cond, branch⟩ := links l (List.fst_mem_of_mem_zipIdx listed)
    rcases List.mem_append.mp own with head | segmented
    · rcases List.mem_append.mp head with link | condition
      · split at link
        · cases link
        · rw [List.mem_singleton.mp link]
          exact stmt
      · obtain ⟨e, inside, rfl⟩ := List.mem_map.mp condition
        exact within cond (List.mem_map_of_mem inside)
    · exact segment branch segmented
  · obtain ⟨e, given, own⟩ := List.mem_flatMap.mp last
    exact segment (final e (Option.mem_toList.mp given)) own

mutual

/-- The marks of a switch body stand on its preorder. -/
theorem switchNodes_map_snd (nested : Bool) :
    (s : Stmt) → (switchNodes nested s).map Prod.snd = s.preorder
  | .compound _ body => by simp [switchNodes, preorder, switchNodesAll_map_snd nested body]
  | .ifThen _ _ t | .whileLoop _ _ t | .doLoop _ t _ => by
    simp [switchNodes, preorder, bodyNodes, switchNodes_map_snd nested t, Function.comp_def]
  | .ifElse _ _ t e => by
    simp [switchNodes, preorder, bodyNodes, switchNodes_map_snd nested t,
      switchNodes_map_snd nested e, Function.comp_def]
  | .forLoop _ _ _ _ body => by
    simp [switchNodes, preorder, bodyNodes, switchNodes_map_snd nested body, Function.comp_def,
      List.map_flatMap]
  | .switch _ _ body => by
    simp [switchNodes, preorder, bodyNodes, switchNodes_map_snd true body, Function.comp_def]
  | .decl .. | .expr .. | .caseLabel .. | .defaultLabel .. | .returnJump .. | .breakJump ..
  | .continueJump .. | .gotoJump .. | .label .. | .empty .. => by
    simp [switchNodes, preorder, bodyNodes, Function.comp_def]

private theorem switchNodesAll_map_snd (nested : Bool) :
    (ss : List Stmt) → (switchNodesAll nested ss).map Prod.snd = preorderAll ss
  | [] => rfl
  | s :: ss => by
    simp [switchNodesAll, preorderAll, switchNodes_map_snd nested s,
      switchNodesAll_map_snd nested ss]

end

mutual

theorem isLabel_of_mem_switchNodes (nested : Bool) :
    (s : Stmt) → ∀ p ∈ switchNodes nested s, p.1 = .label → p.2.isLabel = true
  | .compound _ body => by
    have inside := isLabel_of_mem_switchNodesAll nested body
    simpa [switchNodes] using inside
  | .ifThen _ _ t | .whileLoop _ _ t | .doLoop _ t _ => by
    have inside := isLabel_of_mem_switchNodes nested t
    simp only [switchNodes, bodyNodes]
    grind
  | .ifElse _ _ t e => by
    have first := isLabel_of_mem_switchNodes nested t
    have second := isLabel_of_mem_switchNodes nested e
    simp only [switchNodes, bodyNodes]
    grind
  | .forLoop _ _ _ _ body => by
    have inside := isLabel_of_mem_switchNodes nested body
    simp only [switchNodes, bodyNodes]
    grind
  | .switch _ _ body => by
    have inside := isLabel_of_mem_switchNodes true body
    simp only [switchNodes, bodyNodes]
    grind
  | .caseLabel .. | .defaultLabel .. => by
    simp [switchNodes, bodyNodes, Node.isLabel, isLabel]
  | .decl .. | .expr .. | .returnJump .. | .breakJump .. | .continueJump .. | .gotoJump ..
  | .label .. | .empty .. => by
    simp [switchNodes, bodyNodes]

private theorem isLabel_of_mem_switchNodesAll (nested : Bool) :
    (ss : List Stmt) → ∀ p ∈ switchNodesAll nested ss, p.1 = .label → p.2.isLabel = true
  | [] => by simp [switchNodesAll]
  | s :: ss => by
    have head := isLabel_of_mem_switchNodes nested s
    have tail := isLabel_of_mem_switchNodesAll nested ss
    simp only [switchNodesAll]
    grind

end

mutual

theorem switchNodes_eq_map_marked :
    (s : Stmt) → (∀ sw, .stmt sw ∈ s.preorder → sw.isSwitch = false) →
      switchNodes false s = s.preorder.map Node.marked
  | .compound _ body => fun flat => by
    have inside := switchNodesAll_eq_map_marked body (by simp_all [preorder])
    simp [switchNodes, preorder, inside, Node.marked, Node.isLabel, isLabel]
  | .ifThen _ _ t | .whileLoop _ _ t | .doLoop _ t _ => fun flat => by
    have inside := switchNodes_eq_map_marked t (by simp_all [preorder])
    simp [switchNodes, preorder, inside, Node.marked, Node.isLabel, isLabel, ← exprNodes_map_marked]
  | .ifElse _ _ t e => fun flat => by
    have first := switchNodes_eq_map_marked t (by simp_all [preorder])
    have second := switchNodes_eq_map_marked e (by simp_all [preorder])
    simp [switchNodes, preorder, first, second, Node.marked, Node.isLabel, isLabel,
      ← exprNodes_map_marked]
  | .forLoop _ init _ _ body => fun flat => by
    have inside := switchNodes_eq_map_marked body (by simp_all [preorder])
    cases init with
    | none =>
      simp [switchNodes, preorder, inside, Node.marked, Node.isLabel, isLabel,
        ← exprNodes_map_marked]
    | some i =>
      cases i <;> simp [switchNodes, preorder, inside, Node.marked, Node.isLabel, isLabel,
        ForInit.toStmt, ← exprNodes_map_marked]
  | .switch span cond body => fun flat => by
    have impossible := flat (.switch span cond body) (by simp [preorder])
    cases impossible
  | .decl .. | .expr .. | .caseLabel .. | .defaultLabel .. | .returnJump .. | .breakJump ..
  | .continueJump .. | .gotoJump .. | .label .. | .empty .. => fun _ => by
    simp [switchNodes, preorder, Node.marked, Node.isLabel, isLabel, ← exprNodes_map_marked]

private theorem switchNodesAll_eq_map_marked :
    (ss : List Stmt) → (∀ sw, .stmt sw ∈ preorderAll ss → sw.isSwitch = false) →
      switchNodesAll false ss = (preorderAll ss).map Node.marked
  | [] => fun _ => rfl
  | s :: ss => fun flat => by
    have head := switchNodes_eq_map_marked s (by simp_all [preorderAll])
    have tail := switchNodesAll_eq_map_marked ss (by simp_all [preorderAll])
    simp [switchNodesAll, preorderAll, head, tail]

end

end Stmt

end Lockstep
