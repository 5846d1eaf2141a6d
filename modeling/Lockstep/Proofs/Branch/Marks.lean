import Lockstep.Proofs.Branch.Chain
import Lockstep.Proofs.Tree.Ways
/-!
Which mark stands where. The flat layout of a chain lists the nodes inside the statement in
preorder, and the way to a node tells its mark: from an `if`, the way on behind its `else` leads
to the next link, the one before to its condition and the one between to its block. In a switch a
`case` or `default` is marked exactly if no other switch lies on the way to it.
-/

set_option autoImplicit false
set_option relaxedAutoImplicit false

namespace Lockstep

namespace Stmt

private theorem chain_induction {P : Stmt → Prop}
    (ifThen : ∀ span cond t, P (.ifThen span cond t))
    (ifElse : ∀ span cond t e, P e → P (.ifElse span cond t e))
    (block : ∀ s, s.isIf = false → P s) (s : Stmt) : P s :=
  match s with
  | .ifThen span cond t => ifThen span cond t
  | .ifElse span cond t e => ifElse span cond t e (chain_induction ifThen ifElse block e)
  | .compound .. | .decl .. | .expr .. | .forLoop .. | .whileLoop .. | .doLoop .. | .switch ..
  | .caseLabel .. | .defaultLabel .. | .breakJump .. | .continueJump .. | .returnJump ..
  | .gotoJump .. | .label .. | .empty .. => block _ rfl

private theorem chain_of_not_isIf {s : Stmt} (block : s.isIf = false) : s.chain = ⟨[], some s⟩ := by
  cases s with
  | ifThen span cond t => cases block
  | ifElse span cond t e => cases block
  | _ => rfl

end Stmt

/-- The entries are the nodes at the end of these ways, in this order, with the ways' marks. -/
def StandOn (n : Node) (ways : List Way) (mark : Way → Mark) (entries : List (Mark × Node)) :
    Prop :=
  entries.map (fun p => (p.1, some p.2)) = ways.map fun w => (mark w, n.at? w)

/-- From the first `if` of a chain `k` times on behind the `else`. -/
def elses (k : Nat) : Way := List.replicate k 2

namespace Chain

/-- The way to a block: the statement under an `if`, or the one behind the last `else`. -/
def blockWay (c : Chain) (n : Nat) : Option Way :=
  if n < c.links.length then some (elses n ++ [1])
  else if n = c.links.length ∧ c.final.isSome then some (elses n)
  else none

/-- The layout of links and final block when the first of them has the number `m`. -/
def layoutFrom (c : Chain) (m : Nat) : List (Mark × Node) :=
  (c.links.zipIdx m).flatMap (fun l => linkNodes l.2 l.1) ++
    c.final.toList.flatMap (segmentNodes (m + c.links.length))

theorem flatten_nodes (c : Chain) : c.flatten.nodes = c.layoutFrom 0 := by
  simp [flatten, layoutFrom]

theorem layoutFrom_cons (l : Link) (links : List Link) (final : Option Stmt) (m : Nat) :
    (Chain.mk (l :: links) final).layoutFrom m =
      linkNodes m l ++ (Chain.mk links final).layoutFrom (m + 1) := by
  simp only [layoutFrom, List.zipIdx_cons, List.flatMap_cons, List.append_assoc, List.length_cons]
  congr 4
  omega

end Chain

/-- The mark of the node at the end of a way that starts at the root of block `m`. -/
def blockRole (m : Nat) : Way → Mark
  | [] => .segmentStart m
  | _ :: _ => .body

/-- The mark of the node at the end of a way that starts at link `m` and stays with it. -/
def linkRole (m : Nat) : Way → Mark
  | [] => .link
  | 0 :: _ => .condition
  | 1 :: w => blockRole m w
  | _ => .body

/-- The mark of the node at the end of a way that starts at link or block `m` of a chain. -/
def Stmt.role (m : Nat) : Stmt → Way → Mark
  | ifElse _ _ _ e, 2 :: w => e.role (m + 1) w
  | ifElse _ _ _ _, w | ifThen _ _ _, w => linkRole m w
  | _, w => blockRole m w

namespace StandOn

variable {n : Node} {mark : Way → Mark} {entries : List (Mark × Node)}

theorem cons (inside : StandOn n n.ways.tail mark entries) :
    StandOn n n.ways mark ((mark [], n) :: entries) := by
  have first : n.ways = [] :: n.ways.tail := by rw [n.ways_eq_cons, List.tail_cons]
  rw [StandOn, first, List.map_cons, List.map_cons, inside]
  rfl

private theorem tail_iff : StandOn n n.ways.tail mark entries ↔
    entries.map (fun p => (p.1, some p.2)) = n.children.zipIdx.flatMap fun c =>
      c.1.ways.map fun w => (mark (c.2 :: w), c.1.at? w) := by
  rw [StandOn, n.map_tail_ways fun w o => (mark w, o)]

theorem nodes (inside : StandOn n n.ways.tail mark entries) :
    entries.map Prod.snd = n.preorder.tail := by
  have told := congrArg (List.map Prod.snd) inside
  rw [List.map_map, List.map_map] at told
  refine List.map_injective_iff.mpr (fun _ _ => Option.some.inj) ?_
  calc (entries.map Prod.snd).map some = n.ways.tail.map n.at? := by
        rw [List.map_map]
        exact told
    _ = n.preorder.tail.map some := by rw [List.map_tail, n.map_at?_ways, List.map_tail]

end StandOn

private theorem Stmt.role_of_not_isIf {s : Stmt} (block : s.isIf = false) (m : Nat) :
    s.role m = blockRole m := by
  cases s with
  | ifThen span cond t => cases block
  | ifElse span cond t e => cases block
  | _ => rfl

private theorem standOn_preorder (n : Node) (mark : Mark) :
    StandOn n n.ways (fun _ => mark) (n.preorder.map (mark, ·)) := by
  have listed := congrArg (List.map fun o => (mark, o)) n.map_at?_ways
  rw [List.map_map, List.map_map] at listed
  rw [StandOn, List.map_map]
  exact listed.symm

private theorem standOn_segment (m : Nat) (block : Stmt) :
    StandOn (.stmt block) (Node.stmt block).ways (blockRole m) (segmentNodes m block) := by
  have layout : segmentNodes m block =
      (blockRole m [], .stmt block) :: block.preorder.tail.map (.body, ·) := by
    rw [segmentNodes, block.preorder_eq_cons]
    rfl
  have inside : StandOn (.stmt block) (Node.stmt block).ways.tail (fun _ => .body)
      (block.preorder.tail.map (.body, ·)) := by
    have whole := congrArg List.tail (standOn_preorder (.stmt block) .body)
    rw [StandOn, List.map_tail, List.map_tail, List.map_tail]
    exact whole
  have below := StandOn.tail_iff.mp inside
  rw [layout]
  exact StandOn.cons (StandOn.tail_iff.mpr below)

private theorem standOn_condition (cond : Expr) :
    StandOn (.expr cond) (Node.expr cond).ways (fun _ => .condition)
      (cond.preorder.map fun e => (.condition, .expr e)) := by
  have whole := standOn_preorder (.expr cond) .condition
  rw [Node.preorder, List.map_map] at whole
  exact whole

private theorem standOn_ifThen (m : Nat) (span : Span) (cond : Expr) (t : Stmt) :
    StandOn (.stmt (.ifThen span cond t)) (Node.stmt (.ifThen span cond t)).ways.tail
      ((Stmt.ifThen span cond t).role m)
      (cond.preorder.map (fun e => (.condition, .expr e)) ++ segmentNodes m t) := by
  rw [StandOn.tail_iff, List.map_append, standOn_condition cond, standOn_segment m t]
  simp [Node.children, Stmt.children, Stmt.role, linkRole]

private theorem standOn_ifElse (m : Nat) (span : Span) (cond : Expr) (t e : Stmt)
    {rest : List (Mark × Node)}
    (behind : StandOn (.stmt e) (Node.stmt e).ways (e.role (m + 1)) rest) :
    StandOn (.stmt (.ifElse span cond t e)) (Node.stmt (.ifElse span cond t e)).ways.tail
      ((Stmt.ifElse span cond t e).role m)
      (cond.preorder.map (fun e => (.condition, .expr e)) ++ segmentNodes m t ++ rest) := by
  rw [StandOn.tail_iff, List.map_append, List.map_append, standOn_condition cond,
    standOn_segment m t, behind]
  simp [Node.children, Stmt.children, Stmt.role, linkRole]

private theorem standOn_layoutFrom (s : Stmt) (m : Nat) :
    StandOn (.stmt s) (Node.stmt s).ways (s.role (m + 1)) (s.chain.layoutFrom (m + 1)) := by
  induction s using Stmt.chain_induction generalizing m with
  | ifThen span cond t =>
    have inside := standOn_ifThen (m + 1) span cond t
    simpa [Stmt.chain, Chain.layoutFrom, linkNodes, Stmt.role, linkRole] using inside.cons
  | ifElse span cond t e ih =>
    have inside := standOn_ifElse (m + 1) span cond t e (ih (m + 1))
    rw [Stmt.chain, Chain.layoutFrom_cons]
    simpa [linkNodes, Stmt.role, linkRole] using inside.cons
  | block s plain =>
    rw [Stmt.chain_of_not_isIf plain, Stmt.role_of_not_isIf plain]
    simpa [Chain.layoutFrom] using standOn_segment (m + 1) s

private theorem standOn_flatten {s : Stmt} (isIf : s.isIf = true) :
    StandOn (.stmt s) (Node.stmt s).ways.tail (s.role 0) s.chain.flatten.nodes := by
  rw [Chain.flatten_nodes]
  cases s with
  | ifThen span cond t =>
    simpa [Stmt.chain, Chain.layoutFrom, linkNodes] using standOn_ifThen 0 span cond t
  | ifElse span cond t e =>
    rw [Stmt.chain, Chain.layoutFrom_cons]
    simpa [linkNodes] using standOn_ifElse 0 span cond t e (standOn_layoutFrom e 0)
  | _ => cases isIf

private theorem elses_zero : elses 0 = [] := rfl

private theorem elses_succ (k : Nat) : elses (k + 1) = 2 :: elses k := rfl

namespace Chain

variable (l : Link) (links : List Link) (final : Option Stmt)

private theorem blockWay_zero : (Chain.mk (l :: links) final).blockWay 0 = some [1] := by
  simp [blockWay, elses]

private theorem blockWay_succ (k : Nat) :
    (Chain.mk (l :: links) final).blockWay (k + 1) =
      ((Chain.mk links final).blockWay k).map (2 :: ·) := by
  simp only [blockWay, List.length_cons, Nat.add_lt_add_iff_right, Nat.add_right_cancel_iff,
    elses_succ]
  split
  · rfl
  · split <;> rfl

private theorem blockWay_block (s : Stmt) (k : Nat) :
    (Chain.mk [] (some s)).blockWay k = if k = 0 then some [] else none := by
  by_cases first : k = 0 <;> simp [blockWay, elses, first]

end Chain

private theorem linkRole_iff (m : Nat) (w : Way) : (linkRole m w = .link ↔ w = []) ∧
    (linkRole m w = .condition ↔ [0] <+: w) ∧
    (∀ n, linkRole m w = .segmentStart n ↔ n = m ∧ w = [1]) ∧ linkRole m w ≠ .label := by
  rcases w with - | ⟨i, w⟩
  · simp [linkRole]
  · rcases i with - | - | i
    · simp [linkRole]
    · cases w <;> simp [linkRole, blockRole, @eq_comm _ m]
    · simp [linkRole]

/-- The mark tells what the way leads to, when the first link of the chain has the number `m`: a
link, the condition of one, the root of a block, or something else. -/
structure Chain.Marked (c : Chain) (m : Nat) (mark : Mark) (w : Way) : Prop where
  link : mark = .link ↔ ∃ k < c.links.length, w = elses k
  condition : mark = .condition ↔ ∃ k < c.links.length, elses k ++ [0] <+: w
  segment : ∀ n, mark = .segmentStart n ↔ ∃ k, n = m + k ∧ c.blockWay k = some w
  label : mark ≠ .label

namespace Chain.Marked

variable {l : Link} {links : List Link} {final : Option Stmt} {m : Nat} {mark : Mark} {w : Way}

theorem first (own : ∀ v, w ≠ 2 :: v) :
    (Chain.mk (l :: links) final).Marked m (linkRole m w) w := by
  obtain ⟨link, condition, segment, label⟩ := linkRole_iff m w
  refine ⟨?_, ?_, fun n => ?_, label⟩
  · rw [link, List.length_cons, Nat.exists_lt_succ_left]
    simp [elses_zero, elses_succ, own]
  · rw [condition, List.length_cons, Nat.exists_lt_succ_left]
    have onward (k : Nat) : ¬ elses (k + 1) ++ [0] <+: w := by
      rintro ⟨rest, split⟩
      exact own _ split.symm
    simp [elses_zero, onward]
  · rw [segment]
    constructor
    · rintro ⟨rfl, rfl⟩
      exact ⟨0, rfl, blockWay_zero l links final⟩
    · rintro ⟨k, rfl, stands⟩
      cases k with
      | zero =>
        rw [blockWay_zero] at stands
        exact ⟨rfl, (Option.some.inj stands).symm⟩
      | succ k =>
        rw [blockWay_succ] at stands
        obtain ⟨v, -, rfl⟩ := Option.map_eq_some_iff.mp stands
        exact absurd rfl (own v)

theorem later (rest : (Chain.mk links final).Marked (m + 1) mark w) :
    (Chain.mk (l :: links) final).Marked m mark (2 :: w) := by
  refine ⟨?_, ?_, fun n => ?_, rest.label⟩
  · rw [rest.link, List.length_cons, Nat.exists_lt_succ_left]
    simp [elses_zero, elses_succ]
  · rw [rest.condition, List.length_cons, Nat.exists_lt_succ_left]
    simp [elses_zero, elses_succ]
  · rw [rest.segment]
    constructor
    · rintro ⟨k, rfl, stands⟩
      exact ⟨k + 1, by omega, by rw [blockWay_succ, stands]; rfl⟩
    · rintro ⟨k, rfl, stands⟩
      cases k with
      | zero =>
        rw [blockWay_zero] at stands
        cases stands
      | succ k =>
        rw [blockWay_succ] at stands
        obtain ⟨v, behind, same⟩ := Option.map_eq_some_iff.mp stands
        obtain ⟨-, rfl⟩ := List.cons.inj same
        exact ⟨k, by omega, behind⟩

end Chain.Marked

private theorem Stmt.marked_role (s : Stmt) (m : Nat) (w : Way) :
    s.chain.Marked m (s.role m w) w := by
  induction s using Stmt.chain_induction generalizing m w with
  | ifThen span cond t =>
    by_cases onward : ∃ v, w = 2 :: v
    · obtain ⟨v, rfl⟩ := onward
      refine Chain.Marked.later ⟨?_, ?_, ?_, ?_⟩ <;> simp [Stmt.role, linkRole, Chain.blockWay]
    · exact Chain.Marked.first fun v same => onward ⟨v, same⟩
  | ifElse span cond t e ih =>
    by_cases onward : ∃ v, w = 2 :: v
    · obtain ⟨v, rfl⟩ := onward
      exact Chain.Marked.later (ih (m + 1) v)
    · have own (v : Way) (same : w = 2 :: v) : False := onward ⟨v, same⟩
      rw [Stmt.role]
      · exact Chain.Marked.first own
      · exact own
  | block s plain =>
    rw [Stmt.chain_of_not_isIf plain, Stmt.role_of_not_isIf plain]
    cases w with
    | nil =>
      refine ⟨?_, ?_, fun n => ?_, ?_⟩ <;> simp [blockRole, Chain.blockWay_block, @eq_comm _ m]
    | cons i w => refine ⟨?_, ?_, ?_, ?_⟩ <;> simp [blockRole, Chain.blockWay_block]

namespace Stmt

private theorem links_stand (s : Stmt) {k : Nat} {l : Link} (listed : s.chain.links[k]? = some l) :
    l.stmt.isIf = true ∧ (Node.stmt s).at? (elses k) = some (.stmt l.stmt) ∧
      (Node.stmt s).at? (elses k ++ [0]) = some (.expr l.cond) := by
  induction s using chain_induction generalizing k with
  | ifThen span cond t =>
    cases k with
    | zero =>
      obtain rfl := Option.some.inj listed
      exact ⟨rfl, rfl, rfl⟩
    | succ k => cases listed
  | ifElse span cond t e ih =>
    cases k with
    | zero =>
      obtain rfl := Option.some.inj listed
      exact ⟨rfl, rfl, rfl⟩
    | succ k => exact ih listed
  | block s plain =>
    rw [chain_of_not_isIf plain] at listed
    cases listed

private theorem final_stands (s : Stmt) :
    (Node.stmt s).at? (elses s.chain.links.length) = s.chain.final.map Node.stmt := by
  induction s using chain_induction with
  | ifThen span cond t => rfl
  | ifElse span cond t e ih => exact ih
  | block s plain =>
    rw [chain_of_not_isIf plain]
    rfl

private theorem blocks_stand (s : Stmt) (k : Nat) :
    (s.chain.blockWay k).bind (Node.stmt s).at? = s.chain.blocks[k]?.map Node.stmt := by
  induction s using chain_induction generalizing k with
  | ifThen span cond t =>
    cases k with
    | zero => rfl
    | succ k => simp [chain, Chain.blockWay, Chain.blocks]
  | ifElse span cond t e ih =>
    rw [chain]
    cases k with
    | zero => rfl
    | succ k =>
      rw [Chain.blockWay_succ, Option.bind_map]
      exact ih k
  | block s plain =>
    rw [chain_of_not_isIf plain, Chain.blockWay_block]
    cases k with
    | zero => rfl
    | succ k => simp [Chain.blocks]

end Stmt

def Mark.segment? : Mark → Option Nat
  | segmentStart n => some n
  | _ => none

namespace Flat

def starts (flat : Flat) : List (Nat × Node) :=
  flat.nodes.filterMap fun p => p.1.segment?.map fun n => (n, p.2)

def links (flat : Flat) : List Node := (flat.nodes.filter fun p => p.1 = .link).map Prod.snd

end Flat

private theorem starts_segmentNodes (m : Nat) (block : Stmt) :
    (segmentNodes m block).filterMap (fun p => p.1.segment?.map fun n => (n, p.2)) =
      [(m, .stmt block)] := by
  rw [segmentNodes, block.preorder_eq_cons]
  simp [Mark.segment?]

private theorem starts_layoutFrom (c : Chain) (m : Nat) :
    (c.layoutFrom m).filterMap (fun p => p.1.segment?.map fun n => (n, p.2)) =
      (c.blocks.zipIdx m).map fun b => (b.2, .stmt b.1) := by
  obtain ⟨links, final⟩ := c
  induction links generalizing m with
  | nil => cases final <;> simp [Chain.layoutFrom, Chain.blocks, starts_segmentNodes]
  | cons l links ih =>
    have own : (linkNodes m l).filterMap (fun p => p.1.segment?.map fun n => (n, p.2)) =
        [(m, .stmt l.branch)] := by
      rw [linkNodes, List.filterMap_append, List.filterMap_append, starts_segmentNodes]
      split <;> simp [Mark.segment?]
    rw [Chain.layoutFrom_cons, List.filterMap_append, own, ih]
    rfl

private theorem links_segmentNodes (m : Nat) (block : Stmt) :
    (segmentNodes m block).filter (fun p => p.1 = .link) = [] := by
  rw [segmentNodes, block.preorder_eq_cons]
  simp [List.filter_map, Function.comp_def]

private theorem links_layoutFrom (c : Chain) (m : Nat) :
    (c.layoutFrom (m + 1)).filter (fun p => p.1 = .link) =
      c.links.map fun l => (.link, .stmt l.stmt) := by
  obtain ⟨links, final⟩ := c
  induction links generalizing m with
  | nil => cases final <;> simp [Chain.layoutFrom, links_segmentNodes]
  | cons l links ih =>
    have own : (linkNodes (m + 1) l).filter (fun p => p.1 = .link) = [(.link, .stmt l.stmt)] := by
      simp [linkNodes, links_segmentNodes]
    rw [Chain.layoutFrom_cons, List.filter_append, own, ih]
    rfl

private theorem links_flatten (c : Chain) :
    (c.layoutFrom 0).filter (fun p => p.1 = .link) =
      c.links.tail.map fun l => (.link, .stmt l.stmt) := by
  obtain ⟨links, final⟩ := c
  cases links with
  | nil => cases final <;> simp [Chain.layoutFrom, links_segmentNodes]
  | cons l links =>
    have own : (linkNodes 0 l).filter (fun p => p.1 = .link) = [] := by
      simp [linkNodes, links_segmentNodes]
    rw [Chain.layoutFrom_cons, List.filter_append, own, links_layoutFrom]
    rfl

/-- The chain of an `if` laid out flat. -/
structure Stmt.ChainFlattened (s : Stmt) : Prop where
  /-- The entries are the nodes inside the statement, in preorder. -/
  nodes : s.chain.flatten.nodes.map Prod.snd = s.preorder.tail
  /-- The way to a node tells its mark. -/
  marks : ∃ mark, StandOn (.stmt s) (Node.stmt s).ways.tail mark s.chain.flatten.nodes ∧
    ∀ w, s.chain.Marked 0 (mark w) w
  /-- The links of the chain are the `if`s that follow each other behind the `else`s … -/
  stand : ∀ k l, s.chain.links[k]? = some l → l.stmt.isIf = true ∧
    (Node.stmt s).at? (elses k) = some (.stmt l.stmt) ∧
    (Node.stmt s).at? (elses k ++ [0]) = some (.expr l.cond)
  /-- … up to a last `else` with a statement that is no `if`, or none. -/
  closed : (Node.stmt s).at? (elses s.chain.links.length) = s.chain.final.map Node.stmt ∧
    ∀ e ∈ s.chain.final, e.isIf = false
  blocks : ∀ n, (s.chain.blockWay n).bind (Node.stmt s).at? = s.chain.blocks[n]?.map Node.stmt
  /-- All links but the first have an entry, in order. -/
  links : s.chain.flatten.links = s.chain.links.tail.map fun l => .stmt l.stmt
  linkCount : s.chain.flatten.links.length = s.chain.links.length - 1
  /-- Each block starts once, at its root, and they are numbered in order. -/
  numbers : s.chain.flatten.starts.map Prod.fst = List.range s.chain.flatten.segments
  roots : s.chain.flatten.starts.map Prod.snd = s.chain.blocks.map Node.stmt
  segments : s.chain.flatten.segments =
    s.chain.links.length + if s.chain.flatten.exhaustive then 1 else 0

namespace Node

/-- The way leads to the node, and through no switch on the way. -/
structure Owns (n : Node) (w : Way) (m : Node) : Prop where
  stands : n.at? w = some m
  outside : ∀ v u, v <+: w → v ≠ w → n.at? v = some u → u.isSwitch = false

end Node

/-- The body of a switch laid out flat. -/
structure Stmt.SwitchFlattened (body : Stmt) : Prop where
  nodes : body.flattenSwitch.nodes.map Prod.snd = body.preorder
  /-- A `case` or `default` is marked if no other switch is on the way to it. -/
  marks : ∃ mark, StandOn (.stmt body) (Node.stmt body).ways mark body.flattenSwitch.nodes ∧
    ∀ w, (mark w = .label ↔ ∃ l, (Node.stmt body).Owns w l ∧ l.isLabel = true) ∧
      (mark w = .label ∨ mark w = .body)

namespace Node

variable {n m c : Node} {w : Way} {i : Nat}

private theorem owns_nil_iff : n.Owns [] m ↔ n = m := by
  constructor
  · intro owns
    exact Option.some.inj owns.stands
  · rintro rfl
    refine ⟨rfl, fun v u start proper => ?_⟩
    exact absurd (List.prefix_nil.mp start) proper

private theorem owns_cons_iff (child : n.children[i]? = some c) :
    n.Owns (i :: w) m ↔ n.isSwitch = false ∧ c.Owns w m := by
  constructor
  · rintro ⟨stands, outside⟩
    rw [at?_cons child] at stands
    refine ⟨outside [] n List.nil_prefix (by simp) rfl, stands, fun v u start proper found => ?_⟩
    refine outside (i :: v) u ?_ ?_ ?_
    · simpa using start
    · simpa using proper
    · rwa [at?_cons child]
  · rintro ⟨plain, stands, outside⟩
    refine ⟨by rwa [at?_cons child], fun v u start proper found => ?_⟩
    cases v with
    | nil =>
      obtain rfl := Option.some.inj found
      exact plain
    | cons j v =>
      obtain ⟨rfl, below⟩ := List.cons_prefix_cons.mp start
      rw [at?_cons child] at found
      exact outside v u below (by simpa using proper) found

/-- The entries of a node in the body of a switch; `nested` as for statements. -/
def switchNodes (nested : Bool) : Node → List (Mark × Node)
  | stmt s => s.switchNodes nested
  | expr e => e.preorder.map fun e => (.body, .expr e)

/-- The mark of the node at the end of a way into the body of a switch. -/
def ownMark (nested : Bool) (n : Node) : Way → Mark
  | [] => if nested then .body else if n.isLabel then .label else .body
  | i :: w => (n.children[i]?.map fun c => c.ownMark (nested || n.isSwitch) w).getD .body

private theorem switchNodes_eq_cons (nested : Bool) (n : Node) :
    n.switchNodes nested = (n.ownMark nested [], n) ::
      n.children.flatMap (switchNodes (nested || n.isSwitch)) := by
  cases n with
  | expr e =>
    rw [switchNodes, e.preorder_eq_cons]
    simp [ownMark, isLabel, isSwitch, children, List.map_flatMap, List.flatMap_map, switchNodes]
  | stmt s =>
    cases s with
    | forLoop span init cond step body =>
      rcases init with - | (d | ⟨start, e⟩) <;>
        simp [switchNodes, Stmt.switchNodes, ownMark, isLabel, Stmt.isLabel, isSwitch,
          Stmt.isSwitch, children, Stmt.children, bodyNodes, Stmt.exprNodes, ForInit.toStmt,
          ForInit.exprs, List.flatMap_map, List.map_flatMap, Function.comp_def]
    | compound span body =>
      have inside : Stmt.switchNodesAll nested body = body.flatMap (Stmt.switchNodes nested) := by
        induction body with
        | nil => rfl
        | cons s ss ih => rw [Stmt.switchNodesAll, ih, List.flatMap_cons]
      simp [switchNodes, Stmt.switchNodes, inside, ownMark, isLabel, Stmt.isLabel, isSwitch,
        Stmt.isSwitch, children, Stmt.children, List.flatMap_map]
    | _ =>
      simp [switchNodes, Stmt.switchNodes, ownMark, isLabel, Stmt.isLabel, isSwitch,
        Stmt.isSwitch, children, Stmt.children, bodyNodes, Stmt.exprNodes, List.flatMap_map,
        List.map_flatMap, Function.comp_def]

theorem standOn_switchNodes (n : Node) (nested : Bool) :
    StandOn n n.ways (n.ownMark nested) (n.switchNodes nested) := by
  induction n using children_induction generalizing nested with
  | step n ih =>
    rw [switchNodes_eq_cons]
    refine StandOn.cons (StandOn.tail_iff.mpr ?_)
    have below : ∀ c ∈ n.children.zipIdx,
        (c.1.switchNodes (nested || n.isSwitch)).map (fun p => (p.1, some p.2)) =
          c.1.ways.map fun w => (n.ownMark nested (c.2 :: w), c.1.at? w) := by
      intro c listed
      have child := List.mem_zipIdx_iff_getElem?.mp listed
      have mark (w : Way) : n.ownMark nested (c.2 :: w) =
          c.1.ownMark (nested || n.isSwitch) w := by
        rw [ownMark, child]
        rfl
      simp only [mark]
      exact ih c.1 (List.fst_mem_of_mem_zipIdx listed) _
    rw [← List.flatMap_congr below, List.map_flatMap]
    conv_lhs => rw [← List.zipIdx_map_fst 0 n.children, List.flatMap_map]

theorem ownMark_eq_label_iff (n : Node) (nested : Bool) (w : Way) :
    n.ownMark nested w = .label ↔ nested = false ∧ ∃ l, n.Owns w l ∧ l.isLabel = true := by
  induction w generalizing n nested with
  | nil => cases nested <;> simp [ownMark, owns_nil_iff]
  | cons i w ih =>
    cases child : n.children[i]? with
    | none =>
      have nowhere (l : Node) : ¬ n.Owns (i :: w) l := fun owns => by
        have stands := owns.stands
        rw [at?, child] at stands
        cases stands
      simp [ownMark, child, nowhere]
    | some c =>
      have inner : n.ownMark nested (i :: w) = c.ownMark (nested || n.isSwitch) w := by
        rw [ownMark, child]
        rfl
      rw [inner, ih, Bool.or_eq_false_iff]
      simp only [owns_cons_iff child, and_assoc, exists_and_left]

private theorem ownMark_cases (n : Node) (nested : Bool) (w : Way) :
    n.ownMark nested w = .label ∨ n.ownMark nested w = .body := by
  induction w generalizing n nested with
  | nil =>
    rw [ownMark]
    split
    · exact .inr rfl
    · split
      · exact .inl rfl
      · exact .inr rfl
  | cons i w ih =>
    rw [ownMark]
    cases n.children[i]? with
    | none => exact .inr rfl
    | some c => exact ih c _

end Node

namespace Stmt

private theorem chainFlattened {s : Stmt} (isIf : s.isIf = true) : s.ChainFlattened := by
  have stands := standOn_flatten isIf
  have starts : s.chain.flatten.starts = s.chain.blocks.zipIdx.map fun b => (b.2, .stmt b.1) := by
    rw [Flat.starts, Chain.flatten_nodes, starts_layoutFrom]
  have links : s.chain.flatten.links = s.chain.links.tail.map fun l => .stmt l.stmt := by
    rw [Flat.links, Chain.flatten_nodes, links_flatten, List.map_map]
    rfl
  have segments : s.chain.flatten.segments = s.chain.blocks.length := by
    simp [Chain.flatten, Chain.blocks]
  refine ⟨stands.nodes, ⟨s.role 0, stands, fun w => s.marked_role 0 w⟩, fun k l => s.links_stand,
    ⟨s.final_stands, fun e => isIf_chain_final⟩, s.blocks_stand, links, ?_, ?_, ?_, ?_⟩
  · rw [links, List.length_map, List.length_tail]
  · rw [starts, segments, List.map_map, List.range_eq_range', ← List.zipIdx_map_snd]
    rfl
  · rw [starts, List.map_map]
    conv_rhs => rw [← List.zipIdx_map_fst 0 s.chain.blocks, List.map_map]
    rfl
  · cases final : s.chain.final <;> simp [Chain.flatten, final]

private theorem switchFlattened (body : Stmt) : body.SwitchFlattened := by
  refine ⟨switchNodes_map_snd false body, (Node.stmt body).ownMark false,
    (Node.stmt body).standOn_switchNodes false, fun w => ⟨?_, Node.ownMark_cases _ _ _⟩⟩
  rw [Node.ownMark_eq_label_iff]
  exact and_iff_right rfl

end Stmt

/-- The flat layout of a chain of `if`s is the preorder of the statement without its first node, and
that of a switch the preorder of its body. The marks say what the nodes are: links, conditions, the
roots of the blocks, numbered in order, and the labels of the switch itself. -/
theorem flattened_in_preorder :
    (∀ s : Stmt, s.isIf = true → s.ChainFlattened) ∧ ∀ body : Stmt, body.SwitchFlattened :=
  ⟨fun _ isIf => Stmt.chainFlattened isIf, Stmt.switchFlattened⟩

theorem flattened_in_preorder_sample :
    Context.chainSample.isIf = true ∧ Context.chainSample.ChainFlattened ∧
      Context.chainSample.chain.flatten.segments = 3 ∧
      Context.chainSample.chain.flatten.starts.map Prod.fst = [0, 1, 2] ∧
      Context.chainSample.chain.flatten.links.length = 1 := by
  have flattened := flattened_in_preorder.1 Context.chainSample rfl
  have segments : Context.chainSample.chain.flatten.segments = 3 := rfl
  refine ⟨rfl, flattened, segments, ?_, flattened.linkCount⟩
  rw [flattened.numbers, segments]
  rfl

end Lockstep
