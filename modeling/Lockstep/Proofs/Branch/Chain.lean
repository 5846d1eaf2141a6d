import Lockstep.Proofs.Branch.Tally
/-!
When the barriers of an `if` chain are balanced. The pass over the flat layout is compared with a
statement about the branches themselves: the chain ends in an `else`, its conditions call identity
functions only, and all its blocks hold the same positive number of barrier calls and nothing that
branches, jumps or calls anything else.
-/

set_option autoImplicit false
set_option relaxedAutoImplicit false

namespace Lockstep

def Stmt.isIf : Stmt → Bool
  | ifThen _ _ _ | ifElse _ _ _ _ => true
  | _ => false

/-- The blocks of which a chain runs one: the statement under every `if` and the final `else`. -/
def Chain.blocks (c : Chain) : List Stmt := c.links.map Link.branch ++ c.final.toList

namespace Context

variable (x : Context)

/-- The block holds `k` barrier calls, no other calls, and nothing that branches or jumps. -/
def Steady (k : Nat) (block : Stmt) : Prop :=
  (x.barrierCalls block).length = k ∧
    (∀ e, .expr e ∈ block.preorder → e.isCall = true → x.isBarrierCall e = true) ∧
    ∀ s, .stmt s ∈ block.preorder → s.isBranching = false ∧ s.isBreak = false

def AsksIdentityOnly (cond : Expr) : Prop :=
  ∀ e ∈ cond.preorder, e.isCall = true → (x.identityCallee e).isSome = true

/-- What the pass over a chain establishes. -/
structure ChainBalanced (c : Chain) : Prop where
  closed : ∃ e, c.final = some e ∧ e.isIf = false
  conditions : ∀ l ∈ c.links, x.AsksIdentityOnly l.cond
  blocks : ∃ k, 1 ≤ k ∧ ∀ b ∈ c.blocks, x.Steady k b

/-- The pass accepts these nodes from any sound tally that agrees with a count `k` for which
`accept k` holds, and from no other. -/
private def Passes (nodes : List (Mark × Node)) (accept : Nat → Prop) : Prop :=
  ∀ t : Tally, t.Sound →
    (x.judgeChainNodes t nodes = .balanced ↔ ∃ k, 1 ≤ k ∧ t.Agrees k ∧ accept k)

private theorem passes_nil : x.Passes [] fun _ => True := by
  intro t sound
  obtain ⟨t', settled, -, -, -, -, agrees⟩ | ⟨why, failed, disagrees⟩ := Tally.settle_cases sound
  · simpa [judgeChainNodes, settled] using agrees
  · simpa [judgeChainNodes, failed] using disagrees

private theorem passes_link {rest : List (Mark × Node)} {accept : Nat → Prop} (n : Node)
    (tail : x.Passes rest accept) : x.Passes ((.link, n) :: rest) accept := by
  intro t sound
  rw [judgeChainNodes]
  exact tail t sound

private theorem passes_condition {rest : List (Mark × Node)} {accept : Nat → Prop}
    (es : List Expr) (tail : x.Passes rest accept) :
    x.Passes (es.map (fun e => (.condition, .expr e)) ++ rest) fun k =>
      (∀ e ∈ es, e.isCall = true → (x.identityCallee e).isSome = true) ∧ accept k := by
  induction es with
  | nil => simpa using tail
  | cons e es ih =>
    intro t sound
    have head := ih t sound
    simp only [List.map_cons, List.cons_append, judgeChainNodes, Node.call?, List.forall_mem_cons]
    by_cases call : e.isCall = true
    · by_cases identity : (x.identityCallee e).isSome = true
      · simp only [call, identity, if_true, true_implies, true_and]
        exact head
      · simp [call, identity]
    · simp only [call, Bool.false_eq_true, if_false, false_implies, true_and]
      exact head

/-- The tally after the nodes of a block that neither leaves it nor calls anything else. -/
def tallied (t : Tally) (ns : List Node) : Tally :=
  { t with current := t.current + ns.countP x.isBarrierNode }

theorem judge_body_cases (t : Tally) (ns : List Node) (rest : List (Mark × Node)) :
    ((∀ n ∈ ns, x.Plain n ∧ n.isBreak = false) ∧
      x.judgeChainNodes t (ns.map (.body, ·) ++ rest) =
        x.judgeChainNodes (x.tallied t ns) rest) ∨
    (¬ (∀ n ∈ ns, x.Plain n ∧ n.isBreak = false) ∧
      ∃ span why, x.judgeChainNodes t (ns.map (.body, ·) ++ rest) = .unknown span why) := by
  induction ns generalizing t with
  | nil => exact .inl ⟨by simp, by simp [tallied]⟩
  | cons n ns ih =>
    simp only [List.map_cons, List.cons_append, judgeChainNodes, Tally.enter, List.forall_mem_cons]
    obtain ⟨step, plain, stays, silent⟩ | ⟨step, plain, stays, counts⟩ | ⟨step, -, leaves, -⟩ |
      ⟨span, why, step, obstacle⟩ := x.step_cases n
    · have same : x.tallied t (n :: ns) = x.tallied t ns := by simp [tallied, silent]
      simp only [step, same, plain, stays, true_and]
      exact ih t
    · have more : x.tallied t (n :: ns) = x.tallied t.count ns := by
        simp only [tallied, Tally.count, List.countP_cons, counts, if_true]
        congr 1
        omega
      simp only [step, more, plain, stays, true_and]
      exact ih t.count
    · exact .inr ⟨by simp [leaves], _, _, by rw [step]⟩
    · exact .inr ⟨by simp [obstacle], _, _, by rw [step]⟩

private theorem judge_body (t : Tally) (ns : List Node) (rest : List (Mark × Node)) :
    x.judgeChainNodes t (ns.map (.body, ·) ++ rest) = .balanced ↔
      (∀ n ∈ ns, x.Plain n ∧ n.isBreak = false) ∧
        x.judgeChainNodes (x.tallied t ns) rest = .balanced := by
  rcases x.judge_body_cases t ns rest with ⟨plain, same⟩ | ⟨obstacle, span, why, unknown⟩
  · rw [same]
    exact (and_iff_right plain).symm
  · rw [unknown]
    constructor
    · intro balanced
      cases balanced
    · rintro ⟨plain, -⟩
      exact absurd plain obstacle

theorem judge_segment_of_settle {t t' : Tally} (settled : t.settle = .ok t') (m : Nat)
    (block : Stmt) (rest : List (Mark × Node)) :
    x.judgeChainNodes t (segmentNodes m block ++ rest) =
      x.judgeChainNodes (t'.start m) (block.preorder.map (.body, ·) ++ rest) := by
  rw [segmentNodes, block.preorder_eq_cons]
  simp [judgeChainNodes, Tally.enter, settled]

theorem judge_segment_of_imbalance {t : Tally} {why : Imbalance} (failed : t.settle = .error why)
    (m : Nat) (block : Stmt) (rest : List (Mark × Node)) :
    x.judgeChainNodes t (segmentNodes m block ++ rest) = .unbalanced why := by
  rw [segmentNodes, block.preorder_eq_cons]
  simp [judgeChainNodes, Tally.enter, failed]

private theorem steady_iff (k : Nat) (block : Stmt) :
    x.Steady k block ↔ block.preorder.countP x.isBarrierNode = k ∧
      ∀ n ∈ block.preorder, x.Plain n ∧ n.isBreak = false := by
  rw [Steady, length_barrierCalls]
  refine and_congr_right fun _ => ⟨fun ⟨calls, stays⟩ n member => ?_, fun plain => ⟨?_, ?_⟩⟩
  · cases n with
    | stmt s => exact stays s member
    | expr e => exact ⟨calls e member, rfl⟩
  · exact fun e member => (plain _ member).1
  · exact fun s member => plain _ member

private theorem passes_segment {rest : List (Mark × Node)} {accept : Nat → Prop} (m : Nat)
    (block : Stmt) (tail : x.Passes rest accept) :
    x.Passes (segmentNodes m block ++ rest) fun k => x.Steady k block ∧ accept k := by
  intro t sound
  -- The segment before this one is closed here, so its count is compared before ours is known.
  obtain ⟨t', settled, idle, sound', -, agrees, -⟩ | ⟨why, failed, disagrees⟩ :=
    Tally.settle_cases sound
  · have counted (k : Nat) : (x.tallied (t'.start m) block.preorder).Agrees k ↔
        block.preorder.countP x.isBarrierNode = k ∧ t.Agrees k := by
      rw [← agrees k]
      simp [Tally.Agrees, tallied, Tally.start, idle]
    have after := tail (x.tallied (t'.start m) block.preorder) sound'
    rw [x.judge_segment_of_settle settled]
    simp only [judge_body, after, counted, steady_iff]
    constructor
    · rintro ⟨plain, k, positive, ⟨count, agree⟩, accepted⟩
      exact ⟨k, positive, agree, ⟨count, plain⟩, accepted⟩
    · rintro ⟨k, positive, agree, ⟨count, plain⟩, accepted⟩
      exact ⟨plain, k, positive, ⟨count, agree⟩, accepted⟩
  · rw [x.judge_segment_of_imbalance failed]
    constructor
    · intro balanced
      cases balanced
    · rintro ⟨k, positive, agree, -⟩
      exact absurd agree (disagrees k positive)

private theorem passes_congr {nodes : List (Mark × Node)} {accept accept' : Nat → Prop}
    (same : ∀ k, accept k ↔ accept' k) (passes : x.Passes nodes accept) :
    x.Passes nodes accept' := by
  intro t sound
  simpa only [same] using passes t sound

private theorem passes_linkNodes {rest : List (Mark × Node)} {accept : Nat → Prop} (m : Nat)
    (l : Link) (tail : x.Passes rest accept) :
    x.Passes (linkNodes m l ++ rest) fun k =>
      x.AsksIdentityOnly l.cond ∧ x.Steady k l.branch ∧ accept k := by
  have parts := x.passes_condition l.cond.preorder (x.passes_segment m l.branch tail)
  by_cases first : m = 0
  · simpa [linkNodes, first, AsksIdentityOnly] using parts
  · simpa [linkNodes, first, AsksIdentityOnly] using x.passes_link (.stmt l.stmt) parts

private theorem passes_links (links : List Link) (m : Nat) (final : Stmt) :
    x.Passes ((links.zipIdx m).flatMap (fun (l, n) => linkNodes n l) ++
        segmentNodes (m + links.length) final) fun k =>
      (∀ l ∈ links, x.AsksIdentityOnly l.cond) ∧
        ∀ b ∈ links.map Link.branch ++ [final], x.Steady k b := by
  induction links generalizing m with
  | nil =>
    have last := x.passes_segment m final x.passes_nil
    simpa using last
  | cons l links ih =>
    have tail := ih (m + 1)
    rw [Nat.add_right_comm m 1 links.length, Nat.add_assoc m] at tail
    have whole := x.passes_linkNodes m l tail
    simp only [List.zipIdx_cons, List.flatMap_cons, List.append_assoc, List.length_cons,
      List.map_cons, List.cons_append, List.forall_mem_cons]
    refine x.passes_congr (fun k => ?_) whole
    constructor
    · rintro ⟨asks, steady, others, blocks⟩
      exact ⟨⟨asks, others⟩, steady, blocks⟩
    · rintro ⟨⟨asks, others⟩, steady, blocks⟩
      exact ⟨asks, steady, others, blocks⟩

end Context

theorem Stmt.isIf_chain_final {s e : Stmt} (final : s.chain.final = some e) :
    e.isIf = false := by
  fun_induction Stmt.chain s with
  | case1 span cond t => cases final
  | case2 span cond t e ih => exact ih final
  | case3 s noThen noElse =>
    obtain rfl := Option.some.inj final
    cases s with
    | ifThen span cond t => exact absurd rfl (noThen span cond t)
    | ifElse span cond t e => exact absurd rfl (noElse span cond t e)
    | _ => rfl

namespace Context

variable (x : Context)

/-- The pass over a chain accepts it exactly if its blocks are balanced. -/
theorem judgeChain_flatten_iff (s : Stmt) :
    x.judgeChain s.chain.flatten = .balanced ↔ x.ChainBalanced s.chain := by
  cases final : s.chain.final with
  | none =>
    constructor
    · intro balanced
      simp [judgeChain, Chain.flatten, final] at balanced
    · rintro ⟨⟨e, closed, -⟩, -, -⟩
      rw [final] at closed
      cases closed
  | some e =>
    have passes := x.passes_links s.chain.links 0 e {} Tally.sound_initial
    have blocks : s.chain.blocks = s.chain.links.map Link.branch ++ [e] := by
      simp [Chain.blocks, final]
    have judged : x.judgeChain s.chain.flatten = .balanced ↔ ∃ k, 1 ≤ k ∧ Tally.Agrees {} k ∧
        (∀ l ∈ s.chain.links, x.AsksIdentityOnly l.cond) ∧
          ∀ b ∈ s.chain.blocks, x.Steady k b := by
      rw [blocks, ← passes]
      simp [judgeChain, Chain.flatten, final]
    rw [judged]
    constructor
    · rintro ⟨k, positive, -, asks, steady⟩
      exact ⟨⟨e, final, Stmt.isIf_chain_final final⟩, asks, k, positive, steady⟩
    · rintro ⟨-, asks, k, positive, steady⟩
      exact ⟨k, positive, Tally.agrees_initial k, asks, steady⟩

theorem checkChain_of_dependentLink {store : TaintStore} {s : Stmt} {cond : Expr}
    {d : Dependence} (source : SourceText)
    (dependent : x.dependentLink store s.chain = some (cond, d)) :
    x.checkChain source store s =
      if x.judgeChain s.chain.flatten = .balanced then []
      else barrierFindings source store .ifElse cond d (x.barrierCalls s)
        (some (x.judgeChain s.chain.flatten)) := by
  cases barriers : x.barrierCalls s with
  | nil => simp [checkChain, chainVerdict, barriers, barrierFindings]
  | cons b bs =>
    have verdict : x.chainVerdict store s =
        some (x.judgeChain s.chain.flatten, cond, d, b :: bs) := by
      simp [chainVerdict, barriers, dependent]
    cases judged : x.judgeChain s.chain.flatten <;> simp [checkChain, verdict, judged]

/-- A chain is accepted exactly if it is balanced. Under a condition that depends on an identity an
accepted chain is passed over in silence, and any other one is reported at each of its barriers. -/
theorem chain_judged_exactly (s : Stmt) :
    (x.judgeChain s.chain.flatten = .balanced ↔ x.ChainBalanced s.chain) ∧
    ∀ (source : SourceText) (store : TaintStore),
      (∃ l ∈ s.chain.links, (x.dependence store l.cond).isSome) →
        (x.ChainBalanced s.chain → x.checkChain source store s = []) ∧
        (¬ x.ChainBalanced s.chain →
          (x.checkChain source store s).map (fun f => (f.code, f.span)) =
            (s.preorder.filter (x.CallsBarrier ·)).map fun n => (some "W0201", n.span)) := by
  have judged := x.judgeChain_flatten_iff s
  refine ⟨judged, fun source store ⟨l, member, depends⟩ => ?_⟩
  obtain ⟨⟨cond, d⟩, dependent⟩ : ∃ c, x.dependentLink store s.chain = some c := by
    rw [← Option.isSome_iff_exists, dependentLink, List.findSome?_isSome_iff]
    exact ⟨l, member, by simpa using depends⟩
  rw [x.checkChain_of_dependentLink source dependent]
  constructor
  · intro balanced
    rw [if_pos (judged.mpr balanced)]
  · intro unbalanced
    rw [if_neg (mt judged.mp unbalanced), map_barrierFindings]
    exact x.map_span_barrierCalls (some "W0201", ·) s

/-- `if (0) barrier(); else if (get_local_id()) barrier(); else work_group_barrier();` -/
def chainSample : Stmt :=
  .ifElse ⟨0, 1⟩ (.int ⟨0, 1⟩ 0) (.expr ⟨0, 1⟩ (.invoke "barrier"))
    (.ifElse ⟨0, 1⟩ (.invoke "get_local_id") (.expr ⟨0, 1⟩ (.invoke "barrier"))
      (.expr ⟨0, 1⟩ (.invoke "work_group_barrier")))

/-- `if (get_local_id()) { barrier(); barrier(); } else barrier();` -/
def lopsidedChain : Stmt :=
  .ifElse ⟨0, 9⟩ (.invoke "get_local_id")
    (.compound ⟨1, 6⟩ [.expr ⟨2, 3⟩ (.invokeAt ⟨2, 3⟩ "barrier"),
      .expr ⟨4, 5⟩ (.invokeAt ⟨4, 5⟩ "barrier")])
    (.expr ⟨7, 8⟩ (.invokeAt ⟨7, 8⟩ "barrier"))

/-- One chain is passed over, the other one is reported at its three barriers. -/
theorem chain_judged_exactly_sample :
    ((∃ l ∈ chainSample.chain.links, ((Context.mk {} {}).dependence {} l.cond).isSome) ∧
      (Context.mk {} {}).judgeChain chainSample.chain.flatten = .balanced ∧
      (Context.mk {} {}).checkChain ⟨"k.cl", 1, [0]⟩ {} chainSample = []) ∧
    (∃ l ∈ lopsidedChain.chain.links, ((Context.mk {} {}).dependence {} l.cond).isSome) ∧
      (Context.mk {} {}).judgeChain lopsidedChain.chain.flatten ≠ .balanced ∧
      ((Context.mk {} {}).checkChain ⟨"k.cl", 1, [0]⟩ {} lopsidedChain).map
          (fun f => (f.code, f.span)) =
        [(some "W0201", ⟨2, 3⟩), (some "W0201", ⟨4, 5⟩), (some "W0201", ⟨7, 8⟩)] := by
  constructor
  · have depends : ∃ l ∈ chainSample.chain.links,
        ((Context.mk {} {}).dependence {} l.cond).isSome := by
      decide
    have judged : (Context.mk {} {}).judgeChain chainSample.chain.flatten = .balanced := by decide
    have exactly := chain_judged_exactly (Context.mk {} {}) chainSample
    exact ⟨depends, judged, (exactly.2 _ _ depends).1 (exactly.1.mp judged)⟩
  · have depends : ∃ l ∈ lopsidedChain.chain.links,
        ((Context.mk {} {}).dependence {} l.cond).isSome := by
      decide
    have judged : (Context.mk {} {}).judgeChain lopsidedChain.chain.flatten ≠ .balanced := by decide
    have exactly := chain_judged_exactly (Context.mk {} {}) lopsidedChain
    refine ⟨depends, judged, ((exactly.2 _ _ depends).2 (mt exactly.1.mpr judged)).trans ?_⟩
    decide

end Context

end Lockstep
