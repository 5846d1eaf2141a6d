import Lockstep.Proofs.Branch.Tally
/-!
When the barriers of a switch are balanced. The pass over the marked body is compared with a
statement about every label: there is a `default`, nothing in the body branches, jumps or calls
anything but a barrier, every barrier can be reached from a label, and from each label on the same
positive number of barriers is met before the next `break`.
-/

set_option autoImplicit false
set_option relaxedAutoImplicit false

namespace Lockstep

def OutsideSwitches (before : List Node) : Prop :=
  ∀ p sw q, before = p ++ .stmt sw :: q → sw.isSwitch = true → sw.preorder.length ≤ q.length + 1

namespace Context

variable (x : Context)

/-- The barriers met from the start of a row of nodes to its first `break`. -/
def run (ns : List Node) : Nat := (ns.takeWhile (!·.isBreak)).countP x.isBarrierNode

/-- What the pass over the body of a switch establishes. -/
structure SwitchBalanced (body : Stmt) : Prop where
  hasDefault : ∃ pre span post,
    body.preorder = pre ++ .stmt (.defaultLabel span) :: post ∧ OutsideSwitches pre
  straight : ∀ s, .stmt s ∈ body.preorder → s.isBranching = false
  calls : ∀ e, .expr e ∈ body.preorder → e.isCall = true → x.isBarrierCall e = true
  reached : ∀ pre b post, body.preorder = pre ++ .expr b :: post → x.isBarrierCall b = true →
    ∃ p l q, pre = p ++ .stmt l :: q ∧ l.isLabel = true ∧ OutsideSwitches p ∧
      ∀ s, .stmt s ∈ q → s.isBreak = false
  runs : ∃ k, 1 ≤ k ∧ ∀ pre l post, body.preorder = pre ++ .stmt l :: post → l.isLabel = true →
    OutsideSwitches pre → x.run post = k

theorem run_cons (n : Node) (ns : List Node) :
    x.run (n :: ns) =
      if n.isBreak then 0 else x.run ns + if x.isBarrierNode n then 1 else 0 := by
  cases breaks : n.isBreak with
  | true => simp [run, breaks]
  | false => simp [run, breaks, List.countP_cons]

theorem label_facts {n : Node} (label : n.isLabel = true) :
    x.Plain n ∧ n.isBreak = false ∧ x.isBarrierNode n = false := by
  cases n with
  | expr e => cases label
  | stmt s => cases s <;> simp_all [Node.isLabel, Stmt.isLabel, Plain, Node.isBreak, Stmt.isBreak,
      Stmt.isBranching, isBarrierNode]

/-- All nodes are plain, each barrier has a label before it with no `break` between them, and `k`
barriers follow each label. The flag tells whether such a label stands before the first node. -/
private def Sealed (k : Nat) : Bool → List Node → Prop
  | _, [] => True
  | covered, n :: ns =>
    x.Plain n ∧ (x.isBarrierNode n = true → covered = true) ∧ (n.isLabel = true → x.run ns = k) ∧
      Sealed k (n.isLabel || (covered && !n.isBreak)) ns

/-- The tally can go on over these nodes with every segment coming to `k`. -/
private structure Continues (t : Tally) (ns : List Node) (k : Nat) : Prop where
  positive : 1 ≤ k
  counting : t.active = true → t.current + x.run ns = k
  counted : ∀ m, t.target = some m → m = k
  covers : x.Sealed k t.active ns
  some_segment : t.active = true ∨ t.target.isSome = true ∨ ∃ n ∈ ns, n.isLabel = true

private theorem judgeSwitchNodes_nil_iff {t : Tally} (next : Nat) (sound : t.Sound) :
    x.judgeSwitchNodes t next [] = .balanced ↔ ∃ k, x.Continues t [] k := by
  obtain ⟨t', settled, -, -, closed, -, k, positive, agrees⟩ | ⟨why, failed, disagrees⟩ :=
    Tally.settle_cases sound
  · have judged : x.judgeSwitchNodes t next [] = .balanced ↔ t'.target.isSome = true := by
      cases target : t'.target <;> simp [judgeSwitchNodes, settled, target]
    rw [judged, closed]
    constructor
    · intro segment
      exact ⟨k, positive, agrees.1, agrees.2, trivial, segment.imp_right .inl⟩
    · rintro ⟨k, -, -, -, -, segment⟩
      simpa using segment
  · constructor
    · intro balanced
      simp [judgeSwitchNodes, failed] at balanced
    · rintro ⟨k, positive, counting, counted, -, -⟩
      exact absurd ⟨counting, counted⟩ (disagrees k positive)

private theorem continues_label {n : Node} {ns : List Node} {k : Nat} (t : Tally) (m : Nat)
    (label : n.isLabel = true) :
    x.Continues t (n :: ns) k ↔
      (t.active = true → t.current = 0) ∧ x.Continues (t.start m) ns k := by
  obtain ⟨plain, stays, silent⟩ := x.label_facts label
  have head : x.run (n :: ns) = x.run ns := by simp [run_cons, stays, silent]
  constructor
  · intro c
    obtain ⟨-, -, rest, covers⟩ := c.covers
    rw [label, Bool.true_or] at covers
    have run := rest label
    refine ⟨fun active => ?_, c.positive, fun _ => ?_, c.counted, covers, .inl rfl⟩
    · have whole := c.counting active
      omega
    · simpa [Tally.start] using run
  · rintro ⟨fresh, c⟩
    have run : x.run ns = k := by simpa [Tally.start] using c.counting rfl
    refine ⟨c.positive, fun active => ?_, c.counted, ?_, .inr (.inr ⟨n, by simp, label⟩)⟩
    · rw [fresh active, head, Nat.zero_add, run]
    · refine ⟨plain, by simp [silent], fun _ => run, ?_⟩
      rw [label, Bool.true_or]
      exact c.covers

private theorem continues_body {n : Node} {ns : List Node} {k : Nat} (t : Tally)
    (label : n.isLabel = false) (plain : x.Plain n) (stays : n.isBreak = false) :
    x.Continues t (n :: ns) k ↔ (x.isBarrierNode n = true → t.active = true) ∧
      x.Continues { t with current := t.current + if x.isBarrierNode n then 1 else 0 } ns k := by
  have head : x.run (n :: ns) = x.run ns + if x.isBarrierNode n then 1 else 0 := by
    simp [run_cons, stays]
  constructor
  · intro c
    obtain ⟨-, covered, -, covers⟩ := c.covers
    rw [label, stays, Bool.false_or, Bool.not_false, Bool.and_true] at covers
    refine ⟨covered, c.positive, fun active => ?_, c.counted, covers, ?_⟩
    · have whole := c.counting active
      rw [head] at whole
      simp only
      omega
    · simpa [label] using c.some_segment
  · rintro ⟨covered, c⟩
    refine ⟨c.positive, fun active => ?_, c.counted, ⟨plain, covered, by simp [label], ?_⟩, ?_⟩
    · have whole := c.counting active
      rw [head]
      simp only at whole
      omega
    · rw [label, stays, Bool.false_or, Bool.not_false, Bool.and_true]
      exact c.covers
    · simpa [label] using c.some_segment

private theorem continues_break {n : Node} {ns : List Node} {k : Nat} {t t' : Tally}
    (label : n.isLabel = false) (plain : x.Plain n) (leaves : n.isBreak = true)
    (silent : x.isBarrierNode n = false) (idle : t'.active = false)
    (closed : t'.target.isSome = true ↔ t.active = true ∨ t.target.isSome = true)
    (agrees : ∀ k, t'.Agrees k ↔ t.Agrees k) :
    x.Continues t (n :: ns) k ↔ x.Continues t' ns k := by
  have head : x.run (n :: ns) = 0 := by simp [run_cons, leaves]
  constructor
  · intro c
    obtain ⟨-, -, -, covers⟩ := c.covers
    rw [label, leaves, Bool.false_or, Bool.not_true, Bool.and_false] at covers
    have agree := (agrees k).mpr ⟨fun active => by simpa [head] using c.counting active, c.counted⟩
    have segment : (t.active = true ∨ t.target.isSome = true) ∨ ∃ n ∈ ns, n.isLabel = true := by
      simpa [label, or_assoc] using c.some_segment
    exact ⟨c.positive, by simp [idle], agree.2, by rwa [idle], .inr (segment.imp_left closed.mpr)⟩
  · intro c
    have agree := (agrees k).mp ⟨by simp [idle], c.counted⟩
    refine ⟨c.positive, fun active => ?_, agree.2,
      ⟨plain, by simp [silent], by simp [label], ?_⟩, ?_⟩
    · rw [head, Nat.add_zero, agree.1 active]
    · rw [label, leaves, Bool.false_or, Bool.not_true, Bool.and_false, ← idle]
      exact c.covers
    · have segment : t'.target.isSome = true ∨ ∃ n ∈ ns, n.isLabel = true := by
        simpa [idle] using c.some_segment
      simpa [label, or_assoc] using segment.imp_left closed.mp

private theorem judgeSwitchNodes_marked_iff (t : Tally) (next : Nat) (ns : List Node)
    (sound : t.Sound) :
    x.judgeSwitchNodes t next (ns.map Node.marked) = .balanced ↔ ∃ k, x.Continues t ns k := by
  induction ns generalizing t next with
  | nil => exact x.judgeSwitchNodes_nil_iff next sound
  | cons n ns ih =>
    cases label : n.isLabel with
    | true =>
      cases active : t.active with
      | true =>
        simp only [x.continues_label t t.segment label, exists_and_left]
        by_cases fresh : t.current = 0
        -- An empty segment goes on under its own number: restarting it changes nothing.
        · have same : t.start t.segment = t := by simp [Tally.start, ← fresh, ← active]
          simp [Node.marked, label, judgeSwitchNodes, active, fresh, same, ih t next sound]
        · simp [Node.marked, label, judgeSwitchNodes, active, fresh, Nat.pos_of_ne_zero]
      | false =>
        have opened := ih (t.start next) (next + 1) sound
        simp only [x.continues_label t next label, exists_and_left, ← opened]
        simp [Node.marked, label, judgeSwitchNodes, active]
    | false =>
      obtain ⟨step, plain, stays, silent⟩ | ⟨step, plain, stays, counts⟩ |
        ⟨step, plain, leaves, silent⟩ | ⟨span, why, step, obstacle⟩ := x.step_cases n
      · simp only [x.continues_body t label plain stays, silent]
        simp [Node.marked, label, judgeSwitchNodes, step, ih t next sound]
      · simp only [x.continues_body t label plain stays, counts, exists_and_left, true_implies]
        cases active : t.active with
        | true =>
          have counted := ih t.count next sound
          simp only [Tally.count, active] at counted
          simp [Node.marked, label, judgeSwitchNodes, step, active, Tally.count, counted]
        | false => simp [Node.marked, label, judgeSwitchNodes, step, active]
      · obtain ⟨t', settled, idle, sound', closed, agrees, -⟩ | ⟨why, failed, disagrees⟩ :=
          Tally.settle_cases sound
        · simp only [x.continues_break label plain leaves silent idle closed agrees,
            ← ih t' next sound']
          simp [Node.marked, label, judgeSwitchNodes, step, settled]
        · constructor
          · intro balanced
            simp [Node.marked, label, judgeSwitchNodes, step, failed] at balanced
          · rintro ⟨k, c⟩
            have counting (active : t.active = true) : t.current = k := by
              simpa [run_cons, leaves] using c.counting active
            exact absurd ⟨counting, c.counted⟩ (disagrees k c.positive)
      · constructor
        · intro balanced
          simp [Node.marked, label, judgeSwitchNodes, step] at balanced
        · rintro ⟨k, c⟩
          exact absurd c.covers.1 obstacle

private theorem forall_split_cons {α : Type} {P : List α → α → List α → Prop} (a : α) (l : List α) :
    (∀ pre b post, a :: l = pre ++ b :: post → P pre b post) ↔
      P [] a l ∧ ∀ pre b post, l = pre ++ b :: post → P (a :: pre) b post := by
  constructor
  · intro all
    exact ⟨all [] a l rfl, fun pre b post split => all (a :: pre) b post (by simp [split])⟩
  · rintro ⟨first, later⟩ pre b post split
    cases pre with
    | nil =>
      obtain ⟨rfl, rfl⟩ := List.cons.inj split
      exact first
    | cons c pre =>
      obtain ⟨rfl, rest⟩ := List.cons.inj split
      exact later pre b post rest

/-- Behind these nodes a label is in force, one of theirs or, if `covered`, one before them. -/
private def InForce (covered : Bool) (before : List Node) : Prop :=
  (covered = true ∧ ∀ n ∈ before, n.isBreak = false) ∨
    ∃ p l q, before = p ++ l :: q ∧ l.isLabel = true ∧ ∀ n ∈ q, n.isBreak = false

private theorem inForce_cons (covered : Bool) (n : Node) (before : List Node) :
    InForce covered (n :: before) ↔
      InForce (n.isLabel || (covered && !n.isBreak)) before := by
  constructor
  · intro inForce
    rcases inForce with ⟨active, stays⟩ | ⟨p, l, q, split, label, stays⟩
    · rw [List.forall_mem_cons] at stays
      exact .inl ⟨by simp [active, stays.1], stays.2⟩
    · cases p with
      | nil =>
        obtain ⟨rfl, rfl⟩ := List.cons.inj split
        exact .inl ⟨by simp [label], stays⟩
      | cons c p =>
        obtain ⟨rfl, rest⟩ := List.cons.inj split
        exact .inr ⟨p, l, q, rest, label, stays⟩
  · intro inForce
    rcases inForce with ⟨active, stays⟩ | ⟨p, l, q, rfl, label, stays⟩
    · cases label : n.isLabel with
      | true => exact .inr ⟨[], n, before, rfl, label, stays⟩
      | false =>
        have before : covered = true ∧ n.isBreak = false := by simpa [label] using active
        exact .inl ⟨before.1, List.forall_mem_cons.mpr ⟨before.2, stays⟩⟩
    · exact .inr ⟨n :: p, l, q, rfl, label, stays⟩

private theorem sealed_iff (k : Nat) (covered : Bool) (ns : List Node) :
    x.Sealed k covered ns ↔
      (∀ n ∈ ns, x.Plain n) ∧
      (∀ pre b post, ns = pre ++ b :: post → x.isBarrierNode b = true → InForce covered pre) ∧
      ∀ pre l post, ns = pre ++ l :: post → l.isLabel = true → x.run post = k := by
  induction ns generalizing covered with
  | nil => simp [Sealed]
  | cons n ns ih =>
    rw [Sealed, ih, forall_split_cons, forall_split_cons, List.forall_mem_cons]
    have start : InForce covered [] ↔ covered = true := by simp [InForce]
    simp only [inForce_cons, start]
    constructor
    · rintro ⟨plain, here, rest, plains, reached, runs⟩
      exact ⟨⟨plain, plains⟩, ⟨here, reached⟩, rest, runs⟩
    · rintro ⟨⟨plain, plains⟩, ⟨here, reached⟩, rest, runs⟩
      exact ⟨plain, here, rest, plains, reached, runs⟩

private theorem plain_of_judgeSwitchNodes (t : Tally) (next : Nat) (nodes : List (Mark × Node))
    (balanced : x.judgeSwitchNodes t next nodes = .balanced) :
    ∀ p ∈ nodes, p.1 ≠ .label → x.Plain p.2 := by
  induction nodes generalizing t next with
  | nil => simp
  | cons head rest ih =>
    obtain ⟨mark, n⟩ := head
    rw [List.forall_mem_cons]
    by_cases label : mark = .label
    · subst label
      refine ⟨fun other => absurd rfl other, ?_⟩
      rw [judgeSwitchNodes] at balanced
      split at balanced
      · split at balanced
        · cases balanced
        · exact ih t next balanced
      · exact ih _ _ balanced
    · rw [judgeSwitchNodes] at balanced
      rotate_left
      · exact label
      obtain ⟨step, plain, -, -⟩ | ⟨step, plain, -, -⟩ | ⟨step, plain, -, -⟩ |
        ⟨span, why, step, -⟩ := x.step_cases n
      · rw [step] at balanced
        exact ⟨fun _ => plain, ih t next balanced⟩
      · rw [step] at balanced
        dsimp only at balanced
        split at balanced
        · exact ⟨fun _ => plain, ih _ next balanced⟩
        · cases balanced
      · rw [step] at balanced
        dsimp only at balanced
        split at balanced
        · exact ⟨fun _ => plain, ih _ next balanced⟩
        · cases balanced
      · rw [step] at balanced
        cases balanced

private theorem outsideSwitches_of_flat {body : Stmt} {pre post : List Node} {n : Node}
    (flat : ∀ sw, .stmt sw ∈ body.preorder → sw.isSwitch = false)
    (split : body.preorder = pre ++ n :: post) : OutsideSwitches pre := by
  rintro p sw q rfl switch
  have plain := flat sw (by simp [split])
  rw [plain] at switch
  cases switch

private theorem exhaustive_of_flat {body : Stmt}
    (flat : ∀ sw, .stmt sw ∈ body.preorder → sw.isSwitch = false) :
    body.flattenSwitch.exhaustive = true ↔ ∃ span, .stmt (.defaultLabel span) ∈ body.preorder := by
  have labels : body.flattenSwitch.exhaustive = body.preorder.any Node.isDefault := by
    simp only [Stmt.flattenSwitch, Stmt.switchNodes_eq_map_marked body flat, List.filter_map,
      List.any_map, List.any_filter]
    congr 1
    funext n
    cases n with
    | expr e => simp [Node.marked, Node.isDefault]
    | stmt s =>
      cases s <;> simp [Node.marked, Node.isLabel, Stmt.isLabel, Node.isDefault, Stmt.isDefault]
  rw [labels, List.any_eq_true]
  constructor
  · rintro ⟨n, member, isDefault⟩
    obtain ⟨span, rfl⟩ := Node.eq_defaultLabel_of_isDefault isDefault
    exact ⟨span, member⟩
  · rintro ⟨span, member⟩
    exact ⟨_, member, rfl⟩

private theorem plain_of_judgeSwitch {body : Stmt}
    (balanced : x.judgeSwitch body.flattenSwitch = .balanced) (n : Node)
    (member : n ∈ body.preorder) : x.Plain n := by
  rw [← Stmt.switchNodes_map_snd false] at member
  obtain ⟨p, inside, rfl⟩ := List.mem_map.mp member
  by_cases label : p.1 = .label
  · exact (x.label_facts (Stmt.isLabel_of_mem_switchNodes false body p inside label)).1
  · rw [judgeSwitch] at balanced
    split at balanced
    · exact x.plain_of_judgeSwitchNodes {} 0 _ balanced p inside label
    · cases balanced

private theorem isSwitch_of_isBranching {s : Stmt} (straight : s.isBranching = false) :
    s.isSwitch = false := by
  cases s with
  | switch span cond body => cases straight
  | _ => rfl

private theorem judgeSwitch_of_flat {body : Stmt}
    (flat : ∀ sw, .stmt sw ∈ body.preorder → sw.isSwitch = false) :
    x.judgeSwitch body.flattenSwitch = .balanced ↔
      (∃ span, .stmt (.defaultLabel span) ∈ body.preorder) ∧
        ∃ k, 1 ≤ k ∧ x.Sealed k false body.preorder := by
  have nodes : body.flattenSwitch.nodes = body.preorder.map Node.marked :=
    Stmt.switchNodes_eq_map_marked body flat
  have judged := x.judgeSwitchNodes_marked_iff {} 0 body.preorder Tally.sound_initial
  rw [← exhaustive_of_flat flat, judgeSwitch, nodes]
  cases exhaustive : body.flattenSwitch.exhaustive with
  | false => simp
  | true =>
    simp only [if_true, judged, true_and]
    refine exists_congr fun k => ⟨fun c => ⟨c.positive, c.covers⟩, fun ⟨positive, covers⟩ => ?_⟩
    obtain ⟨span, member⟩ := (exhaustive_of_flat flat).mp exhaustive
    exact ⟨positive, by simp, by simp, covers, .inr (.inr ⟨_, member, rfl⟩)⟩

/-- The pass over a switch accepts it exactly if its labels are balanced. -/
theorem judgeSwitch_flatten_iff (body : Stmt) :
    x.judgeSwitch body.flattenSwitch = .balanced ↔ x.SwitchBalanced body := by
  constructor
  · intro balanced
    -- An accepted body holds no other switch, so all its labels are marked.
    have plain := x.plain_of_judgeSwitch balanced
    have flat (sw : Stmt) (member : .stmt sw ∈ body.preorder) : sw.isSwitch = false :=
      isSwitch_of_isBranching (plain (.stmt sw) member)
    obtain ⟨⟨span, member⟩, k, positive, covers⟩ := (x.judgeSwitch_of_flat flat).mp balanced
    obtain ⟨-, reached, runs⟩ := (x.sealed_iff k false body.preorder).mp covers
    refine ⟨?_, fun s member => plain _ member, fun e member => plain _ member, ?_, k, positive,
      fun pre l post split label _ => runs pre (.stmt l) post split label⟩
    · obtain ⟨pre, post, split⟩ := List.append_of_mem member
      exact ⟨pre, span, post, split, outsideSwitches_of_flat flat split⟩
    · intro pre b post split barrier
      obtain ⟨active, -⟩ | ⟨p, l, q, rfl, label, stays⟩ := reached pre (.expr b) post split barrier
      · cases active
      · cases l with
        | expr e => cases label
        | stmt l =>
          rw [List.append_assoc] at split
          exact ⟨p, l, q, rfl, label, outsideSwitches_of_flat flat split, fun s => stays (.stmt s)⟩
  · rintro ⟨⟨pre, span, post, split, -⟩, straight, calls, reached, k, positive, runs⟩
    have flat (sw : Stmt) (member : .stmt sw ∈ body.preorder) : sw.isSwitch = false :=
      isSwitch_of_isBranching (straight sw member)
    refine (x.judgeSwitch_of_flat flat).mpr ⟨⟨span, by simp [split]⟩, k, positive, ?_⟩
    rw [sealed_iff]
    refine ⟨?_, ?_, ?_⟩
    · intro n member
      cases n with
      | stmt s => exact straight s member
      | expr e => exact calls e member
    · intro pre b post split barrier
      cases b with
      | stmt s => cases barrier
      | expr b =>
        obtain ⟨p, l, q, rfl, label, -, stays⟩ := reached pre b post split barrier
        refine .inr ⟨p, .stmt l, q, rfl, label, ?_⟩
        intro n member
        cases n with
        | stmt s => exact stays s member
        | expr e => rfl
    · intro pre l post split label
      cases l with
      | expr e => cases label
      | stmt l => exact runs pre l post split label (outsideSwitches_of_flat flat split)

theorem checkSwitch_of_dependence {store : TaintStore} {s : Stmt} {cond : Expr}
    {d : Dependence} (source : SourceText) (body : Stmt)
    (dependent : x.dependence store cond = some d) :
    x.checkSwitch source store s cond body =
      if x.judgeSwitch body.flattenSwitch = .balanced then []
      else barrierFindings source store .switch cond d (x.barrierCalls s)
        (some (x.judgeSwitch body.flattenSwitch)) := by
  cases barriers : x.barrierCalls s with
  | nil => simp [checkSwitch, switchVerdict, barriers, barrierFindings]
  | cons b bs =>
    have verdict : x.switchVerdict store s cond body =
        some (x.judgeSwitch body.flattenSwitch, d, b :: bs) := by
      simp [switchVerdict, barriers, dependent]
    cases judged : x.judgeSwitch body.flattenSwitch <;> simp [checkSwitch, verdict, judged]

/-- A switch is accepted exactly if it is balanced. Under a condition that depends on an identity
an accepted switch is passed over in silence, and any other one is reported at each of its
barriers; silence means that it is balanced or that there is no barrier to report. -/
theorem switch_judged_exactly (span : Span) (cond : Expr) (body : Stmt) :
    (x.judgeSwitch body.flattenSwitch = .balanced ↔ x.SwitchBalanced body) ∧
    ∀ (source : SourceText) (store : TaintStore), (x.dependence store cond).isSome = true →
      (x.checkSwitch source store (.switch span cond body) cond body = [] ↔
        x.SwitchBalanced body ∨ ∀ n ∈ (Stmt.switch span cond body).preorder, ¬ x.CallsBarrier n) ∧
      (¬ x.SwitchBalanced body →
        (x.checkSwitch source store (.switch span cond body) cond body).map
            (fun f => (f.code, f.span)) =
          ((Stmt.switch span cond body).preorder.filter (x.CallsBarrier ·)).map
            fun n => (some "W0201", n.span)) := by
  have judged := x.judgeSwitch_flatten_iff body
  refine ⟨judged, fun source store depends => ?_⟩
  obtain ⟨d, dependent⟩ := Option.isSome_iff_exists.mp depends
  rw [x.checkSwitch_of_dependence source body dependent]
  by_cases balanced : x.SwitchBalanced body
  · rw [if_pos (judged.mpr balanced)]
    exact ⟨by simp [balanced], fun unbalanced => absurd balanced unbalanced⟩
  · rw [if_neg (mt judged.mp balanced)]
    rw [← barrierCalls_eq_nil_iff]
    constructor
    · simp [balanced, barrierFindings]
    · intro _
      rw [map_barrierFindings]
      exact x.map_span_barrierCalls (some "W0201", ·) _

/-- `{ case 0: { case 1: barrier(); break; } default: barrier(); }` -/
def switchSample : Stmt :=
  .compound ⟨0, 1⟩ [.caseLabel ⟨0, 1⟩ (.int ⟨0, 1⟩ 0),
    .compound ⟨0, 1⟩ [.caseLabel ⟨0, 1⟩ (.int ⟨0, 1⟩ 1), .expr ⟨0, 1⟩ (.invoke "barrier"),
      .breakJump ⟨0, 1⟩],
    .defaultLabel ⟨0, 1⟩, .expr ⟨0, 1⟩ (.invoke "barrier")]

/-- `{ case 0: barrier(); break; default: break; }` -/
def lopsidedSwitch : Stmt :=
  .compound ⟨0, 9⟩ [.caseLabel ⟨1, 2⟩ (.int ⟨1, 2⟩ 0), .expr ⟨3, 4⟩ (.invokeAt ⟨3, 4⟩ "barrier"),
    .breakJump ⟨5, 6⟩, .defaultLabel ⟨6, 7⟩, .breakJump ⟨7, 8⟩]

/-- One switch is passed over, the other one is reported at its barrier. -/
theorem switch_judged_exactly_sample :
    ((Context.mk {} {}).dependence {} (.invoke "get_local_id")).isSome = true ∧
      ((Context.mk {} {}).judgeSwitch switchSample.flattenSwitch = .balanced ∧
        (Context.mk {} {}).checkSwitch ⟨"k.cl", 1, [0]⟩ {}
          (.switch ⟨0, 1⟩ (.invoke "get_local_id") switchSample) (.invoke "get_local_id")
          switchSample = []) ∧
      (Context.mk {} {}).judgeSwitch lopsidedSwitch.flattenSwitch ≠ .balanced ∧
        ((Context.mk {} {}).checkSwitch ⟨"k.cl", 1, [0]⟩ {}
            (.switch ⟨0, 1⟩ (.invoke "get_local_id") lopsidedSwitch) (.invoke "get_local_id")
            lopsidedSwitch).map (fun f => (f.code, f.span)) = [(some "W0201", ⟨3, 4⟩)] := by
  have depends : ((Context.mk {} {}).dependence {} (.invoke "get_local_id")).isSome = true := by
    decide
  refine ⟨depends, ?_, ?_⟩
  · have judged : (Context.mk {} {}).judgeSwitch switchSample.flattenSwitch = .balanced := by decide
    have exactly :=
      switch_judged_exactly (Context.mk {} {}) ⟨0, 1⟩ (.invoke "get_local_id") switchSample
    exact ⟨judged, (exactly.2 _ _ depends).1.mpr (.inl (exactly.1.mp judged))⟩
  · have judged : (Context.mk {} {}).judgeSwitch lopsidedSwitch.flattenSwitch ≠ .balanced := by
      decide
    have exactly :=
      switch_judged_exactly (Context.mk {} {}) ⟨0, 1⟩ (.invoke "get_local_id") lopsidedSwitch
    refine ⟨judged, ((exactly.2 _ _ depends).2 (mt exactly.1.mpr judged)).trans ?_⟩
    decide

end Context

end Lockstep
