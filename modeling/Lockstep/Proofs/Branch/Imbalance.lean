import Lockstep.Proofs.Branch.Marks
import Lockstep.Proofs.Branch.Switch
/-!
What an imbalance says is so. The segment it names is counted from the tally, which closes a
segment only when the next one begins; here the number and the counts are compared with the
barriers that the blocks of a chain and the cases of a switch hold. A missing `else` or `default`
is told exactly where there is none.
-/

set_option autoImplicit false
set_option relaxedAutoImplicit false

namespace Lockstep

/-- What is said of a segment is so if the segments hold these numbers of barriers. -/
def Imbalance.HoldsOf (counts : List Nat) : Imbalance → Prop
  | noBarrier n => counts[n]? = some 0
  | countMismatch n expected found =>
    counts[0]? = some expected ∧ counts[n]? = some found ∧ 0 < expected ∧ 0 < found ∧
      expected ≠ found ∧ ∀ i < n, counts[i]? = some expected
  | missingElse | missingDefault => False

namespace Tally

def pending (t : Tally) : List Nat := if t.active then [t.current] else []

/-- The segments closed so far came to these counts, all of them positive and the same, and an open
segment has the number after theirs. -/
structure Follows (t : Tally) (closed : List Nat) : Prop where
  target : t.target = closed.head?
  even : ∀ c ∈ closed, 0 < c ∧ t.target = some c
  number : t.active = true → t.segment = closed.length

private theorem follows_initial : Follows {} [] := ⟨rfl, by simp, by simp⟩

private theorem holdsOf_countMismatch {closed : List Nat} {expected found : Nat}
    (first : closed.head? = some expected) (even : ∀ c ∈ closed, 0 < c ∧ some expected = some c)
    (positive : 0 < found) (differ : expected ≠ found) (later : List Nat) :
    (Imbalance.countMismatch closed.length expected found).HoldsOf
      (closed ++ [found] ++ later) := by
  have before (i : Nat) (inside : i < closed.length) :
      (closed ++ [found] ++ later)[i]? = some expected := by
    have listed := List.getElem?_eq_getElem inside
    rw [List.append_assoc, List.getElem?_append_left inside, listed]
    exact ((even _ (List.getElem_mem inside)).2).symm
  have member : expected ∈ closed := List.mem_of_head? first
  exact ⟨before 0 (List.length_pos_of_mem member), by simp, (even expected member).1, positive,
    differ, before⟩

/-- Closing the open segment either adds its count to the others or tells truly what is wrong with
it, whatever comes later. -/
theorem Follows.settle {t : Tally} {closed : List Nat} (follows : t.Follows closed) :
    (∃ t', t.settle = .ok t' ∧ t'.active = false ∧ t'.Follows (closed ++ t.pending)) ∨
    ∃ why, t.settle = .error why ∧ ∀ later, why.HoldsOf (closed ++ t.pending ++ later) := by
  obtain ⟨target, segment, current, active⟩ := t
  cases active with
  | false => exact .inl ⟨_, rfl, rfl, by simpa [pending] using follows⟩
  | true =>
    obtain ⟨first, even, number⟩ := follows
    have numbered : segment = closed.length := number rfl
    subst numbered
    by_cases empty : current = 0
    · refine .inr ⟨.noBarrier closed.length, by simp [Tally.settle, close, empty], fun later => ?_⟩
      simp [Imbalance.HoldsOf, pending, empty]
    · cases target with
      | none =>
        have none_closed : closed = [] := List.head?_eq_none_iff.mp first.symm
        subst none_closed
        refine .inl ⟨⟨some current, 0, current, false⟩, by simp [Tally.settle, close, empty], rfl,
          ?_⟩
        exact ⟨by simp [pending], by simp [pending, Nat.pos_of_ne_zero empty], by simp⟩
      | some m =>
        by_cases same : m = current
        · subst same
          refine .inl ⟨⟨some m, closed.length, m, false⟩, by simp [Tally.settle, close, empty], rfl,
            ?_, fun c member => ?_, by simp⟩
          · simp only [pending, if_true, List.head?_append, ← first, Option.some_or]
          · rcases List.mem_append.mp member with earlier | last
            · exact even c earlier
            · obtain rfl : c = m := by simpa [pending] using last
              exact ⟨Nat.pos_of_ne_zero empty, rfl⟩
        · refine .inr ⟨.countMismatch closed.length m current,
            by simp [Tally.settle, close, empty, same], fun later => ?_⟩
          exact holdsOf_countMismatch first.symm even (Nat.pos_of_ne_zero empty) same later

theorem Follows.start {t : Tally} {closed : List Nat} (follows : t.Follows closed) :
    (t.start closed.length).Follows closed :=
  ⟨follows.target, follows.even, fun _ => rfl⟩

private theorem Follows.recount {t : Tally} {closed : List Nat} (follows : t.Follows closed)
    (k : Nat) :
    Follows { t with current := k } closed :=
  ⟨follows.target, follows.even, follows.number⟩

end Tally

namespace Context

variable (x : Context)

/-- The number of barriers in each block of a chain. -/
def blockCounts (c : Chain) : List Nat := c.blocks.map fun b => (x.barrierCalls b).length

private theorem judge_conditions {t : Tally} {why : Imbalance} (es : List Expr)
    (rest : List (Mark × Node))
    (judged : x.judgeChainNodes t (es.map (fun e => (.condition, .expr e)) ++ rest) =
      .unbalanced why) :
    x.judgeChainNodes t rest = .unbalanced why := by
  induction es with
  | nil => exact judged
  | cons e es ih =>
    rw [List.map_cons, List.cons_append, judgeChainNodes] at judged
    split at judged
    · split at judged
      · exact ih judged
      · cases judged
    · exact ih judged

private theorem judge_block {t : Tally} {closed : List Nat} {why : Imbalance} {block : Stmt}
    {rest : List (Mark × Node)} (follows : t.Follows closed)
    (judged : x.judgeChainNodes t (segmentNodes (closed ++ t.pending).length block ++ rest) =
      .unbalanced why) :
    (∀ later, why.HoldsOf (closed ++ t.pending ++ later)) ∨
    ∃ t', t'.Follows (closed ++ t.pending) ∧ t'.pending = [(x.barrierCalls block).length] ∧
      x.judgeChainNodes t' rest = .unbalanced why := by
  obtain ⟨t', settled, -, follows'⟩ | ⟨what, failed, holds⟩ := follows.settle
  · rw [x.judge_segment_of_settle settled] at judged
    obtain ⟨-, counted⟩ | ⟨-, span, obstacle, unknown⟩ :=
      x.judge_body_cases (t'.start (closed ++ t.pending).length) block.preorder rest
    · rw [counted] at judged
      refine .inr ⟨_, follows'.start.recount _, ?_, judged⟩
      simp [Tally.pending, Tally.start, length_barrierCalls]
    · rw [unknown] at judged
      cases judged
  · rw [x.judge_segment_of_imbalance failed] at judged
    cases judged
    exact .inl holds

private theorem judge_link (t : Tally) (m : Nat) (l : Link) (rest : List (Mark × Node))
    {why : Imbalance} (judged : x.judgeChainNodes t (linkNodes m l ++ rest) = .unbalanced why) :
    x.judgeChainNodes t (segmentNodes m l.branch ++ rest) = .unbalanced why := by
  rw [linkNodes] at judged
  split at judged
  · rw [List.nil_append, List.append_assoc] at judged
    exact x.judge_conditions _ _ judged
  · rw [List.append_assoc, List.append_assoc, List.singleton_append, judgeChainNodes] at judged
    exact x.judge_conditions _ _ judged

private theorem judge_end {t : Tally} {closed : List Nat} {why : Imbalance}
    (follows : t.Follows closed) (judged : x.judgeChainNodes t [] = .unbalanced why)
    (later : List Nat) : why.HoldsOf (closed ++ t.pending ++ later) := by
  obtain ⟨t', settled, -, -⟩ | ⟨what, failed, holds⟩ := follows.settle
  · simp [judgeChainNodes, settled] at judged
  · simp only [judgeChainNodes, failed, Verdict.unbalanced.injEq] at judged
    exact judged ▸ holds later

private theorem holdsOf_of_judgeChainNodes (c : Chain) {t : Tally} {closed : List Nat}
    {why : Imbalance} (follows : t.Follows closed)
    (judged : x.judgeChainNodes t (c.layoutFrom (closed ++ t.pending).length) = .unbalanced why) :
    why.HoldsOf (closed ++ t.pending ++ x.blockCounts c) := by
  -- The induction is on the links that are left, with the counts of the segments before them.
  obtain ⟨links, final⟩ := c
  induction links generalizing t closed with
  | nil =>
    cases final with
    | none => exact x.judge_end follows judged _
    | some e =>
      simp only [Chain.layoutFrom, List.zipIdx_nil, List.flatMap_nil, List.nil_append,
        List.length_nil, Nat.add_zero, Option.toList_some, List.flatMap_singleton] at judged
      rw [← List.append_nil (segmentNodes _ _)] at judged
      obtain holds | ⟨t', follows', counted, judged'⟩ := x.judge_block follows judged
      · exact holds _
      · have told := x.judge_end follows' judged' []
        rw [counted, List.append_nil] at told
        exact told
  | cons l links ih =>
    rw [Chain.layoutFrom_cons] at judged
    obtain holds | ⟨t', follows', counted, judged'⟩ :=
      x.judge_block follows (x.judge_link _ _ _ _ judged)
    · exact holds _
    · have next : (closed ++ t.pending).length + 1 =
          (closed ++ t.pending ++ t'.pending).length := by
        simp [counted, Nat.add_assoc]
      rw [next] at judged'
      have told := ih follows' judged'
      rw [counted] at told
      simpa [blockCounts, Chain.blocks] using told

end Context

/-- The groups of nodes into which the labels of a switch divide its body: each begins with a label
outside the one before and ends with the next `break`. `within` tells whether a group is still open
at the first node. -/
def caseGroups (within : Bool) : List (Mark × Node) → List (List Node)
  | [] => []
  | (mark, n) :: rest =>
    if within then caseGroups (!n.isBreak) rest
    else if mark = .label then
      (n :: rest.map Prod.snd).takeWhile (!·.isBreak) :: caseGroups true rest
    else caseGroups false rest

namespace Context

variable (x : Context)

def groupCounts (within : Bool) (entries : List (Mark × Node)) : List Nat :=
  (caseGroups within entries).map (List.countP x.isBarrierNode)

/-- The number of barriers in each case of a switch. -/
def caseCounts (body : Stmt) : List Nat := x.groupCounts false body.flattenSwitch.nodes

private def upcoming (t : Tally) (entries : List (Mark × Node)) : List Nat :=
  (if t.active then [t.current + x.run (entries.map Prod.snd)] else []) ++
    x.groupCounts t.active entries

private theorem upcoming_label {t : Tally} {n : Node} (label : n.isLabel = true) (m : Nat)
    (rest : List (Mark × Node)) :
    x.upcoming t ((.label, n) :: rest) =
      x.upcoming (if t.active then t else t.start m) rest := by
  obtain ⟨-, stays, silent⟩ := x.label_facts label
  have head : x.run (n :: rest.map Prod.snd) = x.run (rest.map Prod.snd) := by
    simp [run_cons, stays, silent]
  cases active : t.active with
  | true => simp [upcoming, active, head, groupCounts, caseGroups, stays]
  | false =>
    simp only [upcoming, active, Tally.start, groupCounts, caseGroups, Bool.false_eq_true, if_false,
      if_true, List.map_cons, List.nil_append, List.singleton_append, Nat.zero_add, ← head]
    rfl

private theorem upcoming_body {t : Tally} {mark : Mark} {n : Node} (other : mark ≠ .label)
    (stays : n.isBreak = false) (rest : List (Mark × Node)) :
    x.upcoming t ((mark, n) :: rest) =
      x.upcoming { t with current := t.current + if x.isBarrierNode n then 1 else 0 } rest := by
  cases active : t.active with
  | true =>
    have head : t.current + x.run (n :: rest.map Prod.snd) =
        (t.current + if x.isBarrierNode n then 1 else 0) + x.run (rest.map Prod.snd) := by
      simp only [run_cons, stays, Bool.false_eq_true, if_false]
      omega
    simp [upcoming, active, head, groupCounts, caseGroups, stays]
  | false => simp [upcoming, active, groupCounts, caseGroups, other]

private theorem upcoming_break {t t' : Tally} {mark : Mark} {n : Node} (other : mark ≠ .label)
    (leaves : n.isBreak = true) (idle : t'.active = false) (rest : List (Mark × Node)) :
    x.upcoming t ((mark, n) :: rest) = t.pending ++ x.upcoming t' rest := by
  have head : x.run (n :: rest.map Prod.snd) = 0 := by simp [run_cons, leaves]
  cases active : t.active with
  | true => simp [upcoming, active, idle, head, groupCounts, caseGroups, leaves, Tally.pending]
  | false => simp [upcoming, active, idle, groupCounts, caseGroups, other, Tally.pending]

private theorem holdsOf_of_judgeSwitchNodes (entries : List (Mark × Node)) {t : Tally}
    {closed : List Nat} {why : Imbalance}
    (labels : ∀ p ∈ entries, p.1 = .label → p.2.isLabel = true) (follows : t.Follows closed)
    (segment : closed ++ t.pending ≠ [] ∨ ∃ p ∈ entries, p.1 = .label)
    (judged : x.judgeSwitchNodes t (closed ++ t.pending).length entries = .unbalanced why) :
    why.HoldsOf (closed ++ x.upcoming t entries) := by
  -- The induction is on the nodes that are left; a segment is open, was closed or is still to come,
  -- so that the pass never ends without one.
  induction entries generalizing t closed with
  | nil =>
    have open_last : x.upcoming t [] = t.pending := by
      cases active : t.active <;>
        simp [upcoming, Tally.pending, active, run, groupCounts, caseGroups]
    rw [open_last]
    obtain ⟨t', settled, -, follows'⟩ | ⟨what, failed, holds⟩ := follows.settle
    · have counted : closed ++ t.pending ≠ [] := by simpa using segment
      have first : t'.target.isNone = false := by
        rw [follows'.target, Option.isNone_eq_false_iff]
        exact List.isSome_head?.mpr counted
      simp [judgeSwitchNodes, settled, first] at judged
    · simp only [judgeSwitchNodes, failed, Verdict.unbalanced.injEq] at judged
      simpa [judged] using holds []
  | cons head rest ih =>
    obtain ⟨mark, n⟩ := head
    rw [List.forall_mem_cons] at labels
    obtain ⟨own, labels⟩ := labels
    by_cases label : mark = .label
    · subst label
      rw [judgeSwitchNodes] at judged
      rw [x.upcoming_label (own rfl) (closed ++ t.pending).length]
      cases active : t.active with
      | true =>
        have opened : closed ++ t.pending ≠ [] := by simp [Tally.pending, active]
        rw [if_pos active] at judged
        split at judged
        · cases judged
        · exact ih labels follows (.inl opened) judged
      | false =>
        have none_open : t.pending = [] := by simp [Tally.pending, active]
        rw [if_neg (by simp [active]), none_open, List.append_nil] at judged
        rw [none_open, List.append_nil]
        have next : closed.length + 1 = (closed ++ (t.start closed.length).pending).length := by
          simp [Tally.pending, Tally.start]
        rw [next] at judged
        exact ih labels follows.start (.inl (by simp [Tally.pending, Tally.start])) judged
    · have remains : closed ++ t.pending ≠ [] ∨ ∃ p ∈ rest, p.1 = .label := by
        simpa [label] using segment
      rw [judgeSwitchNodes] at judged
      rotate_left
      · exact label
      obtain ⟨step, -, stays, silent⟩ | ⟨step, -, stays, counts⟩ | ⟨step, -, leaves, -⟩ |
        ⟨span, obstacle, step, -⟩ := x.step_cases n
      · rw [step] at judged
        rw [x.upcoming_body label stays, silent]
        exact ih labels follows remains judged
      · rw [step] at judged
        dsimp only at judged
        split at judged
        · rename_i active
          have same : (closed ++ t.pending).length = (closed ++ t.count.pending).length := by
            simp [Tally.pending, Tally.count, active]
          rw [same] at judged
          rw [x.upcoming_body label stays, counts]
          exact ih labels (follows.recount _) (.inl (by simp [Tally.pending, active])) judged
        · cases judged
      · rw [step] at judged
        dsimp only at judged
        obtain ⟨t', settled, idle, follows'⟩ | ⟨what, failed, holds⟩ := follows.settle
        · have none_open : t'.pending = [] := by simp [Tally.pending, idle]
          rw [settled] at judged
          rw [x.upcoming_break label leaves idle, ← List.append_assoc]
          refine ih labels follows' ?_ ?_
          · rwa [none_open, List.append_nil]
          · rwa [none_open, List.append_nil]
        · rw [failed] at judged
          cases judged
          have idle : ({} : Tally).active = false := rfl
          rw [x.upcoming_break label leaves idle, ← List.append_assoc]
          exact holds _
      · rw [step] at judged
        cases judged

end Context

theorem StandOn.mem_iff {n m : Node} {ways : List Way} {mark : Way → Mark}
    {entries : List (Mark × Node)} {k : Mark} (stands : StandOn n ways mark entries) :
    (k, m) ∈ entries ↔ ∃ w ∈ ways, mark w = k ∧ n.at? w = some m := by
  have told : (k, some m) ∈ entries.map (fun p => (p.1, some p.2)) ↔ (k, m) ∈ entries := by
    simp
  rw [← told, stands]
  simp

namespace Stmt

private theorem exhaustive_iff_mem (body : Stmt) :
    body.flattenSwitch.exhaustive = true ↔
      ∃ l, (.label, l) ∈ body.flattenSwitch.nodes ∧ l.isDefault = true := by
  simp only [flattenSwitch, List.any_eq_true, List.mem_filter, decide_eq_true_eq, Prod.exists]
  constructor
  · rintro ⟨mark, l, ⟨member, rfl⟩, found⟩
    refine ⟨l, member, ?_⟩
    split at found
    · rename_i same
      cases same
      rfl
    · cases found
  · rintro ⟨l, member, found⟩
    obtain ⟨span, rfl⟩ := Node.eq_defaultLabel_of_isDefault found
    exact ⟨.label, _, ⟨member, rfl⟩, rfl⟩

private theorem exhaustive_flattenSwitch_iff (body : Stmt) :
    body.flattenSwitch.exhaustive = true ↔
      ∃ w l, (Node.stmt body).Owns w l ∧ l.isDefault = true := by
  have stands : StandOn (.stmt body) (Node.stmt body).ways ((Node.stmt body).ownMark false)
      body.flattenSwitch.nodes := (Node.stmt body).standOn_switchNodes false
  rw [exhaustive_iff_mem]
  constructor
  · rintro ⟨l, member, found⟩
    obtain ⟨w, -, mark, leads⟩ := stands.mem_iff.mp member
    obtain ⟨-, m, owns, -⟩ := (Node.ownMark_eq_label_iff _ _ w).mp mark
    obtain rfl : m = l := Option.some.inj (owns.stands.symm.trans leads)
    exact ⟨w, m, owns, found⟩
  · rintro ⟨w, l, owns, found⟩
    have label : l.isLabel = true := by
      obtain ⟨span, rfl⟩ := Node.eq_defaultLabel_of_isDefault found
      rfl
    have mark := (Node.ownMark_eq_label_iff _ false w).mpr ⟨rfl, l, owns, label⟩
    have listed : w ∈ (Node.stmt body).ways := Node.mem_ways_iff.mpr (by rw [owns.stands]; rfl)
    exact ⟨l, stands.mem_iff.mpr ⟨w, listed, mark, owns.stands⟩, found⟩

end Stmt

namespace Context

variable (x : Context)

private theorem judgeChain_unbalanced (s : Stmt) {why : Imbalance}
    (judged : x.judgeChain s.chain.flatten = .unbalanced why) :
    (s.chain.final = none ∧ why = .missingElse) ∨
      (s.chain.final ≠ none ∧ why.HoldsOf (x.blockCounts s.chain)) := by
  have exhaustive : s.chain.flatten.exhaustive = s.chain.final.isSome := rfl
  rw [judgeChain, exhaustive] at judged
  cases final : s.chain.final with
  | none =>
    simp only [final, Option.isSome_none, Bool.false_eq_true, if_false,
      Verdict.unbalanced.injEq] at judged
    exact .inl ⟨rfl, judged.symm⟩
  | some e =>
    simp only [final, Option.isSome_some, if_true, Chain.flatten_nodes] at judged
    exact .inr ⟨by simp, x.holdsOf_of_judgeChainNodes s.chain Tally.follows_initial judged⟩

private theorem judgeSwitch_unbalanced (body : Stmt) {why : Imbalance}
    (judged : x.judgeSwitch body.flattenSwitch = .unbalanced why) :
    (body.flattenSwitch.exhaustive = false ∧ why = .missingDefault) ∨
      (body.flattenSwitch.exhaustive = true ∧ why.HoldsOf (x.caseCounts body)) := by
  rw [judgeSwitch] at judged
  cases exhaustive : body.flattenSwitch.exhaustive with
  | false =>
    rw [exhaustive] at judged
    cases judged
    exact .inl ⟨rfl, rfl⟩
  | true =>
    rw [if_pos exhaustive] at judged
    obtain ⟨l, member, -⟩ := (Stmt.exhaustive_iff_mem body).mp exhaustive
    refine .inr ⟨rfl, ?_⟩
    exact x.holdsOf_of_judgeSwitchNodes _ (Stmt.isLabel_of_mem_switchNodes false body)
      Tally.follows_initial (.inr ⟨_, member, rfl⟩) judged

/-- What a verdict says against a construct is so. A missing `else` is told exactly if the chain has
no final one and a missing `default` exactly if the switch has none of its own; anything else that
is told names a block, or a case, with the number of barriers that it holds. -/
theorem imbalance_told_truly :
    (∀ (s : Stmt) (why : Imbalance), x.judgeChain s.chain.flatten = .unbalanced why →
      why = .missingElse ∨ why.HoldsOf (x.blockCounts s.chain)) ∧
    (∀ s : Stmt, x.judgeChain s.chain.flatten = .unbalanced .missingElse ↔ s.chain.final = none) ∧
    (∀ (body : Stmt) (why : Imbalance), x.judgeSwitch body.flattenSwitch = .unbalanced why →
      why = .missingDefault ∨ why.HoldsOf (x.caseCounts body)) ∧
    ∀ body : Stmt, x.judgeSwitch body.flattenSwitch = .unbalanced .missingDefault ↔
      ¬ ∃ w l, (Node.stmt body).Owns w l ∧ l.isDefault = true := by
  refine ⟨fun s why judged => ?_, fun s => ⟨fun judged => ?_, fun final => ?_⟩,
    fun body why judged => ?_, fun body => ?_⟩
  · exact (x.judgeChain_unbalanced s judged).imp And.right And.right
  · obtain ⟨final, -⟩ | ⟨-, impossible⟩ := x.judgeChain_unbalanced s judged
    · exact final
    · cases impossible
  · simp [judgeChain, Chain.flatten, final]
  · exact (x.judgeSwitch_unbalanced body judged).imp And.right And.right
  · rw [← Stmt.exhaustive_flattenSwitch_iff, Bool.not_eq_true]
    constructor
    · intro judged
      obtain ⟨missing, -⟩ | ⟨-, impossible⟩ := x.judgeSwitch_unbalanced body judged
      · exact missing
      · cases impossible
    · intro missing
      simp [judgeSwitch, missing]

/-- `if (0) barrier(); else { barrier(); barrier(); }` -/
def unevenSample : Stmt :=
  .ifElse ⟨0, 1⟩ (.int ⟨0, 1⟩ 0) (.expr ⟨0, 1⟩ (.invoke "barrier"))
    (.compound ⟨0, 1⟩ [.expr ⟨0, 1⟩ (.invoke "barrier"), .expr ⟨0, 1⟩ (.invoke "barrier")])

/-- `{ case 0: case 1: barrier(); break; default: break; }` -/
def emptyCaseSample : Stmt :=
  .compound ⟨0, 1⟩ [.caseLabel ⟨0, 1⟩ (.int ⟨0, 1⟩ 0), .caseLabel ⟨0, 1⟩ (.int ⟨0, 1⟩ 1),
    .expr ⟨0, 1⟩ (.invoke "barrier"), .breakJump ⟨0, 1⟩, .defaultLabel ⟨0, 1⟩, .breakJump ⟨0, 1⟩]

theorem imbalance_told_truly_sample :
    (Context.mk {} {}).judgeChain unevenSample.chain.flatten = .unbalanced (.countMismatch 1 1 2) ∧
      (Imbalance.countMismatch 1 1 2).HoldsOf ((Context.mk {} {}).blockCounts unevenSample.chain) ∧
      (Context.mk {} {}).judgeSwitch emptyCaseSample.flattenSwitch = .unbalanced (.noBarrier 1) ∧
      (Imbalance.noBarrier 1).HoldsOf ((Context.mk {} {}).caseCounts emptyCaseSample) := by
  have uneven : (Context.mk {} {}).judgeChain unevenSample.chain.flatten =
      .unbalanced (.countMismatch 1 1 2) := by decide
  have empty : (Context.mk {} {}).judgeSwitch emptyCaseSample.flattenSwitch =
      .unbalanced (.noBarrier 1) := by decide
  obtain ⟨chains, -, switches, -⟩ := imbalance_told_truly (Context.mk {} {})
  exact ⟨uneven, (chains _ _ uneven).resolve_left (by decide), empty,
    (switches _ _ empty).resolve_left (by decide)⟩

end Context

end Lockstep
