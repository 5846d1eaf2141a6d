import Lockstep.Proofs.Calls.Run
import Lockstep.Proofs.Calls.Sites
import Lockstep.Proofs.Naming.Wording
import Lockstep.Proofs.Taint.Visible
/-!
What the checks say. A message holds words of its own, numbers, places, and names from the tables or
from nodes of the file; so it stands on one line if these names and the name of the file do. The
records about values and the calls that were met keep to such names over a whole run.
-/

set_option autoImplicit false
set_option relaxedAutoImplicit false

namespace Lockstep

/-- The message and those of the notes stand on one line each. -/
structure Finding.OneLined (f : Finding) : Prop where
  message : OneLine f.message
  notes : ∀ n ∈ f.notes, OneLine n.message

def TaintStore.OneLined (store : TaintStore) : Prop := ∀ r ∈ store.records, OneLine r.2.message

/-- The names of the functions stand on one line. -/
structure CallMap.OneLined (m : CallMap) : Prop where
  ranges : ∀ r ∈ m.ranges, OneLine r.1
  calls : ∀ c ∈ m.calls, OneLine c.callee ∧ OneLine c.caller

def CallTarget.OneLined : CallTarget → Prop
  | identity name | barrier name | other name => OneLine name
  | unresolved => True

def Dependence.OneLined : Dependence → Prop
  | identityCall callee _ => OneLine callee
  | reference r => OneLine r.name

private theorem Key.oneLine_describe (k : Key) {name : String} (named : OneLine name) :
    OneLine (k.describe name) := by
  cases k with
  | var i => exact .append (.append (by decide) named) (by decide)
  | field i => exact .append (.append (by decide) named) (by decide)

theorem Dependence.oneLine_message {d : Dependence} (lined : d.OneLined) {target : String}
    (described : OneLine target) : OneLine (d.message target) := by
  cases d with
  | identityCall callee span =>
    exact .append (.append (.append (.append (by decide) described) (by decide)) lined) (by decide)
  | reference r =>
    exact .append (.append (.append (by decide) described) (by decide)) (r.key.oneLine_describe lined)

theorem TaintStore.OneLined.trace {store : TaintStore} (lined : store.OneLined) (k : Key) :
    ∀ n ∈ store.trace k, OneLine n.message := by
  have follow (steps : Nat) (cursor : Option Key) :
      ∀ n ∈ store.follow steps cursor, OneLine n.message := by
    induction steps generalizing cursor with
    | zero => exact nofun
    | succ steps ih =>
      cases cursor with
      | none => exact nofun
      | some k =>
        unfold TaintStore.follow
        split
        · exact nofun
        next p known =>
          obtain ⟨before, behind, split, -⟩ := List.lookup_eq_some_iff.mp known
          have recorded : (k, p) ∈ store.records := by simp [split]
          exact List.forall_mem_cons.mpr ⟨lined _ recorded, ih p.copiedFrom⟩
  exact follow _ _

theorem Imbalance.oneLine_message (why : Imbalance) : OneLine why.message := by
  cases why with
  | missingElse => exact (by decide : OneLine "the chain has no final 'else' branch")
  | missingDefault => exact (by decide : OneLine "the switch has no 'default' label")
  | noBarrier segment => exact .append (.append (by decide) (.nat _)) (by decide)
  | countMismatch segment expected found =>
    exact .append (.append (.append (.append (.append (by decide) (.nat _)) (by decide)) (.nat _))
      (by decide)) (.nat _)

def Verdict.OneLined (v : Verdict) : Prop := ∀ cond, ∀ n ∈ v.note cond, OneLine n.message

theorem Verdict.OneLined.unbalanced (why : Imbalance) : (Verdict.unbalanced why).OneLined :=
  fun _ => List.forall_mem_singleton.mpr (.append (by decide) why.oneLine_message)

theorem Verdict.OneLined.unknown {span : Span} {why : Obstacle} (told : OneLine why.message) :
    (Verdict.unknown span why).OneLined :=
  fun _ => List.forall_mem_singleton.mpr (.append (by decide) told)

/-- The names that the tables hold, and the nodes with all that stands inside them, stand on one
line. -/
structure Context.OneLined (x : Context) (nodes : List Node) : Prop where
  tables : x.names.OneLined
  words : ∀ n ∈ nodes, ∀ use ∈ n.word?, OneLine use.2
  closed : ∀ n ∈ nodes, n.preorder ⊆ nodes

namespace Context.OneLined

variable {x : Context} {nodes : List Node} (lined : x.OneLined nodes)

include lined

theorem child {n c : Node} (inside : n ∈ nodes) (child : c ∈ n.children) : c ∈ nodes :=
  lined.closed n inside
    (Node.mem_preorder_iff.mpr (.inr ⟨c, child, Node.mem_preorder_iff.mpr (.inl rfl)⟩))

theorem visible {policy : IndexPolicy} {v e : Expr} (visible : Expr.Visible policy v e)
    (inside : .expr e ∈ nodes) : .expr v ∈ nodes := by
  induction visible with
  | here => exact inside
  | @within c e child _ ih =>
    have operand := Expr.visibleChildren_subset policy e child
    exact ih (lined.child inside (List.mem_map_of_mem operand))

theorem calleeName {e : Expr} {n : String} (inside : .expr e ∈ nodes)
    (named : x.names.calleeName e = some n) : OneLine n := by
  rw [eq_name_of_calleeName named] at inside
  exact lined.words _ inside (e.span, n) rfl

theorem callTarget {e : Expr} {target : CallTarget} (inside : .expr e ∈ nodes)
    (calls : x.callTarget e = some target) : target.OneLined := by
  cases e with
  | call span callee args =>
    have operand : .expr callee ∈ nodes :=
      lined.child inside (List.mem_map_of_mem List.mem_cons_self)
    rw [Context.callTarget, Option.some.injEq] at calls
    rw [← calls]
    cases named : x.names.calleeName callee with
    | none => exact trivial
    | some n =>
      have told := lined.calleeName operand named
      dsimp only
      split_ifs <;> exact told
  | _ => cases calls

theorem nameOf (k : Key) : OneLine (x.nameOf k) := by
  have nameless : OneLine "" := by decide
  cases k with
  | var i =>
    rw [Context.nameOf]
    cases known : x.names.vars[i]? with
    | none => exact nameless
    | some v => exact lined.tables.vars v (List.mem_of_getElem? known)
  | field i =>
    rw [Context.nameOf]
    cases known : x.names.fields[i]? with
    | none => exact nameless
    | some f => exact lined.tables.fields f (List.mem_of_getElem? known)

theorem describe (k : Key) : OneLine (x.describe k) := k.oneLine_describe (lined.nameOf k)

theorem dependence {store : TaintStore} {e : Expr} {d : Dependence} (inside : .expr e ∈ nodes)
    (depends : x.dependence store e = some d) : d.OneLined := by
  unfold Context.dependence at depends
  split at depends
  next call found =>
    cases depends
    obtain ⟨v, seen, asked⟩ := Expr.exists_visible_of_firstVisible found
    have nameless : OneLine "" := by decide
    split_ifs at asked
    cases asked
    show OneLine ((x.identityCallee call).getD "")
    rw [identityCallee]
    split
    next name calls => exact lined.callTarget (lined.visible seen inside) calls
    next => exact nameless
  next =>
    obtain ⟨r, found, rfl⟩ := Option.map_eq_some_iff.mp depends
    obtain ⟨v, -, asked⟩ := Expr.exists_visible_of_firstVisible found
    unfold taintedRef at asked
    split at asked
    next key known =>
      split_ifs at asked
      cases asked
      exact lined.nameOf key
    next => cases asked

theorem propagate {store : TaintStore} (records : store.OneLined) {target : Key} {value : Expr}
    (inside : .expr value ∈ nodes) (span : Span) :
    (x.propagate store target value span).OneLined := by
  unfold Context.propagate
  split
  next d depends =>
    unfold influx at depends
    split_ifs at depends with unknown
    have told := Dependence.oneLine_message (lined.dependence inside depends) (lined.describe target)
    rw [TaintStore.record, if_neg unknown]
    exact List.forall_mem_append.mpr ⟨records, List.forall_mem_singleton.mpr told⟩
  next => exact records

theorem step {n : Node} {span : Span} {why : Obstacle} (inside : n ∈ nodes)
    (stopped : x.step n = .obstacle span why) : OneLine why.message := by
  cases n with
  | stmt s =>
    have two : why = .nestedBranch ∨ why = .jump := by
      cases s <;> cases stopped <;> first | exact .inl rfl | exact .inr rfl
    rcases two with rfl | rfl
    · exact (by decide : OneLine "nested branch or loop")
    · exact (by decide : OneLine "jump statement")
  | expr e =>
    rw [Context.step] at stopped
    have called {name : String} (told : OneLine name) : OneLine (Obstacle.nonBarrierCall name).message :=
      .append (.append (by decide) told) (by decide)
    split at stopped
    · cases stopped
    · cases stopped
    next name target =>
      cases stopped
      exact called (lined.callTarget inside target)
    next name target =>
      cases stopped
      exact called (lined.callTarget inside target)
    next =>
      cases stopped
      exact (by decide : OneLine "call with no statically known callee")

theorem judgeChain {flat : Flat} (inside : ∀ p ∈ flat.nodes, p.2 ∈ nodes) :
    (x.judgeChain flat).OneLined := by
  have counted (t : Tally) (ps : List (Mark × Node)) (inside : ∀ p ∈ ps, p.2 ∈ nodes) :
      (x.judgeChainNodes t ps).OneLined := by
    have condition : OneLine Obstacle.callInCondition.message :=
      (by decide : OneLine "function call in branch condition")
    have jump : OneLine Obstacle.jump.message := (by decide : OneLine "jump statement")
    fun_induction Context.judgeChainNodes x t ps
    case case1 => exact nofun
    case case2 why _ | case7 why _ => exact .unbalanced why
    case case5 => exact .unknown condition
    case case10 => exact .unknown jump
    case case11 stopped => exact .unknown (lined.step (inside _ List.mem_cons_self) stopped)
    -- All others go on behind the node.
    all_goals
      rename_i ih
      exact ih (List.forall_mem_cons.mp inside).2
  unfold Context.judgeChain
  split_ifs
  · exact counted {} flat.nodes inside
  · exact .unbalanced .missingElse

theorem judgeSwitch {flat : Flat} (inside : ∀ p ∈ flat.nodes, p.2 ∈ nodes) :
    (x.judgeSwitch flat).OneLined := by
  have counted (t : Tally) (next : Nat) (ps : List (Mark × Node)) (inside : ∀ p ∈ ps, p.2 ∈ nodes) :
      (x.judgeSwitchNodes t next ps).OneLined := by
    have falls : OneLine Obstacle.fallthroughAfterBarrier.message :=
      (by decide : OneLine "fall-through into the next case after a barrier")
    have outside : OneLine Obstacle.barrierOutsideCase.message :=
      (by decide : OneLine "barrier outside any case")
    fun_induction Context.judgeSwitchNodes x t next ps
    case case1 => exact .unbalanced (.noBarrier 0)
    case case2 => exact nofun
    case case3 why _ | case11 why _ => exact .unbalanced why
    case case4 => exact .unknown falls
    case case9 => exact .unknown outside
    case case12 stopped => exact .unknown (lined.step (inside _ List.mem_cons_self) stopped)
    all_goals
      rename_i ih
      exact ih (List.forall_mem_cons.mp inside).2
  unfold Context.judgeSwitch
  split_ifs
  · exact counted {} 0 flat.nodes inside
  · exact .unbalanced .missingDefault

variable {source : SourceText} {store : TaintStore} (file : OneLine source.name)
  (records : store.OneLined)

include records in
theorem checkLoopCondition {kind : LoopKind} {cond : Expr} (inside : .expr cond ∈ nodes) {f : Finding}
    (found : Lockstep.checkLoopCondition x store kind cond = some f) : f.OneLined := by
  have word : OneLine kind.word := by cases kind <;> decide
  have told {reason : String} (because : OneLine reason) :
      OneLine ("backward branch (" ++ kind.word ++ " loop) is identity-dependent due to " ++ reason ++
        " and may cause performance degradation") :=
    .append (.append (.append (.append (by decide) word) (by decide)) because) (by decide)
  obtain ⟨d, depends, rfl⟩ := Option.map_eq_some_iff.mp found
  have described := lined.dependence inside depends
  cases d with
  | identityCall callee span => exact ⟨told (by decide), nofun⟩
  | reference r =>
    exact ⟨told (.append (by decide) (r.key.oneLine_describe described)), records.trace r.key⟩

omit lined in
include file in
theorem checkKernel {fn : Function} (titled : OneLine fn.name.name) {f : Finding}
    (found : Lockstep.checkKernel x source fn = some f) : f.OneLined := by
  simp only [Lockstep.checkKernel, Option.bind_eq_bind, Option.bind_eq_some_iff] at found
  obtain ⟨body, -, barrier, -, found⟩ := found
  split_ifs at found
  cases found
  have place := source.oneLine_location file barrier.span
  exact ⟨.append (.append (.append (.append (.append (by decide) titled) (by decide)) (by decide))
    place) (by decide), by simp⟩

omit lined in
include file records in
theorem barrierFindings {kind : Conditional} {cond : Expr} {d : Dependence} (told : d.OneLined)
    {barriers : List Expr} {verdict : Option Verdict} (judged : ∀ v ∈ verdict, v.OneLined)
    {f : Finding} (found : f ∈ Context.barrierFindings source store kind cond d barriers verdict) :
    f.OneLined := by
  have words : OneLine kind.words := by
    cases kind with
    | loop kind => cases kind <;> decide
    | ifElse | switch => decide
  have place := source.oneLine_location file cond.span
  have message {reason : String} (because : OneLine reason) :
      OneLine ("barrier inside " ++ kind.words ++ " may not be reachable by all work-items due to " ++
        reason ++ " in condition at " ++ (source.spanLocation cond.span).toText) :=
    .append (.append (.append (.append (.append (by decide) words) (by decide)) because) (by decide))
      place
  have notes {trace : List Note} (each : ∀ n ∈ trace, OneLine n.message) :
      ∀ n ∈ trace ++ verdict.toList.flatMap (Verdict.note cond.span), OneLine n.message := by
    refine List.forall_mem_append.mpr ⟨each, fun n member => ?_⟩
    obtain ⟨v, given, own⟩ := List.mem_flatMap.mp member
    exact judged v (Option.mem_toList.mp given) cond.span n own
  obtain ⟨b, -, rfl⟩ := List.mem_map.mp found
  cases d with
  | identityCall callee span =>
    exact ⟨message (by decide : OneLine "identity function call"), notes nofun⟩
  | reference r =>
    exact ⟨message (.append (by decide) (r.key.oneLine_describe told)), notes (records.trace r.key)⟩

include file records

theorem checkLoopBarriers {kind : LoopKind} {s : Stmt} {cond : Expr} (inside : .expr cond ∈ nodes)
    {f : Finding} (found : f ∈ x.checkLoopBarriers source store kind s cond) : f.OneLined := by
  unfold Context.checkLoopBarriers at found
  split at found
  · cases found
  next d _ depends _ =>
    exact barrierFindings file records (lined.dependence inside depends) nofun found
  · cases found

theorem checkChain {s : Stmt} (inside : .stmt s ∈ nodes) {f : Finding}
    (found : f ∈ x.checkChain source store s) : f.OneLined := by
  have within {n : Node} (under : n ∈ s.preorder) : n ∈ nodes := lined.closed _ inside under
  unfold Context.checkChain at found
  split at found
  · cases found
  · cases found
  next verdict cond d barriers _ judged =>
    unfold chainVerdict at judged
    split at judged
    · cases judged
    next linked _ =>
      cases judged
      obtain ⟨l, link, asked⟩ := List.exists_of_findSome?_eq_some linked
      obtain ⟨d, depends, same⟩ := Option.map_eq_some_iff.mp asked
      cases same
      have told := lined.dependence (within (s.chain_inside.1 l link).2.1) depends
      refine barrierFindings file records told ?_ found
      rintro _ ⟨⟩
      exact lined.judgeChain fun p member => within (s.mem_preorder_of_mem_flatten p member)
    · cases judged

theorem checkSwitch {s body : Stmt} {cond : Expr} (condition : .expr cond ∈ nodes)
    (inside : .stmt body ∈ nodes) {f : Finding}
    (found : f ∈ x.checkSwitch source store s cond body) : f.OneLined := by
  unfold Context.checkSwitch at found
  split at found
  · cases found
  · cases found
  next verdict d barriers _ judged =>
    unfold switchVerdict at judged
    split at judged
    · cases judged
    next depends _ =>
      cases judged
      refine barrierFindings file records (lined.dependence condition depends) ?_ found
      rintro _ ⟨⟩
      refine lined.judgeSwitch fun p member => lined.closed _ inside ?_
      have marked := List.mem_map_of_mem (f := Prod.snd) member
      rwa [Stmt.flattenSwitch, Stmt.switchNodes_map_snd] at marked
    · cases judged

end Context.OneLined

end Lockstep
