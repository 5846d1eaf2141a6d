import Lockstep.Proofs.Taint.Derivation
/-!
Where the records come from. Every record rests on a call of an identity function or on a
declaration that was put on record before it, and says so; records are only ever added. The way
back along the links therefore meets no declaration twice, is never cut short, and ends at a call of
an identity function.
-/

set_option autoImplicit false
set_option relaxedAutoImplicit false

namespace Lockstep

def Provenance.note (p : Provenance) : Note := ⟨p.span, p.message⟩

namespace Context

variable (x : Context)

/-- The record tells that the declaration received what an identity function returns. -/
def FromIdentity (k : Key) (p : Provenance) : Prop :=
  p.copiedFrom = none ∧ ∃ callee, x.settings.isIdentity callee = true ∧
    p.message = "assignment of identity-dependent " ++ x.describe k ++
      " from identity function call '" ++ callee ++ "'"

/-- The record tells that the declaration received a value of the declaration `u`. -/
def CopiedFrom (k : Key) (p : Provenance) (u : Key) : Prop :=
  p.copiedFrom = some u ∧
    p.message = "inferred assignment of identity-dependent value to " ++ x.describe k ++
      ", copied from " ++ x.describe u

/-- The record tells of an identity function or of a declaration that is on record in `store`. -/
def RestsOn (store : TaintStore) (k : Key) (p : Provenance) : Prop :=
  x.FromIdentity k p ∨ ∃ u, store.contains u = true ∧ x.CopiedFrom k p u

private theorem isIdentity_of_identityCallee {e : Expr} {callee : String}
    (calls : x.identityCallee e = some callee) : x.settings.isIdentity callee = true := by
  cases e with
  | call span target args =>
    simp only [identityCallee, callTarget] at calls
    cases named : x.names.calleeName target with
    | none => simp [named] at calls
    | some name =>
      simp only [named] at calls
      by_cases identity : x.settings.isIdentity name = true
      · simp only [identity, if_true] at calls
        rw [← Option.some.inj calls]
        exact identity
      · by_cases barrier : x.settings.isBarrier name = true <;> simp [identity, barrier] at calls
  | _ => simp [identityCallee, callTarget] at calls

private theorem isIdentity_of_dependence {store : TaintStore} {value : Expr} {callee : String}
    {span : Span} (depends : x.dependence store value = some (.identityCall callee span)) :
    x.settings.isIdentity callee = true := by
  unfold dependence at depends
  cases search : x.findIdentityCall value with
  | none => simp [search] at depends
  | some call =>
    obtain ⟨v, -, asked⟩ := Expr.exists_visible_of_firstVisible search
    by_cases identity : (x.identityCallee v).isSome = true
    · simp only [identity, if_true, Option.some.injEq] at asked
      subst asked
      obtain ⟨name, known⟩ := Option.isSome_iff_exists.mp identity
      simp only [search, known, Option.getD_some, Option.some.injEq,
        Dependence.identityCall.injEq] at depends
      rw [← depends.1]
      exact x.isIdentity_of_identityCallee known
    · simp [identity] at asked

private theorem reference_of_dependence {store : TaintStore} {value : Expr} {r : TaintedRef}
    (depends : x.dependence store value = some (.reference r)) :
    store.contains r.key = true ∧ r.name = x.nameOf r.key := by
  unfold dependence at depends
  cases search : x.findIdentityCall value with
  | some call => simp [search] at depends
  | none =>
    simp only [search, Option.map_eq_some_iff, Dependence.reference.injEq, exists_eq_right]
      at depends
    obtain ⟨v, -, asked⟩ := Expr.exists_visible_of_firstVisible depends
    unfold taintedRef at asked
    split at asked
    · split at asked
      · rename_i recorded
        cases asked
        exact ⟨recorded, rfl⟩
      · cases asked
    · cases asked

private theorem restsOn_of_dependence {store : TaintStore} {value : Expr} {d : Dependence}
    (depends : x.dependence store value = some d) (k : Key) (span : Span) :
    x.RestsOn store k ⟨span, d.message (x.describe k), d.copiedFrom⟩ := by
  cases d with
  | identityCall callee callSpan =>
    have identity := x.isIdentity_of_dependence depends
    refine .inl ⟨rfl, callee, identity, ?_⟩
    unfold Dependence.message
    dsimp only
  | reference r =>
    obtain ⟨recorded, name⟩ := x.reference_of_dependence depends
    have described : r.describe = x.describe r.key := by rw [TaintedRef.describe, name, describe]
    refine .inr ⟨r.key, recorded, rfl, ?_⟩
    unfold Dependence.message
    dsimp only
    rw [described]

/-- A received value leaves the store as it is or adds one record, about a declaration that had
none. -/
theorem propagate_cases (store : TaintStore) (k : Key) (value : Expr) (span : Span) :
    x.propagate store k value span = store ∨ ∃ p, store.contains k = false ∧ x.RestsOn store k p ∧
      x.propagate store k value span = store.record k p := by
  by_cases known : store.contains k = true
  · left
    rw [propagate, influx, if_pos known]
  · have unknown : store.contains k = false := by simpa using known
    cases depends : x.dependence store value with
    | none =>
      left
      rw [propagate, influx, if_neg known, depends]
    | some d =>
      right
      refine ⟨_, unknown, x.restsOn_of_dependence depends k span, ?_⟩
      rw [propagate, influx, if_neg known, depends]

/-- The records in the order in which they can come about. -/
inductive Grounded : TaintStore → Prop
  | empty : Grounded {}
  | more {store : TaintStore} {k : Key} {p : Provenance} :
      Grounded store → store.contains k = false → x.RestsOn store k p →
        Grounded (store.record k p)

/-- The records on the way from a declaration back to an identity function, each with its
declaration: every record but the last tells of a copy from the declaration behind it. -/
structure Explains (store : TaintStore) (k : Key) (way : List (Key × Provenance)) : Prop where
  start : way.head?.map Prod.fst = some k
  recorded : ∀ r ∈ way, store.get? r.1 = some r.2
  copies : way.IsChain fun r next => x.CopiedFrom r.1 r.2 next.1
  ends : ∃ last ∈ way.getLast?, x.FromIdentity last.1 last.2

end Context

namespace TaintStore

theorem records_record {store : TaintStore} {k : Key} (p : Provenance)
    (unknown : store.contains k = false) :
    (store.record k p).records = store.records ++ [(k, p)] := by
  simp [record, unknown]

private theorem get?_record {store : TaintStore} {j : Key} {q : Provenance} (k : Key)
    (p : Provenance)
    (recorded : store.get? j = some q) : (store.record k p).get? j = some q := by
  have lookup : store.records.lookup j = some q := recorded
  unfold record
  split
  · exact recorded
  · simp [get?, List.lookup_append, lookup]

private theorem get?_record_self {store : TaintStore} {k : Key} (p : Provenance)
    (unknown : store.contains k = false) : (store.record k p).get? k = some p := by
  have lookup : store.records.lookup k = none := by simpa [contains, get?] using unknown
  rw [get?, records_record p unknown]
  simp [List.lookup_append, lookup]

end TaintStore

namespace Context

variable {x : Context} {store : TaintStore} {k : Key} {way : List (Key × Provenance)}

private theorem Explains.follow_eq (explains : x.Explains store k way) {steps : Nat}
    (enough : way.length ≤ steps) :
    store.follow steps (some k) = way.map fun r => r.2.note := by
  induction way generalizing k steps with
  | nil => cases explains.start
  | cons r rest ih =>
    obtain ⟨start, recorded, copies, ends⟩ := explains
    have key : r.1 = k := by simpa using start
    subst key
    obtain ⟨more, rfl⟩ : ∃ more, steps = more + 1 := by
      have positive : rest.length + 1 ≤ steps := enough
      exact ⟨steps - 1, by omega⟩
    have known : store.get? r.1 = some r.2 := recorded r List.mem_cons_self
    simp only [TaintStore.follow, known, List.map_cons, Provenance.note, List.cons.injEq, true_and]
    cases rest with
    | nil =>
      obtain ⟨last, isLast, direct, -⟩ := ends
      obtain rfl : r = last := by simpa using isLast
      rw [direct]
      cases more <;> rfl
    | cons next rest =>
      obtain ⟨copy, others⟩ := List.isChain_cons_cons.mp copies
      rw [copy.1]
      have behind : x.Explains store next.1 (next :: rest) :=
        ⟨rfl, fun r' member => recorded r' (List.mem_cons_of_mem r member), others,
          by simpa using ends⟩
      exact ih behind (by simpa using enough)

/-- Every declaration on record has a way back that meets no declaration twice. -/
private theorem Grounded.exists_explains (grounded : x.Grounded store)
    (recorded : store.contains k = true) :
    ∃ way, x.Explains store k way ∧ (way.map Prod.fst).Nodup ∧ way.length ≤ store.size := by
  induction grounded generalizing k with
  | empty => cases recorded
  | @more store j p grounded unknown rests ih =>
    -- A way in the store before is a way in this one, and does not meet the declaration added.
    have still {k : Key} {way : List (Key × Provenance)} (explains : x.Explains store k way) :
        x.Explains (store.record j p) k way ∧ j ∉ way.map Prod.fst := by
      refine ⟨⟨explains.start, fun r member => ?_, explains.copies, explains.ends⟩, ?_⟩
      · exact TaintStore.get?_record j p (explains.recorded r member)
      · intro met
        obtain ⟨r, member, rfl⟩ := List.mem_map.mp met
        simp [TaintStore.contains, explains.recorded r member] at unknown
    have size : (store.record j p).size = store.size + 1 := by
      simp [TaintStore.size, TaintStore.records_record p unknown]
    rw [size]
    by_cases old : store.contains k = true
    · obtain ⟨way, explains, nodup, short⟩ := ih old
      exact ⟨way, (still explains).1, nodup, by omega⟩
    · have same : j = k := ((store.contains_record j k p).mp recorded).resolve_left old
      subst same
      have own := TaintStore.get?_record_self p unknown
      rcases rests with direct | ⟨u, known, copy⟩
      · refine ⟨[(j, p)], ⟨rfl, ?_, .singleton _, _, rfl, direct⟩, by simp, by simp⟩
        simpa using own
      · obtain ⟨way, explains, nodup, short⟩ := ih known
        obtain ⟨explains', fresh⟩ := still explains
        obtain ⟨start, recorded', copies, last, isLast, ends⟩ := explains'
        refine ⟨(j, p) :: way, ⟨rfl, ?_, ?_, last, ?_, ends⟩, ?_, ?_⟩
        · intro r member
          rcases List.mem_cons.mp member with rfl | member
          · exact own
          · exact recorded' r member
        · refine List.isChain_cons.mpr ⟨fun next isNext => ?_, copies⟩
          have key : next.1 = u := by simpa [Option.mem_def.mp isNext] using start
          rw [key]
          exact copy
        · rw [List.getLast?_cons, Option.mem_def.mp isLast]
          rfl
        · simpa using ⟨by simpa using fresh, nodup⟩
        · simpa using short

end Context

namespace Analysis

variable (s : Subject)

private theorem step_store_cases (a : Analysis) (ev : Event) :
    (step s a ev).store = a.store ∨ ∃ k p, a.store.contains k = false ∧
      s.context.RestsOn a.store k p ∧ (step s a ev).store = a.store.record k p := by
  rw [step_store]
  cases ev.receipt s.context with
  | none => exact .inl rfl
  | some r =>
    rcases s.context.propagate_cases a.store r.key r.value r.span with same | ⟨p, added⟩
    · exact .inl same
    · exact .inr ⟨r.key, p, added⟩

private theorem grounded_after (events : List Event) :
    s.context.Grounded (after s events).store := by
  induction events using List.reverseRecOn with
  | nil => exact .empty
  | append_singleton events ev ih =>
    rw [after_append_singleton]
    rcases step_store_cases s (after s events) ev with same | ⟨k, p, unknown, rests, added⟩
    · rw [same]
      exact ih
    · rw [added]
      exact .more ih unknown rests

private theorem restsOn_earlier (events : List Event) {k : Key} {p : Provenance}
    (member : (k, p) ∈ (after s events).store.records) :
    ∃ earlier, earlier <+: events ∧ (after s earlier).store.contains k = false ∧
      s.context.RestsOn (after s earlier).store k p := by
  induction events using List.reverseRecOn with
  | nil => cases member
  | append_singleton events ev ih =>
    rw [after_append_singleton] at member
    have older (before : (k, p) ∈ (after s events).store.records) : ∃ earlier,
        earlier <+: events ++ [ev] ∧ (after s earlier).store.contains k = false ∧
          s.context.RestsOn (after s earlier).store k p := by
      obtain ⟨earlier, start, found⟩ := ih before
      exact ⟨earlier, start.trans (List.prefix_append _ _), found⟩
    rcases step_store_cases s (after s events) ev with same | ⟨j, q, unknown, rests, added⟩
    · rw [same] at member
      exact older member
    · rw [added, TaintStore.records_record q unknown] at member
      rcases List.mem_append.mp member with before | new
      · exact older before
      · obtain ⟨rfl, rfl⟩ := Prod.mk.inj (List.mem_singleton.mp new)
        exact ⟨events, List.prefix_append _ _, unknown, rests⟩

private theorem records_foldl_prefix (events : List Event) (a : Analysis) :
    a.store.records <+: (events.foldl (step s) a).store.records := by
  induction events generalizing a with
  | nil => exact List.prefix_rfl
  | cons ev events ih =>
    have first : a.store.records <+: (step s a ev).store.records := by
      rcases step_store_cases s a ev with same | ⟨k, p, unknown, -, added⟩
      · simp only [same, List.prefix_rfl]
      · rw [added, TaintStore.records_record p unknown]
        exact List.prefix_append _ _
    exact first.trans (ih (step s a ev))

private theorem records_after_prefix {events later : List Event} (start : events <+: later) :
    (after s events).store.records <+: (after s later).store.records := by
  obtain ⟨more, rfl⟩ := start
  rw [after, after, List.foldl_append]
  exact records_foldl_prefix s more _

end Analysis

/-- After any part of the events of a source file, every record tells of an identity function or of
a copy from another declaration that was on record when its own was not. The trace of a
declaration on record is the whole way back to an identity function, without a declaration met
twice; a longer bound would not make it longer. Records stay as they are. -/
theorem provenance_leads_back (source : SourceText) (settings : Settings) (unit : SourceUnit) :
    let s := unit.subject source settings
    ∀ events, events <+: unit.events →
    let store := (Analysis.after s events).store
    (∀ k p, (k, p) ∈ store.records → s.context.FromIdentity k p ∨
      ∃ u, u ≠ k ∧ s.context.CopiedFrom k p u ∧ ∃ earlier, earlier <+: events ∧
        (Analysis.after s earlier).store.contains u = true ∧
        (Analysis.after s earlier).store.contains k = false) ∧
    (∀ k, store.contains k = true → ∃ way, s.context.Explains store k way ∧
      (way.map Prod.fst).Nodup ∧ way.length ≤ store.size ∧
      store.trace k = way.map (fun r => r.2.note) ∧
      ∀ steps, store.size ≤ steps → store.follow steps (some k) = store.trace k) ∧
    ∀ later, events <+: later → later <+: unit.events →
      store.records <+: (Analysis.after s later).store.records ∧
      ∀ k p, store.get? k = some p → (Analysis.after s later).store.get? k = some p := by
  intro s events _ store
  refine ⟨fun k p member => ?_, fun k recorded => ?_, fun later start _ => ?_⟩
  · obtain ⟨earlier, start, unknown, direct | ⟨u, known, copy⟩⟩ :=
      Analysis.restsOn_earlier s events member
    · exact .inl direct
    · have different : u ≠ k := by
        rintro rfl
        rw [known] at unknown
        cases unknown
      exact .inr ⟨u, different, copy, earlier, start, known, unknown⟩
  · obtain ⟨way, explains, nodup, short⟩ :=
      (Analysis.grounded_after s events).exists_explains recorded
    have whole {steps : Nat} (enough : store.size ≤ steps) :=
      explains.follow_eq (short.trans enough)
    have trace : store.trace k = way.map fun r => r.2.note := whole (Nat.le_succ store.size)
    exact ⟨way, explains, nodup, short, trace, fun steps enough => by rw [whole enough, trace]⟩
  · have kept := Analysis.records_after_prefix s start
    refine ⟨kept, fun k p recorded => ?_⟩
    obtain ⟨more, records⟩ := kept
    have lookup : store.records.lookup k = some p := recorded
    rw [TaintStore.get?, ← records, List.lookup_append, lookup]
    rfl

theorem provenance_leads_back_sample :
    let s := copySample.subject ⟨"k.cl", 1, [0]⟩ {}
    let store := (Analysis.after s copySample.events).store
    copySample.events <+: copySample.events ∧ store.contains (.var 1) = true ∧
      ∃ way, s.context.Explains store (.var 1) way ∧ (way.map Prod.fst).Nodup ∧
        way.length = 2 ∧ store.trace (.var 1) = way.map fun r => r.2.note := by
  intro s store
  have recorded : store.contains (.var 1) = true := by decide
  have back := provenance_leads_back ⟨"k.cl", 1, [0]⟩ {} copySample copySample.events
    List.prefix_rfl
  obtain ⟨way, explains, nodup, -, trace, -⟩ := back.2.1 (.var 1) recorded
  have entries : (store.trace (.var 1)).length = 2 := by decide
  rw [trace, List.length_map] at entries
  exact ⟨List.prefix_rfl, recorded, way, explains, nodup, entries, trace⟩

end Lockstep
