import Lockstep.Proofs.Grammar.Placement
import Lockstep.Proofs.Naming.Actions
/-!
The ranges of a source file that was read, with or without defects. Each part of the file takes some
room in the text and holds what stands directly inside it, one behind the other; a name is what the
text spells at its range. So nodes start in the order in which they are listed, and the tables that
are looked up by ranges have one entry for a node and one node for an entry.
-/

set_option autoImplicit false
set_option relaxedAutoImplicit false

namespace Lockstep

def Span.Inside (span : Span) (text : String) : Prop :=
  span.start < span.stop ∧ span.stop ≤ text.utf8ByteSize

namespace SourceUnit

def declarators (unit : SourceUnit) : List Declarator :=
  unit.items.flatMap Item.declarators ++ unit.nodes.flatMap Node.declarators

/-- The file lies in the text. What stands directly inside the file, an item or a node lies in its
range, and one part ends before the next one starts. -/
structure LaidOut (unit : SourceUnit) (text : String) : Prop where
  items : ∀ item ∈ unit.items, item.span.Inside text
  nodes : ∀ n ∈ unit.nodes, n.span.Inside text
  declarators : ∀ d ∈ unit.declarators, d.span.Inside text
  itemsWithin : ∀ item ∈ unit.items, item.span.Within unit.span
  itemsApart : unit.items.Pairwise fun x y => x.span.stop ≤ y.span.start
  rootsWithin : ∀ item ∈ unit.items, ∀ n ∈ item.roots, n.span.Within item.span
  rootsApart : ∀ item ∈ unit.items, item.roots.Pairwise Node.Before
  childrenWithin : ∀ n ∈ unit.nodes, ∀ c ∈ n.children, c.span.Within n.span
  childrenApart : ∀ n ∈ unit.nodes, n.children.Pairwise Node.Before

/-- No two nodes of a kind have one range, and no two declared names have. -/
structure Distinct (unit : SourceUnit) : Prop where
  names : (unit.names.map Prod.fst).Nodup
  members : (unit.members.map Expr.span).Nodup
  calls : ((unit.nodes.filterMap Node.call?).map Expr.span).Nodup
  declares : (unit.declares.map Ident.span).Nodup

/-- No table has two entries under one range. Each declared name and each member access has an
entry, and references have no entries but for names. -/
structure Keyed (unit : SourceUnit) : Prop where
  varRefs : ((resolve unit).varRefs.map Prod.fst).Nodup
  memberRefs : ((resolve unit).memberRefs.map Prod.fst).Nodup
  varDecls : ((resolve unit).varDecls.map Prod.fst).Nodup
  references : ((resolve unit).varRefs.map Prod.fst).Subperm (unit.names.map Prod.fst)
  members : ((resolve unit).memberRefs.map Prod.fst).Perm (unit.members.map Expr.span)
  declarations : ((resolve unit).varDecls.map Prod.fst).Perm (unit.declares.map Ident.span)

theorem Distinct.keyed {unit : SourceUnit} (distinct : unit.Distinct) : unit.Keyed where
  varRefs := by
    obtain ⟨keys, same, within⟩ := Resolution.varRefs_subperm unit
    exact same.nodup_iff.mp (distinct.names.sublist within)
  memberRefs := (Resolution.memberRefs_perm unit).nodup_iff.mpr distinct.members
  varDecls := (Resolution.varDecls_perm unit).nodup_iff.mpr distinct.declares
  references := Resolution.varRefs_subperm unit
  members := Resolution.memberRefs_perm unit
  declarations := Resolution.varDecls_perm unit

section Parsed

variable {text : String} {unit : SourceUnit} (parsed : (parse text).unit = some unit)

include parsed

theorem distinct_of_parse : unit.Distinct :=
  ⟨nodup_names_of_parse parsed, nodup_members_of_parse parsed, nodup_calls_of_parse parsed,
    nodup_declares_of_parse parsed⟩

theorem laid_of_parse : ∀ n ∈ unit.nodes, n.Laid := by
  obtain ⟨u, v, tokens, within, -, each⟩ := exists_tokens_of_parse parsed
  have rooted := items_rooted each ((lex_ordered text).sublist (within.trans tokens))
  rw [unit.nodes_eq_flatMap]
  exact rooted.laid

private theorem spelled_of_parse : ∀ use ∈ unit.names, use.1.slice text = use.2 := by
  obtain ⟨u, v, tokens, within, -, each⟩ := exists_tokens_of_parse parsed
  have rooted := items_rooted each ((lex_ordered text).sublist (within.trans tokens))
  intro use member
  rw [names, unit.nodes_eq_flatMap] at member
  exact slice_eq_of_ident ((within.trans tokens).subset (rooted.named use member))

theorem laidOut_of_parse : unit.LaidOut text := by
  obtain ⟨u, v, tokens, within, spans, each⟩ := exists_tokens_of_parse parsed
  have read := (lex_ordered text).sublist tokens
  have ordered := read.sublist within
  have laid := laid_of_parse parsed
  have stands {item : Item} (member : item ∈ unit.items) :=
    exists_stands_of_mem each ordered member
  have reaches {item : Item} (member : item ∈ unit.items) : item.span.stop ≤ text.utf8ByteSize := by
    obtain ⟨first, others, own, stands⟩ := stands member
    obtain ⟨l, inside, stop⟩ := stands.stop
    rw [stop]
    exact stop_le_utf8ByteSize (((own.trans within).trans tokens).subset inside)
  have nodes : ∀ n ∈ unit.nodes, n.span.Inside text := by
    intro n inside
    obtain ⟨item, member, below⟩ := List.mem_flatMap.mp inside
    obtain ⟨first, others, -, stands⟩ := stands member
    exact ⟨(laid n inside).room, (stands.within_of_mem_nodes below).2.trans (reaches member)⟩
  refine ⟨fun item member => ?_, nodes, fun d member => ?_, fun item member => ?_,
    items_apart each ordered, fun item member => ?_, fun item member => ?_,
    fun n inside => (laid n inside).within, fun n inside => (laid n inside).apart⟩
  · obtain ⟨first, others, own, stands⟩ := stands member
    exact ⟨stands.room (ordered.sublist own), reaches member⟩
  · rcases List.mem_append.mp member with top | below
    · obtain ⟨item, member, own⟩ := List.mem_flatMap.mp top
      obtain ⟨first, others, -, stands⟩ := stands member
      obtain ⟨room, inner⟩ := stands.declarators d own
      exact ⟨room, inner.2.trans (reaches member)⟩
    · obtain ⟨n, inside, own⟩ := List.mem_flatMap.mp below
      obtain ⟨room, inner⟩ := (laid n inside).declarators d own
      exact ⟨room, inner.2.trans (nodes n inside).2⟩
  · obtain ⟨first, others, own, stands⟩ := stands member
    exact (stands.framed.mono fun l => ((own.trans within).subset ·)).within read spans
  · obtain ⟨first, others, -, stands⟩ := stands member
    exact stands.within
  · obtain ⟨first, others, -, stands⟩ := stands member
    exact stands.inside.apart

end Parsed

end SourceUnit

/-- Whenever a file is read, its parts lie in the text as they do in the tree, and no two of them
that are looked up by their ranges are taken for one another. -/
theorem ranges_laid_out {text : String} {unit : SourceUnit}
    (parsed : (parse text).unit = some unit) :
    unit.LaidOut text ∧ (∀ use ∈ unit.names, use.1.slice text = use.2) ∧ unit.Distinct ∧
      (∀ s, .stmt s ∈ unit.nodes → s.preorder.Pairwise fun a b => a.span.start ≤ b.span.start) ∧
      unit.Keyed := by
  have distinct := SourceUnit.distinct_of_parse parsed
  have laid := SourceUnit.laid_of_parse parsed
  refine ⟨SourceUnit.laidOut_of_parse parsed, SourceUnit.spelled_of_parse parsed, distinct,
    fun s inside => ?_, distinct.keyed⟩
  exact Node.preorder_rising (n := .stmt s) fun k below =>
    laid k ((SourceUnit.preorder_sublist inside).subset below)

/-- A character of two bytes stands before the names, and the last statement is broken. -/
theorem ranges_laid_out_sample : ∃ unit,
    (parse "/*é*/int f(S s){s.v.w=h(g);x y z;}").unit = some unit ∧
      unit.names = [(⟨17, 18⟩, "s"), (⟨23, 24⟩, "h"), (⟨25, 26⟩, "g")] ∧
      unit.members.map Expr.span = [⟨17, 22⟩, ⟨17, 20⟩] ∧
      (⟨25, 26⟩ : Span).slice "/*é*/int f(S s){s.v.w=h(g);x y z;}" = "g" ∧
      unit.LaidOut "/*é*/int f(S s){s.v.w=h(g);x y z;}" ∧ unit.Distinct ∧ unit.Keyed := by
  have view : ((parse "/*é*/int f(S s){s.v.w=h(g);x y z;}").unit.map fun unit =>
      (unit.names, unit.members.map Expr.span)) =
      some ([(⟨17, 18⟩, "s"), (⟨23, 24⟩, "h"), (⟨25, 26⟩, "g")], [⟨17, 22⟩, ⟨17, 20⟩]) := by
    decide +kernel
  obtain ⟨unit, parsed, view⟩ := Option.map_eq_some_iff.mp view
  obtain ⟨names, members⟩ := Prod.mk.inj view
  obtain ⟨laidOut, spelled, distinct, -, keyed⟩ := ranges_laid_out parsed
  have name : (⟨25, 26⟩, "g") ∈ unit.names := by
    rw [names]
    simp
  exact ⟨unit, parsed, names, members, spelled _ name, laidOut, distinct, keyed⟩

end Lockstep
