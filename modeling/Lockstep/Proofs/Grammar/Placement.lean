import Lockstep.Proofs.Grammar.Rules
/-!
Where the parts of a source file stand. Each item of a file takes a row of its tokens, starts with
the first of them and holds what stands inside it. So items follow each other, no two names, calls,
member accesses or declared names have one range, and the range of a function holds the names inside
it and no name of another item.
-/

set_option autoImplicit false
set_option relaxedAutoImplicit false

namespace Lockstep

namespace Item

def span : Item → Span
  | struct d => d.span
  | typedef d => d.span
  | function f => f.span
  | global d => d.span

def declarators : Item → List Declarator
  | global d => d.declarators
  | _ => []

def titles : Item → List Ident
  | struct d => d.fields.map Field.name
  | function f => [f.name]
  | typedef _ | global _ => []

/-- The item, read from a token and those behind it. All that stands inside it comes behind the
first token. -/
structure Stands (item : Item) (first : Lexeme) (others : List Lexeme) : Prop where
  start : item.span.start = first.span.start
  stop : ∃ l ∈ first :: others, item.span.stop = l.span.stop
  inside : Rooted others item.roots
  within : ∀ n ∈ item.roots, n.span.Within item.span
  declares : Spelled others item.declares
  titles : Spelled (first :: others) item.titles
  declarators : ∀ d ∈ item.declarators, d.span.start < d.span.stop ∧ d.span.Within item.span

/-- The item takes the tokens, at least one. -/
def Takes (item : Item) (u : List Lexeme) : Prop :=
  ∃ first others, u = first :: others ∧ (Ordered u → item.Stands first others)

end Item

namespace Grammar

open Lockstep.Parser

private theorem roots_body : Gathers Grown body fun b => b.stmts.map .stmt := by
  refine .bind (Reads.spanned grows_stmt.many.between) ?_
  rintro ⟨stmts, span⟩ u ⟨grown, -⟩
  refine .pure ?_
  simpa only [List.append_nil, List.map_eq_flatMap] using grown

private theorem spells_param : Gathers Spelled param fun p => p.name.toList := by
  refine .bind (Reads.spanned (R := fun r u => Spelled u r.2.toList) ?_) ?_
  · refine reads_plainType.bind fun _ u _ => ?_
    refine .bind (Reads.optional (S := fun o v => Spelled v o.toList) ?_ (Gathered.nil [])) ?_
    · refine reads_ident.mono ?_
      rintro id v rfl
      exact List.Sublist.refl _
    · intro o v spelled
      refine Reads.bind roots_arrayDims fun _ w _ => .pure ?_
      exact Gathered.mono spelled
        ((List.sublist_append_left v _).trans (List.sublist_append_right u _))
  · rintro ⟨r, span⟩ u ⟨spelled, -⟩
    refine .pure ?_
    rwa [List.append_nil]

/-- What is read of a function before its range is known. -/
private structure Opens (make : Span → Function) (others : List Lexeme) : Prop where
  range : ∀ span, (make span).span = span
  inside : ∀ span, Grown others (Item.function (make span)).roots
  declares : ∀ span, Ordered others → Spelled others (Item.function (make span)).declares
  titles : ∀ span, Spelled others [(make span).name]

private theorem reads_function : Reads function fun f u => (Item.function f).Takes u := by
  refine .bind (Reads.spanned (R := fun make u => ∃ first others, u = first :: others ∧
    Opens make others) ?_) ?_
  · refine reads_typeSpec.bind fun ret u nonempty => reads_ident.bind fun name v single => ?_
    refine .bind spells_param.commaSep.between fun params w spelled => ?_
    refine .bind reads_attributeList.many fun _ x _ => ?_
    refine .bind (R := fun b y => Grown y (b.toList.flatMap fun b => b.stmts.map .stmt))
      (.or (.map ?_) (.map ?_)) fun b y grown => .pure ?_
    · refine roots_body.mono fun b y grown => ?_
      simpa using grown
    · exact .mono .token fun _ _ _ => .nil
    · obtain ⟨first, others, rfl⟩ := List.exists_cons_of_ne_nil nonempty
      refine ⟨first, others ++ (v ++ (w ++ (x ++ y))), by simp, fun _ => rfl, fun _ => ?_,
        fun span ordered => ?_, fun _ => ?_⟩
      · exact grown.behind.behind.behind.behind
      · have below := (grown ordered.right.right.right.right).declared
        rw [Item.declares, Item.nodes_eq_flatMap, List.filterMap_eq_flatMap_toList]
        refine Gathered.mono (Gathered.append spelled (Gathered.mono (P := Spelled) below
          (List.sublist_append_right x y))) ?_
        exact (List.sublist_append_right v _).trans (List.sublist_append_right others _)
      · rw [single]
        exact List.singleton_sublist.mpr (by simp)
  · rintro ⟨make, span⟩ u ⟨⟨first, others, rfl, opens⟩, spans⟩
    have range : (make span).span = ⟨first.span.start, lastStop first.span.stop others⟩ := by
      rw [opens.range]
      exact spans first others rfl
    refine .pure ⟨first, others, by simp, fun ordered => ?_⟩
    rw [List.append_nil] at ordered
    have later := ordered.sublist (List.sublist_cons_self first others)
    have rooted := opens.inside span later
    refine ⟨?_, ?_, rooted, fun n root => ?_, opens.declares span later,
      Gathered.mono (opens.titles span) (List.sublist_cons_self first others), ?_⟩
    · rw [Item.span, range]
    · rw [Item.span, range]
      exact exists_lastStop first others
    · refine ((rooted.framed n root).mono fun l => List.mem_cons_of_mem first).within ordered ?_
      rwa [Item.span, opens.range]
    · exact fun d member => by cases member

private theorem takes_of_spans {item : Item} {u : List Lexeme} (nonempty : u ≠ [])
    (spans : Spans u item.span) (titles : Spelled u item.titles) (empty : item.roots = [])
    (silent : item.declares = []) (plain : item.declarators = []) : item.Takes u := by
  obtain ⟨first, others, rfl⟩ := List.exists_cons_of_ne_nil nonempty
  refine ⟨first, others, rfl, fun _ => ?_⟩
  have range := spans first others rfl
  refine ⟨?_, ?_, ?_, ?_, ?_, titles, ?_⟩
  · rw [range]
  · rw [range]
    exact exists_lastStop first others
  · rw [empty]
    exact .nil
  · simp [empty]
  · rw [silent]
    exact Gathered.nil others
  · simp [plain]

private theorem reads_structDef : Reads structDef fun d u =>
    u ≠ [] ∧ Spans u d.span ∧ Spelled u (d.fields.map Field.name) := by
  have field : Gathers Spelled (do
      let depth ← stars
      let name ← ident
      let _ ← arrayDims
      return (depth, name)) fun r => [r.2] := by
    refine reads_stars.bind fun _ u _ => reads_ident.bind fun name v single => ?_
    refine Reads.bind roots_arrayDims fun _ w _ => .pure ?_
    rw [single]
    exact List.singleton_sublist.mpr (by simp)
  have group : Gathers Spelled fieldGroup fun fs => fs.map Field.name := by
    refine reads_plainType.bind fun _ u _ => Reads.bind field.commaSep1 fun names v spelled => ?_
    refine Reads.token.bind fun _ w _ => .pure ?_
    have spelled : Spelled v (names.map Prod.snd) := by rwa [List.map_eq_flatMap]
    show Spelled _ (List.map Field.name (List.map _ names))
    rw [List.map_map]
    exact Gathered.mono spelled
      ((List.sublist_append_left v _).trans (List.sublist_append_right u _))
  have named : Gathers Grown (optional ident) _ := (Gathers.nothing reads_ident).optional
  refine .bind (Reads.spanned (R := fun make u => u ≠ [] ∧ ∀ span, (make span).span = span ∧
    Spelled u ((make span).fields.map Field.name)) ?_) ?_
  · refine .bind (Gathers.nothing (P := Grown) .token).optional fun _ u _ => ?_
    refine Reads.token.bind fun _ v single => ?_
    obtain ⟨l, rfl⟩ := single
    refine .bind named fun _ w _ => Reads.bind group.many.between fun groups x spelled => ?_
    refine .bind named fun _ y _ => Reads.token.bind fun _ z _ =>
      .pure ⟨by simp, fun _ => ⟨rfl, ?_⟩⟩
    rw [List.map_flatten, ← List.flatMap_def]
    refine Gathered.mono spelled (.trans ?_ (List.sublist_append_right u _))
    exact ((List.sublist_append_left x _).trans (List.sublist_append_right w _)).trans
      (List.sublist_append_right [l] _)
  · rintro ⟨make, span⟩ u ⟨⟨nonempty, made⟩, spans⟩
    obtain ⟨range, spelled⟩ := made span
    refine .pure ⟨by simpa using nonempty, ?_, ?_⟩
    · rwa [range, List.append_nil]
    · rwa [List.append_nil]

private theorem reads_typedef : Reads typedef fun d u => u ≠ [] ∧ Spans u d.span := by
  refine .bind (Reads.spanned (R := fun _ u => u ≠ []) ?_) ?_
  · refine Reads.token.bind fun _ u single => reads_plainType.bind fun _ v _ => ?_
    obtain ⟨l, rfl⟩ := single
    exact .bind (Reads.before reads_ident .token) fun _ w _ => .pure (by simp)
  · rintro ⟨r, span⟩ u ⟨nonempty, spans⟩
    refine .pure ⟨by simpa using nonempty, ?_⟩
    rwa [List.append_nil]

private theorem takes_global {d : Decl} {first : Lexeme} {others v : List Lexeme}
    (declared : Declared others d.declarators) (spans : Spans (first :: others) d.span) :
    (Item.global d).Takes (first :: others ++ v) := by
  refine ⟨first, others ++ v, rfl, fun ordered => ?_⟩
  have own : Ordered (first :: others) := ordered.left
  have later : Ordered others := own.sublist (List.sublist_cons_self first others)
  have range := spans first others rfl
  have within {span : Span} (framed : Framed others span) : span.Within d.span :=
    (framed.mono fun l => List.mem_cons_of_mem first).within own spans
  have rooted := declared.exprs later
  refine ⟨?_, ?_, rooted.mono (List.sublist_append_left others v), fun n root => ?_, ?_,
    Gathered.nil _, fun x member => ?_⟩
  · rw [Item.span, range]
  · obtain ⟨l, member, same⟩ := exists_lastStop first others
    refine ⟨l, List.mem_append_left v member, ?_⟩
    rw [Item.span, range, ← same]
  · exact within (rooted.framed n root)
  · exact Gathered.mono declared.names (List.sublist_append_left others v)
  · exact ⟨declared.room later x member, within (declared.framed x member)⟩

private theorem reads_item : Reads item fun o u => ∀ i, o = some i → i.Takes u := by
  have plain {i : Item} {u : List Lexeme} (takes : i.Takes u) :
      ∀ j, some i = some j → j.Takes u := by
    rintro j same
    cases same
    exact takes
  refine .recover (.map ?_) (.map ?_)
  · refine .or (.map ?_) (.or (.map ?_) (.or (.map ?_) (.or (.map ?_) .fail)))
    · exact reads_structDef.mono fun _ _ read =>
        plain (takes_of_spans read.1 read.2.1 read.2.2 rfl rfl rfl)
    · exact reads_typedef.mono fun _ u read =>
        plain (takes_of_spans read.1 read.2 (Gathered.nil u) rfl rfl rfl)
    · exact reads_function.mono fun _ _ => plain
    · refine (Reads.before reads_decl .token).mono ?_
      rintro d w ⟨_, u, v, rfl, ⟨⟨first, others, rfl, declared⟩, spans⟩, -⟩
      exact plain (takes_global declared spans)
  · have broken : Reads brokenItem fun _ _ => True := by
      refine .bind reads_inertToken.many fun _ _ _ => ?_
      exact .or (.mono .token fun _ _ _ => trivial)
        (.or ((reads_group _ _).mono fun _ _ _ => trivial)
        (.or (.mono .token fun _ _ _ => trivial) .fail))
    exact broken.mono fun _ _ _ i same => by cases same

private theorem reads_sourceUnit : Reads sourceUnit fun unit u =>
    Spans u unit.span ∧ ∃ v, v.Sublist u ∧ Each Item.Takes unit.items v := by
  have kept {os : List (Option Item)} {u : List Lexeme}
      (each : Each (fun o u => ∀ i, o = some i → i.Takes u) os u) :
      ∃ v, v.Sublist u ∧ Each Item.Takes (os.filterMap id) v := by
    induction each with
    | nil => exact ⟨[], List.Sublist.refl _, .nil⟩
    | @cons o os u v first _ ih =>
      obtain ⟨w, within, others⟩ := ih
      cases o with
      | none => exact ⟨w, within.trans (List.sublist_append_right u v), others⟩
      | some i =>
        refine ⟨u ++ w, within.append_left u, ?_⟩
        exact .cons (first i rfl) others
  refine .bind (Reads.spanned (Reads.before reads_item.many .atEnd)) ?_
  rintro ⟨items, span⟩ w ⟨⟨_, u, v, rfl, each, -⟩, spans⟩
  obtain ⟨x, within, takes⟩ := kept each
  refine .pure ⟨by rwa [List.append_nil], x, ?_, takes⟩
  rw [List.append_nil]
  exact within.trans (List.sublist_append_left u v)

end Grammar

def Item.names (item : Item) : List (Span × String) := item.nodes.filterMap Node.name?

private theorem Node.span_of_name? {n : Node} {use : Span × String} (is : n.name? = some use) :
    n.span = use.1 := by
  cases n with
  | stmt s => cases is
  | expr e =>
    cases e with
    | name span m =>
      cases is
      rfl
    | _ => cases is

namespace Item.Stands

variable {item : Item} {first : Lexeme} {others : List Lexeme}

theorem framed (stands : item.Stands first others) : Framed (first :: others) item.span :=
  ⟨⟨first, List.mem_cons_self, stands.start⟩, stands.stop⟩

theorem room (stands : item.Stands first others) (ordered : Ordered (first :: others)) :
    item.span.start < item.span.stop := by
  obtain ⟨l, member, stop⟩ := stands.stop
  have room := ordered.room l member
  have start := ordered.start_le l member
  rw [stands.start, stop]
  omega

theorem laid (stands : item.Stands first others) : ∀ n ∈ item.nodes, n.Laid := by
  rw [item.nodes_eq_flatMap]
  exact stands.inside.laid

theorem within_of_mem_nodes (stands : item.Stands first others) {n : Node}
    (inside : n ∈ item.nodes) : n.span.Within item.span := by
  rw [item.nodes_eq_flatMap] at inside
  obtain ⟨root, member, below⟩ := List.mem_flatMap.mp inside
  refine (Node.within_of_mem_preorder (fun k under => ?_) below).trans (stands.within root member)
  exact stands.inside.laid k (List.mem_flatMap.mpr ⟨root, member, under⟩)

private theorem token_of_name (stands : item.Stands first others) {use : Span × String}
    (member : use ∈ item.names) : ⟨.ident use.2, use.1⟩ ∈ others := by
  rw [names, item.nodes_eq_flatMap] at member
  exact stands.inside.named use member

private theorem within_of_mem_names (stands : item.Stands first others) {use : Span × String}
    (member : use ∈ item.names) : use.1.start < use.1.stop ∧ use.1.Within item.span := by
  obtain ⟨n, inside, is⟩ := List.mem_filterMap.mp member
  rw [← Node.span_of_name? is]
  exact ⟨(stands.laid n inside).room, stands.within_of_mem_nodes inside⟩

end Item.Stands

def Span.Holds (range span : Span) : Prop := range.start ≤ span.start ∧ span.start ≤ range.stop

def Item.Avoids (item other : Item) : Prop :=
  ∀ f, item = .function f → ∀ use ∈ other.names, ¬ f.span.Holds use.1

/-- The range of each function holds the names inside it and no name of another item. -/
structure SourceUnit.Placed (unit : SourceUnit) : Prop where
  inside : ∀ f, .function f ∈ unit.items → ∀ use ∈ (Item.function f).names, f.span.Holds use.1
  outside : unit.items.Pairwise fun x y => x.Avoids y ∧ y.Avoids x

section Items

variable {items : List Item} {u : List Lexeme} (each : Each Item.Takes items u)
  (ordered : Ordered u)

include each ordered

theorem exists_stands_of_mem {item : Item} (member : item ∈ items) :
    ∃ first others, (first :: others).Sublist u ∧ item.Stands first others := by
  induction each with
  | nil => cases member
  | @cons x items u v takes _ ih =>
    rcases List.mem_cons.mp member with rfl | later
    · obtain ⟨first, others, rfl, stands⟩ := takes
      exact ⟨first, others, List.sublist_append_left _ v, stands ordered.left⟩
    · obtain ⟨first, others, within, stands⟩ := ih ordered.right later
      exact ⟨first, others, within.trans (List.sublist_append_right u v), stands⟩

private theorem pairwise_items {R : Item → Item → Prop}
    (behind : ∀ {x y : Item} {first first' : Lexeme} {others others' : List Lexeme},
      x.Stands first others → y.Stands first' others' →
        Ordered ((first :: others) ++ (first' :: others')) → R x y) : items.Pairwise R := by
  induction each with
  | nil => exact .nil
  | @cons x items u v takes later ih =>
    refine List.pairwise_cons.mpr ⟨fun y member => ?_, ih ordered.right⟩
    obtain ⟨first, others, rfl, stands⟩ := takes
    obtain ⟨first', others', within, stands'⟩ := exists_stands_of_mem later ordered.right member
    exact behind (stands ordered.left) stands' (ordered.sublist (within.append_left _))

theorem items_apart : items.Pairwise fun x y => x.span.stop ≤ y.span.start :=
  pairwise_items each ordered fun stands stands' both => stands.framed.before stands'.framed both

theorem titles_rising : items.Pairwise fun x y =>
    ∀ a ∈ x.titles, ∀ b ∈ y.titles, a.span.start ≤ b.span.start := by
  refine pairwise_items each ordered fun stands stands' both a member b member' => ?_
  have here := stands.titles.subset (List.mem_map_of_mem member)
  have there := stands'.titles.subset (List.mem_map_of_mem member')
  have room := both.left.room a.lexeme here
  exact Nat.le_trans (Nat.le_of_lt room) (both.across here there)

private theorem items_avoid : items.Pairwise fun x y => x.Avoids y ∧ y.Avoids x := by
  refine pairwise_items each ordered fun {x y first first' _ _} stands stands' both => ?_
  have before := stands.framed.before stands'.framed both
  constructor
  · rintro f rfl use member ⟨-, reaches⟩
    have read := stands'.token_of_name member
    have next : first'.span.stop ≤ use.1.start :=
      (List.pairwise_cons.mp both.right.apart).1 _ read
    have room := both.room first' (by simp)
    have start := stands'.start
    have reached : use.1.start ≤ (Item.function f).span.stop := reaches
    omega
  · rintro f rfl use member ⟨reaches, -⟩
    obtain ⟨room, -, stop⟩ := stands.within_of_mem_names member
    have reached : (Item.function f).span.start ≤ use.1.start := reaches
    omega

theorem items_rooted : Rooted u (items.flatMap Item.roots) := by
  induction each with
  | nil => exact .nil
  | cons takes _ ih =>
    obtain ⟨first, others, rfl, stands⟩ := takes
    have own := (stands ordered.left).inside.mono (List.sublist_cons_self first others)
    exact own.append (ih ordered.right) ordered

theorem items_spelled : Spelled u (items.flatMap Item.declares) := by
  induction each with
  | nil => exact Gathered.nil []
  | cons takes _ ih =>
    obtain ⟨first, others, rfl, stands⟩ := takes
    have own := Gathered.mono (stands ordered.left).declares (List.sublist_cons_self first others)
    exact Gathered.append own (ih ordered.right)

end Items

namespace SourceUnit

private theorem exists_outcome_of_parse {text : String} {unit : SourceUnit}
    (parsed : (parse text).unit = some unit) :
    ∃ rest log, Parser.before Grammar.sourceUnit Parser.atEnd
      (.start (lex text).tokens text.utf8ByteSize) {} = (some (unit, rest), log) := by
  -- The outcomes are made variables before anything is reduced: the grammar must not be run.
  have tokens : (parseTokens (lex text).tokens text.utf8ByteSize).1 = some unit := by
    rw [← parsed]
    unfold parse
    extract_lets lexed
    generalize parseTokens lexed.tokens text.utf8ByteSize = outcome
    cases outcome
    rfl
  unfold parseTokens at tokens
  generalize Parser.before Grammar.sourceUnit Parser.atEnd
    (.start (lex text).tokens text.utf8ByteSize) {} = outcome at tokens ⊢
  cases outcome with
  | mk result log =>
    cases result with
    | none => cases tokens
    | some step =>
      cases tokens
      exact ⟨step.2, log, rfl⟩

theorem exists_tokens_of_parse {text : String} {unit : SourceUnit}
    (parsed : (parse text).unit = some unit) : ∃ u v, u.Sublist (lex text).tokens ∧ v.Sublist u ∧
      Spans u unit.span ∧ Each Item.Takes unit.items v := by
  have whole := Parser.Reads.before Grammar.reads_sourceUnit Parser.Reads.atEnd
  obtain ⟨rest, log, outcome⟩ := exists_outcome_of_parse parsed
  obtain ⟨used, moves, -, u, v, rfl, ⟨spans, w, within, each⟩, -⟩ := whole _ _ _ _ _ outcome
  refine ⟨u, w, ?_, within, spans, each⟩
  have read : (lex text).tokens = u ++ v ++ rest.rest := moves.rest
  rw [read, List.append_assoc]
  exact List.sublist_append_left u _

/-- In a file that was read, each function holds its own names only. -/
theorem placed_of_parse {text : String} {unit : SourceUnit}
    (parsed : (parse text).unit = some unit) : unit.Placed := by
  obtain ⟨u, v, tokens, within, -, each⟩ := exists_tokens_of_parse parsed
  have ordered := (lex_ordered text).sublist (within.trans tokens)
  refine ⟨fun f member use named => ?_, items_avoid each ordered⟩
  obtain ⟨first, others, -, stands⟩ := exists_stands_of_mem each ordered member
  obtain ⟨room, start, stop⟩ := stands.within_of_mem_names named
  exact ⟨start, Nat.le_trans (Nat.le_of_lt room) stop⟩

section Distinct

variable {text : String} {unit : SourceUnit} (parsed : (parse text).unit = some unit)

include parsed

private theorem nodup_ranges_of_parse {α : Type} {pick : Node → Option α} {range : α → Span}
    (marks : ∀ n a, pick n = some a → n.isMark = true ∧ range a = n.span) :
    ((unit.nodes.filterMap pick).map range).Nodup := by
  obtain ⟨u, v, tokens, within, -, each⟩ := exists_tokens_of_parse parsed
  have rooted := items_rooted each ((lex_ordered text).sublist (within.trans tokens))
  rw [unit.nodes_eq_flatMap]
  exact Node.nodup_ranges marks rooted.apart rooted.laid

theorem nodup_names_of_parse : (unit.names.map Prod.fst).Nodup := by
  refine nodup_ranges_of_parse parsed fun n use is => ⟨?_, (Node.span_of_name? is).symm⟩
  cases n with
  | stmt s => cases is
  | expr e =>
    cases e with
    | name span m => rfl
    | _ => cases is

theorem nodup_calls_of_parse : ((unit.nodes.filterMap Node.call?).map Expr.span).Nodup := by
  refine nodup_ranges_of_parse parsed fun n e is => ?_
  cases n with
  | stmt s => cases is
  | expr e =>
    cases e with
    | call span callee args =>
      cases is
      exact ⟨rfl, rfl⟩
    | _ => cases is

theorem nodup_members_of_parse : (unit.members.map Expr.span).Nodup := by
  refine nodup_ranges_of_parse parsed fun n e is => ?_
  cases n with
  | stmt s => cases is
  | expr e =>
    cases e with
    | member span base field arrow =>
      cases is
      exact ⟨rfl, rfl⟩
    | _ => cases is

theorem nodup_declares_of_parse : (unit.declares.map Ident.span).Nodup := by
  obtain ⟨u, v, tokens, within, -, each⟩ := exists_tokens_of_parse parsed
  have ordered := (lex_ordered text).sublist (within.trans tokens)
  have spelled : (unit.declares.map Ident.lexeme).Sublist v := items_spelled each ordered
  have distinct : (v.map Lexeme.span).Nodup := by
    rw [List.Nodup, List.pairwise_map]
    refine ordered.apart.imp_of_mem fun {l m} here _ before same => ?_
    have room := ordered.room l here
    rw [same] at room before
    omega
  have spans : unit.declares.map Ident.span = (unit.declares.map Ident.lexeme).map Lexeme.span := by
    rw [List.map_map]
    rfl
  rw [spans]
  exact distinct.sublist (spelled.map _)

end Distinct

end SourceUnit

end Lockstep
