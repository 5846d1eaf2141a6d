import Lockstep.Grammar.Item
import Lockstep.Proofs.Grammar.Reads
import Lockstep.Proofs.Token.Pieces
import Lockstep.Proofs.Tree.Layout
/-!
Trees and the tokens they are read from. Each root of a row of trees starts with one of the tokens
and ends with one, the roots follow each other as their tokens do, and all nodes below them are laid
out. A name is the token it is read from, and so is the field of a member access and, in the same
order, a declared name.
-/

set_option autoImplicit false
set_option relaxedAutoImplicit false

namespace Lockstep

namespace Ordered

private theorem le_lastStop {first : Lexeme} {others : List Lexeme}
    (ordered : Ordered (first :: others)) :
    ∀ l ∈ first :: others, l.span.stop ≤ lastStop first.span.stop others := by
  induction others generalizing first with
  | nil =>
    intro l member
    rw [List.mem_singleton.mp member]
    exact Nat.le_refl _
  | cons next others ih =>
    have rest := ih (ordered.sublist (List.sublist_cons_self first _))
    intro l member
    have same : lastStop first.span.stop (next :: others) = lastStop next.span.stop others := rfl
    rw [same]
    rcases List.mem_cons.mp member with rfl | later
    · have before := (List.pairwise_cons.mp ordered.apart).1 next List.mem_cons_self
      have room := ordered.room next (by simp)
      have last := rest next List.mem_cons_self
      omega
    · exact rest l later

theorem start_le {first : Lexeme} {others : List Lexeme} (ordered : Ordered (first :: others)) :
    ∀ l ∈ first :: others, first.span.start ≤ l.span.start := by
  intro l member
  rcases List.mem_cons.mp member with rfl | later
  · exact Nat.le_refl _
  · have before := (List.pairwise_cons.mp ordered.apart).1 l later
    have room := ordered.room first List.mem_cons_self
    omega

end Ordered

theorem exists_lastStop (first : Lexeme) (others : List Lexeme) :
    ∃ l ∈ first :: others, lastStop first.span.stop others = l.span.stop := by
  induction others generalizing first with
  | nil => exact ⟨first, List.mem_cons_self, rfl⟩
  | cons next others ih =>
    obtain ⟨l, member, same⟩ := ih next
    exact ⟨l, List.mem_cons_of_mem first member, same⟩

/-- The range starts with one of the tokens and ends with one. -/
structure Framed (u : List Lexeme) (span : Span) : Prop where
  start : ∃ l ∈ u, span.start = l.span.start
  stop : ∃ l ∈ u, span.stop = l.span.stop

namespace Framed

variable {u v : List Lexeme} {span range : Span}

theorem mono (framed : Framed u span) (within : ∀ l ∈ u, l ∈ v) : Framed v span := by
  obtain ⟨⟨l, first, start⟩, ⟨m, last, stop⟩⟩ := framed
  exact ⟨⟨l, within l first, start⟩, ⟨m, within m last, stop⟩⟩

theorem within (framed : Framed u span) (ordered : Ordered u) (spans : Spans u range) :
    span.Within range := by
  obtain ⟨⟨l, first, start⟩, ⟨m, last, stop⟩⟩ := framed
  cases u with
  | nil => cases first
  | cons token others =>
    rw [spans token others rfl, Span.Within, start, stop]
    exact ⟨ordered.start_le l first, ordered.le_lastStop m last⟩

theorem before (framed : Framed u span) (framed' : Framed v range) (ordered : Ordered (u ++ v)) :
    span.stop ≤ range.start := by
  obtain ⟨m, last, stop⟩ := framed.stop
  obtain ⟨l, first, start⟩ := framed'.start
  rw [stop, start]
  exact ordered.across last first

end Framed

theorem Spans.framed {u : List Lexeme} {span : Span} (spans : Spans u span) (nonempty : u ≠ []) :
    Framed u span := by
  obtain ⟨first, others, rfl⟩ := List.exists_cons_of_ne_nil nonempty
  rw [spans first others rfl]
  exact ⟨⟨first, List.mem_cons_self, rfl⟩, exists_lastStop first others⟩

theorem Spans.room {u : List Lexeme} {span : Span} (spans : Spans u span) (nonempty : u ≠ [])
    (ordered : Ordered u) : span.start < span.stop := by
  obtain ⟨first, others, rfl⟩ := List.exists_cons_of_ne_nil nonempty
  have room := ordered.room first List.mem_cons_self
  have last := ordered.le_lastStop first List.mem_cons_self
  rw [spans first others rfl]
  exact Nat.lt_of_lt_of_le room last

def Ident.lexeme (id : Ident) : Lexeme := ⟨.ident id.name, id.span⟩

/-- What a node itself spells out: a name, or the field of a member access. -/
def Node.word? : Node → Option (Span × String)
  | .expr (.member _ _ field _) => some (field.span, field.name)
  | n => n.name?

private theorem Node.word?_of_name? {n : Node} {use : Span × String} (is : n.name? = some use) :
    n.word? = some use := by
  cases n with
  | stmt s => exact is
  | expr e =>
    cases e with
    | member span base field arrow => cases is
    | _ => exact is

structure Rooted (u : List Lexeme) (ns : List Node) : Prop where
  framed : ∀ n ∈ ns, Framed u n.span
  apart : ns.Pairwise Node.Before
  laid : ∀ n ∈ ns.flatMap Node.preorder, n.Laid
  worded : ∀ use ∈ (ns.flatMap Node.preorder).filterMap Node.word?, ⟨.ident use.2, use.1⟩ ∈ u
  declared : (((ns.flatMap Node.preorder).flatMap Node.declares).map Ident.lexeme).Sublist u

namespace Rooted

variable {u v : List Lexeme} {ns ms : List Node}

theorem nil : Rooted u [] :=
  ⟨by simp, .nil, by simp, by simp, List.nil_sublist u⟩

theorem mono (rooted : Rooted u ns) (within : u.Sublist v) : Rooted v ns where
  framed := fun n member => (rooted.framed n member).mono fun _ => (within.subset ·)
  apart := rooted.apart
  laid := rooted.laid
  worded := fun use member => within.subset (rooted.worded use member)
  declared := rooted.declared.trans within

theorem append (first : Rooted u ns) (second : Rooted v ms) (ordered : Ordered (u ++ v)) :
    Rooted (u ++ v) (ns ++ ms) where
  framed := by
    intro n member
    rcases List.mem_append.mp member with here | there
    · exact (first.framed n here).mono fun _ => List.mem_append_left v
    · exact (second.framed n there).mono fun _ => List.mem_append_right u
  apart := by
    refine List.pairwise_append.mpr ⟨first.apart, second.apart, fun n here m there => ?_⟩
    exact (first.framed n here).before (second.framed m there) ordered
  laid := by
    rw [List.flatMap_append]
    exact List.forall_mem_append.mpr ⟨first.laid, second.laid⟩
  worded := by
    rw [List.flatMap_append, List.filterMap_append]
    refine List.forall_mem_append.mpr ⟨fun use here => ?_, fun use there => ?_⟩
    · exact List.mem_append_left v (first.worded use here)
    · exact List.mem_append_right u (second.worded use there)
  declared := by
    rw [List.flatMap_append, List.flatMap_append, List.map_append]
    exact first.declared.append second.declared

theorem node {n : Node} (inside : Rooted u n.children) (framed : Framed u n.span) (laid : n.Laid)
    (worded : ∀ use ∈ n.word?, ⟨.ident use.2, use.1⟩ ∈ u)
    (declared : (n.declares.map Ident.lexeme ++ ((n.children.flatMap Node.preorder).flatMap
      Node.declares).map Ident.lexeme).Sublist u) : Rooted u [n] where
  framed := by
    intro m member
    rwa [List.mem_singleton.mp member]
  apart := List.pairwise_singleton _ _
  laid := by
    rw [List.flatMap_singleton, Node.preorder_eq_cons]
    exact List.forall_mem_cons.mpr ⟨laid, inside.laid⟩
  worded := by
    rw [List.flatMap_singleton, Node.preorder_eq_cons]
    intro use member
    obtain ⟨m, below, is⟩ := List.mem_filterMap.mp member
    rcases List.mem_cons.mp below with rfl | deeper
    · exact worded use is
    · exact inside.worded use (List.mem_filterMap.mpr ⟨m, deeper, is⟩)
  declared := by
    rw [List.flatMap_singleton, Node.preorder_eq_cons, List.flatMap_cons, List.map_append]
    exact declared

theorem named (rooted : Rooted u ns) :
    ∀ use ∈ (ns.flatMap Node.preorder).filterMap Node.name?, ⟨.ident use.2, use.1⟩ ∈ u := by
  intro use member
  obtain ⟨n, below, is⟩ := List.mem_filterMap.mp member
  exact rooted.worded use (List.mem_filterMap.mpr ⟨n, below, Node.word?_of_name? is⟩)

private theorem laid_root {n : Node} (rooted : Rooted u ns) (member : n ∈ ns) : n.Laid :=
  rooted.laid n (List.mem_flatMap.mpr ⟨n, member, Node.mem_preorder_iff.mpr (.inl rfl)⟩)

private theorem within_ends {c d : Node} (rooted : Rooted u ns) (first : ns.head? = some c)
    (last : ns.getLast? = some d) : ∀ n ∈ ns, n.span.Within (c.span.through d.span) := by
  obtain ⟨others, split⟩ := List.head?_eq_some_iff.mp first
  obtain ⟨earlier, split'⟩ := List.getLast?_eq_some_iff.mp last
  intro n member
  constructor
  · show c.span.start ≤ n.span.start
    have apart := rooted.apart
    rw [split] at apart member
    rcases List.mem_cons.mp member with rfl | later
    · exact Nat.le_refl _
    · have before : c.span.stop ≤ n.span.start := (List.pairwise_cons.mp apart).1 n later
      have room := (rooted.laid_root (List.mem_of_mem_head? first)).room
      omega
  · show n.span.stop ≤ d.span.stop
    have apart := rooted.apart
    rw [split'] at apart member
    rcases List.mem_append.mp member with early | final
    · have before : n.span.stop ≤ d.span.start :=
        (List.pairwise_append.mp apart).2.2 n early d List.mem_cons_self
      have room := (rooted.laid_root (List.mem_of_getLast? last)).room
      omega
    · exact Nat.le_of_eq (by rw [List.mem_singleton.mp final])

end Rooted

/-- The node is no name, call or member access and declares nothing. -/
structure Node.Plain (n : Node) : Prop where
  unmarked : n.isMark = false
  undeclared : n.declarators = []

namespace Rooted

variable {u : List Lexeme} {n : Node}

theorem plain (plain : n.Plain) (inside : Rooted u n.children) (framed : Framed u n.span)
    (room : n.span.start < n.span.stop) (within : ∀ c ∈ n.children, c.span.Within n.span) :
    Rooted u [n] := by
  have wordless : n.word? = none := by
    have unmarked := plain.unmarked
    cases n with
    | stmt s => rfl
    | expr e =>
      cases e with
      | name span m => cases unmarked
      | member span base field arrow => cases unmarked
      | _ => rfl
  refine inside.node framed ⟨room, within, inside.apart, ?_, ?_⟩ ?_ ?_
  · rw [plain.unmarked]
    exact fun impossible => by cases impossible
  · rw [plain.undeclared]
    exact fun d member => by cases member
  · rw [wordless]
    exact fun use impossible => by cases impossible
  · rw [n.declares_eq, plain.undeclared]
    exact inside.declared

end Rooted

def Grown (u : List Lexeme) (ns : List Node) : Prop := Ordered u → Rooted u ns

namespace Grown

variable {u v : List Lexeme} {ns ms : List Node} {n : Node}

theorem nil : Grown u [] := fun _ => .nil

theorem append (first : Grown u ns) (second : Grown v ms) : Grown (u ++ v) (ns ++ ms) :=
  fun ordered => (first ordered.left).append (second ordered.right) ordered

theorem mono (grown : Grown u ns) (within : u.Sublist v) : Grown v ns :=
  fun ordered => (grown (ordered.sublist within)).mono within

theorem ne_nil (grown : Grown u [n]) : u ≠ [] := by
  rintro rfl
  have rooted := grown ⟨by simp, .nil⟩
  obtain ⟨l, member, -⟩ := (rooted.framed n List.mem_cons_self).start
  cases member

theorem behind (grown : Grown v ns) : Grown (u ++ v) ns :=
  grown.mono (List.sublist_append_right u v)

theorem ahead (grown : Grown u ns) : Grown (u ++ v) ns :=
  grown.mono (List.sublist_append_left u v)

theorem whole (plain : n.Plain) (inside : Grown u n.children) (nonempty : u ≠ [])
    (spans : Spans u n.span) : Grown u [n] := by
  intro ordered
  have rooted := inside ordered
  refine rooted.plain plain (spans.framed nonempty) (spans.room nonempty ordered) fun c child => ?_
  exact (rooted.framed c child).within ordered spans

theorem joined {c d : Node} (plain : n.Plain) (inside : Grown u n.children)
    (first : n.children.head? = some c) (last : n.children.getLast? = some d)
    (span : n.span = c.span.through d.span) : Grown u [n] := by
  intro ordered
  have rooted := inside ordered
  have within : ∀ m ∈ n.children, m.span.Within n.span := by
    rw [span]
    exact rooted.within_ends first last
  have child : c ∈ n.children := List.mem_of_mem_head? first
  have child' : d ∈ n.children := List.mem_of_getLast? last
  refine rooted.plain plain ?_ ?_ within
  · rw [span]
    exact ⟨(rooted.framed c child).start, (rooted.framed d child').stop⟩
  · have inner := within c child
    have room := (rooted.laid_root child).room
    unfold Span.Within at inner
    omega

theorem prefixed {c : Node} {head : Span} (plain : n.Plain) (children : n.children = [c])
    (span : n.span = head.through c.span) (spans : Spans u head) (nonempty : u ≠ [])
    (operand : Grown v [c]) : Grown (u ++ v) [n] := by
  intro ordered
  have rooted := operand ordered.right
  have framed := spans.framed nonempty
  have framed' := rooted.framed c List.mem_cons_self
  have before := framed.before framed' ordered
  have room := spans.room nonempty ordered.left
  have room' := (rooted.laid_root List.mem_cons_self).room
  refine Rooted.plain plain ?_ ?_ ?_ ?_
  · rw [children]
    exact rooted.mono (List.sublist_append_right u v)
  · rw [span]
    exact ⟨(framed.mono fun _ => List.mem_append_left v).start,
      (framed'.mono fun _ => List.mem_append_right u).stop⟩
  · rw [span]
    show head.start < c.span.stop
    omega
  · rw [children, span]
    intro m member
    rw [List.mem_singleton.mp member]
    constructor
    · show head.start ≤ c.span.start
      omega
    · exact Nat.le_refl _

theorem suffixed {base : Node} {args : List Node} {tail : Span} {last : Lexeme}
    (worded : ∀ use ∈ n.word?, ⟨.ident use.2, use.1⟩ = last) (undeclared : n.declarators = [])
    (children : n.children = base :: args) (span : n.span = base.span.through tail)
    (operand : Grown u [base]) (inside : Grown v args) (spans : Spans (v ++ [last]) tail) :
    Grown (u ++ (v ++ [last])) [n] := by
  intro ordered
  have stop : tail.stop = last.span.stop := by
    have nonempty : v ++ [last] ≠ [] := by simp
    obtain ⟨first, others, split⟩ := List.exists_cons_of_ne_nil nonempty
    rw [spans first others split]
    show lastStop first.span.stop others = _
    have whole : lastStop 0 (v ++ [last]) = lastStop first.span.stop others := by rw [split]; rfl
    rw [← whole, lastStop, List.foldl_append]
    rfl
  rw [← List.append_assoc] at ordered ⊢
  have rooted : Rooted (u ++ v) n.children := by
    rw [children]
    exact (operand ordered.left.left).append (inside ordered.left.right) ordered.left
  have closes : ∀ c ∈ n.children, c.span.stop < n.span.stop := by
    intro c child
    obtain ⟨l, member, same⟩ := (rooted.framed c child).stop
    have before := ordered.across member (List.mem_singleton_self last)
    have room := ordered.room last (by simp)
    rw [span, same]
    show l.span.stop < tail.stop
    omega
  have first : n.children.head? = some base := by rw [children]; rfl
  have child : base ∈ n.children := List.mem_of_mem_head? first
  have start : n.span.start = base.span.start := by rw [span]; rfl
  have within : ∀ c ∈ n.children, c.span.Within n.span := by
    have nonempty : n.children ≠ [] := by simp [children]
    obtain ⟨d, final⟩ := List.getLast?_isSome.mpr nonempty |> Option.isSome_iff_exists.mp
    intro c member
    have ends := rooted.within_ends first final c member
    exact ⟨start ▸ ends.1, Nat.le_of_lt (closes c member)⟩
  refine (rooted.mono (List.sublist_append_left _ [last])).node ⟨?_, ?_⟩
    ⟨?_, within, rooted.apart, fun _ => closes, ?_⟩ ?_ ?_
  · obtain ⟨l, member, same⟩ := (rooted.framed base child).start
    exact ⟨l, List.mem_append_left _ member, start.trans same⟩
  · refine ⟨last, by simp, ?_⟩
    rw [span]
    exact stop
  · have room := (rooted.laid_root child).room
    have close := closes base child
    omega
  · rw [undeclared]
    exact fun d member => by cases member
  · intro use is
    rw [worded use is]
    exact List.mem_append_right _ List.mem_cons_self
  · rw [n.declares_eq, undeclared]
    exact rooted.declared.trans (List.sublist_append_left _ [last])

end Grown

instance : Gathered Grown where
  nil := fun _ => .nil
  append := .append
  mono := .mono

def Spelled (u : List Lexeme) (ids : List Ident) : Prop := (ids.map Ident.lexeme).Sublist u

instance : Gathered Spelled where
  nil := fun u => List.nil_sublist u
  append := fun first second => by
    rw [Spelled, List.map_append]
    exact first.append second
  mono := fun spelled within => spelled.trans within

/-- Declarators in a row: their names and expressions in the order of the tokens, and each of them
with some room between tokens. -/
structure Declared (u : List Lexeme) (ds : List Declarator) : Prop where
  exprs : Grown u ((ds.flatMap Declarator.exprs).map .expr)
  names : Spelled u (ds.map Declarator.name)
  framed : ∀ d ∈ ds, Framed u d.span
  room : Ordered u → ∀ d ∈ ds, d.span.start < d.span.stop

instance : Gathered Declared where
  nil := fun u => ⟨.nil, List.nil_sublist u, by simp, by simp⟩
  append := fun {u v ds ds'} first second => by
    refine ⟨?_, ?_, fun d member => ?_, fun ordered => ?_⟩
    · rw [List.flatMap_append, List.map_append]
      exact first.exprs.append second.exprs
    · rw [List.map_append]
      exact Gathered.append first.names second.names
    · rcases List.mem_append.mp member with here | there
      · exact (first.framed d here).mono fun _ => List.mem_append_left v
      · exact (second.framed d there).mono fun _ => List.mem_append_right u
    · exact List.forall_mem_append.mpr ⟨first.room ordered.left, second.room ordered.right⟩
  mono := fun declared within => ⟨declared.exprs.mono within, Gathered.mono declared.names within,
    fun d member => (declared.framed d member).mono fun _ => (within.subset ·),
    fun ordered => declared.room (ordered.sublist within)⟩

theorem Grown.decl {u : List Lexeme} {d : Decl} {span : Span} (declared : Declared u d.declarators)
    (nonempty : u ≠ []) (spans : Spans u span) : Grown u [.stmt (.decl span d)] := by
  intro ordered
  have rooted : Rooted u (d.exprs.map Node.expr) := declared.exprs ordered
  have silent : ((d.exprs.map Node.expr).flatMap Node.preorder).flatMap Node.declares = [] := by
    rw [List.flatMap_map]
    exact Stmt.declares_exprNodes d.exprs
  refine Rooted.node (n := .stmt (.decl span d)) rooted (spans.framed nonempty)
    ⟨spans.room nonempty ordered, fun c child => ?_, rooted.apart, ?_, fun x member => ?_⟩ ?_ ?_
  · exact (rooted.framed c child).within ordered spans
  · exact fun impossible => by cases impossible
  · exact ⟨declared.room ordered x member, (declared.framed x member).within ordered spans⟩
  · exact fun use impossible => by cases impossible
  · show List.Sublist (_ ++ (((d.exprs.map Node.expr).flatMap Node.preorder).flatMap
      Node.declares).map Ident.lexeme) u
    rw [silent, List.map_nil, List.append_nil]
    exact declared.names

end Lockstep
