import Lockstep.Token.Lexer
import Mathlib.Data.String.Basic
/-!
The pieces that a text is split into. Each of them is cut out of the text at its range, and one
follows the other. So tokens lie inside the text, one behind the other, and an identifier is what
the text spells at its range.
-/

set_option autoImplicit false
set_option relaxedAutoImplicit false

namespace Lockstep

/-- Each token takes some room and ends before the next one starts. -/
structure Ordered (tokens : List Lexeme) : Prop where
  room : ∀ l ∈ tokens, l.span.start < l.span.stop
  apart : tokens.Pairwise fun l m => l.span.stop ≤ m.span.start

namespace Ordered

variable {tokens : List Lexeme}

theorem sublist {others : List Lexeme} (ordered : Ordered tokens) (within : others.Sublist tokens) :
    Ordered others :=
  ⟨fun l member => ordered.room l (within.subset member), ordered.apart.sublist within⟩

theorem left {u v : List Lexeme} (ordered : Ordered (u ++ v)) : Ordered u :=
  ordered.sublist (List.sublist_append_left u v)

theorem right {u v : List Lexeme} (ordered : Ordered (u ++ v)) : Ordered v :=
  ordered.sublist (List.sublist_append_right u v)

theorem across {u v : List Lexeme} (ordered : Ordered (u ++ v)) {l m : Lexeme} (here : l ∈ u)
    (there : m ∈ v) : l.span.stop ≤ m.span.start :=
  (List.pairwise_append.mp ordered.apart).2.2 l here m there

end Ordered

def Span.slice (span : Span) (text : String) : String :=
  String.Pos.Raw.extract text ⟨span.start⟩ ⟨span.stop⟩

theorem byteLength_eq_utf8Len (cs : List Char) : byteLength cs = String.utf8Len cs := by
  have shifted (cs : List Char) (n : Nat) :
      cs.foldl (fun n c => n + c.utf8Size) n = n + String.utf8Len cs := by
    induction cs generalizing n with
    | nil => simp
    | cons c cs ih =>
      rw [List.foldl_cons, ih, String.utf8Len_cons]
      omega
  rw [byteLength, shifted, Nat.zero_add]

theorem byteLength_append (cs ds : List Char) :
    byteLength (cs ++ ds) = byteLength cs + byteLength ds := by
  simp only [byteLength_eq_utf8Len, String.utf8Len_append]

theorem byteLength_pos {cs : List Char} (nonempty : cs ≠ []) : 0 < byteLength cs := by
  obtain ⟨c, others, rfl⟩ := List.exists_cons_of_ne_nil nonempty
  have positive := c.utf8Size_pos
  rw [byteLength_eq_utf8Len, String.utf8Len_cons]
  omega

private theorem mem_of_alive {α : Type} {live : List (Pattern × α)} {c : Char} {p : Pattern × α}
    (alive : p ∈ (live.map fun q => (q.1.derive c, q.2)).filter fun q => !q.1.isDead) :
    p.2 ∈ live.map Prod.snd := by
  obtain ⟨q, inside, rfl⟩ := List.mem_map.mp (List.mem_of_mem_filter alive)
  exact List.mem_map.mpr ⟨q, inside, rfl⟩

private theorem longest_munch {α : Type} {live : List (Pattern × α)} {done : Nat}
    {best : Option (α × Nat)} {cs : List Char} {a : α} {n : Nat}
    (longest : (munch live done best cs).longest = some (a, n)) :
    best = some (a, n) ∨ a ∈ live.map Prod.snd := by
  induction cs generalizing live done best with
  | nil => exact .inl longest
  | cons c rest ih =>
    simp only [munch] at longest
    split at longest
    · exact .inl longest
    · rcases ih longest with now | later
      · split at now
        · rename_i p b found
          cases now
          exact .inr (mem_of_alive (List.mem_of_find?_eq_some found))
        · exact .inl now
      · obtain ⟨p, alive, rfl⟩ := List.mem_map.mp later
        exact .inr (mem_of_alive alive)

namespace Lexical

private theorem eq_ofList_of_read {read : List Char → Option Token} {cs : List Char} {n : String}
    (rule : Reading.token read ∈ rules.map Prod.snd) (is : read cs = some (.ident n)) :
    n = String.ofList cs := by
  have fixed {t : Token} (other : ∀ n, t ≠ .ident n) (same : Reading.token read = .fixed t) :
      False := by
    cases same
    exact other n (Option.some.inj is)
  simp only [rules, fixedRules, List.map_append, List.map_map, List.mem_append, List.mem_map,
    List.cons_append, List.mem_cons, List.map_cons, Function.comp_apply] at rule
  rcases rule with skip | (((((⟨k, -, same⟩ | ⟨w, -, same⟩) | ⟨w, -, same⟩) | ⟨w, -, same⟩) |
    ⟨s, -, same⟩) | ⟨p, member, same⟩)
  · cases skip
  · exact (fixed (by simp) same.symm).elim
  · exact (fixed (by simp) same.symm).elim
  · exact (fixed (by simp) same.symm).elim
  · exact (fixed (by simp) same.symm).elim
  · exact (fixed (by simp) same.symm).elim
  · simp only [valueRules, List.mem_cons, List.not_mem_nil, or_false] at member
    rcases member with rfl | rfl | rfl | rfl | rfl | rfl | rfl | rfl
    all_goals cases same
    · cases is
    · cases is
    · cases is
    · simp at is
    · simp at is
    · cases is
    · cases is
    · cases is
      rfl

end Lexical

private theorem eq_ofList_of_firstPiece {c : Char} {rest : List Char} {n : String} {extra : Nat}
    (piece : firstPiece c rest = (.token (.ident n), extra)) :
    n = String.ofList (c :: rest.take extra) := by
  unfold firstPiece at piece
  extract_lets bite at piece
  split at piece
  · cases piece
  · cases piece
  · rename_i read k longest
    have rule := (longest_munch longest).resolve_left (by simp)
    extract_lets cs at piece
    split at piece
    · rename_i t is
      cases piece
      exact Lexical.eq_ofList_of_read rule is
    · cases piece

theorem exists_cut {offset : Nat} {cs : List Char} {p : Piece × Span}
    (member : p ∈ pieces offset cs) : ∃ before own after, cs = before ++ own ++ after ∧ own ≠ [] ∧
      p.2 = ⟨offset + byteLength before, offset + byteLength (before ++ own)⟩ ∧
        ∀ n, p.1 = .token (.ident n) → n = String.ofList own := by
  induction offset, cs using pieces.induct with
  | case1 offset =>
    rw [pieces] at member
    cases member
  | case2 offset c rest piece extra found stop ih =>
    rw [pieces] at member
    simp only [found] at member
    rcases List.mem_cons.mp member with rfl | later
    · refine ⟨[], c :: rest.take extra, rest.drop extra, by simp, by simp, rfl, ?_⟩
      rintro n rfl
      exact eq_ofList_of_firstPiece found
    · obtain ⟨before, own, after, split, nonempty, range, spelled⟩ := ih later
      have moved : stop = offset + byteLength (c :: rest.take extra) := rfl
      refine ⟨(c :: rest.take extra) ++ before, own, after, ?_, nonempty, ?_, spelled⟩
      · rw [List.append_assoc, List.append_assoc, ← List.append_assoc before, ← split]
        simp
      · rw [range, moved, List.append_assoc, byteLength_append _ before,
          byteLength_append _ (before ++ own)]
        simp only [Nat.add_assoc]

theorem pieces_apart (offset : Nat) (cs : List Char) :
    (pieces offset cs).Pairwise fun p q => p.2.stop ≤ q.2.start := by
  induction offset, cs using pieces.induct with
  | case1 offset =>
    rw [pieces]
    exact .nil
  | case2 offset c rest piece extra found stop ih =>
    rw [pieces]
    simp only [found]
    refine List.pairwise_cons.mpr ⟨fun p later => ?_, ih⟩
    obtain ⟨before, own, after, -, -, range, -⟩ := exists_cut later
    rw [range]
    exact Nat.le_add_right _ _

private theorem exists_piece {text : String} {l : Lexeme} (member : l ∈ (lex text).tokens) :
    (.token l.token, l.span) ∈ pieces 0 text.toList := by
  obtain ⟨⟨piece, span⟩, inside, read⟩ := List.mem_filterMap.mp member
  cases piece <;> cases read
  exact inside

/-- Tokens follow each other. -/
theorem lex_ordered (text : String) : Ordered (lex text).tokens := by
  refine ⟨fun l member => ?_, ?_⟩
  · obtain ⟨before, own, after, -, nonempty, range, -⟩ := exists_cut (exists_piece member)
    have room := byteLength_pos nonempty
    simp only at range
    rw [range, byteLength_append]
    show 0 + byteLength before < 0 + (byteLength before + byteLength own)
    omega
  · refine List.Pairwise.filterMap _ (fun p q before l read m read' => ?_)
      (pieces_apart 0 text.toList)
    obtain ⟨piece, span⟩ := p
    obtain ⟨piece', span'⟩ := q
    cases piece <;> cases read
    cases piece' <;> cases read'
    exact before

theorem stop_le_utf8ByteSize {text : String} {l : Lexeme} (member : l ∈ (lex text).tokens) :
    l.span.stop ≤ text.utf8ByteSize := by
  obtain ⟨before, own, after, split, -, range, -⟩ := exists_cut (exists_piece member)
  have size : text.utf8ByteSize = byteLength text.toList := by
    rw [byteLength_eq_utf8Len, ← String.utf8ByteSize_ofList, String.ofList_toList]
  simp only at range
  rw [size, split, range, byteLength_append (before ++ own)]
  show 0 + byteLength (before ++ own) ≤ _
  omega

theorem slice_eq_of_ident {text name : String} {span : Span}
    (member : ⟨.ident name, span⟩ ∈ (lex text).tokens) : span.slice text = name := by
  obtain ⟨before, own, after, split, -, range, spelled⟩ := exists_cut (exists_piece member)
  have cut := String.extract_of_valid before own after
  simp only at range
  rw [spelled name rfl, Span.slice, range, ← cut, ← split, String.ofList_toList]
  simp only [Nat.zero_add, byteLength_eq_utf8Len, String.utf8Len_append]

end Lockstep
