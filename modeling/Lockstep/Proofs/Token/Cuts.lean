import Lockstep.Proofs.Token.Literals
import Lockstep.Proofs.Token.Pieces
/-!
How a text is cut. From each point the longest text of any lexical rule is taken, and of the rules
that have it the first one counts; where no rule has a text, the characters up to the point where
every rule has given up are stray. Nothing is lost: tokens and stray pieces lie one behind the other,
and all that lies between them is skipped.
-/

set_option autoImplicit false
set_option relaxedAutoImplicit false

namespace Lockstep

namespace Pattern

variable {p q : Pattern} {accepts : Char → Bool}

/-- The pattern has a text, and so has every part of it that a text may need. -/
structure Sound (p : Pattern) : Prop where
  trim : p.Trim
  live : p.Live

private theorem sound_blank : Sound blank := ⟨trivial, [], .blank⟩

private theorem sound_one (c : Char) (accepted : accepts c = true) : Sound (one accepts) :=
  ⟨⟨c, accepted⟩, [c], .one accepted⟩

theorem Sound.seq (first : Sound p) (second : Sound q) : Sound (seq p q) := by
  obtain ⟨u, matched⟩ := first.live
  obtain ⟨v, matched'⟩ := second.live
  exact ⟨⟨first.trim, second.trim, first.live, second.live⟩, u ++ v, .seq matched matched'⟩

theorem Sound.alt (first : Sound p) (second : q.Trim) : Sound (alt p q) := by
  obtain ⟨u, matched⟩ := first.live
  exact ⟨⟨first.trim, second, .inl first.live⟩, u, .left matched⟩

theorem Sound.star (body : Sound p) : Sound (star p) := ⟨body.trim, [], .starNil⟩

theorem Sound.plus (body : Sound p) : Sound (plus p) := body.seq body.star

theorem Sound.option (body : Sound p) : Sound (option p) := body.alt sound_blank.trim

private theorem sound_text (s : String) : Sound (text s) := by
  unfold text
  induction s.toList with
  | nil => exact sound_blank
  | cons c cs ih =>
    have first : Sound (one (· == c)) := sound_one c (beq_self_eq_true c)
    exact first.seq ih

end Pattern

namespace Lexical

open Pattern

/-- The words and signs of the language, and the tokens that they stand for. -/
def fixedSpellings : List (String × Token) :=
  Keyword.all.map (fun k => (k.spelling, .keyword k)) ++
  kernelWords.map (fun w => (w, .kernel)) ++
  qualifierWords.map (fun w => (w, .qualifier)) ++
  attributeWords.map (fun w => (w, .attr)) ++
  Sign.all.map (fun s => (s.spelling, .sign s))

theorem fixedRules_eq :
    fixedRules = fixedSpellings.map fun s => (Pattern.text s.1, Reading.fixed s.2) := by
  simp only [fixedRules, fixedSpellings, List.map_append, List.map_map]
  rfl

private theorem exists_rule_iff {u : List Char} : (∃ r ∈ rules, r.1.Matches u) ↔
    Skipped u ∨ (∃ s ∈ fixedSpellings, u = s.1.toList) ∨ Valued u := by
  rw [← matches_gap_iff, ← exists_valueRule_iff, rules, fixedRules_eq]
  simp only [List.cons_append, List.mem_cons, List.mem_append, or_and_right,
    exists_or, exists_eq_left, List.mem_map, exists_exists_and_eq_and, matches_text_iff]

theorem gap_trim : gap.Trim := by
  have spaces : Sound (oneOf " \t\r\n\x0c") := sound_one ' ' (by decide)
  have lines : Sound (noneOf "\n") := sound_one 'a' (by decide)
  have stars : Sound (oneOf "*") := sound_one '*' (by decide)
  have plain : Sound (noneOf "*") := sound_one 'a' (by decide)
  have ends : Sound (noneOf "*/") := sound_one 'a' (by decide)
  have inside := (plain.alt (stars.plus.seq ends).trim).star
  have line := (sound_text "//").seq lines.star
  have block := (sound_text "/*").seq
    (inside.seq (stars.plus.seq ((sound_text "/").seq sound_blank)))
  have directive := (sound_text "#").seq lines.star
  exact (spaces.plus.alt (line.alt (block.alt
    (directive.alt (q := nothing) trivial).trim).trim).trim).trim

private theorem valueRules_trim : ∀ r ∈ valueRules, r.1.Trim := by
  have digits : Sound digit := sound_one '0' rfl
  have letters : Sound letter := sound_one 'a' rfl
  have marks : Sound (oneOf "eE") := sound_one 'e' rfl
  have signs : Sound (oneOf "+-") := sound_one '+' rfl
  have powers : Sound exponent := marks.seq (signs.option.seq (digits.plus.seq sound_blank))
  have suffixes : Sound floatSuffix := (sound_one 'f' rfl : Sound (oneOf "fFhH")).option
  have widths : Sound intSuffix := (sound_one 'u' rfl : Sound (oneOf "uUlL")).star
  have hexits : Sound (oneOf "xX") := sound_one 'x' rfl
  have hexDigits : Sound (oneOf "0123456789abcdefABCDEF") := sound_one '0' rfl
  have escapes : Sound (seq (text "\\") (noneOf "\n")) :=
    (sound_text "\\").seq (sound_one 'a' (by decide))
  have charBody : Sound (alt (noneOf ("'" ++ "\\\n")) (seq (text "\\") (noneOf "\n"))) :=
    (sound_one 'a' (by decide)).alt escapes.trim
  have strBody : Sound (alt (noneOf ("\"" ++ "\\\n")) (seq (text "\\") (noneOf "\n"))) :=
    (sound_one 'a' (by decide)).alt escapes.trim
  have fraction := (sound_text ".").seq
    (digits.star.seq (powers.option.seq (suffixes.seq sound_blank)))
  have pointed := (sound_text ".").seq
    (digits.plus.seq (powers.option.seq (suffixes.seq sound_blank)))
  have scaled := powers.seq (suffixes.seq sound_blank)
  have hexadecimal := (sound_text "0").seq
    (hexits.seq (hexDigits.plus.seq (widths.seq sound_blank)))
  have chars := (sound_text "'").seq (charBody.plus.seq ((sound_text "'").seq sound_blank))
  have strs := (sound_text "\"").seq (strBody.star.seq ((sound_text "\"").seq sound_blank))
  intro r member
  simp only [valueRules, List.mem_cons, List.not_mem_nil, or_false] at member
  rcases member with rfl | rfl | rfl | rfl | rfl | rfl | rfl | rfl
  · exact (digits.plus.seq fraction).trim
  · exact pointed.trim
  · exact (digits.plus.seq scaled).trim
  · exact hexadecimal.trim
  · exact (digits.plus.seq widths).trim
  · exact chars.trim
  · exact strs.trim
  · exact (letters.seq (letters.alt digits.trim).star).trim

theorem rules_trim : ∀ r ∈ rules, r.1.Trim := by
  intro r member
  simp only [rules, List.cons_append, List.mem_cons, List.mem_append, fixedRules_eq,
    List.mem_map] at member
  rcases member with rfl | ⟨s, -, rfl⟩ | member
  · exact gap_trim
  · exact (sound_text s.1).trim
  · exact valueRules_trim r member

private theorem nodup_fixedSpellings : (fixedSpellings.map Prod.fst).Nodup := by decide +kernel

private theorem not_gap_of_fixed : ∀ s ∈ fixedSpellings, ¬ gap.Matches s.1.toList := by
  simp only [← nullable_behind_iff]
  decide +kernel

def FirstRule (own : List Char) (reading : Reading) : Prop :=
  ∃ earlier p later, rules = earlier ++ (p, reading) :: later ∧ p.Matches own ∧
    ∀ r ∈ earlier, ¬ r.1.Matches own

theorem FirstRule.unique {own : List Char} {reading other : Reading}
    (first : FirstRule own reading) (second : FirstRule own other) : reading = other := by
  have found := firstMatch_eq_some_iff.mpr first
  have found' := firstMatch_eq_some_iff.mpr second
  exact Option.some.inj (found.symm.trans found')

theorem firstRule_of_fixed {w : String} {t : Token} (fixed : (w, t) ∈ fixedSpellings) :
    FirstRule w.toList (.fixed t) := by
  obtain ⟨before, after, split⟩ := List.append_of_mem fixed
  refine ⟨(gap, .skip) :: before.map fun s => (Pattern.text s.1, .fixed s.2), Pattern.text w,
    (after.map fun s => (Pattern.text s.1, Reading.fixed s.2)) ++ valueRules, ?_,
    matches_text_iff.mpr rfl, ?_⟩
  · rw [rules, fixedRules_eq, split]
    simp
  · intro r earlier
    rcases List.mem_cons.mp earlier with rfl | fixed'
    · exact not_gap_of_fixed (w, t) fixed
    · obtain ⟨s, member, rfl⟩ := List.mem_map.mp fixed'
      intro matched
      have same : w = s.1 := String.toList_inj.mp (matches_text_iff.mp matched)
      have distinct := nodup_fixedSpellings
      rw [split, List.map_append, List.map_cons, List.nodup_append] at distinct
      exact distinct.2.2 s.1 (List.mem_map.mpr ⟨s, member, rfl⟩) w List.mem_cons_self same.symm

end Lexical

def Reading.piece (own : List Char) : Reading → Piece
  | .skip => .gap
  | .token read => ((read own).map Piece.token).getD (.stray own)

open Lexical

/-- From the front of `own ++ after` the piece `own` is taken. -/
inductive Taken : List Char → List Char → Piece → Prop where
  /-- No rule has a longer text; of the rules that have this one the first counts. -/
  | matched {own after : List Char} {reading : Reading} (nonempty : own ≠ [])
      (first : FirstRule own reading)
      (longest : ∀ more, more ≠ [] → more <+: after → ∀ r ∈ rules, ¬ r.1.Matches (own ++ more)) :
      Taken own after (reading.piece own)
  /-- No rule has a text that starts here; the piece ends where no rule can go on. -/
  | stray {own after : List Char} (nonempty : own ≠ [])
      (unmatched : ∀ u, u ≠ [] → u <+: own ++ after → ∀ r ∈ rules, ¬ r.1.Matches u)
      (begun : 1 < own.length → Begins rules own)
      (stuck : ∀ c rest, after = c :: rest → ¬ Begins rules (own ++ [c])) :
      Taken own after (.stray own)

/-- A text cut into pieces, each of them taken from the front of what is left. -/
inductive Cuts : List Char → List (List Char × Piece) → Prop where
  | nil : Cuts [] []
  | cons {own after : List Char} {piece : Piece} {cuts : List (List Char × Piece)}
      (taken : Taken own after piece) (others : Cuts after cuts) :
      Cuts (own ++ after) ((own, piece) :: cuts)

/-- The pieces of a text that starts at byte `offset`, each with the bytes of its characters. -/
def withRanges (offset : Nat) : List (List Char × Piece) → List (Piece × Span)
  | [] => []
  | (own, piece) :: cuts =>
    (piece, ⟨offset, offset + byteLength own⟩) :: withRanges (offset + byteLength own) cuts

section Pieces

variable {c : Char} {rest : List Char} {piece : Piece} {extra : Nat}

private theorem matched_of_longestAt {reading : Reading} {n : Nat}
    (found : LongestAt rules (c :: rest) reading (n + 1)) :
    Taken (c :: rest.take n) (rest.drop n) (reading.piece (c :: rest.take n)) := by
  have first : FirstRule (c :: rest.take n) reading := firstMatch_eq_some_iff.mp found.matched
  refine .matched (by simp) first ?_
  intro more nonempty within
  obtain ⟨tail, split⟩ := within
  have bound : n ≤ rest.length := Nat.le_of_succ_le_succ found.le
  have size : more.length ≤ rest.length - n := by
    have lengths := congrArg List.length split
    rw [List.length_append, List.length_drop] at lengths
    omega
  have whole : (c :: rest).take (n + 1 + more.length) = c :: rest.take n ++ more := by
    rw [Nat.succ_add, List.take_succ_cons, List.take_add, ← split, List.take_left]
    rfl
  have none := found.longest (n + 1 + more.length)
    (by have := List.length_pos_of_ne_nil nonempty; omega) (by rw [List.length_cons]; omega)
  rw [whole] at none
  exact firstMatch_eq_none_iff.mp none

private theorem stray_of_unmatched (bite : Bite Reading)
    (munched : munch rules 0 none (c :: rest) = bite) (none : bite.longest = none) :
    Taken (c :: rest.take (bite.reach - 1)) (rest.drop (bite.reach - 1))
      (.stray (c :: rest.take (bite.reach - 1))) := by
  have unmatched : ∀ u, u ≠ [] → u <+: c :: rest → ∀ r ∈ rules, ¬ r.1.Matches u := by
    intro u nonempty within
    have start : u = (c :: rest).take u.length := List.prefix_iff_eq_take.mp within
    have absent := longest_munch_eq_none_iff.mp (munched ▸ none) u.length
      (List.length_pos_of_ne_nil nonempty) within.length_le
    rw [← start] at absent
    exact firstMatch_eq_none_iff.mp absent
  obtain ⟨bound, begun, ended⟩ := reach_munch (c :: rest) rules_trim
  rw [munched] at bound begun ended
  rw [List.length_cons] at bound ended
  have split : c :: rest.take (bite.reach - 1) ++ rest.drop (bite.reach - 1) = c :: rest := by
    rw [List.cons_append, List.take_append_drop]
  have own : 0 < bite.reach → c :: rest.take (bite.reach - 1) = (c :: rest).take bite.reach := by
    intro positive
    obtain ⟨n, same⟩ := Nat.exists_eq_succ_of_ne_zero (Nat.ne_of_gt positive)
    rw [same]
    rfl
  refine .stray (by simp) (split.symm ▸ unmatched) ?_ ?_
  · intro several
    have positive : 0 < bite.reach := by
      rw [List.length_cons, List.length_take] at several
      omega
    rw [own positive]
    exact begun positive
  · intro d others left
    have within : bite.reach - 1 < rest.length := by
      have lengths := congrArg List.length left
      rw [List.length_drop, List.length_cons] at lengths
      omega
    intro absurd
    by_cases positive : 0 < bite.reach
    · have next : (c :: rest).take (bite.reach + 1) = c :: rest.take (bite.reach - 1) ++ [d] := by
        have moved : bite.reach + 1 = (bite.reach - 1 + 1) + 1 := by omega
        rw [moved, List.take_succ_cons, List.take_add, left]
        rfl
      rw [← next] at absurd
      exact ended (by omega) absurd
    · -- No rule starts with the first character, so none starts with two.
      have zero : bite.reach = 0 := by omega
      have single := ended (by omega)
      have first : Begins rules [c] := by
        have taken := absurd.take (n := 1)
        simpa using taken
      rw [zero] at single
      exact single first

/-- The first piece of a text is the one to be taken. -/
theorem taken_firstPiece (found : firstPiece c rest = (piece, extra)) :
    Taken (c :: rest.take extra) (rest.drop extra) piece := by
  unfold firstPiece at found
  extract_lets bite at found
  cases longest : bite.longest with
  | none =>
    rw [longest] at found
    obtain ⟨rfl, rfl⟩ := Prod.mk.inj found
    exact stray_of_unmatched bite rfl longest
  | some best =>
    obtain ⟨reading, n⟩ := best
    have here := longest_munch_eq_some_iff.mp longest
    obtain ⟨m, rfl⟩ := Nat.exists_eq_succ_of_ne_zero (Nat.ne_of_gt here.pos)
    have taken := matched_of_longestAt here
    rw [longest] at found
    cases reading with
    | skip =>
      obtain ⟨rfl, rfl⟩ := Prod.mk.inj found
      exact taken
    | token read =>
      simp only [Nat.succ_eq_add_one, Nat.add_sub_cancel] at found
      cases value : read (c :: rest.take m) with
      | none =>
        rw [value] at found
        obtain ⟨rfl, rfl⟩ := Prod.mk.inj found
        simpa [Reading.piece, value] using taken
      | some t =>
        rw [value] at found
        obtain ⟨rfl, rfl⟩ := Prod.mk.inj found
        simpa [Reading.piece, value] using taken

theorem exists_cuts (offset : Nat) (cs : List Char) :
    ∃ cuts, Cuts cs cuts ∧ pieces offset cs = withRanges offset cuts := by
  induction offset, cs using pieces.induct with
  | case1 offset =>
    rw [pieces]
    exact ⟨[], .nil, rfl⟩
  | case2 offset c rest piece extra found stop ih =>
    obtain ⟨cuts, others, same⟩ := ih
    have taken := taken_firstPiece found
    refine ⟨(c :: rest.take extra, piece) :: cuts, ?_, ?_⟩
    · have whole := Cuts.cons taken others
      rwa [List.cons_append, List.take_append_drop] at whole
    · rw [pieces]
      simp only [found]
      rw [withRanges, same]

end Pieces

def Piece.isGap : Piece → Bool
  | gap => true
  | token _ | stray _ => false

def Piece.lexeme? (p : Piece × Span) : Option Lexeme :=
  match p.1 with
  | token t => some ⟨t, p.2⟩
  | gap | stray _ => none

def Piece.stray? (p : Piece × Span) : Option (Span × String) :=
  match p.1 with
  | stray cs => some (p.2, String.ofList cs)
  | gap | token _ => none

theorem tokens_lex (text : String) :
    (lex text).tokens = (pieces 0 text.toList).filterMap Piece.lexeme? := by
  show (pieces 0 text.toList).filterMap _ = _
  congr 1
  funext p
  obtain ⟨piece, span⟩ := p
  cases piece <;> rfl

theorem strays_lex (text : String) :
    (lex text).strays = (pieces 0 text.toList).filterMap Piece.stray? := by
  show (pieces 0 text.toList).filterMap _ = _
  congr 1
  funext p
  obtain ⟨piece, span⟩ := p
  cases piece <;> rfl

section Spans

variable {own after : List Char} {piece : Piece}

private theorem Taken.isGap_iff (taken : Taken own after piece) :
    piece.isGap = true ↔ Skipped own := by
  have rule (skipped : Skipped own) : FirstRule own .skip :=
    ⟨[], gap, _, rfl, matches_gap_iff.mpr skipped, by simp⟩
  cases taken with
  | stray nonempty unmatched =>
    constructor
    · intro skips
      cases skips
    · intro skipped
      exact absurd (matches_gap_iff.mpr skipped)
        (unmatched own nonempty (List.prefix_append own after) _ List.mem_cons_self)
  | @matched reading nonempty first longest =>
    constructor
    · intro skips
      obtain ⟨earlier, p, later, split, matched, -⟩ := first
      have entry : (p, reading) ∈ rules := by
        rw [split]
        simp
      cases reading with
      | token read =>
        cases value : read own with
        | none => simp [Reading.piece, value, Piece.isGap] at skips
        | some t => simp [Reading.piece, value, Piece.isGap] at skips
      | skip =>
        have only : p = gap := by
          simp only [rules, fixedRules_eq, valueRules, List.cons_append, List.mem_cons,
            List.mem_append, List.mem_map, Prod.mk.injEq] at entry
          simpa [Reading.fixed, Reading.floating, Reading.integer, Reading.quoted] using entry
        rw [only] at matched
        exact matches_gap_iff.mp matched
    · intro skipped
      rw [first.unique (rule skipped)]
      rfl

theorem Taken.fixed {w : String} {t : Token} (taken : Taken w.toList after piece)
    (spelled : (w, t) ∈ fixedSpellings) : piece = .token t := by
  have rule := firstRule_of_fixed spelled
  generalize characters : w.toList = own at taken rule
  cases taken with
  | matched nonempty first longest =>
    rw [first.unique rule]
    rfl
  | stray nonempty unmatched begun stuck =>
    obtain ⟨earlier, p, later, split, matched, -⟩ := rule
    have entry : (p, Reading.fixed t) ∈ rules := by
      rw [split]
      simp
    exact (unmatched own nonempty (List.prefix_append own after) _ entry matched).elim

theorem Taken.nonempty (taken : Taken own after piece) : own ≠ [] := by
  cases taken with
  | matched nonempty => exact nonempty
  | stray nonempty => exact nonempty

theorem Cuts.flatten {cs : List Char} {cuts : List (List Char × Piece)} (cut : Cuts cs cuts) :
    cuts.flatMap Prod.fst = cs := by
  induction cut with
  | nil => rfl
  | cons taken _ ih => rw [List.flatMap_cons, ih]

theorem Cuts.exists_taken {cs : List Char} {cuts : List (List Char × Piece)} (cut : Cuts cs cuts)
    {x : List Char × Piece} (member : x ∈ cuts) : ∃ after, Taken x.1 after x.2 := by
  induction cut with
  | nil => cases member
  | @cons own after piece cuts taken _ ih =>
    rcases List.mem_cons.mp member with rfl | later
    · exact ⟨after, taken⟩
    · exact ih later

private theorem exists_piece_at (cuts : List (List Char × Piece)) (offset : Nat) {i : Nat}
    (reached : offset ≤ i) (before : i < offset + byteLength (cuts.flatMap Prod.fst)) :
    ∃ left x right, cuts = left ++ x :: right ∧
      offset + byteLength (left.flatMap Prod.fst) ≤ i ∧
      i < offset + byteLength (left.flatMap Prod.fst) + byteLength x.1 ∧
      (x.2, ⟨offset + byteLength (left.flatMap Prod.fst),
        offset + byteLength (left.flatMap Prod.fst) + byteLength x.1⟩) ∈ withRanges offset cuts := by
  induction cuts generalizing offset with
  | nil =>
    have none : byteLength [] = 0 := rfl
    rw [List.flatMap_nil, none] at before
    omega
  | cons x cuts ih =>
    obtain ⟨own, piece⟩ := x
    have none : byteLength ([] : List Char) = 0 := rfl
    rw [List.flatMap_cons, byteLength_append] at before
    dsimp only at before
    by_cases here : i < offset + byteLength own
    · refine ⟨[], (own, piece), cuts, rfl, ?_, ?_, ?_⟩
      · rw [List.flatMap_nil, none]
        exact reached
      · rw [List.flatMap_nil, none]
        exact here
      · rw [List.flatMap_nil, none, withRanges]
        exact List.mem_cons_self
    · obtain ⟨left, y, right, split, low, high, member⟩ :=
        ih (offset + byteLength own) (by omega) (by omega)
      have moved : offset + byteLength (((own, piece) :: left).flatMap Prod.fst) =
          offset + byteLength own + byteLength (left.flatMap Prod.fst) := by
        rw [List.flatMap_cons, byteLength_append, Nat.add_assoc]
      refine ⟨(own, piece) :: left, y, right, by rw [split]; rfl, ?_, ?_, ?_⟩
      · rw [moved]
        exact low
      · rw [moved]
        exact high
      · rw [moved, withRanges]
        exact List.mem_cons_of_mem _ member

end Spans

/-- The ranges of the tokens and stray pieces of a text, by where they start: they take some room,
follow each other inside the text, start and end between characters, and each byte that belongs to
none of them is part of a gap. -/
structure Marks (text : String) (marks : List Span) : Prop where
  merged : marks.Perm ((lex text).tokens.map Lexeme.span ++ (lex text).strays.map Prod.fst)
  room : ∀ s ∈ marks, s.start < s.stop
  rising : marks.Pairwise fun a b => a.start < b.start
  apart : marks.Pairwise fun a b => a.stop ≤ b.start
  inside : ∀ s ∈ marks, s.stop ≤ text.utf8ByteSize
  between : ∀ s ∈ marks, (String.Pos.Raw.mk s.start).IsValid text ∧
    (String.Pos.Raw.mk s.stop).IsValid text
  gaps : ∀ i < text.utf8ByteSize, (∀ s ∈ marks, ¬ (s.start ≤ i ∧ i < s.stop)) →
    ∃ before own after, text.toList = before ++ own ++ after ∧ Skipped own ∧
      (.gap, ⟨byteLength before, byteLength (before ++ own)⟩) ∈ pieces 0 text.toList ∧
      byteLength before ≤ i ∧ i < byteLength (before ++ own)

def markSpans (text : String) : List Span :=
  ((pieces 0 text.toList).filter fun p => !p.1.isGap).map Prod.snd

private theorem markSpans_perm (text : String) : (markSpans text).Perm
    ((lex text).tokens.map Lexeme.span ++ (lex text).strays.map Prod.fst) := by
  rw [tokens_lex, strays_lex, markSpans]
  induction pieces 0 text.toList with
  | nil => exact .nil
  | cons p ps ih =>
    obtain ⟨piece, span⟩ := p
    cases piece with
    | gap => exact ih
    | token t => exact ih.cons span
    | stray cs => exact (ih.cons span).trans List.perm_middle.symm

private theorem isValid_of_split {text : String} {x y : List Char} (split : text.toList = x ++ y) :
    (String.Pos.Raw.mk (byteLength x)).IsValid text := by
  apply String.Pos.Raw.isValid_iff_exists_append.mpr
  refine ⟨String.ofList x, String.ofList y, ?_, ?_⟩
  · apply String.toList_inj.mp
    rw [split]
    simp
  · rw [byteLength_eq_utf8Len, String.rawEndPos_ofList]

private theorem pieces_size (text : String) : text.utf8ByteSize = byteLength text.toList := by
  rw [byteLength_eq_utf8Len, String.utf8Len_toList]

private theorem marks_of_text (text : String) : Marks text (markSpans text) := by
  have cut {s : Span} (member : s ∈ markSpans text) : ∃ before own after,
      text.toList = before ++ own ++ after ∧ own ≠ [] ∧
        s = ⟨byteLength before, byteLength (before ++ own)⟩ := by
    obtain ⟨p, kept, rfl⟩ := List.mem_map.mp member
    obtain ⟨before, own, after, split, nonempty, range, -⟩ :=
      exists_cut (List.mem_filter.mp kept).1
    rw [Nat.zero_add, Nat.zero_add] at range
    exact ⟨before, own, after, split, nonempty, range⟩
  have room : ∀ s ∈ markSpans text, s.start < s.stop := by
    intro s member
    obtain ⟨before, own, after, -, nonempty, rfl⟩ := cut member
    have positive := byteLength_pos nonempty
    show byteLength before < byteLength (before ++ own)
    rw [byteLength_append]
    omega
  have apart : (markSpans text).Pairwise fun a b => a.stop ≤ b.start :=
    List.Pairwise.map Prod.snd (fun _ _ => id) ((pieces_apart 0 text.toList).filter _)
  refine ⟨markSpans_perm text, room, ?_, apart, ?_, ?_, ?_⟩
  · apply apart.imp_of_mem
    intro a b first _ behind
    have taken := room a first
    omega
  · intro s member
    obtain ⟨before, own, after, split, -, rfl⟩ := cut member
    rw [pieces_size, split, byteLength_append (before ++ own)]
    exact Nat.le_add_right _ _
  · intro s member
    obtain ⟨before, own, after, split, -, rfl⟩ := cut member
    refine ⟨isValid_of_split (y := own ++ after) ?_, isValid_of_split split⟩
    rw [split, List.append_assoc]
  · intro i below outside
    obtain ⟨cuts, cutting, same⟩ := exists_cuts 0 text.toList
    rw [pieces_size, ← cutting.flatten] at below
    obtain ⟨left, x, right, split, low, high, member⟩ :=
      exists_piece_at cuts 0 (Nat.zero_le i) (by omega)
    rw [← same] at member
    rw [Nat.zero_add] at low high member
    have skips : x.2.isGap = true := by
      by_contra shown
      refine outside _ (List.mem_map.mpr ⟨_, List.mem_filter.mpr ⟨member, ?_⟩, rfl⟩) ⟨low, high⟩
      simpa using shown
    obtain ⟨rest, taken⟩ := cutting.exists_taken (x := x) (by rw [split]; simp)
    refine ⟨left.flatMap Prod.fst, x.1, right.flatMap Prod.fst, ?_, taken.isGap_iff.mp skips, ?_, low, ?_⟩
    · rw [← cutting.flatten, split]
      simp
    · rw [byteLength_append]
      have is : x.2 = .gap := by
        cases found : x.2 with
        | gap => rfl
        | _ =>
          rw [found] at skips
          cases skips
      rwa [is] at member
    · rw [byteLength_append]
      exact high

/-- Every text is cut from its start on by the longest match of the lexical rules, a word of the
language before an identifier of the same characters, and a stray piece ends where no rule can go
on. The tokens and stray pieces are those of the cut, and only gaps lie between them. The rules have
the gaps, the words and signs, and the literals and names as their texts, and no others. -/
theorem text_cut_exactly (text : String) : (∃ cuts, Cuts text.toList cuts ∧
      (lex text).tokens = (withRanges 0 cuts).filterMap Piece.lexeme? ∧
      (lex text).strays = (withRanges 0 cuts).filterMap Piece.stray? ∧
      (∀ x ∈ cuts, ∀ s ∈ fixedSpellings, x.1 = s.1.toList → x.2 = .token s.2) ∧
      (∀ x ∈ cuts, x.2.isGap = true ↔ Skipped x.1) ∧ ∃ marks, Marks text marks) ∧
    (∀ u, gap.Matches u ↔ Skipped u) ∧
    ∀ u, (∃ r ∈ rules, r.1.Matches u) ↔
      Skipped u ∨ (∃ s ∈ fixedSpellings, u = s.1.toList) ∨ Valued u := by
  obtain ⟨cuts, cutting, same⟩ := exists_cuts 0 text.toList
  refine ⟨⟨cuts, cutting, ?_, ?_, ?_, ?_, markSpans text, marks_of_text text⟩,
    fun _ => matches_gap_iff, fun _ => exists_rule_iff⟩
  · rw [tokens_lex, same]
  · rw [strays_lex, same]
  · intro x member s fixed spelled
    obtain ⟨after, taken⟩ := cutting.exists_taken member
    rw [spelled] at taken
    exact taken.fixed fixed
  · intro x member
    obtain ⟨after, taken⟩ := cutting.exists_taken member
    exact taken.isGap_iff

/-- A comment, half an exponent, a stray character of two bytes and a quote that is not closed. -/
theorem text_cut_exactly_sample :
    (lex "/*a*/1e+é\"b").tokens =
      [⟨.int 1, ⟨5, 6⟩⟩, ⟨.ident "e", ⟨6, 7⟩⟩, ⟨.sign .plus, ⟨7, 8⟩⟩] ∧
    (lex "/*a*/1e+é\"b").strays = [(⟨8, 10⟩, "é"), (⟨10, 12⟩, "\"b")] ∧
    Skipped "/*a*/".toList ∧ (∃ cuts, Cuts "/*a*/1e+é\"b".toList cuts ∧
      (lex "/*a*/1e+é\"b").tokens = (withRanges 0 cuts).filterMap Piece.lexeme? ∧
      (lex "/*a*/1e+é\"b").strays = (withRanges 0 cuts).filterMap Piece.stray?) ∧
    ∃ marks, Marks "/*a*/1e+é\"b" marks := by
  have pieces : (lex "/*a*/1e+é\"b").tokens =
      [⟨.int 1, ⟨5, 6⟩⟩, ⟨.ident "e", ⟨6, 7⟩⟩, ⟨.sign .plus, ⟨7, 8⟩⟩] ∧
      (lex "/*a*/1e+é\"b").strays = [(⟨8, 10⟩, "é"), (⟨10, 12⟩, "\"b")] := by
    decide +kernel
  obtain ⟨⟨cuts, cutting, tokens, strays, -, -, marks⟩, gaps, -⟩ := text_cut_exactly "/*a*/1e+é\"b"
  have comment : Skipped "/*a*/".toList :=
    (gaps _).mp (Pattern.nullable_behind_iff.mp (by decide +kernel))
  exact ⟨pieces.1, pieces.2, comment, ⟨cuts, cutting, tokens, strays⟩, marks⟩

end Lockstep
