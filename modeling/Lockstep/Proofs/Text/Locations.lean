import Lockstep.Text.Location
import Mathlib.Data.List.GetD
import Mathlib.Tactic.SplitIfs
/-!
Lines and columns against the bytes of a text. The line of an offset is one more than the number of
line breaks before it, its column one more than the number of bytes behind the last of them. The
search for the line never leaves the table of line starts, and no two offsets share a place.
-/

set_option autoImplicit false
set_option relaxedAutoImplicit false

namespace Lockstep

section Bytes

def bytesOf (text : String) : List UInt8 := text.toUTF8.data.toList

def breakByte : UInt8 := 10

private theorem bytesOf_eq_flatMap (text : String) :
    bytesOf text = text.toList.flatMap String.utf8EncodeChar := by
  show text.toByteArray.data.toList = _
  rw [← String.utf8Encode_toList]
  induction text.toList with
  | nil => rfl
  | cons c cs ih =>
    rw [List.utf8Encode_cons, List.utf8Encode_singleton, ByteArray.data_append,
      Array.toList_append, ih, List.data_toByteArray, List.flatMap_cons]

private theorem not_mem_utf8EncodeChar {c : Char} (other : c ≠ '\n') :
    breakByte ∉ String.utf8EncodeChar c := by
  have differs {n : Nat} (value : n % 256 ≠ 10) : breakByte ≠ UInt8.ofNat n := by
    intro same
    have number := congrArg UInt8.toNat same
    rw [UInt8.toNat_ofNat'] at number
    exact value number.symm
  rw [String.utf8EncodeChar.eq_def]
  simp only
  split_ifs with small
  · rw [List.mem_singleton]
    refine differs fun value => other ?_
    have code : c.val.toNat = 10 := by omega
    exact Char.ext (UInt32.toNat_inj.mp code)
  -- The bytes of a longer character all have their highest bit set.
  · simp only [List.mem_cons, List.not_mem_nil, or_false, not_or]
    exact ⟨differs (by omega), differs (by omega)⟩
  · simp only [List.mem_cons, List.not_mem_nil, or_false, not_or]
    exact ⟨differs (by omega), differs (by omega), differs (by omega)⟩
  · simp only [List.mem_cons, List.not_mem_nil, or_false, not_or]
    exact ⟨differs (by omega), differs (by omega), differs (by omega), differs (by omega)⟩

/-- The offsets behind the line breaks among bytes of which the first stands at `offset`. -/
def behindBreaks (offset : Nat) : List UInt8 → List Nat
  | [] => []
  | b :: bs =>
    if b = breakByte then (offset + 1) :: behindBreaks (offset + 1) bs
    else behindBreaks (offset + 1) bs

private theorem behindBreaks_append (offset : Nat) (bs bs' : List UInt8) :
    behindBreaks offset (bs ++ bs') =
      behindBreaks offset bs ++ behindBreaks (offset + bs.length) bs' := by
  induction bs generalizing offset with
  | nil => rfl
  | cons b bs ih =>
    have moved : offset + (b :: bs).length = offset + 1 + bs.length := by
      rw [List.length_cons]
      omega
    rw [List.cons_append, behindBreaks, behindBreaks, ih, moved]
    split_ifs <;> rfl

private theorem behindBreaks_of_not_mem (offset : Nat) {bs : List UInt8} (absent : breakByte ∉ bs) :
    behindBreaks offset bs = [] := by
  induction bs generalizing offset with
  | nil => rfl
  | cons b bs ih =>
    rw [List.mem_cons, not_or] at absent
    rw [behindBreaks, if_neg (Ne.symm absent.1)]
    exact ih (offset + 1) absent.2

private theorem startsAfterBreaks_eq (offset : Nat) (cs : List Char) :
    startsAfterBreaks offset cs = behindBreaks offset (cs.flatMap String.utf8EncodeChar) := by
  induction cs generalizing offset with
  | nil => rfl
  | cons c cs ih =>
    rw [startsAfterBreaks, List.flatMap_cons, behindBreaks_append, String.length_utf8EncodeChar]
    simp only [ih]
    split_ifs with isBreak
    · subst isBreak
      rfl
    · rw [behindBreaks_of_not_mem offset (not_mem_utf8EncodeChar isBreak), List.nil_append]

private theorem mem_behindBreaks_iff {offset s : Nat} {bs : List UInt8} :
    s ∈ behindBreaks offset bs ↔ ∃ i, bs[i]? = some breakByte ∧ s = offset + i + 1 := by
  induction bs generalizing offset with
  | nil => simp [behindBreaks]
  | cons b bs ih =>
    have later : (∃ i, bs[i]? = some breakByte ∧ s = offset + 1 + i + 1) ↔
        ∃ i, (b :: bs)[i + 1]? = some breakByte ∧ s = offset + (i + 1) + 1 := by
      simp only [List.getElem?_cons_succ]
      refine exists_congr fun i => and_congr_right fun _ => ?_
      omega
    rw [behindBreaks]
    split_ifs with isBreak
    · rw [List.mem_cons, ih, later]
      constructor
      · rintro (rfl | ⟨i, found, rfl⟩)
        · exact ⟨0, by simp [isBreak], rfl⟩
        · exact ⟨i + 1, found, rfl⟩
      · rintro ⟨_ | i, found, rfl⟩
        · exact .inl rfl
        · exact .inr ⟨i, found, rfl⟩
    · rw [ih, later]
      constructor
      · rintro ⟨i, found, rfl⟩
        exact ⟨i + 1, found, rfl⟩
      · rintro ⟨_ | i, found, rfl⟩
        · exact absurd (Option.some.inj found) isBreak
        · exact ⟨i, found, rfl⟩

private theorem rising_behindBreaks (offset : Nat) (bs : List UInt8) :
    (offset :: behindBreaks offset bs).Pairwise (· < ·) := by
  induction bs generalizing offset with
  | nil => exact List.pairwise_singleton _ _
  | cons b bs ih =>
    refine List.pairwise_cons.mpr ⟨fun s member => ?_, ?_⟩
    · obtain ⟨i, -, rfl⟩ := mem_behindBreaks_iff.mp member
      omega
    · rw [behindBreaks]
      split_ifs
      · exact ih (offset + 1)
      · exact (ih (offset + 1)).of_cons

private theorem countP_behindBreaks (offset o : Nat) (bs : List UInt8) :
    (behindBreaks offset bs).countP (· ≤ offset + o) = (bs.take o).count breakByte := by
  induction bs generalizing offset o with
  | nil => simp [behindBreaks]
  | cons b bs ih =>
    cases o with
    | zero =>
      rw [List.take_zero, List.count_nil, List.countP_eq_zero]
      intro s member
      obtain ⟨i, -, rfl⟩ := mem_behindBreaks_iff.mp member
      rw [decide_eq_true_eq]
      omega
    | succ o =>
      have rest := ih (offset + 1) o
      rw [Nat.add_assoc, Nat.add_comm 1 o] at rest
      rw [behindBreaks, List.take_succ_cons, List.count_cons, ← rest]
      by_cases isBreak : b = breakByte
      · simp [isBreak]
      · simp [isBreak]

end Bytes

section Search

variable {xs : List Nat} {key low high : Nat}

/-- The numbers below index `low` are smaller than the key, those from `high` on are greater. -/
structure Narrowed (xs : List Nat) (key low high : Nat) : Prop where
  order : low ≤ high
  bound : high ≤ xs.length
  below : ∀ i, i < low → xs.getD i 0 < key
  above : ∀ i, high ≤ i → i < xs.length → key < xs.getD i 0

private theorem getD_le_getD (rising : xs.Pairwise (· < ·)) {i j : Nat} (order : i ≤ j)
    (bound : j < xs.length) : xs.getD i 0 ≤ xs.getD j 0 := by
  rw [List.getD_eq_getElem _ _ (by omega), List.getD_eq_getElem _ _ bound]
  rcases Nat.eq_or_lt_of_le order with rfl | before
  · exact Nat.le_refl _
  · exact Nat.le_of_lt (List.pairwise_iff_getElem.mp rising i j (by omega) bound before)

/-- The search finds the key, or the one index with smaller numbers before it and greater ones from
there on. -/
private theorem bisect_cases (rising : xs.Pairwise (· < ·)) (narrowed : Narrowed xs key low high) :
    (∃ i, bisect xs key low high = .present i ∧ i < xs.length ∧ xs.getD i 0 = key) ∨
      ∃ i, bisect xs key low high = .absent i ∧ Narrowed xs key i i := by
  fun_induction bisect xs key low high with
  | case1 low high some middle x smaller ih =>
    apply ih
    refine ⟨by omega, narrowed.bound, fun i before => ?_, narrowed.above⟩
    have upTo := getD_le_getD rising (i := i) (j := middle) (by omega)
      (by have := narrowed.bound; omega)
    exact Nat.lt_of_le_of_lt upTo smaller
  | case2 low high some middle x _ greater ih =>
    apply ih
    have bound := narrowed.bound
    refine ⟨by omega, by omega, narrowed.below, fun i behind inside => ?_⟩
    exact Nat.lt_of_lt_of_le greater (getD_le_getD rising behind inside)
  | case3 low high some middle x least most =>
    have bound := narrowed.bound
    exact .inl ⟨middle, rfl, by omega, by omega⟩
  | case4 low high none =>
    have order := narrowed.order
    have same : high = low := by omega
    exact .inr ⟨low, rfl, same ▸ narrowed⟩

/-- The last number that is not greater than the key stands at the index. -/
structure LastUpTo (xs : List Nat) (key index : Nat) : Prop where
  bound : index < xs.length
  le : xs.getD index 0 ≤ key
  above : ∀ i, index < i → i < xs.length → key < xs.getD i 0

theorem LastUpTo.countP_eq {index : Nat} (last : LastUpTo xs key index)
    (rising : xs.Pairwise (· < ·)) : xs.countP (· ≤ key) = index + 1 := by
  have bound := last.bound
  have front : (xs.take (index + 1)).countP (· ≤ key) = index + 1 := by
    have all : ∀ x ∈ xs.take (index + 1), decide (x ≤ key) = true := by
      intro x member
      obtain ⟨i, inside, rfl⟩ := List.mem_iff_getElem.mp member
      rw [List.length_take] at inside
      have upTo := getD_le_getD rising (i := i) (by omega) bound
      rw [List.getD_eq_getElem _ _ (by omega)] at upTo
      rw [List.getElem_take, decide_eq_true_eq]
      exact Nat.le_trans upTo last.le
    rw [List.countP_eq_length.mpr all, List.length_take]
    omega
  have back : (xs.drop (index + 1)).countP (· ≤ key) = 0 := by
    rw [List.countP_eq_zero]
    intro x member
    obtain ⟨i, inside, rfl⟩ := List.mem_iff_getElem.mp member
    rw [List.length_drop] at inside
    have greater := last.above (index + 1 + i) (by omega) (by omega)
    rw [List.getD_eq_getElem _ _ (by omega)] at greater
    rw [List.getElem_drop, decide_eq_true_eq]
    omega
  rw [← List.take_append_drop (index + 1) xs, List.countP_append, front, back]

end Search

/-- The last line of the first `o` bytes starts at byte `start`. -/
structure StartsLine (bytes : List UInt8) (o start : Nat) : Prop where
  le : start ≤ o
  broken : start = 0 ∨ bytes[start - 1]? = some breakByte
  unbroken : ∀ i, start ≤ i → i < o → bytes[i]? ≠ some breakByte

namespace Location

/-- The place is that of offset `o`, as counting the bytes before it gives it. -/
structure Counts (l : Location) (bytes : List UInt8) (o : Nat) : Prop where
  line : l.line = 1 + (bytes.take o).count breakByte
  column : ∃ start, StartsLine bytes o start ∧ l.column = 1 + (o - start)

/-- The place comes first in the order of lines, on one line in the order of columns. -/
def Precedes (l m : Location) : Prop :=
  l.line < m.line ∨ l.line = m.line ∧ l.column < m.column

private theorem Precedes.irrefl (l : Location) : ¬ l.Precedes l := by
  rintro (less | ⟨-, less⟩)
  · exact Nat.lt_irrefl _ less
  · exact Nat.lt_irrefl _ less

end Location

namespace SourceText

/-- The search for the line of an offset ends inside the table, and no number is taken away from a
smaller one: neither one from an index nor the start of the line from the offset. -/
structure Finds (t : SourceText) (o : Nat) : Prop where
  pos : ∀ i, bisect t.lineStarts o 0 t.lineStarts.length = .absent i → 0 < i
  bound : t.lineIndex o < t.lineStarts.length
  le : t.lineStarts.getD (t.lineIndex o) 0 ≤ o

variable (name text : String) {o : Nat}

private theorem lineStarts_ofText :
    (ofText name text).lineStarts = 0 :: behindBreaks 0 (bytesOf text) := by
  rw [bytesOf_eq_flatMap, ← startsAfterBreaks_eq]
  rfl

private theorem rising_lineStarts : (ofText name text).lineStarts.Pairwise (· < ·) := by
  rw [lineStarts_ofText]
  exact rising_behindBreaks 0 (bytesOf text)

private theorem pos_of_absent {i : Nat} (absent : bisect (ofText name text).lineStarts o 0
    (ofText name text).lineStarts.length = .absent i) : 0 < i := by
  have whole : Narrowed (ofText name text).lineStarts o 0 (ofText name text).lineStarts.length :=
    ⟨Nat.zero_le _, Nat.le_refl _, by omega, by omega⟩
  rcases bisect_cases (rising_lineStarts name text) whole with ⟨j, found, -⟩ | ⟨j, none, narrowed⟩
  · rw [absent] at found
    cases found
  · rw [absent] at none
    cases none
    refine Nat.pos_of_ne_zero fun first => ?_
    have greater := narrowed.above 0 (by omega) (by simp [lineStarts_ofText])
    simp [lineStarts_ofText] at greater

private theorem lineIndex_last (o : Nat) :
    LastUpTo (ofText name text).lineStarts o ((ofText name text).lineIndex o) := by
  have whole : Narrowed (ofText name text).lineStarts o 0 (ofText name text).lineStarts.length :=
    ⟨Nat.zero_le _, Nat.le_refl _, by omega, by omega⟩
  have rising := rising_lineStarts name text
  rcases bisect_cases rising whole with ⟨i, found, bound, same⟩ | ⟨i, none, narrowed⟩
  · rw [lineIndex, found]
    refine ⟨bound, Nat.le_of_eq same, fun j behind inside => ?_⟩
    rw [List.getD_eq_getElem _ _ bound] at same
    rw [List.getD_eq_getElem _ _ inside]
    exact same ▸ List.pairwise_iff_getElem.mp rising i j bound inside behind
  · have positive := pos_of_absent name text none
    have bound := narrowed.bound
    have index : (ofText name text).lineIndex o = i - 1 := by rw [lineIndex, none]
    rw [index]
    exact ⟨by omega, Nat.le_of_lt (narrowed.below (i - 1) (by omega)), fun j behind inside =>
      narrowed.above j (by omega) inside⟩

private theorem lineIndex_eq_count (o : Nat) :
    (ofText name text).lineIndex o = ((bytesOf text).take o).count breakByte := by
  have counted := (lineIndex_last name text o).countP_eq (rising_lineStarts name text)
  rw [lineStarts_ofText, List.countP_cons_of_pos (by simp)] at counted
  have breaks := countP_behindBreaks 0 o (bytesOf text)
  simp only [Nat.zero_add] at breaks
  omega

private theorem startsLine_lineIndex (o : Nat) : StartsLine (bytesOf text) o
    ((ofText name text).lineStarts.getD ((ofText name text).lineIndex o) 0) := by
  have last := lineIndex_last name text o
  have starts := lineStarts_ofText name text
  refine ⟨last.le, ?_, fun i behind before isBreak => ?_⟩
  · have each : ∀ s ∈ (ofText name text).lineStarts,
        s = 0 ∨ (bytesOf text)[s - 1]? = some breakByte := by
      rw [starts]
      intro s member
      rcases List.mem_cons.mp member with first | later
      · exact .inl first
      · obtain ⟨i, isBreak, rfl⟩ := mem_behindBreaks_iff.mp later
        exact .inr (by simpa using isBreak)
    rw [List.getD_eq_getElem _ _ last.bound]
    exact each _ (List.getElem_mem _)
  · -- Behind the break another line starts, which is not the last one up to the offset.
    have member : i + 1 ∈ (ofText name text).lineStarts := by
      rw [starts]
      exact List.mem_cons_of_mem 0 (mem_behindBreaks_iff.mpr ⟨i, isBreak, by omega⟩)
    obtain ⟨j, inside, same⟩ := List.mem_iff_getElem.mp member
    rw [← List.getD_eq_getElem _ 0 inside] at same
    rcases Nat.lt_or_ge ((ofText name text).lineIndex o) j with later | upTo
    · have greater := last.above j later inside
      omega
    · have le := getD_le_getD (rising_lineStarts name text) upTo last.bound
      omega

private theorem location_precedes {a b : Nat} (order : a < b) (inside : b ≤ text.utf8ByteSize) :
    ((ofText name text).location a).Precedes ((ofText name text).location b) := by
  have own : (ofText name text).length = text.utf8ByteSize := rfl
  have first : min a (ofText name text).length = a := by omega
  have second : min b (ofText name text).length = b := by omega
  have last := lineIndex_last name text b
  have last' := lineIndex_last name text a
  simp only [location, first, second, Location.Precedes]
  rcases Nat.lt_trichotomy ((ofText name text).lineIndex a) ((ofText name text).lineIndex b) with
    less | same | more
  · exact .inl (by omega)
  · have le := last'.le
    refine .inr ⟨by omega, ?_⟩
    rw [← same]
    omega
  · have greater := last.above _ more last'.bound
    have le := last'.le
    omega

end SourceText

/-- The place of an offset is what counting the bytes before it gives, an offset past the end
standing for the end, and the search for its line never leaves the table. So places come in the order
of their offsets, and no two offsets in a text share one. -/
theorem offsets_located (name text : String) :
    (∀ offset,
      ((SourceText.ofText name text).location offset).Counts (bytesOf text)
        (min offset text.utf8ByteSize) ∧
      (SourceText.ofText name text).Finds (min offset text.utf8ByteSize)) ∧
    (∀ a b, a < b → b ≤ text.utf8ByteSize →
      ((SourceText.ofText name text).location a).Precedes
        ((SourceText.ofText name text).location b)) ∧
    ∀ a b, a ≤ text.utf8ByteSize → b ≤ text.utf8ByteSize → a ≠ b →
      (SourceText.ofText name text).location a ≠ (SourceText.ofText name text).location b := by
  refine ⟨fun offset => ⟨⟨?_, ?_⟩, ?_⟩, fun a b => SourceText.location_precedes name text, ?_⟩
  · rw [← SourceText.lineIndex_eq_count name text, Nat.add_comm]
    rfl
  · refine ⟨_, SourceText.startsLine_lineIndex name text _, ?_⟩
    rw [Nat.add_comm]
    rfl
  · have last := SourceText.lineIndex_last name text (min offset text.utf8ByteSize)
    exact ⟨fun i => SourceText.pos_of_absent name text, last.bound, last.le⟩
  · intro a b inside inside' differ same
    rcases Nat.lt_or_gt_of_ne differ with less | more
    · have order := SourceText.location_precedes name text less inside'
      exact Location.Precedes.irrefl _ (same ▸ order)
    · have order := SourceText.location_precedes name text more inside
      exact Location.Precedes.irrefl _ (same ▸ order)

/-- An empty line, a character of two bytes, the break itself, and offsets at the end and past it. -/
example : ([0, 1, 2, 3, 4, 5, 9].map fun o =>
    let l := (SourceText.ofText "k.cl" "\né\n").location o
    (l.line, l.column)) = [(1, 1), (2, 1), (2, 2), (2, 3), (3, 1), (3, 1), (3, 1)] := by
  decide +kernel

end Lockstep
