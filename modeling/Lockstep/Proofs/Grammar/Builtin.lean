import Lockstep.Grammar.Types
import Lockstep.Proofs.Token.Spelled
/-!
Names of builtin types. A name is taken apart in front of the digits at its end. No scalar type ends
with a digit and a vector width has nothing else, so the name of a vector type comes apart just where
it was put together.
-/

set_option autoImplicit false
set_option relaxedAutoImplicit false

namespace Lockstep

def stem (name : String) : String := String.ofList (dropTail Char.isDigit name.toList)

def trailingDigits (name : String) : String :=
  String.ofList (name.toList.reverse.takeWhile Char.isDigit).reverse

private theorem stem_append_trailingDigits (name : String) :
    stem name ++ trailingDigits name = name := by
  rw [stem, trailingDigits, ← String.ofList_append, dropTail_append_tail, String.ofList_toList]

private theorem isBuiltinType_eq (name : String) :
    isBuiltinType name = (scalarTypes.contains name ||
    (vectorWidths.contains (trailingDigits name) && scalarTypes.contains (stem name))) := rfl

private theorem stem_append {s w : String} (last : ∀ c ∈ s.toList.getLast?, c.isDigit = false)
    (digits : ∀ c ∈ w.toList, c.isDigit = true) : stem (s ++ w) = s ∧ trailingDigits (s ++ w) = w := by
  obtain ⟨front, tail⟩ := dropTail_append last digits
  rw [stem, trailingDigits, String.toList_append, front, tail, String.ofList_toList,
    String.ofList_toList]
  exact ⟨rfl, rfl⟩

private theorem scalarTypes_last :
    ∀ s ∈ scalarTypes, ∀ c ∈ s.toList.getLast?, c.isDigit = false := by
  have all : scalarTypes.all (fun s => s.toList.getLast?.all fun c => !c.isDigit) = true := by
    decide +kernel
  intro s scalar c last
  have ends := List.all_eq_true.mp all s scalar
  rw [Option.mem_def.mp last] at ends
  simpa using ends

private theorem vectorWidths_digits : ∀ w ∈ vectorWidths, ∀ c ∈ w.toList, c.isDigit = true := by
  have all : vectorWidths.all (fun w => w.toList.all Char.isDigit) = true := by decide +kernel
  exact fun w width => List.all_eq_true.mp (List.all_eq_true.mp all w width)

/-- A name is builtin exactly if it is a scalar type, or a scalar type followed by a vector width.
What is compared with them is the name without the digits at its end, and these digits. No scalar
type loses a part in this way, a vector type is cut between its two parts, and whatever the name,
the cut is between two characters. -/
theorem builtin_names_exact (name : String) :
    (isBuiltinType name = true ↔ name ∈ scalarTypes ∨
      ∃ s ∈ scalarTypes, ∃ w ∈ ["2", "3", "4", "8", "16"], name = s ++ w) ∧
    (isBuiltinType name = true ↔ name ∈ scalarTypes ∨
      trailingDigits name ∈ ["2", "3", "4", "8", "16"] ∧ stem name ∈ scalarTypes) ∧
    (∀ s ∈ scalarTypes, stem s = s ∧ ∀ w ∈ ["2", "3", "4", "8", "16"],
      stem (s ++ w) = s ∧ trailingDigits (s ++ w) = w) ∧
    (stem name).rawEndPos.IsValid name ∧
    Span.slice ⟨(stem name).utf8ByteSize, name.utf8ByteSize⟩ name = trailingDigits name := by
  have compared : isBuiltinType name = true ↔ name ∈ scalarTypes ∨
      trailingDigits name ∈ vectorWidths ∧ stem name ∈ scalarTypes := by
    simp [isBuiltinType_eq]
  have apart : ∀ s ∈ scalarTypes, ∀ w ∈ vectorWidths,
      stem (s ++ w) = s ∧ trailingDigits (s ++ w) = w := fun s scalar w width =>
    stem_append (scalarTypes_last s scalar) (vectorWidths_digits w width)
  have whole := stem_append_trailingDigits name
  refine ⟨?_, compared, fun s scalar => ⟨?_, apart s scalar⟩, ?_, ?_⟩
  · rw [compared]
    refine or_congr_right ⟨?_, ?_⟩
    · rintro ⟨width, scalar⟩
      exact ⟨_, scalar, _, width, whole.symm⟩
    · rintro ⟨s, scalar, w, width, rfl⟩
      obtain ⟨front, tail⟩ := apart s scalar w width
      rw [front, tail]
      exact ⟨width, scalar⟩
  · have alone := (stem_append (w := "") (scalarTypes_last s scalar) (by simp)).1
    rwa [String.append_empty] at alone
  · exact String.Pos.Raw.isValid_iff_exists_append.mpr ⟨_, _, whole.symm, rfl⟩
  · have cut := String.extract_of_valid (stem name).toList (trailingDigits name).toList []
    rw [List.append_nil, ← String.toList_append, whole, String.ofList_toList, String.ofList_toList,
      String.utf8Len_toList, String.utf8Len_toList] at cut
    have size := congrArg String.utf8ByteSize whole
    rw [String.utf8ByteSize_append] at size
    rw [Span.slice, ← size]
    exact cut

end Lockstep
