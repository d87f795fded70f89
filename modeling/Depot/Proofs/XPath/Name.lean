import Depot.XPath.Name
import Mathlib.Data.List.TakeDrop
import Mathlib.Data.List.TakeWhile

set_option autoImplicit false

namespace Depot.XPath

theorem not_isNameStart_colon : isNameStart ':' = false := by decide +kernel

theorem not_isNamePart_colon : isNamePart ':' = false := by decide +kernel

/-- A name without a prefix holds no colon. -/
theorem colon_notMem {chars : List Char} (simple : isSimpleName chars) : ':' ∉ chars := by
  cases chars with
  | nil => exact List.not_mem_nil
  | cons first rest =>
    obtain ⟨start, others⟩ : isNameStart first = true ∧ ∀ c ∈ rest, isNamePart c = true := by
      simpa [isSimpleName] using simple
    rw [List.mem_cons, not_or]
    constructor
    · rintro rfl
      exact absurd start (by simp [not_isNameStart_colon])
    · intro found
      exact absurd (others _ found) (by simp [not_isNamePart_colon])

namespace PrefixedName

/-- Whether the parts of a name are names without a colon. -/
structure Proper (name : PrefixedName) : Prop where
  prefixPart : ∀ prefixPart ∈ name.prefixPart, isSimpleName prefixPart.toList
  localPart : isSimpleName name.localPart.toList

/-- The local part of another name leaves a name proper. -/
theorem Proper.withLocal {name other : PrefixedName} (proper : name.Proper) (taken : other.Proper) :
    PrefixedName.Proper { name with localPart := other.localPart } :=
  ⟨proper.prefixPart, taken.localPart⟩

def joined : Option (List Char) × List Char → List Char
  | (some before, after) => before ++ ':' :: after
  | (none, after) => after

/-- Cutting a text loses nothing of it. -/
theorem joined_parts (text : String) : joined (parts text) = text.toList := by
  have whole := @List.takeWhile_append_dropWhile _ (fun c => decide (c ≠ ':')) text.toList
  rw [parts, List.span_eq_takeWhile_dropWhile]
  cases cut : text.toList.dropWhile fun c => decide (c ≠ ':') with
  | nil =>
    rw [cut, List.append_nil] at whole
    exact whole
  | cons c after =>
    have stopped := List.head?_dropWhile_not (fun c => decide (c ≠ ':')) text.toList
    rw [cut] at stopped whole
    obtain rfl : c = ':' := by simpa using stopped
    exact whole

/-- What is joined is cut in the same place again, if nothing before it is a colon. -/
theorem parts_joined {cut : Option (List Char) × List Char} (simple : ':' ∉ cut.1.getD cut.2) :
    parts (String.ofList (joined cut)) = cut := by
  have passes : ∀ c ∈ cut.1.getD cut.2, decide (c ≠ ':') = true := fun c found =>
    decide_eq_true fun colon => simple (colon ▸ found)
  rw [parts, List.span_eq_takeWhile_dropWhile, String.toList_ofList]
  rcases cut with ⟨_ | before, after⟩
  · have taken : after.takeWhile (fun c => decide (c ≠ ':')) = after :=
      List.takeWhile_eq_self_iff.mpr passes
    have dropped : after.dropWhile (fun c => decide (c ≠ ':')) = [] :=
      List.dropWhile_eq_nil_iff.mpr passes
    rw [joined, taken, dropped]
  · have taken := @List.takeWhile_append_of_pos _ _ before (':' :: after) passes
    have dropped := @List.dropWhile_append_of_pos _ _ before (':' :: after) passes
    rw [joined, taken, dropped]
    simp

theorem display_eq (name : PrefixedName) :
    name.display =
      String.ofList (joined (name.prefixPart.map String.toList, name.localPart.toList)) := by
  rcases name with ⟨_ | prefixPart, localPart⟩
  · exact String.ofList_toList.symm
  · simp [display, joined, ← String.toList_inj]

/-- What is written of a name is read as that name. -/
theorem Proper.ofText_display {name : PrefixedName} (proper : name.Proper) :
    ofText name.display = .ok name := by
  have cut : parts name.display = (name.prefixPart.map String.toList, name.localPart.toList) := by
    rw [display_eq]
    apply parts_joined
    rcases name with ⟨_ | prefixPart, localPart⟩
    · exact colon_notMem proper.localPart
    · exact colon_notMem (proper.prefixPart prefixPart rfl)
  have simple : (name.prefixPart.map String.toList).all isSimpleName ∧
      isSimpleName name.localPart.toList := by
    refine ⟨?_, proper.localPart⟩
    rcases name with ⟨_ | prefixPart, localPart⟩
    · rfl
    · exact proper.prefixPart prefixPart rfl
  simp [ofText, cut, simple]

/-- Which texts are read as a name: those that are written of it, if its parts are names. -/
theorem ofText_eq_ok {text : String} {name : PrefixedName} :
    ofText text = .ok name ↔ name.Proper ∧ name.display = text := by
  constructor
  · intro read
    have whole := joined_parts text
    unfold ofText at read
    rcases cut : parts text with ⟨prefixPart, localPart⟩
    rw [cut] at read whole
    dsimp only at read
    split at read
    · rename_i simple
      obtain rfl := Except.ok.inj read
      refine ⟨⟨?_, ?_⟩, ?_⟩
      · rcases prefixPart with _ | prefixPart <;> simp_all
      · simpa using simple.2
      · rw [display_eq, ← String.toList_inj, ← whole]
        simp [Function.comp_def]
    · cases read
  · rintro ⟨proper, rfl⟩
    exact proper.ofText_display

/-- No two names are written alike. -/
theorem display_inj {left right : PrefixedName} (leftProper : left.Proper)
    (rightProper : right.Proper) :
    left.display = right.display ↔ left = right := by
  refine ⟨fun same => ?_, congrArg display⟩
  have read := leftProper.ofText_display
  rw [same, rightProper.ofText_display] at read
  exact (Except.ok.inj read).symm

end PrefixedName

end Depot.XPath
