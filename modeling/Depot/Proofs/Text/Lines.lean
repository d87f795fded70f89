import Mathlib.Data.List.Basic
import Mathlib.Data.List.Induction

set_option autoImplicit false

namespace Depot.Text

section Separators

variable {α : Type} [BEq α] [LawfulBEq α] (separator : α)

/-- No separator stands between two separators, by induction on what is split. -/
theorem separator_of_splitOn (values : List α) : ∀ part ∈ values.splitOn separator,
    separator ∉ part := by
  induction values with
  | nil => simp
  | cons value rest ih =>
    obtain ⟨part, others, split⟩ := List.exists_cons_of_ne_nil (List.splitOn_ne_nil separator rest)
    rw [split] at ih
    obtain ⟨first, later⟩ := List.forall_mem_cons.mp ih
    rw [List.splitOn_cons_eq_if_modifyHead, split]
    by_cases same : value = separator
    · simpa [same] using ⟨first, later⟩
    · simpa [same, Ne.symm same] using ⟨first, later⟩

theorem length_splitOn (values : List α) :
    (values.splitOn separator).length = values.count separator + 1 := by
  induction values with
  | nil => simp
  | cons value rest ih =>
    rw [List.splitOn_cons_eq_if_modifyHead, List.count_cons]
    by_cases same : value = separator
    · simp [same, ih]
    · simp [same, ih]

end Separators

/-- The lines of a text, if each of them is ended by a line feed, the last one too. -/
def endedLines? (text : String) : Option (List String) :=
  let parts := text.toList.splitOn '\n'
  if parts.getLast? = some [] then some (parts.dropLast.map String.ofList) else none

/-- The characters of lines that are ended by line feeds. -/
theorem toList_ended (lines : List String) :
    (String.join (lines.map (· ++ "\n"))).toList =
      ['\n'].intercalate (lines.map String.toList ++ [[]]) := by
  induction lines with
  | nil => simp
  | cons line rest ih =>
    rw [String.toList_join] at ih
    rw [String.toList_join, List.map_cons, List.flatMap_cons, ih, List.map_cons, List.cons_append,
      List.intercalate_cons_of_ne_nil (by simp)]
    simp

/-- Of a text whose lines are ended there is one way to take it apart. -/
theorem endedLines?_eq_some_iff {text : String} {lines : List String} :
    endedLines? text = some lines ↔
      text = String.join (lines.map (· ++ "\n")) ∧ ∀ line ∈ lines, '\n' ∉ line.toList := by
  rw [endedLines?]
  constructor
  · intro ended
    split at ended
    · next last =>
      have whole : (text.toList.splitOn '\n').dropLast ++ [[]] = text.toList.splitOn '\n' :=
        List.dropLast_append_getLast? [] last
      obtain rfl := Option.some.inj ended
      refine ⟨String.toList_inj.mp ?_, ?_⟩
      · have again : ((text.toList.splitOn '\n').dropLast.map String.ofList).map String.toList =
            (text.toList.splitOn '\n').dropLast := by simp [Function.comp_def]
        rw [toList_ended, again, whole, List.intercalate_splitOn]
      · intro line present
        obtain ⟨part, held, rfl⟩ := List.mem_map.mp present
        rw [String.toList_ofList]
        exact separator_of_splitOn '\n' _ part (List.dropLast_subset _ held)
    · cases ended
  · rintro ⟨rfl, clean⟩
    have parts : (String.join (lines.map (· ++ "\n"))).toList.splitOn '\n' =
        lines.map String.toList ++ [[]] := by
      rw [toList_ended]
      refine List.splitOn_intercalate '\n' (fun part present => ?_) (by simp)
      rcases List.mem_append.mp present with held | last
      · obtain ⟨line, among, rfl⟩ := List.mem_map.mp held
        exact clean line among
      · rw [List.mem_singleton.mp last]
        exact List.not_mem_nil
    rw [parts]
    simp [Function.comp_def]

/-- A text that ends in a line feed has as many lines as line feeds. -/
theorem length_endedLines? {text : String} {lines : List String}
    (ended : endedLines? text = some lines) :
    lines.length = text.toList.count '\n' := by
  rw [endedLines?] at ended
  split at ended
  · obtain rfl := Option.some.inj ended
    rw [List.length_map, List.length_dropLast, length_splitOn, Nat.add_sub_cancel]
  · cases ended

/-- A text that is made up of texts with a line feed behind each of them consists of lines that are
ended. -/
theorem exists_endedLines {text : String} {rows : List String}
    (ended : text = String.join (rows.map (· ++ "\n"))) :
    ∃ lines, endedLines? text = some lines := by
  have last : (text.toList.splitOn '\n').getLast? = some [] := by
    rw [ended, String.toList_join]
    rcases List.eq_nil_or_concat rows with rfl | ⟨front, row, rfl⟩
    · rfl
    · have whole : ((front.concat row).map (· ++ "\n")).flatMap String.toList =
          ((front.map (· ++ "\n")).flatMap String.toList ++ row.toList) ++ '\n' :: [] := by
        simp [List.flatMap_append]
      rw [whole, List.splitOn_append_cons_self, List.splitOn_nil, List.getLast?_concat]
  rw [endedLines?, if_pos last]
  exact ⟨_, rfl⟩

end Depot.Text
