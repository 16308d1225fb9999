import Autocomp.Lib.ByteMemory

namespace Csv

open ByteMemory

/-- The lines of a file. What follows the last end of a line is one if it is not empty. -/
def fileLines (text : List Byte) : List (List Byte) :=
  let pieces := text.splitOn 10
  if pieces.getLast? = some [] then pieces.dropLast else pieces

def fields (line : List Byte) : List (List Byte) := if line = [] then [] else line.splitOn 44

/-- The rows of a file. -/
def reader (text : List Byte) : List (List (List Byte)) := (fileLines text).map fields

def line (row : List (List Byte)) : List Byte := [44].intercalate row

/-- The file of several rows. -/
def file (rows : List (List (List Byte))) : List Byte := rows.flatMap fun row => line row ++ [10]

/-- Neither a comma nor the end of a line is in a field, and there are two fields at least. -/
structure Plain (row : List (List Byte)) : Prop where
  several : 2 ≤ row.length
  comma : ∀ field ∈ row, (44 : Byte) ∉ field
  newline : ∀ field ∈ row, (10 : Byte) ∉ field

theorem line_cons (first second : List Byte) (rest : List (List Byte)) :
    line (first :: second :: rest) = first ++ 44 :: line (second :: rest) := by
  simp [line, List.intercalate]

theorem newline_notMem_line {row : List (List Byte)} (h : ∀ field ∈ row, (10 : Byte) ∉ field) :
    (10 : Byte) ∉ line row := by
  induction row with
  | nil => simp [line]
  | cons first rest ih =>
    cases rest with
    | nil => simpa [line, List.intercalate] using h
    | cons second rest =>
      have hrest := ih fun field hfield => h field (List.mem_cons_of_mem _ hfield)
      rw [line_cons, List.mem_append, List.mem_cons]
      exact not_or.mpr ⟨h first (List.mem_cons_self ..), not_or.mpr ⟨by decide, hrest⟩⟩

theorem fields_line {row : List (List Byte)} (h : Plain row) : fields (line row) = row := by
  have hne : row ≠ [] := by
    rintro rfl
    exact absurd h.several (by decide)
  have hline : line row ≠ [] := by
    cases row with
    | nil => contradiction
    | cons first rest =>
      cases rest with
      | nil => exact absurd h.several (by simp)
      | cons second rest =>
        rw [line_cons]
        simp
  rw [fields, if_neg hline, line, List.splitOn_intercalate 44 h.comma hne]

theorem file_eq (rows : List (List (List Byte))) :
    file rows = [10].intercalate (rows.map line ++ [[]]) := by
  induction rows with
  | nil => rfl
  | cons row rows ih =>
    have hne : ∃ first rest, rows.map line ++ [[]] = first :: rest :=
      List.exists_cons_of_ne_nil (by simp)
    obtain ⟨first, rest, hsplit⟩ := hne
    rw [file, List.flatMap_cons, ← file, ih, List.map_cons, List.cons_append, hsplit]
    simp [List.intercalate]

/-- Plain rows are read back. -/
theorem reader_file {rows : List (List (List Byte))} (h : ∀ row ∈ rows, Plain row) :
    reader (file rows) = rows := by
  have hlines : ∀ l ∈ rows.map line ++ [[]], (10 : Byte) ∉ l := by
    intro l hl
    rcases List.mem_append.mp hl with hl | hl
    · obtain ⟨row, hrow, rfl⟩ := List.mem_map.mp hl
      exact newline_notMem_line (h row hrow).newline
    · rw [List.mem_singleton.mp hl]
      exact List.not_mem_nil
  have hfile : fileLines (file rows) = rows.map line := by
    rw [fileLines, file_eq, List.splitOn_intercalate 10 hlines (by simp)]
    simp
  rw [reader, hfile, List.map_map]
  conv_rhs => rw [← List.map_id rows]
  exact List.map_congr_left fun row hrow => fields_line (h row hrow)

end Csv
