/-
  Lines of a text.

  `cutLines` cuts a text after every line feed and loses nothing: the pieces put
  together are the text again (`flatten_cutLines`). `lines` is the same cut with
  the line endings taken off, a line feed and one carriage return before it. A
  carriage return that no line feed follows belongs to its line.
-/

namespace StepLog.Text

/-- The pieces of a text, each up to and with its line feed; the last may have none. -/
def cutLines : List Char → List (List Char)
  | [] => []
  | c :: cs =>
    if c = '\n' then [c] :: cutLines cs
    else match cutLines cs with
      | [] => [[c]]
      | l :: ls => (c :: l) :: ls

/-- Takes one `x` off the end of `s` if `s` ends with it. -/
def dropEndIf (x : Char) (s : List Char) : List Char :=
  if s.getLast? = some x then s.dropLast else s

/-- A piece of `cutLines` without its line ending. -/
def lineBody (piece : List Char) : List Char :=
  if piece.getLast? = some '\n' then dropEndIf '\r' piece.dropLast else piece

/-- The lines of a text without their endings. A final line feed starts no further line. -/
def lines (s : List Char) : List (List Char) := (cutLines s).map lineBody

/-- The lines of a string. -/
def linesOf (s : String) : List String := (lines s.toList).map String.ofList

/-- The parts of a list between its separators `x`; at least one, possibly empty. -/
def splitAt {α : Type} [DecidableEq α] (x : α) : List α → List (List α)
  | [] => [[]]
  | c :: cs =>
    if c = x then [] :: splitAt x cs
    else match splitAt x cs with
      | [] => [[c]]
      | p :: ps => (c :: p) :: ps

/-! ## Nothing is lost -/

theorem flatten_cutLines (s : List Char) : (cutLines s).flatten = s := by
  induction s with
  | nil => rfl
  | cons c cs ih =>
    unfold cutLines
    split
    · simp [ih]
    · split
      · next h => rw [h] at ih; simpa using ih
      · next l ls h => rw [h] at ih; simpa using ih

theorem ne_nil_of_mem_cutLines {s l : List Char} (h : l ∈ cutLines s) : l ≠ [] := by
  induction s generalizing l with
  | nil => simp [cutLines] at h
  | cons c cs ih =>
    unfold cutLines at h
    split at h
    · rcases List.mem_cons.1 h with rfl | h
      · simp
      · exact ih h
    · split at h
      · simp at h; simp [h]
      · next l' ls e =>
        rcases List.mem_cons.1 h with rfl | h
        · simp
        · exact ih (by rw [e]; exact List.mem_cons_of_mem _ h)

theorem dropEndIf_subset (x : Char) (s : List Char) : dropEndIf x s ⊆ s := by
  unfold dropEndIf
  split
  · exact List.dropLast_subset s
  · exact List.Subset.refl s

theorem lineBody_subset (piece : List Char) : lineBody piece ⊆ piece := by
  unfold lineBody
  split
  · exact List.Subset.trans (dropEndIf_subset _ _) (List.dropLast_subset piece)
  · exact List.Subset.refl piece

/-- A line holds only characters of the text. -/
theorem subset_of_mem_lines {s l : List Char} (h : l ∈ lines s) : l ⊆ s := by
  obtain ⟨piece, hp, rfl⟩ := List.mem_map.1 h
  intro c hc
  rw [← flatten_cutLines s]
  exact List.mem_flatten.2 ⟨piece, hp, lineBody_subset piece hc⟩

/-- The parts between separators are those of the standard library. -/
theorem splitAt_eq_splitOn {α : Type} [DecidableEq α] (x : α) (s : List α) :
    splitAt x s = s.splitOn x := by
  induction s with
  | nil => rfl
  | cons c cs ih =>
    rw [List.splitOn_cons_eq_if_modifyHead, splitAt, ih]
    simp only [beq_iff_eq]
    split
    · rfl
    · cases h : cs.splitOn x with
      | nil => exact absurd h (List.splitOn_ne_nil x cs)
      | cons p ps => rfl

end StepLog.Text
