/-
  Literal blocks, read back.

  `readBlock` is the rule by which YAML reads a block: the indentation of the content is the
  one that the header gives, or the one that the lines show, and it is taken off every line.
  A header with a digit always leads back to the lines of the text. Without one the
  indentation of the first line that is not all spaces decides, and that line loses whatever
  spaces of its own it starts with.

  Main statement: a parameter of several lines reads back as its lines exactly if its text
  starts with a space, or the lines show no indentation of their own (`readBlock_entry_iff`).
  A blank line in front of an indented one hides the space from the header
  (`readBlock_indented_behind_blank`).
-/
import Mathlib
import StepLog.Proofs.Params.Texts
import StepLog.Proofs.Text.Lines
import StepLog.Proofs.Yaml.Blocks

namespace StepLog.Yaml

/-! ## How a block is read -/

/-- The number that a header gives. -/
def headerDigit? (header : List Char) : Option Nat :=
  (header.find? isIndentDigit).map Text.digitValue

def allSpaces (line : List Char) : Bool := line.all (· = ' ')

/-- The indentation that lines show: that of the first line which is not all spaces, or if
there is none the length of the longest. -/
def shownIndent (body : List (List Char)) : Nat :=
  match body.find? (!allSpaces ·) with
  | some line => indentOf line
  | none => (body.map List.length).max?.getD 0

/-- The indentation of the content of a block under a key with indentation `owner`. -/
def contentIndent (owner : Nat) (header : List Char) (body : List (List Char)) : Nat :=
  match headerDigit? header with
  | some digit => owner + digit
  | none => shownIndent body

/-- Takes `n` spaces off the front, or as many as there are. -/
def unindent : Nat → List Char → List Char
  | n + 1, ' ' :: cs => unindent n cs
  | _, cs => cs

/-- Lines with a line feed between them, without line feeds at the end. -/
def joinLines (lines : List (List Char)) : List Char :=
  Text.dropEndWhile (· = '\n') (['\n'].intercalate lines)

/-- The text of a block: a header, and behind its line feed the content. -/
def readBlock (owner : Nat) (block : List Char) : List Char :=
  match Text.splitAt '\n' block with
  | [] => []
  | header :: body => joinLines (body.map (unindent (contentIndent owner header body)))

/-! ## Lines put together -/

theorem dropEndWhile_append_of_pos {p : Char → Bool} {c : Char} (h : p c = true) (s : List Char) :
    Text.dropEndWhile p (s ++ [c]) = Text.dropEndWhile p s := by
  unfold Text.dropEndWhile
  rw [List.reverse_append, List.reverse_singleton, List.singleton_append,
    List.dropWhile_cons_of_pos h]

theorem intercalate_append_lineFeed {lines : List (List Char)} (h : lines ≠ []) :
    ['\n'].intercalate lines ++ ['\n'] = lines.flatMap (· ++ ['\n']) := by
  induction lines with
  | nil => exact absurd rfl h
  | cons line lines ih =>
    cases lines with
    | nil => simp
    | cons line' lines =>
      have ih := ih (List.cons_ne_nil line' lines)
      rw [List.intercalate_cons_cons, List.flatMap_cons, ← ih]
      simp only [List.append_assoc]

/-- A line feed behind the last line makes no difference. -/
theorem joinLines_eq (lines : List (List Char)) :
    joinLines lines = Text.dropEndWhile (· = '\n') (lines.flatMap (· ++ ['\n'])) := by
  unfold joinLines
  by_cases h : lines = []
  · rw [h]
    rfl
  · rw [← intercalate_append_lineFeed h, dropEndWhile_append_of_pos (by simp)]

/-- An empty line behind the others makes no difference. -/
theorem joinLines_append_nil (lines : List (List Char)) :
    joinLines (lines ++ [[]]) = joinLines lines := by
  rw [joinLines_eq, joinLines_eq, List.flatMap_append, List.flatMap_singleton, List.nil_append,
    dropEndWhile_append_of_pos (by simp)]

/-- Line feeds apart, joining loses nothing. -/
theorem count_joinLines (lines : List (List Char)) :
    (joinLines lines).count ' ' = (lines.map (List.count ' ')).sum := by
  have hstrip : ∀ s : List Char,
      (Text.dropEndWhile (· = '\n') s).count ' ' = s.count ' ' := by
    intro s
    unfold Text.dropEndWhile
    rw [List.count_reverse]
    conv => rhs; rw [← List.count_reverse,
      ← List.takeWhile_append_dropWhile (p := fun c => decide (c = '\n')) (l := s.reverse),
      List.count_append]
    have hnone : (s.reverse.takeWhile fun c => decide (c = '\n')).count ' ' = 0 := by
      refine List.count_eq_zero.2 fun hc => ?_
      have he := List.all_eq_true.1 List.all_takeWhile _ hc
      exact absurd he (by decide)
    rw [hnone, Nat.zero_add]
  rw [joinLines_eq, hstrip, List.count_flatMap]
  congr 1
  refine List.map_congr_left fun line _ => ?_
  simp

/-! ## Indentation taken off -/

theorem unindent_zero (line : List Char) : unindent 0 line = line := by
  cases line <;> rfl

theorem unindent_nil (n : Nat) : unindent n [] = [] := by
  cases n <;> rfl

theorem count_unindent_le (n : Nat) (line : List Char) :
    (unindent n line).count ' ' ≤ line.count ' ' := by
  fun_induction unindent n line with
  | case1 n cs ih => exact Nat.le_trans ih (List.count_le_count_cons ..)
  | case2 => exact Nat.le_refl _

/-- A line that starts with a space loses it. -/
theorem count_unindent_lt {n : Nat} (hn : 0 < n) {line : List Char}
    (h : line.head? = some ' ') : (unindent n line).count ' ' < line.count ' ' := by
  obtain ⟨cs, rfl⟩ := List.head?_eq_some_iff.1 h
  obtain ⟨m, rfl⟩ := Nat.exists_eq_add_of_lt hn
  rw [List.count_cons_self]
  exact Nat.lt_succ_of_le (count_unindent_le _ cs)

/-- Spaces taken off a line that starts with one are missed in the text. -/
theorem joinLines_unindent_ne {n : Nat} (hn : 0 < n) {lines : List (List Char)} {line : List Char}
    (hmem : line ∈ lines) (h : line.head? = some ' ') :
    joinLines (lines.map (unindent n)) ≠ joinLines lines := by
  intro e
  have hcount := congrArg (List.count ' ') e
  rw [count_joinLines, count_joinLines, List.map_map] at hcount
  refine absurd hcount (Nat.ne_of_lt ?_)
  exact List.sum_lt_sum _ _ (fun l _ => count_unindent_le n l)
    ⟨line, hmem, count_unindent_lt hn h⟩

theorem head?_of_indentOf_pos {line : List Char} (h : 0 < indentOf line) :
    line.head? = some ' ' := by
  cases line with
  | nil => cases h
  | cons c cs =>
    by_cases hc : c = ' '
    · rw [hc]
      rfl
    · simp [indentOf, hc] at h

/-- Indentation taken off all lines is missed, unless it is none. -/
theorem joinLines_unindent_iff {lines : List (List Char)} {line : List Char}
    (h : line ∈ lines) :
    joinLines (lines.map (unindent (indentOf line))) = joinLines lines ↔ indentOf line = 0 := by
  constructor
  · intro e
    refine Classical.byContradiction fun hne => ?_
    have hpos : 0 < indentOf line := Nat.pos_of_ne_zero hne
    exact joinLines_unindent_ne hpos h (head?_of_indentOf_pos hpos) e
  · intro e
    rw [e]
    congr 1
    exact (List.map_congr_left fun l _ => unindent_zero l).trans (List.map_id _)

theorem unindent_of_allSpaces {n : Nat} {line : List Char} (h : allSpaces line = true)
    (hn : line.length ≤ n) : unindent n line = [] := by
  fun_induction unindent n line with
  | case1 n cs ih => exact ih h (Nat.le_of_succ_le_succ hn)
  | case2 n line hne =>
    cases line with
    | nil => rfl
    | cons c cs =>
      obtain ⟨m, rfl⟩ := Nat.exists_eq_add_of_lt (Nat.lt_of_lt_of_le (Nat.succ_pos _) hn)
      have hc : c = ' ' := by simpa using List.all_eq_true.1 h c List.mem_cons_self
      exact absurd (by rw [hc]) (hne _ cs rfl)

theorem eq_nil_of_allSpaces {line : List Char} (h : allSpaces line = true) (hn : ' ' ∉ line) :
    line = [] := by
  refine List.eq_nil_iff_forall_not_mem.2 fun c hc => hn ?_
  have e : c = ' ' := by simpa using List.all_eq_true.1 h c hc
  rwa [← e]

/-- Lines of spaces are missed, unless they have none. -/
theorem joinLines_blank_iff {lines : List (List Char)}
    (h : ∀ line ∈ lines, allSpaces line = true) :
    joinLines (lines.map fun _ => []) = joinLines lines ↔ ∀ line ∈ lines, line = [] := by
  constructor
  · intro e line hl
    have hcount := congrArg (List.count ' ') e
    rw [count_joinLines, count_joinLines, List.map_map] at hcount
    have hsum : (lines.map (List.count ' ')).sum = 0 := by
      rw [← hcount]
      exact List.sum_eq_zero fun n hn => by
        obtain ⟨_, _, rfl⟩ := List.mem_map.1 hn
        rfl
    have hzero := List.le_sum_of_mem (List.mem_map_of_mem (f := List.count ' ') hl)
    rw [hsum, Nat.le_zero, List.count_eq_zero] at hzero
    exact eq_nil_of_allSpaces (h line hl) hzero
  · intro hall
    congr 1
    conv => rhs; rw [← List.map_id lines]
    exact List.map_congr_left fun line hl => (hall line hl).symm

end StepLog.Yaml

namespace StepLog.Params

open Yaml (allSpaces readBlock joinLines unindent indentOf)

/-! ## A block as it is written -/

/-- A line as it stands in a block, without its line feed. -/
def margined (line : List Char) : List Char := if line.isEmpty then [] else "    ".toList ++ line

/-- A text as a block: the header and the lines. -/
def block (text : List Char) : List Char :=
  blockHeader text ++ '\n' :: (Text.lines text).flatMap blockLine

theorem literalBlock_eq (key text : List Char) :
    literalBlock key text = "  ".toList ++ key ++ ": ".toList ++ block text := by
  unfold literalBlock block
  simp only [List.append_assoc, List.singleton_append]

theorem blockLine_eq (line : List Char) : blockLine line = margined line ++ ['\n'] := rfl

theorem margined_of_ne_nil {line : List Char} (h : line ≠ []) :
    margined line = "    ".toList ++ line := by
  unfold margined
  rw [if_neg (mt List.isEmpty_iff.1 h)]

theorem not_mem_margined {line : List Char} (h : '\n' ∉ line) : '\n' ∉ margined line := by
  unfold margined
  split
  · exact List.not_mem_nil
  · rw [List.mem_append, not_or]
    exact ⟨by decide, h⟩

theorem not_mem_blockHeader (text : List Char) : '\n' ∉ blockHeader text := by
  unfold blockHeader
  split <;> decide

/-- The margin is four wide and goes off before anything of the line does. -/
theorem unindent_margined (n : Nat) (line : List Char) :
    unindent (n + 4) (margined line) = unindent n line := by
  cases line with
  | nil => rw [show margined [] = [] from rfl, Yaml.unindent_nil, Yaml.unindent_nil]
  | cons c cs => rfl

theorem allSpaces_margined (line : List Char) : allSpaces (margined line) = allSpaces line := by
  cases line <;> rfl

theorem indentOf_margined {line : List Char} (h : line ≠ []) :
    indentOf (margined line) = indentOf line + 4 := by
  rw [margined_of_ne_nil h]
  rfl

theorem splitAt_block (text : List Char) :
    Text.splitAt '\n' (block text) =
      blockHeader text :: ((Text.lines text).map margined ++ [[]]) := by
  have hfeed : ∀ line ∈ Text.lines text, '\n' ∉ margined line :=
    fun line hl => not_mem_margined (Text.not_mem_of_mem_lines hl)
  have hbody := Text.splitAt_flatMap hfeed []
  rw [List.append_nil] at hbody
  unfold block
  rw [Text.splitAt_eq_splitOn, List.splitOn_append_cons_self_of_not_mem (not_mem_blockHeader text),
    ← Text.splitAt_eq_splitOn]
  exact congrArg _ hbody

/-- A block is read by taking one and the same indentation off its lines. -/
theorem readBlock_block (text : List Char) :
    readBlock 2 (block text) = joinLines (((Text.lines text).map margined).map
      (unindent (Yaml.contentIndent 2 (blockHeader text)
        ((Text.lines text).map margined ++ [[]])))) := by
  unfold readBlock
  rw [splitAt_block]
  dsimp only
  rw [List.map_append, List.map_singleton, Yaml.unindent_nil,
    Yaml.joinLines_append_nil]

/-! ## What the lines show -/

/-- The first line that is not all spaces is not indented; lines that are all spaces are
empty if there is no other. -/
def Flush (lines : List (List Char)) : Prop :=
  match lines.find? (!allSpaces ·) with
  | some line => indentOf line = 0
  | none => ∀ line ∈ lines, line = []

/-- A header without a digit leaves it to the lines. -/
theorem contentIndent_of_plain {text : List Char} (h : text.head? ≠ some ' ')
    (body : List (List Char)) :
    Yaml.contentIndent 2 (blockHeader text) body = Yaml.shownIndent body := by
  unfold blockHeader
  rw [if_neg h]
  rfl

/-- A header with the digit does not. -/
theorem contentIndent_of_space {text : List Char} (h : text.head? = some ' ')
    (body : List (List Char)) : Yaml.contentIndent 2 (blockHeader text) body = 4 := by
  unfold blockHeader
  rw [if_pos h]
  rfl

theorem find?_margined (lines : List (List Char)) :
    (lines.map margined ++ [[]]).find? (!allSpaces ·) =
      (lines.find? (!allSpaces ·)).map margined := by
  have hcomp : (fun line => !allSpaces line) ∘ margined = fun line => !allSpaces line := by
    funext line
    exact congrArg (! ·) (allSpaces_margined line)
  have hnil : List.find? (fun line => !allSpaces line) [[]] = none := rfl
  rw [List.find?_append, List.find?_map, hcomp, hnil, Option.or_none]

theorem ne_nil_of_find? {lines : List (List Char)} {line : List Char}
    (h : lines.find? (!allSpaces ·) = some line) : line ≠ [] := by
  rintro rfl
  exact absurd (List.find?_some h) (by decide)

/-- Without a digit a block with a line that is not all spaces loses the indentation of the
first such line. -/
theorem readBlock_of_find?_some {text line : List Char} (h : text.head? ≠ some ' ')
    (hline : (Text.lines text).find? (!allSpaces ·) = some line) :
    readBlock 2 (block text) = joinLines ((Text.lines text).map (unindent (indentOf line))) := by
  have hshown : Yaml.shownIndent ((Text.lines text).map margined ++ [[]]) = indentOf line + 4 := by
    unfold Yaml.shownIndent
    rw [find?_margined, hline]
    exact indentOf_margined (ne_nil_of_find? hline)
  rw [readBlock_block, contentIndent_of_plain h, hshown, List.map_map]
  congr 1
  exact List.map_congr_left fun l _ => unindent_margined _ l

/-- Without a digit a block of lines that are all spaces reads as empty lines. -/
theorem readBlock_of_find?_none {text : List Char} (h : text.head? ≠ some ' ')
    (hnone : (Text.lines text).find? (!allSpaces ·) = none) :
    readBlock 2 (block text) = joinLines ((Text.lines text).map fun _ => []) := by
  rw [readBlock_block, contentIndent_of_plain h, List.map_map]
  congr 1
  refine List.map_congr_left fun line hl => Yaml.unindent_of_allSpaces ?_ ?_
  · have hall := List.find?_eq_none.1 hnone line hl
    rw [allSpaces_margined]
    simpa using hall
  · unfold Yaml.shownIndent
    rw [find?_margined, hnone]
    exact List.le_max?_getD_of_mem
      (List.mem_map_of_mem (List.mem_append_left _ (List.mem_map_of_mem hl)))

/-- A block reads back as the lines of its text exactly if the header has the digit or the
lines show no indentation of their own. -/
theorem readBlock_block_iff (text : List Char) :
    readBlock 2 (block text) = joinLines (Text.lines text) ↔
      text.head? = some ' ' ∨ Flush (Text.lines text) := by
  by_cases hspace : text.head? = some ' '
  · refine iff_of_true ?_ (.inl hspace)
    rw [readBlock_block, contentIndent_of_space hspace, List.map_map]
    congr 1
    conv => rhs; rw [← List.map_id (Text.lines text)]
    refine List.map_congr_left fun line _ => ?_
    exact (unindent_margined 0 line).trans (Yaml.unindent_zero line)
  · rw [or_iff_right hspace]
    unfold Flush
    cases hline : (Text.lines text).find? (!allSpaces ·) with
    | some line =>
      rw [readBlock_of_find?_some hspace hline]
      exact Yaml.joinLines_unindent_iff (List.mem_of_find?_eq_some hline)
    | none =>
      rw [readBlock_of_find?_none hspace hline]
      refine Yaml.joinLines_blank_iff fun line hl => ?_
      have hall := List.find?_eq_none.1 hline line hl
      simpa using hall

/-- A parameter of several lines is written as a block. The block reads back as the lines of
its text, whatever they hold, exactly if the text starts with a space or its lines show no
indentation of their own. -/
theorem readBlock_entry_iff (name : String) {value : Value} {s : String}
    (hv : value.toNode = .ok (.text s)) (hs : '\n' ∈ s.toList) :
    entry name value =
        .ok ("  ".toList ++ keySpelling name ++ ": ".toList ++ block s.toList) ∧
      (readBlock 2 (block s.toList) = joinLines (Text.lines s.toList) ↔
        s.toList.head? = some ' ' ∨ Flush (Text.lines s.toList)) := by
  refine ⟨?_, readBlock_block_iff s.toList⟩
  unfold entry
  rw [hv]
  dsimp only
  rw [if_pos (List.contains_iff_mem.2 hs)]
  exact congrArg _ (literalBlock_eq _ _)

/-- A blank line and a tab in front of an indented line. -/
theorem readBlock_entry_tab :
    (Value.text "\n\ta\n  b").toNode = .ok (.text "\n\ta\n  b") ∧
      '\n' ∈ "\n\ta\n  b".toList ∧ Flush (Text.lines "\n\ta\n  b".toList) ∧
      readBlock 2 (block "\n\ta\n  b".toList) = "\n\ta\n  b".toList := by
  have hv : (Value.text "\n\ta\n  b").toNode = .ok (.text "\n\ta\n  b") := rfl
  have hs : '\n' ∈ "\n\ta\n  b".toList := by decide
  have hflush : Flush (Text.lines "\n\ta\n  b".toList) := by
    show indentOf "\ta".toList = 0
    decide
  refine ⟨hv, hs, hflush, ?_⟩
  exact ((readBlock_entry_iff "k" hv hs).2.2 (.inr hflush)).trans (by decide)

/-- Behind a blank line the spaces of the first line that is not blank are taken for
indentation. -/
theorem readBlock_indented_behind_blank :
    entry "k" (.text "\n  a") = .ok ("  k: ".toList ++ "|-\n\n      a\n".toList) ∧
      readBlock 2 "|-\n\n      a\n".toList = "\na".toList ∧
      joinLines (Text.lines "\n  a".toList) = "\n  a".toList ∧
      "\na".toList ≠ "\n  a".toList := by
  refine ⟨?_, ?_, ?_, ?_⟩
  · decide +kernel
  · decide +kernel
  · decide +kernel
  · decide

end StepLog.Params
