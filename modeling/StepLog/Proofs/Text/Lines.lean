/-
  Lines, put together and cut again.

  A line has no line feed of its own (`not_mem_of_mem_lines`). So a text that is put together
  from lines and their line feeds is cut where it was put together, whatever stands behind it
  (`cutLines_flatMap`, `splitAt_flatMap`), and the lines of a text are those of its two parts
  wherever it is parted behind a line feed (`lines_append`).
-/
import StepLog.Text.Lines

namespace StepLog.Text

/-! ## No line feed inside a line -/

/-- A line feed ends its line. -/
theorem not_mem_dropLast_of_mem_cutLines {s raw : List Char} (h : raw ∈ cutLines s) :
    '\n' ∉ raw.dropLast := by
  induction s generalizing raw with
  | nil => cases h
  | cons c cs ih =>
    unfold cutLines at h
    split at h
    · rcases List.mem_cons.1 h with rfl | h
      · exact List.not_mem_nil
      · exact ih h
    · next hc =>
      split at h
      · rw [List.mem_singleton.1 h]
        exact List.not_mem_nil
      · next l ls e =>
        rcases List.mem_cons.1 h with rfl | h
        · have hl : l ∈ cutLines cs := by rw [e]; exact List.mem_cons_self
          rw [List.dropLast_cons_of_ne_nil (ne_nil_of_mem_cutLines hl), List.mem_cons, not_or]
          exact ⟨Ne.symm hc, ih hl⟩
        · exact ih (by rw [e]; exact List.mem_cons_of_mem _ h)

theorem not_mem_lineBody {raw : List Char} (h : '\n' ∉ raw.dropLast) : '\n' ∉ lineBody raw := by
  unfold lineBody
  split
  · exact fun hc => h (dropEndIf_subset _ _ hc)
  · next hlast =>
    intro hc
    have hsplit := List.dropLast_concat_getLast (List.ne_nil_of_mem hc)
    rw [← hsplit, List.mem_append] at hc
    rcases hc with hc | hc
    · exact h hc
    · apply hlast
      rw [List.getLast?_eq_some_getLast, List.mem_singleton.1 hc]

theorem not_mem_of_mem_lines {s l : List Char} (h : l ∈ lines s) : '\n' ∉ l := by
  obtain ⟨piece, hp, rfl⟩ := List.mem_map.1 h
  exact not_mem_lineBody (not_mem_dropLast_of_mem_cutLines hp)

/-! ## Cutting behind a line -/

theorem cutLines_append {l : List Char} (h : '\n' ∉ l) (s : List Char) :
    cutLines (l ++ '\n' :: s) = (l ++ ['\n']) :: cutLines s := by
  induction l with
  | nil => rfl
  | cons c cs ih =>
    rw [List.mem_cons, not_or] at h
    rw [List.cons_append, cutLines, if_neg (Ne.symm h.1), ih h.2]
    rfl

/-- A character that is no line feed goes in front of the first line. -/
theorem cutLines_cons_of_ne {c : Char} (h : c ≠ '\n') (s : List Char) :
    cutLines (c :: s) = (c :: (cutLines s).headD []) :: (cutLines s).tail := by
  rw [cutLines, if_neg h]
  cases cutLines s <;> rfl

/-- A text without line feeds is its own last line. -/
theorem cutLines_of_not_mem {l : List Char} (h : '\n' ∉ l) (hne : l ≠ []) : cutLines l = [l] := by
  induction l with
  | nil => exact absurd rfl hne
  | cons c cs ih =>
    rw [List.mem_cons, not_or] at h
    rw [cutLines, if_neg (Ne.symm h.1)]
    cases cs with
    | nil => rfl
    | cons d ds => rw [ih h.2 (List.cons_ne_nil d ds)]

/-- A line of a text is cut no further. -/
theorem cutLines_of_mem {s raw : List Char} (h : raw ∈ cutLines s) : cutLines raw = [raw] := by
  have hdrop := not_mem_dropLast_of_mem_cutLines h
  have hsplit := List.dropLast_concat_getLast (ne_nil_of_mem_cutLines h)
  by_cases hfeed : raw.getLast (ne_nil_of_mem_cutLines h) = '\n'
  · rw [hfeed] at hsplit
    have hcut := cutLines_append hdrop []
    rwa [hsplit] at hcut
  · refine cutLines_of_not_mem ?_ (ne_nil_of_mem_cutLines h)
    rw [← hsplit, List.mem_append, List.mem_singleton, not_or]
    exact ⟨hdrop, Ne.symm hfeed⟩

theorem mem_of_mem_cutLines {s raw : List Char} (h : raw ∈ cutLines s) : raw ⊆ s := by
  intro c hc
  rw [← flatten_cutLines s]
  exact List.mem_flatten.2 ⟨raw, h, hc⟩

/-- Behind a line feed a text can be cut in two. -/
theorem cutLines_lineFeed_append (s t : List Char) :
    cutLines (s ++ '\n' :: t) = cutLines (s ++ ['\n']) ++ cutLines t := by
  induction s with
  | nil => rfl
  | cons c cs ih =>
    by_cases hc : c = '\n'
    · subst hc
      have hcut := cutLines_append (l := []) List.not_mem_nil
      rw [List.cons_append, List.cons_append]
      exact (hcut _).trans ((congrArg _ ih).trans (congrArg (· ++ _) (hcut _).symm))
    · obtain ⟨l, ls, hl⟩ : ∃ l ls, cutLines (cs ++ ['\n']) = l :: ls := by
        refine List.exists_cons_of_ne_nil fun hnil => ?_
        have hflat := flatten_cutLines (cs ++ ['\n'])
        rw [hnil] at hflat
        simp at hflat
      rw [List.cons_append, List.cons_append, cutLines_cons_of_ne hc, cutLines_cons_of_ne hc, ih, hl]
      rfl

theorem dropEndIf_cons {x c : Char} (h : c ≠ x) (s : List Char) :
    ∃ rest, dropEndIf x (c :: s) = c :: rest := by
  unfold dropEndIf
  split
  · next hlast =>
    cases s with
    | nil => exact absurd (Option.some.inj hlast) h
    | cons d ds => exact ⟨_, rfl⟩
  · exact ⟨s, rfl⟩

/-! ## Lines of texts in parts -/

theorem lines_append (s t : List Char) :
    lines (s ++ '\n' :: t) = lines (s ++ ['\n']) ++ lines t := by
  unfold lines
  rw [cutLines_lineFeed_append, List.map_append]

/-- The first line is what stands in front of the line feed and of one carriage return. -/
theorem lines_cons {l : List Char} (h : '\n' ∉ l) (s : List Char) :
    lines (l ++ '\n' :: s) = dropEndIf '\r' l :: lines s := by
  have hbody : lineBody (l ++ ['\n']) = dropEndIf '\r' l := by
    unfold lineBody
    rw [if_pos List.getLast?_concat, List.dropLast_concat]
  unfold lines
  rw [cutLines_append h, List.map_cons, hbody]

/-- A last line without a line feed keeps all its characters. -/
theorem lines_of_not_mem {l : List Char} (h : '\n' ∉ l) (hne : l ≠ []) : lines l = [l] := by
  have hbody : lineBody l = l := if_neg fun hlast => h (List.mem_of_getLast? hlast)
  unfold lines
  rw [cutLines_of_not_mem h hne, List.map_singleton, hbody]

theorem linesOf_append (a b : String) :
    linesOf (a ++ "\n" ++ b) = linesOf (a ++ "\n") ++ linesOf b := by
  have hwhole : (a ++ "\n" ++ b).toList = a.toList ++ '\n' :: b.toList := by
    simp [String.toList_append]
  have hfront : (a ++ "\n").toList = a.toList ++ ['\n'] := String.toList_append ..
  unfold linesOf
  rw [hwhole, hfront, lines_append, List.map_append]

section
variable {line : String} (h : '\n' ∉ line.toList)
include h

theorem linesOf_lineFeed (hlast : line.toList.getLast? ≠ some '\r') (text : String) :
    linesOf (line ++ "\n" ++ text) = line :: linesOf text := by
  have hchars : (line ++ "\n" ++ text).toList = line.toList ++ '\n' :: text.toList := by
    simp [String.toList_append]
  have hdrop : dropEndIf '\r' line.toList = line.toList := if_neg hlast
  unfold linesOf
  rw [hchars, lines_cons h, hdrop, List.map_cons, String.ofList_toList]

theorem linesOf_carriageReturn (text : String) :
    linesOf (line ++ "\r\n" ++ text) = line :: linesOf text := by
  have hchars : (line ++ "\r\n" ++ text).toList = line.toList ++ ['\r'] ++ '\n' :: text.toList := by
    simp [String.toList_append]
  have hline : '\n' ∉ line.toList ++ ['\r'] := by simpa using h
  have hdrop : dropEndIf '\r' (line.toList ++ ['\r']) = line.toList :=
    (if_pos List.getLast?_concat).trans List.dropLast_concat
  unfold linesOf
  rw [hchars, lines_cons hline, hdrop, List.map_cons, String.ofList_toList]

theorem linesOf_of_not_mem (hne : line ≠ "") : linesOf line = [line] := by
  have hchars : line.toList ≠ [] := fun hnil => hne (String.toList_inj.1 hnil)
  unfold linesOf
  rw [lines_of_not_mem h hchars, List.map_singleton, String.ofList_toList]

end

/-! ## Cutting behind many lines -/

section
variable {α : Type} {f : α → List Char} {as : List α} (h : ∀ a ∈ as, '\n' ∉ f a)
include h

theorem cutLines_flatMap (s : List Char) :
    cutLines (as.flatMap (fun a => f a ++ ['\n']) ++ s) =
      as.map (fun a => f a ++ ['\n']) ++ cutLines s := by
  induction as with
  | nil => rfl
  | cons a as ih =>
    have ih := ih fun b hb => h b (List.mem_cons_of_mem a hb)
    rw [List.flatMap_cons, List.append_assoc, List.append_assoc, List.singleton_append,
      cutLines_append (h a List.mem_cons_self), ih]
    rfl

theorem splitAt_flatMap (s : List Char) :
    splitAt '\n' (as.flatMap (fun a => f a ++ ['\n']) ++ s) = as.map f ++ splitAt '\n' s := by
  rw [splitAt_eq_splitOn, splitAt_eq_splitOn]
  induction as with
  | nil => rfl
  | cons a as ih =>
    have ih := ih fun b hb => h b (List.mem_cons_of_mem a hb)
    rw [List.flatMap_cons, List.append_assoc, List.append_assoc, List.singleton_append,
      List.splitOn_append_cons_self_of_not_mem (h a List.mem_cons_self), ih]
    rfl

end

end StepLog.Text
