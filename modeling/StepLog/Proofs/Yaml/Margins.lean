/-
  Margins of two spaces.

  `missing` follows how much of its margin the line under way still lacks. Text that leaves a
  whole margin to be written (`Inset`) has each of its lines indented by two, blank lines apart
  (`indent_of_inset`). A spelled text keeps the margin, unless it is a literal block with a line
  break in it that is no line feed (`missing_spell_ne`): behind such a break the next line feed
  may begin a line that is not indented.
-/
import StepLog.Proofs.Yaml.Blocks
import StepLog.Proofs.Yaml.Spelling

namespace StepLog.Yaml

/-! ## Following the margin -/

/-- One character further, with so much of the margin to come; `none` where a line has gone on
without its margin. -/
def marginStep : Option Nat → Char → Option Nat
  | none, _ => none
  | some 0, c => if c = '\n' then some 2 else some 0
  | some (k + 1), c => if c = '\n' then some 2 else if c = ' ' then some k else none

/-- What is missing of the margin behind a text. -/
def missing (m : Option Nat) (s : List Char) : Option Nat := s.foldl marginStep m

theorem missing_append (m : Option Nat) (s t : List Char) :
    missing m (s ++ t) = missing (missing m s) t := List.foldl_append

theorem marginStep_lineFeed (k : Nat) : marginStep (some k) '\n' = some 2 := by
  cases k <;> rfl

theorem missing_none (s : List Char) : missing none s = none := by
  induction s with
  | nil => rfl
  | cons c cs ih => exact ih

/-- A margin that is kept in a text is kept in its front. -/
theorem missing_ne_none_of_append {m : Option Nat} {s t : List Char}
    (h : missing m (s ++ t) ≠ none) : missing m s ≠ none := by
  intro hs
  rw [missing_append, hs, missing_none] at h
  exact h rfl

/-- Behind its margin a line goes on as it likes. -/
theorem missing_of_not_mem {s : List Char} (h : '\n' ∉ s) : missing (some 0) s = some 0 := by
  induction s with
  | nil => rfl
  | cons c cs ih =>
    rw [List.mem_cons, not_or] at h
    have hstep : marginStep (some 0) c = some 0 := if_neg (Ne.symm h.1)
    show missing (marginStep (some 0) c) cs = some 0
    rw [hstep, ih h.2]

/-- A line that is not under way yet, or keeps its margin, and the lines behind it. -/
theorem indent_of_missing {k : Nat} {s : List Char} (h : missing (some k) s ≠ none) :
    (∀ line ∈ (Text.cutLines s).head?, k ≤ indentOf line ∨ Text.allBlank line = true) ∧
      ∀ line ∈ (Text.cutLines s).tail, 2 ≤ indentOf line ∨ Text.allBlank line = true := by
  induction s generalizing k with
  | nil => exact ⟨nofun, nofun⟩
  | cons c cs ih =>
    have h : missing (marginStep (some k) c) cs ≠ none := h
    by_cases hc : c = '\n'
    · subst hc
      rw [marginStep_lineFeed] at h
      have hcut : Text.cutLines ('\n' :: cs) = ['\n'] :: Text.cutLines cs :=
        Text.cutLines_append (l := []) List.not_mem_nil cs
      obtain ⟨hfirst, hrest⟩ := ih h
      rw [hcut]
      refine ⟨fun line hline => .inr ?_, fun line hline => ?_⟩
      · cases hline
        rfl
      · cases hlines : Text.cutLines cs with
        | nil =>
          rw [hlines] at hline
          cases hline
        | cons l ls =>
          rw [hlines] at hline hfirst hrest
          rcases List.mem_cons.1 hline with rfl | hline
          · exact hfirst _ rfl
          · exact hrest _ hline
    · rw [Text.cutLines_cons_of_ne hc]
      cases k with
      | zero =>
        have hstep : marginStep (some 0) c = some 0 := if_neg hc
        rw [hstep] at h
        exact ⟨fun line _ => .inl (Nat.zero_le _), (ih h).2⟩
      | succ k =>
        have hspace : c = ' ' := by
          by_contra hspace
          have hstep : marginStep (some (k + 1)) c = none :=
            (if_neg hc).trans (if_neg hspace)
          rw [hstep, missing_none] at h
          exact h rfl
        subst hspace
        obtain ⟨hfirst, hrest⟩ := ih (k := k) h
        refine ⟨fun line hline => ?_, hrest⟩
        cases hline
        cases hlines : Text.cutLines cs with
        | nil => exact .inr rfl
        | cons l ls =>
          rw [hlines] at hfirst
          have hindent : indentOf (' ' :: l) = indentOf l + 1 := by simp [indentOf]
          rw [List.headD_cons, hindent]
          rcases hfirst l rfl with hl | hl
          · exact .inl (Nat.succ_le_succ hl)
          · exact .inr hl

/-! ## Inset text -/

/-- Whole lines, each behind its margin. -/
def Inset (s : List Char) : Prop := missing (some 2) s = some 2

theorem Inset.append {s t : List Char} (hs : Inset s) (ht : Inset t) : Inset (s ++ t) := by
  show missing (some 2) (s ++ t) = some 2
  rw [missing_append, show missing (some 2) s = some 2 from hs]
  exact ht

theorem Inset.flatMap {α : Type} {f : α → List Char} {as : List α} (h : ∀ a ∈ as, Inset (f a)) :
    Inset (as.flatMap f) := by
  induction as with
  | nil => rfl
  | cons a as ih =>
    rw [List.flatMap_cons]
    exact (h a List.mem_cons_self).append (ih fun b hb => h b (List.mem_cons_of_mem _ hb))

/-- Every line is indented by two or blank. -/
theorem indent_of_inset {s : List Char} (h : Inset s) {line : List Char}
    (hline : line ∈ Text.cutLines s) : 2 ≤ indentOf line ∨ Text.allBlank line = true := by
  have hne : missing (some 2) s ≠ none := by
    rw [show missing (some 2) s = some 2 from h]
    exact Option.some_ne_none 2
  obtain ⟨hfirst, hrest⟩ := indent_of_missing hne
  cases hlines : Text.cutLines s with
  | nil =>
    rw [hlines] at hline
    cases hline
  | cons l ls =>
    rw [hlines] at hline hfirst hrest
    rcases List.mem_cons.1 hline with rfl | hline
    · exact hfirst _ rfl
    · exact hrest _ hline

/-- Behind a margin, with a line feed at the end. -/
theorem inset_line {s : List Char} (h : missing (some 0) s = some 0) :
    Inset ("  ".toList ++ s ++ ['\n']) := by
  show missing (some 2) _ = some 2
  rw [missing_append, missing_append, show missing (some 2) "  ".toList = some 0 from rfl, h]
  rfl

/-! ## Spelled texts -/

theorem missing_indented {s : List Char} (h : ∀ c ∈ s, isBreak c = true → c = '\n')
    (atBreak : Bool) : missing (some (if atBreak then 2 else 0)) (indented 2 atBreak s) ≠ none := by
  induction s generalizing atBreak with
  | nil => exact Option.some_ne_none _
  | cons c cs ih =>
    have hcs : ∀ c ∈ cs, isBreak c = true → c = '\n' := fun c hc => h c (List.mem_cons_of_mem _ hc)
    unfold indented
    by_cases hbreak : isBreak c = true
    · obtain rfl := h c List.mem_cons_self hbreak
      rw [if_pos hbreak]
      show missing (marginStep _ '\n') _ ≠ none
      rw [marginStep_lineFeed]
      exact ih hcs true
    · have hc : c ≠ '\n' := by
        rintro rfl
        exact hbreak rfl
      have hmargin : missing (some (if atBreak then 2 else 0))
          (if atBreak then spaces 2 else []) = some 0 := by
        cases atBreak <;> rfl
      have hstep : marginStep (some 0) c = some 0 := if_neg hc
      rw [if_neg hbreak, missing_append, hmargin]
      show missing (marginStep (some 0) c) _ ≠ none
      rw [hstep]
      exact ih hcs false

/-- Spelled behind a margin, a text keeps it on all its lines, unless a line break in it is of
another kind. -/
theorem missing_spell_ne {s : String}
    (h : '\n' ∈ s.toList → ∀ c ∈ s.toList, isBreak c = true → c = '\n') :
    missing (some 0) (spell 2 s) ≠ none := by
  by_cases hs : '\n' ∈ s.toList
  · have hcontains : s.toList.contains '\n' = true := List.contains_iff_mem.2 hs
    have hstyle : styleOf s = .literal ∨ styleOf s = .double := by
      unfold styleOf
      dsimp only
      rw [if_pos hcontains]
      split
      · exact .inl rfl
      · exact .inr rfl
    unfold spell
    rcases hstyle with hstyle | hstyle
    · rw [hstyle]
      dsimp only
      unfold literalBlock
      rw [missing_append, missing_of_not_mem (not_mem_literalHeader s.toList)]
      exact missing_indented (h hs) true
    · rw [hstyle]
      dsimp only
      rw [missing_of_not_mem (not_mem_doubleQuoted s.toList)]
      exact Option.some_ne_none 0
  · rw [missing_of_not_mem (newline_not_mem_spell 2 hs)]
    exact Option.some_ne_none 0

/-- What is left once the blank characters at the end are cut off ends behind a margin. -/
theorem missing_trimEnd {s : List Char} (h : missing (some 0) s ≠ none) :
    missing (some 0) (Text.trimEnd s) = some 0 := by
  induction s using List.reverseRecOn with
  | nil => rfl
  | append_singleton s c ih =>
    have hfront := missing_ne_none_of_append h
    rw [trimEnd_concat]
    split
    · exact ih hfront
    · next hblank =>
      have hfeed : c ≠ '\n' := by
        rintro rfl
        exact hblank rfl
      have hspace : c ≠ ' ' := by
        rintro rfl
        exact hblank rfl
      rw [missing_append] at h ⊢
      obtain ⟨k, hk⟩ := Option.ne_none_iff_exists'.1 hfront
      rw [hk] at h ⊢
      cases k with
      | zero => exact if_neg hfeed
      | succ k => exact absurd ((if_neg hfeed).trans (if_neg hspace)) h

end StepLog.Yaml
