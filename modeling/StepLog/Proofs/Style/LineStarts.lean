/-
  Where lines begin.

  `Guarded` says that no colon begins a line: each stands behind another character of its
  line. It is a property of the characters from left to right, so a text that is put together
  is guarded if its parts are, where they stand (`guarded_append`), and a text that is guarded
  at the beginning of a line is guarded behind any other text (`Guarded.not_atLineStart`).
  Painting keeps it: colored text begins with the escape character, and what has no color
  stays where it was in its line (`guarded_paint`).
-/
import StepLog.Proofs.Style.Erase

namespace StepLog.Style

/-- No colon begins a line; `fresh` tells whether a line begins at the front. -/
def Guarded : Bool → List Char → Prop
  | _, [] => True
  | fresh, c :: cs => (fresh = true → c ≠ ':') ∧ Guarded (c == '\n') cs

/-- Whether a line begins behind a text. -/
def freshAfter (fresh : Bool) (s : List Char) : Bool := (endsLine? s).getD fresh

theorem freshAfter_append (fresh : Bool) (s t : List Char) :
    freshAfter fresh (s ++ t) = freshAfter (freshAfter fresh s) t := by
  unfold freshAfter
  rw [endsLine?_append]
  cases endsLine? t <;> rfl

theorem freshAfter_cons (fresh : Bool) (c : Char) (cs : List Char) :
    freshAfter fresh (c :: cs) = freshAfter (c == '\n') cs := freshAfter_append fresh [c] cs

theorem freshAfter_flatMap {α : Type} {f : α → List Char} {as : List α}
    (h : ∀ a ∈ as, freshAfter true (f a) = true) : freshAfter true (as.flatMap f) = true := by
  induction as with
  | nil => rfl
  | cons a as ih =>
    obtain ⟨ha, has⟩ := List.forall_mem_cons.1 h
    rw [List.flatMap_cons, freshAfter_append, ha, ih has]

theorem freshAfter_lineFeed (fresh : Bool) (line : List Char) :
    freshAfter fresh (line ++ ['\n']) = true := freshAfter_append fresh line ['\n']

theorem guarded_append {fresh : Bool} {s t : List Char} :
    Guarded fresh (s ++ t) ↔ Guarded fresh s ∧ Guarded (freshAfter fresh s) t := by
  induction s generalizing fresh with
  | nil => exact ⟨fun h => ⟨trivial, h⟩, And.right⟩
  | cons c cs ih =>
    rw [List.cons_append, Guarded, Guarded, ih, freshAfter_cons, and_assoc]

/-- Guarded at the beginning of a line is guarded anywhere. -/
theorem Guarded.anywhere {s : List Char} (h : Guarded true s) (fresh : Bool) : Guarded fresh s := by
  cases s with
  | nil => trivial
  | cons c cs => exact ⟨fun _ => h.1 rfl, h.2⟩

theorem guarded_of_not_mem {s : List Char} (h : '\n' ∉ s) : Guarded false s := by
  induction s with
  | nil => trivial
  | cons c cs ih =>
    rw [List.mem_cons, not_or] at h
    refine ⟨nofun, ?_⟩
    rw [beq_eq_false_iff_ne.2 (Ne.symm h.1)]
    exact ih h.2

theorem guarded_of_colon_not_mem {s : List Char} (h : ':' ∉ s) (fresh : Bool) :
    Guarded fresh s := by
  induction s generalizing fresh with
  | nil => trivial
  | cons c cs ih =>
    rw [List.mem_cons, not_or] at h
    exact ⟨fun _ => Ne.symm h.1, ih h.2 _⟩

/-- A line that begins with another character. -/
theorem guarded_cons_of_not_mem {c : Char} (hc : c ≠ ':') {cs : List Char} (h : '\n' ∉ c :: cs)
    (fresh : Bool) : Guarded fresh (c :: cs) :=
  ⟨fun _ => hc, (guarded_of_not_mem h).2⟩

theorem Guarded.flatMap {α : Type} {f : α → List Char} {as : List α}
    (h : ∀ a ∈ as, Guarded true (f a)) : Guarded true (as.flatMap f) := by
  induction as with
  | nil => trivial
  | cons a as ih =>
    rw [List.flatMap_cons, guarded_append]
    exact ⟨h a List.mem_cons_self, (ih fun b hb => h b (List.mem_cons_of_mem a hb)).anywhere _⟩

/-! ## Lines -/

/-- Guarded text, read line by line. The first line counts if it begins at the front. -/
theorem guarded_iff (fresh : Bool) (s : List Char) :
    Guarded fresh s ↔
      ∀ line ∈ (Text.splitAt '\n' s).drop (if fresh then 0 else 1), line.head? ≠ some ':' := by
  rw [Text.splitAt_eq_splitOn]
  induction s generalizing fresh with
  | nil => cases fresh <;> simp [Guarded]
  | cons c cs ih =>
    rw [Guarded, ih, List.splitOn_cons_eq_if_modifyHead]
    obtain ⟨p, ps, e⟩ := List.exists_cons_of_ne_nil (List.splitOn_ne_nil '\n' cs)
    rw [e]
    by_cases hc : c = '\n'
    · subst hc
      cases fresh <;> simp
    · cases fresh <;> simp [hc]

theorem guarded_true_iff {s : List Char} :
    Guarded true s ↔ ∀ line ∈ Text.splitAt '\n' s, line.head? ≠ some ':' := guarded_iff true s

/-- What follows a text begins a line. -/
def AtLineStart (s : List Char) : Prop := s = [] ∨ s.getLast? = some '\n'

theorem not_atLineStart_iff {s : List Char} : ¬ AtLineStart s ↔ endsLine? s = some false := by
  unfold AtLineStart endsLine?
  rcases List.eq_nil_or_concat s with rfl | ⟨cs, c, rfl⟩
  · simp
  · simp

/-- Wherever a guarded text is put, none of its colons begins a line. -/
theorem Guarded.not_atLineStart {s front back : List Char} (h : Guarded true s)
    (e : s = front ++ ':' :: back) (before : List Char) : ¬ AtLineStart (before ++ front) := by
  rw [e, guarded_append] at h
  have hfresh : freshAfter true front ≠ true := fun hf => h.2.1 hf rfl
  rw [not_atLineStart_iff, endsLine?_append]
  unfold freshAfter at hfresh
  cases hends : endsLine? front with
  | none =>
    rw [hends] at hfresh
    exact absurd rfl hfresh
  | some ends =>
    rw [hends, Option.getD_some] at hfresh
    rw [Bool.eq_false_iff.2 hfresh]
    rfl

/-! ## Painting -/

theorem not_mem_setForeground (n : Nat) : '\n' ∉ (setForeground n).toList := by
  have hdigits : (toString n).toList = Nat.toDigits 10 n := Nat.toList_repr
  unfold setForeground
  rw [String.toList_append, String.toList_append, hdigits, List.mem_append, List.mem_append]
  rintro ((h | h) | h)
  · exact absurd h (by decide)
  · exact absurd (Nat.isDigit_of_mem_toDigits (by decide) (by decide) h) (by decide)
  · exact absurd h (by decide)

/-- Color brings no line feed. -/
theorem not_mem_paintStretch (color : Nat) {stretch : List Char} (h : '\n' ∉ stretch) :
    '\n' ∉ (paintStretch color stretch).toList := by
  unfold paintStretch
  split
  · exact List.not_mem_nil
  · simp only [String.toList_append, String.toList_ofList, List.mem_append, not_or]
    exact ⟨⟨not_mem_setForeground color, h⟩, by decide⟩

/-- A stretch in color begins with the escape character. -/
theorem guarded_paintStretch (color : Nat) {stretch : List Char} (h : '\n' ∉ stretch)
    (fresh : Bool) : Guarded fresh (paintStretch color stretch).toList := by
  have hn := not_mem_paintStretch color h
  unfold paintStretch at hn ⊢
  by_cases hempty : stretch.isEmpty
  · rw [if_pos hempty]
    trivial
  · rw [if_neg hempty] at hn ⊢
    have hhead : ∃ cs, (setForeground color ++ String.ofList stretch ++ reset).toList =
        '\x1b' :: cs := by
      unfold setForeground
      simp only [String.toList_append]
      exact ⟨_, rfl⟩
    -- No line ends inside, so only the first character can begin one.
    obtain ⟨cs, e⟩ := hhead
    rw [e] at hn ⊢
    exact guarded_cons_of_not_mem (by decide) hn fresh

theorem guarded_intercalate (color : Nat) {pieces : List (List Char)}
    (h : ∀ piece ∈ pieces, '\n' ∉ piece) (fresh : Bool) :
    Guarded fresh
      (['\n'].intercalate (pieces.map fun piece => (paintStretch color piece).toList)) := by
  induction pieces generalizing fresh with
  | nil => trivial
  | cons piece pieces ih =>
    have hpiece := h piece List.mem_cons_self
    have ih := ih fun p hp => h p (List.mem_cons_of_mem _ hp)
    cases pieces with
    | nil =>
      simp only [List.map_cons, List.map_nil, List.intercalate_singleton]
      exact guarded_paintStretch color hpiece fresh
    | cons piece' pieces =>
      simp only [List.map_cons, List.intercalate_cons_cons] at ih ⊢
      rw [guarded_append, guarded_append]
      exact ⟨⟨guarded_paintStretch color hpiece fresh, fun _ => by decide, trivial⟩, ih _⟩

theorem guarded_paintToken (palette : Palette) (theme : Theme) {token : Token} {fresh : Bool}
    (h : Guarded fresh token.text.toList) :
    Guarded fresh (paintToken palette theme token).toList := by
  unfold paintToken
  split
  · exact h
  · rw [toList_paintText]
    exact guarded_intercalate _ (fun _ => not_mem_of_mem_splitOn) fresh

/-- Painted tokens are guarded if their characters are. -/
theorem guarded_paint (palette : Palette) (theme : Theme) {tokens : List Token} {fresh : Bool}
    (h : Guarded fresh (charsOf tokens)) :
    Guarded fresh (paint palette theme tokens).toList := by
  unfold paint
  rw [String.toList_join]
  induction tokens generalizing fresh with
  | nil => trivial
  | cons token tokens ih =>
    rw [charsOf_cons, guarded_append] at h
    rw [List.map_cons, List.flatMap_cons, guarded_append, freshAfter, endsLine?_paintToken]
    exact ⟨guarded_paintToken palette theme h.1, ih h.2⟩

end StepLog.Style
