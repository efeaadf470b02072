/-
  Painting, undone.

  `erase` takes out of a text the sequences that set a foreground and those that reset it, in
  one pass from left to right. Painting puts in nothing else: what is left of painted tokens
  are the characters of the tokens (`erase_paint`), and the label of a severity is left of its
  colored form (`erase_severityLabel`). The text must not hold the escape character, or
  `erase` would take sequences of its own out of it.
-/
import StepLog.Printer.Basic
import StepLog.Proofs.Cutting

namespace StepLog.Style

/-! ## Sequences -/

/-- The text behind a sequence at the front that sets a foreground. -/
def behindForeground? : List Char → Option (List Char)
  | '\x1b' :: '[' :: '3' :: '8' :: ';' :: '5' :: ';' :: s =>
    match s.takeWhile Char.isDigit, s.dropWhile Char.isDigit with
    | _ :: _, 'm' :: rest => some rest
    | _, _ => none
  | _ => none

/-- The text behind a reset at the front. -/
def behindReset? : List Char → Option (List Char)
  | '\x1b' :: '[' :: '0' :: 'm' :: rest => some rest
  | _ => none

/-- The text behind a sequence of either kind at the front. -/
def behindSequence? (s : List Char) : Option (List Char) :=
  (behindForeground? s).or (behindReset? s)

theorem length_behindForeground? {s rest : List Char} (h : behindForeground? s = some rest) :
    rest.length < s.length := by
  unfold behindForeground? at h
  split at h
  · next t =>
    have hlen := congrArg List.length (List.takeWhile_append_dropWhile (p := Char.isDigit) (l := t))
    split at h
    · next d ds r hd hr =>
      cases h
      rw [hr, List.length_append, List.length_cons] at hlen
      simp only [List.length_cons]
      omega
    · cases h
  · cases h

theorem length_behindReset? {s rest : List Char} (h : behindReset? s = some rest) :
    rest.length < s.length := by
  unfold behindReset? at h
  split at h
  · cases h
    simp only [List.length_cons]
    omega
  · cases h

theorem length_behindSequence? {s rest : List Char} (h : behindSequence? s = some rest) :
    rest.length < s.length := by
  rcases Option.or_eq_some_iff.1 h with h | ⟨-, h⟩
  · exact length_behindForeground? h
  · exact length_behindReset? h

/-- Takes the sequences out that set and reset colors. -/
def erase : List Char → List Char
  | [] => []
  | c :: cs =>
    match _ : behindSequence? (c :: cs) with
    | some rest => erase rest
    | none => c :: erase cs
termination_by s => s.length
decreasing_by
  · exact length_behindSequence? ‹_›
  · exact Nat.lt_succ_self _

/-! ## Text without sequences -/

theorem behindSequence?_of_ne {c : Char} (h : c ≠ '\x1b') (cs : List Char) :
    behindSequence? (c :: cs) = none := by
  unfold behindSequence? behindForeground? behindReset?
  split
  · next e =>
    cases e
    exact absurd rfl h
  · split
    · next e =>
      cases e
      exact absurd rfl h
    · rfl

theorem erase_of_none {c : Char} {cs : List Char} (h : behindSequence? (c :: cs) = none) :
    erase (c :: cs) = c :: erase cs := by
  rw [erase]
  split
  · next e =>
    rw [h] at e
    cases e
  · rfl

theorem erase_of_some {c : Char} {cs rest : List Char}
    (h : behindSequence? (c :: cs) = some rest) : erase (c :: cs) = erase rest := by
  rw [erase]
  split
  · next e =>
    rw [h] at e
    cases e
    rfl
  · next e =>
    rw [h] at e
    cases e

/-- Text without the escape character stays. -/
theorem erase_append {s : List Char} (h : '\x1b' ∉ s) (t : List Char) :
    erase (s ++ t) = s ++ erase t := by
  induction s with
  | nil => rfl
  | cons c cs ih =>
    rw [List.mem_cons, not_or] at h
    rw [List.cons_append, erase_of_none (behindSequence?_of_ne (Ne.symm h.1) _), ih h.2]
    rfl

theorem erase_of_not_mem {s : List Char} (h : '\x1b' ∉ s) : erase s = s := by
  have e := erase_append h []
  rwa [List.append_nil, erase, List.append_nil] at e

/-! ## The sequences that painting puts in -/

theorem behindForeground?_digits {digits : List Char} (hne : digits ≠ [])
    (h : ∀ c ∈ digits, c.isDigit = true) (t : List Char) :
    behindForeground? ("\x1b[38;5;".toList ++ digits ++ 'm' :: t) = some t := by
  obtain ⟨d, ds, rfl⟩ := List.exists_cons_of_ne_nil hne
  have htake : (d :: ds ++ 'm' :: t).takeWhile Char.isDigit = d :: ds := by
    rw [List.takeWhile_append_of_pos h]
    simp [Char.isDigit]
  have hdrop : (d :: ds ++ 'm' :: t).dropWhile Char.isDigit = 'm' :: t := by
    rw [List.dropWhile_append_of_pos h]
    simp [Char.isDigit]
  show (match (d :: ds ++ 'm' :: t).takeWhile Char.isDigit,
      (d :: ds ++ 'm' :: t).dropWhile Char.isDigit with
    | _ :: _, 'm' :: rest => some rest
    | _, _ => none) = some t
  rw [htake, hdrop]
  rfl

theorem toList_setForeground_append (n : Nat) (t : List Char) :
    (setForeground n).toList ++ t = "\x1b[38;5;".toList ++ Nat.toDigits 10 n ++ 'm' :: t := by
  have hdigits : (toString n).toList = Nat.toDigits 10 n := Nat.toList_repr
  unfold setForeground
  rw [String.toList_append, String.toList_append, hdigits, List.append_assoc]
  rfl

theorem erase_setForeground (n : Nat) (t : List Char) :
    erase ((setForeground n).toList ++ t) = erase t := by
  have hseq : behindSequence? ("\x1b[38;5;".toList ++ Nat.toDigits 10 n ++ 'm' :: t) = some t := by
    unfold behindSequence?
    rw [behindForeground?_digits Nat.toDigits_ne_nil
      fun c hc => Nat.isDigit_of_mem_toDigits (by decide) (by decide) hc]
    rfl
  rw [toList_setForeground_append]
  exact erase_of_some hseq

theorem erase_reset (t : List Char) : erase (reset.toList ++ t) = erase t := erase_of_some rfl

/-! ## Painted text -/

theorem erase_paintStretch (color : Nat) {stretch : List Char} (h : '\x1b' ∉ stretch)
    (t : List Char) :
    erase ((paintStretch color stretch).toList ++ t) = stretch ++ erase t := by
  unfold paintStretch
  split
  · next he => rw [List.isEmpty_iff.1 he]; rfl
  · simp only [String.toList_append, String.toList_ofList, List.append_assoc]
    rw [erase_setForeground, erase_append h, erase_reset]

theorem erase_intercalate (color : Nat) {pieces : List (List Char)}
    (h : ∀ piece ∈ pieces, '\x1b' ∉ piece) (t : List Char) :
    erase (['\n'].intercalate (pieces.map fun piece => (paintStretch color piece).toList) ++ t) =
      ['\n'].intercalate pieces ++ erase t := by
  induction pieces with
  | nil => rfl
  | cons piece pieces ih =>
    have hpiece := h piece List.mem_cons_self
    have ih := ih fun p hp => h p (List.mem_cons_of_mem _ hp)
    cases pieces with
    | nil =>
      simp only [List.map_cons, List.map_nil, List.intercalate_singleton]
      exact erase_paintStretch color hpiece t
    | cons piece' pieces =>
      simp only [List.map_cons, List.intercalate_cons_cons, List.append_assoc] at ih ⊢
      rw [erase_paintStretch color hpiece, erase_append (by decide), ih]

theorem toList_paintText (color : Nat) (text : String) :
    (paintText color text).toList = ['\n'].intercalate
      ((text.toList.splitOn '\n').map fun piece => (paintStretch color piece).toList) := by
  unfold paintText
  rw [String.toList_intercalate, List.map_map, Text.splitAt_eq_splitOn]
  rfl

theorem mem_of_mem_splitOn {s piece : List Char} (h : piece ∈ s.splitOn '\n') {c : Char}
    (hc : c ∈ piece) : c ∈ s := by
  have e : ['\n'].intercalate (s.splitOn '\n') = s := List.intercalate_splitOn '\n'
  rw [← e, List.intercalate]
  refine List.mem_flatten.2 ⟨piece, ?_, hc⟩
  generalize s.splitOn '\n' = pieces at h
  induction pieces with
  | nil => cases h
  | cons p ps ih =>
    cases ps with
    | nil => simpa using h
    | cons p' ps =>
      rw [List.intersperse_cons_cons]
      rcases List.mem_cons.1 h with rfl | h
      · exact List.mem_cons_self
      · exact List.mem_cons_of_mem _ (List.mem_cons_of_mem _ (ih h))

theorem erase_paintText (color : Nat) {text : String} (h : '\x1b' ∉ text.toList) (t : List Char) :
    erase ((paintText color text).toList ++ t) = text.toList ++ erase t := by
  rw [toList_paintText, erase_intercalate color fun piece hp hc => h (mem_of_mem_splitOn hp hc),
    List.intercalate_splitOn]

theorem erase_paintToken (palette : Palette) (theme : Theme) {token : Token}
    (h : '\x1b' ∉ token.text.toList) (t : List Char) :
    erase ((paintToken palette theme token).toList ++ t) = token.text.toList ++ erase t := by
  unfold paintToken
  split
  · exact erase_append h t
  · exact erase_paintText _ h t

/-- Of painted tokens the characters of the tokens are left. -/
theorem erase_paint (palette : Palette) (theme : Theme) {tokens : List Token}
    (h : '\x1b' ∉ charsOf tokens) (t : List Char) :
    erase ((paint palette theme tokens).toList ++ t) = charsOf tokens ++ erase t := by
  unfold paint
  rw [String.toList_join]
  induction tokens with
  | nil => rfl
  | cons token tokens ih =>
    rw [charsOf_cons, List.mem_append, not_or] at h
    rw [List.map_cons, List.flatMap_cons, List.append_assoc, erase_paintToken palette theme h.1,
      ih h.2, charsOf_cons, List.append_assoc]

theorem erase_severityLabel (s : Severity) (theme : Theme) (color : Bool) (t : List Char) :
    erase ((severityLabel s theme color).toList ++ t) = s.label.toList ++ erase t := by
  have h : '\x1b' ∉ s.label.toList := by cases s <;> decide
  unfold severityLabel
  split
  · exact erase_paintStretch _ h t
  · exact erase_append h t

/-! ## Line ends -/

/-- Whether a text ends its last line; no text has no last line. -/
def endsLine? (s : List Char) : Option Bool := s.getLast?.map (· == '\n')

theorem endsLine?_append (s t : List Char) :
    endsLine? (s ++ t) = (endsLine? t).or (endsLine? s) := by
  unfold endsLine?
  rw [List.getLast?_append]
  cases t.getLast? with
  | none => rfl
  | some c => rfl

theorem endsLine?_of_not_mem {s : List Char} (h : '\n' ∉ s) (hne : s ≠ []) :
    endsLine? s = some false := by
  unfold endsLine?
  rw [List.getLast?_eq_some_getLast hne, Option.map_some, beq_eq_false_iff_ne.2]
  intro e
  exact h (e ▸ List.getLast_mem hne)

theorem endsLine?_paintStretch (color : Nat) {stretch : List Char} (h : '\n' ∉ stretch) :
    endsLine? (paintStretch color stretch).toList = endsLine? stretch := by
  unfold paintStretch
  split
  · next he => rw [List.isEmpty_iff.1 he]; rfl
  · next he =>
    rw [List.isEmpty_iff] at he
    rw [String.toList_append, endsLine?_append, endsLine?_of_not_mem h he]
    rfl

theorem endsLine?_intercalate (color : Nat) {pieces : List (List Char)}
    (h : ∀ piece ∈ pieces, '\n' ∉ piece) :
    endsLine? (['\n'].intercalate (pieces.map fun piece => (paintStretch color piece).toList)) =
      endsLine? (['\n'].intercalate pieces) := by
  induction pieces with
  | nil => rfl
  | cons piece pieces ih =>
    have hpiece := h piece List.mem_cons_self
    have ih := ih fun p hp => h p (List.mem_cons_of_mem _ hp)
    cases pieces with
    | nil =>
      simp only [List.map_cons, List.map_nil, List.intercalate_singleton]
      exact endsLine?_paintStretch color hpiece
    | cons piece' pieces =>
      simp only [List.map_cons, List.intercalate_cons_cons] at ih ⊢
      rw [endsLine?_append, endsLine?_append, ih, endsLine?_append, endsLine?_append,
        endsLine?_paintStretch color hpiece]

theorem not_mem_of_mem_splitOn {s piece : List Char} (h : piece ∈ s.splitOn '\n') :
    '\n' ∉ piece := by
  induction s generalizing piece with
  | nil =>
    rw [List.mem_singleton.1 h]
    exact List.not_mem_nil
  | cons c cs ih =>
    rw [List.splitOn_cons_eq_if_modifyHead] at h
    split at h
    · rcases List.mem_cons.1 h with rfl | h
      · exact List.not_mem_nil
      · exact ih h
    · next hc =>
      obtain ⟨p, ps, e⟩ := List.exists_cons_of_ne_nil (List.splitOn_ne_nil '\n' cs)
      rw [e] at ih h
      rcases List.mem_cons.1 h with rfl | h
      · rw [List.mem_cons, not_or]
        exact ⟨fun he => hc (beq_iff_eq.2 he.symm), ih List.mem_cons_self⟩
      · exact ih (List.mem_cons_of_mem _ h)

theorem endsLine?_paintToken (palette : Palette) (theme : Theme) (token : Token) :
    endsLine? (paintToken palette theme token).toList = endsLine? token.text.toList := by
  unfold paintToken
  split
  · rfl
  · rw [toList_paintText, endsLine?_intercalate _ fun _ => not_mem_of_mem_splitOn,
      List.intercalate_splitOn]

/-- Painting neither ends a line nor leaves one open. -/
theorem endsLine?_paint (palette : Palette) (theme : Theme) (tokens : List Token) :
    endsLine? (paint palette theme tokens).toList = endsLine? (charsOf tokens) := by
  unfold paint
  rw [String.toList_join]
  induction tokens with
  | nil => rfl
  | cons token tokens ih =>
    rw [List.map_cons, List.flatMap_cons, endsLine?_append, ih, endsLine?_paintToken, charsOf_cons,
      endsLine?_append]

theorem toList_terminated (text : String) :
    (Printer.terminated text).toList =
      text.toList ++ if endsLine? text.toList = some true then [] else ['\n'] := by
  have hend : text.toList.getLast? = some '\n' ↔ endsLine? text.toList = some true := by
    simp [endsLine?]
  unfold Printer.terminated
  split
  · next h => rw [if_pos (hend.1 h), List.append_nil]
  · next h => rw [if_neg (mt hend.2 h), String.toList_append]; rfl

/-- The final line feed is put in behind painted text exactly if it is behind the plain one. -/
theorem erase_terminated (palette : Palette) (theme : Theme) {tokens : List Token}
    {text : String} (hcut : charsOf tokens = text.toList) (h : '\x1b' ∉ text.toList) :
    erase (Printer.terminated (paint palette theme tokens)).toList =
      (Printer.terminated text).toList := by
  rw [toList_terminated, toList_terminated, endsLine?_paint, hcut,
    erase_paint palette theme (by rwa [hcut]), hcut]
  congr 1
  split
  · exact erase_of_not_mem List.not_mem_nil
  · exact erase_of_not_mem (by decide)

end StepLog.Style
