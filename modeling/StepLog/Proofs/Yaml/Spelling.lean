/-
  Spellings of texts of one line.

  In quotes a text is closed, and nothing but quotes is outside of them (`enclosed_spell`). A plain
  text has nothing outside its quotes that would end a key either, but its quotes are as they come
  (`quiet_of_inactive`). Whether they are closed does not depend on the blank characters at the
  end (`closed_trimEnd_iff`), which are cut off in front of a literal block.
-/
import Mathlib.Data.List.Induction
import StepLog.Proofs.Yaml.Printable
import StepLog.Proofs.Yaml.Quotes

namespace StepLog.Yaml

/-! ## Quoted spellings -/

theorem enclosed_spaces {q : Char} (hq : q ≠ ' ') (n : Nat) :
    Enclosed (.inside q) (spaces n) (.inside q) :=
  enclosed_of_not_mem (not_mem_spaces hq n) fun _ => not_mem_spaces (by decide) n

/-- A quote that is doubled closes and opens again. -/
theorem enclosed_indented (n : Nat) (s : List Char) (atBreak : Bool) :
    Enclosed (.inside '\'') (indented n atBreak (doubleQuotes s)) (.inside '\'') := by
  have hmargin : ∀ atBreak : Bool,
      Enclosed (.inside '\'') (if atBreak then spaces n else []) (.inside '\'') := by
    intro atBreak
    split
    · exact enclosed_spaces (by decide) n
    · exact ⟨trivial, rfl⟩
  induction s generalizing atBreak with
  | nil => exact ⟨trivial, rfl⟩
  | cons c cs ih =>
    by_cases hc : c = '\''
    · subst hc
      have hpair : Enclosed (.inside '\'') ['\'', '\''] (.inside '\'') :=
        ⟨⟨nofun, fun _ => .inr rfl, trivial⟩, rfl⟩
      have hdouble : indented n atBreak (doubleQuotes ('\'' :: cs)) =
          (if atBreak then spaces n else []) ++ (['\'', '\''] ++ indented n false (doubleQuotes cs)) :=
        rfl
      rw [hdouble]
      exact (hmargin atBreak).append (hpair.append (ih false))
    · have hsingle : Enclosed (.inside '\'') [c] (.inside '\'') :=
        enclosed_of_not_mem (by simpa using Ne.symm hc) nofun
      have hdouble : doubleQuotes (c :: cs) = c :: doubleQuotes cs := by
        unfold doubleQuotes
        rw [List.flatMap_cons, if_neg hc]
        rfl
      rw [hdouble]
      unfold indented
      split
      · exact hsingle.append (ih true)
      · exact (hmargin atBreak).append (hsingle.append (ih false))

/-- A backslash takes the character behind it along, whatever it is. -/
theorem enclosed_escape (c : Char) : Enclosed (.inside '"') (escape c) (.inside '"') := by
  have hpair : ∀ mark, Enclosed (.inside '"') ['\\', mark] (.inside '"') :=
    fun mark => ⟨⟨nofun, nofun, trivial⟩, rfl⟩
  have hhex : ∀ mark width, Enclosed (.inside '"')
      ('\\' :: mark :: Text.hexDigits width c.toNat) (.inside '"') :=
    fun mark width => (hpair mark).append (enclosed_of_not_mem
      (not_mem_hexDigits (by decide) width _) fun _ => not_mem_hexDigits (by decide) width _)
  unfold escape
  split
  · exact hpair _
  · next hshort =>
    split
    · have hquote : '"' ≠ c := by
        rintro rfl
        cases hshort
      have hslash : '\\' ≠ c := by
        rintro rfl
        cases hshort
      exact enclosed_of_not_mem (by simpa using hquote) fun _ => by simpa using hslash
    · split
      · exact hhex _ _
      · split
        · exact hhex _ _
        · exact hhex _ _

/-- A text of one line is no literal block. -/
theorem styleOf_ne_literal {s : String} (h : '\n' ∉ s.toList) : styleOf s ≠ .literal := by
  unfold styleOf
  dsimp only
  rw [if_neg (mt List.contains_iff_mem.1 h)]
  split
  · decide
  · split <;> decide

/-- What is spelled in quotes is closed. -/
theorem enclosed_spell (n : Nat) {s : String} (h : '\n' ∉ s.toList) (hs : styleOf s ≠ .plain) :
    Enclosed .outside (spell n s) .outside := by
  have hquote : ∀ q, q = '"' ∨ q = '\'' → Enclosed .outside [q] (.inside q) :=
    fun q hq => ⟨⟨fun _ => hq, trivial⟩, QuoteState.step_outside_of_quote hq⟩
  have hclose : ∀ q, q = '"' ∨ q = '\'' → Enclosed (.inside q) [q] .outside := by
    rintro q (rfl | rfl)
    · exact ⟨⟨nofun, trivial⟩, rfl⟩
    · exact ⟨⟨nofun, trivial⟩, rfl⟩
  unfold spell
  split
  · next hplain => exact absurd hplain hs
  · unfold singleQuoted
    have hopened := (hquote '\'' (.inr rfl)).append (enclosed_indented n s.toList false)
    refine Enclosed.append (hopened.append ?_) (hclose '\'' (.inr rfl))
    split
    · exact enclosed_spaces (by decide) n
    · exact ⟨trivial, rfl⟩
  · unfold doubleQuoted
    refine Enclosed.append ?_ (hclose '"' (.inl rfl))
    exact (hquote '"' (.inl rfl)).append (Enclosed.flatMap enclosed_escape s.toList)
  · next hliteral => exact absurd hliteral (styleOf_ne_literal h)

/-! ## Plain spellings -/

/-- What is no indicator where it stands ends no key and starts no comment, also if the text goes
on. -/
theorem quiet_of_inactive {before : Option Char} {s more : List Char}
    (h : ∀ x ∈ neighbors before (s ++ more), isActive x = false) (state : QuoteState) :
    Quiet state before s := by
  induction s generalizing state before with
  | nil => trivial
  | cons c cs ih =>
    have hc := h (before, c, (cs ++ more).head?) List.mem_cons_self
    refine ⟨fun _ => ⟨?_, ?_⟩, ih (fun x hx => h x (List.mem_cons_of_mem _ hx)) _⟩
    · rintro ⟨rfl, rfl⟩
      cases hc
    · rintro ⟨rfl, hspace⟩
      have hhead : (cs ++ more).head? = some ' ' := by
        rw [List.head?_append, hspace]
        rfl
      rw [hhead] at hc
      cases before with
      | none => cases hc
      | some b => cases hc

/-- What the spelling of a key is like, so that it can be read at the front of a line: its first
character does not make something else of the line, and nothing ends it early. -/
structure KeyShaped (key : List Char) : Prop where
  quiet : Quiet .outside none key
  start : ∀ c cs, key = c :: cs →
    c ∉ [' ', '\t', '#', '\x7b', '[', '|', '>'] ∧ ¬ (c = '-' ∧ cs.head? = some ' ')

theorem keyShaped_of_enclosed {key : List Char} {state : QuoteState}
    (h : Enclosed .outside key state) : KeyShaped key where
  quiet := quiet_of_quotesOnly h.quotes none
  start c cs e := by
    subst e
    rcases h.quotes.1 rfl with rfl | rfl
    · exact ⟨by decide, fun h => absurd h.1 (by decide)⟩
    · exact ⟨by decide, fun h => absurd h.1 (by decide)⟩

theorem allowsPlain_of_styleOf {s : String} (h : styleOf s = .plain) :
    (shape s.toList).allowsPlain = true := by
  unfold styleOf at h
  dsimp only at h
  split at h
  · split at h <;> cases h
  · split at h
    · next hplain => exact (Bool.and_eq_true_iff.1 hplain).2
    · split at h <;> cases h

/-- No character of a plain text is an indicator where it stands. -/
theorem inactive_of_plain {s : String} (h : styleOf s = .plain) :
    ∀ x ∈ neighbors none s.toList, isActive x = false := by
  have hplain := allowsPlain_of_styleOf h
  unfold Shape.allowsPlain shape at hplain
  simp only [Bool.not_eq_true', Bool.or_eq_false_iff] at hplain
  obtain ⟨⟨⟨⟨⟨⟨-, hinactive⟩, -⟩, -⟩, -⟩, -⟩, -⟩ := hplain
  exact fun x hx => Bool.eq_false_iff.2 (List.any_eq_false.1 hinactive x hx)

/-- The front of a plain text reads like a key. -/
theorem keyShaped_of_plain {s : String} (h : styleOf s = .plain) {key : List Char}
    (hkey : key <+: s.toList) : KeyShaped key := by
  obtain ⟨more, hmore⟩ := hkey
  have hplain := allowsPlain_of_styleOf h
  have hactive := inactive_of_plain h
  rw [← hmore] at hplain hactive
  unfold Shape.allowsPlain shape at hplain
  simp only [Bool.not_eq_true', Bool.or_eq_false_iff] at hplain
  obtain ⟨⟨⟨⟨⟨-, hspecial⟩, -⟩, hloose, -⟩, -⟩, -⟩ := hplain
  refine ⟨quiet_of_inactive hactive .outside, ?_⟩
  rintro c cs rfl
  have hc := hactive (none, c, (cs ++ more).head?) List.mem_cons_self
  have hprintable := List.any_eq_false.1 hspecial c List.mem_cons_self
  have hspace : isSpaceOrBreak c = false := hloose
  constructor
  · intro hmem
    simp only [List.mem_cons, List.not_mem_nil, or_false] at hmem
    rcases hmem with rfl | rfl | rfl | rfl | rfl | rfl | rfl
    · cases hspace
    · exact hprintable rfl
    all_goals cases hc
  · rintro ⟨rfl, hhead⟩
    rw [List.head?_append, hhead] at hc
    cases hc

theorem spell_of_plain {s : String} (h : styleOf s = .plain) (n : Nat) :
    spell n s = s.toList := by
  unfold spell
  rw [h]

theorem keyShaped_spell (n : Nat) {s : String} (h : '\n' ∉ s.toList) : KeyShaped (spell n s) := by
  by_cases hs : styleOf s = .plain
  · rw [spell_of_plain hs]
    exact keyShaped_of_plain hs (List.prefix_refl _)
  · exact keyShaped_of_enclosed (enclosed_spell n h hs)

/-! ## What is cut off at the end -/

theorem trimEnd_concat (s : List Char) (c : Char) :
    Text.trimEnd (s ++ [c]) = if Text.isBlank c then Text.trimEnd s else s ++ [c] := by
  unfold Text.trimEnd Text.dropEndWhile
  rw [List.reverse_concat, List.dropWhile_cons]
  split
  · rfl
  · rw [List.reverse_cons, List.reverse_reverse]

/-- Only quotes are ever open. -/
theorem quote_of_after {state : QuoteState} {s : List Char} {q : Char}
    (hstate : ∀ q, state = .inside q → q = '"' ∨ q = '\'') (h : state.after s = .inside q) :
    q = '"' ∨ q = '\'' := by
  induction s generalizing state with
  | nil => exact hstate q h
  | cons c cs ih =>
    refine ih ?_ h
    intro q' hq'
    cases state with
    | outside =>
      unfold QuoteState.step at hq'
      dsimp only at hq'
      split at hq'
      · next hc =>
        cases hq'
        exact hc
      · cases hq'
    | inside q =>
      unfold QuoteState.step at hq'
      dsimp only at hq'
      split at hq'
      · cases hq'
      · split at hq'
        · cases hq'
        · cases hq'
          exact hstate _ rfl
    | escaped =>
      cases hq'
      exact .inl rfl

/-- A blank character neither closes a quote nor opens one. -/
theorem closed_concat_iff (s : List Char) {c : Char} (hc : Text.isBlank c = true) :
    Closed (s ++ [c]) ↔ Closed s := by
  have hquote : ¬ (c = '"' ∨ c = '\'') := by
    rintro (rfl | rfl) <;> cases hc
  unfold Closed
  rw [QuoteState.after_append]
  show (QuoteState.outside.after s).step c = .outside ↔ _
  cases hstate : QuoteState.outside.after s with
  | outside => exact iff_of_true (QuoteState.step_outside_of_other hquote) rfl
  | inside q =>
    have hstart : ∀ q, QuoteState.outside = .inside q → q = '"' ∨ q = '\'' := by
      rintro q ⟨⟩
    have hq := quote_of_after hstart hstate
    have hescape : ¬ (q = '"' ∧ c = '\\') := by
      rintro ⟨-, rfl⟩
      cases hc
    have hne : c ≠ q := by
      rintro rfl
      exact hquote hq
    rw [QuoteState.step_inside hescape, if_neg hne]
    exact iff_of_false nofun nofun
  | escaped => exact iff_of_false nofun nofun

theorem closed_trimEnd_iff (s : List Char) : Closed (Text.trimEnd s) ↔ Closed s := by
  induction s using List.reverseRecOn with
  | nil => rfl
  | append_singleton s c ih =>
    rw [trimEnd_concat]
    split
    · next hc => rw [ih, closed_concat_iff s hc]
    · rfl

theorem trimEnd_eq_nil_iff (s : List Char) : Text.trimEnd s = [] ↔ Text.allBlank s = true := by
  induction s using List.reverseRecOn with
  | nil => exact iff_of_true rfl rfl
  | append_singleton s c ih =>
    unfold Text.allBlank at ih ⊢
    rw [trimEnd_concat, List.all_append]
    split
    · next hc => simpa [hc] using ih
    · next hc => simp [hc]

/-! ## One line -/

/-- The text holds no line feed, and no carriage return that a line ending could begin with. -/
def Unbroken (s : List Char) : Prop := ∀ c ∈ s, c ≠ '\n' ∧ c ≠ '\r'

theorem unbroken_append {s t : List Char} : Unbroken (s ++ t) ↔ Unbroken s ∧ Unbroken t :=
  List.forall_mem_append

/-- A fixed text, by looking at it. -/
theorem unbroken_of_all {s : List Char} (h : s.all (fun c => c ≠ '\n' && c ≠ '\r') = true) :
    Unbroken s := by
  intro c hc
  simpa using List.all_eq_true.1 h c hc

/-- The line break of a plain text would keep it from being plain. -/
theorem no_break_of_plain {s : String} (h : styleOf s = .plain) :
    s.toList.any isBreak = false := by
  have hplain := allowsPlain_of_styleOf h
  unfold Shape.allowsPlain shape at hplain
  simp only [Bool.not_eq_true', Bool.or_eq_false_iff] at hplain
  exact hplain.1.1.1.2

/-- A text of one line is not spelled with a line break at its end, and in quotes not with a blank
character. -/
theorem spell_concat {s : String} (h : '\n' ∉ s.toList) (n : Nat) :
    ∃ front c, spell n s = front ++ [c] ∧ isBreak c = false ∧
      (styleOf s ≠ .plain → Text.isBlank c = false) := by
  unfold spell
  split
  · next hplain =>
    rcases List.eq_nil_or_concat s.toList with hnil | ⟨front, c, hlast⟩
    · have hempty : s = "" := String.toList_inj.1 hnil
      have hquoted : styleOf "" ≠ .plain := by decide
      rw [hempty] at hplain
      exact absurd hplain hquoted
    · have hbreak := List.any_eq_false.1 (no_break_of_plain hplain) c (by rw [hlast]; simp)
      refine ⟨front, c, by simpa using hlast, Bool.eq_false_iff.2 hbreak, ?_⟩
      exact fun hquoted => absurd hplain hquoted
  · exact ⟨_, _, rfl, rfl, fun _ => rfl⟩
  · exact ⟨_, _, rfl, rfl, fun _ => rfl⟩
  · next hliteral => exact absurd hliteral (styleOf_ne_literal h)

/-- In quotes nothing is cut off. -/
theorem trimEnd_spell_of_quoted (n : Nat) {s : String} (h : '\n' ∉ s.toList)
    (hs : styleOf s ≠ .plain) : Text.trimEnd (spell n s) = spell n s := by
  obtain ⟨front, c, hspell, -, hblank⟩ := spell_concat h n
  rw [hspell, trimEnd_concat, hblank hs, if_neg Bool.false_ne_true]

/-- The line of a text of one line is not ended yet. -/
theorem endLine_spell (front : List Char) (n : Nat) {s : String} (h : '\n' ∉ s.toList) :
    endLine (front ++ spell n s) = front ++ spell n s ++ ['\n'] := by
  obtain ⟨more, c, hspell, hc, -⟩ := spell_concat h n
  unfold endLine
  rw [hspell, ← List.append_assoc, List.getLast?_concat, Option.any_some, hc,
    if_neg Bool.false_ne_true]

theorem spell_ne_nil {s : String} (h : '\n' ∉ s.toList) (n : Nat) : spell n s ≠ [] := by
  obtain ⟨front, c, hspell, -⟩ := spell_concat h n
  rw [hspell]
  exact List.append_ne_nil_of_right_ne_nil front (List.cons_ne_nil c [])

theorem newline_not_mem_indented (n : Nat) {s : List Char} (h : '\n' ∉ s) (atBreak : Bool) :
    '\n' ∉ indented n atBreak s := by
  induction s generalizing atBreak with
  | nil => exact List.not_mem_nil
  | cons c cs ih =>
    rw [List.mem_cons, not_or] at h
    have hmargin : '\n' ∉ (if atBreak then spaces n else []) := by
      split
      · exact not_mem_spaces (by decide) n
      · exact List.not_mem_nil
    unfold indented
    split
    · rw [List.mem_cons, not_or]
      exact ⟨h.1, ih h.2 true⟩
    · rw [List.mem_append, List.mem_cons, not_or, not_or]
      exact ⟨hmargin, h.1, ih h.2 false⟩

/-- A text of one line is spelled in one line. -/
theorem newline_not_mem_spell (n : Nat) {s : String} (h : '\n' ∉ s.toList) :
    '\n' ∉ spell n s := by
  unfold spell
  split
  · exact h
  · have hdouble : '\n' ∉ doubleQuotes s.toList := by
      intro hmem
      obtain ⟨c, hc, hmem⟩ := List.mem_flatMap.1 hmem
      split at hmem
      · revert hmem
        decide
      · rw [List.mem_singleton] at hmem
        exact h (hmem ▸ hc)
    have hpad : '\n' ∉ (if s.toList.getLast?.any isBreak then spaces n else []) := by
      split
      · exact not_mem_spaces (by decide) n
      · exact List.not_mem_nil
    unfold singleQuoted
    simp only [List.mem_append, List.mem_cons, not_or]
    exact ⟨⟨⟨by decide, newline_not_mem_indented n hdouble false⟩, hpad⟩, by decide⟩
  · exact not_mem_doubleQuoted s.toList
  · next hliteral => exact absurd hliteral (styleOf_ne_literal h)

theorem unbroken_of_printable {s : List Char} (hfeed : '\n' ∉ s) (h : Printable s) :
    Unbroken s := by
  intro c hc
  constructor
  · rintro rfl
    exact hfeed hc
  · rintro rfl
    cases h _ hc

theorem unbroken_spell (n : Nat) {s : String} (h : '\n' ∉ s.toList) : Unbroken (spell n s) :=
  unbroken_of_printable (newline_not_mem_spell n h) (printable_spell n s)

end StepLog.Yaml
