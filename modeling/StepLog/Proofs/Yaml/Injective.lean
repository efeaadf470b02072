/-
  Spellings tell texts apart.

  What is written for a character in double quotes is read back by the reader of escapes
  (`escaped_escape`), so no escape is the front of another. Indentation behind line breaks takes
  nothing away either (`indented_injective`), and the first character of a spelling tells its
  style (`ofLead_spell`). So two texts are never spelled alike (`spell_injective`). Without the
  blank characters at the end a spelling still tells quoted texts apart, but not plain ones
  (`trimEnd_spell_inj`).
-/
import StepLog.Proofs.Text.Digits
import StepLog.Proofs.Yaml.Spelling
import StepLog.Yaml.Lexeme.Scalar

namespace StepLog

namespace Yaml

/-! ## Escapes -/

theorem toNat_valid (c : Char) : c.toNat < 0xD800 ∨ 0xDFFF < c.toNat ∧ c.toNat < 0x110000 :=
  c.valid

theorem escaped_shortEscape {c letter : Char} (h : shortEscape? c = some letter)
    (more : List Char) : escaped (letter :: more) = some (c, more) := by
  have hread : escapeWidth? letter = none ∧ unescape? letter = some c := by
    unfold shortEscape? at h
    split at h <;> cases h
    all_goals
      next hc => exact ⟨rfl, congrArg some (Char.toNat_inj.1 hc.symm)⟩
  unfold escaped
  dsimp only
  rw [hread.1]
  dsimp only
  rw [hread.2]
  rfl

theorem escaped_hexDigits {mark : Char} {width : Nat} (hmark : escapeWidth? mark = some width)
    (hwidth : width ≠ 0) {c : Char} (h : c.toNat < Nat.pow 16 width) (more : List Char) :
    escaped (mark :: Text.hexDigits width c.toNat ++ more) = some (c, more) := by
  have hlength := Text.length_hexDigits width c.toNat
  have htake : (Text.hexDigits width c.toNat ++ more).take width = Text.hexDigits width c.toNat :=
    List.take_left' hlength
  have hdrop : (Text.hexDigits width c.toNat ++ more).drop width = more :=
    List.drop_left' hlength
  have hvalid : ¬ ((Text.hexDigits width c.toNat ++ more).length < width ∨
      (0xD800 ≤ c.toNat ∧ c.toNat ≤ 0xDFFF) ∨ 0x10FFFF < c.toNat) := by
    have hc := toNat_valid c
    rw [List.length_append, hlength]
    omega
  unfold escaped
  rw [List.cons_append]
  dsimp only
  rw [hmark]
  dsimp only
  rw [htake, hdrop, Text.digits?_hexDigits hwidth h]
  show (if _ then none else _) = _
  rw [if_neg hvalid, Char.ofNat_toNat]
  rfl

/-- A character stands for itself, and then it is no backslash, or what stands behind the
backslash is read back as the character. -/
theorem escaped_escape (c : Char) : escape c = [c] ∧ c ≠ '\\' ∨
    ∃ rest, escape c = '\\' :: rest ∧ ∀ more, escaped (rest ++ more) = some (c, more) := by
  unfold escape
  split
  · next letter hshort =>
    exact .inr ⟨[letter], rfl, escaped_shortEscape hshort⟩
  · next hshort =>
    have hslash : c ≠ '\\' := by
      rintro rfl
      cases hshort
    have hmax : c.toNat < Nat.pow 16 8 := by
      have hc := toNat_valid c
      have hpow : 0x110000 ≤ Nat.pow 16 8 := by decide
      omega
    split
    · exact .inl ⟨rfl, hslash⟩
    · refine .inr ?_
      split
      · next h =>
        exact ⟨_, rfl, escaped_hexDigits rfl (by decide) (Nat.lt_of_le_of_lt h (by decide))⟩
      · split
        · next h =>
          exact ⟨_, rfl, escaped_hexDigits rfl (by decide) (Nat.lt_of_le_of_lt h (by decide))⟩
        · exact ⟨_, rfl, escaped_hexDigits rfl (by decide) hmax⟩

/-- What is written for a character is not the front of what is written for another. -/
theorem escape_append_inj {c d : Char} {s t : List Char} (h : escape c ++ s = escape d ++ t) :
    c = d ∧ s = t := by
  rcases escaped_escape c with ⟨hc, hslash⟩ | ⟨x, hc, hread⟩ <;>
    rcases escaped_escape d with ⟨hd, hslash'⟩ | ⟨y, hd, hread'⟩ <;> rw [hc, hd] at h
  · exact List.cons.inj h
  · exact absurd (List.cons.inj h).1 hslash
  · exact absurd (List.cons.inj h).1.symm hslash'
  · have hread := hread s
    have hrest : x ++ s = y ++ t := (List.cons.inj h).2
    rw [hrest, hread' t] at hread
    cases hread
    exact ⟨rfl, rfl⟩

/-! ## Characters one after the other -/

/-- If what stands for a character is never the front of what stands for another, it is clear
where each ends. -/
theorem flatMap_injective {α β : Type} {f : α → List β} (hne : ∀ a, f a ≠ [])
    (hfront : ∀ {a b s t}, f a ++ s = f b ++ t → a = b ∧ s = t) :
    Function.Injective (List.flatMap f) := by
  intro s
  induction s with
  | nil =>
    rintro (_ | ⟨b, t⟩) h
    · rfl
    · exact absurd (List.append_eq_nil_iff.1 h.symm).1 (hne b)
  | cons a s ih =>
    rintro (_ | ⟨b, t⟩) h
    · exact absurd (List.append_eq_nil_iff.1 h).1 (hne a)
    · obtain ⟨rfl, hrest⟩ := hfront h
      rw [ih hrest]

theorem doubleQuotes_injective : Function.Injective doubleQuotes := by
  refine flatMap_injective (fun c => ?_) fun {c d s t} h => ?_
  · split <;> exact List.cons_ne_nil _ _
  · by_cases hc : c = '\'' <;> by_cases hd : d = '\''
    · subst hc hd
      exact ⟨rfl, List.append_cancel_left h⟩
    · rw [if_pos hc, if_neg hd] at h
      exact absurd (List.cons.inj h).1.symm hd
    · rw [if_neg hc, if_pos hd] at h
      exact absurd (List.cons.inj h).1 hc
    · rw [if_neg hc, if_neg hd] at h
      exact List.cons.inj h

theorem doubleQuoted_injective : Function.Injective doubleQuoted := by
  have hne : ∀ c, escape c ≠ [] := by
    intro c
    rcases escaped_escape c with ⟨hc, -⟩ | ⟨rest, hc, -⟩ <;> rw [hc] <;> exact List.cons_ne_nil _ _
  intro s t h
  exact flatMap_injective hne escape_append_inj (List.append_cancel_right (List.cons.inj h).2)

/-! ## Indented lines -/

theorem indented_cons (n : Nat) (atBreak : Bool) (c : Char) (cs : List Char) :
    indented n atBreak (c :: cs) =
      (if atBreak && !isBreak c then spaces n else []) ++ c :: indented n (isBreak c) cs := by
  rw [indented]
  cases isBreak c with
  | true =>
    rw [if_pos rfl, Bool.not_true, Bool.and_false]
    rfl
  | false => rw [if_neg Bool.false_ne_true, Bool.not_false, Bool.and_true]

/-- A margin is not taken for a line break. -/
theorem exists_indented_cons (n : Nat) (atBreak : Bool) (c : Char) (cs : List Char) :
    ∃ d rest, indented n atBreak (c :: cs) = d :: rest ∧ isBreak d = isBreak c := by
  rw [indented_cons]
  split
  · next hmargin =>
    have hc : isBreak c = false := by simpa using (Bool.and_eq_true_iff.1 hmargin).2
    cases n with
    | zero => exact ⟨c, _, rfl, rfl⟩
    | succ n => exact ⟨' ', _, rfl, hc.symm⟩
  · exact ⟨c, _, rfl, rfl⟩

theorem indented_injective (n : Nat) (atBreak : Bool) :
    Function.Injective (indented n atBreak) := by
  intro s
  induction s generalizing atBreak with
  | nil =>
    rintro (_ | ⟨d, t⟩) h
    · rfl
    · obtain ⟨x, rest, hcons, -⟩ := exists_indented_cons n atBreak d t
      exact absurd (h.trans hcons) (List.cons_ne_nil x rest).symm
  | cons c s ih =>
    rintro (_ | ⟨d, t⟩) h
    · obtain ⟨x, rest, hcons, -⟩ := exists_indented_cons n atBreak c s
      exact absurd (hcons.symm.trans h) (List.cons_ne_nil x rest)
    · have hbreak : isBreak c = isBreak d := by
        obtain ⟨x, _, hc, hx⟩ := exists_indented_cons n atBreak c s
        obtain ⟨y, _, hd, hy⟩ := exists_indented_cons n atBreak d t
        rw [hc, hd] at h
        rw [← hx, ← hy, (List.cons.inj h).1]
      rw [indented_cons, indented_cons, hbreak] at h
      obtain ⟨rfl, hrest⟩ := List.cons.inj (List.append_cancel_left h)
      rw [ih _ hrest]

theorem indented_concat (n : Nat) (atBreak : Bool) (s : List Char) {c : Char}
    (hc : isBreak c = false) : indented n atBreak (s ++ [c]) = indented n atBreak s ++
      (if s.getLast?.elim atBreak isBreak then spaces n else []) ++ [c] := by
  induction s generalizing atBreak with
  | nil =>
    rw [List.nil_append, indented_cons, hc, Bool.not_false, Bool.and_true]
    rfl
  | cons d s ih =>
    have hlast : (d :: s).getLast?.elim atBreak isBreak = s.getLast?.elim (isBreak d) isBreak := by
      rw [List.getLast?_cons]
      cases s.getLast? <;> rfl
    rw [List.cons_append, indented_cons, indented_cons, ih, hlast]
    simp only [List.append_assoc, List.cons_append]

theorem getLast?_doubleQuotes (s : List Char) : (doubleQuotes s).getLast? = s.getLast? := by
  rcases List.eq_nil_or_concat s with rfl | ⟨front, c, rfl⟩
  · rfl
  · unfold doubleQuotes
    rw [List.concat_eq_append, List.flatMap_append, List.flatMap_singleton, List.getLast?_concat,
      List.getLast?_append]
    split
    · next hc =>
      rw [hc]
      rfl
    · rfl

/-- The closing quote is indented like any other character. -/
theorem singleQuoted_eq (n : Nat) (s : List Char) :
    singleQuoted n s = '\'' :: indented n false (doubleQuotes s ++ ['\'']) := by
  rw [indented_concat n false (doubleQuotes s) rfl, getLast?_doubleQuotes]
  unfold singleQuoted
  rw [List.cons_append, List.cons_append]
  cases s.getLast? <;> rfl

theorem singleQuoted_injective (n : Nat) : Function.Injective (singleQuoted n) := by
  intro s t h
  rw [singleQuoted_eq, singleQuoted_eq] at h
  have hinside := indented_injective n false (List.cons.inj h).2
  exact doubleQuotes_injective (List.append_cancel_right hinside)

/-- The header ends at the first line feed, and the text stands behind it. -/
theorem literalBlock_injective (n : Nat) : Function.Injective (literalBlock n) := by
  have hheader : ∀ s, '\n' ∉ literalHeader s := by
    intro s
    unfold literalHeader
    rw [List.mem_append, List.mem_cons, not_or, not_or]
    refine ⟨⟨by decide, ?_⟩, ?_⟩
    · split <;> decide
    · split
      · decide
      · split <;> decide
      · split
        · decide
        · split <;> decide
  intro s t h
  unfold literalBlock at h
  have hrest : ∀ s, (literalHeader s ++ '\n' :: indented n true s).dropWhile (· ≠ '\n') =
      '\n' :: indented n true s := by
    intro s
    have hall : ∀ c ∈ literalHeader s, decide (c ≠ '\n') = true :=
      fun c hc => decide_eq_true (ne_of_mem_of_not_mem hc (hheader s))
    rw [List.dropWhile_append_of_pos hall]
    rfl
  have htext := congrArg (List.dropWhile (· ≠ '\n')) h
  rw [hrest, hrest] at htext
  exact indented_injective n true (List.cons.inj htext).2

/-! ## Spellings -/

/-- The style that the first character of a spelling tells. -/
def Style.ofLead : Option Char → Style
  | some '\'' => .single
  | some '"' => .double
  | some '|' => .literal
  | _ => .plain

theorem ofLead_of_not_indicator {c : Char} (h : isIndicator c = false) :
    Style.ofLead (some c) = .plain := by
  unfold Style.ofLead
  split
  · next e => cases e; cases h
  · next e => cases e; cases h
  · next e => cases e; cases h
  · rfl

/-- No plain text goes on like one in quotes or like a block, nor does the front of one. -/
theorem ofLead_of_plain {s : String} (h : styleOf s = .plain) {key : List Char}
    (hkey : key <+: s.toList) : Style.ofLead key.head? = .plain := by
  obtain ⟨more, hmore⟩ := hkey
  cases key with
  | nil => rfl
  | cons c cs =>
    have hactive := inactive_of_plain h
    rw [← hmore] at hactive
    have hc := hactive (none, c, (cs ++ more).head?) List.mem_cons_self
    exact ofLead_of_not_indicator (Bool.or_eq_false_iff.1 hc).1

theorem ofLead_spell (n : Nat) (s : String) : Style.ofLead (spell n s).head? = styleOf s := by
  unfold spell
  split
  · next h => rw [ofLead_of_plain h (List.prefix_refl _), h]
  · next h => exact h.symm
  · next h => exact h.symm
  · next h => exact h.symm

/-- Texts that are spelled alike are the same. -/
theorem spell_injective (n : Nat) : Function.Injective (spell n) := by
  intro s t h
  have hstyle : styleOf s = styleOf t := by rw [← ofLead_spell n s, h, ofLead_spell]
  unfold spell at h
  rw [← hstyle] at h
  apply String.toList_inj.1
  cases hs : styleOf s <;> rw [hs] at h
  case plain => exact h
  case single => exact singleQuoted_injective n h
  case double => exact doubleQuoted_injective h
  case literal => exact literalBlock_injective n h

/-! ## Spellings without the blank characters at their end -/

section
variable (n : Nat) {s t : String} (hs : '\n' ∉ s.toList)
include hs

theorem ofLead_trimEnd_spell : Style.ofLead (Text.trimEnd (spell n s)).head? = styleOf s := by
  by_cases hplain : styleOf s = .plain
  · rw [spell_of_plain hplain, ofLead_of_plain hplain ⟨_, trimEnd_append _⟩, hplain]
  · rw [trimEnd_spell_of_quoted n hs hplain, ofLead_spell]

theorem trimEnd_spell_iff : Text.trimEnd (spell n s) = spell n s ↔
    (styleOf s = .plain → Text.trimEnd s.toList = s.toList) := by
  by_cases hplain : styleOf s = .plain
  · rw [spell_of_plain hplain]
    exact ⟨fun h _ => h, fun h => h hplain⟩
  · exact iff_of_true (trimEnd_spell_of_quoted n hs hplain) fun h => absurd h hplain

/-- Of plain texts only what stands in front of the blank characters at the end is told apart. -/
theorem trimEnd_spell_inj (ht : '\n' ∉ t.toList) :
    Text.trimEnd (spell n s) = Text.trimEnd (spell n t) ↔ s = t ∨
      styleOf s = .plain ∧ styleOf t = .plain ∧ Text.trimEnd s.toList = Text.trimEnd t.toList := by
  constructor
  · intro h
    have hstyle : styleOf s = styleOf t := by
      rw [← ofLead_trimEnd_spell n hs, h, ofLead_trimEnd_spell n ht]
    by_cases hplain : styleOf s = .plain
    · rw [spell_of_plain hplain, spell_of_plain (hstyle ▸ hplain)] at h
      exact .inr ⟨hplain, hstyle ▸ hplain, h⟩
    · rw [trimEnd_spell_of_quoted n hs hplain, trimEnd_spell_of_quoted n ht (hstyle ▸ hplain)] at h
      exact .inl (spell_injective n h)
  · rintro (rfl | ⟨hplain, hplain', h⟩)
    · rfl
    · rw [spell_of_plain hplain, spell_of_plain hplain', h]

end

end Yaml

end StepLog
