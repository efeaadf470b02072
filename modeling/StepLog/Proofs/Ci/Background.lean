/-
  Light backgrounds.

  A terminal lists its colors as numbers between semicolons, the background last. Which lists
  name a light background is said here without the reader: the last field (`IsLastField`) holds a
  number (`HoldsNumber`) that is 7 or lies between 9 and 255. The reader looks for the field from
  the end, takes blank characters off it and reads the number; each of the three finds what the
  list was put together from (`lastField_of_isLastField`, `trim_between`,
  `colorIndex?_eq_some_iff`). Everything else counts as dark. Main statement:
  `light_background_iff`.
-/
import StepLog.Ci.Detectors
import StepLog.Proofs.Cutting
import StepLog.Proofs.Text.Digits

namespace StepLog

open Text (Spells isBlank)

/-! ## Variables -/

/-- Bytes are read as a text exactly if they are its UTF-8 form. -/
theorem Text.decode?_eq_some_iff {b : Bytes} {s : String} : decode? b = some s ↔ b = encode s := by
  refine ⟨fun h => ?_, fun h => h ▸ decode?_encode s⟩
  unfold decode? String.fromUTF8? at h
  split at h
  · rw [← Option.some.inj h]
    rfl
  · cases h

/-! ## Fields -/

/-- The text behind the last semicolon, or all of it if there is none. -/
def IsLastField (s field : List Char) : Prop :=
  ';' ∉ field ∧ (s = field ∨ ∃ front, s = front ++ ';' :: field)

theorem isLastField_lastField (s : List Char) : IsLastField s (lastField s) := by
  have hsplit : s = (s.reverse.dropWhile (· ≠ ';')).reverse ++ lastField s := by
    unfold lastField
    rw [← List.reverse_append, List.takeWhile_append_dropWhile, List.reverse_reverse]
  refine ⟨fun hmem => ?_, ?_⟩
  · unfold lastField at hmem
    rw [List.mem_reverse] at hmem
    simpa using List.all_eq_true.1 List.all_takeWhile _ hmem
  · cases hfront : s.reverse.dropWhile (· ≠ ';') with
    | nil =>
      rw [hfront] at hsplit
      exact .inl hsplit
    | cons c cs =>
      have hstop := stop_of_dropWhile (congrArg List.head? hfront)
      rw [hfront] at hsplit
      obtain rfl : c = ';' := by simpa using hstop
      refine .inr ⟨cs.reverse, ?_⟩
      rw [List.reverse_cons, List.append_assoc] at hsplit
      exact hsplit

theorem lastField_of_isLastField {s field : List Char} (h : IsLastField s field) :
    lastField s = field := by
  obtain ⟨hmem, hs⟩ := h
  have hall : ∀ c ∈ field.reverse, decide (c ≠ ';') = true := by
    intro c hc
    rw [List.mem_reverse] at hc
    exact decide_eq_true fun e => hmem (e ▸ hc)
  obtain ⟨rest, hrest, hstop⟩ : ∃ rest, s.reverse = field.reverse ++ rest ∧
      rest.takeWhile (· ≠ ';') = [] := by
    rcases hs with rfl | ⟨front, rfl⟩
    · exact ⟨[], (List.append_nil _).symm, rfl⟩
    · exact ⟨';' :: front.reverse, by simp, rfl⟩
  unfold lastField
  rw [hrest, List.takeWhile_append_of_pos hall, hstop, List.append_nil, List.reverse_reverse]

/-! ## Blank characters -/

theorem exists_around_trim (s : List Char) :
    ∃ left right, s = left ++ Text.trim s ++ right ∧ ∀ c ∈ left ++ right, isBlank c = true := by
  have hend : ∀ s, s = Text.trimEnd s ++ (s.reverse.takeWhile isBlank).reverse := by
    intro s
    unfold Text.trimEnd Text.dropEndWhile
    rw [← List.reverse_append, List.takeWhile_append_dropWhile, List.reverse_reverse]
  refine ⟨s.takeWhile isBlank, ((s.dropWhile isBlank).reverse.takeWhile isBlank).reverse, ?_, ?_⟩
  · show s = _ ++ Text.trimEnd (s.dropWhile isBlank) ++ _
    rw [List.append_assoc, ← hend, List.takeWhile_append_dropWhile]
  · intro c hc
    rw [List.mem_append, List.mem_reverse] at hc
    rcases hc with hc | hc
    · exact List.all_eq_true.1 List.all_takeWhile c hc
    · exact List.all_eq_true.1 List.all_takeWhile c hc

/-- Blank characters are taken off a text that has none itself, and nothing else is. -/
theorem trim_between {left core right : List Char} (h : ∀ c ∈ left ++ right, isBlank c = true)
    (hne : core ≠ []) (hcore : ∀ c ∈ core, isBlank c = false) :
    Text.trim (left ++ core ++ right) = core := by
  have hstop : ∀ s t : List Char, s ≠ [] → (∀ c ∈ s, isBlank c = false) →
      (s ++ t).dropWhile isBlank = s ++ t := by
    intro s t hs hblank
    obtain ⟨c, cs, rfl⟩ := List.exists_cons_of_ne_nil hs
    have hc : ¬ isBlank c = true := Bool.not_eq_true _ ▸ hblank c List.mem_cons_self
    exact List.dropWhile_cons_of_neg hc
  have hleft : ∀ c ∈ left, isBlank c = true := fun c hc => h c (List.mem_append_left _ hc)
  have hright : ∀ c ∈ right.reverse, isBlank c = true :=
    fun c hc => h c (List.mem_append_right _ (List.mem_reverse.1 hc))
  have hback : core.reverse.dropWhile isBlank = core.reverse := by
    have hreverse := hstop core.reverse [] (mt List.reverse_eq_nil_iff.1 hne)
      fun c hc => hcore c (List.mem_reverse.1 hc)
    rwa [List.append_nil] at hreverse
  unfold Text.trim Text.trimEnd Text.dropEndWhile
  rw [List.append_assoc, List.dropWhile_append_of_pos hleft, hstop core right hne hcore,
    List.reverse_append, List.dropWhile_append_of_pos hright, hback, List.reverse_reverse]

/-! ## Numbers -/

/-- An optional plus sign and digits that spell a number. -/
def SpellsIndex (s : List Char) (n : Nat) : Prop :=
  ∃ sign digits, s = sign ++ digits ∧ (sign = [] ∨ sign = ['+']) ∧ Spells digits n

/-- A field that is such a spelling but for blank characters around it. -/
def HoldsNumber (field : List Char) (n : Nat) : Prop :=
  ∃ left index right, field = left ++ index ++ right ∧
    (∀ c ∈ left ++ right, isBlank c = true) ∧ SpellsIndex index n

theorem isBlank_of_isDigit {c : Char} (h : c.isDigit = true) : isBlank c = false := by
  have hrange : 48 ≤ c.toNat ∧ c.toNat ≤ 57 := Char.isDigit_iff_toNat.1 h
  simp only [isBlank, Bool.or_eq_false_iff, Bool.and_eq_false_iff, decide_eq_false_iff_not,
    beq_eq_false_iff_ne]
  omega

theorem SpellsIndex.ne_nil {s : List Char} {n : Nat} (h : SpellsIndex s n) : s ≠ [] := by
  obtain ⟨sign, digits, rfl, -, hdigits⟩ := h
  exact List.append_ne_nil_of_right_ne_nil sign hdigits.ne_nil

theorem SpellsIndex.not_blank {s : List Char} {n : Nat} (h : SpellsIndex s n) :
    ∀ c ∈ s, isBlank c = false := by
  obtain ⟨sign, digits, rfl, hsign, hdigits⟩ := h
  intro c hc
  rcases List.mem_append.1 hc with hc | hc
  · rcases hsign with rfl | rfl
    · cases hc
    · rw [List.mem_singleton.1 hc]
      rfl
  · exact isBlank_of_isDigit (hdigits.isDigit c hc)

theorem colorIndex?_eq_some_iff {s : List Char} {n : Nat} :
    colorIndex? s = some n ↔ SpellsIndex s n ∧ n ≤ 255 := by
  have hread : ∀ digits, (Text.digits? 10 digits).filter (· ≤ 255) = some n ↔
      Spells digits n ∧ n ≤ 255 := by
    intro digits
    rw [Option.filter_eq_some_iff, Text.digits?_ten_eq_some_iff, decide_eq_true_iff]
  unfold colorIndex?
  rw [hread]
  refine and_congr_left fun _ => ?_
  split
  · next rest =>
    constructor
    · exact fun h => ⟨['+'], rest, rfl, .inr rfl, h⟩
    · rintro ⟨sign, digits, e, rfl | rfl, h⟩
      · -- No digit is a plus sign.
        rw [List.nil_append] at e
        exact absurd (h.isDigit '+' (e ▸ List.mem_cons_self)) (by decide)
      · rw [(List.cons.inj e).2]
        exact h
  · next hplus =>
    constructor
    · exact fun h => ⟨[], s, rfl, .inl rfl, h⟩
    · rintro ⟨sign, digits, rfl, rfl | rfl, h⟩
      · exact h
      · exact absurd rfl (hplus digits)

theorem colorIndex?_trim_eq_some_iff {field : List Char} {n : Nat} :
    colorIndex? (Text.trim field) = some n ↔ HoldsNumber field n ∧ n ≤ 255 := by
  rw [colorIndex?_eq_some_iff]
  refine and_congr_left fun _ => ⟨fun h => ?_, ?_⟩
  · obtain ⟨left, right, hfield, hblank⟩ := exists_around_trim field
    exact ⟨left, Text.trim field, right, hfield, hblank, h⟩
  · rintro ⟨left, index, right, rfl, hblank, h⟩
    rw [trim_between hblank h.ne_nil h.not_blank]
    exact h

/-- A color index that is read with a count of one byte, and not at all where the count would run
over. -/
def byteIndex? (s : List Char) : Option Nat :=
  let digits := match s with
    | '+' :: rest => rest
    | _ => s
  if digits.isEmpty then none else Text.countWithin 255 0 digits

theorem colorIndex?_eq_byteIndex? (s : List Char) : colorIndex? s = byteIndex? s := by
  have hread : ∀ digits, (Text.digits? 10 digits).filter (· ≤ 255) =
      if digits.isEmpty then none else Text.countWithin 255 0 digits := by
    intro digits
    cases digits with
    | nil => rfl
    | cons c cs => exact (Text.countWithin_zero 255 (List.cons_ne_nil c cs)).symm
  exact hread _

/-! ## Backgrounds -/

theorem backgroundIsDark_eq_false_iff {value : Option String} :
    backgroundIsDark value = false ↔
      ∃ text field n, value = some text ∧ IsLastField text.toList field ∧ HoldsNumber field n ∧
        (n = 7 ∨ 9 ≤ n ∧ n ≤ 255) := by
  unfold backgroundIsDark
  constructor
  · intro h
    split at h
    · next n hread =>
      obtain ⟨text, hvalue, hindex⟩ := Option.bind_eq_some_iff.1 hread
      obtain ⟨hnumber, hle⟩ := colorIndex?_trim_eq_some_iff.1 hindex
      rw [Bool.or_eq_false_iff, decide_eq_false_iff_not, decide_eq_false_iff_not] at h
      exact ⟨text, _, n, hvalue, isLastField_lastField _, hnumber, by omega⟩
    · cases h
  · rintro ⟨text, field, n, rfl, hfield, hnumber, hn⟩
    have hindex : colorIndex? (Text.trim field) = some n :=
      colorIndex?_trim_eq_some_iff.2 ⟨hnumber, by omega⟩
    rw [Option.bind_some, lastField_of_isLastField hfield, hindex]
    dsimp only
    rw [Bool.or_eq_false_iff, decide_eq_false_iff_not, decide_eq_false_iff_not]
    omega

/-- The environment tells of a light background exactly if its variable is set to a text whose last
field holds 7 or a number from 9 to 255; a variable that is not set, bytes that are no text and
every other field leave it dark. For that no number need be counted further than a byte holds. -/
theorem light_background_iff :
    (∀ s : Surroundings, Detectors.standard.isDark s = false ↔
      ∃ text field n, s.environment.colorFgBg = some (Text.encode text) ∧
        IsLastField text.toList field ∧ HoldsNumber field n ∧ (n = 7 ∨ 9 ≤ n ∧ n ≤ 255)) ∧
    ∀ index, colorIndex? index = byteIndex? index := by
  refine ⟨fun s => ?_, colorIndex?_eq_byteIndex?⟩
  have hvalue : ∀ text, s.environment.colorFgBg.bind Text.decode? = some text ↔
      s.environment.colorFgBg = some (Text.encode text) := by
    intro text
    simp only [Option.bind_eq_some_iff, Text.decode?_eq_some_iff, exists_eq_right]
  show backgroundIsDark (s.environment.colorFgBg.bind Text.decode?) = false ↔ _
  rw [backgroundIsDark_eq_false_iff]
  simp only [hvalue]

/-- The blank character behind the number is a no-break space. -/
example : backgroundIsDark (some "0;default; +007\u00a0") = false := by decide

example : backgroundIsDark (some "0;0000256") = true := by decide

end StepLog
