/-
  What painted tokens look like.

  `display` reads a text as a terminal does: a sequence sets the foreground or resets it, and
  any other character is shown in the foreground that holds. What a part of a text shows does
  not depend on what follows it (`Shows`), so a painted text is followed part by part: a stretch
  of one color sets it and resets it, and between stretches and tokens no foreground holds.

  Main statement: painted tokens show the characters of the tokens, each in the color of its
  token's kind, a line feed in none, and leave no foreground behind (`display_paint`).
-/
import StepLog.Proofs.Style.Erase

namespace StepLog.Style

/-! ## A terminal -/

/-- The color that a sequence at the front sets, and the text behind the sequence. -/
def foreground? (s : List Char) : Option (Nat × List Char) :=
  (behindForeground? s).map fun rest =>
    (Nat.ofDigitChars 10 ((s.drop "\x1b[38;5;".length).takeWhile Char.isDigit) 0, rest)

/-- What a terminal shows, each character in its foreground, and the foreground it is left
with. -/
structure Screen where
  shown : List (Char × Option Nat)
  foreground : Option Nat
deriving DecidableEq

theorem length_of_foreground? {s rest : List Char} {n : Nat}
    (h : foreground? s = some (n, rest)) : rest.length < s.length := by
  obtain ⟨rest', hrest, e⟩ := Option.map_eq_some_iff.1 h
  obtain ⟨-, rfl⟩ := Prod.mk.inj e
  exact length_behindForeground? hrest

/-- Reads a text; `foreground` holds at its front. -/
def display (foreground : Option Nat) : List Char → Screen
  | [] => ⟨[], foreground⟩
  | c :: cs =>
    match _ : foreground? (c :: cs) with
    | some (n, rest) => display (some n) rest
    | none =>
      match _ : behindReset? (c :: cs) with
      | some rest => display none rest
      | none =>
        let after := display foreground cs
        ⟨(c, foreground) :: after.shown, after.foreground⟩
termination_by s => s.length
decreasing_by
  · exact length_of_foreground? ‹_›
  · exact length_behindReset? ‹_›
  · exact Nat.lt_succ_self _

/-- From the foreground `before` on a text shows `shown` and leaves `after`, whatever follows. -/
def Shows (before : Option Nat) (s : List Char) (shown : List (Char × Option Nat))
    (after : Option Nat) : Prop :=
  ∀ t, display before (s ++ t) =
    ⟨shown ++ (display after t).shown, (display after t).foreground⟩

namespace Shows

variable {before between after : Option Nat} {s t : List Char}
  {shown shown' : List (Char × Option Nat)}

theorem nil (foreground : Option Nat) : Shows foreground [] [] foreground := fun _ => rfl

theorem append (h : Shows before s shown between) (h' : Shows between t shown' after) :
    Shows before (s ++ t) (shown ++ shown') after := by
  intro rest
  rw [List.append_assoc, h, h', List.append_assoc]

theorem display_eq (h : Shows before s shown after) : display before s = ⟨shown, after⟩ := by
  have e := h []
  rwa [List.append_nil, display, List.append_nil] at e

end Shows

/-! ## Parts of a painted text -/

theorem display_of_foreground? {foreground : Option Nat} {c : Char} {cs rest : List Char} {n : Nat}
    (h : foreground? (c :: cs) = some (n, rest)) :
    display foreground (c :: cs) = display (some n) rest := by
  rw [display]
  split
  · next e =>
    rw [h] at e
    cases e
    rfl
  · next e =>
    rw [h] at e
    cases e

theorem display_of_none {foreground : Option Nat} {c : Char} {cs : List Char}
    (h : foreground? (c :: cs) = none) (h' : behindReset? (c :: cs) = none) :
    display foreground (c :: cs) =
      ⟨(c, foreground) :: (display foreground cs).shown, (display foreground cs).foreground⟩ := by
  rw [display]
  split
  · next e =>
    rw [h] at e
    cases e
  · split
    · next e =>
      rw [h'] at e
      cases e
    · rfl

/-- Text without the escape character is shown as it stands. -/
theorem shows_text (foreground : Option Nat) {s : List Char} (h : '\x1b' ∉ s) :
    Shows foreground s (s.map fun c => (c, foreground)) foreground := by
  induction s with
  | nil => exact .nil foreground
  | cons c cs ih =>
    rw [List.mem_cons, not_or] at h
    intro t
    have hnone := behindSequence?_of_ne (Ne.symm h.1) (cs ++ t)
    unfold behindSequence? at hnone
    obtain ⟨hset, hreset⟩ := Option.or_eq_none_iff.1 hnone
    have hforeground : foreground? (c :: (cs ++ t)) = none := by
      unfold foreground?
      rw [hset]
      rfl
    rw [List.cons_append, display_of_none hforeground hreset, ih h.2]
    rfl

theorem shows_setForeground (foreground : Option Nat) (n : Nat) :
    Shows foreground (setForeground n).toList [] (some n) := by
  intro t
  have hdigits : ∀ c ∈ Nat.toDigits 10 n, c.isDigit = true :=
    fun c hc => Nat.isDigit_of_mem_toDigits (by decide) (by decide) hc
  have hbehind := behindForeground?_digits Nat.toDigits_ne_nil hdigits t
  have htake : (Nat.toDigits 10 n ++ 'm' :: t).takeWhile Char.isDigit = Nat.toDigits 10 n := by
    rw [List.takeWhile_append_of_pos hdigits]
    simp [Char.isDigit]
  have hset : foreground? ("\x1b[38;5;".toList ++ Nat.toDigits 10 n ++ 'm' :: t) = some (n, t) := by
    unfold foreground?
    rw [hbehind, Option.map_some]
    show some (Nat.ofDigitChars 10
      ((Nat.toDigits 10 n ++ 'm' :: t).takeWhile Char.isDigit) 0, t) = some (n, t)
    rw [htake, Nat.ofDigitChars_ten_toDigits]
  rw [toList_setForeground_append]
  exact display_of_foreground? hset

theorem shows_reset (foreground : Option Nat) : Shows foreground reset.toList [] none := by
  intro t
  show display foreground ('\x1b' :: '[' :: '0' :: 'm' :: t) = display none t
  rw [display]
  rfl

/-! ## Painted text -/

/-- A character as it is shown: a line feed has no color. -/
def colored (color : Option Nat) (c : Char) : Char × Option Nat :=
  (c, if c = '\n' then none else color)

/-- The characters of a token as they are shown. -/
def tokenShown (palette : Palette) (theme : Theme) (token : Token) : List (Char × Option Nat) :=
  token.text.toList.map fun c =>
    (c, if token.kind = .whitespace ∨ c = '\n' then none else palette.color token.kind theme)

/-- Blank space has no color in any palette. -/
theorem tokenShown_eq (palette : Palette) (theme : Theme) (token : Token) :
    tokenShown palette theme token =
      token.text.toList.map (colored (palette.color token.kind theme)) := by
  refine List.map_congr_left fun c _ => ?_
  unfold colored Palette.color
  by_cases hspace : token.kind = .whitespace
  · rw [if_pos (.inl hspace), if_pos hspace, ite_self]
  · simp only [hspace, false_or]

theorem map_colored {s : List Char} (h : '\n' ∉ s) (color : Option Nat) :
    s.map (colored color) = s.map fun c => (c, color) := by
  refine List.map_congr_left fun c hc => ?_
  have hne : c ≠ '\n' := fun e => h (e ▸ hc)
  rw [colored, if_neg hne]

theorem shows_paintStretch (color : Nat) {stretch : List Char} (hescape : '\x1b' ∉ stretch)
    (hfeed : '\n' ∉ stretch) :
    Shows none (paintStretch color stretch).toList (stretch.map (colored (some color))) none := by
  unfold paintStretch
  split
  · next he =>
    rw [List.isEmpty_iff.1 he]
    exact .nil none
  · rw [map_colored hfeed, String.toList_append, String.toList_append, String.toList_ofList]
    have htext := ((shows_setForeground none color).append (shows_text _ hescape)).append
      (shows_reset _)
    rwa [List.nil_append, List.append_nil] at htext

/-- Between the stretches stand line feeds, and no foreground holds there. -/
theorem shows_intercalate (color : Nat) {pieces : List (List Char)}
    (h : ∀ piece ∈ pieces, '\x1b' ∉ piece ∧ '\n' ∉ piece) :
    Shows none
      (['\n'].intercalate (pieces.map fun piece => (paintStretch color piece).toList))
      ((['\n'].intercalate pieces).map (colored (some color))) none := by
  induction pieces with
  | nil => exact .nil none
  | cons piece pieces ih =>
    obtain ⟨⟨hescape, hfeed⟩, hpieces⟩ := List.forall_mem_cons.1 h
    have hpiece := shows_paintStretch color hescape hfeed
    have ih := ih hpieces
    cases pieces with
    | nil => simpa only [List.map_cons, List.map_nil, List.intercalate_singleton] using hpiece
    | cons piece' pieces =>
      simp only [List.map_cons, List.intercalate_cons_cons, List.map_append] at ih ⊢
      exact (hpiece.append (shows_text none (by decide))).append ih

theorem shows_paintText (color : Nat) {text : String} (h : '\x1b' ∉ text.toList) :
    Shows none (paintText color text).toList (text.toList.map (colored (some color))) none := by
  have hpieces := shows_intercalate color fun piece (hp : piece ∈ text.toList.splitOn '\n') =>
    ⟨fun hc => h (mem_of_mem_splitOn hp hc), not_mem_of_mem_splitOn hp⟩
  rwa [← toList_paintText, List.intercalate_splitOn] at hpieces

theorem shows_paintToken (palette : Palette) (theme : Theme) {token : Token}
    (h : '\x1b' ∉ token.text.toList) :
    Shows none (paintToken palette theme token).toList (tokenShown palette theme token) none := by
  rw [tokenShown_eq]
  unfold paintToken
  split
  · next hcolor =>
    -- A token without a color is put out as it stands.
    have hnone : ∀ c : Char, colored none c = (c, none) := fun c => by rw [colored, ite_self]
    rw [hcolor, funext hnone]
    exact shows_text none h
  · next color hcolor =>
    rw [hcolor]
    exact shows_paintText color h

theorem shows_paint (palette : Palette) (theme : Theme) {tokens : List Token}
    (h : ∀ t ∈ tokens, '\x1b' ∉ t.text.toList) :
    Shows none (paint palette theme tokens).toList (tokens.flatMap (tokenShown palette theme))
      none := by
  unfold paint
  rw [String.toList_join]
  induction tokens with
  | nil => exact .nil none
  | cons token tokens ih =>
    obtain ⟨htoken, htokens⟩ := List.forall_mem_cons.1 h
    rw [List.map_cons, List.flatMap_cons, List.flatMap_cons]
    exact (shows_paintToken palette theme htoken).append (ih htokens)

/-- Painted tokens show the characters of the tokens in order, each in the color of its token's
kind, blank space and line feeds in none. At the end no foreground holds. -/
theorem display_paint (palette : Palette) (theme : Theme) {tokens : List Token}
    (h : ∀ t ∈ tokens, '\x1b' ∉ t.text.toList) :
    display none (paint palette theme tokens).toList =
      ⟨tokens.flatMap fun t => t.text.toList.map fun c =>
        (c, if t.kind = .whitespace ∨ c = '\n' then none else palette.color t.kind theme), none⟩ :=
  (shows_paint palette theme h).display_eq

/-- A command over three lines, the second one empty, then a line feed and a comment. -/
theorem display_paint_lines :
    display none (paint .shell .dark
        [⟨.command, "a\n\nb"⟩, ⟨.string, ""⟩, ⟨.whitespace, "\n"⟩, ⟨.comment, "#"⟩]).toList =
      ⟨[('a', some 150), ('\n', none), ('\n', none), ('b', some 150), ('\n', none),
        ('#', some 189)], none⟩ := by
  have h : ∀ t ∈ ([⟨.command, "a\n\nb"⟩, ⟨.string, ""⟩, ⟨.whitespace, "\n"⟩, ⟨.comment, "#"⟩] :
      List Token), '\x1b' ∉ t.text.toList := by decide
  exact display_paint .shell .dark h

end StepLog.Style
