/-
  Keys in quotes.

  A text is quoted in single quotes, where each single quote is doubled, or in double quotes, where
  each double quote and each backslash has a backslash in front of it. Either way nothing but
  quotes stands outside the quotes (`enclosed_inSingleQuotes`, `enclosed_inDoubleQuotes`), so the
  lexer cannot end the key before its last quote: what looks like a colon, a comment or another
  quote inside is passed over.

  Main statement: such a key in front of a colon is the first token of its line, as a whole, and the
  colon is the second (`tokenize_quotedKey`).
-/
import StepLog.Proofs.Yaml.Literals
import StepLog.Proofs.Yaml.Spelling

namespace StepLog.Yaml

/-! ## Quoting -/

/-- A text in single quotes. A single quote in it is doubled. -/
def inSingleQuotes (s : List Char) : List Char := '\'' :: doubleQuotes s ++ ['\'']

/-- A character with a backslash in front of it, if it is a double quote or a backslash. -/
def backslashed (c : Char) : List Char := if c = '"' ∨ c = '\\' then ['\\', c] else [c]

/-- A text in double quotes. -/
def inDoubleQuotes (s : List Char) : List Char := '"' :: s.flatMap backslashed ++ ['"']

/-- A quoted text is closed, and all of it is between its quotes. -/
theorem enclosed_between {q : Char} (hq : q = '"' ∨ q = '\'') {body : List Char}
    (h : Enclosed (.inside q) body (.inside q)) :
    Enclosed .outside (q :: body ++ [q]) .outside := by
  have hopen : Enclosed .outside [q] (.inside q) :=
    ⟨⟨fun _ => hq, trivial⟩, QuoteState.step_outside_of_quote hq⟩
  have hclose : Enclosed (.inside q) [q] .outside := by
    rcases hq with rfl | rfl
    · exact ⟨⟨nofun, trivial⟩, rfl⟩
    · exact ⟨⟨nofun, trivial⟩, rfl⟩
  exact (hopen.append h).append hclose

/-- The first of two quotes closes, the second opens again. -/
theorem enclosed_inSingleQuotes (s : List Char) :
    Enclosed .outside (inSingleQuotes s) .outside := by
  refine enclosed_between (.inr rfl) (Enclosed.flatMap (fun c => ?_) s)
  split
  · exact ⟨⟨nofun, fun _ => .inr rfl, trivial⟩, rfl⟩
  · next hc => exact enclosed_of_not_mem (by simpa using Ne.symm hc) nofun

/-- The character behind a backslash does not close. -/
theorem enclosed_inDoubleQuotes (s : List Char) :
    Enclosed .outside (inDoubleQuotes s) .outside := by
  refine enclosed_between (.inl rfl) (Enclosed.flatMap (fun c => ?_) s)
  unfold backslashed
  split
  · exact ⟨⟨nofun, nofun, trivial⟩, rfl⟩
  · next hc =>
    rw [not_or] at hc
    exact enclosed_of_not_mem (by simpa using Ne.symm hc.1) fun _ => by simpa using Ne.symm hc.2

/-- What holds of the quote and of the text, and is kept by escaping, holds of the quoted text. -/
theorem forall_mem_between {P : Char → Prop} {q : Char} {f : Char → List Char} {s : List Char}
    (hq : P q) (hf : ∀ c, P c → ∀ d ∈ f c, P d) (hs : ∀ c ∈ s, P c) :
    ∀ d ∈ q :: s.flatMap f ++ [q], P d := by
  intro d hd
  simp only [List.cons_append, List.mem_cons, List.mem_append, List.mem_flatMap,
    List.not_mem_nil, or_false] at hd
  rcases hd with rfl | ⟨c, hc, hd⟩ | rfl
  · exact hq
  · exact hf c (hs c hc) d hd
  · exact hq

/-- No line feed and no NUL. -/
def InLine (s : List Char) : Prop := ∀ c ∈ s, c ≠ '\n' ∧ c ≠ '\x00'

instance (s : List Char) : Decidable (InLine s) := List.decidableBAll _ s

theorem inLine_inSingleQuotes {s : List Char} (h : InLine s) : InLine (inSingleQuotes s) := by
  refine forall_mem_between (by decide) (fun c hc d hd => ?_) h
  split at hd
  · rw [show d = '\'' by simpa using hd]
    decide
  · rwa [List.mem_singleton.1 hd]

theorem inLine_inDoubleQuotes {s : List Char} (h : InLine s) : InLine (inDoubleQuotes s) := by
  refine forall_mem_between (by decide) (fun c hc d hd => ?_) h
  unfold backslashed at hd
  split at hd
  · rcases List.mem_cons.1 hd with rfl | hd
    · decide
    · rwa [List.mem_singleton.1 hd]
  · rwa [List.mem_singleton.1 hd]

/-! ## The line of a key -/

section
variable {key : List Char} (hkey : Enclosed .outside key .outside) (hne : key ≠ [])
include hkey hne

theorem head?_quoted_ne {c : Char} (hc : c ≠ '"' ∧ c ≠ '\'') (behind : List Char) :
    (key ++ behind).head? ≠ some c := by
  cases key with
  | nil => exact absurd rfl hne
  | cons q cs =>
    rintro ⟨⟩
    rcases hkey.quotes.1 rfl with rfl | rfl
    · exact hc.1 rfl
    · exact hc.2 rfl

/-- The key is found, and the colon behind it. -/
theorem entryTokens_quoted {rest : List Char} (hrest : rest = [] ∨ rest.head? = some ' ') :
    ∃ more, (entryTokens (key ++ ':' :: rest)).tokens =
      .ofChars .key key :: ⟨.delimiter, ":"⟩ :: more := by
  have hquiet : Quiet (.ofQuote none) none key := quiet_of_quotesOnly hkey.quotes none
  have hfound := keyFrom_of_quiet hrest key hquiet hkey.after
  have hkey? : key? (key ++ ':' :: rest) = some (key, ':' :: rest) := by
    rw [← hfound]
    unfold key?
    split
    · next hnil => simp at hnil
    · next c cs htext =>
      have hstart : ∀ d, d ≠ '"' ∧ d ≠ '\'' → c ≠ d := by
        rintro d hd rfl
        exact head?_quoted_ne hkey hne hd (':' :: rest) (by rw [htext]; rfl)
      refine if_neg ?_
      simp only [not_or]
      exact ⟨hstart _ (by decide), hstart _ (by decide), hstart _ (by decide),
        hstart _ (by decide)⟩
  unfold entryTokens
  rw [if_neg (head?_quoted_ne hkey hne (by decide) _), hkey?]
  dsimp only
  rw [of?_of_ne_nil .key hne]
  exact ⟨_, rfl⟩

/-- A line that begins with the key is no marker of a document and has no dashes. -/
theorem tokens_quoted {rest : List Char} (hrest : rest = [] ∨ rest.head? = some ' ')
    (ending : List Char) :
    ∃ more, (Line.mk [] (key ++ ':' :: rest) ending).tokens.tokens =
      .ofChars .key key :: ⟨.delimiter, ":"⟩ :: more := by
  obtain ⟨more, hmore⟩ := entryTokens_quoted hkey hne hrest
  have hdash := head?_quoted_ne hkey hne (c := '-') (by decide) (':' :: rest)
  have hdot := head?_quoted_ne hkey hne (c := '.') (by decide) (':' :: rest)
  have hmarker : ¬ (key ++ ':' :: rest = "---".toList ∨ key ++ ':' :: rest = "...".toList) := by
    rintro (h | h)
    · exact hdash (by rw [h]; rfl)
    · exact hdot (by rw [h]; rfl)
  have hdashes : dashes (key ++ ':' :: rest) = ([], key ++ ':' :: rest) := by
    cases htext : key ++ ':' :: rest with
    | nil => simp at htext
    | cons c s =>
      unfold dashes
      refine if_neg fun h => hdash ?_
      rw [htext, h.1]
      rfl
  unfold Line.tokens
  dsimp only
  rw [if_neg hmarker, hdashes]
  exact ⟨more, hmore⟩

/-- Such a line is not indented. -/
theorem margin_quoted (behind : List Char) :
    (key ++ behind).takeWhile (· = ' ') = [] ∧
      (key ++ behind).dropWhile (· = ' ') = key ++ behind := by
  have hspace := head?_quoted_ne hkey hne (c := ' ') (by decide) behind
  cases htext : key ++ behind with
  | nil => exact ⟨rfl, rfl⟩
  | cons c s =>
    have hc : ¬ c = ' ' := by
      rintro rfl
      exact hspace (by rw [htext]; rfl)
    simp [hc]

/-- Its ending apart, the line goes on behind the colon with nothing or with a space. -/
theorem ofChars_quoted {tail : List Char} (htail : tail = [] ∨ tail.head? = some ' ') :
    ∃ rest ending, (rest = [] ∨ rest.head? = some ' ') ∧
      Line.ofChars (key ++ ':' :: tail) = ⟨[], key ++ ':' :: rest, ending⟩ := by
  obtain ⟨rest, hsplit, hrest⟩ := splitEnding_behind key (c := ':') (by decide) (by decide) tail
  obtain ⟨hindent, htext⟩ := margin_quoted hkey hne (':' :: rest)
  refine ⟨rest, endingOf (key ++ ':' :: tail), ?_, ?_⟩
  · cases rest with
    | nil => exact .inl rfl
    | cons c cs =>
      rw [← hrest] at htail
      exact .inr (by simpa using htail)
  · unfold Line.ofChars
    rw [hsplit]
    dsimp only
    rw [hindent, htext]

theorem tokenize_enclosed {tail : List Char} (htail : tail = [] ∨ tail.head? = some ' ')
    (hline : InLine (key ++ ':' :: tail)) :
    ∃ more, lexer.tokenize (String.ofList (key ++ ':' :: tail)) =
      .ok (.ofChars .key key :: ⟨.delimiter, ":"⟩ :: more) := by
  obtain ⟨rest, ending, hrest, hofChars⟩ := ofChars_quoted hkey hne htail
  obtain ⟨more, hmore⟩ := tokens_quoted hkey hne hrest ending
  have htab : ¬ TabIndented (key ++ ':' :: tail) := by
    unfold TabIndented
    rw [(margin_quoted hkey hne _).2]
    exact head?_quoted_ne hkey hne (by decide) _
  have hcut : Text.cutLines (key ++ ':' :: tail) = [key ++ ':' :: tail] :=
    Text.cutLines_of_not_mem (fun h => (hline _ h).1 rfl) (by simp)
  rw [tokenize_line hcut (fun h => (hline _ h).2 rfl) htab, groupOf_none, hofChars, hmore]
  exact ⟨_, rfl⟩

end

/-- A key in single or in double quotes, whatever it holds between them, in front of a colon with
nothing or a space behind it: the first token is the key with its quotes, the second the colon, and
the others cut what stands behind. -/
theorem tokenize_quotedKey {s r : List Char} (hs : InLine s) (hr : InLine r) :
    ∀ key ∈ [inSingleQuotes s, inDoubleQuotes s], ∀ tail ∈ [[], ' ' :: r], ∃ rest,
      lexer.tokenize (String.ofList (key ++ ':' :: tail)) =
        .ok (.ofChars .key key :: ⟨.delimiter, ":"⟩ :: rest) ∧ Cuts rest tail := by
  intro key hkey tail htail
  simp only [List.mem_cons, List.not_mem_nil, or_false] at hkey htail
  have hquoted : Enclosed .outside key .outside ∧ key ≠ [] ∧ InLine key := by
    rcases hkey with rfl | rfl
    · exact ⟨enclosed_inSingleQuotes s, List.cons_ne_nil _ _, inLine_inSingleQuotes hs⟩
    · exact ⟨enclosed_inDoubleQuotes s, List.cons_ne_nil _ _, inLine_inDoubleQuotes hs⟩
  have hbehind : (tail = [] ∨ tail.head? = some ' ') ∧ InLine tail := by
    rcases htail with rfl | rfl
    · exact ⟨.inl rfl, nofun⟩
    · exact ⟨.inr rfl, List.forall_mem_cons.2 ⟨by decide, hr⟩⟩
  obtain ⟨henclosed, hne, hkeyLine⟩ := hquoted
  have hline : InLine (key ++ ':' :: tail) :=
    List.forall_mem_append.2 ⟨hkeyLine, List.forall_mem_cons.2 ⟨by decide, hbehind.2⟩⟩
  obtain ⟨rest, htokens⟩ := tokenize_enclosed henclosed hne hbehind.1 hline
  have hcuts := cuts_tokenize htokens
  exact ⟨rest, htokens, by simpa using hcuts.chars, fun t ht => hcuts.nonempty t (by simp [ht])⟩

/-- A key with a colon, a comment, a dash, quotes of both kinds and a backslash at its end. -/
theorem tokenize_quotedKey_punctuated :
    let s := "- é: don't # \"\\".toList
    InLine s ∧ InLine "v".toList ∧
      inSingleQuotes s = "'- é: don''t # \"\\'".toList ∧
      inDoubleQuotes s = "\"- é: don't # \\\"\\\\\"".toList ∧
      ∀ key ∈ [inSingleQuotes s, inDoubleQuotes s], ∀ tail ∈ [[], ' ' :: "v".toList], ∃ rest,
        lexer.tokenize (String.ofList (key ++ ':' :: tail)) =
          .ok (.ofChars .key key :: ⟨.delimiter, ":"⟩ :: rest) ∧ Cuts rest tail := by
  intro s
  have hs : InLine s := by decide
  have hr : InLine "v".toList := by decide
  exact ⟨hs, hr, by decide +kernel, by decide +kernel, tokenize_quotedKey hs hr⟩

end StepLog.Yaml
