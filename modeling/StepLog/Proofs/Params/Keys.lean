/-
  The names in a document, read by the lexer.

  On the first line of an entry the lexer finds the name if it is `Legible`: a plain name needs
  all its quotes closed, since the lexer takes any quote for one that opens (`cutLines_textEntry`).
  Behind earlier entries nothing changes, because their lines keep their margins and so leave no
  block open that would take the line in (`firstLine_textEntry`). The whole document is accepted
  if each of its blocks is opened or holds no tabs to stumble over (`accepted_texts`). Main
  statement: `tokenize_names`.
-/
import StepLog.Proofs.Params.EntryLines
import StepLog.Proofs.Yaml.Parts

namespace StepLog.Params

open Yaml (Closed KeyShaped Unbroken styleOf spell keyLine)

/-! ## The line of a name -/

/-- The key as it is spelled on the line of its entry. -/
def spelling (name text : String) : List Char :=
  if text.toList.contains '\n' then keySpelling name else spell 2 name

/-- The lexer finds the key: if it is plain its quotes are closed, and in front of a block it is
not blank; and it does not stand behind a question mark. -/
structure Legible (name text : String) : Prop where
  closed : styleOf name = .plain → Closed name.toList
  visible : '\n' ∈ text.toList → styleOf name = .plain → Text.allBlank name.toList = false
  short : '\n' ∉ text.toList → name.toList.any Yaml.isBreak = false

/-- Behind a question mark no name is found where its line begins. -/
theorem groupOf_question_ne {name : String} (hname : '\n' ∉ name.toList)
    (hbreak : name.toList.any Yaml.isBreak = true) {line : List Char}
    (hline : '\n' ∉ (' ' :: ' ' :: '?' :: line).dropLast) (tokens : List Token) :
    Yaml.groupOf none (' ' :: ' ' :: '?' :: line) ≠
      ⟨.whitespace, "  "⟩ :: .ofChars .key (spell 2 name) :: tokens := by
  intro htokens
  have hquoted : styleOf name ≠ .plain := by
    intro hplain
    rw [Yaml.no_break_of_plain hplain] at hbreak
    cases hbreak
  have hchars := (Yaml.lineGroup_groupOf none hline).cuts.chars
  rw [htokens, charsOf_cons, charsOf_cons, toList_text_ofChars] at hchars
  have hquotes := (Yaml.enclosed_spell 2 hname hquoted).quotes
  cases hspell : spell 2 name with
  | nil => exact Yaml.spell_ne_nil hname 2 hspell
  | cons c cs =>
    rw [hspell] at hchars hquotes
    cases hchars
    rcases hquotes.1 rfl with h | h
    · cases h
    · cases h

/-- An entry begins with a line that is indented by two, where the key is found if it is
legible. -/
theorem cutLines_textEntry {name : String} (hname : '\n' ∉ name.toList)
    (hlength : Text.byteLength name.toList ≤ 128) (text : String) :
    ∃ line rest, Text.cutLines (textEntry name text) = line :: rest ∧ EntryLine line ∧
      ((∃ tokens, Yaml.groupOf none line = ⟨.whitespace, "  "⟩ ::
        .ofChars .key (spelling name text) :: ⟨.delimiter, ":"⟩ :: tokens) ↔ Legible name text) := by
  unfold textEntry spelling
  by_cases htext : '\n' ∈ text.toList
  · rw [if_pos (List.contains_iff_mem.2 htext), if_pos (List.contains_iff_mem.2 htext)]
    have hkey := keyShaped_keySpelling hname
    refine ⟨_, _, cutLines_blockEntry hname text.toList, entryLine_keyLine hkey _, ?_⟩
    rw [Yaml.recognized_keyLine_iff hkey _ (unbroken_blockHead hname text.toList),
      keySpelling_ne_nil_iff hname, closed_keySpelling_iff hname]
    constructor
    · rintro ⟨hvisible, hclosed⟩
      exact ⟨hclosed, fun _ => hvisible, fun hno => absurd htext hno⟩
    · intro hlegible
      exact ⟨hlegible.visible htext, hlegible.closed⟩
  · rw [if_neg (mt List.contains_iff_mem.1 htext), if_neg (mt List.contains_iff_mem.1 htext)]
    cases hbreak : name.toList.any Yaml.isBreak with
    | false =>
      have hkey := Yaml.keyShaped_spell 2 hname
      have hline := Yaml.unbroken_keyLine (Yaml.unbroken_spell 2 hname) (Yaml.unbroken_spell 2 htext)
      refine ⟨_, _, cutLines_plainEntry_short hname htext hbreak hlength,
        entryLine_keyLine hkey _, ?_⟩
      rw [Yaml.recognized_keyLine_iff hkey _ hline, closed_spell_iff hname]
      constructor
      · rintro ⟨-, hclosed⟩
        exact ⟨hclosed, fun h => absurd h htext, fun _ => hbreak⟩
      · intro hlegible
        exact ⟨Yaml.spell_ne_nil hname 2, hlegible.closed⟩
    | true =>
      obtain ⟨line, rest, hcut⟩ := cutLines_plainEntry_long hname htext hbreak
      have hdrop := Text.not_mem_dropLast_of_mem_cutLines
        (hcut ▸ List.mem_cons_self : ' ' :: ' ' :: '?' :: line ∈ Text.cutLines _)
      refine ⟨_, _, hcut, entryLine_of_mem (by decide) List.mem_cons_self rfl, ?_⟩
      refine iff_of_false ?_ fun hlegible => ?_
      · rintro ⟨tokens, htokens⟩
        exact groupOf_question_ne hname hbreak hdrop _ htokens
      · rw [hlegible.short htext] at hbreak
        cases hbreak

/-! ## Keys in a document -/

/-- The tokens `line` are what the lexer has for the first line of `entry` behind `front`. -/
def FirstLine (tokens : List Token) (front entry : List Char) (line : List Token) : Prop :=
  ∃ head tail, tokens = head ++ line ++ tail ∧ charsOf head = front ∧
    (Text.cutLines entry).head? = some (charsOf line)

/-- In front of an entry no block is open that would take its line in. -/
theorem firstLine_textEntry {before after : List (String × String)} {name text : String}
    {tokens : List Token}
    (htokens : Yaml.lineTokens 1 none (Text.cutLines ("with:\n".toList ++
      (before ++ (name, text) :: after).flatMap fun e => textEntry e.1 e.2)) = .ok tokens)
    (hbefore : ∀ e ∈ before, '\n' ∈ e.2.toList → '\n' ∈ e.1.toList →
      ∀ c ∈ e.1.toList, Yaml.isBreak c = true → c = '\n')
    (hname : '\n' ∉ name.toList) (hlength : Text.byteLength name.toList ≤ 128) :
    ∃ line, FirstLine tokens ("with:\n".toList ++ before.flatMap fun e => textEntry e.1 e.2)
        (textEntry name text) line ∧
      ((∃ rest, line = ⟨.whitespace, "  "⟩ :: .ofChars .key (spelling name text) ::
        ⟨.delimiter, ":"⟩ :: rest) ↔ Legible name text) := by
  obtain ⟨raw, rest, hcut, hraw, hlegible⟩ := cutLines_textEntry hname hlength text
  generalize hfront : "with:\n".toList :: before.flatMap (fun e =>
    Text.cutLines (textEntry e.1 e.2)) = front
  have hlines : Text.cutLines ("with:\n".toList ++
      (before ++ (name, text) :: after).flatMap fun e => textEntry e.1 e.2) =
      front ++ raw :: (rest ++ after.flatMap fun e => Text.cutLines (textEntry e.1 e.2)) := by
    rw [cutLines_document, List.flatMap_append, List.flatMap_cons, hcut, ← hfront]
    rfl
  have hdrop : ∀ line ∈ front ++
      raw :: (rest ++ after.flatMap fun e => Text.cutLines (textEntry e.1 e.2)),
      '\n' ∉ line.dropLast := by
    intro line hline
    rw [← hlines] at hline
    exact Text.not_mem_dropLast_of_mem_cutLines hline
  rw [hlines] at htokens
  obtain ⟨head, tail, rfl, hhead, htail⟩ := Yaml.lineTokens_append
    (fun line hline => hdrop line (List.mem_append_left _ hline)) htokens
  have howned : Yaml.OwnedInside (front.foldl Yaml.nextOwner none) := by
    have hroot : Yaml.nextOwner none "with:\n".toList = none := by decide +kernel
    rw [← hfront, List.foldl_cons, hroot]
    refine Yaml.ownedInside_foldl nofun ?_
    intro line hline
    obtain ⟨e, he, hline⟩ := List.mem_flatMap.1 hline
    exact Yaml.indent_of_inset (inset_textEntry (hbefore e he)) hline
  have hout : ¬ Yaml.Carried (front.foldl Yaml.nextOwner none) raw := by
    rintro ⟨n, hn, hblank | hindent⟩
    · rw [hraw.visible] at hblank
      cases hblank
    · have hn := howned n hn
      rw [hraw.indent] at hindent
      omega
  obtain ⟨tail, rfl⟩ := Yaml.lineTokens_of_ok hout htail
  refine ⟨Yaml.groupOf none raw, ⟨head, tail, (List.append_assoc ..).symm, ?_, ?_⟩, hlegible⟩
  · rw [hhead, ← hfront, List.flatten_cons, flatten_cutLines_texts]
  · have hgroup := (Yaml.lineGroup_groupOf none (hdrop raw (by simp))).cuts.chars
    rw [hcut, hgroup]
    rfl

/-! ## Documents that are accepted -/

theorem not_tabIndented_of_printable {s : List Char} (h : Yaml.Printable s) {line : List Char}
    (hline : line ∈ Text.cutLines s) : ¬ Yaml.TabIndented line := by
  refine Yaml.not_tabIndented_of_not_mem fun htab => ?_
  have hmem : '\t' ∈ s := by
    rw [← Text.flatten_cutLines s]
    exact List.mem_flatten.2 ⟨line, hline, htab⟩
  cases h _ hmem

/-- A tab behind the leading spaces of a line in a block stands there in the text as well. -/
theorem tabIndented_of_blockLine {line : List Char} (h : Yaml.TabIndented (blockLine line)) :
    Yaml.TabIndented line := by
  have hdrop : (blockLine line).dropWhile (· = ' ') = (line ++ ['\n']).dropWhile (· = ' ') := by
    cases line <;> rfl
  unfold Yaml.TabIndented at h ⊢
  rw [hdrop, List.dropWhile_append] at h
  split at h
  · cases h
  · next hne =>
    rw [List.head?_append_of_ne_nil _ (mt List.isEmpty_iff.2 hne)] at h
    exact h

/-- The lines of a block are those of its text, behind what stands in front of them. -/
theorem mem_cutLines_blockEntry {name : String} {text line : List Char}
    (h : line ∈ Text.cutLines (blockEntry name text)) :
    ¬ Yaml.TabIndented line ∨ ∃ l ∈ Text.lines text, line = blockLine l := by
  have hfresh := Style.freshAfter_lineFeed true
    ("  ".toList ++ keySpelling name ++ ": ".toList ++ blockHeader text)
  have hfeed : ∀ l ∈ Text.lines text, '\n' ∉ margined l :=
    fun l hl => not_mem_margined (Text.not_mem_of_mem_lines hl)
  have hbody := Text.cutLines_flatMap hfeed []
  rw [List.append_nil] at hbody
  unfold blockEntry literalBlock at h
  rw [cutLines_append_of_fresh hfresh, List.mem_append] at h
  rcases h with h | h
  · exact .inl (not_tabIndented_of_printable (printable_blockHead name text) h)
  · have h : line ∈ (Text.lines text).map (fun l => margined l ++ ['\n']) ++ Text.cutLines [] :=
      hbody ▸ h
    rcases List.mem_append.1 h with h | h
    · obtain ⟨l, hl, rfl⟩ := List.mem_map.1 h
      exact .inr ⟨l, hl, rfl⟩
    · cases h

/-- The lexer can take what the text of an entry holds: its key is found, or no line of the text
has a tab behind its leading spaces. -/
def Acceptable (name text : String) : Prop :=
  '\n' ∈ text.toList → ('\n' ∉ name.toList ∧ Legible name text) ∨
    ∀ line ∈ Text.lines text.toList, ¬ Yaml.TabIndented line

theorem accepted_textEntry {name text : String} (h : Acceptable name text)
    {more : List (List Char)} (hmore : Yaml.Accepted more) :
    Yaml.Accepted (Text.cutLines (textEntry name text) ++ more) := by
  unfold textEntry
  by_cases htext : '\n' ∈ text.toList
  · rw [if_pos (List.contains_iff_mem.2 htext)]
    rcases h htext with ⟨hname, hlegible⟩ | hlines
    · have hkey := keyShaped_keySpelling hname
      have hentry := entryLine_keyLine hkey (blockHeader text.toList)
      have hopens := Yaml.opensBlock_keyLine hkey
        ((keySpelling_ne_nil_iff hname).2 (hlegible.visible htext))
        ((closed_keySpelling_iff hname).2 hlegible.closed) text.toList
        (unbroken_blockHead hname text.toList)
      have htab : ¬ Yaml.TabIndented
          (keyLine (keySpelling name) (blockHeader text.toList) ++ ['\n']) := by
        refine Yaml.not_tabIndented_of_not_mem fun htab => ?_
        cases printable_blockHead name text.toList _ htab
      rw [cutLines_blockEntry hname]
      refine hmore.block htab hentry.indent hentry.visible hopens ?_
      intro line hline
      obtain ⟨l, -, rfl⟩ := List.mem_map.1 hline
      exact Yaml.continues_blockLine l
    · refine hmore.append fun line hline => ?_
      rcases mem_cutLines_blockEntry hline with htab | ⟨l, hl, rfl⟩
      · exact htab
      · exact mt tabIndented_of_blockLine (hlines l hl)
  · rw [if_neg (mt List.contains_iff_mem.1 htext)]
    exact hmore.append fun line => not_tabIndented_of_printable (printable_plainEntry _ _)

theorem accepted_texts {texts : List (String × String)} (h : ∀ e ∈ texts, Acceptable e.1 e.2) :
    Yaml.Accepted (texts.flatMap fun e => Text.cutLines (textEntry e.1 e.2)) := by
  induction texts with
  | nil => exact Yaml.accepted_nil
  | cons e texts ih =>
    rw [List.flatMap_cons]
    exact accepted_textEntry (h e List.mem_cons_self)
      (ih fun e' h' => h e' (List.mem_cons_of_mem _ h'))

/-- A NUL character gets into an entry out of its text only. -/
theorem nul_not_mem_textEntry {name text : String} (h : '\x00' ∉ text.toList) :
    '\x00' ∉ textEntry name text := by
  unfold textEntry
  intro hmem
  split at hmem
  · rcases mem_blockEntry hmem with hprintable | htext
    · cases hprintable
    · exact h htext
  · cases printable_plainEntry name (.text text) _ hmem

/-! ## All documents of texts -/

theorem document_texts {ps : Params} {texts : List (String × String)}
    (h : ps.entries = texts.map fun e => (e.1, .text e.2)) (hne : texts ≠ []) :
    ps.document = .ok ("with:\n" ++ String.ofList (texts.flatMap fun e => textEntry e.1 e.2)) := by
  unfold document
  rw [h, body_texts, if_neg (by simpa using hne)]
  rfl

/-- The tokens of a text with a line of its own in front. -/
theorem tokenize_lines {lines : List Char} (h : '\x00' ∉ lines) :
    Yaml.lexer.tokenize ("with:\n" ++ String.ofList lines) =
      Yaml.lineTokens 1 none (Text.cutLines ("with:\n".toList ++ lines)) := by
  have hlines : (String.ofList lines).toList = lines := String.toList_ofList
  have hchars : ("with:\n" ++ String.ofList lines).toList = "with:\n".toList ++ lines := by
    rw [String.toList_append, hlines]
  have hnul : '\x00' ∉ ("with:\n" ++ String.ofList lines).toList := by
    rw [hchars, List.mem_append, not_or]
    exact ⟨by decide, h⟩
  rw [← hchars]
  exact tokenize_of_no_nul _ _ hnul

/-- Parameters that are texts without NUL characters always have a document. The lexer accepts it
if it can take every entry. Then a short name of one line is found where its entry begins,
exactly as it is spelled there and with its colon behind it, if and only if the name is legible. -/
theorem tokenize_names {ps : Params} {texts : List (String × String)}
    (h : ps.entries = texts.map fun e => (e.1, .text e.2))
    (hnul : ∀ e ∈ texts, '\x00' ∉ e.2.toList) :
    ∃ document, ps.document = .ok document ∧
      ((∀ e ∈ texts, Acceptable e.1 e.2) → ∃ tokens, Yaml.lexer.tokenize document = .ok tokens) ∧
      ∀ tokens, Yaml.lexer.tokenize document = .ok tokens →
        ∀ before name text after, texts = before ++ (name, text) :: after →
          (∀ e ∈ before, '\n' ∈ e.2.toList → '\n' ∈ e.1.toList →
            ∀ c ∈ e.1.toList, Yaml.isBreak c = true → c = '\n') →
          '\n' ∉ name.toList → Text.byteLength name.toList ≤ 128 →
            ∃ line, FirstLine tokens ("with:\n".toList ++ before.flatMap fun e => textEntry e.1 e.2)
                (textEntry name text) line ∧
              ((∃ rest, line = ⟨.whitespace, "  "⟩ :: .ofChars .key (spelling name text) ::
                ⟨.delimiter, ":"⟩ :: rest) ↔ Legible name text) := by
  rcases eq_or_ne texts [] with rfl | hne
  · have hdocument : ps.document = .ok "with: \x7b\x7d\n" := by
      unfold document
      rw [h]
      rfl
    refine ⟨_, hdocument, fun _ => ⟨_, rfl⟩, ?_⟩
    intro tokens _ before name text after hsplit
    simp at hsplit
  · have hbody : '\x00' ∉ texts.flatMap fun e => textEntry e.1 e.2 := by
      intro hmem
      obtain ⟨e, he, hmem⟩ := List.mem_flatMap.1 hmem
      exact nul_not_mem_textEntry (hnul e he) hmem
    refine ⟨_, document_texts h hne, ?_, ?_⟩
    · intro hacceptable
      have hroot : ¬ Yaml.TabIndented "with:\n".toList :=
        Yaml.not_tabIndented_of_not_mem (by decide)
      rw [tokenize_lines hbody, cutLines_document]
      exact (accepted_texts hacceptable).cons hroot 1 none
    · intro tokens htokens before name text after hsplit hbefore hname hlength
      subst hsplit
      rw [tokenize_lines hbody] at htokens
      exact firstLine_textEntry htokens hbefore hname hlength

/-- A plain name with a pair of quotes, behind the block of a name that is quoted as a whole. -/
theorem tokenize_names_behind_block : ∃ document tokens line rest,
    (ofList [("a: b", .text "x\n\ty"), ("rock 'n' roll", .text "z")]).document = .ok document ∧
      Yaml.lexer.tokenize document = .ok tokens ∧
      FirstLine tokens ("with:\n".toList ++ textEntry "a: b" "x\n\ty")
        (textEntry "rock 'n' roll" "z") line ∧
      line = ⟨.whitespace, "  "⟩ :: ⟨.key, "rock 'n' roll"⟩ :: ⟨.delimiter, ":"⟩ :: rest := by
  have hquoted : Legible "a: b" "x\n\ty" :=
    ⟨by decide +kernel, by decide +kernel, by decide +kernel⟩
  have hplain : Legible "rock 'n' roll" "z" :=
    ⟨by decide +kernel, by decide +kernel, by decide +kernel⟩
  have hacceptable : ∀ e ∈ [("a: b", "x\n\ty"), ("rock 'n' roll", "z")], Acceptable e.1 e.2 := by
    intro e he
    rcases List.mem_cons.1 he with rfl | he
    · exact fun _ => .inl ⟨by decide, hquoted⟩
    · obtain rfl := List.mem_singleton.1 he
      exact fun hmem => absurd hmem (by decide)
  have hentries : (ofList [("a: b", .text "x\n\ty"), ("rock 'n' roll", .text "z")]).entries =
      [("a: b", "x\n\ty"), ("rock 'n' roll", "z")].map fun e => (e.1, .text e.2) := rfl
  obtain ⟨document, hdocument, haccepted, hnames⟩ := tokenize_names hentries (by decide)
  obtain ⟨tokens, htokens⟩ := haccepted hacceptable
  obtain ⟨line, hline, hfound⟩ := hnames tokens htokens [("a: b", "x\n\ty")] "rock 'n' roll" "z" []
    rfl (by decide) (by decide) (by decide)
  obtain ⟨rest, hrest⟩ := hfound.2 hplain
  have hspelling : Token.ofChars .key (spelling "rock 'n' roll" "z") = ⟨.key, "rock 'n' roll"⟩ := by
    decide +kernel
  rw [List.flatMap_singleton] at hline
  exact ⟨document, tokens, line, rest, hdocument, htokens, hline, hspelling ▸ hrest⟩

/-- An apostrophe opens a quote that nothing closes, and the name is not found. -/
theorem apostrophe_hides_name :
    (ofList [("don't", .text "x")]).document = .ok "with:\n  don't: x\n" ∧
      Yaml.lexer.tokenize "with:\n  don't: x\n" =
        .ok [⟨.key, "with"⟩, ⟨.delimiter, ":"⟩, ⟨.whitespace, "\n"⟩, ⟨.whitespace, "  "⟩,
          ⟨.scalar, "don't: x"⟩, ⟨.whitespace, "\n"⟩] :=
  ⟨rfl, by decide +kernel⟩

end StepLog.Params
