/-
  The lexer finds a literal block where it was written.

  A line that goes on with the open block is one literal, whatever it holds
  (`lineTokens_carried`). The lines of a literal block all go on with the block that the line
  of its key opens, and a line that is indented like that key does not, so the lexer is then
  where it starts on a text of its own, but for the number of the line (`lineTokens_add`).

  Main statement: the tokens of a literal block and a text behind it are those of the key's
  line, one literal for each line of the block, and the tokens of the text by itself
  (`tokenize_literalBlock`).
-/
import StepLog.Proofs.Params.ReadBack
import StepLog.Proofs.Yaml.Lossless

namespace StepLog

/-- The fault of a text with `n` lines put in front of it. -/
def LexFault.below (n : Nat) : LexFault → LexFault
  | ⟨lexer, .tabIndent line⟩ => ⟨lexer, .tabIndent (line + n)⟩
  | fault => fault

namespace Yaml

open Params (margined blockLine blockHeader)

/-! ## Lines further down -/

theorem map_mapError {ε α β : Type} (f : ε → ε) (g : α → β) (r : Except ε α) :
    (r.mapError f).map g = (r.map g).mapError f := by
  cases r <;> rfl

/-- The tokens of lines do not depend on their numbers; a fault names its line. -/
theorem lineTokens_add (number n : Nat) (owner : Option Nat) (raws : List (List Char)) :
    lineTokens (number + n) owner raws =
      (lineTokens number owner raws).mapError (LexFault.below n) := by
  induction raws generalizing number owner with
  | nil => rfl
  | cons raw raws ih =>
    have hnumber : number + n + 1 = number + 1 + n := by omega
    unfold lineTokens
    dsimp only
    rw [hnumber]
    split
    · rw [ih, map_mapError]
    · split
      · rfl
      · rw [ih, map_mapError]

/-! ## Lines of the open block -/

/-- A line that goes on with the open block is one literal. -/
theorem groupOf_of_carried {owner : Nat} {raw : List Char} (h : Continues owner raw) :
    groupOf (some owner) raw =
      Token.of? .literal (splitEnding raw).1 ++ Token.of? .whitespace (splitEnding raw).2 := by
  have hany : (some owner).any (Line.ofChars raw).inBlock = true :=
    (any_inBlock (some owner) raw).2 ⟨owner, rfl, h⟩
  unfold groupOf
  dsimp only
  rw [if_pos hany]
  unfold Line.ofChars
  dsimp only
  rw [List.takeWhile_append_dropWhile]

theorem map_map_append {ε α : Type} (xs ys : List α) (r : Except ε (List α)) :
    (r.map (ys ++ ·)).map (xs ++ ·) = r.map (xs ++ ys ++ ·) := by
  cases r with
  | error e => rfl
  | ok zs => exact congrArg Except.ok (List.append_assoc xs ys zs).symm

/-- Lines that go on with the open block leave it open. -/
theorem lineTokens_carried (number : Nat) {owner : Nat} {raws : List (List Char)}
    (h : ∀ raw ∈ raws, Continues owner raw) (more : List (List Char)) :
    lineTokens number (some owner) (raws ++ more) =
      (lineTokens (number + raws.length) (some owner) more).map
        (raws.flatMap (groupOf (some owner)) ++ ·) := by
  induction raws generalizing number with
  | nil =>
    show lineTokens number (some owner) more = _
    cases lineTokens number (some owner) more <;> rfl
  | cons raw raws ih =>
    have hcarried : Carried (some owner) raw := ⟨owner, rfl, h raw List.mem_cons_self⟩
    have hfault : ¬ FaultyFrom (some owner) (raw :: (raws ++ more)) 0 := by
      rw [faultyFrom_zero]
      exact fun hf => hf.1 hcarried
    have hnumber : number + 1 + raws.length = number + (raw :: raws).length := by
      rw [List.length_cons]
      omega
    rw [List.cons_append, lineTokens_cons number hfault, nextOwner_of_carried hcarried,
      ih (number + 1) fun raw' h' => h raw' (List.mem_cons_of_mem raw h'), hnumber,
      map_map_append, List.flatMap_cons]

/-- A line that does not go on with the open block is read as if there were none. -/
theorem lineTokens_of_not_carried (number : Nat) {owner : Option Nat} {raw : List Char}
    (h : ¬ Carried owner raw) (raws : List (List Char)) :
    lineTokens number owner (raw :: raws) = lineTokens number none (raw :: raws) := by
  unfold lineTokens
  dsimp only
  rw [if_neg (mt (any_inBlock owner raw).1 h)]
  rfl

/-! ## The lines of a literal block -/

/-- The tokens of a line of a literal block: the line as it is written, but for a carriage
return at its end, and its ending. -/
def bodyTokens (line : List Char) : List Token :=
  Token.of? .literal (Text.dropEndIf '\r' (margined line)) ++
    [⟨.whitespace, if (margined line).getLast? = some '\r' then "\r\n" else "\n"⟩]

theorem splitEnding_lineFeed (line : List Char) :
    splitEnding (line ++ ['\n']) =
      (Text.dropEndIf '\r' line, if line.getLast? = some '\r' then ['\r', '\n'] else ['\n']) := by
  unfold splitEnding
  rw [dropEndIf_append_self]
  dsimp only
  congr 1
  unfold Text.dropEndIf
  split
  · next h =>
    obtain ⟨front, rfl⟩ := List.getLast?_eq_some_iff.1 h
    rw [List.dropLast_concat, List.append_assoc, List.drop_left]
    rfl
  · rw [List.drop_left]

/-- The tokens of a line in a block: the line, but for a carriage return at its end, and its
ending. -/
def literalTokens (line : List Char) : List Token :=
  Token.of? .literal (Text.dropEndIf '\r' line) ++
    [⟨.whitespace, if line.getLast? = some '\r' then "\r\n" else "\n"⟩]

theorem groupOf_lineFeed {owner : Nat} {line : List Char} (h : Continues owner (line ++ ['\n'])) :
    groupOf (some owner) (line ++ ['\n']) = literalTokens line := by
  rw [groupOf_of_carried h, splitEnding_lineFeed]
  unfold literalTokens
  congr 1
  split <;> rfl

/-- A line of a literal block goes on with the block. -/
theorem continues_blockLine (line : List Char) : Continues 2 (blockLine line) := by
  cases line with
  | nil => exact .inl rfl
  | cons c cs =>
    refine .inr ?_
    show 2 < indentOf (' ' :: ' ' :: ' ' :: ' ' :: (c :: cs ++ ['\n']))
    unfold indentOf
    simp only [List.takeWhile_cons, decide_true, if_true, List.length_cons]
    omega

theorem groupOf_blockLine (line : List Char) :
    groupOf (some 2) (blockLine line) = bodyTokens line := by
  have hcontinues := continues_blockLine line
  rw [Params.blockLine_eq] at hcontinues ⊢
  exact groupOf_lineFeed hcontinues

/-! ## The line of the key -/

/-- The line that a key and a header stand on, without its line feed. -/
def keyLine (key header : List Char) : List Char := "  ".toList ++ key ++ ": ".toList ++ header

/-- The tokens of the line, for a spelling that is read as a key. -/
def keyTokens (key header : List Char) : List Token :=
  [⟨.whitespace, "  "⟩, .ofChars .key key, ⟨.delimiter, ":"⟩, ⟨.whitespace, " "⟩,
    .ofChars .delimiter header]

/-- No token of an accepted text but a line ending has a line feed. -/
theorem not_mem_of_mem_groups {raws : List (List Char)} {groups : List (List Token)}
    (h : List.Forall₂ LineGroup raws groups) {t : Token} (ht : t ∈ groups.flatten)
    (hkind : t.kind ≠ .whitespace) : '\n' ∉ t.text.toList := by
  induction h with
  | nil => cases ht
  | cons hgroup _ ih =>
    rw [List.flatten_cons, List.mem_append] at ht
    rcases ht with ht | ht
    · obtain ⟨body, e, hbody⟩ := hgroup.ending
      rw [e, List.mem_append] at ht
      rcases ht with ht | ht
      · exact hbody t ht
      · obtain ⟨rfl, -⟩ := ne_nil_of_mem_of? ht
        exact absurd rfl hkind
    · exact ih ht

/-- The tokens of a text of one line. -/
theorem tokens_of_tokenize_line {line : List Char} {tokens : List Token} (hne : line ≠ [])
    (hline : '\n' ∉ line) (h : lexer.tokenize (String.ofList line) = .ok tokens) :
    ¬ TabIndented line ∧ tokens = groupOf none line := by
  obtain ⟨hnul, -⟩ := groups_of_tokenize h
  have e : lexer.tokenize (String.ofList line) = lineTokens 1 none [line] := by
    rw [lexer, tokenize_of_no_nul _ _ hnul, String.toList_ofList, Text.cutLines_of_not_mem hline hne]
  rw [e] at h
  by_cases hfault : FaultyFrom none [line] 0
  · rw [lineTokens_faulty 1 hfault] at h
    cases h
  · rw [lineTokens_cons 1 hfault] at h
    cases h
    refine ⟨fun htab => hfault ?_, List.append_nil _⟩
    rw [faultyFrom_zero]
    exact ⟨fun ⟨n, hn, _⟩ => (by cases hn), htab⟩

/-- A line that ends in no line break of its own is cut before the line feed behind it. -/
theorem splitEnding_append {line ending : List Char} (hn : line.getLast? ≠ some '\n')
    (hr : line.getLast? ≠ some '\r') (h : ending = [] ∨ ending = ['\n']) :
    splitEnding (line ++ ending) = (line, ending) := by
  have hdrop : ∀ c, line.getLast? ≠ some c → Text.dropEndIf c line = line := by
    intro c hc
    unfold Text.dropEndIf
    exact if_neg hc
  rcases h with rfl | rfl
  · unfold splitEnding
    rw [List.append_nil, hdrop _ hn, hdrop _ hr]
    dsimp only
    rw [List.drop_length]
  · rw [splitEnding_lineFeed, hdrop _ hr, if_neg hr]

/-- A line feed behind a line is its ending and changes nothing else. -/
theorem ofChars_lineFeed {line : List Char} (hn : line.getLast? ≠ some '\n')
    (hr : line.getLast? ≠ some '\r') :
    Line.ofChars (line ++ ['\n']) = { Line.ofChars line with ending := ['\n'] } ∧
      (Line.ofChars line).ending = [] := by
  have hbare := splitEnding_append hn hr (.inl rfl)
  rw [List.append_nil] at hbare
  unfold Line.ofChars
  rw [splitEnding_append hn hr (.inr rfl), hbare]
  exact ⟨rfl, rfl⟩

theorem blockHeader_cases (text : List Char) :
    blockHeader text = "|2-".toList ∨ blockHeader text = "|-".toList := by
  unfold blockHeader
  split
  · exact .inl rfl
  · exact .inr rfl

theorem tokens_append (line : Line) :
    ∃ rest, line.tokens.tokens = Token.of? .whitespace line.indent ++ rest := by
  unfold Line.tokens
  dsimp only
  split
  · exact ⟨_, rfl⟩
  · exact ⟨_, List.append_assoc ..⟩

/-- The indentation of a line is the first of its tokens. -/
theorem indent_of_tokens {line : Line} (h : line.indent ≠ []) {t : Token} {ts : List Token}
    (e : line.tokens.tokens = t :: ts) : line.indent = t.text.toList := by
  obtain ⟨rest, hrest⟩ := tokens_append line
  unfold Token.of? at hrest
  rw [if_neg (mt List.isEmpty_iff.1 h), e] at hrest
  cases hrest
  exact (toList_text_ofChars _ _).symm

theorem getLast?_keyLine (key text : List Char) :
    (keyLine key (blockHeader text)).getLast? = some '-' := by
  unfold keyLine
  rw [List.getLast?_append]
  rcases blockHeader_cases text with e | e
  · rw [e]
    rfl
  · rw [e]
    rfl

theorem hasIndicator_keyTokens (key text : List Char) :
    hasIndicator (keyTokens key (blockHeader text)) = true := by
  have hheader : isBlockIndicator (blockHeader text) = true := by
    rcases blockHeader_cases text with e | e
    · rw [e]
      decide
    · rw [e]
      decide
  refine List.any_eq_true.2 ⟨.ofChars .delimiter (blockHeader text), ?_, ?_⟩
  · simp [keyTokens]
  · rw [toList_text_ofChars, hheader]
    rfl

section
variable {key text : List Char}
  (h : lexer.tokenize (String.ofList (keyLine key (blockHeader text))) =
    .ok (keyTokens key (blockHeader text)))
include h

theorem not_mem_key : '\n' ∉ key := by
  obtain ⟨-, groups, e, hgroups⟩ := groups_of_tokenize h
  have hmem : Token.ofChars .key key ∈ groups.flatten := by
    rw [← e]
    exact List.mem_cons_of_mem _ List.mem_cons_self
  have hno := not_mem_of_mem_groups hgroups hmem (by simp [Token.ofChars])
  rwa [toList_text_ofChars] at hno

theorem not_mem_keyLine : '\n' ∉ keyLine key (blockHeader text) := by
  unfold keyLine
  simp only [List.mem_append, not_or]
  exact ⟨⟨⟨by decide, not_mem_key h⟩, by decide⟩, Params.not_mem_blockHeader text⟩

/-- The line of the key is indented by two and has the tokens that the lexer gives of it. -/
theorem ofChars_keyLine :
    (Line.ofChars (keyLine key (blockHeader text))).indent.length = 2 ∧
      (Line.ofChars (keyLine key (blockHeader text))).text.head? ≠ some '\t' ∧
      (Line.ofChars (keyLine key (blockHeader text))).tokens.tokens =
        keyTokens key (blockHeader text) ∧
      Line.ofChars (keyLine key (blockHeader text) ++ ['\n']) =
        { Line.ofChars (keyLine key (blockHeader text)) with ending := ['\n'] } := by
  have hlast := getLast?_keyLine key text
  have hfeed : (keyLine key (blockHeader text)).getLast? ≠ some '\n' := by rw [hlast]; decide
  have hreturn : (keyLine key (blockHeader text)).getLast? ≠ some '\r' := by rw [hlast]; decide
  obtain ⟨hfeed, hending⟩ := ofChars_lineFeed hfeed hreturn
  obtain ⟨htab, htokens⟩ := tokens_of_tokenize_line
    (by unfold keyLine; exact List.cons_ne_nil _ _) (not_mem_keyLine h) h
  have hgroup : (Line.ofChars (keyLine key (blockHeader text))).tokens.tokens =
      keyTokens key (blockHeader text) := by
    unfold groupOf at htokens
    dsimp only at htokens
    rw [hending, Option.any_none, if_neg Bool.false_ne_true] at htokens
    exact (htokens.trans (List.append_nil _)).symm
  have hne : (Line.ofChars (keyLine key (blockHeader text))).indent ≠ [] := by
    rw [indent_ofChars]
    exact List.cons_ne_nil _ _
  refine ⟨?_, mt (text_ofChars_head? _).1 htab, hgroup, hfeed⟩
  rw [indent_of_tokens hne hgroup]
  rfl

/-- The line of the key opens a block that its indentation owns. -/
theorem lineTokens_keyLine (number : Nat) (raws : List (List Char)) :
    lineTokens number none ((keyLine key (blockHeader text) ++ ['\n']) :: raws) =
      (lineTokens (number + 1) (some 2) raws).map
        (keyTokens key (blockHeader text) ++ [⟨.whitespace, "\n"⟩] ++ ·) := by
  obtain ⟨hindent, htab, htokens, hfeed⟩ := ofChars_keyLine h
  have hfault : ¬ FaultyFrom none ((keyLine key (blockHeader text) ++ ['\n']) :: raws) 0 := by
    rw [faultyFrom_zero, ← text_ofChars_head?, hfeed]
    exact fun hf => htab hf.2
  have hnext : nextOwner none (keyLine key (blockHeader text) ++ ['\n']) = some 2 := by
    have hopens : (Line.ofChars (keyLine key (blockHeader text))).tokens.opensBlock = true := by
      rw [opensBlock_tokens, htokens, hasIndicator_keyTokens]
    unfold nextOwner
    rw [hfeed]
    exact (if_pos hopens).trans (congrArg some hindent)
  have hgroup : groupOf none (keyLine key (blockHeader text) ++ ['\n']) =
      keyTokens key (blockHeader text) ++ [⟨.whitespace, "\n"⟩] := by
    unfold groupOf
    rw [hfeed]
    exact congrArg (· ++ _) htokens
  rw [lineTokens_cons number hfault, hnext, hgroup]

end

/-! ## A block and what stands behind it -/

theorem cutLines_literalBlock {key text : List Char}
    (h : '\n' ∉ keyLine key (blockHeader text)) (s : List Char) :
    Text.cutLines (Params.literalBlock key text ++ s) =
      (keyLine key (blockHeader text) ++ ['\n']) ::
        ((Text.lines text).map blockLine ++ Text.cutLines s) := by
  have hfeed : ∀ line ∈ Text.lines text, '\n' ∉ margined line :=
    fun line hl => Params.not_mem_margined (Text.not_mem_of_mem_lines hl)
  have hbody := Text.cutLines_flatMap hfeed s
  have e : Params.literalBlock key text ++ s =
      keyLine key (blockHeader text) ++ '\n' :: ((Text.lines text).flatMap blockLine ++ s) := by
    unfold Params.literalBlock keyLine
    simp only [List.append_assoc, List.cons_append, List.nil_append]
  rw [e, Text.cutLines_append h]
  exact congrArg _ hbody

theorem mem_of_mem_body {text : List Char} {c : Char}
    (h : c ∈ (Text.lines text).flatMap blockLine) : c = ' ' ∨ c = '\n' ∨ c ∈ text := by
  obtain ⟨line, hl, h⟩ := List.mem_flatMap.1 h
  rw [Params.blockLine_eq, List.mem_append, List.mem_singleton] at h
  rcases h with h | h
  · unfold margined at h
    split at h
    · cases h
    · rcases List.mem_append.1 h with h | h
      · exact .inl (by simpa using h)
      · exact .inr (.inr (Text.subset_of_mem_lines hl h))
  · exact .inr (.inl h)

theorem nul_not_mem_literalBlock {key text : List Char}
    (h : '\x00' ∉ keyLine key (blockHeader text)) (ht : '\x00' ∉ text) :
    '\x00' ∉ Params.literalBlock key text := by
  intro hc
  rcases List.mem_append.1 hc with hc | hc
  · rcases List.mem_append.1 hc with hc | hc
    · exact h hc
    · cases List.mem_singleton.1 hc
  · rcases mem_of_mem_body hc with hc | hc | hc
    · cases hc
    · cases hc
    · exact ht hc

/-- A line that is indented by two ends a block that such a line opened. -/
theorem lineTokens_indented (number : Nat) {c : Char} (h : Text.isBlank c = false)
    (cs : List Char) :
    lineTokens number (some 2) (Text.cutLines (' ' :: ' ' :: c :: cs)) =
      lineTokens number none (Text.cutLines (' ' :: ' ' :: c :: cs)) := by
  have hfeed : c ≠ '\n' := by
    rintro rfl
    cases h
  have hspace : c ≠ ' ' := by
    rintro rfl
    cases h
  rw [Text.cutLines_cons_of_ne (by decide), Text.cutLines_cons_of_ne (by decide),
    Text.cutLines_cons_of_ne hfeed]
  refine lineTokens_of_not_carried number ?_ _
  rintro ⟨n, hn, hcont⟩
  cases hn
  rcases hcont with hblank | hindent
  · have hc := List.all_eq_true.1 hblank c (by simp)
    rw [h] at hc
    cases hc
  · unfold indentOf at hindent
    simp [hspace] at hindent

/-- Where a spelling is read as a key, the lexer reads a literal block under it line by line:
each line of the block is one literal, whatever it holds. Behind the block it reads a text that
is indented like the key as it reads the text by itself, and if that has a fault, the fault
names a line further down. -/
theorem tokenize_literalBlock {key text entry : String}
    (hkey : lexer.tokenize (String.ofList (keyLine key.toList (blockHeader text.toList))) =
      .ok (keyTokens key.toList (blockHeader text.toList)))
    (htext : '\x00' ∉ text.toList) (hentry : '\x00' ∉ entry.toList)
    (hfirst : ∃ c cs, entry.toList = ' ' :: ' ' :: c :: cs ∧ Text.isBlank c = false) :
    lexer.tokenize (String.ofList (Params.literalBlock key.toList text.toList) ++ entry) =
      ((lexer.tokenize entry).mapError
          (LexFault.below (1 + (Text.lines text.toList).length))).map
        (keyTokens key.toList (blockHeader text.toList) ++ [⟨.whitespace, "\n"⟩] ++
          (Text.lines text.toList).flatMap bodyTokens ++ ·) := by
  obtain ⟨hnul, -⟩ := groups_of_tokenize hkey
  rw [String.toList_ofList] at hnul
  have hall : '\x00' ∉
      (String.ofList (Params.literalBlock key.toList text.toList) ++ entry).toList := by
    rw [String.toList_append, String.toList_ofList, List.mem_append, not_or]
    exact ⟨nul_not_mem_literalBlock hnul htext, hentry⟩
  have hbody : ((Text.lines text.toList).map blockLine).flatMap (groupOf (some 2)) =
      (Text.lines text.toList).flatMap bodyTokens := by
    rw [List.flatMap_map]
    exact congrArg (List.flatMap · _) (funext groupOf_blockLine)
  obtain ⟨c, cs, e, hc⟩ := hfirst
  have hbehind := lineTokens_indented (1 + 1 + (Text.lines text.toList).length) hc cs
  rw [← e] at hbehind
  calc lexer.tokenize (String.ofList (Params.literalBlock key.toList text.toList) ++ entry)
      = lineTokens 1 none ((keyLine key.toList (blockHeader text.toList) ++ ['\n']) ::
          ((Text.lines text.toList).map blockLine ++ Text.cutLines entry.toList)) := by
        rw [lexer, tokenize_of_no_nul _ _ hall, String.toList_append, String.toList_ofList,
          cutLines_literalBlock (not_mem_keyLine hkey)]
    _ = (lineTokens (1 + 1 + (Text.lines text.toList).length) (some 2)
          (Text.cutLines entry.toList)).map
        (keyTokens key.toList (blockHeader text.toList) ++ [⟨.whitespace, "\n"⟩] ++
          (Text.lines text.toList).flatMap bodyTokens ++ ·) := by
        rw [lineTokens_keyLine hkey, lineTokens_carried, map_map_append, List.length_map, hbody]
        intro raw hraw
        obtain ⟨line, -, rfl⟩ := List.mem_map.1 hraw
        exact continues_blockLine line
    _ = _ := by
        rw [hbehind, Nat.add_assoc, lineTokens_add, lexer, tokenize_of_no_nul _ _ hentry]

/-- A block with a tab, a comment and a key in it, in front of a text with a fault of its own. -/
theorem tokenize_literalBlock_tab :
    let key := "text"
    let text := "make\n\tcc # a\n\n  a: |-"
    let entry := "  next: x\n\ty"
    lexer.tokenize (String.ofList (keyLine key.toList (blockHeader text.toList))) =
        .ok (keyTokens key.toList (blockHeader text.toList)) ∧
      '\x00' ∉ text.toList ∧ '\x00' ∉ entry.toList ∧
      (∃ c cs, entry.toList = ' ' :: ' ' :: c :: cs ∧ Text.isBlank c = false) ∧
      (Text.lines text.toList).flatMap bodyTokens =
        [⟨.literal, "    make"⟩, ⟨.whitespace, "\n"⟩, ⟨.literal, "    \tcc # a"⟩, ⟨.whitespace, "\n"⟩,
          ⟨.whitespace, "\n"⟩, ⟨.literal, "      a: |-"⟩, ⟨.whitespace, "\n"⟩] ∧
      lexer.tokenize (String.ofList (Params.literalBlock key.toList text.toList) ++ entry) =
        .error ⟨"yaml", .tabIndent 7⟩ := by
  intro key text entry
  have hkey : lexer.tokenize (String.ofList (keyLine key.toList (blockHeader text.toList))) =
      .ok (keyTokens key.toList (blockHeader text.toList)) := by decide +kernel
  have htext : '\x00' ∉ text.toList := by decide
  have hentry : '\x00' ∉ entry.toList := by decide
  have hfirst : ∃ c cs, entry.toList = ' ' :: ' ' :: c :: cs ∧ Text.isBlank c = false :=
    ⟨'n', "ext: x\n\ty".toList, by decide, rfl⟩
  have hown : lexer.tokenize entry = .error ⟨"yaml", .tabIndent 2⟩ := by decide +kernel
  refine ⟨hkey, htext, hentry, hfirst, by decide +kernel, ?_⟩
  have hlen : (Text.lines text.toList).length = 4 := by decide +kernel
  rw [tokenize_literalBlock hkey htext hentry hfirst, hown, hlen]
  rfl

end Yaml

end StepLog
