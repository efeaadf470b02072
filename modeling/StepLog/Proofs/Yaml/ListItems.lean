/-
  Block scalars under keys of list items.

  The owner of a block is the line that opened it, with the spaces in front of that line; a dash
  behind them counts for nothing. So a block under the first key of an item goes on with every line
  that is indented further than the dash, the other keys of the item included, and ends at the
  first line that is not (`lineTokens_block`). Main statement: `tokenize_listItem`.
-/
import StepLog.Proofs.Yaml.Keys
import StepLog.Proofs.Yaml.Parts

namespace StepLog.Yaml

/-! ## Keys of letters -/

/-- One letter or more, and nothing else. -/
def Letters (s : String) : Prop := s ≠ "" ∧ ∀ c ∈ s.toList, c.isAlpha = true

theorem Letters.not_mem {s : String} (h : Letters s) {c : Char} (hc : c.isAlpha = false) :
    c ∉ s.toList := by
  intro hmem
  rw [h.2 c hmem] at hc
  cases hc

theorem Letters.ne_nil {s : String} (h : Letters s) : s.toList ≠ [] :=
  fun hnil => h.1 (String.toList_inj.1 hnil)

theorem quiet_of_not_mem {s : List Char} (hcomment : '#' ∉ s) (hcolon : ':' ∉ s)
    (state : QuoteState) (before : Option Char) : Quiet state before s := by
  induction s generalizing state before with
  | nil => trivial
  | cons c cs ih =>
    rw [List.mem_cons, not_or] at hcomment hcolon
    refine ⟨fun _ => ⟨?_, ?_⟩, ih hcomment.2 hcolon.2 _ _⟩
    · exact fun h => hcomment.1 h.1.symm
    · exact fun h => hcolon.1 h.1.symm

theorem closed_of_not_mem {s : List Char} (hdouble : '"' ∉ s) (hsingle : '\'' ∉ s) : Closed s := by
  induction s with
  | nil => rfl
  | cons c cs ih =>
    rw [List.mem_cons, not_or] at hdouble hsingle
    have hother : ¬ (c = '"' ∨ c = '\'') := by
      rintro (rfl | rfl)
      · exact hdouble.1 rfl
      · exact hsingle.1 rfl
    show (QuoteState.outside.step c).after cs = .outside
    rw [QuoteState.step_outside_of_other hother]
    exact ih hdouble.2 hsingle.2

theorem Letters.keyShaped {s : String} (h : Letters s) : KeyShaped s.toList where
  quiet := quiet_of_not_mem (h.not_mem rfl) (h.not_mem rfl) _ _
  start c cs e := by
    have hc : c.isAlpha = true := h.2 c (e ▸ List.mem_cons_self)
    have hne : ∀ d : Char, d.isAlpha = false → c ≠ d := by
      rintro d hd rfl
      rw [hc] at hd
      cases hd
    refine ⟨?_, fun hdash => hne '-' rfl hdash.1⟩
    simp only [List.mem_cons, List.not_mem_nil, or_false, not_or]
    exact ⟨hne _ rfl, hne _ rfl, hne _ rfl, hne _ rfl, hne _ rfl, hne _ rfl, hne _ rfl⟩

/-! ## Blocks under any line -/

theorem not_carried_none (raw : List Char) : ¬ Carried none raw := by
  rintro ⟨n, hn, -⟩
  cases hn

/-- A block and its header in front of other lines. -/
theorem lineTokens_block (number : Nat) {header : List Char} {raws : List (List Char)}
    (htab : ¬ TabIndented header) (hopens : OpensBlock header)
    (hraws : ∀ raw ∈ raws, Continues (indentOf header) raw) (more : List (List Char)) :
    lineTokens number none (header :: (raws ++ more)) =
      (lineTokens (number + 1 + raws.length) (some (indentOf header)) more).map
        (groupOf none header ++ raws.flatMap (groupOf (some (indentOf header))) ++ ·) := by
  have hfault : ¬ FaultyFrom none (header :: (raws ++ more)) 0 := by
    rw [faultyFrom_zero]
    exact fun h => htab h.2
  have hnext : nextOwner none header = some (indentOf header) :=
    (nextOwner_eq_some (not_carried_none header) _).2 ⟨hopens, rfl⟩
  rw [lineTokens_cons number hfault, hnext, lineTokens_carried _ hraws, map_map_append]

/-- Lines behind a block that the first of them ends are read by themselves. -/
theorem lineTokens_behind (number : Nat) (owner : Nat) {raws : List (List Char)}
    (h : ∀ raw, raws.head? = some raw → ¬ Continues owner raw) :
    lineTokens (1 + number) (some owner) raws =
      (lineTokens 1 none raws).mapError (LexFault.below number) := by
  rw [← lineTokens_add]
  cases raws with
  | nil => rfl
  | cons raw raws =>
    refine lineTokens_of_not_carried _ ?_ raws
    rintro ⟨n, hn, hcontinues⟩
    cases hn
    exact h raw rfl hcontinues

/-! ## The line of the item -/

/-- A dash behind `n` spaces, and a key with the header of a block scalar. -/
def itemLine (n : Nat) (key : String) : List Char :=
  spaces n ++ '-' :: ' ' :: (key.toList ++ ": ".toList ++ "|-".toList)

/-- The tokens of the line. -/
def itemTokens (n : Nat) (key : String) : List Token :=
  Token.of? .whitespace (spaces n) ++ [⟨.delimiter, "-"⟩, ⟨.whitespace, " "⟩, ⟨.key, key⟩,
    ⟨.delimiter, ":"⟩, ⟨.whitespace, " "⟩, ⟨.delimiter, "|-"⟩]

theorem takeWhile_spaces (n : Nat) {c : Char} (hc : c ≠ ' ') (cs : List Char) :
    (spaces n ++ c :: cs).takeWhile (· = ' ') = spaces n ∧
      (spaces n ++ c :: cs).dropWhile (· = ' ') = c :: cs := by
  have hspaces : ∀ d ∈ spaces n, decide (d = ' ') = true :=
    fun d hd => decide_eq_true (List.eq_of_mem_replicate hd)
  rw [List.takeWhile_append_of_pos hspaces, List.dropWhile_append_of_pos hspaces,
    List.takeWhile_cons_of_neg (by simpa using hc), List.dropWhile_cons_of_neg (by simpa using hc)]
  exact ⟨List.append_nil _, rfl⟩

theorem indentOf_spaces (n : Nat) {c : Char} (hc : c ≠ ' ') (cs : List Char) :
    indentOf (spaces n ++ c :: cs) = n := by
  unfold indentOf
  rw [(takeWhile_spaces n hc cs).1]
  exact List.length_replicate

theorem ofChars_itemLine (n : Nat) (key : String) : Line.ofChars (itemLine n key ++ ['\n']) =
    ⟨spaces n, '-' :: ' ' :: (key.toList ++ ": ".toList ++ "|-".toList), ['\n']⟩ := by
  have hlast : (itemLine n key).getLast? ≠ some '\r' := by
    unfold itemLine
    rw [← List.cons_append, ← List.cons_append, ← List.append_assoc, List.getLast?_append]
    nofun
  have hdrop : Text.dropEndIf '\r' (itemLine n key) = itemLine n key := if_neg hlast
  obtain ⟨hindent, htext⟩ := takeWhile_spaces n (c := '-') (by decide)
    (' ' :: (key.toList ++ ": ".toList ++ "|-".toList))
  unfold Line.ofChars
  rw [splitEnding_lineFeed, if_neg hlast, hdrop]
  unfold itemLine
  dsimp only
  rw [hindent, htext]

theorem indentOf_itemLine (n : Nat) (key : String) : indentOf (itemLine n key ++ ['\n']) = n := by
  unfold itemLine
  rw [List.append_assoc]
  exact indentOf_spaces n (by decide) _

theorem not_tabIndented_itemLine (n : Nat) (key : String) :
    ¬ TabIndented (itemLine n key ++ ['\n']) := by
  rw [← text_ofChars_head?, ofChars_itemLine]
  nofun

section
variable {n : Nat} {key : String} (hkey : Letters key)
include hkey

/-- Behind the dash the key is found, and the header behind it. -/
theorem entryTokens_item : entryTokens (key.toList ++ ": ".toList ++ "|-".toList) =
    ⟨[⟨.key, key⟩, ⟨.delimiter, ":"⟩, ⟨.whitespace, " "⟩, ⟨.delimiter, "|-"⟩], true⟩ := by
  have hclosed : Closed key.toList := closed_of_not_mem (hkey.not_mem rfl) (hkey.not_mem rfl)
  have hfound := key?_of_closed hkey.keyShaped "|-".toList hkey.ne_nil hclosed
  unfold entryTokens
  rw [if_neg (head?_keyText hkey.keyShaped _), hfound]
  dsimp only
  rw [of?_of_ne_nil .key hkey.ne_nil, ofChars_toList]
  rfl

theorem tokens_itemLine (ending : List Char) :
    (Line.mk (spaces n) ('-' :: ' ' :: (key.toList ++ ": ".toList ++ "|-".toList)) ending).tokens =
      ⟨itemTokens n key, true⟩ := by
  have hmarker : ¬ ('-' :: ' ' :: (key.toList ++ ": ".toList ++ "|-".toList) = "---".toList ∨
      '-' :: ' ' :: (key.toList ++ ": ".toList ++ "|-".toList) = "...".toList) := by
    rintro (h | h)
    · cases h
    · cases h
  obtain ⟨c, cs, htext, hc, hdash⟩ := exists_keyText hkey.keyShaped "|-".toList
  have hspace : c ≠ ' ' := by
    rintro rfl
    exact hc List.mem_cons_self
  have hentry := entryTokens_item hkey
  rw [htext] at hmarker hentry ⊢
  have hdashes : dashes ('-' :: ' ' :: c :: cs) =
      ([⟨.delimiter, "-"⟩, ⟨.whitespace, " "⟩], c :: cs) := by
    have hrest : dashes (c :: cs) = ([], c :: cs) := by
      unfold dashes
      exact if_neg hdash
    unfold dashes
    rw [if_pos ⟨rfl, .inr rfl⟩, List.takeWhile_cons_of_pos rfl, List.dropWhile_cons_of_pos rfl,
      List.takeWhile_cons_of_neg (by simpa using hspace),
      List.dropWhile_cons_of_neg (by simpa using hspace), hrest]
    rfl
  unfold Line.tokens
  dsimp only
  rw [if_neg hmarker, hdashes, hentry, List.append_assoc]
  rfl

theorem groupOf_itemLine :
    groupOf none (itemLine n key ++ ['\n']) = itemTokens n key ++ [⟨.whitespace, "\n"⟩] := by
  unfold groupOf
  rw [ofChars_itemLine]
  dsimp only
  rw [tokens_itemLine hkey]
  rfl

theorem opensBlock_itemLine : OpensBlock (itemLine n key ++ ['\n']) := by
  unfold OpensBlock
  rw [← opensBlock_tokens, ofChars_itemLine, tokens_itemLine hkey]

end

/-! ## The item and what stands behind it -/

/-- A line of a block, indented further than `n`. -/
structure BodyLine (n : Nat) (line : String) : Prop where
  oneLine : '\n' ∉ line.toList
  noNul : '\x00' ∉ line.toList
  indented : n < indentOf line.toList

/-- The line of the item and the lines of the block, each with its line feed. -/
def itemText (n : Nat) (key : String) (body : List String) : String :=
  String.ofList (itemLine n key ++ ['\n'] ++ body.flatMap fun line => line.toList ++ ['\n'])

/-- The tokens of a line of the block: one literal and the ending. -/
def bodyLineTokens (line : String) : List Token :=
  [.ofChars .literal (Text.dropEndIf '\r' line.toList),
    ⟨.whitespace, if line.toList.getLast? = some '\r' then "\r\n" else "\n"⟩]

theorem indentOf_le_append (s t : List Char) : indentOf s ≤ indentOf (s ++ t) := by
  unfold indentOf
  rw [List.takeWhile_append]
  split
  · next h =>
    rw [List.length_append, h]
    exact Nat.le_add_right _ _
  · exact Nat.le_refl _

/-- Whatever ends the line, it goes on with the block. -/
theorem continues_bodyLine {n : Nat} {line : String} (h : BodyLine n line) (ending : List Char) :
    Continues n (line.toList ++ ending) :=
  .inr (Nat.lt_of_lt_of_le h.indented (indentOf_le_append _ _))

theorem exists_bodyLine_cons {n : Nat} {line : String} (h : BodyLine n line) :
    ∃ cs, line.toList = ' ' :: cs := by
  have hindent := h.indented
  unfold indentOf at hindent
  cases hline : line.toList with
  | nil =>
    rw [hline] at hindent
    cases hindent
  | cons c cs =>
    rw [hline, List.takeWhile_cons] at hindent
    split at hindent
    · next hc => exact ⟨cs, congrArg (· :: cs) (of_decide_eq_true hc)⟩
    · cases hindent

theorem groupOf_bodyLine {n : Nat} {line : String} (h : BodyLine n line) :
    groupOf (some n) (line.toList ++ ['\n']) = bodyLineTokens line := by
  obtain ⟨cs, hline⟩ := exists_bodyLine_cons h
  obtain ⟨rest, hdrop⟩ := Text.dropEndIf_cons (x := '\r') (c := ' ') (by decide) cs
  rw [groupOf_lineFeed (continues_bodyLine h _)]
  unfold literalTokens bodyLineTokens
  rw [hline, hdrop]
  rfl

theorem not_mem_itemLine (n : Nat) {key : String} (hkey : Letters key) {c : Char}
    (hletter : c.isAlpha = false) (hother : c ∉ [' ', '-', ':', '|']) : c ∉ itemLine n key := by
  simp only [List.mem_cons, List.not_mem_nil, or_false, not_or] at hother
  obtain ⟨hspace, hdash, hcolon, hbar⟩ := hother
  have hbehind : ∀ t, t = ": ".toList ∨ t = "|-".toList → c ∉ t := by
    rintro t (rfl | rfl)
    · exact List.not_mem_cons_of_ne_of_not_mem hcolon (mt List.mem_singleton.1 hspace)
    · exact List.not_mem_cons_of_ne_of_not_mem hbar (mt List.mem_singleton.1 hdash)
  unfold itemLine
  simp only [List.mem_append, List.mem_cons, not_or]
  exact ⟨not_mem_spaces hspace n, hdash, hspace, ⟨hkey.not_mem hletter, hbehind _ (.inl rfl)⟩,
    hbehind _ (.inr rfl)⟩

section
variable {n : Nat} {key : String} (hkey : Letters key) {body : List String}
  (hbody : ∀ line ∈ body, BodyLine n line)
include hkey hbody

theorem nul_not_mem_itemText : '\x00' ∉ (itemText n key body).toList := by
  have hline := not_mem_itemLine n hkey (c := '\x00') rfl (by decide)
  unfold itemText
  rw [String.toList_ofList]
  simp only [List.mem_append, List.mem_flatMap, not_or, not_exists, not_and]
  exact ⟨⟨hline, by decide⟩, fun line hmem => ⟨(hbody line hmem).noNul, by decide⟩⟩

theorem cutLines_itemText (rest : String) : Text.cutLines (itemText n key body ++ rest).toList =
    (itemLine n key ++ ['\n']) ::
      (body.map (fun line => line.toList ++ ['\n']) ++ Text.cutLines rest.toList) := by
  have hline := not_mem_itemLine n hkey (c := '\n') rfl (by decide)
  have hcut := Text.cutLines_flatMap (fun line hmem => (hbody line hmem).oneLine) rest.toList
  unfold itemText
  rw [String.toList_append, String.toList_ofList, ← hcut, ← Text.cutLines_append hline]
  simp only [List.append_assoc, List.cons_append, List.nil_append]

/-- The lexer behind the lines of the block. -/
theorem tokenize_itemText {rest : String} (hrest : '\x00' ∉ rest.toList) :
    lexer.tokenize (itemText n key body ++ rest) =
      (lineTokens (1 + (1 + body.length)) (some n) (Text.cutLines rest.toList)).map
        (itemTokens n key ++ [⟨.whitespace, "\n"⟩] ++ body.flatMap bodyLineTokens ++ ·) := by
  have hnul : '\x00' ∉ (itemText n key body ++ rest).toList := by
    rw [String.toList_append, List.mem_append, not_or]
    exact ⟨nul_not_mem_itemText hkey hbody, hrest⟩
  have hindent := indentOf_itemLine n key
  have hcontinues : ∀ raw ∈ body.map (fun line => line.toList ++ ['\n']),
      Continues (indentOf (itemLine n key ++ ['\n'])) raw := by
    intro raw hraw
    obtain ⟨line, hline, rfl⟩ := List.mem_map.1 hraw
    rw [hindent]
    exact continues_bodyLine (hbody line hline) _
  have hgroups : (body.map fun line => line.toList ++ ['\n']).flatMap (groupOf (some n)) =
      body.flatMap bodyLineTokens := by
    rw [List.flatMap_map]
    exact List.flatMap_congr fun line hline => groupOf_bodyLine (hbody line hline)
  rw [lexer, tokenize_of_no_nul _ _ hnul, cutLines_itemText hkey hbody,
    lineTokens_block 1 (not_tabIndented_itemLine n key) (opensBlock_itemLine hkey) hcontinues,
    hindent, hgroups, groupOf_itemLine hkey, List.length_map, Nat.add_assoc]

end

/-- A key at the column of the keys of the item, with its value. -/
def nextLine (n : Nat) (key value : String) : String :=
  String.ofList (spaces (n + 2)) ++ key ++ ": " ++ value

theorem toList_nextLine (n : Nat) (key value : String) : (nextLine n key value).toList =
    spaces (n + 2) ++ key.toList ++ ": ".toList ++ value.toList := by
  unfold nextLine
  rw [String.toList_append, String.toList_append, String.toList_append, String.toList_ofList]

/-- The line ends in a letter. -/
theorem getLast?_nextLine (n : Nat) (key : String) {value : String} (hvalue : Letters value)
    {c : Char} (hc : c.isAlpha = false) : (nextLine n key value).toList.getLast? ≠ some c := by
  rw [toList_nextLine, List.getLast?_append_of_ne_nil _ hvalue.ne_nil]
  exact fun hlast => hvalue.not_mem hc (List.mem_of_getLast? hlast)

theorem bodyLine_nextLine (n : Nat) {key value : String} (hkey : Letters key)
    (hvalue : Letters value) : BodyLine n (nextLine n key value) := by
  have hmem : ∀ c, c.isAlpha = false → c ∉ [' ', ':'] → c ∉ (nextLine n key value).toList := by
    intro c hletter hother
    rw [List.mem_cons, List.mem_singleton, not_or] at hother
    have hspaces := not_mem_spaces hother.1 (n + 2)
    have hcolon : c ∉ ": ".toList := by
      show c ∉ [':', ' ']
      rw [List.mem_cons, List.mem_singleton, not_or]
      exact hother.symm
    rw [toList_nextLine]
    simp only [List.mem_append, not_or]
    exact ⟨⟨⟨hspaces, hkey.not_mem hletter⟩, hcolon⟩, hvalue.not_mem hletter⟩
  refine ⟨hmem '\n' rfl (by decide), hmem '\x00' rfl (by decide), ?_⟩
  obtain ⟨c, cs, hchars⟩ := List.exists_cons_of_ne_nil hkey.ne_nil
  have hspace : c ≠ ' ' := by
    rintro rfl
    exact hkey.not_mem (c := ' ') rfl (hchars ▸ List.mem_cons_self)
  rw [toList_nextLine, hchars, List.append_assoc, List.append_assoc, List.cons_append,
    indentOf_spaces _ hspace]
  exact Nat.lt_add_of_pos_right (by decide)

/-- The next key of the item, read in the block. -/
theorem lineTokens_nextLine (number n : Nat) {key value ending : String} (hkey : Letters key)
    (hvalue : Letters value) (hending : ending = "" ∨ ending = "\n") :
    lineTokens number (some n) (Text.cutLines (nextLine n key value ++ ending).toList) =
      .ok (⟨.literal, nextLine n key value⟩ :: Token.of? .whitespace ending.toList) := by
  have hline := bodyLine_nextLine n hkey hvalue
  obtain ⟨cs, hchars⟩ := exists_bodyLine_cons hline
  have hne : (nextLine n key value).toList ≠ [] := hchars ▸ List.cons_ne_nil _ _
  have hcut : Text.cutLines (nextLine n key value ++ ending).toList =
      [(nextLine n key value).toList ++ ending.toList] := by
    rw [String.toList_append]
    rcases hending with rfl | rfl
    · show Text.cutLines ((nextLine n key value).toList ++ []) = _
      rw [List.append_nil, Text.cutLines_of_not_mem hline.oneLine hne]
      exact congrArg (fun l => [l]) (List.append_nil _).symm
    · exact Text.cutLines_append hline.oneLine []
  have hsplit : splitEnding ((nextLine n key value).toList ++ ending.toList) =
      ((nextLine n key value).toList, ending.toList) := by
    apply splitEnding_append (getLast?_nextLine n key hvalue rfl)
      (getLast?_nextLine n key hvalue rfl)
    rcases hending with rfl | rfl
    · exact .inl rfl
    · exact .inr rfl
  have hcarried := lineTokens_carried number
    (List.forall_mem_singleton.2 (continues_bodyLine hline ending.toList)) []
  rw [hcut, ← List.append_nil [_], hcarried, List.flatMap_singleton,
    groupOf_of_carried (continues_bodyLine hline _), hsplit, of?_of_ne_nil _ hne, ofChars_toList]
  exact congrArg Except.ok (List.append_nil _)

/-- A block scalar under the first key of a list item goes on with every line that is indented
further than the dash. It takes in the next key of the item, which stands two columns behind the
dash, as one more literal. The first line that is visible and indented no further than the dash
ends it, and from there on the text is read as it is by itself. -/
theorem tokenize_listItem (n : Nat) {key : String} (hkey : Letters key) {body : List String}
    (hbody : ∀ line ∈ body, BodyLine n line) :
    (∀ next value ending, Letters next → Letters value → ending = "" ∨ ending = "\n" →
      lexer.tokenize (itemText n key body ++ (nextLine n next value ++ ending)) =
        .ok (itemTokens n key ++ [⟨.whitespace, "\n"⟩] ++ body.flatMap bodyLineTokens ++
          ⟨.literal, nextLine n next value⟩ :: Token.of? .whitespace ending.toList)) ∧
    ∀ rest, '\x00' ∉ rest.toList →
      (∀ raw, (Text.cutLines rest.toList).head? = some raw →
        Text.allBlank raw = false ∧ indentOf raw ≤ n) →
      lexer.tokenize (itemText n key body ++ rest) =
        ((lexer.tokenize rest).mapError (LexFault.below (1 + body.length))).map
          (itemTokens n key ++ [⟨.whitespace, "\n"⟩] ++ body.flatMap bodyLineTokens ++ ·) := by
  refine ⟨fun next value ending hnext hvalue hending => ?_, fun rest hnul hfirst => ?_⟩
  · have hline := bodyLine_nextLine n hnext hvalue
    have hnul : '\x00' ∉ (nextLine n next value ++ ending).toList := by
      rw [String.toList_append, List.mem_append, not_or]
      rcases hending with rfl | rfl
      · exact ⟨hline.noNul, by decide⟩
      · exact ⟨hline.noNul, by decide⟩
    rw [tokenize_itemText hkey hbody hnul, lineTokens_nextLine _ n hnext hvalue hending]
    rfl
  · have hends : ∀ raw, (Text.cutLines rest.toList).head? = some raw → ¬ Continues n raw := by
      rintro raw hraw (hblank | hindent)
      · rw [(hfirst raw hraw).1] at hblank
        cases hblank
      · exact absurd hindent (Nat.not_lt.2 (hfirst raw hraw).2)
    rw [tokenize_itemText hkey hbody hnul, lineTokens_behind _ _ hends, lexer,
      tokenize_of_no_nul _ _ hnul]

/-- A line of the block holds a colon and one is blank behind its indentation. The next item is
read as it is by itself, and the next key is not. -/
theorem tokenize_listItem_mapping :
    Letters "name" ∧ (∀ line ∈ ["      a: b", "    \u2003"], BodyLine 2 line) ∧
      lexer.tokenize "  - name: |-\n      a: b\n    \u2003\n    kind: fast\n" =
        .ok (itemTokens 2 "name" ++ [⟨.whitespace, "\n"⟩, ⟨.literal, "      a: b"⟩,
          ⟨.whitespace, "\n"⟩, ⟨.literal, "    \u2003"⟩, ⟨.whitespace, "\n"⟩,
          ⟨.literal, "    kind: fast"⟩, ⟨.whitespace, "\n"⟩]) ∧
      lexer.tokenize "  - name: |-\n      a: b\n    \u2003\n  - x\n" =
        .ok (itemTokens 2 "name" ++ [⟨.whitespace, "\n"⟩, ⟨.literal, "      a: b"⟩,
          ⟨.whitespace, "\n"⟩, ⟨.literal, "    \u2003"⟩, ⟨.whitespace, "\n"⟩,
          ⟨.whitespace, "  "⟩, ⟨.delimiter, "-"⟩, ⟨.whitespace, " "⟩, ⟨.scalar, "x"⟩,
          ⟨.whitespace, "\n"⟩]) := by
  have hletters : ∀ s : String, s ≠ "" → s.toList.all Char.isAlpha = true → Letters s :=
    fun s hne hall => ⟨hne, List.all_eq_true.1 hall⟩
  have hname := hletters "name" (by decide) rfl
  have hbody : ∀ line ∈ ["      a: b", "    \u2003"], BodyLine 2 line := by
    intro line hline
    rcases List.mem_pair.1 hline with rfl | rfl
    · exact ⟨by decide, by decide, by decide⟩
    · exact ⟨by decide, by decide, by decide⟩
  obtain ⟨hkey, hitem⟩ := tokenize_listItem 2 hname hbody
  refine ⟨hname, hbody, ?_, ?_⟩
  · have hkind := hletters "kind" (by decide) rfl
    have hfast := hletters "fast" (by decide) rfl
    exact hkey "kind" "fast" "\n" hkind hfast (.inr rfl)
  · refine (hitem "  - x\n" (by decide) ?_).trans (by decide +kernel)
    rintro raw ⟨⟩
    exact ⟨by decide, by decide⟩

/-- The next key of a mapping, in a list of one mapping as it is written, is taken for a line of
the block. -/
theorem next_key_in_block :
    let text := "- k: |-\n    x\n    y\n  m: v\n"
    (Node.seq [.map [(.text "k", .text "x\ny"), (.text "m", .text "v")]]).document =
        text.toList ∧
      lexer.tokenize text =
        .ok [⟨.delimiter, "-"⟩, ⟨.whitespace, " "⟩, ⟨.key, "k"⟩, ⟨.delimiter, ":"⟩,
          ⟨.whitespace, " "⟩, ⟨.delimiter, "|-"⟩, ⟨.whitespace, "\n"⟩, ⟨.literal, "    x"⟩,
          ⟨.whitespace, "\n"⟩, ⟨.literal, "    y"⟩, ⟨.whitespace, "\n"⟩, ⟨.literal, "  m: v"⟩,
          ⟨.whitespace, "\n"⟩] :=
  ⟨by decide +kernel, by decide +kernel⟩

end StepLog.Yaml
