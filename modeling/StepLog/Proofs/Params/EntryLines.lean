/-
  The lines of entries that are texts.

  An entry whose text has one line begins with its key or with a question mark
  (`plainEntry_short`, `plainEntry_long`), and one whose text has several with its key and the
  header of a block (`cutLines_blockEntry`). All of its lines keep a margin of two spaces
  (`inset_textEntry`). The lines of a document are those of its entries one after the other
  (`cutLines_document`).
-/
import StepLog.Proofs.Params.Entries
import StepLog.Proofs.Yaml.Keys
import StepLog.Proofs.Yaml.Margins

namespace StepLog.Params

open Yaml (Closed Inset KeyShaped Unbroken unbroken_append styleOf spell keyLine)

/-! ## Spellings of names -/

theorem keySpelling_eq (name : String) : keySpelling name = Text.trimEnd (spell 2 name) := by
  show Text.trimEnd (Yaml.endLine (spell 2 name)) = _
  unfold Yaml.endLine
  split
  · rfl
  · exact Yaml.trimEnd_concat _ '\n'

section
variable {name : String} (h : '\n' ∉ name.toList)
include h

/-- A spelling in quotes ends in its quote. -/
theorem keySpelling_of_quoted (hs : styleOf name ≠ .plain) : keySpelling name = spell 2 name := by
  rw [keySpelling_eq, Yaml.trimEnd_spell_of_quoted 2 h hs]

theorem keyShaped_keySpelling : KeyShaped (keySpelling name) := by
  by_cases hs : styleOf name = .plain
  · rw [keySpelling_eq, Yaml.spell_of_plain hs]
    have hprefix : Text.trimEnd name.toList <+: name.toList := ⟨_, Yaml.trimEnd_append _⟩
    exact Yaml.keyShaped_of_plain hs hprefix
  · rw [keySpelling_of_quoted h hs]
    exact Yaml.keyShaped_spell 2 h

theorem closed_spell_iff :
    Closed (spell 2 name) ↔ (styleOf name = .plain → Closed name.toList) := by
  by_cases hs : styleOf name = .plain
  · rw [Yaml.spell_of_plain hs]
    exact ⟨fun hc _ => hc, fun hc => hc hs⟩
  · exact iff_of_true (Yaml.enclosed_spell 2 h hs).after fun hplain => absurd hplain hs

theorem closed_keySpelling_iff :
    Closed (keySpelling name) ↔ (styleOf name = .plain → Closed name.toList) := by
  rw [keySpelling_eq, Yaml.closed_trimEnd_iff, closed_spell_iff h]

theorem keySpelling_ne_nil_iff :
    keySpelling name ≠ [] ↔ (styleOf name = .plain → Text.allBlank name.toList = false) := by
  by_cases hs : styleOf name = .plain
  · rw [keySpelling_eq, Yaml.spell_of_plain hs, ne_eq, Yaml.trimEnd_eq_nil_iff, Bool.not_eq_true]
    exact ⟨fun hb _ => hb, fun hb => hb hs⟩
  · rw [keySpelling_of_quoted h hs]
    refine iff_of_true ?_ fun hplain => absurd hplain hs
    unfold spell
    split
    · next hplain => exact absurd hplain hs
    · exact List.cons_ne_nil _ _
    · exact List.cons_ne_nil _ _
    · exact List.cons_ne_nil _ _

end

theorem unbroken_keySpelling {name : String} (h : '\n' ∉ name.toList) :
    Unbroken (keySpelling name) := by
  have hspell := Yaml.unbroken_spell 2 h
  intro c hc
  refine hspell c ?_
  rw [keySpelling_eq] at hc
  rw [← Yaml.trimEnd_append (spell 2 name)]
  exact List.mem_append_left _ hc

/-! ## Entries of texts -/

/-- The lines of a parameter that is a text. -/
def textEntry (name text : String) : List Char :=
  if text.toList.contains '\n' then blockEntry name text.toList else plainEntry name (.text text)

theorem body_texts (texts : List (String × String)) :
    body (texts.map fun e => (e.1, .text e.2)) =
      .ok (texts.flatMap fun e => textEntry e.1 e.2) := by
  induction texts with
  | nil => rfl
  | cons e texts ih =>
    rw [List.map_cons, body, ih]
    rfl

/-- Lines that are written with their line feeds are read back. -/
theorem lines_flatMap {lines : List (List Char)} (h : ∀ line ∈ lines, Unbroken line) :
    Text.lines (lines.flatMap (· ++ ['\n'])) = lines := by
  induction lines with
  | nil => rfl
  | cons line lines ih =>
    obtain ⟨hline, hlines⟩ := List.forall_mem_cons.1 h
    have hfeed : '\n' ∉ line := fun hmem => (hline _ hmem).1 rfl
    have hreturn : line.getLast? ≠ some '\r' :=
      fun hlast => (hline _ (List.mem_of_getLast? hlast)).2 rfl
    have hdrop : Text.dropEndIf '\r' line = line := if_neg hreturn
    rw [List.flatMap_cons, List.append_assoc, List.singleton_append, Text.lines_cons hfeed, hdrop,
      ih hlines]

/-- The lines of a document are indented one by one. -/
theorem plainEntry_of_lines {name : String} {value : Yaml.Node} {lines : List (List Char)}
    (h : ∀ line ∈ lines, Unbroken line)
    (hdocument : (Yaml.Node.map [(.text name, value)]).document = lines.flatMap (· ++ ['\n'])) :
    plainEntry name value = lines.flatMap fun line => "  ".toList ++ line ++ ['\n'] := by
  unfold plainEntry
  rw [hdocument, lines_flatMap h]

section
variable {name text : String} (hname : '\n' ∉ name.toList) (htext : '\n' ∉ text.toList)
include hname htext

/-- A short name and a text of one line stand on one line. -/
theorem plainEntry_short (hbreak : name.toList.any Yaml.isBreak = false)
    (hlength : Text.byteLength name.toList ≤ 128) :
    plainEntry name (.text text) = keyLine (spell 2 name) (spell 2 text) ++ ['\n'] := by
  have hshort : (Yaml.Node.text name).isShortKey 0 = true := by
    unfold Yaml.Node.isShortKey
    rw [hbreak]
    simpa using hlength
  have hentries : Yaml.Node.entries 0 [(.text name, .text text)] =
      [spell 2 name ++ ": ".toList ++ spell 2 text] := by
    unfold Yaml.Node.entries
    rw [if_pos hshort, List.append_assoc]
    rfl
  have hlayout : (Yaml.Node.map [(.text name, .text text)]).layout .top =
      spell 2 name ++ ": ".toList ++ spell 2 text := by
    unfold Yaml.Node.layout
    show Yaml.stack 0 (Yaml.Node.entries 0 [(.text name, .text text)]) = _
    rw [hentries]
    rfl
  have hline : Unbroken (spell 2 name ++ ": ".toList ++ spell 2 text) :=
    unbroken_append.2 ⟨unbroken_append.2 ⟨Yaml.unbroken_spell 2 hname, Yaml.unbroken_of_all rfl⟩,
      Yaml.unbroken_spell 2 htext⟩
  rw [plainEntry_of_lines (List.forall_mem_singleton.2 hline), List.flatMap_singleton]
  · unfold keyLine
    simp only [List.append_assoc]
  · unfold Yaml.Node.document
    rw [hlayout, Yaml.endLine_spell _ 2 htext, List.flatMap_singleton]

/-- A name that does not fit in front of a colon stands on a line of its own. -/
theorem plainEntry_long (hbreak : name.toList.any Yaml.isBreak = true) :
    plainEntry name (.text text) =
      "  ? ".toList ++ spell 2 name ++ "\n  : ".toList ++ spell 2 text ++ ['\n'] := by
  have hlong : (Yaml.Node.text name).isShortKey 0 ≠ true := by
    unfold Yaml.Node.isShortKey
    rw [hbreak]
    exact Bool.false_ne_true
  have hentries : Yaml.Node.entries 0 [(.text name, .text text)] =
      ["? ".toList ++ spell 2 name, ": ".toList ++ spell 2 text] := by
    unfold Yaml.Node.entries
    rw [if_neg hlong]
    rfl
  have hlayout : (Yaml.Node.map [(.text name, .text text)]).layout .top =
      "? ".toList ++ spell 2 name ++ ['\n'] ++ (": ".toList ++ spell 2 text) := by
    unfold Yaml.Node.layout
    show Yaml.stack 0 (Yaml.Node.entries 0 [(.text name, .text text)]) = _
    rw [hentries]
    show Yaml.endLine _ ++ [] ++ _ = _
    rw [Yaml.endLine_spell _ 2 hname, List.append_nil]
    rfl
  have hfirst : Unbroken ("? ".toList ++ spell 2 name) :=
    unbroken_append.2 ⟨Yaml.unbroken_of_all rfl, Yaml.unbroken_spell 2 hname⟩
  have hsecond : Unbroken (": ".toList ++ spell 2 text) :=
    unbroken_append.2 ⟨Yaml.unbroken_of_all rfl, Yaml.unbroken_spell 2 htext⟩
  rw [plainEntry_of_lines (List.forall_mem_cons.2 ⟨hfirst, List.forall_mem_singleton.2 hsecond⟩),
    List.flatMap_cons, List.flatMap_singleton]
  · simp only [List.append_assoc]
    rfl
  · unfold Yaml.Node.document
    rw [hlayout, ← List.append_assoc, Yaml.endLine_spell _ 2 htext, List.flatMap_cons,
      List.flatMap_singleton]
    simp only [List.append_assoc]

end

/-! ## Lines of an entry -/

theorem unbroken_blockHead {name : String} (h : '\n' ∉ name.toList) (text : List Char) :
    Unbroken (keyLine (keySpelling name) (blockHeader text)) := by
  refine Yaml.unbroken_keyLine (unbroken_keySpelling h) ?_
  rcases Yaml.blockHeader_cases text with e | e
  · rw [e]
    exact Yaml.unbroken_of_all rfl
  · rw [e]
    exact Yaml.unbroken_of_all rfl

theorem cutLines_blockEntry {name : String} (h : '\n' ∉ name.toList) (text : List Char) :
    Text.cutLines (blockEntry name text) =
      (keyLine (keySpelling name) (blockHeader text) ++ ['\n']) ::
        (Text.lines text).map blockLine := by
  have hfeed : '\n' ∉ keyLine (keySpelling name) (blockHeader text) :=
    fun hmem => (unbroken_blockHead h text _ hmem).1 rfl
  have hcut := Yaml.cutLines_literalBlock hfeed []
  rw [List.append_nil] at hcut
  exact hcut.trans (congrArg _ (List.append_nil _))

theorem cutLines_plainEntry_short {name text : String} (hname : '\n' ∉ name.toList)
    (htext : '\n' ∉ text.toList) (hbreak : name.toList.any Yaml.isBreak = false)
    (hlength : Text.byteLength name.toList ≤ 128) :
    Text.cutLines (plainEntry name (.text text)) =
      [keyLine (spell 2 name) (spell 2 text) ++ ['\n']] := by
  have hline := Yaml.unbroken_keyLine (Yaml.unbroken_spell 2 hname) (Yaml.unbroken_spell 2 htext)
  rw [plainEntry_short hname htext hbreak hlength]
  exact Text.cutLines_append (fun hmem => (hline _ hmem).1 rfl) []

theorem cutLines_plainEntry_long {name text : String} (hname : '\n' ∉ name.toList)
    (htext : '\n' ∉ text.toList) (hbreak : name.toList.any Yaml.isBreak = true) : ∃ line rest,
      Text.cutLines (plainEntry name (.text text)) = (' ' :: ' ' :: '?' :: line) :: rest := by
  rw [plainEntry_long hname htext hbreak]
  simp only [List.append_assoc]
  show ∃ line lines, Text.cutLines (' ' :: ' ' :: '?' :: _) = _
  rw [Text.cutLines_cons_of_ne (by decide), Text.cutLines_cons_of_ne (by decide),
    Text.cutLines_cons_of_ne (by decide)]
  exact ⟨_, _, rfl⟩

/-- A line that goes on with something visible behind two spaces. -/
structure EntryLine (line : List Char) : Prop where
  indent : Yaml.indentOf line = 2
  visible : Text.allBlank line = false

theorem entryLine_of_mem {c d : Char} {rest : List Char} (hc : c ≠ ' ') (hd : d ∈ c :: rest)
    (hblank : Text.isBlank d = false) : EntryLine (' ' :: ' ' :: c :: rest) where
  indent := by
    unfold Yaml.indentOf
    simp [hc]
  visible := by
    refine Bool.eq_false_iff.2 fun hall => ?_
    have hd := List.all_eq_true.1 hall d (List.mem_cons_of_mem _ (List.mem_cons_of_mem _ hd))
    rw [hblank] at hd
    cases hd

theorem entryLine_keyLine {key : List Char} (hkey : KeyShaped key) (header : List Char) :
    EntryLine (keyLine key header ++ ['\n']) := by
  obtain ⟨c, cs, htext, hc, -⟩ := Yaml.exists_keyText hkey header
  have hline : keyLine key header ++ ['\n'] = ' ' :: ' ' :: c :: (cs ++ ['\n']) := by
    have hfront : keyLine key header = "  ".toList ++ (key ++ ": ".toList ++ header) := by
      unfold keyLine
      simp only [List.append_assoc]
    rw [hfront, htext]
    rfl
  have hspace : c ≠ ' ' := by
    rintro rfl
    exact hc List.mem_cons_self
  have hcolon : ':' ∈ c :: (cs ++ ['\n']) := by
    rw [← List.cons_append, ← htext]
    simp
  rw [hline]
  exact entryLine_of_mem hspace hcolon rfl

theorem inset_plainEntry (name : String) (value : Yaml.Node) : Inset (plainEntry name value) :=
  .flatMap fun _ hline =>
    Yaml.inset_line (Yaml.missing_of_not_mem (Text.not_mem_of_mem_lines hline))

theorem inset_blockLine {line : List Char} (h : '\n' ∉ line) : Inset (blockLine line) := by
  cases line with
  | nil => rfl
  | cons c cs =>
    have hmargined : '\n' ∉ "  ".toList ++ c :: cs := by
      rw [List.mem_append, not_or]
      exact ⟨by decide, h⟩
    exact Yaml.inset_line (Yaml.missing_of_not_mem hmargined)

/-- The name in front of a block keeps the margin, unless it has a line feed and a line break of
another kind. -/
theorem inset_blockEntry {name : String}
    (h : '\n' ∈ name.toList → ∀ c ∈ name.toList, Yaml.isBreak c = true → c = '\n')
    (text : List Char) : Inset (blockEntry name text) := by
  have hkey : Yaml.missing (some 0) (keySpelling name) = some 0 := by
    rw [keySpelling_eq]
    exact Yaml.missing_trimEnd (Yaml.missing_spell_ne h)
  have hbehind : '\n' ∉ ": ".toList ++ blockHeader text := by
    rw [List.mem_append, not_or]
    exact ⟨by decide, not_mem_blockHeader text⟩
  have hline : Yaml.missing (some 0) (keySpelling name ++ (": ".toList ++ blockHeader text)) =
      some 0 := by
    rw [Yaml.missing_append, hkey, Yaml.missing_of_not_mem hbehind]
  have hbody : Inset ((Text.lines text).flatMap blockLine) :=
    .flatMap fun _ hmem => inset_blockLine (Text.not_mem_of_mem_lines hmem)
  have hassoc : blockEntry name text = ("  ".toList ++ (keySpelling name ++
      (": ".toList ++ blockHeader text)) ++ ['\n']) ++ (Text.lines text).flatMap blockLine := by
    unfold blockEntry literalBlock
    simp only [List.append_assoc]
  rw [hassoc]
  exact (Yaml.inset_line hline).append hbody

theorem inset_textEntry {name text : String} (h : '\n' ∈ text.toList → '\n' ∈ name.toList →
    ∀ c ∈ name.toList, Yaml.isBreak c = true → c = '\n') : Inset (textEntry name text) := by
  unfold textEntry
  split
  · next htext => exact inset_blockEntry (h (List.contains_iff_mem.1 htext)) text.toList
  · exact inset_plainEntry name (.text text)

/-! ## Lines of a document -/

/-- Whole lines are cut apart from what stands behind them. -/
theorem cutLines_append_of_fresh {s : List Char} (h : Style.freshAfter true s = true)
    (t : List Char) : Text.cutLines (s ++ t) = Text.cutLines s ++ Text.cutLines t := by
  rcases List.eq_nil_or_concat' s with rfl | ⟨front, c, rfl⟩
  · rfl
  · have hlast : Style.freshAfter true (front ++ [c]) = (c == '\n') :=
      Style.freshAfter_append true front [c]
    obtain rfl : c = '\n' := beq_iff_eq.1 (hlast.symm.trans h)
    rw [← Text.cutLines_lineFeed_append, List.append_assoc]
    rfl

theorem cutLines_texts (texts : List (String × String)) :
    Text.cutLines (texts.flatMap fun e => textEntry e.1 e.2) =
      texts.flatMap fun e => Text.cutLines (textEntry e.1 e.2) := by
  induction texts with
  | nil => rfl
  | cons e texts ih =>
    have hentry : entry e.1 (.text e.2) = .ok (textEntry e.1 e.2) := rfl
    rw [List.flatMap_cons, cutLines_append_of_fresh (freshAfter_entry hentry), ih,
      List.flatMap_cons]

/-- The lines of a document are those of its entries, behind a line of its own. -/
theorem cutLines_document (texts : List (String × String)) :
    Text.cutLines ("with:\n".toList ++ texts.flatMap fun e => textEntry e.1 e.2) =
      "with:\n".toList :: texts.flatMap fun e => Text.cutLines (textEntry e.1 e.2) := by
  have hfeed : '\n' ∉ "with:".toList := by decide
  rw [← cutLines_texts]
  exact Text.cutLines_append hfeed _

theorem flatten_cutLines_texts (texts : List (String × String)) :
    (texts.flatMap fun e => Text.cutLines (textEntry e.1 e.2)).flatten =
      texts.flatMap fun e => textEntry e.1 e.2 := by
  rw [← cutLines_texts, Text.flatten_cutLines]

end StepLog.Params
