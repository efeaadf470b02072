/-
  Sections in YAML.

  A mapping of mappings of words is laid out with each entry on a line of its own
  (`document_sections`). The scanner finds the lexemes of the entries in such a text, with a start
  and an end around those of each mapping (`lexemes?_sections`), and the reader takes a mapping off
  the front of whatever follows (`reads_mapping`), however deep.
-/
import StepLog.Proofs.Yaml.Lexemes
import StepLog.Proofs.Yaml.Printable
import StepLog.Proofs.Text.Offsets

namespace StepLog.Yaml

/-! ## Layout -/

/-- A piece of text ends in a letter. -/
def EndsInLetter (s : List Char) : Prop := ∃ c ∈ s.getLast?, c.isAlpha = true

theorem endsInLetter_append (s : List Char) {t : List Char} (h : EndsInLetter t) :
    EndsInLetter (s ++ t) := by
  obtain ⟨c, hc, hletter⟩ := h
  refine ⟨c, ?_, hletter⟩
  rw [Option.mem_def] at hc ⊢
  rw [List.getLast?_append, hc]
  rfl

theorem endLine_of_letter {s : List Char} (h : EndsInLetter s) : endLine s = s ++ ['\n'] := by
  obtain ⟨c, hc, hletter⟩ := h
  unfold endLine
  rw [Option.mem_def.1 hc, Option.any_some, isBreak_letter hletter, if_neg Bool.false_ne_true]

/-- Pieces on lines of their own, indented. -/
def indentedLines (n : Nat) (pieces : List (List Char)) : List Char :=
  pieces.flatMap fun p => spaces n ++ p ++ ['\n']

theorem endsInLetter_stack {n : Nat} {pieces : List (List Char)}
    (h : ∀ p ∈ pieces, EndsInLetter p) (hne : pieces ≠ []) : EndsInLetter (stack n pieces) := by
  induction pieces with
  | nil => exact absurd rfl hne
  | cons p pieces ih =>
    rw [List.forall_mem_cons] at h
    cases pieces with
    | nil => exact h.1
    | cons next pieces => exact endsInLetter_append _ (ih h.2 (List.cons_ne_nil _ _))

theorem lines_stack {n : Nat} {pieces : List (List Char)}
    (h : ∀ p ∈ pieces, EndsInLetter p) (hne : pieces ≠ []) :
    spaces n ++ (stack n pieces ++ ['\n']) = indentedLines n pieces := by
  induction pieces with
  | nil => exact absurd rfl hne
  | cons p pieces ih =>
    rw [List.forall_mem_cons] at h
    unfold indentedLines at ih ⊢
    cases pieces with
    | nil =>
      rw [List.flatMap_singleton, List.append_assoc]
      rfl
    | cons next pieces =>
      show spaces n ++ (endLine p ++ spaces n ++ stack n (next :: pieces) ++ ['\n']) = _
      rw [List.flatMap_cons, ← ih h.2 (List.cons_ne_nil _ _), endLine_of_letter h.1]
      simp only [List.append_assoc]

/-! ## Words -/

theorem isShortKey_word {s : String} (h : Word s) : (Node.text s).isShortKey 0 = true := by
  have hbreak : s.toList.any isBreak = false := by
    rw [List.any_eq_false]
    intro c hc
    rw [isBreak_letter (h.letters.2 c hc)]
    exact Bool.false_ne_true
  have hbytes : Text.byteLength s.toList = s.toList.length :=
    Text.byteLength_eq_length fun c hc => Text.AsciiOnly.isAlpha c (h.letters.2 c hc)
  have hshort := h.short
  show (!s.toList.any isBreak && decide (0 + Text.byteLength s.toList ≤ 128)) = true
  rw [hbreak, hbytes, decide_eq_true (by omega)]
  rfl

theorem endsInLetter_word {s : String} (h : Word s) : EndsInLetter s.toList := by
  obtain ⟨c, hc⟩ := Option.isSome_iff_exists.1 (List.getLast?_isSome.2 h.letters.ne_nil)
  exact ⟨c, hc, h.letters.2 c (List.mem_of_getLast? hc)⟩

/-! ## Entries -/

/-- A field on one line. -/
def fieldText (f : String × String) : List Char := f.1.toList ++ ':' :: ' ' :: f.2.toList

/-- The lines of a section. -/
def sectionText (s : String × List (String × String)) : List Char :=
  s.1.toList ++ ':' :: '\n' :: indentedLines 2 (s.2.map fieldText)

/-- Sections as a value: a mapping of mappings of texts. -/
def sectionsNode (sections : Sections) : Node :=
  .map (sections.map fun s => (.text s.1, .map (s.2.map fun f => (.text f.1, .text f.2))))

theorem endsInLetter_fieldText {f : String × String} (h : Word f.2) :
    EndsInLetter (fieldText f) := by
  show EndsInLetter (f.1.toList ++ ([':', ' '] ++ f.2.toList))
  exact endsInLetter_append _ (endsInLetter_append _ (endsInLetter_word h))

/-- The layout of a word: behind a space, as it is. -/
theorem layout_word {s : String} (h : Word s) (n : Nat) (fresh inMap : Bool) :
    (Node.text s).layout ⟨some n, fresh, inMap⟩ = ' ' :: s.toList := by
  have hgap : Place.gap ⟨some n, fresh, inMap⟩ = [' '] := by
    cases fresh <;> rfl
  show Place.gap ⟨some n, fresh, inMap⟩ ++ spell _ s = _
  rw [hgap, spell_of_plain h.plain]
  rfl

/-- An entry under a word is one piece. -/
theorem entries_cons {key : String} (hkey : Word key) (n : Nat) (v : Node)
    (es : List (Node × Node)) :
    Node.entries n ((.text key, v) :: es) =
      (key.toList ++ ':' :: v.layout ⟨some n, false, true⟩) :: Node.entries n es := by
  rw [Node.entries, if_pos (isShortKey_word hkey), layout_word hkey]
  rfl

theorem entries_fields {fields : List (String × String)} (h : ∀ f ∈ fields, Word f.1 ∧ Word f.2)
    (n : Nat) :
    Node.entries n (fields.map fun f => (.text f.1, .text f.2)) = fields.map fieldText := by
  induction fields with
  | nil => rfl
  | cons f fields ih =>
    rw [List.forall_mem_cons] at h
    rw [List.map_cons, entries_cons h.1.1, layout_word h.1.2, ih h.2]
    rfl

/-- A section without the end of its last line. -/
def sectionPiece (s : String × List (String × String)) : List Char :=
  s.1.toList ++ ':' :: '\n' :: (spaces 2 ++ stack 2 (s.2.map fieldText))

theorem layout_fields {fields : List (String × String)} (h : ∀ f ∈ fields, Word f.1 ∧ Word f.2)
    (hne : fields ≠ []) :
    (Node.map (fields.map fun f => (.text f.1, .text f.2))).layout ⟨some 0, false, true⟩ =
      '\n' :: (spaces 2 ++ stack 2 (fields.map fieldText)) := by
  rw [← entries_fields h 2]
  obtain ⟨f, fields, rfl⟩ := List.exists_cons_of_ne_nil hne
  rfl

theorem entries_sections {sections : Sections} (h : WordSections sections) :
    Node.entries 0 (sections.map fun s =>
      (.text s.1, .map (s.2.map fun f => (.text f.1, .text f.2)))) =
        sections.map sectionPiece := by
  induction sections with
  | nil => rfl
  | cons s sections ih =>
    have hfields := h.fields s List.mem_cons_self
    rw [List.map_cons, entries_cons (h.names s List.mem_cons_self),
      layout_fields hfields.words (h.nonempty s List.mem_cons_self), ih h.tail]
    rfl

theorem endsInLetter_fields {fields : List (String × String)} (h : WordFields fields) :
    ∀ p ∈ fields.map fieldText, EndsInLetter p := by
  intro p hp
  obtain ⟨f, hf, rfl⟩ := List.mem_map.1 hp
  exact endsInLetter_fieldText (h.words f hf).2

theorem endsInLetter_sectionPiece {s : String × List (String × String)} (h : WordFields s.2)
    (hne : s.2 ≠ []) : EndsInLetter (sectionPiece s) := by
  have hstack := endsInLetter_stack (n := 2) (endsInLetter_fields h) (mt List.map_eq_nil_iff.1 hne)
  show EndsInLetter (s.1.toList ++ ([':', '\n', ' ', ' '] ++ stack 2 (s.2.map fieldText)))
  exact endsInLetter_append _ (endsInLetter_append _ hstack)

theorem document_sections {sections : Sections} (h : WordSections sections) (hne : sections ≠ []) :
    (sectionsNode sections).document = sections.flatMap sectionText := by
  have hpieces : ∀ p ∈ sections.map sectionPiece, EndsInLetter p := by
    intro p hp
    obtain ⟨s, hs, rfl⟩ := List.mem_map.1 hp
    exact endsInLetter_sectionPiece (h.fields s hs) (h.nonempty s hs)
  have hlayout : (sectionsNode sections).layout .top = stack 0 (sections.map sectionPiece) := by
    rw [← entries_sections h]
    obtain ⟨s, sections, rfl⟩ := List.exists_cons_of_ne_nil hne
    rfl
  have hlines : ∀ s ∈ sections, sectionPiece s ++ ['\n'] = sectionText s := by
    intro s hs
    have hfields := lines_stack (n := 2) (endsInLetter_fields (h.fields s hs))
      (mt List.map_eq_nil_iff.1 (h.nonempty s hs))
    unfold sectionPiece sectionText
    rw [← hfields]
    simp only [List.append_assoc, List.cons_append]
  unfold Node.document
  rw [hlayout, endLine_of_letter (endsInLetter_stack hpieces (mt List.map_eq_nil_iff.1 hne))]
  show spaces 0 ++ (stack 0 (sections.map sectionPiece) ++ ['\n']) = _
  rw [lines_stack hpieces (mt List.map_eq_nil_iff.1 hne)]
  unfold indentedLines
  rw [List.flatMap_map]
  exact List.flatMap_congr hlines

/-! ## Lexemes -/

/-- The lexemes of an entry under a word. -/
def entryLexemes (name : String) (value : List Lexeme) : List Lexeme :=
  .key :: .scalar true name.toList :: .value :: value

/-- The lexemes of a mapping with these lexemes of its entries. -/
def mappingLexemes (entries : List Lexeme) : List Lexeme :=
  .blockMappingStart :: (entries ++ [.blockEnd])

def fieldLexemes (f : String × String) : List Lexeme :=
  entryLexemes f.1 [.scalar true f.2.toList]

def sectionLexemes (s : String × List (String × String)) : List Lexeme :=
  entryLexemes s.1 (mappingLexemes (s.2.flatMap fieldLexemes))

theorem bare_word {word : String} (h : Word word) (rest : List Char) :
    Bare (word.toList ++ rest) := by
  obtain ⟨d, ds, hletters, hd⟩ := h.letters.exists_letter
  rw [hletters]
  exact bare_letter hd _

namespace Scan

/-- The fields of a section, up to what stands further out. -/
theorem goes_fields {f : String × String} {fields : List (String × String)}
    (h : ∀ g ∈ f :: fields, Word g.1 ∧ Word g.2) {rest : List Char} (hrest : Bare rest)
    {indents : List Int} {lexemes all : List Lexeme}
    (hbehind :
      Goes 0 2 indents (((f :: fields).flatMap fieldLexemes).reverse ++ lexemes) rest all) :
    Goes 2 2 indents lexemes
      (fieldText f ++ '\n' :: (indentedLines 2 (fields.map fieldText) ++ rest)) all := by
  -- The value of a field is read up to the next field, or up to the rest behind the last one; the
  -- column there is that of the next field or less.
  induction fields generalizing f lexemes with
  | nil =>
    have hf := h f List.mem_cons_self
    unfold fieldText
    rw [List.append_assoc]
    exact goes_entry hf.1 hf.2 hrest (Nat.zero_le 2) hbehind
  | cons g fields ih =>
    obtain ⟨hf, hfields⟩ := List.forall_mem_cons.1 h
    have hothers : Goes 2 2 indents ((fieldLexemes f).reverse ++ lexemes)
        (fieldText g ++ '\n' :: (indentedLines 2 (fields.map fieldText) ++ rest)) all := by
      refine ih hfields ?_
      rw [List.flatMap_cons, List.reverse_append, List.append_assoc] at hbehind
      exact hbehind
    have hbare : Bare
        (fieldText g ++ '\n' :: (indentedLines 2 (fields.map fieldText) ++ rest)) := by
      unfold fieldText
      rw [List.append_assoc]
      exact bare_word (hfields g List.mem_cons_self).1 _
    have hlines : indentedLines 2 ((g :: fields).map fieldText) ++ rest = spaces 2 ++
        (fieldText g ++ '\n' :: (indentedLines 2 (fields.map fieldText) ++ rest)) := by
      unfold indentedLines
      rw [List.map_cons, List.flatMap_cons]
      simp only [List.append_assoc, List.cons_append, List.nil_append]
    rw [hlines]
    unfold fieldText
    rw [List.append_assoc]
    exact goes_entry hf.1 hf.2 hbare (le_refl 2) hothers

/-- A section of the outermost mapping. -/
theorem goes_section {s : String × List (String × String)} (hname : Word s.1)
    (hfields : WordFields s.2) (hne : s.2 ≠ []) {rest : List Char} (hrest : Bare rest)
    {lexemes all : List Lexeme}
    (hbehind : Goes 0 0 [-1] ((sectionLexemes s).reverse ++ lexemes) rest all) :
    Goes 0 0 [-1] lexemes (sectionText s ++ rest) all := by
  obtain ⟨name, fields⟩ := s
  obtain ⟨f, fields, rfl⟩ := List.exists_cons_of_ne_nil hne
  have hf := hfields.words f List.mem_cons_self
  have hend : Goes 0 2 [0, -1] (((f :: fields).flatMap fieldLexemes).reverse ++
      .blockMappingStart :: keyed name lexemes) rest all := by
    refine goes_back hrest (by decide) (by decide) ?_
    unfold sectionLexemes mappingLexemes entryLexemes at hbehind
    simp only [List.reverse_cons, List.reverse_append, List.append_assoc, List.cons_append,
      List.nil_append, List.reverse_nil] at hbehind
    exact hbehind
  have hinside := goes_fields hfields.words hrest hend
  unfold fieldText at hinside
  rw [List.append_assoc, List.cons_append, List.cons_append] at hinside
  have hopened := goes_in hf.1 rfl (show (0 : Int) < (2 : Nat) by decide) hinside
  have htext : sectionText (name, f :: fields) ++ rest = name.toList ++ ':' :: '\n' :: (spaces 2 ++
      (f.1.toList ++ ':' :: ' ' :: (f.2.toList ++ '\n' ::
        (indentedLines 2 (fields.map fieldText) ++ rest)))) := by
    unfold sectionText indentedLines fieldText
    rw [List.map_cons, List.flatMap_cons]
    simp only [List.append_assoc, List.cons_append, List.nil_append]
  rw [htext]
  exact goes_heading hname (bare_word hf.1 _) hopened

theorem goes_sections {sections : Sections} (h : WordSections sections) (lexemes : List Lexeme) :
    Goes 0 0 [-1] lexemes (sections.flatMap sectionText)
      (lexemes.reverse ++ (sections.flatMap sectionLexemes ++ [.blockEnd])) := by
  induction sections generalizing lexemes with
  | nil =>
    have hend : Goes 0 0 [-1] lexemes [] (Lexeme.blockEnd :: lexemes).reverse := goes_nil 0
    rw [List.reverse_cons] at hend
    exact hend
  | cons s sections ih =>
    have hbare : Bare (sections.flatMap sectionText) := by
      cases sections with
      | nil => exact bare_nil
      | cons next sections =>
        unfold sectionText
        rw [List.flatMap_cons, List.append_assoc]
        exact bare_word (h.tail.names next List.mem_cons_self) _
    have hothers := ih h.tail ((sectionLexemes s).reverse ++ lexemes)
    rw [List.reverse_append, List.reverse_reverse, List.append_assoc, ← List.append_assoc
      (sectionLexemes s), ← List.flatMap_cons] at hothers
    rw [List.flatMap_cons]
    exact goes_section (h.names s List.mem_cons_self) (h.fields s List.mem_cons_self)
      (h.nonempty s List.mem_cons_self) hbare hothers

end Scan

theorem isAllowed_of_isPrintable {c : Char} (h : isPrintable c = true) : isAllowed c = true := by
  unfold isPrintable at h
  unfold isAllowed
  dsimp only at h ⊢
  simp only [Bool.or_eq_true, Bool.and_eq_true, decide_eq_true_eq, beq_iff_eq, bne_iff_ne] at h ⊢
  omega

theorem lexemes?_sections {sections : Sections} (h : WordSections sections) (hne : sections ≠ []) :
    lexemes? (sections.flatMap sectionText) =
      some (mappingLexemes (sections.flatMap sectionLexemes)) := by
  have hallowed : (sections.flatMap sectionText).all isAllowed = true := by
    rw [← document_sections h hne, List.all_eq_true]
    exact fun c hc => isAllowed_of_isPrintable (printable_document _ c hc)
  have hgoes : Scan.Goes 0 (-1) [] [] (sections.flatMap sectionText)
      (mappingLexemes (sections.flatMap sectionLexemes)) := by
    have hopened := Scan.goes_sections h [.blockMappingStart]
    obtain ⟨s, sections, rfl⟩ := List.exists_cons_of_ne_nil hne
    unfold sectionText at hopened ⊢
    rw [List.flatMap_cons, List.append_assoc, List.cons_append] at hopened ⊢
    exact Scan.goes_in (h.names s List.mem_cons_self) rfl (by decide) hopened
  unfold lexemes?
  rw [if_pos hallowed]
  exact hgoes (.start _) rfl rfl _ (by omega)

/-! ## Contents -/

/-- Lexemes read as a value, whatever stands behind them. They do not start like what ends a
value that is missing. -/
structure Reads (ls : List Lexeme) (v : Content) : Prop where
  starts : ∃ l more, ls = l :: more ∧ Reader.endsBlockValue l = false
  node : ∀ {r : Reader} {rest : List Lexeme}, r.lexemes = ls ++ rest →
    ∀ {fuel : Nat}, 2 * ls.length ≤ fuel → ∀ loose, r.node fuel true loose = some (v, r.rest rest)

namespace Reader

theorem node_scalar {r : Reader} {text : List Char} {rest : List Lexeme}
    (h : r.lexemes = .scalar true text :: rest) (fuel : Nat) (block loose : Bool) :
    r.node (fuel + 2) block loose = some (.scalar none true (String.ofList text), r.rest rest) := by
  obtain ⟨lexemes, handles, names, begun, anchored⟩ := r
  cases h
  rfl

theorem node_mapping {r : Reader} {rest : List Lexeme} (h : r.lexemes = .blockMappingStart :: rest)
    (fuel : Nat) (loose : Bool) :
    r.node (fuel + 2) true loose =
      (blockEntries fuel (r.rest rest)).map fun p => (.map none p.1, p.2) := by
  obtain ⟨lexemes, handles, names, begun, anchored⟩ := r
  cases h
  rfl

end Reader

theorem reads_word (text : String) :
    Reads [.scalar true text.toList] (.scalar none true text) where
  starts := ⟨_, _, rfl, rfl⟩
  node {r rest} h fuel hfuel loose := by
    obtain ⟨fuel, rfl⟩ := Nat.exists_eq_add_of_le' (show 2 ≤ fuel by simp at hfuel; omega)
    rw [Reader.node_scalar (show r.lexemes = .scalar true text.toList :: rest from h),
      String.ofList_toList]

/-- A value that is there is not taken for one that is missing. -/
theorem Reads.optional {ls : List Lexeme} {v : Content} (h : Reads ls v) {r : Reader}
    {rest : List Lexeme} (hr : r.lexemes = ls ++ rest) {fuel : Nat} (hfuel : 2 * ls.length ≤ fuel)
    (loose : Bool) :
    r.optional (fuel + 1) true loose Reader.endsBlockValue = some (v, r.rest rest) := by
  obtain ⟨l, more, hls, hl⟩ := h.starts
  have hnext : r.nextIs Reader.endsBlockValue = false := by
    unfold Reader.nextIs
    rw [hr, hls]
    exact hl
  unfold Reader.optional
  rw [hnext, if_neg Bool.false_ne_true, h.node hr hfuel]

/-- An entry under a word: its name, and its value as lexemes and as read. -/
structure WordEntry where
  name : String
  lexemes : List Lexeme
  content : Content

def WordEntry.read (e : WordEntry) : Content × Content := (.scalar none true e.name, e.content)

/-- The lexemes of entries one after the other. -/
def entriesLexemes (es : List WordEntry) : List Lexeme :=
  es.flatMap fun e => entryLexemes e.name e.lexemes

theorem blockEntries_words {es : List WordEntry} (h : ∀ e ∈ es, Reads e.lexemes e.content)
    {r : Reader} {rest : List Lexeme} (hr : r.lexemes = entriesLexemes es ++ .blockEnd :: rest)
    {fuel : Nat} (hfuel : 2 * (entriesLexemes es).length < fuel) :
    r.blockEntries fuel = some (es.map WordEntry.read, r.rest rest) := by
  induction es generalizing r fuel with
  | nil =>
    obtain ⟨fuel, rfl⟩ := Nat.exists_eq_add_of_le' (show 1 ≤ fuel by omega)
    obtain ⟨lexemes, handles, names, begun, anchored⟩ := r
    cases hr
    rfl
  | cons e es ih =>
    rw [List.forall_mem_cons] at h
    have hlexemes : entriesLexemes (e :: es) = .key :: ([.scalar true e.name.toList] ++
        .value :: (e.lexemes ++ entriesLexemes es)) := rfl
    rw [hlexemes] at hr hfuel
    simp only [List.length_cons, List.length_append, List.length_nil] at hfuel
    -- The three lexemes in front of a value pay for the calls between the entry and the value.
    obtain ⟨fuel, rfl⟩ := Nat.exists_eq_add_of_le' (show 4 ≤ fuel by omega)
    simp only [List.cons_append, List.append_assoc] at hr
    let others : List Lexeme := entriesLexemes es ++ .blockEnd :: rest
    let value : List Lexeme := e.lexemes ++ others
    let key : List Lexeme := [.scalar true e.name.toList] ++ .value :: value
    have hkey : (r.rest key).optional (fuel + 3) true true Reader.endsBlockValue =
        some (.scalar none true e.name, r.rest (.value :: value)) :=
      (reads_word e.name).optional (r := r.rest key) rfl (by simp) true
    have hvalue : (r.rest (.value :: value)).valueOf (fuel + 3) true true Reader.endsBlockValue =
        some (e.content, r.rest others) :=
      h.1.optional (r := r.rest value) rfl (by omega) true
    have hothers : (r.rest others).blockEntries (fuel + 3) =
        some (es.map WordEntry.read, r.rest rest) :=
      ih h.2 rfl (by omega)
    unfold Reader.blockEntries
    rw [hr]
    show ((r.rest key).optional (fuel + 3) true true Reader.endsBlockValue).bind _ = _
    rw [hkey, Option.bind_some]
    show ((r.rest (.value :: value)).valueOf (fuel + 3) true true Reader.endsBlockValue).bind _ = _
    rw [hvalue, Option.bind_some]
    show ((r.rest others).blockEntries (fuel + 3)).bind _ = _
    rw [hothers]
    rfl

/-- A mapping of entries that read as they should. -/
theorem reads_mapping {es : List WordEntry} (h : ∀ e ∈ es, Reads e.lexemes e.content) :
    Reads (mappingLexemes (entriesLexemes es)) (.map none (es.map WordEntry.read)) where
  starts := ⟨_, _, rfl, rfl⟩
  node {r rest} hr fuel hfuel loose := by
    simp only [mappingLexemes, List.length_cons, List.length_append, List.length_nil] at hfuel
    obtain ⟨fuel, rfl⟩ := Nat.exists_eq_add_of_le' (show 2 ≤ fuel by omega)
    have hentries : r.lexemes = .blockMappingStart :: (entriesLexemes es ++ .blockEnd :: rest) := by
      rw [hr, mappingLexemes, List.cons_append, List.append_assoc]
      rfl
    rw [Reader.node_mapping hentries, blockEntries_words h rfl (by omega)]
    rfl

/-- A text of a mapping is a document without anchors. -/
theorem read?_mapping {s : List Char} {es : List WordEntry}
    (hlexemes : lexemes? s = some (mappingLexemes (entriesLexemes es)))
    (h : ∀ e ∈ es, Reads e.lexemes e.content) :
    Document.read? s = some ⟨some (.map none (es.map WordEntry.read)), []⟩ := by
  let r : Reader := ⟨mappingLexemes (entriesLexemes es), standardHandles, [], 0, []⟩
  have hnode := (reads_mapping h).node (r := r) (List.append_nil _).symm
    (show 2 * (mappingLexemes (entriesLexemes es)).length ≤
      5 * (mappingLexemes (entriesLexemes es)).length + 5 by omega) false
  unfold Document.read?
  rw [hlexemes]
  show Document.ofLexemes [] false (mappingLexemes (entriesLexemes es)) = _
  unfold Document.ofLexemes
  show (r.node _ true false).bind _ = _
  rw [hnode]
  rfl

/-! ## Reading back -/

/-- A mapping of named values. -/
def record {β : Type} (value : β → Content) (fields : List (String × β)) : Content :=
  .map none (fields.map fun f => (.scalar none true f.1, value f.2))

def fieldsContent (fields : List (String × String)) : Content :=
  record (.scalar none true) fields

def fieldEntry (f : String × String) : WordEntry :=
  ⟨f.1, [.scalar true f.2.toList], .scalar none true f.2⟩

def sectionEntry (s : String × List (String × String)) : WordEntry :=
  ⟨s.1, mappingLexemes (s.2.flatMap fieldLexemes), fieldsContent s.2⟩

theorem reads_fields (fields : List (String × String)) :
    Reads (mappingLexemes (fields.flatMap fieldLexemes)) (fieldsContent fields) := by
  have hwords : ∀ e ∈ fields.map fieldEntry, Reads e.lexemes e.content := by
    intro e he
    obtain ⟨f, -, rfl⟩ := List.mem_map.1 he
    exact reads_word f.2
  have hreads := reads_mapping hwords
  unfold entriesLexemes at hreads
  rw [List.flatMap_map, List.map_map] at hreads
  exact hreads

theorem read?_sections {sections : Sections} (h : WordSections sections) (hne : sections ≠ []) :
    Document.read? (sectionsNode sections).document =
      some ⟨some (record fieldsContent sections), []⟩ := by
  have hfields : ∀ e ∈ sections.map sectionEntry, Reads e.lexemes e.content := by
    intro e he
    obtain ⟨s, -, rfl⟩ := List.mem_map.1 he
    exact reads_fields s.2
  have hlexemes : lexemes? (sectionsNode sections).document =
      some (mappingLexemes (entriesLexemes (sections.map sectionEntry))) := by
    unfold entriesLexemes
    rw [document_sections h hne, List.flatMap_map]
    exact lexemes?_sections h hne
  have hread := read?_mapping hlexemes hfields
  rw [List.map_map] at hread
  exact hread

theorem isRecord_record (d : Document) {β : Type} {isField : Content → β → Prop}
    (value : β → Content) (hvalue : ∀ v, isField (value v) v) (fields : List (String × β)) :
    d.reading.IsRecord isField (record value fields) fields := by
  refine d.reading.isRecord_of_fields? value (fun arity => ?_) hvalue
  show (allNamed _).map Fields.named = _
  rw [List.map_map]
  exact congrArg (Option.map Fields.named) (allNamed_map value fields)

theorem gives_sections (d : Document) (sections : Sections) :
    d.reading.Gives (record fieldsContent sections) sections :=
  isRecord_record d fieldsContent (isRecord_record d _ fun _ => rfl) sections

end StepLog.Yaml

namespace StepLog

/-- A configuration that is written in YAML is read back. -/
theorem read?_document (c : Config) :
    Format.yaml.read? (String.ofList c.toNode.document) = some c := by
  have hread := Yaml.read?_sections c.wordSections (List.cons_ne_nil _ _)
  unfold Format.read?
  dsimp only
  rw [String.toList_ofList]
  show (Yaml.Document.read? (Yaml.sectionsNode c.sections).document).bind _ = _
  rw [hread]
  exact Reading.config_of_gives _ (Yaml.gives_sections _ c.sections)

end StepLog
