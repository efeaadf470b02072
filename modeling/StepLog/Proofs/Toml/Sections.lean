/-
  Sections in TOML.

  A document is read line by line, each of which changes the tables that there are so far
  (`ReadsTo`). A header starts an empty table at the end (`enter_new`), and a line with a key adds
  to the table at the end (`assign_last`); so the lines of a section leave its table behind the
  ones before it (`readsTo_section`), and the lines of all sections leave all tables.
-/
import StepLog.Proofs.Config.Sections

namespace StepLog.Toml

open Yaml (Letters)

/-! ## Keys and strings -/

theorem isBareChar_of_isAlpha {c : Char} (h : c.isAlpha = true) : isBareChar c = true := by
  unfold isBareChar Char.isAlphanum
  rw [h]
  rfl

theorem skipBlank_letter {c : Char} (h : c.isAlpha = true) (s : List Char) :
    skipBlank (c :: s) = c :: s := by
  have hblank : ¬ isBlank c = true := by
    unfold isBlank
    rw [decide_eq_false (ne_of_isAlpha h rfl), decide_eq_false (ne_of_isAlpha h rfl)]
    exact Bool.false_ne_true
  exact List.dropWhile_cons_of_neg hblank

/-- A name of letters is a bare key, up to a character that no such key holds. -/
theorem simpleKey_letters {name : String} (h : Letters name) {c : Char} (rest : List Char)
    (hstop : isBareChar c = false) :
    simpleKey (name.toList ++ c :: rest) = some (name.toList, c :: rest) := by
  have hbare : ∀ d ∈ name.toList, isBareChar d = true :=
    fun d hd => isBareChar_of_isAlpha (h.2 d hd)
  have hstop : ¬ isBareChar c = true := Bool.not_eq_true _ ▸ hstop
  have htake : (name.toList ++ c :: rest).takeWhile isBareChar = name.toList := by
    rw [List.takeWhile_append_of_pos hbare, List.takeWhile_cons_of_neg hstop, List.append_nil]
  have hdrop : (name.toList ++ c :: rest).dropWhile isBareChar = c :: rest := by
    rw [List.dropWhile_append_of_pos hbare, List.dropWhile_cons_of_neg hstop]
  obtain ⟨d, ds, hname, hd⟩ := h.exists_letter
  unfold simpleKey
  rw [htake, hdrop, hname]
  have hquote : ¬ ((d :: ds ++ c :: rest).head?.any fun c => c = '"' || c = '\'') = true := by
    show ¬ (decide (d = '"') || decide (d = '\'')) = true
    rw [decide_eq_false (ne_of_isAlpha hd rfl), decide_eq_false (ne_of_isAlpha hd rfl)]
    exact Bool.false_ne_true
  rw [if_neg hquote]
  rfl

theorem key_letters {name : String} (h : Letters name) {c d : Char} {rest after : List Char}
    (hstop : isBareChar c = false) (hskip : skipBlank (c :: rest) = d :: after) (hdot : d ≠ '.') :
    key (name.toList ++ c :: rest) = some ([name], d :: after) := by
  have hname : skipBlank (name.toList ++ c :: rest) = name.toList ++ c :: rest := by
    obtain ⟨d, ds, hname, hd⟩ := h.exists_letter
    rw [hname]
    exact skipBlank_letter hd _
  unfold key dottedKeys
  rw [hname, simpleKey_letters h rest hstop, Option.bind_eq_bind, Option.bind_some]
  dsimp only
  rw [hskip]
  split
  · next he => exact absurd (List.cons.inj he).1 hdot
  · rw [String.ofList_toList]
    rfl

theorem basic_letters {s : List Char} (h : ∀ c ∈ s, c.isAlpha = true) (rest : List Char)
    {fuel : Nat} (hfuel : s.length < fuel) : basic fuel (s ++ '"' :: rest) = some (s, rest) := by
  induction s generalizing fuel with
  | nil =>
    obtain ⟨fuel, rfl⟩ := Nat.exists_eq_add_of_le' (show 1 ≤ fuel by omega)
    rfl
  | cons c s ih =>
    rw [List.forall_mem_cons] at h
    rw [List.length_cons] at hfuel
    obtain ⟨fuel, rfl⟩ := Nat.exists_eq_add_of_le' (show 1 ≤ fuel by omega)
    have htext : isText c = true := by
      have hrange := range_of_isAlpha h.1
      unfold isText
      simp only [Bool.or_eq_true, Bool.and_eq_true, decide_eq_true_eq]
      omega
    rw [List.cons_append, basic, if_neg (ne_of_isAlpha h.1 rfl), if_neg (ne_of_isAlpha h.1 rfl),
      if_pos htext, ih h.2 (by omega)]
    rfl

theorem value_quoted {s : String} (h : Letters s) (fuel depth : Nat) (rest : List Char) :
    value (fuel + 1) depth (quoted s ++ rest) = some (.text s, rest) := by
  have hstring : string (quoted s ++ rest) = some (s.toList, rest) := by
    obtain ⟨c, cs, hs, hc⟩ := h.exists_letter
    have hquoted : quoted s ++ rest = '"' :: (s.toList ++ '"' :: rest) := by
      unfold quoted
      rw [List.cons_append, List.cons_append, List.append_assoc, List.singleton_append]
    have hline : string (quoted s ++ rest) = oneLine (quoted s ++ rest) := by
      rw [hquoted, hs]
      unfold string
      split
      · next he => exact absurd (List.cons.inj (List.cons.inj he).2).1 (ne_of_isAlpha hc rfl)
      · next he => exact absurd (List.cons.inj he).1 (by decide)
      · rfl
    rw [hline, hquoted]
    exact basic_letters h.2 rest (by simp)
  have hunfold : value (fuel + 1) depth (quoted s ++ rest) =
      (string (quoted s ++ rest)).map fun p => (.text (String.ofList p.1), p.2) := rfl
  rw [hunfold, hstring, Option.map_some, String.ofList_toList]

/-! ## Lines -/

/-- The text of a line with a key and a string. -/
def fieldLine (f : String × String) : List Char :=
  f.1.toList ++ " = ".toList ++ quoted f.2 ++ ['\n']

/-- The text of a line with a header. -/
def headerLine (name : String) : List Char := '[' :: name.toList ++ "]\n".toList

theorem header_letters {name : String} (h : Letters name) (rest : List Char) :
    header "]" (name.toList ++ ']' :: '\n' :: rest) = some ([name], rest) := by
  unfold header
  rw [key_letters h rfl rfl (by decide)]
  rfl

theorem entry_fieldLine {f : String × String} (hname : Letters f.1) (hvalue : Letters f.2)
    (rest : List Char) : entry (fieldLine f ++ rest) = some (([f.1], .text f.2), rest) := by
  have hline : fieldLine f ++ rest =
      f.1.toList ++ ' ' :: '=' :: ' ' :: (quoted f.2 ++ '\n' :: rest) := by
    unfold fieldLine
    simp only [List.append_assoc, List.cons_append, List.nil_append]
    rfl
  unfold entry
  rw [hline, key_letters hname rfl rfl (by decide), Option.bind_eq_bind, Option.bind_some]
  show (value _ 0 (quoted f.2 ++ '\n' :: rest)).bind _ = _
  rw [value_quoted hvalue]
  rfl

theorem readLines_header {c : Char} (hc : c.isAlpha = true) (s : List Char) (t : Tables)
    (fuel : Nat) : readLines (fuel + 1) t ('[' :: c :: s) =
      (header "]" (c :: s)).bind fun p =>
        (t.enter define p.1).bind fun t' => readLines fuel t' p.2 := by
  have hskip : skipBlank ('[' :: c :: s) = '[' :: c :: s := rfl
  conv_lhs => unfold readLines
  rw [hskip]
  -- Every other kind of line starts with another character, or with two brackets.
  split
  · next he => cases he
  · next he => exact absurd (List.cons.inj he).1 (by decide)
  · next he => exact absurd (List.cons.inj he).1 (by decide)
  · next he => exact absurd (List.cons.inj he).1 (by decide)
  · next he => exact absurd (List.cons.inj (List.cons.inj he).2).1 (ne_of_isAlpha hc rfl)
  · next he =>
    rw [← (List.cons.inj he).2]
    rfl
  · next he => exact absurd rfl (he _)

theorem readLines_entry {c : Char} (hc : c.isAlpha = true) (s : List Char) (t : Tables)
    (fuel : Nat) : readLines (fuel + 1) t (c :: s) =
      (entry (c :: s)).bind fun p =>
        (t.assign p.1.1 p.1.2).bind fun t' => readLines fuel t' p.2 := by
  have hne : ∀ {d : Char} {rest : List Char}, d.isAlpha = false → c :: s ≠ d :: rest :=
    fun hd he => ne_of_isAlpha hc hd (List.cons.inj he).1
  conv_lhs => unfold readLines
  rw [skipBlank_letter hc]
  split
  · next he => cases he
  · next he => exact absurd he (hne rfl)
  · next he => exact absurd he (hne rfl)
  · next he => exact absurd he (hne rfl)
  · next he => exact absurd he (hne rfl)
  · next he => exact absurd he (hne rfl)
  · rfl

/-- A text is read completely, from some tables to others. -/
def ReadsTo (t : Tables) (s : List Char) (t' : Tables) : Prop :=
  ∀ fuel, s.length < fuel → readLines fuel t s = some t'

theorem readsTo_nil (t : Tables) : ReadsTo t [] t := by
  intro fuel hfuel
  obtain ⟨fuel, rfl⟩ := Nat.exists_eq_add_of_le' (show 1 ≤ fuel by omega)
  rfl

section
variable {t t₁ t' : Tables} {rest : List Char}

theorem readsTo_emptyLine (h : ReadsTo t rest t') : ReadsTo t ('\n' :: rest) t' := by
  intro fuel hfuel
  rw [List.length_cons] at hfuel
  obtain ⟨fuel, rfl⟩ := Nat.exists_eq_add_of_le' (show 1 ≤ fuel by omega)
  exact h fuel (by omega)

theorem readsTo_headerLine {name : String} (hname : Letters name)
    (henter : t.enter define [name] = some t₁) (h : ReadsTo t₁ rest t') :
    ReadsTo t (headerLine name ++ rest) t' := by
  intro fuel hfuel
  obtain ⟨fuel, rfl⟩ := Nat.exists_eq_add_of_le' (show 1 ≤ fuel by omega)
  obtain ⟨c, cs, hcs, hc⟩ := hname.exists_letter
  have hheader := header_letters hname rest
  have hline : headerLine name ++ rest = '[' :: c :: (cs ++ ']' :: '\n' :: rest) := by
    unfold headerLine
    rw [hcs]
    simp only [List.cons_append, List.append_assoc]
    rfl
  have hrest : rest.length < fuel := by
    rw [hline] at hfuel
    simp only [List.length_cons, List.length_append] at hfuel
    omega
  rw [hcs, List.cons_append] at hheader
  rw [hline, readLines_header hc, hheader, Option.bind_some, henter]
  exact h fuel hrest

theorem readsTo_fieldLine {f : String × String} (hname : Letters f.1) (hvalue : Letters f.2)
    (hassign : t.assign [f.1] (.text f.2) = some t₁) (h : ReadsTo t₁ rest t') :
    ReadsTo t (fieldLine f ++ rest) t' := by
  intro fuel hfuel
  obtain ⟨fuel, rfl⟩ := Nat.exists_eq_add_of_le' (show 1 ≤ fuel by omega)
  obtain ⟨c, cs, hcs, hc⟩ := hname.exists_letter
  have hentry := entry_fieldLine hname hvalue rest
  have hline : fieldLine f ++ rest = c :: (cs ++ " = ".toList ++ quoted f.2 ++ ['\n'] ++ rest) := by
    unfold fieldLine
    rw [hcs]
    rfl
  have hrest : rest.length < fuel := by
    rw [hline, List.length_cons, List.length_append] at hfuel
    omega
  rw [hline] at hentry ⊢
  rw [readLines_entry hc, hentry, Option.bind_some, hassign]
  exact h fuel hrest

end

/-! ## Tables -/

/-- The names of the entries that there are. -/
def names (es : Entries) : List String := es.map Prod.fst

theorem lookup_eq_none {name : String} {es : Entries} (h : name ∉ names es) :
    es.lookup name = none := by
  rw [List.lookup_eq_none_iff]
  intro e he
  rw [bne_iff_ne]
  rintro rfl
  exact h (List.mem_map_of_mem he)

theorem lookup_last {name : String} {es : Entries} (h : name ∉ names es) (item : Item) :
    (es ++ [(name, item)]).lookup name = some item := by
  rw [List.lookup_append, lookup_eq_none h, Option.none_or, List.lookup_cons_self]

theorem replace_last {name : String} {es : Entries} (h : name ∉ names es) (item new : Item) :
    replace name new (es ++ [(name, item)]) = es ++ [(name, new)] := by
  induction es with
  | nil => exact if_pos rfl
  | cons e es ih =>
    unfold names at h
    rw [List.map_cons, List.mem_cons, not_or] at h
    show (if e.1 = name then (e.1, new) :: (es ++ [(name, item)])
      else e :: replace name new (es ++ [(name, item)])) = _
    rw [if_neg (Ne.symm h.1), ih h.2]
    rfl

/-- A header of a new name starts an empty table at the end. -/
theorem enter_new {root : Entries} {name : String} (h : name ∉ names root) (current : List String) :
    Tables.enter ⟨root, current⟩ define [name] =
      some ⟨root ++ [(name, .table .header [])], [name]⟩ := by
  show ((define name .header root).bind fun root => some (⟨root, [name]⟩ : Tables)) = _
  unfold define
  rw [lookup_eq_none h]
  rfl

/-- A line with a new key adds to the table at the end. -/
theorem assign_last {root es : Entries} {name key : String} (hname : name ∉ names root)
    (hkey : key ∉ names es) (item : Item) :
    Tables.assign ⟨root ++ [(name, .table .header es)], [name]⟩ [key] item =
      some ⟨root ++ [(name, .table .header (es ++ [(key, item)]))], [name]⟩ := by
  have hadd : add false key item .header es = some (es ++ [(key, item)]) := by
    unfold add
    rw [lookup_eq_none hkey]
    rfl
  have hdescend : descend false (Toml.assign [] key item) [name] .header
      (root ++ [(name, .table .header es)]) =
        some (root ++ [(name, .table .header (es ++ [(key, item)]))]) := by
    unfold descend
    rw [lookup_last hname]
    show (add false key item .header es).map _ = _
    rw [hadd, Option.map_some, replace_last hname]
  show (descend false (Toml.assign [] key item) [name] .header
    (root ++ [(name, .table .header es)])).bind _ = _
  rw [hdescend]
  rfl

/-! ## Sections -/

/-- A table of named values. -/
def record {β : Type} (value : β → Item) (fields : List (String × β)) : Item :=
  .table .header (fields.map fun f => (f.1, value f.2))

def fieldsItem (fields : List (String × String)) : Item := record .text fields

def fieldEntry (f : String × String) : String × Item := (f.1, .text f.2)

def sectionEntry (s : String × List (String × String)) : String × Item := (s.1, fieldsItem s.2)

/-- The lines of a section. -/
def sectionText (s : String × List (String × String)) : List Char :=
  headerLine s.1 ++ s.2.flatMap fieldLine

/-- The lines of the sections of a document, with empty lines between them. -/
def sectionsText (sections : Sections) : List Char :=
  ['\n'].intercalate (sections.map sectionText)

section
variable {t' : Tables} {root : Entries} {rest : List Char}

/-- The fields of a section go to the table at the end, one by one. -/
theorem readsTo_fields {name : String} (hname : name ∉ names root)
    {fields : List (String × String)} (hfields : ∀ f ∈ fields, Letters f.1 ∧ Letters f.2)
    {es : Entries} (hdistinct : (names es ++ fields.map Prod.fst).Nodup)
    (h : ReadsTo ⟨root ++ [(name, .table .header (es ++ fields.map fieldEntry))], [name]⟩ rest t') :
    ReadsTo ⟨root ++ [(name, .table .header es)], [name]⟩
      (fields.flatMap fieldLine ++ rest) t' := by
  induction fields generalizing es with
  | nil =>
    rw [List.map_nil, List.append_nil] at h
    exact h
  | cons f fields ih =>
    rw [List.forall_mem_cons] at hfields
    have hnew : f.1 ∉ names es := fun hmem =>
      (List.disjoint_of_nodup_append hdistinct) hmem List.mem_cons_self
    rw [List.flatMap_cons, List.append_assoc]
    refine readsTo_fieldLine hfields.1.1 hfields.1.2 (assign_last hname hnew (.text f.2))
      (ih hfields.2 ?_ ?_)
    · unfold names
      rw [List.map_append, List.append_assoc]
      exact hdistinct
    · rw [List.append_assoc]
      exact h

theorem readsTo_section {s : String × List (String × String)} (hname : Letters s.1)
    (hnew : s.1 ∉ names root) (hfields : WordFields s.2) {current : List String}
    (h : ReadsTo ⟨root ++ [sectionEntry s], [s.1]⟩ rest t') :
    ReadsTo ⟨root, current⟩ (sectionText s ++ rest) t' := by
  have hletters : ∀ f ∈ s.2, Letters f.1 ∧ Letters f.2 :=
    fun f hf => ⟨(hfields.words f hf).1.letters, (hfields.words f hf).2.letters⟩
  unfold sectionText
  rw [List.append_assoc]
  exact readsTo_headerLine hname (enter_new hnew current)
    (readsTo_fields hnew hletters hfields.distinct h)

end

theorem sectionsText_cons (s next : String × List (String × String)) (sections : Sections) :
    sectionsText (s :: next :: sections) =
      sectionText s ++ '\n' :: sectionsText (next :: sections) := by
  unfold sectionsText
  rw [List.map_cons, List.map_cons, List.intercalate_cons_cons, List.append_assoc]
  rfl

theorem readsTo_sections {sections : Sections} (h : WordSections sections) {root : Entries}
    (hdistinct : (names root ++ sections.map Prod.fst).Nodup) (current : List String) :
    ∃ last, ReadsTo ⟨root, current⟩ (sectionsText sections)
      ⟨root ++ sections.map sectionEntry, last⟩ := by
  induction sections generalizing root current with
  | nil =>
    refine ⟨current, ?_⟩
    rw [List.map_nil, List.append_nil]
    exact readsTo_nil _
  | cons s sections ih =>
    have hnew : s.1 ∉ names root := fun hmem =>
      (List.disjoint_of_nodup_append hdistinct) hmem List.mem_cons_self
    have hdistinct : (names (root ++ [sectionEntry s]) ++ sections.map Prod.fst).Nodup := by
      unfold names
      rw [List.map_append, List.append_assoc]
      exact hdistinct
    obtain ⟨last, hlast⟩ := ih h.tail hdistinct [s.1]
    rw [List.append_assoc] at hlast
    have hname : Letters s.1 := (h.names s List.mem_cons_self).letters
    have hfields : WordFields s.2 := h.fields s List.mem_cons_self
    cases sections with
    | nil =>
      have htext : sectionsText [s] = sectionText s ++ [] :=
        List.intercalate_singleton.trans (List.append_nil _).symm
      rw [htext]
      exact ⟨[s.1], readsTo_section hname hnew hfields (readsTo_nil _)⟩
    | cons next sections =>
      rw [sectionsText_cons]
      exact ⟨last, readsTo_section hname hnew hfields (readsTo_emptyLine hlast)⟩

/-- A document of sections is read as a table of their tables. -/
theorem read?_sections {sections : Sections} (h : WordSections sections) (hne : sections ≠ []) :
    Item.read? (sectionsText sections) = some (record fieldsItem sections) := by
  obtain ⟨last, hread⟩ := readsTo_sections h
    (show (names [] ++ sections.map Prod.fst).Nodup from h.distinct) []
  have hmark : ∀ rest, sectionsText sections ≠ '\uFEFF' :: rest := by
    intro rest hrest
    obtain ⟨s, sections, rfl⟩ := List.exists_cons_of_ne_nil hne
    cases sections with
    | nil =>
      rw [sectionsText, List.map_singleton, List.intercalate_singleton] at hrest
      exact absurd (List.cons.inj hrest).1 (by decide)
    | cons next sections =>
      rw [sectionsText_cons] at hrest
      exact absurd (List.cons.inj hrest).1 (by decide)
  unfold Item.read?
  dsimp only
  split
  · next he => exact absurd he (hmark _)
  · rw [hread _ (by omega)]
    rfl

theorem isRecord_record {β : Type} {isField : Item → β → Prop} (value : β → Item)
    (hvalue : ∀ v, isField (value v) v) (fields : List (String × β)) :
    reading.IsRecord isField (record value fields) fields :=
  reading.isRecord_of_fields? value (fun _ => rfl) hvalue

theorem gives_sections (sections : Sections) : reading.Gives (record fieldsItem sections) sections :=
  isRecord_record fieldsItem (isRecord_record _ fun _ => rfl) sections

theorem toList_toToml (c : Config) : c.toToml.toList = sectionsText c.sections := by
  have hfield : ∀ f : String × String,
      (f.1 ++ " = " ++ inQuotes f.2 ++ "\n").toList = fieldLine f := by
    intro f
    simp only [String.toList_append, toList_inQuotes]
    rfl
  unfold Config.toToml sectionsText
  rw [String.toList_intercalate, List.map_map]
  refine congrArg _ (List.map_congr_left fun s _ => ?_)
  unfold sectionText headerLine
  rw [Function.comp_apply, String.toList_append, String.toList_append, String.toList_append,
    String.toList_join, List.flatMap_map]
  simp only [hfield]
  rfl

end StepLog.Toml

namespace StepLog

/-- A configuration that is written in TOML is read back. -/
theorem read?_toToml (c : Config) : Format.toml.read? c.toToml = some c := by
  show (Toml.Item.read? c.toToml.toList).bind Toml.reading.config = _
  rw [Toml.toList_toToml, Toml.read?_sections c.wordSections (List.cons_ne_nil _ _),
    Option.bind_some]
  exact Toml.reading.config_of_gives (Toml.gives_sections c.sections)

end StepLog
