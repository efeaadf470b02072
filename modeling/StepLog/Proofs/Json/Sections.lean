/-
  Sections in JSON.

  A text reads as a value if the reader takes it off the front of whatever follows, with no more
  fuel than the text has characters (`Reads`). Strings of letters do (`reads_quoted`), and objects
  of members that do, one member a line, do as well (`reads_object`), however deep; sections are
  objects in an object.
-/
import StepLog.Proofs.Config.Sections

namespace StepLog.Json

open Yaml (Letters spaces)

/-! ## Blank space and strings -/

theorem skipBlank_append {blank : List Char} (h : blank.all isBlank = true) (s : List Char) :
    skipBlank (blank ++ s) = skipBlank s :=
  List.dropWhile_append_of_pos (List.all_eq_true.1 h)

theorem skipBlank_cons {c : Char} (h : isBlank c = false) (s : List Char) :
    skipBlank (c :: s) = c :: s :=
  List.dropWhile_cons_of_neg (Bool.not_eq_true _ ▸ h)

theorem all_isBlank_spaces (n : Nat) : (spaces n).all isBlank = true :=
  List.all_eq_true.2 fun _ hc => List.eq_of_mem_replicate hc ▸ rfl

theorem pieces_letter {c : Char} (h : c.isAlpha = true) (s : List Char) :
    pieces (c :: s) = (pieces s).map fun p => (.char c :: p.1, p.2) := by
  have hcontrol : ¬ c.toNat < 0x20 := by
    have := (range_of_isAlpha h).1
    omega
  conv_lhs => unfold pieces
  split
  · next he => cases he
  · next he => exact absurd (List.cons.inj he).1 (ne_of_isAlpha h rfl)
  · next he => exact absurd (List.cons.inj he).1 (ne_of_isAlpha h rfl)
  · next he => exact absurd (List.cons.inj he).1 (ne_of_isAlpha h rfl)
  · next he =>
    obtain ⟨rfl, rfl⟩ := List.cons.inj he
    rw [if_neg hcontrol]
    cases pieces s <;> rfl

theorem pieces_letters {s : List Char} (h : ∀ c ∈ s, c.isAlpha = true) (rest : List Char) :
    pieces (s ++ '"' :: rest) = some (s.map .char, rest) := by
  induction s with
  | nil => rfl
  | cons c s ih =>
    rw [List.forall_mem_cons] at h
    rw [List.cons_append, pieces_letter h.1, ih h.2]
    rfl

theorem joined_chars (s : List Char) : joined (s.map .char) = some s := by
  induction s with
  | nil => rfl
  | cons c s ih =>
    rw [List.map_cons, joined, ih]
    rfl

theorem joined_letters (s : String) : (joined (s.toList.map .char)).map String.ofList = some s := by
  rw [joined_chars, Option.map_some, String.ofList_toList]

/-! ## Values -/

/-- A text reads as a value, whatever stands behind it. -/
def Reads (text : List Char) (v : Value) : Prop :=
  ∀ fuel rest, text.length ≤ fuel → value fuel (text ++ rest) = some (v, rest)

theorem reads_quoted {s : String} (h : Letters s) : Reads (quoted s) (.text (some s)) := by
  intro fuel rest hfuel
  cases fuel with
  | zero => cases hfuel
  | succ fuel =>
    have hstart : skipBlank (quoted s ++ rest) = '"' :: (s.toList ++ '"' :: rest) := by
      unfold quoted
      rw [List.cons_append, List.cons_append, skipBlank_cons rfl, List.append_assoc]
      rfl
    unfold value
    rw [hstart]
    show (pieces (s.toList ++ '"' :: rest)).bind _ = _
    rw [pieces_letters h.2, Option.bind_some]
    dsimp only
    rw [joined_letters]
    rfl

/-- Blank space in front of a value is skipped. -/
theorem value_blank {blank : List Char} (h : blank.all isBlank = true) (fuel : Nat)
    (s : List Char) : value fuel (blank ++ s) = value fuel s := by
  cases fuel with
  | zero => rfl
  | succ fuel =>
    unfold value
    rw [skipBlank_append h]

/-! ## Objects -/

/-- A member of an object: its name, and its value as written and as read. -/
structure Member where
  name : String
  text : List Char
  value : Value

/-- A member whose parts read as they should. -/
structure Member.Sound (m : Member) : Prop where
  name : Letters m.name
  value : Reads m.text m.value

def Member.line (indent : Nat) (m : Member) : List Char :=
  spaces indent ++ quoted m.name ++ ": ".toList ++ m.text

/-- Members on lines of their own, with commas between them. -/
def lines (indent : Nat) (ms : List Member) : List Char :=
  ",\n".toList.intercalate (ms.map (Member.line indent))

/-- An object over several lines; its closing brace is indented by `indent`. -/
def object (indent : Nat) (ms : List Member) : List Char :=
  '\x7b' :: '\n' :: lines (indent + 2) ms ++ '\n' :: spaces indent ++ ['\x7d']

section
variable {indent fuel : Nat} {m : Member} (hm : m.Sound) {blank : List Char}
  (hblank : blank.all isBlank = true) {rest : List Char}

include hblank in
theorem skipBlank_line :
    skipBlank (blank ++ m.line indent ++ rest) =
      '"' :: (m.name.toList ++ '"' :: ':' :: ' ' :: (m.text ++ rest)) := by
  unfold Member.line quoted
  rw [List.append_assoc, skipBlank_append hblank]
  simp only [List.append_assoc]
  rw [skipBlank_append (all_isBlank_spaces indent), List.cons_append, skipBlank_cons rfl]
  rfl

variable (hfuel : m.text.length ≤ fuel)
include hm

include hfuel in
theorem Member.Sound.value_behind_colon :
    Json.value fuel (' ' :: (m.text ++ rest)) = some (m.value, rest) :=
  (value_blank (show [' '].all isBlank = true from rfl) fuel _).trans (hm.value fuel rest hfuel)

include hblank hfuel

theorem members_comma (more : List Char) :
    members (fuel + 1) (blank ++ m.line indent ++ ',' :: more) =
      (members fuel more).map fun p => ((some m.name, m.value) :: p.1, p.2) := by
  have hcolon : ∀ s, skipBlank (':' :: s) = ':' :: s := skipBlank_cons rfl
  have hcomma : skipBlank (',' :: more) = ',' :: more := skipBlank_cons rfl _
  simp only [members, skipBlank_line hblank, pieces_letters hm.name.2, hcolon,
    hm.value_behind_colon hfuel, hcomma, joined_letters, Option.bind_eq_bind, Option.bind_some]
  cases members fuel more <;> rfl

theorem members_brace (n : Nat) (after : List Char) :
    members (fuel + 1) (blank ++ m.line indent ++ '\n' :: (spaces n ++ '\x7d' :: after)) =
      some ([(some m.name, m.value)], after) := by
  have hcolon : ∀ s, skipBlank (':' :: s) = ':' :: s := skipBlank_cons rfl
  have hbrace : skipBlank ('\n' :: (spaces n ++ '\x7d' :: after)) = '\x7d' :: after := by
    rw [← List.singleton_append, skipBlank_append rfl, skipBlank_append (all_isBlank_spaces n),
      skipBlank_cons rfl]
  simp only [members, skipBlank_line hblank, pieces_letters hm.name.2, hcolon,
    hm.value_behind_colon hfuel, hbrace, joined_letters, Option.bind_eq_bind, Option.bind_some]
  rfl

end

theorem lines_cons (indent : Nat) (m next : Member) (ms : List Member) :
    lines indent (m :: next :: ms) = m.line indent ++ ',' :: '\n' :: lines indent (next :: ms) := by
  unfold lines
  rw [List.map_cons, List.map_cons, List.intercalate_cons_cons, List.append_assoc]
  rfl

/-- The members of an object are read line by line. -/
theorem members_lines {indent n : Nat} {ms : List Member} (hms : ∀ m ∈ ms, m.Sound)
    (hne : ms ≠ []) {fuel : Nat} {blank : List Char} (hblank : blank.all isBlank = true)
    (after : List Char) (hfuel : (lines indent ms).length ≤ fuel) :
    members fuel (blank ++ (lines indent ms ++ '\n' :: (spaces n ++ '\x7d' :: after))) =
      some (ms.map fun m => (some m.name, m.value), after) := by
  have hlength : ∀ m : Member, m.text.length < (m.line indent).length := by
    intro m
    unfold Member.line quoted
    simp only [List.length_append, List.length_cons]
    omega
  induction ms generalizing fuel blank with
  | nil => exact absurd rfl hne
  | cons m ms ih =>
    rw [List.forall_mem_cons] at hms
    cases ms with
    | nil =>
      have hline : lines indent [m] = m.line indent := List.intercalate_singleton
      rw [hline] at hfuel ⊢
      have hm := hlength m
      obtain ⟨fuel, rfl⟩ := Nat.exists_eq_add_of_le' (show 1 ≤ fuel by omega)
      rw [← List.append_assoc, members_brace hms.1 hblank (by omega) n after]
      rfl
    | cons next ms =>
      rw [lines_cons, List.length_append, List.length_cons, List.length_cons] at hfuel
      have hm := hlength m
      obtain ⟨fuel, rfl⟩ := Nat.exists_eq_add_of_le' (show 1 ≤ fuel by omega)
      have hothers := ih hms.2 (List.cons_ne_nil _ _) (show ['\n'].all isBlank = true from rfl)
        (show (lines indent (next :: ms)).length ≤ fuel by omega)
      rw [lines_cons, List.append_assoc, ← List.append_assoc, List.cons_append,
        members_comma hms.1 hblank (by omega), List.cons_append, ← List.singleton_append, hothers]
      rfl

theorem exists_lines_cons (indent : Nat) (m : Member) (ms : List Member) :
    ∃ more, lines indent (m :: ms) = m.line indent ++ more := by
  cases ms with
  | nil => exact ⟨[], List.intercalate_singleton.trans (List.append_nil _).symm⟩
  | cons next ms => exact ⟨_, lines_cons indent m next ms⟩

/-- An object of members that read as they should. -/
theorem reads_object (indent : Nat) {ms : List Member} (hms : ∀ m ∈ ms, m.Sound) (hne : ms ≠ []) :
    Reads (object indent ms) (.object (ms.map fun m => (some m.name, m.value))) := by
  intro fuel rest hfuel
  have hlength : (lines (indent + 2) ms).length < (object indent ms).length := by
    unfold object
    simp only [List.length_cons, List.length_append]
    omega
  obtain ⟨fuel, rfl⟩ := Nat.exists_eq_add_of_le' (show 1 ≤ fuel by omega)
  have htext : object indent ms ++ rest = '\x7b' :: (['\n'] ++
      (lines (indent + 2) ms ++ '\n' :: (spaces indent ++ '\x7d' :: rest))) := by
    unfold object
    simp only [List.append_assoc, List.cons_append, List.nil_append]
  have hopen : ∀ s, skipBlank ('\x7b' :: s) = '\x7b' :: s := skipBlank_cons rfl
  have hquote : ∃ behind, skipBlank (['\n'] ++
      (lines (indent + 2) ms ++ '\n' :: (spaces indent ++ '\x7d' :: rest))) = '"' :: behind := by
    cases ms with
    | nil => exact absurd rfl hne
    | cons m ms =>
      obtain ⟨more, hmore⟩ := exists_lines_cons (indent + 2) m ms
      rw [hmore, List.append_assoc, ← List.append_assoc]
      exact ⟨_, skipBlank_line rfl⟩
  obtain ⟨behind, hquote⟩ := hquote
  have hmembers := members_lines (n := indent) hms hne
    (show ['\n'].all isBlank = true from rfl) rest
    (show (lines (indent + 2) ms).length ≤ fuel by omega)
  simp only [htext, value, hopen, hquote, hmembers, Option.bind_eq_bind, Option.bind_some]
  rfl

theorem read?_of_reads {text : List Char} {v : Value} (h : Reads text v) :
    Value.read? text = some v := by
  have hvalue := h (2 * text.length + 2) [] (by omega)
  rw [List.append_nil] at hvalue
  unfold Value.read?
  rw [hvalue]
  rfl

/-! ## Sections -/

/-- An object of named values. -/
def record {β : Type} (value : β → Value) (fields : List (String × β)) : Value :=
  .object (fields.map fun f => (some f.1, value f.2))

def fieldsValue (fields : List (String × String)) : Value := record (.text ∘ some) fields

def sectionsValue (sections : Sections) : Value := record fieldsValue sections

def fieldMember (f : String × String) : Member := ⟨f.1, quoted f.2, .text f.2⟩

def sectionMember (s : String × List (String × String)) : Member :=
  ⟨s.1, object 2 (s.2.map fieldMember), fieldsValue s.2⟩

theorem reads_fields {fields : List (String × String)} (h : WordFields fields) (hne : fields ≠ []) :
    Reads (object 2 (fields.map fieldMember)) (fieldsValue fields) := by
  have hsound : ∀ m ∈ fields.map fieldMember, m.Sound := by
    intro m hm
    obtain ⟨f, hf, rfl⟩ := List.mem_map.1 hm
    exact ⟨(h.words f hf).1.letters, reads_quoted (h.words f hf).2.letters⟩
  have hreads := reads_object 2 hsound (mt List.map_eq_nil_iff.1 hne)
  rw [List.map_map] at hreads
  exact hreads

theorem read?_sections {sections : Sections} (h : WordSections sections) (hne : sections ≠ []) :
    Value.read? (object 0 (sections.map sectionMember)) = some (sectionsValue sections) := by
  have hsound : ∀ m ∈ sections.map sectionMember, m.Sound := by
    intro m hm
    obtain ⟨s, hs, rfl⟩ := List.mem_map.1 hm
    exact ⟨(h.names s hs).letters, reads_fields (h.fields s hs) (h.nonempty s hs)⟩
  have hreads := read?_of_reads (reads_object 0 hsound (mt List.map_eq_nil_iff.1 hne))
  rw [List.map_map] at hreads
  exact hreads

theorem isRecord_record {β : Type} {isField : Value → β → Prop} (value : β → Value)
    (hvalue : ∀ v, isField (value v) v) (fields : List (String × β)) :
    reading.IsRecord isField (record value fields) fields := by
  refine reading.isRecord_of_fields? value (fun arity => ?_) hvalue
  show (allNamed _).map Fields.named = _
  rw [allNamed_map]
  rfl

theorem gives_sections (sections : Sections) : reading.Gives (sectionsValue sections) sections :=
  isRecord_record fieldsValue (isRecord_record (.text ∘ some) fun _ => rfl) sections

theorem toList_lines {α : Type} (indent : Nat) (text : α → String) (member : α → Member)
    (h : ∀ x, (text x).toList = (member x).line indent) (xs : List α) :
    (",\n".intercalate (xs.map text)).toList = lines indent (xs.map member) := by
  rw [String.toList_intercalate, List.map_map]
  unfold lines
  rw [List.map_map]
  exact congrArg _ (List.map_congr_left fun x _ => h x)

theorem toList_toJson (c : Config) : c.toJson.toList = object 0 (c.sections.map sectionMember) := by
  unfold Config.toJson
  rw [String.toList_append, String.toList_append, toList_lines 2 _ sectionMember]
  · unfold object
    rw [List.append_assoc, List.append_assoc]
    rfl
  intro s
  rw [String.toList_append, String.toList_append, toList_lines 4 _ fieldMember]
  · unfold Member.line sectionMember object
    simp only [String.toList_append, toList_inQuotes, List.append_assoc]
    rfl
  intro f
  simp only [String.toList_append, toList_inQuotes]
  rfl

end StepLog.Json

namespace StepLog

/-- A configuration that is written in JSON is read back. -/
theorem read?_toJson (c : Config) : Format.json.read? c.toJson = some c := by
  show (Json.Value.read? c.toJson.toList).bind Json.reading.config = _
  rw [Json.toList_toJson, Json.read?_sections c.wordSections (List.cons_ne_nil _ _),
    Option.bind_some]
  exact Json.reading.config_of_gives (Json.gives_sections c.sections)

end StepLog
