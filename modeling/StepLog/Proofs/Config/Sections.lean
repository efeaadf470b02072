/-
  Sections of named choices.

  What a configuration file holds, whatever its format: sections by their names, each with fields,
  each with the name of a choice. A parsed file gives such sections (`Reading.Gives`) if it is a
  record of records of choices in the sense of its format, and then the configuration that was
  written in them is the one that is read (`config_of_gives`). The names are words, which
  stand for themselves in every format.
-/
import StepLog.Proofs.Command.Configuration
import StepLog.Proofs.Yaml.ListItems

namespace StepLog

/-- Sections with their fields, each with the name of a choice. -/
abbrev Sections := List (String × List (String × String))

/-- A short word of ASCII letters that no reader takes for anything but a text. -/
structure Word (s : String) : Prop where
  letters : Yaml.Letters s
  short : s.toList.length ≤ 128
  plain : Yaml.styleOf s = .plain

/-- Fields with words for their names and choices, no two of the same name. -/
structure WordFields (fields : List (String × String)) : Prop where
  words : ∀ f ∈ fields, Word f.1 ∧ Word f.2
  distinct : (fields.map Prod.fst).Nodup

/-- Sections of such fields, no two of the same name and none without fields. -/
structure WordSections (sections : Sections) : Prop where
  names : ∀ s ∈ sections, Word s.1
  fields : ∀ s ∈ sections, WordFields s.2
  nonempty : ∀ s ∈ sections, s.2 ≠ []
  distinct : (sections.map Prod.fst).Nodup

theorem WordSections.tail {s : String × List (String × String)} {sections : Sections}
    (h : WordSections (s :: sections)) : WordSections sections where
  names := (List.forall_mem_cons.1 h.names).2
  fields := (List.forall_mem_cons.1 h.fields).2
  nonempty := (List.forall_mem_cons.1 h.nonempty).2
  distinct := (List.nodup_cons.1 h.distinct).2

theorem ne_of_isAlpha {c d : Char} (hc : c.isAlpha = true) (hd : d.isAlpha = false) : c ≠ d := by
  rintro rfl
  rw [hc] at hd
  cases hd

theorem Yaml.Letters.exists_letter {s : String} (h : Yaml.Letters s) :
    ∃ c cs, s.toList = c :: cs ∧ c.isAlpha = true := by
  obtain ⟨c, cs, hs⟩ := List.exists_cons_of_ne_nil h.ne_nil
  exact ⟨c, cs, hs, h.2 c (hs ▸ List.mem_cons_self)⟩

theorem range_of_isAlpha {c : Char} (h : c.isAlpha = true) : 0x41 ≤ c.toNat ∧ c.toNat ≤ 0x7A := by
  simp only [Char.isAlpha, Char.isUpper, Char.isLower, Bool.or_eq_true, Bool.and_eq_true,
    decide_eq_true_eq, UInt32.le_iff_toNat_le, ge_iff_le] at h
  have hupper : 'A'.val.toNat = 65 ∧ 'Z'.val.toNat = 90 := ⟨rfl, rfl⟩
  have hlower : 'a'.val.toNat = 97 ∧ 'z'.val.toNat = 122 := ⟨rfl, rfl⟩
  have hval : c.toNat = c.val.toNat := rfl
  omega

/-- A text between double quotes, as it is. -/
def quoted (s : String) : List Char := '"' :: s.toList ++ ['"']

theorem toList_inQuotes (s : String) : (inQuotes s).toList = quoted s := by
  unfold inQuotes
  rw [String.toList_append, String.toList_append]
  rfl

/-! ## The sections of a configuration -/

theorem word_of_check {s : String}
    (h : (s ≠ "" ∧ s.toList.all Char.isAlpha = true) ∧ s.toList.length ≤ 128 ∧
      Yaml.styleOf s = .plain) : Word s :=
  ⟨⟨h.1.1, List.all_eq_true.1 h.1.2⟩, h.2.1, h.2.2⟩

theorem word_level (v : Severity) : Word v.name := by
  apply word_of_check
  cases v <;> decide

theorem word_color (v : ColorChoice) : Word v.name := by
  apply word_of_check
  cases v <;> decide

theorem word_theme (v : ThemeChoice) : Word v.name := by
  apply word_of_check
  cases v <;> decide

theorem word_provider (v : CiProvider) : Word v.name := by
  apply word_of_check
  cases v <;> decide

theorem wordFields_output (c : Config) : WordFields c.outputFields where
  words := by
    unfold Config.outputFields
    simp only [List.forall_mem_cons]
    exact ⟨⟨word_of_check (by decide), word_level _⟩, ⟨word_of_check (by decide), word_color _⟩,
      ⟨word_of_check (by decide), word_theme _⟩, nofun⟩
  distinct := by
    show ["level", "color", "theme"].Nodup
    decide

theorem wordFields_ci (c : Config) : WordFields c.ciFields where
  words := by
    unfold Config.ciFields
    simp only [List.forall_mem_cons]
    exact ⟨⟨word_of_check (by decide), word_provider _⟩, nofun⟩
  distinct := List.nodup_singleton _

theorem Config.wordSections (c : Config) : WordSections c.sections where
  names := by
    unfold Config.sections
    simp only [List.forall_mem_cons]
    exact ⟨word_of_check (by decide), word_of_check (by decide), nofun⟩
  fields := by
    unfold Config.sections
    simp only [List.forall_mem_cons]
    exact ⟨wordFields_output c, wordFields_ci c, nofun⟩
  nonempty := by
    unfold Config.sections
    simp only [List.forall_mem_cons]
    exact ⟨nofun, nofun, nofun⟩
  distinct := by
    show ["output", "ci"].Nodup
    decide

/-! ## Reading sections -/

theorem ofName?_level (v : Severity) : Severity.ofName? v.name = some v := by
  cases v <;> rfl

theorem ofName?_color (v : ColorChoice) : ColorChoice.ofName? v.name = some v := by
  cases v <;> rfl

theorem ofName?_theme (v : ThemeChoice) : ThemeChoice.ofName? v.name = some v := by
  cases v <;> rfl

theorem ofName?_provider (v : CiProvider) : CiProvider.ofName? v.name = some v := by
  cases v <;> rfl

/-- Entries with names are all named. -/
theorem allNamed_map {α β : Type} (value : β → α) (fields : List (String × β)) :
    allNamed (fields.map fun f => (some f.1, value f.2)) =
      some (fields.map fun f => (f.1, value f.2)) := by
  induction fields with
  | nil => rfl
  | cons f fields ih =>
    unfold allNamed at ih ⊢
    rw [List.map_cons, List.mapM_cons, ih]
    rfl

namespace Reading

variable {α : Type} (r : Reading α)

/-- A value is a record by names, with these fields in this order. -/
def IsRecord {β : Type} (isField : α → β → Prop) (x : α) (fields : List (String × β)) : Prop :=
  ∃ entries, (∀ arity, r.fields? arity x = some (.named entries)) ∧
    List.Forall₂ (fun e f => e.1 = f.1 ∧ isField e.2 f.2) entries fields

theorem isRecord_of_fields? {β : Type} {isField : α → β → Prop} {x : α}
    {fields : List (String × β)} (value : β → α)
    (hfields : ∀ arity, r.fields? arity x = some (.named (fields.map fun f => (f.1, value f.2))))
    (hvalue : ∀ v, isField (value v) v) : r.IsRecord isField x fields := by
  refine ⟨_, hfields, ?_⟩
  rw [List.forall₂_map_left_iff, List.forall₂_same]
  exact fun f _ => ⟨rfl, hvalue f.2⟩

/-- A value gives sections: it is a record of records of choices. -/
def Gives (x : α) (sections : Sections) : Prop :=
  r.IsRecord (r.IsRecord fun y name => r.choice? y = some name) x sections

section
variable {r} {β : Type} {isField : α → β → Prop} {name : String}

theorem filter_of_name_not_mem {entries : List (String × α)} {fields : List (String × β)}
    (h : List.Forall₂ (fun e f => e.1 = f.1 ∧ isField e.2 f.2) entries fields)
    (hname : name ∉ fields.map Prod.fst) : (entries.filter fun e => e.1 = name) = [] := by
  induction h with
  | nil => rfl
  | @cons e f entries fields hhead _ ih =>
    rw [List.map_cons, List.mem_cons, not_or] at hname
    have hne : ¬ e.1 = name := fun he => hname.1 (he.symm.trans hhead.1)
    rw [List.filter_cons_of_neg (by simpa using hne), ih hname.2]

theorem filter_of_field {entries : List (String × α)} {fields : List (String × β)} {v : β}
    (h : List.Forall₂ (fun e f => e.1 = f.1 ∧ isField e.2 f.2) entries fields)
    (hdistinct : (fields.map Prod.fst).Nodup) (hmem : (name, v) ∈ fields) :
    ∃ y, (entries.filter fun e => e.1 = name) = [(name, y)] ∧ isField y v := by
  induction h with
  | nil => cases hmem
  | @cons e f entries fields hhead htail ih =>
    rw [List.map_cons, List.nodup_cons] at hdistinct
    rcases List.mem_cons.1 hmem with rfl | hmem
    · obtain ⟨key, y⟩ := e
      obtain ⟨rfl, hfield⟩ := hhead
      refine ⟨y, ?_, hfield⟩
      rw [List.filter_cons_of_pos (by simp),
        filter_of_name_not_mem htail hdistinct.1]
    · have hne : ¬ e.1 = name := fun he =>
        hdistinct.1 (hhead.1 ▸ he ▸ List.mem_map_of_mem hmem)
      rw [List.filter_cons_of_neg (by simpa using hne)]
      exact ih hdistinct.2 hmem

/-- A field of a record is given once, whatever its position. -/
theorem given_of_isRecord {x : α} {fields : List (String × β)} {v : β}
    (h : r.IsRecord isField x fields) (hdistinct : (fields.map Prod.fst).Nodup)
    (hmem : (name, v) ∈ fields) (arity position : Nat) :
    ∃ entries y, r.fields? arity x = some entries ∧ entries.given name position = .once y ∧
      isField y v := by
  obtain ⟨entries, hentries, hfields⟩ := h
  obtain ⟨y, hfilter, hy⟩ := filter_of_field hfields hdistinct hmem
  refine ⟨_, y, hentries arity, ?_, hy⟩
  unfold Fields.given
  dsimp only
  rw [hfilter]

end

/-- What a file of sections says of a field. -/
theorem said?_of_gives {β : Type} {f : Field β} {x : α} {sections : Sections}
    {fields : List (String × String)} {name : String} {v : β} (h : r.Gives x sections)
    (hwords : WordSections sections) (hsection : (f.place.name, fields) ∈ sections)
    (hfield : (f.name, name) ∈ fields) (hname : f.ofName? name = some v) :
    r.said? f x = some (some v) := by
  obtain ⟨sectionEntries, y, hsections, hgiven, hy⟩ :=
    given_of_isRecord h hwords.distinct hsection 2 f.place.position
  obtain ⟨fieldEntries, z, hfields, hgiven', hz⟩ :=
    given_of_isRecord hy (hwords.fields _ hsection).distinct hfield f.place.arity f.position
  have hin : r.saidIn? f y = some (some v) := by
    unfold saidIn?
    rw [hfields, Option.bind_eq_bind, Option.bind_some, hgiven']
    show (r.choose f.ofName? z).map some = _
    unfold choose
    rw [hz, Option.bind_some, hname]
    rfl
  unfold said?
  rw [hsections, Option.bind_eq_bind, Option.bind_some, hgiven]
  exact hin

/-- A file that gives the sections of a configuration gives the configuration. -/
theorem config_of_gives {x : α} {c : Config} (h : r.Gives x c.sections) : r.config x = some c := by
  have houtput : ("output", c.outputFields) ∈ c.sections := List.mem_cons_self
  have hci : ("ci", c.ciFields) ∈ c.sections := List.mem_cons_of_mem _ List.mem_cons_self
  have hlevel : r.said? .level x = some (some c.level) :=
    said?_of_gives r h c.wordSections houtput List.mem_cons_self (ofName?_level _)
  have hcolor : r.said? .color x = some (some c.color) :=
    said?_of_gives r h c.wordSections houtput (List.mem_cons_of_mem _ List.mem_cons_self)
      (ofName?_color _)
  have htheme : r.said? .theme x = some (some c.theme) :=
    said?_of_gives r h c.wordSections houtput
      (List.mem_cons_of_mem _ (List.mem_cons_of_mem _ List.mem_cons_self)) (ofName?_theme _)
  have hprovider : r.said? .provider x = some (some c.provider) :=
    said?_of_gives r h c.wordSections hci List.mem_cons_self (ofName?_provider _)
  rw [config_eq]
  unfold Config.ofFields?
  dsimp only
  rw [hlevel, hcolor, htheme, hprovider]
  rfl

end Reading

end StepLog
