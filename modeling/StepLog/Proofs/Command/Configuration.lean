/-
  The configuration in force.

  Four choices are made, each for itself: the command line decides, what it leaves open is
  decided by one file, and what that leaves open has a default. What a file says of a choice is
  looked up by the names of a section and of a field in it (`Reading.said?`), and a file that
  makes sense is no more than what it says of the four (`config_eq`).

  Which file that is depends on which of the places in `searchOrder` hold anything, and on
  nothing else (`consulted?_eq_some_iff`). A file that is consulted and cannot be used is a
  fault, whatever the command line says.

  Main statement: how the configuration in force comes from the command line, the environment
  and the files, and that it depends on no file but the one consulted (`configured_layers`).
-/
import StepLog.Command.Run
import StepLog.Proofs.Cutting

namespace StepLog

/-! ## What a file says -/

/-- A section of a configuration file. -/
structure Place where
  name : String
  /-- Its place in a file that is a list. -/
  position : Nat
  /-- The number of its fields. -/
  arity : Nat

def Place.output : Place := ⟨"output", 0, 3⟩

def Place.ci : Place := ⟨"ci", 1, 1⟩

/-- A choice that a configuration file can make. -/
structure Field (β : Type) where
  place : Place
  name : String
  /-- Its place in a section that is a list. -/
  position : Nat
  ofName? : String → Option β

namespace Field

def level : Field Severity := ⟨.output, "level", 0, Severity.ofName?⟩

def color : Field ColorChoice := ⟨.output, "color", 1, ColorChoice.ofName?⟩

def theme : Field ThemeChoice := ⟨.output, "theme", 2, ThemeChoice.ofName?⟩

def provider : Field CiProvider := ⟨.ci, "provider", 0, CiProvider.ofName?⟩

end Field

/-- The configuration that comes of what is said of the four choices: the defaults, where nothing
is, and no configuration if one of them makes no sense. -/
def Config.ofFields? (said? : {β : Type} → Field β → Option (Option β)) : Option Config := do
  let level ← said? .level
  let color ← said? .color
  let theme ← said? .theme
  let provider ← said? .provider
  return ⟨level.getD .info, color.getD .auto, theme.getD .auto, provider.getD .auto⟩

/-- The value of a field with a default is what it says, if it says anything. -/
theorem value_eq_map_getD {α β : Type} (given : Given α) (default : β) (read : α → Option β) :
    given.value default read =
      (given.value none fun x => (read x).map some).map fun said => said.getD default := by
  cases given with
  | absent => rfl
  | once x =>
    show read x = ((read x).map some).map _
    cases read x with
    | none => rfl
    | some y => rfl
  | twice => rfl

namespace Reading

variable {α β : Type} (r : Reading α)

/-- What a section says of a field. -/
def saidIn? (f : Field β) (x : α) : Option (Option β) := do
  let fields ← r.fields? f.place.arity x
  (fields.given f.name f.position).value none fun y => (r.choose f.ofName? y).map some

/-- What a file says of a field: nothing, if it lacks the field or all of its section. There is
no answer if the field makes no sense, or anything around it that is looked at to find it. -/
def said? (f : Field β) (x : α) : Option (Option β) := do
  let fields ← r.fields? 2 x
  (fields.given f.place.name f.place.position).value none (r.saidIn? f)

theorem output_eq (base : Config) (x : α) :
    r.output base x = do
      let level ← r.saidIn? .level x
      let color ← r.saidIn? .color x
      let theme ← r.saidIn? .theme x
      return { base with
        level := level.getD base.level
        color := color.getD base.color
        theme := theme.getD base.theme } := by
  unfold output saidIn? Field.level Field.color Field.theme Place.output
  dsimp only
  cases r.fields? 3 x with
  | none => rfl
  | some fields =>
    simp only [Option.bind_eq_bind, Option.bind_some, Option.pure_def]
    rw [value_eq_map_getD (fields.given "level" 0), value_eq_map_getD (fields.given "color" 1),
      value_eq_map_getD (fields.given "theme" 2)]
    simp only [Option.bind_map, Function.comp_def]

theorem ci_eq (base : Config) (x : α) :
    r.ci base x = do
      let provider ← r.saidIn? .provider x
      return { base with provider := provider.getD base.provider } := by
  unfold ci saidIn? Field.provider Place.ci
  dsimp only
  cases r.fields? 1 x with
  | none => rfl
  | some fields =>
    simp only [Option.bind_eq_bind, Option.bind_some, Option.pure_def]
    rw [value_eq_map_getD (fields.given "provider" 0)]
    simp only [Option.bind_map, Function.comp_def]

/-- A file makes sense if what it says of the four choices does. -/
theorem config_eq (x : α) : r.config x = Config.ofFields? fun f => r.said? f x := by
  unfold config Config.ofFields? said?
  cases r.fields? 2 x with
  | none => rfl
  | some fields =>
    have hci : ∀ base : Config, (fields.given "ci" 1).value base (r.ci base) =
        ((fields.given "ci" 1).value none (r.saidIn? .provider)).bind fun provider =>
          some { base with provider := provider.getD base.provider } := by
      intro base
      cases fields.given "ci" 1 with
      | absent => rfl
      | once y => exact r.ci_eq base y
      | twice => rfl
    show ((fields.given "output" 0).value _ _).bind (fun base => (fields.given "ci" 1).value _ _) =
      ((fields.given "output" 0).value none (r.saidIn? .level)).bind fun level =>
      ((fields.given "output" 0).value none (r.saidIn? .color)).bind fun color =>
      ((fields.given "output" 0).value none (r.saidIn? .theme)).bind fun theme =>
      ((fields.given "ci" 1).value none (r.saidIn? .provider)).bind fun provider => some _
    cases fields.given "output" 0 with
    | absent => exact hci Config.default
    | once y =>
      show (r.output Config.default y).bind _ = _
      rw [r.output_eq]
      simp only [hci, Option.bind_eq_bind, Option.bind_assoc, Option.bind_some, Option.pure_def]
      rfl
    | twice => rfl

end Reading

/-! ## What a text says -/

/-- What a text says of a field in a format. -/
def Format.said? {β : Type} (f : Field β) : Format → String → Option (Option β)
  | .toml, s => (Toml.Item.read? s.toList).bind (Toml.reading.said? f)
  | .json, s => (Json.Value.read? s.toList).bind (Json.reading.said? f)
  | .yaml, s => do
    let d ← Yaml.Document.read? s.toList
    match d.root with
    | none => return none
    | some root => d.reading.said? f root

theorem Format.read?_eq (format : Format) (s : String) :
    format.read? s = Config.ofFields? fun f => format.said? f s := by
  cases format with
  | toml =>
    simp only [read?, said?]
    cases Toml.Item.read? s.toList with
    | none => rfl
    | some item => exact Toml.reading.config_eq item
  | json =>
    simp only [read?, said?]
    cases Json.Value.read? s.toList with
    | none => rfl
    | some value => exact Json.reading.config_eq value
  | yaml =>
    simp only [read?, said?]
    cases Yaml.Document.read? s.toList with
    | none => rfl
    | some d =>
      simp only [Option.bind_eq_bind, Option.bind_some]
      cases d.root with
      | none => rfl
      | some root => exact d.reading.config_eq root

/-- The format that a text is taken for, if its file's name does not tell: the first one that it
makes sense in. -/
def Format.ofText (s : String) : Format :=
  if (Format.toml.read? s).isSome then .toml
  else if (Format.json.read? s).isSome then .json
  else .yaml

theorem parse?_eq (format : Option Format) (s : String) :
    Config.parse? format s = (format.getD (.ofText s)).read? s := by
  cases format with
  | some format => rfl
  | none =>
    show ((Format.toml.read? s).or (Format.json.read? s)).or (Format.yaml.read? s) =
      (Format.ofText s).read? s
    unfold Format.ofText
    split
    case isTrue h =>
      obtain ⟨c, hc⟩ := Option.isSome_iff_exists.1 h
      rw [hc]
      rfl
    case isFalse h =>
      rw [Option.not_isSome_iff_eq_none.1 h, Option.none_or]
      split
      case isTrue h =>
        obtain ⟨c, hc⟩ := Option.isSome_iff_exists.1 h
        rw [hc]
        rfl
      case isFalse h => rw [Option.not_isSome_iff_eq_none.1 h, Option.none_or]

/-- What the text of the file at a path says of a field. -/
def Config.said? {β : Type} (p : Path) (s : String) (f : Field β) : Option (Option β) :=
  ((Format.ofPath? p).getD (.ofText s)).said? f s

namespace Command

open Text (Bytes)

/-! ## Which file is consulted -/

/-- Where a configuration is looked for: under four names in the working directory, then in the
directory of the user's configuration, if there is one. -/
def searchOrder (userDirectory : Option Path) : List Path :=
  (["runlog.toml", "runlog.json", "runlog.yaml", "runlog.yml"].map fun name =>
    (Path.ofString ".").join (.ofString name)) ++
  userDirectory.toList.map fun directory =>
    (directory.join (.ofString "runlog")).join (.ofString "config.toml")

theorem candidates_eq (userDirectory : Option Path) :
    Config.candidates userDirectory = searchOrder userDirectory := by
  have hlocal : ([.ofString "./runlog.toml", .ofString "./runlog.json", .ofString "./runlog.yaml",
      .ofString "./runlog.yml"] : List Path) =
      ["runlog.toml", "runlog.json", "runlog.yaml", "runlog.yml"].map fun name =>
        (Path.ofString ".").join (.ofString name) := by decide
  unfold Config.candidates searchOrder
  rw [hlocal]
  cases userDirectory with
  | none => rfl
  | some directory => rfl

/-- The one file that is consulted: the file that is asked for, or else the first one in the search
order that exists. -/
inductive Consulted (v : Invocation) (i : Inputs) : Path → Prop
  | asked {p} : v.config = some p → Consulted v i p
  | found {before p after} :
    v.config = none → searchOrder i.userDirectory = before ++ p :: after →
    (∀ q ∈ before, i.files q = .missing) → i.files p ≠ .missing → Consulted v i p

theorem consulted?_eq_some_iff (v : Invocation) (i : Inputs) (p : Path) :
    Config.consulted? i.files i.userDirectory v.config = some p ↔ Consulted v i p := by
  unfold Config.consulted?
  rw [candidates_eq]
  cases hconfig : v.config with
  | some asked =>
    show some asked = some p ↔ _
    constructor
    · rintro ⟨⟩
      exact .asked hconfig
    · intro h
      cases h with
      | asked hasked => exact hconfig.symm.trans hasked
      | found hnone => cases hconfig.symm.trans hnone
  | none =>
    rw [Option.none_or, List.find?_eq_some_iff_append]
    constructor
    · rintro ⟨hexists, before, after, horder, hbefore⟩
      refine .found hconfig horder ?_ ?_
      · intro q hq
        simpa [FileState.exists] using hbefore q hq
      · simpa [FileState.exists] using hexists
    · intro h
      cases h with
      | asked hasked => cases hconfig.symm.trans hasked
      | found _ horder hbefore hexists =>
        refine ⟨by simpa [FileState.exists] using hexists, _, _, horder, ?_⟩
        intro q hq
        simpa [FileState.exists] using hbefore q hq

/-! ## What the command line says -/

/-- A scope that ends without a level has made sense of the one in the environment. -/
theorem readLevel_of_finish {level : Option Bytes} {p : Progress} {given : Given} {value : Bytes}
    (h : p.finish level = .ok given) (hnone : given.level = none) (hlevel : level = some value) :
    ∃ severity, readLevel value = .ok severity := by
  subst hlevel
  unfold Progress.finish at h
  obtain ⟨settled, -, h⟩ := bind_ok h
  cases hgiven : settled.given.level with
  | some severity =>
    rw [hgiven] at h
    cases h
    cases hgiven.symm.trans hnone
  | none =>
    rw [hgiven] at h
    obtain ⟨severity, hread, -⟩ := bind_ok h
    exact ⟨severity, hread⟩

/-- So has a subcommand that is read without a level. -/
theorem readLevel_of_readInner {level : Option Bytes} {scope : Scope} {args : List Bytes}
    {given : Given} {value : Bytes} (h : readInner level scope args = .ok given)
    (hnone : given.level = none) (hlevel : level = some value) :
    ∃ severity, readLevel value = .ok severity := by
  unfold readInner at h
  obtain ⟨p, -, h⟩ := bind_ok h
  obtain ⟨given', hfinish, h⟩ := bind_ok h
  dsimp only at h
  split at h
  case isTrue => cases h
  case isFalse =>
    cases h
    exact readLevel_of_finish hfinish hnone hlevel

/-- The subcommand of a line is read from the arguments behind its name. -/
theorem exists_readInner {level : Option Bytes} {p : Progress} {args : List Bytes} {outer : Given}
    {scope : Scope} {inner : Given}
    (h : readParts level p args = .ok ⟨outer, some (scope, inner)⟩) :
    ∃ behind, readInner level scope behind = .ok inner := by
  induction args generalizing p with
  | nil =>
    unfold readParts at h
    obtain ⟨given, -, h⟩ := bind_ok h
    cases h
  | cons arg args ih =>
    unfold readParts at h
    split at h
    case isTrue => cases h
    case isFalse =>
      split at h
      case h_1 =>
        obtain ⟨given, hinner, h⟩ := bind_ok h
        obtain ⟨given', -, h⟩ := bind_ok h
        cases h
        exact ⟨args, hinner⟩
      case h_2 =>
        split at h
        case isTrue =>
          obtain ⟨p', -, h⟩ := bind_ok h
          obtain ⟨given, -, h⟩ := bind_ok h
          cases h
        case isFalse =>
          obtain ⟨p', -, h⟩ := bind_ok h
          exact ih h

theorem read_ok {level : Option Bytes} {args : List Bytes} {v : Invocation}
    (h : Invocation.read level args = .ok v) :
    ∃ outer scope inner, readParts level .start args = .ok ⟨outer, some (scope, inner)⟩ ∧
      v = inner.invocation outer scope (level.bind fun value => (readLevel value).toOption) := by
  unfold Invocation.read at h
  obtain ⟨⟨outer, parts⟩, hparts, h⟩ := bind_ok h
  cases parts with
  | none => cases h
  | some part =>
    cases h
    exact ⟨outer, part.1, part.2, hparts, rfl⟩

/-- If no scope has a level, the one of the environment is in force, and it makes sense. -/
theorem environment_level {level : Option Bytes} {args : List Bytes} {outer inner : Given}
    {scope : Scope} (h : readParts level .start args = .ok ⟨outer, some (scope, inner)⟩)
    (hnone : inner.level = none) :
    (level.bind fun value => (readLevel value).toOption).map Except.ok = level.map readLevel := by
  cases hlevel : level with
  | none => rfl
  | some value =>
    obtain ⟨behind, hinner⟩ := exists_readInner h
    obtain ⟨severity, hread⟩ := readLevel_of_readInner hinner hnone hlevel
    show ((readLevel value).toOption).map Except.ok = some (readLevel value)
    rw [hread]
    rfl

/-! ## What the files say -/

/-- What the files say of the four choices: nothing, if no file is consulted. -/
inductive FileSays (v : Invocation) (i : Inputs) : Overrides → Prop
  | nothing : (∀ p, ¬ Consulted v i p) → FileSays v i ⟨none, none, none, none⟩
  | file {p text said} :
    Consulted v i p → (i.files p).text? = some text →
    Config.said? p text .level = some said.level → Config.said? p text .color = some said.color →
    Config.said? p text .theme = some said.theme →
    Config.said? p text .provider = some said.provider → FileSays v i said

/-- Why the file that is consulted cannot be used. -/
inductive FileFault (v : Invocation) (i : Inputs) : LoadFault → Prop
  | unreadable {p} :
    Consulted v i p → (i.files p).text? = none → FileFault v i (.unreadable p)
  | malformed {p text} :
    Consulted v i p → (i.files p).text? = some text →
    Config.parse? (Format.ofPath? p) text = none →
    FileFault v i (.malformed (Format.ofPath? p) p)

theorem ofFields?_eq_some_iff {said? : {β : Type} → Field β → Option (Option β)} {c : Config} :
    Config.ofFields? said? = some c ↔
      ∃ said : Overrides, said? .level = some said.level ∧ said? .color = some said.color ∧
        said? .theme = some said.theme ∧ said? .provider = some said.provider ∧
        said.apply .default = c := by
  unfold Config.ofFields?
  simp only [Option.bind_eq_bind, Option.bind_eq_some_iff, Option.pure_def, Option.some.injEq]
  constructor
  · rintro ⟨level, hlevel, color, hcolor, theme, htheme, provider, hprovider, rfl⟩
    exact ⟨⟨level, color, theme, provider⟩, hlevel, hcolor, htheme, hprovider, rfl⟩
  · rintro ⟨said, hlevel, hcolor, htheme, hprovider, rfl⟩
    exact ⟨_, hlevel, _, hcolor, _, htheme, _, hprovider, rfl⟩

theorem parse?_eq_some_iff {p : Path} {text : String} {c : Config} :
    Config.parse? (Format.ofPath? p) text = some c ↔
      ∃ said : Overrides, Config.said? p text .level = some said.level ∧
        Config.said? p text .color = some said.color ∧
        Config.said? p text .theme = some said.theme ∧
        Config.said? p text .provider = some said.provider ∧ said.apply .default = c := by
  rw [parse?_eq, Format.read?_eq]
  exact ofFields?_eq_some_iff

/-! ## Loading -/

theorem configured_of_consulted {v : Invocation} {i : Inputs} {p : Path} (h : Consulted v i p) :
    v.configured i = (Config.loadFrom i.files p).map v.overrides.apply := by
  unfold Invocation.configured Config.load
  rw [(consulted?_eq_some_iff v i p).2 h]

theorem configured_of_none {v : Invocation} {i : Inputs} (h : ∀ p, ¬ Consulted v i p) :
    v.configured i = .ok (v.overrides.apply .default) := by
  have hnone : Config.consulted? i.files i.userDirectory v.config = none := by
    refine Option.eq_none_iff_forall_ne_some.2 ?_
    intro p hp
    exact h p ((consulted?_eq_some_iff v i p).1 hp)
  unfold Invocation.configured Config.load
  rw [hnone]
  rfl

theorem configured_of_said {v : Invocation} {i : Inputs} {said : Overrides}
    (h : FileSays v i said) :
    v.configured i = .ok (v.overrides.apply (said.apply .default)) := by
  cases h with
  | nothing hnone => exact configured_of_none hnone
  | file hp htext hlevel hcolor htheme hprovider =>
    have hparse := parse?_eq_some_iff.2 ⟨said, hlevel, hcolor, htheme, hprovider, rfl⟩
    rw [configured_of_consulted hp]
    unfold Config.loadFrom
    simp only [htext, hparse]
    rfl

theorem configured_of_fault {v : Invocation} {i : Inputs} {fault : LoadFault}
    (h : FileFault v i fault) : v.configured i = .error fault := by
  cases h with
  | unreadable hp htext =>
    rw [configured_of_consulted hp]
    unfold Config.loadFrom
    rw [htext]
    rfl
  | malformed hp htext hparse =>
    rw [configured_of_consulted hp]
    unfold Config.loadFrom
    simp only [htext, hparse]
    rfl

/-- A file that is consulted can be used or not. -/
theorem said_or_fault (v : Invocation) (i : Inputs) :
    (∃ said, FileSays v i said) ∨ ∃ fault, FileFault v i fault := by
  by_cases hconsulted : ∃ p, Consulted v i p
  · obtain ⟨p, hp⟩ := hconsulted
    cases htext : (i.files p).text? with
    | none => exact .inr ⟨_, .unreadable hp htext⟩
    | some text =>
      cases hparse : Config.parse? (Format.ofPath? p) text with
      | none => exact .inr ⟨_, .malformed hp htext hparse⟩
      | some c =>
        obtain ⟨said, hlevel, hcolor, htheme, hprovider, -⟩ := parse?_eq_some_iff.1 hparse
        exact .inl ⟨said, .file hp htext hlevel hcolor htheme hprovider⟩
  · exact .inl ⟨_, .nothing (not_exists.1 hconsulted)⟩

theorem configured_ok_iff (v : Invocation) (i : Inputs) (c : Config) :
    v.configured i = .ok c ↔
      ∃ said, FileSays v i said ∧ c = v.overrides.apply (said.apply .default) := by
  constructor
  · intro h
    rcases said_or_fault v i with ⟨said, hsaid⟩ | ⟨fault, hfault⟩
    · exact ⟨said, hsaid, Except.ok.inj (h.symm.trans (configured_of_said hsaid))⟩
    · cases h.symm.trans (configured_of_fault hfault)
  · rintro ⟨said, hsaid, rfl⟩
    exact configured_of_said hsaid

theorem configured_error_iff (v : Invocation) (i : Inputs) (fault : LoadFault) :
    v.configured i = .error fault ↔ FileFault v i fault := by
  constructor
  · intro h
    rcases said_or_fault v i with ⟨said, hsaid⟩ | ⟨fault', hfault⟩
    · cases h.symm.trans (configured_of_said hsaid)
    · cases h.symm.trans (configured_of_fault hfault)
      exact hfault
  · exact configured_of_fault

/-- Nothing but the file that is consulted matters. -/
theorem configured_congr {v : Invocation} {i j : Inputs}
    (hsame : ∀ p, Consulted v i p ↔ Consulted v j p)
    (hfiles : ∀ p, Consulted v i p → i.files p = j.files p) :
    v.configured i = v.configured j := by
  by_cases hconsulted : ∃ p, Consulted v i p
  · obtain ⟨p, hp⟩ := hconsulted
    rw [configured_of_consulted hp, configured_of_consulted ((hsame p).1 hp)]
    unfold Config.loadFrom
    rw [hfiles p hp]
  · have hnone : ∀ p, ¬ Consulted v i p := not_exists.1 hconsulted
    have hnone' : ∀ p, ¬ Consulted v j p := fun p hp => hnone p ((hsame p).2 hp)
    rw [configured_of_none hnone, configured_of_none hnone']

/-- Overrides over overrides are looked at choice by choice. -/
theorem eq_apply_apply_iff (o said : Overrides) (c : Config) :
    c = o.apply (said.apply .default) ↔
      c.level = (o.level.or said.level).getD .info ∧
        c.color = (o.color.or said.color).getD .auto ∧
        c.theme = (o.theme.or said.theme).getD .auto ∧
        c.provider = (o.provider.or said.provider).getD .auto := by
  simp only [Option.getD_or]
  constructor
  · rintro rfl
    exact ⟨rfl, rfl, rfl, rfl⟩
  · intro h
    cases c with
    | mk level color theme provider =>
      obtain ⟨rfl, rfl, rfl, rfl⟩ := h
      rfl

/-- Each choice is the one on the command line, which for the level may be the environment's, or
else the one in the file that is consulted, or else a default. If that file cannot be used there
is no configuration, whatever else is said. No other file matters. -/
theorem configured_layers {level : Option Bytes} {args : List Bytes} {v : Invocation}
    (h : Invocation.read level args = .ok v) :
    (∃ outer scope inner, readParts level .start args = .ok ⟨outer, some (scope, inner)⟩ ∧
      v.config = inner.config.or outer.config ∧
      v.overrides.color = inner.color.or outer.color ∧
      v.overrides.theme = inner.theme.or outer.theme ∧
      v.overrides.provider = inner.provider.or outer.provider ∧
      (∀ severity, inner.level.or outer.level = some severity →
        v.overrides.level = some severity) ∧
      (inner.level.or outer.level = none →
        v.overrides.level.map Except.ok = level.map readLevel)) ∧
    ∀ i : Inputs,
      (∀ c, v.configured i = .ok c ↔
        ∃ said, FileSays v i said ∧
          c.level = (v.overrides.level.or said.level).getD .info ∧
          c.color = (v.overrides.color.or said.color).getD .auto ∧
          c.theme = (v.overrides.theme.or said.theme).getD .auto ∧
          c.provider = (v.overrides.provider.or said.provider).getD .auto) ∧
      (∀ fault, v.configured i = .error fault ↔ FileFault v i fault) ∧
      ∀ j : Inputs, (∀ p, Consulted v i p ↔ Consulted v j p) →
        (∀ p, Consulted v i p → i.files p = j.files p) → v.configured i = v.configured j := by
  refine ⟨?_, ?_⟩
  · obtain ⟨outer, scope, inner, hparts, rfl⟩ := read_ok h
    refine ⟨outer, scope, inner, hparts, rfl, rfl, rfl, rfl, ?_, ?_⟩
    · intro severity hgiven
      show (inner.level.or outer.level).or _ = some severity
      rw [hgiven]
      rfl
    · intro hnone
      show ((inner.level.or outer.level).or _).map _ = _
      rw [hnone, Option.none_or]
      exact environment_level hparts (Option.or_eq_none_iff.1 hnone).1
  · intro i
    refine ⟨?_, configured_error_iff v i, fun j => configured_congr⟩
    intro c
    rw [configured_ok_iff]
    simp only [eq_apply_apply_iff]

/-- A working directory with a file in JSON, and a directory in the place of one in YAML. -/
def sampleFiles : Files := fun p =>
  if p = .ofString "./runlog.json" then
    .contents (Text.encode "\x7b\"ci\": [\"github\"]\x7d")
  else if p = .ofString "./runlog.yaml" then .unreadable
  else .missing

def sampleInputs : Inputs := ⟨sampleFiles, none, [], ⟨.unset, false, ⟨false, false, false, true⟩⟩⟩

def sampleInvocation : Invocation :=
  ⟨none, ⟨some .warn, some .always, none, none⟩, ⟨"", ""⟩, .params [⟨"k", "v"⟩]⟩

/-- A level from the environment, a color from the command line, a provider from a file, and a
theme from nowhere. -/
theorem configured_layers_four :
    Invocation.read (some (Text.encode "warn"))
        (["--color", "always", "with", "k=v"].map Text.encode) = .ok sampleInvocation ∧
      sampleInvocation.configured sampleInputs = .ok ⟨.warn, .always, .auto, .github⟩ := by
  have hread : Invocation.read (some (Text.encode "warn"))
      (["--color", "always", "with", "k=v"].map Text.encode) = .ok sampleInvocation := rfl
  have horder : searchOrder sampleInputs.userDirectory = [Path.ofString "./runlog.toml"] ++
      Path.ofString "./runlog.json" :: [.ofString "./runlog.yaml", .ofString "./runlog.yml"] := by
    decide
  have hbefore : ∀ q ∈ [Path.ofString "./runlog.toml"], sampleInputs.files q = .missing := by decide
  have hconsulted : Consulted sampleInvocation sampleInputs (.ofString "./runlog.json") :=
    .found rfl horder hbefore (by decide)
  have htext : (sampleInputs.files (.ofString "./runlog.json")).text? =
      some "\x7b\"ci\": [\"github\"]\x7d" := by decide +kernel
  have hsaid : FileSays sampleInvocation sampleInputs ⟨none, none, none, some .github⟩ :=
    .file hconsulted htext (by decide +kernel) (by decide +kernel) (by decide +kernel)
      (by decide +kernel)
  exact ⟨hread, (((configured_layers hread).2 sampleInputs).1 _).2 ⟨_, hsaid, rfl, rfl, rfl, rfl⟩⟩

end Command

end StepLog
