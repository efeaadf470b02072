/-
  Saving and loading.

  Saving and loading tell extensions apart each in its own way: there are three cases of what is
  saved, and four of what is tried when loading, the last of which is a row of formats
  (`Format.saving`, `Format.loading`). Whatever the extension, what is saved comes first among what
  is tried (`exists_loading`), and each format reads what is written in it completely
  (`Format.read?_write`). Main statement: `load_saved`.
-/
import StepLog.Proofs.Files.Tree
import StepLog.Proofs.Json.Sections
import StepLog.Proofs.Toml.Sections
import StepLog.Proofs.Yaml.Sections

namespace StepLog

/-! ## Formats -/

/-- What is written in a format is read back in it. -/
theorem Format.read?_write (f : Format) (c : Config) : f.read? (f.write c) = some c := by
  cases f with
  | toml => exact read?_toToml c
  | json => exact read?_toJson c
  | yaml => exact read?_document c

/-- The format in which a file of an extension is saved, if it has one that is text. -/
def Format.saving : Option String → Format
  | some "json" => .json
  | some "yaml" => .yaml
  | some "yml" => .yaml
  | _ => .toml

/-- The formats in which a file of an extension is tried to be loaded, one after the other. -/
def Format.loading : String → List Format
  | "toml" => [.toml]
  | "json" => [.json]
  | "yaml" => [.yaml]
  | "yml" => [.yaml]
  | _ => [.toml, .json, .yaml]

section
variable (extension : Option String)

theorem saving_eq :
    Format.saving extension = (extension.bind Format.ofExtension?).getD .toml := by
  cases extension with
  | none => rfl
  | some s =>
    show _ = (Format.ofExtension? s).getD .toml
    unfold Format.ofExtension?
    split
    · rfl
    · rfl
    · rfl
    · rfl
    · next htoml hjson hyaml hyml =>
      unfold Format.saving
      split
      · next he => exact absurd (Option.some.inj he) hjson
      · next he => exact absurd (Option.some.inj he) hyaml
      · next he => exact absurd (Option.some.inj he) hyml
      · rfl

theorem loading_eq : Format.loading (extension.getD "") =
    (extension.bind Format.ofExtension?).elim [.toml, .json, .yaml] fun f => [f] := by
  cases extension with
  | none => rfl
  | some s =>
    show Format.loading s = (Format.ofExtension? s).elim _ _
    unfold Format.ofExtension?
    split
    · rfl
    · rfl
    · rfl
    · rfl
    · next htoml hjson hyaml hyml =>
      unfold Format.loading
      split
      · next he => exact absurd rfl htoml
      · next he => exact absurd rfl hjson
      · next he => exact absurd rfl hyaml
      · next he => exact absurd rfl hyml
      · rfl

/-- What is saved is what is tried first. -/
theorem exists_loading : ∃ others,
    Format.loading (extension.getD "") = Format.saving extension :: others := by
  rw [loading_eq, saving_eq]
  cases extension.bind Format.ofExtension? with
  | none => exact ⟨_, rfl⟩
  | some f => exact ⟨_, rfl⟩

/-- A dot at the start of a name begins no extension, and case matters. -/
example : [".json", "a.JSON", "a.b.yml"].map (fun p =>
    Format.saving (Path.extensionText? (.ofString p))) = [.toml, .toml, .yaml] := by decide

end

namespace Config

/-- A text is tried in one format after the other. -/
theorem parse?_eq_findSome? (path : Path) (text : String) :
    parse? (Format.ofPath? path) text =
      (Format.loading (path.extensionText?.getD "")).findSome? (·.read? text) := by
  rw [loading_eq]
  show parse? (path.extensionText?.bind Format.ofExtension?) text = _
  cases path.extensionText?.bind Format.ofExtension? with
  | none =>
    show ((Format.toml.read? text).or (Format.json.read? text)).or (Format.yaml.read? text) =
      [Format.toml, .json, .yaml].findSome? (·.read? text)
    simp only [List.findSome?_cons, List.findSome?_nil]
    cases Format.toml.read? text <;> cases Format.json.read? text <;>
      cases Format.yaml.read? text <;> rfl
  | some f =>
    show f.read? text = [f].findSome? (·.read? text)
    simp only [List.findSome?_cons, List.findSome?_nil]
    cases f.read? text <;> rfl

theorem fileText_eq (c : Config) (path : Path) :
    c.fileText path = (Format.saving path.extensionText?).write c := by
  rw [saving_eq]
  rfl

/-! ## Files -/

theorem parse?_fileText (c : Config) (path : Path) :
    parse? (Format.ofPath? path) (c.fileText path) = some c := by
  obtain ⟨others, hloading⟩ := exists_loading path.extensionText?
  rw [parse?_eq_findSome?, hloading, List.findSome?_cons, fileText_eq, Format.read?_write]

/-- A file that holds what was saved to it is loaded. -/
theorem load_of_contents {c : Config} {path : Path} {files : Files}
    (h : files path = .contents (Text.encode (c.fileText path))) (userDirectory : Option Path) :
    load files userDirectory (some path) = .ok c := by
  have htext : (files path).text? = some (c.fileText path) := by
    rw [h]
    exact Text.decode?_encode _
  show loadFrom files path = .ok c
  unfold loadFrom
  rw [htext]
  dsimp only
  rw [parse?_fileText]

/-- A configuration that is saved to a path is loaded from it, whatever the extension of the path:
the format in which it is saved is the first that is tried, and reads all of it. It does not matter
how the file was written, as long as it holds what was saved; where a tree lets the file be
written, it does. -/
theorem load_saved (c : Config) (path : Path) :
    (∃ others, Format.loading (path.extensionText?.getD "") =
        Format.saving path.extensionText? :: others) ∧
    c.fileText path = (Format.saving path.extensionText?).write c ∧
    (Format.saving path.extensionText?).read? (c.fileText path) = some c ∧
    (∀ text, parse? (Format.ofPath? path) text =
      (Format.loading (path.extensionText?.getD "")).findSome? (·.read? text)) ∧
    (∀ (files : Files) (userDirectory : Option Path),
      files path = .contents (Text.encode (c.fileText path)) →
        load files userDirectory (some path) = .ok c) ∧
    ∀ (before after : Tree) (workingDirectory : List Text.Bytes) (userDirectory : Option Path),
      before.write? workingDirectory path (Text.encode (c.fileText path)) = some after →
        load (after.look workingDirectory) userDirectory (some path) = .ok c := by
  refine ⟨exists_loading _, fileText_eq c path, ?_, parse?_eq_findSome? path, ?_, ?_⟩
  · rw [fileText_eq]
    exact Format.read?_write _ c
  · exact fun files userDirectory h => load_of_contents h userDirectory
  · exact fun before after workingDirectory userDirectory h =>
      load_of_contents (Tree.look_write? h) userDirectory

/-- A path through one directory into another: the file is put there, and it is written there. -/
theorem load_saved_nested :
    let c : Config := ⟨.warn, .always, .light, .gitlab⟩
    let path : Path := .ofString "conf/../ci/runlog.yml"
    let saved : Text.Bytes := Text.encode (c.fileText path)
    let before : Tree :=
      (Tree.empty.addDirectory [Text.encode "conf"]).addDirectory [Text.encode "ci"]
    let put : Tree := before.addFile [Text.encode "ci", Text.encode "runlog.yml"] saved
    c.fileText path =
        "output:\n  level: warn\n  color: always\n  theme: light\nci:\n  provider: gitlab\n" ∧
      put.look [] path = .contents saved ∧
      load (put.look []) none (some path) = .ok c ∧
      ∃ after, before.write? [] path saved = some after ∧
        load (after.look []) none (some path) = .ok c := by
  intro c path saved before put
  obtain ⟨-, -, -, -, hcontents, hwritten⟩ := load_saved c path
  have hput : put.look [] path = .contents saved := rfl
  have hwrite : before.write? [] path saved = some put := rfl
  exact ⟨by decide, hput, hcontents (put.look []) none hput, put, hwrite,
    hwritten before put [] none hwrite⟩

end Config

end StepLog
