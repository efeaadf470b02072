/-
  What a printer asks of its sink.

  A script is one call for each of its lines, a block of parameters is one call, both at `info`
  and only if the sink says that `info` is enabled (`callsOf_scriptOn`, `callsOf_paramsOn`).
  Whether a text is colored decides what it looks like and not how many calls there are.
  Groups make calls for markers only (`callsOf_group`).
-/
import StepLog.Proofs.Session.Groups
import StepLog.Proofs.Session.Recorded

namespace StepLog.Printer

variable (p : Printer) (s : Surroundings)

/-- A call that prints text at a severity. -/
def printed (severity : Severity) (text : String) : Call := ⟨.at severity, .text text⟩

/-! ## Scripts -/

/-- A script line as it is written, colored if the printer colors and the lexer accepts it. -/
def lineText (line : String) : String :=
  if p.isColored s then
    match p.shellLexer.tokenize line with
    | .ok tokens => Style.paint .shell (p.theme s) tokens
    | .error _ => line
  else line

theorem callsOf_scriptLine (shell line : String) :
    callsOf (p.scriptLine s shell line) = [printed .info ("  " ++ p.lineText s line ++ "\n")] := by
  unfold scriptLine lineText
  split
  · cases p.shellLexer.tokenize line with
    | ok tokens => rfl
    | error fault => rfl
  · rfl

/-- A script is printed in one call for each line. -/
theorem callsOf_scriptOn (enabled : Severity → Bool) (label text : String) :
    callsOf (p.scriptOn s enabled label text) =
      if enabled .info then
        (Text.linesOf text).map fun line => printed .info ("  " ++ p.lineText s line ++ "\n")
      else [] := by
  unfold scriptOn
  cases enabled .info with
  | false => rfl
  | true =>
    show callsOf ((Text.linesOf text).flatMap (p.scriptLine s _)) = _
    rw [callsOf_flatMap, if_pos rfl, List.map_eq_flatMap]
    exact congrArg (List.flatMap · _) (funext fun line => callsOf_scriptLine p s _ line)

theorem printed_scriptOn (enabled : Severity → Bool) (label text : String) :
    ∀ c ∈ callsOf (p.scriptOn s enabled label text),
      ∃ severity text, c = printed severity text := by
  rw [callsOf_scriptOn]
  split
  · intro c hc
    obtain ⟨line, -, rfl⟩ := List.mem_map.1 hc
    exact ⟨.info, _, rfl⟩
  · nofun

/-! ## Parameters -/

/-- A document as it is written, colored if the printer colors and the lexer accepts it. -/
def documentText (document : String) : String :=
  terminated (if p.isColored s then
    match p.yamlLexer.tokenize document with
    | .ok tokens => Style.paint .keyValue (p.theme s) tokens
    | .error _ => document
  else document)

theorem callsOf_paramsDocument (document : String) :
    callsOf (p.paramsDocument s document) = [printed .info (p.documentText s document)] := by
  unfold paramsDocument documentText
  split
  · cases p.yamlLexer.tokenize document with
    | ok tokens => rfl
    | error fault => rfl
  · rfl

/-- Parameters are printed in one call: the document, or the warning in its place. -/
theorem callsOf_paramsOn (enabled : Severity → Bool) (ps : Params) :
    callsOf (p.paramsOn s enabled ps) =
      if enabled .info then
        [match ps.document with
          | .ok document => printed .info (p.documentText s document)
          | .error fault => printed .warn (p.paramsWarning s fault)]
      else [] := by
  unfold paramsOn
  cases enabled .info with
  | false => rfl
  | true =>
    cases ps.document with
    | ok document => exact callsOf_paramsDocument p s document
    | error fault => rfl

theorem printed_paramsOn (enabled : Severity → Bool) (ps : Params) :
    ∀ c ∈ callsOf (p.paramsOn s enabled ps), ∃ severity text, c = printed severity text := by
  rw [callsOf_paramsOn]
  split
  · refine List.forall_mem_singleton.2 ?_
    split
    · exact ⟨.info, _, rfl⟩
    · exact ⟨.warn, _, rfl⟩
  · nofun

/-! ## Groups -/

/-- A call that writes a marker. -/
def marked (m : Marker) : Call := ⟨.raw, .marker m⟩

/-- What opens and ends a group is markers. -/
theorem callsOf_group (hasSink : Bool) (name description : String) (ending : Ending) :
    ∃ opening closing : List Marker,
      callsOf (p.openGroup s hasSink name description).1 = opening.map marked ∧
        callsOf ((p.openGroup s hasSink name description).2.finishBy ending) =
          closing.map marked := by
  rcases openGroup_cases p s hasSink name description with
    ⟨-, e⟩ | ⟨opening, closing, -, -, -, e⟩
  · rw [e, finishBy_inert]
    exact ⟨[], [], rfl, rfl⟩
  · rw [e, finishBy_marked]
    exact ⟨[opening], [closing], rfl, rfl⟩

end StepLog.Printer
