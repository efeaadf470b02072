/-
  Color never changes the text.

  Two settings with the lexers of this library run the same steps, the first in surroundings
  where it colors, the second in surroundings where it does not. `SameText` relates two calls
  if erasing the color sequences from the text of the first gives the text of the second. Each
  way of printing makes calls that are related one by one: lines of scripts, documents, the
  warning in the place of a document, and markers, which are the same in both runs. The two
  sinks stay equal, so it holds of nested groups and of whole sessions as well
  (`sameText_session`).
-/
import StepLog.Proofs.Params.Texts
import StepLog.Proofs.Session.Recorded
import StepLog.Proofs.Session.TwoRuns
import StepLog.Proofs.Shell.Lossless
import StepLog.Proofs.Style.Erase
import StepLog.Proofs.Yaml.Lossless

namespace StepLog

open Style (erase erase_append erase_of_not_mem)

/-- The second call goes to the same target, and its text is that of the first without color
sequences, at whatever time both are written. -/
structure SameText (c c' : Call) : Prop where
  target : c.target = c'.target
  empty : c.payload.isEmpty = c'.payload.isEmpty
  text : ∀ time, erase (c.payload.render time).toList = (c'.payload.render time).toList

theorem SameText.alike {c c' : Call} (h : SameText c c') : c.Alike c' := ⟨h.target, h.empty⟩

/-- Text without the escape character is its own. -/
theorem sameText_self (target : Target) {text : String} (h : '\x1b' ∉ text.toList) :
    SameText ⟨target, .text text⟩ ⟨target, .text text⟩ :=
  ⟨rfl, rfl, fun _ => erase_of_not_mem h⟩

theorem sameText_of_ne (target : Target) {text text' : String} (hne : text ≠ "")
    (hne' : text' ≠ "") (h : erase text.toList = text'.toList) :
    SameText ⟨target, .text text⟩ ⟨target, .text text'⟩ := by
  refine ⟨rfl, ?_, fun _ => h⟩
  have he : text.isEmpty = false := by simpa using hne
  have he' : text'.isEmpty = false := by simpa using hne'
  exact he.trans he'.symm

/-- Two settings and their surroundings: own lexers, color in the first and none in the
second, the same refusals and the same CI environment. Themes may differ. -/
structure Recoloring (x : Setting) (s : Surroundings) (y : Setting) (s' : Surroundings) :
    Prop where
  shell : x.printer.shellLexer = Shell.lexer
  yaml : x.printer.yamlLexer = Yaml.lexer
  colored : x.printer.isColored s = true
  plain : y.printer.isColored s' = false
  schedule : x.schedule = y.schedule
  environment : x.printer.detectors.ciEnvironment s = y.printer.detectors.ciEnvironment s'

variable {x y : Setting} {s s' : Surroundings}

/-! ## Scripts -/

/-- A line that was rendered in front of anything, and the line itself. -/
theorem sameText_put {rendered line : String}
    (h : ∀ t, erase (rendered.toList ++ t) = line.toList ++ erase t) :
    SameText ⟨.at .info, .text ("  " ++ rendered ++ "\n")⟩
      ⟨.at .info, .text ("  " ++ line ++ "\n")⟩ := by
  refine sameText_of_ne _ (by simp) (by simp) ?_
  simp only [String.toList_append, List.append_assoc]
  rw [erase_append (by decide), h, erase_of_not_mem (by decide)]

theorem Recoloring.scriptLine (h : Recoloring x s y s') (shell : String) {line : String}
    (hl : '\x1b' ∉ line.toList) :
    List.Forall₂ SameText (callsOf (x.printer.scriptLine s shell line))
      (callsOf (y.printer.scriptLine s' shell line)) := by
  unfold Printer.scriptLine
  dsimp only
  rw [if_pos h.colored, h.plain, h.shell]
  split
  · next tokens ht =>
    have hcut := (Shell.cuts_tokenize ht).chars
    refine .cons (sameText_put fun t => ?_) .nil
    rw [Style.erase_paint _ _ (by rwa [hcut]), hcut]
  · exact .cons (sameText_put fun t => erase_append hl t) .nil

theorem Recoloring.script (h : Recoloring x s y s') (level : Severity) (label : String)
    {text : String} (ht : '\x1b' ∉ text.toList) :
    List.Forall₂ SameText (callsOf (x.printer.script s level label text))
      (callsOf (y.printer.script s' level label text)) := by
  unfold Printer.script Printer.scriptOn
  split
  · exact .nil
  · show List.Forall₂ SameText
      (callsOf ((Text.linesOf text).flatMap (x.printer.scriptLine s _)))
      (callsOf ((Text.linesOf text).flatMap (y.printer.scriptLine s' _)))
    rw [callsOf_flatMap, callsOf_flatMap]
    refine forall₂_flatMap _ fun line hl => h.scriptLine _ ?_
    obtain ⟨l, hmem, rfl⟩ := List.mem_map.1 hl
    rw [String.toList_ofList]
    exact fun hc => ht (Text.subset_of_mem_lines hmem hc)

/-! ## Parameters -/

theorem terminated_ne (text : String) : Printer.terminated text ≠ "" := by
  unfold Printer.terminated
  split
  · next h =>
    rintro rfl
    cases h
  · simp

theorem Recoloring.paramsDocument (h : Recoloring x s y s') {document : String}
    (hd : '\x1b' ∉ document.toList) :
    List.Forall₂ SameText (callsOf (x.printer.paramsDocument s document))
      (callsOf (y.printer.paramsDocument s' document)) := by
  unfold Printer.paramsDocument
  rw [if_pos h.colored, h.plain, h.yaml]
  split
  · next tokens ht =>
    have hcut := (Yaml.cuts_tokenize ht).chars
    exact .cons (sameText_of_ne _ (terminated_ne _) (terminated_ne _)
      (Style.erase_terminated _ _ hcut hd)) .nil
  · refine .cons (sameText_self _ ?_) .nil
    rw [Style.toList_terminated, List.mem_append, not_or]
    refine ⟨hd, ?_⟩
    split
    · exact List.not_mem_nil
    · decide

theorem Recoloring.paramsWarning (h : Recoloring x s y s') {fault : MarshalFault}
    (hf : '\x1b' ∉ fault.message.toList) :
    SameText ⟨.at .warn, .text (x.printer.paramsWarning s fault)⟩
      ⟨.at .warn, .text (y.printer.paramsWarning s' fault)⟩ := by
  unfold Printer.paramsWarning
  refine sameText_of_ne _ (by simp) (by simp) ?_
  rw [h.plain]
  simp only [String.toList_append, List.append_assoc]
  rw [Style.erase_severityLabel, erase_append (by decide), erase_append hf,
    erase_of_not_mem (by decide)]
  rfl

theorem Recoloring.params (h : Recoloring x s y s') (level : Severity) {ps : Params}
    (hp : Clean ps.texts) :
    List.Forall₂ SameText (callsOf (x.printer.params s level ps))
      (callsOf (y.printer.params s' level ps)) := by
  unfold Printer.params Printer.paramsOn
  split
  · exact .nil
  · have hclean := Params.document_clean hp
    cases hd : ps.document with
    | ok document =>
      rw [hd] at hclean
      exact h.paramsDocument hclean
    | error fault =>
      rw [hd] at hclean
      exact .cons (h.paramsWarning hclean) .nil

/-! ## Groups -/

/-- The sequences around a section that GitLab reads are no color sequences. -/
theorem erase_clearLine (t : List Char) :
    erase ("\x1b[0K".toList ++ t) = "\x1b[0K".toList ++ erase t := by
  show erase ('\x1b' :: "[0K".toList ++ t) = '\x1b' :: ("[0K".toList ++ erase t)
  rw [List.cons_append, Style.erase_of_none rfl, erase_append (by decide)]

theorem not_mem_time (time : Int) : '\x1b' ∉ (toString time).toList :=
  not_mem_of_printable (Yaml.printable_int time)

/-- The markers of a group hold no color sequences, if its name and description hold none. -/
theorem erase_marker {name description : String} (hc : Clean [name, description])
    {environment : CiEnvironment} {opening closing : Marker}
    (h : Marker.Encloses name description environment opening closing) (time : Int) :
    erase (opening.render time).toList = (opening.render time).toList ∧
      erase (closing.render time).toList = (closing.render time).toList := by
  have hn : '\x1b' ∉ name.toList := hc name List.mem_cons_self
  have hd : '\x1b' ∉ description.toList := hc description (by simp)
  cases h with
  | github =>
    have hend : '\x1b' ∉ "::endgroup::\n".toList := by decide
    refine ⟨?_, erase_of_not_mem hend⟩
    unfold Marker.render
    dsimp only
    split
    · simp only [String.toList_append, List.append_assoc]
      rw [erase_append (by decide), erase_append hn, erase_of_not_mem (by decide)]
    · simp only [String.toList_append, List.append_assoc]
      rw [erase_append (by decide), erase_append hn, erase_append (by decide), erase_append hd,
        erase_of_not_mem (by decide)]
  | gitlab =>
    have hheader : '\x1b' ∉ (if description.isEmpty then name else description).toList := by
      split
      · exact hn
      · exact hd
    have hopen : "\x1b[0Ksection_start:".toList = "\x1b[0K".toList ++ "section_start:".toList := rfl
    have hmid : "[collapsed=true]\r\x1b[0K".toList =
        "[collapsed=true]\r".toList ++ "\x1b[0K".toList := rfl
    have hclose : "\x1b[0Ksection_end:".toList = "\x1b[0K".toList ++ "section_end:".toList := rfl
    have hend : "\r\x1b[0K".toList = "\r".toList ++ ("\x1b[0K".toList ++ []) := rfl
    unfold Marker.render
    dsimp only
    constructor
    · simp only [String.toList_append, hopen, hmid, List.append_assoc]
      rw [erase_clearLine, erase_append (by decide), erase_append (not_mem_time time),
        erase_append (by decide), erase_append hn, erase_append (by decide), erase_clearLine,
        erase_of_not_mem hheader]
    · simp only [String.toList_append, hclose, hend, List.append_assoc]
      rw [erase_clearLine, erase_append (by decide), erase_append (not_mem_time time),
        erase_append (by decide), erase_append hn, erase_append (by decide), erase_clearLine,
        erase_of_not_mem List.not_mem_nil]

theorem Recoloring.openGroup (h : Recoloring x s y s') (hasSink : Bool)
    (name description : String) :
    x.printer.openGroup s hasSink name description =
      y.printer.openGroup s' hasSink name description := by
  unfold Printer.openGroup
  rw [h.environment]

/-- What a group writes around its steps holds no color sequences. -/
theorem sameText_group (p : Printer) (s : Surroundings) (hasSink : Bool)
    {name description : String} (hc : Clean [name, description]) (ending : Ending) :
    (∀ c ∈ callsOf (p.openGroup s hasSink name description).1, SameText c c) ∧
      ∀ c ∈ callsOf ((p.openGroup s hasSink name description).2.finishBy ending),
        SameText c c := by
  rcases openGroup_cases p s hasSink name description with
    ⟨-, e⟩ | ⟨opening, closing, -, -, hm, e⟩
  · rw [e, finishBy_inert]
    refine ⟨?_, ?_⟩
    · intro c hc
      cases hc
    · intro c hc
      cases hc
  · rw [e, finishBy_marked]
    refine ⟨?_, ?_⟩
    · intro c hmem
      rw [List.mem_singleton.1 hmem]
      exact ⟨rfl, rfl, fun time => (erase_marker hc hm time).1⟩
    · intro c hmem
      rw [List.mem_singleton.1 hmem]
      exact ⟨rfl, rfl, fun time => (erase_marker hc hm time).2⟩

/-! ## Steps -/

mutual

/-- The step prints, or sets the level, and the text that it prints holds no escape
character: scripts, names and texts of parameters, reasons for not writing them, names and
descriptions of groups, text of its own. -/
def Step.PrintsClean : Step → Prop
  | .script _ text => '\x1b' ∉ text.toList
  | .params ps => Clean ps.texts
  | .raw text => '\x1b' ∉ text.toList
  | .writeAt _ text => '\x1b' ∉ text.toList
  | .setLevel _ => True
  | .setAnswers _ => False
  | .setVariables _ => False
  | .group name description _ steps => Clean [name, description] ∧ Step.AllPrintClean steps
  | .detached step => step.PrintsClean

def Step.AllPrintClean : List Step → Prop
  | [] => True
  | step :: steps => step.PrintsClean ∧ Step.AllPrintClean steps

end

/-- Two states with equal sinks, whose surroundings differ in what is said about color. -/
structure Twins (x : Setting) (st : State) (y : Setting) (st' : State) : Prop where
  recoloring : Recoloring x st.surroundings y st'.surroundings
  sink : st.sink = st'.sink

/-- What two runs leave: recorded calls of the same text, and twin states. -/
structure SameRun (x : Setting) (r : List Entry × State) (y : Setting) (r' : List Entry × State) :
    Prop where
  text : List.Forall₂ SameText (r.1.flatMap Entry.recorded) (r'.1.flatMap Entry.recorded)
  twins : Twins x r.2 y r'.2

theorem Twins.sameRun_entry {st st' : State} (h : Twins x st y st') (kind : EntryKind)
    {r r' : List Event × State} (hr : Related SameText r r')
    (hs : r.2.surroundings = st.surroundings) (hs' : r'.2.surroundings = st'.surroundings) :
    SameRun x (entry kind r) y (entry kind r') := by
  refine ⟨?_, ?_, hr.sink⟩
  · show List.Forall₂ SameText (recorded r.1 ++ []) (recorded r'.1 ++ [])
    rw [List.append_nil, List.append_nil]
    exact hr.recorded
  · show Recoloring x r.2.surroundings y r'.2.surroundings
    rw [hs, hs']
    exact h.recoloring

theorem SameRun.append {es fs es' fs' : List Entry} {st₁ st₁' st₂ st₂' : State}
    (h : SameRun x (es, st₁) y (es', st₁')) (h' : SameRun x (fs, st₂) y (fs', st₂')) :
    SameRun x (es ++ fs, st₂) y (es' ++ fs', st₂') := by
  refine ⟨?_, h'.twins⟩
  simp only [List.flatMap_append]
  exact List.rel_append h.text h'.text

/-- A step that prints. -/
theorem Twins.print {st st' : State} (h : Twins x st y st') (attached : Bool) (kind : EntryKind)
    {as bs : Severity → List Action}
    (hab : ∀ level, List.Forall₂ SameText (callsOf (as level)) (callsOf (bs level))) :
    SameRun x (entry kind (x.print attached st as)) y (entry kind (y.print attached st' bs)) :=
  h.sameRun_entry kind
    (Related.print SameText.alike y.schedule h.recoloring.schedule rfl attached h.sink hab)
    (print_surroundings ..) (print_surroundings ..)

/-- A step that makes a call of its own. -/
theorem Twins.direct {st st' : State} (h : Twins x st y st') (attached : Bool) (kind : EntryKind)
    {c : Call} (hc : SameText c c) :
    SameRun x (entry kind (if attached then st.direct x.schedule c else ([], st)))
      y (entry kind (if attached then st'.direct y.schedule c else ([], st'))) := by
  rw [h.recoloring.schedule]
  exact h.sameRun_entry kind (Related.direct SameText.alike y.schedule attached h.sink hc)
    (direct_surroundings ..) (direct_surroundings ..)

/-- Actions that both runs carry out. -/
theorem Twins.act {st st' : State} (h : Twins x st y st') {actions : List Action}
    (ha : ∀ c ∈ callsOf actions, SameText c c) :
    Related SameText (st.act x.schedule actions) (st'.act y.schedule actions) := by
  rw [h.recoloring.schedule]
  exact Related.act SameText.alike y.schedule h.sink (List.forall₂_same.2 ha)

/-- Actions that both runs carry out when a group is opened. -/
theorem Twins.opening {st st' : State} (h : Twins x st y st') {actions : List Action}
    (ha : ∀ c ∈ callsOf actions, SameText c c) :
    Related SameText (x.opening st actions) (y.opening st' actions) := by
  obtain ⟨hrec, hsink⟩ := h.act ha
  refine ⟨?_, hsink⟩
  unfold Setting.opening
  rw [recorded_append, recorded_append, recorded_probed, recorded_probed]
  exact hrec

/-- Steps that print clean write the same text in both runs. -/
theorem sameRun (x y : Setting) :
    TwoRuns x y (Twins x · y ·) (SameRun x · y ·) (fun _ step => step.PrintsClean)
      fun _ steps => Step.AllPrintClean steps where
  inside hc _ := hc.2
  detached hc := hc
  head hc := hc.1
  tail hc := hc.2
  states h := h.twins
  nil h := ⟨.nil, h⟩
  append := SameRun.append
  quiet kind h := ⟨.nil, h⟩
  script attached h hc := h.print attached .script fun level => h.recoloring.script level _ hc
  params attached h hc := h.print attached .params fun level => h.recoloring.params level hc
  raw attached h hc := h.direct attached .raw (sameText_self .raw hc)
  writeAt attached h hc := h.direct attached .writeAt (sameText_self _ hc)
  setLevel h _ := ⟨h.recoloring, congrArg (Option.map _) h.sink⟩
  change step h hc := by
    cases step with
    | setAnswers change => exact absurd hc id
    | setVariables change => exact absurd hc id
    | _ => exact h
  sink h := congrArg Option.isSome h.sink
  group hasSink name description h := h.recoloring.openGroup hasSink name description
  opened {st st' name description ending steps} kind hasSink h hc := by
    have hclean := sameText_group x.printer st.surroundings hasSink hc.1 ending
    exact h.sameRun_entry kind (h.opening hclean.1) (act_surroundings ..) (act_surroundings ..)
  ended {st st₁ st₁' name description ending steps} hasSink hc h := by
    have hclean := sameText_group x.printer st.surroundings hasSink hc.1 ending
    exact h.sameRun_entry (.ended ending) (h.act hclean.2) (act_surroundings ..)
      (act_surroundings ..)

/-- A session that colors records the calls of the session that does not, in the same order,
and erasing the color sequences from each text gives the text of the other. -/
theorem sameText_session (h : Recoloring x s y s') (sink : Option Sink) {steps : List Step}
    (hc : Step.AllPrintClean steps) :
    List.Forall₂ SameText ((x.session sink s steps).flatMap Entry.recorded)
      ((y.session sink s' steps).flatMap Entry.recorded) := by
  have htwins : Twins x ⟨sink, s⟩ y ⟨sink, s'⟩ := ⟨h, rfl⟩
  exact ((sameRun x y).runAll true steps htwins hc).text

/-- A group for GitLab with a script in it, printed on a dark terminal with color and on a
light one without. -/
theorem sameText_build :
    let x : Setting := ⟨.new .always (Detectors.plain.withProvider .gitlab), .none⟩
    let y : Setting :=
      ⟨.new .never ((Detectors.plain.withProvider .gitlab).withTheme .light), .none⟩
    let s : Surroundings := ⟨.unset, false, ⟨false, false, false, true⟩⟩
    let steps : List Step := [.group "build" "" .drop [.script "" "make", .params .empty]]
    Recoloring x s y s ∧ Step.AllPrintClean steps ∧
      List.Forall₂ SameText
        ((x.session (some (.new .writer .info)) s steps).flatMap Entry.recorded)
        ((y.session (some (.new .writer .info)) s steps).flatMap Entry.recorded) ∧
      (x.session (some (.new .writer .info)) s steps).flatMap Entry.recorded =
        [⟨.raw, .marker (.gitlabOpen "build" "build")⟩,
          ⟨.at .info, .text "  \x1b[38;5;150mmake\x1b[0m\n"⟩,
          ⟨.at .info, .text ("\x1b[38;5;141mwith\x1b[0m\x1b[38;5;110m:\x1b[0m " ++
            "\x1b[38;5;189m\x7b\x7d\x1b[0m\n")⟩,
          ⟨.raw, .marker (.gitlabClose "build")⟩] := by
  intro x y s steps
  have h : Recoloring x s y s := ⟨rfl, rfl, rfl, rfl, rfl, rfl⟩
  have hc : Step.AllPrintClean steps := by
    refine ⟨⟨?_, ?_, ?_, trivial⟩, trivial⟩
    · intro text ht
      simp only [List.mem_cons, List.not_mem_nil, or_false] at ht
      rcases ht with rfl | rfl <;> decide
    · show '\x1b' ∉ "make".toList
      decide
    · intro text ht
      cases ht
  exact ⟨h, hc, sameText_session h (some (.new .writer .info)) hc, by decide +kernel⟩

end StepLog
