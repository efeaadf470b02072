/-
  Sessions in which color is refused.

  A printer asks whether color is refused before it asks for anything else that color depends on.
  While it is refused, its color choice, the background and its lexers show in nothing that it
  does: what it prints of a script and of parameters is fixed by their texts (`scriptOn_of_plain`,
  `paramsOn_of_plain`), and groups have no color at all. The surroundings change along a session,
  but only by its steps (`Step.course`), so two printers that get the same signals, which are
  whether color is refused and what the CI system is, get them all along.

  Main statement: two such printers leave the same entries of a session as long as color is
  refused wherever a step of it starts (`session_of_refused`).
-/
import StepLog.Proofs.Session.TwoRuns

namespace StepLog

/-! ## Printing without color -/

section
variable {p q : Printer} {s s' : Surroundings}

theorem isColored_of_refused (h : p.detectors.refusesColor s = true) : p.isColored s = false :=
  if_pos h

theorem scriptLine_of_plain (h : p.isColored s = false) (shell line : String) :
    p.scriptLine s shell line = [Printer.emit .info ("  " ++ line ++ "\n")] := by
  unfold Printer.scriptLine
  rw [h]
  rfl

/-- Without color a script is printed as it is, whatever the printer is. -/
theorem scriptOn_of_plain (h : p.isColored s = false) (enabled : Severity → Bool)
    (label text : String) :
    p.scriptOn s enabled label text =
      if enabled .info then
        .notice (.printingScript (if label.isEmpty then "shell" else label) false) ::
          (Text.linesOf text).map fun line => Printer.emit .info ("  " ++ line ++ "\n")
      else [] := by
  unfold Printer.scriptOn
  cases enabled .info with
  | false => rfl
  | true =>
    dsimp only
    rw [h, List.map_eq_flatMap]
    refine congrArg (_ :: ·) (congrArg (List.flatMap · _) (funext fun line => ?_))
    exact scriptLine_of_plain h _ line

/-- Without color parameters are printed as they are, or the warning is, whatever the printer
is. -/
theorem paramsOn_of_plain (h : p.isColored s = false) (enabled : Severity → Bool) (ps : Params) :
    p.paramsOn s enabled ps =
      if enabled .info then
        match ps.document with
        | .ok document => [Printer.emit .info (Printer.terminated document)]
        | .error fault =>
          [.notice (.unwritableParams fault), Printer.emit .warn ("WARN " ++ fault.message ++ "\n")]
      else [] := by
  unfold Printer.paramsOn
  cases enabled .info with
  | false => rfl
  | true =>
    cases ps.document with
    | ok document =>
      show p.paramsDocument s document = _
      unfold Printer.paramsDocument
      rw [h]
      rfl
    | error fault =>
      show [_, Printer.emit .warn (p.paramsWarning s fault)] = _
      unfold Printer.paramsWarning
      rw [h]
      rfl

end

/-! ## Signals -/

/-- The printers have the same probes for the CI system and for the refusal of color. Their color
choices, probes for the background and lexers are their own. -/
structure Printer.SameSignals (p q : Printer) : Prop where
  github : p.detectors.github = q.detectors.github
  gitlab : p.detectors.gitlab = q.detectors.gitlab
  noColor : p.detectors.noColor = q.detectors.noColor

/-- The surroundings differ at most in the terminal and in what they say of the background. -/
structure Surroundings.SameSignals (s s' : Surroundings) : Prop where
  githubVariable : s.environment.githubActions = s'.environment.githubActions
  gitlabVariable : s.environment.gitlabCi = s'.environment.gitlabCi
  noColorVariable : s.environment.noColor = s'.environment.noColor
  githubAnswer : s.answers.github = s'.answers.github
  gitlabAnswer : s.answers.gitlab = s'.answers.gitlab
  noColorAnswer : s.answers.noColor = s'.answers.noColor

/-- A plain step changes both alike. -/
theorem Surroundings.SameSignals.change {s s' : Surroundings} (h : s.SameSignals s') (step : Step) :
    (step.change s).SameSignals (step.change s') := by
  cases step with
  | setAnswers change =>
    exact ⟨h.githubVariable, h.gitlabVariable, h.noColorVariable,
      congrArg change.github.getD h.githubAnswer, congrArg change.gitlab.getD h.gitlabAnswer,
      congrArg change.noColor.getD h.noColorAnswer⟩
  | setVariables change =>
    exact ⟨congrArg change.githubActions.getD h.githubVariable,
      congrArg change.gitlabCi.getD h.gitlabVariable,
      congrArg change.noColor.getD h.noColorVariable, h.githubAnswer, h.gitlabAnswer,
      h.noColorAnswer⟩
  | script label text => exact h
  | params ps => exact h
  | raw text => exact h
  | writeAt severity text => exact h
  | setLevel level => exact h
  | group name description ending steps => exact h
  | detached step => exact h

section
variable {p q : Printer} (hpq : p.SameSignals q) {s s' : Surroundings} (hs : s.SameSignals s')
include hpq

theorem ciCalls_of_sameSignals : p.detectors.ciCalls = q.detectors.ciCalls := by
  unfold Detectors.ciCalls
  rw [hpq.github, hpq.gitlab]

include hs

theorem refusesColor_of_sameSignals :
    p.detectors.refusesColor s = q.detectors.refusesColor s' := by
  unfold Detectors.refusesColor
  rw [hpq.noColor, hs.noColorVariable, hs.noColorAnswer]

theorem ciEnvironment_of_sameSignals :
    p.detectors.ciEnvironment s = q.detectors.ciEnvironment s' := by
  unfold Detectors.ciEnvironment Detectors.isGithub Detectors.isGitlab
  rw [hpq.github, hpq.gitlab, hs.githubVariable, hs.gitlabVariable, hs.githubAnswer,
    hs.gitlabAnswer]

theorem openGroup_of_sameSignals (hasSink : Bool) (name description : String) :
    p.openGroup s hasSink name description = q.openGroup s' hasSink name description := by
  unfold Printer.openGroup
  rw [ciEnvironment_of_sameSignals hpq hs]

end

/-! ## Surroundings along the way -/

mutual

/-- The surroundings in which the step and those inside it start, and the ones that it leaves. -/
def Step.course (s : Surroundings) : Step → List Surroundings × Surroundings
  | .group _ _ _ steps =>
    let inside := Step.allCourse s steps
    (s :: inside.1, inside.2)
  | .detached step => step.course s
  | .setAnswers change => ([s], (Step.setAnswers change).change s)
  | .setVariables change => ([s], (Step.setVariables change).change s)
  | .script .. | .params _ | .raw _ | .writeAt .. | .setLevel _ => ([s], s)

def Step.allCourse (s : Surroundings) : List Step → List Surroundings × Surroundings
  | [] => ([], s)
  | step :: steps =>
    let first := step.course s
    let others := Step.allCourse first.2 steps
    (first.1 ++ others.1, others.2)

end

mutual

/-- Nothing else changes the surroundings. -/
theorem run_surroundings (x : Setting) (attached : Bool) (st : State) : (step : Step) →
    (x.run attached st step).2.surroundings = (step.course st.surroundings).2
  | .script .. | .params _ => print_surroundings ..
  | .raw _ | .writeAt .. => direct_surroundings ..
  | .setLevel _ | .setAnswers _ | .setVariables _ => rfl
  | .group name description ending steps => by
    unfold Setting.run Step.course
    dsimp only [entry]
    rw [act_surroundings, runAll_surroundings x attached _ steps, act_surroundings]
  | .detached step => run_surroundings x false st step

theorem runAll_surroundings (x : Setting) (attached : Bool) (st : State) : (steps : List Step) →
    (x.runAll attached st steps).2.surroundings = (Step.allCourse st.surroundings steps).2
  | [] => rfl
  | step :: steps => by
    unfold Setting.runAll Step.allCourse
    dsimp only
    rw [runAll_surroundings x attached _ steps, run_surroundings x attached st step]

end

/-! ## Two runs -/

/-- The states have the same sink, and surroundings with the same signals. -/
structure State.Alike (st st' : State) : Prop where
  sink : st.sink = st'.sink
  signals : st.surroundings.SameSignals st'.surroundings

/-- Two runs show the same and leave states that are alike. -/
structure ShowSame {α : Type} (r r' : α × State) : Prop where
  shown : r.1 = r'.1
  states : r.2.Alike r'.2

theorem ShowSame.entry {r r' : List Event × State} (h : ShowSame r r') (kind : EntryKind) :
    ShowSame (entry kind r) (entry kind r') := by
  refine ⟨?_, h.states⟩
  show [Entry.mk kind r.1 r.2.flushes] = [Entry.mk kind r'.1 r'.2.flushes]
  unfold State.flushes
  rw [h.shown, h.states.sink]

theorem ShowSame.append {es fs es' fs' : List Entry} {st₁ st₁' st₂ st₂' : State}
    (h : ShowSame (es, st₁) (es', st₁')) (h' : ShowSame (fs, st₂) (fs', st₂')) :
    ShowSame (es ++ fs, st₂) (es' ++ fs', st₂') := by
  have hes : es = es' := h.shown
  have hfs : fs = fs' := h'.shown
  exact ⟨hes ▸ hfs ▸ rfl, h'.states⟩

section
variable {st st' : State} (h : st.Alike st') (schedule : Schedule)
include h

theorem showSame_act (actions : List Action) :
    ShowSame (st.act schedule actions) (st'.act schedule actions) := by
  induction actions generalizing st st' with
  | nil => exact ⟨rfl, h⟩
  | cons a rest ih =>
    cases a with
    | notice n => exact ⟨congrArg (Event.notice n :: ·) (ih h).shown, (ih h).states⟩
    | call purpose c =>
      cases hs : st.sink with
      | none =>
        rw [act_call_of_no_sink schedule hs, act_call_of_no_sink schedule (h.sink ▸ hs)]
        exact ih h
      | some sink =>
        have hrest : ShowSame
            (State.act schedule { st with sink := some (sink.perform schedule c).2 } rest)
            (State.act schedule { st' with sink := some (sink.perform schedule c).2 } rest) :=
          ih ⟨rfl, h.signals⟩
        rw [act_call schedule hs, act_call schedule (h.sink ▸ hs)]
        exact ⟨congrArg (_ ++ ·) hrest.shown, hrest.states⟩

theorem showSame_print {p q : Printer} (attached : Bool) {as bs : Severity → List Action}
    (hab : ∀ level, as level = bs level) :
    ShowSame (Setting.print ⟨p, schedule⟩ attached st as)
      (Setting.print ⟨q, schedule⟩ attached st' bs) := by
  unfold Setting.print
  cases attached with
  | false => exact ⟨rfl, h⟩
  | true =>
    rw [if_pos rfl, if_pos rfl, ← h.sink]
    cases st.sink with
    | none => exact ⟨rfl, h⟩
    | some sink =>
      dsimp only
      rw [hab]
      exact showSame_act h schedule _

theorem showSame_direct (attached : Bool) (c : Call) :
    ShowSame (if attached then st.direct schedule c else ([], st))
      (if attached then st'.direct schedule c else ([], st')) := by
  cases attached with
  | false => exact ⟨rfl, h⟩
  | true =>
    rw [if_pos rfl, if_pos rfl]
    unfold State.direct
    cases hs : st.sink with
    | none =>
      rw [call_of_no_sink schedule hs, call_of_no_sink schedule (h.sink ▸ hs)]
      exact ⟨rfl, h⟩
    | some sink =>
      rw [call_of_sink schedule hs, call_of_sink schedule (h.sink ▸ hs)]
      exact ⟨rfl, rfl, h.signals⟩

end

theorem showSame_opening {p q : Printer} (hpq : p.SameSignals q) {st st' : State}
    (h : st.Alike st') (schedule : Schedule) (actions : List Action) :
    ShowSame (Setting.opening ⟨p, schedule⟩ st actions)
      (Setting.opening ⟨q, schedule⟩ st' actions) := by
  unfold Setting.opening
  dsimp only
  rw [ciCalls_of_sameSignals hpq]
  have hact := showSame_act h schedule actions
  exact ⟨congrArg (_ ++ ·) hact.shown, hact.states⟩

/-- Steps show the same of both printers, where color is refused. -/
theorem showSame {p q : Printer} (hpq : p.SameSignals q) (schedule : Schedule) :
    TwoRuns ⟨p, schedule⟩ ⟨q, schedule⟩ State.Alike ShowSame
      (fun st step => ∀ s ∈ (step.course st.surroundings).1, p.detectors.refusesColor s = true)
      fun st steps => ∀ s ∈ (Step.allCourse st.surroundings steps).1,
        p.detectors.refusesColor s = true where
  inside hrefused hsame s hs := hrefused s (List.mem_cons_of_mem _ (hsame ▸ hs))
  detached hrefused := hrefused
  head hrefused := (List.forall_mem_append.1 hrefused).1
  tail hrefused := by
    rw [run_surroundings]
    exact (List.forall_mem_append.1 hrefused).2
  states h := h.states
  nil h := ⟨rfl, h⟩
  append := ShowSame.append
  quiet {st st'} kind h := by
    have hshow : ShowSame (([] : List Event), st) ([], st') := ⟨rfl, h⟩
    exact hshow.entry kind
  script {st st' label text} attached h hrefused := by
    have hp := hrefused st.surroundings List.mem_cons_self
    have hq := (refusesColor_of_sameSignals hpq h.signals).symm.trans hp
    refine (showSame_print h schedule attached fun level => ?_).entry .script
    unfold Printer.script
    rw [scriptOn_of_plain (isColored_of_refused hp), scriptOn_of_plain (isColored_of_refused hq)]
  params {st st' ps} attached h hrefused := by
    have hp := hrefused st.surroundings List.mem_cons_self
    have hq := (refusesColor_of_sameSignals hpq h.signals).symm.trans hp
    refine (showSame_print h schedule attached fun level => ?_).entry .params
    unfold Printer.params
    rw [paramsOn_of_plain (isColored_of_refused hp), paramsOn_of_plain (isColored_of_refused hq)]
  raw attached h _ := (showSame_direct h schedule attached _).entry .raw
  writeAt attached h _ := (showSame_direct h schedule attached _).entry .writeAt
  setLevel h _ := ⟨congrArg (Option.map _) h.sink, h.signals⟩
  change step h _ := ⟨h.sink, h.signals.change step⟩
  sink h := congrArg Option.isSome h.sink
  group hasSink name description h := openGroup_of_sameSignals hpq h.signals hasSink name description
  opened kind hasSink h _ := (showSame_opening hpq h schedule _).entry kind
  ended hasSink _ h := (showSame_act h schedule _).entry (.ended _)

/-- Two printers with the same probes for the CI system and for the refusal of color, in
surroundings that differ at most in terminal and background, leave the same entries of a session
in which color is refused wherever a step starts: the same calls with the same outcomes, the same
markers, the same notices and the same questions to the caller's probes. -/
theorem session_of_refused {p q : Printer} (hpq : p.SameSignals q) {s s' : Surroundings}
    (hs : s.SameSignals s') (schedule : Schedule) (sink : Option Sink) {steps : List Step}
    (hrefused : ∀ s₁ ∈ (Step.allCourse s steps).1, p.detectors.refusesColor s₁ = true) :
    Setting.session ⟨p, schedule⟩ sink s steps = Setting.session ⟨q, schedule⟩ sink s' steps := by
  have halike : State.Alike ⟨sink, s⟩ ⟨sink, s'⟩ := ⟨rfl, hs⟩
  exact ((showSame hpq schedule).runAll true steps halike hrefused).shown

/-- Always colored by lexers that refuse everything, on a light terminal, against never colored on
a dark one. -/
theorem session_of_refused_failing :
    let refusing : Lexer := ⟨fun _ => .error ⟨"own", .nul 0⟩⟩
    let p : Printer := ⟨.always, .supplied, refusing, refusing⟩
    let q : Printer := .new .never { Detectors.supplied with darkBackground := .environment }
    let s : Surroundings := ⟨.unset, true, ⟨true, false, true, false⟩⟩
    let s' : Surroundings := ⟨.unset, false, ⟨true, false, true, true⟩⟩
    let sink : Option Sink := some (.new .writer .info)
    let steps : List Step :=
      [.group "build" "" .drop
        [.script "" "echo", .setAnswers ⟨some false, none, none, some true⟩,
          .params (.ofList [("on", .failing "a function")])],
        .detached (.script "sh" "ls")]
    p.SameSignals q ∧ s.SameSignals s' ∧
      (∀ s₁ ∈ (Step.allCourse s steps).1, p.detectors.refusesColor s₁ = true) ∧
      Setting.session ⟨p, .none⟩ sink s steps = Setting.session ⟨q, .none⟩ sink s' steps ∧
      (Setting.session ⟨p, .none⟩ sink s steps).flatMap Entry.attempted =
        [⟨.raw, .marker (.githubOpen "build" "")⟩, ⟨.at .info, .text "  echo\n"⟩,
          ⟨.at .warn, .text "WARN failed to marshal builtin: a function\n"⟩,
          ⟨.raw, .marker .githubClose⟩] := by
  intro refusing p q s s' sink steps
  have hpq : p.SameSignals q := ⟨rfl, rfl, rfl⟩
  have hs : s.SameSignals s' := ⟨rfl, rfl, rfl, rfl, rfl, rfl⟩
  have hrefused : ∀ s₁ ∈ (Step.allCourse s steps).1, p.detectors.refusesColor s₁ = true := by
    decide
  exact ⟨hpq, hs, hrefused, session_of_refused hpq hs .none sink hrefused, by decide +kernel⟩

end StepLog
