/-
  Which CI system a session asks for, and when.

  A session on inquiries (`Setting.runAsking`) has for its events the questions that the
  printer asked, as far as the caller's probes answer them, and the calls that came of the
  answers. It leaves the entries of the session itself (`sessionAsking_eq`). So the questions are
  counted where they are asked, and `Step.detections` tells from the steps alone what they
  are: both of them at the opening of each group, and none elsewhere. It also tells the
  markers of each group, from the answers at its opening.

  Main statement: with the caller's probes for the CI system, every session asks these questions and
  writes these markers, and asks each question as often as it opens groups
  (`detections_session`).
-/
import StepLog.Proofs.Printer.Inquiries
import StepLog.Proofs.Session.Groups
import Mathlib.Algebra.GroupWithZero.Nat

namespace StepLog

/-! ## Sessions on inquiries -/

/-- The questions that the caller's probes answer, out of all that are asked. -/
def Detectors.supplies (d : Detectors) : CiQuestion → Bool
  | .github => d.github == .supplied
  | .gitlab => d.gitlab == .supplied

/-- Asks, and carries out the actions that the answers lead to. What the inquiry came to is
kept. -/
def Setting.pursue {α : Type} (x : Setting) (st : State) (inquiry : Inquiry α)
    (actions : α → List Action) : α × List Event × State :=
  let d := x.printer.detectors
  let answer := d.answer st.surroundings
  let result := inquiry.result answer
  let acted := st.act x.schedule (actions result)
  (result, ((inquiry.ciAsked answer).filter d.supplies).map Event.probed ++ acted.1, acted.2)

/-- The severities that pass the sink which a step has. -/
def State.passing (st : State) (attached : Bool) : Option (Severity → Bool) :=
  if attached then st.sink.map fun sink => (·.passes sink.level) else none

mutual

/-- Runs a step, which asks what it needs to know. Nothing but printing and the opening of a group
has a printer to ask. -/
def Setting.runAsking (x : Setting) (attached : Bool) (st : State) : Step → List Entry × State
  | .script label text =>
    entry .script (x.pursue st (x.printer.scriptInquiry (st.passing attached) label text) id).2
  | .params ps =>
    entry .params (x.pursue st (x.printer.paramsInquiry (st.passing attached) ps) id).2
  | .group name description ending steps =>
    let hasSink := attached && st.sink.isSome
    let opening := x.pursue st (Printer.groupInquiry hasSink name description) Prod.fst
    let group := opening.1.2
    let opened := entry (.opened group.isOpen hasSink) opening.2
    let inside := x.runAllAsking attached opened.2 steps
    let ended := entry (.ended ending) (inside.2.act x.schedule (group.finishBy ending))
    (opened.1 ++ inside.1 ++ ended.1, ended.2)
  | .detached step => x.runAsking false st step
  | .raw text => x.run attached st (.raw text)
  | .writeAt severity text => x.run attached st (.writeAt severity text)
  | .setLevel level => x.run attached st (.setLevel level)
  | .setAnswers change => x.run attached st (.setAnswers change)
  | .setVariables change => x.run attached st (.setVariables change)

def Setting.runAllAsking (x : Setting) (attached : Bool) (st : State) :
    List Step → List Entry × State
  | [] => ([], st)
  | step :: steps =>
    let first := x.runAsking attached st step
    let others := x.runAllAsking attached first.2 steps
    (first.1 ++ others.1, others.2)

end

def Setting.sessionAsking (x : Setting) (sink : Option Sink) (s : Surroundings)
    (steps : List Step) : List Entry :=
  (x.runAllAsking true ⟨sink, s⟩ steps).1

section
variable (x : Setting) (attached : Bool) (st : State)

theorem supplies_ciCalls (d : Detectors) :
    [CiQuestion.github, .gitlab].filter d.supplies = d.ciCalls := by
  unfold Detectors.ciCalls
  by_cases hgithub : d.github = .supplied <;> by_cases hgitlab : d.gitlab = .supplied <;>
    simp [Detectors.supplies, hgithub, hgitlab]

/-- An inquiry without questions about the CI system leaves the events of its actions. -/
theorem pursue_of_not_asked {α : Type} {inquiry : Inquiry α} (actions : α → List Action)
    (h : inquiry.ciAsked (x.printer.detectors.answer st.surroundings) = []) :
    (x.pursue st inquiry actions).2 = st.act x.schedule
      (actions (inquiry.result (x.printer.detectors.answer st.surroundings))) := by
  unfold Setting.pursue
  dsimp only
  rw [h]
  rfl

theorem print_eq_act (actions : (Severity → Bool) → List Action) :
    x.print attached st (fun level => actions (·.passes level)) =
      st.act x.schedule ((st.passing attached).elim [] actions) := by
  unfold Setting.print State.passing
  cases attached with
  | false => rfl
  | true => cases st.sink <;> rfl

theorem pursue_script (label text : String) :
    (x.pursue st (x.printer.scriptInquiry (st.passing attached) label text) id).2 =
      x.print attached st fun level => x.printer.script st.surroundings level label text := by
  rw [pursue_of_not_asked x st id (ciAsked_script ..), result_script]
  exact (print_eq_act x attached st fun enabled =>
    x.printer.scriptOn st.surroundings enabled label text).symm

theorem pursue_params (ps : Params) :
    (x.pursue st (x.printer.paramsInquiry (st.passing attached) ps) id).2 =
      x.print attached st fun level => x.printer.params st.surroundings level ps := by
  rw [pursue_of_not_asked x st id (ciAsked_params ..), result_params]
  exact (print_eq_act x attached st fun enabled =>
    x.printer.paramsOn st.surroundings enabled ps).symm

theorem pursue_group (hasSink : Bool) (name description : String) :
    x.pursue st (Printer.groupInquiry hasSink name description) Prod.fst =
      let group := x.printer.openGroup st.surroundings hasSink name description
      let opening := st.act x.schedule group.1
      (group, x.printer.detectors.ciCalls.map Event.probed ++ opening.1, opening.2) := by
  unfold Setting.pursue
  dsimp only
  rw [ciAsked_group, supplies_ciCalls, result_group]

end

mutual

theorem runAsking_eq (x : Setting) (attached : Bool) (st : State) :
    (step : Step) → x.runAsking attached st step = x.run attached st step
  | .script label text => by
    unfold Setting.runAsking Setting.run
    rw [pursue_script]
  | .params ps => by
    unfold Setting.runAsking Setting.run
    rw [pursue_params]
  | .group name description ending steps => by
    unfold Setting.runAsking Setting.run
    dsimp only
    rw [pursue_group, runAllAsking_eq x attached _ steps]
  | .detached step => runAsking_eq x false st step
  | .raw _ | .writeAt .. | .setLevel _ | .setAnswers _ | .setVariables _ => rfl

theorem runAllAsking_eq (x : Setting) (attached : Bool) (st : State) :
    (steps : List Step) → x.runAllAsking attached st steps = x.runAll attached st steps
  | [] => rfl
  | step :: steps => by
    unfold Setting.runAllAsking Setting.runAll
    dsimp only
    rw [runAsking_eq x attached st step, runAllAsking_eq x attached _ steps]

end

theorem sessionAsking_eq (x : Setting) (sink : Option Sink) (s : Surroundings)
    (steps : List Step) : x.sessionAsking sink s steps = x.session sink s steps :=
  congrArg Prod.fst (runAllAsking_eq x true ⟨sink, s⟩ steps)

/-! ## What the steps tell -/

/-- The CI system that the answers name; GitHub goes first. -/
def Answers.ciEnvironment (a : Answers) : CiEnvironment :=
  if a.github then .gitHubActions else if a.gitlab then .gitLabCi else .none

/-- The markers of a group that is opened on these answers, if it has a sink and a name. -/
def Answers.marking (a : Answers) (hasSink : Bool) (name description : String) :
    Option (Marker × Marker) :=
  if hasSink && !name.isEmpty then Marker.pair? a.ciEnvironment name description else none

mutual

/-- For each entry of a step the questions that are asked and the markers that are written, and the
answers that the step leaves. -/
def Step.detections (hasSink : Bool) (a : Answers) :
    Step → List (List CiQuestion × List Marker) × Answers
  | .group name description _ steps =>
    let marking := a.marking hasSink name description
    let inside := Step.allDetections hasSink a steps
    (([.github, .gitlab], (marking.map Prod.fst).toList) :: inside.1 ++
      [([], (marking.map Prod.snd).toList)], inside.2)
  | .detached step => step.detections false a
  | .setAnswers change => ([([], [])], change.apply a)
  | .script .. | .params _ | .raw _ | .writeAt .. | .setLevel _ | .setVariables _ =>
    ([([], [])], a)

def Step.allDetections (hasSink : Bool) (a : Answers) :
    List Step → List (List CiQuestion × List Marker) × Answers
  | [] => ([], a)
  | step :: steps =>
    let first := step.detections hasSink a
    let others := Step.allDetections hasSink first.2 steps
    (first.1 ++ others.1, others.2)

end

mutual

/-- The number of groups that a step opens. -/
def Step.groups : Step → Nat
  | .group _ _ _ steps => 1 + Step.allGroups steps
  | .detached step => step.groups
  | .script .. | .params _ | .raw _ | .writeAt .. | .setLevel _ | .setAnswers _
  | .setVariables _ => 0

def Step.allGroups : List Step → Nat
  | [] => 0
  | step :: steps => step.groups + Step.allGroups steps

end

/-- How often a question is among those of the entries. -/
def timesAsked (question : CiQuestion) (detections : List (List CiQuestion × List Marker)) : Nat :=
  (detections.map fun d => d.1.count question).sum

theorem timesAsked_append (question : CiQuestion)
    (xs ys : List (List CiQuestion × List Marker)) :
    timesAsked question (xs ++ ys) = timesAsked question xs + timesAsked question ys := by
  unfold timesAsked
  rw [List.map_append, List.sum_append]

mutual

theorem timesAsked_step (question : CiQuestion) (hasSink : Bool) (a : Answers) :
    (step : Step) → timesAsked question (step.detections hasSink a).1 = step.groups
  | .group name description ending steps => by
    unfold Step.detections Step.groups
    dsimp only
    rw [timesAsked_append, ← List.singleton_append, timesAsked_append,
      timesAsked_steps question hasSink a steps]
    cases question <;> rfl
  | .detached step => timesAsked_step question false a step
  | .script .. | .params _ | .raw _ | .writeAt .. | .setLevel _ | .setAnswers _
  | .setVariables _ => rfl

theorem timesAsked_steps (question : CiQuestion) (hasSink : Bool) (a : Answers) :
    (steps : List Step) →
      timesAsked question (Step.allDetections hasSink a steps).1 = Step.allGroups steps
  | [] => rfl
  | step :: steps => by
    unfold Step.allDetections Step.allGroups
    dsimp only
    rw [timesAsked_append, timesAsked_step question hasSink a step,
      timesAsked_steps question hasSink _ steps]

end

/-! ## Runs -/

/-- What an entry shows of detection. -/
def Entry.detection (e : Entry) : List CiQuestion × List Marker := (e.questions, e.markers)

/-- A run shows what the steps tell, and leaves the answers that they leave. -/
structure Detected (told : List (List CiQuestion × List Marker) × Answers)
    (r : List Entry × State) : Prop where
  shown : r.1.map Entry.detection = told.1
  answers : r.2.surroundings.answers = told.2

theorem detected_print (x : Setting) (attached : Bool) (st : State) (kind : EntryKind)
    {actions : Severity → List Action} (h : ∀ level, markersOf (actions level) = []) :
    Detected ([([], [])], st.surroundings.answers) (entry kind (x.print attached st actions)) := by
  refine ⟨?_, congrArg Surroundings.answers (print_surroundings ..)⟩
  show [(questions _, markers (attempts _))] = _
  rw [questions_print, markers_print x attached st actions h]

theorem detected_direct (x : Setting) (attached : Bool) (st : State) (kind : EntryKind) {c : Call}
    (h : c.payload.marker? = none) :
    Detected ([([], [])], st.surroundings.answers)
      (entry kind (if attached then st.direct x.schedule c else ([], st))) := by
  obtain ⟨hmarkers, hsurroundings⟩ := markers_direct x attached st c h
  refine ⟨?_, congrArg Surroundings.answers hsurroundings⟩
  show [(questions _, markers (attempts _))] = _
  rw [questions_direct, hmarkers]

/-- A group writes the markers of the answers at its opening, the closing one however it ends. -/
theorem markersOf_openGroup {p : Printer} {s : Surroundings}
    (h : p.detectors.ciEnvironment s = s.answers.ciEnvironment) (hasSink : Bool)
    (name description : String) (ending : Ending) :
    let marking := s.answers.marking hasSink name description
    let group := p.openGroup s hasSink name description
    markersOf group.1 = (marking.map Prod.fst).toList ∧
      markersOf (group.2.finishBy ending) = (marking.map Prod.snd).toList := by
  intro marking group
  have hgroup : group = marking.elim ([], .inert) fun pair =>
      ([.notice (.openingGroup s.answers.ciEnvironment name), Printer.mark .openGroup pair.1],
        ⟨some pair.2⟩) := by
    unfold group marking Printer.openGroup Answers.marking
    rw [h]
    dsimp only
    generalize Marker.pair? s.answers.ciEnvironment name description = pair
    cases hasSink with
    | false => rfl
    | true => cases name.isEmpty <;> cases pair <;> rfl
  rw [hgroup]
  cases marking with
  | none =>
    rw [Option.elim_none, finishBy_inert]
    exact ⟨rfl, rfl⟩
  | some pair =>
    rw [Option.elim_some, finishBy_marked]
    exact ⟨rfl, rfl⟩

theorem ciEnvironment_of_supplied {d : Detectors} (hgithub : d.github = .supplied)
    (hgitlab : d.gitlab = .supplied) (s : Surroundings) :
    d.ciEnvironment s = s.answers.ciEnvironment := by
  unfold Detectors.ciEnvironment Detectors.isGithub Detectors.isGitlab Answers.ciEnvironment
  rw [hgithub, hgitlab]

theorem ciCalls_of_supplied {d : Detectors} (hgithub : d.github = .supplied)
    (hgitlab : d.gitlab = .supplied) : d.ciCalls = [.github, .gitlab] := by
  unfold Detectors.ciCalls
  rw [if_pos hgithub, if_pos hgitlab]
  rfl

/-- A group, if the steps inside it show what they tell. -/
theorem detected_group {x : Setting} (hgithub : x.printer.detectors.github = .supplied)
    (hgitlab : x.printer.detectors.gitlab = .supplied) (attached : Bool) (st : State)
    (name description : String) (ending : Ending) (steps : List Step)
    (h : ∀ st₁, Detected
      (Step.allDetections (attached && st₁.sink.isSome) st₁.surroundings.answers steps)
      (x.runAll attached st₁ steps)) :
    Detected ((Step.group name description ending steps).detections
        (attached && st.sink.isSome) st.surroundings.answers)
      (x.run attached st (.group name description ending steps)) := by
  obtain ⟨opened, st₁, ended, hg⟩ := run_group x attached st name description ending steps
  obtain ⟨hopening, hclosing⟩ := markersOf_openGroup
    (ciEnvironment_of_supplied hgithub hgitlab st.surroundings) (attached && st.sink.isSome) name
    description ending
  have hopened : opened.detection = ([.github, .gitlab],
      ((st.surroundings.answers.marking (attached && st.sink.isSome) name description).map
        Prod.fst).toList) := by
    refine Prod.ext (hg.openedQuestions.trans (ciCalls_of_supplied hgithub hgitlab)) ?_
    exact (congrArg markers hg.openedAttempts).trans hopening
  have hended : ended.detection = ([],
      ((st.surroundings.answers.marking (attached && st.sink.isSome) name description).map
        Prod.snd).toList) :=
    Prod.ext hg.endedQuestions ((congrArg markers hg.endedAttempts).trans hclosing)
  have hin := h st₁
  rw [hg.sameSink, hg.sameSurroundings] at hin
  refine ⟨?_, (congrArg Surroundings.answers hg.surroundings).trans hin.answers⟩
  rw [hg.entries, List.map_append, List.map_cons, hin.shown, hopened, List.map_singleton, hended]
  rfl

section
variable {x : Setting}

mutual

/-- A step shows what it tells, whatever state it finds. -/
theorem detected_run (hgithub : x.printer.detectors.github = .supplied)
    (hgitlab : x.printer.detectors.gitlab = .supplied) (attached : Bool) (st : State) :
    (step : Step) →
      Detected (step.detections (attached && st.sink.isSome) st.surroundings.answers)
        (x.run attached st step)
  | .script .. => detected_print x attached st .script fun _ => markersOf_script ..
  | .params _ => detected_print x attached st .params fun _ => markersOf_params ..
  | .raw _ => detected_direct x attached st .raw rfl
  | .writeAt .. => detected_direct x attached st .writeAt rfl
  | .setLevel _ | .setAnswers _ | .setVariables _ => ⟨rfl, rfl⟩
  | .group name description ending steps =>
    detected_group hgithub hgitlab attached st name description ending steps
      fun st₁ => detected_runAll hgithub hgitlab attached st₁ steps
  | .detached step => detected_run hgithub hgitlab false st step

theorem detected_runAll (hgithub : x.printer.detectors.github = .supplied)
    (hgitlab : x.printer.detectors.gitlab = .supplied) (attached : Bool) (st : State) :
    (steps : List Step) →
      Detected (Step.allDetections (attached && st.sink.isSome) st.surroundings.answers steps)
        (x.runAll attached st steps)
  | [] => ⟨rfl, rfl⟩
  | step :: steps => by
    have hfirst := detected_run hgithub hgitlab attached st step
    have hothers := detected_runAll hgithub hgitlab attached (x.run attached st step).2 steps
    rw [run_isSome, hfirst.answers] at hothers
    refine ⟨?_, hothers.answers⟩
    unfold Setting.runAll Step.allDetections
    dsimp only
    rw [List.map_append, hfirst.shown, hothers.shown]

end

end

/-- With the caller's probes for the CI system, which provider `auto` leaves in place, a session
asks for GitHub and for GitLab once each when it opens a group, whether or not the group gets
markers, and at no other step; so it asks each as often as it has groups, nested ones and those
without a sink included. The markers of a group, at its opening and at its ending, follow from
the answers at its opening. The questions are those of the session on inquiries, which knows the
surroundings in no other way and leaves the same entries. -/
theorem detections_session {x : Setting} (hgithub : x.printer.detectors.github = .supplied)
    (hgitlab : x.printer.detectors.gitlab = .supplied) (sink : Option Sink) (s : Surroundings)
    (steps : List Step) :
    let entries := x.sessionAsking sink s steps
    entries = x.session sink s steps ∧
      entries.map Entry.detection = (Step.allDetections sink.isSome s.answers steps).1 ∧
      ∀ question, (entries.map fun e => e.probes question).sum = Step.allGroups steps := by
  intro entries
  have hentries : entries = x.session sink s steps := sessionAsking_eq x sink s steps
  have hshown : entries.map Entry.detection =
      (Step.allDetections sink.isSome s.answers steps).1 := by
    rw [hentries]
    exact (detected_runAll hgithub hgitlab true ⟨sink, s⟩ steps).shown
  refine ⟨hentries, hshown, fun question => ?_⟩
  rw [← timesAsked_steps question sink.isSome s.answers steps, ← hshown, timesAsked, List.map_map]
  exact congrArg (fun f => (entries.map f).sum) (funext fun e => probes_eq_count e question)

/-- GitHub answers in the middle of the second group: the third is GitHub's, the second stays
GitLab's. The first has no name and the last no sink; both ask all the same. -/
theorem detections_session_changed :
    let x : Setting := ⟨.new .never .supplied, .none⟩
    let sink : Option Sink := some (.new .writer .fatal)
    let s : Surroundings := ⟨.unset, false, ⟨false, true, false, true⟩⟩
    let steps : List Step :=
      [.group "" "unnamed" .close [],
        .group "build" "" .drop
          [.setAnswers ⟨some true, none, none, none⟩, .group "test" "unit" .close []],
        .detached (.group "deploy" "" .close [.raw "done\n"])]
    let entries := x.sessionAsking sink s steps
    x.printer.detectors.github = .supplied ∧ x.printer.detectors.gitlab = .supplied ∧
      (entries = x.session sink s steps ∧
        entries.map Entry.detection = (Step.allDetections sink.isSome s.answers steps).1 ∧
        ∀ question, (entries.map fun e => e.probes question).sum = Step.allGroups steps) ∧
      (Step.allDetections sink.isSome s.answers steps).1 =
        [([.github, .gitlab], []), ([], []),
          ([.github, .gitlab], [.gitlabOpen "build" "build"]), ([], []),
          ([.github, .gitlab], [.githubOpen "test" "unit"]), ([], [.githubClose]),
          ([], [.gitlabClose "build"]),
          ([.github, .gitlab], []), ([], []), ([], [])] ∧
      Step.allGroups steps = 4 := by
  intro x sink s steps entries
  have hgithub : x.printer.detectors.github = .supplied := rfl
  have hgitlab : x.printer.detectors.gitlab = .supplied := rfl
  exact ⟨hgithub, hgitlab, detections_session hgithub hgitlab sink s steps, by decide, rfl⟩

end StepLog
