/-
  Group markers pair up.

  `Bracketed` reads a session's entries against its steps: the entries of a group are the
  opening, those of the steps inside, and the ending. A group with markers attempts its
  opening marker and nothing else at the opening, its closing marker and nothing else at the
  ending, and both are the markers of the surroundings at the opening, whatever changed since.
  Any other group attempts nothing, and a step that is no group attempts no marker.

  Main statement: every session is bracketed, for every schedule of refusals, and so the
  markers that it attempts are well nested (`bracketed_session`).
-/
import StepLog.Proofs.Session.Act

namespace StepLog

/-! ## Markers among what is attempted -/

def Payload.marker? : Payload → Option Marker
  | .marker m => some m
  | .text _ => none

/-- The markers among calls. -/
def markers (calls : List Call) : List Marker := calls.filterMap fun c => c.payload.marker?

def Entry.markers (e : Entry) : List Marker := StepLog.markers e.attempted

@[simp] theorem markers_append (xs ys : List Call) :
    markers (xs ++ ys) = markers xs ++ markers ys := by
  simp [markers]

/-- The markers that actions are to write. -/
def markersOf (actions : List Action) : List Marker := markers (actions.filterMap Action.call?)

@[simp] theorem markersOf_cons_notice (n : Notice) (actions : List Action) :
    markersOf (.notice n :: actions) = markersOf actions := rfl

@[simp] theorem markersOf_cons_emit (severity : Severity) (text : String) (actions : List Action) :
    markersOf (Printer.emit severity text :: actions) = markersOf actions := rfl

@[simp] theorem markersOf_nil : markersOf [] = [] := rfl

theorem markersOf_append (xs ys : List Action) :
    markersOf (xs ++ ys) = markersOf xs ++ markersOf ys := by
  simp [markersOf]

theorem markersOf_scriptLine (p : Printer) (s : Surroundings) (shell line : String) :
    markersOf (p.scriptLine s shell line) = [] := by
  unfold Printer.scriptLine
  split
  · split <;> rfl
  · rfl

theorem markersOf_flatMap {α : Type} (f : α → List Action) (h : ∀ a, markersOf (f a) = [])
    (as : List α) : markersOf (as.flatMap f) = [] := by
  induction as with
  | nil => rfl
  | cons a as ih => rw [List.flatMap_cons, markersOf_append, h, ih, List.append_nil]

theorem markersOf_script (p : Printer) (s : Surroundings) (level : Severity)
    (label text : String) : markersOf (p.script s level label text) = [] := by
  unfold Printer.script Printer.scriptOn
  split
  · rfl
  · exact markersOf_flatMap _ (fun line => markersOf_scriptLine p s _ line) _

theorem markersOf_params (p : Printer) (s : Surroundings) (level : Severity) (ps : Params) :
    markersOf (p.params s level ps) = [] := by
  unfold Printer.params Printer.paramsOn
  split
  · rfl
  · split
    · unfold Printer.paramsDocument
      split
      · split <;> rfl
      · rfl
    · rfl

theorem markers_print (x : Setting) (attached : Bool) (st : State)
    (actions : Severity → List Action) (h : ∀ level, markersOf (actions level) = []) :
    markers (attempts (x.print attached st actions).1) = [] := by
  rw [attempts_print]
  split
  · cases st.sink with
    | none => rfl
    | some sink => exact h sink.level
  · rfl

theorem markers_direct (x : Setting) (attached : Bool) (st : State) (c : Call)
    (h : c.payload.marker? = none) :
    let r := if attached then st.direct x.schedule c else ([], st)
    markers (attempts r.1) = [] ∧ r.2.surroundings = st.surroundings := by
  refine ⟨?_, direct_surroundings ..⟩
  cases attached with
  | false => rfl
  | true =>
    show markers (attempts (st.direct x.schedule c).1) = []
    rw [attempts_direct]
    split
    · simp [markers, h]
    · rfl

/-! ## Steps and what they change -/

/-- A step of one entry, which is no group. -/
def Step.isPlain : Step → Bool
  | .group .. => false
  | .detached _ => false
  | _ => true

/-- The surroundings after a plain step. -/
def Step.change (s : Surroundings) : Step → Surroundings
  | .setAnswers change => { s with answers := change.apply s.answers }
  | .setVariables change => { s with environment := change.apply s.environment }
  | _ => s

/-- The markers of a group called `name`: GitHub's, or GitLab's around a section of that name. -/
inductive Marker.Encloses (name description : String) : CiEnvironment → Marker → Marker → Prop
  | github :
    Encloses name description .gitHubActions (.githubOpen name description) .githubClose
  | gitlab :
    Encloses name description .gitLabCi
      (.gitlabOpen name (if description.isEmpty then name else description)) (.gitlabClose name)

/-- `Bracketed d hasSink s steps entries s'`: the entries are what the steps leave from
surroundings `s`, ending in `s'`, as far as markers go. -/
inductive Bracketed (d : Detectors) :
    Bool → Surroundings → List Step → List Entry → Surroundings → Prop
  | nil {hasSink s} : Bracketed d hasSink s [] [] s
  | plain {hasSink s s' step steps e entries} :
    step.isPlain = true → e.markers = [] →
    Bracketed d hasSink (step.change s) steps entries s' →
    Bracketed d hasSink s (step :: steps) (e :: entries) s'
  | inert {hasSink s s₁ s' name description ending inner steps opened inside ended entries} :
    hasSink = false ∨ name = "" ∨ d.ciEnvironment s = .none →
    opened.kind = .opened false hasSink → opened.attempted = [] →
    Bracketed d hasSink s inner inside s₁ →
    ended.kind = .ended ending → ended.attempted = [] →
    Bracketed d hasSink s₁ steps entries s' →
    Bracketed d hasSink s (.group name description ending inner :: steps)
      (opened :: inside ++ ended :: entries) s'
  | marked {hasSink s s₁ s' name description ending inner steps opened inside ended entries
      opening closing} :
    hasSink = true → name ≠ "" →
    Marker.Encloses name description (d.ciEnvironment s) opening closing →
    opened.kind = .opened true true → opened.attempted = [⟨.raw, .marker opening⟩] →
    Bracketed d hasSink s inner inside s₁ →
    ended.kind = .ended ending → ended.attempted = [⟨.raw, .marker closing⟩] →
    Bracketed d hasSink s₁ steps entries s' →
    Bracketed d hasSink s (.group name description ending inner :: steps)
      (opened :: inside ++ ended :: entries) s'
  | detached {hasSink s s₁ s' step steps inside entries} :
    Bracketed d false s [step] inside s₁ → Bracketed d hasSink s₁ steps entries s' →
    Bracketed d hasSink s (.detached step :: steps) (inside ++ entries) s'

theorem Bracketed.append {d : Detectors} {hasSink : Bool} {s s₁ s' : Surroundings}
    {xs ys : List Step} {es fs : List Entry} (h : Bracketed d hasSink s xs es s₁)
    (h' : Bracketed d hasSink s₁ ys fs s') : Bracketed d hasSink s (xs ++ ys) (es ++ fs) s' := by
  induction h with
  | nil => exact h'
  | plain hp he _ ih => exact .plain hp he (ih h')
  | inert hi ho hoa hin hk hka _ _ ih =>
    rw [List.append_assoc]
    exact .inert hi ho hoa hin hk hka (ih h')
  | marked hs hn hm ho hoa hin hk hka _ _ ih =>
    rw [List.append_assoc]
    exact .marked hs hn hm ho hoa hin hk hka (ih h')
  | detached hin _ _ ih =>
    rw [List.append_assoc]
    exact .detached hin (ih h')

/-! ## Opening and ending -/

theorem pair?_eq_some {environment : CiEnvironment} {name description : String}
    {opening closing : Marker}
    (h : Marker.pair? environment name description = some (opening, closing)) :
    Marker.Encloses name description environment opening closing := by
  cases environment with
  | none => simp [Marker.pair?] at h
  | gitHubActions =>
    simp only [Marker.pair?, Option.some.injEq, Prod.mk.injEq] at h
    obtain ⟨rfl, rfl⟩ := h
    exact .github
  | gitLabCi =>
    simp only [Marker.pair?, Option.some.injEq, Prod.mk.injEq] at h
    obtain ⟨rfl, rfl⟩ := h
    exact .gitlab

theorem pair?_eq_none {environment : CiEnvironment} {name description : String}
    (h : Marker.pair? environment name description = none) : environment = .none := by
  cases environment with
  | none => rfl
  | gitHubActions => simp [Marker.pair?] at h
  | gitLabCi => simp [Marker.pair?] at h

/-- A group is opened without markers, or with both. -/
theorem openGroup_cases (p : Printer) (s : Surroundings) (hasSink : Bool)
    (name description : String) :
    ((hasSink = false ∨ name = "" ∨ p.detectors.ciEnvironment s = .none) ∧
      p.openGroup s hasSink name description = ([], .inert)) ∨
    ∃ opening closing, hasSink = true ∧ name ≠ "" ∧
      Marker.Encloses name description (p.detectors.ciEnvironment s) opening closing ∧
      p.openGroup s hasSink name description =
        ([.notice (.openingGroup (p.detectors.ciEnvironment s) name),
          Printer.mark .openGroup opening], ⟨some closing⟩) := by
  unfold Printer.openGroup
  dsimp only
  split
  · next h =>
    refine .inl ⟨?_, rfl⟩
    simp only [Bool.or_eq_true, Bool.not_eq_true', String.isEmpty_iff] at h
    exact h.imp_right .inl
  · next h =>
    simp only [Bool.or_eq_true, Bool.not_eq_true', String.isEmpty_iff, not_or,
      Bool.not_eq_false] at h
    split
    · next hp => exact .inl ⟨.inr (.inr (pair?_eq_none hp)), rfl⟩
    · next opening closing hp =>
      exact .inr ⟨opening, closing, h.1, h.2, pair?_eq_some hp, rfl⟩

/-- However a group ends, it writes the closing marker that it owes, once. -/
theorem finishBy_marked (closing : Marker) (ending : Ending) :
    (Group.mk (some closing)).finishBy ending = [Printer.mark .closeGroup closing] := by
  cases ending with
  | close => rfl
  | drop => rfl

theorem finishBy_inert (ending : Ending) : Group.inert.finishBy ending = [] := by
  cases ending with
  | close => rfl
  | drop => rfl

/-! ## Runs -/

/-- A plain step leaves one entry, without markers. -/
theorem run_plain (x : Setting) (attached : Bool) (st : State) {step : Step}
    (h : step.isPlain = true) :
    ∃ e, (x.run attached st step).1 = [e] ∧ e.markers = [] ∧
      (x.run attached st step).2.surroundings = step.change st.surroundings := by
  cases step with
  | script label text =>
    exact ⟨_, rfl, markers_print x attached st _ (fun level => markersOf_script ..),
      print_surroundings ..⟩
  | params ps =>
    exact ⟨_, rfl, markers_print x attached st _ (fun level => markersOf_params ..),
      print_surroundings ..⟩
  | raw text => exact ⟨_, rfl, markers_direct x attached st ⟨.raw, .text text⟩ rfl⟩
  | writeAt severity text =>
    exact ⟨_, rfl, markers_direct x attached st ⟨.at severity, .text text⟩ rfl⟩
  | setLevel level => exact ⟨_, rfl, rfl, rfl⟩
  | setAnswers change => exact ⟨_, rfl, rfl, rfl⟩
  | setVariables change => exact ⟨_, rfl, rfl, rfl⟩
  | group name description ending steps => cases h
  | detached step => cases h

theorem bracketed_plain (x : Setting) (attached : Bool) (st : State) {step : Step}
    (h : step.isPlain = true) :
    Bracketed x.printer.detectors (attached && st.sink.isSome) st.surroundings [step]
      (x.run attached st step).1 (x.run attached st step).2.surroundings := by
  obtain ⟨e, he, hm, hs⟩ := run_plain x attached st h
  rw [he, hs]
  exact .plain h hm .nil

mutual

/-- No step takes the sink away. -/
theorem run_isSome (x : Setting) (attached : Bool) (st : State) :
    (step : Step) → (x.run attached st step).2.sink.isSome = st.sink.isSome
  | .script .. | .params .. => print_isSome x attached st _
  | .raw _ | .writeAt .. => by
    cases attached with
    | false => rfl
    | true => exact (congrArg (·.sink.isSome) (direct_state ..)).trans (call_isSome ..)
  | .setLevel _ => Option.isSome_map
  | .setAnswers _ | .setVariables _ => rfl
  | .group name description ending steps => by
    unfold Setting.run
    dsimp only [entry]
    rw [act_isSome, runAll_isSome x attached _ steps, act_isSome]
  | .detached step => run_isSome x false st step

theorem runAll_isSome (x : Setting) (attached : Bool) (st : State) :
    (steps : List Step) → (x.runAll attached st steps).2.sink.isSome = st.sink.isSome
  | [] => rfl
  | step :: steps => by
    unfold Setting.runAll
    dsimp only
    rw [runAll_isSome x attached _ steps, run_isSome x attached st step]

end

theorem openGroup_of_no_sink (p : Printer) (s : Surroundings) (name description : String) :
    p.openGroup s false name description = ([], .inert) := rfl

/-- A group attempts at its opening what it is to write there; without a sink it has nothing
to write. -/
theorem attempts_openGroup (schedule : Schedule) (p : Printer) {s : Surroundings}
    {hasSink : Bool} {st : State} (h : hasSink = true → st.sink.isSome = true)
    (name description : String) :
    attempts (st.act schedule (p.openGroup s hasSink name description).1).1 =
      (p.openGroup s hasSink name description).1.filterMap Action.call? := by
  cases hasSink with
  | true => exact attempts_act schedule (h rfl) _
  | false => rw [openGroup_of_no_sink]; rfl

theorem attempts_finishBy (schedule : Schedule) (p : Printer) {s : Surroundings}
    {hasSink : Bool} {st : State} (h : hasSink = true → st.sink.isSome = true)
    (name description : String) (ending : Ending) :
    attempts
        (st.act schedule ((p.openGroup s hasSink name description).2.finishBy ending)).1 =
      ((p.openGroup s hasSink name description).2.finishBy ending).filterMap Action.call? := by
  cases hasSink with
  | true => exact attempts_act schedule (h rfl) _
  | false => rw [openGroup_of_no_sink, finishBy_inert]; rfl

/-- The entries of a group, from those of the steps inside and what opening and ending it do. -/
theorem bracketed_entries (x : Setting) (hasSink : Bool) {s s₁ : Surroundings}
    (name description : String) (ending : Ending) (inner : List Step) {inside : List Entry}
    {opened ended : Entry}
    (hin : Bracketed x.printer.detectors hasSink s inner inside s₁)
    (ho : opened.kind =
      .opened (x.printer.openGroup s hasSink name description).2.isOpen hasSink)
    (hoa : opened.attempted =
      (x.printer.openGroup s hasSink name description).1.filterMap Action.call?)
    (he : ended.kind = .ended ending)
    (hea : ended.attempted =
      ((x.printer.openGroup s hasSink name description).2.finishBy ending).filterMap
        Action.call?) :
    Bracketed x.printer.detectors hasSink s [.group name description ending inner]
      (opened :: inside ++ [ended]) s₁ := by
  rcases openGroup_cases x.printer s hasSink name description with
    ⟨hinert, hg⟩ | ⟨opening, closing, hs, hn, hm, hg⟩
  · rw [hg] at ho hoa hea
    rw [finishBy_inert] at hea
    exact .inert hinert ho hoa hin he hea .nil
  · rw [hg] at ho hoa hea
    rw [finishBy_marked] at hea
    rw [hs] at ho
    exact .marked hs hn hm ho hoa hin he hea .nil

/-- A group as it is run: its opening and its ending, and between them the steps inside, which find
the surroundings of the opening, and a sink if there was one. -/
structure RunsGroup (x : Setting) (attached : Bool) (st : State) (name description : String)
    (ending : Ending) (steps : List Step) (group : List Action × Group) (opened : Entry)
    (st₁ : State) (ended : Entry) : Prop where
  entries : (x.run attached st (.group name description ending steps)).1 =
    opened :: (x.runAll attached st₁ steps).1 ++ [ended]
  surroundings : (x.run attached st (.group name description ending steps)).2.surroundings =
    (x.runAll attached st₁ steps).2.surroundings
  sameSink : st₁.sink.isSome = st.sink.isSome
  sameSurroundings : st₁.surroundings = st.surroundings
  openedKind : opened.kind = .opened group.2.isOpen (attached && st.sink.isSome)
  openedQuestions : opened.questions = x.printer.detectors.ciCalls
  openedAttempts : opened.attempted = group.1.filterMap Action.call?
  endedKind : ended.kind = .ended ending
  endedQuestions : ended.questions = []
  endedAttempts : ended.attempted = (group.2.finishBy ending).filterMap Action.call?

theorem run_group (x : Setting) (attached : Bool) (st : State) (name description : String)
    (ending : Ending) (steps : List Step) :
    ∃ opened st₁ ended, RunsGroup x attached st name description ending steps
      (x.printer.openGroup st.surroundings (attached && st.sink.isSome) name description)
      opened st₁ ended := by
  have hsink : (attached && st.sink.isSome) = true → st.sink.isSome = true :=
    fun h => (Bool.and_eq_true_iff.1 h).2
  have hopen := attempts_openGroup x.schedule x.printer (s := st.surroundings) hsink name
    description
  generalize hst₁ : (st.act x.schedule (x.printer.openGroup st.surroundings
    (attached && st.sink.isSome) name description).1).2 = st₁
  have hsame : st₁.sink.isSome = st.sink.isSome := by rw [← hst₁, act_isSome]
  have hst₂ := (runAll_isSome x attached st₁ steps).trans hsame
  have hend := attempts_finishBy x.schedule x.printer (s := st.surroundings)
    (fun h => hst₂.trans (hsink h)) name description ending
  subst hst₁
  exact ⟨_, _, _, {
    entries := rfl
    surroundings := act_surroundings ..
    sameSink := hsame
    sameSurroundings := act_surroundings ..
    openedKind := rfl
    openedQuestions := by
      rw [Entry.questions, questions_append, questions_probed, questions_act, List.append_nil]
    openedAttempts := by
      rw [Entry.attempted, attempts_append, attempts_probed, List.nil_append, hopen]
    endedKind := rfl
    endedQuestions := questions_act ..
    endedAttempts := hend }⟩

/-- A group is bracketed if the steps inside it are, in whatever state they start. -/
theorem bracketed_group (x : Setting) (attached : Bool) (st : State)
    (name description : String) (ending : Ending) (steps : List Step)
    (h : ∀ st₁, Bracketed x.printer.detectors (attached && st₁.sink.isSome) st₁.surroundings
      steps (x.runAll attached st₁ steps).1 (x.runAll attached st₁ steps).2.surroundings) :
    Bracketed x.printer.detectors (attached && st.sink.isSome) st.surroundings
      [.group name description ending steps]
      (x.run attached st (.group name description ending steps)).1
      (x.run attached st (.group name description ending steps)).2.surroundings := by
  obtain ⟨opened, st₁, ended, hg⟩ := run_group x attached st name description ending steps
  have hin := h st₁
  rw [hg.sameSink, hg.sameSurroundings] at hin
  rw [hg.entries, hg.surroundings]
  exact bracketed_entries x _ name description ending steps hin hg.openedKind hg.openedAttempts
    hg.endedKind hg.endedAttempts

mutual

/-- What a step leaves, whatever state it finds. -/
theorem bracketed_run (x : Setting) (attached : Bool) (st : State) :
    (step : Step) → Bracketed x.printer.detectors (attached && st.sink.isSome) st.surroundings
      [step] (x.run attached st step).1 (x.run attached st step).2.surroundings
  | .script .. | .params _ | .raw _ | .writeAt .. | .setLevel _ | .setAnswers _
  | .setVariables _ => bracketed_plain x attached st rfl
  | .group name description ending steps =>
    bracketed_group x attached st name description ending steps
      fun st₁ => bracketed_runAll x attached st₁ steps
  | .detached step => by
    unfold Setting.run
    rw [← List.append_nil (x.run false st step).1]
    exact .detached (bracketed_run x false st step) .nil

/-- What steps leave, one after the other. -/
theorem bracketed_runAll (x : Setting) (attached : Bool) (st : State) :
    (steps : List Step) → Bracketed x.printer.detectors (attached && st.sink.isSome)
      st.surroundings steps (x.runAll attached st steps).1
      (x.runAll attached st steps).2.surroundings
  | [] => .nil
  | step :: steps => by
    have h := bracketed_runAll x attached (x.run attached st step).2 steps
    rw [run_isSome] at h
    exact (bracketed_run x attached st step).append h

end

/-! ## Nesting -/

/-- Markers in pairs of one group each, the pairs one after the other or one inside another. -/
inductive WellNested : List Marker → Prop
  | nil : WellNested []
  | group {name description environment opening closing inside rest} :
    Marker.Encloses name description environment opening closing →
    WellNested inside → WellNested rest → WellNested (opening :: inside ++ closing :: rest)

theorem WellNested.append {xs ys : List Marker} (h : WellNested xs) (h' : WellNested ys) :
    WellNested (xs ++ ys) := by
  induction h with
  | nil => exact h'
  | group hm hin _ _ ih =>
    rw [List.append_assoc]
    exact .group hm hin ih

theorem Bracketed.wellNested {d : Detectors} {hasSink : Bool} {s s' : Surroundings}
    {steps : List Step} {entries : List Entry} (h : Bracketed d hasSink s steps entries s') :
    WellNested (entries.flatMap Entry.markers) := by
  induction h with
  | nil => exact .nil
  | plain _ he _ ih =>
    rw [List.flatMap_cons, he]
    exact ih
  | inert _ _ ho _ _ he _ ih ih' =>
    have ho' : Entry.markers _ = [] := congrArg StepLog.markers ho
    have he' : Entry.markers _ = [] := congrArg StepLog.markers he
    rw [List.flatMap_append, List.flatMap_cons, List.flatMap_cons, ho', he']
    exact ih.append ih'
  | marked _ _ hm _ ho _ _ he _ ih ih' =>
    have ho' : Entry.markers _ = [_] := congrArg StepLog.markers ho
    have he' : Entry.markers _ = [_] := congrArg StepLog.markers he
    rw [List.flatMap_append, List.flatMap_cons, List.flatMap_cons, ho', he']
    exact .group hm ih ih'
  | detached _ _ ih ih' =>
    rw [List.flatMap_append]
    exact ih.append ih'

/-- Every session is bracketed, whatever is refused, and its markers are well nested. -/
theorem bracketed_session (x : Setting) (sink : Option Sink) (s : Surroundings)
    (steps : List Step) :
    (∃ s', Bracketed x.printer.detectors sink.isSome s steps (x.session sink s steps) s') ∧
      WellNested ((x.session sink s steps).flatMap Entry.markers) := by
  have h := bracketed_runAll x true ⟨sink, s⟩ steps
  exact ⟨⟨_, h⟩, h.wellNested⟩

/-- A group that is opened for GitLab is closed for GitLab, though the probes then name GitHub
and the opening marker was refused. -/
example :
    ((Setting.mk (.new .never .supplied) ⟨fun i => i == 0, fun _ => false⟩).session
      (some (.new .writer .fatal)) ⟨.unset, false, ⟨false, true, false, true⟩⟩
      [.group "build" "" .drop
        [.setAnswers ⟨some true, none, none, none⟩, .group "test" "unit" .close []]]).flatMap
          Entry.markers =
      [.gitlabOpen "build" "build", .githubOpen "test" "unit", .githubClose,
        .gitlabClose "build"] := by
  decide

end StepLog
