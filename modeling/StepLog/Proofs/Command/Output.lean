/-
  What a run writes to standard output.

  A run has three parts: it loads a configuration, reads what it is to print, and prints it in
  one session. Only the last one writes, and it does not fail, so a run that fails has written
  nothing (`output_of_fault`). The session is a group with one step in it. Opening and ending the group
  write a marker each, or nothing, and the step writes between them what it writes with no group
  around it (`recorded_group`).

  Main statement: a run fails exactly for the reasons that are listed, and then writes nothing;
  any other run writes what it writes without a group, framed by the markers of its group
  (`run_output`).
-/
import StepLog.Command.Run
import StepLog.Proofs.Session.Transparency

namespace StepLog

/-! ## A step in a group -/

/-- A sink that refuses nothing takes every marker. -/
theorem records_marked {st : State} (h : st.sink.isSome = true) (m : Marker) :
    st.records (Printer.marked m) = true := by
  obtain ⟨sink, hsink⟩ := Option.isSome_iff_exists.1 h
  unfold State.records State.standing
  rw [hsink]
  show sink.kind.records sink.level (Printer.marked m) = true
  cases sink.kind with
  | trace => rfl
  | writer => rfl

theorem recorded_act_marked {st : State} (h : st.sink.isSome = true) {actions : List Action}
    {m : Marker} (hcalls : callsOf actions = [Printer.marked m]) :
    recorded (st.act .none actions).1 = [Printer.marked m] := by
  have hattempts : attempts (st.act .none actions).1 = [Printer.marked m] :=
    (attempts_act .none h actions).trans hcalls
  rw [recorded_act_none, hattempts, List.filter_cons_of_pos (records_marked h m), List.filter_nil]

/-- A plain step writes the same texts from states of the same standing, and nothing but texts. -/
theorem recorded_of_standing (p : Printer) {st st' : State} (h : st.standing = st'.standing)
    {step : Step} (hplain : step.isPlain = true) :
    (Setting.run ⟨p, .none⟩ true st step).1.flatMap Entry.recorded =
        (Setting.run ⟨p, .none⟩ true st' step).1.flatMap Entry.recorded ∧
      ∀ c ∈ (Setting.run ⟨p, .none⟩ true st step).1.flatMap Entry.recorded, c.isText = true := by
  have htexts := (transparent_plain (p := p) true hplain h).texts
  have hsame : st.standing = st.standing := rfl
  have hself := (transparent_plain (p := p) true hplain hsame).texts
  rw [flatten_plain hplain, runAll_singleton] at htexts hself
  exact ⟨hself.symm.trans htexts, List.filter_eq_self.1 hself⟩

/-- What is written around a step: nothing, or the markers of a group. -/
inductive Framed (name description : String) (environment : CiEnvironment)
    (inside : List Payload) : List Payload → Prop
  | bare :
    name = "" ∨ environment = .none → Framed name description environment inside inside
  | marked {opening closing : Marker} :
    name ≠ "" → Marker.Encloses name description environment opening closing →
    (∀ time, opening.render time ≠ "") → (∀ time, closing.render time ≠ "") →
    Framed name description environment inside (.marker opening :: inside ++ [.marker closing])

/-- A group without a name has no markers. -/
theorem Framed.eq_of_unnamed {description : String} {environment : CiEnvironment}
    {inside out : List Payload} (h : Framed "" description environment inside out) :
    out = inside := by
  cases h with
  | bare _ => rfl
  | marked hname => exact absurd rfl hname

/-- A marker is never empty, whatever the time is. -/
theorem render_marker_ne_empty (m : Marker) (time : Int) : m.render time ≠ "" := by
  have hfront : ∀ front rest : String, front ≠ "" → front ++ rest ≠ "" := by
    intro front rest hfront happend
    exact hfront (String.append_eq_empty_iff.1 happend).1
  unfold Marker.render
  cases m with
  | githubOpen name description =>
    dsimp only
    split <;> simp only [String.append_assoc] <;> exact hfront _ _ (by decide)
  | githubClose =>
    show "::endgroup::\n" ≠ ""
    decide
  | gitlabOpen name header =>
    simp only [String.append_assoc]
    exact hfront _ _ (by decide)
  | gitlabClose name =>
    simp only [String.append_assoc]
    exact hfront _ _ (by decide)

theorem recorded_group (p : Printer) {st : State} (h : st.sink.isSome = true)
    (name description : String) (ending : Ending) {step : Step} (hplain : step.isPlain = true) :
    Framed name description (p.detectors.ciEnvironment st.surroundings)
      (((Setting.run ⟨p, .none⟩ true st step).1.flatMap Entry.recorded).map Call.payload)
      (((Setting.run ⟨p, .none⟩ true st (.group name description ending [step])).1.flatMap
        Entry.recorded).map Call.payload) := by
  generalize htexts : (Setting.run ⟨p, .none⟩ true st step).1.flatMap Entry.recorded = texts
  unfold Setting.run
  dsimp only [entry]
  rw [runAll_singleton, h, Bool.and_true]
  -- What the group writes at its opening leaves the sink where it stands.
  generalize hst₁ : (st.act .none (p.openGroup st.surroundings true name description).1).2 = st₁
  have hstanding : st₁.standing = st.standing := by rw [← hst₁, act_standing]
  have hsome : st₁.sink.isSome = true := by rw [← hst₁, act_isSome, h]
  have hinside := (recorded_of_standing p hstanding hplain).1
  rw [htexts] at hinside
  have hsome₂ : (Setting.run ⟨p, .none⟩ true st₁ step).2.sink.isSome = true := by
    rw [run_isSome, hsome]
  generalize Setting.run ⟨p, .none⟩ true st₁ step = inside at hinside hsome₂
  have hentries : ∀ opened ended : Entry,
      ([opened] ++ inside.1 ++ [ended]).flatMap Entry.recorded =
        opened.recorded ++ texts ++ ended.recorded := by
    intro opened ended
    rw [List.flatMap_append, List.flatMap_append, hinside, List.flatMap_singleton,
      List.flatMap_singleton]
  rw [hentries]
  show Framed _ _ _ _
    ((recorded (_ ++ (st.act .none _).1) ++ _ ++ recorded (inside.2.act .none _).1).map _)
  rw [recorded_append, recorded_probed, List.nil_append]
  rcases openGroup_cases p st.surroundings true name description with
    ⟨hinert, hgroup⟩ | ⟨opening, closing, -, hname, hencloses, hgroup⟩
  · rw [hgroup, finishBy_inert]
    show Framed _ _ _ _ (([] ++ texts ++ []).map _)
    rw [List.nil_append, List.append_nil]
    exact .bare (hinert.resolve_left (by decide))
  · rw [hgroup, finishBy_marked, recorded_act_marked h rfl, recorded_act_marked hsome₂ rfl,
      List.map_append]
    exact .marked hname hencloses (render_marker_ne_empty opening) (render_marker_ne_empty closing)

namespace Command

/-! ## Runs -/

/-- The same invocation with no group around its output. -/
def Invocation.ungrouped (v : Invocation) : Invocation := { v with heading := ⟨"", ""⟩ }

/-- It is what the command line says without the options for a group. -/
theorem ungrouped_invocation (inner outer : Given) (scope : Scope) (level : Option Severity) :
    { inner with group := none, description := none }.invocation outer scope level =
      (inner.invocation outer scope level).ungrouped := by
  cases scope with
  | top => rfl
  | script => rfl
  | params => rfl

/-- Why a run fails. -/
inductive FailsFor (v : Invocation) (i : Inputs) : RunFault → Prop
  | config {fault} :
    v.configured i = .error fault → FailsFor v i (.config fault)
  | scriptFile {c shell file path} :
    v.configured i = .ok c → v.task = .script shell file → scriptFile? file = some path →
    (i.files path).text? = none → FailsFor v i (.scriptFile path)
  | standardInput {c shell file} :
    v.configured i = .ok c → v.task = .script shell file → scriptFile? file = none →
    Text.decode? i.standardInput = none → FailsFor v i .standardInput

section
variable {v : Invocation} {i : Inputs} {c : Config}

/-- A run without a configuration has done nothing. -/
theorem run_of_config_error {fault : LoadFault} (h : v.configured i = .error fault) :
    v.run i = ⟨⟨none, []⟩, some (.config fault)⟩ := by
  unfold Invocation.run Invocation.execute
  rw [h]
  rfl

/-- A run that has nothing to print has done no more than announce its configuration. -/
theorem run_of_step_error {fault : RunFault} (hc : v.configured i = .ok c)
    (h : v.task.step i = .error fault) : v.run i = ⟨⟨some c, []⟩, some fault⟩ := by
  unfold Invocation.run Invocation.execute
  rw [hc, h]
  rfl

theorem run_of_step {step : Step} (hc : v.configured i = .ok c) (h : v.task.step i = .ok step) :
    v.run i = ⟨⟨some c, printed c i.surroundings (v.heading.around step)⟩, none⟩ := by
  unfold Invocation.run Invocation.execute
  rw [hc, h]
  rfl

end

/-- A task that is read gives a step that prints, and no group. -/
theorem plain_task_step {task : Task} {i : Inputs} {step : Step} (h : task.step i = .ok step) :
    step.isPlain = true := by
  cases task with
  | script shell file =>
    have hread : (readScript i file).map (Step.script shell) = .ok step := h
    cases hscript : readScript i file with
    | ok text =>
      rw [hscript] at hread
      cases hread
      rfl
    | error fault =>
      rw [hscript] at hread
      cases hread
  | params pairs =>
    cases h
    rfl

/-- A task is not read for one of two reasons. -/
theorem task_step_error_iff {v : Invocation} {i : Inputs} {c : Config} {fault : RunFault}
    (hc : v.configured i = .ok c) : v.task.step i = .error fault ↔ FailsFor v i fault := by
  constructor
  · intro h
    cases htask : v.task with
    | params pairs =>
      rw [htask] at h
      cases h
    | script shell file =>
      rw [htask] at h
      unfold Task.step readScript at h
      cases hfile : scriptFile? file with
      | some path =>
        cases htext : (i.files path).text? with
        | some text => simp [hfile, htext, Except.map] at h
        | none =>
          simp only [hfile, htext, Except.map, Except.error.injEq] at h
          exact h ▸ .scriptFile hc htask hfile htext
      | none =>
        cases htext : Text.decode? i.standardInput with
        | some text => simp [hfile, htext, Except.map] at h
        | none =>
          simp only [hfile, htext, Except.map, Except.error.injEq] at h
          exact h ▸ .standardInput hc htask hfile htext
  · intro h
    cases h with
    | config herror => cases hc.symm.trans herror
    | scriptFile _ htask hfile htext =>
      rw [htask]
      simp only [Task.step, readScript, hfile, htext, Except.map]
    | standardInput _ htask hfile htext =>
      rw [htask]
      simp only [Task.step, readScript, hfile, htext, Except.map]

/-- What an invocation prints, once it is known what that is. -/
theorem framed_output (v : Invocation) {i : Inputs} {c : Config} {step : Step}
    (hc : v.configured i = .ok c) (hstep : v.task.step i = .ok step) :
    Framed v.heading.name v.heading.description (c.printer.detectors.ciEnvironment i.surroundings)
      (((Setting.run ⟨c.printer, .none⟩ true ⟨some (.new .writer c.level), i.surroundings⟩
        step).1.flatMap Entry.recorded).map Call.payload) (v.run i).output := by
  have houtput : (v.run i).output =
      ((Setting.run ⟨c.printer, .none⟩ true ⟨some (.new .writer c.level), i.surroundings⟩
        (v.heading.around step)).1.flatMap Entry.recorded).map Call.payload := by
    rw [run_of_step hc hstep]
    show (printed c i.surroundings _).flatMap _ = _
    unfold printed Setting.session
    rw [runAll_singleton, List.map_flatMap]
  have hsink : (State.mk (some (.new .writer c.level)) i.surroundings).sink.isSome = true := rfl
  rw [houtput]
  exact recorded_group c.printer hsink v.heading.name v.heading.description .close
    (plain_task_step hstep)

/-- Without a group nothing stands around what is printed. -/
theorem output_ungrouped {v : Invocation} {i : Inputs} {c : Config} {step : Step}
    (hc : v.configured i = .ok c) (hstep : v.task.step i = .ok step) :
    (v.ungrouped.run i).output =
      ((Setting.run ⟨c.printer, .none⟩ true ⟨some (.new .writer c.level), i.surroundings⟩
        step).1.flatMap Entry.recorded).map Call.payload :=
  (framed_output v.ungrouped hc hstep).eq_of_unnamed

/-- With no group there are no markers. -/
theorem marker?_output_ungrouped {v : Invocation} {i : Inputs} {c : Config} {step : Step}
    (hc : v.configured i = .ok c) (hstep : v.task.step i = .ok step) :
    ∀ payload ∈ (v.ungrouped.run i).output, payload.marker? = none := by
  rw [output_ungrouped hc hstep]
  intro payload hpayload
  obtain ⟨call, hcall, rfl⟩ := List.mem_map.1 hpayload
  have htext := (recorded_of_standing c.printer rfl (plain_task_step hstep)).2 call hcall
  exact Option.isNone_iff_eq_none.1 htext

/-! ## All runs -/

section
variable {v : Invocation} {i : Inputs}

/-- A run fails for the reasons there are. -/
theorem fault?_eq_some_iff {fault : RunFault} :
    (v.run i).fault? = some fault ↔ FailsFor v i fault := by
  cases hc : v.configured i with
  | error reason =>
    rw [run_of_config_error hc]
    constructor
    · rintro ⟨⟩
      exact .config hc
    · intro h
      cases h with
      | config h =>
        cases hc.symm.trans h
        rfl
      | scriptFile h => cases hc.symm.trans h
      | standardInput h => cases hc.symm.trans h
  | ok c =>
    rw [← task_step_error_iff hc]
    cases hstep : v.task.step i with
    | error reason => rw [run_of_step_error hc hstep, Option.some.injEq, Except.error.injEq]
    | ok step =>
      rw [run_of_step hc hstep]
      exact ⟨nofun, nofun⟩

/-- A run that does not fail has a configuration and something to print. -/
theorem exists_step (h : (v.run i).fault? = none) :
    ∃ c step, v.configured i = .ok c ∧ v.task.step i = .ok step := by
  cases hc : v.configured i with
  | error fault =>
    rw [run_of_config_error hc] at h
    cases h
  | ok c =>
    cases hstep : v.task.step i with
    | error fault =>
      rw [run_of_step_error hc hstep] at h
      cases h
    | ok step => exact ⟨c, step, rfl, rfl⟩

theorem output_of_fault (h : (v.run i).fault? ≠ none) : (v.run i).output = [] := by
  cases hc : v.configured i with
  | error fault =>
    rw [run_of_config_error hc]
    rfl
  | ok c =>
    cases hstep : v.task.step i with
    | error fault =>
      rw [run_of_step_error hc hstep]
      rfl
    | ok step =>
      rw [run_of_step hc hstep] at h
      exact absurd rfl h

end

/-- Every run either fails for one of the reasons there are, with nothing written at all, or
writes what it writes with no group around it, which is text, between two matching markers or
no markers. -/
theorem run_output (v : Invocation) (i : Inputs) :
    (∀ fault, (v.run i).fault? = some fault ↔ FailsFor v i fault) ∧
      ((v.run i).fault? ≠ none → (v.run i).output = []) ∧
      ((v.run i).fault? = none →
        (v.ungrouped.run i).fault? = none ∧
          (∀ payload ∈ (v.ungrouped.run i).output, payload.marker? = none) ∧
          ∃ c, v.configured i = .ok c ∧
            Framed v.heading.name v.heading.description
              (c.printer.detectors.ciEnvironment i.surroundings)
              (v.ungrouped.run i).output (v.run i).output) := by
  refine ⟨fun fault => fault?_eq_some_iff, output_of_fault, fun h => ?_⟩
  obtain ⟨c, step, hc, hstep⟩ := exists_step h
  have hungrouped : (v.ungrouped.run i).fault? = none := by
    have hc' : v.ungrouped.configured i = .ok c := hc
    rw [run_of_step hc' hstep]
  refine ⟨hungrouped, ?_, c, hc, ?_⟩
  · exact marker?_output_ungrouped hc hstep
  · rw [output_ungrouped hc hstep]
    exact framed_output v hc hstep

end Command

end StepLog
