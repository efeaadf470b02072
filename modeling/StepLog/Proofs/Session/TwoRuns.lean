/-
  Two runs of the same steps.

  Two settings that run the same steps come past the same places in the same order: each plain
  step, and of a group the opening and the ending. So they are compared place by place. `R`
  relates the states in which the runs stand, and `L` what they leave, entries and a state; it
  holds of runs that leave no entry, and is kept by putting entries behind entries. `TwoRuns`
  lists what is to be shown of each kind of step. That may rest on a condition on the step, if
  the condition carries over to the steps inside it and behind it (`Inherited`).

  Main statement: what the runs leave is related as a whole (`TwoRuns.runAll`). A comparison of
  two runs is an instance, which says what each step does and leaves the tree of steps to this.
-/
import StepLog.Proofs.Session.Groups

namespace StepLog

/-- What opening a group leaves: the questions of the detection, then what the group writes. -/
def Setting.opening (x : Setting) (st : State) (actions : List Action) : List Event × State :=
  (x.printer.detectors.ciCalls.map Event.probed ++ (st.act x.schedule actions).1,
    (st.act x.schedule actions).2)

/-- Conditions on a step and on a list of steps, by the state in which the run of `x` starts them,
that carry over to the steps inside a step and to the steps of a list. -/
structure Inherited (x : Setting) (C : State → Step → Prop) (Cs : State → List Step → Prop) :
    Prop where
  inside {st st₁ name description ending steps} :
    C st (.group name description ending steps) → st₁.surroundings = st.surroundings →
      Cs st₁ steps
  detached {st step} : C st (.detached step) → C st step
  head {st step steps} : Cs st (step :: steps) → C st step
  tail {attached st step steps} : Cs st (step :: steps) → Cs (x.run attached st step).2 steps

/-- States related by `R` lead two settings to related entries, step by step. -/
structure TwoRuns (x y : Setting) (R : State → State → Prop)
    (L : List Entry × State → List Entry × State → Prop) (C : State → Step → Prop)
    (Cs : State → List Step → Prop) : Prop extends Inherited x C Cs where
  states {r r'} : L r r' → R r.2 r'.2
  nil {st st'} : R st st' → L ([], st) ([], st')
  append {es es' fs fs' st₁ st₁' st₂ st₂'} :
    L (es, st₁) (es', st₁') → L (fs, st₂) (fs', st₂') → L (es ++ fs, st₂) (es' ++ fs', st₂')
  /-- An entry without events. -/
  quiet {st st'} (kind : EntryKind) : R st st' → L (entry kind ([], st)) (entry kind ([], st'))
  script {st st' label text} (attached : Bool) : R st st' → C st (.script label text) →
    L (entry .script (x.print attached st fun level =>
        x.printer.script st.surroundings level label text))
      (entry .script (y.print attached st' fun level =>
        y.printer.script st'.surroundings level label text))
  params {st st' ps} (attached : Bool) : R st st' → C st (.params ps) →
    L (entry .params (x.print attached st fun level =>
        x.printer.params st.surroundings level ps))
      (entry .params (y.print attached st' fun level =>
        y.printer.params st'.surroundings level ps))
  raw {st st' text} (attached : Bool) : R st st' → C st (.raw text) →
    L (entry .raw (if attached then st.direct x.schedule ⟨.raw, .text text⟩ else ([], st)))
      (entry .raw (if attached then st'.direct y.schedule ⟨.raw, .text text⟩ else ([], st')))
  writeAt {st st' severity text} (attached : Bool) : R st st' → C st (.writeAt severity text) →
    L (entry .writeAt
        (if attached then st.direct x.schedule ⟨.at severity, .text text⟩ else ([], st)))
      (entry .writeAt
        (if attached then st'.direct y.schedule ⟨.at severity, .text text⟩ else ([], st')))
  setLevel {st st' level} : R st st' → C st (.setLevel level) →
    R { st with sink := st.sink.map fun s => { s with level := level } }
      { st' with sink := st'.sink.map fun s => { s with level := level } }
  /-- A step that changes the surroundings, if it does. -/
  change {st st'} (step) : R st st' → C st step →
    R { st with surroundings := step.change st.surroundings }
      { st' with surroundings := step.change st'.surroundings }
  /-- Either run has a sink if the other has. -/
  sink {st st'} : R st st' → st.sink.isSome = st'.sink.isSome
  /-- Both runs open the same group. -/
  group {st st'} (hasSink name description) : R st st' →
    x.printer.openGroup st.surroundings hasSink name description =
      y.printer.openGroup st'.surroundings hasSink name description
  opened {st st' name description ending steps} (kind : EntryKind) (hasSink : Bool) : R st st' →
    C st (.group name description ending steps) →
    L (entry kind (x.opening st
        (x.printer.openGroup st.surroundings hasSink name description).1))
      (entry kind (y.opening st'
        (x.printer.openGroup st.surroundings hasSink name description).1))
  /-- The group was opened from the state `st`. -/
  ended {st st₁ st₁' name description ending steps} (hasSink : Bool) :
    C st (.group name description ending steps) → R st₁ st₁' →
    L (entry (.ended ending) (st₁.act x.schedule
        ((x.printer.openGroup st.surroundings hasSink name description).2.finishBy ending)))
      (entry (.ended ending) (st₁'.act y.schedule
        ((x.printer.openGroup st.surroundings hasSink name description).2.finishBy ending)))

namespace TwoRuns

variable {x y : Setting} {R : State → State → Prop}
  {L : List Entry × State → List Entry × State → Prop} {C : State → Step → Prop}
  {Cs : State → List Step → Prop}

/-- A group, if the runs of the steps inside it are related. -/
theorem run_group (h : TwoRuns x y R L C Cs) (attached : Bool) {name description : String}
    {ending : Ending} {steps : List Step} {st st' : State} (hst : R st st')
    (hc : C st (.group name description ending steps))
    (hsteps : ∀ {st₁ st₁' : State}, R st₁ st₁' → st₁.surroundings = st.surroundings →
      L (x.runAll attached st₁ steps) (y.runAll attached st₁' steps)) :
    L (x.run attached st (.group name description ending steps))
      (y.run attached st' (.group name description ending steps)) := by
  unfold Setting.run
  dsimp only
  rw [← h.sink hst, ← h.group _ name description hst]
  have hopened := h.opened (.opened
    (x.printer.openGroup st.surroundings (attached && st.sink.isSome) name description).2.isOpen
    (attached && st.sink.isSome)) (attached && st.sink.isSome) hst hc
  have hinside := hsteps (h.states hopened) (act_surroundings ..)
  have hended := h.ended (attached && st.sink.isSome) hc (h.states hinside)
  exact h.append (h.append hopened hinside) hended

mutual

/-- A step leaves what is related. -/
theorem run (h : TwoRuns x y R L C Cs) (attached : Bool) : (step : Step) → {st st' : State} →
    R st st' → C st step → L (x.run attached st step) (y.run attached st' step)
  | .script .., _, _, hst, hc => h.script attached hst hc
  | .params _, _, _, hst, hc => h.params attached hst hc
  | .raw _, _, _, hst, hc => h.raw attached hst hc
  | .writeAt .., _, _, hst, hc => h.writeAt attached hst hc
  | .setLevel _, _, _, hst, hc => h.quiet .setLevel (h.setLevel hst hc)
  | .setAnswers change, _, _, hst, hc => h.quiet .setAnswers (h.change (.setAnswers change) hst hc)
  | .setVariables change, _, _, hst, hc =>
    h.quiet .setVariables (h.change (.setVariables change) hst hc)
  | .group _ _ _ steps, _, _, hst, hc =>
    h.run_group attached hst hc fun h₁ hsame => runAll h attached steps h₁ (h.inside hc hsame)
  | .detached step, _, _, hst, hc => run h false step hst (h.detached hc)

/-- Steps one after the other leave what is related. -/
theorem runAll (h : TwoRuns x y R L C Cs) (attached : Bool) : (steps : List Step) →
    {st st' : State} → R st st' → Cs st steps →
    L (x.runAll attached st steps) (y.runAll attached st' steps)
  | [], _, _, hst, _ => h.nil hst
  | step :: steps, _, _, hst, hc => by
    have hfirst := run h attached step hst (h.head hc)
    exact h.append hfirst (runAll h attached steps (h.states hfirst) (h.tail hc))

end

end TwoRuns

end StepLog
