/-
  Groups leave alone what is printed inside them.

  `Step.flatten` puts the steps of a group in its place, without a sink if the group has none.
  A group hands its sink on as it found it: opening and ending one write markers and nothing
  else, and change neither the surroundings nor what the sink is. So a session and its flattened
  session run side by side, from states of the same standing, and write the same texts
  (`transparent_runAll`).

  Main statement: a session on a sink that refuses nothing writes, its markers left out, what
  its flattened session writes (`transparent_session`).
-/
import StepLog.Proofs.Printer.Calls
import StepLog.Proofs.Session.Unrefused

namespace StepLog

mutual

/-- The plain steps of a step in order, each detached as often as it stands in something
detached. -/
def Step.flatten : Step → List Step
  | .group _ _ _ steps => Step.flattenAll steps
  | .detached step => step.flatten.map Step.detached
  | .script label text => [.script label text]
  | .params ps => [.params ps]
  | .raw text => [.raw text]
  | .writeAt severity text => [.writeAt severity text]
  | .setLevel level => [.setLevel level]
  | .setAnswers change => [.setAnswers change]
  | .setVariables change => [.setVariables change]

/-- Steps without their groups. -/
def Step.flattenAll : List Step → List Step
  | [] => []
  | step :: steps => step.flatten ++ Step.flattenAll steps

end

/-- No step is a group, with its sink or without. -/
def Step.isGroupless : Step → Bool
  | .group .. => false
  | .detached step => step.isGroupless
  | _ => true

theorem flatten_plain {step : Step} (h : step.isPlain = true) : step.flatten = [step] := by
  cases step with
  | group name description ending steps => cases h
  | detached step => cases h
  | _ => rfl

mutual

theorem groupless_flatten : (step : Step) → ∀ plain ∈ step.flatten, plain.isGroupless = true
  | .group _ _ _ steps => groupless_flattenAll steps
  | .detached step => by
    unfold Step.flatten
    intro plain hp
    obtain ⟨inner, hi, rfl⟩ := List.mem_map.1 hp
    exact groupless_flatten step inner hi
  | .script .. | .params _ | .raw _ | .writeAt .. | .setLevel _ | .setAnswers _
  | .setVariables _ => List.forall_mem_singleton.2 rfl

theorem groupless_flattenAll : (steps : List Step) →
    ∀ plain ∈ Step.flattenAll steps, plain.isGroupless = true
  | [] => nofun
  | step :: steps =>
    List.forall_mem_append.2 ⟨groupless_flatten step, groupless_flattenAll steps⟩

end

/-! ## Running steps in parts -/

theorem runAll_append (x : Setting) (attached : Bool) (st : State) (xs ys : List Step) :
    x.runAll attached st (xs ++ ys) =
      ((x.runAll attached st xs).1 ++ (x.runAll attached (x.runAll attached st xs).2 ys).1,
        (x.runAll attached (x.runAll attached st xs).2 ys).2) := by
  induction xs generalizing st with
  | nil => rfl
  | cons step xs ih =>
    rw [List.cons_append, Setting.runAll, Setting.runAll]
    dsimp only
    rw [ih, List.append_assoc]

theorem runAll_singleton (x : Setting) (attached : Bool) (st : State) (step : Step) :
    x.runAll attached st [step] = x.run attached st step := by
  rw [Setting.runAll, Setting.runAll]
  dsimp only
  rw [List.append_nil]

/-- Detached steps run like steps with no sink. -/
theorem runAll_map_detached (x : Setting) (attached : Bool) (st : State) (steps : List Step) :
    x.runAll attached st (steps.map Step.detached) = x.runAll false st steps := by
  induction steps generalizing st with
  | nil => rfl
  | cons step steps ih =>
    rw [List.map_cons, Setting.runAll, Setting.runAll, Setting.run, ih]

/-! ## Markers and texts -/

/-- The call writes text, and no marker. -/
def Call.isText (c : Call) : Bool := c.payload.marker?.isNone

theorem isText_of_markers_eq_nil {calls : List Call} (h : markers calls = []) :
    ∀ c ∈ calls, c.isText = true := by
  intro c hc
  have hnone := List.filterMap_eq_nil_iff.1 h c hc
  unfold Call.isText
  rw [hnone]
  rfl

/-- What opens and ends a group is no text. -/
theorem isText_group (p : Printer) (s : Surroundings) (hasSink : Bool)
    (name description : String) (ending : Ending) :
    (∀ c ∈ callsOf (p.openGroup s hasSink name description).1, c.isText = false) ∧
      ∀ c ∈ callsOf ((p.openGroup s hasSink name description).2.finishBy ending),
        c.isText = false := by
  have hmarked : ∀ ms : List Marker, ∀ c ∈ ms.map Printer.marked, c.isText = false := by
    intro ms c hc
    obtain ⟨m, -, rfl⟩ := List.mem_map.1 hc
    rfl
  obtain ⟨opening, closing, hopen, hend⟩ := p.callsOf_group s hasSink name description ending
  rw [hopen, hend]
  exact ⟨hmarked opening, hmarked closing⟩

theorem recorded_act_subset (schedule : Schedule) (st : State) (actions : List Action) :
    recorded (st.act schedule actions).1 ⊆ callsOf actions := by
  intro c hc
  have hattempt := recorded_subset_attempts _ hc
  cases h : st.sink with
  | none =>
    rw [attempts_act_of_no_sink schedule h] at hattempt
    cases hattempt
  | some sink => rwa [attempts_act schedule (by rw [h]; rfl)] at hattempt

/-- Actions whose calls are all markers write no text. -/
theorem filter_recorded_act (schedule : Schedule) (st : State) {actions : List Action}
    (h : ∀ c ∈ callsOf actions, c.isText = false) :
    (recorded (st.act schedule actions).1).filter Call.isText = [] :=
  List.filter_eq_nil_iff.2 fun c hc => by
    rw [h c (recorded_act_subset schedule st actions hc)]
    exact Bool.false_ne_true

/-! ## Side by side -/

/-- What a run and the flattened run leave: the same texts, and states of the same standing. -/
structure Transparent (r r' : List Entry × State) : Prop where
  texts : (r.1.flatMap Entry.recorded).filter Call.isText = r'.1.flatMap Entry.recorded
  standing : r.2.standing = r'.2.standing

theorem Transparent.append {es fs es' fs' : List Entry} {st₁ st₁' st₂ st₂' : State}
    (h : Transparent (es, st₁) (es', st₁')) (h' : Transparent (fs, st₂) (fs', st₂')) :
    Transparent (es ++ fs, st₂) (es' ++ fs', st₂') := by
  refine ⟨?_, h'.standing⟩
  show ((es ++ fs).flatMap Entry.recorded).filter Call.isText =
    (es' ++ fs').flatMap Entry.recorded
  rw [List.flatMap_append, List.filter_append, List.flatMap_append]
  exact congrArg₂ _ h.texts h'.texts

variable {p : Printer} {st st' : State}

/-- A plain step stands in the flattened session as well. -/
theorem transparent_plain (attached : Bool) {step : Step} (h : step.isPlain = true)
    (hst : st.standing = st'.standing) :
    Transparent (Setting.run ⟨p, .none⟩ attached st step)
      (Setting.runAll ⟨p, .none⟩ attached st' step.flatten) := by
  obtain ⟨houtline, hstanding⟩ := (sameOutline p .none .none).run attached step hst trivial
  obtain ⟨e, he, hmarkers, -⟩ := run_plain ⟨p, .none⟩ attached st h
  obtain ⟨e₁, he₁, hrec⟩ := recorded_plain (x := ⟨p, .none⟩) rfl attached st h
  obtain ⟨e', he', hrec'⟩ := recorded_plain (x := ⟨p, .none⟩) rfl attached st' h
  obtain rfl : e = e₁ := List.singleton_inj.1 (he.symm.trans he₁)
  -- Both runs attempt the same texts, and both sinks take the same of them.
  have hattempted : e.attempted = e'.attempted := by
    rw [he, he'] at houtline
    exact congrArg (fun outline => outline.2.1) (List.singleton_inj.1 houtline)
  have htext := isText_of_markers_eq_nil hmarkers
  rw [flatten_plain h, runAll_singleton]
  refine ⟨?_, hstanding⟩
  rw [he, he', List.flatMap_singleton, List.flatMap_singleton, hrec, hrec', ← hattempted,
    records_of_standing hst, List.filter_eq_self]
  exact fun c hc => htext c (List.mem_of_mem_filter hc)

/-- An entry that writes no text has no counterpart. -/
theorem transparent_entry (kind : EntryKind) {r : List Event × State}
    (h : (recorded r.1).filter Call.isText = []) (hst : r.2.standing = st'.standing) :
    Transparent (entry kind r) ([], st') := by
  refine ⟨?_, hst⟩
  show ((recorded r.1) ++ []).filter Call.isText = []
  rw [List.append_nil, h]

/-- A group is as its steps, if they run side by side. -/
theorem transparent_group (attached : Bool) (name description : String) (ending : Ending)
    (steps : List Step) (hst : st.standing = st'.standing)
    (hsteps : ∀ {st₁ : State}, st₁.standing = st'.standing →
      Transparent (Setting.runAll ⟨p, .none⟩ attached st₁ steps)
        (Setting.runAll ⟨p, .none⟩ attached st' (Step.flattenAll steps))) :
    Transparent (Setting.run ⟨p, .none⟩ attached st (.group name description ending steps))
      (Setting.runAll ⟨p, .none⟩ attached st' (Step.flattenAll steps)) := by
  unfold Setting.run
  dsimp only
  obtain ⟨hopen, hend⟩ := isText_group p st.surroundings (attached && st.sink.isSome) name
    description ending
  generalize p.openGroup st.surroundings (attached && st.sink.isSome) name description = group
    at hopen hend
  have hopened : Transparent (entry (.opened group.2.isOpen (attached && st.sink.isSome))
      (p.detectors.ciCalls.map Event.probed ++ (st.act .none group.1).1,
        (st.act .none group.1).2)) ([], st') := by
    refine transparent_entry _ ?_ ((act_standing .none st group.1).trans hst)
    rw [recorded_append, recorded_probed]
    exact filter_recorded_act .none st hopen
  have hinside := hsteps hopened.standing
  have hended := transparent_entry (.ended ending) (filter_recorded_act .none _ hend)
    ((act_standing .none _ _).trans hinside.standing)
  have hall := (hopened.append hinside).append hended
  rw [List.nil_append, List.append_nil] at hall
  exact hall

mutual

/-- A step and its plain steps write the same texts, from states of the same standing. -/
theorem transparent_run (attached : Bool) : (step : Step) → {st st' : State} →
    st.standing = st'.standing →
    Transparent (Setting.run ⟨p, .none⟩ attached st step)
      (Setting.runAll ⟨p, .none⟩ attached st' step.flatten)
  | .script .., _, _, h | .params _, _, _, h | .raw _, _, _, h | .writeAt .., _, _, h
  | .setLevel _, _, _, h | .setAnswers _, _, _, h | .setVariables _, _, _, h =>
    transparent_plain attached rfl h
  | .group name description ending steps, _, _, h =>
    transparent_group attached name description ending steps h
      fun h₁ => transparent_runAll attached steps h₁
  | .detached step, _, _, h => by
    unfold Setting.run Step.flatten
    rw [runAll_map_detached]
    exact transparent_run false step h

/-- Steps one after the other, and the flattened steps. -/
theorem transparent_runAll (attached : Bool) : (steps : List Step) → {st st' : State} →
    st.standing = st'.standing →
    Transparent (Setting.runAll ⟨p, .none⟩ attached st steps)
      (Setting.runAll ⟨p, .none⟩ attached st' (Step.flattenAll steps))
  | [], _, _, h => ⟨rfl, h⟩
  | step :: steps, _, _, h => by
    have hfirst := transparent_run attached step h
    have hothers := transparent_runAll attached steps hfirst.standing
    unfold Step.flattenAll
    rw [runAll_append]
    exact hfirst.append hothers

end

/-- On a sink that refuses nothing a session writes, its markers left out, exactly what the
session writes in which each group is replaced by its steps, whatever the groups are called and
wherever the markers go. -/
theorem transparent_session (p : Printer) (sink : Option Sink) (s : Surroundings)
    (steps : List Step) :
    ((Setting.session ⟨p, .none⟩ sink s steps).flatMap Entry.recorded).filter Call.isText =
        (Setting.session ⟨p, .none⟩ sink s (Step.flattenAll steps)).flatMap Entry.recorded ∧
      ∀ step ∈ Step.flattenAll steps, step.isGroupless = true :=
  ⟨(transparent_runAll true steps rfl).texts, groupless_flattenAll steps⟩

/-- A group without a sink leaves its steps without one. -/
example : Step.flattenAll
    [.group "a" "" .drop [.raw "x", .detached (.group "b" "" .close [.raw "y"])]] =
      [.raw "x", .detached (.raw "y")] := rfl

end StepLog
