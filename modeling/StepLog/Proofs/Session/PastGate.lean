/-
  What a session writes past the gate.

  A printer makes its calls for text at a severity. Only markers, and the texts that a session
  writes raw, go past the gate of the sink (`pastGate_runAll`).
-/
import StepLog.Proofs.Printer.Calls
import StepLog.Proofs.Session.Groups

namespace StepLog

/-- The call goes past the gate. -/
def Call.isRaw (c : Call) : Bool := c.target == .raw

def Payload.text? : Payload → Option String
  | .text s => some s
  | .marker _ => none

/-- The texts that calls take past the gate. -/
def rawTexts (calls : List Call) : List String :=
  (calls.filter Call.isRaw).filterMap fun c => c.payload.text?

theorem rawTexts_append (xs ys : List Call) : rawTexts (xs ++ ys) = rawTexts xs ++ rawTexts ys := by
  unfold rawTexts
  rw [List.filter_append, List.filterMap_append]

mutual

/-- The raw texts of a step on a sink, or without one. -/
def Step.rawTexts (attached : Bool) : Step → List String
  | .raw text => if attached then [text] else []
  | .group _ _ _ steps => Step.allRawTexts attached steps
  | .detached step => step.rawTexts false
  | .script .. | .params _ | .writeAt .. | .setLevel _ | .setAnswers _ | .setVariables _ => []

def Step.allRawTexts (attached : Bool) : List Step → List String
  | [] => []
  | step :: steps => step.rawTexts attached ++ Step.allRawTexts attached steps

end

/-- Calls take these texts past the gate, and all their markers. -/
structure PastGate (texts : List String) (calls : List Call) : Prop where
  texts : rawTexts calls = texts
  markers : ∀ c ∈ calls, c.payload.marker?.isSome = true → c.isRaw = true

theorem PastGate.append {xs ys : List String} {cs ds : List Call} (h : PastGate xs cs)
    (h' : PastGate ys ds) : PastGate (xs ++ ys) (cs ++ ds) where
  texts := by rw [rawTexts_append, h.texts, h'.texts]
  markers := List.forall_mem_append.2 ⟨h.markers, h'.markers⟩

theorem pastGate_nil : PastGate [] [] := ⟨rfl, nofun⟩

/-- Text at a severity. -/
theorem pastGate_printed {calls : List Call}
    (h : ∀ c ∈ calls, ∃ severity text, c = Printer.printed severity text) : PastGate [] calls where
  texts := by
    have hgated : calls.filter Call.isRaw = [] := List.filter_eq_nil_iff.2 fun c hc => by
      obtain ⟨severity, text, rfl⟩ := h c hc
      exact Bool.false_ne_true
    unfold rawTexts
    rw [hgated]
    rfl
  markers c hc hm := by
    obtain ⟨severity, text, rfl⟩ := h c hc
    cases hm

theorem pastGate_marked (ms : List Marker) : PastGate [] (ms.map Printer.marked) := by
  induction ms with
  | nil => exact pastGate_nil
  | cons m ms ih =>
    have hfirst : PastGate [] [Printer.marked m] := ⟨rfl, List.forall_mem_singleton.2 fun _ => rfl⟩
    exact hfirst.append ih

/-! ## Runs -/

variable (x : Setting)

theorem pastGate_entry {texts : List String} (kind : EntryKind) {r : List Event × State}
    (h : PastGate texts (attempts r.1)) :
    PastGate texts ((entry kind r).1.flatMap Entry.attempted) := by
  show PastGate texts (attempts r.1 ++ [])
  rwa [List.append_nil]

theorem pastGate_print (attached : Bool) (st : State) {actions : Severity → List Action}
    (h : ∀ level, ∀ c ∈ callsOf (actions level),
      ∃ severity text, c = Printer.printed severity text) :
    PastGate [] (attempts (x.print attached st actions).1) := by
  rw [attempts_print]
  split
  · cases st.sink with
    | none => exact pastGate_nil
    | some sink => exact pastGate_printed (h sink.level)
  · exact pastGate_nil

theorem attempts_attached (schedule : Schedule) (attached : Bool) {st : State}
    (h : st.sink.isSome = true) (c : Call) :
    attempts (if attached then st.direct schedule c else ([], st)).1 =
      if attached then [c] else [] := by
  cases attached with
  | false => rfl
  | true => rw [if_pos rfl, if_pos rfl, attempts_direct, if_pos h]

/-- What opens and ends a group takes no text past the gate. -/
theorem pastGate_markers (schedule : Schedule) (p : Printer) (s : Surroundings) (hasSink : Bool)
    (name description : String) (ending : Ending) {st st' : State} (h : st.sink.isSome = true)
    (h' : st'.sink.isSome = true) :
    let group := p.openGroup s hasSink name description
    PastGate [] (attempts (st.act schedule group.1).1) ∧
      PastGate [] (attempts (st'.act schedule (group.2.finishBy ending)).1) := by
  dsimp only
  rw [attempts_act schedule h, attempts_act schedule h']
  obtain ⟨opening, closing, hopen, hend⟩ := p.callsOf_group s hasSink name description ending
  unfold callsOf at hopen hend
  rw [hopen, hend]
  exact ⟨pastGate_marked opening, pastGate_marked closing⟩

/-- A group, if this holds of the steps inside it. -/
theorem pastGate_group (attached : Bool) (name description : String) (ending : Ending)
    (steps : List Step) {st : State} (h : st.sink.isSome = true)
    (hsteps : ∀ {st₁ : State}, st₁.sink.isSome = true →
      PastGate (Step.allRawTexts attached steps)
        ((x.runAll attached st₁ steps).1.flatMap Entry.attempted)) :
    PastGate (Step.rawTexts attached (.group name description ending steps))
      ((x.run attached st (.group name description ending steps)).1.flatMap Entry.attempted) := by
  unfold Setting.run Step.rawTexts
  dsimp only
  have hsink := (act_isSome x.schedule st
    (x.printer.openGroup st.surroundings (attached && st.sink.isSome) name description).1).trans h
  have hinside := hsteps hsink
  obtain ⟨hopening, hending⟩ := pastGate_markers x.schedule x.printer st.surroundings
    (attached && st.sink.isSome) name description ending h
    ((runAll_isSome x attached _ steps).trans hsink)
  generalize x.printer.openGroup st.surroundings (attached && st.sink.isSome) name description =
    group at hinside hopening hending ⊢
  have hopened : PastGate [] ((entry (.opened group.2.isOpen (attached && st.sink.isSome))
      (x.printer.detectors.ciCalls.map Event.probed ++ (st.act x.schedule group.1).1,
        (st.act x.schedule group.1).2)).1.flatMap Entry.attempted) := by
    refine pastGate_entry _ ?_
    rw [attempts_append, attempts_probed]
    exact hopening
  have hall := (hopened.append hinside).append (pastGate_entry (.ended ending) hending)
  rw [List.nil_append, List.append_nil] at hall
  rw [List.flatMap_append, List.flatMap_append]
  exact hall

mutual

/-- A step on a sink takes its raw texts past the gate and all its markers. -/
theorem pastGate_run (attached : Bool) : (step : Step) → {st : State} →
    st.sink.isSome = true →
    PastGate (step.rawTexts attached) ((x.run attached st step).1.flatMap Entry.attempted)
  | .script label text, st, _ =>
    pastGate_entry .script (pastGate_print x attached st fun _ =>
      x.printer.printed_scriptOn st.surroundings _ label text)
  | .params ps, st, _ =>
    pastGate_entry .params (pastGate_print x attached st fun _ =>
      x.printer.printed_paramsOn st.surroundings _ ps)
  | .raw text, _, h => by
    refine pastGate_entry .raw ?_
    rw [attempts_attached x.schedule attached h]
    cases attached with
    | false => exact pastGate_nil
    | true => exact ⟨rfl, List.forall_mem_singleton.2 nofun⟩
  | .writeAt severity text, _, h => by
    refine pastGate_entry .writeAt ?_
    rw [attempts_attached x.schedule attached h]
    cases attached with
    | false => exact pastGate_nil
    | true => exact pastGate_printed (List.forall_mem_singleton.2 ⟨severity, text, rfl⟩)
  | .setLevel _, _, _ | .setAnswers _, _, _ | .setVariables _, _, _ => pastGate_nil
  | .group name description ending steps, _, h =>
    pastGate_group x attached name description ending steps h
      fun h₁ => pastGate_runAll attached steps h₁
  | .detached step, _, h => pastGate_run false step h

/-- Steps on a sink take their raw texts past the gate, and all their markers. -/
theorem pastGate_runAll (attached : Bool) : (steps : List Step) → {st : State} →
    st.sink.isSome = true →
    PastGate (Step.allRawTexts attached steps)
      ((x.runAll attached st steps).1.flatMap Entry.attempted)
  | [], _, _ => pastGate_nil
  | step :: steps, st, h => by
    have hothers := pastGate_runAll attached steps ((run_isSome x attached st step).trans h)
    unfold Setting.runAll Step.allRawTexts
    dsimp only
    rw [List.flatMap_append]
    exact (pastGate_run attached step h).append hothers

end

end StepLog
