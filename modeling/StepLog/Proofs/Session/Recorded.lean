/-
  What of the calls of a session is recorded.

  What a sink records of actions, and what becomes of the sink, depends on the calls among
  them and on nothing else (`recorded_act`). A sink looks at the target of a call and at
  whether its payload is empty; it treats calls alike that agree in both. So calls related
  one by one leave equal sinks and recorded calls that are related one by one
  (`Related.act`), whatever is refused.
-/
import Mathlib.Data.List.Forall2
import StepLog.Proofs.Session.Act

namespace StepLog

/-- The calls of events that were recorded. -/
def recorded (events : List Event) : List Call :=
  events.filterMap fun
    | .called c outcome => if outcome.recorded then some c else none
    | _ => none

@[simp] theorem recorded_append (xs ys : List Event) :
    recorded (xs ++ ys) = recorded xs ++ recorded ys := by
  simp [recorded]

@[simp] theorem recorded_called (c : Call) (outcome : Outcome) (events : List Event) :
    recorded (.called c outcome :: events) =
      (if outcome.recorded then [c] else []) ++ recorded events := by
  cases h : outcome.recorded with
  | true => simp [recorded, h]
  | false => simp [recorded, h]

@[simp] theorem recorded_notices (purpose : Purpose) (outcome : Outcome) :
    recorded (purpose.notices outcome) = [] := by
  cases h : outcome.refusal with
  | none => simp [recorded, Purpose.notices, h]
  | some refusal => simp [recorded, Purpose.notices, h]

@[simp] theorem recorded_probed (questions : List CiQuestion) :
    recorded (questions.map Event.probed) = [] := by
  simp [recorded, List.filterMap_map]

theorem recorded_subset_attempts (events : List Event) : recorded events ⊆ attempts events := by
  intro c hc
  obtain ⟨event, hmem, h⟩ := List.mem_filterMap.1 hc
  refine List.mem_filterMap.2 ⟨event, hmem, ?_⟩
  cases event with
  | called c' outcome =>
    dsimp only at h
    split at h
    · exact h
    · cases h
  | notice n => cases h
  | probed question => cases h

/-! ## Calls one after the other -/

/-- The calls among actions. -/
def callsOf (actions : List Action) : List Call := actions.filterMap Action.call?

@[simp] theorem callsOf_append (xs ys : List Action) :
    callsOf (xs ++ ys) = callsOf xs ++ callsOf ys := List.filterMap_append

theorem callsOf_flatMap {α : Type} (f : α → List Action) (as : List α) :
    callsOf (as.flatMap f) = as.flatMap fun a => callsOf (f a) := by
  induction as with
  | nil => rfl
  | cons a as ih => rw [List.flatMap_cons, callsOf_append, ih, List.flatMap_cons]

/-- Makes calls on a sink: those that are recorded, and the sink after them. -/
def Sink.performAll (schedule : Schedule) (sink : Sink) : List Call → List Call × Sink
  | [] => ([], sink)
  | c :: cs =>
    let first := sink.perform schedule c
    let others := first.2.performAll schedule cs
    ((if first.1.recorded then [c] else []) ++ others.1, others.2)

/-- Actions record what their calls record. -/
theorem recorded_act (schedule : Schedule) {st : State} {sink : Sink} (h : st.sink = some sink)
    (actions : List Action) :
    recorded (st.act schedule actions).1 = (sink.performAll schedule (callsOf actions)).1 ∧
      (st.act schedule actions).2.sink =
        some (sink.performAll schedule (callsOf actions)).2 := by
  induction actions generalizing st sink with
  | nil => exact ⟨rfl, h⟩
  | cons a rest ih =>
    cases a with
    | notice n => exact ih h
    | call purpose c =>
      have hrest := @ih { st with sink := some (sink.perform schedule c).2 } _ rfl
      rw [act_call schedule h]
      refine ⟨?_, hrest.2⟩
      rw [List.cons_append, recorded_called, recorded_append, recorded_notices, hrest.1]
      rfl

theorem recorded_act_of_no_sink (schedule : Schedule) {st : State} (h : st.sink = none)
    (actions : List Action) :
    recorded (st.act schedule actions).1 = [] ∧ (st.act schedule actions).2.sink = none := by
  induction actions with
  | nil => exact ⟨rfl, h⟩
  | cons a rest ih =>
    cases a with
    | notice n => exact ih
    | call purpose c =>
      rw [act_call_of_no_sink schedule h]
      exact ih

/-- A call that the session makes itself is recorded like any other. -/
theorem recorded_direct (schedule : Schedule) (st : State) (c : Call) :
    recorded (st.direct schedule c).1 = recorded (st.act schedule [.call .print c]).1 ∧
      (st.direct schedule c).2.sink = (st.act schedule [.call .print c]).2.sink := by
  unfold State.direct
  cases h : st.sink with
  | none =>
    rw [call_of_no_sink schedule h, act_call_of_no_sink schedule h]
    exact ⟨rfl, rfl⟩
  | some sink =>
    rw [call_of_sink schedule h, act_call schedule h]
    refine ⟨?_, rfl⟩
    rw [List.cons_append, recorded_called, recorded_called, recorded_append, recorded_notices]
    rfl

/-! ## Related calls -/

/-- A sink makes no difference between the calls. -/
structure Call.Alike (c c' : Call) : Prop where
  target : c.target = c'.target
  empty : c.payload.isEmpty = c'.payload.isEmpty

theorem Call.Alike.perform {c c' : Call} (h : c.Alike c') (schedule : Schedule) (sink : Sink) :
    sink.perform schedule c = sink.perform schedule c' := by
  have hpass : c.passes sink.level = c'.passes sink.level := by
    unfold Call.passes
    rw [h.target]
  unfold Sink.perform
  rw [hpass, h.empty]

theorem forall₂_flatMap {α β : Type} {R : β → β → Prop} {f g : α → List β} (as : List α)
    (h : ∀ a ∈ as, List.Forall₂ R (f a) (g a)) :
    List.Forall₂ R (as.flatMap f) (as.flatMap g) := by
  refine List.rel_flatten ?_
  rw [List.forall₂_map_left_iff, List.forall₂_map_right_iff, List.forall₂_same]
  exact h

/-- Two results of doing something to equal sinks: the recorded calls are related one by one,
and the sinks are still equal. -/
structure Related (R : Call → Call → Prop) (r r' : List Event × State) : Prop where
  recorded : List.Forall₂ R (recorded r.1) (recorded r'.1)
  sink : r.2.sink = r'.2.sink

section
variable {R : Call → Call → Prop} (hR : ∀ {c c'}, R c c' → c.Alike c') (schedule : Schedule)
include hR

theorem performAll_related (sink : Sink) {cs cs' : List Call} (h : List.Forall₂ R cs cs') :
    List.Forall₂ R (sink.performAll schedule cs).1 (sink.performAll schedule cs').1 ∧
      (sink.performAll schedule cs).2 = (sink.performAll schedule cs').2 := by
  induction h generalizing sink with
  | nil => exact ⟨.nil, rfl⟩
  | cons hc _ ih =>
    unfold Sink.performAll
    dsimp only
    rw [(hR hc).perform]
    obtain ⟨hrec, hsink⟩ := ih (sink.perform schedule _).2
    refine ⟨List.rel_append ?_ hrec, hsink⟩
    split
    · exact .cons hc .nil
    · exact .nil

theorem Related.act {st st' : State} (hst : st.sink = st'.sink) {as bs : List Action}
    (h : List.Forall₂ R (callsOf as) (callsOf bs)) :
    Related R (st.act schedule as) (st'.act schedule bs) := by
  cases hs : st.sink with
  | none =>
    obtain ⟨hrec, hsink⟩ := recorded_act_of_no_sink schedule hs as
    obtain ⟨hrec', hsink'⟩ := recorded_act_of_no_sink schedule (hst.symm.trans hs) bs
    exact ⟨by rw [hrec, hrec']; exact .nil, by rw [hsink, hsink']⟩
  | some sink =>
    obtain ⟨hrec, hsink⟩ := recorded_act schedule hs as
    obtain ⟨hrec', hsink'⟩ := recorded_act schedule (hst.symm.trans hs) bs
    have hall := performAll_related hR schedule sink h
    exact ⟨by rw [hrec, hrec']; exact hall.1, by rw [hsink, hsink', hall.2]⟩

/-- A step that prints: its actions depend on the level of the sink alone. -/
theorem Related.print {x y : Setting} (hx : x.schedule = schedule) (hy : y.schedule = schedule)
    (attached : Bool) {st st' : State} (hst : st.sink = st'.sink) {as bs : Severity → List Action}
    (h : ∀ level, List.Forall₂ R (callsOf (as level)) (callsOf (bs level))) :
    Related R (x.print attached st as) (y.print attached st' bs) := by
  unfold Setting.print
  rw [hx, hy, ← hst]
  split
  · split
    · exact ⟨.nil, hst⟩
    · exact Related.act hR schedule hst (h _)
  · exact ⟨.nil, hst⟩

/-- A call that the session makes itself. -/
theorem Related.direct (attached : Bool) {st st' : State} (hst : st.sink = st'.sink) {c : Call}
    (h : R c c) :
    Related R (if attached then st.direct schedule c else ([], st))
      (if attached then st'.direct schedule c else ([], st')) := by
  cases attached with
  | false => exact ⟨.nil, hst⟩
  | true =>
    obtain ⟨hrec, hsink⟩ := recorded_direct schedule st c
    obtain ⟨hrec', hsink'⟩ := recorded_direct schedule st' c
    have hcalls : List.Forall₂ R (callsOf [.call .print c]) (callsOf [.call .print c]) :=
      .cons h .nil
    have hact := Related.act hR schedule hst hcalls
    exact ⟨by rw [if_pos rfl, if_pos rfl, hrec, hrec']; exact hact.recorded,
      hsink.trans (hact.sink.trans hsink'.symm)⟩

end

end StepLog
