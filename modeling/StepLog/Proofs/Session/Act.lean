/-
  What actions do to a session: the calls that they attempt and the state that they leave.

  A call counts as attempted whatever became of it. So the calls that actions attempt on a
  sink are the calls among the actions (`attempts_act`), for every schedule of refusals, and
  no action changes the surroundings or whether there is a sink. Nor does any ask one of the
  caller's CI probes (`questions_act`).
-/
import StepLog.Session

namespace StepLog

/-- The call of an event, whatever became of it. -/
def Event.call? : Event → Option Call
  | .called c _ => some c
  | _ => none

def Action.call? : Action → Option Call
  | .call _ c => some c
  | .notice _ => none

/-- The calls that events attempted. -/
def attempts (events : List Event) : List Call := events.filterMap Event.call?

def Entry.attempted (e : Entry) : List Call := attempts e.events

@[simp] theorem attempts_append (xs ys : List Event) :
    attempts (xs ++ ys) = attempts xs ++ attempts ys := by
  simp [attempts]

@[simp] theorem attempts_called (c : Call) (outcome : Outcome) (events : List Event) :
    attempts (.called c outcome :: events) = c :: attempts events := rfl

@[simp] theorem attempts_notices (purpose : Purpose) (outcome : Outcome) :
    attempts (purpose.notices outcome) = [] := by
  cases h : outcome.refusal with
  | none => simp [attempts, Purpose.notices, h]
  | some refusal => simp [attempts, Purpose.notices, h, Event.call?]

@[simp] theorem attempts_probed (questions : List CiQuestion) :
    attempts (questions.map Event.probed) = [] := by
  simp [attempts, List.filterMap_map, Function.comp_def, Event.call?]

/-! ## One call -/

theorem call_of_sink (schedule : Schedule) {st : State} {sink : Sink} (h : st.sink = some sink)
    (c : Call) :
    st.call schedule c = (some (sink.perform schedule c).1,
      { st with sink := some (sink.perform schedule c).2 }) := by
  unfold State.call
  rw [h]

theorem call_of_no_sink (schedule : Schedule) {st : State} (h : st.sink = none) (c : Call) :
    st.call schedule c = (none, st) := by
  unfold State.call
  rw [h]

@[simp] theorem call_surroundings (schedule : Schedule) (st : State) (c : Call) :
    (st.call schedule c).2.surroundings = st.surroundings := by
  cases h : st.sink with
  | none => rw [call_of_no_sink schedule h]
  | some sink => rw [call_of_sink schedule h]

@[simp] theorem call_isSome (schedule : Schedule) (st : State) (c : Call) :
    (st.call schedule c).2.sink.isSome = st.sink.isSome := by
  cases h : st.sink with
  | none => rw [call_of_no_sink schedule h, h]
  | some sink => rw [call_of_sink schedule h]; rfl

/-! ## Actions -/

/-- One call among actions, on a sink. -/
theorem act_call (schedule : Schedule) {st : State} {sink : Sink} (h : st.sink = some sink)
    (purpose : Purpose) (c : Call) (rest : List Action) :
    st.act schedule (.call purpose c :: rest) =
      (.called c (sink.perform schedule c).1 :: purpose.notices (sink.perform schedule c).1 ++
          (State.act schedule { st with sink := some (sink.perform schedule c).2 } rest).1,
        (State.act schedule { st with sink := some (sink.perform schedule c).2 } rest).2) := by
  rw [State.act, call_of_sink schedule h]

theorem act_call_of_no_sink (schedule : Schedule) {st : State} (h : st.sink = none)
    (purpose : Purpose) (c : Call) (rest : List Action) :
    st.act schedule (.call purpose c :: rest) = st.act schedule rest := by
  rw [State.act, call_of_no_sink schedule h]

/-- A property of states that every call keeps holds after actions. -/
theorem act_invariant (schedule : Schedule) (P : State → Prop)
    (keep : ∀ st c, P st → P (st.call schedule c).2) (actions : List Action) {st : State}
    (h : P st) : P (st.act schedule actions).2 := by
  induction actions generalizing st with
  | nil => exact h
  | cons a rest ih =>
    cases a with
    | notice n => exact ih h
    | call purpose c =>
      have hc := keep st c h
      unfold State.act
      generalize st.call schedule c = r at hc
      obtain ⟨outcome | outcome, st'⟩ := r
      · exact ih hc
      · exact ih hc

@[simp] theorem act_surroundings (schedule : Schedule) (st : State) (actions : List Action) :
    (st.act schedule actions).2.surroundings = st.surroundings :=
  act_invariant schedule (fun st' => st'.surroundings = st.surroundings)
    (fun st' c h => by rw [call_surroundings, h]) actions rfl

@[simp] theorem act_isSome (schedule : Schedule) (st : State) (actions : List Action) :
    (st.act schedule actions).2.sink.isSome = st.sink.isSome :=
  act_invariant schedule (fun st' => st'.sink.isSome = st.sink.isSome)
    (fun st' c h => by rw [call_isSome, h]) actions rfl

/-- Every call among the actions is attempted, whether or not one before it was refused. -/
theorem attempts_act (schedule : Schedule) {st : State} (h : st.sink.isSome = true)
    (actions : List Action) :
    attempts (st.act schedule actions).1 = actions.filterMap Action.call? := by
  induction actions generalizing st with
  | nil => rfl
  | cons a rest ih =>
    cases a with
    | notice n => exact ih h
    | call purpose c =>
      obtain ⟨sink, hs⟩ := Option.isSome_iff_exists.1 h
      have hrest := @ih { st with sink := some (sink.perform schedule c).2 } rfl
      rw [act_call schedule hs, List.cons_append, attempts_called, attempts_append,
        attempts_notices, hrest]
      rfl

theorem attempts_act_of_no_sink (schedule : Schedule) {st : State} (h : st.sink = none)
    (actions : List Action) : attempts (st.act schedule actions).1 = [] := by
  induction actions with
  | nil => rfl
  | cons a rest ih =>
    cases a with
    | notice n => exact ih
    | call purpose c =>
      rw [act_call_of_no_sink schedule h]
      exact ih

/-- What a step that prints attempts on its sink, if it has one. -/
theorem attempts_print (x : Setting) (attached : Bool) (st : State)
    (actions : Severity → List Action) :
    attempts (x.print attached st actions).1 =
      if attached then st.sink.elim [] fun sink => (actions sink.level).filterMap Action.call?
      else [] := by
  unfold Setting.print
  split
  · split
    · next h => rw [h]; rfl
    · next sink h => rw [attempts_act x.schedule (by rw [h]; rfl), h]; rfl
  · rfl

@[simp] theorem print_surroundings (x : Setting) (attached : Bool) (st : State)
    (actions : Severity → List Action) :
    (x.print attached st actions).2.surroundings = st.surroundings := by
  unfold Setting.print
  split
  · split
    · rfl
    · rw [act_surroundings]
  · rfl

@[simp] theorem print_isSome (x : Setting) (attached : Bool) (st : State)
    (actions : Severity → List Action) :
    (x.print attached st actions).2.sink.isSome = st.sink.isSome := by
  unfold Setting.print
  split
  · split
    · rfl
    · rw [act_isSome]
  · rfl

/-! ## Calls that a session makes itself -/

@[simp] theorem direct_state (schedule : Schedule) (st : State) (c : Call) :
    (st.direct schedule c).2 = (st.call schedule c).2 := by
  unfold State.direct
  cases h : st.sink with
  | none => rw [call_of_no_sink schedule h]
  | some sink => rw [call_of_sink schedule h]

@[simp] theorem direct_surroundings (schedule : Schedule) (attached : Bool) (st : State)
    (c : Call) :
    (if attached then st.direct schedule c else ([], st)).2.surroundings = st.surroundings := by
  split
  · rw [direct_state, call_surroundings]
  · rfl

theorem attempts_direct (schedule : Schedule) (st : State) (c : Call) :
    attempts (st.direct schedule c).1 = if st.sink.isSome then [c] else [] := by
  unfold State.direct
  cases h : st.sink with
  | none => rw [call_of_no_sink schedule h]; rfl
  | some sink => rw [call_of_sink schedule h]; rfl

/-! ## Questions to the caller's CI probes -/

def Event.question? : Event → Option CiQuestion
  | .probed question => some question
  | _ => none

/-- The CI probes of the caller that events called. -/
def questions (events : List Event) : List CiQuestion := events.filterMap Event.question?

def Entry.questions (e : Entry) : List CiQuestion := StepLog.questions e.events

@[simp] theorem questions_append (xs ys : List Event) :
    questions (xs ++ ys) = questions xs ++ questions ys :=
  List.filterMap_append

@[simp] theorem questions_notices (purpose : Purpose) (outcome : Outcome) :
    questions (purpose.notices outcome) = [] := by
  cases h : outcome.refusal <;> simp [questions, Purpose.notices, h, Event.question?]

@[simp] theorem questions_probed (asked : List CiQuestion) :
    questions (asked.map Event.probed) = asked := by
  simp [questions, List.filterMap_map, Function.comp_def, Event.question?]

/-- No action calls a CI probe. -/
@[simp] theorem questions_act (schedule : Schedule) (st : State) (actions : List Action) :
    questions (st.act schedule actions).1 = [] := by
  induction actions generalizing st with
  | nil => rfl
  | cons a rest ih =>
    cases a with
    | notice n => exact ih st
    | call purpose c =>
      cases hs : st.sink with
      | none => rw [act_call_of_no_sink schedule hs, ih]
      | some sink =>
        rw [act_call schedule hs, List.cons_append]
        show questions (purpose.notices _ ++ _) = []
        rw [questions_append, questions_notices, ih]
        rfl

theorem questions_print (x : Setting) (attached : Bool) (st : State)
    (actions : Severity → List Action) : questions (x.print attached st actions).1 = [] := by
  unfold Setting.print
  cases attached with
  | false => rfl
  | true =>
    cases st.sink with
    | none => rfl
    | some sink => exact questions_act ..

theorem questions_direct (schedule : Schedule) (attached : Bool) (st : State) (c : Call) :
    questions (if attached then st.direct schedule c else ([], st)).1 = [] := by
  cases attached with
  | false => rfl
  | true =>
    rw [if_pos rfl]
    unfold State.direct
    cases hs : st.sink with
    | none => rw [call_of_no_sink schedule hs]; rfl
    | some sink => rw [call_of_sink schedule hs]; rfl

theorem probes_eq_count (e : Entry) (question : CiQuestion) :
    e.probes question = e.questions.count question := by
  unfold Entry.probes Entry.questions
  induction e.events with
  | nil => rfl
  | cons event events ih =>
    cases event with
    | probed asked =>
      show _ = (asked :: questions events).count question
      rw [List.count_cons, List.count_cons, ih]
      simp
    | called c outcome => rw [List.count_cons_of_ne (by simp), ih]; rfl
    | notice n => rw [List.count_cons_of_ne (by simp), ih]; rfl

end StepLog
