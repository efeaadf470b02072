/-
  Sessions on a sink that refuses nothing.

  A call on such a sink is recorded if the gate lets it through and it has text. So what is
  recorded of a step is told by what it attempts and by where the sink stands
  (`recorded_plain`).
-/
import StepLog.Proofs.Session.Refusals

namespace StepLog

/-- A sink of this kind, at `level`, records the call if it refuses nothing. -/
def SinkKind.records (kind : SinkKind) (level : Severity) (c : Call) : Bool :=
  match kind with
  | .trace => true
  | .writer => c.passes level && !c.payload.isEmpty

/-- The sink of a state, if there is one, records the call if it refuses nothing. -/
def State.records (st : State) (c : Call) : Bool :=
  st.standing.2.any fun sink => sink.1.records sink.2 c

theorem records_of_standing {st st' : State} (h : st.standing = st'.standing) :
    st.records = st'.records := by
  unfold State.records
  rw [h]

theorem perform_none (sink : Sink) (c : Call) :
    (sink.perform .none c).1.recorded = sink.kind.records sink.level c := by
  unfold Sink.perform SinkKind.records
  dsimp only
  cases sink.kind with
  | trace => rfl
  | writer =>
    cases c.passes sink.level with
    | false => rfl
    | true => cases c.payload.isEmpty <;> rfl

theorem performAll_none (sink : Sink) (cs : List Call) :
    (sink.performAll .none cs).1 = cs.filter (sink.kind.records sink.level) := by
  induction cs generalizing sink with
  | nil => rfl
  | cons c cs ih =>
    obtain ⟨hkind, hlevel⟩ := perform_standing .none sink c
    unfold Sink.performAll
    dsimp only
    rw [ih, perform_none, hkind, hlevel, List.filter_cons]
    split <;> rfl

/-! ## What is recorded of what is attempted -/

theorem recorded_act_none (st : State) (actions : List Action) :
    recorded (st.act .none actions).1 =
      (attempts (st.act .none actions).1).filter st.records := by
  cases h : st.sink with
  | none =>
    rw [(recorded_act_of_no_sink .none h actions).1, attempts_act_of_no_sink .none h]
    rfl
  | some sink =>
    have hrecords : st.records = sink.kind.records sink.level := by
      funext c
      unfold State.records State.standing
      rw [h]
      rfl
    rw [(recorded_act .none h actions).1, performAll_none, hrecords,
      attempts_act .none (by rw [h]; rfl)]
    rfl

theorem recorded_print_none {x : Setting} (hx : x.schedule = .none) (attached : Bool) (st : State)
    (actions : Severity → List Action) :
    recorded (x.print attached st actions).1 =
      (attempts (x.print attached st actions).1).filter st.records := by
  unfold Setting.print
  rw [hx]
  split
  · split
    · rfl
    · exact recorded_act_none st _
  · rfl

theorem recorded_direct_none (attached : Bool) (st : State) (c : Call) :
    recorded (if attached then st.direct .none c else ([], st)).1 =
      (attempts (if attached then st.direct .none c else ([], st)).1).filter st.records := by
  cases attached with
  | false => rfl
  | true =>
    have hattempts : attempts (st.direct .none c).1 =
        attempts (st.act .none [.call .print c]).1 := by
      rw [attempts_direct]
      cases h : st.sink with
      | none => rw [attempts_act_of_no_sink .none h]; rfl
      | some sink => rw [attempts_act .none (by rw [h]; rfl)]; rfl
    rw [if_pos rfl, (recorded_direct .none st c).1, recorded_act_none, hattempts]

/-- A plain step leaves one entry. It records what it attempts and what the sink takes. -/
theorem recorded_plain {x : Setting} (hx : x.schedule = .none) (attached : Bool) (st : State)
    {step : Step} (h : step.isPlain = true) :
    ∃ e, (x.run attached st step).1 = [e] ∧ e.recorded = e.attempted.filter st.records := by
  cases step with
  | script label text => exact ⟨_, rfl, recorded_print_none hx attached st _⟩
  | params ps => exact ⟨_, rfl, recorded_print_none hx attached st _⟩
  | raw text =>
    refine ⟨_, rfl, ?_⟩
    rw [hx]
    exact recorded_direct_none attached st _
  | writeAt severity text =>
    refine ⟨_, rfl, ?_⟩
    rw [hx]
    exact recorded_direct_none attached st _
  | setLevel level => exact ⟨_, rfl, rfl⟩
  | setAnswers change => exact ⟨_, rfl, rfl⟩
  | setVariables change => exact ⟨_, rfl, rfl⟩
  | group name description ending steps => cases h
  | detached step => cases h

end StepLog
