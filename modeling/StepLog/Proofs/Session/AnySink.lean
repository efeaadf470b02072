/-
  Printing on sinks of any making.

  A printer asks its sink whether `info` is enabled before it prints, and goes on whatever
  becomes of its calls. A sink that says one thing and does another is a sink like any other
  here. The sinks of sessions are among them (`print_anySink`), and on a sink that does not say
  that `info` is enabled no call is made (`AnySink.print_of_not_enabled`).
-/
import StepLog.Proofs.Session.Recorded

namespace StepLog

/-- Any sink: what it says to be enabled, and what becomes of a call. Nothing ties the two. -/
structure AnySink (σ : Type) where
  enabled : σ → Severity → Bool
  perform : σ → Call → Outcome × σ

namespace AnySink

variable {σ : Type}

/-- Carries out actions on a sink. -/
def act (k : AnySink σ) : σ → List Action → List Event × σ
  | sink, [] => ([], sink)
  | sink, .notice n :: rest =>
    let r := k.act sink rest
    (.notice n :: r.1, r.2)
  | sink, .call purpose c :: rest =>
    let made := k.perform sink c
    let r := k.act made.2 rest
    (.called c made.1 :: purpose.notices made.1 ++ r.1, r.2)

/-- Prints a script on a sink. -/
def script (k : AnySink σ) (p : Printer) (s : Surroundings) (sink : σ) (label text : String) :
    List Event × σ :=
  k.act sink (p.scriptOn s (k.enabled sink) label text)

/-- Prints parameters on a sink. -/
def params (k : AnySink σ) (p : Printer) (s : Surroundings) (sink : σ) (ps : Params) :
    List Event × σ :=
  k.act sink (p.paramsOn s (k.enabled sink) ps)

end AnySink

/-- Every call among the actions is made, whatever becomes of the others. -/
theorem AnySink.attempts_act {σ : Type} (k : AnySink σ) (sink : σ) (actions : List Action) :
    attempts (k.act sink actions).1 = callsOf actions := by
  induction actions generalizing sink with
  | nil => rfl
  | cons a rest ih =>
    cases a with
    | notice n => exact ih sink
    | call purpose c =>
      unfold AnySink.act
      dsimp only
      rw [List.cons_append, attempts_called, attempts_append, attempts_notices, ih]
      rfl

/-- The sinks of sessions among all sinks. -/
def Sink.anySink (schedule : Schedule) : AnySink Sink where
  enabled sink severity := severity.passes sink.level
  perform sink c := sink.perform schedule c

theorem act_anySink (schedule : Schedule) {st : State} {sink : Sink} (h : st.sink = some sink)
    (actions : List Action) :
    let r := (Sink.anySink schedule).act sink actions
    st.act schedule actions = (r.1, { st with sink := some r.2 }) := by
  induction actions generalizing st sink with
  | nil =>
    obtain ⟨_, s⟩ := st
    cases h
    rfl
  | cons a rest ih =>
    cases a with
    | notice n =>
      rw [State.act, ih h]
      rfl
    | call purpose c =>
      rw [act_call schedule h, ih rfl]
      rfl

/-- In a session a script is printed on its sink as on any other, and so are parameters. -/
theorem print_anySink (x : Setting) {st : State} {sink : Sink} (h : st.sink = some sink) :
    (∀ label text,
      let r := (Sink.anySink x.schedule).script x.printer st.surroundings sink label text
      x.run true st (.script label text) = entry .script (r.1, { st with sink := some r.2 })) ∧
    ∀ ps,
      let r := (Sink.anySink x.schedule).params x.printer st.surroundings sink ps
      x.run true st (.params ps) = entry .params (r.1, { st with sink := some r.2 }) := by
  have hprint : ∀ actions : Severity → List Action,
      x.print true st actions = st.act x.schedule (actions sink.level) := by
    intro actions
    unfold Setting.print
    rw [h]
    rfl
  refine ⟨fun label text => ?_, fun ps => ?_⟩
  · rw [Setting.run, hprint, act_anySink x.schedule h]
    rfl
  · rw [Setting.run, hprint, act_anySink x.schedule h]
    rfl

/-- Without `info` enabled nothing is printed, and nothing is worth noticing. -/
theorem AnySink.print_of_not_enabled {σ : Type} (k : AnySink σ) (p : Printer) (s : Surroundings)
    {sink : σ} (h : k.enabled sink .info = false) :
    (∀ label text, k.script p s sink label text = ([], sink)) ∧
      ∀ ps, k.params p s sink ps = ([], sink) := by
  refine ⟨fun label text => ?_, fun ps => ?_⟩
  · unfold AnySink.script Printer.scriptOn
    rw [h]
    rfl
  · unfold AnySink.params Printer.paramsOn
    rw [h]
    rfl

end StepLog
