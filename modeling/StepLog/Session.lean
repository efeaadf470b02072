/-
  Sessions: one printer, one sink and a list of steps.

  Groups hold steps of their own, and any step may be run without the sink. Running a
  session yields one entry for each step, two for a group, with the events that the step
  caused: calls on the sink and what became of them, notices, and calls of the caller's
  CI probes.
-/
import StepLog.Printer.Basic

namespace StepLog

/-- New answers for some of the caller's probes. -/
structure AnswerChange where
  github : Option Bool
  gitlab : Option Bool
  noColor : Option Bool
  dark : Option Bool

def AnswerChange.apply (c : AnswerChange) (a : Answers) : Answers :=
  ⟨c.github.getD a.github, c.gitlab.getD a.gitlab, c.noColor.getD a.noColor, c.dark.getD a.dark⟩

/-- New values for some variables, where the inner `none` unsets. -/
structure VariableChange where
  githubActions : Option (Option Text.Bytes)
  gitlabCi : Option (Option Text.Bytes)
  noColor : Option (Option Text.Bytes)
  colorFgBg : Option (Option Text.Bytes)

def VariableChange.apply (c : VariableChange) (v : Variables) : Variables :=
  ⟨c.githubActions.getD v.githubActions, c.gitlabCi.getD v.gitlabCi, c.noColor.getD v.noColor,
   c.colorFgBg.getD v.colorFgBg⟩

inductive Step
  | script (label text : String)
  | params (ps : Params)
  | raw (text : String)
  | writeAt (severity : Severity) (text : String)
  | setLevel (level : Severity)
  | setAnswers (change : AnswerChange)
  | setVariables (change : VariableChange)
  | group (name description : String) (ending : Ending) (steps : List Step)
  /-- The step with no sink. -/
  | detached (step : Step)

inductive Event
  | called (c : Call) (outcome : Outcome)
  | notice (n : Notice)
  | probed (question : CiQuestion)
deriving DecidableEq

/-- What an entry stands for. -/
inductive EntryKind
  | script
  | params
  | raw
  | writeAt
  | setLevel
  | setAnswers
  | setVariables
  /-- A group was opened: it owes a closing marker, it has a sink. -/
  | opened (owes hasSink : Bool)
  | ended (ending : Ending)
deriving DecidableEq

structure Entry where
  kind : EntryKind
  events : List Event
  /-- Number of flushes since the session began. -/
  flushes : Nat

/-- What changes during a session. -/
structure State where
  sink : Option Sink
  surroundings : Surroundings

def State.flushes (st : State) : Nat := st.sink.elim 0 Sink.flushes

/-! ## Acting on the sink -/

/-- Makes a call on the sink, if there is one. -/
def State.call (schedule : Schedule) (st : State) (c : Call) : Option Outcome × State :=
  match st.sink with
  | none => (none, st)
  | some sink =>
    let r := sink.perform schedule c
    (some r.1, { st with sink := some r.2 })

/-- The notice that a failed call leaves. -/
def Purpose.notices (purpose : Purpose) (outcome : Outcome) : List Event :=
  outcome.refusal.toList.map fun refusal => .notice (.failed purpose refusal)

/-- Carries out actions on the sink. -/
def State.act (schedule : Schedule) (st : State) : List Action → List Event × State
  | [] => ([], st)
  | .notice n :: rest =>
    let r := st.act schedule rest
    (.notice n :: r.1, r.2)
  | .call purpose c :: rest =>
    match st.call schedule c with
    | (none, st') => st'.act schedule rest
    | (some outcome, st') =>
      let r := st'.act schedule rest
      (.called c outcome :: purpose.notices outcome ++ r.1, r.2)

/-- A call that the session makes itself. -/
def State.direct (schedule : Schedule) (st : State) (c : Call) : List Event × State :=
  match st.call schedule c with
  | (none, st') => ([], st')
  | (some outcome, st') => ([.called c outcome], st')

/-! ## Running -/

/-- What stays the same during a session. -/
structure Setting where
  printer : Printer
  schedule : Schedule

/-- The actions of a step that prints, on the sink that it has. -/
def Setting.print (x : Setting) (attached : Bool) (st : State) (actions : Severity → List Action) :
    List Event × State :=
  if attached then
    match st.sink with
    | none => ([], st)
    | some sink => st.act x.schedule (actions sink.level)
  else ([], st)

/-- One entry, the state after its events. -/
def entry (kind : EntryKind) (r : List Event × State) : List Entry × State :=
  ([⟨kind, r.1, r.2.flushes⟩], r.2)

mutual

/-- Runs a step; `attached` tells whether it has the session's sink. -/
def Setting.run (x : Setting) (attached : Bool) (st : State) : Step → List Entry × State
  | .script label text =>
    entry .script (x.print attached st fun level => x.printer.script st.surroundings level label text)
  | .params ps =>
    entry .params (x.print attached st fun level => x.printer.params st.surroundings level ps)
  | .raw text =>
    entry .raw (if attached then st.direct x.schedule ⟨.raw, .text text⟩ else ([], st))
  | .writeAt severity text =>
    entry .writeAt (if attached then st.direct x.schedule ⟨.at severity, .text text⟩ else ([], st))
  | .setLevel level =>
    entry .setLevel ([], { st with sink := st.sink.map fun s => { s with level := level } })
  | .setAnswers change =>
    entry .setAnswers ([], { st with surroundings :=
      { st.surroundings with answers := change.apply st.surroundings.answers } })
  | .setVariables change =>
    entry .setVariables ([], { st with surroundings :=
      { st.surroundings with environment := change.apply st.surroundings.environment } })
  | .group name description ending steps =>
    let hasSink := attached && st.sink.isSome
    let probed := x.printer.detectors.ciCalls.map Event.probed
    let group := x.printer.openGroup st.surroundings hasSink name description
    let opening := st.act x.schedule group.1
    let opened := entry (.opened group.2.isOpen hasSink) (probed ++ opening.1, opening.2)
    let inside := x.runAll attached opened.2 steps
    let ended := entry (.ended ending) (inside.2.act x.schedule (group.2.finishBy ending))
    (opened.1 ++ inside.1 ++ ended.1, ended.2)
  | .detached step => x.run false st step

/-- Runs steps one after the other. -/
def Setting.runAll (x : Setting) (attached : Bool) (st : State) : List Step → List Entry × State
  | [] => ([], st)
  | step :: steps =>
    let first := x.run attached st step
    let others := x.runAll attached first.2 steps
    (first.1 ++ others.1, others.2)

end

/-- The entries of a session. -/
def Setting.session (x : Setting) (sink : Option Sink) (surroundings : Surroundings)
    (steps : List Step) : List Entry :=
  (x.runAll true ⟨sink, surroundings⟩ steps).1

/-- The refusal of the call that a step made itself. -/
def Entry.refusal? (e : Entry) : Option Refusal :=
  match e.kind with
  | .raw | .writeAt => e.events.findSome? fun
    | .called _ outcome => outcome.refusal
    | _ => none
  | _ => none

/-- The calls of an entry that were recorded. -/
def Entry.recorded (e : Entry) : List Call :=
  e.events.filterMap fun
    | .called c outcome => if outcome.recorded then some c else none
    | _ => none

/-- How often an entry's step called one of the caller's CI probes. -/
def Entry.probes (e : Entry) (q : CiQuestion) : Nat := e.events.count (.probed q)

def Entry.notices (e : Entry) : List Notice :=
  e.events.filterMap fun
    | .notice n => some n
    | _ => none

end StepLog
