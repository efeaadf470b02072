/-
  Sinks: where text is written.

  A sink has a minimum severity. Text at a severity passes a gate, raw text bypasses it.
  A `writer` hands each text that passes to one write, then flushes; an empty text needs
  no write. A `trace` records every call as it is made and has no gate and no flush.

  Writes and flushes may be refused. A schedule names the refused ones by number, counted
  from zero over the life of the sink. What is asked of a sink is a `Call`; what became
  of it is an `Outcome`.
-/
import StepLog.Ci.Marker

namespace StepLog

/-- How text goes to a sink. -/
inductive Target
  /-- Past the gate. -/
  | raw
  | at (severity : Severity)
deriving DecidableEq

/-- What goes to a sink: text, or a group marker. -/
inductive Payload
  | text (s : String)
  | marker (m : Marker)
deriving DecidableEq

/-- The text of a payload that is written at Unix time `time`. -/
def Payload.render (time : Int) : Payload → String
  | text s => s
  | marker m => m.render time

def Payload.isEmpty : Payload → Bool
  | text s => s.isEmpty
  | marker _ => false

structure Call where
  target : Target
  payload : Payload
deriving DecidableEq

/-- A call passes the gate of a sink at `level`. -/
def Call.passes (c : Call) (level : Severity) : Bool :=
  match c.target with
  | .raw => true
  | .at s => s.passes level

/-! ## Refusals -/

/-- Which writes and which flushes are refused. -/
structure Schedule where
  write : Nat → Bool
  flush : Nat → Bool

/-- The schedule of a sink that refuses nothing. -/
def Schedule.none : Schedule := ⟨fun _ => false, fun _ => false⟩

/-- A refused write or flush, by its number. -/
inductive Refusal
  | write (i : Nat)
  | flush (i : Nat)
deriving DecidableEq

def Refusal.message : Refusal → String
  | write i => "write " ++ toString i ++ " refused"
  | flush i => "flush " ++ toString i ++ " refused"

/-- What became of a call. -/
structure Outcome where
  /-- The text was written. -/
  recorded : Bool
  refusal : Option Refusal
deriving DecidableEq

/-! ## Sinks -/

inductive SinkKind
  | writer
  | trace
deriving DecidableEq

structure Sink where
  kind : SinkKind
  level : Severity
  /-- Number of writes so far, refused ones included. -/
  writes : Nat
  /-- Number of flushes so far, refused ones included. -/
  flushes : Nat
deriving DecidableEq

namespace Sink

def new (kind : SinkKind) (level : Severity) : Sink := ⟨kind, level, 0, 0⟩

/-- Flushes; `recorded` tells whether a text was written before. -/
def flush (schedule : Schedule) (sink : Sink) (recorded : Bool) : Outcome × Sink :=
  (⟨recorded, if schedule.flush sink.flushes then some (.flush sink.flushes) else none⟩,
   { sink with flushes := sink.flushes + 1 })

/-- Makes a call on a sink. -/
def perform (schedule : Schedule) (sink : Sink) (c : Call) : Outcome × Sink :=
  let refused : Outcome := ⟨false, some (.write sink.writes)⟩
  let after : Sink := { sink with writes := sink.writes + 1 }
  match sink.kind with
  | .trace => (if schedule.write sink.writes then refused else ⟨true, none⟩, after)
  | .writer =>
    if !c.passes sink.level then (⟨false, none⟩, sink)
    else if c.payload.isEmpty then flush schedule sink false
    else if schedule.write sink.writes then (refused, after)
    else flush schedule after true

end Sink

end StepLog
