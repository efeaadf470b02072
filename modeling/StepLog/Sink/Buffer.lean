/-
  A writer in memory.

  It refuses nothing and keeps the bytes of every text that passes its gate. Its level may
  change between calls; a call is gated by the level in force when it is made.
-/
import StepLog.Sink.Basic

namespace StepLog

structure Buffer where
  level : Severity
  bytes : Text.Bytes

/-- What is done with a buffer. -/
inductive BufferStep
  | setLevel (level : Severity)
  | raw (text : String)
  | writeAt (severity : Severity) (text : String)

namespace Buffer

def new (level : Severity) : Buffer := ⟨level, []⟩

/-- A text of severity `s` would be written. -/
def enabled (b : Buffer) (s : Severity) : Bool := s.passes b.level

def append (b : Buffer) (text : String) : Buffer := { b with bytes := b.bytes ++ Text.encode text }

def step (b : Buffer) : BufferStep → Buffer
  | .setLevel level => { b with level := level }
  | .raw text => b.append text
  | .writeAt severity text => if b.enabled severity then b.append text else b

/-- Everything written so far, as text. -/
def contents (b : Buffer) : String := Text.decodeLossy b.bytes

end Buffer

end StepLog
