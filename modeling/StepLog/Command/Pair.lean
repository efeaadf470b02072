/-
  Parameters on the command line, written KEY=VALUE.

  The key ends at the first equals sign. In the value a backslash with an `n` after it
  stands for a line feed, from left to right; no other escape exists. `escape` writes a
  value back: the values that can be given are those in which no backslash stands before
  an `n`.
-/

namespace StepLog.Command

/-- A parameter with its text. -/
structure Pair where
  key : String
  value : String
deriving DecidableEq

/-- Why a text is no parameter. -/
inductive PairFault
  | noEqualsSign (text : String)
  | emptyKey (text : String)
deriving DecidableEq

def PairFault.message : PairFault → String
  | noEqualsSign text => "expected KEY=VALUE, got '" ++ text ++ "'"
  | emptyKey text => "empty key in '" ++ text ++ "'"

/-- Puts a line feed for each backslash with an `n` after it. -/
def unescape : List Char → List Char
  | [] => []
  | '\\' :: 'n' :: rest => '\n' :: unescape rest
  | c :: rest => c :: unescape rest

/-- Writes each line feed as a backslash and an `n`. -/
def escape (s : List Char) : List Char :=
  s.flatMap fun c => if c = '\n' then ['\\', 'n'] else [c]

/-- The part before the first equals sign and the part behind it. -/
def cutAtEquals (s : List Char) : Option (List Char × List Char) :=
  match s.dropWhile (· ≠ '=') with
  | [] => none
  | _ :: behind => some (s.takeWhile (· ≠ '='), behind)

def Pair.read (text : String) : Except PairFault Pair :=
  match cutAtEquals text.toList with
  | none => .error (.noEqualsSign text)
  | some ([], _) => .error (.emptyKey text)
  | some (key, value) => .ok ⟨String.ofList key, String.ofList (unescape value)⟩

end StepLog.Command
