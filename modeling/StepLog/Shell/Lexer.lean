/-
  The shell lexer.

  It tells commands from their arguments on one or more lines of shell text; it
  reads no here-documents. A `Position` carries what the next word may be. Each step
  takes one lexeme off the front (`next`), and the lexemes put together are the text
  (`scan_texts`).
-/
import StepLog.Token
import StepLog.Shell.Extent

namespace StepLog.Shell

/-- Words with a meaning of their own in command position. -/
def keywords : List String :=
  ["if", "then", "else", "elif", "fi", "for", "while", "until", "do", "done", "case", "esac",
   "function", "select", "time", "!", "\x7b", "\x7d", "[[", "]]"]

/-- Keywords after which the next word is again in command position. -/
def commandPrefixes : List String :=
  ["if", "then", "else", "elif", "while", "until", "do", "time", "!", "\x7b"]

/-- Keywords whose header may hold a later `in`. -/
def headerKeywords : List String := ["for", "case", "select"]

def twoCharOperators : List (Char × Char) :=
  [('|', '|'), ('&', '&'), (';', ';'), ('>', '>'), ('<', '<'), ('|', '&'), ('>', '&'),
   ('<', '&'), ('&', '>')]

/-- What the next word may be. -/
structure Position where
  /-- The word may be a command name, a keyword or an assignment. -/
  command : Bool
  /-- The word is the target of a redirection. -/
  target : Bool
  /-- A header is open, so the word `in` is a keyword. -/
  header : Bool
deriving DecidableEq

/-- The position at the start of a text. -/
def Position.start : Position := ⟨true, false, false⟩

/-- One step of the lexer: tokens, the position after them and the text left. -/
structure Lexeme where
  tokens : List Token
  position : Position
  rest : List Char

/-! ## Words -/

/-- A part of a word. -/
inductive Segment
  | plain (text : List Char)
  | quoted (text : List Char)
  | parameter (text : List Char)

def Segment.text : Segment → List Char
  | plain t => t
  | quoted t => t
  | parameter t => t

/-- The parts of the word at the front, and the rest. -/
def word : List Char → List Segment × List Char
  | [] => ([], [])
  | c :: cs =>
    if isSpace c || isOperator c then ([], c :: cs)
    else if isQuote c then
      having (.quoted (c :: (Shell.quoted c cs).1)) (word (Shell.quoted c cs).2)
    else if c = '$' then
      having (.parameter (c :: (Shell.parameter cs).1)) (word (Shell.parameter cs).2)
    else having (.plain (run (c :: cs)).1) (word (run (c :: cs)).2)
termination_by s => s.length
decreasing_by
  · have := quoted_length c cs; simp only [List.length_cons]; omega
  · have := parameter_length cs; simp only [List.length_cons]; omega
  · have h : endsRun c = false := by simp_all [endsRun]
    have : (run (c :: cs)).2.length ≤ cs.length := run_length h
    simp only [List.length_cons]; omega

def wordText (segments : List Segment) : List Char := (segments.map Segment.text).flatten

/-- A word that assigns: a name, then `=`. -/
def isAssignment (word : List Char) : Bool :=
  word.contains '=' &&
  match word.takeWhile (· ≠ '=') with
  | [] => false
  | c :: cs => isNameStart c && cs.all isNameChar

/-- Tokens of the parts. The plain part at the front gets the kind `first`, later plain
parts the kind `later`. -/
def segmentTokens (first later : TokenKind) : List Segment → List Token
  | [] => []
  | s :: ss =>
    (match s with
     | .plain t => Token.ofChars first t
     | .quoted t => Token.ofChars .string t
     | .parameter t => Token.ofChars .var t) :: segmentTokens later later ss

/-- Tokens of a word, and the position after it. -/
def classify (p : Position) (segments : List Segment) : List Token × Position :=
  let text := String.ofList (wordText segments)
  if p.target then
    (segmentTokens .argument .argument segments, { p with target := false })
  else if !p.command then
    if p.header && text == "in" then
      (segmentTokens .keyword .keyword segments, { p with header := false })
    else (segmentTokens .argument .argument segments, p)
  else if isAssignment (wordText segments) then
    (segmentTokens .var .var segments, p)
  else if segments.length == 1 && keywords.contains text then
    ([⟨.keyword, text⟩],
     { p with command := commandPrefixes.contains text, header := headerKeywords.contains text })
  else (segmentTokens .command .argument segments, { p with command := false })

/-! ## Operators -/

/-- The operator at the front of `c :: cs`, as long as can be, and the rest. -/
def operator (c : Char) : List Char → List Char × List Char
  | [] => ([c], [])
  | d :: ds => if twoCharOperators.contains (c, d) then ([c, d], ds) else ([c], d :: ds)

/-- The position after an operator: a redirection awaits its target, `)` ends a list,
and any other operator starts a new command. -/
def afterOperator (p : Position) (op : List Char) : Position :=
  if op.head? == some '<' || op.head? == some '>' || op == ['&', '>'] then
    { p with target := true }
  else if op == [')'] then { p with command := false }
  else { p with command := true, header := false }

/-- The position after blank space: a line feed starts a new command. -/
def afterSpace (p : Position) (space : List Char) : Position :=
  if space.contains '\n' then { p with command := true, header := false } else p

/-! ## Scanning -/

/-- Takes one lexeme off the front of `c :: cs`. -/
def next (p : Position) (c : Char) (cs : List Char) : Lexeme :=
  if isSpace c then
    let space := (c :: cs).takeWhile isSpace
    ⟨[.ofChars .whitespace space], afterSpace p space, (c :: cs).dropWhile isSpace⟩
  else if c = '#' then
    ⟨[.ofChars .comment ((c :: cs).takeWhile (· ≠ '\n'))], p, (c :: cs).dropWhile (· ≠ '\n')⟩
  else if isOperator c then
    let op := operator c cs
    ⟨[.ofChars .operator op.1], afterOperator p op.1, op.2⟩
  else
    let w := word (c :: cs)
    ⟨(classify p w.1).1, (classify p w.1).2, w.2⟩

theorem operator_append (c : Char) (cs : List Char) :
    (operator c cs).1 ++ (operator c cs).2 = c :: cs := by
  unfold operator
  split
  · rfl
  · split <;> rfl

theorem wordText_append_rest (s : List Char) : wordText (word s).1 ++ (word s).2 = s := by
  fun_induction word s with
  | case1 => rfl
  | case2 => rfl
  | case3 c cs _ _ ih =>
    have := quoted_append c cs
    simp_all [wordText, Segment.text]
  | case4 cs =>
    have := parameter_append cs
    simp_all [wordText, Segment.text]
  | case5 c cs =>
    have := run_append (c :: cs)
    simp_all [wordText, Segment.text]

theorem word_length {c : Char} {cs : List Char} (h : (isSpace c || isOperator c) = false) :
    (word (c :: cs)).2.length ≤ cs.length := by
  have e := congrArg List.length (wordText_append_rest (c :: cs))
  have : 1 ≤ (wordText (word (c :: cs)).1).length := by
    unfold word
    rw [if_neg (by simp [h])]
    split
    · simp [wordText, Segment.text]
    · split
      · simp [wordText, Segment.text]
      · have : 1 ≤ (run (c :: cs)).1.length := one_le_length_run (by simp_all [endsRun])
        simp only [having_fst, wordText, List.map_cons, List.flatten_cons, Segment.text,
          List.length_append]
        omega
  simp only [List.length_append, List.length_cons] at e
  omega

theorem one_le_length_operator (c : Char) (cs : List Char) : 1 ≤ (operator c cs).1.length := by
  cases cs with
  | nil => simp [operator]
  | cons d ds => simp only [operator]; split <;> simp

theorem dropWhile_length {p : Char → Bool} {c : Char} {cs : List Char} (h : p c = true) :
    ((c :: cs).dropWhile p).length ≤ cs.length := by
  rw [List.dropWhile_cons_of_pos h]
  have e := congrArg List.length (List.takeWhile_append_dropWhile (p := p) (l := cs))
  simp only [List.length_append] at e
  omega

theorem next_length (p : Position) (c : Char) (cs : List Char) :
    (next p c cs).rest.length ≤ cs.length := by
  unfold next
  split
  · next h => exact dropWhile_length h
  · split
    · next h =>
      show ((c :: cs).dropWhile (· ≠ '\n')).length ≤ cs.length
      exact dropWhile_length (by simp [h])
    · split
      · have e := congrArg List.length (operator_append c cs)
        have := one_le_length_operator c cs
        simp only [List.length_append, List.length_cons] at e
        show (operator c cs).2.length ≤ cs.length
        omega
      · exact word_length (by simp_all)

/-- The tokens of a text that starts in position `p`. -/
def scan (p : Position) : List Char → List Token
  | [] => []
  | c :: cs => (next p c cs).tokens ++ scan (next p c cs).position (next p c cs).rest
termination_by s => s.length
decreasing_by have := next_length p c cs; simp only [List.length_cons]; omega

/-- The shell lexer refuses NUL characters and nothing else. -/
def lexer : Lexer := .rejectingNul "shell" fun s => .ok (scan .start s)

end StepLog.Shell
