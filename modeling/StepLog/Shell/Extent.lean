/-
  How far the parts of a shell word reach.

  Each function takes the text from a part on and returns the part and the rest.
  Put together again the two are the text (`*_append`), so a part of at least one
  character leaves a shorter rest (`*_length`).
-/

namespace StepLog.Shell

def isSpace (c : Char) : Bool := c = ' ' || c = '\t' || c = '\r' || c = '\n'

def isOperator (c : Char) : Bool := "|&;()<>".toList.contains c

def isQuote (c : Char) : Bool := c = '\'' || c = '"'

/-- A character that ends an unquoted run. -/
def endsRun (c : Char) : Bool := isSpace c || isOperator c || isQuote c || c = '$'

def isNameStart (c : Char) : Bool := c.isAlpha || c = '_'

def isNameChar (c : Char) : Bool := c.isAlphanum || c = '_'

/-- The one-character parameters of the shell, digits apart. -/
def isSpecialParameter (c : Char) : Bool := "@*#?$!-".toList.contains c

/-- One more item at the front of what has been read. -/
def having {α β : Type} (x : α) (p : List α × β) : List α × β := (x :: p.1, p.2)

@[simp] theorem having_fst {α β : Type} (x : α) (p : List α × β) : (having x p).1 = x :: p.1 := rfl

@[simp] theorem having_snd {α β : Type} (x : α) (p : List α × β) : (having x p).2 = p.2 := rfl

/-! ## Quoted strings -/

/-- The text after an opening quote `q` up to its closing quote, which belongs to the
part. Inside double quotes a backslash protects the next character. Without a closing
quote the part is the whole text. -/
def quoted (q : Char) : List Char → List Char × List Char
  | [] => ([], [])
  | [c] => ([c], [])
  | c :: d :: ds =>
    if c = q then ([c], d :: ds)
    else if c = '\\' ∧ q = '"' then having c (having d (quoted q ds))
    else having c (quoted q (d :: ds))

theorem quoted_append (q : Char) (s : List Char) : (quoted q s).1 ++ (quoted q s).2 = s := by
  fun_induction quoted q s <;> simp_all

/-! ## Parameters -/

/-- The text after an opening bracket up to where `depth` closers outweigh the openers. -/
def closed (opener closer : Char) (depth : Nat) : List Char → List Char × List Char
  | [] => ([], [])
  | c :: cs =>
    if c = opener then having c (closed opener closer (depth + 1) cs)
    else if c = closer then
      if depth ≤ 1 then ([c], cs)
      else having c (closed opener closer (depth - 1) cs)
    else having c (closed opener closer depth cs)

theorem closed_append (o c : Char) (depth : Nat) (s : List Char) :
    (closed o c depth s).1 ++ (closed o c depth s).2 = s := by
  induction s generalizing depth with
  | nil => rfl
  | cons x xs ih => unfold closed; split <;> (try split) <;> (try split) <;> simp [ih]

/-- The text after a `$` as far as it belongs to the parameter. -/
def parameter : List Char → List Char × List Char
  | [] => ([], [])
  | c :: cs =>
    if c = '{' then having c (closed '{' '}' 1 cs)
    else if c = '(' then having c (closed '(' ')' 1 cs)
    else if isNameStart c then ((c :: cs).takeWhile isNameChar, (c :: cs).dropWhile isNameChar)
    else if c.isDigit || isSpecialParameter c then ([c], cs)
    else ([], c :: cs)

theorem parameter_append (s : List Char) : (parameter s).1 ++ (parameter s).2 = s := by
  unfold parameter
  split
  · rfl
  · split
    · simp [closed_append]
    · split
      · simp [closed_append]
      · split
        · simp only [List.takeWhile_append_dropWhile]
        · split <;> rfl

/-! ## Unquoted runs -/

/-- The unquoted run at the front: up to a space, an operator, a quote or a `$` that no
backslash protects. A backslash protects any character. -/
def run : List Char → List Char × List Char
  | [] => ([], [])
  | [c] => if endsRun c then ([], [c]) else ([c], [])
  | c :: d :: ds =>
    if endsRun c then ([], c :: d :: ds)
    else if c = '\\' then having c (having d (run ds))
    else having c (run (d :: ds))

theorem run_append (s : List Char) : (run s).1 ++ (run s).2 = s := by
  fun_induction run s <;> simp_all

theorem one_le_length_run {c : Char} {cs : List Char} (h : endsRun c = false) :
    1 ≤ (run (c :: cs)).1.length := by
  cases cs with
  | nil => simp [run, h]
  | cons d ds => unfold run; rw [if_neg (by simp [h])]; split <;> simp

theorem run_length {c : Char} {cs : List Char} (h : endsRun c = false) :
    (run (c :: cs)).2.length ≤ cs.length := by
  have e := congrArg List.length (run_append (c :: cs))
  have : 1 ≤ (run (c :: cs)).1.length := one_le_length_run h
  simp only [List.length_append, List.length_cons] at e
  omega

theorem quoted_length (q : Char) (s : List Char) : (quoted q s).2.length ≤ s.length := by
  have e := congrArg List.length (quoted_append q s)
  simp only [List.length_append] at e
  omega

theorem parameter_length (s : List Char) : (parameter s).2.length ≤ s.length := by
  have e := congrArg List.length (parameter_append s)
  simp only [List.length_append] at e
  omega

end StepLog.Shell
