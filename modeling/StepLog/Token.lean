/-
  Tokens and lexers.

  A lexer cuts a text into tokens. Printers paint the tokens one by one, so a lexer
  that loses or repeats a character changes what is printed. A lexer may refuse a
  text; it then says why, and the text is printed without colors.
-/
import StepLog.Text.Utf8

namespace StepLog

/-- What a piece of text is. The second line serves shell text, the third key/value text. -/
inductive TokenKind
  | whitespace | comment
  | command | keyword | argument | string | var | operator
  | key | delimiter | scalar | literal
deriving DecidableEq

structure Token where
  kind : TokenKind
  text : String
deriving DecidableEq

namespace Token

def ofChars (kind : TokenKind) (s : List Char) : Token := ⟨kind, String.ofList s⟩

/-- The token of `s`, or none if `s` is empty. -/
def of? (kind : TokenKind) (s : List Char) : List Token :=
  if s.isEmpty then [] else [ofChars kind s]

end Token

/-- Why a lexer refuses a text. -/
inductive LexReason
  /-- A NUL character; its distance from the start in bytes. -/
  | nul (offset : Nat)
  /-- A tab where indentation ends; the line's number, from one. -/
  | tabIndent (line : Nat)
  | other (text : String)
deriving DecidableEq

structure LexFault where
  lexer : String
  reason : LexReason
deriving DecidableEq

def LexReason.message : LexReason → String
  | .nul offset => "unexpected NUL byte at offset " ++ toString offset
  | .tabIndent line => "tab character in indentation on line " ++ toString line
  | .other text => text

def LexFault.message (f : LexFault) : String :=
  f.lexer ++ " lexer failed: " ++ f.reason.message

structure Lexer where
  tokenize : String → Except LexFault (List Token)

/-- The text before the first NUL character, if there is one. -/
def beforeNul? : List Char → Option (List Char)
  | [] => none
  | c :: cs => if c = '\x00' then some [] else (beforeNul? cs).map (c :: ·)

/-- Passes a text without NUL characters on to `f`; refuses any other in the name of `lexer`. -/
def Lexer.rejectingNul (lexer : String) (f : List Char → Except LexFault (List Token)) : Lexer where
  tokenize s :=
    match beforeNul? s.toList with
    | some front => .error ⟨lexer, .nul (Text.byteLength front)⟩
    | none => f s.toList

end StepLog
