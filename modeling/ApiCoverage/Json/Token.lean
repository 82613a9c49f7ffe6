/-
The tokens of a JSON document.

The text is read character by character. Between tokens there may be blanks
(space, tab, line feed and carriage return only); a run of other characters is
a word, which has to be a number or one of the three constants.
-/
import ApiCoverage.Json.Literal

namespace ApiCoverage.Json

inductive Token where
  | openArray
  | closeArray
  | openObject
  | closeObject
  | comma
  | colon
  | null
  | bool (value : Bool)
  | number (literal : Text)
  | string (literal : Text)
  deriving DecidableEq, Repr

namespace Token

/-- Blanks of the format. -/
def isSpace (c : Char) : Bool := c == ' ' || c == '\t' || c == '\n' || c == '\r'

/-- Tokens of one character. -/
def punctuation? (c : Char) : Option Token :=
  match c with
  | '[' => some openArray
  | ']' => some closeArray
  | '{' => some openObject
  | '}' => some closeObject
  | ',' => some comma
  | ':' => some colon
  | _ => none

/-- The token that a word is. -/
def ofWord? (word : Text) : Option Token :=
  if word == "null" then some null
  else if word == "true" then some (bool true)
  else if word == "false" then some (bool false)
  else if Literal.isNumber word then some (number word)
  else none

/-- The token of a string literal. -/
def ofString? (literal : Text) : Option Token :=
  if Literal.isWellFormed literal then some (string literal) else none

/-- Where in a document the reader stands. The characters read of a word or
string are held last first. -/
inductive Place where
  | between
  | word (read : Text)
  | string (read : Text)
  /-- In a string, after a backslash. -/
  | escape (read : Text)
  deriving DecidableEq, Repr

/-- The tokens read so far, last first, and the place reached. -/
structure Progress where
  done : List Token
  place : Place
  deriving DecidableEq, Repr

namespace Progress

def start : Progress := ⟨[], .between⟩

/-- A character that ends the word before it. -/
def endsWord (c : Char) : Bool := isSpace c || (punctuation? c).isSome || c == '\x22'

/-- A character outside words and strings. -/
def advance (done : List Token) (c : Char) : Progress :=
  if isSpace c then ⟨done, .between⟩
  else match punctuation? c with
    | some token => ⟨token :: done, .between⟩
    | none => if c == '\x22' then ⟨done, .string []⟩ else ⟨done, .word [c]⟩

/-- One more character. -/
def step? (progress : Progress) (c : Char) : Option Progress :=
  match progress.place with
  | .between => some (advance progress.done c)
  | .word read =>
    if endsWord c then (ofWord? read.reverse).map fun token => advance (token :: progress.done) c
    else some ⟨progress.done, .word (c :: read)⟩
  | .string read =>
    if c == '\x22' then
      (ofString? read.reverse).map fun token => ⟨token :: progress.done, .between⟩
    else if c == '\\' then some ⟨progress.done, .escape (c :: read)⟩
    else some ⟨progress.done, .string (c :: read)⟩
  | .escape read => some ⟨progress.done, .string (c :: read)⟩

/-- The tokens at the end of a document. -/
def finish? (progress : Progress) : Option (List Token) :=
  match progress.place with
  | .between => some progress.done.reverse
  | .word read => (ofWord? read.reverse).map fun token => (token :: progress.done).reverse
  | _ => none

end Progress
end Token

/-- The tokens of a document. -/
def tokens? (text : Text) : Option (List Token) :=
  (text.foldlM Token.Progress.step? .start).bind Token.Progress.finish?

end ApiCoverage.Json
