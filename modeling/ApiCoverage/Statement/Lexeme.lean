/-
The small pieces that export, import and declaration statements are made of:
runs of blanks, words that need a blank after them, names, and the module a
`from` clause names. Each reader takes the text ahead and returns what follows
the piece, or `none` where the piece does not come next.
-/
import ApiCoverage.Text.Word

namespace ApiCoverage.Lexeme

/-- One or more blanks, all of them. -/
def blanks? : Text → Option Text
  | [] => none
  | c :: rest => if isBlank c then some (Text.trimStart rest) else none

/-- What follows each non-empty run of blanks at the start, the longest run
first. A reader whose next piece may itself start with a blank tries them in
this order. -/
def blankCuts : Text → List Text
  | [] => []
  | c :: rest => if isBlank c then blankCuts rest ++ [rest] else []

/-- A word with one or more blanks after it. -/
def word? (word text : Text) : Option Text := (Text.after? word text).bind blanks?

/-- Words with blanks after each of them. -/
def phrase? : List Text → Text → Option Text
  | [], text => some text
  | word :: words, text => (word? word text).bind (phrase? words)

/-- A word and its blanks if they come next; says whether they did. -/
def optional (word text : Text) : Bool × Text :=
  match word? word text with
  | some rest => (true, rest)
  | none => (false, text)

/-- A name and what follows it. A name is as long as it can be. -/
def name? : Text → Option (Text × Text)
  | [] => none
  | c :: rest =>
    if isNameStart c then some (c :: rest.takeWhile isNameChar, rest.dropWhile isNameChar)
    else none

/-- Both quotation marks open and close a module, in any combination. -/
def isQuote (c : Char) : Bool := c == '\x22' || c == '\x27'

/-- The non-empty text between two quotation marks. -/
def quoted? : Text → Option Text
  | [] => none
  | c :: rest =>
    let body := rest.takeWhile (!isQuote ·)
    if isQuote c && !body.isEmpty && !(rest.dropWhile (!isQuote ·)).isEmpty then some body
    else none

/-- The module of a `from` clause. -/
def fromClause? (text : Text) : Option Text := (word? "from" text).bind quoted?

end ApiCoverage.Lexeme
