/-
JSON with comments: comments are taken out, and so are commas before a closing
bracket. Line feeds stay, so that every line keeps its number.
-/
import ApiCoverage.Text.Blank

namespace ApiCoverage.Config

/-- Where in a document a character stands. -/
inductive Region where
  | code
  | string
  /-- In a string, after a backslash. -/
  | escape
  | lineComment
  /-- In a block comment, after the given character. -/
  | blockComment (before : Char)
  deriving DecidableEq, Repr

/-- The document without comments, from a region on. -/
def stripComments : Region → Text → Text
  | _, [] => []
  | .string, c :: rest =>
    c :: stripComments (if c == '\\' then .escape else if c == '\x22' then .code else .string) rest
  | .escape, c :: rest => c :: stripComments .string rest
  | .lineComment, c :: rest =>
    if c == '\n' then c :: stripComments .code rest else stripComments .lineComment rest
  | .blockComment before, c :: rest =>
    if c == '\n' then c :: stripComments (.blockComment c) rest
    else if before == '*' && c == '/' then stripComments .code rest
    else stripComments (.blockComment c) rest
  | .code, '/' :: '/' :: rest => stripComments .lineComment rest
  | .code, '/' :: '*' :: rest => stripComments (.blockComment '\x00') rest
  | .code, c :: rest => c :: stripComments (if c == '\x22' then .string else .code) rest

/-- The next character that is no blank closes an array or object. -/
def closesNext (text : Text) : Bool :=
  match Text.trimStart text with
  | c :: _ => c == '}' || c == ']'
  | [] => false

/-- The document without commas before closing brackets, from a region on. The
document has no comments. -/
def dropCommas : Region → Text → Text
  | _, [] => []
  | .string, c :: rest =>
    c :: dropCommas (if c == '\\' then .escape else if c == '\x22' then .code else .string) rest
  | .escape, c :: rest => c :: dropCommas .string rest
  | _, c :: rest =>
    if c == ',' && closesNext rest then dropCommas .code rest
    else c :: dropCommas (if c == '\x22' then .string else .code) rest

/-- The plain JSON document of one with comments and superfluous commas. -/
def plain (text : Text) : Text := dropCommas .code (stripComments .code text)

end ApiCoverage.Config
