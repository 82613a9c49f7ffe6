/-
JSON as a tree of its literals. Strings and numbers keep the spelling they
have in the document, so that a document can be read without deciding what its
values mean; `Literal` says what a string's spelling stands for.
-/
import ApiCoverage.Text.Basic

namespace ApiCoverage

/-- A JSON value. -/
inductive Json where
  | null
  | bool (value : Bool)
  /-- A number as it is spelled. -/
  | number (literal : Text)
  /-- A string as it is spelled between its quotation marks. -/
  | string (literal : Text)
  | array (elements : List Json)
  /-- Members in the order of the document, with their names as spelled. -/
  | object (members : List (Text × Json))

end ApiCoverage
