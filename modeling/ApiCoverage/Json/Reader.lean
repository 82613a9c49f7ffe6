/-
Reading a JSON document from its tokens. The arrays and objects that are still
open form a stack, so documents may nest to any depth.
-/
import ApiCoverage.Json.Basic
import ApiCoverage.Json.Token

namespace ApiCoverage.Json

/-- An array or object that is still open and waits for a value. What it holds
so far is listed last first. -/
inductive Frame where
  | array (done : List Json)
  | object (done : List (Text × Json)) (name : Text)

/-- What is due next. -/
inductive Due where
  | value (stack : List Frame)
  /-- The first element of an array, or its end. -/
  | element (stack : List Frame)
  /-- The first member of an object, or its end. -/
  | member (stack : List Frame)
  | name (done : List (Text × Json)) (stack : List Frame)
  | colon (done : List (Text × Json)) (name : Text) (stack : List Frame)
  /-- A comma, or the end of what is open; a value has just been read. -/
  | separator (value : Json) (stack : List Frame)

namespace Due

/-- The first token of a value. -/
def startValue? (stack : List Frame) : Token → Option Due
  | .null => some (separator .null stack)
  | .bool flag => some (separator (.bool flag) stack)
  | .number literal => some (separator (.number literal) stack)
  | .string literal => some (separator (.string literal) stack)
  | .openArray => some (element stack)
  | .openObject => some (member stack)
  | _ => none

/-- One more token. -/
def step? : Due → Token → Option Due
  | value stack, token => startValue? stack token
  | element stack, .closeArray => some (separator (.array []) stack)
  | element stack, token => startValue? (.array [] :: stack) token
  | member stack, .closeObject => some (separator (.object []) stack)
  | member stack, .string literal => some (colon [] literal stack)
  | name done stack, .string literal => some (colon done literal stack)
  | colon done literal stack, .colon => some (value (.object done literal :: stack))
  | separator v (.array done :: stack), .comma => some (value (.array (v :: done) :: stack))
  | separator v (.array done :: stack), .closeArray =>
    some (separator (.array (v :: done).reverse) stack)
  | separator v (.object done literal :: stack), .comma => some (name ((literal, v) :: done) stack)
  | separator v (.object done literal :: stack), .closeObject =>
    some (separator (.object ((literal, v) :: done).reverse) stack)
  | _, _ => none

/-- The value of a document that ends here. -/
def finish? : Due → Option Json
  | separator v [] => some v
  | _ => none

end Due

/-- The value that tokens spell. -/
def ofTokens? (tokens : List Token) : Option Json :=
  (tokens.foldlM Due.step? (.value [])).bind Due.finish?

/-- The value of a document. -/
def parse? (text : Text) : Option Json := (tokens? text).bind ofTokens?

/-- The text of a string value, if it is one and its literal stands for a text. -/
def text? : Json → Option Text
  | string literal => Literal.decode? literal
  | _ => none

end ApiCoverage.Json
