/-
Writing JSON over several lines: two blanks of indentation for each level, a
blank after a colon, and nothing between the brackets of what is empty.
-/
import ApiCoverage.Json.Basic
import ApiCoverage.Json.Literal

namespace ApiCoverage.Json

/-- The string of a text. -/
def ofText (text : Text) : Json := string (Literal.encode text)

/-- The number of a count. -/
def ofNat (n : Nat) : Json := number (Text.ofNat n)

/-- An object from names and values. -/
def ofFields (fields : List (Text × Json)) : Json :=
  object (fields.map fun (name, value) => (Literal.encode name, value))

/-- A new line at a level. -/
def newLine (level : Nat) : Text := '\n' :: List.replicate (2 * level) ' '

/-- Items between brackets, each on a line of its own one level further in. -/
def enclose (first last : Char) (level : Nat) (items : List Text) : Text :=
  if items.isEmpty then [first, last]
  else
    first :: newLine (level + 1) ++ Text.join (',' :: newLine (level + 1)) items ++
      newLine level ++ [last]

/-- A literal between quotation marks. -/
def quote (literal : Text) : Text := '\x22' :: literal ++ ['\x22']

mutual

/-- A value whose first line stands at a level. -/
def render (level : Nat) : Json → Text
  | null => "null"
  | bool true => "true"
  | bool false => "false"
  | number literal => literal
  | string literal => quote literal
  | array elements => enclose '[' ']' level (renderElements (level + 1) elements)
  | object members => enclose '{' '}' level (renderMembers (level + 1) members)

def renderElements (level : Nat) : List Json → List Text
  | [] => []
  | element :: rest => render level element :: renderElements level rest

def renderMembers (level : Nat) : List (Text × Json) → List Text
  | [] => []
  | (name, value) :: rest =>
    (quote name ++ ": " ++ render level value) :: renderMembers level rest

end

/-- The document of a value. -/
def print (value : Json) : Text := render 0 value

end ApiCoverage.Json
