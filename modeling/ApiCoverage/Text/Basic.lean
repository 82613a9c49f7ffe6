/-
Text as a list of characters, with the cutting and joining that the rest of
the library is built on: splitting at a class of characters, dropping a word
at the start, searching for a word, and the lines of a file.
-/
namespace ApiCoverage

/-- Source text, names and reports are lists of characters; `String` occurs
only where text enters or leaves the program. -/
abbrev Text := List Char

instance : Coe String Text := ⟨String.toList⟩

namespace Text

/-- The pieces between the characters of a class. There is always at least
one piece, and neighbouring separators have an empty piece between them. -/
def pieces (isSeparator : Char → Bool) : Text → List Text
  | [] => [[]]
  | c :: rest =>
    if isSeparator c then [] :: pieces isSeparator rest
    else match pieces isSeparator rest with
      | [] => [[c]]
      | piece :: others => (c :: piece) :: others

/-- The pieces between the occurrences of one character. -/
def splitOn (separator : Char) (text : Text) : List Text :=
  text.pieces (· == separator)

/-- The pieces with a separator between neighbours. -/
def join (separator : Text) : List Text → Text
  | [] => []
  | [piece] => piece
  | piece :: others => piece ++ separator ++ join separator others

/-- What follows `word` at the start of the text. -/
def after? : (word text : Text) → Option Text
  | [], text => some text
  | _ :: _, [] => none
  | w :: word, c :: text => if w == c then after? word text else none

/-- What stands before `rest` in a text that ends with it. -/
def upTo (rest text : Text) : Text := text.take (text.length - rest.length)

theorem upTo_append (taken rest : Text) : upTo rest (taken ++ rest) = taken := by
  rw [upTo, List.length_append, Nat.add_sub_cancel, List.take_left]

/-- The text starts with `word`. -/
def startsWith (word text : Text) : Bool := (after? word text).isSome

/-- The text before and after the first occurrence of `word`. -/
def cutAt? (word : Text) : Text → Option (Text × Text)
  | [] => (after? word []).map ([], ·)
  | c :: rest =>
    match after? word (c :: rest) with
    | some tail => some ([], tail)
    | none => (cutAt? word rest).map fun (before, tail) => (c :: before, tail)

/-- `word` occurs somewhere in the text. -/
def hasWord (word text : Text) : Bool := (cutAt? word text).isSome

/-- A line that a line feed ends loses one carriage return before it. -/
def dropReturn (line : Text) : Text :=
  if line.getLast? = some '\r' then line.dropLast else line

/-- The lines of a file from the pieces between its line feeds. -/
def linesOfPieces : List Text → List Text
  | [] => []
  | [last] => if last.isEmpty then [] else [last]
  | piece :: others => dropReturn piece :: linesOfPieces others

/-- The lines of a file. A final line feed adds no line, and a carriage return
goes with the line feed it stands before. -/
def lines (text : Text) : List Text := linesOfPieces (text.splitOn '\n')

/-- A number in decimal digits. -/
def ofNat (n : Nat) : Text := Nat.toDigits 10 n

/-- The text with blanks after it up to a width. -/
def padRight (width : Nat) (text : Text) : Text :=
  text ++ List.replicate (width - text.length) ' '

/-- `before` comes no later than `other` in the order of code points. -/
def le (before other : Text) : Bool := !decide (other < before)

end Text
end ApiCoverage
