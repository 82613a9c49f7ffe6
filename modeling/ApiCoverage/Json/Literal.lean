/-
The spelling of JSON strings and numbers.

In a string, a quotation mark, a backslash and the control characters below
U+0020 are written as escapes. Reading takes every escape of the format; a
hexadecimal escape for half of a surrogate pair stands for a character only
together with its other half.
-/
import ApiCoverage.Text.Basic

namespace ApiCoverage.Json.Literal

/-- The digit for a number below sixteen. -/
def hexDigit (n : Nat) : Char := Nat.digitChar n

/-- The value of a hexadecimal digit. -/
def hexValue? (c : Char) : Option Nat :=
  if c.isDigit then some (c.toNat - 0x30)
  else if 'a' ≤ c && c ≤ 'f' then some (c.toNat - 0x61 + 10)
  else if 'A' ≤ c && c ≤ 'F' then some (c.toNat - 0x41 + 10)
  else none

/-- The code unit of four hexadecimal digits. -/
def unit? (a b c d : Char) : Option Nat := do
  return (((← hexValue? a) * 16 + (← hexValue? b)) * 16 + (← hexValue? c)) * 16 + (← hexValue? d)

/-- What the escapes of one letter stand for. -/
def escaped? (letter : Char) : Option Char :=
  match letter with
  | '\x22' => some '\x22'
  | '\\' => some '\\'
  | '/' => some '/'
  | 'b' => some '\x08'
  | 'f' => some '\x0c'
  | 'n' => some '\n'
  | 'r' => some '\r'
  | 't' => some '\t'
  | _ => none

/-- Every backslash starts an escape of the format, and no control character
stands in the literal. -/
def isWellFormed : Text → Bool
  | [] => true
  | '\\' :: 'u' :: a :: b :: c :: d :: rest => (unit? a b c d).isSome && isWellFormed rest
  | '\\' :: letter :: rest => (escaped? letter).isSome && isWellFormed rest
  | c :: rest => c != '\\' && 0x20 ≤ c.toNat && isWellFormed rest

def isHighSurrogate (n : Nat) : Bool := 0xD800 ≤ n && n ≤ 0xDBFF

def isLowSurrogate (n : Nat) : Bool := 0xDC00 ≤ n && n ≤ 0xDFFF

/-- The character of a surrogate pair. -/
def pairChar (high low : Nat) : Char :=
  Char.ofNat ((high - 0xD800) * 0x400 + (low - 0xDC00) + 0x10000)

/-- The text that a literal stands for. A half of a surrogate pair without its
other half stands for none. -/
def decode? : Text → Option Text
  | [] => some []
  | '\\' :: 'u' :: a :: b :: c :: d :: rest => do
    let unit ← unit? a b c d
    if isLowSurrogate unit then none
    else if isHighSurrogate unit then
      match rest with
      | '\\' :: 'u' :: a :: b :: c :: d :: rest =>
        let low ← unit? a b c d
        if isLowSurrogate low then return pairChar unit low :: (← decode? rest) else none
      | _ => none
    else return Char.ofNat unit :: (← decode? rest)
  | '\\' :: letter :: rest => do return (← escaped? letter) :: (← decode? rest)
  | c :: rest =>
    if c == '\\' || c.toNat < 0x20 then none else (decode? rest).map (c :: ·)

/-- How a character is written in a string. -/
def encodeChar (c : Char) : Text :=
  match c with
  | '\x22' => ['\\', '\x22']
  | '\\' => ['\\', '\\']
  | '\x08' => ['\\', 'b']
  | '\x0c' => ['\\', 'f']
  | '\n' => ['\\', 'n']
  | '\r' => ['\\', 'r']
  | '\t' => ['\\', 't']
  | _ =>
    if c.toNat < 0x20 then
      ['\\', 'u', '0', '0', hexDigit (c.toNat / 16), hexDigit (c.toNat % 16)]
    else [c]

/-- The literal of a text. -/
def encode (text : Text) : Text := text.flatMap encodeChar

/-- One or more digits, and what follows them. -/
def digits? (text : Text) : Option Text :=
  match text with
  | c :: rest => if c.isDigit then some (rest.dropWhile Char.isDigit) else none
  | [] => none

/-- An exponent, if one comes next, to the end of the text. -/
def isExponent : Text → Bool
  | [] => true
  | c :: rest =>
    (c == 'e' || c == 'E') &&
      digits? (match rest with
        | '+' :: rest => rest
        | '-' :: rest => rest
        | rest => rest) == some []

/-- Decimal places, if they come next, and an exponent. -/
def isFraction : Text → Bool
  | '.' :: rest =>
    match digits? rest with
    | some rest => isExponent rest
    | none => false
  | text => isExponent text

/-- A number without a sign: no superfluous zero, then places and exponent. -/
def isUnsigned : Text → Bool
  | '0' :: rest => isFraction rest
  | text =>
    match digits? text with
    | some rest => isFraction rest
    | none => false

/-- The text spells a number. -/
def isNumber : Text → Bool
  | '-' :: rest => isUnsigned rest
  | text => isUnsigned text

end ApiCoverage.Json.Literal
