/-
Blank characters (the Unicode property White_Space), trimming, and the words
of a text.
-/
import ApiCoverage.Text.Basic

namespace ApiCoverage

/-- The code points with the property White_Space. -/
def blankRanges : List (Nat × Nat) :=
  [(0x9, 0xD), (0x20, 0x20), (0x85, 0x85), (0xA0, 0xA0), (0x1680, 0x1680), (0x2000, 0x200A),
   (0x2028, 0x2029), (0x202F, 0x202F), (0x205F, 0x205F), (0x3000, 0x3000)]

/-- Membership in a list of ranges in increasing order. -/
def inRanges : List (Nat × Nat) → Nat → Bool
  | [], _ => false
  | (first, last) :: rest, n => if n < first then false else n ≤ last || inRanges rest n

/-- White space, in every script. -/
def isBlank (c : Char) : Bool := inRanges blankRanges c.toNat

namespace Text

def trimStart (text : Text) : Text := text.dropWhile isBlank

def trimEnd (text : Text) : Text := (text.reverse.dropWhile isBlank).reverse

def trim (text : Text) : Text := text.trimStart.trimEnd

/-- The maximal pieces without a blank. -/
def words (text : Text) : List Text := (text.pieces isBlank).filter (!·.isEmpty)

end Text
end ApiCoverage
