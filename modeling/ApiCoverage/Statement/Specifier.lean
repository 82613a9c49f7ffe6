/-
The entries of a braced list, `name` or `name as alias`.
-/
import ApiCoverage.Text.Blank

namespace ApiCoverage

/-- One entry of an export or import list. -/
structure Specifier where
  /-- The name in the module that declares or imports it. -/
  declared : Text
  /-- The name given to it. -/
  exported : Text
  deriving DecidableEq, Repr

namespace Specifier

/-- One entry, with a leading `type` dropped; `none` for an empty one. -/
def parse? (entry : Text) : Option Specifier :=
  let entry := Text.join " " (Text.words entry)
  let entry := Text.trim ((Text.after? "type " entry).getD entry)
  if entry.isEmpty then none
  else match Text.cutAt? " as " entry with
    | some (declared, exported) => some ⟨Text.trim declared, Text.trim exported⟩
    | none => some ⟨entry, entry⟩

/-- The entries between the braces of a list. -/
def parseList (list : Text) : List Specifier :=
  (Text.splitOn ',' list).filterMap parse?

end Specifier
end ApiCoverage
