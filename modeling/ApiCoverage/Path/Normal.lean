/-
The normal form of a path: no `.`, and `..` only at the start of a relative
path.
-/
import ApiCoverage.Path.Basic

namespace ApiCoverage.Path

/-- Adds a component to the components read so far, the last of which comes
first. A `..` takes back a name, is dropped at the root, and stays otherwise. -/
def pushComponent : List Component → Component → List Component
  | stack, .here => stack
  | .name _ :: stack, .up => stack
  | .root :: stack, .up => .root :: stack
  | stack, component => component :: stack

/-- The components of the normal form. -/
def normalComponents (components : List Component) : List Component :=
  (components.foldl pushComponent []).reverse

/-- The spelling of a component between separators. -/
def Component.piece : Component → Text
  | .root => []
  | .here => "."
  | .up => ".."
  | .name text => text

/-- The plain spelling of a list of components. -/
def ofComponents : List Component → Path
  | .root :: rest => ⟨'/' :: Text.join "/" (rest.map Component.piece)⟩
  | components => ⟨Text.join "/" (components.map Component.piece)⟩

/-- The normal form of a path, found without looking at any file. -/
def normalize (p : Path) : Path := ofComponents (normalComponents p.components)

end ApiCoverage.Path
