/-
The order of paths by their components. A directory's entries stay together:
`a/b` comes before `a-b`.
-/
import ApiCoverage.Path.Basic

namespace ApiCoverage.Path

/-- The order of components: the root, then `.`, then `..`, then names by code
points. -/
def Component.compare : Component → Component → Ordering
  | root, root => .eq
  | root, _ => .lt
  | here, root => .gt
  | here, here => .eq
  | here, _ => .lt
  | up, root => .gt
  | up, here => .gt
  | up, up => .eq
  | up, name _ => .lt
  | name a, name b => compareOfLessAndEq a b
  | name _, _ => .gt

/-- The order of lists of components, the shorter of two first where one starts
the other. -/
def compareComponents : List Component → List Component → Ordering
  | [], [] => .eq
  | [], _ :: _ => .lt
  | _ :: _, [] => .gt
  | a :: p, b :: q => (a.compare b).then (compareComponents p q)

/-- The order of paths. -/
def compare (p q : Path) : Ordering := compareComponents p.components q.components

end ApiCoverage.Path
