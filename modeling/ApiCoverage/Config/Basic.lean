/-
The configuration of a module or workspace: the entry points it exports and
the folders of its members. Other settings are passed over, whatever they hold.
-/
import ApiCoverage.Config.Comments
import ApiCoverage.Json.Reader
import ApiCoverage.Path.Basic

namespace ApiCoverage

/-- The entry points of a module. -/
inductive EntryPoints where
  | single (path : Text)
  /-- A path for each subpath of the module, in the order of the subpaths. -/
  | map (paths : List (Text × Text))
  deriving DecidableEq, Repr

namespace EntryPoints

/-- The paths as written. -/
def paths : EntryPoints → List Text
  | single path => [path]
  | map paths => paths.map (·.2)

/-- Sets the path of a subpath, in its place in the order of subpaths. -/
def insert (subpath path : Text) : List (Text × Text) → List (Text × Text)
  | [] => [(subpath, path)]
  | (other, old) :: rest =>
    if other == subpath then (subpath, path) :: rest
    else if subpath < other then (subpath, path) :: (other, old) :: rest
    else (other, old) :: insert subpath path rest

/-- A member of an object whose name and value are texts. -/
def textMember? (member : Text × Json) : Option (Text × Text) := do
  return (← Json.Literal.decode? member.1, ← member.2.text?)

/-- The entry points that a value spells: a text, or an object of texts. Of two
members with the same name the later counts. -/
def ofJson? : Json → Option EntryPoints
  | .string literal => (Json.Literal.decode? literal).map single
  | .object members => do
    let members ← members.mapM textMember?
    return map (members.foldl (fun paths (subpath, path) => insert subpath path paths) [])
  | _ => none

end EntryPoints

/-- The settings that matter for an analysis. -/
structure Config where
  exports : Option EntryPoints
  /-- The folders of the members of a workspace. -/
  workspace : Option (List Text)
  deriving DecidableEq, Repr

namespace Config

/-- A setting that may be null. -/
def setting? {α : Type} (decode : Json → Option α) : Json → Option (Option α)
  | .null => some none
  | value => (decode value).map some

/-- The value of a setting among named members, null where it is missing. It
must not occur twice. -/
def member? (name : Text) (members : List (Text × Json)) : Option Json :=
  match members.filter (·.1 == name) with
  | [] => some .null
  | [(_, value)] => some value
  | _ => none

/-- A list of texts. -/
def texts? : Json → Option (List Text)
  | .array elements => elements.mapM Json.text?
  | _ => none

/-- The configuration of two settings. -/
def ofSettings? (exports workspace : Json) : Option Config := do
  return ⟨← setting? EntryPoints.ofJson? exports, ← setting? texts? workspace⟩

/-- The configuration that a value spells: an object with the settings among
its members, or an array of the two settings. -/
def ofJson? : Json → Option Config
  | .object members => do
    let members ← members.mapM fun (literal, value) =>
      (Json.Literal.decode? literal).map (·, value)
    ofSettings? (← member? "exports" members) (← member? "workspace" members)
  | .array [exports, workspace] => ofSettings? exports workspace
  | _ => none

/-- The configuration in a document with comments. -/
def parse? (text : Text) : Option Config := (Json.parse? (plain text)).bind ofJson?

def hasExports (config : Config) : Bool := config.exports.isSome

/-- The configuration lists members. -/
def isWorkspace (config : Config) : Bool :=
  match config.workspace with
  | some members => !members.isEmpty
  | none => false

/-- The entry points as paths from the folder of the configuration. -/
def entryPaths (config : Config) (root : Path) : List Path :=
  match config.exports with
  | some entries => entries.paths.map fun path => root.join ⟨path⟩
  | none => []

/-- The members as paths from the folder of the configuration. -/
def memberPaths (config : Config) (root : Path) : List Path :=
  (config.workspace.getD []).map fun path => root.join ⟨path⟩

end Config
end ApiCoverage
