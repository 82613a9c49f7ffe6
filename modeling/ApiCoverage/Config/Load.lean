/-
Finding and reading the configuration of a folder.
-/
import ApiCoverage.Config.Basic
import ApiCoverage.Disk.Basic

namespace ApiCoverage

/-- Why a configuration file cannot be used. -/
inductive ConfigError where
  | unreadable (error : ReadError)
  | malformed
  deriving DecidableEq, Repr

def ConfigError.message : ConfigError → Text
  | unreadable error => "Failed to read file: " ++ error.message
  | malformed => "Failed to parse JSON"

/-- The names of configuration files, the first that exists counts. -/
def configNames : List Text := ["deno.json", "deno.jsonc"]

namespace Disk

/-- The configuration file of a folder. -/
def configPath? (disk : Disk) (folder : Path) : Option Path :=
  (configNames.map fun name => folder.join ⟨name⟩).find? disk.isFile

/-- The configuration in a file. -/
def readConfig (disk : Disk) (file : Path) : Except ConfigError Config :=
  match disk.read file with
  | .error e => .error (.unreadable e)
  | .ok text =>
    match Config.parse? text with
    | some config => .ok config
    | none => .error .malformed

/-- The configuration of a folder with the file it comes from. One that cannot
be used counts as none. -/
def loadConfig? (disk : Disk) (folder : Path) : Option (Path × Config) := do
  let file ← disk.configPath? folder
  match disk.readConfig file with
  | .ok config => some (file, config)
  | .error _ => none

/-- The member folders that the configuration of a folder lists. -/
def workspaceMembers? (disk : Disk) (folder : Path) : Option (List Path) := do
  let (_, config) ← disk.loadConfig? folder
  if config.isWorkspace then some (config.memberPaths folder) else none

end Disk
end ApiCoverage
