/-
The command line. The part of the file system that a run can ask about is
copied into a `Disk`: the source and configuration files of the analyzed
folders, and the modules that their entry files lead to. All else is decided
by `Command.run`.
-/
import ApiCoverage.Command.Run

namespace ApiCoverage.Main

/-- The folder the program runs in, and the copy made so far. A real path is an
entry of that folder, or absolute. -/
structure Copy where
  here : IO.FS.DirEntry
  disk : Disk

/-- The real place of a path. -/
def Copy.place (copy : Copy) (p : Path) : IO.FS.DirEntry :=
  { copy.here with fileName := String.ofList p.spelling }

/-- The place of a path in the copy. -/
def Copy.location (copy : Copy) (p : Path) : Location :=
  let root : Path := ⟨'/' :: Text.join "/" copy.disk.current⟩
  (root.join p).normalize.components.filterMap fun
    | .name name => some name
    | _ => none

def Copy.put (copy : Copy) (p : Path) (node : Node) : Copy :=
  { copy with disk.root := copy.disk.root.put (copy.location p) node }

def isRealFolder (entry : IO.FS.DirEntry) : IO Bool := entry.path.isDir

def isRealFile (entry : IO.FS.DirEntry) : IO Bool := do
  return (← entry.path.pathExists) && !(← entry.path.isDir)

def readContent (entry : IO.FS.DirEntry) : IO Content := do
  return .ofBytes (← IO.FS.readBinFile entry.path)

/-- A folder with what a search of it can list. -/
partial def readFolder (folder : IO.FS.DirEntry) : IO Node := do
  let mut entries := []
  for entry in ← folder.path.readDir do
    let name := entry.fileName.toList
    match (← entry.path.symlinkMetadata).type with
    | .dir =>
      let node ← if ignoredFolders.contains name then pure (.folder []) else readFolder entry
      entries := (name, node) :: entries
    | .file =>
      if (⟨name⟩ : Path).isListed || configNames.contains name then
        entries := (name, .file (← readContent entry)) :: entries
    | _ => pure ()
  return .folder entries

/-- Copies what a path leads to, with the folders it leads through. -/
def Copy.addTarget (copy : Copy) (p : Path) : IO Copy := do
  let mut copy := copy
  let mut start : Text := []
  for piece in Text.splitOn '/' p.spelling do
    start := start ++ piece ++ ['/']
    let folder : Path := ⟨start⟩
    if (copy.disk.root.get? (copy.location folder)).isNone then
      if ← isRealFolder (copy.place folder) then
        copy := copy.put folder (.folder [])
  let target := copy.place p
  if ← isRealFolder target then return copy.put p (← readFolder target)
  else if ← isRealFile target then return copy.put p (.file (← readContent target))
  else return copy

/-- The modules that a file names in import and export statements. -/
def modulesOf (text : Text) : List Text :=
  let outline := Outline.ofLines (Text.lines text)
  outline.imports.map (·.source) ++ outline.exports.filterMap fun
    | (_, .star source) => some source
    | (_, .reExport _ _ source) => some source
    | _ => none

/-- Copies files and the modules they lead to. -/
partial def Copy.addModules (copy : Copy) (seen : List FileKey) : List Path → IO Copy
  | [] => return copy
  | file :: rest => do
    if seen.contains file.components || !(← isRealFile (copy.place file)) then
      copy.addModules seen rest
    else
      let content ← readContent (copy.place file)
      let mut found := rest
      if let .text text := content then
        for specifier in modulesOf text do
          if isRelativeSpecifier specifier then
            found := (Path.ofSpecifier file specifier).candidates ++ found
      (copy.put file (.file content)).addModules (file.components :: seen) found

/-- The files where the analysis of a path starts to follow exports. -/
def Copy.entries (copy : Copy) (p : Path) : List Path :=
  if copy.disk.isFile p then [p.normalize]
  else match copy.disk.loadConfig? p with
    | some (_, config) => (config.entryPaths p).map Path.normalize
    | none => []

/-- Copies what the analysis of a path needs. -/
def copyFor (here : IO.FS.DirEntry) (p : Path) : IO Disk := do
  let current := (Text.splitOn '/' here.path.toString.toList).filter (!·.isEmpty)
  let root := (Node.folder []).put current (.folder [])
  let start : Copy := { here, disk := { root, current } }
  let mut copy ← start.addTarget p
  let members := (copy.disk.membersAt? p).getD []
  for member in members do
    copy ← copy.addTarget member
  return (← copy.addModules [] ((p :: members).flatMap copy.entries)).disk

end ApiCoverage.Main

open ApiCoverage in
def main (arguments : List String) : IO UInt32 := do
  let arguments := arguments.map String.toList
  let path : Path := match Command.readArguments arguments with
    | .ok options => options.path.getD "."
    | .error _ => "."
  let disk ← ApiCoverage.Main.copyFor { root := ← IO.currentDir, fileName := "" } path
  let output ← IO.getStdout
  let outcome := Command.run disk (← output.isTty) arguments
  output.putStr (String.ofList outcome.output)
  (← IO.getStderr).putStr (String.ofList outcome.errors)
  return outcome.exitCode.toUInt32
