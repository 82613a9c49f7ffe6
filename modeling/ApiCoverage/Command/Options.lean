/-
The arguments of the command line.

Arguments are read from left to right, and the first that is wrong, or that
asks for the version, decides. An option takes its value from the same
argument, after `=` or right after its letter, or from the next one, which
must not look like an option. Letters without a value may share an argument.
After `--` every argument is a path.
-/
import ApiCoverage.Path.Basic
import ApiCoverage.Report.Format

namespace ApiCoverage.Command

/-- The switches, which have no value. -/
inductive Switch where
  | verbose
  | undocumentedOnly
  | noColor
  deriving DecidableEq, Repr

/-- The options that have a value. -/
inductive Setting where
  | format
  | threshold
  deriving DecidableEq, Repr

/-- What an option name stands for. -/
inductive OptionName where
  | switch (switch : Switch)
  | setting (setting : Setting)
  | help
  | version
  deriving DecidableEq, Repr

def OptionName.ofLetter? : Char → Option OptionName
  | 'f' => some (.setting .format)
  | 't' => some (.setting .threshold)
  | 'v' => some (.switch .verbose)
  | 'u' => some (.switch .undocumentedOnly)
  | 'h' => some .help
  | 'V' => some .version
  | _ => none

def OptionName.ofWord? (word : Text) : Option OptionName :=
  if word == "format" then some (.setting .format)
  else if word == "threshold" then some (.setting .threshold)
  else if word == "verbose" then some (.switch .verbose)
  else if word == "undocumented-only" then some (.switch .undocumentedOnly)
  else if word == "no-color" then some (.switch .noColor)
  else if word == "help" then some .help
  else if word == "version" then some .version
  else none

/-- What the arguments read so far say. Nothing may be said twice. -/
structure Options where
  path : Option Path := none
  format : Option Report.Format := none
  threshold : Option Nat := none
  switches : List Switch := []
  deriving DecidableEq, Repr

/-- What is read instead of options. -/
inductive Stop where
  | usage
  | help
  | version
  deriving DecidableEq, Repr

/-- A percentage from 0 to 100 in decimal digits, with or without a sign. -/
def percentage? (text : Text) : Option Nat :=
  let (negative, digits) := match text with
    | '-' :: rest => (true, rest)
    | '+' :: rest => (false, rest)
    | rest => (false, rest)
  if digits.isEmpty || !digits.all Char.isDigit then none
  else
    let n := digits.foldl (fun n c => 10 * n + (c.toNat - 0x30)) 0
    if n ≤ 100 && (!negative || n == 0) then some n else none

namespace Options

def setSwitch (options : Options) (switch : Switch) : Except Stop Options :=
  if options.switches.contains switch then .error .usage
  else .ok { options with switches := switch :: options.switches }

def setSetting (options : Options) (value : Text) : Setting → Except Stop Options
  | .format =>
    match options.format, Report.Format.ofName value with
    | none, .ok format => .ok { options with format := some format }
    | _, _ => .error .usage
  | .threshold =>
    match options.threshold, percentage? value with
    | none, some n => .ok { options with threshold := some n }
    | _, _ => .error .usage

def setPath (options : Options) (value : Text) : Except Stop Options :=
  match options.path with
  | none => if value.isEmpty then .error .usage else .ok { options with path := some ⟨value⟩ }
  | some _ => .error .usage

end Options

/-- Options, and a setting that the next argument has to be the value of. -/
structure Reading where
  options : Options
  pending : Option Setting := none
  pathsOnly : Bool := false

/-- The letters of one argument. -/
def readLetters (options : Options) : Text → Except Stop Reading
  | [] => .ok { options }
  | letter :: rest =>
    match OptionName.ofLetter? letter with
    | none => .error .usage
    | some .help => .error .help
    | some .version => .error .version
    | some (.switch switch) =>
      match options.setSwitch switch with
      | .error stop => .error stop
      | .ok options => readLetters options rest
    | some (.setting setting) =>
      match rest with
      | [] => .ok { options, pending := some setting }
      | '=' :: value => (options.setSetting value setting).map fun options => { options }
      | value => (options.setSetting value setting).map fun options => { options }

/-- An option written as a word, with its value if it has one after `=`. -/
def readWord (options : Options) (word : Text) (value : Option Text) : Except Stop Reading :=
  match OptionName.ofWord? word, value with
  | none, _ => .error .usage
  | some (.setting setting), none => .ok { options, pending := some setting }
  | some (.setting setting), some value =>
    (options.setSetting value setting).map fun options => { options }
  | some _, some _ => .error .usage
  | some .help, none => .error .help
  | some .version, none => .error .version
  | some (.switch switch), none => (options.setSwitch switch).map fun options => { options }

/-- The name before the first `=` and the value after it. -/
def splitValue (text : Text) : Text × Option Text :=
  match text.dropWhile (· != '=') with
  | [] => (text, none)
  | _ :: value => (text.takeWhile (· != '='), some value)

/-- An argument that looks like an option; a single dash does not. -/
def looksLikeOption : Text → Bool
  | '-' :: _ :: _ => true
  | _ => false

/-- One argument. -/
def readArgument (reading : Reading) (argument : Text) : Except Stop Reading :=
  match reading.pending with
  | some setting =>
    if looksLikeOption argument then .error .usage
    else (reading.options.setSetting argument setting).map fun options => { options }
  | none =>
    if reading.pathsOnly || !looksLikeOption argument then
      (reading.options.setPath argument).map fun options => { reading with options }
    else match argument with
      | ['-', '-'] => .ok { reading with pathsOnly := true }
      | '-' :: '-' :: long =>
        let (word, value) := splitValue long
        readWord reading.options word value
      | _ => readLetters reading.options (argument.drop 1)

/-- The options that the arguments give. -/
def readArguments (arguments : List Text) : Except Stop Options := do
  let reading ← arguments.foldlM readArgument { options := {} }
  if reading.pending.isSome then .error .usage else .ok reading.options

end ApiCoverage.Command
