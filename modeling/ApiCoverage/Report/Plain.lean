/-
The report for a terminal. It is laid out as pieces of text, some of which
have a style; with color the styles become escape sequences around their
pieces, without it the pieces stand as they are.
-/
import ApiCoverage.Report.Basic

namespace ApiCoverage.Report.Plain

/-- How a piece of text is shown. -/
inductive Style where
  | plain
  | bold
  | green
  | red
  | yellow
  | darkGrey
  deriving DecidableEq, Repr

/-- Text in one style. -/
structure Piece where
  style : Style
  text : Text
  deriving DecidableEq, Repr

/-- The number of a color in the palette of terminals. -/
def Style.color? : Style → Option Nat
  | plain => none
  | bold => none
  | green => some 10
  | red => some 9
  | yellow => some 11
  | darkGrey => some 8

/-- An escape sequence that sets a style. -/
def escape (parameters : Text) : Text := '\x1b' :: '[' :: parameters ++ ['m']

/-- A piece with escape sequences around it. -/
def Piece.painted (piece : Piece) : Text :=
  match piece.style, piece.style.color? with
  | .bold, _ => escape "1" ++ piece.text ++ escape "0"
  | _, some color => escape ("38;5;" ++ Text.ofNat color) ++ piece.text ++ escape "39"
  | _, none => piece.text

/-- A piece on the page. -/
def Piece.render (color : Bool) (piece : Piece) : Text :=
  if color then piece.painted else piece.text

/-- Text without a style. -/
def plain (text : Text) : Piece := ⟨.plain, text⟩

def newLine : Piece := plain "\n"

/-- A line of text without a style. -/
def plainLine (text : Text) : List Piece := [plain text, newLine]

/-- `documented/total` and the percentage. -/
def share (tally : Tally) : Text :=
  Text.ofNat tally.documented ++ "/" ++ Text.ofNat tally.total

def percent (n : Nat) : Text := Text.ofNat n ++ "%"

/-- The line of a symbol. -/
def symbolLine (report : Report) (symbol : Symbol) : List Piece :=
  [plain "  ",
   if symbol.isDocumented then ⟨.green, "✓"⟩ else ⟨.red, "✗"⟩,
   plain (" " ++ Text.padRight 9 symbol.kind.label ++ " " ++ symbol.name ++ "  "),
   ⟨.darkGrey, report.display symbol.file ++ ":" ++ Text.ofNat symbol.line⟩,
   newLine]

/-- The lines of a result. -/
def resultLines (report : Report) (options : Options) (result : Analysis) : List Piece :=
  [⟨.bold, report.display result.path⟩, plain (" (" ++ result.mode.description ++ ")"), newLine] ++
  result.entries.flatMap (fun entry => plainLine ("  entry: " ++ report.display entry)) ++
  (if (options.listed result).isEmpty then plainLine "  (no symbols to list)"
    else (options.listed result).flatMap (symbolLine report)) ++
  (if report.isWorkspace then
    plainLine ("  " ++ share result.stats.overall ++ " documented (" ++
      percent result.stats.percentage ++ ")")
    else []) ++
  [newLine]

/-- The lines of the kinds that occur. -/
def kindLines (stats : Stats) : List Piece :=
  if stats.byKind.isEmpty then []
  else
    [newLine] ++ plainLine "  By kind:" ++
    stats.byKind.flatMap fun (kind, tally) =>
      plainLine ("    " ++ Text.padRight 10 kind.label ++ " " ++ share tally ++ " (" ++
        percent tally.percentage ++ ")")

/-- The lines of the totals. -/
def summaryLines (stats : Stats) : List Piece :=
  [⟨.bold, "Summary"⟩, newLine] ++
  plainLine ("  Total exports:  " ++ Text.ofNat stats.overall.total) ++
  plainLine ("  Documented:     " ++ Text.ofNat stats.overall.documented) ++
  plainLine ("  Undocumented:   " ++ Text.ofNat stats.overall.undocumented) ++
  kindLines stats

/-- The style of the overall percentage. -/
def verdictStyle (stats : Stats) : Style :=
  if stats.isComplete then .green else if 70 ≤ stats.percentage then .yellow else .red

/-- The last line. -/
def verdictLine (report : Report) : List Piece :=
  [plain (report.verdict.emoji ++ " "),
   ⟨verdictStyle report.stats, percent report.stats.percentage⟩,
   plain (" " ++ report.verdict.message), newLine]

/-- The report as pieces. -/
def pieces (report : Report) (options : Options) : List Piece :=
  report.results.flatMap (resultLines report options) ++ summaryLines report.stats ++ [newLine] ++
    verdictLine report

def render (report : Report) (options : Options) : Text :=
  (pieces report options).flatMap (·.render options.color)

end ApiCoverage.Report.Plain
