/-
The report for other programs can be read back.

A record holds what such a program is to find in the report. It is decoded by the
names of fields, in whatever order they come, and an object in which a name occurs
twice is refused. The decoder knows nothing of how the report was written, so what
it finds there is what the report says.
-/
import ApiCoverage.Proofs.JsonPrinting
import ApiCoverage.Proofs.Statistics
import Mathlib.Data.List.Nodup

namespace ApiCoverage

/-! ## Values -/

namespace Json

def bool? : Json → Option Bool
  | bool flag => some flag
  | _ => none

/-- The count that a number spells. -/
def nat? : Json → Option Nat
  | number literal => if literal.all Char.isDigit then some (Nat.ofDigitChars 10 literal 0) else none
  | _ => none

/-- The elements of an array. -/
def items? {α : Type} (decode : Json → Option α) : Json → Option (List α)
  | array elements => elements.mapM decode
  | _ => none

/-- The fields of an object, none of which may occur twice. -/
def fields? : Json → Option (List (Text × Json))
  | object members => do
    let fields ← members.mapM fun member => (Literal.decode? member.1).map (·, member.2)
    if (fields.map (·.1)).Nodup then some fields else none
  | _ => none

/-- A field that has to be there. -/
def field? {α : Type} (fields : List (Text × Json)) (name : Text) (decode : Json → Option α) : Option α :=
  (fields.lookup name).bind decode

/-- A field that may be left out. -/
def optionalField? {α : Type} (fields : List (Text × Json)) (name : Text) (decode : Json → Option α) :
    Option (Option α) :=
  match fields.lookup name with
  | some value => (decode value).map some
  | none => some none

theorem text?_ofText (text : Text) : (ofText text).text? = some text := Literal.decode?_encode text

theorem nat?_ofNat (n : Nat) : (ofNat n).nat? = some n := by
  have hdigits : (Text.ofNat n).all Char.isDigit = true :=
    List.all_eq_true.2 fun c hm => Nat.isDigit_of_mem_toDigits (by decide) (by decide) hm
  rw [ofNat, nat?, if_pos hdigits, Text.ofNat, Nat.ofDigitChars_ten_toDigits]

theorem mapM_eq_some {α β : Type} {decode : α → Option β} {result : α → β} {xs : List α}
    (h : ∀ x ∈ xs, decode x = some (result x)) : xs.mapM decode = some (xs.map result) := by
  induction xs with
  | nil => rfl
  | cons x rest ih =>
    rw [List.mapM_cons, h x List.mem_cons_self, ih fun y hm => h y (List.mem_cons_of_mem _ hm)]
    rfl

/-- An array of encoded items is decoded item by item. -/
theorem items?_array {α β : Type} {encode : α → Json} {decode : Json → Option β} {result : α → β} (xs : List α)
    (h : ∀ x ∈ xs, decode (encode x) = some (result x)) :
    (array (xs.map encode)).items? decode = some (xs.map result) := by
  rw [items?, List.mapM_map]
  exact mapM_eq_some h

section Lookup

variable {α : Type} {name other : Text} (value : Json) (rest : List (Text × Json)) (decode : Json → Option α)

theorem field?_self : field? ((name, value) :: rest) name decode = decode value := by
  rw [field?, List.lookup_cons_self, Option.bind_some]

theorem optionalField?_self : optionalField? ((name, value) :: rest) name decode = (decode value).map some := by
  rw [optionalField?, List.lookup_cons_self]

theorem lookup_of_ne (h : name ≠ other) : List.lookup name ((other, value) :: rest) = rest.lookup name := by
  rw [List.lookup_cons, beq_eq_false_iff_ne.2 h]

theorem field?_of_ne (h : name ≠ other) :
    field? ((other, value) :: rest) name decode = field? rest name decode := by
  rw [field?, lookup_of_ne value rest h, field?]

theorem optionalField?_of_ne (h : name ≠ other) :
    optionalField? ((other, value) :: rest) name decode = optionalField? rest name decode := by
  rw [optionalField?, lookup_of_ne value rest h, optionalField?]

end Lookup

/-- What was made from fields has these fields. -/
theorem fields?_ofFields {fields : List (Text × Json)} {names : List Text} (h : names.Nodup)
    (hnames : fields.map (·.1) = names) : (ofFields fields).fields? = some fields := by
  have hfields : fields.mapM (fun field => (Literal.decode? (Literal.encode field.1)).map (·, field.2)) =
      some (fields.map id) :=
    mapM_eq_some fun field _ => by rw [Literal.decode?_encode, Option.map_some, id]
  rw [ofFields, fields?, List.mapM_map, Function.comp_def, hfields, Option.bind_eq_bind, Option.bind_some, List.map_id,
    hnames, if_pos h]

end Json

/-! ## Words -/

/-- The kind that a word of reports stands for. -/
def Kind.ofLabel? (label : Text) : Option Kind := all.find? (·.label == label)

theorem Kind.ofLabel?_label (kind : Kind) : ofLabel? kind.label = some kind := by
  cases kind <;> rfl

theorem Kind.label_injective : Function.Injective label := by
  intro a b h
  have hlabel := congrArg ofLabel? h
  rwa [ofLabel?_label, ofLabel?_label, Option.some.injEq] at hlabel

def ExportKind.ofLabel? (label : Text) : Option ExportKind := [named, default].find? (·.label == label)

theorem ExportKind.ofLabel?_label (kind : ExportKind) : ofLabel? kind.label = some kind := by
  cases kind <;> rfl

def Mode.ofWord? (word : Text) : Option Mode := [publicApi, fullScan].find? (·.word == word)

theorem Mode.ofWord?_word (mode : Mode) : ofWord? mode.word = some mode := by
  cases mode <;> rfl

/-! ## Records -/

namespace Report

open Json

structure StatsRecord where
  total : Nat
  documented : Nat
  undocumented : Nat
  percentage : Nat
  byKind : List (Kind × Tally)
  deriving DecidableEq, Repr

namespace StatsRecord

def ofStats (stats : Stats) : StatsRecord where
  total := stats.overall.total
  documented := stats.overall.documented
  undocumented := stats.overall.total - stats.overall.documented
  percentage := stats.percentage
  byKind := stats.byKind

def tally? (value : Json) : Option Tally := do
  let fields ← value.fields?
  return ⟨← field? fields "total" nat?, ← field? fields "documented" nat?⟩

def kindTally? (field : Text × Json) : Option (Kind × Tally) := do
  return (← Kind.ofLabel? field.1, ← tally? field.2)

def byKind? (value : Json) : Option (List (Kind × Tally)) := do
  (← value.fields?).mapM kindTally?

def ofJson? (value : Json) : Option StatsRecord := do
  let fields ← value.fields?
  return {
    total := ← field? fields "total" nat?
    documented := ← field? fields "documented" nat?
    undocumented := ← field? fields "undocumented" nat?
    percentage := ← field? fields "percentage" nat?
    byKind := ← field? fields "by_kind" byKind? }

theorem tally?_tally (tally : Tally) : tally? (Structured.tally tally) = some tally := by
  have hnames : (["total", "documented"] : List Text).Nodup := by decide
  rw [tally?, Structured.tally, fields?_ofFields hnames rfl]
  simp (disch := decide) only [Option.bind_eq_bind, Option.bind_some, field?_of_ne, field?_self, nat?_ofNat,
    Option.pure_def]

theorem byKind?_table {table : List (Kind × Tally)} (h : (table.map Prod.fst).Nodup) :
    byKind? (.ofFields (table.map fun (kind, tally) => (kind.label, Structured.tally tally))) = some table := by
  have hnames : ((table.map fun (kind, tally) => (kind.label, Structured.tally tally)).map (·.1)).Nodup := by
    have hlabels := List.Nodup.map Kind.label_injective h
    rw [List.map_map] at hlabels ⊢
    exact hlabels
  have htable : table.mapM (fun (entry : Kind × Tally) => kindTally? (entry.1.label, Structured.tally entry.2)) =
      some (table.map id) :=
    mapM_eq_some fun entry _ => by simp [kindTally?, Kind.ofLabel?_label, tally?_tally]
  rw [byKind?, fields?_ofFields hnames rfl, Option.bind_eq_bind, Option.bind_some, List.mapM_map,
    Function.comp_def, htable, List.map_id]

/-- Statistics are read back, whatever they count. -/
theorem ofJson?_stats {stats : Stats} (h : (stats.byKind.map Prod.fst).Nodup) :
    ofJson? (Structured.stats stats) = some (ofStats stats) := by
  have hnames : (["total", "documented", "undocumented", "percentage", "by_kind"] : List Text).Nodup := by decide
  rw [ofJson?, Structured.stats, fields?_ofFields hnames rfl]
  simp (disch := decide) only [Option.bind_eq_bind, Option.bind_some, field?_of_ne, field?_self, nat?_ofNat,
    byKind?_table h, Option.pure_def]
  rfl

theorem ofJson?_ofSymbols (symbols : List Symbol) :
    ofJson? (Structured.stats (.ofSymbols symbols)) = some (ofStats (.ofSymbols symbols)) :=
  ofJson?_stats (Stats.describes_ofSymbols symbols).nodup

end StatsRecord

structure SymbolRecord where
  name : Text
  kind : Kind
  /-- The file as the report shows it. -/
  file : Text
  line : Nat
  isDocumented : Bool
  exportKind : ExportKind
  deriving DecidableEq, Repr

namespace SymbolRecord

def ofSymbol (report : Report) (symbol : Symbol) : SymbolRecord where
  name := symbol.name
  kind := symbol.kind
  file := report.display symbol.file
  line := symbol.line
  isDocumented := symbol.isDocumented
  exportKind := symbol.exportKind

def ofJson? (value : Json) : Option SymbolRecord := do
  let fields ← value.fields?
  return {
    name := ← field? fields "name" text?
    kind := ← (← field? fields "kind" text?) |> Kind.ofLabel?
    file := ← field? fields "file" text?
    line := ← field? fields "line" nat?
    isDocumented := ← field? fields "documented" bool?
    exportKind := ← (← field? fields "export_kind" text?) |> ExportKind.ofLabel? }

theorem ofJson?_symbol (report : Report) (symbol : Symbol) :
    ofJson? (Structured.symbol report symbol) = some (ofSymbol report symbol) := by
  have hnames : (["name", "kind", "file", "line", "documented", "export_kind"] : List Text).Nodup := by decide
  rw [ofJson?, Structured.symbol, fields?_ofFields hnames rfl]
  simp (disch := decide) only [Option.bind_eq_bind, Option.bind_some, field?_of_ne, field?_self, text?_ofText,
    nat?_ofNat, bool?, Kind.ofLabel?_label, ExportKind.ofLabel?_label, Option.pure_def]
  rfl

end SymbolRecord

structure ResultRecord where
  /-- The path as the report shows it. -/
  path : Text
  mode : Mode
  hasConfig : Bool
  hasExports : Bool
  /-- The entry points as the report shows them, unless the field is left out. -/
  entries : Option (List Text)
  stats : StatsRecord
  symbols : List SymbolRecord
  deriving DecidableEq, Repr

namespace ResultRecord

/-- The statistics are those of all symbols, also where only some are listed. -/
def ofAnalysis (report : Report) (options : Options) (result : Analysis) : ResultRecord where
  path := report.display result.path
  mode := result.mode
  hasConfig := result.hasConfig
  hasExports := result.hasExports
  entries := if result.entries = [] then none else some (result.entries.map report.display)
  stats := .ofStats (.ofSymbols result.symbols)
  symbols :=
    (if options.undocumentedOnly then result.symbols.filter (·.documentation.isNone) else result.symbols).map
      (.ofSymbol report)

def ofJson? (value : Json) : Option ResultRecord := do
  let fields ← value.fields?
  return {
    path := ← field? fields "path" text?
    mode := ← (← field? fields "mode" text?) |> Mode.ofWord?
    hasConfig := ← field? fields "has_config" bool?
    hasExports := ← field? fields "has_exports_field" bool?
    entries := ← optionalField? fields "entries" (items? text?)
    stats := ← field? fields "stats" StatsRecord.ofJson?
    symbols := ← field? fields "symbols" (items? SymbolRecord.ofJson?) }

theorem listed_eq (options : Options) (result : Analysis) :
    options.listed result =
      if options.undocumentedOnly then result.symbols.filter (·.documentation.isNone) else result.symbols := by
  cases h : options.undocumentedOnly with
  | false => simp [Options.listed, h]
  | true => simp [Options.listed, h, Symbol.isDocumented]

theorem ofJson?_result (report : Report) (options : Options) (result : Analysis) :
    ofJson? (Structured.result report options result) = some (ofAnalysis report options result) := by
  have hstats : StatsRecord.ofJson? (Structured.stats result.stats) = some (.ofStats (.ofSymbols result.symbols)) :=
    StatsRecord.ofJson?_ofSymbols result.symbols
  have hsymbols := items?_array (options.listed result) fun symbol _ => SymbolRecord.ofJson?_symbol report symbol
  have hentries := items?_array result.entries fun entry _ => text?_ofText (report.display entry)
  rw [ofJson?, Structured.result, Structured.heading, Structured.findings, Structured.entries]
  by_cases hempty : result.entries = []
  · have hnames : (["path", "mode", "has_config", "has_exports_field", "stats", "symbols"] : List Text).Nodup := by
      decide
    rw [hempty, List.isEmpty_nil, if_pos rfl, List.append_nil, fields?_ofFields hnames rfl]
    simp (disch := decide) only [List.cons_append, List.nil_append, Option.bind_eq_bind, Option.bind_some, field?_of_ne,
      field?_self, optionalField?_of_ne, text?_ofText, bool?, Mode.ofWord?_word, hstats, hsymbols, Option.pure_def]
    simp only [ofAnalysis, hempty, if_true, listed_eq]
    rfl
  · have hnames : (["path", "mode", "has_config", "has_exports_field", "entries", "stats", "symbols"] :
        List Text).Nodup := by
      decide
    rw [if_neg (by simpa using hempty), fields?_ofFields hnames rfl]
    simp (disch := decide) only [List.cons_append, List.nil_append, Option.bind_eq_bind, Option.bind_some, field?_of_ne,
      field?_self, optionalField?_of_ne, optionalField?_self, text?_ofText, bool?, Mode.ofWord?_word, hstats, hsymbols,
      hentries, Option.map_some, Option.pure_def]
    simp only [ofAnalysis, hempty, if_false, listed_eq]

end ResultRecord

/-- What the report for other programs says. -/
structure Record where
  root : Text
  isWorkspace : Bool
  summary : StatsRecord
  results : List ResultRecord
  deriving DecidableEq, Repr

namespace Record

def ofReport (report : Report) (options : Options) : Record where
  root := report.root.spelling
  isWorkspace := report.isWorkspace
  summary := .ofStats (.ofSymbols (report.results.flatMap (·.symbols)))
  results := report.results.map (.ofAnalysis report options)

def ofJson? (value : Json) : Option Record := do
  let fields ← value.fields?
  return {
    root := ← field? fields "root" text?
    isWorkspace := ← field? fields "workspace" bool?
    summary := ← field? fields "summary" StatsRecord.ofJson?
    results := ← field? fields "results" (items? ResultRecord.ofJson?) }

/-- What a program finds in the text of a report. -/
def read? (text : Text) : Option Record := (Json.parse? text).bind ofJson?

theorem ofJson?_document (report : Report) (options : Options) :
    ofJson? (Structured.document report options) = some (ofReport report options) := by
  have hstats : StatsRecord.ofJson? (Structured.stats report.stats) =
      some (.ofStats (.ofSymbols (report.results.flatMap (·.symbols)))) :=
    StatsRecord.ofJson?_ofSymbols _
  have hresults := items?_array report.results fun result _ => ResultRecord.ofJson?_result report options result
  have hnames : (["root", "workspace", "summary", "results"] : List Text).Nodup := by decide
  rw [ofJson?, Structured.document, fields?_ofFields hnames rfl]
  simp (disch := decide) only [Option.bind_eq_bind, Option.bind_some, field?_of_ne, field?_self, text?_ofText,
    bool?, hstats, hresults, Option.pure_def]
  rfl

end Record

/-! ## The document -/

namespace Structured

theorem isSpelled_stats (stats : Stats) : IsSpelled (Structured.stats stats) := by
  have htally : ∀ tally, IsSpelled (Structured.tally tally) := fun tally =>
    isSpelled_ofFields (by simp [isSpelled_ofNat])
  have htable : IsSpelled (.ofFields (stats.byKind.map fun (kind, t) => (kind.label, Structured.tally t))) := by
    refine isSpelled_ofFields fun field hm => ?_
    obtain ⟨entry, _, rfl⟩ := List.mem_map.1 hm
    exact htally entry.2
  exact isSpelled_ofFields (by simp [isSpelled_ofNat, htable])

theorem isSpelled_symbol (report : Report) (symbol : Symbol) : IsSpelled (Structured.symbol report symbol) :=
  isSpelled_ofFields (by simp [isSpelled_ofNat, isSpelled_ofText, IsSpelled.bool])

theorem isSpelled_result (report : Report) (options : Options) (result : Analysis) :
    IsSpelled (Structured.result report options result) := by
  have hentries := isSpelled_array (fun entry => isSpelled_ofText (report.display entry)) result.entries
  have hsymbols := isSpelled_array (isSpelled_symbol report) (options.listed result)
  refine isSpelled_ofFields ?_
  simp only [List.forall_mem_append]
  refine ⟨⟨by simp [heading, isSpelled_ofText, IsSpelled.bool], ?_⟩, by simp [findings, isSpelled_stats, hsymbols]⟩
  unfold entries
  split <;> simp [hentries]

theorem isSpelled_document (report : Report) (options : Options) : IsSpelled (Structured.document report options) := by
  have hresults := isSpelled_array (isSpelled_result report options) report.results
  exact isSpelled_ofFields (by simp [isSpelled_ofText, IsSpelled.bool, isSpelled_stats, hresults])

end Structured

/-- **The report for other programs can be read back.** For every report and all
options it is one plain document and a line feed, and a program that reads it finds
what the record of the report holds. -/
theorem read?_render (report : Report) (options : Options) :
    (∃ document : Json.Document, document.isPlain = true ∧ report.render .json options = document.text ++ "\n") ∧
      Record.read? (report.render .json options) = some (.ofReport report options) := by
  obtain ⟨⟨document, hplain, htext⟩, hparse⟩ := (Structured.isSpelled_document report options).parse?_print
  have hrender : report.render .json options = (Structured.document report options).print ++ "\n" := rfl
  refine ⟨⟨document, hplain, by rw [hrender, htext]⟩, ?_⟩
  rw [Record.read?, hrender, hparse, Option.bind_some, Record.ofJson?_document]

end Report
end ApiCoverage
