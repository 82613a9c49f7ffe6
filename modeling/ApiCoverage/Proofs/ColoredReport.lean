/-
Color only adds escape sequences to a report.

A reader who deletes the escape sequences of the report for a terminal is left with the report
without color. Nothing the report says of its own has an escape character, and neither have names and
paths, so every one of them starts a sequence that stands around a piece of text. Deleting them
(`eraseEscapes`) goes over the pieces one by one, and whatever a piece holds besides, be
it `[` or `m`, stays.
-/
import ApiCoverage.Proofs.PathSteps
import ApiCoverage.Proofs.Words
import ApiCoverage.Report.Render

namespace ApiCoverage

/-! ## Deleting escape sequences -/

namespace Text

/-- A character between the bracket of an escape sequence and the letter at its end. -/
def isParameter (c : Char) : Bool := c.isDigit || c == ';'

/-- The number of characters of the escape sequence for a style that a text starts with, or 0. -/
def escapeLength : Text → Nat
  | '\x1b' :: '[' :: rest =>
    match rest.dropWhile isParameter with
    | 'm' :: _ => (rest.takeWhile isParameter).length + 3
    | _ => 0
  | _ => 0

/-- What remains of a text without its escape sequences, if the first `skip` characters belong to one. -/
def eraseFrom : (skip : Nat) → Text → Text
  | _, [] => []
  | skip + 1, _ :: rest => eraseFrom skip rest
  | 0, c :: rest =>
    match escapeLength (c :: rest) with
    | 0 => c :: eraseFrom 0 rest
    | length + 1 => eraseFrom length rest

/-- The text without its escape sequences. -/
def eraseEscapes (text : Text) : Text := eraseFrom 0 text

theorem eraseFrom_length_append (front text : Text) : eraseFrom front.length (front ++ text) = eraseEscapes text := by
  induction front with
  | nil => rfl
  | cons c front ih => exact ih

theorem escapeLength_of_ne {c : Char} (h : c ≠ '\x1b') (rest : Text) : escapeLength (c :: rest) = 0 := by
  unfold escapeLength
  split
  next heq => exact absurd (List.cons.inj heq).1 h
  · rfl

/-- Text without an escape character. -/
def IsUnescaped (text : Text) : Prop := '\x1b' ∉ text

instance (text : Text) : Decidable text.IsUnescaped := inferInstanceAs (Decidable ('\x1b' ∉ text))

theorem isUnescaped_append {text more : Text} :
    IsUnescaped (text ++ more) ↔ text.IsUnescaped ∧ more.IsUnescaped :=
  List.mem_append.not.trans not_or

/-- Text without an escape character stays. -/
theorem IsUnescaped.eraseEscapes_append {text : Text} (h : text.IsUnescaped) (rest : Text) :
    eraseEscapes (text ++ rest) = text ++ eraseEscapes rest := by
  induction text with
  | nil => rfl
  | cons c text ih =>
    obtain ⟨hc, htext⟩ := not_or.1 (List.mem_cons.not.1 h)
    have hlength := escapeLength_of_ne (Ne.symm hc) (text ++ rest)
    -- No sequence starts at this character, and none that starts later reaches back to it.
    rw [List.cons_append, List.cons_append, ← ih htext, eraseEscapes, eraseFrom, hlength]
    rfl

end Text

namespace Report.Plain

open Text (eraseEscapes IsUnescaped isUnescaped_append)

theorem escapeLength_escape {parameters : Text} (h : ∀ c ∈ parameters, Text.isParameter c = true) (rest : Text) :
    Text.escapeLength (escape parameters ++ rest) = parameters.length + 3 := by
  have hend : Text.isParameter 'm' = false := by decide
  have htake : (parameters ++ 'm' :: rest).takeWhile Text.isParameter = parameters :=
    Text.takeWhile_append_cons h hend rest
  have hdrop : (parameters ++ 'm' :: rest).dropWhile Text.isParameter = 'm' :: rest := by
    rw [List.dropWhile_append_of_pos h, List.dropWhile_cons_of_neg (by simp [hend])]
  have htext : escape parameters ++ rest = '\x1b' :: '[' :: (parameters ++ 'm' :: rest) := by simp [escape]
  simp only [htext, Text.escapeLength, htake, hdrop]

/-- An escape sequence goes. -/
theorem eraseEscapes_escape {parameters : Text} (h : ∀ c ∈ parameters, Text.isParameter c = true) (rest : Text) :
    eraseEscapes (escape parameters ++ rest) = eraseEscapes rest := by
  have hlength := escapeLength_escape h rest
  have htext : escape parameters ++ rest = '\x1b' :: ('[' :: parameters ++ ['m'] ++ rest) := rfl
  rw [htext] at hlength ⊢
  rw [eraseEscapes, Text.eraseFrom, hlength]
  have herase := Text.eraseFrom_length_append ('[' :: parameters ++ ['m']) rest
  simpa using herase

/-! ## Pieces -/

theorem isParameter_ofNat (n : Nat) : ∀ c ∈ Text.ofNat n, Text.isParameter c = true := by
  intro c hm
  have hdigit : c.isDigit = true := Nat.isDigit_of_mem_toDigits (by decide) (by decide) hm
  rw [Text.isParameter, hdigit, Bool.true_or]

/-- The sequences around a piece are deleted, and its text stays. -/
theorem eraseEscapes_painted {piece : Piece} (h : piece.text.IsUnescaped) (rest : Text) :
    eraseEscapes (piece.painted ++ rest) = piece.text ++ eraseEscapes rest := by
  have hwrapped : ∀ {before after : Text}, (∀ c ∈ before, Text.isParameter c = true) →
      (∀ c ∈ after, Text.isParameter c = true) →
      eraseEscapes (escape before ++ piece.text ++ escape after ++ rest) = piece.text ++ eraseEscapes rest := by
    intro before after hbefore hafter
    rw [List.append_assoc, List.append_assoc, eraseEscapes_escape hbefore, h.eraseEscapes_append,
      eraseEscapes_escape hafter]
  unfold Piece.painted
  split
  · exact hwrapped (List.all_eq_true.1 rfl) (List.all_eq_true.1 rfl)
  · exact hwrapped (List.forall_mem_append.2 ⟨List.all_eq_true.1 rfl, isParameter_ofNat _⟩) (List.all_eq_true.1 rfl)
  · exact h.eraseEscapes_append rest

/-- The pieces have no escape character of their own. -/
def AreUnescaped (pieces : List Piece) : Prop := ∀ piece ∈ pieces, piece.text.IsUnescaped

namespace AreUnescaped

variable {pieces others : List Piece}

theorem nil : AreUnescaped [] := List.forall_mem_nil _

theorem cons {piece : Piece} (hpiece : piece.text.IsUnescaped) (h : AreUnescaped pieces) :
    AreUnescaped (piece :: pieces) :=
  List.forall_mem_cons.2 ⟨hpiece, h⟩

theorem append (h : AreUnescaped pieces) (hothers : AreUnescaped others) : AreUnescaped (pieces ++ others) :=
  List.forall_mem_append.2 ⟨h, hothers⟩

theorem flatMap {α : Type} {items : List α} {lay : α → List Piece} (h : ∀ item ∈ items, AreUnescaped (lay item)) :
    AreUnescaped (items.flatMap lay) := by
  intro piece hm
  obtain ⟨item, hitem, hpiece⟩ := List.mem_flatMap.1 hm
  exact h item hitem piece hpiece

/-- Piece by piece, what is deleted is what color adds. -/
theorem eraseEscapes_flatMap (h : AreUnescaped pieces) :
    eraseEscapes (pieces.flatMap (·.render true)) = pieces.flatMap (·.render false) := by
  induction pieces with
  | nil => rfl
  | cons piece pieces ih =>
    obtain ⟨hpiece, hrest⟩ := List.forall_mem_cons.1 h
    rw [List.flatMap_cons, List.flatMap_cons, ← ih hrest]
    exact eraseEscapes_painted hpiece _

theorem not_mem_flatMap (h : AreUnescaped pieces) : '\x1b' ∉ pieces.flatMap (·.render false) := by
  intro hm
  obtain ⟨piece, hpiece, hc⟩ := List.mem_flatMap.1 hm
  exact h piece hpiece hc

end AreUnescaped

/-! ## Texts without an escape character -/

theorem isUnescaped_ofNat (n : Nat) : (Text.ofNat n).IsUnescaped := by
  intro hm
  have hdigit : Char.isDigit '\x1b' = true := Nat.isDigit_of_mem_toDigits (by decide) (by decide) hm
  exact absurd hdigit (by decide)

theorem isUnescaped_padRight (width : Nat) {text : Text} (h : text.IsUnescaped) :
    (Text.padRight width text).IsUnescaped :=
  isUnescaped_append.2 ⟨h, fun hm => absurd (List.eq_of_mem_replicate hm) (by decide)⟩

theorem isUnescaped_share (tally : Tally) : (share tally).IsUnescaped := by
  simp +decide only [share, isUnescaped_append, isUnescaped_ofNat, and_true]

theorem isUnescaped_percent (n : Nat) : (percent n).IsUnescaped :=
  isUnescaped_append.2 ⟨isUnescaped_ofNat n, by decide⟩

theorem isUnescaped_label (kind : Kind) : kind.label.IsUnescaped := by
  cases kind <;> decide

end Report.Plain

namespace Path

open Text (IsUnescaped isUnescaped_append)

variable {p : Path}

theorem isUnescaped_join {pieces : List Text} (h : ∀ piece ∈ pieces, piece.IsUnescaped) :
    (Text.join "/" pieces).IsUnescaped := by
  fun_induction Text.join "/" pieces with
  | case1 => exact List.not_mem_nil
  | case2 piece => exact h piece List.mem_cons_self
  | case3 piece others hne ih =>
    obtain ⟨hpiece, hothers⟩ := List.forall_mem_cons.1 h
    exact isUnescaped_append.2 ⟨isUnescaped_append.2 ⟨hpiece, by decide⟩, ih hothers⟩

theorem isUnescaped_ofPieces {pieces : Pieces} (h : ∀ piece ∈ pieces.rest, piece.IsUnescaped) :
    (ofPieces pieces).spelling.IsUnescaped := by
  have hbody := isUnescaped_join h
  unfold ofPieces
  split
  · exact List.not_mem_cons_of_ne_of_not_mem (by decide) hbody
  · split
    · exact (by decide : Text.IsUnescaped (String.toList "."))
    · exact isUnescaped_append.2 ⟨by decide, hbody⟩
  · exact hbody

theorem dropComponents_subset (count : Nat) (pieces : List Text) : dropComponents count pieces ⊆ pieces := by
  fun_induction dropComponents count pieces with
  | case1 => exact List.Subset.refl _
  | case2 => exact List.Subset.refl _
  | case3 count piece pieces hfiller ih => exact List.subset_cons_of_subset piece ih
  | case4 count piece pieces hfiller ih => exact List.subset_cons_of_subset piece ih

/-- What is shown of a path has no escape character if the path has none. -/
theorem isUnescaped_display (root : Path) (h : p.spelling.IsUnescaped) : (display root p).IsUnescaped := by
  have hpieces : ∀ piece ∈ p.pieces.rest, piece.IsUnescaped :=
    fun piece hm hc => h (Text.mem_of_mem_splitOn (mem_splitOn_of_mem_pieces hm) hc)
  have hrelative : ((p.relativeTo? root).getD p).spelling.IsUnescaped := by
    simp only [relativeTo?]
    split
    · exact isUnescaped_ofPieces fun piece hm => hpieces piece ((isPrefix_dropFillers _).subset hm)
    split
    · rw [Option.getD_some]
      refine isUnescaped_ofPieces fun piece hm => hpieces piece ?_
      have hrest := (List.dropWhile_sublist isFiller).subset ((isPrefix_dropFillers _).subset hm)
      exact dropComponents_subset _ _ hrest
    · exact h
  simp only [display]
  split
  · decide
  · exact hrelative

end Path

namespace Report

open Text (eraseEscapes IsUnescaped isUnescaped_append)

/-- The names and paths in a report have no escape character. -/
structure HasUnescapedNames (report : Report) : Prop where
  paths : ∀ result ∈ report.results, result.path.spelling.IsUnescaped
  entries : ∀ result ∈ report.results, ∀ entry ∈ result.entries, entry.spelling.IsUnescaped
  names : ∀ result ∈ report.results, ∀ symbol ∈ result.symbols, symbol.name.IsUnescaped
  files : ∀ result ∈ report.results, ∀ symbol ∈ result.symbols, symbol.file.spelling.IsUnescaped

namespace Plain

theorem AreUnescaped.plainLine {text : Text} (h : text.IsUnescaped) : AreUnescaped (plainLine text) :=
  .cons h (.cons (by decide) .nil)

theorem areUnescaped_symbolLine {report : Report} {symbol : Symbol} (hname : symbol.name.IsUnescaped)
    (hfile : symbol.file.spelling.IsUnescaped) : AreUnescaped (symbolLine report symbol) := by
  have hmark : ∀ documented : Bool,
      (if documented then (⟨.green, "✓"⟩ : Piece) else ⟨.red, "✗"⟩).text.IsUnescaped := by
    decide
  have hlabel := isUnescaped_padRight 9 (isUnescaped_label symbol.kind)
  have hplace := Path.isUnescaped_display report.root hfile
  refine .cons (by decide) (.cons (hmark _) (.cons ?_ (.cons ?_ (.cons (by decide) .nil))))
  · simp +decide only [plain, isUnescaped_append, hlabel, hname, and_true]
  · exact isUnescaped_append.2 ⟨isUnescaped_append.2 ⟨hplace, by decide⟩, isUnescaped_ofNat _⟩

theorem areUnescaped_resultLines {report : Report} (h : report.HasUnescapedNames) (options : Options)
    {result : Analysis} (hresult : result ∈ report.results) : AreUnescaped (resultLines report options result) := by
  have hpath := Path.isUnescaped_display report.root (h.paths result hresult)
  have hmode : ∀ mode : Mode, IsUnescaped (String.toList " (" ++ mode.description ++ String.toList ")") := by
    intro mode
    cases mode <;> decide
  have hheading : AreUnescaped
      [⟨.bold, report.display result.path⟩, plain (" (" ++ result.mode.description ++ ")"), newLine] :=
    .cons hpath (.cons (hmode result.mode) (.cons (by decide) .nil))
  have hentries : AreUnescaped (result.entries.flatMap fun entry => plainLine ("  entry: " ++ report.display entry)) :=
    .flatMap fun entry hm => .plainLine
      (isUnescaped_append.2 ⟨by decide, Path.isUnescaped_display report.root (h.entries result hresult entry hm)⟩)
  have hsymbols : AreUnescaped ((options.listed result).flatMap (symbolLine report)) :=
    .flatMap fun symbol hm =>
      have hsymbol := (List.mem_filter.1 hm).1
      areUnescaped_symbolLine (h.names result hresult symbol hsymbol) (h.files result hresult symbol hsymbol)
  have hshare : IsUnescaped ("  " ++ share result.stats.overall ++ " documented (" ++
      percent result.stats.percentage ++ ")") := by
    simp +decide only [isUnescaped_append, isUnescaped_share, isUnescaped_percent, and_true]
  refine (((hheading.append hentries).append ?_).append ?_).append (.cons (by decide) .nil)
  · split
    · exact .plainLine (by decide)
    · exact hsymbols
  · split
    · exact .plainLine hshare
    · exact .nil

theorem areUnescaped_kindLines (stats : Stats) : AreUnescaped (kindLines stats) := by
  unfold kindLines
  split
  · exact .nil
  · refine ((AreUnescaped.cons (by decide) .nil).append (.plainLine (by decide))).append (.flatMap ?_)
    rintro ⟨kind, tally⟩ -
    have hlabel := isUnescaped_padRight 10 (isUnescaped_label kind)
    refine .plainLine ?_
    simp +decide only [isUnescaped_append, hlabel, isUnescaped_share, isUnescaped_percent, and_true]

theorem areUnescaped_summaryLines (stats : Stats) : AreUnescaped (summaryLines stats) := by
  have htitle : AreUnescaped [⟨.bold, "Summary"⟩, newLine] := .cons (by decide) (.cons (by decide) .nil)
  have hcount : ∀ {name : Text} (n : Nat), name.IsUnescaped → AreUnescaped (plainLine (name ++ Text.ofNat n)) :=
    fun n hname => .plainLine (isUnescaped_append.2 ⟨hname, isUnescaped_ofNat n⟩)
  exact (((htitle.append (hcount _ (by decide))).append (hcount _ (by decide))).append (hcount _ (by decide))).append
    (areUnescaped_kindLines stats)

theorem areUnescaped_verdictLine (report : Report) : AreUnescaped (verdictLine report) := by
  have hemoji : ∀ verdict : Verdict, IsUnescaped (verdict.emoji ++ String.toList " ") := by
    intro verdict
    cases verdict <;> decide
  have hmessage : ∀ verdict : Verdict, IsUnescaped (String.toList " " ++ verdict.message) := by
    intro verdict
    cases verdict <;> decide
  exact .cons (hemoji _) (.cons (isUnescaped_percent _) (.cons (hmessage _) (.cons (by decide) .nil)))

/-- No piece of a report has an escape character of its own. -/
theorem areUnescaped_pieces {report : Report} (h : report.HasUnescapedNames) (options : Options) :
    AreUnescaped (pieces report options) := by
  have hresults : AreUnescaped (report.results.flatMap (resultLines report options)) :=
    .flatMap fun result hm => areUnescaped_resultLines h options hm
  exact ((hresults.append (areUnescaped_summaryLines _)).append (.cons (by decide) .nil)).append
    (areUnescaped_verdictLine report)

/-- The title of the totals is bold in every report. -/
theorem mem_render_color (report : Report) (undocumentedOnly : Bool) :
    '\x1b' ∈ render report ⟨true, undocumentedOnly⟩ := by
  have htitle : (⟨.bold, "Summary"⟩ : Piece) ∈ pieces report ⟨true, undocumentedOnly⟩ := by
    simp [pieces, summaryLines]
  exact List.mem_flatMap.2 ⟨_, htitle, List.mem_cons_self⟩

end Plain

/-- **Color never changes the text of a report.** Whether or not only symbols without documentation
are listed, and whatever names and paths the report shows, as long as they have no escape character,
deleting the escape sequences of the report with color gives the report without it. That one has no escape
character, and the one with color has some. -/
theorem eraseEscapes_render_text (report : Report) (undocumentedOnly : Bool) (h : report.HasUnescapedNames) :
    eraseEscapes (report.render .text ⟨true, undocumentedOnly⟩) = report.render .text ⟨false, undocumentedOnly⟩ ∧
      '\x1b' ∉ report.render .text ⟨false, undocumentedOnly⟩ ∧
      '\x1b' ∈ report.render .text ⟨true, undocumentedOnly⟩ := by
  -- The pieces are laid out before color is asked for, so they are the same for both reports.
  have hpieces := Plain.areUnescaped_pieces h ⟨false, undocumentedOnly⟩
  exact ⟨hpieces.eraseEscapes_flatMap, hpieces.not_mem_flatMap, Plain.mem_render_color report undocumentedOnly⟩

/-- A member of a workspace whose names look like the inside of escape sequences. -/
def awkward : Report :=
  { root := "p"
    results :=
      [{ path := "p/[1m", hasConfig := true, hasExports := true, entries := ["p/[1m/0m.ts"], mode := .publicApi
         symbols := [⟨"[38;5;9m", .function, "p/[1m/0m.ts", 3, none, .named⟩] }]
    isWorkspace := true }

theorem eraseEscapes_render_awkward :
    awkward.HasUnescapedNames ∧
      eraseEscapes (awkward.render .text ⟨true, true⟩) = awkward.render .text ⟨false, true⟩ := by
  have hnames : awkward.HasUnescapedNames := ⟨by decide, by decide, by decide, by decide⟩
  exact ⟨hnames, (eraseEscapes_render_text awkward true hnames).1⟩

end Report

end ApiCoverage
