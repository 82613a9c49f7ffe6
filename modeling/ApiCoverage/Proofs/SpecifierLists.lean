/-
How the list between the braces of an export or import is written, and that the names
in it are read back.

White space is free around the words of an entry, so a list may be broken into lines
wherever two words meet. The reader sees it with the lines trimmed and a blank
between them. That leaves the words of each entry as they were (`cells`), and an entry
is read by its words alone.
-/
import ApiCoverage.Proofs.Words
import ApiCoverage.Statement.Specifier

namespace ApiCoverage

open Text (IsBlanks IsGap IsWord Spaced words)

namespace Specifier

/-! ## Entries -/

/-- A name that an entry can hold; identifiers are such names. -/
structure IsName (name : Text) : Prop extends IsWord name where
  comma : ',' ∉ name
  brace : '}' ∉ name

/-- The names of an entry. A first name `type` would be read as the modifier. -/
structure Writable (specifier : Specifier) : Prop where
  declared : IsName specifier.declared
  exported : IsName specifier.exported
  ne : specifier.declared ≠ "type"

/-- The words of an entry, `name` or `name as alias`. -/
inductive Names : Specifier → List Text → Prop
  | same (name : Text) : Names ⟨name, name⟩ [name]
  | renamed (declared exported : Text) : Names ⟨declared, exported⟩ [declared, "as", exported]

/-- The words of an entry, with or without the modifier `type`. -/
inductive Spells (specifier : Specifier) : List Text → Prop
  | value {list : List Text} (h : Names specifier list) : Spells specifier list
  | type {list : List Text} (h : Names specifier list) : Spells specifier ("type" :: list)

/-- What may stand between the braces of a list: the entries with a comma between them,
and maybe one after the last. -/
inductive Written : List Specifier → Text → Prop
  | blanks {text : Text} (h : IsBlanks text) : Written [] text
  | last {specifier : Specifier} {list : List Text} {text : Text} (hnames : specifier.Writable)
      (hspells : Spells specifier list) (hspaced : Spaced list text) : Written [specifier] text
  | cons {specifier : Specifier} {specifiers : List Specifier} {list : List Text} {text more : Text}
      (hnames : specifier.Writable) (hspells : Spells specifier list) (hspaced : Spaced list text)
      (hmore : Written specifiers more) : Written (specifier :: specifiers) (text ++ ',' :: more)

/-- A character that a name can hold. -/
def isEntryChar (c : Char) : Bool := !isBlank c && c != ',' && c != '}'

theorem isName_of_all {name : Text} (hne : name ≠ []) (h : name.all isEntryChar = true) : IsName name := by
  have hall : ∀ c ∈ name, (isBlank c = false ∧ c ≠ ',') ∧ c ≠ '}' := by
    simpa [isEntryChar] using h
  exact ⟨⟨hne, fun c hc => (hall c hc).1.1⟩, fun hm => (hall _ hm).1.2 rfl, fun hm => (hall _ hm).2 rfl⟩

theorem isName_as : IsName "as" := isName_of_all (by decide) rfl

theorem isName_type : IsName "type" := isName_of_all (by decide) rfl

/-- An identifier is a name that an entry can hold. -/
theorem isName_of_identifier {name : Text} (h : Lexeme.IsIdentifier name) : IsName name := by
  have hne : ∀ c, isNameChar c = false → c ∉ name := fun c hc hm => by simp [h.nameChars c hm] at hc
  exact ⟨h.isWord, hne ',' (by decide +kernel), hne '}' (by decide +kernel)⟩

theorem isName_of_name? {name : Text} (h : Lexeme.name? name = some (name, [])) : IsName name :=
  isName_of_identifier (Lexeme.isIdentifier_of_name? h).1

/-! ## Reading an entry -/

/-- The names in an entry without modifier. -/
def ofNames? (entry : Text) : Option Specifier :=
  if entry.isEmpty then none
  else match Text.cutAt? " as " entry with
    | some (declared, exported) => some ⟨Text.trim declared, Text.trim exported⟩
    | none => some ⟨entry, entry⟩

/-- The names in the words of an entry. -/
def ofWords? (list : List Text) : Option Specifier :=
  let entry := Text.join " " list
  ofNames? (Text.trim ((Text.after? "type " entry).getD entry))

theorem parse?_eq (entry : Text) : parse? entry = ofWords? (words entry) := rfl

variable {specifier : Specifier} {list : List Text}

theorem Writable.isName (h : specifier.Writable) (hspells : Spells specifier list) :
    ∀ word ∈ list, IsName word := by
  have hnames : ∀ {list}, Names specifier list → ∀ word ∈ list, IsName word := by
    intro list hnames
    cases hnames with
    | same name => simpa using h.declared
    | renamed declared exported => simpa using ⟨h.declared, isName_as, h.exported⟩
  cases hspells with
  | value hlist => exact hnames hlist
  | type hlist => exact List.forall_mem_cons.2 ⟨isName_type, hnames hlist⟩

theorem ofNames?_of_names (h : specifier.Writable) (hnames : Names specifier list) :
    ofNames? (Text.trim (Text.join " " list)) = some specifier := by
  cases hnames with
  | same name =>
    have hword := h.declared.toIsWord
    have hempty : name.isEmpty = false := by simpa using hword.ne
    have hcut : Text.cutAt? " as " name = none := Text.cutAt?_eq_none hword.space_not_mem _
    simp only [Text.join, hword.trim, ofNames?, hempty, hcut, Bool.false_eq_true, if_false]
  | renamed declared exported =>
    have hdeclared := h.declared.toIsWord
    have hexported := h.exported.toIsWord
    have hjoin : Text.join " " [declared, "as", exported] = declared ++ (String.toList " as " ++ exported) := by
      simp [Text.join]
    have hempty : (declared ++ (String.toList " as " ++ exported)).isEmpty = false := by simp
    have hcut : Text.cutAt? " as " (declared ++ (String.toList " as " ++ exported)) = some (declared, exported) :=
      Text.cutAt?_append hdeclared.space_not_mem _ _
    simp only [hjoin, hdeclared.trim_append hexported, ofNames?, hempty, hcut, hdeclared.trim, hexported.trim,
      Bool.false_eq_true, if_false]

/-- Only the modifier is taken for one. -/
theorem after?_type_of_names (h : specifier.Writable) (hnames : Names specifier list) :
    Text.after? "type " (Text.join " " list) = none := by
  have hspace := h.declared.space_not_mem
  rw [Option.eq_none_iff_forall_ne_some]
  intro rest hrest
  have hjoin := Text.after?_eq_some_iff.1 hrest
  have hsplit := congrArg (Text.splitOn ' ') hjoin
  have htype : Text.splitOn ' ' (String.toList "type " ++ rest) = String.toList "type" :: Text.splitOn ' ' rest :=
    Text.splitOn_append_cons isName_type.space_not_mem rest
  cases hnames with
  | same name =>
    rw [Text.join, Text.splitOn_eq_singleton hspace, htype] at hsplit
    exact h.ne (List.cons.inj hsplit).1
  | renamed declared exported =>
    have hdeclared : Text.splitOn ' ' (Text.join " " [declared, "as", exported]) =
        declared :: Text.splitOn ' ' (String.toList "as " ++ exported) := by
      rw [← Text.splitOn_append_cons hspace]
      simp [Text.join]
    rw [hdeclared, htype] at hsplit
    exact h.ne (List.cons.inj hsplit).1

theorem ofWords?_of_spells (h : specifier.Writable) (hspells : Spells specifier list) :
    ofWords? list = some specifier := by
  cases hspells with
  | value hnames =>
    rw [ofWords?, after?_type_of_names h hnames]
    exact ofNames?_of_names h hnames
  | @type list hnames =>
    have hafter : Text.after? "type " (Text.join " " ("type" :: list)) = some (Text.join " " list) := by
      rw [Text.after?_eq_some_iff]
      cases hnames with
      | same name => rfl
      | renamed declared exported => rfl
    rw [ofWords?, hafter]
    exact ofNames?_of_names h hnames

/-- An entry is read, however its words are spaced. -/
theorem parse?_of_spaced {text : Text} (h : specifier.Writable) (hspells : Spells specifier list)
    (hspaced : Spaced list text) : parse? text = some specifier := by
  rw [parse?_eq, hspaced.words fun word hm => (h.isName hspells word hm).toIsWord]
  exact ofWords?_of_spells h hspells

/-! ## Reading a list -/

/-- The words of each entry. -/
def cells (text : Text) : List (List Text) := (Text.splitOn ',' text).map words

theorem parseList_eq (text : Text) : parseList text = (cells text).filterMap ofWords? := by
  rw [cells, List.filterMap_map]
  rfl

theorem Written.writable {specifiers : List Specifier} {text : Text} (h : Written specifiers text) :
    ∀ specifier ∈ specifiers, specifier.Writable := by
  induction h with
  | blanks h => simp
  | last hnames hspells hspaced => simpa using hnames
  | cons hnames hspells hspaced hmore ih => exact List.forall_mem_cons.2 ⟨hnames, ih⟩

theorem Spells.not_mem {c : Char} (h : Spells specifier list) (has : c ∉ String.toList "as")
    (htype : c ∉ String.toList "type") (hnames : c ∉ specifier.declared ∧ c ∉ specifier.exported) :
    ∀ word ∈ list, c ∉ word := by
  have hlist : ∀ {list}, Names specifier list → ∀ word ∈ list, c ∉ word := by
    intro list h
    cases h with
    | same name => simpa using hnames.1
    | renamed declared exported => simpa using ⟨hnames.1, by simpa using has, hnames.2⟩
  cases h with
  | value h => exact hlist h
  | type h => exact List.forall_mem_cons.2 ⟨htype, hlist h⟩

/-- Between the braces there is nothing but the names, the words of entries, commas and blanks. -/
theorem Written.not_mem {specifiers : List Specifier} {text : Text} {c : Char} (h : Written specifiers text)
    (hblank : isBlank c = false) (hcomma : c ≠ ',') (has : c ∉ String.toList "as")
    (htype : c ∉ String.toList "type")
    (hnames : ∀ specifier ∈ specifiers, c ∉ specifier.declared ∧ c ∉ specifier.exported) : c ∉ text := by
  induction h with
  | blanks h => exact h.not_mem hblank
  | last _ hspells hspaced =>
    exact hspaced.not_mem hblank (hspells.not_mem has htype (hnames _ List.mem_cons_self))
  | cons _ hspells hspaced hmore ih =>
    obtain ⟨hfirst, hrest⟩ := List.forall_mem_cons.1 hnames
    have htext := hspaced.not_mem hblank (hspells.not_mem has htype hfirst)
    simp [htext, hcomma, ih hrest]

theorem Written.not_mem_brace {specifiers : List Specifier} {text : Text} (h : Written specifiers text) :
    '}' ∉ text :=
  h.not_mem (by decide) (by decide) (by decide) (by decide) fun specifier hm =>
    ⟨(h.writable specifier hm).declared.brace, (h.writable specifier hm).exported.brace⟩

/-- **A written list is read back**: its entries with their names, in order. -/
theorem Written.parseList {specifiers : List Specifier} {text : Text} (h : Written specifiers text) :
    parseList text = specifiers := by
  have hcomma : isBlank ',' = false := by decide
  induction h with
  | blanks h =>
    have hnone : parse? _ = none := congrArg ofWords? h.words
    rw [Specifier.parseList, Text.splitOn_eq_singleton (h.not_mem hcomma), List.filterMap_cons_none hnone,
      List.filterMap_nil]
  | last hnames hspells hspaced =>
    have htext := hspaced.not_mem hcomma fun word hm => (hnames.isName hspells word hm).comma
    rw [Specifier.parseList, Text.splitOn_eq_singleton htext,
      List.filterMap_cons_some (parse?_of_spaced hnames hspells hspaced), List.filterMap_nil]
  | cons hnames hspells hspaced hmore ih =>
    have htext := hspaced.not_mem hcomma fun word hm => (hnames.isName hspells word hm).comma
    rw [Specifier.parseList, Text.splitOn_append_cons htext,
      List.filterMap_cons_some (parse?_of_spaced hnames hspells hspaced), ← Specifier.parseList, ih]

/-! ## White space in a list -/

theorem cells_append {text more last first : Text} {pieces rest : List Text}
    (htext : Text.splitOn ',' text = pieces ++ [last]) (hmore : Text.splitOn ',' more = first :: rest) :
    cells (text ++ more) = pieces.map words ++ words (last ++ first) :: rest.map words := by
  rw [cells, Text.splitOn_append htext hmore, List.map_append, List.map_cons]

/-- Around a blank, the words before and those after come together in one entry. -/
theorem exists_cells_append_cons {c : Char} (hc : isBlank c = true) (before after : Text) :
    ∃ pieces last first rest, cells before = pieces ++ [last] ∧ cells after = first :: rest ∧
      cells (before ++ c :: after) = pieces ++ (last ++ first) :: rest := by
  obtain ⟨pieces, last, hsplit⟩ := Text.exists_splitOn_concat ',' before
  obtain ⟨first, rest, hrest⟩ := List.exists_cons_of_ne_nil (Text.splitOn_ne_nil ',' after)
  have hcomma : ¬ (c == ',') = true := by
    rw [beq_iff_eq]
    rintro rfl
    exact absurd hc (by decide)
  have hcons : Text.splitOn ',' (c :: after) = (c :: first) :: rest := by
    rw [Text.splitOn_cons, if_neg hcomma, hrest, List.modifyHead_cons]
  refine ⟨pieces.map words, words last, words first, rest.map words, ?_, ?_, ?_⟩
  · rw [cells, hsplit, List.map_append, List.map_singleton]
  · rw [cells, hrest, List.map_cons]
  · rw [cells_append hsplit hcons, Text.words_append_cons hc]

/-- Any blank may stand for any other between two parts of a list. -/
theorem cells_append_cons {before before' after after' : Text} {c c' : Char} (hc : isBlank c = true)
    (hc' : isBlank c' = true) (hbefore : cells before = cells before') (hafter : cells after = cells after') :
    cells (before ++ c :: after) = cells (before' ++ c' :: after') := by
  obtain ⟨pieces, last, first, rest, hb, ha, heq⟩ := exists_cells_append_cons hc before after
  obtain ⟨pieces', last', first', rest', hb', ha', heq'⟩ := exists_cells_append_cons hc' before' after'
  rw [hb, hb'] at hbefore
  rw [ha, ha'] at hafter
  obtain ⟨rfl, hlast⟩ := List.append_inj' hbefore rfl
  cases hlast
  cases hafter
  rw [heq, heq']

theorem cells_trimStart (text : Text) : cells (Text.trimStart text) = cells text := by
  obtain ⟨blanks, hblanks, htext⟩ := Text.exists_trimStart text
  obtain ⟨first, rest, hrest⟩ := List.exists_cons_of_ne_nil (Text.splitOn_ne_nil ',' (Text.trimStart text))
  have hsplit := Text.splitOn_append_of_not_mem (hblanks.not_mem (by decide)) hrest
  rw [← htext] at hsplit
  rw [cells, hrest, cells, hsplit, List.map_cons, List.map_cons, hblanks.words_append]

theorem cells_trimEnd (text : Text) : cells (Text.trimEnd text) = cells text := by
  obtain ⟨blanks, hblanks, htext⟩ := Text.exists_trimEnd text
  obtain ⟨pieces, last, hpieces⟩ := Text.exists_splitOn_concat ',' (Text.trimEnd text)
  have hsplit : Text.splitOn ',' blanks = [blanks] := Text.splitOn_eq_singleton (hblanks.not_mem (by decide))
  conv_rhs => rw [htext, cells_append hpieces hsplit, hblanks.append_words]
  rw [cells, hpieces, List.map_append, List.map_singleton, List.map_nil]

theorem cells_trim (text : Text) : cells (Text.trim text) = cells text := by
  rw [Text.trim, cells_trimEnd, cells_trimStart]

end Specifier

/-! ## Lists over several lines -/

/-- Lines joined to a text: each trimmed, with a blank before it. -/
def joinedLines (lines : List Text) : Text := lines.flatMap fun line => ' ' :: Text.trim line

theorem gather_append {stops : Text → Bool} {limit : Nat} {lines : List Text} {last : Text}
    (hlines : ∀ line ∈ lines, stops line = false) (hlast : stops last = true) (hlimit : lines.length < limit)
    (after : List Text) :
    gather stops limit (lines ++ last :: after) = (joinedLines (lines ++ [last]), lines.length + 1) := by
  induction lines generalizing limit with
  | nil =>
    obtain ⟨limit, rfl⟩ := Nat.exists_eq_add_of_le' hlimit
    simp [gather, hlast, joinedLines]
  | cons line lines ih =>
    obtain ⟨hline, hrest⟩ := List.forall_mem_cons.1 hlines
    obtain ⟨limit, rfl⟩ := Nat.exists_eq_add_of_le' (Nat.zero_lt_of_lt hlimit)
    have hgather := ih hrest (Nat.lt_of_succ_lt_succ hlimit)
    rw [List.cons_append, gather, hline, hgather]
    simp [joinedLines]

/-- Joining lines leaves the entries of a list as they are. -/
theorem Specifier.cells_joinedLines {first text : Text} (htext : cells text = cells first) (lines : List Text)
    (last : Text) :
    cells (text ++ (joinedLines lines ++ ' ' :: Text.trimStart last)) =
      cells (Text.join ['\n'] (first :: (lines ++ [last]))) := by
  have hspace : isBlank ' ' = true := by decide
  have hbreak : isBlank '\n' = true := by decide
  induction lines generalizing first text with
  | nil =>
    have hcons := cells_append_cons hspace hbreak htext (cells_trimStart last)
    simpa [joinedLines, Text.join] using hcons
  | cons line lines ih =>
    have hrest := ih (cells_trim line)
    have hcons := cells_append_cons hspace hbreak htext hrest
    simpa [joinedLines, Text.join] using hcons

theorem joinBracedAt?_append (before : List Text) (first : Text) (rest : List Text) :
    joinBracedAt? (before ++ first :: rest) before.length = some (joinBraced first rest) := by
  rw [joinBracedAt?, List.drop_left]

theorem joinBraced_of_mem {first : Text} (h : '}' ∈ Text.trim first) (rest : List Text) :
    joinBraced first rest = (Text.trim first, 1) := by
  simp [joinBraced, h]

theorem not_mem_joinedLines {c : Char} (hc : c ≠ ' ') {lines : List Text} (h : ∀ line ∈ lines, c ∉ line) :
    c ∉ joinedLines lines := by
  simp only [joinedLines, List.mem_flatMap, List.mem_cons, not_exists, not_and, not_or]
  exact fun line hm => ⟨hc, fun hmem => h line hm ((Text.trim_sublist line).mem hmem)⟩

/-- The first line of a statement goes on to the first break after the brace. -/
theorem splitOn_opening {head more first : Text} {rest : List Text} (h : '\n' ∉ head)
    (hmore : Text.splitOn '\n' more = first :: rest) :
    Text.splitOn '\n' (head ++ '{' :: more) = (head ++ '{' :: first) :: rest := by
  have hhead : '\n' ∉ head ++ ['{'] := by simp [h]
  simpa using Text.splitOn_append_of_not_mem hhead hmore

/-- A statement over several lines, from the opening brace on the first to the closing one
on the last. -/
theorem joinBraced_lines {head first last tail : Text} {lines : List Text} (hhead : '}' ∉ head)
    (hfirst : '}' ∉ first) (hlines : ∀ line ∈ lines, '}' ∉ line) (hlimit : lines.length < lookahead)
    (after : List Text) :
    joinBraced (head ++ '{' :: first) (lines ++ (last ++ '}' :: tail) :: after) =
      (Text.trimStart head ++ '{' :: ((Text.trimEnd first ++ (joinedLines lines ++ ' ' :: Text.trimStart last)) ++
        '}' :: Text.trimEnd tail), lines.length + 2) := by
  have htrim : Text.trim (head ++ '{' :: first) = Text.trimStart head ++ '{' :: Text.trimEnd first :=
    Text.trim_append_cons (by decide) head first
  have hlast : Text.trim (last ++ '}' :: tail) = Text.trimStart last ++ '}' :: Text.trimEnd tail :=
    Text.trim_append_cons (by decide) last tail
  have hjoins : (!(Text.trimStart head ++ '{' :: Text.trimEnd first).contains '{' ||
      (Text.trimStart head ++ '{' :: Text.trimEnd first).contains '}') = false := by
    simp [Text.not_mem_trimStart hhead, Text.not_mem_trimEnd hfirst]
  have hgather : gather (·.contains '}') lookahead (lines ++ (last ++ '}' :: tail) :: after) =
      (joinedLines (lines ++ [last ++ '}' :: tail]), lines.length + 1) :=
    gather_append (by simpa using hlines) (by simp) hlimit after
  simp only [joinBraced, htrim, hjoins, hgather, Bool.false_eq_true, if_false]
  simp [joinedLines, hlast]

/-- A statement with a list in braces that is broken into lines inside them only, and
not into too many: joining takes all of its lines, and gives the text before the brace and
that after it, trimmed, with the same entries between them, no line break and nothing new but
blanks. -/
theorem exists_joinBracedAt?_splitOn {head inside tail : Text} (hhead : '}' ∉ head) (hinside : '}' ∉ inside)
    (hfirst : '\n' ∉ head) (hlast : '\n' ∉ tail) (hlimit : inside.count '\n' ≤ lookahead)
    (before after : List Text) :
    ∃ joined, (∀ c ≠ ' ', c = '\n' ∨ c ∉ inside → c ∉ joined) ∧ Specifier.cells joined = Specifier.cells inside ∧
      joinBracedAt? (before ++ (Text.splitOn '\n' (head ++ '{' :: (inside ++ '}' :: tail)) ++ after)) before.length =
        some (Text.trimStart head ++ '{' :: (joined ++ '}' :: Text.trimEnd tail),
          (Text.splitOn '\n' (head ++ '{' :: (inside ++ '}' :: tail))).length) := by
  have hopen : isBlank '{' = false := by decide
  have hclose : isBlank '}' = false := by decide
  by_cases hbreak : '\n' ∈ inside
  · -- The first line ends inside the braces.
    obtain ⟨rows, last, hrows⟩ := Text.exists_splitOn_concat '\n' inside
    have hlength := Text.length_splitOn '\n' inside
    have hcount := List.count_pos_iff.2 hbreak
    rw [hrows, List.length_append, List.length_singleton] at hlength
    obtain ⟨first, lines, rfl⟩ := List.exists_cons_of_length_pos (show 0 < rows.length by omega)
    rw [List.length_cons] at hlength
    have hpieces : ∀ {c}, c = '\n' ∨ c ∉ inside → ∀ row ∈ first :: lines ++ [last], c ∉ row := by
      intro c hc row hm
      rcases hc with rfl | hc
      · exact Text.not_mem_of_mem_splitOn (hrows ▸ hm)
      · exact fun hrow => hc (Text.mem_of_mem_splitOn (hrows ▸ hm) hrow)
    have htail : Text.splitOn '\n' ('}' :: tail) = ['}' :: tail] := Text.splitOn_eq_singleton (by simp [hlast])
    have hsplit : Text.splitOn '\n' (head ++ '{' :: (inside ++ '}' :: tail)) =
        (head ++ '{' :: first) :: (lines ++ [last ++ '}' :: tail]) :=
      splitOn_opening hfirst (Text.splitOn_append hrows htail)
    refine ⟨Text.trimEnd first ++ (joinedLines lines ++ ' ' :: Text.trimStart last), ?_, ?_, ?_⟩
    · intro c hne hc
      have hlines : ∀ line ∈ lines, c ∉ line := fun line hm => hpieces hc line (by simp [hm])
      simp [Text.not_mem_trimEnd (hpieces hc first (by simp)), Text.not_mem_trimStart (hpieces hc last (by simp)),
        not_mem_joinedLines hne hlines, hne]
    · rw [Specifier.cells_joinedLines (Specifier.cells_trimEnd first), ← List.cons_append, ← hrows, Text.join_splitOn]
    · rw [hsplit, List.cons_append, List.append_assoc, List.singleton_append, joinBracedAt?_append,
        joinBraced_lines hhead (hpieces (.inr hinside) first (by simp))
          (fun line hm => hpieces (.inr hinside) line (by simp [hm])) (by omega)]
      simp
  · have hline : '\n' ∉ head ++ '{' :: (inside ++ '}' :: tail) := by simp [hfirst, hbreak, hlast]
    have htrim : Text.trim (head ++ '{' :: (inside ++ '}' :: tail)) =
        Text.trimStart head ++ '{' :: (inside ++ '}' :: Text.trimEnd tail) := by
      rw [Text.trim_append_cons hopen, Text.trimEnd_append_cons hclose]
    refine ⟨inside, fun c _ hc => hc.elim (fun he => he ▸ hbreak) id, rfl, ?_⟩
    rw [Text.splitOn_eq_singleton hline, List.singleton_append, joinBracedAt?_append,
      joinBraced_of_mem (by simp [htrim]), htrim, List.length_singleton]

end ApiCoverage
