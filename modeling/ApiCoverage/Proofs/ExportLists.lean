/-
Export lists survive layout: whatever white space stands around the words, and
wherever the list is broken into lines inside its braces, the statement is found on its
first line, joined to its last one, and read as the names that were written.
-/
import ApiCoverage.Proofs.SpecifierLists
import ApiCoverage.Proofs.Statements

namespace ApiCoverage

open Text (IsBlanks IsGap IsWord Spaced)

namespace Export

/-! ## How a list is written -/

/-- What comes before the opening brace: `export`, or `export type`. -/
inductive Opening : (typeOnly : Bool) → Text → Prop
  | values {lead gap : Text} (hlead : IsBlanks lead) (hgap : IsGap gap) :
      Opening false (lead ++ (String.toList "export" ++ gap))
  | types {lead gap gap' : Text} (hlead : IsBlanks lead) (hgap : IsGap gap) (hgap' : IsGap gap') :
      Opening true (lead ++ (String.toList "export" ++ (gap ++ (String.toList "type" ++ gap'))))

/-- The end of a statement, with or without a semicolon. -/
inductive Ending : Text → Prop
  | blanks {text : Text} (h : IsBlanks text) : Ending text
  | semicolon {before after : Text} (hbefore : IsBlanks before) (hafter : IsBlanks after) :
      Ending (before ++ ';' :: after)

/-- What comes after the closing brace: the module that the names are from, if there is one,
and the end. -/
inductive Closing : (source : Option Text) → Text → Prop
  | alone {tail : Text} (htail : Ending tail) : Closing none tail
  | source {before gap source tail : Text} {left right : Char} (hbefore : IsBlanks before) (hgap : IsGap gap)
      (hleft : Lexeme.isQuote left = true) (hright : Lexeme.isQuote right = true) (hne : source ≠ [])
      (hsource : ∀ c ∈ source, Lexeme.isQuote c = false) (htail : Ending tail) :
      Closing (some source) (before ++ (String.toList "from" ++ (gap ++ left :: (source ++ right :: tail))))

/-- The statement that exports a list. -/
def ofList (typeOnly : Bool) (specifiers : List Specifier) : (source : Option Text) → Export
  | none => list typeOnly specifiers
  | some source => reExport typeOnly specifiers source

/-! ## How it is read -/

theorem braced?_append {inside : Text} (h : '}' ∉ inside) (tail : Text) :
    braced? ('{' :: (inside ++ '}' :: tail)) = some (inside, tail) := by
  have hnot : ∀ c ∈ inside, (c != '}') = true := fun c hc => bne_iff_ne.2 fun he => h (he ▸ hc)
  have htake := Text.takeWhile_append_cons hnot (bne_self_eq_false '}') tail
  have hdrop := Text.dropWhile_append_cons hnot (bne_self_eq_false '}') tail
  simp only [braced?, htake, hdrop]

theorem Opening.not_mem_brace {typeOnly : Bool} {head : Text} (h : Opening typeOnly head) : '}' ∉ head := by
  have hbrace : isBlank '}' = false := by decide
  have hexport : '}' ∉ String.toList "export" := by decide
  have htype : '}' ∉ String.toList "type" := by decide
  cases h with
  | values hlead hgap =>
    simp only [List.mem_append, not_or]
    exact ⟨hlead.not_mem hbrace, hexport, hgap.blanks.not_mem hbrace⟩
  | types hlead hgap hgap' =>
    simp only [List.mem_append, not_or]
    exact ⟨hlead.not_mem hbrace, hexport, hgap.blanks.not_mem hbrace, htype, hgap'.blanks.not_mem hbrace⟩

theorem Opening.exists_word? {typeOnly : Bool} {head : Text} (h : Opening typeOnly head) (more : Text) :
    ∃ rest, Lexeme.word? "export" (Text.trimStart head ++ '{' :: more) = some rest ∧
      Lexeme.word? "*" rest = none ∧ Lexeme.optional "type" rest = (typeOnly, '{' :: more) := by
  have hbrace : isBlank '{' = false := by decide
  have hexport : IsWord "export" := ⟨by decide, not_isBlank_of_all rfl⟩
  cases h with
  | values hlead hgap =>
    refine ⟨'{' :: more, ?_, rfl, Lexeme.optional_of_none rfl⟩
    rw [hlead.trimStart_append, hexport.trimStart_append, List.append_assoc]
    exact Lexeme.word?_append_gap hgap hbrace "export" more
  | @types lead gap gap' hlead hgap hgap' =>
    refine ⟨String.toList "type" ++ (gap' ++ '{' :: more), ?_, rfl, Lexeme.optional_of_some ?_⟩
    · rw [hlead.trimStart_append, hexport.trimStart_append]
      simp only [List.append_assoc]
      exact Lexeme.word?_append_gap hgap (show isBlank 't' = false by decide) "export" _
    · exact Lexeme.word?_append_gap hgap' hbrace "type" more

theorem Closing.fromClause? {source : Option Text} {tail : Text} (h : Closing source tail) :
    Lexeme.fromClause? (Text.trimStart (Text.trimEnd tail)) = source := by
  cases h with
  | alone htail =>
    cases htail with
    | blanks h =>
      rw [h.trimEnd]
      rfl
    | semicolon hbefore hafter =>
      rw [Text.trimEnd_append_cons (by decide), hbefore.trimStart_append, Text.trimStart_cons (by decide)]
      rfl
  | @source before gap source tail left right hbefore hgap hleft hright hne hsource htail =>
    have hassoc : ∀ tail, before ++ (String.toList "from" ++ (gap ++ left :: (source ++ right :: tail))) =
        (before ++ (String.toList "from" ++ (gap ++ left :: source))) ++ right :: tail := by simp
    have hfrom : IsWord "from" := ⟨by decide, not_isBlank_of_all rfl⟩
    rw [hassoc, Text.trimEnd_append_cons (Lexeme.isBlank_of_isQuote hright), ← hassoc, hbefore.trimStart_append,
      hfrom.trimStart_append, Lexeme.fromClause?, Lexeme.word?_append_gap hgap (Lexeme.isBlank_of_isQuote hleft),
      Option.bind_some, Lexeme.quoted?_append hleft hright hne hsource]

/-- A list in braces is read, whatever follows it. -/
theorem parse?_of_opening {typeOnly : Bool} {head inside : Text} (h : Opening typeOnly head) (hinside : '}' ∉ inside)
    (tail : Text) :
    parse? (Text.trimStart head ++ '{' :: (inside ++ '}' :: tail)) =
      some (ofList typeOnly (Specifier.parseList inside) (Lexeme.fromClause? (Text.trimStart tail))) := by
  obtain ⟨rest, hword, hstar, hoptional⟩ := h.exists_word? (inside ++ '}' :: tail)
  have hstarts : Text.startsWith "export" (Text.trimStart head ++ '{' :: (inside ++ '}' :: tail)) = true := by
    obtain ⟨middle, htext, _⟩ := Lexeme.word?_eq_some_iff.1 hword
    rw [Text.startsWith, Text.after?_eq_some_iff.2 htext, Option.isSome_some]
  have hstar? : star? (Text.trimStart head ++ '{' :: (inside ++ '}' :: tail)) = none := by
    simp only [star?, hword, hstar, Option.bind_eq_bind, Option.bind_some, Option.bind_none]
  have hlist : list? (Text.trimStart head ++ '{' :: (inside ++ '}' :: tail)) =
      some (ofList typeOnly (Specifier.parseList inside) (Lexeme.fromClause? (Text.trimStart tail))) := by
    simp only [list?, hword, hoptional, braced?_append hinside, Option.bind_eq_bind, Option.bind_some]
    cases Lexeme.fromClause? (Text.trimStart tail) with
    | none => rfl
    | some source => rfl
  rw [parse?, if_pos hstarts, hstar?, hlist, Option.none_or, Option.some_or]

theorem Opening.opensList {typeOnly : Bool} {head : Text} (h : Opening typeOnly head) (more : Text) :
    opensList (Text.trim (head ++ '{' :: more)) = true := by
  obtain ⟨rest, hword, _, hoptional⟩ := h.exists_word? (Text.trimEnd more)
  rw [Text.trim_append_cons (by decide)]
  exact opensList_of_word? hword (congrArg Prod.snd hoptional)

/-- **Export lists survive layout.** For any way to write an export list, broken into
lines inside its braces and into no more than can be joined, the first line is seen to open a
list, the lines that are joined are those of the statement, and what they are read
as is the list: its names in order, its module and whether it is for types only. -/
theorem parse?_of_layout {typeOnly : Bool} {specifiers : List Specifier} {source : Option Text}
    {head inside tail : Text} (hhead : Opening typeOnly head) (hinside : Specifier.Written specifiers inside)
    (htail : Closing source tail) (hfirst : '\n' ∉ head) (hlast : '\n' ∉ tail)
    (hlimit : inside.count '\n' ≤ lookahead) (before after : List Text) :
    ∃ first rest text, Text.splitOn '\n' (head ++ '{' :: (inside ++ '}' :: tail)) = first :: rest ∧
      opensList (Text.trim first) = true ∧
      joinBracedAt? (before ++ (first :: rest ++ after)) before.length = some (text, (first :: rest).length) ∧
      parse? text = some (ofList typeOnly specifiers source) := by
  obtain ⟨joined, hmem, hcells, hjoin⟩ :=
    exists_joinBracedAt?_splitOn hhead.not_mem_brace hinside.not_mem_brace hfirst hlast hlimit before after
  have hjoined : '}' ∉ joined := hmem '}' (by decide) (.inr hinside.not_mem_brace)
  have hnames : Specifier.parseList joined = specifiers := by
    rw [Specifier.parseList_eq, hcells, ← Specifier.parseList_eq, hinside.parseList]
  obtain ⟨row, rows, hrows⟩ := List.exists_cons_of_ne_nil (Text.splitOn_ne_nil '\n' (inside ++ '}' :: tail))
  have hsplit := splitOn_opening hfirst hrows
  rw [hsplit] at hjoin
  refine ⟨_, _, _, hsplit, hhead.opensList row, hjoin, ?_⟩
  rw [parse?_of_opening hhead hjoined, hnames, htail.fromClause?]

/-- Between the braces of a list over six lines, with names that are words of the grammar
and a blank line. -/
def brokenList : Text := "\n  type as as from ,\n\ntypeX\n\u2003as type, from,\n"

/-- The entries are `as` under the name `from`, `typeX` under the name `type`, and `from`. -/
theorem parse?_brokenList :
    Opening true "\texport  type\u3000" ∧
    Specifier.Written [⟨"as", "from"⟩, ⟨"typeX", "type"⟩, ⟨"from", "from"⟩] brokenList ∧
    Closing (some "./m\x7d") " from \x22./m\x7d' ; " ∧ brokenList.count '\n' ≤ lookahead ∧
    Export.opensList (Text.trim "\texport  type\u3000\x7b") = true ∧
    ∃ text, joinBracedAt? ["", "\texport  type\u3000\x7b", "  type as as from ,", "", "typeX", "\u2003as type, from,",
        "\x7d from \x22./m\x7d' ; ", "\x7d"] 1 = some (text, 6) ∧
      Export.parse? text = some (.reExport true [⟨"as", "from"⟩, ⟨"typeX", "type"⟩, ⟨"from", "from"⟩] "./m\x7d") := by
  have blanks : ∀ text : Text, text.all isBlank = true → IsBlanks text := fun _ h => List.all_eq_true.1 h
  have gap : ∀ text : Text, text ≠ [] → text.all isBlank = true → IsGap text := fun text hne h => ⟨hne, blanks text h⟩
  have empty : IsBlanks [] := blanks [] rfl
  have one : IsGap [' '] := gap [' '] (by decide) rfl
  -- The kernel compares the texts; the elaborator takes long to evaluate a string.
  have respell : ∀ {p : Text → Prop} {text other : Text}, p text → text = other → p other := fun h he => he ▸ h
  have hhead : Opening true "\texport  type\u3000" :=
    respell (.types (blanks "\t" rfl) (gap "  " (by decide) rfl) (gap "\u3000" (by decide) rfl)) (by decide +kernel)
  have hinside : Specifier.Written [⟨"as", "from"⟩, ⟨"typeX", "type"⟩, ⟨"from", "from"⟩] brokenList := by
    have hfrom : Specifier.IsName "from" := Specifier.isName_of_name? (by decide +kernel)
    have hname : Specifier.IsName "typeX" := Specifier.isName_of_name? (by decide +kernel)
    have hfirst : Spaced ["type", "as", "as", "from"] _ :=
      .cons (blanks "\n  " rfl) one (.cons empty one (.cons empty one (.last empty one.blanks)))
    have hsecond : Spaced ["typeX", "as", "type"] _ :=
      .cons (blanks "\n\n" rfl) (gap "\n\u2003" (by decide) rfl) (.cons empty one (.last empty empty))
    have hthird : Spaced ["from"] _ := .last one.blanks empty
    have hentries : Specifier.Written [⟨"as", "from"⟩, ⟨"typeX", "type"⟩, ⟨"from", "from"⟩] _ :=
      .cons ⟨Specifier.isName_as, hfrom, by decide⟩ (.type (.renamed "as" "from")) hfirst
        (.cons ⟨hname, Specifier.isName_type, by decide⟩ (.value (.renamed "typeX" "type")) hsecond
          (.cons ⟨hfrom, hfrom, by decide⟩ (.value (.same "from")) hthird (.blanks (blanks "\n" rfl))))
    exact respell hentries (by decide +kernel)
  have htail : Closing (some "./m\x7d") " from \x22./m\x7d' ; " := by
    have hend : Ending _ := .semicolon one.blanks one.blanks
    have hplain : (String.toList "./m\x7d").all (!Lexeme.isQuote ·) = true := by decide +kernel
    have hsource : ∀ c ∈ String.toList "./m\x7d", Lexeme.isQuote c = false := fun c hm => by
      simpa using List.all_eq_true.1 hplain c hm
    have hclosing : Closing (some "./m\x7d") _ :=
      .source one.blanks one (show Lexeme.isQuote '\x22' = true from rfl) (show Lexeme.isQuote '\'' = true from rfl)
        (by decide) hsource hend
    exact respell hclosing (by decide +kernel)
  have hlines : Text.splitOn '\n' (String.toList "\texport  type\u3000" ++ '{' :: (brokenList ++ '}' ::
      String.toList " from \x22./m\x7d' ; ")) = ["\texport  type\u3000\x7b", "  type as as from ,", "", "typeX",
        "\u2003as type, from,", "\x7d from \x22./m\x7d' ; "] := by decide +kernel
  have hlimit : brokenList.count '\n' ≤ lookahead := by decide +kernel
  obtain ⟨first, rest, text, hsplit, hopens, hjoin, hparse⟩ :=
    parse?_of_layout hhead hinside htail (by decide +kernel) (by decide +kernel) hlimit [[]] ["\x7d"]
  obtain ⟨rfl, rfl⟩ := List.cons.inj (hlines.symm.trans hsplit)
  exact ⟨hhead, hinside, htail, hlimit, hopens, text, hjoin, hparse⟩

end Export

end ApiCoverage
