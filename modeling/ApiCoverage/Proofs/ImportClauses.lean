/-
Import statements survive layout: whatever white space stands around the words, and
wherever the list is broken into lines inside its braces, the statement is found on its
first line, joined to its last one, and read as the names that were written.

The clause with the names ends where blanks, `from` and a quotation mark follow. Names hold
no quotation mark, so that can only be the `from` before the module, also where names
are called `from`, `as` or `type`.
-/
import ApiCoverage.Proofs.SpecifierLists
import ApiCoverage.Statement.Import

namespace ApiCoverage

open Text (IsBlanks IsGap IsWord Spaced)

namespace Import

open Lexeme (isQuote IsIdentifier)

/-! ## How an import is written -/

/-- A name that an import can bind; identifiers are such names. -/
structure IsName (name : Text) : Prop extends Specifier.IsName name where
  opening : '{' ∉ name
  star : '*' ∉ name
  quotes : ∀ c ∈ name, isQuote c = false

/-- What comes before the clause: `import`, or `import type`. -/
inductive Opening : Text → Prop
  | values {lead gap : Text} (hlead : IsBlanks lead) (hgap : IsGap gap) :
      Opening (lead ++ (String.toList "import" ++ gap))
  | types {lead gap gap' : Text} (hlead : IsBlanks lead) (hgap : IsGap gap) (hgap' : IsGap gap') :
      Opening (lead ++ (String.toList "import" ++ (gap ++ (String.toList "type" ++ gap'))))

/-- A default name and a comma, or nothing. -/
inductive Lead : List Binding → Text → Prop
  | none : Lead [] []
  | default {name before after : Text} (hname : IsName name) (hne : name ≠ "type") (hbefore : IsBlanks before)
      (hafter : IsBlanks after) : Lead [.default name] (name ++ (before ++ ',' :: after))

/-- A clause without braces: a default name, or a name for the whole module, which a
default name may come before. -/
inductive Head : List Binding → Text → Prop
  | default {name : Text} (hname : IsName name) (hne : name ≠ "type") : Head [.default name] name
  | whole {bindings : List Binding} {lead blanks gap name : Text} (hlead : Lead bindings lead)
      (hblanks : IsBlanks blanks) (hgap : IsGap gap) (hname : IsName name) :
      Head (bindings ++ [.whole name]) (lead ++ '*' :: (blanks ++ (String.toList "as" ++ (gap ++ name))))

/-- What comes after the clause: the module, and then anything. -/
inductive Closing (source : Text) : Text → Prop
  | intro {gap gap' rest : Text} {left right : Char} (hgap : IsGap gap) (hgap' : IsGap gap')
      (hleft : isQuote left = true) (hright : isQuote right = true) (hne : source ≠ [])
      (hsource : ∀ c ∈ source, isQuote c = false) :
      Closing source (gap ++ (String.toList "from" ++ (gap' ++ left :: (source ++ right :: rest))))

/-- The binding of an entry in braces. -/
def ofSpecifier (specifier : Specifier) : Binding := .named specifier.declared specifier.exported

/-- The text of an import statement, broken into lines inside its braces only and into no
more than can be joined. -/
inductive Written : Import → Text → Prop
  | plain {source opening head closing : Text} {bindings : List Binding} (hopening : Opening opening)
      (hhead : Head bindings head) (hclosing : Closing source closing)
      (hline : '\n' ∉ opening ++ (head ++ closing)) : Written ⟨source, bindings⟩ (opening ++ (head ++ closing))
  | braced {source opening lead inside closing : Text} {bindings : List Binding} {specifiers : List Specifier}
      (hopening : Opening opening) (hlead : Lead bindings lead) (hinside : Specifier.Written specifiers inside)
      (hnames : ∀ specifier ∈ specifiers, IsName specifier.declared ∧ IsName specifier.exported)
      (hclosing : Closing source closing) (hfirst : '\n' ∉ opening ++ lead) (hlast : '\n' ∉ closing)
      (hlimit : inside.count '\n' ≤ lookahead) :
      Written ⟨source, bindings ++ specifiers.map ofSpecifier⟩
        (opening ++ lead ++ '{' :: (inside ++ '}' :: closing))

/-- An identifier is a name that an import can bind. -/
theorem isName_of_identifier {name : Text} (h : IsIdentifier name) : IsName name := by
  have hne : ∀ c, isNameChar c = false → c ∉ name := fun c hc hm => by simp [h.nameChars c hm] at hc
  refine ⟨Specifier.isName_of_identifier h, hne '{' (by decide +kernel), hne '*' (by decide +kernel), fun c hc => ?_⟩
  by_contra hquote
  simp only [isQuote, Bool.not_eq_false, Bool.or_eq_true, beq_iff_eq] at hquote
  rcases hquote with rfl | rfl
  · exact hne _ (by decide +kernel) hc
  · exact hne _ (by decide +kernel) hc

/-! ## The clause ends at the module -/

variable {source opening closing lead head clause : Text} {bindings : List Binding}

theorem quotes_of_isBlanks {text : Text} (h : IsBlanks text) : ∀ c ∈ text, isQuote c = false := by
  intro c hc
  by_contra hquote
  have hsolid := Lexeme.isBlank_of_isQuote (Bool.not_eq_false _ ▸ hquote)
  rw [h c hc] at hsolid
  cases hsolid

theorem isWord_from : IsWord "from" := ⟨by decide, not_isBlank_of_all rfl⟩

theorem quotes_of_all {text : Text} (h : text.all (!isQuote ·) = true) : ∀ c ∈ text, isQuote c = false := by
  intro c hc
  simpa using List.all_eq_true.1 h c hc

theorem quotes_from : ∀ c ∈ String.toList "from", isQuote c = false := quotes_of_all rfl

/-- Texts are the same up to their first quotation marks. -/
theorem eq_of_append_quote {before before' after after' : Text} {mark mark' : Char}
    (hbefore : ∀ c ∈ before, isQuote c = false) (hbefore' : ∀ c ∈ before', isQuote c = false)
    (hmark : isQuote mark = true) (hmark' : isQuote mark' = true)
    (h : before ++ mark :: after = before' ++ mark' :: after') : before = before' := by
  have htake := congrArg (List.takeWhile (!isQuote ·)) h
  rwa [Text.takeWhile_append_cons (by simpa using hbefore) (by simp [hmark]),
    Text.takeWhile_append_cons (by simpa using hbefore') (by simp [hmark'])] at htake

theorem Closing.fromClause? (h : Closing source closing) :
    (Lexeme.blanks? closing).bind Lexeme.fromClause? = some source := by
  obtain ⟨hgap, hgap', hleft, hright, hne, hsource⟩ := h
  rw [Lexeme.blanks?_append_gap hgap, isWord_from.trimStart_append, Option.bind_some, Lexeme.fromClause?,
    Lexeme.word?_append_gap hgap' (Lexeme.isBlank_of_isQuote hleft), Option.bind_some,
    Lexeme.quoted?_append hleft hright hne hsource]

/-- What blanks and a `from` clause have before their quotation mark. -/
theorem exists_of_fromClause? {text : Text} (h : (Lexeme.blanks? text).bind Lexeme.fromClause? = some source) :
    ∃ before after mark rest, IsBlanks before ∧ IsBlanks after ∧ isQuote mark = true ∧
      text = before ++ (String.toList "from" ++ after) ++ mark :: rest := by
  obtain ⟨body, hbody, h⟩ := Option.bind_eq_some_iff.1 h
  obtain ⟨ahead, hahead, hquoted⟩ := Option.bind_eq_some_iff.1 h
  obtain ⟨tail, htail, hblanks⟩ := Lexeme.word?_eq_some_iff.1 hahead
  obtain ⟨before, hbefore, htext⟩ := Text.exists_trimStart text
  obtain ⟨after, hafter, hrest⟩ := Text.exists_trimStart tail
  rw [← (Lexeme.blanks?_eq_some_iff.1 hbody).2, htail] at htext
  rw [← (Lexeme.blanks?_eq_some_iff.1 hblanks).2] at hrest
  cases ahead with
  | nil => cases hquoted
  | cons mark rest =>
    refine ⟨before, after, mark, rest, hbefore, hafter, ?_, by rw [htext, hrest]; simp⟩
    simp only [Lexeme.quoted?] at hquoted
    split at hquoted
    next hcond =>
      simp only [Bool.and_eq_true] at hcond
      exact hcond.1.1
    · cases hquoted

/-- No `from` clause starts before a word that the module's one comes after. -/
theorem Closing.fromClause?_append (h : Closing source closing) {text : Text}
    (hquotes : ∀ c ∈ text, isQuote c = false) (hwords : Text.words text ≠ []) :
    (Lexeme.blanks? (text ++ closing)).bind Lexeme.fromClause? = none := by
  obtain @⟨gap, gap', rest, left, right, hgap, hgap', hleft, hright, hne, hsource⟩ := h
  rw [Option.eq_none_iff_forall_ne_some]
  intro other hother
  obtain ⟨before, after, mark, tail, hbefore, hafter, hmark, htext⟩ := exists_of_fromClause? hother
  have hassoc : text ++ (gap ++ (String.toList "from" ++ (gap' ++ left :: (source ++ right :: rest)))) =
      text ++ (gap ++ (String.toList "from" ++ gap')) ++ left :: (source ++ right :: rest) := by simp
  -- Up to the mark both readings have the same words, and the second has `from` alone.
  have hsame : text ++ (gap ++ (String.toList "from" ++ gap')) = before ++ (String.toList "from" ++ after) := by
    refine eq_of_append_quote ?_ ?_ hleft hmark (hassoc ▸ htext)
    · simp only [List.forall_mem_append]
      exact ⟨hquotes, quotes_of_isBlanks hgap.blanks, quotes_from, quotes_of_isBlanks hgap'.blanks⟩
    · simp only [List.forall_mem_append]
      exact ⟨quotes_of_isBlanks hbefore, quotes_from, quotes_of_isBlanks hafter⟩
  have hlist := congrArg Text.words hsame
  obtain ⟨blank, blanks, rfl, hblank, hblanks⟩ := hgap.exists_cons
  rw [List.cons_append, Text.words_append_cons hblank, hblanks.words_append, hgap'.blanks.append_words,
    hbefore.words_append, hafter.append_words, isWord_from.words] at hlist
  exact hwords (by simpa using hlist)

/-! ## Clauses -/

/-- What every clause is like: it is a text on one line, from one character that is no blank
to another, without quotation marks, and its first word is not `type`. -/
structure IsClause (clause : Text) : Prop where
  first : ∃ c rest, clause = c :: rest ∧ isBlank c = false
  last : ∀ c ∈ clause.getLast?, isBlank c = false
  quotes : ∀ c ∈ clause, isQuote c = false
  oneLine : '\n' ∉ clause
  untyped : clause.takeWhile Specifier.isEntryChar ≠ "type"

/-- **A clause is read up to its end.** -/
theorem clause?_append (hclosing : Closing source closing) (hne : clause ≠ [])
    (hlast : ∀ c ∈ clause.getLast?, isBlank c = false) (hquotes : ∀ c ∈ clause, isQuote c = false)
    (hline : '\n' ∉ clause) : clause? (clause ++ closing) = some (clause, source) := by
  induction clause with
  | nil => exact absurd rfl hne
  | cons c rest ih =>
    obtain ⟨hc, hrest⟩ := not_or.1 (List.mem_cons.not.1 hline)
    rw [List.cons_append, clause?, if_neg (by simpa using fun he => hc he.symm)]
    cases rest with
    | nil => rw [List.nil_append, hclosing.fromClause?]
    | cons d rest =>
      rw [List.getLast?_cons_cons] at hlast
      have hwords : Text.words (d :: rest) ≠ [] := fun he => by
        have hblanks := Text.isBlanks_of_words he
        have hlast := hlast _ (List.getLast?_eq_getLast_of_ne_nil (List.cons_ne_nil d rest))
        rw [hblanks _ (List.getLast_mem _)] at hlast
        cases hlast
      have hquotes := (List.forall_mem_cons.1 hquotes).2
      rw [hclosing.fromClause?_append hquotes hwords, ih (List.cons_ne_nil d rest) hlast hquotes hrest]
      rfl

theorem IsClause.word?_type (h : IsClause clause) (hclosing : Closing source closing) :
    Lexeme.word? "type" (clause ++ closing) = none := by
  obtain ⟨hgap, _⟩ := hclosing
  obtain ⟨blank, blanks, rfl, hblank, _⟩ := hgap.exists_cons
  have hentry : ∀ {c}, isBlank c = true → Specifier.isEntryChar c = false := fun hc => by
    simp [Specifier.isEntryChar, hc]
  rw [Option.eq_none_iff_forall_ne_some]
  intro rest hrest
  obtain ⟨tail, htext, htail⟩ := Lexeme.word?_eq_some_iff.1 hrest
  obtain ⟨⟨c, others, rfl, hc⟩, _⟩ := Lexeme.blanks?_eq_some_iff.1 htail
  have hfirst := congrArg (List.takeWhile Specifier.isEntryChar) htext
  rw [Text.takeWhile_append_cons (List.all_eq_true.1 rfl) (hentry hc), List.cons_append,
    List.takeWhile_append] at hfirst
  apply h.untyped
  split at hfirst
  next hall =>
    have hself := List.takeWhile_prefix Specifier.isEntryChar |>.eq_of_length hall
    rw [List.takeWhile_cons_of_neg (by simp [hentry hblank]), List.append_nil] at hfirst
    rw [hself, hfirst]
  next => exact hfirst

/-! ## The statement around the clause -/

theorem Opening.exists_import (h : Opening opening) :
    ∃ rest, Text.trimStart opening = String.toList "import" ++ rest := by
  have himport : IsWord "import" := ⟨by decide, not_isBlank_of_all rfl⟩
  cases h with
  | values hlead hgap => exact ⟨_, by rw [hlead.trimStart_append, himport.trimStart_append]⟩
  | types hlead hgap hgap' => exact ⟨_, by rw [hlead.trimStart_append, himport.trimStart_append]⟩

theorem Opening.trimStart_append (h : Opening opening) (more : Text) :
    Text.trimStart (opening ++ more) = Text.trimStart opening ++ more := by
  obtain ⟨rest, hrest⟩ := h.exists_import
  exact Text.trimStart_append (by rw [hrest]; simp) more

/-- The clause starts after `import` and `type`, with all their blanks. -/
theorem Opening.split? (h : Opening opening) {body : Text} {found : Text × Text}
    (hfirst : ∃ c rest, body = c :: rest ∧ isBlank c = false) (htype : Lexeme.word? "type" body = none)
    (hclause : clause? body = some found) : split? (Text.trimStart opening ++ body) = some found := by
  obtain ⟨c, rest, rfl, hc⟩ := hfirst
  have himport : IsWord "import" := ⟨by decide, not_isBlank_of_all rfl⟩
  have hcuts : ∀ {gap text : Text}, IsGap gap → Text.trimStart text = text →
      ∃ others, Lexeme.blankCuts (gap ++ text) = text :: others := fun {gap text} hgap htext =>
    List.head?_eq_some_iff.1 (by rw [Lexeme.head?_blankCuts, Lexeme.blanks?_append_gap hgap, htext])
  have hbody : Text.trimStart (c :: rest) = c :: rest := Text.trimStart_cons hc rest
  cases h with
  | @values lead gap hlead hgap =>
    obtain ⟨others, hothers⟩ := hcuts hgap hbody
    have hstarts : clauseStarts (c :: rest) = [c :: rest] := by
      unfold clauseStarts
      split
      next tail htail =>
        have hnil : Lexeme.blankCuts tail = [] := by
          rw [← List.head?_eq_none_iff, Lexeme.head?_blankCuts]
          rwa [Lexeme.word?, htail, Option.bind_some] at htype
        rw [hnil, List.nil_append]
      next => rfl
    rw [hlead.trimStart_append, himport.trimStart_append, List.append_assoc, Import.split?,
      Text.after?_eq_some_iff.2 rfl]
    simp [hothers, hstarts, hclause]
  | @types lead gap gap' hlead hgap hgap' =>
    have htyped : IsWord "type" := ⟨by decide, not_isBlank_of_all rfl⟩
    obtain ⟨others, hothers⟩ := hcuts hgap (htyped.trimStart_append (gap' ++ c :: rest))
    obtain ⟨starts, hstarts⟩ := hcuts hgap' hbody
    have hafter : Text.after? "type" (String.toList "type" ++ (gap' ++ c :: rest)) = some (gap' ++ c :: rest) :=
      Text.after?_eq_some_iff.2 rfl
    have hclauses : clauseStarts (String.toList "type" ++ (gap' ++ c :: rest)) =
        (c :: rest) :: (starts ++ [String.toList "type" ++ (gap' ++ c :: rest)]) := by
      simp only [clauseStarts, hafter, hstarts, List.cons_append]
    rw [hlead.trimStart_append, himport.trimStart_append]
    simp only [List.append_assoc]
    rw [Import.split?, Text.after?_eq_some_iff.2 rfl]
    simp only [Option.bind_eq_bind, Option.bind_some, hothers, List.findSome?_cons, hclauses, hclause]

theorem Closing.trimEnd_append (h : Closing source closing) (before : Text) :
    Text.trimEnd (before ++ closing) = before ++ Text.trimEnd closing := by
  obtain @⟨gap, gap', rest, left, right, hgap, hgap', hleft, hright, hne, hsource⟩ := h
  have hassoc : ∀ front, front ++ (gap ++ (String.toList "from" ++ (gap' ++ left :: (source ++ right :: rest)))) =
      front ++ (gap ++ (String.toList "from" ++ (gap' ++ left :: source))) ++ right :: rest := by simp
  have hnil := hassoc []
  rw [List.nil_append, List.nil_append] at hnil
  have hsolid := Lexeme.isBlank_of_isQuote hright
  rw [hassoc, Text.trimEnd_append_cons hsolid, hnil, Text.trimEnd_append_cons hsolid]
  simp

/-- What follows the module does not matter. -/
theorem Closing.trimEnd (h : Closing source closing) (more : Text) :
    Closing source (Text.trimEnd closing ++ more) := by
  obtain @⟨gap, gap', rest, left, right, hgap, hgap', hleft, hright, hne, hsource⟩ := h
  have hassoc : ∀ tail, gap ++ (String.toList "from" ++ (gap' ++ left :: (source ++ right :: tail))) =
      gap ++ (String.toList "from" ++ (gap' ++ left :: source)) ++ right :: tail := by simp
  rw [hassoc, Text.trimEnd_append_cons (Lexeme.isBlank_of_isQuote hright), List.append_assoc, List.cons_append,
    ← hassoc]
  exact .intro hgap hgap' hleft hright hne hsource

theorem parse?_of_clause (hopening : Opening opening) (hclause : IsClause clause) (hclosing : Closing source closing) :
    parse? (Text.trimStart opening ++ (clause ++ closing)) = some ⟨source, clauseBindings clause⟩ := by
  obtain ⟨c, rest, hfirst, hc⟩ := hclause.first
  have htrim : Text.trim clause = clause := Text.trim_eq_self (by simpa [hfirst] using hc) hclause.last
  have hread := clause?_append hclosing (by simp [hfirst]) hclause.last hclause.quotes hclause.oneLine
  have hsplit := hopening.split? ⟨c, rest ++ closing, by simp [hfirst], hc⟩ (hclause.word?_type hclosing) hread
  simp only [parse?, hsplit, Option.map_some, htrim]

/-! ## The bindings of a clause -/

/-- The binding of a part outside the braces, with the blanks around it. -/
def partBinding? (part : Text) : Option Binding :=
  if (Text.trim part).isEmpty then none else headBinding? (Text.trim part)

theorem headBindings_eq (head : Text) : headBindings head = (Text.splitOn ',' head).filterMap partBinding? := by
  rw [headBindings, List.filterMap_map]
  rfl

theorem partBinding?_append_blanks {blanks : Text} (h : IsBlanks blanks) (part : Text) :
    partBinding? (blanks ++ part) = partBinding? part := by
  rw [partBinding?, h.trim_append, partBinding?]

theorem partBinding?_default {name blanks : Text} (h : IsName name) (hblanks : IsBlanks blanks) :
    partBinding? (name ++ blanks) = some (.default name) := by
  have hempty : name.isEmpty = false := by simpa using h.ne
  have hstar : ∀ rest, name = '*' :: rest → False := fun rest he => h.star (by simp [he])
  rw [partBinding?, h.toIsWord.trim_append_blanks hblanks, hempty, if_neg (by decide), headBinding?]
  exact hstar

theorem partBinding?_whole {blanks gap name : Text} (hblanks : IsBlanks blanks) (hgap : IsGap gap) (h : IsName name) :
    partBinding? ('*' :: (blanks ++ (String.toList "as" ++ (gap ++ name)))) = some (.whole name) := by
  have has : IsWord "as" := ⟨by decide, not_isBlank_of_all rfl⟩
  have htrim : Text.trim ('*' :: (blanks ++ (String.toList "as" ++ (gap ++ name)))) =
      '*' :: (blanks ++ (String.toList "as" ++ (gap ++ name))) := by
    apply Text.trim_eq_self
    · simp [show isBlank '*' = false by decide]
    · have hassoc : '*' :: (blanks ++ (String.toList "as" ++ (gap ++ name))) =
          '*' :: (blanks ++ (String.toList "as" ++ gap)) ++ name := by simp
      rw [hassoc, List.getLast?_append_of_ne_nil _ h.ne]
      exact fun c hc => h.solid c (List.mem_of_mem_getLast? hc)
  have hname : Text.trim (gap ++ name) = name := by
    rw [hgap.blanks.trim_append, h.toIsWord.trim]
  have hempty : name.isEmpty = false := by simpa using h.ne
  rw [partBinding?, htrim, List.isEmpty_cons, if_neg (by decide)]
  simp only [headBinding?, hblanks.trimStart_append, has.trimStart_append, Text.after?_eq_some_iff.2 rfl,
    Option.getD_some, hname, hempty, Bool.false_eq_true, if_false]

/-- The parts of a clause outside its braces: a default name and what comes after it. -/
theorem Lead.headBindings_append (h : Lead bindings lead) {part : Text} (hcomma : ',' ∉ part) :
    headBindings (lead ++ part) = bindings ++ (partBinding? part).toList := by
  have hblank : isBlank ',' = false := by decide
  have hpart : ∀ {part : Text}, ',' ∉ part → headBindings part = (partBinding? part).toList := fun {part} hp => by
    rw [headBindings_eq, Text.splitOn_eq_singleton hp, List.filterMap_cons, List.filterMap_nil]
    cases partBinding? part with
    | none => rfl
    | some binding => rfl
  cases h with
  | none => rw [List.nil_append, hpart hcomma, List.nil_append]
  | @default name before after hname hne hbefore hafter =>
    have hfirst : ',' ∉ name ++ before := by simp [hname.comma, hbefore.not_mem hblank]
    have hassoc : name ++ (before ++ ',' :: after) ++ part = (name ++ before) ++ ',' :: (after ++ part) := by simp
    have hrest : ',' ∉ after ++ part := by simp [hafter.not_mem hblank, hcomma]
    rw [hassoc, headBindings_eq, Text.splitOn_append_cons hfirst,
      List.filterMap_cons_some (partBinding?_default hname hbefore), ← headBindings_eq, hpart hrest,
      partBinding?_append_blanks hafter, List.singleton_append]

theorem Head.headBindings (h : Head bindings head) : headBindings head = bindings := by
  cases h with
  | @default name hname hne =>
    have hpart := partBinding?_default hname (show IsBlanks [] by simp [IsBlanks])
    rw [List.append_nil] at hpart
    have hbindings := Lead.none.headBindings_append hname.comma
    rwa [hpart] at hbindings
  | @whole bindings lead blanks gap name hlead hblanks hgap hname =>
    have hblank : isBlank ',' = false := by decide
    have hcomma : ',' ∉ '*' :: (blanks ++ (String.toList "as" ++ (gap ++ name))) := by
      simp [hblanks.not_mem hblank, hgap.blanks.not_mem hblank, hname.comma]
    rw [hlead.headBindings_append hcomma, partBinding?_whole hblanks hgap hname, Option.toList_some]

/-! ## Clauses as they are written -/

/-- No quotation mark and no brace. -/
def isPlain (c : Char) : Bool := !isQuote c && c != '{' && c != '}'

theorem isPlain_of_isBlanks {text : Text} (h : IsBlanks text) : ∀ c ∈ text, isPlain c = true := by
  intro c hc
  have hopen : c ≠ '{' := fun he => h.not_mem (by decide) (he ▸ hc)
  have hclose : c ≠ '}' := fun he => h.not_mem (by decide) (he ▸ hc)
  simp [isPlain, quotes_of_isBlanks h c hc, hopen, hclose]

theorem IsName.isPlain {name : Text} (h : IsName name) : ∀ c ∈ name, isPlain c = true := by
  intro c hc
  have hopen : c ≠ '{' := fun he => h.opening (he ▸ hc)
  have hclose : c ≠ '}' := fun he => h.brace (he ▸ hc)
  simp [Import.isPlain, h.quotes c hc, hopen, hclose]

theorem Opening.isPlain (h : Opening opening) : ∀ c ∈ opening, isPlain c = true := by
  cases h with
  | values hlead hgap =>
    simp only [List.forall_mem_append]
    exact ⟨isPlain_of_isBlanks hlead, List.all_eq_true.1 rfl, isPlain_of_isBlanks hgap.blanks⟩
  | types hlead hgap hgap' =>
    simp only [List.forall_mem_append]
    exact ⟨isPlain_of_isBlanks hlead, List.all_eq_true.1 rfl, isPlain_of_isBlanks hgap.blanks, List.all_eq_true.1 rfl,
      isPlain_of_isBlanks hgap'.blanks⟩

theorem Lead.isPlain (h : Lead bindings lead) : ∀ c ∈ lead, isPlain c = true := by
  cases h with
  | none => simp
  | default hname hne hbefore hafter =>
    simp only [List.forall_mem_append, List.forall_mem_cons]
    exact ⟨hname.isPlain, isPlain_of_isBlanks hbefore, by decide, isPlain_of_isBlanks hafter⟩

theorem Head.isPlain (h : Head bindings head) : ∀ c ∈ head, isPlain c = true := by
  cases h with
  | default hname hne => exact hname.isPlain
  | whole hlead hblanks hgap hname =>
    simp only [List.forall_mem_append, List.forall_mem_cons]
    exact ⟨hlead.isPlain, by decide, isPlain_of_isBlanks hblanks, List.all_eq_true.1 rfl,
      isPlain_of_isBlanks hgap.blanks, hname.isPlain⟩

theorem IsName.isEntryChar {name : Text} (h : IsName name) : ∀ c ∈ name, Specifier.isEntryChar c = true := by
  intro c hc
  have hcomma : c ≠ ',' := fun he => h.comma (he ▸ hc)
  have hbrace : c ≠ '}' := fun he => h.brace (he ▸ hc)
  simp [Specifier.isEntryChar, h.solid c hc, hcomma, hbrace]

/-- With a default name or without, what comes next does not make the first word `type`. -/
theorem Lead.untyped (h : Lead bindings lead) {c : Char} (hc : c ≠ 't') (rest : Text) :
    (lead ++ c :: rest).takeWhile Specifier.isEntryChar ≠ "type" := by
  cases h with
  | none =>
    rw [List.nil_append, List.takeWhile_cons]
    split
    · exact fun he => hc (List.cons.inj he).1
    · exact fun he => List.cons_ne_nil _ _ he.symm
  | @default name before after hname hne hbefore hafter =>
    obtain ⟨d, others, hrest, hd⟩ : ∃ d others, before ++ ',' :: (after ++ c :: rest) = d :: others ∧
        Specifier.isEntryChar d = false := by
      cases before with
      | nil => exact ⟨_, _, rfl, by decide⟩
      | cons d others => exact ⟨_, _, rfl, by simp [Specifier.isEntryChar, hbefore d List.mem_cons_self]⟩
    rw [List.append_assoc, List.append_assoc, List.cons_append, hrest,
      Text.takeWhile_append_cons hname.isEntryChar hd]
    exact hne

/-- A clause starts with its first name, star or brace. -/
theorem Lead.first (h : Lead bindings lead) {c : Char} (hc : isBlank c = false) (rest : Text) :
    ∃ d others, lead ++ c :: rest = d :: others ∧ isBlank d = false := by
  cases h with
  | none => exact ⟨c, rest, rfl, hc⟩
  | default hname hne hbefore hafter =>
    obtain ⟨d, others, rfl⟩ := List.exists_cons_of_ne_nil hname.ne
    exact ⟨d, _, rfl, hname.solid d List.mem_cons_self⟩

theorem quotes_of_isPlain {text : Text} (h : ∀ c ∈ text, isPlain c = true) : ∀ c ∈ text, isQuote c = false := by
  intro c hc
  have hplain := h c hc
  simp only [Import.isPlain, Bool.and_eq_true, Bool.not_eq_true'] at hplain
  exact hplain.1.1

theorem Head.isClause (h : Head bindings head) (hline : '\n' ∉ head) : IsClause head := by
  have hquotes := quotes_of_isPlain h.isPlain
  cases h with
  | default hname hne =>
    have hlast : ∀ c ∈ head.getLast?, isBlank c = false := fun c hc => hname.solid c (List.mem_of_mem_getLast? hc)
    have hself : head.takeWhile Specifier.isEntryChar = head := List.takeWhile_eq_self_iff.2 hname.isEntryChar
    obtain ⟨c, rest, rfl⟩ := List.exists_cons_of_ne_nil hname.ne
    exact ⟨⟨c, rest, rfl, hname.solid c List.mem_cons_self⟩, hlast, hquotes, hline, by rwa [hself]⟩
  | @whole bindings lead blanks gap name hlead hblanks hgap hname =>
    refine ⟨hlead.first (by decide) _, ?_, hquotes, hline, hlead.untyped (by decide) _⟩
    have hassoc : lead ++ '*' :: (blanks ++ (String.toList "as" ++ (gap ++ name))) =
        lead ++ '*' :: (blanks ++ (String.toList "as" ++ gap)) ++ name := by simp
    rw [hassoc, List.getLast?_append_of_ne_nil _ hname.ne]
    exact fun c hc => hname.solid c (List.mem_of_mem_getLast? hc)

theorem Lead.isClause (h : Lead bindings lead) {inside : Text} (hquotes : ∀ c ∈ inside, isQuote c = false)
    (hfirst : '\n' ∉ lead) (hline : '\n' ∉ inside) : IsClause (lead ++ '{' :: (inside ++ ['}'])) := by
  refine ⟨h.first (by decide) _, ?_, ?_, by simp [hfirst, hline], h.untyped (by decide) _⟩
  · have hassoc : lead ++ '{' :: (inside ++ ['}']) = (lead ++ '{' :: inside) ++ ['}'] := by simp
    rw [hassoc, List.getLast?_append_of_ne_nil _ (by simp)]
    simp [show isBlank '}' = false by decide]
  · simp only [List.forall_mem_append, List.forall_mem_cons]
    exact ⟨quotes_of_isPlain h.isPlain, by decide, hquotes, by decide, by simp⟩

theorem Head.clauseBindings (h : Head bindings head) : clauseBindings head = bindings := by
  have hopen : ∀ c ∈ head, (c != '{') = true := fun c hc => by
    have hplain := h.isPlain c hc
    simp only [Import.isPlain, Bool.and_eq_true] at hplain
    exact hplain.1.2
  rw [Import.clauseBindings, List.takeWhile_eq_self_iff.2 hopen, List.dropWhile_eq_nil_iff.2 hopen, h.headBindings,
    List.append_nil]

theorem Lead.clauseBindings (h : Lead bindings lead) {inside : Text} (hinside : '}' ∉ inside) :
    clauseBindings (lead ++ '{' :: (inside ++ ['}'])) =
      bindings ++ (Specifier.parseList inside).map ofSpecifier := by
  have hopen : ∀ c ∈ lead, (c != '{') = true := fun c hc => by
    have hplain := h.isPlain c hc
    simp only [Import.isPlain, Bool.and_eq_true] at hplain
    exact hplain.1.2
  have hclose : ∀ c ∈ inside, (c != '}') = true := fun c hc => bne_iff_ne.2 fun he => hinside (he ▸ hc)
  have hhead : headBindings lead = bindings := by
    have hbindings := h.headBindings_append (show ',' ∉ [] by simp)
    rwa [List.append_nil, show partBinding? [] = Option.none from rfl, Option.toList_none, List.append_nil] at hbindings
  rw [Import.clauseBindings, Text.takeWhile_append_cons hopen (bne_self_eq_false '{'),
    Text.dropWhile_append_cons hopen (bne_self_eq_false '{'), hhead]
  simp only [Text.takeWhile_append_cons hclose (bne_self_eq_false '}')]
  rfl

/-! ## Statements in a file -/

/-- A statement without braces, on one line. Following lines may be joined to it, where a
brace stands in the module or after it. -/
theorem exists_joinBracedAt?_of_head (hopening : Opening opening) (hhead : Head bindings head)
    (hclosing : Closing source closing) (hline : '\n' ∉ opening ++ (head ++ closing)) (before after : List Text) :
    ∃ text count,
      joinBracedAt? (before ++ (opening ++ (head ++ closing)) :: after) before.length = some (text, count) ∧
      parse? text = some ⟨source, bindings⟩ := by
  have htrim : Text.trim (opening ++ (head ++ closing)) = Text.trimStart opening ++ (head ++ Text.trimEnd closing) := by
    rw [Text.trim, hopening.trimStart_append, ← List.append_assoc, hclosing.trimEnd_append, List.append_assoc]
  obtain ⟨more, hmore⟩ := joinBraced_fst (opening ++ (head ++ closing)) after
  have hclause := hhead.isClause fun hm => hline (by simp [hm])
  refine ⟨(joinBraced _ after).1, (joinBraced _ after).2, joinBracedAt?_append before _ after, ?_⟩
  rw [hmore, htrim, List.append_assoc, List.append_assoc, parse?_of_clause hopening hclause (hclosing.trimEnd more),
    hhead.clauseBindings]

theorem not_mem_quote {specifiers : List Specifier} {inside : Text} (h : Specifier.Written specifiers inside)
    (hnames : ∀ specifier ∈ specifiers, IsName specifier.declared ∧ IsName specifier.exported) {c : Char}
    (hc : isQuote c = true) : c ∉ inside := by
  have hnot : ∀ {text : Text}, (∀ d ∈ text, isQuote d = false) → c ∉ text := fun htext hm => by
    simp [htext c hm] at hc
  refine h.not_mem (Lexeme.isBlank_of_isQuote hc) (fun he => ?_) (hnot (quotes_of_all rfl))
    (hnot (quotes_of_all rfl)) fun s hs => ⟨hnot (hnames s hs).1.quotes, hnot (hnames s hs).2.quotes⟩
  exact absurd (he ▸ hc) (by decide)

/-- A statement with a list in braces, broken into lines inside them. -/
theorem exists_joinBracedAt?_of_lead {inside : Text} {specifiers : List Specifier} (hopening : Opening opening)
    (hlead : Lead bindings lead) (hinside : Specifier.Written specifiers inside)
    (hnames : ∀ specifier ∈ specifiers, IsName specifier.declared ∧ IsName specifier.exported)
    (hclosing : Closing source closing) (hfirst : '\n' ∉ opening ++ lead) (hlast : '\n' ∉ closing)
    (hlimit : inside.count '\n' ≤ lookahead) (before after : List Text) :
    ∃ text count,
      joinBracedAt? (before ++ (Text.splitOn '\n' (opening ++ lead ++ '{' :: (inside ++ '}' :: closing)) ++ after))
        before.length = some (text, count) ∧
      parse? text = some ⟨source, bindings ++ specifiers.map ofSpecifier⟩ := by
  have hhead : '}' ∉ opening ++ lead := by
    rw [List.mem_append, not_or]
    exact ⟨fun hm => absurd (hopening.isPlain _ hm) (by decide), fun hm => absurd (hlead.isPlain _ hm) (by decide)⟩
  obtain ⟨joined, hmem, hcells, hjoin⟩ :=
    exists_joinBracedAt?_splitOn hhead hinside.not_mem_brace hfirst hlast hlimit before after
  have hspecifiers : Specifier.parseList joined = specifiers := by
    rw [Specifier.parseList_eq, hcells, ← Specifier.parseList_eq, hinside.parseList]
  have hquotes : ∀ c ∈ joined, isQuote c = false := fun c hc => by
    by_contra hquote
    have hne : ∀ {d}, isQuote d = false → c ≠ d := fun hd he => hquote (he ▸ hd)
    exact hmem c (hne (by decide)) (.inr (not_mem_quote hinside hnames (Bool.not_eq_false _ ▸ hquote))) hc
  have hclause := hlead.isClause hquotes (fun hm => hfirst (by simp [hm])) (hmem '\n' (by decide) (.inl rfl))
  have hassoc : Text.trimStart (opening ++ lead) ++ '{' :: (joined ++ '}' :: Text.trimEnd closing) =
      Text.trimStart opening ++ (lead ++ '{' :: (joined ++ ['}']) ++ (Text.trimEnd closing ++ [])) := by
    rw [hopening.trimStart_append]
    simp
  refine ⟨_, _, hjoin, ?_⟩
  rw [hassoc, parse?_of_clause hopening hclause (hclosing.trimEnd []),
    hlead.clauseBindings (hmem '}' (by decide) (.inr hinside.not_mem_brace)), hspecifiers]

/-- The statement is seen to be an import on its first line. -/
theorem Written.exists_first {statement : Import} {text : Text} (h : Written statement text) :
    ∃ first rest, Text.splitOn '\n' text = first :: rest ∧ Text.startsWith "import" (Text.trim first) = true := by
  have hstarts : ∀ {opening more : Text}, Opening opening →
      Text.startsWith "import" (Text.trimStart opening ++ more) = true := fun {opening more} hopening => by
    obtain ⟨rest, hrest⟩ := hopening.exists_import
    rw [hrest, List.append_assoc, Text.startsWith, Text.after?_eq_some_iff.2 rfl, Option.isSome_some]
  cases h with
  | plain hopening hhead hclosing hline =>
    refine ⟨_, [], Text.splitOn_eq_singleton hline, ?_⟩
    rw [Text.trim, hopening.trimStart_append, ← List.append_assoc, hclosing.trimEnd_append, List.append_assoc]
    exact hstarts hopening
  | @braced source opening lead inside closing _ _ hopening hlead hinside hnames hclosing hfirst hlast hlimit =>
    obtain ⟨row, rows, hrows⟩ := List.exists_cons_of_ne_nil (Text.splitOn_ne_nil '\n' (inside ++ '}' :: closing))
    refine ⟨_, rows, splitOn_opening hfirst hrows, ?_⟩
    rw [Text.trim_append_cons (by decide), hopening.trimStart_append, List.append_assoc]
    exact hstarts hopening

/-- **Import statements survive layout.** For any way to write an import, broken into lines
inside its braces and into no more than can be joined, the first line is seen to start an
import, and the text joined from there on is read as the module and the bindings, in
order. So the binding of a name is the first one that binds it. -/
theorem parse?_of_written {statement : Import} {text : Text} (h : Written statement text) (before after : List Text) :
    ∃ first rest joined count, Text.splitOn '\n' text = first :: rest ∧
      Text.startsWith "import" (Text.trim first) = true ∧
      joinBracedAt? (before ++ (first :: rest ++ after)) before.length = some (joined, count) ∧
      parse? joined = some statement ∧
      ∀ name,
        (∀ binding, statement.binding? name = some binding ↔
          ∃ earlier later, statement.bindings = earlier ++ binding :: later ∧ binding.localName = name ∧
            ∀ other ∈ earlier, other.localName ≠ name) ∧
        (statement.binding? name = none ↔ ∀ binding ∈ statement.bindings, binding.localName ≠ name) := by
  obtain ⟨first, rest, hsplit, hstarts⟩ := h.exists_first
  have hread : ∃ joined count, joinBracedAt? (before ++ (first :: rest ++ after)) before.length = some (joined, count) ∧
      parse? joined = some statement := by
    cases h with
    | plain hopening hhead hclosing hline =>
      obtain ⟨rfl, rfl⟩ := List.cons.inj ((Text.splitOn_eq_singleton hline).symm.trans hsplit)
      exact exists_joinBracedAt?_of_head hopening hhead hclosing hline before after
    | braced hopening hlead hinside hnames hclosing hfirst hlast hlimit =>
      rw [← hsplit]
      exact exists_joinBracedAt?_of_lead hopening hlead hinside hnames hclosing hfirst hlast hlimit before after
  obtain ⟨joined, count, hjoined, hparse⟩ := hread
  refine ⟨first, rest, joined, count, hsplit, hstarts, hjoined, hparse, fun name => ⟨fun binding => ?_, ?_⟩⟩
  · rw [binding?, List.find?_eq_some_iff_append]
    constructor
    · rintro ⟨hname, earlier, later, hbindings, hearlier⟩
      exact ⟨earlier, later, hbindings, by simpa using hname, by simpa using hearlier⟩
    · rintro ⟨earlier, later, hbindings, hname, hearlier⟩
      exact ⟨by simpa using hname, earlier, later, hbindings, by simpa using hearlier⟩
  · simp [binding?]

/-- An import over four lines, with names that are words of the grammar and a module that
holds a brace. -/
def brokenImport : Text := "\timport  type from,\u3000\x7b\n  type as as type ,\n\n from\x7d from '../\x7bm\x22; "

/-- It binds `from` twice, first as the default, and `type` to the name `as` of the module. -/
theorem parse?_brokenImport :
    Written ⟨"../\x7bm", [.default "from", .named "as" "type", .named "from" "from"]⟩ brokenImport ∧
    ∃ joined count,
      joinBracedAt? ["", "\timport  type from,\u3000\x7b", "  type as as type ,", "", " from\x7d from '../\x7bm\x22; ",
        "\x7d"] 1 = some (joined, count) ∧
      parse? joined = some ⟨"../\x7bm", [.default "from", .named "as" "type", .named "from" "from"]⟩ ∧
      Import.binding? ⟨"../\x7bm", [.default "from", .named "as" "type", .named "from" "from"]⟩ "from" =
        some (.default "from") := by
  have empty : IsBlanks [] := Text.isBlanks_of_all [] rfl
  have one : IsGap [' '] := Text.isGap_of_all [' '] (by decide) rfl
  -- The kernel compares the texts; the elaborator takes long to evaluate a string.
  have respell : ∀ {p : Text → Prop} {text other : Text}, p text → text = other → p other := fun h he => he ▸ h
  have name : ∀ {name : Text}, Lexeme.name? name = some (name, []) → IsName name := fun h =>
    isName_of_identifier (Lexeme.isIdentifier_of_name? h).1
  have hfrom : IsName "from" := name (by decide +kernel)
  have has : IsName "as" := name (by decide +kernel)
  have htype : IsName "type" := name (by decide +kernel)
  have hinside : Specifier.Written [⟨"as", "type"⟩, ⟨"from", "from"⟩] "\n  type as as type ,\n\n from" := by
    have hfirst : Spaced ["type", "as", "as", "type"] _ :=
      .cons (Text.isBlanks_of_all "\n  " rfl) one (.cons empty one (.cons empty one (.last empty one.blanks)))
    have hsecond : Spaced ["from"] _ := .last (Text.isBlanks_of_all "\n\n " rfl) empty
    have hentries : Specifier.Written [⟨"as", "type"⟩, ⟨"from", "from"⟩] _ :=
      .cons ⟨has.toIsName, htype.toIsName, by decide⟩ (.type (.renamed "as" "type")) hfirst
        (.last ⟨hfrom.toIsName, hfrom.toIsName, by decide⟩ (.value (.same "from")) hsecond)
    exact respell hentries (by decide +kernel)
  have hwritten : Written ⟨"../\x7bm", [.default "from", .named "as" "type", .named "from" "from"]⟩ brokenImport := by
    have hsource : ∀ c ∈ String.toList "../\x7bm", isQuote c = false := quotes_of_all (by decide +kernel)
    have hstatement := Written.braced
      (.types (Text.isBlanks_of_all "\t" rfl) (Text.isGap_of_all "  " (by decide) rfl) one)
      (.default hfrom (by decide) empty (Text.isBlanks_of_all "\u3000" rfl)) hinside
      (by simpa using ⟨⟨has, htype⟩, hfrom⟩)
      (@Closing.intro _ [' '] [' '] "; " '\'' '\x22' one one rfl rfl (by decide) hsource)
      (by decide +kernel) (by decide +kernel) (by decide +kernel)
    exact respell hstatement (by decide +kernel)
  have hlines : Text.splitOn '\n' brokenImport = ["\timport  type from,\u3000\x7b", "  type as as type ,", "",
      " from\x7d from '../\x7bm\x22; "] := by decide +kernel
  obtain ⟨first, rest, joined, count, hsplit, _, hjoin, hparse, hbinding⟩ := parse?_of_written hwritten [[]] ["\x7d"]
  obtain ⟨rfl, rfl⟩ := List.cons.inj (hlines.symm.trans hsplit)
  exact ⟨hwritten, joined, count, hjoin, hparse, ((hbinding "from").1 _).2 ⟨[], _, rfl, rfl, by simp⟩⟩

end Import

end ApiCoverage
