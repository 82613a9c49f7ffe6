/-
Comments and superfluous commas do not change a configuration.

They are taken out in two passes. The first copies all that stands outside
comments; it is followed piece by piece, because outside strings a slash only
starts a comment. The second drops a comma when the next character that is no
blank closes an array or object. In a document that character belongs to the next
lexeme, which closes after a superfluous comma and starts an item after any other.
-/
import ApiCoverage.Config.Basic
import ApiCoverage.Proofs.JsonReading
import ApiCoverage.Proofs.Lexemes

namespace ApiCoverage.Config

open Json

/-! ## Copying -/

theorem copy_append {scan : Text → Text} {text : Text} (h : ∀ c ∈ text, ∀ rest, scan (c :: rest) = c :: scan rest)
    (rest : Text) : scan (text ++ rest) = text ++ scan rest := by
  induction text with
  | nil => rfl
  | cons c tail ih =>
    rw [List.cons_append, h c List.mem_cons_self, ih fun d hm => h d (List.mem_cons_of_mem _ hm)]
    rfl

/-- How a pass goes through strings. -/
structure CopiesStrings (scan : Region → Text → Text) : Prop where
  quote : ∀ rest, scan .code ('\x22' :: rest) = '\x22' :: scan .string rest
  string : ∀ c rest, scan .string (c :: rest) =
    c :: scan (if c == '\\' then .escape else if c == '\x22' then .code else .string) rest
  escape : ∀ c rest, scan .escape (c :: rest) = c :: scan .string rest

theorem copiesStrings_stripComments : CopiesStrings stripComments :=
  ⟨fun _ => rfl, fun _ _ => by rw [stripComments], fun _ _ => by rw [stripComments]⟩

theorem copiesStrings_dropCommas : CopiesStrings dropCommas :=
  ⟨fun _ => rfl, fun _ _ => by rw [dropCommas], fun _ _ => by rw [dropCommas]⟩

section Copies

variable {scan : Region → Text → Text} (hscan : CopiesStrings scan)

include hscan

theorem CopiesStrings.enclosed {literal : Text} (h : Literal.Enclosed literal) (rest : Text) :
    scan .string (literal ++ '\x22' :: rest) = literal ++ '\x22' :: scan .code rest := by
  induction h with
  | nil => exact hscan.string '\x22' rest
  | char hquote hslash h ih =>
    rw [List.cons_append, hscan.string, if_neg (by simpa using hslash), if_neg (by simpa using hquote), ih]
    rfl
  | escape h ih =>
    rw [List.cons_append, hscan.string, if_pos (beq_self_eq_true _), List.cons_append, hscan.escape, ih]
    rfl

/-- A pass copies every token, if it copies the characters of those that are no
strings. Of these, none starts a comment or a string. -/
theorem CopiesStrings.token {token : Token} (hspelled : token.IsSpelled)
    (hchar : ∀ c rest, c ≠ '/' → c ≠ '\x22' → (c = ',' → token = .comma) →
      scan .code (c :: rest) = c :: scan .code rest)
    (rest : Text) : scan .code (token.text ++ rest) = token.text ++ scan .code rest := by
  have hword : token.isWord = true → scan .code (token.text ++ rest) = token.text ++ scan .code rest := by
    intro hisWord
    refine copy_append (fun c hm more => ?_) rest
    have hc := List.all_eq_true.1 (Token.all_of_isWord hisWord hspelled) c hm
    refine hchar c more ?_ ?_ ?_ <;> rintro rfl <;> cases hc
  match token with
  | .openArray | .closeArray | .openObject | .closeObject | .comma | .colon =>
    exact hchar _ rest (by decide) (by decide) (by decide)
  | .null | .bool _ | .number _ => exact hword rfl
  | .string literal =>
    rw [Token.text_string, List.cons_append, List.append_assoc, hscan.quote, List.singleton_append,
      hscan.enclosed (Literal.IsString.enclosed hspelled)]
    simp

end Copies

/-! ## The first pass -/

theorem stripComments_char {c : Char} (hslash : c ≠ '/') (hquote : c ≠ '\x22') (rest : Text) :
    stripComments .code (c :: rest) = c :: stripComments .code rest := by
  rw [stripComments]
  · simp [hquote]
  · exact fun _ h => absurd h hslash
  · exact fun _ h => absurd h hslash

theorem stripComments_token {token : Token} (hspelled : token.IsSpelled) (rest : Text) :
    stripComments .code (token.text ++ rest) = token.text ++ stripComments .code rest :=
  copiesStrings_stripComments.token hspelled (fun _ more hslash hquote _ => stripComments_char hslash hquote more) rest

/-- A line comment goes on to a line feed or to the end of the document. -/
theorem stripComments_line {body : Text} (h : '\n' ∉ body) (rest : Text) :
    stripComments .lineComment (body ++ rest) = stripComments .lineComment rest := by
  induction body with
  | nil => rfl
  | cons c tail ih =>
    obtain ⟨hc, htail⟩ := not_or.1 (mt List.mem_cons.2 h)
    have hne : (c == '\n') = false := beq_eq_false_iff_ne.2 (Ne.symm hc)
    rw [List.cons_append, stripComments, hne]
    exact ih htail

/-- The comment ends at the first `*/`, counting the character before. -/
theorem stripComments_block {before : Char} {body : Text} (h : ¬ ['*', '/'] <:+: before :: body) (rest : Text) :
    stripComments (.blockComment before) (body ++ '*' :: '/' :: rest) =
      body.filter (· == '\n') ++ stripComments .code rest := by
  induction body generalizing before with
  | nil => simp [stripComments]
  | cons c tail ih =>
    have htail : ¬ ['*', '/'] <:+: c :: tail := fun hinfix => h (List.infix_cons hinfix)
    have hopen : (before == '*' && c == '/') = false := by
      refine Bool.eq_false_iff.2 fun hends => h ?_
      obtain ⟨hbefore, hc⟩ := Bool.and_eq_true_iff.1 hends
      rw [beq_iff_eq.1 hbefore, beq_iff_eq.1 hc]
      exact (List.prefix_append ['*', '/'] tail).isInfix
    rw [List.cons_append, stripComments, hopen, List.filter_cons, ih htail]
    cases c == '\n' <;> rfl

/-! ## The next lexeme -/

theorem closesNext_cons {c : Char} (h : isBlank c = false) (rest : Text) :
    closesNext (c :: rest) = (c == '\x7d' || c == ']') := by
  rw [closesNext, Text.trimStart_cons h]

theorem closesNext_blanks {blanks : Text} (h : blanks.all Token.isSpace = true) (rest : Text) :
    closesNext (blanks ++ rest) = closesNext rest := by
  induction blanks with
  | nil => rfl
  | cons c tail ih =>
    obtain ⟨hc, htail⟩ := Bool.and_eq_true_iff.1 h
    have hblank : isBlank c = true := by
      simp only [Token.isSpace, Bool.or_eq_true, beq_iff_eq] at hc
      rcases hc with ((rfl | rfl) | rfl) | rfl <;> rfl
    rw [← ih htail, closesNext, List.cons_append, Text.trimStart_cons_blank hblank]
    rfl

theorem isBlank_of_isWordChar {c : Char} (h : Token.isWordChar c = true) : isBlank c = false :=
  isBlank_eq_false_of (by decide +kernel) h

theorem closesNext_token {token : Token} (hspelled : token.IsSpelled) (rest : Text) :
    closesNext (token.text ++ rest) = (Lexeme.token token).closes := by
  have hword : token.isWord = true → closesNext (token.text ++ rest) = false := by
    intro hisWord
    have hofWord := Token.ofWord?_text hisWord hspelled
    have hall := Token.all_of_isWord hisWord hspelled
    cases htext : token.text with
    | nil =>
      rw [htext] at hofWord
      cases hofWord
    | cons c tail =>
      rw [htext] at hall
      have hc : Token.isWordChar c = true := (Bool.and_eq_true_iff.1 hall).1
      rw [List.cons_append, closesNext_cons (isBlank_of_isWordChar hc), Bool.or_eq_false_iff, beq_eq_false_iff_ne,
        beq_eq_false_iff_ne]
      constructor <;> rintro rfl <;> cases hc
  match token with
  | .openArray | .closeArray | .openObject | .closeObject | .comma | .colon | .string _ => rfl
  | .null | .bool _ | .number _ => exact hword rfl

end ApiCoverage.Config

namespace ApiCoverage.Json

/-- What the first pass leaves of a piece. -/
def Piece.uncommented : Piece → Text
  | lexeme .extraComma => ","
  | piece => piece.kept

theorem Piece.uncommented_of_lexeme?_eq_none {piece : Piece} (h : piece.lexeme? = none) :
    piece.uncommented = piece.kept := by
  cases piece with
  | lexeme l => cases h
  | blank | lineComment | blockComment => rfl

theorem Lexeme.any_closes_of_comma {rest : List Lexeme} (h : ∀ next ∈ rest.head?, Follows (.token .comma) next) :
    rest.head?.any closes = false := by
  cases hhead : rest.head? with
  | none => rfl
  | some next =>
    have hopens := (h next hhead).afterComma rfl
    refine Bool.eq_false_iff.2 fun hcloses => ?_
    rw [opens_of_closes hcloses] at hopens
    cases hopens

theorem Lexeme.any_closes_of_extraComma {rest : List Lexeme} (h : ∀ next ∈ rest.head?, Follows .extraComma next)
    (hlast : (extraComma :: rest).getLast? ≠ some extraComma) : rest.head?.any closes = true := by
  cases hhead : rest.head? with
  | none =>
    rw [List.head?_eq_none_iff.1 hhead] at hlast
    exact absurd rfl hlast
  | some next => exact (h next hhead).afterExtra rfl

end ApiCoverage.Json

namespace ApiCoverage.Config

open Json

theorem stripComments_piece {piece : Piece} (hspelled : ∀ lexeme, piece.lexeme? = some lexeme → lexeme.IsSpelled)
    (rest : Text) :
    stripComments .code (piece.text ++ rest) = piece.uncommented ++ stripComments .code rest := by
  match piece with
  | .lexeme (.token token) => exact stripComments_token (hspelled _ rfl) rest
  | .lexeme .extraComma => rfl
  | .blank c h =>
    have hne : c ≠ '/' ∧ c ≠ '\x22' := by constructor <;> rintro rfl <;> cases h
    exact stripComments_char hne.1 hne.2 rest
  | .lineComment body h =>
    have hline := stripComments_line h ('\n' :: rest)
    simpa [Piece.text, Piece.uncommented, Piece.kept, stripComments] using hline
  | .blockComment body h =>
    have hstart : ¬ ['*', '/'] <:+: '\x00' :: body := by
      rw [List.infix_cons_iff, not_or]
      exact ⟨by simp, h⟩
    have hblock := stripComments_block hstart rest
    simpa [Piece.text, Piece.uncommented, Piece.kept, stripComments] using hblock

theorem stripComments_pieces {pieces : List Piece} (hspelled : ∀ lexeme ∈ Piece.lexemes pieces, lexeme.IsSpelled)
    (rest : Text) :
    stripComments .code (pieces.flatMap Piece.text ++ rest) =
      pieces.flatMap Piece.uncommented ++ stripComments .code rest := by
  induction pieces with
  | nil => rfl
  | cons piece others ih =>
    have hpiece : ∀ lexeme, piece.lexeme? = some lexeme → lexeme.IsSpelled := fun lexeme h =>
      hspelled lexeme (List.mem_filterMap.2 ⟨piece, List.mem_cons_self, h⟩)
    have hothers : ∀ lexeme ∈ Piece.lexemes others, lexeme.IsSpelled := by
      intro lexeme hm
      obtain ⟨other, hother, h⟩ := List.mem_filterMap.1 hm
      exact hspelled lexeme (List.mem_filterMap.2 ⟨other, List.mem_cons_of_mem _ hother, h⟩)
    rw [List.flatMap_cons, List.append_assoc, stripComments_piece hpiece, ih hothers, List.flatMap_cons,
      List.append_assoc]

theorem closesNext_pieces {pieces : List Piece} (hspelled : ∀ lexeme ∈ Piece.lexemes pieces, lexeme.IsSpelled) :
    closesNext (pieces.flatMap Piece.uncommented) = (Piece.lexemes pieces).head?.any Lexeme.closes := by
  induction pieces with
  | nil => rfl
  | cons piece rest ih =>
    rw [List.flatMap_cons]
    cases hpiece : piece.lexeme? with
    | none =>
      have hlexemes : Piece.lexemes (piece :: rest) = Piece.lexemes rest := List.filterMap_cons_none hpiece
      rw [hlexemes] at hspelled ⊢
      rw [Piece.uncommented_of_lexeme?_eq_none hpiece, closesNext_blanks (Piece.all_isSpace_kept hpiece), ih hspelled]
    | some lexeme =>
      obtain rfl := Piece.eq_lexeme hpiece
      match lexeme with
      | .token token => exact closesNext_token (hspelled _ List.mem_cons_self) _
      | .extraComma => rfl

/-! ## The second pass -/

theorem dropCommas_char {c : Char} (hcomma : c ≠ ',') (hquote : c ≠ '\x22') (rest : Text) :
    dropCommas .code (c :: rest) = c :: dropCommas .code rest := by
  simp [dropCommas, hcomma, hquote]

theorem dropCommas_token {token : Token} (hspelled : token.IsSpelled) (hne : token ≠ .comma) (rest : Text) :
    dropCommas .code (token.text ++ rest) = token.text ++ dropCommas .code rest :=
  copiesStrings_dropCommas.token hspelled
    (fun _ more _ hquote hcomma => dropCommas_char (fun h => hne (hcomma h)) hquote more) rest

theorem dropCommas_piece {piece : Piece} (hspelled : ∀ lexeme, piece.lexeme? = some lexeme → lexeme.IsSpelled)
    {rest : Text} (hcomma : piece.lexeme? = some (.token .comma) → closesNext rest = false)
    (hextra : piece.lexeme? = some .extraComma → closesNext rest = true) :
    dropCommas .code (piece.uncommented ++ rest) = piece.kept ++ dropCommas .code rest := by
  cases hpiece : piece.lexeme? with
  | none =>
    rw [Piece.uncommented_of_lexeme?_eq_none hpiece]
    refine copy_append (fun c hm more => ?_) rest
    have hspace := List.all_eq_true.1 (Piece.all_isSpace_kept hpiece) c hm
    refine dropCommas_char ?_ ?_ more <;> rintro rfl <;> cases hspace
  | some lexeme =>
    obtain rfl := Piece.eq_lexeme hpiece
    match lexeme with
    | .extraComma => simp [Piece.uncommented, Piece.kept, dropCommas, hextra rfl]
    | .token token =>
      by_cases htoken : token = .comma
      · subst htoken
        simp [Piece.uncommented, Piece.kept, Token.text_comma, dropCommas, hcomma rfl]
      · exact dropCommas_token (hspelled _ rfl) htoken rest

theorem dropCommas_pieces {pieces : List Piece} (hspelled : ∀ lexeme ∈ Piece.lexemes pieces, lexeme.IsSpelled)
    (hchain : (Piece.lexemes pieces).IsChain Lexeme.Follows)
    (hlast : (Piece.lexemes pieces).getLast? ≠ some .extraComma) :
    dropCommas .code (pieces.flatMap Piece.uncommented) = pieces.flatMap Piece.kept := by
  induction pieces with
  | nil => rfl
  | cons piece rest ih =>
    rw [List.flatMap_cons, List.flatMap_cons]
    cases hpiece : piece.lexeme? with
    | none =>
      have hlexemes : Piece.lexemes (piece :: rest) = Piece.lexemes rest := List.filterMap_cons_none hpiece
      rw [hlexemes] at hspelled hchain hlast
      rw [dropCommas_piece (by simp [hpiece]) (by simp [hpiece]) (by simp [hpiece]), ih hspelled hchain hlast]
    | some lexeme =>
      have hlexemes : Piece.lexemes (piece :: rest) = lexeme :: Piece.lexemes rest := List.filterMap_cons_some hpiece
      rw [hlexemes] at hspelled hchain hlast
      obtain ⟨hfollows, hchain⟩ := List.isChain_cons.1 hchain
      have hrest : ∀ other ∈ Piece.lexemes rest, other.IsSpelled := fun other hm =>
        hspelled other (List.mem_cons_of_mem _ hm)
      have hnext := closesNext_pieces hrest
      have htail : (Piece.lexemes rest).getLast? ≠ some .extraComma := by
        intro h
        rw [List.getLast?_cons, h] at hlast
        exact hlast rfl
      rw [dropCommas_piece, ih hrest hchain htail]
      · rintro other hother
        rw [hpiece] at hother
        cases hother
        exact hspelled lexeme List.mem_cons_self
      · intro hcomma
        obtain rfl := Option.some.inj (hpiece.symm.trans hcomma)
        rw [hnext, Lexeme.any_closes_of_comma hfollows]
      · intro hextra
        obtain rfl := Option.some.inj (hpiece.symm.trans hextra)
        rw [hnext, Lexeme.any_closes_of_extraComma hfollows hlast]

/-- Of a document the two passes leave what is kept of each piece. -/
theorem plain_text (document : Document) : plain document.text = document.kept := by
  have hspelled := document.spells.isSpelled
  obtain ⟨last, hgetLast, hends⟩ := document.spells.shaped.ends
  have hlast : (Piece.lexemes document.pieces).getLast? ≠ some .extraComma := by
    rw [hgetLast]
    rintro ⟨⟩
    cases hends
  have hcomment : stripComments .code document.lastText = [] := by
    unfold Document.lastText
    cases document.lastComment with
    | none => rfl
    | some body =>
      have hline := stripComments_line body.2 []
      rwa [List.append_nil] at hline
  rw [plain, Document.text, stripComments_pieces hspelled, hcomment, List.append_nil,
    dropCommas_pieces hspelled document.spells.shaped.chain hlast, Document.kept]

end ApiCoverage.Config

/-! ## Plain documents -/

namespace ApiCoverage.Json

namespace Lexeme

/-- The lexemes without superfluous commas. -/
def bare (lexemes : List Lexeme) : List Lexeme := (tokens lexemes).map token

theorem bare_cons (t : Token) (rest : List Lexeme) : bare (token t :: rest) = token t :: bare rest := rfl

theorem bare_append (front back : List Lexeme) : bare (front ++ back) = bare front ++ bare back := by
  rw [bare, tokens_append, List.map_append, bare, bare]

theorem bare_separated (items : List (List Lexeme)) : bare (separated items) = separated (items.map bare) :=
  apply_intercalate rfl bare_append [token .comma] items

theorem bare_enclosed (first last : Token) (items : List (List Lexeme)) (extra : Bool) :
    bare (token first :: separated items ++ ending extra ++ [token last]) =
      token first :: separated (items.map bare) ++ ending false ++ [token last] := by
  rw [bare, tokens_enclosed, List.map_cons, List.map_append, ← bare, bare_separated]
  simp [ending]

theorem tokens_bare (lexemes : List Lexeme) : tokens (bare lexemes) = tokens lexemes := by
  rw [bare, tokens, List.filterMap_map]
  exact List.filterMap_some

end Lexeme

open Json.Lexeme in
theorem Spells.bare {value : Json} {lexemes : List Lexeme} (h : Spells value lexemes) :
    Spells value (bare lexemes) := by
  induction h with
  | null => exact .null
  | bool flag => exact .bool flag
  | number h => exact .number h
  | string h => exact .string h
  | emptyArray => exact .emptyArray
  | emptyObject => exact .emptyObject
  | @array elements hne h extra ih =>
    have hbare : ∀ element ∈ elements.map fun element => (element.1, Lexeme.bare element.2),
        Spells element.1 element.2 := by
      intro element hm
      obtain ⟨old, hold, rfl⟩ := List.mem_map.1 hm
      exact ih old hold
    have hspells := Spells.array (by simpa using hne) hbare false
    rw [bare_enclosed]
    simpa [Function.comp_def] using hspells
  | @object members hne hname h extra ih =>
    have hbare : ∀ member ∈ members.map fun member => (member.1, member.2.1, Lexeme.bare member.2.2),
        Literal.IsString member.1 ∧ Spells member.2.1 member.2.2 := by
      intro member hm
      obtain ⟨old, hold, rfl⟩ := List.mem_map.1 hm
      exact ⟨hname old hold, ih old hold⟩
    have hspells := Spells.object (by simpa using hne) (fun member hm => (hbare member hm).1)
      (fun member hm => (hbare member hm).2) false
    rw [bare_enclosed]
    simpa [Function.comp_def, bare_cons] using hspells

theorem Piece.lexemes_filter_isPlain (pieces : List Piece) :
    lexemes (pieces.filter isPlain) = Lexeme.bare (lexemes pieces) := by
  induction pieces with
  | nil => rfl
  | cons piece rest ih =>
    match piece with
    | .lexeme (.token t) => exact congrArg (.token t :: ·) ih
    | .lexeme .extraComma | .blank _ _ | .lineComment _ _ | .blockComment _ _ => exact ih

/-- The tokens and blanks of a document. -/
def Document.undecorated (document : Document) : Document where
  value := document.value
  pieces := document.pieces.filter Piece.isPlain
  spells := Piece.lexemes_filter_isPlain document.pieces ▸ document.spells.bare
  lastComment := none

theorem Document.isPlain_undecorated (document : Document) : document.undecorated.isPlain = true := by
  simp [isPlain, undecorated]

theorem Document.tokens_undecorated (document : Document) : document.undecorated.tokens = document.tokens := by
  rw [tokens, undecorated, Piece.lexemes_filter_isPlain, Lexeme.tokens_bare, ← tokens]

end ApiCoverage.Json

namespace ApiCoverage.Config

open Json

theorem parse?_text (document : Document) : parse? document.text = ofJson? document.value := by
  rw [parse?, plain_text, Document.parse?_kept, Option.bind_some]

/-- **Comments and superfluous commas do not change a configuration.** Of a
document only the line feeds of its comments and all that is plain JSON are left,
and its configuration is that of every document with the same tokens. There
always is a plain one, which is not changed at all. -/
theorem parse?_decorated (document : Document) :
    plain document.text = document.kept ∧
      (document.isPlain = true → plain document.text = document.text) ∧
      parse? document.text = ofJson? document.value ∧
      (∃ undecorated : Document, undecorated.isPlain = true ∧ undecorated.tokens = document.tokens) ∧
      ∀ other : Document, other.tokens = document.tokens → parse? document.text = parse? other.text := by
  refine ⟨plain_text document, fun hplain => ?_, parse?_text document,
    ⟨document.undecorated, document.isPlain_undecorated, document.tokens_undecorated⟩, fun other htokens => ?_⟩
  · rw [plain_text, Document.kept_eq_text hplain]
  · have hvalue : some other.value = some document.value := by
      rw [← other.ofTokens?_tokens, htokens, document.ofTokens?_tokens]
    rw [parse?_text, parse?_text, Option.some.inj hvalue]

/-- An object of two settings with comments in between, one of which holds a quotation
mark and one what looks like its end, with superfluous commas, a comment that no line
feed ends, and a string that looks as if it held a comment and a superfluous comma. -/
def commentedSettings : Document where
  value := .object [("exports", .string "\\\x22//,]"), ("workspace", .array [.string "a"])]
  pieces :=
    [.lexeme (.token .openObject), .lineComment " it's \x22" (by decide),
      .lexeme (.token (.string "exports")), .lexeme (.token .colon), .lexeme (.token (.string "\\\x22//,]")),
      .blockComment "/\n*" (by decide), .lexeme (.token .comma), .blank '\t' rfl,
      .lexeme (.token (.string "workspace")), .lexeme (.token .colon),
      .lexeme (.token .openArray), .lexeme (.token (.string "a")), .lexeme .extraComma,
      .blockComment "," (by decide), .lexeme (.token .closeArray), .lexeme .extraComma, .blank '\r' rfl,
      .lexeme (.token .closeObject)]
  spells := by
    have hmembers : Spells (.array [.string "a"])
        [.token .openArray, .token (.string "a"), .extraComma, .token .closeArray] :=
      @Spells.array [(.string "a", [.token (.string "a")])] (by simp)
        (by simpa using .string (Literal.isString_encode "a")) true
    exact @Spells.object
      [("exports", .string "\\\x22//,]", [.token (.string "\\\x22//,]")]),
        ("workspace", .array [.string "a"],
          [.token .openArray, .token (.string "a"), .extraComma, .token .closeArray])]
      (by simp) (by simpa using ⟨Literal.isString_encode "exports", Literal.isString_encode "workspace"⟩)
      (by simpa using ⟨.string (Literal.isString_encode "\x22//,]"), hmembers⟩) true
  lastComment := some ⟨" end", by decide⟩

theorem parse?_commentedSettings :
    commentedSettings.text =
    "\x7b// it's \x22\n\x22exports\x22:\x22\\\x22//,]\x22/*/\n**/,\t\x22workspace\x22:[\x22a\x22,/*,*/],\r\x7d// end" ∧
      plain commentedSettings.text =
        "\x7b\n\x22exports\x22:\x22\\\x22//,]\x22\n,\t\x22workspace\x22:[\x22a\x22]\r\x7d" ∧
      plain commentedSettings.undecorated.text = commentedSettings.undecorated.text ∧
      parse? commentedSettings.text = parse? commentedSettings.undecorated.text ∧
      parse? commentedSettings.text = some ⟨some (.single "\x22//,]"), some ["a"]⟩ := by
  obtain ⟨hplain, _, hparse, _, hother⟩ := parse?_decorated commentedSettings
  exact ⟨rfl, hplain.trans rfl, (parse?_decorated commentedSettings.undecorated).2.1 rfl, hother _ rfl,
    hparse.trans rfl⟩

end ApiCoverage.Config
