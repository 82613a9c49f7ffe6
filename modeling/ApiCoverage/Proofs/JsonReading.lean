/-
Reading a document gives the value that it spells.

Its tokens are found first. A blank, a bracket, a comma, a colon and a quotation
mark each end the word before them, and between two words there is always one of
these, because one value never follows another directly. Then the tokens are
read with the arrays and objects that are still open on a stack; each value adds
itself to what is on top.
-/
import ApiCoverage.Proofs.JsonGrammar

namespace ApiCoverage.Json

/-! ## From tokens to the value -/

namespace Lexeme

theorem tokens_append (front back : List Lexeme) : tokens (front ++ back) = tokens front ++ tokens back :=
  List.filterMap_append

theorem tokens_cons (token : Token) (rest : List Lexeme) : tokens (.token token :: rest) = token :: tokens rest :=
  rfl

theorem tokens_ending (extra : Bool) : tokens (ending extra) = [] := by
  cases extra <;> rfl

/-- The tokens of what stands between two brackets. -/
theorem tokens_enclosed (first last : Token) (inner : List Lexeme) (extra : Bool) :
    tokens (.token first :: inner ++ ending extra ++ [.token last]) = first :: (tokens inner ++ [last]) := by
  rw [tokens_append, tokens_append, tokens_ending, List.append_nil]
  rfl

theorem tokens_separated_cons (item next : List Lexeme) (rest : List (List Lexeme)) :
    tokens (separated (item :: next :: rest)) = tokens item ++ .comma :: tokens (separated (next :: rest)) := by
  rw [separated, List.intercalate_cons_cons, List.append_assoc, tokens_append]
  rfl

theorem exists_separated_cons (first : Lexeme) (item : List Lexeme) (rest : List (List Lexeme)) :
    ∃ tail, separated ((first :: item) :: rest) = first :: tail := by
  cases rest with
  | nil => exact ⟨item, List.intercalate_singleton⟩
  | cons next others => exact ⟨_, by rw [separated, List.intercalate_cons_cons, List.append_assoc]; rfl⟩

end Lexeme

namespace Due

/-- One token after the other. -/
def run? (due : Due) (tokens : List Token) : Option Due := tokens.foldlM step? due

theorem run?_cons (due : Due) (token : Token) (rest : List Token) :
    due.run? (token :: rest) = (due.step? token).bind (·.run? rest) := rfl

theorem run?_append (due : Due) (front back : List Token) :
    due.run? (front ++ back) = (due.run? front).bind (·.run? back) :=
  List.foldlM_append

end Due

open Json.Lexeme

/-- The value is read wherever one is due. -/
def ReadsAs (value : Json) (lexemes : List Lexeme) : Prop :=
  ∀ stack, (Due.value stack).run? (tokens lexemes) = some (.separator value stack)

/-- Items up to the bracket that closes them, after those that are done. A comma
makes an item one of those that are done, and so does the bracket. -/
theorem run?_items {α : Type} (due : List α → Due) (reached : α → List α → Due) (close : Token) (closed : List α → Due)
    (hcomma : ∀ x done, (reached x done).step? .comma = some (due (x :: done)))
    (hclose : ∀ x done, (reached x done).step? close = some (closed (x :: done)))
    {items : List (α × List Lexeme)} (hne : items ≠ [])
    (h : ∀ item ∈ items, ∀ done, (due done).run? (tokens item.2) = some (reached item.1 done)) (done : List α) :
    (due done).run? (tokens (separated (items.map (·.2))) ++ [close]) =
      some (closed ((items.map (·.1)).reverse ++ done)) := by
  induction items generalizing done with
  | nil => exact absurd rfl hne
  | cons item rest ih =>
    have hfirst := h item List.mem_cons_self done
    cases rest with
    | nil =>
      rw [List.map_cons, List.map_nil, separated, List.intercalate_singleton, Due.run?_append, hfirst, Option.bind_some,
        Due.run?_cons, hclose]
      rfl
    | cons next others =>
      have hrest := ih (by simp) (fun other hm => h other (List.mem_cons_of_mem _ hm)) (item.1 :: done)
      rw [List.map_cons] at hrest
      rw [List.map_cons, List.map_cons, tokens_separated_cons, List.append_assoc, Due.run?_append, hfirst,
        Option.bind_some, List.cons_append, Due.run?_cons, hcomma, Option.bind_some, hrest]
      simp

theorem run?_elements {elements : List (Json × List Lexeme)} (hne : elements ≠ [])
    (h : ∀ element ∈ elements, ReadsAs element.1 element.2) (stack : List Frame) :
    (Due.value (.array [] :: stack)).run? (tokens (separated (elements.map (·.2))) ++ [.closeArray]) =
      some (.separator (.array (elements.map (·.1))) stack) := by
  have hitems := run?_items (fun done => .value (.array done :: stack))
    (fun v done => .separator v (.array done :: stack))
    .closeArray (fun done => .separator (.array done.reverse) stack) (fun _ _ => rfl) (fun _ _ => rfl) hne
    (fun element hm done => h element hm (.array done :: stack)) []
  rwa [List.append_nil, List.reverse_reverse] at hitems

theorem run?_members {members : List (Text × Json × List Lexeme)} (hne : members ≠ [])
    (h : ∀ member ∈ members, ReadsAs member.2.1 member.2.2) (stack : List Frame) :
    (Due.name [] stack).run?
        (tokens (separated (members.map fun member => .token (.string member.1) :: .token .colon :: member.2.2)) ++
          [.closeObject]) =
      some (.separator (.object (members.map fun member => (member.1, member.2.1))) stack) := by
  let items := members.map fun member =>
    ((member.1, member.2.1), Lexeme.token (.string member.1) :: .token .colon :: member.2.2)
  have hread : ∀ item ∈ items, ∀ done, (Due.name done stack).run? (tokens item.2) =
      some (.separator item.1.2 (.object done item.1.1 :: stack)) := by
    intro item hm done
    obtain ⟨member, hmember, rfl⟩ := List.mem_map.1 hm
    -- The name and the colon leave the value of the member due.
    rw [tokens_cons, tokens_cons, Due.run?_cons, Due.step?, Option.bind_some, Due.run?_cons, Due.step?,
      Option.bind_some]
    exact h member hmember (.object done member.1 :: stack)
  have hitems := run?_items (fun done => .name done stack)
    (fun member done => .separator member.2 (.object done member.1 :: stack)) .closeObject
    (fun done => .separator (.object done.reverse) stack) (fun _ _ => rfl) (fun _ _ => rfl)
    (by simpa [items] using hne) hread []
  rw [List.append_nil, List.reverse_reverse, List.map_map, List.map_map] at hitems
  exact hitems

/-- Where an array may end, a value is read as where one is due. -/
theorem run?_element {lexemes : List Lexeme} (h : Shaped lexemes) (more : List Token) (stack : List Frame) :
    (Due.element stack).run? (tokens lexemes ++ more) =
      (Due.value (.array [] :: stack)).run? (tokens lexemes ++ more) := by
  obtain ⟨first, hfirst, hopens⟩ := h.opens
  obtain ⟨rest, rfl⟩ := List.head?_eq_some_iff.1 hfirst
  match first, hopens with
  | .token .openArray, _ | .token .openObject, _ | .token .null, _ | .token (.bool _), _ | .token (.number _), _
  | .token (.string _), _ => rfl

theorem Spells.readsAs {value : Json} {lexemes : List Lexeme} (h : Spells value lexemes) : ReadsAs value lexemes := by
  induction h with
  | null => exact fun _ => rfl
  | bool => exact fun _ => rfl
  | number => exact fun _ => rfl
  | string => exact fun _ => rfl
  | emptyArray => exact fun _ => rfl
  | emptyObject => exact fun _ => rfl
  | @array elements hne h extra ih =>
    intro stack
    have hshaped : Shaped (separated (elements.map (·.2))) :=
      shaped_separated (by simpa using hne) fun item hm => by
        obtain ⟨element, helement, rfl⟩ := List.mem_map.1 hm
        exact (h element helement).shaped
    rw [tokens_enclosed, Due.run?_cons]
    simp only [Due.step?, Due.startValue?, Option.bind_some]
    rw [run?_element hshaped]
    exact run?_elements hne ih stack
  | @object members hne hname h extra ih =>
    intro stack
    rw [tokens_enclosed, Due.run?_cons]
    simp only [Due.step?, Due.startValue?, Option.bind_some]
    have hmembers := run?_members hne ih stack
    obtain ⟨member, rest, rfl⟩ := List.exists_cons_of_ne_nil hne
    rw [List.map_cons] at hmembers ⊢
    obtain ⟨tail, htail⟩ := exists_separated_cons (.token (.string member.1)) (.token .colon :: member.2.2)
      (rest.map fun member => .token (.string member.1) :: .token .colon :: member.2.2)
    rw [htail] at hmembers ⊢
    exact hmembers

theorem ofTokens?_of_spells {value : Json} {lexemes : List Lexeme} (h : Spells value lexemes) :
    ofTokens? (tokens lexemes) = some value := by
  have hrun : (tokens lexemes).foldlM Due.step? (.value []) = some (.separator value []) := h.readsAs []
  rw [ofTokens?, hrun]
  rfl

/-! ## Words -/

namespace Token

/-- A character of a number or of one of the three constants. -/
def isWordChar (c : Char) : Bool := c.isAlphanum || c == '+' || c == '-' || c == '.'

theorem isWordChar_of_isDigit {c : Char} (h : c.isDigit = true) : isWordChar c = true := by
  simp [isWordChar, Char.isAlphanum, h]

end Token

namespace Literal

open Token

theorem digits?_eq_some {text rest : Text} (h : digits? text = some rest) :
    ∃ digits, text = digits ++ rest ∧ digits.all isWordChar = true := by
  cases text with
  | nil => cases h
  | cons c tail =>
    rw [digits?] at h
    split at h
    next hc =>
      cases h
      refine ⟨c :: tail.takeWhile Char.isDigit, by simp, List.all_eq_true.2 fun d hm => isWordChar_of_isDigit ?_⟩
      rcases List.mem_cons.1 hm with rfl | hm
      · exact hc
      · exact List.all_eq_true.1 List.all_takeWhile d hm
    · cases h

theorem all_of_digits? {text rest : Text} (h : digits? text = some rest) (hrest : rest.all isWordChar = true) :
    text.all isWordChar = true := by
  obtain ⟨digits, rfl, hdigits⟩ := digits?_eq_some h
  rw [List.all_append, hdigits, hrest]
  rfl

theorem all_cons {c : Char} {rest : Text} (hc : isWordChar c = true) (h : rest.all isWordChar = true) :
    (c :: rest).all isWordChar = true := by
  rw [List.all_cons, hc, h]
  rfl

theorem all_of_isExponent {text : Text} (h : isExponent text = true) : text.all isWordChar = true := by
  cases text with
  | nil => rfl
  | cons e rest =>
    simp only [isExponent, Bool.and_eq_true, Bool.or_eq_true, beq_iff_eq] at h
    obtain ⟨he, hdigits⟩ := h
    refine all_cons (by rcases he with rfl | rfl <;> rfl) ?_
    split at hdigits
    · exact all_cons rfl (all_of_digits? hdigits rfl)
    · exact all_cons rfl (all_of_digits? hdigits rfl)
    · exact all_of_digits? hdigits rfl

theorem all_of_isFraction {text : Text} (h : isFraction text = true) : text.all isWordChar = true := by
  unfold isFraction at h
  split at h
  · split at h
    next hdigits => exact all_cons rfl (all_of_digits? hdigits (all_of_isExponent h))
    · cases h
  · exact all_of_isExponent h

theorem all_of_isUnsigned {text : Text} (h : isUnsigned text = true) : text.all isWordChar = true := by
  unfold isUnsigned at h
  split at h
  · exact all_cons rfl (all_of_isFraction h)
  · split at h
    next hdigits => exact all_of_digits? hdigits (all_of_isFraction h)
    · cases h

theorem all_of_isNumber {text : Text} (h : isNumber text = true) : text.all isWordChar = true := by
  unfold isNumber at h
  split at h
  · exact all_cons rfl (all_of_isUnsigned h)
  · exact all_of_isUnsigned h

/-- Where a backslash takes the next character with it, no quotation mark stands in
the text and its end is not within an escape. -/
inductive Enclosed : Text → Prop where
  | nil : Enclosed []
  | char {c : Char} {rest : Text} (hquote : c ≠ '\x22') (hslash : c ≠ '\\') (h : Enclosed rest) : Enclosed (c :: rest)
  | escape {letter : Char} {rest : Text} (h : Enclosed rest) : Enclosed ('\\' :: letter :: rest)

theorem Enclosed.hexDigit {c : Char} {rest : Text} (hc : (hexValue? c).isSome = true) (h : Enclosed rest) :
    Enclosed (c :: rest) := by
  refine .char ?_ ?_ h
  · rintro rfl
    cases hc
  · rintro rfl
    cases hc

theorem isSome_of_unit? {a b c d : Char} (h : (unit? a b c d).isSome = true) :
    (hexValue? a).isSome = true ∧ (hexValue? b).isSome = true ∧ (hexValue? c).isSome = true ∧
      (hexValue? d).isSome = true := by
  unfold unit? at h
  cases ha : hexValue? a <;> cases hb : hexValue? b <;> cases hc : hexValue? c <;> cases hd : hexValue? d <;>
    simp_all

theorem IsString.enclosed {literal : Text} (h : IsString literal) : Enclosed literal := by
  induction h with
  | nil => exact .nil
  | char hquote hslash hcontrol h ih => exact .char hquote hslash ih
  | escape hletter h ih => exact .escape ih
  | unit hunit h ih =>
    obtain ⟨ha, hb, hc, hd⟩ := isSome_of_unit? hunit
    exact .escape (.hexDigit ha (.hexDigit hb (.hexDigit hc (.hexDigit hd ih))))

theorem IsString.isWellFormed {literal : Text} (h : IsString literal) : isWellFormed literal = true := by
  induction h with
  | nil => rfl
  | char hquote hslash hcontrol h ih => simp [Literal.isWellFormed, hslash, hcontrol, ih]
  | @escape letter rest hletter h ih =>
    have hu : letter ≠ 'u' := by
      rintro rfl
      cases hletter
    simp [Literal.isWellFormed, hu, hletter, ih]
  | unit hunit h ih => simp [Literal.isWellFormed, hunit, ih]

end Literal

/-- What is left of blanks and comments are blanks. -/
theorem Piece.all_isSpace_kept {piece : Piece} (h : piece.lexeme? = none) : piece.kept.all Token.isSpace = true := by
  match piece with
  | .blank c hc => simp [Piece.kept, hc]
  | .lineComment body hbody => rfl
  | .blockComment body hbody =>
    refine List.all_eq_true.2 fun c hm => ?_
    rw [beq_iff_eq.1 (List.mem_filter.1 hm).2]
    rfl

namespace Token

theorem isWordChar_of_endsWord {c : Char} (h : Progress.endsWord c = true) : isWordChar c = false := by
  simp only [Progress.endsWord, isSpace, Bool.or_eq_true, beq_iff_eq] at h
  rcases h with ((((rfl | rfl) | rfl) | rfl) | h) | rfl
  all_goals try rfl
  unfold punctuation? at h
  split at h <;> first | rfl | cases h

theorem endsWord_of_isWordChar {c : Char} (h : isWordChar c = true) : Progress.endsWord c = false := by
  cases hends : Progress.endsWord c with
  | false => rfl
  | true =>
    rw [isWordChar_of_endsWord hends] at h
    cases h

/-- The tokens that are words. -/
def isWord : Token → Bool
  | null | bool _ | number _ => true
  | _ => false

theorem all_of_isWord {token : Token} (h : token.isWord = true) (hspelled : token.IsSpelled) :
    token.text.all isWordChar = true := by
  match token, h with
  | null, _ | bool true, _ | bool false, _ => rfl
  | number literal, _ => exact Literal.all_of_isNumber hspelled

theorem ofWord?_text {token : Token} (h : token.isWord = true) (hspelled : token.IsSpelled) :
    ofWord? token.text = some token := by
  match token, h with
  | null, _ | bool true, _ | bool false, _ => rfl
  | number literal, _ =>
    have hspelled : Literal.isNumber literal = true := hspelled
    -- None of the three constants spells a number.
    have hne : ∀ word : Text, Literal.isNumber word = false → (literal == word) = false := by
      intro word hword
      refine beq_eq_false_iff_ne.2 ?_
      rintro rfl
      rw [hword] at hspelled
      cases hspelled
    show ofWord? literal = some (number literal)
    rw [ofWord?, hne "null" rfl, hne "true" rfl, hne "false" rfl, hspelled]
    rfl

namespace Progress

/-- One character after the other. -/
def run? (progress : Progress) (text : Text) : Option Progress := text.foldlM step? progress

theorem run?_cons (progress : Progress) (c : Char) (rest : Text) :
    progress.run? (c :: rest) = (progress.step? c).bind (·.run? rest) := rfl

theorem run?_append (progress : Progress) (front back : Text) :
    progress.run? (front ++ back) = (progress.run? front).bind (·.run? back) :=
  List.foldlM_append

/-- The tokens up to a place are complete: the reader stands between tokens, or
right after a word. -/
inductive Reached : Progress → List Token → Prop where
  | between (done : List Token) : Reached ⟨done, .between⟩ done
  | word {done : List Token} {read : Text} {token : Token} (h : ofWord? read.reverse = some token) :
      Reached ⟨done, .word read⟩ (token :: done)

/-- A character that ends a word is read as if the word were followed by a blank. -/
theorem step?_of_reached {progress : Progress} {done : List Token} (h : Reached progress done) {c : Char}
    (hc : endsWord c = true) : progress.step? c = some (advance done c) := by
  cases h with
  | between => rfl
  | word hword => simp only [step?, hc, if_true, hword, Option.map_some]

theorem finish?_of_reached {progress : Progress} {done : List Token} (h : Reached progress done) :
    progress.finish? = some done.reverse := by
  cases h with
  | between => rfl
  | word hword => simp only [finish?, hword, Option.map_some]

theorem run?_blanks {progress : Progress} {done : List Token} (h : Reached progress done) {blanks : Text}
    (hblanks : blanks.all isSpace = true) :
    ∃ next, progress.run? blanks = some next ∧ Reached next done ∧ (next = progress ∨ next.place = .between) := by
  induction blanks generalizing progress with
  | nil => exact ⟨progress, rfl, h, .inl rfl⟩
  | cons c rest ih =>
    obtain ⟨hc, hrest⟩ := Bool.and_eq_true_iff.1 hblanks
    have hends : endsWord c = true := by simp [endsWord, hc]
    have hstep : progress.step? c = some ⟨done, .between⟩ := by
      rw [step?_of_reached h hends, advance, if_pos hc]
    obtain ⟨next, hnext, hreached, hplace⟩ := ih (.between done) hrest
    refine ⟨next, by rw [run?_cons, hstep, Option.bind_some, hnext], hreached, .inr ?_⟩
    rcases hplace with rfl | hplace
    · rfl
    · exact hplace

/-- The characters of a word, after the first. -/
theorem run?_word (done : List Token) (read : Text) {word : Text} (h : word.all isWordChar = true) :
    run? ⟨done, .word read⟩ word = some ⟨done, .word (word.reverse ++ read)⟩ := by
  induction word generalizing read with
  | nil => rfl
  | cons c rest ih =>
    obtain ⟨hc, hrest⟩ := Bool.and_eq_true_iff.1 h
    have hstep : step? ⟨done, .word read⟩ c = some ⟨done, .word (c :: read)⟩ := by
      simp only [step?, endsWord_of_isWordChar hc, Bool.false_eq_true, if_false]
    rw [run?_cons, hstep, Option.bind_some, ih _ hrest]
    simp

/-- The first character of a word. -/
theorem advance_of_isWordChar (done : List Token) {c : Char} (h : isWordChar c = true) :
    advance done c = ⟨done, .word [c]⟩ := by
  have hends := endsWord_of_isWordChar h
  simp only [endsWord, Bool.or_eq_false_iff, Option.isSome_eq_false_iff, Option.isNone_iff_eq_none] at hends
  obtain ⟨⟨hspace, hnone⟩, hquote⟩ := hends
  simp only [advance, hspace, hnone, hquote, Bool.false_eq_true, if_false]

/-- The characters between the quotation marks of a string. -/
theorem run?_enclosed (done : List Token) (read : Text) {literal : Text} (h : Literal.Enclosed literal) :
    run? ⟨done, .string read⟩ literal = some ⟨done, .string (literal.reverse ++ read)⟩ := by
  induction h generalizing read with
  | nil => rfl
  | @char c rest hquote hslash h ih =>
    have hstep : step? ⟨done, .string read⟩ c = some ⟨done, .string (c :: read)⟩ := by
      simp [step?, hquote, hslash]
    rw [run?_cons, hstep, Option.bind_some, ih]
    simp
  | @escape letter rest h ih =>
    rw [run?_cons, show step? ⟨done, .string read⟩ '\\' = some ⟨done, .escape ('\\' :: read)⟩ from rfl,
      Option.bind_some, run?_cons,
      show step? ⟨done, .escape ('\\' :: read)⟩ letter = some ⟨done, .string (letter :: '\\' :: read)⟩ from rfl,
      Option.bind_some, ih]
    simp

theorem run?_string {progress : Progress} {done : List Token} (h : Reached progress done) {literal : Text}
    (hliteral : Literal.IsString literal) :
    progress.run? (Token.string literal).text = some ⟨.string literal :: done, .between⟩ := by
  have hclose : step? ⟨done, .string literal.reverse⟩ '\x22' = some ⟨.string literal :: done, .between⟩ := by
    show (ofString? literal.reverse.reverse).map _ = _
    rw [List.reverse_reverse, ofString?, if_pos hliteral.isWellFormed, Option.map_some]
  rw [text_string, run?_cons, step?_of_reached h rfl, Option.bind_some, run?_append,
    show advance done '\x22' = ⟨done, .string []⟩ from rfl, run?_enclosed done [] hliteral.enclosed, List.append_nil,
    Option.bind_some, run?_cons, hclose]
  rfl

theorem run?_word_token (done : List Token) {token : Token} (h : token.isWord = true) (hspelled : token.IsSpelled) :
    ∃ read, run? ⟨done, .between⟩ token.text = some ⟨done, .word read⟩ ∧ ofWord? read.reverse = some token := by
  have hword := ofWord?_text h hspelled
  have hall := all_of_isWord h hspelled
  cases htext : token.text with
  | nil =>
    rw [htext] at hword
    cases hword
  | cons c rest =>
    rw [htext] at hword hall
    obtain ⟨hc, hrest⟩ := Bool.and_eq_true_iff.1 hall
    refine ⟨rest.reverse ++ [c], ?_, by simpa using hword⟩
    rw [run?_cons, show step? ⟨done, .between⟩ c = some (advance done c) from rfl, advance_of_isWordChar done hc,
      Option.bind_some, run?_word done [c] hrest]

theorem run?_punctuation {progress : Progress} {done : List Token} (h : Reached progress done) {token : Token}
    {c : Char} (hc : punctuation? c = some token) (hspace : isSpace c = false) :
    progress.run? [c] = some ⟨token :: done, .between⟩ := by
  have hends : endsWord c = true := by simp [endsWord, hc]
  rw [run?_cons, step?_of_reached h hends, advance, hspace, hc]
  rfl

/-- Reading a lexeme leaves the reader between tokens, or where no value may start. -/
theorem run?_lexeme {progress : Progress} {done : List Token} (h : Reached progress done) {lexeme : Lexeme}
    (hspelled : lexeme.IsSpelled) (hplace : progress.place = .between ∨ lexeme.opens = false) :
    ∃ next, progress.run? (Piece.lexeme lexeme).kept = some next ∧ Reached next ((tokens [lexeme]).reverse ++ done) ∧
      (next.place = .between ∨ ∀ other, Follows lexeme other → other.opens = false) := by
  -- A bracket, comma or colon ends the word before it.
  have hmark : ∀ token c, token.text = [c] → punctuation? c = some token → isSpace c = false →
      ∃ next, progress.run? token.text = some next ∧ Reached next (token :: done) ∧
        (next.place = .between ∨ ∀ other, Follows (.token token) other → other.opens = false) := by
    intro token c htext hc hspace
    exact ⟨_, by rw [htext, run?_punctuation h hc hspace], .between _, .inl rfl⟩
  -- A word comes where a value may start, which is between tokens.
  have hword : ∀ token, token.isWord = true → token.IsSpelled → progress.place = .between →
      (Lexeme.token token).ends = true → ∃ next, progress.run? token.text = some next ∧ Reached next (token :: done) ∧
        (next.place = .between ∨ ∀ other, Follows (.token token) other → other.opens = false) := by
    intro token hisWord hspelled hbetween hends
    cases h with
    | between =>
      obtain ⟨read, hread, hofWord⟩ := run?_word_token done hisWord hspelled
      exact ⟨_, hread, .word hofWord, .inr fun other hfollows => hfollows.afterValue hends⟩
    | word => cases hbetween
  match lexeme with
  | .extraComma =>
    exact ⟨progress, rfl, h, .inr fun other hfollows => opens_of_closes (hfollows.afterExtra rfl)⟩
  | .token .openArray => exact hmark .openArray '[' rfl rfl rfl
  | .token .closeArray => exact hmark .closeArray ']' rfl rfl rfl
  | .token .openObject => exact hmark .openObject '\x7b' rfl rfl rfl
  | .token .closeObject => exact hmark .closeObject '\x7d' rfl rfl rfl
  | .token .comma => exact hmark .comma ',' rfl rfl rfl
  | .token .colon => exact hmark .colon ':' rfl rfl rfl
  | .token .null => exact hword .null rfl trivial (hplace.resolve_right nofun) rfl
  | .token (.bool flag) => exact hword (.bool flag) rfl trivial (hplace.resolve_right nofun) rfl
  | .token (.number literal) => exact hword (.number literal) rfl hspelled (hplace.resolve_right nofun) rfl
  | .token (.string literal) => exact ⟨_, run?_string h hspelled, .between _, .inl rfl⟩

theorem run?_pieces {pieces : List Piece} {progress : Progress} {done : List Token} (h : Reached progress done)
    (hspelled : ∀ lexeme ∈ Piece.lexemes pieces, lexeme.IsSpelled) (hchain : (Piece.lexemes pieces).IsChain Follows)
    (hplace : progress.place = .between ∨ ∀ first ∈ (Piece.lexemes pieces).head?, first.opens = false) :
    ∃ next, progress.run? (pieces.flatMap Piece.kept) = some next ∧
      Reached next ((tokens (Piece.lexemes pieces)).reverse ++ done) := by
  induction pieces generalizing progress done with
  | nil => exact ⟨progress, rfl, h⟩
  | cons piece rest ih =>
    rw [List.flatMap_cons]
    simp only [run?_append]
    cases hpiece : piece.lexeme? with
    | none =>
      have hlexemes : Piece.lexemes (piece :: rest) = Piece.lexemes rest := List.filterMap_cons_none hpiece
      rw [hlexemes] at hspelled hchain hplace ⊢
      obtain ⟨next, hnext, hreached, hsame⟩ := run?_blanks h (Piece.all_isSpace_kept hpiece)
      rw [hnext, Option.bind_some]
      refine ih hreached hspelled hchain ?_
      rcases hsame with rfl | hbetween
      · exact hplace
      · exact .inl hbetween
    | some lexeme =>
      obtain rfl := Piece.eq_lexeme hpiece
      have hlexemes : Piece.lexemes (.lexeme lexeme :: rest) = lexeme :: Piece.lexemes rest := rfl
      rw [hlexemes] at hspelled hchain hplace ⊢
      obtain ⟨hfollows, hchain⟩ := List.isChain_cons.1 hchain
      obtain ⟨next, hnext, hreached, hafter⟩ := run?_lexeme h (hspelled lexeme List.mem_cons_self)
        (hplace.imp_right fun hfirst => hfirst lexeme rfl)
      obtain ⟨last, hlast, hend⟩ := ih hreached (fun other hm => hspelled other (List.mem_cons_of_mem _ hm)) hchain
        (hafter.imp_right fun hother first hfirst => hother first (hfollows first hfirst))
      refine ⟨last, by rw [hnext, Option.bind_some, hlast], ?_⟩
      rw [← List.singleton_append, tokens_append, List.reverse_append, List.append_assoc]
      exact hend

end Progress
end Token

namespace Document

theorem tokens?_kept (document : Document) : tokens? document.kept = some document.tokens := by
  obtain ⟨next, hnext, hreached⟩ := Token.Progress.run?_pieces (.between []) document.spells.isSpelled
    document.spells.shaped.chain (.inl rfl)
  have hrun : document.kept.foldlM Token.Progress.step? .start = some next := hnext
  rw [tokens?, hrun, Option.bind_some, Token.Progress.finish?_of_reached hreached, List.append_nil,
    List.reverse_reverse, tokens]

theorem ofTokens?_tokens (document : Document) : ofTokens? document.tokens = some document.value :=
  ofTokens?_of_spells document.spells

/-- **A document without its comments and superfluous commas is read as its value.** -/
theorem parse?_kept (document : Document) : parse? document.kept = some document.value := by
  rw [parse?, tokens?_kept, Option.bind_some, ofTokens?_tokens]

end Document
end ApiCoverage.Json
