/-
What is written as JSON is read back.

A value whose literals are those of the format is written as a plain document: the
line feed and the indentation at each level are blanks between its lexemes. Of the
literals, those of texts and counts are of the format and stand for the text and
the count that they were made from.
-/
import ApiCoverage.Json.Printer
import ApiCoverage.Proofs.JsonReading
import ApiCoverage.Proofs.TextFacts
import Mathlib.Data.List.TakeWhile
import Mathlib.Tactic.Choose

namespace ApiCoverage.Json

/-! ## Literals -/

namespace Literal

theorem decode?_char {c : Char} (hslash : c ≠ '\\') (hcontrol : ¬ c.toNat < 0x20) (rest : Text) :
    decode? (c :: rest) = (decode? rest).map (c :: ·) := by
  rw [decode?]
  · simp [hslash, hcontrol]
  · exact fun _ _ _ _ _ h _ => hslash h
  · exact fun _ _ h _ => hslash h

theorem decode?_escape {letter c : Char} (h : escaped? letter = some c) (rest : Text) :
    decode? ('\\' :: letter :: rest) = (decode? rest).map (c :: ·) := by
  have hu : letter ≠ 'u' := by
    rintro rfl
    cases h
  rw [decode?, h]
  · cases decode? rest <;> rfl
  · exact fun _ _ _ _ _ heq _ => hu heq

theorem decode?_unit {a b c d : Char} {n : Nat} (h : unit? a b c d = some n) (hn : n < 0x20) (rest : Text) :
    decode? ('\\' :: 'u' :: a :: b :: c :: d :: rest) = (decode? rest).map (Char.ofNat n :: ·) := by
  have hlow : isLowSurrogate n = false := by
    simp only [isLowSurrogate, Bool.and_eq_false_iff, decide_eq_false_iff_not]
    omega
  have hhigh : isHighSurrogate n = false := by
    simp only [isHighSurrogate, Bool.and_eq_false_iff, decide_eq_false_iff_not]
    omega
  simp only [decode?, h, hlow, hhigh, Option.bind_eq_bind, Option.bind_some, Bool.false_eq_true, if_false]
  cases decode? rest <;> rfl

theorem decode?_encodeChar_append (c : Char) (rest : Text) :
    decode? (encodeChar c ++ rest) = (decode? rest).map (c :: ·) := by
  unfold encodeChar
  split
  case h_8 hslash _ _ _ _ _ =>
    split
    next hcontrol =>
      have hunit := decode?_unit (unit?_hexDigit hcontrol) hcontrol rest
      rwa [Char.ofNat_toNat] at hunit
    next hcontrol => exact decode?_char hslash hcontrol rest
  all_goals exact decode?_escape rfl rest

/-- The literal of a text stands for it. -/
theorem decode?_encode (text : Text) : decode? (encode text) = some text := by
  induction text with
  | nil => rfl
  | cons c rest ih =>
    rw [encode, List.flatMap_cons, ← encode, decode?_encodeChar_append, ih, Option.map_some]

theorem isNumber_cons {c : Char} {rest : Text} (hc : c.isDigit = true) (hzero : c ≠ '0')
    (hrest : ∀ d ∈ rest, d.isDigit = true) : isNumber (c :: rest) = true := by
  have hdigits : digits? (c :: rest) = some [] := by
    rw [digits?, if_pos hc, List.dropWhile_eq_nil_iff.2 hrest]
  have hminus : c ≠ '-' := by
    rintro rfl
    cases hc
  unfold isNumber
  split
  next heq => exact absurd (List.cons.inj heq).1 hminus
  unfold isUnsigned
  split
  next heq => exact absurd (List.cons.inj heq).1 hzero
  rw [hdigits]
  rfl

/-- No count but zero starts with a zero. -/
theorem exists_toDigits_eq_cons {n : Nat} (h : 0 < n) : ∃ c rest, Nat.toDigits 10 n = c :: rest ∧ c ≠ '0' := by
  induction n using Nat.strongRecOn with
  | ind n ih =>
    rw [Nat.toDigits_eq_if (by decide)]
    split
    next hlt =>
      have hdigit : ∀ n < 10, 0 < n → Nat.digitChar n ≠ '0' := by decide
      exact ⟨_, [], rfl, hdigit n hlt h⟩
    next hge =>
      obtain ⟨c, rest, htext, hc⟩ := ih (n / 10) (by omega) (by omega)
      exact ⟨c, rest ++ [(n % 10).digitChar], by rw [htext, List.cons_append], hc⟩

theorem isNumber_ofNat (n : Nat) : isNumber (Text.ofNat n) = true := by
  rcases Nat.eq_zero_or_pos n with rfl | hpos
  · rfl
  · obtain ⟨c, rest, htext, hzero⟩ := exists_toDigits_eq_cons hpos
    have hdigit : ∀ d ∈ c :: rest, d.isDigit = true := fun d hm =>
      Nat.isDigit_of_mem_toDigits (by decide) (by decide) (htext ▸ hm)
    rw [Text.ofNat, htext]
    exact isNumber_cons (hdigit c List.mem_cons_self) hzero fun d hm => hdigit d (List.mem_cons_of_mem _ hm)

end Literal

/-! ## Values -/

/-- Every literal of the value is one of the format. -/
inductive IsSpelled : Json → Prop where
  | null : IsSpelled .null
  | bool (flag : Bool) : IsSpelled (.bool flag)
  | number {literal : Text} (h : Literal.isNumber literal = true) : IsSpelled (.number literal)
  | string {literal : Text} (h : Literal.IsString literal) : IsSpelled (.string literal)
  | array {elements : List Json} (h : ∀ element ∈ elements, IsSpelled element) : IsSpelled (.array elements)
  | object {members : List (Text × Json)} (hname : ∀ member ∈ members, Literal.IsString member.1)
      (h : ∀ member ∈ members, IsSpelled member.2) : IsSpelled (.object members)

theorem isSpelled_ofText (text : Text) : IsSpelled (ofText text) := .string (Literal.isString_encode text)

theorem isSpelled_ofNat (n : Nat) : IsSpelled (ofNat n) := .number (Literal.isNumber_ofNat n)

theorem isSpelled_ofFields {fields : List (Text × Json)} (h : ∀ field ∈ fields, IsSpelled field.2) :
    IsSpelled (ofFields fields) := by
  refine .object (fun member hm => ?_) (fun member hm => ?_)
  · obtain ⟨field, _, rfl⟩ := List.mem_map.1 hm
    exact Literal.isString_encode field.1
  · obtain ⟨field, hfield, rfl⟩ := List.mem_map.1 hm
    exact h field hfield

theorem isSpelled_array {α : Type} {encode : α → Json} (h : ∀ x, IsSpelled (encode x)) (xs : List α) :
    IsSpelled (.array (xs.map encode)) := by
  refine .array fun element hm => ?_
  obtain ⟨x, _, rfl⟩ := List.mem_map.1 hm
  exact h x

theorem renderElements_eq (level : Nat) (elements : List Json) :
    renderElements level elements = elements.map (render level) := by
  induction elements with
  | nil => rfl
  | cons element rest ih => rw [renderElements, ih, List.map_cons]

theorem renderMembers_eq (level : Nat) (members : List (Text × Json)) :
    renderMembers level members = members.map fun member => quote member.1 ++ ": " ++ render level member.2 := by
  induction members with
  | nil => rfl
  | cons member rest ih => rw [renderMembers, ih, List.map_cons]

/-! ## The pieces of what is written -/

namespace Piece

/-- A new line at a level. -/
def newLine (level : Nat) : List Piece := blank '\n' rfl :: List.replicate (2 * level) (blank ' ' rfl)

/-- Items between brackets, each on a line of its own. -/
def enclosed (first last : Token) (level : Nat) (items : List (List Piece)) : List Piece :=
  lexeme (.token first) :: newLine (level + 1) ++
    (lexeme (.token .comma) :: newLine (level + 1)).intercalate items ++ newLine level ++ [lexeme (.token last)]

/-- The name of a member and its value. -/
def member (name : Text) (value : List Piece) : List Piece :=
  lexeme (.token (.string name)) :: lexeme (.token .colon) :: blank ' ' rfl :: value

theorem text_newLine (level : Nat) : (newLine level).flatMap text = Json.newLine level := by
  simp [newLine, Json.newLine, text, List.flatMap_replicate]

theorem lexemes_newLine (level : Nat) : lexemes (newLine level) = [] := by
  simp [newLine, lexemes, lexeme?]

theorem isPlain_newLine (level : Nat) : ∀ piece ∈ newLine level, piece.isPlain = true := by
  intro piece hm
  rcases List.mem_cons.1 hm with rfl | hm
  · rfl
  · rw [List.eq_of_mem_replicate hm]
    rfl

theorem lexemes_append (front back : List Piece) : lexemes (front ++ back) = lexemes front ++ lexemes back :=
  List.filterMap_append

theorem text_member (name : Text) (value : List Piece) :
    (member name value).flatMap text = quote name ++ ": " ++ value.flatMap text := by
  simp [member, text, Token.text_string, Token.text_colon, quote]

theorem lexemes_member (name : Text) (value : List Piece) :
    lexemes (member name value) = .token (.string name) :: .token .colon :: lexemes value := rfl

theorem isPlain_member (name : Text) {value : List Piece} (h : ∀ piece ∈ value, piece.isPlain = true) :
    ∀ piece ∈ member name value, piece.isPlain = true := by
  simp only [member, List.forall_mem_cons]
  exact ⟨rfl, rfl, rfl, h⟩

variable {first last : Token}

theorem text_enclosed {a b : Char} (hfirst : first.text = [a]) (hlast : last.text = [b]) (level : Nat)
    {items : List (List Piece)} (hne : items ≠ []) :
    (enclosed first last level items).flatMap text = enclose a b level (items.map (·.flatMap text)) := by
  have hitems := apply_intercalate (f := (·.flatMap text)) rfl (fun _ _ => List.flatMap_append)
    (lexeme (.token .comma) :: newLine (level + 1)) items
  have hempty : (items.map (·.flatMap text)).isEmpty = false := by simpa using hne
  simp only [enclosed, enclose, hempty, Bool.false_eq_true, if_false, List.flatMap_append, List.flatMap_cons,
    List.flatMap_nil, List.append_nil, hitems, text_newLine, Text.join_eq_intercalate]
  simp [text, hfirst, hlast, Token.text_comma]

theorem lexemes_enclosed (level : Nat) (items : List (List Piece)) :
    lexemes (enclosed first last level items) =
      .token first :: Lexeme.separated (items.map lexemes) ++ Lexeme.ending false ++ [.token last] := by
  have hitems := apply_intercalate (f := lexemes) rfl lexemes_append
    (lexeme (.token .comma) :: newLine (level + 1)) items
  have hcons : ∀ l (rest : List Piece), lexemes (lexeme l :: rest) = l :: lexemes rest := fun _ _ => rfl
  simp only [enclosed, lexemes_append, List.cons_append, hcons, hitems, lexemes_newLine]
  rfl

theorem isPlain_enclosed (level : Nat) {items : List (List Piece)}
    (h : ∀ item ∈ items, ∀ piece ∈ item, piece.isPlain = true) :
    ∀ piece ∈ enclosed first last level items, piece.isPlain = true := by
  have hcomma : ∀ piece ∈ lexeme (.token .comma) :: newLine (level + 1), piece.isPlain = true :=
    List.forall_mem_cons.2 ⟨rfl, isPlain_newLine _⟩
  have hitems := forall_mem_intercalate hcomma h
  simp only [enclosed, List.forall_mem_append, List.cons_append, List.forall_mem_cons]
  exact ⟨rfl, ⟨⟨isPlain_newLine _, hitems⟩, isPlain_newLine _⟩, rfl, nofun⟩

end Piece

/-- The pieces are plain, spell the value and are written as the text. -/
structure Prints (value : Json) (text : Text) (pieces : List Piece) : Prop where
  text : pieces.flatMap Piece.text = text
  spells : Spells value (Piece.lexemes pieces)
  plain : ∀ piece ∈ pieces, piece.isPlain = true

theorem prints_token {value : Json} {token : Token} (h : Spells value [.token token]) :
    Prints value token.text [.lexeme (.token token)] :=
  ⟨by simp [Piece.text], h, by simp [Piece.isPlain]⟩

theorem prints_empty {value : Json} {first last : Token} (h : Spells value [.token first, .token last]) :
    Prints value (first.text ++ last.text) [.lexeme (.token first), .lexeme (.token last)] :=
  ⟨by simp [Piece.text], h, by simp [Piece.isPlain]⟩

/-- A value is written as the pieces of a plain document, at every level. -/
theorem IsSpelled.exists_prints {value : Json} (h : IsSpelled value) (level : Nat) :
    ∃ pieces, Prints value (render level value) pieces := by
  induction h generalizing level with
  | null => exact ⟨_, prints_token .null⟩
  | bool flag => cases flag <;> exact ⟨_, prints_token (.bool _)⟩
  | number h => exact ⟨_, prints_token (.number h)⟩
  | string h => exact ⟨_, prints_token (.string h)⟩
  | @array elements h ih =>
    by_cases hne : elements = []
    · subst hne
      exact ⟨_, prints_empty .emptyArray⟩
    · choose! pieces hpieces using ih
      refine ⟨Piece.enclosed .openArray .closeArray level (elements.map (pieces · (level + 1))), ?_, ?_, ?_⟩
      · rw [Piece.text_enclosed rfl rfl level (by simpa using hne), render, renderElements_eq, List.map_map]
        congr 1
        exact List.map_congr_left fun element hm => (hpieces element hm _).text
      · have hspells : ∀ element ∈ elements.map fun element => (element, Piece.lexemes (pieces element (level + 1))),
            Spells element.1 element.2 := by
          intro element hm
          obtain ⟨value, hvalue, rfl⟩ := List.mem_map.1 hm
          exact (hpieces value hvalue _).spells
        have harray := Spells.array (by simpa using hne) hspells false
        rw [Piece.lexemes_enclosed]
        simpa [Function.comp_def] using harray
      · refine Piece.isPlain_enclosed level fun item hm => ?_
        obtain ⟨element, helement, rfl⟩ := List.mem_map.1 hm
        exact (hpieces element helement _).plain
  | @object members hname h ih =>
    by_cases hne : members = []
    · subst hne
      exact ⟨_, prints_empty .emptyObject⟩
    · choose! pieces hpieces using ih
      refine ⟨Piece.enclosed .openObject .closeObject level
        (members.map fun member => Piece.member member.1 (pieces member (level + 1))), ?_, ?_, ?_⟩
      · rw [Piece.text_enclosed rfl rfl level (by simpa using hne), render, renderMembers_eq, List.map_map]
        congr 1
        refine List.map_congr_left fun member hm => ?_
        rw [Function.comp_apply, Piece.text_member, (hpieces member hm _).text]
      · have hspells : ∀ member ∈ members.map fun member =>
              (member.1, member.2, Piece.lexemes (pieces member (level + 1))),
            Literal.IsString member.1 ∧ Spells member.2.1 member.2.2 := by
          intro member hm
          obtain ⟨old, hold, rfl⟩ := List.mem_map.1 hm
          exact ⟨hname old hold, (hpieces old hold _).spells⟩
        have hobject := Spells.object (by simpa using hne) (fun member hm => (hspells member hm).1)
          (fun member hm => (hspells member hm).2) false
        rw [Piece.lexemes_enclosed]
        simpa [Function.comp_def, Piece.lexemes_member] using hobject
      · refine Piece.isPlain_enclosed level fun item hm => ?_
        obtain ⟨member, hmember, rfl⟩ := List.mem_map.1 hm
        exact Piece.isPlain_member member.1 (hpieces member hmember _).plain

namespace Prints

variable {value : Json} {text : Text} {pieces : List Piece}

/-- The document of the pieces. -/
theorem exists_document (h : Prints value text pieces) :
    ∃ document : Document, document.isPlain = true ∧ document.value = value ∧ document.text = text := by
  refine ⟨⟨value, pieces, h.spells, none⟩, ?_, rfl, ?_⟩
  · simpa [Document.isPlain] using h.plain
  · rw [Document.text, h.text]
    exact List.append_nil _

theorem parse?_text (h : Prints value text pieces) : parse? text = some value := by
  obtain ⟨document, hplain, rfl, rfl⟩ := h.exists_document
  rw [← Document.kept_eq_text hplain, document.parse?_kept]

theorem append_newLine (h : Prints value text pieces) : Prints value (text ++ "\n") (pieces ++ [.blank '\n' rfl]) where
  text := by
    rw [List.flatMap_append, h.text]
    rfl
  spells := by
    rw [Piece.lexemes_append]
    exact (List.append_nil _).symm ▸ h.spells
  plain := List.forall_mem_append.2 ⟨h.plain, by simp [Piece.isPlain]⟩

end Prints

/-- **A value is written as a plain document, and is read back from it**, also with
a line feed after it. -/
theorem IsSpelled.parse?_print {value : Json} (h : IsSpelled value) :
    (∃ document : Document, document.isPlain = true ∧ document.text = value.print) ∧
      parse? (value.print ++ "\n") = some value := by
  obtain ⟨pieces, hprints⟩ := h.exists_prints 0
  obtain ⟨document, hplain, _, htext⟩ := hprints.exists_document
  exact ⟨⟨document, hplain, htext⟩, hprints.append_newLine.parse?_text⟩

end ApiCoverage.Json
