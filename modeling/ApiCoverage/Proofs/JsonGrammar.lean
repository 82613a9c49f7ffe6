/-
The grammar of JSON documents, with comments and superfluous commas.

A value is spelled by lexemes: its tokens and, after the last item of an array or
object, at most one superfluous comma. A document is a list of pieces, in which
blanks and comments stand in any number between the lexemes of a value. What
matters for reading is how lexemes follow one another: a value never comes right
after another one, a comma is followed by an item, and a superfluous comma by the
bracket that closes.
-/
import ApiCoverage.Json.Reader
import Mathlib.Data.List.Chain

namespace ApiCoverage.Json

/-! ## Literals -/

/-- The spelling of a string between its quotation marks. -/
inductive Literal.IsString : Text → Prop where
  | nil : IsString []
  | char {c : Char} {rest : Text} (hquote : c ≠ '\x22') (hslash : c ≠ '\\') (hcontrol : 0x20 ≤ c.toNat)
      (h : IsString rest) : IsString (c :: rest)
  | escape {letter : Char} {rest : Text} (hletter : (escaped? letter).isSome = true) (h : IsString rest) :
      IsString ('\\' :: letter :: rest)
  | unit {a b c d : Char} {rest : Text} (hunit : (unit? a b c d).isSome = true) (h : IsString rest) :
      IsString ('\\' :: 'u' :: a :: b :: c :: d :: rest)

namespace Literal

/-- A control character is the code unit of its escape. -/
theorem unit?_hexDigit {n : Nat} (h : n < 0x20) : unit? '0' '0' (hexDigit (n / 16)) (hexDigit (n % 16)) = some n := by
  have hall : ∀ n < 0x20, unit? '0' '0' (hexDigit (n / 16)) (hexDigit (n % 16)) = some n := by decide
  exact hall n h

theorem IsString.encodeChar_append (c : Char) {rest : Text} (h : IsString rest) : IsString (encodeChar c ++ rest) := by
  unfold encodeChar
  split
  case h_8 hquote hslash _ _ _ _ _ =>
    split
    next hcontrol => exact .unit (by rw [unit?_hexDigit hcontrol]; rfl) h
    next hcontrol => exact .char hquote hslash (Nat.le_of_not_lt hcontrol) h
  all_goals exact .escape rfl h

/-- Every text can be spelled. -/
theorem isString_encode (text : Text) : IsString (encode text) := by
  induction text with
  | nil => exact .nil
  | cons c rest ih => exact ih.encodeChar_append c

end Literal

namespace Token

/-- The text of a token. -/
def text : Token → Text
  | openArray => "["
  | closeArray => "]"
  | openObject => "\x7b"
  | closeObject => "\x7d"
  | comma => ","
  | colon => ":"
  | null => "null"
  | bool true => "true"
  | bool false => "false"
  | number literal => literal
  | string literal => '\x22' :: literal ++ ['\x22']

theorem text_string (literal : Text) : (string literal).text = '\x22' :: (literal ++ ['\x22']) := rfl

theorem text_comma : comma.text = [','] := rfl

theorem text_colon : colon.text = [':'] := rfl

/-- The literal of a token is one of the format. -/
def IsSpelled : Token → Prop
  | number literal => Literal.isNumber literal = true
  | string literal => Literal.IsString literal
  | _ => True

end Token

/-! ## Items with separators -/

section Intercalate

variable {α β : Type} {separator : List α} {items : List (List α)}

/-- What holds of everything in the separator and in the items holds of everything
in the items with the separator between them. -/
theorem forall_mem_intercalate {P : α → Prop} (hseparator : ∀ x ∈ separator, P x)
    (h : ∀ item ∈ items, ∀ x ∈ item, P x) : ∀ x ∈ separator.intercalate items, P x := by
  induction items with
  | nil => exact nofun
  | cons item rest ih =>
    have hrest := ih fun other hm => h other (List.mem_cons_of_mem _ hm)
    cases rest with
    | nil => simpa using h item List.mem_cons_self
    | cons next others =>
      intro x hm
      rw [List.intercalate_cons_cons, List.mem_append, List.mem_append] at hm
      rcases hm with (hm | hm) | hm
      · exact h item List.mem_cons_self x hm
      · exact hseparator x hm
      · exact hrest x hm

/-- What is made of a list part by part. -/
theorem apply_intercalate {f : List α → List β} (hnil : f [] = [])
    (happend : ∀ front back, f (front ++ back) = f front ++ f back) (separator : List α) (items : List (List α)) :
    f (separator.intercalate items) = (f separator).intercalate (items.map f) := by
  induction items with
  | nil => simpa using hnil
  | cons item rest ih =>
    cases rest with
    | nil => simp
    | cons next others =>
      rw [List.intercalate_cons_cons, happend, happend, ih]
      simp only [List.map_cons, List.intercalate_cons_cons]

end Intercalate

/-! ## Values -/

/-- A token, or a comma that separates nothing. -/
inductive Lexeme where
  | token (token : Token)
  | extraComma
  deriving DecidableEq, Repr

namespace Lexeme

def token? : Lexeme → Option Token
  | token t => some t
  | extraComma => none

def IsSpelled : Lexeme → Prop
  | token t => t.IsSpelled
  | extraComma => True

/-- The lexeme starts a value. -/
def opens : Lexeme → Bool
  | token .openArray | token .openObject | token .null | token (.bool _) | token (.number _)
  | token (.string _) => true
  | _ => false

/-- The lexeme closes an array or object. -/
def closes : Lexeme → Bool
  | token .closeArray | token .closeObject => true
  | _ => false

/-- The lexeme ends a value, or is the name of a member. -/
def ends : Lexeme → Bool
  | token .closeArray | token .closeObject | token .null | token (.bool _) | token (.number _)
  | token (.string _) => true
  | _ => false

/-- What may come after a lexeme. -/
structure Follows (a b : Lexeme) : Prop where
  afterValue : a.ends = true → b.opens = false
  afterComma : a = .token .comma → b.opens = true
  afterExtra : a = .extraComma → b.closes = true

/-- The tokens among lexemes. -/
def tokens (lexemes : List Lexeme) : List Token := lexemes.filterMap token?

/-- Items with commas between them. -/
def separated (items : List (List Lexeme)) : List Lexeme := [token .comma].intercalate items

/-- What stands before a closing bracket. -/
def ending (extra : Bool) : List Lexeme := if extra then [extraComma] else []

end Lexeme

open Json.Lexeme in
/-- The lexemes that spell a value. An array or object that is not empty may have
a superfluous comma after its last item. -/
inductive Spells : Json → List Lexeme → Prop where
  | null : Spells .null [token .null]
  | bool (flag : Bool) : Spells (.bool flag) [token (.bool flag)]
  | number {literal : Text} (h : Literal.isNumber literal = true) :
      Spells (.number literal) [token (.number literal)]
  | string {literal : Text} (h : Literal.IsString literal) :
      Spells (.string literal) [token (.string literal)]
  | emptyArray : Spells (.array []) [token .openArray, token .closeArray]
  | emptyObject : Spells (.object []) [token .openObject, token .closeObject]
  | array {elements : List (Json × List Lexeme)} (hne : elements ≠ [])
      (h : ∀ element ∈ elements, Spells element.1 element.2) (extra : Bool) :
      Spells (.array (elements.map (·.1)))
        (token .openArray :: separated (elements.map (·.2)) ++ ending extra ++ [token .closeArray])
  | object {members : List (Text × Json × List Lexeme)} (hne : members ≠ [])
      (hname : ∀ member ∈ members, Literal.IsString member.1)
      (h : ∀ member ∈ members, Spells member.2.1 member.2.2) (extra : Bool) :
      Spells (.object (members.map fun member => (member.1, member.2.1)))
        (token .openObject ::
          separated (members.map fun member => token (.string member.1) :: token .colon :: member.2.2) ++
          ending extra ++ [token .closeObject])

/-! ## Documents -/

/-- A piece of a document. -/
inductive Piece where
  | lexeme (lexeme : Lexeme)
  | blank (c : Char) (h : Token.isSpace c = true)
  /-- A comment to the end of the line. -/
  | lineComment (body : Text) (h : '\n' ∉ body)
  /-- A comment to the first `*/` after its start. -/
  | blockComment (body : Text) (h : ¬ ['*', '/'] <:+: body)

namespace Piece

def lexeme? : Piece → Option Lexeme
  | lexeme l => some l
  | _ => none

def text : Piece → Text
  | lexeme (.token t) => t.text
  | lexeme .extraComma => ","
  | blank c _ => [c]
  | lineComment body _ => "//" ++ body ++ "\n"
  | blockComment body _ => "/*" ++ body ++ "*/"

/-- What is left of a piece: of a comment the line feeds that it contains or that
end it, of a superfluous comma nothing, and all else as it is. -/
def kept : Piece → Text
  | lexeme (.token t) => t.text
  | lexeme .extraComma => []
  | blank c _ => [c]
  | lineComment _ _ => "\n"
  | blockComment body _ => body.filter (· == '\n')

/-- The piece belongs to plain JSON. -/
def isPlain : Piece → Bool
  | lexeme (.token _) => true
  | blank _ _ => true
  | _ => false

/-- The lexemes of pieces. -/
def lexemes (pieces : List Piece) : List Lexeme := pieces.filterMap lexeme?

theorem eq_lexeme {piece : Piece} {l : Lexeme} (h : piece.lexeme? = some l) : piece = lexeme l := by
  cases piece with
  | lexeme l => exact congrArg _ (Option.some.inj h)
  | blank | lineComment | blockComment => cases h

end Piece

/-- A document with comments and superfluous commas. -/
structure Document where
  /-- The value that the document spells. -/
  value : Json
  pieces : List Piece
  spells : Spells value (Piece.lexemes pieces)
  /-- The text of a line comment at the end, which no line feed ends. -/
  lastComment : Option { body : Text // '\n' ∉ body }

namespace Document

/-- The line comment at the end. -/
def lastText (document : Document) : Text :=
  match document.lastComment with
  | some body => "//" ++ body.1
  | none => []

def text (document : Document) : Text := document.pieces.flatMap Piece.text ++ document.lastText

/-- The document without comments and superfluous commas. -/
def kept (document : Document) : Text := document.pieces.flatMap Piece.kept

/-- The tokens of the document. -/
def tokens (document : Document) : List Token := Lexeme.tokens (Piece.lexemes document.pieces)

/-- The document is plain JSON. -/
def isPlain (document : Document) : Bool :=
  document.pieces.all Piece.isPlain && document.lastComment.isNone

theorem kept_eq_text {document : Document} (h : document.isPlain = true) : document.kept = document.text := by
  obtain ⟨hpieces, hlast⟩ := Bool.and_eq_true_iff.1 h
  have hnone : document.lastComment = none := Option.isNone_iff_eq_none.1 hlast
  have heach : ∀ piece ∈ document.pieces, piece.kept = piece.text := by
    intro piece hm
    have hplain := List.all_eq_true.1 hpieces piece hm
    match piece with
    | .lexeme (.token _) | .blank _ _ => rfl
    | .lexeme .extraComma | .lineComment _ _ | .blockComment _ _ => cases hplain
  rw [kept, text, lastText, hnone, List.append_nil]
  exact List.flatMap_congr heach

end Document

/-! ## How lexemes follow one another -/

namespace Lexeme

/-- Lexemes that start and end as a value does, each of which may come after the
one before it. -/
structure Shaped (lexemes : List Lexeme) : Prop where
  opens : ∃ first, lexemes.head? = some first ∧ first.opens = true
  ends : ∃ last, lexemes.getLast? = some last ∧ last.ends = true
  chain : lexemes.IsChain Follows

theorem shaped_singleton {lexeme : Lexeme} (hopens : lexeme.opens = true) (hends : lexeme.ends = true) :
    Shaped [lexeme] :=
  ⟨⟨lexeme, rfl, hopens⟩, ⟨lexeme, rfl, hends⟩, .singleton _⟩

theorem opens_of_closes : ∀ {lexeme : Lexeme}, lexeme.closes = true → lexeme.opens = false
  | token .closeArray, _ | token .closeObject, _ => rfl

theorem ends_of_closes : ∀ {lexeme : Lexeme}, lexeme.closes = true → lexeme.ends = true
  | token .closeArray, _ | token .closeObject, _ => rfl

/-- After a value comes what starts none. -/
theorem follows_of_ends {a b : Lexeme} (hends : a.ends = true) (hopens : b.opens = false) : Follows a b where
  afterValue _ := hopens
  afterComma h := by
    rw [h] at hends
    cases hends
  afterExtra h := by
    rw [h] at hends
    cases hends

/-- Anything may come after what starts a value without ending it. -/
theorem follows_of_opens {a : Lexeme} (hopens : a.opens = true) (hends : a.ends = false) (b : Lexeme) :
    Follows a b where
  afterValue h := by
    rw [hends] at h
    cases h
  afterComma h := by
    rw [h] at hopens
    cases hopens
  afterExtra h := by
    rw [h] at hopens
    cases hopens

theorem Shaped.comma {front back : List Lexeme} (hfront : Shaped front) (hback : Shaped back) :
    Shaped (front ++ token .comma :: back) := by
  obtain ⟨first, hfirst, hopens⟩ := hfront.opens
  obtain ⟨last, hlast, hends⟩ := hback.ends
  obtain ⟨next, hnext, hnextOpens⟩ := hback.opens
  refine ⟨⟨first, ?_, hopens⟩, ⟨last, ?_, hends⟩,
    List.isChain_append.2 ⟨hfront.chain, List.isChain_cons.2 ⟨?_, hback.chain⟩, ?_⟩⟩
  · simp [hfirst]
  · simp [List.getLast?_cons, hlast]
  · intro b hb
    rw [hnext, Option.mem_some_iff] at hb
    subst hb
    exact ⟨nofun, fun _ => hnextOpens, nofun⟩
  · intro a ha b hb
    obtain ⟨before, hbefore, hbeforeEnds⟩ := hfront.ends
    rw [hbefore, Option.mem_some_iff] at ha
    cases hb
    subst ha
    exact follows_of_ends hbeforeEnds rfl

theorem shaped_separated {items : List (List Lexeme)} (hne : items ≠ []) (h : ∀ item ∈ items, Shaped item) :
    Shaped (separated items) := by
  induction items with
  | nil => exact absurd rfl hne
  | cons item rest ih =>
    cases rest with
    | nil => simpa [separated] using h item List.mem_cons_self
    | cons next others =>
      have hrest := ih (by simp) fun other hm => h other (List.mem_cons_of_mem _ hm)
      rw [separated, List.intercalate_cons_cons, List.append_assoc]
      exact (h item List.mem_cons_self).comma hrest

/-- What stands before a closing bracket fits between the last item and it. -/
theorem isChain_ending (extra : Bool) {last : Lexeme} (hcloses : last.closes = true) :
    (ending extra ++ [last]).IsChain Follows ∧ ∀ b ∈ (ending extra ++ [last]).head?, b.opens = false := by
  cases extra with
  | false => exact ⟨.singleton _, fun b hb => by cases hb; exact opens_of_closes hcloses⟩
  | true =>
    refine ⟨List.isChain_pair.2 ⟨nofun, nofun, fun _ => hcloses⟩, fun b hb => ?_⟩
    cases hb
    rfl

theorem Shaped.enclosed {inner : List Lexeme} (h : Shaped inner) (extra : Bool) {first last : Lexeme}
    (hopens : first.opens = true) (hfirst : first.ends = false) (hcloses : last.closes = true) :
    Shaped (first :: inner ++ ending extra ++ [last]) := by
  obtain ⟨hending, hhead⟩ := isChain_ending extra hcloses
  rw [List.append_assoc, List.cons_append]
  refine ⟨⟨first, rfl, hopens⟩, ⟨last, by simp [List.getLast?_cons], ends_of_closes hcloses⟩,
    List.isChain_cons.2 ⟨fun b _ => follows_of_opens hopens hfirst b, List.isChain_append.2 ⟨h.chain, hending, ?_⟩⟩⟩
  intro a ha b hb
  obtain ⟨before, hbefore, hends⟩ := h.ends
  rw [hbefore, Option.mem_some_iff] at ha
  subst ha
  exact follows_of_ends hends (hhead b hb)

theorem Shaped.member {lexemes : List Lexeme} (h : Shaped lexemes) (name : Text) :
    Shaped (token (.string name) :: token .colon :: lexemes) := by
  obtain ⟨last, hlast, hends⟩ := h.ends
  refine ⟨⟨_, rfl, rfl⟩, ⟨last, by simp [List.getLast?_cons, hlast], hends⟩, ?_⟩
  refine List.isChain_cons_cons.2 ⟨follows_of_ends rfl rfl, List.isChain_cons.2 ⟨fun b _ => ?_, h.chain⟩⟩
  exact ⟨nofun, nofun, nofun⟩

end Lexeme

theorem Spells.shaped {value : Json} {lexemes : List Lexeme} (h : Spells value lexemes) : Lexeme.Shaped lexemes := by
  induction h with
  | null => exact Lexeme.shaped_singleton rfl rfl
  | bool => exact Lexeme.shaped_singleton rfl rfl
  | number => exact Lexeme.shaped_singleton rfl rfl
  | string => exact Lexeme.shaped_singleton rfl rfl
  | emptyArray => exact ⟨⟨_, rfl, rfl⟩, ⟨_, rfl, rfl⟩, List.isChain_pair.2 (Lexeme.follows_of_opens rfl rfl _)⟩
  | emptyObject => exact ⟨⟨_, rfl, rfl⟩, ⟨_, rfl, rfl⟩, List.isChain_pair.2 (Lexeme.follows_of_opens rfl rfl _)⟩
  | array hne h extra ih =>
    refine (Lexeme.shaped_separated (by simpa using hne) ?_).enclosed extra rfl rfl rfl
    intro item hm
    obtain ⟨element, helement, rfl⟩ := List.mem_map.1 hm
    exact ih element helement
  | object hne hname h extra ih =>
    refine (Lexeme.shaped_separated (by simpa using hne) ?_).enclosed extra rfl rfl rfl
    intro item hm
    obtain ⟨member, hmember, rfl⟩ := List.mem_map.1 hm
    exact (ih member hmember).member member.1

theorem Lexeme.forall_enclosed {P : Lexeme → Prop} (hcomma : P (.token .comma)) (hextra : P .extraComma)
    {first last : Lexeme} (hfirst : P first) (hlast : P last) {items : List (List Lexeme)}
    (h : ∀ item ∈ items, ∀ lexeme ∈ item, P lexeme) (extra : Bool) :
    ∀ lexeme ∈ first :: separated items ++ ending extra ++ [last], P lexeme := by
  intro lexeme hm
  rcases List.mem_append.1 hm with hm | hm
  · rcases List.mem_append.1 hm with hm | hm
    · rcases List.mem_cons.1 hm with rfl | hm
      · exact hfirst
      · exact forall_mem_intercalate (fun _ hm => List.mem_singleton.1 hm ▸ hcomma) h lexeme hm
    · cases extra with
      | false => cases hm
      | true => rwa [List.mem_singleton.1 hm]
  · rwa [List.mem_singleton.1 hm]

theorem Spells.isSpelled {value : Json} {lexemes : List Lexeme} (h : Spells value lexemes) :
    ∀ lexeme ∈ lexemes, lexeme.IsSpelled := by
  induction h with
  | null => simp [Lexeme.IsSpelled, Token.IsSpelled]
  | bool => simp [Lexeme.IsSpelled, Token.IsSpelled]
  | number h => simpa [Lexeme.IsSpelled, Token.IsSpelled] using h
  | string h => simpa [Lexeme.IsSpelled, Token.IsSpelled] using h
  | emptyArray => simp [Lexeme.IsSpelled, Token.IsSpelled]
  | emptyObject => simp [Lexeme.IsSpelled, Token.IsSpelled]
  | array hne h extra ih =>
    refine Lexeme.forall_enclosed trivial trivial trivial trivial (fun item hm => ?_) extra
    obtain ⟨element, helement, rfl⟩ := List.mem_map.1 hm
    exact ih element helement
  | object hne hname h extra ih =>
    refine Lexeme.forall_enclosed trivial trivial trivial trivial (fun item hm => ?_) extra
    obtain ⟨member, hmember, rfl⟩ := List.mem_map.1 hm
    intro lexeme hm
    rcases List.mem_cons.1 hm with rfl | hm
    · exact hname member hmember
    rcases List.mem_cons.1 hm with rfl | hm
    · trivial
    · exact ih member hmember lexeme hm

end ApiCoverage.Json
