/-
Words in a text: where one occurs, what the words between blanks are, and what
trimming leaves of a text.

Blanks only separate words. How many there are in one place and which ones they are
never shows in the words, and neither do those at the ends of a text.
-/
import ApiCoverage.Proofs.Lexemes

namespace ApiCoverage.Text

/-! ## Occurrences of a word -/

theorem hasWord_iff {word text : Text} : hasWord word text = true ↔ word <:+: text := by
  induction text with
  | nil =>
    rw [hasWord, cutAt?, Option.isSome_map, Option.isSome_iff_exists, List.infix_nil]
    simp [after?_eq_some_iff]
  | cons c rest ih =>
    rw [hasWord, cutAt?, List.infix_cons_iff, ← ih]
    cases hafter : after? word (c :: rest) with
    | none =>
      have hstarts : ¬ word <+: c :: rest := by
        rintro ⟨tail, htail⟩
        rw [after?_eq_some_iff.2 htail.symm] at hafter
        cases hafter
      simp [hstarts, hasWord]
    | some tail =>
      have hstarts : word <+: c :: rest := ⟨tail, (after?_eq_some_iff.1 hafter).symm⟩
      simp [hstarts]

/-- A word stands on one side of a character that it does not hold. -/
theorem infix_append_cons {word : Text} {c : Char} (hne : word ≠ []) (hc : c ∉ word) (before after : Text)
    (h : word <:+: before ++ c :: after) : word <:+: before ∨ word <:+: after := by
  rcases List.infix_append_iff.1 h with h | h | ⟨front, back, rfl, hfront, hback⟩
  · exact .inl h
  · rcases List.infix_cons_iff.1 h with hstarts | h
    · obtain ⟨tail, htail⟩ := hstarts
      cases word with
      | nil => exact absurd rfl hne
      | cons w word =>
        obtain ⟨rfl, _⟩ := List.cons.inj htail
        exact absurd List.mem_cons_self hc
    · exact .inr h
  · cases back with
    | nil => exact .inl (by simpa using hfront.isInfix)
    | cons b back =>
      obtain ⟨tail, htail⟩ := hback
      obtain ⟨rfl, _⟩ := List.cons.inj htail
      exact absurd (List.mem_append_right _ List.mem_cons_self) hc

/-- The first occurrence of a word comes where its first character does. -/
theorem cutAt?_append {w : Char} {before : Text} (h : w ∉ before) (word after : Text) :
    cutAt? (w :: word) (before ++ (w :: word ++ after)) = some (before, after) := by
  induction before with
  | nil =>
    have hafter : after? (w :: word) (w :: word ++ after) = some after := after?_eq_some_iff.2 rfl
    rw [List.cons_append] at hafter
    rw [List.nil_append, List.cons_append, cutAt?, hafter]
  | cons c before ih =>
    obtain ⟨hne, hrest⟩ := not_or.1 (List.mem_cons.not.1 h)
    have hafter : after? (w :: word) (c :: (before ++ (w :: word ++ after))) = none := by
      rw [after?, if_neg (by simpa using hne)]
    rw [List.cons_append, cutAt?, hafter, ih hrest]
    rfl

theorem cutAt?_eq_none {w : Char} {text : Text} (h : w ∉ text) (word : Text) : cutAt? (w :: word) text = none := by
  by_contra hsome
  have hoccurs := hasWord_iff.1 (Option.isSome_iff_ne_none.2 hsome)
  exact h (hoccurs.subset List.mem_cons_self)

/-! ## White space -/

/-- White space, or nothing. -/
def IsBlanks (text : Text) : Prop := ∀ c ∈ text, isBlank c = true

/-- White space that separates two words. -/
structure IsGap (text : Text) : Prop where
  ne : text ≠ []
  blanks : IsBlanks text

/-- A word: some characters and no blank. -/
structure IsWord (text : Text) : Prop where
  ne : text ≠ []
  solid : ∀ c ∈ text, isBlank c = false

theorem isBlanks_of_all (text : Text) (h : text.all isBlank = true) : IsBlanks text := List.all_eq_true.1 h

theorem isGap_of_all (text : Text) (hne : text ≠ []) (h : text.all isBlank = true) : IsGap text :=
  ⟨hne, isBlanks_of_all text h⟩

theorem isWord_of_all {text : Text} (h : text.isEmpty = false ∧ text.all (!isBlank ·) = true) : IsWord text :=
  ⟨by simpa using h.1, not_isBlank_of_all h.2⟩

theorem IsGap.exists_cons {gap : Text} (h : IsGap gap) :
    ∃ c rest, gap = c :: rest ∧ isBlank c = true ∧ IsBlanks rest := by
  obtain ⟨hne, hblanks⟩ := h
  cases gap with
  | nil => exact absurd rfl hne
  | cons c rest => exact ⟨c, rest, rfl, List.forall_mem_cons.1 hblanks⟩

theorem IsBlanks.not_mem {text : Text} {c : Char} (h : IsBlanks text) (hc : isBlank c = false) : c ∉ text :=
  fun hm => by simp [h c hm] at hc

theorem IsWord.space_not_mem {word : Text} (h : IsWord word) : ' ' ∉ word := fun hm =>
  absurd (h.solid _ hm) (by decide)

theorem IsBlanks.trimStart_append {blanks : Text} (h : IsBlanks blanks) (text : Text) :
    trimStart (blanks ++ text) = trimStart text := by
  rw [trimStart, List.dropWhile_append_of_pos h, trimStart]

theorem IsBlanks.trimStart_append_star {blanks : Text} (h : IsBlanks blanks) (rest : Text) :
    trimStart (blanks ++ '*' :: rest) = '*' :: rest := by
  rw [h.trimStart_append, trimStart_cons (by decide)]

theorem IsBlanks.trimEnd {blanks : Text} (h : IsBlanks blanks) : trimEnd blanks = [] :=
  List.rdropWhile_eq_nil_iff.2 h

theorem trimStart_append_cons {c : Char} (h : isBlank c = false) (before after : Text) :
    trimStart (before ++ c :: after) = trimStart before ++ c :: after := by
  unfold trimStart
  rw [List.dropWhile_append]
  split
  next hnil => simp [h, List.isEmpty_iff.1 hnil]
  next => rfl

theorem trimEnd_append_cons {c : Char} (h : isBlank c = false) (before after : Text) :
    trimEnd (before ++ c :: after) = before ++ c :: trimEnd after := by
  unfold trimEnd
  rw [List.reverse_append, List.reverse_cons, List.append_assoc, List.dropWhile_append]
  split
  next hnil =>
    simp [h, List.isEmpty_iff.1 hnil]
  next => simp

/-- What is trimmed off around a character that is no blank. -/
theorem trim_append_cons {c : Char} (h : isBlank c = false) (before after : Text) :
    trim (before ++ c :: after) = trimStart before ++ c :: trimEnd after := by
  rw [trim, trimStart_append_cons h, trimEnd_append_cons h]

theorem trim_eq_self {text : Text} (hfirst : ∀ c ∈ text.head?, isBlank c = false)
    (hlast : ∀ c ∈ text.getLast?, isBlank c = false) : trim text = text := by
  have hstart : trimStart text = text := by
    cases text with
    | nil => rfl
    | cons c rest => exact trimStart_cons (hfirst c rfl) rest
  rw [trim, hstart]
  exact List.rdropWhile_eq_self_iff.2 fun hne => by simp [hlast _ (List.getLast?_eq_getLast_of_ne_nil hne)]

theorem IsWord.trimStart_append {word : Text} (h : IsWord word) (text : Text) :
    trimStart (word ++ text) = word ++ text := by
  obtain ⟨hne, hsolid⟩ := h
  cases word with
  | nil => exact absurd rfl hne
  | cons c rest => exact trimStart_cons (hsolid c List.mem_cons_self) _

theorem IsWord.trim {word : Text} (h : IsWord word) : trim word = word :=
  trim_eq_self (fun c hc => h.solid c (List.mem_of_mem_head? hc)) fun c hc => h.solid c (List.mem_of_mem_getLast? hc)

theorem IsBlanks.trim_append {blanks : Text} (h : IsBlanks blanks) (text : Text) :
    trim (blanks ++ text) = trim text := by
  rw [trim, h.trimStart_append, trim]

theorem IsWord.trim_append_blanks {word blanks : Text} (h : IsWord word) (hblanks : IsBlanks blanks) :
    Text.trim (word ++ blanks) = word := by
  have hreverse : ∀ c ∈ blanks.reverse, isBlank c = true := fun c hc => hblanks c (List.mem_reverse.1 hc)
  have hword := h.trim
  rw [Text.trim, ← List.append_nil word, h.trimStart_append, List.append_nil] at hword
  rw [Text.trim, h.trimStart_append, Text.trimEnd, List.reverse_append, List.dropWhile_append_of_pos hreverse]
  exact hword

/-- A text from one word to another has nothing to trim. -/
theorem IsWord.trim_append {first last : Text} (hfirst : IsWord first) (hlast : IsWord last) (text : Text) :
    Text.trim (first ++ (text ++ last)) = first ++ (text ++ last) := by
  apply trim_eq_self
  · rw [List.head?_append_of_ne_nil _ hfirst.ne]
    exact fun c hc => hfirst.solid c (List.mem_of_mem_head? hc)
  · rw [← List.append_assoc, List.getLast?_append_of_ne_nil _ hlast.ne]
    exact fun c hc => hlast.solid c (List.mem_of_mem_getLast? hc)

theorem not_mem_trimStart {c : Char} {text : Text} (h : c ∉ text) : c ∉ trimStart text := fun hm =>
  h ((List.dropWhile_sublist isBlank).subset hm)

theorem not_mem_trimEnd {c : Char} {text : Text} (h : c ∉ text) : c ∉ trimEnd text := fun hm =>
  h ((List.rdropWhile_prefix isBlank text).subset hm)

theorem exists_trimStart (text : Text) : ∃ blanks, IsBlanks blanks ∧ text = blanks ++ trimStart text :=
  ⟨text.takeWhile isBlank, fun _ hm => List.mem_takeWhile_imp hm, List.takeWhile_append_dropWhile.symm⟩

theorem exists_trimEnd (text : Text) : ∃ blanks, IsBlanks blanks ∧ text = trimEnd text ++ blanks := by
  obtain ⟨blanks, hblanks, htext⟩ := exists_trimStart text.reverse
  refine ⟨blanks.reverse, fun c hm => hblanks c (List.mem_reverse.1 hm), ?_⟩
  rw [trimEnd, ← List.reverse_append]
  exact List.reverse_eq_iff.1 htext

/-! ## Up to a character -/

theorem takeWhile_append_cons {p : Char → Bool} {before : Text} {c : Char} (h : ∀ d ∈ before, p d = true)
    (hc : p c = false) (after : Text) : (before ++ c :: after).takeWhile p = before := by
  rw [List.takeWhile_append_of_pos h, List.takeWhile_cons_of_neg (by simp [hc]), List.append_nil]

theorem dropWhile_append_cons {p : Char → Bool} {before : Text} {c : Char} (h : ∀ d ∈ before, p d = true)
    (hc : p c = false) (after : Text) : (before ++ c :: after).dropWhile p = c :: after := by
  rw [List.dropWhile_append_of_pos h, List.dropWhile_cons_of_neg (by simp [hc])]

/-! ## The words of a text -/

theorem words_append_cons {c : Char} (h : isBlank c = true) (before after : Text) :
    words (before ++ c :: after) = words before ++ words after := by
  rw [words, pieces_eq_splitOnP, List.splitOnP_append_cons _ _ h, List.filter_append, ← pieces_eq_splitOnP,
    ← pieces_eq_splitOnP, words, words]

theorem IsBlanks.words_append {blanks : Text} (h : IsBlanks blanks) (text : Text) :
    words (blanks ++ text) = words text := by
  induction blanks with
  | nil => rfl
  | cons c blanks ih =>
    obtain ⟨hc, hblanks⟩ := List.forall_mem_cons.1 h
    calc words (c :: (blanks ++ text)) = words [] ++ words (blanks ++ text) := words_append_cons hc [] _
      _ = words text := ih hblanks

theorem IsBlanks.words {blanks : Text} (h : IsBlanks blanks) : words blanks = [] := by
  have hnil := h.words_append []
  rwa [List.append_nil] at hnil

theorem IsBlanks.append_words {blanks : Text} (h : IsBlanks blanks) (text : Text) :
    Text.words (text ++ blanks) = Text.words text := by
  cases blanks with
  | nil => rw [List.append_nil]
  | cons c blanks =>
    obtain ⟨hc, hblanks⟩ := List.forall_mem_cons.1 h
    rw [words_append_cons hc, IsBlanks.words hblanks, List.append_nil]

theorem IsWord.words {word : Text} (h : IsWord word) : words word = [word] := by
  have hne : word.isEmpty = false := by simpa using h.ne
  rw [Text.words, pieces_eq_splitOnP, List.splitOnP_eq_singleton h.solid]
  simp [hne]

theorem IsWord.headD_words_append {word gap : Text} (h : IsWord word) (hgap : IsGap gap) (more : Text) :
    (Text.words (word ++ (gap ++ more))).headD [] = word := by
  obtain ⟨c, rest, rfl, hc, _⟩ := hgap.exists_cons
  rw [List.cons_append, words_append_cons hc, h.words, List.singleton_append, List.headD_cons]

theorem isBlanks_of_words {text : Text} (h : words text = []) : IsBlanks text := by
  induction text with
  | nil => simp [IsBlanks]
  | cons c rest ih =>
    by_cases hc : isBlank c = true
    · have hcons : words (c :: rest) = words rest := words_append_cons hc [] rest
      exact List.forall_mem_cons.2 ⟨hc, ih (hcons ▸ h)⟩
    · rw [words, pieces, if_neg hc] at h
      split at h
      · simp at h
      · simp at h

/-- A text of the given words: white space between neighbours, and any or none
before and after. -/
inductive Spaced : List Text → Text → Prop
  | blanks {text : Text} (h : IsBlanks text) : Spaced [] text
  | last {before word after : Text} (hbefore : IsBlanks before) (hafter : IsBlanks after) :
      Spaced [word] (before ++ (word ++ after))
  | cons {before word gap more : Text} {words : List Text} (hbefore : IsBlanks before) (hgap : IsGap gap)
      (hmore : Spaced words more) : Spaced (word :: words) (before ++ (word ++ (gap ++ more)))

theorem Spaced.words {list : List Text} {text : Text} (h : Spaced list text) (hwords : ∀ word ∈ list, IsWord word) :
    words text = list := by
  induction h with
  | blanks h => exact h.words
  | last hbefore hafter =>
    rw [hbefore.words_append, hafter.append_words, (hwords _ List.mem_cons_self).words]
  | cons hbefore hgap hmore ih =>
    obtain ⟨hword, hmore⟩ := List.forall_mem_cons.1 hwords
    obtain ⟨c, rest, rfl, hc, hrest⟩ := hgap.exists_cons
    rw [hbefore.words_append, List.cons_append, words_append_cons hc, hword.words, hrest.words_append, ih hmore,
      List.singleton_append]

theorem Spaced.not_mem {list : List Text} {text : Text} {c : Char} (h : Spaced list text)
    (hc : isBlank c = false) (hwords : ∀ word ∈ list, c ∉ word) : c ∉ text := by
  induction h with
  | blanks h => exact h.not_mem hc
  | last hbefore hafter =>
    have hword := hwords _ List.mem_cons_self
    simp [hbefore.not_mem hc, hword, hafter.not_mem hc]
  | cons hbefore hgap hmore ih =>
    obtain ⟨hword, hmore⟩ := List.forall_mem_cons.1 hwords
    simp [hbefore.not_mem hc, hword, hgap.blanks.not_mem hc, ih hmore]

/-! ## Pieces between separators -/

theorem splitOn_eq_singleton {separator : Char} {text : Text} (h : separator ∉ text) :
    splitOn separator text = [text] := by
  rw [splitOn_eq, List.splitOn_eq_singleton h]

theorem splitOn_append_cons {separator : Char} {piece : Text} (h : separator ∉ piece) (rest : Text) :
    splitOn separator (piece ++ separator :: rest) = piece :: splitOn separator rest := by
  rw [splitOn_eq, List.splitOn_append_cons_self_of_not_mem h, ← splitOn_eq]

theorem exists_splitOn_concat (separator : Char) (text : Text) :
    ∃ pieces last, splitOn separator text = pieces ++ [last] :=
  (List.eq_nil_or_concat' _).resolve_left (splitOn_ne_nil separator text)

theorem splitOn_cons (separator c : Char) (rest : Text) :
    splitOn separator (c :: rest) = if (c == separator) = true then [] :: splitOn separator rest
      else (splitOn separator rest).modifyHead (List.cons c) := by
  simp only [splitOn_eq, List.splitOn_cons_eq_if_modifyHead]

/-- The piece at the end of one text goes on with the piece that starts the next. -/
theorem splitOn_append {separator : Char} {text more last first : Text} {pieces rest : List Text}
    (htext : splitOn separator text = pieces ++ [last]) (hmore : splitOn separator more = first :: rest) :
    splitOn separator (text ++ more) = pieces ++ (last ++ first) :: rest := by
  induction text generalizing pieces last with
  | nil =>
    obtain ⟨rfl, hlast⟩ := List.append_inj' (show [] ++ [[]] = pieces ++ [last] from htext) rfl
    cases hlast
    exact hmore
  | cons c text ih =>
    obtain ⟨front, back, hsplit⟩ := exists_splitOn_concat separator text
    rw [splitOn_cons, hsplit] at htext
    rw [List.cons_append, splitOn_cons, ih hsplit]
    split at htext
    next hc =>
      obtain ⟨rfl, hlast⟩ := List.append_inj' (show ([] :: front) ++ [back] = pieces ++ [last] from htext) rfl
      cases hlast
      rw [if_pos hc, List.cons_append]
    next hc =>
      rw [if_neg hc]
      cases front with
      | nil =>
        obtain ⟨rfl, hlast⟩ := List.append_inj' (show [] ++ [c :: back] = pieces ++ [last] from htext) rfl
        cases hlast
        rfl
      | cons piece front =>
        obtain ⟨rfl, hlast⟩ :=
          List.append_inj' (show ((c :: piece) :: front) ++ [back] = pieces ++ [last] from htext) rfl
        cases hlast
        rfl

theorem splitOn_append_of_not_mem {separator : Char} {before more first : Text} {rest : List Text}
    (h : separator ∉ before) (hmore : splitOn separator more = first :: rest) :
    splitOn separator (before ++ more) = (before ++ first) :: rest :=
  splitOn_append (show splitOn separator before = [] ++ [before] from splitOn_eq_singleton h) hmore

theorem join_splitOn (separator : Char) (text : Text) : join [separator] (splitOn separator text) = text := by
  rw [splitOn_eq, join_eq_intercalate, List.intercalate_splitOn]

theorem mem_of_mem_splitOn {separator c : Char} {text piece : Text} (h : piece ∈ splitOn separator text)
    (hc : c ∈ piece) : c ∈ text := by
  have hpieces : ∀ {pieces : List Text}, piece ∈ pieces → c ∈ join [separator] pieces := by
    intro pieces hm
    fun_induction join [separator] pieces with
    | case1 => cases hm
    | case2 only => rwa [← List.mem_singleton.1 hm]
    | case3 first others hne ih =>
      rcases List.mem_cons.1 hm with rfl | hm
      · simp [hc]
      · simp [ih hm]
  rw [← join_splitOn separator text]
  exact hpieces h

theorem length_splitOn (separator : Char) (text : Text) :
    (splitOn separator text).length = text.count separator + 1 := by
  induction text with
  | nil => rfl
  | cons c rest ih =>
    rw [splitOn_cons, List.count_cons]
    split
    · rw [List.length_cons, ih]
    · rw [List.length_modifyHead, ih]

end ApiCoverage.Text

/-! ## Words of a statement -/

namespace ApiCoverage.Lexeme

open Text (IsGap)

/-- A word that white space separates from the next one. -/
theorem word?_append_gap {gap : Text} {c : Char} (h : IsGap gap) (hc : isBlank c = false) (word rest : Text) :
    word? word (word ++ (gap ++ c :: rest)) = some (c :: rest) := by
  obtain ⟨blank, blanks, rfl, hblank, _⟩ := h.exists_cons
  refine word?_eq_some_iff.2 ⟨_, rfl, blanks?_eq_some_iff.2 ⟨⟨blank, _, rfl, hblank⟩, ?_⟩⟩
  rw [h.blanks.trimStart_append, Text.trimStart_cons hc]

theorem isBlank_of_isQuote {c : Char} (h : isQuote c = true) : isBlank c = false :=
  isBlank_eq_false_of (by decide) h

theorem quoted?_append {left right : Char} {source : Text} (hleft : isQuote left = true)
    (hright : isQuote right = true) (hne : source ≠ []) (hsource : ∀ c ∈ source, isQuote c = false) (rest : Text) :
    quoted? (left :: (source ++ right :: rest)) = some source := by
  have hnot : ∀ c ∈ source, (!isQuote c) = true := by simpa using hsource
  have hquote : (!isQuote right) = false := by simpa using hright
  have htake := Text.takeWhile_append_cons hnot hquote rest
  have hdrop := Text.dropWhile_append_cons hnot hquote rest
  simp [quoted?, htake, hdrop, hleft, hne]

/-- The first run of blanks to be tried is the longest. -/
theorem head?_blankCuts (text : Text) : (blankCuts text).head? = blanks? text := by
  induction text with
  | nil => rfl
  | cons c rest ih =>
    by_cases hc : isBlank c = true
    · rw [blankCuts, if_pos hc, blanks?, if_pos hc, List.head?_append, ih]
      cases rest with
      | nil => rfl
      | cons d rest =>
        by_cases hd : isBlank d = true
        · simp [blanks?, hd, Text.trimStart]
        · simp [blanks?, hd, Text.trimStart]
    · simp [blankCuts, blanks?, hc]

theorem blanks?_append_gap {gap : Text} (h : IsGap gap) (text : Text) :
    blanks? (gap ++ text) = some (Text.trimStart text) := by
  obtain ⟨blank, blanks, rfl, hblank, _⟩ := h.exists_cons
  exact blanks?_eq_some_iff.2 ⟨⟨blank, _, rfl, hblank⟩, (h.blanks.trimStart_append text).symm⟩

/-! ## Identifiers -/

/-- An identifier: a character that may start a name, and then characters that may
continue one. -/
inductive IsIdentifier : Text → Prop
  | cons {c : Char} {rest : Text} (hstart : isNameStart c = true) (hrest : ∀ d ∈ rest, isNameChar d = true) :
      IsIdentifier (c :: rest)

theorem isNameChar_of_isNameStart {c : Char} (h : isNameStart c = true) : isNameChar c = true := by
  have hpoints : ∀ n ∈ List.range 128, isNameStart (Char.ofNat n) = true → isNameChar (Char.ofNat n) = true := by
    decide +kernel
  have hlt : c.toNat < 128 := by
    delta isNameStart Char.isAlpha Char.isUpper Char.isLower at h
    simp only [Bool.or_eq_true, Bool.and_eq_true, decide_eq_true_eq, beq_iff_eq, UInt32.le_iff_toNat_le] at h
    change c.val.toNat < 128
    rcases h with ((h | h) | rfl) | rfl
    · exact Nat.lt_of_le_of_lt h.2 (by decide)
    · exact Nat.lt_of_le_of_lt h.2 (by decide)
    · decide
    · decide
  have hchar := hpoints c.toNat (List.mem_range.2 hlt)
  rw [Char.ofNat_toNat] at hchar
  exact hchar h

theorem isBlank_of_isNameChar {c : Char} (h : isNameChar c = true) : isBlank c = false :=
  isBlank_eq_false_of (by decide +kernel) h

theorem atNameEnd_of_isBlank {c : Char} (h : isBlank c = true) (rest : Text) : Text.atNameEnd (c :: rest) = true := by
  rw [Text.atNameEnd, Bool.not_eq_true', ← Bool.not_eq_true]
  exact fun hc => by simp [isBlank_of_isNameChar hc] at h

theorem IsIdentifier.nameChars {name : Text} (h : IsIdentifier name) : ∀ c ∈ name, isNameChar c = true := by
  cases h with
  | cons hstart hrest => exact List.forall_mem_cons.2 ⟨isNameChar_of_isNameStart hstart, hrest⟩

theorem IsIdentifier.isWord {name : Text} (h : IsIdentifier name) : Text.IsWord name := by
  refine ⟨?_, fun c hc => isBlank_of_isNameChar (h.nameChars c hc)⟩
  cases h with
  | cons hstart hrest => exact List.cons_ne_nil _ _

/-- A name is read up to where it ends. -/
theorem IsIdentifier.name?_append {name rest : Text} (h : IsIdentifier name) (hend : Text.atNameEnd rest = true) :
    name? (name ++ rest) = some (name, rest) := by
  cases h with
  | @cons c tail hstart hrest =>
    rw [List.cons_append, name?, if_pos hstart]
    cases rest with
    | nil => simp [List.takeWhile_eq_self_iff.2 hrest, List.dropWhile_eq_nil_iff.2 hrest]
    | cons d rest =>
      have hd : isNameChar d = false := by simpa [Text.atNameEnd] using hend
      rw [Text.takeWhile_append_cons hrest hd, Text.dropWhile_append_cons hrest hd]

/-- What is read as a name is an identifier that ends there. -/
theorem isIdentifier_of_name? {text name rest : Text} (h : name? text = some (name, rest)) :
    IsIdentifier name ∧ text = name ++ rest ∧ Text.atNameEnd rest = true := by
  cases text with
  | nil => cases h
  | cons c tail =>
    rw [name?] at h
    split at h
    next hstart =>
      rw [Option.some.injEq, Prod.mk.injEq] at h
      obtain ⟨rfl, rfl⟩ := h
      refine ⟨.cons hstart fun d hd => List.mem_takeWhile_imp hd, ?_, ?_⟩
      · rw [List.cons_append, List.takeWhile_append_dropWhile]
      · cases hdrop : tail.dropWhile isNameChar with
        | nil => rfl
        | cons d others =>
          have hd := List.head?_dropWhile_not isNameChar tail
          rw [hdrop] at hd
          simpa [Text.atNameEnd] using hd
    · cases h

end ApiCoverage.Lexeme
