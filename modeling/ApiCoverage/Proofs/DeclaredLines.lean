/-
The line that declares a name, among the lines of a file.

An exported declaration of the name comes first, and after that any line of the shape of
a declaration: some of the words that may come before a keyword, a keyword, white space, and
the name as a whole (`HasShape`). Two names never fit one shape, so a line that declares a longer
name is not taken for a shorter one (`line?_eq_some_iff`).

The shape asks for white space before the name even after the star of a generator
function, where a declaration needs none. So a declaration without `export` is found by its
name unless it is such a function (`isSome_line?_iff`).
-/
import ApiCoverage.Proofs.BareDeclarations
import ApiCoverage.Proofs.DeclarationForms

namespace ApiCoverage.Locate

open Lexeme
open Text (IsBlanks IsGap)

/-! ## The shape of a declaration -/

/-- The words that may come before a keyword. -/
def modifiers : List Text := ["export", "default", "declare", "async", "abstract"]

/-- The keywords of one word. -/
def bareWords : List Text := ["class", "function", "interface", "type", "enum", "const", "let", "var"]

/-- A keyword in the shape of a declaration: one of these words, `function` with a star, or
`const enum`. -/
inductive BareKeyword : Text → Prop
  | word {word : Text} (h : word ∈ bareWords) : BareKeyword word
  | generator {blanks : Text} (h : IsBlanks blanks) : BareKeyword (String.toList "function" ++ (blanks ++ ['*']))
  | constEnum {gap : Text} (h : IsGap gap) : BareKeyword (String.toList "const" ++ (gap ++ String.toList "enum"))

/-- The shape of a declaration of a name. -/
inductive HasShape (name : Text) : Text → Prop
  | intro {flags : List Bool} {lead keyword gap rest : Text} (hlead : Led modifiers flags lead)
      (hkeyword : BareKeyword keyword) (hgap : IsGap gap) (hend : Text.atNameEnd rest = true) :
      HasShape name (lead ++ (keyword ++ (gap ++ (name ++ rest))))

variable {name other text rest cut keyword lead : Text} {flags : List Bool}

theorem mem_blankCuts_iff : cut ∈ blankCuts text ↔ ∃ gap, IsGap gap ∧ text = gap ++ cut := by
  induction text with
  | nil =>
    constructor
    · intro h
      cases h
    · rintro ⟨gap, hgap, he⟩
      exact absurd (List.append_eq_nil_iff.1 he.symm).1 hgap.ne
  | cons c tail ih =>
    by_cases hc : isBlank c = true
    · rw [blankCuts, if_pos hc, List.mem_append, ih, List.mem_singleton]
      constructor
      · rintro (⟨gap, hgap, rfl⟩ | rfl)
        · exact ⟨c :: gap, ⟨by simp, List.forall_mem_cons.2 ⟨hc, hgap.blanks⟩⟩, rfl⟩
        · exact ⟨[c], ⟨by simp, by simpa [IsBlanks] using hc⟩, rfl⟩
      · rintro ⟨gap, hgap, he⟩
        obtain ⟨b, blanks, rfl, hb, hblanks⟩ := hgap.exists_cons
        obtain ⟨rfl, rfl⟩ := List.cons.inj he
        by_cases hnil : blanks = []
        · exact .inr (by simp [hnil])
        · exact .inl ⟨blanks, ⟨hnil, hblanks⟩, rfl⟩
    · rw [blankCuts, if_neg hc]
      constructor
      · intro h
        cases h
      · rintro ⟨gap, hgap, he⟩
        obtain ⟨b, blanks, rfl, hb, _⟩ := hgap.exists_cons
        exact absurd ((List.cons.inj he).1 ▸ hb) hc

theorem mem_keywordEnds_of_function {tail : Text} (h : Text.after? "function" text = some tail)
    (hrest : rest = tail ∨ Text.trimStart tail = '*' :: rest) : rest ∈ keywordEnds text := by
  simp only [keywordEnds, List.mem_append, h]
  refine .inl (.inr ?_)
  rcases hrest with rfl | hstar
  · split <;> simp
  · simp [hstar]

/-- The ends of keywords are what follows a keyword. -/
theorem mem_keywordEnds_iff : rest ∈ keywordEnds text ↔ ∃ keyword, BareKeyword keyword ∧ text = keyword ++ rest := by
  constructor
  · intro h
    rcases mem_keywordEnds h with ⟨word, hword, hafter⟩ | ⟨tail, hafter, hrest⟩ | ⟨tail, hword, hafter⟩
    · have hbare : ∀ word ∈ [("class" : Text), "interface", "type", "enum", "const", "let", "var"],
          word ∈ bareWords := by decide
      exact ⟨word, .word (hbare word hword), Text.after?_eq_some_iff.1 hafter⟩
    · have htext := Text.after?_eq_some_iff.1 hafter
      rcases hrest with rfl | hstar
      · exact ⟨"function", .word (by decide), htext⟩
      · obtain ⟨blanks, hblanks, htail⟩ := Text.exists_trimStart tail
        exact ⟨_, .generator hblanks, by rw [htext, htail, hstar]; simp⟩
    · obtain ⟨after, htext, hblanks⟩ := word?_eq_some_iff.1 hword
      obtain ⟨gap, hgap, rfl⟩ := exists_gap_of_blanks? hblanks
      exact ⟨_, .constEnum hgap, by rw [htext, Text.after?_eq_some_iff.1 hafter]; simp⟩
  · rintro ⟨keyword, hkeyword, rfl⟩
    cases hkeyword with
    | word h =>
      have hafter : Text.after? keyword (keyword ++ rest) = some rest := Text.after?_eq_some_iff.2 rfl
      by_cases hfunction : keyword = "function"
      · exact mem_keywordEnds_of_function (hfunction ▸ hafter) (.inl rfl)
      · have hsimple : ∀ word ∈ bareWords, word ≠ "function" →
            word ∈ [("class" : Text), "interface", "type", "enum", "const", "let", "var"] := by decide
        exact List.mem_append_left _ (List.mem_append_left _
          (List.mem_filterMap.2 ⟨keyword, hsimple keyword h hfunction, hafter⟩))
    | @generator blanks h =>
      refine mem_keywordEnds_of_function (Text.after?_eq_some_iff.2 (List.append_assoc ..)) (.inr ?_)
      rw [List.append_assoc]
      exact h.trimStart_append_star rest
    | @constEnum gap h =>
      refine List.mem_append_right _ (Option.mem_toList.2 ?_)
      refine Option.bind_eq_some_iff.2 ⟨String.toList "enum" ++ rest, ?_, Text.after?_eq_some_iff.2 rfl⟩
      refine word?_eq_some_iff.2 ⟨gap ++ (String.toList "enum" ++ rest), by simp, ?_⟩
      rw [blanks?_append_gap h]
      exact congrArg some (Text.trimStart_cons (show isBlank 'e' = false by decide) _)

theorem areApart_modifiers : AreApart modifiers := Declaration.areApart_of_all (by decide) (by decide)

/-- The words before a keyword are read up to it. -/
theorem BareKeyword.optionals_append (h : BareKeyword keyword) (hlead : Led modifiers flags lead) (more : Text) :
    optionals modifiers (lead ++ (keyword ++ more)) = (flags, keyword ++ more) := by
  obtain ⟨word, hword, others, rfl⟩ : ∃ word ∈ bareWords, ∃ others, keyword = word ++ others := by
    cases h with
    | word h => exact ⟨keyword, h, [], (List.append_nil _).symm⟩
    | generator h => exact ⟨_, by decide, _, rfl⟩
    | constEnum h => exact ⟨_, by decide, _, rfl⟩
  have hsolid : ∀ word ∈ bareWords, word.isEmpty = false ∧ word.all (!isBlank ·) = true := by decide
  have hdiffer : ∀ word ∈ bareWords, ∀ modifier ∈ modifiers, Text.differs modifier word = true := by decide
  have htrim := (Text.isWord_of_all (hsolid word hword)).trimStart_append (others ++ more)
  rw [List.append_assoc]
  exact hlead.optionals_append areApart_modifiers htrim fun modifier hm =>
    Text.after?_of_differs (hdiffer word hword modifier hm) _

/-- No text starts with two of the words. -/
theorem eq_of_bareWords_append {word word' tail tail' : Text} (h : word ∈ bareWords) (h' : word' ∈ bareWords)
    (he : word ++ tail = word' ++ tail') : word = word' ∧ tail = tail' := by
  have hdiffer : ∀ word ∈ bareWords, ∀ other ∈ bareWords, word ≠ other → Text.differs word other = true := by decide
  obtain rfl : word = word' := by
    by_contra hwords
    have hafter := Text.after?_of_differs (hdiffer word h word' h' hwords) tail'
    rw [Text.after?_eq_some_iff.2 he.symm] at hafter
    cases hafter
  exact ⟨rfl, List.append_cancel_left he⟩

/-- **The shape is what is looked for.** -/
theorem declaresBare_iff : declaresBare name text = true ↔ HasShape name text := by
  have hany : declaresBare name text = true ↔ ∃ rest ∈ keywordEnds (optionals modifiers text).2,
      ∃ cut ∈ blankCuts rest, ∃ tail, cut = name ++ tail ∧ Text.atNameEnd tail = true := by
    simp only [declaresBare, skip, List.any_eq_true, modifiers, optionals]
    refine exists_congr fun rest => and_congr_right fun _ => exists_congr fun cut => and_congr_right fun _ => ?_
    cases hafter : Text.after? name cut with
    | none =>
      constructor
      · intro h
        cases h
      · rintro ⟨tail, he, _⟩
        rw [Text.after?_eq_some_iff.2 he] at hafter
        cases hafter
    | some tail =>
      have hcut := Text.after?_eq_some_iff.1 hafter
      constructor
      · exact fun h => ⟨tail, hcut, h⟩
      · rintro ⟨other, he, h⟩
        rwa [← List.append_cancel_left (he.symm.trans hcut)]
  rw [hany]
  constructor
  · rintro ⟨rest, hrest, cut, hcut, tail, rfl, hend⟩
    obtain ⟨lead, hlead, htext⟩ := exists_led modifiers text
    obtain ⟨keyword, hkeyword, hbody⟩ := mem_keywordEnds_iff.1 hrest
    obtain ⟨gap, hgap, rfl⟩ := mem_blankCuts_iff.1 hcut
    rw [htext, hbody]
    exact .intro hlead hkeyword hgap hend
  · rintro ⟨hlead, hkeyword, hgap, hend⟩
    rw [hkeyword.optionals_append hlead]
    exact ⟨_, mem_keywordEnds_iff.2 ⟨_, hkeyword, rfl⟩, _, mem_blankCuts_iff.2 ⟨_, hgap, rfl⟩, _, rfl, hend⟩

/-! ## One name for a shape -/

/-- A name of any characters that names may have. -/
structure IsNameWord (name : Text) : Prop where
  ne : name ≠ []
  chars : ∀ c ∈ name, isNameChar c = true

theorem IsNameWord.trimStart_append (h : IsNameWord name) (rest : Text) :
    Text.trimStart (name ++ rest) = name ++ rest :=
  Text.IsWord.trimStart_append ⟨h.ne, fun c hc => isBlank_of_isNameChar (h.chars c hc)⟩ rest

theorem IsNameWord.takeWhile_append (h : IsNameWord name) (hend : Text.atNameEnd rest = true) :
    (name ++ rest).takeWhile isNameChar = name := by
  rw [List.takeWhile_append_of_pos h.chars]
  cases rest with
  | nil => simp
  | cons c rest =>
    have hc : isNameChar c = false := by simpa [Text.atNameEnd] using hend
    simp [hc]

theorem IsNameWord.append_ne_star {tail : Text} (h : IsNameWord name) : name ++ rest ≠ '*' :: tail := by
  obtain ⟨c, chars, rfl⟩ := List.exists_cons_of_ne_nil h.ne
  intro he
  have hc := h.chars c List.mem_cons_self
  rw [(List.cons.inj he).1] at hc
  exact absurd hc (by decide +kernel)

theorem IsNameWord.eq_of_append {rest' : Text} (h : IsNameWord name) (hother : IsNameWord other)
    (hend : Text.atNameEnd rest = true) (hend' : Text.atNameEnd rest' = true)
    (he : name ++ rest = other ++ rest') : name = other := by
  rw [← h.takeWhile_append hend, he, hother.takeWhile_append hend']

/-- Where the name starts, given what follows the first word of a keyword. -/
def nameAt (tail : Text) : Text :=
  match Text.trimStart tail with
  | '*' :: rest => Text.trimStart rest
  | rest => (word? "enum" rest).getD rest

section

variable {gap : Text} (hgap : IsGap gap) (hname : IsNameWord name)

include hgap hname

theorem nameAt_of_name (hend : Text.atNameEnd rest = true) (hne : name ≠ "enum") :
    nameAt (gap ++ (name ++ rest)) = name ++ rest := by
  have htrim : Text.trimStart (gap ++ (name ++ rest)) = name ++ rest := by
    rw [hgap.blanks.trimStart_append, hname.trimStart_append]
  have henum : word? "enum" (name ++ rest) = none := by
    rw [Option.eq_none_iff_forall_ne_some]
    intro body hbody
    obtain ⟨tail, htail, hblanks⟩ := word?_eq_some_iff.1 hbody
    obtain ⟨⟨c, others, rfl, hc⟩, _⟩ := blanks?_eq_some_iff.1 hblanks
    have hother : IsNameWord "enum" := ⟨by decide, List.all_eq_true.1 (by decide +kernel)⟩
    exact hne (hname.eq_of_append hother hend (atNameEnd_of_isBlank hc others) htail)
  unfold nameAt
  split
  next tail hstar =>
    rw [htrim] at hstar
    exact absurd hstar hname.append_ne_star
  next => rw [htrim, henum, Option.getD_none]

theorem nameAt_of_star {blanks : Text} (hblanks : IsBlanks blanks) :
    nameAt (blanks ++ '*' :: (gap ++ (name ++ rest))) = name ++ rest := by
  simp only [nameAt, hblanks.trimStart_append_star, hgap.blanks.trimStart_append, hname.trimStart_append]

theorem nameAt_of_enum {between : Text} (hbetween : IsGap between) :
    nameAt (between ++ (String.toList "enum" ++ (gap ++ (name ++ rest)))) = name ++ rest := by
  have htrim : Text.trimStart (between ++ (String.toList "enum" ++ (gap ++ (name ++ rest)))) =
      String.toList "enum" ++ (gap ++ (name ++ rest)) := by
    rw [hbetween.blanks.trimStart_append]
    exact Text.trimStart_cons (show isBlank 'e' = false by decide) _
  have henum : word? "enum" (String.toList "enum" ++ (gap ++ (name ++ rest))) = some (name ++ rest) := by
    refine word?_eq_some_iff.2 ⟨_, rfl, ?_⟩
    rw [blanks?_append_gap hgap, hname.trimStart_append]
  unfold nameAt
  split
  next tail hstar =>
    rw [htrim] at hstar
    cases hstar
  next => rw [htrim, henum, Option.getD_some]

end

/-- A shape starts with a word of a keyword, and the name is where it is looked for. -/
theorem HasShape.exists_nameAt (h : HasShape name text) (hname : IsNameWord name) (hne : name ≠ "enum") :
    ∃ word ∈ bareWords, ∃ tail rest, (optionals modifiers text).2 = word ++ tail ∧ nameAt tail = name ++ rest ∧
      Text.atNameEnd rest = true := by
  obtain @⟨flags, lead, keyword, gap, rest, hlead, hkeyword, hgap, hend⟩ := h
  rw [hkeyword.optionals_append hlead]
  cases hkeyword with
  | word h => exact ⟨keyword, h, _, rest, rfl, nameAt_of_name hgap hname hend hne, hend⟩
  | generator h => exact ⟨"function", by decide, _, rest, by simp, nameAt_of_star hgap hname h, hend⟩
  | constEnum h => exact ⟨"const", by decide, _, rest, by simp, nameAt_of_enum hgap hname h, hend⟩

/-- **A shape has one name.** Only `const enum` may be read with `enum` as the name or without. -/
theorem HasShape.eq (h : HasShape name text) (hother : HasShape other text) (hname : IsNameWord name)
    (hname' : IsNameWord other) (hne : name ≠ "enum") (hne' : other ≠ "enum") : name = other := by
  obtain ⟨word, hword, tail, rest, htext, hnameAt, hend⟩ := h.exists_nameAt hname hne
  obtain ⟨word', hword', tail', rest', htext', hnameAt', hend'⟩ := hother.exists_nameAt hname' hne'
  obtain ⟨_, rfl⟩ := eq_of_bareWords_append hword hword' (htext.symm.trans htext')
  exact hname.eq_of_append hname' hend hend' (hnameAt.symm.trans hnameAt')

/-! ## The first line -/

/-- The line of this number, counted from 1, is the first that satisfies the condition. -/
def IsFirst (condition : Text → Prop) (lines : List Text) (n : Nat) : Prop :=
  ∃ before line after, lines = before ++ line :: after ∧ condition line ∧ (∀ earlier ∈ before, ¬ condition earlier) ∧
    n = before.length + 1

theorem IsFirst.of_getElem? {condition : Text → Prop} {lines : List Text} {index : Nat} {line : Text}
    (h : IsFirst condition lines (index + 1)) (hline : lines[index]? = some line) : condition line := by
  obtain ⟨before, found, after, rfl, hfound, _, hindex⟩ := h
  obtain rfl : index = before.length := by omega
  rw [List.getElem?_append_right le_rfl, Nat.sub_self, List.getElem?_cons_zero, Option.some.injEq] at hline
  exact hline ▸ hfound

theorem firstLine?_eq_some_iff {condition : Text → Bool} {lines : List Text} {n : Nat} :
    firstLine? condition lines = some n ↔ IsFirst (fun line => condition line = true) lines n := by
  rw [firstLine?, Option.map_eq_some_iff]
  constructor
  · rintro ⟨index, hindex, rfl⟩
    obtain ⟨hlt, hline, hbefore⟩ := List.findIdx?_eq_some_iff_getElem.1 hindex
    refine ⟨lines.take index, lines[index], lines.drop (index + 1), ?_, hline, fun earlier hm => ?_, ?_⟩
    · rw [← List.drop_eq_getElem_cons hlt, List.take_append_drop]
    · obtain ⟨i, hi, rfl⟩ := List.mem_iff_getElem.1 hm
      rw [List.length_take] at hi
      rw [List.getElem_take]
      exact hbefore i (by omega)
    · rw [List.length_take, Nat.min_eq_left hlt.le]
  · rintro ⟨before, line, after, rfl, hline, hbefore, rfl⟩
    refine ⟨before.length, List.findIdx?_eq_some_iff_getElem.2 ⟨by simp, by simpa using hline, fun i hi => ?_⟩, rfl⟩
    rw [List.getElem_append_left hi]
    exact hbefore _ (List.getElem_mem hi)

/-- The line is classified as an exported declaration of the name. -/
def IsExportOf (name line : Text) : Prop :=
  ∃ d, Export.parse? (Text.trim line) = some (.declaration d) ∧ d.name = name

theorem declaresExported_iff {line : Text} : declaresExported name line = true ↔ IsExportOf name line := by
  rw [declaresExported]
  constructor
  · intro h
    split at h
    next d hd => exact ⟨d, Export.declares?_eq_some_iff.1 hd, by simpa using h⟩
    next => cases h
  · rintro ⟨d, hd, rfl⟩
    rw [Export.declares?_eq_some_iff.2 hd]
    exact beq_self_eq_true d.name

variable {lines : List Text} {line : Text} {n : Nat}

theorem firstLine?_eq_none_iff {condition : Text → Bool} :
    firstLine? condition lines = none ↔ ∀ line ∈ lines, ¬ condition line = true := by
  simp [firstLine?]

/-- **The line of a name is the first that exports it as a declaration**, or, if there is no such
line, the first of the shape of a declaration of it. A line of the shape of a declaration of
another name, such as a longer one that starts with it, is taken only if what it exports is the
name itself. -/
theorem line?_eq_some_iff (hname : name ≠ defaultName) (lines : List Text) :
    (∀ n, line? lines name = some n ↔
      IsFirst (IsExportOf name) lines n ∨
        (∀ line ∈ lines, ¬ IsExportOf name line) ∧ IsFirst (fun line => HasShape name (Text.trim line)) lines n) ∧
    (IsNameWord name → name ≠ "enum" → ∀ index line other, lines[index]? = some line →
      IsNameWord other → other ≠ "enum" → other ≠ name → HasShape other (Text.trim line) →
      line? lines name = some (index + 1) → IsExportOf name line) := by
  have hiff : ∀ n, line? lines name = some n ↔ IsFirst (IsExportOf name) lines n ∨
      (∀ line ∈ lines, ¬ IsExportOf name line) ∧ IsFirst (fun line => HasShape name (Text.trim line)) lines n := by
    intro n
    simp only [line?_eq hname, Option.or_eq_some_iff, firstLine?_eq_some_iff, firstLine?_eq_none_iff,
      declaresExported_iff, declaresBare_iff]
  refine ⟨hiff, fun hword hne index line other hline hother hne' hdiffer hshape hfound => ?_⟩
  rcases (hiff _).1 hfound with hexported | ⟨_, hbare⟩
  · exact hexported.of_getElem? hline
  · exact absurd (hshape.eq (hbare.of_getElem? hline) hother hword hne' hne) hdiffer

/-- A name with a dollar sign among longer names that start with it, before and after the
lines that declare it. -/
theorem line?_dollarName :
    ("$a" : Text) ≠ defaultName ∧ IsNameWord "$a" ∧ IsNameWord "$ab" ∧ HasShape "$ab" (Text.trim " const $ab = 1") ∧
    line? [" const $ab = 1", "let $a", "export class $a \x7b", "var $a$"] "$a" = some 3 ∧
    line? [" const $ab = 1", "let $a", "var $a$"] "$a" = some 2 ∧
    line? [" const $ab = 1", "let $a", "var $a$"] "$a" ≠ some 1 := by
  have hname : ("$a" : Text) ≠ defaultName := by decide
  have hword : IsNameWord "$a" := ⟨by decide, List.all_eq_true.1 (by decide +kernel)⟩
  have hother : IsNameWord "$ab" := ⟨by decide, List.all_eq_true.1 (by decide +kernel)⟩
  have hshape : HasShape "$ab" (Text.trim " const $ab = 1") := declaresBare_iff.1 (by decide +kernel)
  have hbare : HasShape "$a" (Text.trim "let $a") := declaresBare_iff.1 (by decide +kernel)
  have hexported : IsExportOf "$a" "export class $a \x7b" := declaresExported_iff.1 (by decide +kernel)
  have hplain : ∀ line ∈ [(" const $ab = 1" : Text), "let $a", "var $a$"], ¬ IsExportOf "$a" line := by
    have hall : [(" const $ab = 1" : Text), "let $a", "var $a$"].all (!declaresExported "$a" ·) = true := by
      decide +kernel
    intro line hm he
    have hline := List.all_eq_true.1 hall line hm
    rw [declaresExported_iff.2 he] at hline
    cases hline
  have hlonger : ¬ HasShape "$a" (Text.trim " const $ab = 1") := declaresBare_iff.not.1 (by decide +kernel)
  refine ⟨hname, hword, hother, hshape, ?_, ?_, fun hfound => ?_⟩
  · exact ((line?_eq_some_iff hname _).1 3).2 (.inl ⟨[" const $ab = 1", "let $a"], _, ["var $a$"], rfl, hexported,
      fun line hm => hplain line (List.mem_append_left [("var $a$" : Text)] hm), rfl⟩)
  · exact ((line?_eq_some_iff hname _).1 2).2 (.inr ⟨hplain, [" const $ab = 1"], _, ["var $a$"], rfl, hbare,
      by simpa using hlonger, rfl⟩)
  · exact hplain _ List.mem_cons_self
      ((line?_eq_some_iff hname _).2 hword (by decide) 0 _ "$ab" rfl hother (by decide) (by decide) hshape hfound)

/-! ## Declarations that are found -/

/-- A generator function with its name right after the star. -/
inductive IsGlued (name : Text) : Text → Prop
  | intro {flags : List Bool} {lead blanks rest : Text} (hlead : Led modifiers flags lead) (hblanks : IsBlanks blanks)
      (hend : Text.atNameEnd rest = true) :
      IsGlued name (lead ++ (String.toList "function" ++ (blanks ++ '*' :: (name ++ rest))))

theorem IsGlued.not_hasShape (h : IsGlued name text) (hname : IsNameWord name) : ¬ HasShape name text := by
  obtain @⟨flags, lead, blanks, rest, hlead, hblanks, hend⟩ := h
  intro hshape
  have hbody := (BareKeyword.word (show String.toList "function" ∈ bareWords by decide)).optionals_append hlead
    (blanks ++ '*' :: (name ++ rest))
  generalize lead ++ _ = text at hshape hbody
  obtain @⟨flags', lead', keyword, gap, rest', hlead', hkeyword, hgap, hend'⟩ := hshape
  rw [hkeyword.optionals_append hlead', Prod.mk.injEq] at hbody
  have hspread : Text.trimStart (gap ++ (name ++ rest')) = name ++ rest' := by
    rw [hgap.blanks.trimStart_append, hname.trimStart_append]
  cases hkeyword with
  | word hword =>
    have htail := congrArg Text.trimStart (eq_of_bareWords_append hword (by decide) hbody.2).2
    rw [hspread, hblanks.trimStart_append_star] at htail
    exact hname.append_ne_star htail
  | @generator blanks' hblanks' =>
    have htail := hbody.2
    rw [List.append_assoc, List.append_assoc] at htail
    have hstar := congrArg Text.trimStart (List.append_cancel_left htail)
    rw [hblanks.trimStart_append_star, List.singleton_append, hblanks'.trimStart_append_star] at hstar
    -- White space before the name on one side only.
    have hrest := (List.cons.inj hstar).2
    have hname' := congrArg Text.trimStart hrest
    rw [hspread, hname.trimStart_append] at hname'
    rw [← hname'] at hrest
    exact hgap.ne (List.append_left_eq_self.1 hrest)
  | constEnum => cases hbody.2

/-- The first words of a keyword, where they are words that may come before any keyword. -/
theorem exists_led_of_phrase {front : List Text} (hfront : front ∈ [[], [("async" : Text)], [("abstract" : Text)]])
    (h : Phrase front text) : ∃ flags, Led ["async", "abstract"] flags text := by
  simp only [List.mem_cons, List.not_mem_nil, or_false] at hfront
  rcases hfront with rfl | rfl | rfl
  · cases h
    exact ⟨_, .absent (.absent .nil)⟩
  · cases h with
    | cons hgap h =>
      cases h
      exact ⟨_, .present hgap (.absent .nil)⟩
  · cases h with
    | cons hgap h =>
      cases h
      exact ⟨_, .absent (.present hgap .nil)⟩

/-- A declaration by keyword and name has the shape of one, except for a generator function with
its name right after the star. -/
theorem hasShape_or_isGlued {words : List Text} {kind : Kind} {opening : Text}
    (hlead : Led ["export", "default", "declare"] flags lead) (hopens : Declaration.Opens words kind opening)
    (hend : Text.atNameEnd rest = true) :
    HasShape name (lead ++ (opening ++ (name ++ rest))) ∨ IsGlued name (lead ++ (opening ++ (name ++ rest))) := by
  have hforms : ∀ form ∈ Declaration.forms, form.1 = [("const" : Text), "enum"] ∨
      form.1.dropLast ∈ [[], [("async" : Text)], [("abstract" : Text)]] ∧ form.1.getLastD [] ∈ bareWords := by decide
  cases hopens with
  | plain hform htext =>
    left
    rcases hforms _ hform with he | ⟨hfront, hlast⟩
    · subst he
      obtain ⟨front, gap, hfront, hgap, rfl⟩ :=
        Declaration.exists_of_phrase_append (show Phrase ([_] ++ [_]) _ from htext)
      cases hfront with
      | cons hbetween hnil =>
        cases hnil
        have hshape : HasShape name _ := .intro (hlead.append (.absent (.absent .nil))) (.constEnum hbetween) hgap hend
        simpa using hshape
    · obtain ⟨front, last, rfl⟩ := Declaration.exists_concat_of_mem_forms hform
      rw [List.dropLast_concat] at hfront
      rw [List.getLastD_concat] at hlast
      obtain ⟨lead', gap, hlead', hgap, rfl⟩ := Declaration.exists_of_phrase_append htext
      obtain ⟨flags', hled⟩ := exists_led_of_phrase hfront hlead'
      have hshape : HasShape name _ := .intro (hlead.append hled) (.word hlast) hgap hend
      simpa using hshape
  | @generator front lead' before after hform htext hbefore hafter =>
    obtain ⟨hfront, _⟩ := (hforms _ hform).resolve_left fun he => by
      have hlast := congrArg List.getLast? he
      simp at hlast
    rw [List.dropLast_concat] at hfront
    obtain ⟨flags', hled⟩ := exists_led_of_phrase hfront htext
    by_cases hnil : after = []
    · subst hnil
      have hglued : IsGlued name _ := .intro (hlead.append hled) hbefore hend
      exact .inr (by simpa using hglued)
    · have hshape : HasShape name _ := .intro (hlead.append hled) (.generator hbefore) ⟨hnil, hafter⟩ hend
      exact .inl (by simpa using hshape)

/-- A declaration is an export of its name if it is exported. -/
theorem isExportOf_iff {d : Declaration} (h : Declaration.parse? (Text.trim line) = some d) :
    IsExportOf d.name line ↔ d.exported = true := by
  constructor
  · rintro ⟨found, hfound, _⟩
    obtain ⟨hparse, hexported⟩ := Export.parse?_of_parse?_declaration hfound
    rw [h, Option.some.injEq] at hparse
    exact hparse ▸ hexported
  · exact fun hexported => ⟨d, Declaration.export_parse?_of_exported (Text.trimStart_trim line) h hexported, rfl⟩

theorem explicit?_of_not_exported {d : Declaration} (h : Declaration.parse? text = some d)
    (hbare : ¬ d.exported = true) : Declaration.explicit? (Text.trimStart text) = some d := by
  rw [Declaration.parse?_eq] at h
  rcases Option.or_eq_some_iff.1 h with h | ⟨_, h⟩
  · exact (Option.filter_eq_some_iff.1 h).1
  · obtain ⟨value, _, rfl⟩ := Option.map_eq_some_iff.1 h
    exact absurd rfl hbare

/-- A declaration on a line is found there if it is exported or its name stands apart. -/
theorem isExportOf_or_hasShape_iff {d : Declaration} (h : Declaration.parse? (Text.trim line) = some d) :
    IsExportOf d.name line ∨ HasShape d.name (Text.trim line) ↔
      d.exported = true ∨ ¬ IsGlued d.name (Text.trim line) := by
  rw [isExportOf_iff h]
  by_cases hexported : d.exported = true
  · simp [hexported]
  · have hexplicit := explicit?_of_not_exported h hexported
    rw [Text.trimStart_trim] at hexplicit
    obtain ⟨lead, opening, rest, words, isDefault, isAmbient, hlead, hopens, hname, hend, htext⟩ :=
      Declaration.exists_form_of_explicit? hexplicit
    have hcases : HasShape d.name _ ∨ IsGlued d.name _ := hasShape_or_isGlued hlead hopens hend
    rw [← htext] at hcases
    have hword : IsNameWord d.name := ⟨hname.isWord.ne, hname.nameChars⟩
    exact or_congr_right ⟨fun hshape hglued => hglued.not_hasShape hword hshape, hcases.resolve_right⟩

theorem isSome_line?_iff_exists (hname : name ≠ defaultName) : (line? lines name).isSome = true ↔
    ∃ line ∈ lines, IsExportOf name line ∨ HasShape name (Text.trim line) := by
  have hfirst : ∀ condition : Text → Bool,
      (firstLine? condition lines).isSome = true ↔ ∃ line ∈ lines, condition line = true := by
    simp [firstLine?]
  simp only [line?_eq hname, Option.isSome_or, Bool.or_eq_true, hfirst, declaresExported_iff, declaresBare_iff]
  simp only [and_or_left, exists_or]

/-- **A declaration is found by its name**, if it is exported or is no generator function with
the name right after the star. Otherwise the name is found only if some other line declares it. -/
theorem isSome_line?_iff {before after : List Text} {d : Declaration} (hname : name ≠ defaultName)
    (hparse : Declaration.parse? (Text.trim line) = some d) (hd : d.name = name) :
    (line? (before ++ line :: after) name).isSome = true ↔
      (d.exported = true ∨ ¬ IsGlued name (Text.trim line)) ∨
        ∃ other ∈ before ++ after, IsExportOf name other ∨ HasShape name (Text.trim other) := by
  subst hd
  rw [isSome_line?_iff_exists hname, ← isExportOf_or_hasShape_iff hparse]
  simp only [List.mem_append, List.mem_cons]
  constructor
  · rintro ⟨other, hm | rfl | hm, hother⟩
    · exact .inr ⟨other, .inl hm, hother⟩
    · exact .inl hother
    · exact .inr ⟨other, .inr hm, hother⟩
  · rintro (hline | ⟨other, hm | hm, hother⟩)
    · exact ⟨line, .inr (.inl rfl), hline⟩
    · exact ⟨other, .inl hm, hother⟩
    · exact ⟨other, .inr (.inr hm), hother⟩

/-- An asynchronous generator function with blanks around the star, and no other declaration. -/
theorem isSome_line?_spacedGenerator :
    Declaration.parse? (Text.trim "  async function\t* walk() ") = some ⟨.function, "walk", .named, false⟩ ∧
    ¬ IsGlued "walk" (Text.trim "  async function\t* walk() ") ∧
    (line? ["// walk", "  async function\t* walk() "] "walk").isSome = true := by
  have hparse : Declaration.parse? (Text.trim "  async function\t* walk() ") =
      some ⟨.function, "walk", .named, false⟩ := by decide +kernel
  have hshape : HasShape "walk" (Text.trim "  async function\t* walk() ") := declaresBare_iff.1 (by decide +kernel)
  have hword : IsNameWord "walk" := ⟨by decide, List.all_eq_true.1 (by decide +kernel)⟩
  have hapart : ¬ IsGlued "walk" (Text.trim "  async function\t* walk() ") := fun h => h.not_hasShape hword hshape
  refine ⟨hparse, hapart, ?_⟩
  show (line? ([("// walk" : Text)] ++ ("  async function\t* walk() " : Text) :: []) "walk").isSome = true
  exact (isSome_line?_iff (by decide) hparse rfl).2 (.inl (.inr hapart))

/-- A generator function that is declared and not found, since no blank follows the star. -/
theorem line?_gluedGenerator :
    Declaration.parse? (Text.trim "function*walk() \x7b\x7d") = some ⟨.function, "walk", .named, false⟩ ∧
    line? ["function*walk() \x7b\x7d"] "walk" = none := by
  decide +kernel

end ApiCoverage.Locate
